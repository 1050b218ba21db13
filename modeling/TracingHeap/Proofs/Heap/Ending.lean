import TracingHeap.Heap.Shutdown
import TracingHeap.Proofs.Heap.Counting

/-! How a heap ends.

The count at the end is made in what the last collection has left, and it comes to what could be reached before. The
collector has no part in it: what a heap holds and nobody can reach is no leak, whether or not it has been given back. -/

set_option autoImplicit false

namespace TracingHeap

/-! ### The last collection -/

namespace Engine

variable {w : World} {report : CollectionReport} {e : Engine} {m : Memory}

theorem objectsReclaimed_of_leaky (keeps : w.heap.collector.engine.strategy = .leaky)
    (ran : Engine.collect w.heap.types w.heap.roots.slots (w.heap.collector.engine, w.memory) = .ok report (e, m)) :
    report.objectsReclaimed = 0 := by
  cases engine : w.heap.collector.engine with
  | leaky c =>
    rw [engine] at ran
    cases ran
    rfl
  | markSweep c => rw [engine] at keeps; cases keeps
  | copying c => rw [engine] at keeps; cases keeps

end Engine

/-- Without frames only the global slots are roots. -/
theorem RootStack.slots_of_depth {r : RootStack} (empty : r.depth = 0) : r.slots = r.globals.toList := by
  have none : r.frames = #[] := Array.size_eq_zero_iff.1 empty
  simp [slots, none]

namespace World

/-- The objects that a last collection gives back if so many can be reached. -/
def reclaimable (w : World) (found : Census) : Nat :=
  match w.heap.strategy with
  | .leaky => 0
  | .markSweep | .copying => w.heap.objectCount - found.objects

theorem reclaimable_of_leaky {w : World} (keeps : w.heap.collector.engine.strategy = .leaky) (found : Census) :
    w.reclaimable found = 0 := by
  unfold reclaimable Heap.strategy
  rw [keeps]

theorem reclaimable_of_traces {w : World} (traces : w.heap.collector.engine.strategy ≠ .leaky) (found : Census) :
    w.reclaimable found = w.heap.objectCount - found.objects := by
  unfold reclaimable Heap.strategy
  cases strategy : w.heap.collector.engine.strategy with
  | leaky => exact absurd strategy traces
  | markSweep => rfl
  | copying => rfl

/-- What a heap with no frame ends in if so much can be reached. -/
def conclusion (w : World) (found : Census) (counters : Option Counters) : Except Failure ShutdownReport :=
  if found.objects ≠ 0 ∧ w.heap.config.leakTolerant = false then
    .error (.violation (.leakDetected found.objects found.bytes))
  else .ok ⟨w.heap.strategy, found, w.reclaimable found, counters⟩

/-- What can be reached is a leak, unless leaks are tolerated. If it is none, it is reported. -/
structure Ends (w : World) (found : Census) (outcome : Except Failure ShutdownReport) : Prop where
  leaks : ∀ n b, outcome = .error (.violation (.leakDetected n b)) ↔
    found = ⟨n, b⟩ ∧ 0 < n ∧ w.heap.config.leakTolerant = false
  reports : found.objects = 0 ∨ w.heap.config.leakTolerant = true → ∃ report, outcome = .ok report ∧
    report.collector = w.heap.strategy ∧ report.surviving = found ∧ (report.isClean = true ↔ found.objects = 0) ∧
    report.reclaimed = w.reclaimable found

theorem ends_conclusion (w : World) (found : Census) (counters : Option Counters) :
    w.Ends found (w.conclusion found counters) := by
  unfold conclusion
  split
  · next leaks =>
    constructor
    case leaks =>
      intro n b
      constructor
      · intro same
        cases same
        exact ⟨rfl, Nat.pos_of_ne_zero leaks.1, leaks.2⟩
      · rintro ⟨rfl, -⟩
        rfl
    case reports =>
      rintro (none | tolerant)
      · exact absurd none leaks.1
      · exact absurd (tolerant.symm.trans leaks.2) nofun
  · next fine =>
    constructor
    case leaks =>
      refine fun n b => iff_of_false nofun ?_
      rintro ⟨rfl, more, strict⟩
      exact fine ⟨Nat.ne_of_gt more, strict⟩
    case reports => exact fun _ => ⟨_, rfl, rfl, rfl, decide_eq_true_iff, rfl⟩

theorem conclusion_ne_unbalanced (w : World) (found : Census) (counters : Option Counters) (depth : Nat) :
    w.conclusion found counters ≠ .error (.violation (.rootDiscipline (.unbalanced depth))) := by
  unfold conclusion
  split <;> nofun

end World

namespace Heap

variable {w w' : World} {report : CollectionReport} {found : Census} {x : Failure}

/-- The last collection gives back what cannot be reached, if it gives back anything. The count is the same after it. -/
theorem runCollection_counted (reached : Reached w) (healthy : w.heap.poisoned = none) (formed : w.WellFormed)
    (ordered : w.Ordered) (counted : w.Counted found) : ∃ report w', runCollection w = .ok report w' ∧
      census w' = .ok found w' ∧ w'.heap.config = w.heap.config ∧ w'.heap.strategy = w.heap.strategy ∧
      report.objectsReclaimed = w.reclaimable found := by
  have books := reached.orderly healthy
  obtain ⟨report, e, m, ran, formed', strategy, counted'⟩ := Engine.collect_counted books formed ordered counted
  have books' := books.afterCollection ran
  refine ⟨report, _, runCollection_ok books ran formed', census_eq books' formed' counted', rfl, strategy, ?_⟩
  by_cases keeps : w.heap.collector.engine.strategy = .leaky
  · rw [World.reclaimable_of_leaky keeps]
    exact Engine.objectsReclaimed_of_leaky keeps ran
  · have all := Engine.reach_of_held books formed keeps ran
    have left : found.objects = e.objectCount :=
      congrArg Census.objects ((Engine.counted_of_held (formed'.consistent books') all).unique counted')
    have total := (Engine.reconciles (formed.headed.tidy books) healthy (fun _ => formed.outside) reached.complete
      reached.spaces_aligned ran).objects
    rw [World.reclaimable_of_traces keeps, objectCount]
    omega

theorem finish_unbalanced (healthy : w.heap.poisoned = none) (deep : w.heap.roots.depth ≠ 0) :
    finish w = .error (.violation (.rootDiscipline (.unbalanced w.heap.roots.depth))) w := by
  unfold finish
  rw [run_bind (checkPoisoned_ok healthy), run_bind_get]
  simp only [deep, ne_eq, not_false_eq_true, if_true]
  rfl

/-- What is left decides after the last collection. -/
theorem finish_balanced (healthy : w.heap.poisoned = none) (empty : w.heap.roots.depth = 0)
    (ran : runCollection w = .ok report w') (counted : census w' = .ok found w') :
    finish w = if found.objects ≠ 0 ∧ w'.heap.config.leakTolerant = false then
        .error (.violation (.leakDetected found.objects found.bytes)) w'
      else .ok ⟨w'.heap.strategy, found, report.objectsReclaimed, w'.heap.counters?⟩ w' := by
  unfold finish
  rw [run_bind (checkPoisoned_ok healthy), run_bind_get]
  simp only [empty, ne_eq, not_true_eq_false, if_false]
  rw [run_bind ran, run_bind counted, run_bind_get]
  have clean : (ShutdownReport.isClean ⟨w'.heap.strategy, found, report.objectsReclaimed, w'.heap.counters?⟩ : Bool) =
      decide (found.objects = 0) := rfl
  simp only [clean, Bool.and_eq_true, Bool.not_eq_true', decide_eq_false_iff_not]
  split <;> rfl

theorem shutdown_ok {r : ShutdownReport} (ended : finish w = .ok r w') : (shutdown w.heap w.memory).1 = .ok r := by
  have ended' : finish ⟨w.heap, w.memory⟩ = .ok r w' := ended
  simp only [shutdown, ended']

theorem shutdown_error (ended : finish w = .error x w') : (shutdown w.heap w.memory).1 = .error x := by
  have ended' : finish ⟨w.heap, w.memory⟩ = .error x w' := ended
  simp only [shutdown, ended']

/-- If the last collection fails, it has stopped at an empty object. -/
theorem shutdown_stopped (books : w.Books) (healthy : w.heap.poisoned = none) (formed : w.WellFormed)
    (empty : w.heap.roots.depth = 0) (stuck : ¬ w.Ordered) :
    ∃ x, (shutdown w.heap w.memory).1 = .error x ∧ w.Stopped x := by
  obtain ⟨x, w', failed, stopped⟩ := collect_stopped books healthy formed stuck
  rw [collect_eq healthy] at failed
  exact ⟨x, shutdown_error (finish_interrupted healthy empty failed), stopped⟩

/-- Otherwise it depends on what can be reached. -/
theorem shutdown_balanced (reached : Reached w) (healthy : w.heap.poisoned = none) (formed : w.WellFormed)
    (empty : w.heap.roots.depth = 0) (ordered : w.Ordered) (counted : w.Counted found) :
    ∃ counters, (shutdown w.heap w.memory).1 = w.conclusion found counters := by
  obtain ⟨report, w', ran, census, config, strategy, reclaimed⟩ :=
    runCollection_counted reached healthy formed ordered counted
  have ended := finish_balanced healthy empty ran census
  rw [config, strategy, reclaimed] at ended
  refine ⟨w'.heap.counters?, ?_⟩
  unfold World.conclusion
  split at ended
  · next leaks => rw [if_pos leaks, shutdown_error ended]
  · next fine => rw [if_neg fine, shutdown_ok ended]

-- The count is made in what the last collection has left, so it could differ from what the program has left behind.
/-- In every well-formed state that a heap can reach, its end is determined. Frames that have not been popped are
reported first. Then what the global slots lead to is a leak, unless leaks are tolerated, and nothing else is. Only where
the last collection finds no order for what it moves does it stop at an empty object instead. -/
theorem shutdown_exact (reached : Reached w) (healthy : w.heap.poisoned = none) (formed : w.WellFormed) :
    (∀ depth, (shutdown w.heap w.memory).1 = .error (.violation (.rootDiscipline (.unbalanced depth))) ↔
      0 < depth ∧ w.heap.roots.depth = depth) ∧
    (w.heap.roots.depth = 0 → ¬ w.Ordered → ∃ x, (shutdown w.heap w.memory).1 = .error x ∧ w.Stopped x) ∧
    (w.heap.roots.depth = 0 → w.Ordered → ∃ found,
      Counted w.heap.types w.heap.roots.globals.toList w.memory found ∧ w.Ends found (shutdown w.heap w.memory).1) := by
  have books := reached.orderly healthy
  obtain ⟨found, -, counted⟩ := (formed.consistent books).counted
  have stopped := shutdown_stopped books healthy formed
  have balanced (empty : w.heap.roots.depth = 0) (ordered : w.Ordered) :=
    shutdown_balanced reached healthy formed empty ordered counted
  refine ⟨fun depth => ?_, stopped, fun empty ordered => ⟨found, ?_, ?_⟩⟩
  · by_cases empty : w.heap.roots.depth = 0
    · have other : (shutdown w.heap w.memory).1 ≠ .error (.violation (.rootDiscipline (.unbalanced depth))) := by
        by_cases ordered : w.Ordered
        · obtain ⟨counters, ended⟩ := balanced empty ordered
          rw [ended]
          exact w.conclusion_ne_unbalanced found counters depth
        · obtain ⟨x, ended, p, target, rfl, -⟩ := stopped empty ordered
          rw [ended]
          nofun
      exact iff_of_false other fun ⟨deep, same⟩ => by omega
    · rw [shutdown_error (finish_unbalanced healthy empty)]
      constructor
      · intro same
        cases same
        exact ⟨Nat.pos_of_ne_zero empty, rfl⟩
      · rintro ⟨-, rfl⟩
        rfl
  · rw [← RootStack.slots_of_depth empty]
    exact counted
  · obtain ⟨counters, ended⟩ := balanced empty ordered
    rw [ended]
    exact w.ends_conclusion found counters

/-- The global slot leads to an array that leads to itself, and nothing leads to a second one. The first is moved and
counted. -/
theorem shutdown_exact_loop : ∃ w report, Reached w ∧ w.heap.poisoned = none ∧ w.WellFormed ∧
    w.heap.strategy = .copying ∧ w.heap.objectCount = 2 ∧ w.heap.config.leakTolerant = true ∧
    (shutdown w.heap w.memory).1 = .ok report ∧ report.surviving = ⟨1, 40⟩ ∧ report.isClean = false ∧
    report.reclaimed = 1 := by
  have ran : ((World.play (fun w _ => w.heap.poisoned = none)
      { strategy := .copying, heapSize := 4096, leakTolerant := true } 1
      [.call (.register .references Descriptor.references_isWords), .call (.addGlobal (.cell 0)),
        .call (.allocateArray ⟨1⟩ 1), .setCell 0 (Memory.origin + 24), .call (.allocateArray ⟨1⟩ 0),
        .writeWord (Memory.origin + 24) 8 (Memory.origin + 24)]).any fun w =>
      w.onCopying fun c => w.heap.poisoned = none ∧ w.WellFormed ∧ w.heap.roots.depth = 0 ∧ w.heap.objectCount = 2 ∧
        w.heap.config.leakTolerant = true ∧ w.heap.roots.slots.Nodup ∧
        w.heap.types.census w.heap.roots.slots w.memory = .ok ⟨1, 40⟩ ∧
        (CopyOrder.followAll w.memory.isEmpty [] (w.heap.roots.slots.map w.memory.slot)).bind
          (CopyOrder.scan w.memory.isEmpty (w.heap.types.references w.memory) c.spaces.size 0) =
            some [Memory.origin + 24]) = true := by
    decide +kernel
  obtain ⟨w, played, shown⟩ := (Option.any_eq_true _ _).1 ran
  obtain ⟨c, engine, shown⟩ := World.onCopying_eq_true.1 shown
  obtain ⟨healthy, formed, empty, objects, tolerant, nodup, census, order⟩ := of_decide_eq_true shown
  have reached := Reached.of_play played
  have ordered : w.Ordered := by
    intro c' engine'
    cases engine.symm.trans engine'
    exact ⟨_, by rw [copyOrder, distinctSlots_of_nodup nodup, order]⟩
  obtain ⟨-, -, exact'⟩ := shutdown_exact reached healthy formed
  obtain ⟨found, counted, ends⟩ := exact' empty ordered
  obtain ⟨found', census', counted'⟩ := (formed.consistent (reached.orderly healthy)).counted
  rw [RootStack.slots_of_depth empty] at census census' counted'
  obtain rfl := Except.ok.inj (census.symm.trans census')
  obtain rfl := counted'.unique counted
  obtain ⟨report, ended, -, surviving, clean, reclaimed⟩ := ends.reports (.inr tolerant)
  have traces : w.heap.collector.engine.strategy ≠ .leaky := by
    rw [engine]
    exact (by decide : Strategy.copying ≠ .leaky)
  rw [World.reclaimable_of_traces traces, objects] at reclaimed
  refine ⟨w, report, reached, healthy, formed, by rw [strategy, engine]; rfl, objects, tolerant, ended, surviving, ?_, reclaimed⟩
  exact Bool.eq_false_iff.2 fun none => absurd (clean.1 none) (by decide)

/-- Two global slots lead to an object without payload, which is all that can be reached. The heap ends in an error that
is not the leak. -/
theorem shutdown_misses_leak : ∃ w, Reached w ∧ w.heap.poisoned = none ∧ w.WellFormed ∧ w.heap.roots.depth = 0 ∧
    Counted w.heap.types w.heap.roots.globals.toList w.memory ⟨1, 24⟩ ∧ w.heap.config.leakTolerant = false ∧
    ∃ p target, (shutdown w.heap w.memory).1 = .error (.corrupted p (.danglingForward target)) := by
  have ran : ((World.play (fun w _ => w.heap.poisoned = none) { strategy := .copying, heapSize := 4096 } 2
      [.call (.register .empty Descriptor.empty_isWords), .call (.register .references Descriptor.references_isWords),
        .call (.addGlobal (.cell 0)), .call (.addGlobal (.cell 1)), .call (.allocate ⟨1⟩ 0),
        .setCell 0 (Memory.origin + 24), .setCell 1 (Memory.origin + 24), .call (.allocateArray ⟨2⟩ 0)]).any fun w =>
      w.onCopying fun c => w.heap.poisoned = none ∧ w.WellFormed ∧ w.heap.roots.depth = 0 ∧
        w.heap.config.leakTolerant = false ∧ w.heap.roots.slots.Nodup ∧
        w.heap.types.census w.heap.roots.slots w.memory = .ok ⟨1, 24⟩ ∧
        (CopyOrder.followAll w.memory.isEmpty [] (w.heap.roots.slots.map w.memory.slot)).isNone) = true := by
    decide +kernel
  obtain ⟨w, played, shown⟩ := (Option.any_eq_true _ _).1 ran
  obtain ⟨c, engine, shown⟩ := World.onCopying_eq_true.1 shown
  obtain ⟨healthy, formed, empty, strict, nodup, census, order⟩ := of_decide_eq_true shown
  have reached := Reached.of_play played
  have books := reached.orderly healthy
  obtain ⟨found, census', counted⟩ := (formed.consistent books).counted
  rw [census] at census'
  cases census'
  rw [RootStack.slots_of_depth empty] at counted
  have stuck : ¬ w.Ordered := by
    intro ordered
    obtain ⟨l, order'⟩ := ordered c engine
    rw [copyOrder, distinctSlots_of_nodup nodup, Option.isNone_iff_eq_none.1 order, Option.bind_none] at order'
    cases order'
  obtain ⟨x, ended, p, target, rfl, -⟩ := shutdown_stopped books healthy formed empty stuck
  exact ⟨w, reached, healthy, formed, empty, counted, strict, p, target, ended⟩

end Heap

end TracingHeap

import TracingHeap.Proofs.Heap.Capacity
import TracingHeap.Proofs.Heap.Conduct
import TracingHeap.Proofs.Heap.Failure
import TracingHeap.Proofs.Statistics.Engines

/-! Runs of a heap that keeps counts.

What a program asks of its heap and what it gets can be added up along a run, from what the engine does and without a look at
the counters. The counters, which are kept beside the engine and see only its reports, come to the same. -/

set_option autoImplicit false

namespace TracingHeap

/-- What has come of a run so far. Unlike the counters, these totals are not kept modulo 2^64. -/
structure Tally where
  /-- Requests that were answered, and the bytes that they asked for. -/
  served : Nat := 0
  requested : Nat := 0
  /-- Bytes that were handed out beyond what was asked for. -/
  tails : Nat := 0
  /-- Objects and bytes that collections have given back. -/
  freed : Nat := 0
  released : Nat := 0
  /-- Objects that collections have moved. -/
  evacuated : Nat := 0

namespace Tally

/-- The collector runs. If it fails, it has given nothing back. -/
def collect (t : Tally) (w : World) : Tally :=
  match Engine.collect w.heap.types w.heap.roots.slots (w.heap.collector.engine, w.memory) with
  | .ok _ (e, _) => { t with
      freed := t.freed + (w.heap.objectCount - e.objectCount)
      released := t.released + (w.heap.liveBytes - e.liveBytes)
      evacuated := t.evacuated + e.evacuated }
  | .error _ _ => t

/-- A block is handed out. -/
def grant (t : Tally) (w : World) (size : Nat) : Tally :=
  match w.heap.collector.engine.allocate size with
  | some (_, e) => { t with
      served := t.served + 1
      requested := t.requested + size
      tails := t.tails + (e.liveBytes - (w.heap.liveBytes + size)) }
  | none => t

/-- What a call adds before it asks for a block. -/
def prepare (t : Tally) (op : Operation) (w : World) : Tally := if op.Triggers w then t.collect w else t

/-- What a call adds that succeeds. -/
def serve (t : Tally) (op : Operation) (w : World) : Tally :=
  match op.request? w.heap.types with
  | some size => (t.prepare op w).grant (op.prepared w) size
  | none => t.prepare op w

end Tally

-- The steps are those of `Tended`: the program leaves headers alone, and the roots of a heap that moves are cells.
/-- The runs of a heap that keeps counts: the states that have been passed, the last one first, what has come of the run, and
the state that it has led to. -/
inductive Chronicle : List World → Tally → World → Prop where
  | create {config : Config} {m m' : Memory} {h : Heap} : config.mode ≠ .normal → Heap.create config m = .ok (h, m') →
      m'.Regular → Chronicle [] {} ⟨h, m'⟩
  | done {past : List World} {t : Tally} {w w' : World} {op : Operation} : Chronicle past t w →
      (op.collects = true → w.RootsOutside) → op.run w = .ok () w' → Chronicle (w :: past) (t.serve op w) w'
  | refused {past : List World} {t : Tally} {w w' : World} {op : Operation} {e : HeapError} : Chronicle past t w →
      (op.collects = true → w.RootsOutside) → op.run w = .error (.violation e) w' →
      Chronicle (w :: past) (t.prepare op w) w'
  | program {past : List World} {t : Tally} {w : World} {m' : Memory} : Chronicle past t w → m'.Regular →
      (∀ start ∈ w.heap.collector.engine.arenas, ∀ n, m'.holds start n = w.memory.holds start n) →
      (∀ p, w.Held p → m'.header (blockOf p) = w.memory.header (blockOf p)) → Chronicle (w :: past) t { w with memory := m' }

theorem Chronicle.tended {past : List World} {t : Tally} {w : World} (chronicle : Chronicle past t w) : Tended w := by
  induction chronicle with
  | create _ created regular => exact .create created regular
  | done _ outside ran ih => exact .done ih outside ran
  | refused _ outside ran ih => exact .refused ih outside ran
  | program _ regular same headers ih => exact .program ih regular same headers

/-! ### What the counters keep -/

/-- The counters are the totals, modulo 2^64. -/
structure Counters.Totals (n : Counters) (t : Tally) : Prop where
  allocations : n.allocations = Word.wrap t.served
  bytesAllocated : n.bytesAllocated = Word.wrap t.requested
  objectsReclaimed : n.objectsReclaimed = Word.wrap t.freed
  bytesReclaimed : n.bytesReclaimed = Word.wrap t.released
  objectsRelocated : n.objectsRelocated = Word.wrap t.evacuated

/-- The counters know how many objects there are, and how many there were at most. -/
structure Counters.Follows (n : Counters) (past : List World) (count : Nat) : Prop where
  live : n.liveObjects = count
  bound : count ≤ n.liveHighWater ∧ ∀ v ∈ past, v.heap.objectCount ≤ n.liveHighWater
  attained : n.liveHighWater = count ∨ ∃ v ∈ past, v.heap.objectCount = n.liveHighWater

theorem Word.wrap_add_wrap (a b : Nat) : wrap (wrap a + b) = wrap (a + b) := Nat.mod_add_mod a wordLimit b

namespace Counters

variable {past : List World} {t : Tally} {n : Counters} {count : Nat}

theorem Totals.recordCollection (totals : n.Totals t) (r : CollectionReport) : (n.recordCollection r).Totals { t with
    freed := t.freed + r.objectsReclaimed
    released := t.released + r.bytesReclaimed
    evacuated := t.evacuated + r.objectsRelocated } where
  allocations := totals.allocations
  bytesAllocated := totals.bytesAllocated
  objectsReclaimed := by
    show Word.wrap (n.objectsReclaimed + _) = _
    rw [totals.objectsReclaimed, Word.wrap_add_wrap]
  bytesReclaimed := by
    show Word.wrap (n.bytesReclaimed + _) = _
    rw [totals.bytesReclaimed, Word.wrap_add_wrap]
  objectsRelocated := by
    show Word.wrap (n.objectsRelocated + _) = _
    rw [totals.objectsRelocated, Word.wrap_add_wrap]

theorem Totals.recordAllocation (totals : n.Totals t) (size tails : Nat) : (n.recordAllocation size).Totals { t with
    served := t.served + 1
    requested := t.requested + size
    tails } where
  allocations := by
    show Word.wrap (n.allocations + 1) = _
    rw [totals.allocations, Word.wrap_add_wrap]
  bytesAllocated := by
    show Word.wrap (n.bytesAllocated + size) = _
    rw [totals.bytesAllocated, Word.wrap_add_wrap]
  objectsReclaimed := totals.objectsReclaimed
  bytesReclaimed := totals.bytesReclaimed
  objectsRelocated := totals.objectsRelocated

/-- Where the state before a collection has been passed, the most objects that there were is still attained. -/
theorem Follows.recordCollection {w : World} (follows : n.Follows past w.heap.objectCount) (known : w ∈ past)
    {r : CollectionReport} (live : r.objectsLive = count) (fewer : count ≤ w.heap.objectCount) :
    (n.recordCollection r).Follows past count := by
  obtain ⟨-, ⟨here, before⟩, attained⟩ := follows
  refine ⟨live, ⟨Nat.le_trans fewer here, before⟩, .inr ?_⟩
  rcases attained with here | there
  · exact ⟨w, known, here.symm⟩
  · exact there

theorem Follows.recordAllocation (follows : n.Follows past count) (fits : count + 1 < wordLimit) (size : Nat) :
    (n.recordAllocation size).Follows past (count + 1) := by
  obtain ⟨live, ⟨here, before⟩, attained⟩ := follows
  have next : Word.wrap (n.liveObjects + 1) = count + 1 := by rw [live, Word.wrap_of_lt fits]
  have most : (n.recordAllocation size).liveHighWater = max n.liveHighWater (count + 1) := congrArg (max _) next
  refine ⟨next, ?_, ?_⟩ <;> rw [most]
  · exact ⟨Nat.le_max_right _ _, fun v member => Nat.le_trans (before v member) (Nat.le_max_left _ _)⟩
  · rcases attained with same | ⟨v, member, same⟩
    · exact .inl (by omega)
    · rcases Nat.le_total n.liveHighWater (count + 1) with below | above
      · exact .inl (Nat.max_eq_right below)
      · exact .inr ⟨v, member, by rw [Nat.max_eq_left above, same]⟩

end Counters

/-- The totals account for what is there, and the counters for the totals. -/
structure Collector.Balanced (past : List World) (t : Tally) (c : Collector) : Prop where
  objects : t.served = t.freed + c.engine.objectCount
  bytes : t.requested + t.tails = t.released + c.engine.liveBytes
  small : t.tails ≤ 16 * t.served
  whole : wordSize ∣ t.tails
  tailless : c.engine.strategy ≠ .markSweep → t.tails = 0
  counters : ∃ n, c.counters? = some n ∧ n.Totals t ∧
    (t.served < wordLimit → n.Follows past c.engine.objectCount)

theorem Layer.findSome?_counters?_map {record : Layer → Layer} {f : Counters → Counters}
    (each : ∀ l : Layer, (record l).counters? = l.counters?.map f) (layers : List Layer) :
    (layers.map record).findSome? counters? = (layers.findSome? counters?).map f := by
  induction layers with
  | nil => rfl
  | cons l rest ih =>
    rw [List.map_cons, List.findSome?_cons, List.findSome?_cons, each, ih]
    cases l.counters? <;> rfl

namespace Collector

theorem counters?_recordCollection (e : Engine) {c : Collector} {n : Counters} (counters : c.counters? = some n)
    (r : CollectionReport) :
    counters? ⟨e, c.layers.map (Layer.recordCollection r)⟩ = some (n.recordCollection r) :=
  (Layer.findSome?_counters?_map (fun l => by cases l <;> rfl) c.layers).trans (congrArg (Option.map _) counters)

theorem counters?_recordAllocation (e : Engine) {c : Collector} {n : Counters} (counters : c.counters? = some n)
    (size : Nat) : counters? ⟨e, c.layers.map (Layer.recordAllocation size)⟩ = some (n.recordAllocation size) :=
  (Layer.findSome?_counters?_map (fun l => by cases l <;> rfl) c.layers).trans (congrArg (Option.map _) counters)

namespace Balanced

variable {past : List World} {t : Tally} {w : World} {e : Engine} {report : CollectionReport} {m : Memory} {size : Nat}

/-- The state joins those that have been passed. -/
theorem pass (balanced : Balanced past t w.heap.collector) : Balanced (w :: past) t w.heap.collector := by
  obtain ⟨n, counters, totals, follows⟩ := balanced.counters
  refine { balanced with counters := ⟨n, counters, totals, fun fits => ?_⟩ }
  obtain ⟨live, ⟨here, before⟩, attained⟩ := follows fits
  refine ⟨live, ⟨here, List.forall_mem_cons.2 ⟨here, before⟩⟩, attained.imp_right fun ⟨v, member, most⟩ => ?_⟩
  exact ⟨v, List.mem_cons_of_mem w member, most⟩

/-- A collection that succeeds. -/
theorem reconcile (balanced : Balanced past t w.heap.collector) (known : w ∈ past)
    (ran : Engine.collect w.heap.types w.heap.roots.slots (w.heap.collector.engine, w.memory) = .ok report (e, m))
    (reconciles : w.heap.collector.engine.Reconciles report e) :
    Balanced past (t.collect w) ⟨e, w.heap.collector.layers.map (Layer.recordCollection report)⟩ := by
  obtain ⟨n, counters, totals, follows⟩ := balanced.counters
  obtain ⟨live, count, room, moved⟩ := reconciles
  have kind := Engine.sameKind_collect (e := w.heap.collector.engine) (m := w.memory) w.heap.types w.heap.roots.slots
  rw [ran] at kind
  have strategy : e.strategy = w.heap.collector.engine.strategy := kind.strategy
  have freed : w.heap.objectCount - e.objectCount = report.objectsReclaimed := Nat.sub_eq_of_eq_add count
  have released : w.heap.liveBytes - e.liveBytes = report.bytesReclaimed := Nat.sub_eq_of_eq_add room
  have total : t.collect w = { t with
      freed := t.freed + report.objectsReclaimed
      released := t.released + report.bytesReclaimed
      evacuated := t.evacuated + report.objectsRelocated } := by
    simp only [Tally.collect, ran, freed, released, moved]
  rw [total]
  constructor
  case objects => exact balanced.objects.trans ((congrArg (t.freed + ·) count).trans (Nat.add_assoc ..).symm)
  case bytes => exact balanced.bytes.trans ((congrArg (t.released + ·) room).trans (Nat.add_assoc ..).symm)
  case small => exact balanced.small
  case whole => exact balanced.whole
  case tailless => exact fun other => balanced.tailless (strategy ▸ other)
  case counters =>
    have fewer : e.objectCount ≤ w.heap.objectCount := Nat.le_trans (Nat.le_add_left ..) (Nat.le_of_eq count.symm)
    exact ⟨_, counters?_recordCollection e counters report, totals.recordCollection report,
      fun fits => (follows fits).recordCollection known live fewer⟩

/-- A collection that fails. -/
theorem interrupt (balanced : Balanced past t w.heap.collector) {x : Failure}
    (failed : Engine.collect w.heap.types w.heap.roots.slots (w.heap.collector.engine, w.memory) = .error x (e, m)) :
    Balanced past (t.collect w) ⟨e, w.heap.collector.layers⟩ := by
  have books := Engine.sameBooks_of_error failed
  have kind := Engine.sameKind_collect (e := w.heap.collector.engine) (m := w.memory) w.heap.types w.heap.roots.slots
  rw [failed] at kind
  have strategy : e.strategy = w.heap.collector.engine.strategy := kind.strategy
  have total : t.collect w = t := by simp only [Tally.collect, failed]
  rw [total]
  obtain ⟨objects, bytes, small, whole, tailless, counters⟩ := balanced
  rw [← books.objectCount] at objects counters
  rw [← books.liveBytes] at bytes
  exact ⟨objects, bytes, small, whole, fun other => tailless (strategy ▸ other), counters⟩

/-- A block is handed out. -/
theorem extend (balanced : Balanced past t w.heap.collector) {block : Nat}
    (allocated : w.heap.collector.engine.allocate size = some (block, e))
    (extends' : w.heap.collector.engine.Extends size e) :
    Balanced past (t.grant w size) (Heap.handedOut w e size).heap.collector := by
  obtain ⟨n, counters, totals, follows⟩ := balanced.counters
  obtain ⟨count, tail, room, small, whole, tailless⟩ := extends'
  have strategy : e.strategy = w.heap.collector.engine.strategy := (Engine.sameKind_allocate allocated).strategy
  have spare : e.liveBytes - (w.heap.liveBytes + size) = tail := by
    rw [room]
    exact Nat.add_sub_cancel_left ..
  have total : t.grant w size = { t with
      served := t.served + 1
      requested := t.requested + size
      tails := t.tails + tail } := by
    simp only [Tally.grant, allocated, spare]
  have before := balanced.bytes
  have served := balanced.objects
  have narrow := balanced.small
  rw [total]
  constructor
  case objects =>
    show t.served + 1 = t.freed + e.objectCount
    omega
  case bytes =>
    show t.requested + size + (t.tails + tail) = t.released + e.liveBytes
    omega
  case small =>
    show t.tails + tail ≤ 16 * (t.served + 1)
    omega
  case whole => exact Nat.dvd_add balanced.whole whole
  case tailless =>
    intro other
    have other : w.heap.collector.engine.strategy ≠ .markSweep := strategy ▸ other
    show t.tails + tail = 0
    rw [balanced.tailless other, tailless other]
  case counters =>
    refine ⟨_, counters?_recordAllocation e counters size, totals.recordAllocation size _, fun fits => ?_⟩
    have fits : t.served + 1 < wordLimit := fits
    show Counters.Follows _ past e.objectCount
    rw [count]
    exact (follows (by omega)).recordAllocation (by omega) size

end Balanced

end Collector

/-! ### Along a run -/

namespace Heap

open Collector (Balanced)

variable {past : List World} {t : Tally} {w w' : World} {op : Operation} {size : Nat}

theorem after_poisoning_collector {α : Type} (act : HeapM α) (w : World) :
    (after (poisoning act w)).heap.collector = (after (act w)).heap.collector := by
  unfold poisoning
  cases act w with
  | ok a w' => rfl
  | error x w' => cases x <;> rfl

/-- The check after a collection leaves the collector alone. -/
theorem after_runCollection_collector (w : World) :
    (after (runCollection w)).heap.collector = (after (runCollector w)).heap.collector := by
  have collected := after_poisoning_collector runCollector w
  unfold runCollection
  cases step : poisoning runCollector w with
  | error x w₁ =>
    rw [step] at collected
    rw [run_bind_error step]
    exact collected
  | ok report w₁ =>
    rw [step] at collected
    rw [run_bind step, run_bind_get, ← collected]
    have looked : (after (verify w₁)).heap.collector = w₁.heap.collector := by
      unfold verify look
      split <;> rfl
    have verified := (after_poisoning_collector verify w₁).trans looked
    split
    · cases check : poisoning verify w₁ <;> rw [check] at verified
      · rw [run_bind check]
        exact verified
      · rw [run_bind_error check]
        exact verified
    · rfl

theorem balanced_runCollection (balanced : Balanced past t w.heap.collector) (known : w ∈ past) (tidy : w.Tidy)
    (healthy : w.heap.poisoned = none) (outside : w.RootsOutside) (complete : w.Complete) (aligned : w.Aligned) :
    Balanced past (t.collect w) (after (runCollection w)).heap.collector := by
  rw [after_runCollection_collector]
  unfold runCollector Collector.collect
  cases collected : Engine.collect w.heap.types w.heap.roots.slots (w.heap.collector.engine, w.memory) with
  | ok report pair =>
    have reconciles := Engine.reconciles tidy healthy outside complete aligned collected
    simp only [collected]
    exact balanced.reconcile known collected reconciles
  | error x pair =>
    simp only [collected]
    exact balanced.interrupt collected

/-- A call that lets the collector run is one that may. -/
theorem collects_of_triggers (triggers : op.Triggers w) : op.collects = true := by
  obtain ⟨-, rfl | ⟨size, asked, -⟩⟩ := op.triggers_iff.1 triggers
  · rfl
  · obtain ⟨id, extra, -, rfl | ⟨count, d, r, -, -, -, rfl⟩⟩ := Operation.of_request asked <;> rfl

theorem balanced_prepared (balanced : Balanced past t w.heap.collector) (known : w ∈ past) (tidy : w.Tidy)
    (outside : op.collects = true → w.RootsOutside) (complete : w.Complete) (aligned : w.Aligned) :
    Balanced past (t.prepare op w) (op.prepared w).heap.collector := by
  unfold Tally.prepare Operation.prepared
  by_cases triggers : op.Triggers w
  · rw [if_pos triggers, if_pos triggers]
    exact balanced_runCollection balanced known tidy triggers.1 (outside (collects_of_triggers triggers)) complete
      aligned
  · rw [if_neg triggers, if_neg triggers]
    exact balanced

/-- A call that succeeds finds the heap in order when it asks for its block. -/
theorem goes_prepared (tidy : w.Tidy) (healthy : w.heap.poisoned = none)
    (outside : op.collects = true → w.RootsOutside) (done : ¬ Fails (op.run w)) : Goes w (op.prepared w) := by
  unfold Operation.prepared
  by_cases triggers : op.Triggers w
  · rw [if_pos triggers]
    cases ran : runCollection w with
    | ok report u =>
      have outside := outside (collects_of_triggers triggers)
      have leaves := leaves_runCollection World.upheld_true ⟨tidy, fun _ => trivial⟩ outside healthy
      exact (leaves.of_ok ran).1
    | error x u =>
      rcases run_interrupted triggers ran with failed | failed <;> exact absurd (failed ▸ fails_error ..) done
  · rw [if_neg triggers]
    exact ⟨tidy, healthy, rfl⟩

/-- Every block is asked for by an object. -/
theorem footprint_of_request {types : TypeTable} (asked : op.request? types = some size) :
    ∃ n, n ≤ largestPayload ∧ size = footprint n := by
  obtain ⟨id, extra, block, -⟩ := Operation.of_request asked
  obtain ⟨d, -, small, rfl⟩ := TypeTable.blockFor?_eq_some.1 block
  exact ⟨_, small, rfl⟩

theorem healthy_of_request (asked : op.request? w.heap.types = some size) (done : ¬ Fails (op.run w)) :
    w.heap.poisoned = none := by
  cases poisoned : w.heap.poisoned with
  | none => rfl
  | some e =>
    refine absurd ?_ done
    obtain ⟨id, extra, -, rfl | ⟨count, d, r, -, -, -, rfl⟩⟩ := Operation.of_request asked
    · exact ⟨_, _, run_bind_error (allocate_poisoned poisoned id extra)⟩
    · exact ⟨_, _, run_bind_error (allocateArray_poisoned poisoned id count)⟩

theorem balanced_done (balanced : Balanced past t w.heap.collector) (known : w ∈ past) (tidy : w.Tidy)
    (outside : op.collects = true → w.RootsOutside) (complete : w.Complete) (aligned : w.Aligned) (ran : op.run w = .ok () w') :
    Balanced past (t.serve op w) w'.heap.collector := by
  have prepared := balanced_prepared balanced known tidy outside complete aligned
  have obtains := (leaves_collector w op).of_ok ran
  have done : ¬ Fails (op.run w) := ran ▸ not_fails_ok _ _
  unfold Tally.serve
  unfold Operation.Obtains at obtains
  cases asked : op.request? w.heap.types with
  | none =>
    rw [asked] at obtains
    rw [obtains]
    exact prepared
  | some size =>
    rw [asked] at obtains
    obtain ⟨block, e, allocated, collector⟩ := obtains
    obtain ⟨n, small, rfl⟩ := footprint_of_request asked
    have goes := goes_prepared tidy (healthy_of_request asked done) outside done
    have complete' : (op.prepared w).Complete := by
      unfold Operation.prepared
      split
      · exact World.Complete.lasting.across.runCollection w complete
      · exact complete
    rw [collector]
    exact prepared.extend allocated (Engine.extends_allocate goes.tidy.charted (goes.tidy.books goes.healthy).ledger small
      allocated fun c engine => (complete' c engine).1)

end Heap

theorem Collector.balanced_create {config : Config} {m m' : Memory} {h : Heap} (counts : config.mode ≠ .normal)
    (created : Heap.create config m = .ok (h, m')) : Balanced [] {} h.collector := by
  obtain ⟨-, engine, started, rfl⟩ := Heap.create_eq_ok created
  have fresh := Engine.created started
  have counters : counters? ⟨engine, Layer.ofMode config.mode⟩ = some {} := by
    cases mode : config.mode with
    | normal => exact absurd mode counts
    | statistics => rfl
    | stress => rfl
  have empty : engine.objectCount = 0 ∧ engine.liveBytes = 0 := by
    generalize config.strategy = strategy at fresh
    cases fresh with
    | markSweep granted => exact ⟨rfl, by simp [Engine.liveBytes, MarkSweep.liveBytes, FreeList.insert]⟩
    | copying first second => exact ⟨rfl, rfl⟩
    | leaky granted => exact ⟨rfl, rfl⟩
  obtain ⟨none, clear⟩ := empty
  constructor
  case objects => exact none.symm.trans (Nat.zero_add _).symm
  case bytes => exact clear.symm.trans (Nat.zero_add _).symm
  case small => exact Nat.le_refl _
  case whole => exact Nat.dvd_zero _
  case tailless => exact fun _ => rfl
  case counters =>
    have follows : Counters.Follows {} [] 0 := ⟨rfl, ⟨Nat.le_refl _, List.forall_mem_nil _⟩, .inl rfl⟩
    exact ⟨{}, counters, ⟨rfl, rfl, rfl, rfl, rfl⟩, fun _ => none.symm ▸ follows⟩

/-- In every state of a run the totals account for what is there, and the counters for the totals. -/
theorem Chronicle.balanced {past : List World} {t : Tally} {w : World} (chronicle : Chronicle past t w) :
    w.heap.collector.Balanced past t := by
  induction chronicle with
  | create counts created _ => exact Collector.balanced_create counts created
  | @done past t w w' op before outside ran ih =>
    have tended := before.tended
    exact Heap.balanced_done ih.pass List.mem_cons_self tended.tidy outside tended.reached.complete
      tended.reached.spaces_aligned ran
  | @refused past t w w' op e before outside ran ih =>
    have tended := before.tended
    rw [(Heap.leaves_collector w op).of_refused ran]
    exact Heap.balanced_prepared ih.pass List.mem_cons_self tended.tidy outside tended.reached.complete
      tended.reached.spaces_aligned
  | program _ _ _ _ ih => exact ih.pass

/-! ### Histories -/

/-- Every state of a heap that keeps counts has a history. -/
theorem Tended.chronicle {w : World} (tended : Tended w) (counts : w.heap.config.mode ≠ .normal) :
    ∃ past t, Chronicle past t w := by
  induction tended with
  | create created regular =>
    obtain ⟨-, engine, -, rfl⟩ := Heap.create_eq_ok created
    exact ⟨_, _, .create counts created regular⟩
  | @done w w' op before outside ran ih =>
    have built := ((World.Built.lasting _).run op).of_ok ran before.reached.built
    obtain ⟨past, t, chronicle⟩ := ih (built.configured ▸ counts)
    exact ⟨_, _, .done chronicle outside ran⟩
  | @refused w w' op e before outside ran ih =>
    have built := ((World.Built.lasting _).run op).of_error ran before.reached.built
    obtain ⟨past, t, chronicle⟩ := ih (built.configured ▸ counts)
    exact ⟨_, _, .refused chronicle outside ran⟩
  | program _ regular same headers ih =>
    obtain ⟨past, t, chronicle⟩ := ih counts
    exact ⟨_, _, .program chronicle regular same headers⟩

/-- A careful program leaves the headers alone. -/
theorem Behaved.tended {w : World} (behaved : Behaved World.Allows w) : Tended w := by
  have calls {w : World} {op : Operation} (behaved : Behaved World.Allows w) : op.collects = true → w.RootsOutside :=
    fun _ _ => behaved.sound.formed.outside
  induction behaved with
  | create created regular => exact .create created regular
  | @done w w' a before allowed ran ih =>
    have wrote (quiet : ∀ op, a ≠ .call op) (tends : Tended.Tends w a) : Tended w' := by
      obtain ⟨m', rfl, regular, same, headers⟩ := ih.written tends ran quiet
      exact .program ih regular same headers
    cases a with
    | call op => exact .done ih (calls before) ran
    | write p a bytes =>
      obtain ⟨⟨holds, above, within, -⟩, -⟩ := allowed
      exact wrote nofun ⟨holds, above, within⟩
    | setCell i v => exact wrote nofun trivial
  | @failed w w' a e before allowed ran other ih =>
    cases a with
    | call op => exact .refused ih (calls before) ran
    | write p a bytes =>
      obtain ⟨_, done, -⟩ := Heap.write_ok before.sound allowed.1 allowed.2
      cases done.symm.trans ran
    | setCell i v =>
      obtain ⟨_, done, -⟩ := Heap.setCell_ok before.sound allowed.1
      cases done.symm.trans ran

/-- What an action adds that succeeds. -/
def Tally.act (t : Tally) (w : World) : Action → Tally
  | .call op => t.serve op w
  | .write .. | .setCell .. => t

/-- The history of some actions, if all of them are allowed and succeed. -/
def Chronicle.follow : List Action → List World → Tally → World → Option (List World × Tally × World)
  | [], past, t, w => some (past, t, w)
  | a :: rest, past, t, w =>
    if Tended.Tends w a then
      match a.run w with
      | .ok () w' => follow rest (w :: past) (t.act w a) w'
      | .error _ _ => none
    else none

theorem Chronicle.of_follow {actions : List Action} {past past' : List World} {t t' : Tally} {w w' : World}
    (chronicle : Chronicle past t w) (ran : follow actions past t w = some (past', t', w')) : Chronicle past' t' w' := by
  induction actions generalizing past t w with
  | nil =>
    cases ran
    exact chronicle
  | cons a rest ih =>
    rw [follow] at ran
    split at ran
    · next tends =>
      cases outcome : a.run w with
      | error e u => simp only [outcome] at ran; cases ran
      | ok _ u =>
        simp only [outcome] at ran
        refine ih ?_ ran
        have wrote (quiet : ∀ op, a ≠ .call op) : Chronicle (w :: past) t u := by
          obtain ⟨m', rfl, regular, same, headers⟩ := chronicle.tended.written tends outcome quiet
          exact .program chronicle regular same headers
        cases a with
        | call op => exact .done chronicle (fun _ _ s root => Memory.isCell_iff.1 (tends s root)) outcome
        | write p a bytes => exact wrote nofun
        | setCell i v => exact wrote nofun
    · cases ran

/-- The history of a program that starts on a heap of its own. -/
def Chronicle.play (config : Config) (cells : Nat) (actions : List Action) : Option (List World × Tally × World) :=
  (World.start config cells).bind (follow actions [] {})

theorem Chronicle.of_play {config : Config} {cells : Nat} {actions : List Action} {past : List World} {t : Tally}
    {w : World} (counts : config.mode ≠ .normal) (ran : play config cells actions = some (past, t, w)) :
    Chronicle past t w := by
  obtain ⟨first, started, ran⟩ := Option.bind_eq_some_iff.1 ran
  obtain ⟨created, regular⟩ := World.start_eq_some started
  exact of_follow (.create counts created regular) ran

end TracingHeap

import TracingHeap.Proofs.Heap.Triggering
import TracingHeap.Proofs.Statistics.Chronicle

/-! How often a heap is collected.

A request has the collector run if there is no room for it, or if the mode says so. In stress mode it always does, and so
the collections of a run can be told from what the program has asked for. -/

set_option autoImplicit false

namespace TracingHeap

/-- The engine of a heap is in a state that engines can be in. -/
theorem World.lasting_attained : World.Lasting fun w => w.heap.collector.engine.Attained where
  untouched attained same := same.engine ▸ attained
  collected w attained := by
    unfold Heap.runCollector Collector.collect
    cases ran : Engine.collect w.heap.types w.heap.roots.slots (w.heap.collector.engine, w.memory) <;>
      simp only [ran, after] <;> exact attained.collect (congrArg after ran)
  taken w size _ _ attained := by
    unfold Heap.takeBlock Collector.allocate
    cases found : w.heap.collector.engine.allocate size with
    | none =>
      simp only [found, Option.map_none]
      exact attained
    | some pair =>
      simp only [found, Option.map_some]
      exact attained.allocate found

theorem Reached.attained {w : World} (reached : Reached w) : w.heap.collector.engine.Attained :=
  World.lasting_attained.reached reached
    (fun created _ => by
      obtain ⟨-, engine, started, rfl⟩ := Heap.create_eq_ok created
      exact .create started)
    fun attained _ _ => attained

/-! ### Which mode forces collections -/

namespace Heap

variable {w w' : World} {op : Operation} {size : Nat}

theorem forced_runCollection (w : World) : (after (runCollection w)).forced = w.forced := by
  unfold World.forced
  rw [after_runCollection_collector]
  unfold runCollector Collector.collect
  cases ran : Engine.collect w.heap.types w.heap.roots.slots (w.heap.collector.engine, w.memory) with
  | ok report pair =>
    simp only [ran, after]
    exact Layer.any_isStressing_recordCollection report _
  | error x pair => simp only [ran, after]

theorem forced_prepared (op : Operation) (w : World) : (op.prepared w).forced = w.forced := by
  unfold Operation.prepared
  split
  · exact forced_runCollection w
  · rfl

/-- What a call leaves behind forces collections as before. -/
theorem forced_obtains (obtains : op.Obtains w w') : w'.forced = w.forced := by
  rw [← forced_prepared op w]
  unfold Operation.Obtains at obtains
  unfold World.forced
  cases asked : op.request? w.heap.types with
  | none =>
    rw [asked] at obtains
    rw [obtains]
  | some size =>
    rw [asked] at obtains
    obtain ⟨block, e, -, collector⟩ := obtains
    rw [collector]
    exact Layer.any_isStressing_recordAllocation size _

end Heap

theorem Reached.forced_iff {w : World} (reached : Reached w) : w.forced = true ↔ w.heap.config.mode = .stress := by
  induction reached with
  | @create config m m' h created regular =>
    have configured : h.config = config := (World.Built.created created).configured
    rw [Heap.forced_create created, configured]
    cases config.mode <;> decide
  | @done w w' op before ran ih =>
    have built := ((World.Built.lasting _).run op).of_ok ran before.built
    rw [Heap.forced_obtains ((Heap.leaves_collector w op).of_ok ran), ih, built.configured]
  | @refused w w' op e before ran ih =>
    have built := ((World.Built.lasting _).run op).of_error ran before.built
    have same : w'.forced = (op.prepared w).forced := by
      unfold World.forced
      rw [(Heap.leaves_collector w op).of_refused ran]
    rw [same, Heap.forced_prepared, ih, built.configured]
  | program _ _ _ ih => exact ih

/-! ### The collections of a request -/

namespace World

variable {w : World} {size : Nat}

theorem length_collectionsFor (w : World) (size : Nat) :
    (w.collectionsFor size).length ≤ 1 ∧ ((w.collectionsFor size).length = 1 ↔ Heap.Waits w size) := by
  unfold collectionsFor
  split
  · next waits => exact ⟨Nat.le_refl _, fun _ => waits, fun _ => rfl⟩
  · next ready => exact ⟨Nat.zero_le _, fun one => (nomatch one), fun waits => absurd waits ready⟩

theorem waits_of_forced (forced : w.forced = true) : Heap.Waits w size :=
  .inl (Bool.or_eq_true_iff.2 (.inl forced))

/-- Where collections are not forced, a request waits for one exactly if there is no room. -/
theorem waits_iff (attained : w.heap.collector.engine.Attained) (unforced : w.forced = false) :
    Heap.Waits w size ↔ w.heap.collector.engine.Lacks size := by
  have policy : w.heap.collector.shouldCollect size = w.heap.collector.engine.shouldCollect size := by
    unfold Collector.shouldCollect
    rw [show w.heap.collector.layers.any Layer.isStressing = false from unforced, Bool.false_or]
  unfold Heap.Waits
  rw [policy, Engine.allocate_eq_none attained.bounded]
  refine or_iff_right_of_imp fun due => ?_
  by_cases leaky : w.heap.collector.engine.strategy = .leaky
  · cases engine : w.heap.collector.engine with
    | leaky c =>
      rw [engine] at due
      cases due
    | markSweep c => rw [engine] at leaky; cases leaky
    | copying c => rw [engine] at leaky; cases leaky
  · exact (Engine.shouldCollect_iff leaky).1 due

end World

/-! ### What a violation is about -/

-- A fault ends the run of a program. A violation does not, and after a collection there is only one left.
/-- If the computation reports a violation, it is that there is no room. -/
def NeedsRoom {α : Type} : EStateM.Result Failure World α → Prop
  | .error (.violation (.outOfMemory ..)) _ => True
  | .error (.violation _) _ => False
  | .ok .. | .error (.fault _) _ => True

namespace NeedsRoom

variable {α β : Type} {w : World}

theorem bind {x : HeapM α} {f : α → HeapM β} (first : NeedsRoom (x w)) (later : ∀ a w', NeedsRoom (f a w')) :
    NeedsRoom ((x >>= f) w) := by
  cases ran : x w with
  | ok a w' =>
    rw [run_bind ran]
    exact later a w'
  | error e w' =>
    rw [ran] at first
    rw [run_bind_error ran]
    cases e with
    | fault f => trivial
    | violation e => cases e <;> exact first

theorem of_leaves {Q : α → World → Prop} {ran : EStateM.Result Failure World α}
    (leaves : Leaves Q (fun _ => False) ran) : NeedsRoom ran := by
  match ran with
  | .ok a w' => trivial
  | .error (.fault f) w' => trivial
  | .error (.violation e) w' => exact leaves.elim

/-- An access to memory reports faults only. -/
theorem access {act : Access α} (faults : ∀ m, Leaves (fun _ _ => True) (fun _ => False) (act m)) (w : World) :
    NeedsRoom (Heap.access act w) := of_leaves (Heap.leaves_access w (faults w.memory))

end NeedsRoom

namespace Heap

variable {w w₁ : World} {op : Operation} {size : Nat} {report : CollectionReport}

theorem needsRoom_obtainBlock (waits : Waits w size) (collected : runCollection w = .ok report w₁) :
    NeedsRoom (obtainBlock size w) := by
  rw [obtainBlock_later waits collected]
  cases w₁.heap.collector.engine.allocate size <;> trivial

theorem needsRoom_allocate {id : TypeId} {extra : Nat} (triggers : (Operation.allocate id extra).Triggers w)
    (collected : runCollection w = .ok report w₁) : NeedsRoom (allocate id extra w) := by
  obtain ⟨healthy, size, asked, waits⟩ := triggers
  obtain ⟨d, registered, small, rfl⟩ := TypeTable.blockFor?_eq_some.1 asked
  obtain ⟨w₁', collected', -⟩ := (runCollection_closed w).of_ok collected
  rw [allocate_eq healthy registered small]
  refine .bind (needsRoom_obtainBlock waits collected') fun block w' => .bind (.access (fun m => ?_) w') fun _ _ => trivial
  exact .bind (leaves_guarded _ _ _ m) fun _ m' _ => leaves_guarded _ _ _ m'

/-- A request that fails although the collection before it succeeded has found no room. -/
theorem needsRoom_request (asked : op.request? w.heap.types = some size) (triggers : op.Triggers w)
    (collected : runCollection w = .ok report w₁) : NeedsRoom (op.run w) := by
  obtain ⟨id, extra, block, rfl | ⟨count, d, r, registered, region, rfl, rfl⟩⟩ := Operation.of_request asked
  · exact .bind (needsRoom_allocate triggers collected) fun _ _ => trivial
  · have waits : Waits w size := by
      obtain ⟨-, size', asked', waits⟩ := triggers
      cases asked.symm.trans asked'
      exact waits
    have inside : (Operation.allocate id (Word.saturate (count * r.elementSize))).Triggers w :=
      ⟨triggers.1, size, block, waits⟩
    have inner := needsRoom_allocate inside collected
    refine .bind ?_ fun _ _ => trivial
    unfold allocateArray
    rw [run_bind (requireType_ok registered), region]
    exact .bind inner fun obj w' => .bind (.access (fun m => leaves_guarded _ _ _ m) w') fun _ _ => trivial

end Heap

/-! ### What a program has asked for -/

namespace Operation

/-- The call is answered and has asked for an object. -/
def serves (op : Operation) (w : World) : Bool := (op.request? w.heap.types).isSome && (answer (op.run w)).isOk

/-- The call fails for lack of space after a collection. -/
def exhausts (op : Operation) (w : World) : Bool :=
  (op.collections w).any Except.isOk && match answer (op.run w) with
    | .error (.violation (.outOfMemory ..)) => true
    | _ => false

/-- The call asks for a collection, and the heap is not poisoned. -/
def isExplicit (op : Operation) (w : World) : Bool :=
  match op with
  | collect => w.heap.poisoned.isNone
  | _ => false

end Operation

/-- What has come of a run so far. -/
structure Demands where
  /-- The collections that have been run. -/
  collections : List Outcome := []
  /-- Requests that were answered. -/
  served : Nat := 0
  /-- Requests that failed for lack of space after a collection. -/
  exhausted : Nat := 0
  /-- Collections that the program has asked for. -/
  explicit : Nat := 0

/-- One more call. -/
def Demands.note (t : Demands) (op : Operation) (w : World) : Demands where
  collections := t.collections ++ op.collections w
  served := t.served + (op.serves w).toNat
  exhausted := t.exhausted + (op.exhausts w).toNat
  explicit := t.explicit + (op.isExplicit w).toNat

-- The steps are those of `Reached`.
/-- The runs in stress mode: what has come of a run, and the state that it has led to. -/
inductive Session : Demands → World → Prop where
  | create {config : Config} {m m' : Memory} {h : Heap} : config.mode = .stress → Heap.create config m = .ok (h, m') →
      m'.Regular → Session {} ⟨h, m'⟩
  | done {t : Demands} {w w' : World} {op : Operation} : Session t w → op.run w = .ok () w' → Session (t.note op w) w'
  | refused {t : Demands} {w w' : World} {op : Operation} {e : HeapError} : Session t w →
      op.run w = .error (.violation e) w' → Session (t.note op w) w'
  | program {t : Demands} {w : World} {m' : Memory} : Session t w → m'.Regular →
      (∀ start ∈ w.heap.collector.engine.arenas, ∀ n, m'.holds start n = w.memory.holds start n) →
      Session t { w with memory := m' }

theorem Session.reached {t : Demands} {w : World} (session : Session t w) : Reached w := by
  induction session with
  | create _ created regular => exact .create created regular
  | done _ ran ih => exact .done ih ran
  | refused _ ran ih => exact .refused ih ran
  | program _ regular same ih => exact .program ih regular same

/-! ### One call -/

section

variable {w w' : World} {op : Operation} {k n : Nat}

theorem Operation.collections_of_triggers (triggers : op.Triggers w) :
    op.collections w = [answer (Heap.runCollection w)] := (op.collections_eq w).trans (if_pos triggers)

theorem Operation.collections_of_idle (idle : ¬ op.Triggers w) : op.collections w = [] :=
  (op.collections_eq w).trans (if_neg idle)

/-- The collection of a call whose collections all succeed. -/
theorem Operation.collected (triggers : op.Triggers w) (succeed : ∀ o ∈ op.collections w, o.isOk = true) :
    ∃ report w₁, Heap.runCollection w = .ok report w₁ := by
  have first := succeed _ (op.collections_of_triggers triggers ▸ List.mem_cons_self)
  cases ran : Heap.runCollection w with
  | ok report w₁ => exact ⟨report, w₁, rfl⟩
  | error x w₁ =>
    rw [ran] at first
    cases first

/-- In stress mode a call runs a collection for one of three reasons. -/
theorem Operation.length_collections (forced : w.forced = true) (ends : ∀ f w', op.run w ≠ .error (.fault f) w')
    (succeed : ∀ o ∈ op.collections w, o.isOk = true) :
    (op.collections w).length = (op.serves w).toNat + (op.exhausts w).toNat + (op.isExplicit w).toNat := by
  by_cases triggers : op.Triggers w
  · obtain ⟨report, w₁, collected⟩ := op.collected triggers succeed
    have entry : op.collections w = [.ok report] := by rw [op.collections_of_triggers triggers, collected]; rfl
    obtain ⟨healthy, rfl | ⟨size, asked, -⟩⟩ := op.triggers_iff.1 triggers
    · have ran : Operation.collect.run w = .ok () w₁ := run_bind ((Heap.collect_eq healthy).trans collected)
      simp [serves, exhausts, isExplicit, entry, ran, answer, request?, healthy]
    · have implicit : op.isExplicit w = false := by
        cases op with
        | collect => cases asked
        | _ => rfl
      have room := Heap.needsRoom_request asked triggers collected
      rw [implicit, entry]
      unfold serves exhausts
      rw [entry, asked]
      cases ran : op.run w with
      | ok _ w' => rfl
      | error x w' =>
        rw [ran] at room
        cases x with
        | fault f => exact absurd ran (ends f w')
        | violation e =>
          cases e with
          | outOfMemory strategy requested free => rfl
          | _ => exact room.elim
  · have unserved : op.serves w = false := by
      refine Bool.eq_false_iff.2 fun served => ?_
      obtain ⟨asks, answered⟩ := Bool.and_eq_true_iff.1 served
      obtain ⟨size, asked⟩ := Option.isSome_iff_exists.1 asks
      have done : ¬ Fails (op.run w) := by
        rintro ⟨x, w', failed⟩
        rw [failed] at answered
        cases answered
      exact triggers (op.triggers_iff.2
        ⟨Heap.healthy_of_request asked done, .inr ⟨size, asked, World.waits_of_forced forced⟩⟩)
    have implicit : op.isExplicit w = false := by
      cases op with
      | collect => exact Bool.eq_false_iff.2 fun healthy => triggers ⟨Option.isNone_iff_eq_none.1 healthy, trivial⟩
      | _ => rfl
    have nothing := op.collections_of_idle triggers
    simp [exhausts, unserved, implicit, nothing]

/-- The counters have counted this many collections and answered requests, modulo 2^64. -/
def Collector.Counts (c : Collector) (collections served : Nat) : Prop :=
  ∃ counters, c.counters? = some counters ∧ counters.collections = Word.wrap collections ∧
    counters.allocations = Word.wrap served

theorem Collector.Counts.recordCollection {c : Collector} (counts : c.Counts k n) (e : Engine) (r : CollectionReport) :
    Counts ⟨e, c.layers.map (Layer.recordCollection r)⟩ (k + 1) n := by
  obtain ⟨counters, found, collections, allocations⟩ := counts
  refine ⟨_, counters?_recordCollection e found r, ?_, allocations⟩
  show Word.wrap (counters.collections + 1) = _
  rw [collections, Word.wrap_add_wrap]

theorem Collector.Counts.recordAllocation {c : Collector} (counts : c.Counts k n) (e : Engine) (size : Nat) :
    Counts ⟨e, c.layers.map (Layer.recordAllocation size)⟩ k (n + 1) := by
  obtain ⟨counters, found, collections, allocations⟩ := counts
  refine ⟨_, counters?_recordAllocation e found size, collections, ?_⟩
  show Word.wrap (counters.allocations + 1) = _
  rw [allocations, Word.wrap_add_wrap]

theorem counts_prepared (counts : w.heap.collector.Counts k n) (succeed : ∀ o ∈ op.collections w, o.isOk = true) :
    (op.prepared w).heap.collector.Counts (k + (op.collections w).length) n := by
  by_cases triggers : op.Triggers w
  · obtain ⟨report, w₁, collected⟩ := op.collected triggers succeed
    have prepared : op.prepared w = w₁ := (if_pos triggers).trans (congrArg after collected)
    obtain ⟨e, m, -, rfl⟩ := Heap.runCollection_eq_ok collected
    rw [prepared, op.collections_of_triggers triggers]
    exact counts.recordCollection e report
  · rw [op.prepared_of_idle triggers, op.collections_of_idle triggers]
    exact counts

theorem counts_done (counts : w.heap.collector.Counts k n) (succeed : ∀ o ∈ op.collections w, o.isOk = true)
    (ran : op.run w = .ok () w') :
    w'.heap.collector.Counts (k + (op.collections w).length) (n + (op.serves w).toNat) := by
  have prepared := counts_prepared counts succeed
  have obtains := (Heap.leaves_collector w op).of_ok ran
  unfold Operation.Obtains at obtains
  unfold Operation.serves
  rw [ran]
  cases asked : op.request? w.heap.types with
  | none =>
    rw [asked] at obtains
    rw [obtains]
    exact prepared
  | some size =>
    rw [asked] at obtains
    obtain ⟨block, e, -, collector⟩ := obtains
    rw [collector]
    exact prepared.recordAllocation e size

theorem counts_refused (counts : w.heap.collector.Counts k n) (succeed : ∀ o ∈ op.collections w, o.isOk = true)
    {e : HeapError} (ran : op.run w = .error (.violation e) w') :
    w'.heap.collector.Counts (k + (op.collections w).length) (n + (op.serves w).toNat) := by
  have unserved : op.serves w = false := by
    unfold Operation.serves
    rw [ran]
    exact Bool.and_false _
  rw [(Heap.leaves_collector w op).of_refused ran, unserved]
  exact counts_prepared counts succeed

end

/-! ### Along a run -/

namespace Session

variable {t t' : Demands} {w w' : World}

theorem stress (session : Session t w) : w.heap.config.mode = .stress := by
  induction session with
  | create stress created _ => rw [(World.Built.created created).configured, stress]
  | done before ran ih => rw [(((World.Built.lasting _).run _).of_ok ran before.reached.built).configured, ih]
  | refused before ran ih => rw [(((World.Built.lasting _).run _).of_error ran before.reached.built).configured, ih]
  | program _ _ _ ih => exact ih

theorem forced (session : Session t w) : w.forced = true := session.reached.forced_iff.2 session.stress

/-- Every collection of a run in which all succeed has been asked for, or has been run for a request. -/
theorem length_collections (session : Session t w) (succeed : ∀ o ∈ t.collections, o.isOk = true) :
    t.collections.length = t.served + t.exhausted + t.explicit := by
  have step {t : Demands} {w : World} {op : Operation} (before : Session t w)
      (ih : (∀ o ∈ t.collections, o.isOk = true) → t.collections.length = t.served + t.exhausted + t.explicit)
      (succeed : ∀ o ∈ (t.note op w).collections, o.isOk = true) (ends : ∀ f w', op.run w ≠ .error (.fault f) w') :
      (t.note op w).collections.length =
        (t.note op w).served + (t.note op w).exhausted + (t.note op w).explicit := by
    obtain ⟨earlier, now⟩ := List.forall_mem_append.1 succeed
    have more := op.length_collections before.forced ends now
    have sofar := ih earlier
    simp only [Demands.note, List.length_append]
    omega
  induction session with
  | create _ _ _ => rfl
  | done before ran ih => exact step before ih succeed fun f w' fault => nomatch ran.symm.trans fault
  | refused before ran ih => exact step before ih succeed fun f w' fault => nomatch ran.symm.trans fault
  | program _ _ _ ih => exact ih succeed

theorem counts (session : Session t w) (succeed : ∀ o ∈ t.collections, o.isOk = true) :
    w.heap.collector.Counts t.collections.length t.served := by
  induction session with
  | create stress created _ =>
    obtain ⟨-, engine, -, rfl⟩ := Heap.create_eq_ok created
    refine ⟨{}, ?_, rfl, rfl⟩
    simp only [Collector.counters?, stress]
    rfl
  | done before ran ih =>
    obtain ⟨earlier, now⟩ := List.forall_mem_append.1 succeed
    simpa only [Demands.note, List.length_append] using counts_done (ih earlier) now ran
  | refused before ran ih =>
    obtain ⟨earlier, now⟩ := List.forall_mem_append.1 succeed
    simpa only [Demands.note, List.length_append] using counts_refused (ih earlier) now ran
  | program _ _ _ ih => exact ih succeed

/-- The calls of a program one after the other, until one ends in a fault. -/
def follow : List Operation → Demands → World → Option (Demands × World)
  | [], t, w => some (t, w)
  | op :: rest, t, w =>
    match op.run w with
    | .ok _ w' | .error (.violation _) w' => follow rest (t.note op w) w'
    | .error (.fault _) _ => none

theorem of_follow {ops : List Operation} (session : Session t w) (ran : follow ops t w = some (t', w')) :
    Session t' w' := by
  induction ops generalizing t w with
  | nil =>
    cases ran
    exact session
  | cons op rest ih =>
    rw [follow] at ran
    cases outcome : op.run w with
    | ok _ w₁ =>
      simp only [outcome] at ran
      exact ih (.done session outcome) ran
    | error x w₁ =>
      cases x with
      | violation e =>
        simp only [outcome] at ran
        exact ih (.refused session outcome) ran
      | fault f =>
        simp only [outcome] at ran
        cases ran

end Session

namespace Heap

/-- An engine that collects asks for a collection exactly if it has no room. A request that is past its checks collects at
most once: without stress exactly if it does not fit the free space, or where objects are never given back if the first
attempt fails, and with stress always. So where all collections of a run with stress succeed, there are as many as there
were requests that were answered, requests that found no room, and collections asked for. -/
theorem request_collects_at_most_once :
    (∀ e : Engine, e.Attained → e.strategy ≠ .leaky → ∀ size, 0 < size →
      (e.shouldCollect size = true ↔ e.allocate size = none)) ∧
    (∀ w, Reached w → w.heap.collector.engine.Attained ∧
      ∀ (op : Operation) (size : Nat), w.heap.poisoned = none → op.request? w.heap.types = some size →
        op.logged (w, []) = Logged.quiet op.run (w, op.collections w) ∧ (op.collections w).length ≤ 1 ∧
        (w.heap.config.mode ≠ .stress → w.heap.strategy ≠ .leaky →
          ((op.collections w).length = 1 ↔ w.heap.collector.engine.Lacks size)) ∧
        (w.heap.config.mode ≠ .stress → w.heap.strategy = .leaky →
          ((op.collections w).length = 1 ↔ w.heap.collector.engine.allocate size = none)) ∧
        (w.heap.config.mode = .stress → (op.collections w).length = 1)) ∧
    ∀ t w, Session t w → (∀ o ∈ t.collections, o.isOk = true) →
      t.collections.length = t.served + t.exhausted + t.explicit ∧
      ∃ n, w.heap.counters? = some n ∧ n.collections = Word.wrap t.collections.length ∧
        n.allocations = Word.wrap t.served ∧
        (t.collections.length < wordLimit → n.collections = n.allocations + t.exhausted + t.explicit) := by
  refine ⟨fun e attained collects size _ => ?_, fun w reached => ⟨reached.attained, ?_⟩, fun t w session succeed => ?_⟩
  · rw [Engine.shouldCollect_iff collects, Engine.allocate_eq_none attained.bounded]
  · intro op size healthy asked
    have logs := op.logs w
    have due := op.collections_eq w
    rw [op.due_of_request healthy asked] at due
    obtain ⟨once, waits⟩ := w.length_collectionsFor size
    rw [← due] at once waits
    have lacks (calm : w.heap.config.mode ≠ .stress) :
        (op.collections w).length = 1 ↔ w.heap.collector.engine.Lacks size :=
      waits.trans (World.waits_iff reached.attained (Bool.eq_false_iff.2 (mt reached.forced_iff.1 calm)))
    refine ⟨?_, once, fun calm _ => lacks calm, fun calm _ => ?_, fun stress => ?_⟩
    · rw [op.collections_eq]
      exact logs []
    · rw [lacks calm, Engine.allocate_eq_none reached.attained.bounded]
    · exact waits.2 (World.waits_of_forced (reached.forced_iff.2 stress))
  · obtain ⟨n, counters, collections, allocations⟩ := session.counts succeed
    have total := session.length_collections succeed
    refine ⟨total, n, counters, collections, allocations, fun fits => ?_⟩
    rw [collections, allocations, Word.wrap_of_lt fits, Word.wrap_of_lt (by omega), total]

/-- A second array does not fit beside the first. With stress, one array is answered, a collection asked for, and an array
refused that is larger than the heap. -/
theorem request_collects_at_most_once_without_room :
    (∃ w, Reached w ∧ w.heap.config.mode = .normal ∧ w.heap.strategy = .copying ∧
      w.heap.collector.engine.shouldCollect 1632 = true ∧
      ((Operation.allocateArray ⟨1⟩ 200).collections w).length = 1) ∧
    ∃ t w n, Session t w ∧ t.served = 1 ∧ t.exhausted = 1 ∧ t.explicit = 1 ∧ w.heap.counters? = some n ∧
      n.collections = 3 ∧ n.allocations = 1 := by
  obtain ⟨policy, requests, sessions⟩ := request_collects_at_most_once
  constructor
  · have ran : ((World.play (fun w _ => w.heap.poisoned = none) { strategy := .copying, heapSize := 4096 } 0
        [.call (.register .references Descriptor.references_isWords), .call (.allocateArray ⟨1⟩ 200)]).any fun w : World =>
        w.onCopying fun c => decide (w.heap.poisoned = none ∧ w.heap.config.mode = .normal ∧
          (Operation.allocateArray ⟨1⟩ 200).request? w.heap.types = some 1632 ∧
          c.spaces.active.size - c.spaces.active.cursor < 1632)) = true := by
      decide +kernel
    obtain ⟨w, played, shown⟩ := (Option.any_eq_true _ _).1 ran
    obtain ⟨c, engine, shown⟩ := World.onCopying_eq_true.1 shown
    obtain ⟨healthy, calm, asked, room⟩ := of_decide_eq_true shown
    have reached := Reached.of_play played
    have moves : w.heap.collector.engine.strategy = .copying := by rw [engine]; rfl
    have keeps : w.heap.collector.engine.strategy ≠ .leaky := by rw [moves]; decide
    have lacks : w.heap.collector.engine.Lacks 1632 := by rw [engine]; exact room
    obtain ⟨attained, each⟩ := requests w reached
    obtain ⟨-, -, unforced, -⟩ := each _ _ healthy asked
    refine ⟨w, reached, calm, moves, (policy _ attained keeps 1632 (by decide)).2 ?_, ?_⟩
    · exact (Engine.allocate_eq_none attained.bounded).2 lacks
    · exact (unforced (by rw [calm]; decide) keeps).2 lacks
  · have ran : ((World.start { mode := .stress, heapSize := 4096 } 0).any fun w =>
        (Session.follow [.register .references Descriptor.references_isWords, .allocateArray ⟨1⟩ 3, .collect,
          .allocateArray ⟨1⟩ 600] {} w).any fun (t, _) => decide (t.served = 1 ∧ t.exhausted = 1 ∧ t.explicit = 1 ∧
            t.collections.length = 3 ∧ ∀ o ∈ t.collections, o.isOk = true)) = true := by
      decide +kernel
    obtain ⟨first, started, ran⟩ := (Option.any_eq_true _ _).1 ran
    obtain ⟨⟨t, w⟩, followed, shown⟩ := (Option.any_eq_true _ _).1 ran
    obtain ⟨served, exhausted, asked, three, succeed⟩ := of_decide_eq_true shown
    obtain ⟨created, regular⟩ := World.start_eq_some started
    have session := Session.of_follow (.create rfl created regular) followed
    obtain ⟨-, n, counters, collections, allocations, -⟩ := sessions t w session succeed
    rw [three] at collections
    rw [served] at allocations
    exact ⟨t, w, n, session, served, exhausted, asked, counters, collections, allocations⟩

end Heap

end TracingHeap

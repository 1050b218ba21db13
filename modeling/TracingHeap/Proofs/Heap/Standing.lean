import TracingHeap.Proofs.Heap.Tables
import TracingHeap.Proofs.MarkSweep.Partition

/-! What is left of the books of a poisoned heap.

A collection that fails half-way leaves a reserve that is partly filled, but it gives no space more than it has room for
and takes none away. So the blocks of the objects rest on something in every state of a heap. -/

set_option autoImplicit false

namespace TracingHeap

/-- The space is where it was, and if there was room for what is in use there still is. -/
structure Space.Refilled (s s' : Space) : Prop where
  start : s'.start = s.start
  size : s'.size = s.size
  room : s.cursor ≤ s.size → s'.cursor ≤ s'.size

theorem Space.Refilled.refl (s : Space) : s.Refilled s := ⟨rfl, rfl, id⟩

namespace Engine

variable {e e' : Engine} {m : Memory} {block size : Nat}

/-- The spaces that are filled from the bottom up. -/
def spaces : Engine → List Space
  | markSweep _ => []
  | copying c => [c.spaces.active, c.spaces.reserve]
  | leaky c => [c.space]

/-- Every space has been there before. -/
def Refills (e e' : Engine) : Prop := ∀ s' ∈ e'.spaces, ∃ s ∈ e.spaces, s.Refilled s'

theorem Refills.refl (e : Engine) : e.Refills e := fun s known => ⟨s, known, .refl s⟩

/-- Whatever comes of a collection, its arenas and its spaces are those of before. -/
theorem refills_collect (types : TypeTable) (roots : List Slot) (e : Engine) (m : Memory) :
    m.SameShape (after (Engine.collect types roots (e, m))).2 ∧ e.Refills (after (Engine.collect types roots (e, m))).1 := by
  unfold Engine.collect
  cases e with
  | markSweep c =>
    have shape := MarkSweep.always_collect types roots c m
    have no {c' : MarkSweep} : (markSweep c).Refills (markSweep c') := fun s none => absurd none List.not_mem_nil
    cases ran : c.collect types roots m <;> rw [ran] at shape <;> simp only [ran] <;> exact ⟨shape, no⟩
  | copying c =>
    have grown := Copying.always_evacuateAll types roots c.resident { memory := m, reserve := c.spaces.reserve }
    have active : c.spaces.active ∈ (copying c).spaces := List.mem_cons_self
    have reserve : c.spaces.reserve ∈ (copying c).spaces := List.mem_cons_of_mem _ List.mem_cons_self
    unfold Copying.collect
    cases ran : Copying.evacuateAll types roots c.resident { memory := m, reserve := c.spaces.reserve } with
    | ok _ e =>
      -- The spaces have changed places, and the reserve has been emptied.
      rw [ran] at grown
      have copies : c.spaces.reserve.Refilled e.reserve := ⟨grown.start, grown.size, grown.room⟩
      have emptied : c.spaces.active.Refilled { c.spaces.active with cursor := 0 } := ⟨rfl, rfl, fun _ => Nat.zero_le _⟩
      simp only [ran]
      exact ⟨grown.shape.trans (Memory.sameShape_clear ..),
        List.forall_mem_cons.2 ⟨⟨_, reserve, copies⟩, List.forall_mem_singleton.2 ⟨_, active, emptied⟩⟩⟩
    | error x e =>
      rw [ran] at grown
      have copies : c.spaces.reserve.Refilled e.reserve := ⟨grown.start, grown.size, grown.room⟩
      simp only [ran]
      exact ⟨grown.shape,
        List.forall_mem_cons.2 ⟨⟨_, active, .refl _⟩, List.forall_mem_singleton.2 ⟨_, reserve, copies⟩⟩⟩
  | leaky c => exact ⟨.refl m, .refl _⟩

theorem refills_allocate (found : e.allocate size = some (block, e')) : e.Refills e' := by
  cases allocated found with
  | markSweep took => exact fun s none => absurd none List.not_mem_nil
  | copying room =>
    refine List.forall_mem_cons.2 ⟨⟨_, List.mem_cons_self, rfl, rfl, fun _ => room⟩, List.forall_mem_singleton.2 ?_⟩
    exact ⟨_, List.mem_cons_of_mem _ List.mem_cons_self, .refl _⟩
  | leaky room => exact List.forall_mem_singleton.2 ⟨_, List.mem_cons_self, rfl, rfl, fun _ => room⟩

end Engine

/-- No space is filled beyond its end, and it lies in an arena. -/
structure World.Roomy (w : World) : Prop where
  regular : w.memory.Regular
  spaces : ∀ s ∈ w.heap.collector.engine.spaces, s.cursor ≤ s.size ∧ w.memory.holds s.start s.size = true

namespace World.Roomy

variable {w w' : World}

theorem of_refills (roomy : w.Roomy) (shape : w.memory.SameShape w'.memory)
    (refills : w.heap.collector.engine.Refills w'.heap.collector.engine) : w'.Roomy where
  regular := roomy.regular.of_sameShape shape
  spaces s' known := by
    obtain ⟨s, before, refilled⟩ := refills s' known
    obtain ⟨room, inside⟩ := roomy.spaces s before
    refine ⟨refilled.room room, ?_⟩
    rw [refilled.start, refilled.size, shape.holds]
    exact inside

theorem collected (w : World) (roomy : w.Roomy) : Roomy (after (Heap.runCollector w)) := by
  obtain ⟨shape, refills⟩ := Engine.refills_collect w.heap.types w.heap.roots.slots w.heap.collector.engine w.memory
  unfold Heap.runCollector Collector.collect
  cases ran : Engine.collect w.heap.types w.heap.roots.slots (w.heap.collector.engine, w.memory) <;>
    rw [ran] at shape refills <;> simp only [ran] <;> exact roomy.of_refills shape refills

theorem taken (w : World) (size : Nat) (roomy : w.Roomy) : Roomy (after (Heap.takeBlock size w)) := by
  unfold Heap.takeBlock Collector.allocate
  cases allocated : w.heap.collector.engine.allocate size with
  | none =>
    simp only [allocated, Option.map_none]
    exact roomy
  | some pair =>
    simp only [allocated, Option.map_some]
    exact roomy.of_refills (.refl _) (Engine.refills_allocate allocated)

theorem lasting : World.Lasting World.Roomy where
  untouched roomy same := roomy.of_refills same.shape (same.engine ▸ .refl _)
  collected := collected
  taken w size _ _ := taken w size

theorem created {config : Config} {m m' : Memory} {h : Heap} (created : Heap.create config m = .ok (h, m'))
    (regular : m'.Regular) : World.Roomy ⟨h, m'⟩ := by
  have ledger := (Heap.books_create created regular).ledger
  refine ⟨regular, ?_⟩
  generalize h.collector.engine = e at ledger ⊢
  cases e with
  | markSweep c => exact fun s none => absurd none List.not_mem_nil
  | copying c =>
    obtain ⟨ledger, active, reserve⟩ := ledger
    refine List.forall_mem_cons.2 ⟨⟨ledger.room, ledger.active ▸ active⟩, List.forall_mem_singleton.2 ⟨?_, ledger.reserve ▸ reserve⟩⟩
    rw [ledger.empty]
    exact Nat.zero_le _
  | leaky c => exact List.forall_mem_singleton.2 ⟨ledger.1.room, ledger.2⟩

end World.Roomy

/-! ### Types -/

/-- The type table has only been changed by registering and closing. -/
def World.Grows (w w' : World) : Prop := w.heap.types.Grown → w'.heap.types.Grown

namespace World.Grows

theorem refl (w : World) : w.Grows w := id

theorem trans (u v w : World) (first : u.Grows v) (second : v.Grows w) : u.Grows w := second ∘ first

theorem of_sameTables {w w' : World} (same : w.SameTables w') : w.Grows w' := fun grown => same.types ▸ grown

theorem register {d : Descriptor} (words : d.IsWords) : Always Grows (Heap.register d) := by
  intro w grown
  cases registered : w.heap.types.register d with
  | ok pair =>
    rw [Heap.register_ok registered]
    exact grown.register words registered
  | error e =>
    rw [Heap.register_error registered]
    exact grown

/-- A call that asks for nothing but that the table be closed. -/
theorem of_asks {α : Type} {c : Call α} {w w' : World} (asks : c.Asks w w')
    (closes : c.typeRequests w = [.close] ∨ c.typeRequests w = []) : w.Grows w' := by
  intro grown
  rw [asks.types]
  rcases closes with requests | requests <;> rw [requests]
  · exact grown.close
  · exact grown

theorem run (op : Operation) : Always Grows op.run := by
  have pure (a : Unit) : Always Grows (pure a : HeapM Unit) := .pure refl a
  have quiet {α : Type} {act : HeapM α} (same : Always World.SameTables act) : Always Grows act :=
    fun w => of_sameTables (same w)
  have considered (P : Prop) [Decidable P] :
      (if P then [TypeRequest.close] else []) = [.close] ∨ (if P then [TypeRequest.close] else []) = [] := by
    split <;> simp
  cases op with
  | register d words => exact .bind trans (register words) fun _ => pure _
  | allocate id extra =>
    exact .bind trans (fun w => of_asks (Call.asks_allocate id extra w) (considered _)) fun _ => pure _
  | allocateArray id count =>
    exact .bind trans (fun w => of_asks (Call.asks_allocateArray id count w) (considered _)) fun _ => pure _
  | collect =>
    have same := World.SameTables.across
    exact .bind trans (quiet (same.bind same.checkPoisoned fun _ => same.runCollection)) fun _ => pure _
  | pushRoot => exact .bind trans (fun w => of_asks (Call.asks_run .pushRoot w) (.inr rfl)) fun _ => pure _
  | popRoot handle => exact fun w => of_asks (Call.asks_run (.popRoot handle) w) (.inr rfl)
  | addRoot handle s => exact fun w => of_asks (Call.asks_run (.addRoot handle s) w) (.inr rfl)
  | addGlobal s => exact fun w => of_asks (Call.asks_run (.addGlobal s) w) (.inr rfl)

end World.Grows

/-! ### Every state -/

namespace Reached

variable {w : World} (reached : Reached w)

include reached

theorem roomy : w.Roomy := by
  refine World.Roomy.lasting.reached reached World.Roomy.created fun {w m'} roomy regular same => ⟨regular, fun s known => ?_⟩
  obtain ⟨room, inside⟩ := roomy.spaces s known
  refine ⟨room, (same s.start ?_ s.size).trans inside⟩
  generalize w.heap.collector.engine = e at known ⊢
  cases e with
  | markSweep c => exact absurd known List.not_mem_nil
  | copying c => exact List.mem_map_of_mem (f := Space.start) known
  | leaky c => exact List.mem_map_of_mem (f := Space.start) known

/-- In every state, poisoned or not, the blocks of the objects rest on something. -/
theorem standing : w.heap.collector.engine.Standing w.memory := by
  have complete := reached.complete
  have spaces := reached.roomy.spaces
  unfold World.Complete at complete
  generalize w.heap.collector.engine = e at complete spaces ⊢
  cases e with
  | markSweep c =>
    obtain ⟨books, -, inside⟩ := complete c rfl
    exact ⟨books.ledger, inside⟩
  | copying c => exact spaces _ List.mem_cons_self
  | leaky c => exact spaces _ List.mem_cons_self

/-- In every state, poisoned or not, the registered types have been checked. -/
theorem checked : w.heap.types.Checked := by
  refine TypeTable.Grown.checked ?_
  induction reached with
  | create created =>
    obtain ⟨-, engine, -, rfl⟩ := Heap.create_eq_ok created
    exact .empty
  | done _ ran grown => exact (World.Grows.run _).of_ok ran grown
  | refused _ ran grown => exact (World.Grows.run _).of_error ran grown
  | program _ _ _ grown => exact grown

end Reached

end TracingHeap

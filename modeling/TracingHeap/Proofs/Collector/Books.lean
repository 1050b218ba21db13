import TracingHeap.Collector.Basic
import TracingHeap.Proofs.Copying.Spaces
import TracingHeap.Proofs.MarkSweep.Collection
import TracingHeap.Proofs.Space.Tiled

/-! The books of any collector: what it holds, and where. -/

set_option autoImplicit false

namespace TracingHeap

theorem Memory.holds_grant {m m' : Memory} {size start : Nat} (granted : m.grant size = some (start, m')) :
    m'.holds start size = true ∧ index start = m.arenas.size ∧ m'.arenas.size = m.arenas.size + 1 ∧
      ∀ a n, m.holds a n = true → m'.holds a n = true := by
  unfold grant at granted
  by_cases small : size ≤ largestArena
  · rw [if_pos small] at granted
    cases granted
    refine ⟨?_, index_base _, by simp, fun a n inside => ?_⟩
    · rw [holds_eq, decide_eq_true_iff]
      refine ⟨by unfold base; omega, max size wordSize, ?_, by rw [offset_base]; omega⟩
      rw [index_base, Array.map_push, Array.getElem?_push, if_pos Array.size_map.symm]
      rfl
    · obtain ⟨arena, found, low, room⟩ := exists_arena inside
      rw [holds_eq, decide_eq_true_iff]
      refine ⟨low, arena.extent, ?_, room⟩
      have below := (Array.getElem?_eq_some_iff.1 found).1
      rw [Array.getElem?_map, Array.getElem?_push, if_neg (by omega), found]
      rfl
  · rw [if_neg small] at granted
    cases granted

structure Leaky.Ledger (c : Leaky) : Prop where
  room : c.space.cursor ≤ c.space.size

namespace Engine

variable {e e' : Engine} {m m' : Memory} {types : TypeTable} {roots : List Slot}

/-- The payload addresses of the objects that the engine has handed out and not given back. -/
def Held (e : Engine) (p : Nat) : Prop :=
  match e with
  | markSweep c => c.owns p = true
  | copying c => c.resident.contains p = true
  | leaky c => c.held.contains p = true

/-- The books are in order, and the arenas they speak about are there. -/
def Ledger (e : Engine) (m : Memory) : Prop :=
  match e with
  | markSweep c => c.Ledger ∧ m.holds c.start c.size = true
  | copying c => c.Ledger ∧ m.holds c.spaces.active.start c.spaces.size = true ∧
      m.holds c.spaces.reserve.start c.spaces.size = true
  | leaky c => c.Ledger ∧ m.holds c.space.start c.space.size = true

-- A collection by moving that fails leaves a reserve that is half full, and with it the ledger is lost.
/-- What the blocks of the held objects rest on. -/
def Standing (e : Engine) (m : Memory) : Prop :=
  match e with
  | markSweep c => c.Ledger ∧ m.holds c.start c.size = true
  | copying c => c.spaces.active.cursor ≤ c.spaces.active.size ∧
      m.holds c.spaces.active.start c.spaces.active.size = true
  | leaky c => c.space.cursor ≤ c.space.size ∧ m.holds c.space.start c.space.size = true

theorem Ledger.standing (ledger : e.Ledger m) : e.Standing m := by
  cases e with
  | markSweep c => exact ledger
  | copying c => exact ⟨ledger.1.room, ledger.1.active ▸ ledger.2.1⟩
  | leaky c => exact ⟨ledger.1.room, ledger.2⟩

theorem Standing.congr (standing : e.Standing m) (same : ∀ start ∈ e.arenas, ∀ n, m'.holds start n = m.holds start n) :
    e.Standing m' := by
  cases e <;> exact ⟨standing.1, (same _ List.mem_cons_self _).trans standing.2⟩

theorem Standing.of_sameShape (standing : e.Standing m) (shape : m.SameShape m') : e.Standing m' :=
  standing.congr fun _ _ _ => shape.holds _ _

/-- The address lies in an arena of the engine. -/
def Within (e : Engine) (a : Nat) : Prop :=
  match e with
  | markSweep c => c.start ≤ a ∧ a < c.start + c.size
  | copying c => (c.spaces.active.start ≤ a ∧ a < c.spaces.active.start + c.spaces.size) ∨
      c.spaces.reserve.start ≤ a ∧ a < c.spaces.reserve.start + c.spaces.size
  | leaky c => c.space.start ≤ a ∧ a < c.space.start + c.space.size

/-- The address lies in the arena that blocks are handed out from. -/
def Active (e : Engine) (a : Nat) : Prop :=
  match e with
  | markSweep c => c.start ≤ a ∧ a < c.start + c.size
  | copying c => c.spaces.active.start ≤ a ∧ a < c.spaces.active.start + c.spaces.size
  | leaky c => c.space.start ≤ a ∧ a < c.space.start + c.space.size

theorem Active.within {e : Engine} {a : Nat} (active : e.Active a) : e.Within a := by
  cases e with
  | markSweep c => exact active
  | copying c => exact .inl active
  | leaky c => exact active

-- Kept apart from the ledger: a program can overwrite a header, and the books do not depend on it.
/-- The headers of the held objects say what the books say about their blocks. -/
def Fits (e : Engine) (m : Memory) : Prop :=
  match e with
  | markSweep c => ∀ b n : Nat, c.records[b]? = some n →
      (m.header b).footprint ≤ n ∧ n < (m.header b).footprint + smallestBlock
  | copying c => Tiled m c.spaces.active.top c.spaces.active.start c.resident.toList
  | leaky c => Tiled m c.space.top c.space.start c.held.toList

/-- Only the arenas of the engine matter. -/
theorem Ledger.congr (ledger : e.Ledger m) (same : ∀ start ∈ e.arenas, ∀ n, m'.holds start n = m.holds start n) :
    e.Ledger m' := by
  cases e with
  | markSweep c =>
    exact ⟨ledger.1, (same _ List.mem_cons_self _).trans ledger.2⟩
  | copying c =>
    refine ⟨ledger.1, (same _ List.mem_cons_self _).trans ledger.2.1, (same _ ?_ _).trans ledger.2.2⟩
    exact List.mem_cons_of_mem _ List.mem_cons_self
  | leaky c => exact ⟨ledger.1, (same _ List.mem_cons_self _).trans ledger.2⟩

theorem Ledger.of_sameShape (ledger : e.Ledger m) (shape : m.SameShape m') : e.Ledger m' :=
  ledger.congr fun _ _ _ => shape.holds _ _

/-- What an engine is granted, and how it begins. -/
inductive Created (m : Memory) (heapSize : Nat) : Strategy → Engine → Memory → Prop
  | markSweep {start : Nat} {m' : Memory} : m.grant heapSize = some (start, m') →
      Created m heapSize .markSweep
        (.markSweep { start, size := heapSize, free := FreeList.insert {} start heapSize }) m'
  | copying {first second : Nat} {m₁ m' : Memory} : m.grant (Word.floor (heapSize / 2)) = some (first, m₁) →
      m₁.grant (Word.floor (heapSize / 2)) = some (second, m') →
      Created m heapSize .copying (.copying { spaces := ⟨⟨first, Word.floor (heapSize / 2), 0⟩,
        ⟨second, Word.floor (heapSize / 2), 0⟩, Word.floor (heapSize / 2)⟩ }) m'
  | leaky {start : Nat} {m' : Memory} : m.grant heapSize = some (start, m') →
      Created m heapSize .leaky (.leaky { space := ⟨start, heapSize, 0⟩ }) m'

theorem created {strategy : Strategy} {heapSize : Nat} (created : create strategy m heapSize = .ok (e, m')) :
    Created m heapSize strategy e m' := by
  cases strategy with
  | markSweep =>
    unfold create MarkSweep.create at created
    cases granted : m.grant heapSize <;> simp only [granted] at created <;> cases created
    exact .markSweep granted
  | copying =>
    unfold create Copying.create SpacePair.grant at created
    cases first : m.grant (Word.floor (heapSize / 2)) with
    | none => simp only [first, Option.bind_eq_bind, Option.bind_none] at created; cases created
    | some pair =>
      cases second : pair.2.grant (Word.floor (heapSize / 2)) with
      | none => simp only [first, second, Option.bind_eq_bind, Option.bind_some, Option.bind_none] at created; cases created
      | some other =>
        simp only [first, second, Option.bind_eq_bind, Option.bind_some] at created
        cases created
        exact .copying first second
  | leaky =>
    unfold create Leaky.create at created
    cases granted : m.grant heapSize <;> simp only [granted] at created <;> cases created
    exact .leaky granted

theorem ledger_create {strategy : Strategy} {heapSize : Nat} (positive : 0 < heapSize)
    (created : Created m heapSize strategy e m') : e.Ledger m' ∧ e.Fits m' ∧ ∀ p, ¬ e.Held p := by
  cases created with
  | markSweep granted =>
    refine ⟨⟨MarkSweep.ledger_create positive, (Memory.holds_grant granted).1⟩, fun b n record => ?_, fun p holds => ?_⟩
    · cases record
    · obtain ⟨-, n, record⟩ := MarkSweep.owns_iff.1 holds
      cases record
  | @copying start other m₁ _ first second =>
    obtain ⟨holds₁, index₁, size₁, -⟩ := Memory.holds_grant first
    obtain ⟨holds₂, index₂, -, kept⟩ := Memory.holds_grant second
    refine ⟨⟨⟨rfl, rfl, Nat.zero_le _, rfl, ?_⟩, kept _ _ holds₁, holds₂⟩, rfl, fun p holds => ?_⟩
    · -- The two halves are granted one after the other, each as an arena of its own.
      show Memory.index start ≠ Memory.index other
      omega
    · cases (Std.TreeSet.contains_emptyc (k := p)).symm.trans holds
  | leaky granted =>
    refine ⟨⟨⟨Nat.zero_le _⟩, (Memory.holds_grant granted).1⟩, rfl, fun p holds => ?_⟩
    cases (Std.TreeSet.contains_emptyc (k := p)).symm.trans holds

/-- How an engine hands out a block: it looks for one, or takes the next bytes of its space. -/
inductive Allocated (size : Nat) : Engine → Nat → Engine → Prop
  | markSweep {c c' : MarkSweep} {block : Nat} : c.allocate size = some (block, c') →
      Allocated size (.markSweep c) block (.markSweep c')
  | copying {c : Copying} : c.spaces.active.cursor + size ≤ c.spaces.active.size →
      Allocated size (.copying c) c.spaces.active.top (.copying { c with
        spaces := { c.spaces with active := { c.spaces.active with cursor := c.spaces.active.cursor + size } }
        resident := c.resident.insert (payloadOf c.spaces.active.top) })
  | leaky {c : Leaky} : c.space.cursor + size ≤ c.space.size →
      Allocated size (.leaky c) c.space.top (.leaky {
        space := { c.space with cursor := c.space.cursor + size }
        held := c.held.insert (payloadOf c.space.top) })

theorem allocated {size block : Nat} (found : e.allocate size = some (block, e')) : Allocated size e block e' := by
  cases e with
  | markSweep c =>
    obtain ⟨pair, took, same⟩ := Option.map_eq_some_iff.1 found
    cases same
    exact .markSweep took
  | copying c =>
    obtain ⟨pair, took, same⟩ := Option.map_eq_some_iff.1 found
    obtain ⟨⟨start, space⟩, bumped, same'⟩ := Option.map_eq_some_iff.1 took
    obtain ⟨room, rfl, rfl⟩ := Space.bump_eq_some bumped
    cases same
    cases same'
    exact .copying room
  | leaky c =>
    obtain ⟨pair, took, same⟩ := Option.map_eq_some_iff.1 found
    obtain ⟨⟨start, space⟩, bumped, same'⟩ := Option.map_eq_some_iff.1 took
    obtain ⟨room, rfl, rfl⟩ := Space.bump_eq_some bumped
    cases same
    cases same'
    exact .leaky room

theorem ledger_allocate {size block : Nat} (ledger : e.Ledger m) (large : headerSize ≤ size)
    (found : e.allocate size = some (block, e')) : e'.Ledger m := by
  cases allocated found with
  | markSweep took =>
    obtain ⟨ledger', start, whole, -⟩ := MarkSweep.ledger_allocate ledger.1 large took
    exact ⟨ledger', by rw [start, whole]; exact ledger.2⟩
  | copying room =>
    exact ⟨⟨ledger.1.active, ledger.1.reserve, room, ledger.1.empty, ledger.1.apart⟩, ledger.2⟩
  | leaky room => exact ⟨⟨room⟩, ledger.2⟩

theorem ledger_collect {report : CollectionReport} (ledger : e.Ledger m) (regular : m.Regular)
    (ran : Engine.collect types roots (e, m) = .ok report (e', m')) : e'.Ledger m' ∧ m.SameShape m' := by
  cases e with
  | markSweep c =>
    unfold collect at ran
    cases collected : c.collect types roots m with
    | error x m₁ => simp only [collected] at ran; cases ran
    | ok pair m₁ =>
      simp only [collected] at ran
      cases ran
      obtain ⟨ledger', start, size, shape⟩ := MarkSweep.ledger_collect ledger.1 regular ledger.2 collected
      refine ⟨⟨ledger', ?_⟩, shape⟩
      rw [start, size, shape.holds]
      exact ledger.2
  | copying c =>
    unfold collect at ran
    cases collected : c.collect types roots m with
    | error x pair => simp only [collected] at ran; cases ran
    | ok r pair =>
      simp only [collected] at ran
      cases ran
      obtain ⟨ledger', size, active, reserve, shape⟩ := Copying.ledger_collect ledger.1 collected
      refine ⟨⟨ledger', ?_, ?_⟩, shape⟩
      · rw [active, size, shape.holds]
        exact ledger.2.2
      · rw [reserve, size, shape.holds]
        exact ledger.2.1
  | leaky c =>
    cases ran
    exact ⟨ledger, .refl m⟩

end Engine

end TracingHeap

import Mathlib.Data.List.Induction
import TracingHeap.RootStack

/-! A frame of the root stack and what is pushed and popped after it.

Whoever pushes a frame does not know what is asked of the stack before he pops it again. As long as the frame is there,
so are those below it, with the slots that were added in between, and whatever stands above it was pushed later. Once it
is gone it does not come back. -/

set_option autoImplicit false

namespace TracingHeap

/-- What can be asked of a root stack, with any handle. -/
inductive RootRequest where
  | push
  | pop (h : RootHandle)
  | add (h : RootHandle) (s : Slot)
  | addGlobal (s : Slot)
  deriving DecidableEq, Repr

namespace RootStack

variable {r r₀ : RootStack} {h : RootHandle} {s : Slot} {n : Nat} {requests : List RootRequest}

/-- A request that is refused leaves the stack as it is. -/
def serve (r : RootStack) : RootRequest → RootStack
  | .push => r.push.2
  | .pop h => (r.pop h).toOption.getD r
  | .add h s => (r.add h s).toOption.getD r
  | .addGlobal s => r.addGlobal s

def served (r : RootStack) (requests : List RootRequest) : RootStack := requests.foldl serve r

theorem served_append (r : RootStack) (first later : List RootRequest) :
    r.served (first ++ later) = (r.served first).served later :=
  List.foldl_append

theorem served_concat (r : RootStack) (requests : List RootRequest) (request : RootRequest) :
    r.served (requests ++ [request]) = (r.served requests).serve request :=
  r.served_append requests [request]

/-- The frame that the handle names is on top. -/
def OnTop (r : RootStack) (h : RootHandle) : Prop := r.frames.back?.map RootFrame.sequence = some h.sequence

instance (r : RootStack) (h : RootHandle) : Decidable (r.OnTop h) := inferInstanceAs (Decidable (_ = _))

theorem pop_of_onTop (top : r.OnTop h) : r.pop h = .ok { r with frames := r.frames.pop } := by
  obtain ⟨frame, last, same⟩ := Option.map_eq_some_iff.1 top
  rw [pop, last]
  exact if_pos same

theorem pop_of_not_onTop (other : ¬ r.OnTop h) : ∃ v, r.pop h = .error v := by
  unfold OnTop at other
  unfold pop
  cases last : r.frames.back? with
  | none => exact ⟨_, rfl⟩
  | some frame =>
    rw [last] at other
    exact ⟨_, if_neg fun same => other (congrArg some same)⟩

/-! ### Numbers -/

/-- The stack has been made empty, and requests have been served since. -/
def InUse (r : RootStack) : Prop := ∃ requests, r = RootStack.served {} requests

/-- The frames have numbers that were issued. -/
def Issued (r : RootStack) : Prop := ∀ frame ∈ r.frames, frame.sequence < r.nextSequence

-- Frames come by a push alone; the other requests leave a frame its number.
/-- A frame was there before, or has the number that was due. -/
theorem sequence_serve (request : RootRequest) {i : Nat} {frame : RootFrame} (found : (r.serve request).frames[i]? = some frame) :
    (∃ old, r.frames[i]? = some old ∧ old.sequence = frame.sequence) ∨
      (request = .push ∧ i = r.frames.size ∧ frame.sequence = r.nextSequence) := by
  cases request with
  | push =>
    change (r.frames.push ⟨r.nextSequence, []⟩)[i]? = some frame at found
    rw [Array.getElem?_push] at found
    split at found
    · next last =>
      cases found
      exact .inr ⟨rfl, last, rfl⟩
    · exact .inl ⟨frame, found, rfl⟩
  | pop h =>
    by_cases top : r.OnTop h
    · rw [serve, pop_of_onTop top] at found
      change r.frames.pop[i]? = some frame at found
      rw [Array.getElem?_pop] at found
      split at found
      · exact .inl ⟨frame, found, rfl⟩
      · cases found
    · obtain ⟨v, refused⟩ := pop_of_not_onTop top
      rw [serve, refused] at found
      exact .inl ⟨frame, found, rfl⟩
  | add h s =>
    by_cases live : r.isLive h
    · simp only [serve, add, live, if_true, Except.toOption, Option.getD_some, Array.getElem?_modify] at found
      split at found
      · obtain ⟨old, known, rfl⟩ := Option.map_eq_some_iff.1 found
        exact .inl ⟨old, known, rfl⟩
      · exact .inl ⟨frame, found, rfl⟩
    · rw [serve, add_of_not_isLive (Bool.eq_false_iff.2 live)] at found
      exact .inl ⟨frame, found, rfl⟩
  | addGlobal s =>
    refine .inl ⟨frame, ?_, rfl⟩
    simp only [serve, addGlobal] at found
    split at found <;> exact found

theorem nextSequence_serve (r : RootStack) (request : RootRequest) :
    (r.serve request).nextSequence = if request = .push then r.nextSequence + 1 else r.nextSequence := by
  cases request with
  | push => rfl
  | pop h =>
    by_cases top : r.OnTop h
    · rw [serve, pop_of_onTop top]
      rfl
    · obtain ⟨v, refused⟩ := pop_of_not_onTop top
      rw [serve, refused]
      rfl
  | add h s =>
    simp only [serve, add]
    split <;> rfl
  | addGlobal s =>
    simp only [serve, addGlobal]
    split <;> rfl

theorem nextSequence_le_serve (r : RootStack) (request : RootRequest) : r.nextSequence ≤ (r.serve request).nextSequence := by
  rw [nextSequence_serve]
  split <;> omega

theorem Issued.serve (issued : r.Issued) (request : RootRequest) : (r.serve request).Issued := by
  intro frame member
  obtain ⟨i, found⟩ := Array.mem_iff_getElem?.1 member
  have next := r.nextSequence_serve request
  rcases sequence_serve request found with ⟨old, known, same⟩ | ⟨rfl, -, due⟩
  · have := issued old (Array.mem_of_getElem? known)
    have := r.nextSequence_le_serve request
    omega
  · rw [if_pos rfl] at next
    omega

theorem Issued.served (issued : r.Issued) (requests : List RootRequest) : (r.served requests).Issued := by
  induction requests generalizing r with
  | nil => exact issued
  | cons request rest ih => exact ih (issued.serve request)

theorem InUse.issued (used : r.InUse) : r.Issued := by
  obtain ⟨requests, rfl⟩ := used
  exact Issued.served (fun frame member => absurd member (Array.not_mem_empty frame)) requests

end RootStack

/-! ### A frame and what comes after it -/

/-- The slots that some requests add under a handle, in the order of the requests. -/
def RootRequest.added (h : RootHandle) (requests : List RootRequest) : List Slot :=
  requests.filterMap fun
    | .add h' s => if h' = h then some s else none
    | _ => none

/-- The frame at a place of the stack, with the slots that some requests add to it. -/
def RootFrame.gaining (requests : List RootRequest) (i : Nat) (frame : RootFrame) : RootFrame :=
  { frame with slots := (RootRequest.added ⟨i, frame.sequence⟩ requests).reverse ++ frame.slots }

theorem RootFrame.gaining_add (requests : List RootRequest) (i : Nat) (frame : RootFrame) (s : Slot) :
    frame.gaining (requests ++ [.add ⟨i, frame.sequence⟩ s]) i =
      { frame with slots := s :: (frame.gaining requests i).slots } := by
  simp [gaining, RootRequest.added]

theorem RootFrame.gaining_other (requests : List RootRequest) {request : RootRequest} {i : Nat} {frame : RootFrame}
    (other : ∀ s, request ≠ .add ⟨i, frame.sequence⟩ s) : frame.gaining (requests ++ [request]) i = frame.gaining requests i := by
  have none : RootRequest.added ⟨i, frame.sequence⟩ [request] = [] := by
    cases request with
    | add h s =>
      have different : h ≠ ⟨i, frame.sequence⟩ := fun same => other s (same ▸ rfl)
      simp [RootRequest.added, different]
    | _ => rfl
  rw [RootRequest.added] at none
  rw [gaining, gaining, RootRequest.added, List.filterMap_append, none, List.append_nil]
  rfl

namespace RootStack

variable {r r₀ : RootStack} {h : RootHandle} {s : Slot} {n : Nat} {requests : List RootRequest}

/-- The frames, with the slots that some requests add to them. -/
def gained (r : RootStack) (requests : List RootRequest) : Array RootFrame :=
  r.frames.mapIdx fun i frame => frame.gaining requests i

/-- The old frames are where they were, with the slots that were added to them. The frames above them are newer. -/
structure Stands (r₀ : RootStack) (requests : List RootRequest) (r : RootStack) : Prop where
  below : ∀ (i : Nat) (frame : RootFrame), r₀.frames[i]? = some frame → r.frames[i]? = some (frame.gaining requests i)
  above : ∀ (i : Nat) (frame : RootFrame), r₀.frames.size ≤ i → r.frames[i]? = some frame → r₀.nextSequence ≤ frame.sequence

/-- No frame has the number. -/
def Gone (n : Nat) (r : RootStack) : Prop := ∀ frame ∈ r.frames, frame.sequence ≠ n

theorem Stands.refl (r : RootStack) : r.Stands [] r where
  below _ _ found := found
  above _ _ high found := absurd (Array.getElem?_eq_some_iff.1 found).1 (Nat.not_lt.2 high)

theorem Stands.size_le (stands : r₀.Stands requests r) : r₀.frames.size ≤ r.frames.size := by
  refine Nat.le_of_not_lt fun fewer => ?_
  have found := stands.below _ _ (Array.getElem?_eq_getElem fewer)
  exact absurd (Array.getElem?_eq_some_iff.1 found).1 (Nat.lt_irrefl _)

/-- Nothing is added to the frames by a request that leaves the stack as it is. -/
theorem Stands.refused {request : RootRequest} (stands : r₀.Stands requests r) (same : (r.serve request).frames = r.frames)
    (other : ∀ (i : Nat) (frame : RootFrame), r₀.frames[i]? = some frame → ∀ s, request ≠ .add ⟨i, frame.sequence⟩ s) :
    r₀.Stands (requests ++ [request]) (r.serve request) where
  below i frame found := by rw [same, RootFrame.gaining_other requests (other i frame found)]; exact stands.below i frame found
  above i frame high found := stands.above i frame high (same ▸ found)

theorem Stands.push (stands : r₀.Stands requests r) (later : r₀.nextSequence ≤ r.nextSequence) :
    r₀.Stands (requests ++ [.push]) (r.serve .push) where
  below i frame found := by
    have old := stands.below i frame found
    rw [RootFrame.gaining_other requests fun _ other => by cases other]
    exact (Array.getElem?_push_lt (Array.getElem?_eq_some_iff.1 old).1).trans ((Array.getElem?_eq_getElem _).symm.trans old)
  above i frame high found := by
    rcases sequence_serve .push found with ⟨old, known, same⟩ | ⟨-, -, due⟩
    · exact same ▸ stands.above i old high known
    · exact due ▸ later

theorem Stands.add (stands : r₀.Stands requests r) (h : RootHandle) (s : Slot) :
    r₀.Stands (requests ++ [.add h s]) (r.serve (.add h s)) := by
  by_cases live : r.isLive h
  · constructor
    · intro i frame found
      have old := stands.below i frame found
      simp only [serve, RootStack.add, live, if_true, Except.toOption, Option.getD_some, Array.getElem?_modify, old]
      split
      · next here =>
        have same : h = ⟨i, frame.sequence⟩ := by
          subst here
          rw [isLive, old] at live
          obtain ⟨depth, sequence⟩ := h
          exact congrArg _ (of_decide_eq_true live).symm
        rw [same, RootFrame.gaining_add]
        rfl
      · next elsewhere =>
        rw [RootFrame.gaining_other]
        intro s same
        cases same
        exact elsewhere rfl
    · intro i frame high found
      rcases sequence_serve (.add h s) found with ⟨old, known, same⟩ | ⟨other, -⟩
      · exact same ▸ stands.above i old high known
      · cases other
  · have refused : (r.serve (.add h s)) = r := by
      rw [serve, add_of_not_isLive (Bool.eq_false_iff.2 live)]
      rfl
    refine stands.refused (by rw [refused]) fun i frame found t same => live ?_
    cases same
    rw [isLive, stands.below i frame found]
    exact decide_eq_true rfl

theorem frames_serve_pop (top : r.OnTop h) : (r.serve (.pop h)).frames = r.frames.pop := by
  rw [serve, pop_of_onTop top]
  rfl

/-- A pop takes a newer frame if there is one. -/
theorem Stands.pop_newer (stands : r₀.Stands requests r) (top : r.OnTop h) (more : r₀.frames.size < r.frames.size) :
    r₀.Stands (requests ++ [.pop h]) (r.serve (.pop h)) := by
  constructor
  · intro i frame found
    have under := (Array.getElem?_eq_some_iff.1 found).1
    rw [frames_serve_pop top, Array.getElem?_pop, if_pos (by omega),
      RootFrame.gaining_other requests fun _ other => by cases other]
    exact stands.below i frame found
  · intro i frame high found
    rw [frames_serve_pop top, Array.getElem?_pop] at found
    split at found
    · exact stands.above i frame high found
    · cases found

/-- Otherwise it takes the top one of the old frames, so that none is left with the number of that. -/
theorem Stands.pop_own (stands : r₀.Stands requests r) (top : r.OnTop h) (all : r.frames.size ≤ r₀.frames.size)
    (distinct : ∀ (i : Nat) (frame : RootFrame), r₀.frames[i]? = some frame → i + 1 < r₀.frames.size → frame.sequence ≠ n) :
    Gone n (r.serve (.pop h)) := by
  intro frame member
  obtain ⟨i, found⟩ := Array.mem_iff_getElem?.1 member
  rw [frames_serve_pop top, Array.getElem?_pop] at found
  split at found
  · next under =>
    have known := Array.getElem?_eq_getElem (show i < r₀.frames.size by omega)
    have gained := stands.below i _ known
    rw [Option.some.inj (found.symm.trans gained)]
    exact distinct i r₀.frames[i] known (by omega)
  · cases found

theorem Stands.pop (stands : r₀.Stands requests r) (h : RootHandle)
    (distinct : ∀ (i : Nat) (frame : RootFrame), r₀.frames[i]? = some frame → i + 1 < r₀.frames.size → frame.sequence ≠ n) :
    r₀.Stands (requests ++ [.pop h]) (r.serve (.pop h)) ∨ Gone n (r.serve (.pop h)) := by
  by_cases top : r.OnTop h
  · rcases Nat.lt_or_ge r₀.frames.size r.frames.size with more | all
    · exact .inl (stands.pop_newer top more)
    · exact .inr (stands.pop_own top all distinct)
  · obtain ⟨v, refused⟩ := pop_of_not_onTop top
    exact .inl (stands.refused (by rw [serve, refused]; rfl) fun _ _ _ _ => nofun)

theorem Stands.addGlobal (stands : r₀.Stands requests r) (s : Slot) :
    r₀.Stands (requests ++ [.addGlobal s]) (r.serve (.addGlobal s)) := by
  refine stands.refused ?_ fun _ _ _ _ => nofun
  simp only [serve, RootStack.addGlobal]
  split <;> rfl

theorem Gone.serve (gone : Gone n r) (issued : n < r.nextSequence) (request : RootRequest) : Gone n (r.serve request) := by
  intro frame member
  obtain ⟨i, found⟩ := Array.mem_iff_getElem?.1 member
  rcases sequence_serve request found with ⟨old, known, same⟩ | ⟨-, -, due⟩
  · exact same ▸ gone old (Array.mem_of_getElem? known)
  · omega

theorem Gone.not_onTop (gone : Gone h.sequence r) : ¬ r.OnTop h := by
  intro top
  obtain ⟨frame, last, same⟩ := Option.map_eq_some_iff.1 top
  exact gone frame (Array.mem_of_back? last) same

theorem Stands.serve (stands : r₀.Stands requests r) (later : r₀.nextSequence ≤ r.nextSequence)
    (distinct : ∀ (i : Nat) (frame : RootFrame), r₀.frames[i]? = some frame → i + 1 < r₀.frames.size → frame.sequence ≠ n)
    (request : RootRequest) : r₀.Stands (requests ++ [request]) (r.serve request) ∨ Gone n (r.serve request) := by
  cases request with
  | push => exact .inl (stands.push later)
  | pop h => exact stands.pop h distinct
  | add h s => exact .inl (stands.add h s)
  | addGlobal s => exact .inl (stands.addGlobal s)

/-- Whatever is asked after a push, the frame and those below it stand, or it has been popped. -/
theorem stands_or_gone (issued : r.Issued) (requests : List RootRequest) :
    r.push.2.Stands requests (r.push.2.served requests) ∨ Gone r.nextSequence (r.push.2.served requests) := by
  have distinct (i : Nat) (frame : RootFrame) (found : r.push.2.frames[i]? = some frame)
      (under : i + 1 < r.push.2.frames.size) : frame.sequence ≠ r.nextSequence := by
    simp only [RootStack.push, Array.size_push, Nat.add_lt_add_iff_right] at found under
    rw [Array.getElem?_push, if_neg (Nat.ne_of_lt under)] at found
    exact Nat.ne_of_lt (issued frame (Array.mem_of_getElem? found))
  suffices r.push.2.nextSequence ≤ (r.push.2.served requests).nextSequence ∧
      (r.push.2.Stands requests (r.push.2.served requests) ∨ Gone r.nextSequence (r.push.2.served requests)) from this.2
  induction requests using List.reverseRecOn with
  | nil => exact ⟨Nat.le_refl _, .inl (.refl _)⟩
  | append_singleton requests request ih =>
    obtain ⟨later, stands | gone⟩ := ih
    all_goals rw [served_concat]
    · exact ⟨Nat.le_trans later (nextSequence_le_serve _ _), stands.serve later distinct request⟩
    · exact ⟨Nat.le_trans later (nextSequence_le_serve _ _), .inr (gone.serve later request)⟩

theorem Stands.size_lt (stands : r₀.push.2.Stands requests r) : r₀.frames.size < r.frames.size := by
  have le := stands.size_le
  rwa [RootStack.push, Array.size_push] at le

/-- What is left below a frame that is on top. -/
theorem Stands.pop_frames (stands : r₀.push.2.Stands requests r) (top : r.OnTop r₀.push.1) :
    r.frames.pop = r₀.gained requests := by
  obtain ⟨frame, last, same⟩ := Option.map_eq_some_iff.1 top
  have size : r.frames.size = r₀.frames.size + 1 := by
    refine Nat.le_antisymm (Nat.le_of_not_lt fun more => ?_) stands.size_lt
    have newer : r₀.nextSequence + 1 ≤ frame.sequence := by
      refine stands.above (r.frames.size - 1) frame ?_ (Array.back?_eq_getElem? ▸ last)
      rw [RootStack.push, Array.size_push]
      omega
    rw [same] at newer
    exact Nat.lt_irrefl _ newer
  refine Array.ext_getElem? fun i => ?_
  rw [Array.getElem?_pop, gained, Array.getElem?_mapIdx, size]
  by_cases old : i < r₀.frames.size
  · have known : r₀.push.2.frames[i]? = r₀.frames[i]? := by
      rw [RootStack.push, Array.getElem?_push, if_neg (Nat.ne_of_lt old)]
    have found := stands.below i r₀.frames[i] (known.trans (Array.getElem?_eq_getElem old))
    rw [if_pos (by omega), found, Array.getElem?_eq_getElem old]
    rfl
  · rw [if_neg (by omega), Array.getElem?_eq_none (by omega)]
    rfl

/-- A frame that stands with nothing above it is on top. -/
theorem Stands.onTop (stands : r₀.push.2.Stands requests r) (size : r.frames.size = r₀.frames.size + 1) :
    r.OnTop r₀.push.1 := by
  have own : r₀.push.2.frames[r₀.frames.size]? = some ⟨r₀.nextSequence, []⟩ := by
    rw [RootStack.push, Array.getElem?_push, if_pos rfl]
  have found := stands.below _ _ own
  rw [OnTop, Array.back?_eq_getElem?, size, Nat.add_sub_cancel, found]
  rfl

theorem sequence_gained (r : RootStack) (requests : List RootRequest) :
    (r.gained requests).map RootFrame.sequence = r.frames.map RootFrame.sequence := by
  refine Array.ext_getElem? fun i => ?_
  simp only [gained, Array.getElem?_map, Array.getElem?_mapIdx, Option.map_map]
  rfl

end RootStack

end TracingHeap

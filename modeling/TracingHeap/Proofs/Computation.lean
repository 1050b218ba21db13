import TracingHeap.Memory.Access

/-! Running computations step by step.

A computation ends with an answer or with a failure, and in a state in both cases. What every step of it
does to the state, whatever the outcome, the whole does. -/

set_option autoImplicit false

namespace TracingHeap

variable {ε σ α β : Type}

theorem run_bind {x : EStateM ε σ α} {f : α → EStateM ε σ β} {s s' : σ} {a : α} (ran : x s = .ok a s') :
    (x >>= f) s = f a s' := by
  simp only [bind, EStateM.bind, ran]

theorem run_bind_error {x : EStateM ε σ α} {f : α → EStateM ε σ β} {s s' : σ} {e : ε} (failed : x s = .error e s') :
    (x >>= f) s = .error e s' := by
  simp only [bind, EStateM.bind, failed]

theorem attempt_ok {act : EStateM Failure σ α} {s s' : σ} {a : α} (ran : act s = .ok a s') :
    attempt act s = .ok (.ok a) s' := by
  simp only [attempt, ran]

theorem attempt_error {act : EStateM Failure σ α} {s s' : σ} {e : Failure} (failed : act s = .error e s') :
    attempt act s = .ok (.error e) s' := by
  simp only [attempt, failed]

/-- The state may be looked at. -/
theorem run_bind_get {f : σ → EStateM ε σ β} {s : σ} : ((get : EStateM ε σ σ) >>= f) s = f s s := rfl

theorem bind_eq_ok {x : Except ε α} {f : α → Except ε β} {b : β} :
    (x >>= f) = .ok b ↔ ∃ a, x = .ok a ∧ f a = .ok b := by
  cases x with
  | ok a => exact ⟨fun ran => ⟨a, rfl, ran⟩, fun ⟨_, same, ran⟩ => by cases same; exact ran⟩
  | error e => exact ⟨fun ran => (nomatch ran), fun ⟨_, same, _⟩ => (nomatch same)⟩

/-- A check in front of what follows. -/
theorem check_bind_eq_ok {x : Except ε Unit} {f : Unit → Except ε β} {b : β} :
    (x >>= f) = .ok b ↔ x = .ok () ∧ f () = .ok b :=
  bind_eq_ok.trans ⟨fun ⟨_, passed, rest⟩ => ⟨passed, rest⟩, fun ⟨passed, rest⟩ => ⟨(), passed, rest⟩⟩

theorem guard_eq_ok {c : Prop} [Decidable c] {e : ε} : (if c then throw e else pure () : Except ε Unit) = .ok () ↔ ¬ c := by
  by_cases refused : c
  · simp only [refused, if_true, not_true, iff_false]
    exact nofun
  · simp only [refused, if_false, not_false_eq_true, iff_true]
    rfl

/-- A refusal in front of what follows. -/
theorem guard_bind_eq_ok {c : Prop} [Decidable c] {e : ε} {rest : Except ε β} {b : β} :
    (if c then (do throw e; rest) else rest) = .ok b ↔ ¬ c ∧ rest = .ok b := by
  by_cases refused : c
  · simp only [refused, if_true, not_true, false_and, iff_false]
    exact nofun
  · simp only [refused, if_false, not_false_eq_true, true_and]

/-- What a computation ends with, whatever state it ends in. -/
def answer : EStateM.Result ε σ α → Except ε α
  | .ok a _ => .ok a
  | .error e _ => .error e

/-- The state that a computation ends in. -/
def after : EStateM.Result ε σ α → σ
  | .ok _ s => s
  | .error _ s => s

theorem eq_ok_of_answer {ran : EStateM.Result ε σ α} {a : α} (told : answer ran = .ok a) : ran = .ok a (after ran) := by
  cases ran <;> cases told
  rfl

/-- What follows an attempt is told its outcome, whatever that is. -/
theorem run_bind_attempt {act : EStateM Failure σ α} {f : Except Failure α → EStateM Failure σ β} {s : σ} :
    (attempt act >>= f) s = f (answer (act s)) (after (act s)) := by
  cases ran : act s with
  | ok a t => exact run_bind (attempt_ok ran)
  | error e t => exact run_bind (attempt_error ran)

/-- The computation has ended with a failure. -/
def Fails (ran : EStateM.Result ε σ α) : Prop := ∃ e s, ran = .error e s

@[simp] theorem fails_error (e : ε) (s : σ) : Fails (.error e s : EStateM.Result ε σ α) := ⟨e, s, rfl⟩

@[simp] theorem not_fails_ok (a : α) (s : σ) : ¬ Fails (.ok a s : EStateM.Result ε σ α) := fun ⟨_, _, same⟩ => nomatch same

instance (ran : EStateM.Result ε σ α) : Decidable (Fails ran) :=
  match ran with
  | .ok a s => isFalse (not_fails_ok a s)
  | .error e s => isTrue (fails_error e s)

theorem exists_of_not_fails {ran : EStateM.Result ε σ α} (served : ¬ Fails ran) : ∃ a s, ran = .ok a s := by
  cases ran with
  | ok a s => exact ⟨a, s, rfl⟩
  | error e s => exact absurd (fails_error e s) served

/-- The states before and after are related, whatever the outcome. -/
def Always (R : σ → σ → Prop) (act : EStateM ε σ α) : Prop := ∀ s, R s (after (act s))

namespace Always

variable {R : σ → σ → Prop}

theorem of_ok {act : EStateM ε σ α} (always : Always R act) {s s' : σ} {a : α} (ran : act s = .ok a s') : R s s' := by
  have related := always s
  rwa [ran] at related

theorem of_error {act : EStateM ε σ α} (always : Always R act) {s s' : σ} {e : ε} (failed : act s = .error e s') :
    R s s' := by
  have related := always s
  rwa [failed] at related

theorem pure (refl : ∀ s, R s s) (a : α) : Always R (Pure.pure a : EStateM ε σ α) := fun s => refl s

theorem throw (refl : ∀ s, R s s) (e : ε) : Always R (MonadExcept.throw e : EStateM ε σ α) := fun s => refl s

-- What would follow is never run, so nothing is asked of it.
theorem throw_bind (refl : ∀ s, R s s) (e : ε) (f : α → EStateM ε σ β) :
    Always R ((MonadExcept.throw e : EStateM ε σ α) >>= f) := fun s => refl s

theorem get (refl : ∀ s, R s s) : Always R (MonadState.get : EStateM ε σ σ) := fun s => refl s

theorem bind (trans : ∀ s t u, R s t → R t u → R s u) {x : EStateM ε σ α} {f : α → EStateM ε σ β}
    (first : Always R x) (rest : ∀ a, Always R (f a)) : Always R (x >>= f) := by
  intro s
  cases ran : x s with
  | ok a t =>
    rw [run_bind ran]
    exact trans s t _ (first.of_ok ran) (rest a t)
  | error e t =>
    rw [run_bind_error ran]
    exact first.of_error ran

end Always

theorem Always.attempt {R : σ → σ → Prop} {act : EStateM Failure σ α} (always : Always R act) :
    Always R (TracingHeap.attempt act) := by
  intro s
  have related := always s
  unfold TracingHeap.attempt
  cases ran : act s <;> rwa [ran] at related

-- A fault ends the run of a program and no call follows it, whereas after a refusal the next call finds the heap.
/-- The property outlives the computation. Nothing is said of the state after a fault. -/
structure Keeps (I : σ → Prop) (act : EStateM Failure σ α) : Prop where
  ok : ∀ {s s' a}, I s → act s = .ok a s' → I s'
  refused : ∀ {s s' e}, I s → act s = .error (.violation e) s' → I s'

namespace Keeps

variable {I : σ → Prop}

theorem pure (a : α) : Keeps I (Pure.pure a : EStateM Failure σ α) :=
  ⟨fun holds ran => by cases ran; exact holds, fun _ ran => by cases ran⟩

theorem get : Keeps I (MonadState.get : EStateM Failure σ σ) :=
  ⟨fun holds ran => by cases ran; exact holds, fun _ ran => by cases ran⟩

theorem throw (e : Failure) : Keeps I (MonadExcept.throw e : EStateM Failure σ α) :=
  ⟨fun _ ran => (nomatch ran), fun holds ran => by cases ran; exact holds⟩

theorem bind {x : EStateM Failure σ α} {f : α → EStateM Failure σ β} (first : Keeps I x) (rest : ∀ a, Keeps I (f a)) :
    Keeps I (x >>= f) := by
  constructor
  · intro s s' b holds ran
    cases step : x s with
    | ok a t =>
      rw [run_bind step] at ran
      exact (rest a).ok (first.ok holds step) ran
    | error e t =>
      rw [run_bind_error step] at ran
      cases ran
  · intro s s' e holds ran
    cases step : x s with
    | ok a t =>
      rw [run_bind step] at ran
      exact (rest a).refused (first.ok holds step) ran
    | error e' t =>
      rw [run_bind_error step] at ran
      cases ran
      exact first.refused holds step

/-- What follows a computation that never succeeds does not matter. -/
theorem bind_of_fails {x : EStateM Failure σ α} {f : α → EStateM Failure σ β} (first : Keeps I x)
    (fails : ∀ s a s', x s ≠ .ok a s') : Keeps I (x >>= f) := by
  constructor
  · intro s s' b holds ran
    cases step : x s with
    | ok a t => exact absurd step (fails s a t)
    | error e t =>
      rw [run_bind_error step] at ran
      cases ran
  · intro s s' e holds ran
    cases step : x s with
    | ok a t => exact absurd step (fails s a t)
    | error e' t =>
      rw [run_bind_error step] at ran
      cases ran
      exact first.refused holds step

end Keeps

/-- What holds of the answer and of the state after it, or of the state after a refusal. -/
def Leaves (Q : α → σ → Prop) (R : σ → Prop) : EStateM.Result Failure σ α → Prop
  | .ok a s => Q a s
  | .error (.violation _) s => R s
  | .error (.fault _) _ => True

namespace Leaves

variable {Q Q' : α → σ → Prop} {R : σ → Prop} {s s' : σ} {ran : EStateM.Result Failure σ α}

theorem imp (leaves : Leaves Q R ran) (weaker : ∀ a s', Q a s' → Q' a s') : Leaves Q' R ran := by
  match ran, leaves with
  | .ok a s', holds => exact weaker a s' holds
  | .error (.violation e) s', holds => exact holds
  | .error (.fault f) s', holds => exact holds

theorem bind {x : EStateM Failure σ α} {f : α → EStateM Failure σ β} {Q' : β → σ → Prop} (first : Leaves Q R (x s))
    (rest : ∀ a s', Q a s' → Leaves Q' R (f a s')) : Leaves Q' R ((x >>= f) s) := by
  cases step : x s with
  | ok a t =>
    rw [step] at first
    rw [run_bind step]
    exact rest a t first
  | error e t =>
    rw [step] at first
    rw [run_bind_error step]
    cases e <;> exact first

theorem of_ok {a : α} (leaves : Leaves Q R ran) (same : ran = .ok a s') : Q a s' := by
  rwa [same] at leaves

theorem of_refused {e : HeapError} (leaves : Leaves Q R ran) (same : ran = .error (.violation e) s') : R s' := by
  rwa [same] at leaves

end Leaves

/-- Nothing has to be shown of a failure if nothing is said of a refusal. -/
theorem Leaves.error {Q : α → σ → Prop} (e : Failure) (s : σ) :
    Leaves Q (fun _ => True) (.error e s : EStateM.Result Failure σ α) := by
  cases e <;> trivial

/-- What held of an answer holds of it where the failure is looked at. -/
theorem Leaves.attempt {Q : α → σ → Prop} {R : σ → Prop} {act : EStateM Failure σ α} {s : σ} (leaves : Leaves Q R (act s)) :
    Leaves (fun answer s' => ∀ a, answer = .ok a → Q a s') R (TracingHeap.attempt act s) := by
  unfold TracingHeap.attempt
  cases ran : act s with
  | ok a s' =>
    rw [ran] at leaves
    intro b same
    cases same
    exact leaves
  | error e s' => exact fun b same => nomatch same

/-- The same answer or the same failure, in related states. -/
inductive Matches (R : σ → σ → Prop) : EStateM.Result ε σ α → EStateM.Result ε σ α → Prop where
  | ok (a : α) {s t : σ} : R s t → Matches R (.ok a s) (.ok a t)
  | error (e : ε) {s t : σ} : R s t → Matches R (.error e s) (.error e t)

theorem Matches.answer_eq {R : σ → σ → Prop} {x y : EStateM.Result ε σ α} (same : Matches R x y) : answer y = answer x := by
  cases same <;> rfl

theorem Matches.after {R : σ → σ → Prop} {x y : EStateM.Result ε σ α} (same : Matches R x y) :
    R (TracingHeap.after x) (TracingHeap.after y) := by
  cases same <;> assumption

theorem Matches.of_ok {R : σ → σ → Prop} {x y : EStateM.Result ε σ α} (same : Matches R x y) {a : α} {s : σ}
    (ran : x = .ok a s) : ∃ t, y = .ok a t ∧ R s t := by
  cases same with
  | ok b related => cases ran; exact ⟨_, rfl, related⟩
  | error e related => cases ran

theorem Matches.of_error {R : σ → σ → Prop} {x y : EStateM.Result ε σ α} (same : Matches R x y) {e : ε} {s : σ}
    (failed : x = .error e s) : ∃ t, y = .error e t ∧ R s t := by
  cases same with
  | ok b related => cases failed
  | error e related => cases failed; exact ⟨_, rfl, related⟩

/-- From related states the computations come to the same outcome, and end in related states. -/
def InStep (R : σ → σ → Prop) (x y : EStateM ε σ α) : Prop := ∀ s t, R s t → Matches R (x s) (y t)

namespace InStep

variable {R : σ → σ → Prop}

theorem pure (a : α) : InStep R (Pure.pure a : EStateM ε σ α) (Pure.pure a) := fun _ _ related => .ok a related

theorem throw (e : ε) : InStep R (MonadExcept.throw e : EStateM ε σ α) (MonadExcept.throw e) :=
  fun _ _ related => .error e related

theorem bind {x y : EStateM ε σ α} {f g : α → EStateM ε σ β} (first : InStep R x y) (rest : ∀ a, InStep R (f a) (g a)) :
    InStep R (x >>= f) (y >>= g) := by
  intro s t related
  have outcome := first s t related
  cases ranLeft : x s <;> cases ranRight : y t <;> rw [ranLeft, ranRight] at outcome <;> cases outcome
  case ok.ok.ok a s' t' related' =>
    rw [run_bind ranLeft, run_bind ranRight]
    exact rest a s' t' related'
  case error.error.error e s' t' related' =>
    rw [run_bind_error ranLeft, run_bind_error ranRight]
    exact .error e related'

/-- What follows may look at the state. -/
theorem get_bind {f g : σ → EStateM ε σ α} (rest : ∀ s t, R s t → Matches R (f s s) (g t t)) :
    InStep R (MonadState.get >>= f) (MonadState.get >>= g) := fun s t related => rest s t related

end InStep

theorem foldlM_congr {f g : β → α → Except ε β} {l : List α} (same : ∀ b, ∀ a ∈ l, f b a = g b a) (b : β) :
    l.foldlM f b = l.foldlM g b := by
  induction l generalizing b with
  | nil => rfl
  | cons a rest ih =>
    rw [List.foldlM_cons, List.foldlM_cons, same b a List.mem_cons_self]
    exact congrArg (g b a >>= ·) (funext (ih fun b a member => same b a (List.mem_cons_of_mem _ member)))

/-- What each step of a fold keeps is kept by the fold. -/
theorem foldlM_keeps {f : β → α → Except ε β} {P : β → Prop} (step : ∀ b a b', P b → f b a = .ok b' → P b')
    {l : List α} {b b' : β} (start : P b) (ran : l.foldlM f b = .ok b') : P b' := by
  induction l generalizing b with
  | nil => cases ran; exact start
  | cons a rest ih =>
    rw [List.foldlM_cons] at ran
    obtain ⟨b₁, first, later⟩ := bind_eq_ok.1 ran
    exact ih (step b a b₁ start first) later

/-- A list of reads that all succeed. -/
theorem mapM_eq_ok {f : α → Except ε β} {g : α → β} {l : List α} (each : ∀ a ∈ l, f a = .ok (g a)) :
    l.mapM f = .ok (l.map g) := by
  induction l with
  | nil => rfl
  | cons a rest ih =>
    rw [List.mapM_cons, each a List.mem_cons_self, ih fun b member => each b (List.mem_cons_of_mem a member)]
    rfl

namespace Access

variable {α : Type} {m : Memory} {a n : Nat}

theorem look_ok {f : Memory → Reading α} {x : α} (read : f m = .ok x) : look f m = .ok x m := by
  simp only [look, read]

theorem look_error {f : Memory → Reading α} {e : Failure} (failed : f m = .error e) : look f m = .error e m := by
  simp only [look, failed]

theorem guarded_ok {f : Memory → Memory} (inside : m.holds a n = true) : guarded a n f m = .ok () (f m) := by
  simp only [guarded, inside, if_true]

theorem loadWord_ok (inside : m.holds a wordSize = true) : loadWord a m = .ok (m.word a) m :=
  look_ok (by simp only [Memory.readWord, inside, if_true])

theorem load_ok (inside : m.holds a n = true) : load a n m = .ok (m.load a n) m :=
  look_ok (by simp only [inside, if_true])

theorem storeSlot_ok {s : Slot} {v : Nat} (inside : m.holdsSlot s = true) :
    storeSlot s v m = .ok () (m.setSlot s v) := by
  simp only [storeSlot, inside, if_true]

theorem storeSlot_error {s : Slot} {v : Nat} (outside : ¬ m.holdsSlot s = true) :
    storeSlot s v m = .error (.fault s.fault) m := by
  simp only [storeSlot, outside, if_false, Bool.false_eq_true]

theorem always_look {R : Memory → Memory → Prop} (refl : ∀ m, R m m) (f : Memory → Reading α) :
    Always R (look f) := by
  intro m
  unfold look
  cases f m <;> exact refl m

theorem always_guarded {R : Memory → Memory → Prop} (refl : ∀ m, R m m) {f : Memory → Memory}
    (change : ∀ m, R m (f m)) : Always R (guarded a n f) := by
  intro m
  unfold guarded
  cases m.holds a n
  · exact refl m
  · exact change m

theorem always_storeSlot {R : Memory → Memory → Prop} (refl : ∀ m, R m m) {s : Slot} {v : Nat}
    (change : ∀ m, R m (m.setSlot s v)) : Always R (storeSlot s v) := by
  intro m
  unfold storeSlot
  cases m.holdsSlot s
  · exact refl m
  · exact change m

end Access

end TracingHeap

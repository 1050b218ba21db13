import TracingHeap.Memory.Access

/-! Loops without a bound on their rounds.

Where a function of the library counts its rounds, the loop that it stands for does not: its body says whether there is a
next round and what it starts from. Such a loop comes to an end if finitely many runs of its body lead there. -/

set_option autoImplicit false

namespace TracingHeap

/-- The body of a loop: nothing if the loop is over, or what the next round starts from. -/
abbrev Loop (σ ι : Type) := ι → EStateM Failure σ (Option ι)

namespace Loop

variable {σ ι : Type} {body : Loop σ ι} {i j : ι} {s t : σ}

/-- The loop comes to an end: it is over, or its body fails. -/
inductive Ends (body : Loop σ ι) : ι → σ → EStateM.Result Failure σ ι → Prop where
  | done {i : ι} {s s' : σ} : body i s = .ok none s' → Ends body i s (.ok i s')
  | failed {i : ι} {s s' : σ} {x : Failure} : body i s = .error x s' → Ends body i s (.error x s')
  | again {i j : ι} {s s' : σ} {r : EStateM.Result Failure σ ι} : body i s = .ok (some j) s' → Ends body j s' r →
      Ends body i s r

/-- A round that the loop comes to, and the state before it. -/
inductive Leads (body : Loop σ ι) (i : ι) (s : σ) : ι → σ → Prop where
  | start : Leads body i s i s
  | again {j k : ι} {t u : σ} : Leads body i s j t → body j t = .ok (some k) u → Leads body i s k u

/-- What every round keeps holds before each round that the loop comes to. -/
theorem Leads.keeps {P : ι → σ → Prop} (leads : Leads body i s j t) (start : P i s)
    (step : ∀ {j k t u}, P j t → body j t = .ok (some k) u → P k u) : P j t := by
  induction leads with
  | start => exact start
  | again _ ran ih => exact step ih ran

/-- The loop whose body looks at memory and writes nothing. -/
def reading {ι : Type} (look : Memory → ι → Reading (Option ι)) : Loop Memory ι := fun i => Access.look fun m => look m i

theorem reading_ok {look : Memory → ι → Reading (Option ι)} {m : Memory} {next : Option ι} (read : look m i = .ok next) :
    reading look i m = .ok next m := by
  simp only [reading, Access.look, read]

theorem of_reading {look : Memory → ι → Reading (Option ι)} {m m' : Memory} {next : Option ι}
    (ran : reading look i m = .ok next m') : m' = m ∧ look m i = .ok next := by
  cases read : look m i <;> simp only [reading, Access.look, read] at ran <;> cases ran
  exact ⟨rfl, rfl⟩

end Loop

end TracingHeap

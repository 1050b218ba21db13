import Mathlib.Data.List.DropRight
import Mathlib.Data.List.Induction
import TracingHeap.Text.Blank

/-! What a text spells.

A text is read without the blanks around it. A keyword may have capitals for its letters, a number a plus sign and zeros
in front. Nothing else is read as the keyword or the number. -/

set_option autoImplicit false

namespace TracingHeap.Text

variable {text word : String} {core : List Char} {n limit : Nat}

/-! ### Blanks -/

/-- There is nothing but blanks in it. -/
def Blank (cs : List Char) : Prop := ∀ c ∈ cs, isBlank c = true

/-- There is no blank in it. -/
def Solid (cs : List Char) : Prop := ∀ c ∈ cs, isBlank c = false

instance (cs : List Char) : Decidable (Blank cs) := List.decidableBAll (isBlank · = true) cs

instance (cs : List Char) : Decidable (Solid cs) := List.decidableBAll (isBlank · = false) cs

/-- The text has blanks around the core. -/
def Padded (text : String) (core : List Char) : Prop :=
  ∃ left right, text.toList = left ++ core ++ right ∧ Blank left ∧ Blank right

theorem padded_trim (text : String) : Padded text (trim text.toList) := by
  refine ⟨text.toList.takeWhile isBlank, (text.toList.dropWhile isBlank).rtakeWhile isBlank, ?_,
    fun c => List.mem_takeWhile_imp, fun c => List.mem_rtakeWhile_imp⟩
  have ends : trim text.toList = (text.toList.dropWhile isBlank).rdropWhile isBlank := rfl
  rw [ends, List.append_assoc, List.rdropWhile_append_rtakeWhile, List.takeWhile_append_dropWhile]

theorem Solid.dropWhile_eq (solid : Solid core) {rest : List Char} (blank : Blank rest) :
    (core ++ rest).dropWhile isBlank = if core = [] then [] else core ++ rest := by
  cases core with
  | nil => exact List.dropWhile_eq_nil_iff.2 blank
  | cons c cs =>
    have first : ¬ isBlank c = true := Bool.eq_false_iff.1 (solid c List.mem_cons_self)
    rw [if_neg (List.cons_ne_nil c cs), List.cons_append, List.dropWhile_cons_of_neg first]

theorem Padded.trim_eq (padded : Padded text core) (solid : Solid core) : trim text.toList = core := by
  obtain ⟨left, right, split, before, behind⟩ := padded
  have back : Solid core.reverse := fun c member => solid c (List.mem_reverse.1 member)
  rw [trim, split, List.append_assoc, List.dropWhile_append_of_pos before, solid.dropWhile_eq behind]
  by_cases none : core = []
  · rw [if_pos none, none]
    rfl
  · have some : core.reverse ≠ [] := mt List.reverse_eq_nil_iff.1 none
    rw [if_neg none, List.reverse_append,
      List.dropWhile_append_of_pos fun c member => behind c (List.mem_reverse.1 member)]
    have rest := back.dropWhile_eq (fun _ member => nomatch member : Blank [])
    rw [List.append_nil, if_neg some] at rest
    rw [rest, List.reverse_reverse]

/-! ### Keywords -/

/-- The letters of the word, small or capital, with blanks around them. -/
def Spells (text word : String) : Prop := ∃ letters, Padded text letters ∧ lower letters = word.toList

/-- A blank is no letter. -/
theorem toLower_of_isBlank {c : Char} (blank : isBlank c = true) : c.toLower = c := by
  unfold Char.toLower
  refine dif_neg fun capital => ?_
  have range : 65 ≤ c.toNat ∧ c.toNat ≤ 90 := capital
  simp only [isBlank, Bool.or_eq_true, Bool.and_eq_true, decide_eq_true_eq, beq_iff_eq] at blank
  omega

theorem solid_of_lower {letters : List Char} (solid : Solid (lower letters)) : Solid letters := by
  intro c member
  refine Bool.eq_false_iff.2 fun blank => ?_
  have same := solid c.toLower (List.mem_map_of_mem member)
  rw [toLower_of_isBlank blank, blank] at same
  cases same

theorem keyword_eq_iff (solid : Solid word.toList) : keyword text = word ↔ Spells text word := by
  constructor
  · rintro rfl
    exact ⟨_, padded_trim text, String.toList_ofList.symm⟩
  · rintro ⟨letters, padded, spelled⟩
    rw [keyword, padded.trim_eq (solid_of_lower (spelled ▸ solid)), spelled, String.ofList_toList]

/-! ### Numbers -/

/-- The digits of the number, with a plus sign and zeros in front and blanks around them. -/
def Numeral (text : String) (n : Nat) : Prop :=
  ∃ sign zeros, (sign = [] ∨ sign = ['+']) ∧ Padded text (sign ++ (List.replicate zeros '0' ++ Nat.toDigits 10 n))

/-- The value of some digits. -/
def value (digits : List Char) : Nat := Nat.ofDigitChars 10 digits 0

theorem digit_range {c : Char} (digit : c.isDigit = true) : 48 ≤ c.toNat ∧ c.toNat ≤ 57 := by
  simpa [Char.isDigit, UInt32.le_iff_toNat_le] using digit

theorem toDigits_digit {c : Char} (digit : c.isDigit = true) :
    c.toNat - '0'.toNat < 10 ∧ Nat.toDigits 10 (c.toNat - '0'.toNat) = [c] := by
  have range := digit_range digit
  have below : c.toNat - 48 < 10 := by omega
  have same : Nat.digitChar (c.toNat - 48) = c := by
    refine Char.toNat_inj.1 ?_
    rw [Nat.toNat_digitChar_of_lt_ten below]
    omega
  exact ⟨below, (Nat.toDigits_of_lt_base below).trans (congrArg ([·]) same)⟩

theorem value_concat (digits : List Char) (c : Char) : value (digits ++ [c]) = 10 * value digits + (c.toNat - '0'.toNat) := by
  simp [value, Nat.ofDigitChars]

/-- Digits are zeros in front of those of their value. -/
theorem exists_zeros {digits : List Char} (some : digits ≠ []) (all : ∀ c ∈ digits, c.isDigit = true) :
    ∃ zeros, digits = List.replicate zeros '0' ++ Nat.toDigits 10 (value digits) := by
  -- The last digit is read last. It comes behind those of a number that is not zero, and takes the place of a zero.
  induction digits using List.reverseRecOn with
  | nil => exact absurd rfl some
  | append_singleton front c ih =>
    obtain ⟨below, last⟩ := toDigits_digit (all c (List.mem_append_right _ List.mem_cons_self))
    rw [value_concat]
    by_cases first : front = []
    · refine ⟨0, ?_⟩
      subst first
      rw [show value [] = 0 from rfl, Nat.mul_zero, Nat.zero_add, last]
      rfl
    · obtain ⟨zeros, split⟩ := ih first fun d member => all d (List.mem_append_left _ member)
      rcases Nat.eq_zero_or_pos (value front) with zero | positive
      · refine ⟨zeros + 1, ?_⟩
        rw [zero] at split ⊢
        rw [Nat.mul_zero, Nat.zero_add, last, split, List.replicate_succ']
        rfl
      · refine ⟨zeros, ?_⟩
        rw [← Nat.toDigits_append_toDigits (by decide) positive below, last, ← List.append_assoc, ← split]

theorem value_zeros (zeros n : Nat) : value (List.replicate zeros '0' ++ Nat.toDigits 10 n) = n := by
  induction zeros with
  | zero => exact Nat.ofDigitChars_ten_toDigits
  | succ zeros ih => exact ih

theorem digits_zeros (zeros n : Nat) {c : Char} (member : c ∈ List.replicate zeros '0' ++ Nat.toDigits 10 n) :
    c.isDigit = true := by
  rcases List.mem_append.1 member with zero | digit
  · rw [List.eq_of_mem_replicate zero]
    rfl
  · exact Nat.isDigit_of_mem_toDigits (by decide) (by decide) digit

/-- Digits are read as their value, if that is below the limit. -/
theorem readDigits_eq_some {digits : List Char} :
    (if digits.isEmpty || !digits.all Char.isDigit then none
      else if value digits < limit then some (value digits) else none) = some n ↔
    n < limit ∧ ∃ zeros, digits = List.replicate zeros '0' ++ Nat.toDigits 10 n := by
  constructor
  · intro found
    split at found
    · cases found
    · next fine =>
      simp only [Bool.or_eq_true, Bool.not_eq_true', not_or, Bool.not_eq_true, Bool.not_eq_false] at fine
      split at found
      · next below =>
        cases found
        exact ⟨below, exists_zeros (List.isEmpty_eq_false_iff.1 fine.1) (List.all_eq_true.1 fine.2)⟩
      · cases found
  · rintro ⟨below, zeros, rfl⟩
    have some : List.replicate zeros '0' ++ Nat.toDigits 10 n ≠ [] := List.append_ne_nil_of_right_ne_nil _ Nat.toDigits_ne_nil
    have all := List.all_eq_true.2 fun c member => digits_zeros zeros n member
    rw [value_zeros, if_pos below, if_neg]
    simp only [List.isEmpty_eq_false_iff.2 some, all, Bool.not_true, Bool.or_false, Bool.false_eq_true, not_false_eq_true]

theorem decimal?_eq_some {cs : List Char} : decimal? limit cs = some n ↔
    n < limit ∧ ∃ sign zeros, (sign = [] ∨ sign = ['+']) ∧ cs = sign ++ (List.replicate zeros '0' ++ Nat.toDigits 10 n) := by
  unfold decimal?
  split
  · next rest =>
    refine readDigits_eq_some.trans (and_congr_right fun _ => ?_)
    constructor
    · rintro ⟨zeros, split⟩
      exact ⟨['+'], zeros, .inr rfl, congrArg (List.cons '+') split⟩
    · rintro ⟨sign, zeros, rfl | rfl, split⟩
      · -- A plus sign is no digit.
        cases digits_zeros zeros n (split ▸ List.mem_cons_self)
      · exact ⟨zeros, List.tail_eq_of_cons_eq split⟩
  · next unsigned =>
    refine readDigits_eq_some.trans (and_congr_right fun _ => ?_)
    constructor
    · rintro ⟨zeros, split⟩
      exact ⟨[], zeros, .inl rfl, split⟩
    · rintro ⟨sign, zeros, rfl | rfl, split⟩
      · exact ⟨zeros, split⟩
      · exact absurd split (unsigned _)

theorem isBlank_of_isDigit {c : Char} (digit : c.isDigit = true) : isBlank c = false := by
  have range := digit_range digit
  refine Bool.eq_false_iff.2 fun blank => ?_
  simp only [isBlank, Bool.or_eq_true, Bool.and_eq_true, decide_eq_true_eq, beq_iff_eq] at blank
  omega

/-- A number below the limit is read from its numerals, and from nothing else. -/
theorem decimal?_trim : decimal? limit (trim text.toList) = some n ↔ n < limit ∧ Numeral text n := by
  refine decimal?_eq_some.trans (and_congr_right fun _ => exists_congr fun sign => exists_congr fun zeros => ?_)
  refine and_congr_right fun signed => ⟨fun split => split ▸ padded_trim text, fun padded => padded.trim_eq fun c member => ?_⟩
  rcases List.mem_append.1 member with plus | digit
  · rcases signed with rfl | rfl
    · cases plus
    · rw [List.mem_singleton.1 plus]
      rfl
  · exact isBlank_of_isDigit (digits_zeros zeros n digit)

end TracingHeap.Text

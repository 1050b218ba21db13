/-! Blank characters, trimming and case folding of configuration text. -/

set_option autoImplicit false

namespace TracingHeap.Text

/-- The characters with the Unicode property White_Space. -/
def isBlank (c : Char) : Bool :=
  let n := c.toNat
  (9 ≤ n && n ≤ 13) || n == 32 || n == 0x85 || n == 0xA0 || n == 0x1680 || (0x2000 ≤ n && n ≤ 0x200A)
    || n == 0x2028 || n == 0x2029 || n == 0x202F || n == 0x205F || n == 0x3000

theorem isBlank_of_isWhitespace (c : Char) (h : c.isWhitespace = true) : isBlank c = true := by
  simp only [Char.isWhitespace, Bool.or_eq_true, decide_eq_true_eq] at h
  rcases h with ((rfl | rfl) | rfl) | rfl <;> decide

/-- Blanks are removed at both ends only. -/
def trim (cs : List Char) : List Char := (cs.dropWhile isBlank).reverse.dropWhile isBlank |>.reverse

/-- Only the 26 ASCII capitals have a lower case here. -/
def lower (cs : List Char) : List Char := cs.map Char.toLower

/-- The form in which a keyword is looked up. -/
def keyword (s : String) : String := String.ofList (lower (trim s.toList))

/-- A decimal word: one or more ASCII digits, after an optional plus sign, with a value below
`limit`. -/
def decimal? (limit : Nat) (cs : List Char) : Option Nat :=
  let digits := match cs with
    | '+' :: rest => rest
    | _ => cs
  if digits.isEmpty || !digits.all Char.isDigit then none
  else
    let value := digits.foldl (fun n c => 10 * n + (c.toNat - '0'.toNat)) 0
    if value < limit then some value else none

example : keyword "  MarkSweep\u2003" = "marksweep" := by decide +kernel
example : decimal? 300 "+0255".toList = some 255 := by decide +kernel
example : decimal? 300 "300".toList = none := by decide +kernel
example : decimal? 300 "+".toList = none := by decide +kernel
example : decimal? 300 "1_0".toList = none := by decide +kernel

end TracingHeap.Text

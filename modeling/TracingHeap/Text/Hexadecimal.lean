/-! Hexadecimal text: numbers as messages show them, in lower case after `0x`, and bytes as pairs of
digits. -/

set_option autoImplicit false

namespace TracingHeap.Text

/-- As many digits as the number needs. -/
def hex (n : Nat) : String := "0x" ++ String.ofList (Nat.toDigits 16 n)

/-- A byte always takes two digits. -/
def hexByte (b : UInt8) : String :=
  "0x" ++ String.ofList [Nat.digitChar (b.toNat / 16), Nat.digitChar (b.toNat % 16)]

/-- The value of a digit in either case. -/
def hexDigit? (c : Char) : Option Nat :=
  let n := c.toNat
  if 48 ≤ n ∧ n ≤ 57 then some (n - 48)
  else if 97 ≤ n ∧ n ≤ 102 then some (n - 87)
  else if 65 ≤ n ∧ n ≤ 70 then some (n - 55)
  else none

/-- The number that one or more digits spell. -/
def ofHex? (digits : List Char) : Option Nat :=
  if digits.isEmpty then none else digits.foldlM (fun n c => (hexDigit? c).map fun d => 16 * n + d) 0

/-- Two digits per byte. -/
def hexBytes (bytes : ByteArray) : String :=
  bytes.foldl (fun s b => (s.push (Nat.digitChar (b.toNat / 16))).push (Nat.digitChar (b.toNat % 16))) ""

/-- The bytes that pairs of digits spell, after those found before them. -/
def ofHexBytes? (found : ByteArray) : List Char → Option ByteArray
  | [] => some found
  | [_] => none
  | high :: low :: rest => do
    let high ← hexDigit? high
    let low ← hexDigit? low
    ofHexBytes? (found.push (UInt8.ofNat (16 * high + low))) rest

example : hex 4096 = "0x1000" := by decide +kernel
example : hex 0 = "0x0" := by decide +kernel
example : hexByte 9 = "0x09" := by decide +kernel
example : ofHex? "fF".toList = some 255 := by decide +kernel

end TracingHeap.Text

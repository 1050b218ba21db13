/-! Machine words.

Addresses, sizes and counts are natural numbers. Where a result may leave the 64-bit range the
operation says what happens there: it wraps, or it stops at the largest word. -/

set_option autoImplicit false

namespace TracingHeap

/-- Words are the numbers below this one. -/
def wordLimit : Nat := 18446744073709551616

/-- Bytes in a word; objects, traced slots and blocks are aligned to it. -/
def wordSize : Nat := 8

namespace Word

def wrap (n : Nat) : Nat := n % wordLimit

def saturate (n : Nat) : Nat := min n (wordLimit - 1)

theorem wrap_of_lt {n : Nat} (h : n < wordLimit) : wrap n = n := Nat.mod_eq_of_lt h

theorem wrap_lt (n : Nat) : wrap n < wordLimit := Nat.mod_lt n (by decide)

theorem saturate_of_lt {n : Nat} (h : n < wordLimit) : saturate n = n := by
  unfold saturate; omega

theorem saturate_lt (n : Nat) : saturate n < wordLimit := by
  unfold saturate wordLimit; omega

/-- The next multiple of `align`, when that is a power of two; the bits below it are cleared
whatever it is. -/
def alignUp (size align : Nat) : Nat :=
  ((BitVec.ofNat 64 size + BitVec.ofNat 64 align - 1) &&& ~~~(BitVec.ofNat 64 align - 1)).toNat

/-- The largest multiple of the word size that is not above `n`. -/
def floor (n : Nat) : Nat := n / wordSize * wordSize

theorem floor_le (n : Nat) : floor n ≤ n := Nat.div_mul_le_self n wordSize

theorem floor_dvd (n : Nat) : wordSize ∣ floor n := Nat.dvd_mul_left wordSize _

/-- The next multiple of the word size, by division. -/
def ceil (n : Nat) : Nat := floor (wrap (n + 7))

theorem alignUp_word (n : Nat) : alignUp n wordSize = ceil n := by
  have small : BitVec.ofNat 64 n + BitVec.ofNat 64 wordSize - 1 = BitVec.ofNat 64 (n + 7) := by
    apply BitVec.eq_of_toNat_eq
    simp [wordSize, BitVec.toNat_sub, BitVec.toNat_add]
    omega
  have mask : ~~~(BitVec.ofNat 64 wordSize - 1) = (BitVec.allOnes 64 >>> 3) <<< 3 := by decide
  unfold alignUp
  rw [small, mask]
  have shifted : BitVec.ofNat 64 (n + 7) &&& (BitVec.allOnes 64 >>> 3) <<< 3
      = (BitVec.ofNat 64 (n + 7) >>> 3) <<< 3 := by
    ext i hi
    simp only [BitVec.getElem_and, BitVec.getElem_shiftLeft, BitVec.getElem_ushiftRight]
    by_cases low : i < 3
    · simp [low]
    · have back : 3 + (i - 3) = i := by omega
      have ones : (BitVec.allOnes 64)[i] = true := BitVec.getElem_allOnes i hi
      simp only [low, back, ones, hi, decide_false, Bool.not_false, Bool.and_true, Bool.true_and,
        BitVec.getLsbD_eq_getElem]
  rw [shifted]
  simp only [BitVec.toNat_shiftLeft, BitVec.toNat_ushiftRight, BitVec.toNat_ofNat, Nat.shiftRight_eq_div_pow,
    Nat.shiftLeft_eq, ceil, floor, wrap, wordLimit, wordSize]
  omega

end Word

end TracingHeap

/-! One zeroed block of bytes.

The stored bytes grow only as far as something other than zero has been written: what lies past
their end reads as zero. So a large arena costs nothing before it is used, and every operation is
described by its effect on `Arena.byte`. -/

set_option autoImplicit false

namespace TracingHeap

/-- The number that `n` bytes from position `i` on spell, least significant first. -/
@[specialize] def littleEndian (byte : Nat → UInt8) (i : Nat) : Nat → Nat
  | 0 => 0
  | n + 1 => (byte i).toNat + 256 * littleEndian byte (i + 1) n

/-- Numbers of `n` bytes are below this one. -/
def byteLimit : (n : Nat) → Nat
  | 0 => 1
  | n + 1 => 256 * byteLimit n

theorem littleEndian_lt (byte : Nat → UInt8) (i n : Nat) : littleEndian byte i n < byteLimit n := by
  induction n generalizing i with
  | zero => exact Nat.one_pos
  | succ n ih =>
    have first := (byte i).toNat_lt
    have rest := ih (i + 1)
    rw [littleEndian, byteLimit]
    omega

theorem littleEndian_congr {f g : Nat → UInt8} {i n : Nat} (same : ∀ j, i ≤ j → j < i + n → f j = g j) :
    littleEndian f i n = littleEndian g i n := by
  induction n generalizing i with
  | zero => rfl
  | succ n ih =>
    rw [littleEndian, littleEndian, same i (by omega) (by omega), ih fun j _ _ => same j (by omega) (by omega)]

structure Arena where
  /-- Bytes that may be accessed. -/
  extent : Nat
  bytes : ByteArray

namespace Arena

def fresh (extent : Nat) : Arena := ⟨extent, ByteArray.empty⟩

def byte (a : Arena) (i : Nat) : UInt8 := if h : i < a.bytes.size then a.bytes[i] else 0

/-- Zeros appended. -/
def pad (bytes : ByteArray) : Nat → ByteArray
  | 0 => bytes
  | n + 1 => pad (bytes.push 0) n

def setByte (a : Arena) (i : Nat) (v : UInt8) : Arena :=
  if h : i < a.bytes.size then { a with bytes := a.bytes.set i v h }
  else if v = 0 then a
  else { a with bytes := (pad a.bytes (i - a.bytes.size)).push v }

@[simp] theorem byte_fresh (extent i : Nat) : (fresh extent).byte i = 0 := by
  simp [byte, fresh]

@[simp] theorem extent_setByte (a : Arena) (i : Nat) (v : UInt8) : (a.setByte i v).extent = a.extent := by
  unfold setByte
  split
  · rfl
  · split <;> rfl

theorem size_pad (bytes : ByteArray) (n : Nat) : (pad bytes n).size = bytes.size + n := by
  induction n generalizing bytes with
  | zero => rfl
  | succ n ih => rw [pad, ih, ByteArray.size_push]; omega

theorem getElem?_pad (bytes : ByteArray) (n i : Nat) :
    (pad bytes n)[i]?.getD 0 = bytes[i]?.getD 0 := by
  induction n generalizing bytes with
  | zero => rfl
  | succ n ih =>
    rw [pad, ih]
    show ((bytes.data.push 0)[i]?).getD 0 = (bytes.data[i]?).getD 0
    rw [Array.getElem?_push]
    split
    · next h => simp [h]
    · rfl

theorem byte_eq_getD (a : Arena) (i : Nat) : a.byte i = a.bytes[i]?.getD 0 := by
  unfold byte
  split
  · next h => rw [getElem?_pos a.bytes i h]; rfl
  · next h => rw [getElem?_neg a.bytes i h]; rfl

theorem byte_setByte (a : Arena) (i j : Nat) (v : UInt8) :
    (a.setByte i v).byte j = if j = i then v else a.byte j := by
  rw [byte_eq_getD, byte_eq_getD]
  unfold setByte
  split
  · next h =>
    show ((a.bytes.data.set i v h)[j]?).getD 0 = if j = i then v else (a.bytes.data[j]?).getD 0
    rw [Array.getElem?_set]
    by_cases same : i = j
    · simp [same]
    · simp [same, Ne.symm same]
  · next h =>
    have outside : a.bytes[i]?.getD 0 = 0 := by rw [getElem?_neg a.bytes i h]; rfl
    split
    · next zero =>
      by_cases same : j = i
      · subst same; simp [outside, zero]
      · simp [same]
    · have size := size_pad a.bytes (i - a.bytes.size)
      have last : (pad a.bytes (i - a.bytes.size)).data.size = i := by
        have : (pad a.bytes (i - a.bytes.size)).size = i := by rw [size]; omega
        exact this
      show (((pad a.bytes (i - a.bytes.size)).data.push v)[j]?).getD 0 = _
      rw [Array.getElem?_push, last]
      split
      · simp
      · exact getElem?_pad a.bytes (i - a.bytes.size) j

/-- Write `n` bytes of a number, least significant first. -/
def setLittleEndian (a : Arena) (i v : Nat) : Nat → Arena
  | 0 => a
  | n + 1 => setLittleEndian (a.setByte i (UInt8.ofNat v)) (i + 1) (v / 256) n

theorem byte_setLittleEndian_of_outside (a : Arena) (i v n j : Nat) (h : j < i ∨ i + n ≤ j) :
    (a.setLittleEndian i v n).byte j = a.byte j := by
  induction n generalizing a i v with
  | zero => rfl
  | succ n ih =>
    rw [setLittleEndian, ih _ _ _ (by omega), byte_setByte, if_neg (by omega)]

@[simp] theorem extent_setLittleEndian (a : Arena) (i v n : Nat) : (a.setLittleEndian i v n).extent = a.extent := by
  induction n generalizing a i v with
  | zero => rfl
  | succ n ih => rw [setLittleEndian, ih, extent_setByte]

theorem littleEndian_setLittleEndian (a : Arena) (i v n : Nat) :
    littleEndian (a.setLittleEndian i v n).byte i n = v % byteLimit n := by
  induction n generalizing a i v with
  | zero => exact (Nat.mod_one v).symm
  | succ n ih =>
    rw [littleEndian, setLittleEndian, ih, byte_setLittleEndian_of_outside _ _ _ _ _ (by omega), byte_setByte,
      if_pos rfl, byteLimit, Nat.mod_mul, UInt8.toNat_ofNat']

private def clearLoop (a : Arena) (i : Nat) : Nat → Arena
  | 0 => a
  | n + 1 => clearLoop (a.setByte i 0) (i + 1) n

private theorem byte_clearLoop (a : Arena) (i n j : Nat) :
    (clearLoop a i n).byte j = if i ≤ j ∧ j < i + n then 0 else a.byte j := by
  induction n generalizing a i with
  | zero => rw [clearLoop, if_neg (by omega)]
  | succ n ih =>
    rw [clearLoop, ih, byte_setByte]
    by_cases first : j = i
    · simp [first]
    · by_cases inside : i + 1 ≤ j ∧ j < i + 1 + n
      · rw [if_pos inside, if_pos (by omega)]
      · rw [if_neg inside, if_neg first, if_neg (by omega)]

private theorem extent_clearLoop (a : Arena) (i n : Nat) : (clearLoop a i n).extent = a.extent := by
  induction n generalizing a i with
  | zero => rfl
  | succ n ih => rw [clearLoop, ih, extent_setByte]

/-- Zero `n` bytes. Those past the stored ones are zero already. -/
def clear (a : Arena) (i n : Nat) : Arena := clearLoop a i (min n (a.bytes.size - i))

@[simp] theorem extent_clear (a : Arena) (i n : Nat) : (a.clear i n).extent = a.extent := extent_clearLoop a i _

theorem byte_clear (a : Arena) (i n j : Nat) :
    (a.clear i n).byte j = if i ≤ j ∧ j < i + n then 0 else a.byte j := by
  rw [clear, byte_clearLoop]
  by_cases stored : j < a.bytes.size
  · by_cases inside : i ≤ j ∧ j < i + n
    · rw [if_pos inside, if_pos (by omega)]
    · rw [if_neg inside, if_neg (by omega)]
  · have zero : a.byte j = 0 := by simp [byte, stored]
    rw [zero]; simp

private def loadLoop (a : Arena) (acc : ByteArray) (i : Nat) : Nat → ByteArray
  | 0 => acc
  | n + 1 => loadLoop a (acc.push (a.byte i)) (i + 1) n

private theorem loadLoop_data (a : Arena) (acc : ByteArray) (i n : Nat) :
    (loadLoop a acc i n).data.toList = acc.data.toList ++ (List.range' i n).map a.byte := by
  induction n generalizing acc i with
  | zero => simp [loadLoop]
  | succ n ih =>
    rw [loadLoop, ih]
    show (acc.data.push (a.byte i)).toList ++ _ = _
    simp [List.range'_succ]

/-- A copy of `n` bytes. -/
def load (a : Arena) (i n : Nat) : ByteArray := loadLoop a (ByteArray.emptyWithCapacity n) i n

theorem toList_load (a : Arena) (i n : Nat) : (a.load i n).data.toList = (List.range' i n).map a.byte := by
  rw [load, loadLoop_data]; rfl

theorem size_load (a : Arena) (i n : Nat) : (a.load i n).size = n := by
  have length := congrArg List.length (toList_load a i n)
  simpa using length

theorem getElem?_load (a : Arena) {i n j : Nat} (lt : j < n) : (a.load i n)[j]?.getD 0 = a.byte (i + j) := by
  have inside : j < (a.load i n).data.toList.length := by rw [toList_load]; simpa using lt
  have element : (a.load i n).data.toList[j]? = some (a.byte (i + j)) := by
    rw [toList_load, List.getElem?_map, List.getElem?_range' lt]; simp
  show ((a.load i n).data[j]?).getD 0 = _
  rw [← Array.getElem?_toList, element]; rfl

private def storeLoop (a : Arena) (source : ByteArray) (k i : Nat) : Nat → Arena
  | 0 => a
  | n + 1 => storeLoop (a.setByte i (source[k]?.getD 0)) source (k + 1) (i + 1) n

private theorem byte_storeLoop (a : Arena) (source : ByteArray) (k i n j : Nat) :
    (storeLoop a source k i n).byte j =
      if i ≤ j ∧ j < i + n then source[k + (j - i)]?.getD 0 else a.byte j := by
  induction n generalizing a k i with
  | zero => rw [storeLoop, if_neg (by omega)]
  | succ n ih =>
    rw [storeLoop, ih, byte_setByte]
    by_cases first : j = i
    · subst first
      rw [if_neg (by omega), if_pos rfl, if_pos (by omega), Nat.sub_self, Nat.add_zero]
    · by_cases inside : i + 1 ≤ j ∧ j < i + 1 + n
      · rw [if_pos inside, if_pos (by omega), show k + 1 + (j - (i + 1)) = k + (j - i) by omega]
      · rw [if_neg inside, if_neg first, if_neg (by omega)]

private theorem extent_storeLoop (a : Arena) (source : ByteArray) (k i n : Nat) :
    (storeLoop a source k i n).extent = a.extent := by
  induction n generalizing a k i with
  | zero => rfl
  | succ n ih => rw [storeLoop, ih, extent_setByte]

/-- Write bytes one after the other. -/
def store (a : Arena) (i : Nat) (source : ByteArray) : Arena := storeLoop a source 0 i source.size

@[simp] theorem extent_store (a : Arena) (i : Nat) (source : ByteArray) : (a.store i source).extent = a.extent :=
  extent_storeLoop a source 0 i _

theorem byte_store (a : Arena) (i : Nat) (source : ByteArray) (j : Nat) :
    (a.store i source).byte j =
      if i ≤ j ∧ j < i + source.size then source[j - i]?.getD 0 else a.byte j := by
  rw [store, byte_storeLoop]; simp only [Nat.zero_add]

end Arena

end TracingHeap

import TracingHeap.Statistics.Counters

/-! The text of statistics: byte counts, durations and the summary. -/

set_option autoImplicit false

namespace TracingHeap

namespace Text

/-- The quotient rounded to the nearest number; a half goes to the even neighbour. -/
def roundHalfEven (num den : Nat) : Nat :=
  let q := num / den
  let twice := 2 * (num % den)
  if twice > den ∨ (twice = den ∧ q % 2 = 1) then q + 1 else q

/-- A word rounded to 53 significant bits. -/
def significand (n : Nat) : Nat :=
  let excess := n.log2 + 1 - 53
  roundHalfEven n (1 <<< excess) <<< excess

/-- Digits in front of a number up to `width` places. -/
def zeros (width n : Nat) : String :=
  let digits := toString n
  String.ofList (List.replicate (width - digits.length) '0') ++ digits

/-- A quotient with two places. The dividend is rounded to 53 bits before it is divided. -/
def twoPlaces (n unit : Nat) : String :=
  let hundredths := roundHalfEven (100 * significand n) unit
  toString (hundredths / 100) ++ "." ++ zeros 2 (hundredths % 100)

/-- A byte count in the largest unit that it reaches. -/
def byteCount (n : Nat) : String :=
  if 1073741824 ≤ n then twoPlaces n 1073741824 ++ " GB"
  else if 1048576 ≤ n then twoPlaces n 1048576 ++ " MB"
  else if 1024 ≤ n then twoPlaces n 1024 ++ " KB"
  else s!"{n} bytes"

/-- A quotient with all its places: `den` is a power of ten with `places` zeros. -/
def allPlaces (n den places : Nat) : String :=
  let fraction := (zeros places (n % den)).toList.reverse.dropWhile (· = '0') |>.reverse
  if n % den = 0 then toString (n / den) else toString (n / den) ++ "." ++ String.ofList fraction

/-- A duration in the largest unit that it reaches. -/
def duration (nanoseconds : Nat) : String :=
  if 1000000000 ≤ nanoseconds then allPlaces nanoseconds 1000000000 9 ++ "s"
  else if 1000000 ≤ nanoseconds then allPlaces nanoseconds 1000000 6 ++ "ms"
  else if 1000 ≤ nanoseconds then allPlaces nanoseconds 1000 3 ++ "µs"
  else s!"{nanoseconds}ns"

end Text

/-- The summary, one line per topic. -/
def Statistics.summary (s : Statistics) : String :=
  let c := s.counters
  "=== GC Statistics ===\n"
    ++ s!"Allocations: {c.allocations} objects, " ++ Text.byteCount c.bytesAllocated ++ "\n"
    ++ s!"Live: {c.liveObjects} objects (high water {c.liveHighWater})\n"
    ++ s!"Collections: {c.collections} ({c.objectsReclaimed} reclaimed, {c.objectsRelocated} relocated, "
    ++ Text.byteCount c.bytesReclaimed ++ " freed)\n"
    ++ "GC Time: " ++ Text.duration s.totalPause ++ " total, " ++ Text.duration s.longestPause ++ " max pause"

end TracingHeap

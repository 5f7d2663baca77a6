/-!
# Durations and their text

A duration is written in the largest of the units s, ms, µs and ns in which its whole part is not
zero, with the exact fraction and no trailing zero.
-/

namespace UnitControl

structure Duration where
  nanos : Nat
  deriving DecidableEq, Repr

namespace Duration

def zero : Duration := ⟨0⟩

def ofSeconds (n : Nat) : Duration := ⟨n * 1000000000⟩

def ofMillis (n : Nat) : Duration := ⟨n * 1000000⟩

/-- A bare number is one of milliseconds. -/
instance : Coe Nat Duration := ⟨ofMillis⟩

/-- Whole seconds and a rest in nanoseconds, which may itself exceed a second. -/
def ofParts (seconds nanos : Nat) : Duration := ⟨seconds * 1000000000 + nanos⟩

/-- The decimal digits of `n`, padded with zeros on the left up to `width`. -/
def padded (width n : Nat) : List Char :=
  let digits := (Nat.repr n).toList
  List.replicate (width - digits.length) '0' ++ digits

def trimZeros (digits : List Char) : List Char :=
  (digits.reverse.dropWhile (· == '0')).reverse

/-- The quotient of `n` by a power of ten with this many zeros, as a decimal fraction. -/
def decimal (power zeros n : Nat) : String :=
  let whole := Nat.repr (n / power)
  match trimZeros (padded zeros (n % power)) with
  | [] => whole
  | fraction => whole ++ "." ++ String.ofList fraction

def text (d : Duration) : String :=
  if 1000000000 ≤ d.nanos then decimal 1000000000 9 d.nanos ++ "s"
  else if 1000000 ≤ d.nanos then decimal 1000000 6 d.nanos ++ "ms"
  else if 1000 ≤ d.nanos then decimal 1000 3 d.nanos ++ "µs"
  else Nat.repr d.nanos ++ "ns"

end Duration

end UnitControl

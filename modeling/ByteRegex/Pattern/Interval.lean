import ByteRegex.Pattern.Scan

/-!
# Intervals

Bounds in braces say how often an element may repeat: exactly, at least, at
most, or between two bounds. One of the two bounds may be left out, but not
both; a missing lower bound is zero and a missing upper bound is no bound. A
bound may be at most `maxRepeat`, and the bounds may not be reversed.

## Main definitions

* `maxRepeat`: The largest bound that can be stated.
* `intervalBounds`: Reads the bounds up to the closing brace.
* `interval`: Reads and checks an interval after its opening brace.
-/

namespace ByteRegex

namespace Pattern

/-- The largest bound that can be stated. -/
def maxRepeat : Nat := 0xFFFF

/-- Reads the bounds as written: one number stands for both, and a comma
    separates two of which one may be missing. -/
def intervalBounds (openAt : Nat) : Scan (Option Nat × Option Nat) := do
  let low ← Scan.number
  if ← Scan.accepts ',' then
    let high ← Scan.number
    if low.isNone && high.isNone then Scan.fail .invalidInterval openAt
    else return (low, high)
  else if low.isNone then Scan.fail .invalidInterval openAt
  else return (low, low)

/-- Reads an interval whose opening brace has just been read: the lower bound,
    and the upper bound unless there is none. -/
def interval : Scan (Nat × Option Nat) := do
  let openAt := (← Scan.here) - 1
  let (low, high) ← intervalBounds openAt
  let low := low.getD 0
  match ← Scan.fetch with
  | none => Scan.fail .unmatchedBrace openAt
  | some c =>
    if !Byte.is '}' c then Scan.fail .invalidInterval openAt
    else if maxRepeat < low || high.any (fun h => maxRepeat < h || h < low) then
      Scan.fail .invalidInterval openAt
    else return (low, high)

end Pattern

end ByteRegex

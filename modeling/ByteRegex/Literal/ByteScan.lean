import ByteRegex.Byte

/-!
# Looking for a Byte

The searches for a word do not walk through the text themselves. They ask for the next
byte with which an occurrence can begin, in what is left of the text, and look closer
only there. `ByteScan` is what they ask: the first and the last index of a byte, or of
one of two bytes, in a stretch of bytes. Nothing is assumed of it when a search is
defined, so that fast scans can take the place of the plain ones.

Where letter case is ignored a word that has been folded begins with one of two bytes
of the text, its first byte or the partner of that.

## Main definitions

* `ByteScan`: How bytes are looked for.
* `ByteScan.firstHead?`, `ByteScan.lastHead?`: Where an occurrence can begin.
* `ByteScan.walk`: The scans that look at one byte after the other.
-/

namespace ByteRegex

/-- How bytes are looked for in a stretch of bytes. -/
structure ByteScan where
  /-- The first index of a byte. -/
  first? : UInt8 → Bytes → Option Nat
  /-- The first index of one of two bytes. -/
  firstOfTwo? : UInt8 → UInt8 → Bytes → Option Nat
  /-- The last index of a byte. -/
  last? : UInt8 → Bytes → Option Nat
  /-- The last index of one of two bytes. -/
  lastOfTwo? : UInt8 → UInt8 → Bytes → Option Nat

namespace ByteScan

/-- The first index where a word can begin that has the byte `head` in front. -/
def firstHead? (scan : ByteScan) (ignoreCase : Bool) (head : UInt8) (hay : Bytes) : Option Nat :=
  if ignoreCase then scan.firstOfTwo? head (Byte.otherCase head) hay else scan.first? head hay

/-- The last index where a word can begin that has the byte `head` in front. -/
def lastHead? (scan : ByteScan) (ignoreCase : Bool) (head : UInt8) (hay : Bytes) : Option Nat :=
  if ignoreCase then scan.lastOfTwo? head (Byte.otherCase head) hay else scan.last? head hay

/-- The last index below a bound whose byte passes a test. -/
def lastIndexBelow? (test : UInt8 → Bool) (hay : Bytes) : (bound : Nat) → Option Nat
  | 0 => none
  | i + 1 => if (hay[i]?).any test then some i else lastIndexBelow? test hay i

/-- The scans that look at one byte after the other. -/
def walk : ByteScan where
  first? c hay := hay.findIdx? (· == c)
  firstOfTwo? c d hay := hay.findIdx? fun b => b == c || b == d
  last? c hay := lastIndexBelow? (· == c) hay hay.size
  lastOfTwo? c d hay := lastIndexBelow? (fun b => b == c || b == d) hay hay.size

end ByteScan

end ByteRegex

/-!
# Bytes

The alphabet of the library. A pattern, a template and the text that is
searched are sequences of bytes, and every byte stands for itself: a byte above
`0x7F` is neither a letter nor a word byte, whatever encoding the caller had in
mind.

Upper and lower case are those of ASCII. `fold` picks the lower-case letter as
the representative of a pair, and `otherCase` swaps the two, so two bytes fold
alike exactly when they are equal or each other's other case.

There are only 256 bytes, and `forall_byte` is how facts about all of them are
settled: it reduces a statement about every byte to one about the numbers below
256, which evaluation decides.

`CharClass` lists the named classes of bytes. Fourteen of them have a spelling
that a bracket expression may use, as in `[[:alpha:]]`; the class of the line
feed alone has none.

## Main definitions

* `Bytes`: A sequence of bytes.
* `Byte.fold`: The byte with ASCII upper case made lower case.
* `Byte.otherCase`: The other-case partner of a letter.
* `Byte.digitValue?`: The value of a digit in a given base.
* `CharClass`: The named classes of bytes.
* `CharClass.contains`: Membership of a byte in a class.
* `CharClass.ofSpelling?`: The class that a bracket expression names.

## Theorems

* `forall_byte`: What holds of the numbers below 256 holds of every byte.
* `otherCase_otherCase`: The other case of the other case is the byte itself.
* `fold_eq_fold_iff`: Two bytes fold alike exactly when they are equal or
  partners.
-/

namespace ByteRegex

/-- A sequence of bytes with constant-time access. -/
abbrev Bytes := Array UInt8

namespace Byte

/-- The character with the same code, so that a byte can be compared with a
    character literal. -/
def char (c : UInt8) : Char := Char.ofNat c.toNat

/-- The line feed, which ends a line. -/
def lineFeed : UInt8 := 0x0A

def isUpper (c : UInt8) : Bool := 0x41 ≤ c && c ≤ 0x5A

def isLower (c : UInt8) : Bool := 0x61 ≤ c && c ≤ 0x7A

def isAlpha (c : UInt8) : Bool := isUpper c || isLower c

def isDigit (c : UInt8) : Bool := 0x30 ≤ c && c ≤ 0x39

def isAlnum (c : UInt8) : Bool := isAlpha c || isDigit c

/-- Word bytes are the ASCII letters and digits and the underscore. -/
def isWord (c : UInt8) : Bool := isAlnum c || c == 0x5F

/-- Space and horizontal tab. -/
def isBlank (c : UInt8) : Bool := c == 0x20 || c == 0x09

/-- Space and the five bytes from horizontal tab to carriage return, the
    vertical tab among them. -/
def isSpace (c : UInt8) : Bool := c == 0x20 || (0x09 ≤ c && c ≤ 0x0D)

def isControl (c : UInt8) : Bool := c < 0x20 || c == 0x7F

/-- The bytes that leave a mark on paper. -/
def isGraph (c : UInt8) : Bool := 0x21 ≤ c && c ≤ 0x7E

def isPunct (c : UInt8) : Bool := isGraph c && !isAlnum c

def isHexDigit (c : UInt8) : Bool :=
  isDigit c || (0x41 ≤ c && c ≤ 0x46) || (0x61 ≤ c && c ≤ 0x66)

def isAscii (c : UInt8) : Bool := c < 0x80

/-- Lower case of an ASCII letter, and every other byte unchanged. -/
def fold (c : UInt8) : UInt8 := if isUpper c then c + 0x20 else c

/-- The partner of an ASCII letter in the other case, and every other byte
    unchanged. -/
def otherCase (c : UInt8) : UInt8 :=
  if isUpper c then c + 0x20 else if isLower c then c - 0x20 else c

/-- The value of a digit in the given base, letters counting from ten in
    either case. -/
def digitValue? (base : Nat) (c : UInt8) : Option Nat :=
  let value :=
    if isDigit c then c.toNat - 0x30
    else if isLower c then c.toNat - 0x61 + 10
    else if isUpper c then c.toNat - 0x41 + 10
    else base
  if value < base then some value else none

/-- Whether a byte is the given ASCII character. -/
def is (ch : Char) (c : UInt8) : Bool := char c == ch

/-- A statement about every byte follows from the 256 cases. -/
theorem forall_byte {p : UInt8 → Prop} (h : ∀ n, n < 256 → p (UInt8.ofNat n)) (c : UInt8) :
    p c := by
  have hc := h c.toNat c.toNat_lt
  rwa [UInt8.ofNat_toNat] at hc

/-- A byte is known by its character. -/
theorem eq_of_char (c : UInt8) (ch : Char) (h : char c = ch) : c = UInt8.ofNat ch.toNat := by
  have hbyte (c : UInt8) : c = UInt8.ofNat (char c).toNat := by
    revert c
    exact forall_byte (by decide +kernel)
  rw [← h]
  exact hbyte c

theorem otherCase_otherCase (c : UInt8) : otherCase (otherCase c) = c := by
  revert c
  exact forall_byte (by decide +kernel)

theorem fold_otherCase (c : UInt8) : fold (otherCase c) = fold c := by
  revert c
  exact forall_byte (by decide +kernel)

/-- Folding either leaves a byte alone or replaces it by its partner. -/
theorem fold_eq_or (c : UInt8) : fold c = c ∨ fold c = otherCase c := by
  revert c
  exact forall_byte (by decide +kernel)

theorem fold_eq_fold_iff (c d : UInt8) : fold c = fold d ↔ c = d ∨ c = otherCase d := by
  constructor
  · intro h
    rcases fold_eq_or c with hc | hc <;> rcases fold_eq_or d with hd | hd
    · exact Or.inl (hc.symm.trans (h.trans hd))
    · exact Or.inr (hc.symm.trans (h.trans hd))
    · refine Or.inr ?_
      rw [← otherCase_otherCase c, ← hc, h, hd]
    · refine Or.inl ?_
      rw [← otherCase_otherCase c, ← hc, h, hd, otherCase_otherCase]
  · rintro (rfl | rfl)
    · rfl
    · exact fold_otherCase d

end Byte

/-- The named classes of bytes. -/
inductive CharClass where
  | newline
  | alpha
  | blank
  | cntrl
  | digit
  | graph
  | lower
  | print
  | punct
  | space
  | upper
  | xdigit
  | word
  | alnum
  | ascii
  deriving DecidableEq, Repr

namespace CharClass

/-- The classes in the order of their numbers, which start at zero. -/
def all : List CharClass :=
  [newline, alpha, blank, cntrl, digit, graph, lower, print, punct, space, upper, xdigit, word,
    alnum, ascii]

/-- The number of a class is its place in `all`. -/
def number (k : CharClass) : Nat := all.idxOf k

/-- The class with the given number; there is none past the last. -/
def ofNumber? (n : Nat) : Option CharClass := all[n]?

def contains : CharClass → UInt8 → Bool
  | newline, c => c == Byte.lineFeed
  | alpha, c => Byte.isAlpha c
  | blank, c => Byte.isBlank c
  | cntrl, c => Byte.isControl c
  | digit, c => Byte.isDigit c
  | graph, c => Byte.isGraph c
  | lower, c => Byte.isLower c
  | print, c => Byte.isGraph c || c == 0x20
  | punct, c => Byte.isPunct c
  | space, c => Byte.isSpace c
  | upper, c => Byte.isUpper c
  | xdigit, c => Byte.isHexDigit c
  | word, c => Byte.isWord c
  | alnum, c => Byte.isAlnum c
  | ascii, c => Byte.isAscii c

/-- The name between `[:` and `:]`. -/
def spelling? : CharClass → Option (List Char)
  | newline => none
  | alpha => some ['a', 'l', 'p', 'h', 'a']
  | blank => some ['b', 'l', 'a', 'n', 'k']
  | cntrl => some ['c', 'n', 't', 'r', 'l']
  | digit => some ['d', 'i', 'g', 'i', 't']
  | graph => some ['g', 'r', 'a', 'p', 'h']
  | lower => some ['l', 'o', 'w', 'e', 'r']
  | print => some ['p', 'r', 'i', 'n', 't']
  | punct => some ['p', 'u', 'n', 'c', 't']
  | space => some ['s', 'p', 'a', 'c', 'e']
  | upper => some ['u', 'p', 'p', 'e', 'r']
  | xdigit => some ['x', 'd', 'i', 'g', 'i', 't']
  | word => some ['w', 'o', 'r', 'd']
  | alnum => some ['a', 'l', 'n', 'u', 'm']
  | ascii => some ['a', 's', 'c', 'i', 'i']

/-- The class that the bytes spell, letter case included. -/
def ofSpelling? (w : List UInt8) : Option CharClass :=
  all.find? fun k => k.spelling? == some (w.map Byte.char)

end CharClass

end ByteRegex

import ByteRegex.Dialect
import ByteRegex.Pattern.Escape

/-!
# Replacement Templates

A template is text with references in it: to a group, to the highest group, to
the whole match, or to the text before or after the match. Which spellings are
references is the dialect's choice; everything else is literal. A backslash
before a byte that makes no reference with it stands for the control byte of an
escape letter and otherwise for the byte, and a backslash at the very end is
itself. A dollar sign that introduces no reference is itself.

Reading builds the list of pieces from left to right and sums up on the way what
an expansion will need: how many literal bytes there are, and which kinds of
references. Neighbouring literal bytes make one piece.

## Main definitions

* `Reference`: What a template can refer to.
* `Piece`: A literal run or a reference.
* `Template`: The pieces and their summary.
* `Template.readItem`: Reads one byte or reference.
* `Template.read`: Reads a template.
* `Template.isLiteral`: Nothing in the template refers to the match.
-/

namespace ByteRegex

/-- What a template can refer to. -/
inductive Reference where
  /-- The group with the given number, counted from one. -/
  | group (n : Nat)
  /-- The highest group that took part, or the whole match if none did. -/
  | highestGroup
  | wholeMatch
  /-- The text before the match. -/
  | before
  /-- The text after the match. -/
  | after
  deriving DecidableEq, Repr

namespace Reference

/-- Group zero is the whole match. -/
def ofNumber (n : Nat) : Reference := if n = 0 then wholeMatch else group n

/-- The reference needs the span of a group. -/
def needsGroups : Reference → Bool
  | group _ => true
  | highestGroup => true
  | _ => false

/-- The reference needs the text around the match. -/
def needsContext : Reference → Bool
  | before => true
  | after => true
  | _ => false

end Reference

/-- A stretch of a template. -/
inductive Piece where
  | literal (bytes : Bytes)
  | reference (r : Reference)
  deriving DecidableEq, Repr

def Piece.isLiteral : Piece → Bool
  | literal _ => true
  | reference _ => false

/-- A template that has been read. -/
structure Template where
  pieces : List Piece
  /-- How many literal bytes there are. -/
  literalLength : Nat
  /-- There is a reference to a group. -/
  hasGroup : Bool
  /-- There is a reference to the text around the match. -/
  hasContext : Bool
  /-- There is a reference to the whole match. -/
  hasMatch : Bool
  deriving DecidableEq, Repr

namespace Template

/-- What a place of a template means: a literal byte or a reference. -/
inductive Item where
  | byte (c : UInt8)
  | reference (r : Reference)

/-- The largest number of 64 bits, to which larger ones are capped. -/
def maxReference : Nat := 0xFFFFFFFFFFFFFFFF

/-- The value of a decimal digit. -/
def digit (c : UInt8) : Nat := c.toNat - 0x30

/-- The number between braces, when the opening brace has been read, and how many
    bytes it takes with the closing brace. -/
def bracedNumber? (rest : List UInt8) : Option (Nat × Nat) :=
  let digits := rest.takeWhile Byte.isDigit
  if digits.isEmpty then none
  else if (rest[digits.length]?).any (Byte.is '}') then
    some (min (Pattern.valueOf 10 (digits.map digit)) maxReference, digits.length + 1)
  else none

/-- What a backslash and the byte after it mean. -/
def escapedItem (d : Dialect) (c : UInt8) : Item :=
  let plain : Item := .byte ((Pattern.controlEscape? c).getD c)
  let special (r : Reference) : Item := if d.hasSigil .escapedSpecial then .reference r else plain
  if Byte.isDigit c && d.hasSigil .escapedDigit then .reference (.ofNumber (digit c))
  else
    match Byte.char c with
    | '&' => special .wholeMatch
    | '`' => special .before
    | '\'' => special .after
    | '+' => special .highestGroup
    | _ => plain

/-- What a dollar sign means before the given bytes, and how many of them belong
    to it. -/
def dollarItem (rest : List UInt8) : Item × Nat :=
  let plain : Item × Nat := (.byte 0x24, 0)
  match rest with
  | [] => plain
  | c :: more =>
    if Byte.isDigit c then (.reference (.ofNumber (digit c)), 1)
    else
      match Byte.char c with
      | '&' => (.reference .wholeMatch, 1)
      | '+' => (.reference .highestGroup, 1)
      | '`' => (.reference .before, 1)
      | '\'' => (.reference .after, 1)
      | '$' => (.byte c, 1)
      | '{' =>
        match bracedNumber? more with
        | some (n, used) => (.reference (.ofNumber n), used + 1)
        | none => plain
      | _ => plain

/-- What the byte `c` means before the given bytes, and how many of them belong
    to it. -/
def readItem (d : Dialect) (c : UInt8) (rest : List UInt8) : Item × Nat :=
  match Byte.char c with
  | '\\' =>
    match rest with
    | [] => (.byte c, 0)
    | e :: _ => (escapedItem d e, 1)
  | '&' => (if d.hasSigil .bareAmpersand then .reference .wholeMatch else .byte c, 0)
  | '$' => if d.hasSigil .dollar then dollarItem rest else (.byte c, 0)
  | _ => (.byte c, 0)

/-- A template without pieces. -/
def empty : Template := ⟨[], 0, false, false, false⟩

/-- Adds an item to a template whose pieces are listed from the last to the
    first. -/
def addItem (t : Template) : Item → Template
  | .byte c =>
    let pieces := match t.pieces with
      | .literal bytes :: others => .literal (bytes.push c) :: others
      | others => .literal #[c] :: others
    { t with pieces := pieces, literalLength := t.literalLength + 1 }
  | .reference r =>
    { t with
      pieces := .reference r :: t.pieces
      hasGroup := t.hasGroup || r.needsGroups
      hasContext := t.hasContext || r.needsContext
      hasMatch := t.hasMatch || r == .wholeMatch }

/-- Adds the items that the bytes spell. -/
def readFrom (d : Dialect) (t : Template) : List UInt8 → Template
  | [] => t
  | c :: rest =>
    let (item, used) := readItem d c rest
    readFrom d (t.addItem item) (rest.drop used)
  termination_by input => input.length
  decreasing_by simp only [List.length_drop, List.length_cons]; omega

/-- Reads a template with the sigils of a dialect. -/
def read (d : Dialect) (template : Bytes) : Template :=
  let t := readFrom d empty template.toList
  { t with pieces := t.pieces.reverse }

/-- Nothing in the template refers to the match. -/
def isLiteral (t : Template) : Bool := t.pieces.all Piece.isLiteral

end Template

end ByteRegex

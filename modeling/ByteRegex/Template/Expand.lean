import ByteRegex.Search.Basic
import ByteRegex.Template.Basic
import ByteRegex.Text.Utf8

/-!
# Expanding a Template

An expansion puts the pieces of a template one after another, each reference
replaced by the stretch of the text it refers to. A reference to a group that
took no part in the match, or that does not exist, contributes nothing and is
reported. A stretch that does not lie in the text contributes nothing either,
but without a report.

Whoever expands many templates can reuse one expansion for all of them: it is
emptied before each, and its room is kept.

## Main definitions

* `slice`: The bytes of a stretch of the text.
* `Diagnostic`: A reference that could not be followed.
* `Expansion`: The bytes produced and the reports.
* `Expansion.renew`: Expands a template in the place of an earlier expansion.
* `Template.expand`: Expands a template for a match.
* `Template.expandText`: The expansion as text.
* `Template.sizeHint`: A guess at the length of the expansion.
-/

namespace ByteRegex

/-- The bytes of a stretch of the text, or none if it does not lie in it. -/
def slice (text : Bytes) (s : Span) : Bytes :=
  if s.start ≤ s.stop ∧ s.stop ≤ text.size then text.extract s.start s.stop else #[]

/-- A reference that could not be followed. -/
inductive Diagnostic where
  /-- The group took no part in the match, or does not exist. -/
  | noSuchGroup (n : Nat)
  deriving DecidableEq, Repr

def Diagnostic.message : Diagnostic → String
  | noSuchGroup n => "no such capture: " ++ toString n

/-- What an expansion produces. -/
structure Expansion where
  bytes : Bytes := #[]
  /-- The reports, in the order of the pieces. -/
  diagnostics : List Diagnostic := []
  deriving DecidableEq, Repr

namespace Expansion

/-- Adds bytes at the end. -/
def append (e : Expansion) (bytes : Bytes) : Expansion := { e with bytes := e.bytes ++ bytes }

/-- Adds a report at the end. -/
def report (e : Expansion) (d : Diagnostic) : Expansion :=
  { e with diagnostics := e.diagnostics ++ [d] }

/-- Drops the bytes and the reports. -/
def clear (e : Expansion) : Expansion := { bytes := e.bytes.shrink 0, diagnostics := [] }

/-- Adds what a reference stands for. -/
def addReference (m : Match) (text : Bytes) (e : Expansion) : Reference → Expansion
  | .wholeMatch => e.append (slice text m.span)
  | .before => e.append (slice text ⟨0, m.start⟩)
  | .after => e.append (slice text ⟨m.stop, text.size⟩)
  | .highestGroup => e.append (slice text ((m.group? m.highest).getD m.span))
  | .group n =>
    match m.group? n with
    | some s => e.append (slice text s)
    | none => e.report (.noSuchGroup n)

/-- Adds a piece. -/
def addPiece (m : Match) (text : Bytes) (e : Expansion) : Piece → Expansion
  | .literal bytes => e.append bytes
  | .reference r => e.addReference m text r

/-- Expands a template for a match in a text, in the place of an earlier
    expansion. -/
def renew (e : Expansion) (t : Template) (m : Match) (text : Bytes) : Expansion :=
  t.pieces.foldl (addPiece m text) e.clear

theorem clear_eq (e : Expansion) : e.clear = {} := by
  simp only [clear, Array.shrink_eq_take, Array.extract_zero]

end Expansion

namespace Template

/-- Expands a template for a match in a text. -/
def expand (t : Template) (m : Match) (text : Bytes) : Expansion :=
  t.pieces.foldl (Expansion.addPiece m text) {}

/-- The expansion as text. -/
def expandText (t : Template) (m : Match) (text : Bytes) : String :=
  Utf8.lossy (t.expand m text).bytes

/-- How many bytes to expect if every kind of reference occurs once: the literal
    bytes, the match for references to it or to groups, and the rest of the text
    for references to what surrounds it. -/
def sizeHint (t : Template) (m : Match) (textLength : Nat) : Nat :=
  t.literalLength + (if t.hasMatch || t.hasGroup then m.length else 0) +
    (if t.hasContext then textLength - m.length else 0)

end Template

end ByteRegex

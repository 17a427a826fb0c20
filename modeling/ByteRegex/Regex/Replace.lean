import ByteRegex.Regex.Basic
import ByteRegex.Template.Expand

/-!
# Replacing Matches

A replacement goes through the text from match to match. It copies what lies
between them as it is and puts the expansion of a template in the place of each
match. The byte that the search skips after an empty match is copied as well, so
nothing of the text is lost.

The state between two matches is a `Splice`: what has been produced, up to where
the text has been dealt with, and what the expansions had to say.

## Main definitions

* `Splice`: A replacement under way.
* `Splice.replace`, `Splice.copySkipped`, `Splice.finish`: Its steps.
* `Replacement`: A text with matches replaced.
* `Regex.replace`: Replaces the first match or every match.
-/

namespace ByteRegex

/-- A text with matches replaced. -/
structure Replacement where
  text : String
  /-- How many matches have been replaced. -/
  count : Nat
  /-- What the expansions reported, in the order of the matches. -/
  diagnostics : List Diagnostic
  deriving DecidableEq, Repr

/-- A replacement under way. -/
structure Splice where
  /-- What has been produced so far. -/
  out : Bytes := #[]
  /-- Up to where the text has been dealt with. -/
  copied : Nat := 0
  count : Nat := 0
  diagnostics : List Diagnostic := []

namespace Splice

/-- Copies the text up to a match and adds the expansion for it. -/
def replace (s : Splice) (text : Bytes) (template : Template) (m : Match) : Splice :=
  let e := template.expand m text
  { out := s.out ++ text.extract s.copied m.start ++ e.bytes
    copied := m.stop
    count := s.count + 1
    diagnostics := s.diagnostics ++ e.diagnostics }

/-- Copies the byte behind an empty match, which the next search skips. -/
def copySkipped (s : Splice) (text : Bytes) (m : Match) : Splice :=
  if m.isEmpty then
    { s with out := s.out ++ (text[m.stop]?).toArray, copied := m.stop + 1 }
  else s

/-- Copies the rest of the text. -/
def finish (s : Splice) (text : Bytes) : Replacement :=
  { text := Utf8.lossy (s.out ++ text.extract s.copied text.size)
    count := s.count
    diagnostics := s.diagnostics }

end Splice

namespace Regex

/-- Replaces every match from a position on. -/
def replaceFrom (r : Regex) (text : Bytes) (template : Template) (pos : Nat) (s : Splice)
    (scan : ExactScan := .walk) : Splice :=
  if pos ≤ text.size then
    match r.find? text pos scan with
    | none => s
    | some m =>
      let s := (s.replace text template m).copySkipped text m
      -- The next search starts where the listing of all matches resumes too.
      if pos < m.resume then replaceFrom r text template m.resume s scan else s
  else s
  termination_by text.size + 1 - pos

/-- Replaces the first match, or every match if `everywhere` is set, by the
    expansion of a template. -/
def replace (r : Regex) (text : Bytes) (template : Template) (everywhere : Bool)
    (scan : ExactScan := .walk) : Replacement :=
  if everywhere then (r.replaceFrom text template 0 {} scan).finish text
  else
    match r.find? text 0 scan with
    | none => ({} : Splice).finish text
    | some m => (({} : Splice).replace text template m).finish text

/-- The text with matches replaced by the expansion of a template that is
    written in the dialect of the regex. -/
def replaceText (r : Regex) (text template : Bytes) (everywhere : Bool)
    (scan : ExactScan := .walk) : String :=
  (r.replace text (Template.read r.dialect template) everywhere scan).text

end Regex

end ByteRegex

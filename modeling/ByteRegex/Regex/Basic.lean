import ByteRegex.Search.Basic
import ByteRegex.Text.Quoted
import ByteRegex.Text.Utf8

/-!
# Regular Expressions

A regex is a compiled pattern together with the pattern it was compiled from.
It finds the nearest match in either direction, or all matches one after
another.

Every search takes the scans that it is to use, which are the plain ones if none are given.
Matches follow one another without overlap. After a match the search goes on
where the match ended; after an empty match one byte further on, so that it is
not found again. `findAll` gives the list of them, and a `MatchIterator` gives
them one at a time.

## Main definitions

* `Regex`: A pattern and its program.
* `Regex.search`: A search with all its options.
* `Regex.find?`, `Regex.findBackward?`: The nearest match in a direction.
* `Regex.findAll`: All matches of a text, one after another.
* `MatchIterator`: The matches of a text, one at a time.
-/

namespace ByteRegex

/-- A compiled pattern together with the pattern itself. -/
structure Regex where
  program : Program
  pattern : Bytes

namespace Regex

/-- Compiles a pattern. -/
def ofPattern (pattern : Bytes) (options : CompileOptions) : Except PatternError Regex := do
  return ⟨← compile options pattern, pattern⟩

def dialect (r : Regex) : Dialect := r.program.options.dialect

/-- How many groups the pattern has. -/
def groups (r : Regex) : Nat := r.program.groups

/-- Searches a text from an offset. -/
def search (r : Regex) (text : Bytes) (offset : Nat) (options : SearchOptions)
    (scan : ExactScan := .walk) : Option Match :=
  r.program.search text offset options scan

/-- The first match that starts at the offset or after it. -/
def find? (r : Regex) (text : Bytes) (offset : Nat) (scan : ExactScan := .walk) : Option Match :=
  r.search text offset .forward scan

/-- The last match that starts at the offset or before it. -/
def findBackward? (r : Regex) (text : Bytes) (offset : Nat) (scan : ExactScan := .walk) :
    Option Match :=
  r.search text offset .backward scan

def isMatch (r : Regex) (text : Bytes) (scan : ExactScan := .walk) : Bool :=
  (r.find? text 0 scan).isSome

/-- The matches from a position on. -/
def findAllFrom (r : Regex) (text : Bytes) (pos : Nat) (scan : ExactScan := .walk) : List Match :=
  if pos ≤ text.size then
    match r.find? text pos scan with
    | none => []
    | some m =>
      -- A match always resumes further on; the test makes the end of the list evident.
      if pos < m.resume then m :: findAllFrom r text m.resume scan else [m]
  else []
  termination_by text.size + 1 - pos

/-- All matches of a text, one after another. -/
def findAll (r : Regex) (text : Bytes) (scan : ExactScan := .walk) : List Match :=
  r.findAllFrom text 0 scan

/-- A regex as it is shown to a programmer. -/
def description (r : Regex) : String :=
  "Regex \x7b pattern: " ++ Text.quoted (Utf8.lossy r.pattern) ++ ", dialect: " ++
    r.dialect.title ++ ", .. \x7d"

end Regex

/-- The matches of a text, one at a time: the next search starts at `pos`. -/
structure MatchIterator where
  regex : Regex
  text : Bytes
  pos : Nat := 0
  scan : ExactScan := .walk

/-- The next match, and the iterator behind it. Where there is no match the
    iterator stays as it is, so there will be none again. -/
def MatchIterator.next (it : MatchIterator) : Option Match × MatchIterator :=
  if it.pos ≤ it.text.size then
    match it.regex.find? it.text it.pos it.scan with
    | none => (none, it)
    | some m => (some m, { it with pos := m.resume })
  else (none, it)

end ByteRegex

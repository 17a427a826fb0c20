import ByteRegex.Regex.Basic
import ByteRegex.Template.Expand

/-!
# Captures

A match together with what its regex knows about it: how many groups there are
and in which dialect templates are written. Groups are numbered from one, and
number zero is the whole match.

## Main definitions

* `Captures`: A match with the groups of its regex.
* `Captures.get?`: The span of a group.
* `Captures.expand`: The expansion of a template for the match.
* `Regex.captures?`: The captures of a search.
-/

namespace ByteRegex

/-- A match with the groups of its regex. -/
structure Captures where
  text : Bytes
  found : Match
  /-- How many groups there are, the whole match included. -/
  size : Nat
  dialect : Dialect

namespace Captures

/-- The span of a group, if the regex has it and it took part. -/
def get? (c : Captures) (n : Nat) : Option Span := if n < c.size then c.found.group? n else none

/-- The spans of all groups in order. -/
def toList (c : Captures) : List (Option Span) := (List.range c.size).map c.get?

/-- Expands a template, in the dialect of the regex, for the match. -/
def expand (c : Captures) (template : Bytes) : String :=
  (Template.read c.dialect template).expandText c.found c.text

/-- The span of a group as it is shown to a programmer. -/
def showSpan : Option Span → String
  | none => "None"
  | some s => "Some(" ++ toString s.start ++ ".." ++ toString s.stop ++ ")"

/-- The groups as they are shown to a programmer. -/
def description (c : Captures) : String :=
  "[" ++ ", ".intercalate (c.toList.map showSpan) ++ "]"

end Captures

/-- The match of a search together with its groups. -/
def Regex.captures? (r : Regex) (text : Bytes) (offset : Nat) (options : SearchOptions)
    (scan : ExactScan := .walk) : Option Captures :=
  (r.search text offset options scan).map fun m => ⟨text, m, r.groups + 1, r.dialect⟩

end ByteRegex

import ByteRegex.Dialect

/-!
# Options

What a caller may choose: when a pattern is compiled, its dialect and four flags
that stay with the program; when a text is searched, the direction and four
flags that hold for that search only. A search that names no direction takes the
one that the program was compiled with.

## Main definitions

* `CompileOptions`: The dialect and flags of a program.
* `SearchOptions`: The direction and flags of one search.
-/

namespace ByteRegex

/-- The flags that stay with a program. -/
structure CompileFlags where
  /-- Letters match in either case. -/
  ignoreCase : Bool := false
  /-- Quantifiers and any-string runs prefer the shortest match. -/
  minimal : Bool := false
  /-- Searches run backward unless the search says otherwise. -/
  backward : Bool := false
  /-- The text may have several lines: line anchors also match at line feeds,
      and the wildcards stop at them. -/
  multiline : Bool := false
  deriving DecidableEq, Repr, Inhabited

/-- The choices made when a pattern is compiled. -/
structure CompileOptions where
  dialect : Dialect := .unix
  flags : CompileFlags := {}
  deriving DecidableEq, Repr, Inhabited

/-- The flags of one search. -/
structure SearchFlags where
  /-- The start of the text is not the begin of a line. -/
  notLineBegin : Bool := false
  /-- The end of the text is not the end of a line. -/
  notLineEnd : Bool := false
  /-- Every position is tried, whatever the program starts with. -/
  everyPosition : Bool := false
  /-- Only the given offset is tried. -/
  anchored : Bool := false
  deriving DecidableEq, Repr, Inhabited

/-- Which way a search moves its start. -/
inductive Direction where
  | forward
  | backward
  deriving DecidableEq, Repr

/-- The choices made for one search. -/
structure SearchOptions where
  /-- The direction, or the program's own where none is given. -/
  direction : Option Direction := none
  flags : SearchFlags := {}
  deriving DecidableEq, Repr, Inhabited

namespace SearchOptions

def forward : SearchOptions := { direction := some .forward }

def backward : SearchOptions := { direction := some .backward }

end SearchOptions

end ByteRegex

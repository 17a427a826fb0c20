/-!
# Dialects

A dialect decides which bytes of a pattern, and which of a replacement
template, mean more than themselves. Nothing else depends on it: the reader of
patterns and the reader of templates never ask which dialect they serve, only
whether a construct or a sigil is enabled.

The two older dialects stand apart. Brief writes groups with braces, any byte
as `?` and any run of bytes as `*`; Unix writes groups as `\(` `\)` and leaves
braces alone. The other four share one core, to which Perl and Ruby add lazy
quantifiers and class shorthands and Tre the shorthands alone. Templates divide
the dialects differently: the dollar sigils belong to all but Brief and Ruby.

## Main definitions

* `Construct`: A pattern construct that a dialect may enable.
* `Sigil`: A family of template references that a dialect may enable.
* `Dialect`: The six dialects.
* `Dialect.constructs`: The constructs of a dialect.
* `Dialect.sigils`: The sigils of a dialect.
* `Dialect.ofName?`: The dialect of a name in any letter case.
-/

namespace ByteRegex

/-- A pattern construct that a dialect may enable. -/
inductive Construct where
  /-- The byte `?` matches any single byte. -/
  | questionAnyChar
  /-- The byte `.` matches any single byte. -/
  | dotAnyChar
  /-- The byte `*` matches any run of bytes. -/
  | starAnyString
  /-- The byte `*` repeats the element before it any number of times. -/
  | starRepeat
  /-- The byte `@` repeats the element before it any number of times. -/
  | atRepeat
  /-- The byte `+` repeats the element before it at least once. -/
  | plusRepeat
  /-- The byte `?` makes the element before it optional. -/
  | questionOptional
  /-- Bounds in braces repeat the element before them. -/
  | interval
  /-- A `?` after a quantifier makes it lazy. -/
  | lazySuffix
  /-- Braces enclose a group. -/
  | braceGroup
  /-- Parentheses with a backslash each enclose a group. -/
  | escapedParenGroup
  /-- Parentheses enclose a group. -/
  | parenGroup
  /-- The byte `|` separates alternatives. -/
  | barAlternation
  /-- The bytes `<` and `%` match at a line's begin and `>` at its end. -/
  | angleAnchors
  /-- The byte `^` matches at a line's begin and `$` at its end. -/
  | caretDollarAnchors
  /-- The escape `\c` records the position. -/
  | cursorEscape
  /-- The escapes `\<` and `\>` match at a word's begin and end. -/
  | wordAnchors
  /-- The escapes `\d`, `\w`, `\s` and their capitals stand for classes. -/
  | classShorthands
  deriving DecidableEq, Repr

/-- Every construct, in the order in which they are numbered from zero. -/
def Construct.all : List Construct :=
  [.questionAnyChar, .dotAnyChar, .starAnyString, .starRepeat, .atRepeat, .plusRepeat,
    .questionOptional, .interval, .lazySuffix, .braceGroup, .escapedParenGroup, .parenGroup,
    .barAlternation, .angleAnchors, .caretDollarAnchors, .cursorEscape, .wordAnchors,
    .classShorthands]

/-- A family of template references that a dialect may enable. -/
inductive Sigil where
  /-- A backslash and a digit refer to a group. -/
  | escapedDigit
  /-- A bare `&` refers to the whole match. -/
  | bareAmpersand
  /-- The references that start with a dollar sign. -/
  | dollar
  /-- A backslash makes references of the ampersand, the backquote, the quote
      and the plus sign. -/
  | escapedSpecial
  deriving DecidableEq, Repr

/-- Every sigil family, in the order in which they are numbered from zero. -/
def Sigil.all : List Sigil := [.escapedDigit, .bareAmpersand, .dollar, .escapedSpecial]

/-- The grammars that a pattern or template can be written in. -/
inductive Dialect where
  | brief
  | unix
  | extended
  | perl
  | ruby
  | tre
  deriving DecidableEq, Repr

namespace Dialect

instance : Inhabited Dialect := ⟨unix⟩

def all : List Dialect := [brief, unix, extended, perl, ruby, tre]

/-- The constructs that the four dialects built on the extended one share. -/
def extendedConstructs : List Construct :=
  [.dotAnyChar, .starRepeat, .plusRepeat, .questionOptional, .interval, .parenGroup,
    .barAlternation, .caretDollarAnchors, .wordAnchors]

def constructs : Dialect → List Construct
  | brief =>
    [.questionAnyChar, .starAnyString, .atRepeat, .plusRepeat, .braceGroup, .escapedParenGroup,
      .barAlternation, .angleAnchors, .caretDollarAnchors, .cursorEscape, .wordAnchors]
  | unix =>
    [.dotAnyChar, .starRepeat, .plusRepeat, .questionOptional, .escapedParenGroup,
      .barAlternation, .caretDollarAnchors, .cursorEscape, .wordAnchors]
  | extended => extendedConstructs
  | perl => .lazySuffix :: .classShorthands :: extendedConstructs
  | ruby => .lazySuffix :: .classShorthands :: extendedConstructs
  | tre => .classShorthands :: extendedConstructs

def sigils : Dialect → List Sigil
  | brief => [.escapedDigit, .bareAmpersand]
  | unix => [.escapedDigit, .bareAmpersand, .dollar]
  | extended => [.escapedDigit, .bareAmpersand, .dollar]
  | perl => [.escapedDigit, .dollar]
  | ruby => [.escapedDigit, .escapedSpecial]
  | tre => [.escapedDigit, .bareAmpersand, .dollar]

/-- Whether a construct is enabled. -/
def has (d : Dialect) (c : Construct) : Bool := d.constructs.contains c

/-- Whether a sigil family is enabled. -/
def hasSigil (d : Dialect) (s : Sigil) : Bool := d.sigils.contains s

/-- The name by which a user asks for the dialect. -/
def name : Dialect → String
  | brief => "brief"
  | unix => "unix"
  | extended => "extended"
  | perl => "perl"
  | ruby => "ruby"
  | tre => "tre"

/-- The name with which a description of a regex shows the dialect. -/
def title : Dialect → String
  | brief => "Brief"
  | unix => "Unix"
  | extended => "Extended"
  | perl => "Perl"
  | ruby => "Ruby"
  | tre => "Tre"

/-- The dialect of a name, in any mixture of ASCII letter cases. -/
def ofName? (s : String) : Option Dialect := all.find? fun d => d.name == s.toLower

end Dialect

end ByteRegex

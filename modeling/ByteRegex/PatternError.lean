/-!
# Errors in Patterns

Reading a pattern stops at the first thing that is wrong with it. The error
names the cause and the place: the offset, in bytes, of the construct that
cannot be read. The text shown to a user is made from the two.

## Main definitions

* `PatternError.Cause`: What is wrong.
* `PatternError`: The cause and the offset.
* `PatternError.message`: The text shown to a user.
-/

namespace ByteRegex

/-- What is wrong with a pattern. -/
inductive PatternError.Cause where
  /-- A bracket expression is not closed. -/
  | unmatchedBracket
  /-- A brace has no partner. -/
  | unmatchedBrace
  /-- A parenthesis, escaped or not, has no partner. -/
  | unmatchedParen
  /-- A quantifier follows nothing that can be repeated. -/
  | emptyExpression
  /-- A bracket expression names an unknown class. -/
  | invalidClassName
  /-- The end of a range sorts before its start, or is no single byte. -/
  | invalidRange
  /-- The bounds in braces are malformed, too large or reversed. -/
  | invalidInterval
  /-- Groups are nested too deeply, or there are too many of them. -/
  | levelOverflow
  /-- An escape lacks its digits, its closing brace or its letter. -/
  | badEscape
  deriving DecidableEq, Repr

/-- The first thing that is wrong with a pattern, and where it is. -/
structure PatternError where
  cause : PatternError.Cause
  offset : Nat
  deriving DecidableEq, Repr

namespace PatternError

/-- The cause in words. -/
def Cause.text : Cause → String
  | unmatchedBracket => "unmatched ["
  | unmatchedBrace => "unmatched \x7b or \x7d"
  | unmatchedParen => "unmatched ( or )"
  | emptyExpression => "target of repeat operator is not specified"
  | invalidClassName => "invalid character class name"
  | invalidRange => "invalid range in character class"
  | invalidInterval => "invalid repeat range \x7blower,upper\x7d"
  | levelOverflow => "group nesting too deep"
  | badEscape => "invalid escape sequence"

/-- The cause in words, followed by the place. -/
def message (e : PatternError) : String := e.cause.text ++ " at offset " ++ toString e.offset

end PatternError

end ByteRegex

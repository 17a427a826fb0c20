import ByteRegex.Pattern.Block
import ByteRegex.Pattern.Bracket
import ByteRegex.Pattern.Interval

/-!
# Tokens

The pattern's bytes grouped into the pieces that mean something: a literal byte,
a set, a wildcard, an anchor, a quantifier, an opening or closing delimiter, or
the bar between alternatives. Which bytes are special is the dialect's choice;
a byte that is not special is a literal.

A token is read without regard to the tokens around it, except that a quantifier
takes a question mark after it as its own suffix where the dialect has lazy
quantifiers.

## Main definitions

* `Delimiter`: The three ways to enclose a group.
* `Token`: A piece of a pattern.
* `Token.escaped`: Reads the token of an escape.
* `Token.starting`: Reads the token that starts with a given byte.
-/

namespace ByteRegex

namespace Pattern

/-- The ways to enclose a group. -/
inductive Delimiter where
  | brace
  | escapedParen
  | paren
  deriving DecidableEq, Repr

/-- What is wrong when a delimiter has no partner. -/
def Delimiter.unmatched : Delimiter → PatternError.Cause
  | brace => .unmatchedBrace
  | escapedParen => .unmatchedParen
  | paren => .unmatchedParen

/-- A piece of a pattern. -/
inductive Token where
  | literal (c : UInt8)
  | set (s : ByteSet)
  | anyChar
  | anyString
  | anchor (a : Anchor)
  | cursor
  /-- A quantifier with its bounds; the flag tells whether it has the suffix
      that makes it lazy. -/
  | quantifier (kind : Quantifier.Kind) (min : Nat) (max : Option Nat) (isLazy : Bool)
  | openGroup (d : Delimiter)
  | closeGroup (d : Delimiter)
  | alternative

namespace Token

/-- The suffix that makes a quantifier lazy, where the dialect has it. -/
def lazySuffix (d : Dialect) : Scan Bool :=
  if d.has .lazySuffix then Scan.accepts '?' else Scan.pure false

/-- A quantifier with its suffix. -/
def quantifierToken (d : Dialect) (kind : Quantifier.Kind) (min : Nat) (max : Option Nat) :
    Scan Token := do
  return .quantifier kind min max (← lazySuffix d)

/-- Reads the token of an escape; its backslash, at `start`, has been read. -/
def escaped (d : Dialect) (start : Nat) : Scan Token := do
  match ← Scan.fetch with
  | none => Scan.fail .badEscape start
  | some letter =>
    let ch := Byte.char letter
    if ch = '(' && d.has .escapedParenGroup then return .openGroup .escapedParen
    else if ch = ')' && d.has .escapedParenGroup then return .closeGroup .escapedParen
    else if ch = 'c' && d.has .cursorEscape then return .cursor
    else if ch = '<' && d.has .wordAnchors then return .anchor .wordBegin
    else if ch = '>' && d.has .wordAnchors then return .anchor .wordEnd
    else
      match if d.has .classShorthands then classShorthand? letter else none with
      | some s => return .set s
      | none => return .literal ((← escapeValue letter start).getD letter)

/-- Reads the token that starts with `c`; that byte, at `start`, has been
    read. -/
def starting (d : Dialect) (ignoreCase : Bool) (c : UInt8) (start : Nat) : Scan Token :=
  match Byte.char c with
  | '\\' => escaped d start
  | '[' => do return .set (← bracketSet d ignoreCase)
  | '|' => Scan.pure (if d.has .barAlternation then .alternative else .literal c)
  | '?' =>
    if d.has .questionAnyChar then Scan.pure .anyChar
    else if d.has .questionOptional then quantifierToken d .zeroOrOne 0 (some 1)
    else Scan.pure (.literal c)
  | '.' => Scan.pure (if d.has .dotAnyChar then .anyChar else .literal c)
  | '*' =>
    if d.has .starAnyString then Scan.pure .anyString
    else if d.has .starRepeat then quantifierToken d .zeroOrMore 0 none
    else Scan.pure (.literal c)
  | '@' =>
    if d.has .atRepeat then quantifierToken d .zeroOrMore 0 none else Scan.pure (.literal c)
  | '+' =>
    if d.has .plusRepeat then quantifierToken d .oneOrMore 1 none else Scan.pure (.literal c)
  | '{' =>
    if d.has .interval then do
      let (min, max) ← interval
      quantifierToken d .interval min max
    else Scan.pure (if d.has .braceGroup then .openGroup .brace else .literal c)
  | '}' => Scan.pure (if d.has .braceGroup then .closeGroup .brace else .literal c)
  | '(' => Scan.pure (if d.has .parenGroup then .openGroup .paren else .literal c)
  | ')' => Scan.pure (if d.has .parenGroup then .closeGroup .paren else .literal c)
  | '<' => Scan.pure (if d.has .angleAnchors then .anchor .lineBegin else .literal c)
  | '%' => Scan.pure (if d.has .angleAnchors then .anchor .lineBegin else .literal c)
  | '>' => Scan.pure (if d.has .angleAnchors then .anchor .lineEnd else .literal c)
  | '^' => Scan.pure (if d.has .caretDollarAnchors then .anchor .lineBegin else .literal c)
  | '$' => Scan.pure (if d.has .caretDollarAnchors then .anchor .lineEnd else .literal c)
  | _ => Scan.pure (.literal c)

end Token

end Pattern

end ByteRegex

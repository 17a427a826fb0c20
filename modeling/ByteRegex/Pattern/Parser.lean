import ByteRegex.Options
import ByteRegex.Pattern.Token

/-!
# Parsing a Pattern

Tokens become a tree in one pass from left to right. The parser keeps the level
it is working on, which is the alternatives finished so far and the blocks of
the current one, and a stack of the groups that are open, each with the level it
interrupted. A closing delimiter turns the current level into a group block of
the level below.

A quantifier takes hold of the last block of the current sequence. It repeats a
set, a wildcard byte or a group as a whole, but of a run of literals only the
last byte; a run, an anchor or a quantified block cannot be repeated at all.
Reading stops at the first error, whether in a token or in its use.

## Main definitions

* `maxDepth`: The limit on nesting.
* `Level`: The alternatives read so far between two delimiters.
* `Parser`: The state between two tokens.
* `Level.quantify?`: Repeats the last block.
* `Parser.accept`: The effect of one token.
* `Parser.run`: The effect of all tokens of a byte sequence.
* `parse`: The tree of a pattern.
-/

namespace ByteRegex

namespace Pattern

/-- How deeply levels may be nested, the pattern itself being the first. -/
def maxDepth : Nat := 10

/-- What has been read between two delimiters: the finished alternatives and the
    blocks of the current one, the latest first in both. -/
structure Level where
  finished : List Sequence := []
  current : List Block := []

/-- A group that has been opened. -/
structure OpenGroup where
  delimiter : Delimiter
  /-- Where the opening delimiter stands. -/
  offset : Nat
  number : GroupNumber
  /-- The level that the group interrupts. -/
  outer : Level

/-- The state between two tokens. -/
structure Parser where
  /-- How many groups have been opened so far. -/
  groups : Nat := 0
  /-- The groups that are open, the innermost first. -/
  enclosing : List OpenGroup := []
  level : Level := {}

namespace Level

/-- Adds a block to the current sequence. -/
def push (l : Level) (b : Block) : Level := { l with current := b :: l.current }

/-- Adds a byte to the run of literals at the end of the current sequence, or
    starts a new run. -/
def pushLiteral (l : Level) (c : UInt8) : Level :=
  match l.current with
  | .literal bytes :: before => { l with current := .literal (bytes.push c) :: before }
  | _ => l.push (.literal #[c])

/-- Finishes the current sequence and starts the next one. -/
def split (l : Level) : Level := { finished := l.current.reverse :: l.finished, current := [] }

/-- The alternatives in the order in which they were read. -/
def alternatives (l : Level) : Alternatives := (l.current.reverse :: l.finished).reverse

/-- Repeats the last block of the current sequence; there may be none that can
    be repeated. -/
def quantify? (l : Level) (q : Quantifier) : Option Level :=
  match l.current with
  | .literal bytes :: before =>
    match bytes.back? with
    | none => none
    | some c =>
      let last := Block.quantified q (.literal #[c])
      if bytes.size = 1 then some { l with current := last :: before }
      else some { l with current := last :: .literal bytes.pop :: before }
  | .set s :: before => some { l with current := .quantified q (.set s) :: before }
  | .anyChar :: before => some { l with current := .quantified q .anyChar :: before }
  | .group n alts :: before => some { l with current := .quantified q (.group n alts) :: before }
  | _ => none

end Level

namespace Parser

/-- Opens a group with the next number, unless the numbers are used up or the
    limit on nesting is reached. -/
def openGroup (p : Parser) (start : Nat) (d : Delimiter) : Except PatternError Parser :=
  if h : p.groups + 1 < slots then
    if p.enclosing.length + 1 < maxDepth then
      .ok {
        groups := p.groups + 1
        enclosing := ⟨d, start, ⟨p.groups + 1, h⟩, p.level⟩ :: p.enclosing
        level := {} }
    else .error ⟨.levelOverflow, start⟩
  else .error ⟨.levelOverflow, start⟩

/-- Closes the innermost group, which the same kind of delimiter must have
    opened. -/
def closeGroup (p : Parser) (start : Nat) (d : Delimiter) : Except PatternError Parser :=
  match p.enclosing with
  | [] => .error ⟨d.unmatched, start⟩
  | g :: outer =>
    if g.delimiter = d then
      .ok {
        p with
        enclosing := outer
        level := g.outer.push (.group g.number p.level.alternatives) }
    else .error ⟨d.unmatched, start⟩

/-- The effect of one token that starts at `start`. -/
def accept (flags : CompileFlags) (p : Parser) (start : Nat) :
    Token → Except PatternError Parser
  | .literal c =>
    .ok { p with level := p.level.pushLiteral (if flags.ignoreCase then Byte.fold c else c) }
  | .set s => .ok { p with level := p.level.push (.set s) }
  | .anyChar => .ok { p with level := p.level.push .anyChar }
  | .anyString => .ok { p with level := p.level.push .anyString }
  | .anchor a => .ok { p with level := p.level.push (.anchor a) }
  | .cursor => .ok { p with level := p.level.push .cursor }
  | .quantifier kind min max isLazy =>
    match p.level.quantify? ⟨kind, min, max, !flags.minimal && !isLazy⟩ with
    | some level => .ok { p with level := level }
    | none => .error ⟨.emptyExpression, start⟩
  | .openGroup d => p.openGroup start d
  | .closeGroup d => p.closeGroup start d
  | .alternative => .ok { p with level := p.level.split }

/-- The effect of all tokens of the bytes that start at `offset`. -/
def run (options : CompileOptions) (p : Parser) (offset : Nat) :
    List UInt8 → Except PatternError Parser
  | [] => .ok p
  | c :: rest =>
    match Token.starting options.dialect options.flags.ignoreCase c offset (offset + 1) rest with
    | ⟨_, .error e⟩ => .error e
    | ⟨used, .ok t⟩ =>
      match p.accept options.flags offset t with
      | .error e => .error e
      | .ok p' => run options p' (offset + 1 + used) (rest.drop used)
  termination_by input => input.length
  decreasing_by simp only [List.length_drop, List.length_cons]; omega

/-- The tree, once every group is closed. -/
def finish (p : Parser) : Except PatternError Pattern :=
  match p.enclosing with
  | [] => .ok ⟨p.level.alternatives, p.groups⟩
  | g :: _ => .error ⟨g.delimiter.unmatched, g.offset⟩

end Parser

/-- The tree of a pattern, or the first thing that is wrong with it. -/
def parse (options : CompileOptions) (pattern : Bytes) : Except PatternError Pattern := do
  let p ← Parser.run options {} 0 pattern.toList
  p.finish

end Pattern

end ByteRegex

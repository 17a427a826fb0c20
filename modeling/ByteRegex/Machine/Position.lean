import ByteRegex.Literal.ExactScan
import ByteRegex.Program.Basic

/-!
# Tests at a Position

What the operations ask of the text at one position. A test looks at the bytes
from there on, or at the bytes on both sides, and leaves the state of the match
alone.

The begin and the end of the text count as a line's unless the search says
otherwise. In a text of several lines a line also begins behind a line feed and
ends before one, and neither wildcard goes across it. How far a line goes is for the
scans to find that a match is given.

## Main definitions

* `Env`: What a match looks at: program, text and flags, and its scans.
* `Env.passes`: The test of an operation that matches a fixed number of bytes.
* `Env.holdsAt`: The condition of an anchor.
* `Env.reach`: How far an any-string run can extend.
-/

namespace ByteRegex

namespace Machine

/-- What a match looks at. -/
structure Env where
  program : Program
  text : Bytes
  flags : SearchFlags
  /-- How line feeds and the begins of words are looked for. -/
  scan : ExactScan

namespace Env

def ignoreCase (env : Env) : Bool := env.program.options.flags.ignoreCase

def multiline (env : Env) : Bool := env.program.options.flags.multiline

def minimal (env : Env) : Bool := env.program.options.flags.minimal

/-- Whether the byte at a position exists and passes a test. -/
def byteIs (env : Env) (pos : Nat) (test : UInt8 → Bool) : Bool := (env.text[pos]?).any test

/-- Whether the byte before a position exists and passes a test. -/
def byteBeforeIs (env : Env) (pos : Nat) (test : UInt8 → Bool) : Bool :=
  0 < pos && env.byteIs (pos - 1) test

/-- The test of an operation that matches a fixed number of bytes; every other
    operation fails it. -/
def passes (env : Env) (pos : Nat) : Operation → Bool
  | .literal word _ => Literal.occursAt env.ignoreCase word env.text pos
  | .set s => env.byteIs pos s.contains
  | .anyChar => env.byteIs pos fun c => !(env.multiline && c == Byte.lineFeed)
  | _ => false

/-- The condition of an anchor. -/
def holdsAt (env : Env) (pos : Nat) : Anchor → Bool
  | .lineBegin =>
    (pos == 0 && !env.flags.notLineBegin) ||
      (env.multiline && env.byteBeforeIs pos (· == Byte.lineFeed))
  | .lineEnd =>
    (pos == env.text.size && !env.flags.notLineEnd) ||
      (env.multiline && env.byteIs pos (· == Byte.lineFeed))
  | .wordBegin => env.byteIs pos Byte.isWord && !env.byteBeforeIs pos Byte.isWord
  | .wordEnd => env.byteBeforeIs pos Byte.isWord && !env.byteIs pos Byte.isWord

/-- The end of the line that holds a position: the first line feed from there
    on, or the end of the text. -/
def lineEndFrom (scan : ExactScan) (text : Bytes) (pos : Nat) : Nat :=
  let rest := text.extract pos text.size
  pos + (scan.first? Byte.lineFeed rest).getD rest.size

/-- How far an any-string run from a position can extend. -/
def reach (env : Env) (pos : Nat) : Nat :=
  if env.multiline then lineEndFrom env.scan env.text pos else env.text.size

end Env

end Machine

end ByteRegex

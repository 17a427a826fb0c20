import ByteRegex.Options
import ByteRegex.Pattern.Parser
import ByteRegex.Program.Link

/-!
# Programs

A program is what a pattern becomes when it is compiled: linked operations, the
options they were made with, the number of groups, and where a search may hope
to find a match. The last is read off the first operation that is not the
opening of a group. If it is a run of literals, a match can only start where
they stand; if it is a line begin, only where a line begins.

## Main definitions

* `Strategy`: Where a match can start.
* `Program`: A compiled pattern.
* `Strategy.ofOperations`: The strategy that the first operation allows.
* `Program.ofOperations`: Links operations written by hand.
* `compile`: The program of a pattern.
-/

namespace ByteRegex

/-- Where a match can start. -/
inductive Strategy where
  /-- Nothing is known. -/
  | everywhere
  /-- Only where the literal operation at the index stands. -/
  | literal (index : Nat) (word : Bytes) (table : Option (Array UInt16))
  /-- Only where a line begins. -/
  | lineBegin
  deriving DecidableEq, Repr

/-- A compiled pattern. -/
structure Program where
  operations : Array LinkedOperation
  options : CompileOptions
  /-- How many groups the pattern has. -/
  groups : Nat
  strategy : Strategy
  deriving Repr

/-- The strategy that the first operation allows; openings of groups, of which
    `index` have been passed, do not count. -/
def Strategy.ofOperations (index : Nat) : List Operation → Strategy
  | [] => .everywhere
  | op :: rest =>
    match op with
    | .openGroup _ => ofOperations (index + 1) rest
    | .literal word table => .literal index word table
    | .anchor .lineBegin => .lineBegin
    | _ => .everywhere

namespace Program

/-- The program of operations that are written by hand, which has no groups to
    report and tries every position. -/
def ofOperations (options : CompileOptions) (ops : List Operation) : Program :=
  ⟨link ops, options, 0, .everywhere⟩

/-- The program of a pattern tree. -/
def ofPattern (options : CompileOptions) (p : Pattern) : Program :=
  ⟨link p.operations, options, p.groups, Strategy.ofOperations 0 p.operations⟩

/-- The operation at an index, and its links. -/
def at? (p : Program) (pc : Nat) : Option LinkedOperation := p.operations[pc]?

def size (p : Program) : Nat := p.operations.size

end Program

/-- The program of a pattern, or the first thing that is wrong with it. -/
def compile (options : CompileOptions) (pattern : Bytes) : Except PatternError Program := do
  return Program.ofPattern options (← Pattern.parse options pattern)

end ByteRegex

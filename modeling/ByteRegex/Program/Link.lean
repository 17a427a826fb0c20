import ByteRegex.Program.Operation

/-!
# Linking

A list of operations says what follows what only by its nesting. Linking writes
it down: every operation learns the index of the operation that comes next, and
a quantifier and the loop that closes it learn each other's index.

* An ordinary operation is followed by its neighbour, and `finish` by itself.
* A `branch` is followed, when its alternative fails, by what stands behind the
  alternative's `branchEnd`. That is the next `branch` if there is one, so the
  branches of a choice form a chain.
* Every `branchEnd` of a chain is followed by what stands behind the last one,
  where all alternatives meet.

An alternative's `branchEnd` is found by walking over the operations and
counting groups that are open; an alternative inside a group cannot be confused
with one outside. Quantifiers and loops are paired like parentheses.

## Main definitions

* `LinkedOperation`: An operation with its links.
* `behindBranch`: How far the end of an alternative is away.
* `behindChain`: How far the end of a whole choice is away.
* `behindLoop?`: How far the loop of a quantifier is away.
* `link`: The linked operations of a list.
-/

namespace ByteRegex

/-- An operation that knows where the program goes on. -/
structure LinkedOperation where
  operation : Operation
  /-- The index of the operation that comes next. -/
  next : Nat
  /-- The index of a quantifier's loop, or of a loop's quantifier. -/
  partner : Option Nat
  deriving DecidableEq, Repr

/-- How many operations stand before the first `branchEnd` outside the groups
    that open on the way, when `depth` groups are open. -/
def untilBranchEnd? (depth : Nat) : List Operation → Option Nat
  | [] => none
  | op :: rest =>
    match op with
    | .openGroup _ => (untilBranchEnd? (depth + 1) rest).map (· + 1)
    | .closeGroup _ => (untilBranchEnd? (depth - 1) rest).map (· + 1)
    | .branchEnd => if depth = 0 then some 0 else (untilBranchEnd? depth rest).map (· + 1)
    | .finish => none
    | _ => (untilBranchEnd? depth rest).map (· + 1)

/-- How many operations, starting behind a `branch`, make up the alternative
    together with its `branchEnd`. An alternative without an end takes them
    all. -/
def behindBranch (ops : List Operation) : Nat :=
  match untilBranchEnd? 0 ops with
  | some n => n + 1
  | none => ops.length

/-- How many operations, starting behind a `branchEnd`, belong to the further
    alternatives of the same choice. -/
def behindChain : List Operation → Nat
  | [] => 0
  | op :: rest =>
    match op with
    | .branch => 1 + behindBranch rest + behindChain (rest.drop (behindBranch rest))
    | _ => 0
  termination_by ops => ops.length
  decreasing_by simp only [List.length_drop, List.length_cons]; omega

/-- How many operations, starting behind a quantifier, stand before its loop,
    when `depth` further quantifiers are open. -/
def behindLoop? (depth : Nat) : List Operation → Option Nat
  | [] => none
  | op :: rest =>
    match op with
    | .quantifier _ => (behindLoop? (depth + 1) rest).map (· + 1)
    | .loop => if depth = 0 then some 0 else (behindLoop? (depth - 1) rest).map (· + 1)
    | _ => (behindLoop? depth rest).map (· + 1)

/-- Links the operations from index `i` on, of which the quantifiers at `opened`
    await their loops, the innermost first. -/
def linkFrom (i : Nat) (opened : List Nat) : List Operation → List LinkedOperation
  | [] => []
  | op :: rest =>
    match op with
    | .finish => ⟨op, i, none⟩ :: linkFrom (i + 1) opened rest
    | .branch => ⟨op, i + 1 + behindBranch rest, none⟩ :: linkFrom (i + 1) opened rest
    | .branchEnd => ⟨op, i + 1 + behindChain rest, none⟩ :: linkFrom (i + 1) opened rest
    | .quantifier _ =>
      ⟨op, i + 1, (behindLoop? 0 rest).map (i + 1 + ·)⟩ :: linkFrom (i + 1) (i :: opened) rest
    | .loop => ⟨op, i + 1, opened.head?⟩ :: linkFrom (i + 1) opened.tail rest
    | _ => ⟨op, i + 1, none⟩ :: linkFrom (i + 1) opened rest

/-- The linked operations of a list. -/
def link (ops : List Operation) : Array LinkedOperation := (linkFrom 0 [] ops).toArray

end ByteRegex

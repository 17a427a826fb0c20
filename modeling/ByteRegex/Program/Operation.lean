import ByteRegex.Literal.Borders
import ByteRegex.Pattern.Block

/-!
# Operations

A pattern is run as a flat list of operations. Each block of the tree becomes a
stretch of the list: a group is enclosed by an `openGroup` and a `closeGroup`,
a quantified block by its quantifier and a `loop`, and of two or more
alternatives each is enclosed by a `branch` and a `branchEnd`. The whole list
ends in `finish`.

`operations` lays out a tree in this way. A run of literal bytes takes its
border table along if its length calls for one.

## Main definitions

* `Operation`: One step of a program.
* `Operation.width?`: How many bytes an operation matches, where that is fixed.
* `Block.operations`, `Sequence.operations`, `Alternatives.operations`: The
  operations of a tree.
* `Pattern.operations`: The operations of a whole pattern.

## Theorems

* `Sequence.operations_append`, `Alternatives.branches_append`: What stands in a row is
  laid out in a row.
-/

namespace ByteRegex

/-- One step of a program. -/
inductive Operation where
  /-- The pattern has matched. -/
  | finish
  /-- An alternative ends. -/
  | branchEnd
  /-- An alternative begins. -/
  | branch
  | literal (word : Bytes) (table : Option (Array UInt16))
  | set (s : ByteSet)
  | anchor (a : Anchor)
  | cursor
  | anyChar
  | anyString
  /-- A repeated stretch begins. -/
  | quantifier (q : Quantifier)
  /-- A repeated stretch ends. -/
  | loop
  | openGroup (number : GroupNumber)
  | closeGroup (number : GroupNumber)
  deriving DecidableEq, Repr, Inhabited

namespace Operation

/-- The name of an operation in listings. -/
def name : Operation → String
  | finish => "finish"
  | branchEnd => "end"
  | branch => "or"
  | literal _ _ => "string"
  | set _ => "class"
  | anchor .lineBegin => "bol"
  | anchor .lineEnd => "eol"
  | anchor .wordBegin => "word-begin"
  | anchor .wordEnd => "word-end"
  | cursor => "set-pos"
  | anyChar => "any-char"
  | anyString => "any-string"
  | quantifier q =>
    match q.kind with
    | .zeroOrMore => "zero-or-more"
    | .oneOrMore => "one-or-more"
    | .zeroOrOne => "zero-or-one"
    | .interval => "repeat"
  | loop => "loop"
  | openGroup _ => "open"
  | closeGroup _ => "close"

/-- How many bytes an operation matches, if it is a test of a fixed number of
    bytes. -/
def width? : Operation → Option Nat
  | literal word _ => some word.size
  | set _ => some 1
  | anyChar => some 1
  | _ => none

/-- A run of literal bytes with the border table that its length calls for. -/
def ofLiteral (word : Bytes) : Operation := literal word (Literal.borders? word)

end Operation

mutual

/-- The operations of one block. -/
def Block.operations : Block → List Operation
  | .literal bytes => [Operation.ofLiteral bytes]
  | .set s => [.set s]
  | .anyChar => [.anyChar]
  | .anyString => [.anyString]
  | .anchor a => [.anchor a]
  | .cursor => [.cursor]
  | .group n alternatives =>
    .openGroup n :: (Alternatives.operations alternatives ++ [.closeGroup n])
  | .quantified q element => .quantifier q :: (element.operations ++ [.loop])

/-- The operations of blocks in a row. -/
def Sequence.operations : List Block → List Operation
  | [] => []
  | b :: rest => b.operations ++ Sequence.operations rest

/-- The operations of sequences to choose from: a single one stands alone, and
    of several each is enclosed. -/
def Alternatives.operations : List (List Block) → List Operation
  | [] => []
  | [s] => Sequence.operations s
  | s :: t :: rest =>
    .branch :: (Sequence.operations s ++ .branchEnd :: Alternatives.branches (t :: rest))

/-- The operations of sequences each of which is enclosed. -/
def Alternatives.branches : List (List Block) → List Operation
  | [] => []
  | s :: rest =>
    .branch :: (Sequence.operations s ++ .branchEnd :: Alternatives.branches rest)

end

theorem Sequence.operations_append (s t : List Block) :
    Sequence.operations (s ++ t) = Sequence.operations s ++ Sequence.operations t := by
  induction s with
  | nil => rfl
  | cons b s ih =>
    rw [List.cons_append, Sequence.operations, Sequence.operations, ih, List.append_assoc]

theorem Alternatives.branches_append (a b : List (List Block)) :
    Alternatives.branches (a ++ b) = Alternatives.branches a ++ Alternatives.branches b := by
  induction a with
  | nil => rfl
  | cons s a ih =>
    rw [List.cons_append, Alternatives.branches, Alternatives.branches, ih, List.cons_append,
      List.append_assoc, List.cons_append]

/-- The operations of a whole pattern. -/
def Pattern.operations (p : Pattern) : List Operation :=
  Alternatives.operations p.alternatives ++ [.finish]

end ByteRegex

import ByteRegex.ByteSet

/-!
# Pattern Trees

What a pattern says, once its spelling is gone. A pattern is a list of
alternatives, an alternative is a sequence of blocks, and a block matches one
piece of text: a run of literal bytes, a byte of a set, any byte, any run of
bytes, the empty text at an anchor, or a group with alternatives of its own. A
quantified block repeats another block.

Two blocks match the empty text only for what they record: a group keeps where
it began and ended, and the cursor mark keeps where it was passed.

Groups carry their numbers, which count the opening delimiters from the left and
start at one. Number zero is the whole match, so with `slots` numbers in all a
pattern can have nine groups.

## Main definitions

* `slots`, `GroupNumber`: The numbers that a group can have.
* `Anchor`: A condition on a position.
* `Quantifier`: How often, and how eagerly, a block repeats.
* `Block`: A piece of a pattern.
* `Sequence`, `Alternatives`: Blocks in a row, and sequences to choose from.
* `Pattern`: The alternatives of a whole pattern, with the count of its groups.
-/

namespace ByteRegex

/-- How many group numbers there are, that of the whole match included. -/
def slots : Nat := 10

-- There is always the whole match.
theorem slots_pos : 0 < slots := Nat.zero_lt_succ 9

/-- The number of a group; zero stands for the whole match. -/
abbrev GroupNumber : Type := Fin slots

/-- A condition on a position of the text. -/
inductive Anchor where
  | lineBegin
  | lineEnd
  | wordBegin
  | wordEnd
  deriving DecidableEq, Repr

/-- The way a quantifier was written. The bounds alone would not tell `*` from
    `{0,}`, and listings do. -/
inductive Quantifier.Kind where
  | zeroOrMore
  | oneOrMore
  | zeroOrOne
  | interval
  deriving DecidableEq, Repr

/-- How often, and how eagerly, a block repeats. -/
structure Quantifier where
  kind : Quantifier.Kind
  min : Nat
  /-- The upper bound, unless there is none. -/
  max : Option Nat
  /-- More repetitions are preferred to fewer. -/
  greedy : Bool
  deriving DecidableEq, Repr

/-- A piece of a pattern. -/
inductive Block where
  /-- A run of literal bytes. -/
  | literal (bytes : Bytes)
  /-- A byte of the set. -/
  | set (s : ByteSet)
  /-- Any single byte. -/
  | anyChar
  /-- Any run of bytes. -/
  | anyString
  | anchor (a : Anchor)
  /-- Records the position. -/
  | cursor
  /-- A numbered group; one of the sequences has to match. -/
  | group (number : GroupNumber) (alternatives : List (List Block))
  /-- A block that repeats. -/
  | quantified (q : Quantifier) (element : Block)

/-- Blocks in a row. -/
abbrev Sequence : Type := List Block

/-- Sequences to choose from, in order of preference. -/
abbrev Alternatives : Type := List Sequence

/-- What a whole pattern says. -/
structure Pattern where
  alternatives : Alternatives
  /-- How many groups the pattern has. -/
  groups : Nat

end ByteRegex

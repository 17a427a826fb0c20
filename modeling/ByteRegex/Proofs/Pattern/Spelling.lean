import ByteRegex.Program.Operation
import ByteRegex.Options
import ByteRegex.Pattern.Token
import ByteRegex.Proofs.Pattern.Brackets
import ByteRegex.Proofs.Pattern.Intervals

/-!
# Spelled Patterns

Patterns as a person writes them, before any reader has seen them. A `Piece` is a
literal byte, a bracket expression, a shorthand, a sign such as `.` or `\<`, a
group or a quantified piece, and it knows how it is spelled: with which of the
delimiters, which of the signs that mean the same, which digits. Pieces are
spelled one after the other, and alternatives with bars between them.

What is spelled has a meaning that owes nothing to the reader. `Piece.emit` lays
out the operations of a piece directly. Adjacent literals form one run, and a
run ends where a piece of another kind stands; the byte before a quantifier is
not part of a run, because it belongs to the quantified piece. The groups are
numbered in the order in which they open, so laying out a piece takes the count
of the groups that opened before it.

`Piece.block` says the same as a tree, which is what the reader builds.
`operations_block` relates the two.

## Main definitions

* `Sign`: A piece that is always spelled the same.
* `Repetition`: How a quantifier is spelled.
* `Piece`: A piece of a pattern.
* `Tree`: A whole pattern.
* `Piece.spelled`, `Tree.spelled`: The bytes that write it.
* `Piece.fits`, `Tree.fits`: The dialect has what is made use of.
* `Piece.emit`, `Tree.emit`: The operations it stands for.
* `Piece.block`, `Tree.alternatives`: The tree it stands for.

## Theorems

* `operations_block`: The tree of a piece is laid out as the operations of the
  piece.
* `operations_alternatives`: So is the tree of a whole pattern.
-/

namespace ByteRegex

namespace Pattern

/-- A piece that is always spelled the same, in the dialects that have it. -/
inductive Sign where
  | questionMark
  | dot
  | star
  | less
  | percent
  | greater
  | caret
  | dollar
  | escapedC
  | escapedLess
  | escapedGreater
  deriving DecidableEq, Repr

namespace Sign

def spelled : Sign → List UInt8
  | questionMark => [0x3F]
  | dot => [0x2E]
  | star => [0x2A]
  | less => [0x3C]
  | percent => [0x25]
  | greater => [0x3E]
  | caret => [0x5E]
  | dollar => [0x24]
  | escapedC => [0x5C, 0x63]
  | escapedLess => [0x5C, 0x3C]
  | escapedGreater => [0x5C, 0x3E]

/-- What a dialect must have for the sign to mean something. -/
def construct : Sign → Construct
  | questionMark => .questionAnyChar
  | dot => .dotAnyChar
  | star => .starAnyString
  | less => .angleAnchors
  | percent => .angleAnchors
  | greater => .angleAnchors
  | caret => .caretDollarAnchors
  | dollar => .caretDollarAnchors
  | escapedC => .cursorEscape
  | escapedLess => .wordAnchors
  | escapedGreater => .wordAnchors

def operation : Sign → Operation
  | questionMark => .anyChar
  | dot => .anyChar
  | star => .anyString
  | less => .anchor .lineBegin
  | percent => .anchor .lineBegin
  | greater => .anchor .lineEnd
  | caret => .anchor .lineBegin
  | dollar => .anchor .lineEnd
  | escapedC => .cursor
  | escapedLess => .anchor .wordBegin
  | escapedGreater => .anchor .wordEnd

def block : Sign → Block
  | questionMark => .anyChar
  | dot => .anyChar
  | star => .anyString
  | less => .anchor .lineBegin
  | percent => .anchor .lineBegin
  | greater => .anchor .lineEnd
  | caret => .anchor .lineBegin
  | dollar => .anchor .lineEnd
  | escapedC => .cursor
  | escapedLess => .anchor .wordBegin
  | escapedGreater => .anchor .wordEnd

end Sign

namespace Delimiter

def opening : Delimiter → List UInt8
  | brace => [0x7B]
  | escapedParen => [0x5C, 0x28]
  | paren => [0x28]

def closing : Delimiter → List UInt8
  | brace => [0x7D]
  | escapedParen => [0x5C, 0x29]
  | paren => [0x29]

/-- What a dialect must have for the delimiters to enclose a group. -/
def construct : Delimiter → Construct
  | brace => .braceGroup
  | escapedParen => .escapedParenGroup
  | paren => .parenGroup

end Delimiter

/-- How a quantifier is spelled, a suffix excluded. -/
inductive Repetition where
  | star
  | atSign
  | plus
  | questionMark
  | interval (b : Bounds) (h : b.inOrder = true)

namespace Repetition

def spelled : Repetition → List UInt8
  | star => [0x2A]
  | atSign => [0x40]
  | plus => [0x2B]
  | questionMark => [0x3F]
  | interval b _ => 0x7B :: (b.spelled ++ [0x7D])

/-- What a dialect must have for the quantifier to mean something. -/
def construct : Repetition → Construct
  | star => .starRepeat
  | atSign => .atRepeat
  | plus => .plusRepeat
  | questionMark => .questionOptional
  | interval _ _ => .interval

def kind : Repetition → Quantifier.Kind
  | star => .zeroOrMore
  | atSign => .zeroOrMore
  | plus => .oneOrMore
  | questionMark => .zeroOrOne
  | interval _ _ => .interval

def min : Repetition → Nat
  | star => 0
  | atSign => 0
  | plus => 1
  | questionMark => 0
  | interval b _ => b.min

/-- The upper bound, unless there is none. -/
def max : Repetition → Option Nat
  | star => none
  | atSign => none
  | plus => none
  | questionMark => some 1
  | interval b _ => b.max

/-- What the quantifier asks for. It is greedy unless its suffix or the flags make it
    lazy. -/
def quantifier (flags : CompileFlags) (isLazy : Bool) (r : Repetition) : Quantifier :=
  ⟨r.kind, r.min, r.max, !(isLazy || flags.minimal)⟩

end Repetition

/-- A piece of a pattern as it is spelled. A group has a first alternative and any number
    of others. -/
inductive Piece where
  | byte (b : HexByte)
  | bracket (b : Bracket)
  | shorthand (s : Shorthand)
  | sign (s : Sign)
  | group (d : Delimiter) (first : List Piece) (others : List (List Piece))
  | quantified (r : Repetition) (isLazy : Bool) (element : Piece)

/-- A whole pattern as it is spelled. -/
structure Tree where
  first : List Piece
  others : List (List Piece)

/-- Whether a quantifier can follow: the piece is a byte, a class, a sign for any byte
    or a group. -/
def Piece.isElement : Piece → Bool
  | .byte _ => true
  | .bracket _ => true
  | .shorthand _ => true
  | .sign s => s.operation = .anyChar
  | .group _ _ _ => true
  | .quantified _ _ _ => false

mutual

/-- The bytes that write a piece. -/
def Piece.spelled : Piece → List UInt8
  | .byte b => b.spelled
  | .bracket b => 0x5B :: b.spelled
  | .shorthand s => s.spelled
  | .sign s => s.spelled
  | .group d first others =>
    d.opening ++ (Pieces.spelled first ++ (Others.spelled others ++ d.closing))
  | .quantified r isLazy element =>
    element.spelled ++ (r.spelled ++ if isLazy then [0x3F] else [])

/-- The bytes that write pieces in a row. -/
def Pieces.spelled : List Piece → List UInt8
  | [] => []
  | p :: rest => p.spelled ++ Pieces.spelled rest

/-- The bytes that write further alternatives, with a bar before each. -/
def Others.spelled : List (List Piece) → List UInt8
  | [] => []
  | s :: rest => 0x7C :: (Pieces.spelled s ++ Others.spelled rest)

end

mutual

/-- Whether a dialect has what a piece makes use of. -/
def Piece.fits (d : Dialect) : Piece → Bool
  | .byte _ => true
  | .bracket b => b.fits d
  | .shorthand _ => d.has .classShorthands
  | .sign s => d.has s.construct
  | .group delimiter first others =>
    d.has delimiter.construct && Pieces.fits d first && Others.fits d others
  | .quantified r isLazy element =>
    d.has r.construct && (!isLazy || d.has .lazySuffix) && element.isElement && element.fits d

def Pieces.fits (d : Dialect) : List Piece → Bool
  | [] => true
  | p :: rest => p.fits d && Pieces.fits d rest

def Others.fits (d : Dialect) : List (List Piece) → Bool
  | [] => true
  | s :: rest => Pieces.fits d s && Others.fits d rest

end

mutual

/-- How many groups a piece has. -/
def Piece.groups : Piece → Nat
  | .byte _ => 0
  | .bracket _ => 0
  | .shorthand _ => 0
  | .sign _ => 0
  | .group _ first others => 1 + (Pieces.groups first + Others.groups others)
  | .quantified _ _ element => element.groups

def Pieces.groups : List Piece → Nat
  | [] => 0
  | p :: rest => p.groups + Pieces.groups rest

def Others.groups : List (List Piece) → Nat
  | [] => 0
  | s :: rest => Pieces.groups s + Others.groups rest

end

/-- The byte that a literal matches, which is folded when letter case is ignored. -/
def HexByte.literal (flags : CompileFlags) (b : HexByte) : UInt8 :=
  if flags.ignoreCase then Byte.fold b.value else b.value

/-- The operation of a run of literals; a run of none has no operation. A run of four to
    8191 bytes comes with its border table. -/
def emitRun (run : Bytes) : List Operation :=
  if run.isEmpty then []
  else [.literal run
    (if 4 ≤ run.size ∧ run.size ≤ 0x1FFF then some (Literal.borders run) else none)]

/-- The operations of a choice. A single alternative stands alone, and of several each
    is enclosed. -/
def emitChoice (first : List Operation) (others : List (List Operation)) : List Operation :=
  if others.isEmpty then first
  else (first :: others).flatMap fun ops => .branch :: (ops ++ [.branchEnd])

/-- The group number that is written `n`. -/
def groupNumber (n : Nat) : GroupNumber := ⟨n % slots, Nat.mod_lt n (Nat.succ_pos 9)⟩

mutual

/-- The operations of a piece, when `n` groups open before it. -/
def Piece.emit (flags : CompileFlags) (n : Nat) : Piece → List Operation
  | .byte b => emitRun #[b.literal flags]
  | .bracket b => [.set (b.set flags.ignoreCase)]
  | .shorthand s => [.set s.set]
  | .sign s => [s.operation]
  | .group _ first others =>
    .openGroup (groupNumber (n + 1)) ::
      (emitChoice (Pieces.emit flags (n + 1) #[] first)
          (Others.emit flags (n + 1 + Pieces.groups first) others) ++
        [.closeGroup (groupNumber (n + 1))])
  | .quantified r isLazy element =>
    .quantifier (r.quantifier flags isLazy) :: (element.emit flags n ++ [.loop])

/-- The operations of pieces in a row, when the run of literals before them is still
    open. -/
def Pieces.emit (flags : CompileFlags) (n : Nat) (run : Bytes) : List Piece → List Operation
  | [] => emitRun run
  | .byte b :: rest => Pieces.emit flags n (run.push (b.literal flags)) rest
  | p :: rest => emitRun run ++ (p.emit flags n ++ Pieces.emit flags (n + p.groups) #[] rest)

/-- The operations of each of several alternatives. -/
def Others.emit (flags : CompileFlags) (n : Nat) : List (List Piece) → List (List Operation)
  | [] => []
  | s :: rest => Pieces.emit flags n #[] s :: Others.emit flags (n + Pieces.groups s) rest

end

/-- The block of a run of literals; a run of none has no block. -/
def runBlocks (run : Bytes) : List Block := if run.isEmpty then [] else [.literal run]

mutual

/-- The tree of a piece, when `n` groups open before it. -/
def Piece.block (flags : CompileFlags) (n : Nat) : Piece → Block
  | .byte b => .literal #[b.literal flags]
  | .bracket b => .set (b.set flags.ignoreCase)
  | .shorthand s => .set s.set
  | .sign s => s.block
  | .group _ first others =>
    .group (groupNumber (n + 1)) (Pieces.blocks flags (n + 1) #[] first ::
      Others.blocks flags (n + 1 + Pieces.groups first) others)
  | .quantified r isLazy element => .quantified (r.quantifier flags isLazy) (element.block flags n)

def Pieces.blocks (flags : CompileFlags) (n : Nat) (run : Bytes) : List Piece → List Block
  | [] => runBlocks run
  | .byte b :: rest => Pieces.blocks flags n (run.push (b.literal flags)) rest
  | p :: rest => runBlocks run ++ p.block flags n :: Pieces.blocks flags (n + p.groups) #[] rest

def Others.blocks (flags : CompileFlags) (n : Nat) : List (List Piece) → List (List Block)
  | [] => []
  | s :: rest => Pieces.blocks flags n #[] s :: Others.blocks flags (n + Pieces.groups s) rest

end

theorem operations_runBlocks (run : Bytes) :
    Sequence.operations (runBlocks run) = emitRun run := by
  rw [runBlocks, emitRun]
  by_cases hempty : run.isEmpty = true
  · rw [if_pos hempty, if_pos hempty, Sequence.operations]
  · rw [if_neg hempty, if_neg hempty, Sequence.operations, Sequence.operations, List.append_nil,
      Block.operations, Operation.ofLiteral, Literal.borders?]
    have hlength : (decide (Literal.minLength ≤ run.size) && decide (run.size ≤ Literal.maxLength))
        = true ↔ 4 ≤ run.size ∧ run.size ≤ 0x1FFF := by
      rw [Bool.and_eq_true, decide_eq_true_eq, decide_eq_true_eq]
      exact Iff.rfl
    rw [if_congr hlength rfl rfl]

theorem branches_flatMap (alts : List (List Block)) :
    Alternatives.branches alts = (alts.map Sequence.operations).flatMap fun ops =>
      .branch :: (ops ++ [.branchEnd]) := by
  induction alts with
  | nil => rfl
  | cons s rest ih =>
      rw [Alternatives.branches, ih, List.map_cons, List.flatMap_cons, List.cons_append,
        List.append_assoc, List.singleton_append]

theorem operations_choice (s : List Block) (rest : List (List Block)) :
    Alternatives.operations (s :: rest)
      = emitChoice (Sequence.operations s) (rest.map Sequence.operations) := by
  cases rest with
  | nil => rfl
  | cons t rest => exact branches_flatMap (s :: t :: rest)

mutual

/-- The tree of a piece is laid out as the operations of the piece, by recursion on the
    piece. -/
theorem operations_block (flags : CompileFlags) (n : Nat) (p : Piece) :
    (p.block flags n).operations = p.emit flags n := by
  cases p with
  | byte b => exact (List.append_nil _).symm.trans (operations_runBlocks #[b.literal flags])
  | bracket b => rfl
  | shorthand s => rfl
  | sign s => cases s <;> rfl
  | group d first others =>
      rw [Piece.block, Piece.emit, Block.operations, operations_choice,
        operations_blocks flags (n + 1) #[] first,
        operations_others flags (n + 1 + Pieces.groups first) others]
  | quantified r isLazy element =>
      rw [Piece.block, Piece.emit, Block.operations, operations_block flags n element]

theorem operations_blocks (flags : CompileFlags) (n : Nat) (run : Bytes) (ps : List Piece) :
    Sequence.operations (Pieces.blocks flags n run ps) = Pieces.emit flags n run ps := by
  cases ps with
  | nil => exact operations_runBlocks run
  | cons p rest =>
      -- A piece that is no literal ends the run.
      have hpiece : Sequence.operations
          (runBlocks run ++ p.block flags n :: Pieces.blocks flags (n + p.groups) #[] rest)
          = emitRun run ++ (p.emit flags n ++ Pieces.emit flags (n + p.groups) #[] rest) := by
        rw [Sequence.operations_append, operations_runBlocks, Sequence.operations,
          operations_block flags n p, operations_blocks flags (n + p.groups) #[] rest]
      cases p with
      | byte b => exact operations_blocks flags n (run.push (b.literal flags)) rest
      | _ => exact hpiece

theorem operations_others (flags : CompileFlags) (n : Nat) (others : List (List Piece)) :
    (Others.blocks flags n others).map Sequence.operations = Others.emit flags n others := by
  cases others with
  | nil => rfl
  | cons s rest =>
      rw [Others.blocks, Others.emit, List.map_cons, operations_blocks flags n #[] s,
        operations_others flags (n + Pieces.groups s) rest]

end

namespace Tree

/-- The bytes that write a pattern. -/
def spelled (t : Tree) : List UInt8 := Pieces.spelled t.first ++ Others.spelled t.others

/-- Whether a dialect has what a pattern makes use of. -/
def fits (d : Dialect) (t : Tree) : Bool := Pieces.fits d t.first && Others.fits d t.others

def groups (t : Tree) : Nat := Pieces.groups t.first + Others.groups t.others

/-- The operations that a pattern stands for. -/
def emit (flags : CompileFlags) (t : Tree) : List Operation :=
  emitChoice (Pieces.emit flags 0 #[] t.first)
    (Others.emit flags (Pieces.groups t.first) t.others) ++ [.finish]

/-- The tree that a pattern stands for. -/
def alternatives (flags : CompileFlags) (t : Tree) : List (List Block) :=
  Pieces.blocks flags 0 #[] t.first :: Others.blocks flags (Pieces.groups t.first) t.others

end Tree

/-- The tree of a whole pattern is laid out as the operations of the pattern. -/
theorem operations_alternatives (flags : CompileFlags) (t : Tree) :
    (⟨t.alternatives flags, t.groups⟩ : Pattern).operations = t.emit flags := by
  rw [Pattern.operations, Tree.alternatives, operations_choice, operations_blocks,
    operations_others, Tree.emit]

end Pattern

end ByteRegex

import ByteRegex.Program.Basic

/-!
# The State of a Match

While a program runs against a text it keeps three things: registers, a journal
of what was written to them, and a stack of loops.

The registers hold, for every group, where it was last opened and the span it
last closed with, further the highest group that has closed, and the position
that the cursor mark recorded. They are written on the way through the program,
also on ways that lead nowhere, so every write first enters the overwritten
value in the journal. A mark is the length of the journal at some moment;
rolling back to it undoes the later writes, the latest first.

Each quantifier that is being repeated step by step has a frame on the stack,
with the count of the iterations that have ended and the position where the
current one began. Loops nest, so the frame on top is that of the innermost
loop.

## Main definitions

* `Span`: A stretch of the text.
* `Registers`: What a match records.
* `Registers.openGroup`, `Registers.closeGroup`, `Registers.recordCursor`: The
  writes to the registers.
* `Overwritten`: A value that a write replaced.
* `LoopFrame`: A loop that is being repeated.
* `State`: Registers, journal and loops.
* `State.openGroup`, `State.closeGroup`, `State.recordCursor`: The same writes,
  entered in the journal.
* `State.mark`, `State.rollback`: Undoing writes.
-/

namespace ByteRegex

/-- The stretch of the text from `start` up to `stop`. -/
structure Span where
  start : Nat
  stop : Nat
  deriving DecidableEq, Repr, Inhabited

namespace Machine

/-- What a match records. -/
structure Registers where
  /-- Where each group was last opened. -/
  opened : Vector (Option Nat) slots
  /-- The span with which each group last closed. -/
  closed : Vector (Option Span) slots
  /-- The highest group that has closed, or zero. -/
  highest : Nat
  /-- The recorded position. -/
  cursor : Option Nat
  deriving DecidableEq, Repr

namespace Registers

def empty : Registers :=
  { opened := Vector.replicate slots none
    closed := Vector.replicate slots none
    highest := 0
    cursor := none }

/-- Records where group `n` opens. -/
def openGroup (r : Registers) (n : GroupNumber) (pos : Nat) : Registers :=
  { r with opened := r.opened.set n (some pos) }

/-- Records the span of group `n`, if the group was opened. -/
def closeGroup (r : Registers) (n : GroupNumber) (pos : Nat) : Registers :=
  match r.opened[n] with
  | none => r
  | some start =>
    { r with closed := r.closed.set n (some ⟨start, pos⟩), highest := max r.highest n }

/-- Records the position for the cursor mark. -/
def recordCursor (r : Registers) (pos : Nat) : Registers := { r with cursor := some pos }

end Registers

/-- A value that a write to the registers replaced. -/
inductive Overwritten where
  | opened (n : GroupNumber) (position : Option Nat)
  | closed (n : GroupNumber) (span : Option Span) (highest : Nat)
  | cursor (position : Option Nat)
  deriving DecidableEq, Repr

/-- Puts a replaced value back. -/
def Overwritten.restore (r : Registers) : Overwritten → Registers
  | opened n position => { r with opened := r.opened.set n position }
  | closed n span highest => { r with closed := r.closed.set n span, highest := highest }
  | cursor position => { r with cursor := position }

/-- A loop that is being repeated. -/
structure LoopFrame where
  /-- The index of the quantifier. -/
  quantifier : Nat
  /-- How many iterations have ended. -/
  count : Nat
  /-- Where the current iteration began. -/
  start : Nat
  deriving DecidableEq, Repr

/-- Registers, journal and loops. -/
structure State where
  registers : Registers
  /-- What the writes replaced, the latest last. -/
  journal : Array Overwritten
  /-- The loops that are being repeated, the innermost first. -/
  frames : List LoopFrame
  deriving DecidableEq, Repr

namespace State

/-- The state at the beginning of a match. -/
def initial : State := ⟨Registers.empty, #[], []⟩

/-- Records where group `n` opens. -/
def openGroup (st : State) (n : GroupNumber) (pos : Nat) : State :=
  let before := st.registers.opened[n]
  { st with
    journal := st.journal.push (.opened n before)
    registers := st.registers.openGroup n pos }

/-- Records the span of group `n`, if the group was opened. -/
def closeGroup (st : State) (n : GroupNumber) (pos : Nat) : State :=
  match st.registers.opened[n] with
  | none => st
  | some _ =>
    let before := st.registers.closed[n]
    { st with
      journal := st.journal.push (.closed n before st.registers.highest)
      registers := st.registers.closeGroup n pos }

/-- Records the position for the cursor mark. -/
def recordCursor (st : State) (pos : Nat) : State :=
  { st with
    journal := st.journal.push (.cursor st.registers.cursor)
    registers := st.registers.recordCursor pos }

/-- The length of the journal, to which a later state can be rolled back. -/
def mark (st : State) : Nat := st.journal.size

/-- Undoes the latest write. -/
def undoLast (st : State) : State :=
  match st.journal.back? with
  | none => st
  | some w => { st with registers := w.restore st.registers, journal := st.journal.pop }

/-- Undoes the latest `n` writes. -/
def undo (st : State) : Nat → State
  | 0 => st
  | n + 1 => undo st.undoLast n

/-- Undoes every write made since the mark was taken. -/
def rollback (st : State) (mark : Nat) : State := st.undo (st.journal.size - mark)

end State

end Machine

end ByteRegex

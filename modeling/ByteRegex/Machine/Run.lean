import ByteRegex.Machine.Position
import ByteRegex.Machine.State

/-!
# Running a Program

The machine follows a program from operation to operation and stops at `finish`.
Where it can go on in more than one way it tries the ways in order of
preference, each from the state in which the choice arose, and takes the first
that leads to the end. The ways are

* the alternatives of a choice, from the first to the last;
* the lengths of an any-string run, the longest first unless the program prefers
  short matches;
* at a quantifier, another iteration or the way out.

`firstOf` is that choice, and `reverting` is what keeps the tries apart: a try
that fails leaves neither a write in the registers nor a change on the stack.

There are two ways to repeat. A body of fixed positive width with no choices in
it is only counted: the longest row of iterations is found by testing, and then
the counts are tried from the preferred end, recording the groups of the last
iteration. Any other body is run through, with a frame on the stack. At the loop
an iteration has ended: it may be repeated while the upper bound allows and it
has consumed something, and it may be left when the lower bound is met or it
has consumed nothing. So an iteration that matched the empty text is always the
last.

One step of the machine is a function of what it does next, and `run` ties the
knot. Its fuel bounds the length of one way through the program, not the number
of ways tried. The stack and the position allow `budget` steps: between two bytes
of the text every loop on the stack can go back only once.

A program that was not made by `compile` may send the machine astray, to an
operation or a position that does not exist or to a loop whose frame is not on
top. Then it stops with a fault, which is neither a match nor a failure to
match.

## Main definitions

* `Fault`: Why the machine cannot go on.
* `Attempt`: How a run ends.
* `firstOf`: The first of several ways that succeeds.
* `repeatCounted`: Repeats a body by counting.
* `enterLoop`, `endIteration`: Repeat a body by running it.
* `step`: One step of the machine.
* `run`: The machine.
* `budget`: The fuel that a way through the program can need.
* `start`: The run from the first operation.
-/

namespace ByteRegex

namespace Machine

/-- Why the machine cannot go on. -/
inductive Fault where
  /-- The fuel is used up. -/
  | exhausted
  /-- The program has no such operation. -/
  | noOperation (pc : Nat)
  /-- The position lies behind the end of the text. -/
  | pastText (pos : Nat)
  /-- A quantifier or loop is not linked to a partner. -/
  | unpaired (pc : Nat)
  /-- A loop was reached whose frame is not on top of the stack. -/
  | foreignFrame (pc : Nat)
  deriving DecidableEq, Repr

/-- How a run ends. -/
inductive Attempt where
  /-- The whole pattern matched, up to `stop`. -/
  | matched (stop : Nat) (st : State)
  | failed (st : State)
  | fault (f : Fault)
  deriving DecidableEq, Repr

/-- What the machine does from an operation, at a position, in a state. -/
abbrev Continuation : Type := Nat → Nat → State → Attempt

/-- Tries a way, and returns from a failure to the state at its beginning. Only
    the mark and the stack are kept back, so the way has the state to itself and
    writes to it in place. -/
def reverting (way : State → Attempt) (st : State) : Attempt :=
  let mark := st.mark
  let frames := st.frames
  match way st with
  | .failed st' => .failed { st'.rollback mark with frames := frames }
  | done => done

/-- The first of several ways that does not fail, each tried from the state at
    the beginning. -/
def firstOf : List (State → Attempt) → State → Attempt
  | [], st => .failed st
  | way :: others, st =>
    match reverting way st with
    | .failed st' => firstOf others st'
    | done => done

/-- The numbers from `low` to `high`, in the preferred order. -/
def counts (longestFirst : Bool) (low high : Nat) : List Nat :=
  let ascending := List.range' low (high + 1 - low)
  if longestFirst then ascending.reverse else ascending

/-- The branches of the choice whose next branch is at `pc`. -/
def branchesFrom (program : Program) (pc : Nat) : List Nat :=
  if h : pc < program.operations.size then
    match program.operations[pc].operation with
    | .branch =>
      if _hnext : pc < program.operations[pc].next then
        pc :: branchesFrom program program.operations[pc].next
      else [pc]
    | _ => []
  else []
  termination_by program.operations.size - pc

/-- The operations of a body, from index `first` up to the loop at `last`. -/
def bodyOf (program : Program) (first last : Nat) : List Operation :=
  (program.operations.extract first last).toList.map (·.operation)

/-- The width of an iteration, when the body consists of tests of fixed width and
    of group marks, and matches at least one byte. -/
def countedWidth? (body : List Operation) : Option Nat :=
  match widthFrom 0 body with
  | some 0 => none
  | width => width
where
  /-- Adds the widths of the operations to `width`. -/
  widthFrom (width : Nat) : List Operation → Option Nat
    | [] => some width
    | .openGroup _ :: rest => widthFrom width rest
    | .closeGroup _ :: rest => widthFrom width rest
    | op :: rest => op.width?.bind fun w => widthFrom (width + w) rest

/-- Whether a body of fixed width matches at a position. -/
def bodyPasses (env : Env) (pos : Nat) : List Operation → Bool
  | [] => true
  | op :: rest =>
    match op.width? with
    | some w => env.passes pos op && bodyPasses env (pos + w) rest
    | none => bodyPasses env pos rest

/-- How many iterations of a body match in a row from `pos` on, when `done` of
    them have been seen and at most `limit` more are allowed. -/
def iterationsFrom (env : Env) (body : List Operation) (width pos done : Nat) :
    (limit : Nat) → Nat
  | 0 => done
  | limit + 1 =>
    if bodyPasses env (pos + done * width) body then
      iterationsFrom env body width pos (done + 1) limit
    else done

/-- Records the groups of one iteration of a body of fixed width. -/
def recordGroups (pos : Nat) (st : State) : List Operation → State
  | [] => st
  | .openGroup n :: rest => recordGroups pos (st.openGroup n pos) rest
  | .closeGroup n :: rest => recordGroups pos (st.closeGroup n pos) rest
  | op :: rest => recordGroups (pos + op.width?.getD 0) st rest

/-- Repeats a body of fixed width: finds the most iterations that match and tries
    the counts down or up from there. Only the last iteration leaves its groups
    behind. The body cannot match more often than there are bytes left. -/
def repeatCounted (env : Env) (go : Continuation) (body : List Operation) (width : Nat)
    (q : Quantifier) (next pos : Nat) (st : State) : Attempt :=
  let bytesLeft := env.text.size - pos
  let limit := match q.max with
    | some m => min m bytesLeft
    | none => bytesLeft
  let most := iterationsFrom env body width pos 0 limit
  if most < q.min then .failed st
  else
    let leaveAfter (k : Nat) (st : State) : Attempt :=
      -- Earlier iterations open and close the same groups, so the last one wins.
      let st := if k = 0 then st else recordGroups (pos + (k - 1) * width) st body
      go next (pos + k * width) st
    firstOf ((counts q.greedy q.min most).map leaveAfter) st

/-- Chooses between another iteration and the way out. The loop at hand has
    `count` iterations behind it, and `below` are the frames of the loops around
    it. -/
def againOrOut (go : Continuation) (q : Quantifier) (pc next pos count : Nat)
    (below : List LoopFrame) (mayRepeat mayLeave : Bool) (st : State) : Attempt :=
  let again (st : State) : Attempt :=
    go (pc + 1) pos { st with frames := ⟨pc, count, pos⟩ :: below }
  let out (st : State) : Attempt := go next pos { st with frames := below }
  let againIfAllowed := if mayRepeat then [again] else []
  let outIfAllowed := if mayLeave then [out] else []
  firstOf (if q.greedy then againIfAllowed ++ outIfAllowed else outIfAllowed ++ againIfAllowed) st

/-- Begins to repeat the body behind the quantifier at `pc` by running it. -/
def enterLoop (go : Continuation) (q : Quantifier) (pc next pos : Nat) (st : State) : Attempt :=
  againOrOut go q pc next pos 0 st.frames (q.max != some 0) (q.min == 0) st

/-- Ends an iteration of the quantifier at `pc`, whose frame is `frame` above
    the frames `below`. -/
def endIteration (go : Continuation) (q : Quantifier) (pc next pos : Nat) (frame : LoopFrame)
    (below : List LoopFrame) (st : State) : Attempt :=
  let count := frame.count + 1
  -- After an empty iteration there is only the way out, whatever the bounds say.
  let consumed := pos != frame.start
  againOrOut go q pc next pos count below (consumed && q.max.all (count < ·))
    (q.min ≤ count || !consumed) st

/-- The quantifier at `pc`, whose loop is at `loopAt`. -/
def stepQuantifier (env : Env) (go : Continuation) (q : Quantifier) (pc loopAt pos : Nat)
    (st : State) : Attempt :=
  match env.program.at? loopAt with
  | none => .fault (.unpaired pc)
  | some loop =>
    let body := bodyOf env.program (pc + 1) loopAt
    match countedWidth? body with
    | some width => repeatCounted env go body width q loop.next pos st
    | none => enterLoop go q pc loop.next pos st

/-- The loop at `pc` of the quantifier at `quantifierAt`. -/
def stepLoop (env : Env) (go : Continuation) (pc quantifierAt next pos : Nat) (st : State) :
    Attempt :=
  match env.program.at? quantifierAt with
  | some ⟨.quantifier q, _, _⟩ =>
    match st.frames with
    | frame :: below =>
      if frame.quantifier = quantifierAt then
        endIteration go q quantifierAt next pos frame below st
      else .fault (.foreignFrame pc)
    | [] => .fault (.foreignFrame pc)
  | _ => .fault (.unpaired pc)

/-- One step of the machine: what the operation at `pc` does at a position. -/
def step (env : Env) (go : Continuation) (pc pos : Nat) (st : State) : Attempt :=
  match env.program.at? pc with
  | none => .fault (.noOperation pc)
  | some ⟨op, next, partner⟩ =>
    if env.text.size < pos then .fault (.pastText pos)
    else
      match op with
      | .finish => .matched pos st
      | .branchEnd => go next pos st
      | .branch =>
        firstOf ((branchesFrom env.program pc).map fun branch => go (branch + 1) pos) st
      | .literal word _ =>
        if env.passes pos op then go next (pos + word.size) st else .failed st
      | .set _ => if env.passes pos op then go next (pos + 1) st else .failed st
      | .anyChar => if env.passes pos op then go next (pos + 1) st else .failed st
      | .anchor a => if env.holdsAt pos a then go next pos st else .failed st
      | .cursor => go next pos (st.recordCursor pos)
      | .anyString =>
        firstOf ((counts (!env.minimal) pos (env.reach pos)).map fun stop => go next stop) st
      | .openGroup n => go next pos (st.openGroup n pos)
      | .closeGroup n => go next pos (st.closeGroup n pos)
      | .quantifier q =>
        match partner with
        | some loopAt => stepQuantifier env go q pc loopAt pos st
        | none => .fault (.unpaired pc)
      | .loop =>
        match partner with
        | some quantifierAt => stepLoop env go pc quantifierAt next pos st
        | none => .fault (.unpaired pc)

/-- The machine, with fuel for the length of one way through the program. -/
def run (env : Env) : (fuel : Nat) → Continuation
  | 0, _, _, _ => .fault .exhausted
  | fuel + 1, pc, pos, st => step env (run env fuel) pc pos st

/-- The fuel that a way through the program can need: at each position every loop
    goes back at most once, and between two jumps back the way passes each
    operation at most once. -/
def budget (env : Env) : Nat :=
  let width := env.program.size + 1
  (env.text.size + 1) * (width * width) + 1

/-- Runs the program from its first operation, at the given position and with
    empty registers. -/
def start (env : Env) (pos : Nat) : Attempt := run env (budget env) 0 pos State.initial

end Machine

end ByteRegex

import ByteRegex.Machine.Run

/-!
# The Machine in Place

The machine keeps one state and changes it in place. Where a try fails, the same state
goes on to the next, so whatever the try has changed has to be put back, piece by piece,
by the function that changed it. Nothing is kept but what was overwritten: the mark of
the journal, the frame of the loop at hand, the height of the stack.

The stack is reached by index, from the outermost frame up. Another iteration changes the
start of its loop's frame and, if it fails, puts the frame back. The way out takes the
frame from its place and, if it fails, puts it in again at the same index. A quantifier
pushes a frame and cuts the stack off where it was; a loop counts an iteration and takes
the count back. Every try also undoes the writes to the registers.

A frame is put back where it was found, so a stack that came back shorter would have no
place for it. The machine stops with a fault then.

What has no choice in it changes the state on the way and leaves it changed: a failed run
through such operations leaves it to the choice before it to undo the writes.

## Main definitions

* `stack`, `withStack`: The frames as they are reached by index.
* `undoing`, `inTurn`: Tries that undo their writes, one after the other.
* `alternatives`, `anyString`, `repeatCounted`: The choices that leave the stack alone.
* `loopRepeat`, `loopExit`, `loopStep`: Another iteration, the way out, and the choice
  between them.
* `enterLoop`, `endIteration`: What a quantifier and a loop do to the stack.
* `step`, `run`: The machine.
-/

namespace ByteRegex

namespace Machine

namespace InPlace

/-- The frames by index, the outermost first. -/
def stack (st : State) : List LoopFrame := st.frames.reverse

/-- The state with other frames. -/
def withStack (st : State) (frames : List LoopFrame) : State :=
  { st with frames := frames.reverse }

/-- A way that undoes its writes if it fails. -/
def undoing (mark : Nat) (way : State → Attempt) (st : State) : Attempt :=
  match way st with
  | .failed later => .failed (later.rollback mark)
  | done => done

/-- Tries ways one after the other, each from the state in which the last has failed. -/
def inTurn : List (State → Attempt) → State → Attempt
  | [], st => .failed st
  | way :: others, st =>
    match way st with
    | .failed later => inTurn others later
    | done => done

/-- Tries the branches of a choice in order. -/
def alternatives (go : Continuation) (program : Program) (first pos : Nat) (st : State) :
    Attempt :=
  inTurn ((branchesFrom program first).map fun branch =>
    undoing st.mark (go (branch + 1) pos)) st

/-- Tries the lengths of an any-string run, from the preferred end. -/
def anyString (env : Env) (go : Continuation) (next pos : Nat) (st : State) : Attempt :=
  inTurn ((counts (!env.minimal) pos (env.reach pos)).map fun stop =>
    undoing st.mark (go next stop)) st

/-- Leaves a counted body after `k` iterations, of which the last records its groups. -/
def leaveAfter (go : Continuation) (body : List Operation) (width next pos k : Nat)
    (st : State) : Attempt :=
  go next (pos + k * width)
    (if k = 0 then st else recordGroups (pos + (k - 1) * width) st body)

/-- Repeats a body of fixed width by counting its iterations. -/
def repeatCounted (env : Env) (go : Continuation) (body : List Operation) (width : Nat)
    (q : Quantifier) (next pos : Nat) (st : State) : Attempt :=
  let bytesLeft := env.text.size - pos
  let limit := match q.max with
    | some m => min m bytesLeft
    | none => bytesLeft
  let most := iterationsFrom env body width pos 0 limit
  if most < q.min then .failed st
  else
    inTurn ((counts q.greedy q.min most).map fun k =>
      undoing st.mark (leaveAfter go body width next pos k)) st

/-- Runs another iteration of the quantifier at `quantifierAt`, whose frame is at `idx`. -/
def loopRepeat (go : Continuation) (quantifierAt idx pos : Nat) (st : State) : Attempt :=
  match (stack st)[idx]? with
  | none => .fault (.foreignFrame quantifierAt)
  | some frame =>
    match go (quantifierAt + 1) pos
        (withStack st ((stack st).set idx { frame with start := pos })) with
    | .failed later =>
      if idx < (stack later).length then
        .failed ((withStack later ((stack later).set idx frame)).rollback st.mark)
      else .fault (.foreignFrame quantifierAt)
    | done => done

/-- Leaves the loop whose frame is at `idx`. -/
def loopExit (go : Continuation) (quantifierAt idx next pos : Nat) (st : State) : Attempt :=
  match (stack st)[idx]? with
  | none => .fault (.foreignFrame quantifierAt)
  | some frame =>
    match go next pos (withStack st ((stack st).eraseIdx idx)) with
    | .failed later =>
      if idx ≤ (stack later).length then
        .failed ((withStack later ((stack later).insertIdx idx frame)).rollback st.mark)
      else .fault (.foreignFrame quantifierAt)
    | done => done

/-- Chooses between another iteration and the way out. -/
def loopStep (go : Continuation) (q : Quantifier) (quantifierAt idx next pos : Nat)
    (mayRepeat mayLeave : Bool) (st : State) : Attempt :=
  let again := if mayRepeat then [loopRepeat go quantifierAt idx pos] else []
  let out := if mayLeave then [loopExit go quantifierAt idx next pos] else []
  inTurn (if q.greedy then again ++ out else out ++ again) st

/-- Pushes a frame for the quantifier at `pc` and begins to repeat its body. -/
def enterLoop (go : Continuation) (q : Quantifier) (pc next pos : Nat) (st : State) : Attempt :=
  let idx := (stack st).length
  match loopStep go q pc idx next pos (q.max != some 0) (q.min == 0)
      (withStack st (stack st ++ [⟨pc, 0, pos⟩])) with
  | .failed later => .failed (withStack later ((stack later).take idx))
  | done => done

/-- The quantifier at `pc`, whose loop is at `loopAt`. -/
def stepQuantifier (env : Env) (go : Continuation) (q : Quantifier) (pc loopAt pos : Nat)
    (st : State) : Attempt :=
  match env.program.at? loopAt with
  | none => .fault (.unpaired pc)
  | some loop =>
    let body := bodyOf env.program (pc + 1) loopAt
    match countedWidth? body with
    | some width => repeatCounted env go body width q loop.next pos st
    | none => enterLoop go q pc loop.next pos st

/-- Counts the iteration that has ended in the frame at `idx`, and goes on from there. -/
def endIteration (go : Continuation) (q : Quantifier) (quantifierAt idx next pos : Nat)
    (frame : LoopFrame) (st : State) : Attempt :=
  let count := frame.count + 1
  let consumed := pos != frame.start
  match loopStep go q quantifierAt idx next pos (consumed && q.max.all (count < ·))
      (q.min ≤ count || !consumed)
      (withStack st ((stack st).set idx { frame with count := count })) with
  | .failed later =>
    match (stack later)[idx]? with
    | some counted =>
      .failed (withStack later ((stack later).set idx { counted with count := frame.count }))
    | none => .fault (.foreignFrame quantifierAt)
  | done => done

/-- The index of the innermost frame of the quantifier at `quantifierAt`. -/
def innermost? (st : State) (quantifierAt : Nat) : Option Nat :=
  (st.frames.findIdx? (·.quantifier == quantifierAt)).map fun above =>
    st.frames.length - 1 - above

/-- The loop at `pc` of the quantifier at `quantifierAt`. -/
def stepLoop (env : Env) (go : Continuation) (pc quantifierAt next pos : Nat) (st : State) :
    Attempt :=
  match env.program.at? quantifierAt with
  | some ⟨.quantifier q, _, _⟩ =>
    match innermost? st quantifierAt with
    | some idx =>
      match (stack st)[idx]? with
      | some frame => endIteration go q quantifierAt idx next pos frame st
      | none => .fault (.foreignFrame pc)
    | none => .fault (.foreignFrame pc)
  | _ => .fault (.unpaired pc)

/-- One step of the machine. Only where it chooses does it have anything to put back. -/
def step (env : Env) (go : Continuation) (pc pos : Nat) (st : State) : Attempt :=
  match env.program.at? pc with
  | none => .fault (.noOperation pc)
  | some ⟨op, next, partner⟩ =>
    if env.text.size < pos then .fault (.pastText pos)
    else
      match op, partner with
      | .branch, _ => alternatives go env.program pc pos st
      | .anyString, _ => anyString env go next pos st
      | .quantifier q, some loopAt => stepQuantifier env go q pc loopAt pos st
      | .loop, some quantifierAt => stepLoop env go pc quantifierAt next pos st
      | _, _ => Machine.step env go pc pos st

/-- The machine, with fuel for the length of one way through the program. -/
def run (env : Env) : (fuel : Nat) → Continuation
  | 0, _, _, _ => .fault .exhausted
  | fuel + 1, pc, pos, st => step env (run env fuel) pc pos st

end InPlace

end Machine

end ByteRegex

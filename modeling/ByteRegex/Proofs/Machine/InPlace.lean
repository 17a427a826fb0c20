import ByteRegex.Machine.InPlace
import ByteRegex.Proofs.Machine.Journal
import Mathlib.Data.List.Forall2
import Mathlib.Data.List.InsertIdx

/-!
# A Failed Try Leaves No Trace

In place a try changes the only state there is, and what fails has to be put back. Two
promises divide the work. A run that fails may leave writes behind, but it leaves the
stack alone and the writes can be undone: that is `Undoable`, and it is what the
functions that choose rely on. They promise more, that when they fail the state is
exactly the one they were called in.

Neither promise can be proved without the other, so both are proved of one step, on the
assumption that the rest of the run keeps the first. Each function puts back what it has
changed itself. Another iteration fails with its start in the frame, and the frame is
put back at its index; the way out fails with the frame missing, and it is put in again;
a quantifier cuts off the frame it has pushed, and a loop takes the count back. By the
first promise the stack has not moved in between, so every index still means the frame
it meant.

## Main definitions

* `settle`: An attempt whose state is as it was before, if it fails.

## Theorems

* `withStack_rollback`: Writes are undone whatever the stack is.
* `undoing_settles`: A try that undoes its writes settles.
* `loopRepeat_settles`, `loopExit_settles`: So do the tries that put a frame back.
* `inTurn_failed`: Tries in turn leave the state if each of them does.
* `enterLoop_failed`, `endIteration_failed`: Frames are cut off, counts are taken back.
* `step_undoable`: A step keeps the first promise.
* `run_undoable`: So does a run.
-/

namespace ByteRegex

namespace Machine

namespace InPlace

@[simp] theorem stack_withStack (st : State) (frames : List LoopFrame) :
    stack (withStack st frames) = frames := List.reverse_reverse frames

@[simp] theorem withStack_withStack (st : State) (frames others : List LoopFrame) :
    withStack (withStack st frames) others = withStack st others := rfl

@[simp] theorem withStack_stack (st : State) : withStack st (stack st) = st := by
  rw [withStack, stack, List.reverse_reverse]

theorem withStack_undo (st : State) (frames : List LoopFrame) (n : Nat) :
    (withStack st frames).undo n = withStack (st.undo n) frames := by
  induction n generalizing st with
  | zero => rfl
  | succ n ih =>
      have hlast : (withStack st frames).undoLast = withStack st.undoLast frames := by
        have hback : (withStack st frames).journal.back? = st.journal.back? := rfl
        rw [State.undoLast, State.undoLast, hback]
        cases st.journal.back? <;> rfl
      rw [State.undo, State.undo, hlast, ih]

/-- Writes are undone whatever the stack is. -/
theorem withStack_rollback (st : State) (frames : List LoopFrame) (mark : Nat) :
    (withStack st frames).rollback mark = withStack (st.rollback mark) frames :=
  withStack_undo st frames _

-- What fails with other frames on the stack is undone when the frames are back.
theorem rollback_of_recovers (st later : State) (frames : List LoopFrame)
    (h : Recovers (withStack st frames) later) :
    stack later = frames ∧ (withStack later (stack st)).rollback st.mark = st := by
  constructor
  · rw [stack, h.frames]
    exact List.reverse_reverse frames
  · have hback : later.rollback st.mark = withStack st frames := h.rollback
    rw [withStack_rollback, hback, withStack_withStack, withStack_stack]

/-- An attempt that leaves the state as it was, if it fails. -/
def settle (st : State) : Attempt → Attempt
  | .failed _ => .failed st
  | done => done

theorem settle_failed (st later : State) (a : Attempt) (h : settle st a = .failed later) :
    later = st := by
  cases a with
  | failed mid => exact (Attempt.failed.inj h).symm
  | matched stop mid => exact absurd h (by simp only [settle, reduceCtorEq, not_false_eq_true])
  | fault f => exact absurd h (by simp only [settle, reduceCtorEq, not_false_eq_true])

/-- A try that undoes its writes settles, if they can be undone. -/
theorem undoing_settles (way : State → Attempt) (st : State)
    (hway : ∀ later, way st = .failed later → Recovers st later) :
    undoing st.mark way st = settle st (way st) := by
  rw [undoing]
  cases hresult : way st with
  | failed later => exact congrArg Attempt.failed (hway later hresult).rollback
  | matched stop later => rfl
  | fault f => rfl

/-- Tries in turn leave the state as it was if each of them does. -/
theorem inTurn_failed (ways : List (State → Attempt)) (st later : State)
    (hways : ∀ way ∈ ways, ∀ later, way st = .failed later → later = st)
    (h : inTurn ways st = .failed later) : later = st := by
  induction ways with
  | nil => exact (Attempt.failed.inj h).symm
  | cons way others ih =>
      rw [inTurn] at h
      cases hway : way st with
      | failed mid =>
          rw [hway, hways way List.mem_cons_self mid hway] at h
          exact ih (fun w hw => hways w (List.mem_cons_of_mem way hw)) h
      | matched stop mid =>
          rw [hway] at h
          exact absurd h (by simp only [reduceCtorEq, not_false_eq_true])
      | fault f =>
          rw [hway] at h
          exact absurd h (by simp only [reduceCtorEq, not_false_eq_true])

-- The ways of a choice that leaves the stack alone.
theorem inTurn_undoing_failed {ι : Type} (items : List ι) (way : ι → State → Attempt)
    (st later : State) (hway : ∀ x later, way x st = .failed later → Recovers st later)
    (h : inTurn (items.map fun x => undoing st.mark (way x)) st = .failed later) :
    later = st := by
  refine inTurn_failed _ st later (fun w hw mid hmid => ?_) h
  rcases List.mem_map.1 hw with ⟨x, _, rfl⟩
  rw [undoing_settles (way x) st (hway x)] at hmid
  exact settle_failed st mid _ hmid

/-- Repeating a counted body is a choice between the counts up to the longest row, of
    which there are none if the row is too short. -/
theorem repeatCounted_inTurn (env : Env) (go : Continuation) (body : List Operation)
    (width : Nat) (q : Quantifier) (next pos : Nat) (st : State) :
    repeatCounted env go body width q next pos st =
      inTurn ((counts q.greedy q.min (mostIterations env body width q pos)).map fun k =>
        undoing st.mark (leaveAfter go body width next pos k)) st := by
  by_cases hmost : mostIterations env body width q pos < q.min
  · rw [counts_of_lt _ _ _ hmost]
    exact if_pos hmost
  · exact if_neg hmost

section Choices

variable {go : Continuation} (hgo : Undoable go)

include hgo

theorem alternatives_failed (program : Program) (first pos : Nat) (st later : State)
    (h : alternatives go program first pos st = .failed later) : later = st :=
  inTurn_undoing_failed _ (fun branch => go (branch + 1) pos) st later
    (fun branch => hgo (branch + 1) pos st) h

theorem anyString_failed (env : Env) (next pos : Nat) (st later : State)
    (h : anyString env go next pos st = .failed later) : later = st :=
  inTurn_undoing_failed _ (fun stop => go next stop) st later
    (fun stop => hgo next stop st) h

theorem repeatCounted_failed (env : Env) (body : List Operation) (width : Nat) (q : Quantifier)
    (next pos : Nat) (st later : State)
    (h : repeatCounted env go body width q next pos st = .failed later) : later = st := by
  rw [repeatCounted_inTurn] at h
  -- The groups of the last iteration are written before the run goes on.
  exact inTurn_undoing_failed _ (leaveAfter go body width next pos) st later
    (fun k mid hmid =>
      Recovers.trans _ _ _ (recovers_counted body st _ k) (hgo _ _ _ mid hmid)) h

/-- Another iteration settles: its frame stands where it stood, and what was changed in it
    is overwritten. -/
theorem loopRepeat_settles (quantifierAt idx pos : Nat) (st : State) (frame : LoopFrame)
    (hframe : (stack st)[idx]? = some frame) :
    loopRepeat go quantifierAt idx pos st =
      settle st (go (quantifierAt + 1) pos
        (withStack st ((stack st).set idx { frame with start := pos }))) := by
  rcases List.getElem?_eq_some_iff.1 hframe with ⟨hidx, hget⟩
  simp only [loopRepeat, hframe]
  cases hresult : go (quantifierAt + 1) pos
      (withStack st ((stack st).set idx { frame with start := pos })) with
  | failed later =>
      rcases rollback_of_recovers st later _ (hgo _ _ _ later hresult) with ⟨hstack, hback⟩
      have hlength : idx < (stack later).length := by
        rwa [hstack, List.length_set]
      simp only [if_pos hlength, settle]
      rw [hstack, List.set_set, ← hget, List.set_getElem_self, hback]
  | matched stop later => rfl
  | fault f => rfl

/-- The way out settles: the frame is put in again where it was taken from. -/
theorem loopExit_settles (quantifierAt idx next pos : Nat) (st : State) (frame : LoopFrame)
    (hframe : (stack st)[idx]? = some frame) :
    loopExit go quantifierAt idx next pos st =
      settle st (go next pos (withStack st ((stack st).eraseIdx idx))) := by
  rcases List.getElem?_eq_some_iff.1 hframe with ⟨hidx, hget⟩
  simp only [loopExit, hframe]
  cases hresult : go next pos (withStack st ((stack st).eraseIdx idx)) with
  | failed later =>
      rcases rollback_of_recovers st later _ (hgo _ _ _ later hresult) with ⟨hstack, hback⟩
      have hlength : idx ≤ (stack later).length := by
        rw [hstack, List.length_eraseIdx_of_lt hidx]
        omega
      simp only [if_pos hlength, settle]
      rw [hstack, ← hget, List.insertIdx_eraseIdx_getElem hidx, hback]
  | matched stop later => rfl
  | fault f => rfl

theorem loopRepeat_failed (quantifierAt idx pos : Nat) (st later : State)
    (h : loopRepeat go quantifierAt idx pos st = .failed later) : later = st := by
  cases hframe : (stack st)[idx]? with
  | none => simp only [loopRepeat, hframe, reduceCtorEq] at h
  | some frame =>
      rw [loopRepeat_settles hgo quantifierAt idx pos st frame hframe] at h
      exact settle_failed st later _ h

theorem loopExit_failed (quantifierAt idx next pos : Nat) (st later : State)
    (h : loopExit go quantifierAt idx next pos st = .failed later) : later = st := by
  cases hframe : (stack st)[idx]? with
  | none => simp only [loopExit, hframe, reduceCtorEq] at h
  | some frame =>
      rw [loopExit_settles hgo quantifierAt idx next pos st frame hframe] at h
      exact settle_failed st later _ h

theorem loopStep_failed (q : Quantifier) (quantifierAt idx next pos : Nat)
    (mayRepeat mayLeave : Bool) (st later : State)
    (h : loopStep go q quantifierAt idx next pos mayRepeat mayLeave st = .failed later) :
    later = st := by
  refine inTurn_failed _ st later (fun way hway mid hmid => ?_) h
  rw [mem_preferred, mem_allowed, mem_allowed] at hway
  rcases hway with ⟨_, rfl⟩ | ⟨_, rfl⟩
  · exact loopRepeat_failed hgo quantifierAt idx pos st mid hmid
  · exact loopExit_failed hgo quantifierAt idx next pos st mid hmid

/-- A quantifier that fails has cut off the frame that it pushed. -/
theorem enterLoop_failed (q : Quantifier) (pc next pos : Nat) (st later : State)
    (h : enterLoop go q pc next pos st = .failed later) : later = st := by
  unfold enterLoop at h
  dsimp only at h
  split at h
  · rename_i mid hmid
    rw [loopStep_failed hgo q pc _ next pos _ _ _ mid hmid, stack_withStack,
      List.take_left, withStack_withStack, withStack_stack] at h
    exact (Attempt.failed.inj h).symm
  · rename_i hnot
    exact absurd h (hnot later)

theorem stepQuantifier_failed (env : Env) (q : Quantifier) (pc loopAt pos : Nat)
    (st later : State) (h : stepQuantifier env go q pc loopAt pos st = .failed later) :
    later = st := by
  unfold stepQuantifier at h
  split at h
  · exact absurd h (by simp only [reduceCtorEq, not_false_eq_true])
  · dsimp only at h
    split at h
    · exact repeatCounted_failed hgo env _ _ q _ pos st later h
    · exact enterLoop_failed hgo q pc _ pos st later h

/-- A loop that fails has taken back the iteration that it counted. -/
theorem endIteration_failed (q : Quantifier) (quantifierAt idx next pos : Nat)
    (frame : LoopFrame) (st later : State) (hframe : (stack st)[idx]? = some frame)
    (h : endIteration go q quantifierAt idx next pos frame st = .failed later) :
    later = st := by
  rcases List.getElem?_eq_some_iff.1 hframe with ⟨hidx, hget⟩
  unfold endIteration at h
  dsimp only at h
  split at h
  · rename_i mid hmid
    rw [loopStep_failed hgo q quantifierAt idx next pos _ _ _ mid hmid, stack_withStack,
      List.getElem?_set_self hidx] at h
    simp only [List.set_set, withStack_withStack] at h
    rw [show { frame with count := frame.count } = (stack st)[idx] from hget.symm,
      List.set_getElem_self, withStack_stack] at h
    exact (Attempt.failed.inj h).symm
  · rename_i hnot
    exact absurd h (hnot later)

theorem stepLoop_failed (env : Env) (pc quantifierAt next pos : Nat) (st later : State)
    (h : stepLoop env go pc quantifierAt next pos st = .failed later) : later = st := by
  unfold stepLoop at h
  split at h
  · split at h
    · split at h
      · rename_i frame hframe
        exact endIteration_failed hgo _ quantifierAt _ next pos frame st later hframe h
      · exact absurd h (by simp only [reduceCtorEq, not_false_eq_true])
    · exact absurd h (by simp only [reduceCtorEq, not_false_eq_true])
  · exact absurd h (by simp only [reduceCtorEq, not_false_eq_true])

/-- A step that fails can be undone if the rest of the run can. -/
theorem step_undoable (env : Env) : Undoable (step env go) := by
  intro pc pos st later h
  unfold step at h
  split at h
  · exact absurd h (by simp only [reduceCtorEq, not_false_eq_true])
  · split at h
    · exact absurd h (by simp only [reduceCtorEq, not_false_eq_true])
    · split at h
      · exact Recovers.of_eq st later (alternatives_failed hgo _ pc pos st later h)
      · exact Recovers.of_eq st later (anyString_failed hgo env _ pos st later h)
      · exact Recovers.of_eq st later (stepQuantifier_failed hgo env _ pc _ pos st later h)
      · exact Recovers.of_eq st later (stepLoop_failed hgo env pc _ _ pos st later h)
      · -- Without a choice the step is that of the machine with reverted ways.
        exact step_recovers hgo env pc pos st later h

end Choices

/-- A run that fails can be undone, and the stack is what it was. -/
theorem run_undoable (env : Env) (fuel : Nat) : Undoable (run env fuel) := by
  induction fuel with
  | zero =>
      intro pc pos st later h
      exact absurd h (by simp only [run, reduceCtorEq, not_false_eq_true])
  | succ fuel ih => exact step_undoable ih env

end InPlace

end Machine

end ByteRegex

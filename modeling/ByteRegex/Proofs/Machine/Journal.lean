import ByteRegex.Proofs.Machine.Choices

/-!
# What a Failed Try Leaves Behind

The machine writes to its registers on ways that may lead nowhere, and counts on
the journal to undo the writes. `Recovers` says that this works: a state can be
rolled back to an earlier one, stack and all. Every write recovers, and to recover
is transitive, so the state in which a run fails recovers to the one in which the
run began.

`run_recovers` proves it for every program and whatever fuel there is. A step
either goes on from a state that recovers, or chooses with `firstOf`; and a choice
that fails hands back the very state in which it arose, because every way is
reverted. The other theorems on the machine speak of the ways one by one for that
reason: the second is tried as if the first had never been.

## Main definitions

* `Recovers`: A later state can be rolled back to an earlier one.
* `Reverts`: Reverting a failed way gives back the state at its beginning.

## Theorems

* `recovers_openGroup`, `recovers_closeGroup`, `recovers_recordCursor`: Every
  write can be undone.
* `recovers_recordGroups`: So can the writes of a counted iteration.
* `firstOf_failed`: A choice that fails leaves the state as it was.
* `againOrOut_failed`, `repeatCounted_failed`: So do the choices of a loop.
* `step_recovers`: A step keeps what the rest of the run is assumed to do.
* `run_recovers`: A run that fails can be undone.
-/

namespace ByteRegex

namespace Machine

namespace State

theorem undoLast_openGroup (st : State) (n : GroupNumber) (pos : Nat) :
    (st.openGroup n pos).undoLast = st := by
  rw [undoLast, openGroup, Array.back?_push]
  simp only [Overwritten.restore, Registers.openGroup, Array.pop_push, Fin.getElem_fin,
    Vector.set_set, Vector.set_getElem_self]

theorem undoLast_closeGroup (st : State) (n : GroupNumber) (pos start : Nat)
    (h : getElem st.registers.opened n n.isLt = some start) :
    (st.closeGroup n pos).undoLast = st := by
  rw [undoLast, closeGroup, h]
  simp only [Array.back?_push, Overwritten.restore, Registers.closeGroup, h, Array.pop_push,
    Fin.getElem_fin, Vector.set_set, Vector.set_getElem_self]

theorem undoLast_recordCursor (st : State) (pos : Nat) :
    (st.recordCursor pos).undoLast = st := by
  rw [undoLast, recordCursor, Array.back?_push]
  simp only [Overwritten.restore, Registers.recordCursor, Array.pop_push]

theorem undo_add (st : State) (m n : Nat) : st.undo (m + n) = (st.undo m).undo n := by
  induction m generalizing st with
  | zero => rw [Nat.zero_add, undo]
  | succ m ih => rw [Nat.succ_add, undo, undo, ih]

-- The stack takes no part in undoing.
theorem undo_frames (st : State) (n : Nat) : (st.undo n).frames = st.frames := by
  induction n generalizing st with
  | zero => rfl
  | succ n ih =>
      rw [undo, ih, undoLast]
      split <;> rfl

end State

/-- From `later` one can roll back to `st`, which is marked by the length of its
    journal. -/
structure Recovers (st later : State) : Prop where
  mark_le : st.mark ≤ later.mark
  rollback : later.rollback st.mark = st

theorem Recovers.refl (st : State) : Recovers st st where
  mark_le := Nat.le_refl _
  rollback := by rw [State.rollback, State.mark, Nat.sub_self, State.undo]

theorem Recovers.of_eq (st later : State) (h : later = st) : Recovers st later :=
  h ▸ Recovers.refl st

-- To roll back past a state is to roll back to it and on from there.
theorem Recovers.trans (st mid later : State) (h : Recovers st mid) (hmid : Recovers mid later) :
    Recovers st later where
  mark_le := Nat.le_trans h.mark_le hmid.mark_le
  rollback := by
    have hle := h.mark_le
    have hmle := hmid.mark_le
    have hsteps : later.journal.size - st.mark
        = (later.journal.size - mid.mark) + (mid.journal.size - st.mark) := by
      unfold State.mark at hle hmle ⊢
      omega
    have hback := hmid.rollback
    unfold State.rollback at hback
    rw [State.rollback, hsteps, State.undo_add, hback]
    exact h.rollback

-- The stack is what it was.
theorem Recovers.frames (st later : State) (h : Recovers st later) :
    later.frames = st.frames := by
  rw [← State.undo_frames later (later.journal.size - st.mark)]
  exact congrArg State.frames h.rollback

-- A single write recovers if undoing it gives back the state before.
theorem recovers_write (st later : State) (hsize : later.journal.size = st.journal.size + 1)
    (h : later.undoLast = st) : Recovers st later where
  mark_le := by
    unfold State.mark
    omega
  rollback := by
    rw [State.rollback, State.mark, hsize, Nat.add_sub_cancel_left, State.undo, h, State.undo]

theorem recovers_openGroup (st : State) (n : GroupNumber) (pos : Nat) :
    Recovers st (st.openGroup n pos) :=
  recovers_write _ _ (Array.size_push _) (st.undoLast_openGroup n pos)

theorem recovers_closeGroup (st : State) (n : GroupNumber) (pos : Nat) :
    Recovers st (st.closeGroup n pos) := by
  cases h : st.registers.opened[n] with
  | none =>
      rw [State.closeGroup, h]
      exact Recovers.refl st
  | some start =>
      refine recovers_write _ _ ?_ (st.undoLast_closeGroup n pos start h)
      rw [State.closeGroup, h]
      exact Array.size_push _

theorem recovers_recordCursor (st : State) (pos : Nat) : Recovers st (st.recordCursor pos) :=
  recovers_write _ _ (Array.size_push _) (st.undoLast_recordCursor pos)

/-- The groups of a counted iteration are written one after the other. -/
theorem recovers_recordGroups (body : List Operation) (st : State) (pos : Nat) :
    Recovers st (recordGroups pos st body) := by
  fun_induction recordGroups pos st body with
  | case1 => exact Recovers.refl _
  | case2 pos st n rest ih => exact Recovers.trans _ _ _ (recovers_openGroup st n pos) ih
  | case3 pos st n rest ih => exact Recovers.trans _ _ _ (recovers_closeGroup st n pos) ih
  | case4 pos st op rest _ _ ih => exact ih

-- After no iteration there is nothing to record.
theorem recovers_counted (body : List Operation) (st : State) (pos k : Nat) :
    Recovers st (if k = 0 then st else recordGroups pos st body) := by
  by_cases hk : k = 0
  · rw [if_pos hk]
    exact Recovers.refl st
  · rw [if_neg hk]
    exact recovers_recordGroups body st pos

/-- Reverting a failed way gives back the state at its beginning. -/
def Reverts (way : State → Attempt) (st : State) : Prop :=
  ∀ later, way st = .failed later → reverting way st = .failed st

-- A way may change the stack before it sets out.
theorem reverts_of_recovers (way : State → Attempt) (st : State) (frames : List LoopFrame)
    (h : ∀ later, way st = .failed later → Recovers { st with frames := frames } later) :
    Reverts way st := by
  intro later hway
  have hback : later.rollback st.mark = { st with frames := frames } := (h later hway).rollback
  rw [reverting, hway]
  simp only [hback]

-- A way of a choice that begins by going on is undone with what it goes on to.
theorem reverts_of_recovers_self (way : State → Attempt) (st : State)
    (h : ∀ later, way st = .failed later → Recovers st later) : Reverts way st :=
  reverts_of_recovers way st st.frames h

-- Reverting changes nothing about a way that does not fail.
theorem reverting_of_not_failed (way : State → Attempt) (st : State)
    (h : ∀ later, way st ≠ .failed later) : reverting way st = way st := by
  rw [reverting]
  cases hway : way st with
  | failed later => exact absurd hway (h later)
  | matched stop later => rfl
  | fault f => rfl

/-- A choice that fails leaves the state as it was. -/
theorem firstOf_failed (ways : List (State → Attempt)) (st later : State)
    (hways : ∀ way ∈ ways, Reverts way st) (h : firstOf ways st = .failed later) :
    later = st := by
  induction ways with
  | nil => exact (Attempt.failed.inj h).symm
  | cons way others ih =>
      have hothers := ih (fun w hw => hways w (List.mem_cons_of_mem way hw))
      rw [firstOf] at h
      by_cases hfail : ∃ mid, way st = .failed mid
      · rcases hfail with ⟨mid, hmid⟩
        rw [hways way List.mem_cons_self mid hmid] at h
        exact hothers h
      · have hnot : ∀ mid, way st ≠ .failed mid := fun mid hmid => hfail ⟨mid, hmid⟩
        rw [reverting_of_not_failed way st hnot] at h
        cases hway : way st with
        | failed mid => exact absurd hway (hnot mid)
        | matched stop mid =>
            rw [hway] at h
            exact absurd h (by simp only [reduceCtorEq, not_false_eq_true])
        | fault f =>
            rw [hway] at h
            exact absurd h (by simp only [reduceCtorEq, not_false_eq_true])

/-- What is assumed of the rest of a run: if it fails, it can be undone. -/
def Undoable (go : Continuation) : Prop :=
  ∀ pc pos st later, go pc pos st = .failed later → Recovers st later

section Steps

variable {go : Continuation}

-- So a choice whose ways revert can be undone.
theorem firstOf_recovers (ways : List (State → Attempt)) (st later : State)
    (hways : ∀ way ∈ ways, Reverts way st) (h : firstOf ways st = .failed later) :
    Recovers st later :=
  Recovers.of_eq st later (firstOf_failed ways st later hways h)

-- The ways of a choice that go on somewhere else from the same state.
theorem reverts_map {ι : Type} (hgo : Undoable go) (items : List ι) (pc pos : ι → Nat)
    (st : State) :
    ∀ way ∈ items.map fun x => go (pc x) (pos x), Reverts way st := by
  intro way hway
  rcases List.mem_map.1 hway with ⟨x, _, rfl⟩
  exact reverts_of_recovers_self _ st (hgo _ _ st)

-- A way that goes on with other frames on the stack.
theorem reverts_withFrames (hgo : Undoable go) (pc pos : Nat) (frames : List LoopFrame)
    (st : State) : Reverts (fun st => go pc pos { st with frames := frames }) st :=
  reverts_of_recovers _ st frames (hgo pc pos _)

-- Another iteration and the way out, in either order, as far as they are allowed.
theorem reverts_preferred (first mayRepeat mayLeave : Bool) (again out : State → Attempt)
    (st : State) (hagain : Reverts again st) (hout : Reverts out st) :
    ∀ way ∈ (if first then
        (if mayRepeat then [again] else []) ++ (if mayLeave then [out] else [])
      else (if mayLeave then [out] else []) ++ (if mayRepeat then [again] else [])),
      Reverts way st := by
  intro way hway
  rw [mem_preferred, mem_allowed, mem_allowed] at hway
  rcases hway with ⟨_, rfl⟩ | ⟨_, rfl⟩
  · exact hagain
  · exact hout

-- The counts of a row of iterations, of which the last records its groups.
theorem reverts_counted (hgo : Undoable go) (ks : List Nat) (body : List Operation)
    (width next pos : Nat) (st : State) :
    ∀ way ∈ ks.map fun k st => go next (pos + k * width)
        (if k = 0 then st else recordGroups (pos + (k - 1) * width) st body),
      Reverts way st := by
  intro way hway
  rcases List.mem_map.1 hway with ⟨k, _, rfl⟩
  refine reverts_of_recovers_self _ st fun later hlater => ?_
  exact Recovers.trans _ _ _ (recovers_counted body st _ k) (hgo _ _ _ later hlater)

theorem againOrOut_failed (hgo : Undoable go) (q : Quantifier) (pc next pos count : Nat)
    (below : List LoopFrame) (mayRepeat mayLeave : Bool) (st later : State)
    (h : againOrOut go q pc next pos count below mayRepeat mayLeave st = .failed later) :
    later = st :=
  firstOf_failed _ st later (reverts_preferred _ _ _ _ _ st
    (reverts_withFrames hgo (pc + 1) pos (⟨pc, count, pos⟩ :: below) st)
    (reverts_withFrames hgo next pos below st)) h

theorem repeatCounted_failed (hgo : Undoable go) (env : Env) (body : List Operation)
    (width : Nat) (q : Quantifier) (next pos : Nat) (st later : State)
    (h : repeatCounted env go body width q next pos st = .failed later) : later = st := by
  rw [repeatCounted_eq] at h
  exact firstOf_failed _ st later (reverts_counted hgo _ body width next pos st) h

-- A test goes on or fails on the spot.
theorem ite_recovers (hgo : Undoable go) (passed : Bool) (pc pos : Nat) (st later : State)
    (h : (if passed then go pc pos st else .failed st) = .failed later) : Recovers st later := by
  cases passed with
  | true => exact hgo pc pos st later h
  | false =>
      rw [← Attempt.failed.inj h]
      exact Recovers.refl st

theorem quantifier_recovers (hgo : Undoable go) (env : Env) (q : Quantifier)
    (pc loopAt pos : Nat) (st later : State)
    (h : stepQuantifier env go q pc loopAt pos st = .failed later) : Recovers st later := by
  unfold stepQuantifier at h
  cases hloop : env.program.at? loopAt with
  | none =>
      rw [hloop] at h
      exact absurd h (by simp only [reduceCtorEq, not_false_eq_true])
  | some loop =>
      simp only [hloop] at h
      cases hwidth : countedWidth? (bodyOf env.program (pc + 1) loopAt) with
      | some width =>
          rw [hwidth] at h
          exact Recovers.of_eq st later (repeatCounted_failed hgo env _ width q _ pos st later h)
      | none =>
          rw [hwidth] at h
          exact Recovers.of_eq st later (againOrOut_failed hgo q pc _ pos _ _ _ _ st later h)

theorem loop_recovers (hgo : Undoable go) (env : Env) (pc quantifierAt next pos : Nat)
    (st later : State) (h : stepLoop env go pc quantifierAt next pos st = .failed later) :
    Recovers st later := by
  unfold stepLoop at h
  split at h
  · split at h
    · split at h
      · exact Recovers.of_eq st later
          (againOrOut_failed hgo _ quantifierAt next pos _ _ _ _ st later h)
      · exact absurd h (by simp only [reduceCtorEq, not_false_eq_true])
    · exact absurd h (by simp only [reduceCtorEq, not_false_eq_true])
  · exact absurd h (by simp only [reduceCtorEq, not_false_eq_true])

/-- A step that fails can be undone if the rest of the run can. -/
theorem step_recovers (hgo : Undoable go) (env : Env) : Undoable (step env go) := by
  intro pc pos st later h
  unfold step at h
  cases hop : env.program.at? pc with
  | none =>
      rw [hop] at h
      exact absurd h (by simp only [reduceCtorEq, not_false_eq_true])
  | some x =>
      rcases x with ⟨op, next, partner⟩
      rw [hop] at h
      by_cases hpos : env.text.size < pos
      · simp only [if_pos hpos, reduceCtorEq] at h
      · simp only [if_neg hpos] at h
        -- An operation fails by itself, through a choice, or through what follows it.
        cases op with
        | finish => exact absurd h (by simp only [reduceCtorEq, not_false_eq_true])
        | branchEnd => exact hgo _ _ _ later h
        | branch =>
            exact firstOf_recovers _ st later (reverts_map hgo _ (· + 1) (fun _ => pos) st) h
        | literal word table => exact ite_recovers hgo _ _ _ st later h
        | set s => exact ite_recovers hgo _ _ _ st later h
        | anyChar => exact ite_recovers hgo _ _ _ st later h
        | anchor a => exact ite_recovers hgo _ _ _ st later h
        | cursor =>
            -- A write comes before the rest of the run, so it is undone after it.
            exact Recovers.trans _ _ _ (recovers_recordCursor st pos) (hgo _ _ _ later h)
        | anyString =>
            exact firstOf_recovers _ st later (reverts_map hgo _ (fun _ => next) id st) h
        | openGroup n =>
            exact Recovers.trans _ _ _ (recovers_openGroup st n pos) (hgo _ _ _ later h)
        | closeGroup n =>
            exact Recovers.trans _ _ _ (recovers_closeGroup st n pos) (hgo _ _ _ later h)
        | quantifier q =>
            cases partner with
            | some loopAt => exact quantifier_recovers hgo env q pc loopAt pos st later h
            | none => exact absurd h (by simp only [reduceCtorEq, not_false_eq_true])
        | loop =>
            cases partner with
            | some quantifierAt => exact loop_recovers hgo env pc quantifierAt next pos st later h
            | none => exact absurd h (by simp only [reduceCtorEq, not_false_eq_true])

end Steps

/-- A run that fails can be undone, whatever the program and the fuel. -/
theorem run_recovers (env : Env) (fuel : Nat) : Undoable (run env fuel) := by
  induction fuel with
  | zero =>
      intro pc pos st later h
      exact absurd h (by simp only [run, reduceCtorEq, not_false_eq_true])
  | succ fuel ih => exact step_recovers ih env

end Machine

end ByteRegex

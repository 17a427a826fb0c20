import ByteRegex.Proofs.Machine.InPlace
import ByteRegex.Proofs.Search.Bounds

/-!
# Failed Attempts Leave No Trace

The machine that changes its state in place does what the machine does that keeps back
what it needs. The two differ in what a failed try does to get back, and not in what it
gets back to, so their choices mirror each other: tries fail together, each leaving its
machine where it was, and otherwise end alike.

Between a quantifier and its loop the states are not the same. In place a frame is
already pushed, or its count already raised, when the loop chooses; the other machine
puts the frame on the stack with the way that it takes. `Mirrors` allows for that, as it
speaks of two states in which tries fail. When the choice has failed the frame goes or
the count falls, and the states agree again.

The machines part only where one of them stops with a fault of its own, since a loop
whose frame is not on top is looked for deeper in the stack in place. No run of a
compiled program comes to such a loop. So in every state that a search leads to, the runs
in place are those of the machine, and what fails there leaves no trace.

## Main definitions

* `Mirrors`: Tries from two states that fail together and else end alike.
* `Follows`: An attempt that ends like another, unless that has a fault of its own.
* `Restores`: What a failed run leaves behind.

## Theorems

* `inTurn_mirrors`: Tries in turn mirror each other if they do one by one.
* `loopStep_mirrors`: The choice of a loop does, above its frame.
* `step_follows`, `run_follows`: In place a run ends like one of the machine.
* `restores_of_recovers`: What can be undone leaves the stack alone.
* `failed_traceless`: A failed attempt of a compiled program leaves no trace.
-/

namespace ByteRegex

namespace Machine

namespace InPlace

/-- How tries from two states end: both fail and leave their states as they were, or both
    end alike, or the first goes astray. -/
inductive Mirrors (st st' : State) : Attempt → Attempt → Prop
  | failed : Mirrors st st' (.failed st) (.failed st')
  | matched (stop : Nat) (later : State) :
      Mirrors st st' (.matched stop later) (.matched stop later)
  | fault (f : Fault) : Mirrors st st' (.fault f) (.fault f)
  | astray (f : Fault) (a : Attempt) (h : f ≠ .exhausted) : Mirrors st st' (.fault f) a

/-- An attempt ends like another, unless that goes astray. -/
def Follows (a a' : Attempt) : Prop := a' = a ∨ ∃ f, a = .fault f ∧ f ≠ .exhausted

theorem Follows.refl (a : Attempt) : Follows a a := Or.inl rfl

theorem Follows.astray (f : Fault) (a : Attempt) (h : f ≠ .exhausted) : Follows (.fault f) a :=
  Or.inr ⟨f, rfl, h⟩

-- A test goes on or fails on the spot.
theorem Follows.test (passed : Bool) (a a' : Attempt) (st : State) (h : Follows a a') :
    Follows (if passed then a else .failed st) (if passed then a' else .failed st) := by
  cases passed with
  | true => exact h
  | false => exact Follows.refl _

-- Tries from one state that mirror each other end alike.
theorem Mirrors.follows (st : State) (a a' : Attempt) (h : Mirrors st st a a') : Follows a a' := by
  cases h with
  | failed => exact Follows.refl _
  | matched stop later => exact Follows.refl _
  | fault f => exact Follows.refl _
  | astray f a hf => exact Follows.astray f _ hf

-- What ends alike mirrors each other once the states are restored.
theorem settle_mirrors (st st' : State) (a a' : Attempt) (h : Follows a a') :
    Mirrors st st' (settle st a) (settle st' a') := by
  rcases h with rfl | ⟨f, rfl, hf⟩
  · cases a' with
    | failed later => exact .failed
    | matched stop later => exact .matched stop later
    | fault f => exact .fault f
  · exact .astray f _ hf

-- Reverting settles as well, if the way can be undone with the frames that it changes.
theorem reverting_settles (way : State → Attempt) (st : State) (h : Reverts way st) :
    reverting way st = settle st (way st) := by
  cases hway : way st with
  | failed later => exact h later hway
  | matched stop later => simp only [reverting, hway, settle]
  | fault f => simp only [reverting, hway, settle]

/-- Tries in turn mirror each other if they do one by one. -/
theorem inTurn_mirrors (st st' : State) (ways ways' : List (State → Attempt))
    (h : List.Forall₂ (fun way way' => Mirrors st st' (reverting way st) (way' st')) ways ways') :
    Mirrors st st' (firstOf ways st) (inTurn ways' st') := by
  induction h with
  | nil => exact .failed
  | @cons way way' _ _ hway _ ih =>
      rw [firstOf, inTurn]
      revert hway
      generalize reverting way st = a
      generalize way' st' = a'
      intro hway
      cases hway with
      | failed => exact ih
      | matched stop later => exact .matched stop later
      | fault f => exact .fault f
      | astray f a hf => exact .astray f _ hf

-- The ways of a choice that leaves the stack alone.
theorem inTurn_undoing_follows {ι : Type} (items : List ι) (way way' : ι → State → Attempt)
    (st : State) (hway : ∀ x later, way x st = .failed later → Recovers st later)
    (hway' : ∀ x later, way' x st = .failed later → Recovers st later)
    (h : ∀ x, Follows (way x st) (way' x st)) :
    Follows (firstOf (items.map way) st)
      (inTurn (items.map fun x => undoing st.mark (way' x)) st) := by
  refine (inTurn_mirrors st st _ _ ?_).follows
  rw [List.forall₂_map_left_iff, List.forall₂_map_right_iff, List.forall₂_same]
  intro x _
  rw [reverting_settles _ st (reverts_of_recovers_self _ st (hway x)),
    undoing_settles _ st (hway' x)]
  exact settle_mirrors st st _ _ (h x)

-- The frame on top has the highest index.
theorem getElem?_stack_top (st : State) (top : LoopFrame) (below : List LoopFrame)
    (h : st.frames = top :: below) : (stack st)[below.length]? = some top := by
  rw [stack, h, List.reverse_cons, List.getElem?_append_right (Nat.le_of_eq List.length_reverse),
    List.length_reverse, Nat.sub_self]
  rfl

theorem withStack_set_top (st : State) (top other : LoopFrame) (below : List LoopFrame)
    (h : st.frames = top :: below) :
    withStack st ((stack st).set below.length other) = { st with frames := other :: below } := by
  rw [withStack, stack, h, List.reverse_cons,
    List.set_append_right _ _ (Nat.le_of_eq List.length_reverse), List.length_reverse, Nat.sub_self,
    List.set_cons_zero, List.reverse_append, List.reverse_reverse]
  rfl

theorem withStack_erase_top (st : State) (top : LoopFrame) (below : List LoopFrame)
    (h : st.frames = top :: below) :
    withStack st ((stack st).eraseIdx below.length) = { st with frames := below } := by
  rw [withStack, stack, h, List.reverse_cons,
    List.eraseIdx_append_of_length_le (Nat.le_of_eq List.length_reverse), List.length_reverse,
    Nat.sub_self, List.eraseIdx_cons_zero, List.append_nil, List.reverse_reverse]

section Steps

variable {go go' : Continuation} (hgo : Undoable go) (hgo' : Undoable go')
  (hfollows : ∀ pc pos st, Follows (go pc pos st) (go' pc pos st))

include hgo hgo' hfollows

/-- The choice of a loop is the same in place, with the frame of the loop on top. -/
theorem loopStep_mirrors (q : Quantifier) (pc next pos count start : Nat)
    (below : List LoopFrame) (mayRepeat mayLeave : Bool) (st : State) :
    Mirrors st { st with frames := ⟨pc, count, start⟩ :: below }
      (againOrOut go q pc next pos count below mayRepeat mayLeave st)
      (loopStep go' q pc below.length next pos mayRepeat mayLeave
        { st with frames := ⟨pc, count, start⟩ :: below }) := by
  have hframe := getElem?_stack_top { st with frames := ⟨pc, count, start⟩ :: below } _ _ rfl
  have hagain : Mirrors st { st with frames := ⟨pc, count, start⟩ :: below }
      (reverting (fun st => go (pc + 1) pos { st with frames := ⟨pc, count, pos⟩ :: below }) st)
      (loopRepeat go' pc below.length pos
        { st with frames := ⟨pc, count, start⟩ :: below }) := by
    rw [reverting_settles _ st (reverts_withFrames hgo _ _ _ st),
      loopRepeat_settles hgo' _ _ _ _ _ hframe, withStack_set_top _ _ _ _ rfl]
    exact settle_mirrors _ _ _ _ (hfollows _ _ _)
  have hout : Mirrors st { st with frames := ⟨pc, count, start⟩ :: below }
      (reverting (fun st => go next pos { st with frames := below }) st)
      (loopExit go' pc below.length next pos
        { st with frames := ⟨pc, count, start⟩ :: below }) := by
    rw [reverting_settles _ st (reverts_withFrames hgo _ _ _ st),
      loopExit_settles hgo' _ _ _ _ _ _ hframe, withStack_erase_top _ _ _ rfl]
    exact settle_mirrors _ _ _ _ (hfollows _ _ _)
  rw [againOrOut, loopStep]
  refine inTurn_mirrors _ _ _ _ ?_
  cases mayRepeat <;> cases mayLeave <;> cases q.greedy
  all_goals simp only [if_true, if_false, Bool.false_eq_true, List.append_nil, List.nil_append,
    List.cons_append, List.forall₂_cons, List.Forall₂.nil, hagain, hout, and_self]

-- When the choice has failed the frame that was pushed is cut off.
theorem enterLoop_follows (q : Quantifier) (pc next pos : Nat) (st : State) :
    Follows (Machine.enterLoop go q pc next pos st) (enterLoop go' q pc next pos st) := by
  have hpushed : withStack st (stack st ++ [⟨pc, 0, pos⟩])
      = { st with frames := ⟨pc, 0, pos⟩ :: st.frames } := by
    rw [withStack, stack, List.reverse_append, List.reverse_reverse]
    rfl
  have hheight : (stack st).length = st.frames.length := List.length_reverse
  have hmirrors := loopStep_mirrors hgo hgo' hfollows q pc next pos 0 pos st.frames
    (q.max != some 0) (q.min == 0) st
  unfold Machine.enterLoop enterLoop
  dsimp only
  rw [hheight, hpushed]
  revert hmirrors
  generalize againOrOut go q pc next pos 0 st.frames _ _ st = a
  generalize loopStep go' q pc st.frames.length next pos _ _ _ = a'
  intro hmirrors
  cases hmirrors with
  | failed =>
      refine Or.inl (congrArg Attempt.failed ?_)
      rw [← hpushed, stack_withStack, ← hheight, List.take_left, withStack_withStack,
        withStack_stack]
  | matched stop later => exact Follows.refl _
  | fault f => exact Follows.refl _
  | astray f a hf => exact Follows.astray f _ hf

-- When the choice has failed the iteration that was counted is taken back.
theorem endIteration_follows (q : Quantifier) (next pos : Nat) (frame : LoopFrame)
    (below : List LoopFrame) (st : State) (hframes : st.frames = frame :: below) :
    Follows (Machine.endIteration go q frame.quantifier next pos frame below st)
      (endIteration go' q frame.quantifier below.length next pos frame st) := by
  have hmirrors := loopStep_mirrors hgo hgo' hfollows q frame.quantifier next pos
    (frame.count + 1) frame.start below
    ((pos != frame.start) && q.max.all (frame.count + 1 < ·))
    (q.min ≤ frame.count + 1 || !(pos != frame.start)) st
  unfold Machine.endIteration endIteration
  dsimp only
  rw [withStack_set_top st frame _ below hframes]
  revert hmirrors
  generalize againOrOut go q frame.quantifier next pos (frame.count + 1) below _ _ st = a
  generalize loopStep go' q frame.quantifier below.length next pos _ _ _ = a'
  intro hmirrors
  cases hmirrors with
  | failed =>
      simp only [getElem?_stack_top { st with frames := _ :: below } _ below rfl,
        withStack_set_top { st with frames := _ :: below } _ _ below rfl]
      exact Or.inl (congrArg Attempt.failed (by rw [← hframes]))
  | matched stop later => exact Follows.refl _
  | fault f => exact Follows.refl _
  | astray f a hf => exact Follows.astray f _ hf

theorem stepQuantifier_follows (env : Env) (q : Quantifier) (pc loopAt pos : Nat) (st : State) :
    Follows (Machine.stepQuantifier env go q pc loopAt pos st)
      (stepQuantifier env go' q pc loopAt pos st) := by
  unfold Machine.stepQuantifier stepQuantifier
  cases env.program.at? loopAt with
  | none => exact Follows.refl _
  | some loop =>
      dsimp only
      cases countedWidth? (bodyOf env.program (pc + 1) loopAt) with
      | some width =>
          dsimp only
          rw [repeatCounted_eq, repeatCounted_inTurn]
          refine inTurn_undoing_follows _ _ _ st (fun k later h => ?_) (fun k later h => ?_)
            (fun k => hfollows _ _ _)
          · exact Recovers.trans _ _ _ (recovers_counted _ st _ k) (hgo _ _ _ later h)
          · exact Recovers.trans _ _ _ (recovers_counted _ st _ k) (hgo' _ _ _ later h)
      | none => exact enterLoop_follows hgo hgo' hfollows q pc loop.next pos st

theorem stepLoop_follows (env : Env) (pc quantifierAt next pos : Nat) (st : State) :
    Follows (Machine.stepLoop env go pc quantifierAt next pos st)
      (stepLoop env go' pc quantifierAt next pos st) := by
  have hforeign : ∀ a, Follows (.fault (.foreignFrame pc)) a := fun a =>
    Follows.astray _ a (by simp only [ne_eq, reduceCtorEq, not_false_eq_true])
  have hunpaired : ∀ a, Follows (.fault (.unpaired pc)) a := fun a =>
    Follows.astray _ a (by simp only [ne_eq, reduceCtorEq, not_false_eq_true])
  unfold Machine.stepLoop stepLoop
  cases env.program.at? quantifierAt with
  | none => exact hunpaired _
  | some x =>
      rcases x with ⟨op, _, _⟩
      cases op with
      | quantifier q =>
          dsimp only
          cases hframes : st.frames with
          | nil => exact hforeign _
          | cons frame below =>
              dsimp only
              by_cases htop : frame.quantifier = quantifierAt
              · subst htop
                -- The innermost frame of the quantifier is the one on top.
                have hinnermost : innermost? st frame.quantifier = some below.length := by
                  rw [innermost?, hframes, List.findIdx?_cons, beq_self_eq_true, if_pos rfl,
                    Option.map_some, List.length_cons]
                  rfl
                simp only [if_true, hinnermost, getElem?_stack_top st frame below hframes]
                exact endIteration_follows hgo hgo' hfollows q next pos frame below st hframes
              · rw [if_neg htop]
                exact hforeign _
      | _ => exact hunpaired _

/-- A step in place ends like one of the machine if the rest of the run does. -/
theorem step_follows (env : Env) (pc pos : Nat) (st : State) :
    Follows (Machine.step env go pc pos st) (step env go' pc pos st) := by
  unfold step Machine.step
  cases env.program.at? pc with
  | none => exact Follows.refl _
  | some x =>
      rcases x with ⟨op, next, partner⟩
      by_cases hpos : env.text.size < pos
      · simp only [if_pos hpos]
        exact Follows.refl _
      · simp only [if_neg hpos]
        cases op with
        | finish => exact Follows.refl _
        | branchEnd => exact hfollows _ _ _
        | branch =>
            exact inTurn_undoing_follows _ _ _ st (fun _ => hgo _ _ st) (fun _ => hgo' _ _ st)
              (fun _ => hfollows _ _ _)
        | literal word table => exact Follows.test _ _ _ st (hfollows _ _ _)
        | set s => exact Follows.test _ _ _ st (hfollows _ _ _)
        | anyChar => exact Follows.test _ _ _ st (hfollows _ _ _)
        | anchor a => exact Follows.test _ _ _ st (hfollows _ _ _)
        | cursor => exact hfollows _ _ _
        | anyString =>
            exact inTurn_undoing_follows _ _ _ st (fun _ => hgo _ _ st) (fun _ => hgo' _ _ st)
              (fun _ => hfollows _ _ _)
        | openGroup n => exact hfollows _ _ _
        | closeGroup n => exact hfollows _ _ _
        | quantifier q =>
            cases partner with
            | none => exact Follows.refl _
            | some loopAt => exact stepQuantifier_follows hgo hgo' hfollows env q pc loopAt pos st
        | loop =>
            cases partner with
            | none => exact Follows.refl _
            | some quantifierAt =>
                exact stepLoop_follows hgo hgo' hfollows env pc quantifierAt next pos st

end Steps

/-- A run in place ends like one of the machine, unless that goes astray. -/
theorem run_follows (env : Env) (fuel pc pos : Nat) (st : State) :
    Follows (Machine.run env fuel pc pos st) (run env fuel pc pos st) := by
  induction fuel generalizing pc pos st with
  | zero => exact Follows.refl _
  | succ fuel ih =>
      exact step_follows (run_recovers env fuel) (run_undoable env fuel) ih env pc pos st

/-- What a failed run leaves behind: the stack as it was, a journal that has only grown,
    and registers that rolling it back restores. -/
structure Restores (st later : State) : Prop where
  frames : later.frames = st.frames
  journal : st.journal.toList <+: later.journal.toList
  registers : (later.rollback st.mark).registers = st.registers

-- Undoing takes entries off the end of the journal.
theorem undo_journal (st : State) (n : Nat) :
    (st.undo n).journal.toList <+: st.journal.toList := by
  induction n generalizing st with
  | zero => exact List.prefix_rfl
  | succ n ih =>
      have hlast : st.undoLast.journal.toList <+: st.journal.toList := by
        unfold State.undoLast
        cases st.journal.back? with
        | none => exact List.prefix_rfl
        | some w =>
            dsimp only
            rw [Array.toList_pop]
            exact List.dropLast_prefix _
      exact (ih st.undoLast).trans hlast

/-- What can be undone leaves the stack alone and the journal behind. -/
theorem restores_of_recovers (st later : State) (h : Recovers st later) :
    Restores st later where
  frames := h.frames
  journal := by
    have hprefix := undo_journal later (later.journal.size - st.mark)
    have hback : later.undo (later.journal.size - st.mark) = st := h.rollback
    rwa [hback] at hprefix
  registers := congrArg State.registers h.rollback

end InPlace

end Machine

open Machine

/-- Whatever pattern compiles, in whatever state the machine is, a failed attempt leaves no
    trace. A run that fails leaves the stack as it was and writes that can be undone; a
    choice that fails, whether between branches, lengths, counts, or another iteration and
    the way out, leaves the state as it was altogether. In every state that a search leads
    to, the run in place is that of the machine. -/
theorem failed_traceless (options : CompileOptions) (pattern : Bytes) (program : Program)
    (h : compile options pattern = .ok program) (text : Bytes) (flags : SearchFlags)
    (scan : ExactScan) :
    let env : Env := ⟨program, text, flags, scan⟩
    (∀ s, s ≤ text.size → ∀ c, Reached env s c → ∀ fuel (st : State), st.frames = c.frames →
      InPlace.run env fuel c.pc c.pos st = run env fuel c.pc c.pos st) ∧
    ∀ fuel (st later : State),
      (∀ pc pos, InPlace.run env fuel pc pos st = .failed later →
        InPlace.Restores st later) ∧
      (∀ first pos, InPlace.alternatives (InPlace.run env fuel) program first pos st
        = .failed later → later = st) ∧
      (∀ next pos, InPlace.anyString env (InPlace.run env fuel) next pos st
        = .failed later → later = st) ∧
      (∀ q pc loopAt pos, InPlace.stepQuantifier env (InPlace.run env fuel) q pc loopAt pos st
        = .failed later → later = st) ∧
      (∀ pc quantifierAt next pos,
        InPlace.stepLoop env (InPlace.run env fuel) pc quantifierAt next pos st
          = .failed later → later = st) ∧
      (∀ quantifierAt idx pos, InPlace.loopRepeat (InPlace.run env fuel) quantifierAt idx pos st
        = .failed later → later = st) ∧
      (∀ quantifierAt idx next pos,
        InPlace.loopExit (InPlace.run env fuel) quantifierAt idx next pos st
          = .failed later → later = st) := by
  intro env
  rcases compile_ok options pattern program h with ⟨t, ht, rfl⟩
  constructor
  · intro s hs c hc fuel st hst
    -- No run from there goes astray.
    rcases InPlace.run_follows env fuel c.pc c.pos st with hsame | ⟨f, hfault, hf⟩
    · exact hsame
    · have hplace := (trial_inBounds options t text flags scan s hs).1 c hc
      exact absurd (hplace.2.2 fuel st hst f hfault) hf
  · intro fuel st later
    have hrun := InPlace.run_undoable env fuel
    exact ⟨fun pc pos hfail => InPlace.restores_of_recovers st later (hrun pc pos st later hfail),
      fun first pos => InPlace.alternatives_failed hrun _ first pos st later,
      fun next pos => InPlace.anyString_failed hrun env next pos st later,
      fun q pc loopAt pos => InPlace.stepQuantifier_failed hrun env q pc loopAt pos st later,
      fun pc quantifierAt next pos =>
        InPlace.stepLoop_failed hrun env pc quantifierAt next pos st later,
      fun quantifierAt idx pos => InPlace.loopRepeat_failed hrun quantifierAt idx pos st later,
      fun quantifierAt idx next pos =>
        InPlace.loopExit_failed hrun quantifierAt idx next pos st later⟩

-- The pattern `(a)(b|c)*d` fails in `ab` with the first group closed and the loop left, and
-- both writes of the group can be undone.
theorem failed_traceless_open :
    ∃ program later, compile { dialect := .perl }
        #[0x28, 0x61, 0x29, 0x28, 0x62, 0x7C, 0x63, 0x29, 0x2A, 0x64] = .ok program ∧
      InPlace.run ⟨program, #[0x61, 0x62], {}, .walk⟩ 40 0 0 State.initial = .failed later ∧
      later.mark = 2 ∧ InPlace.Restores State.initial later := by
  -- The writes are those of the first group, and the choice of the loop has undone its own.
  let later := (State.initial.openGroup ⟨1, by decide⟩ 0).closeGroup ⟨1, by decide⟩ 1
  rcases exists_ok_of_any (compile { dialect := .perl }
      #[0x28, 0x61, 0x29, 0x28, 0x62, 0x7C, 0x63, 0x29, 0x2A, 0x64])
      (fun program =>
        InPlace.run ⟨program, #[0x61, 0x62], {}, .walk⟩ 40 0 0 State.initial == .failed later)
      (by decide +kernel) with ⟨program, h, hruns⟩
  have hrun := beq_iff_eq.1 hruns
  have hrestores := (failed_traceless _ _ program h #[0x61, 0x62] {} .walk).2 40 State.initial later
  exact ⟨program, later, h, hrun, by decide, hrestores.1 0 0 hrun⟩

end ByteRegex

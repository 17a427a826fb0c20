import ByteRegex.Proofs.Machine.Refinement
import ByteRegex.Proofs.Machine.Termination
import ByteRegex.Proofs.Program.BlockStructure
import ByteRegex.Search.Basic

/-!
# A Match Is the First Outcome

What the machine finds at a position, for every pattern that compiles. The budget of
a run is never used up and the run agrees with the outcomes of the tree, so the run
either matches with the first of them or fails because there are none. No fault
occurs on the way, and a run that fails ends in the state in which it began.

The tree is the one that the operations of the program spell. There is such a tree
because the pattern was parsed; which one is taken does not matter, as long as it is
well formed.

## Main definitions

* `Match.ofOutcome`: The match that an outcome describes.

## Theorems

* `start_outcome`: A run ends as the outcomes say.
* `matchAt_eq_head?`: So the match at a position is the first of them.
* `matchAt_eq_first_outcome`: The match at a position is the first outcome.
-/

namespace ByteRegex

open Machine

/-- The match that an outcome describes, with its start. -/
def Match.ofOutcome (start : Nat) (o : Outcome) : Match where
  start := start
  stop := o.1
  groups := o.2.closed.set 0 (some ⟨start, o.1⟩) slots_pos
  highest := o.2.highest
  cursor := o.2.cursor

namespace Machine

/-- A run from the first operation matches with the first outcome of the choice that the
    program is laid out from, or fails because there is none, and then leaves nothing
    behind. -/
theorem start_outcome (env : Env) (alts : List (List Block)) (hne : alts ≠ [])
    (halts : Alternatives.Proper alts)
    (hprogram : env.program.operations = link (Alternatives.operations alts ++ [.finish]))
    (s : Nat) (hs : s ≤ env.text.size) :
    (∃ stop st, start env s = .matched stop st ∧
      (Alternatives.outcomes env alts s Registers.empty).head? = some (stop, st.registers)) ∨
    (∃ st, start env s = .failed st ∧ st.rollback 0 = State.initial ∧
      Alternatives.outcomes env alts s Registers.empty = []) := by
  have hagrees := leads_program alts hne halts hprogram (budget env) (budget env) (Nat.le_refl _) s
    State.initial rfl hs
  have hdecided := start_decided env (forwardLinks_link env.program _ hprogram) s
  rw [Decided, start] at hdecided
  rw [start]
  cases hrun : run env (budget env) 0 s State.initial with
  | matched stop st =>
      rw [hrun] at hagrees
      exact Or.inl ⟨stop, st, rfl, hagrees⟩
  | failed st =>
      rw [hrun] at hagrees
      exact Or.inr ⟨st, rfl, (run_recovers env _ _ _ _ st hrun).rollback, hagrees⟩
  | fault f =>
      rw [hrun] at hagrees hdecided
      have hexhausted : f = .exhausted := hagrees
      exact absurd (congrArg Attempt.fault hexhausted) hdecided

theorem matchAt_eq_head? (env : Env) (alts : List (List Block)) (hne : alts ≠ [])
    (halts : Alternatives.Proper alts)
    (hprogram : env.program.operations = link (Alternatives.operations alts ++ [.finish]))
    (s : Nat) (hs : s ≤ env.text.size) :
    matchAt env s = (Alternatives.outcomes env alts s Registers.empty).head?.map
      (Match.ofOutcome s) := by
  rw [matchAt]
  rcases start_outcome env alts hne halts hprogram s hs with
    ⟨stop, st, hrun, hhead⟩ | ⟨st, hrun, _, hnone⟩
  · rw [hrun, hhead]
    rfl
  · rw [hrun, hnone]
    rfl

-- In particular the program of a well-formed tree.
theorem matchAt_of_outcomes (env : Env) (t : Pattern) (ht : t.Proper)
    (hprogram : env.program.operations = link t.operations) (s : Nat) (hs : s ≤ env.text.size) :
    matchAt env s = (Alternatives.outcomes env t.alternatives s Registers.empty).head?.map
      (Match.ofOutcome s) :=
  matchAt_eq_head? env t.alternatives ht.nonempty ht.parts hprogram s hs

end Machine

-- A program is linked from the operations of every tree that spells them.
theorem compile_link (options : CompileOptions) (pattern : Bytes) (program : Program)
    (h : compile options pattern = .ok program) (t : Pattern)
    (ht : program.emitted = t.operations) : program.operations = link t.operations := by
  rcases compile_ok options pattern program h with ⟨t', _, rfl⟩
  rw [← ht, Program.emitted_ofPattern]
  rfl

/-- For every pattern that compiles there is a tree that spells the operations of its
    program, and at every position of every text the machine finds the first outcome
    of such a tree: it matches if there is an outcome, fails and can be rolled back to
    the beginning if there is none, and never stops with a fault. -/
theorem matchAt_eq_first_outcome (options : CompileOptions) (pattern : Bytes)
    (program : Program) (h : compile options pattern = .ok program) :
    (∃ t : Pattern, t.Proper ∧ program.emitted = t.operations) ∧
      ∀ t : Pattern, t.Proper → program.emitted = t.operations →
        ∀ (text : Bytes) (flags : SearchFlags) (scan : ExactScan) (s : Nat), s ≤ text.size →
          let env : Env := ⟨program, text, flags, scan⟩
          let outcomes := Alternatives.outcomes env t.alternatives s Registers.empty
          matchAt env s = outcomes.head?.map (Match.ofOutcome s) ∧
            ((∃ stop st, start env s = .matched stop st ∧
              outcomes.head? = some (stop, st.registers)) ∨
            (∃ st, start env s = .failed st ∧ st.rollback 0 = State.initial ∧
              outcomes = [])) := by
  constructor
  · rcases compile_ok options pattern program h with ⟨t, ht, rfl⟩
    exact ⟨t, ht, Program.emitted_ofPattern options t⟩
  · intro t ht hemitted text flags scan s hs
    have hprogram := compile_link options pattern program h t hemitted
    exact ⟨matchAt_of_outcomes ⟨program, text, flags, scan⟩ t ht hprogram s hs,
      start_outcome ⟨program, text, flags, scan⟩ t.alternatives ht.nonempty ht.parts hprogram s hs⟩

-- The pattern `(a|ab)*c` has a loop whose iterations end in different places, and
-- finds the whole of `abac` only when it goes back on its first choice.
theorem matchAt_eq_first_outcome_abac :
    ∃ program, ∃ t : Pattern, compile { dialect := .perl }
        #[0x28, 0x61, 0x7C, 0x61, 0x62, 0x29, 0x2A, 0x63] = .ok program ∧
      t.Proper ∧ program.emitted = t.operations ∧
      matchAt ⟨program, #[0x61, 0x62, 0x61, 0x63], {}, .walk⟩ 0 =
        (Alternatives.outcomes ⟨program, #[0x61, 0x62, 0x61, 0x63], {}, .walk⟩ t.alternatives 0
          Registers.empty).head?.map (Match.ofOutcome 0) := by
  rcases exists_ok_of_isOk (compile { dialect := .perl }
    #[0x28, 0x61, 0x7C, 0x61, 0x62, 0x29, 0x2A, 0x63]) (by decide +kernel) with ⟨program, h⟩
  rcases matchAt_eq_first_outcome _ _ program h with ⟨⟨t, ht, hemitted⟩, hmatch⟩
  exact ⟨program, t, h, ht, hemitted, (hmatch t ht hemitted _ {} .walk 0 (Nat.zero_le _)).1⟩

end ByteRegex

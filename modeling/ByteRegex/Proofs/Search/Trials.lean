import ByteRegex.Proofs.Search.Exactness

/-!
# Every Search Ends

A search makes a row of trials. Each runs the machine at a position where a match can
start, and the next one begins one byte further on in the direction of the search. Both
the row and each of its runs come to an end.

A row ends because it moves: forward it comes closer to the end of the text, backward
closer to its begin. `Row.Retries` are the moves, and `Program.Tries` are the positions
that a search comes to in this way. `search_tries` says that the search finds the match at
one of them, or tries them all in vain.

A run ends because the calls of the machine form a relation without infinite chains, so
that the fuel of the machine is an artifact; and in a compiled program it ends as a run
should, in a match or in a failure, and not in a fault.

## Main definitions

* `Row`: How a search makes its trials.
* `Row.Retries`: How a row goes on when a trial fails.
* `Row.Tries`: Where a row makes its trials.
* `FindsAmong`: What is found by trials.
* `Program.Tries`: A search runs the machine at a position.

## Theorems

* `finds_first`, `finds_later`: What a row finds by its next trial and by the others.
* `wellFounded_forwardRow`, `wellFounded_backwardRow`: A row of trials ends.
* `search_tries`: A search finds what one of its trials finds.
* `tries_le`: All trials are made inside the text.
* `search_terminates`: Every search of a compiled program ends.
-/

namespace ByteRegex

open Machine

namespace Machine

/-- How a search makes its trials: where the next one is made from a position, and from
    which position the search goes on after a trial that fails, if it does. -/
structure Row where
  start : Nat → Option Nat
  onward : Nat → Option Nat

/-- The trials of a search forward. -/
def forwardRow (env : Env) : Row where
  start pos := if pos ≤ env.text.size then nextStart? env pos else none
  onward s := some (s + 1)

/-- The trials of a search backward. -/
def backwardRow (env : Env) : Row where
  start pos := previousStart? env pos
  onward s := if 0 < s then some (s - 1) else none

namespace Row

variable (row : Row) (env : Env)

/-- A row goes on from one position to another, because there is no match at its next
    start. -/
def Retries (pos pos' : Nat) : Prop :=
  ∃ s, row.start pos = some s ∧ matchAt env s = none ∧ row.onward s = some pos'

/-- A row that has come to a position makes a trial at another. -/
def Tries (pos s : Nat) : Prop :=
  ∃ mid, Relation.ReflTransGen (row.Retries env) pos mid ∧ row.start mid = some s

-- The first trial is made at the next start, and the others after a retry.
theorem tries_iff (pos s : Nat) :
    row.Tries env pos s ↔
      row.start pos = some s ∨ ∃ pos', row.Retries env pos pos' ∧ row.Tries env pos' s := by
  constructor
  · rintro ⟨mid, hmid, hstart⟩
    rcases Relation.ReflTransGen.cases_head hmid with rfl | ⟨pos', hretry, hrest⟩
    · exact Or.inl hstart
    · exact Or.inr ⟨pos', hretry, mid, hrest, hstart⟩
  · rintro (hstart | ⟨pos', hretry, mid, hmid, hstart⟩)
    · exact ⟨pos, Relation.ReflTransGen.refl, hstart⟩
    · exact ⟨mid, Relation.ReflTransGen.head hretry hmid, hstart⟩

end Row

/-- What is found by trials at some positions: the match at one of them, or nothing if
    there is a match at none. -/
def FindsAmong (env : Env) (tries : Nat → Prop) (found : Option Match) : Prop :=
  (found = none ∧ ∀ s, tries s → matchAt env s = none) ∨
    ∃ s, tries s ∧ matchAt env s ≠ none ∧ found = matchAt env s

section Rows

variable (row : Row) (env : Env) (pos s : Nat)

-- There is no trial to be made.
theorem finds_nothing (h : row.start pos = none) : FindsAmong env (row.Tries env pos) none := by
  refine Or.inl ⟨rfl, fun u hu => ?_⟩
  rcases (row.tries_iff env pos u).1 hu with hu | ⟨_, ⟨u', hu', _⟩, _⟩
  · exact absurd (h.symm.trans hu) (by simp only [reduceCtorEq, not_false_eq_true])
  · exact absurd (h.symm.trans hu') (by simp only [reduceCtorEq, not_false_eq_true])

-- The next trial matches.
theorem finds_first (h : row.start pos = some s) (hmatch : matchAt env s ≠ none) :
    FindsAmong env (row.Tries env pos) (matchAt env s) :=
  Or.inr ⟨s, (row.tries_iff env pos s).2 (Or.inl h), hmatch, rfl⟩

-- The next trial fails, so that what is found is found later or not at all.
theorem finds_later (h : row.start pos = some s) (hmiss : matchAt env s = none)
    (found : Option Match)
    (hlater : ∀ pos', row.onward s = some pos' → FindsAmong env (row.Tries env pos') found)
    (hlast : row.onward s = none → found = none) :
    FindsAmong env (row.Tries env pos) found := by
  -- Besides the next trial there are those after the retry.
  have hsplit : ∀ u, row.Tries env pos u →
      u = s ∨ ∃ pos', row.onward s = some pos' ∧ row.Tries env pos' u := by
    intro u hu
    rcases (row.tries_iff env pos u).1 hu with hu | ⟨pos', ⟨s', hs', _, honward⟩, hu⟩
    · exact Or.inl (Option.some.inj (hu.symm.trans h))
    · rw [Option.some.inj (hs'.symm.trans h)] at honward
      exact Or.inr ⟨pos', honward, hu⟩
  cases honward : row.onward s with
  | none =>
      refine Or.inl ⟨hlast honward, fun u hu => ?_⟩
      rcases hsplit u hu with rfl | ⟨pos', hpos', _⟩
      · exact hmiss
      · exact absurd (honward.symm.trans hpos')
          (by simp only [reduceCtorEq, not_false_eq_true])
  | some pos' =>
      rcases hlater pos' honward with ⟨hnone, hall⟩ | ⟨u, hu, hfound⟩
      · refine Or.inl ⟨hnone, fun u hu => ?_⟩
        rcases hsplit u hu with rfl | ⟨pos'', hpos'', hu⟩
        · exact hmiss
        · rw [← Option.some.inj (honward.symm.trans hpos'')] at hu
          exact hall u hu
      · have hretry : row.Retries env pos pos' := ⟨s, h, hmiss, honward⟩
        exact Or.inr ⟨u, (row.tries_iff env pos u).2 (Or.inr ⟨pos', hretry, hu⟩), hfound⟩

end Rows

/-- No row of trials goes forward forever: each takes a byte from what is ahead. -/
theorem wellFounded_forwardRow (env : Env) :
    WellFounded (flip ((forwardRow env).Retries env)) := by
  refine Subrelation.wf (fun {pos' pos} h => ?_) (measure fun pos => env.text.size + 1 - pos).wf
  rcases h with ⟨s, hstart, _, honward⟩
  have hnext := Option.ite_none_right_eq_some.1 hstart
  have hle := le_of_nextStart? hnext.2
  have hpos' : s + 1 = pos' := Option.some.inj honward
  exact show env.text.size + 1 - pos' < env.text.size + 1 - pos by omega

/-- And none goes back forever. -/
theorem wellFounded_backwardRow (env : Env) :
    WellFounded (flip ((backwardRow env).Retries env)) := by
  refine Subrelation.wf (fun {pos' pos} h => ?_) Nat.lt_wfRel.wf
  rcases h with ⟨s, hstart, _, honward⟩
  have hle := previousStart?_le hstart
  have hpos' := Option.ite_none_right_eq_some.1 honward
  have hsame : s - 1 = pos' := Option.some.inj hpos'.2
  exact show pos' < pos by omega

-- A search backward does not leave the text on its way.
theorem backwardRow_le (env : Env) (pos mid : Nat)
    (h : Relation.ReflTransGen ((backwardRow env).Retries env) pos mid) : mid ≤ pos := by
  induction h with
  | refl => exact Nat.le_refl pos
  | tail _ hretry ih =>
      rcases hretry with ⟨s, hstart, _, honward⟩
      have hsame := Option.some.inj (Option.ite_none_right_eq_some.1 honward).2
      rw [← hsame]
      exact Nat.le_trans (Nat.sub_le _ _) (Nat.le_trans (previousStart?_le hstart) ih)

theorem searchForward_tries (env : Env) (pos : Nat) :
    FindsAmong env ((forwardRow env).Tries env pos) (searchForward env pos) := by
  have hstart : ∀ pos, pos ≤ env.text.size → (forwardRow env).start pos = nextStart? env pos :=
    fun pos hpos => if_pos hpos
  fun_induction searchForward env pos with
  | case1 pos hpos hnext => exact finds_nothing _ env pos ((hstart pos hpos).trans hnext)
  | case2 pos hpos s hnext m hm =>
      rw [← hm]
      refine finds_first _ env pos s ((hstart pos hpos).trans hnext) ?_
      rw [hm]
      exact Option.some_ne_none m
  | case3 pos hpos s hnext hmiss ih =>
      refine finds_later _ env pos s ((hstart pos hpos).trans hnext) hmiss _ (fun pos' h => ?_)
        (fun h => absurd h (Option.some_ne_none _))
      exact Option.some.inj h ▸ ih
  | case4 pos hpos => exact finds_nothing _ env pos (if_neg hpos)

theorem searchBackward_tries (env : Env) (pos : Nat) :
    FindsAmong env ((backwardRow env).Tries env pos) (searchBackward env pos) := by
  fun_induction searchBackward env pos with
  | case1 pos hnext => exact finds_nothing _ env pos hnext
  | case2 pos s hnext m hm =>
      rw [← hm]
      refine finds_first _ env pos s hnext ?_
      rw [hm]
      exact Option.some_ne_none m
  | case3 pos s hnext hmiss hzero ih =>
      have honward : (backwardRow env).onward s = some (s - 1) := if_pos hzero
      refine finds_later _ env pos s hnext hmiss _ (fun pos' h => ?_)
        (fun h => absurd (honward.symm.trans h) (Option.some_ne_none _))
      exact Option.some.inj (honward.symm.trans h) ▸ ih
  | case4 pos s hnext hmiss hzero =>
      have honward : (backwardRow env).onward s = none := if_neg hzero
      refine finds_later _ env pos s hnext hmiss none (fun pos' h => ?_) (fun _ => rfl)
      exact absurd (h.symm.trans honward) (Option.some_ne_none _)

end Machine

/-- A search runs the machine at a position. An anchored search does so at its offset, if
    there is such a position, and backward at the end of the text otherwise. -/
def Program.Tries (p : Program) (text : Bytes) (offset : Nat) (search : SearchOptions)
    (scan : ExactScan) (s : Nat) : Prop :=
  let env : Env := ⟨p, text, search.flags, scan⟩
  match p.direction search with
  | .forward =>
    if search.flags.anchored then s = offset ∧ offset ≤ text.size
    else (forwardRow env).Tries env offset s
  | .backward =>
    let pos := min offset text.size
    if search.flags.anchored then s = pos else (backwardRow env).Tries env pos s

section Searches

variable (program : Program) (text : Bytes) (offset : Nat) (search : SearchOptions)
  (scan : ExactScan)

-- A single trial finds what there is.
theorem findsAmong_single (env : Env) (s : Nat) : FindsAmong env (· = s) (matchAt env s) := by
  by_cases hnone : matchAt env s = none
  · exact Or.inl ⟨hnone, fun u hu => hu ▸ hnone⟩
  · exact Or.inr ⟨s, rfl, hnone, rfl⟩

/-- A search finds the match at one of the positions that it tries, or nothing if there is
    a match at none of them. -/
theorem search_tries :
    FindsAmong ⟨program, text, search.flags, scan⟩ (program.Tries text offset search scan)
      (program.search text offset search scan) := by
  unfold Program.Tries
  cases hanchored : search.flags.anchored with
  | false =>
      cases hdirection : program.direction search with
      | forward =>
          rw [search_forward program text offset search scan hanchored hdirection]
          exact searchForward_tries _ offset
      | backward =>
          rw [search_backward program text offset search scan hanchored hdirection]
          exact searchBackward_tries _ (min offset text.size)
  | true =>
      by_cases hoffset : offset ≤ text.size
      · rw [search_anchored program text offset search scan hanchored hoffset]
        have hsingle := findsAmong_single ⟨program, text, search.flags, scan⟩ offset
        simp only [if_true, hoffset, and_true, Nat.min_eq_left hoffset]
        cases program.direction search <;> exact hsingle
      · have hbehind := Nat.lt_of_not_le hoffset
        rw [search_anchored_behind program text offset search scan hanchored hbehind]
        simp only [if_true, hoffset, and_false, Nat.min_eq_right (Nat.le_of_lt hbehind)]
        cases program.direction search with
        | forward => exact Or.inl ⟨rfl, fun _ h => h.elim⟩
        | backward => exact findsAmong_single _ _

/-- All trials are made inside the text. -/
theorem tries_le (hlisted : program.strategy.Listed) (s : Nat)
    (h : program.Tries text offset search scan s) : s ≤ text.size := by
  unfold Program.Tries at h
  split at h
  · split at h
    · exact h.1 ▸ h.2
    · -- The next start is a position of the text where a match can start.
      rcases h with ⟨mid, _, hstart⟩
      have hnext := Option.ite_none_right_eq_some.1 hstart
      have hfirst := nextStart?_first ⟨program, text, search.flags, scan⟩ hlisted mid hnext.1
      rw [hnext.2] at hfirst
      exact hfirst.2.1.1
  · have hend := Nat.min_le_right offset text.size
    simp only at h
    split at h
    · exact h ▸ hend
    · rcases h with ⟨mid, hmid, hprevious⟩
      have hback := backwardRow_le _ _ mid hmid
      exact Nat.le_trans (previousStart?_le hprevious) (Nat.le_trans hback hend)

end Searches

/-- Whatever pattern compiles, every search of every text ends. From no start does a chain
    of calls of the machine go on forever, so that there is one machine without fuel and
    the machine with its budget is that one; no row of trials goes on forever in either
    direction; and each trial of the search ends in a match or in a failure, so that the
    search returns the match of one of its trials or nothing. -/
theorem search_terminates (options : CompileOptions) (pattern : Bytes) (program : Program)
    (h : compile options pattern = .ok program) (text : Bytes) (offset : Nat)
    (search : SearchOptions) (scan : ExactScan) :
    let env : Env := ⟨program, text, search.flags, scan⟩
    (∀ s, Acc (flip (Calls env)) ⟨0, s, []⟩) ∧
      Solves env (run env (budget env)) ∧
      (∀ go, Solves env go → ∀ s, go 0 s State.initial = start env s) ∧
      WellFounded (flip ((forwardRow env).Retries env)) ∧
      WellFounded (flip ((backwardRow env).Retries env)) ∧
      (∀ s, program.Tries text offset search scan s →
        (∃ stop st, start env s = .matched stop st) ∨ ∃ st, start env s = .failed st) ∧
      FindsAmong env (program.Tries text offset search scan)
        (program.search text offset search scan) := by
  intro env
  rcases compile_ok options pattern program h with ⟨t, ht, rfl⟩
  have hlinks : ForwardLinks env.program := forwardLinks_link _ _ rfl
  refine ⟨?_, solves_run env hlinks, ?_, wellFounded_forwardRow env, wellFounded_backwardRow env,
    ?_, search_tries _ text offset search scan⟩
  · intro s
    exact acc_of_covered env hlinks _ _ (covered_start env s)
  · intro go hgo s
    exact solves_unique env hlinks go _ hgo (solves_run env hlinks) s
  · -- A trial is a run inside the text, and such a run ends as the outcomes say.
    intro s hs
    have hsize := tries_le _ text offset search scan (ofPattern_listed options t) s hs
    rcases start_outcome env t.alternatives ht.nonempty ht.parts rfl s hsize with
      ⟨stop, st, hrun, _⟩ | ⟨st, hrun, _⟩
    · exact Or.inl ⟨stop, st, hrun⟩
    · exact Or.inr ⟨st, hrun⟩

-- In `((|a)*)*b` each loop has a body that can match the empty text, and at the begin of
-- `c` none matches anything else.
theorem search_terminates_nested :
    ∃ program, compile { dialect := .perl }
        #[0x28, 0x28, 0x7C, 0x61, 0x29, 0x2A, 0x29, 0x2A, 0x62] = .ok program ∧
      (∀ s, Acc (flip (Calls ⟨program, #[0x63], {}, .walk⟩)) ⟨0, s, []⟩) ∧
      ∀ s, program.Tries #[0x63] 0 .forward .walk s →
        (∃ stop st, start ⟨program, #[0x63], {}, .walk⟩ s = .matched stop st) ∨
          ∃ st, start ⟨program, #[0x63], {}, .walk⟩ s = .failed st := by
  rcases exists_ok_of_isOk (compile { dialect := .perl }
    #[0x28, 0x28, 0x7C, 0x61, 0x29, 0x2A, 0x29, 0x2A, 0x62]) (by decide +kernel) with ⟨program, h⟩
  have hends := search_terminates _ _ program h #[0x63] 0 .forward .walk
  exact ⟨program, h, hends.1, hends.2.2.2.2.2.1⟩

end ByteRegex

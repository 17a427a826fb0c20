import ByteRegex.Proofs.Machine.Outcomes

/-!
# What the Registers Record

What is true of the registers on every way through a tree. A property that holds of a
position with its registers may depend on the tree only through the writes that its
operations make: if opening a group, closing one, recording the cursor and moving on
in the text all keep the property, then so does the tree. `Kept` names these four
conditions and `kept_block` is the induction over the tree, with the iterations of a
quantifier inside it.

The property of interest is `Registers.Within`. Everything that is recorded lies
between the position where the match began and the one that it has come to, a span is
in order, and the number of the highest group is the number of a group that has closed.
That a span is in order is no matter of one write alone: a group closes with the
place where it was opened last, and what was opened was opened earlier on the way.

## Main definitions

* `Kept`: The writes of some operations keep a property.
* `IsHighest`: A number is that of the highest group that has closed.
* `Registers.Within`: What is recorded lies between two positions.

## Theorems

* `kept_block`, `kept_sequence`, `kept_alternatives`: What the writes keep, a tree keeps.
* `IsHighest.set`: The highest group is kept up to date.
* `within_kept`: Every write stays within the positions of the match.
* `outcomes_within`: So do the outcomes of a tree.
-/

namespace ByteRegex

open Machine

/-- A property of positions and registers is kept by the writes of the operations, and
    by moving on in the text. -/
structure Kept (ops : List Operation) (P : Nat → Registers → Prop) : Prop where
  moves : ∀ pos pos' r, pos ≤ pos' → P pos r → P pos' r
  opens : ∀ n pos r, Operation.openGroup n ∈ ops → P pos r → P pos (r.openGroup n pos)
  closes : ∀ n pos r, Operation.closeGroup n ∈ ops → P pos r → P pos (r.closeGroup n pos)
  records : ∀ pos r, Operation.cursor ∈ ops → P pos r → P pos (r.recordCursor pos)

-- The operations of an alternative are among those of the choice.
theorem sequence_subset_alternatives (alts : List (List Block)) (s : List Block) (hs : s ∈ alts) :
    Sequence.operations s ⊆ Alternatives.operations alts := by
  have hbranches : ∀ alts : List (List Block), s ∈ alts →
      Sequence.operations s ⊆ Alternatives.branches alts := by
    intro alts hs
    induction alts with
    | nil => exact absurd hs List.not_mem_nil
    | cons t rest ih =>
        rw [Alternatives.branches]
        rcases List.mem_cons.1 hs with rfl | hrest
        · exact fun op hop => List.mem_cons_of_mem _ (List.mem_append_left _ hop)
        · exact fun op hop => List.mem_cons_of_mem _
            (List.mem_append_right _ (List.mem_cons_of_mem _ (ih hrest hop)))
  cases alts with
  | nil => exact absurd hs List.not_mem_nil
  | cons t rest =>
      cases rest with
      | nil =>
          rw [List.mem_singleton.1 hs]
          exact fun op hop => hop
      | cons u more => exact hbranches _ hs

section Keeping

variable {env : Env} {ops : List Operation} {P : Nat → Registers → Prop}

-- What holds of the outcomes of a body holds of those of its iterations.
theorem kept_iterations (size : Nat) (q : Quantifier) (body : Nat → Registers → List Outcome)
    (hbody : Forward size body)
    (hkeeps : ∀ pos r, pos ≤ size → P pos r → ∀ o ∈ body pos r, P o.1 o.2)
    (count : Nat) (consumed : Bool) (pos : Nat) (r : Registers) (hpos : pos ≤ size)
    (hP : P pos r) : ∀ o ∈ q.iterations size body count consumed pos r, P o.1 o.2 := by
  refine iterations_induction size q body hbody
    (fun count consumed pos r =>
      P pos r → ∀ o ∈ q.iterations size body count consumed pos r, P o.1 o.2)
    ?_ count consumed pos r hpos hP
  intro count consumed pos r hpos ih hP o ho
  rw [iterations_eq size q body hbody count consumed pos r hpos] at ho
  simp only [mem_preferred, mem_allowed] at ho
  rcases ho with hagain | ⟨_, rfl⟩
  · by_cases hrepeat : q.mayRepeat count consumed = true
    · rw [if_pos hrepeat, List.mem_flatMap] at hagain
      rcases hagain with ⟨mid, hmid, ho⟩
      exact ih hrepeat mid hmid (hkeeps pos r hpos hP mid hmid) o ho
    · rw [if_neg hrepeat] at hagain
      exact absurd hagain List.not_mem_nil
  · exact hP

mutual

/-- What the writes of its operations keep, a block keeps: it holds of every outcome
    if it holds where the block begins. -/
theorem kept_block (h : Kept ops P) (b : Block) (hops : b.operations ⊆ ops) (pos : Nat)
    (r : Registers) (hpos : pos ≤ env.text.size) (hP : P pos r) :
    ∀ o ∈ b.outcomes env pos r, P o.1 o.2 := by
  intro o ho
  have hforward := forward_block env b pos r hpos o ho
  cases b with
  | literal w =>
      rcases (mem_allowed _ _ _).1 ho with ⟨_, rfl⟩
      exact h.moves _ _ _ hforward.1 hP
  | set s =>
      rcases (mem_allowed _ _ _).1 ho with ⟨_, rfl⟩
      exact h.moves _ _ _ hforward.1 hP
  | anyChar =>
      rcases (mem_allowed _ _ _).1 ho with ⟨_, rfl⟩
      exact h.moves _ _ _ hforward.1 hP
  | anyString =>
      rcases List.mem_map.1 ho with ⟨stop, _, rfl⟩
      exact h.moves _ _ _ hforward.1 hP
  | anchor a =>
      rcases (mem_allowed _ _ _).1 ho with ⟨_, rfl⟩
      exact hP
  | cursor =>
      rw [List.mem_singleton.1 ho]
      exact h.records pos r (hops List.mem_cons_self) hP
  | group n alts =>
      -- The group opens before anything inside is recorded, and closes after it.
      have hopen : Operation.openGroup n ∈ ops := hops List.mem_cons_self
      have hclose : Operation.closeGroup n ∈ ops :=
        hops (List.mem_cons_of_mem _ (List.mem_append_right _ List.mem_cons_self))
      have hinside : ∀ s ∈ alts, Sequence.operations s ⊆ ops := fun s hs op hop =>
        hops (List.mem_cons_of_mem _
          (List.mem_append_left _ (sequence_subset_alternatives alts s hs hop)))
      rcases List.mem_map.1 ho with ⟨inner, hinner, rfl⟩
      exact h.closes n _ _ hclose (kept_alternatives h alts hinside pos _ hpos
        (h.opens n pos r hopen hP) inner hinner)
  | quantified q e =>
      have hinside : e.operations ⊆ ops := fun op hop =>
        hops (List.mem_cons_of_mem _ (List.mem_append_left _ hop))
      exact kept_iterations env.text.size q _ (forward_block env e)
        (fun pos r hpos hP => kept_block h e hinside pos r hpos hP) 0 true pos r hpos hP o ho

theorem kept_sequence (h : Kept ops P) (s : List Block) (hops : Sequence.operations s ⊆ ops)
    (pos : Nat) (r : Registers) (hpos : pos ≤ env.text.size) (hP : P pos r) :
    ∀ o ∈ Sequence.outcomes env s pos r, P o.1 o.2 := by
  intro o ho
  cases s with
  | nil =>
      rw [List.mem_singleton.1 ho]
      exact hP
  | cons b rest =>
      rcases List.mem_flatMap.1 ho with ⟨mid, hmid, ho⟩
      have hsize := (forward_block env b pos r hpos mid hmid).2
      have hfirst := kept_block h b (fun op hop => hops (List.mem_append_left _ hop)) pos r hpos
        hP mid hmid
      exact kept_sequence h rest (fun op hop => hops (List.mem_append_right _ hop)) mid.1 mid.2
        hsize hfirst o ho

theorem kept_alternatives (h : Kept ops P) (alts : List (List Block))
    (hops : ∀ s ∈ alts, Sequence.operations s ⊆ ops) (pos : Nat) (r : Registers)
    (hpos : pos ≤ env.text.size) (hP : P pos r) :
    ∀ o ∈ Alternatives.outcomes env alts pos r, P o.1 o.2 := by
  intro o ho
  cases alts with
  | nil => exact absurd ho List.not_mem_nil
  | cons s rest =>
      rcases List.mem_append.1 ho with hs | hrest
      · exact kept_sequence h s (hops s List.mem_cons_self) pos r hpos hP o hs
      · exact kept_alternatives h rest (fun t ht => hops t (List.mem_cons_of_mem _ ht)) pos r
          hpos hP o hrest

end

end Keeping

namespace Machine

/-- The number is that of the highest group with a span, or zero if there is none. -/
structure IsHighest (spans : Vector (Option Span) slots) (highest : Nat) : Prop where
  le : ∀ n : GroupNumber, 0 < n.val → getElem spans n n.isLt ≠ none → n.val ≤ highest
  reached : 0 < highest → ∃ n : GroupNumber, n.val = highest ∧ getElem spans n n.isLt ≠ none

/-- What is recorded on a way that the operations allow lies between the position where
    the match began and the one that it has come to. -/
structure Registers.Within (ops : List Operation) (start pos : Nat) (r : Registers) : Prop where
  opened : ∀ (n : GroupNumber) p, getElem r.opened n n.isLt = some p → start ≤ p ∧ p ≤ pos
  closed : ∀ (n : GroupNumber) span, getElem r.closed n n.isLt = some span →
    Operation.closeGroup n ∈ ops ∧
      start ≤ span.start ∧ span.start ≤ span.stop ∧ span.stop ≤ pos
  highest : IsHighest r.closed r.highest
  cursor : ∀ p, r.cursor = some p → Operation.cursor ∈ ops ∧ start ≤ p ∧ p ≤ pos

-- A write to one entry leaves the others as they are.
theorem getElem_set_group {α : Type} (v : Vector α slots) (n m : GroupNumber) (a : α) :
    getElem (v.set n a n.isLt) m m.isLt = if n = m then a else getElem v m m.isLt := by
  rw [Fin.getElem_fin, Vector.getElem_set]
  simp only [Fin.ext_iff, Fin.getElem_fin]

/-- A span that is set for a group keeps the number of the highest group, if that is
    raised to the number of the group. -/
theorem IsHighest.set (spans : Vector (Option Span) slots) (highest : Nat) (n : GroupNumber)
    (span : Span) (h : IsHighest spans highest) :
    IsHighest (spans.set n (some span) n.isLt) (max highest n) where
  le := by
    intro m hm hset
    rw [getElem_set_group] at hset
    by_cases hnm : n = m
    · rw [← hnm]
      exact Nat.le_max_right _ _
    · rw [if_neg hnm] at hset
      exact Nat.le_trans (h.le m hm hset) (Nat.le_max_left _ _)
  reached := by
    intro hpos
    by_cases hle : highest ≤ n
    · refine ⟨n, (Nat.max_eq_right hle).symm, ?_⟩
      rw [getElem_set_group, if_pos rfl]
      exact Option.some_ne_none span
    · -- The highest group was another one, and keeps its span.
      have hlt := Nat.lt_of_not_le hle
      rcases h.reached (Nat.zero_lt_of_lt hlt) with ⟨m, hm, hset⟩
      refine ⟨m, by rw [hm, Nat.max_eq_left (Nat.le_of_lt hlt)], ?_⟩
      have hnm : n ≠ m := fun hnm => Nat.ne_of_lt hlt (by rw [hnm, hm])
      rw [getElem_set_group, if_neg hnm]
      exact hset

/-- Every write stays within the positions of the match. -/
theorem within_kept (ops : List Operation) (start : Nat) :
    Kept ops fun pos r => start ≤ pos ∧ r.Within ops start pos where
  moves := by
    intro pos pos' r hle ⟨hstart, h⟩
    refine ⟨Nat.le_trans hstart hle, fun n p hp => ?_, fun n span hspan => ?_, h.highest,
      fun p hp => ?_⟩
    · have hopened := h.opened n p hp
      exact ⟨hopened.1, Nat.le_trans hopened.2 hle⟩
    · rcases h.closed n span hspan with ⟨hn, hspan, hordered, hstop⟩
      exact ⟨hn, hspan, hordered, Nat.le_trans hstop hle⟩
    · rcases h.cursor p hp with ⟨hcursor, hp, hple⟩
      exact ⟨hcursor, hp, Nat.le_trans hple hle⟩
  opens := by
    intro n pos r _ ⟨hstart, h⟩
    refine ⟨hstart, fun m p hp => ?_, h.closed, h.highest, h.cursor⟩
    rw [Registers.openGroup, getElem_set_group] at hp
    by_cases hnm : n = m
    · rw [if_pos hnm, Option.some.injEq] at hp
      exact ⟨hp ▸ hstart, Nat.le_of_eq hp.symm⟩
    · rw [if_neg hnm] at hp
      exact h.opened m p hp
  closes := by
    intro n pos r hn ⟨hstart, h⟩
    rw [Registers.closeGroup]
    cases hopened : getElem r.opened n n.isLt with
    | none => exact ⟨hstart, h⟩
    | some p =>
        -- The span begins where the group was opened, which lies behind the match's start.
        have hp := h.opened n p hopened
        refine ⟨hstart, h.opened, fun m span hspan => ?_, h.highest.set _ _ n _, h.cursor⟩
        rw [getElem_set_group] at hspan
        by_cases hnm : n = m
        · rw [if_pos hnm, Option.some.injEq] at hspan
          rw [← hspan, ← hnm]
          exact ⟨hn, hp.1, hp.2, Nat.le_refl pos⟩
        · rw [if_neg hnm] at hspan
          exact h.closed m span hspan
  records := by
    intro pos r hcursor ⟨hstart, h⟩
    refine ⟨hstart, h.opened, h.closed, h.highest, fun p hp => ?_⟩
    rw [Registers.recordCursor, Option.some.injEq] at hp
    exact ⟨hcursor, hp ▸ hstart, Nat.le_of_eq hp.symm⟩

-- At the beginning of a match nothing is recorded.
theorem within_empty (ops : List Operation) (start : Nat) :
    Registers.empty.Within ops start start where
  opened := fun n p hp => absurd hp (by simp [Registers.empty])
  closed := fun n span hspan => absurd hspan (by simp [Registers.empty])
  highest := ⟨fun n _ hset => absurd (by simp [Registers.empty]) hset,
    fun hpos => absurd hpos (Nat.lt_irrefl 0)⟩
  cursor := fun p hp => absurd hp (by simp [Registers.empty])

/-- The outcomes of a tree record nothing outside of the match. -/
theorem outcomes_within (env : Env) (alts : List (List Block)) (start : Nat)
    (hstart : start ≤ env.text.size) :
    ∀ o ∈ Alternatives.outcomes env alts start Registers.empty,
      o.2.Within (Alternatives.operations alts) start o.1 := by
  intro o ho
  exact (kept_alternatives (within_kept (Alternatives.operations alts) start) alts
    (sequence_subset_alternatives alts) start Registers.empty hstart
    ⟨Nat.le_refl _, within_empty _ start⟩ o ho).2

end Machine

end ByteRegex

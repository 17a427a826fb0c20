import ByteRegex.Proofs.Machine.FirstOutcome

/-!
# What a Tree Can Match

Which stretches of the text a tree can match, without the order in which the machine
tries them and without what it records. The outcomes of a tree are a list, because the
first of them is the match; whether there is a match at all depends on the ends alone,
and an end does not depend on the registers. `Block.Covers` is the relation between a
position and the ends that can be reached from it, by recursion on the tree: blocks in a
row compose, alternatives unite, and the iterations of a quantifier are a path along
which every turn is allowed by its bounds.

Neither the preference of a quantifier nor the order of alternatives occurs in the
relation, so two trees that differ in nothing else cover the same.

## Main definitions

* `Quantifier.Covers`: What repeating a body can match, from the middle of a row on.
* `Block.Covers`, `Sequence.Covers`, `Alternatives.Covers`: What a tree can match.

## Theorems

* `covers_iterations`: The iterations end where the path leads.
* `covers_block`, `covers_sequence`, `covers_alternatives`: A tree has an outcome where
  it covers the stretch up to it.
* `le_of_covers`: No stretch goes back in the text or leaves it.
* `covers_append`: Blocks in a row match stretches in a row.
* `matchAt_isSome_iff`: There is a match where the tree covers something.
-/

namespace ByteRegex

open Machine

/-- Repeating a body can match the stretch from `pos` to `stop`, when `count` iterations
    have ended and the last one has consumed something or there was none. -/
inductive Quantifier.Covers (q : Quantifier) (body : Nat → Nat → Prop) :
    (count : Nat) → (consumed : Bool) → (pos stop : Nat) → Prop where
  | leave (count : Nat) (consumed : Bool) (pos : Nat) (h : q.mayLeave count consumed = true) :
      Covers q body count consumed pos pos
  | again (count : Nat) (consumed : Bool) (pos mid stop : Nat)
      (h : q.mayRepeat count consumed = true) (hbody : body pos mid)
      (hrest : Covers q body (count + 1) (mid != pos) mid stop) :
      Covers q body count consumed pos stop

mutual

/-- A block can match the stretch from `pos` to `stop`. -/
def Block.Covers (env : Env) : Block → (pos stop : Nat) → Prop
  | .literal w, pos, stop =>
    Literal.occursAt env.ignoreCase w env.text pos = true ∧ stop = pos + w.size
  | .set s, pos, stop => env.byteIs pos s.contains = true ∧ stop = pos + 1
  | .anyChar, pos, stop =>
    env.byteIs pos (fun c => !(env.multiline && c == Byte.lineFeed)) = true ∧ stop = pos + 1
  | .anyString, pos, stop => stop ∈ env.stretches pos
  | .anchor a, pos, stop => env.holdsAt pos a = true ∧ stop = pos
  | .cursor, pos, stop => stop = pos
  | .group _ alternatives, pos, stop => Alternatives.Covers env alternatives pos stop
  | .quantified q element, pos, stop => q.Covers (element.Covers env) 0 true pos stop

/-- Blocks in a row can match the stretch from `pos` to `stop`. -/
def Sequence.Covers (env : Env) : List Block → (pos stop : Nat) → Prop
  | [], pos, stop => stop = pos
  | b :: rest, pos, stop => ∃ mid, b.Covers env pos mid ∧ Sequence.Covers env rest mid stop

/-- One of several sequences can match the stretch from `pos` to `stop`. -/
def Alternatives.Covers (env : Env) : List (List Block) → (pos stop : Nat) → Prop
  | [], _, _ => False
  | s :: rest, pos, stop =>
    Sequence.Covers env s pos stop ∨ Alternatives.Covers env rest pos stop

end

/-- From every position of a text of `size` bytes the body has an outcome where the
    relation says, whatever the registers hold. -/
def EndsWhere (size : Nat) (body : Nat → Registers → List Outcome)
    (covers : Nat → Nat → Prop) : Prop :=
  ∀ pos r stop, pos ≤ size → ((∃ o ∈ body pos r, o.1 = stop) ↔ covers pos stop)

-- A row of iterations goes on or ends here.
theorem Quantifier.covers_iff (q : Quantifier) (body : Nat → Nat → Prop) (count : Nat)
    (consumed : Bool) (pos stop : Nat) :
    q.Covers body count consumed pos stop ↔
      (q.mayRepeat count consumed = true ∧
        ∃ mid, body pos mid ∧ q.Covers body (count + 1) (mid != pos) mid stop) ∨
      (q.mayLeave count consumed = true ∧ stop = pos) := by
  constructor
  · intro h
    cases h with
    | leave _ _ _ hleave => exact Or.inr ⟨hleave, rfl⟩
    | again _ _ _ mid _ hrepeat hbody hrest => exact Or.inl ⟨hrepeat, mid, hbody, hrest⟩
  · rintro (⟨hrepeat, mid, hbody, hrest⟩ | ⟨hleave, rfl⟩)
    · exact Covers.again _ _ _ mid _ hrepeat hbody hrest
    · exact Covers.leave _ _ _ hleave

/-- The outcomes of repeating a body end where the path of its iterations leads. -/
theorem covers_iterations (size : Nat) (q : Quantifier) (body : Nat → Registers → List Outcome)
    (hbody : Forward size body) (covers : Nat → Nat → Prop) (h : EndsWhere size body covers)
    (count : Nat) (consumed : Bool) :
    EndsWhere size (q.iterations size body count consumed) (q.Covers covers count consumed) := by
  intro pos r stop hpos
  refine iterations_induction size q body hbody
    (fun count consumed pos r =>
      (∃ o ∈ q.iterations size body count consumed pos r, o.1 = stop) ↔
        q.Covers covers count consumed pos stop) ?_ count consumed pos r hpos
  intro count consumed pos r hpos ih
  rw [iterations_eq size q body hbody count consumed pos r hpos, Quantifier.covers_iff]
  simp only [mem_preferred, mem_allowed]
  constructor
  · rintro ⟨o, hagain | ⟨hleave, rfl⟩, hstop⟩
    · by_cases hrepeat : q.mayRepeat count consumed = true
      · rw [if_pos hrepeat, List.mem_flatMap] at hagain
        rcases hagain with ⟨mid, hmid, ho⟩
        exact Or.inl ⟨hrepeat, mid.1, (h pos r mid.1 hpos).1 ⟨mid, hmid, rfl⟩,
          (ih hrepeat mid hmid).1 ⟨o, ho, hstop⟩⟩
      · rw [if_neg hrepeat] at hagain
        exact absurd hagain List.not_mem_nil
    · exact Or.inr ⟨hleave, hstop.symm⟩
  · rintro (⟨hrepeat, mid, hcovers, hrest⟩ | ⟨hleave, rfl⟩)
    · -- The iteration that covers the first stretch has an outcome at its end.
      rcases (h pos r mid hpos).2 hcovers with ⟨first, hfirst, rfl⟩
      rcases (ih hrepeat first hfirst).2 hrest with ⟨o, ho, hstop⟩
      refine ⟨o, Or.inl ?_, hstop⟩
      rw [if_pos hrepeat, List.mem_flatMap]
      exact ⟨first, hfirst, ho⟩
    · exact ⟨(stop, r), Or.inr ⟨hleave, rfl⟩, rfl⟩

-- A test has its outcome behind the bytes that it looks at.
theorem endsWhere_test (size : Nat) (test : Nat → Bool) (width : Nat) :
    EndsWhere size (fun pos r => if test pos then [(pos + width, r)] else [])
      fun pos stop => test pos = true ∧ stop = pos + width := by
  intro pos r stop _
  simp only [mem_allowed]
  constructor
  · rintro ⟨o, ⟨htest, rfl⟩, rfl⟩
    exact ⟨htest, rfl⟩
  · rintro ⟨htest, rfl⟩
    exact ⟨_, ⟨htest, rfl⟩, rfl⟩

mutual

/-- A block has an outcome where it covers the stretch up to it. -/
theorem covers_block (env : Env) (b : Block) :
    EndsWhere env.text.size (b.outcomes env) (b.Covers env) := by
  cases b with
  | literal w => exact endsWhere_test _ _ w.size
  | set s => exact endsWhere_test _ _ 1
  | anyChar => exact endsWhere_test _ _ 1
  | anyString =>
      intro pos r stop _
      rw [Block.outcomes, Block.Covers]
      constructor
      · rintro ⟨o, ho, rfl⟩
        rcases List.mem_map.1 ho with ⟨stop, hstop, rfl⟩
        exact hstop
      · exact fun hstop => ⟨(stop, r), List.mem_map.2 ⟨stop, hstop, rfl⟩, rfl⟩
  | anchor a => exact endsWhere_test _ _ 0
  | cursor =>
      intro pos r stop _
      rw [Block.outcomes, Block.Covers]
      constructor
      · rintro ⟨o, ho, rfl⟩
        rw [List.mem_singleton.1 ho]
      · rintro rfl
        exact ⟨_, List.mem_singleton_self _, rfl⟩
  | group n alts =>
      intro pos r stop hpos
      rw [Block.outcomes, Block.Covers,
        ← covers_alternatives env alts pos (r.openGroup n pos) stop hpos]
      constructor
      · rintro ⟨o, ho, rfl⟩
        rcases List.mem_map.1 ho with ⟨inner, hinner, rfl⟩
        exact ⟨inner, hinner, rfl⟩
      · rintro ⟨inner, hinner, rfl⟩
        exact ⟨_, List.mem_map_of_mem hinner, rfl⟩
  | quantified q e =>
      exact covers_iterations _ q _ (forward_block env e) _ (covers_block env e) 0 true

theorem covers_sequence (env : Env) (s : List Block) :
    EndsWhere env.text.size (Sequence.outcomes env s) (Sequence.Covers env s) := by
  intro pos r stop hpos
  cases s with
  | nil =>
      rw [Sequence.outcomes, Sequence.Covers]
      constructor
      · rintro ⟨o, ho, rfl⟩
        rw [List.mem_singleton.1 ho]
      · rintro rfl
        exact ⟨_, List.mem_singleton_self _, rfl⟩
  | cons b rest =>
      have hforward := forward_block env b pos r hpos
      rw [Sequence.outcomes, Sequence.Covers]
      constructor
      · rintro ⟨o, ho, hstop⟩
        rcases List.mem_flatMap.1 ho with ⟨mid, hmid, ho⟩
        exact ⟨mid.1, (covers_block env b pos r mid.1 hpos).1 ⟨mid, hmid, rfl⟩,
          (covers_sequence env rest mid.1 mid.2 stop (hforward mid hmid).2).1 ⟨o, ho, hstop⟩⟩
      · rintro ⟨mid, hfirst, hrest⟩
        rcases (covers_block env b pos r mid hpos).2 hfirst with ⟨first, hmem, rfl⟩
        rcases (covers_sequence env rest first.1 first.2 stop (hforward first hmem).2).2 hrest with
          ⟨o, ho, hstop⟩
        exact ⟨o, List.mem_flatMap.2 ⟨first, hmem, ho⟩, hstop⟩

theorem covers_alternatives (env : Env) (alts : List (List Block)) :
    EndsWhere env.text.size (Alternatives.outcomes env alts) (Alternatives.Covers env alts) := by
  intro pos r stop hpos
  cases alts with
  | nil =>
      rw [Alternatives.outcomes, Alternatives.Covers]
      exact ⟨fun ⟨o, ho, _⟩ => absurd ho List.not_mem_nil, False.elim⟩
  | cons s rest =>
      rw [Alternatives.outcomes, Alternatives.Covers,
        ← covers_sequence env s pos r stop hpos, ← covers_alternatives env rest pos r stop hpos]
      simp only [List.mem_append, or_and_right, exists_or]

end

/-- No stretch that a block can match goes back in the text or leaves it. -/
theorem le_of_covers (env : Env) (b : Block) (pos stop : Nat) (hpos : pos ≤ env.text.size)
    (h : b.Covers env pos stop) : pos ≤ stop ∧ stop ≤ env.text.size := by
  rcases (covers_block env b pos Registers.empty stop hpos).2 h with ⟨o, ho, rfl⟩
  exact forward_block env b pos Registers.empty hpos o ho

theorem le_of_covers_sequence (env : Env) (s : List Block) (pos stop : Nat)
    (hpos : pos ≤ env.text.size) (h : Sequence.Covers env s pos stop) :
    pos ≤ stop ∧ stop ≤ env.text.size := by
  rcases (covers_sequence env s pos Registers.empty stop hpos).2 h with ⟨o, ho, rfl⟩
  exact forward_sequence env s pos Registers.empty hpos o ho

-- The tests are all that a stretch depends on.
theorem covers_congr_sequence (env env' : Env) (h : SameTests env env') (s : List Block)
    (pos stop : Nat) (hpos : pos ≤ env.text.size) :
    Sequence.Covers env s pos stop ↔ Sequence.Covers env' s pos stop := by
  rw [← covers_sequence env s pos Registers.empty stop hpos, outcomes_congr_sequence env env' h s]
  exact covers_sequence env' s pos Registers.empty stop (h.size ▸ hpos)

/-- Blocks in a row match stretches in a row. -/
theorem covers_append (env : Env) (s t : List Block) (pos stop : Nat) :
    Sequence.Covers env (s ++ t) pos stop ↔
      ∃ mid, Sequence.Covers env s pos mid ∧ Sequence.Covers env t mid stop := by
  induction s generalizing pos with
  | nil => simp only [List.nil_append, Sequence.Covers, exists_eq_left]
  | cons b rest ih =>
      simp only [List.cons_append, Sequence.Covers, ih]
      constructor
      · rintro ⟨first, hb, mid, hrest, ht⟩
        exact ⟨mid, ⟨first, hb, hrest⟩, ht⟩
      · rintro ⟨mid, ⟨first, hb, hrest⟩, ht⟩
        exact ⟨first, hb, mid, hrest, ht⟩

/-- At a position there is a match if the tree of the program covers something from
    there. -/
theorem matchAt_isSome_iff (env : Env) (alts : List (List Block)) (hne : alts ≠ [])
    (halts : Alternatives.Proper alts)
    (hprogram : env.program.operations = link (Alternatives.operations alts ++ [.finish]))
    (s : Nat) (hs : s ≤ env.text.size) :
    (matchAt env s).isSome = true ↔ ∃ stop, Alternatives.Covers env alts s stop := by
  rw [matchAt_eq_head? env alts hne halts hprogram s hs, Option.isSome_map, List.isSome_head?]
  simp only [← covers_alternatives env alts s Registers.empty _ hs]
  cases Alternatives.outcomes env alts s Registers.empty with
  | nil => simp
  | cons o rest =>
      exact ⟨fun _ => ⟨o.1, o, List.mem_cons_self, rfl⟩, fun _ => List.cons_ne_nil o rest⟩

end ByteRegex

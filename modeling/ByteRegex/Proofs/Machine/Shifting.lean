import ByteRegex.Proofs.Machine.Registers

/-!
# The Same Match Further On

Two matches whose positions differ by a fixed distance. If all tests of the one, put at
positions that are `k` bytes further on, have the answers that those of the other have,
then its outcomes are those of the other, `k` bytes further on: their ends, and every
position that is in the registers.

The registers have to move along, because a group closes with the position where it was
opened, whenever that was. So `outcomes_shift_block` starts from registers that have been
moved, and the empty ones are the same when moved. The iterations of a quantifier ask for
one thing more, whether the last one has consumed something, and that compares two
positions which have moved by the same distance.

An anchor looks back, and at the begin of a text there is less to be seen. Which anchors
have to agree is therefore left to the operations: only those that occur.

## Main definitions

* `Span.shift`, `Registers.shift`, `Outcome.shift`: Positions moved by a distance.
* `ShiftedTests`: The tests of two matches have the same answers at a distance.

## Theorems

* `openGroup_shift`, `closeGroup_shift`: Writes of groups move along.
* `iterations_shift`: So do the outcomes of repeating a body.
* `outcomes_shift_block`, `outcomes_shift_sequence`, `outcomes_shift`: The outcomes of a
  tree move along.
-/

namespace ByteRegex

open Machine

/-- A stretch of the text that lies `k` bytes further on. -/
def Span.shift (k : Nat) (s : Span) : Span := ⟨k + s.start, k + s.stop⟩

/-- Registers with all positions `k` bytes further on. -/
def Machine.Registers.shift (k : Nat) (r : Registers) : Registers where
  opened := r.opened.map (Option.map (k + ·))
  closed := r.closed.map (Option.map (Span.shift k))
  highest := r.highest
  cursor := r.cursor.map (k + ·)

/-- An end of a match and its registers, `k` bytes further on. -/
def Outcome.shift (k : Nat) (o : Outcome) : Outcome := (k + o.1, o.2.shift k)

section Registers

variable (k : Nat) (r : Registers)

theorem shift_empty : Registers.empty.shift k = Registers.empty := by
  simp only [Registers.shift, Registers.empty, Vector.map_replicate, Option.map_none]

theorem openGroup_shift (n : GroupNumber) (pos : Nat) :
    (r.shift k).openGroup n (k + pos) = (r.openGroup n pos).shift k := by
  simp only [Registers.openGroup, Registers.shift, Vector.map_set, Option.map_some]

theorem closeGroup_shift (n : GroupNumber) (pos : Nat) :
    (r.shift k).closeGroup n (k + pos) = (r.closeGroup n pos).shift k := by
  have hopened : (r.shift k).opened[n] = r.opened[n].map (k + ·) := Vector.getElem_map _ _
  rw [Registers.closeGroup, Registers.closeGroup, hopened]
  cases r.opened[n] with
  | none => rfl
  | some start =>
      simp only [Registers.shift, Option.map_some, Vector.map_set, Span.shift]

end Registers

/-- Every test that is put to a text has the answer, `k` bytes further on, that it has in
    another text, as long as only the anchors of some operations are asked for. -/
structure ShiftedTests (ops : List Operation) (k : Nat) (env env' : Env) : Prop where
  size : env.text.size = k + env'.text.size
  literal : ∀ w pos, Literal.occursAt env.ignoreCase w env.text (k + pos) =
    Literal.occursAt env'.ignoreCase w env'.text pos
  set : ∀ (s : ByteSet) pos, env.byteIs (k + pos) s.contains = env'.byteIs pos s.contains
  anyChar : ∀ pos, (env.byteIs (k + pos) fun c => !(env.multiline && c == Byte.lineFeed)) =
    env'.byteIs pos fun c => !(env'.multiline && c == Byte.lineFeed)
  anyString : ∀ pos, env.stretches (k + pos) = (env'.stretches pos).map (k + ·)
  anchor : ∀ a, Operation.anchor a ∈ ops → ∀ pos, env.holdsAt (k + pos) a = env'.holdsAt pos a

-- The one outcome of a test that passes.
theorem shift_allowed (k : Nat) (allowed : Bool) (pos : Nat) (r : Registers) :
    (if allowed then [(k + pos, r.shift k)] else []) =
      (if allowed then [(pos, r)] else []).map (Outcome.shift k) := by
  cases allowed <;> rfl

/-- If the outcomes of a body move along, so do those of repeating it. The induction is
    along the iterations. -/
theorem iterations_shift (k size : Nat) (q : Quantifier)
    (body body' : Nat → Registers → List Outcome) (hbody : Forward (k + size) body)
    (hbody' : Forward size body')
    (h : ∀ pos r, pos ≤ size → body (k + pos) (r.shift k) = (body' pos r).map (Outcome.shift k))
    (count : Nat) (consumed : Bool) (pos : Nat) (r : Registers) (hpos : pos ≤ size) :
    q.iterations (k + size) body count consumed (k + pos) (r.shift k) =
      (q.iterations size body' count consumed pos r).map (Outcome.shift k) := by
  refine iterations_induction size q body' hbody'
    (fun count consumed pos r => q.iterations (k + size) body count consumed (k + pos) (r.shift k) =
      (q.iterations size body' count consumed pos r).map (Outcome.shift k))
    ?_ count consumed pos r hpos
  intro count consumed pos r hpos ih
  have hagain : (if q.mayRepeat count consumed then
        (body (k + pos) (r.shift k)).flatMap fun o =>
          q.iterations (k + size) body (count + 1) (o.1 != k + pos) o.1 o.2
      else []) =
      (if q.mayRepeat count consumed then
        (body' pos r).flatMap fun o =>
          q.iterations size body' (count + 1) (o.1 != pos) o.1 o.2
      else []).map (Outcome.shift k) := by
    by_cases hrepeat : q.mayRepeat count consumed = true
    · rw [if_pos hrepeat, if_pos hrepeat, h pos r hpos, List.flatMap_map, List.map_flatMap]
      refine List.flatMap_congr fun o ho => ?_
      have hconsumed : (k + o.1 != k + pos) = (o.1 != pos) := by
        rw [Bool.eq_iff_iff, bne_iff_ne, bne_iff_ne, ne_eq, Nat.add_left_cancel_iff]
      rw [Outcome.shift, hconsumed]
      exact ih hrepeat o ho
    · rw [if_neg hrepeat, if_neg hrepeat, List.map_nil]
  rw [iterations_eq (k + size) q body hbody count consumed (k + pos) _ (by omega),
    iterations_eq size q body' hbody' count consumed pos r hpos]
  simp only [hagain, shift_allowed]
  cases q.greedy <;> simp only [if_true, Bool.false_eq_true, if_false, List.map_append]

section Shifted

variable {ops : List Operation} {k : Nat} {env env' : Env}

mutual

/-- The outcomes of a block, at a position and with registers that have moved, are its
    outcomes in the other match, moved by the same distance. -/
theorem outcomes_shift_block (h : ShiftedTests ops k env env') (b : Block)
    (hops : b.operations ⊆ ops) (pos : Nat) (hpos : pos ≤ env'.text.size) (r : Registers) :
    b.outcomes env (k + pos) (r.shift k) = (b.outcomes env' pos r).map (Outcome.shift k) := by
  cases b with
  | literal w =>
      simp only [Block.outcomes, h.literal, Nat.add_assoc, shift_allowed]
  | set s => simp only [Block.outcomes, h.set, Nat.add_assoc, shift_allowed]
  | anyChar => simp only [Block.outcomes, h.anyChar, Nat.add_assoc, shift_allowed]
  | anyString =>
      simp only [Block.outcomes, h.anyString, List.map_map]
      rfl
  | anchor a =>
      simp only [Block.outcomes, h.anchor a (hops List.mem_cons_self), shift_allowed]
  | cursor => rfl
  | group n alts =>
      have hinside : ∀ s ∈ alts, Sequence.operations s ⊆ ops := fun s hs op hop =>
        hops (List.mem_cons_of_mem _
          (List.mem_append_left _ (sequence_subset_alternatives alts s hs hop)))
      simp only [Block.outcomes, openGroup_shift, outcomes_shift h alts hinside pos hpos,
        List.map_map]
      refine List.map_congr_left fun o _ => ?_
      simp only [Function.comp, Outcome.shift, closeGroup_shift]
  | quantified q e =>
      have hinside : e.operations ⊆ ops := fun op hop =>
        hops (List.mem_cons_of_mem _ (List.mem_append_left _ hop))
      simp only [Block.outcomes, h.size]
      exact iterations_shift k env'.text.size q _ _ (h.size ▸ forward_block env e)
        (forward_block env' e) (fun pos r hpos => outcomes_shift_block h e hinside pos hpos r)
        0 true pos r hpos

theorem outcomes_shift_sequence (h : ShiftedTests ops k env env') (s : List Block)
    (hops : Sequence.operations s ⊆ ops) (pos : Nat) (hpos : pos ≤ env'.text.size)
    (r : Registers) :
    Sequence.outcomes env s (k + pos) (r.shift k) =
      (Sequence.outcomes env' s pos r).map (Outcome.shift k) := by
  cases s with
  | nil => rfl
  | cons b rest =>
      have hrest : Sequence.operations rest ⊆ ops :=
        fun op hop => hops (List.mem_append_right _ hop)
      rw [Sequence.outcomes, Sequence.outcomes,
        outcomes_shift_block h b (fun op hop => hops (List.mem_append_left _ hop)) pos hpos r,
        List.flatMap_map, List.map_flatMap]
      refine List.flatMap_congr fun o ho => ?_
      exact outcomes_shift_sequence h rest hrest o.1 (forward_block env' b pos r hpos o ho).2 o.2

theorem outcomes_shift (h : ShiftedTests ops k env env') (alts : List (List Block))
    (hops : ∀ s ∈ alts, Sequence.operations s ⊆ ops) (pos : Nat) (hpos : pos ≤ env'.text.size)
    (r : Registers) :
    Alternatives.outcomes env alts (k + pos) (r.shift k) =
      (Alternatives.outcomes env' alts pos r).map (Outcome.shift k) := by
  cases alts with
  | nil => rfl
  | cons s rest =>
      rw [Alternatives.outcomes, Alternatives.outcomes, List.map_append,
        outcomes_shift_sequence h s (hops s List.mem_cons_self) pos hpos r,
        outcomes_shift h rest (fun t ht => hops t (List.mem_cons_of_mem _ ht)) pos hpos r]

end

end Shifted

end ByteRegex

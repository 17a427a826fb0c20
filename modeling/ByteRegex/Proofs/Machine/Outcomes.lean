import Mathlib.Data.List.Basic
import ByteRegex.Proofs.Machine.Choices
import ByteRegex.Proofs.Machine.Position
import ByteRegex.Proofs.Pattern.Sets

/-!
# The Outcomes of a Tree

What a pattern matches, said of the tree alone and without a machine. From a
position, and with given registers, a tree has a list of outcomes, each an end of
the match with the registers recorded on the way to it, and the list is in order
of preference.

A test has at most one outcome. Blocks in a row bind one list to the next, and a
choice appends the lists of its alternatives. A group records where it begins and
with which span it ends. A quantified block either begins another iteration or
ends, in the order that its quantifier prefers; an iteration that matched the empty
text is always the last, and so the outcomes are finitely many.

No outcome goes back in the text or leaves it. The recursion on iterations tests
that at every turn, because it could not know that it ends otherwise, and
`iterations_eq` removes the test for every body that keeps to the rule, as those of
a tree do.

## Main definitions

* `Outcome`: An end of a match, with the registers.
* `Machine.Env.stretches`: The ends of an any-string run, in order of preference.
* `Quantifier.iterations`: The outcomes of repeating a body.
* `Block.outcomes`, `Sequence.outcomes`, `Alternatives.outcomes`: The outcomes of a
  tree.
* `Forward`: The outcomes stay between the position and the end of the text.
* `SameTests`: Two matches in which all tests have the same answers.
* `SameTestsOn`: Two matches in which they have, as long as only some sets are asked for.

## Theorems

* `stretches_eq`: An any-string run ends where the machine counts.
* `iterations_eq`: Repeating a body is another iteration or the way out.
* `forward_block`, `forward_sequence`, `forward_alternatives`: The outcomes of a
  tree stay between the position and the end of the text.
* `outcomes_congrOn`: The outcomes of a tree depend on the answers of its tests only.
-/

namespace ByteRegex

open Machine

/-- An end of a match, with the registers recorded on the way to it. -/
abbrev Outcome : Type := Nat × Registers

/-- The ends of an any-string run from a position, in order of preference: in a
    text of several lines, those before the first line feed. -/
def Machine.Env.stretches (env : Env) (pos : Nat) : List Nat :=
  let ends := (List.range' pos (env.text.size + 1 - pos)).filter fun stop =>
    !(env.multiline && (env.text.extract pos stop).contains Byte.lineFeed)
  if env.minimal then ends else ends.reverse

/-- Whether another iteration may begin behind `count` of them, the last of which
    has consumed something. -/
def Quantifier.mayRepeat (q : Quantifier) (count : Nat) (consumed : Bool) : Bool :=
  consumed && q.max.all (count < ·)

/-- Whether `count` iterations may be left behind. -/
def Quantifier.mayLeave (q : Quantifier) (count : Nat) (consumed : Bool) : Bool :=
  q.min ≤ count || !consumed

/-- The outcomes of repeating a body, when `count` iterations have ended and the
    last one has consumed something or there was none. The text has `size`
    bytes. -/
def Quantifier.iterations (size : Nat) (q : Quantifier) (body : Nat → Registers → List Outcome)
    (count : Nat) (consumed : Bool) (pos : Nat) (r : Registers) : List Outcome :=
  let again :=
    if _hrepeat : q.mayRepeat count consumed = true then
      (body pos r).flatMap fun o =>
        -- This always holds of the bodies of a tree; it is here for the recursion to end.
        if _hforward : pos ≤ o.1 ∧ o.1 ≤ size then
          iterations size q body (count + 1) (o.1 != pos) o.1 o.2
        else []
    else []
  let out := if q.mayLeave count consumed then [(pos, r)] else []
  if q.greedy then again ++ out else out ++ again
  termination_by (size - pos, consumed.toNat)
  decreasing_by
    rw [Quantifier.mayRepeat, Bool.and_eq_true] at _hrepeat
    rw [_hrepeat.1]
    by_cases hsame : o.1 = pos
    · rw [hsame, bne_self_eq_false]
      exact Prod.Lex.right _ Nat.zero_lt_one
    · exact Prod.Lex.left _ _ (by omega)

mutual

/-- The outcomes of a block. -/
def Block.outcomes (env : Env) : Block → Nat → Registers → List Outcome
  | .literal w, pos, r =>
    if Literal.occursAt env.ignoreCase w env.text pos then [(pos + w.size, r)] else []
  | .set s, pos, r => if env.byteIs pos s.contains then [(pos + 1, r)] else []
  | .anyChar, pos, r =>
    if env.byteIs pos fun c => !(env.multiline && c == Byte.lineFeed) then [(pos + 1, r)] else []
  | .anyString, pos, r => (env.stretches pos).map fun stop => (stop, r)
  | .anchor a, pos, r => if env.holdsAt pos a then [(pos, r)] else []
  | .cursor, pos, r => [(pos, r.recordCursor pos)]
  | .group n alternatives, pos, r =>
    (Alternatives.outcomes env alternatives pos (r.openGroup n pos)).map fun o =>
      (o.1, o.2.closeGroup n o.1)
  | .quantified q element, pos, r =>
    q.iterations env.text.size (element.outcomes env) 0 true pos r

/-- The outcomes of blocks in a row. -/
def Sequence.outcomes (env : Env) : List Block → Nat → Registers → List Outcome
  | [], pos, r => [(pos, r)]
  | b :: rest, pos, r =>
    (b.outcomes env pos r).flatMap fun o => Sequence.outcomes env rest o.1 o.2

/-- The outcomes of sequences to choose from. -/
def Alternatives.outcomes (env : Env) : List (List Block) → Nat → Registers → List Outcome
  | [], _, _ => []
  | s :: rest, pos, r => Sequence.outcomes env s pos r ++ Alternatives.outcomes env rest pos r

end

/-- From every position of a text of `size` bytes the outcomes are at that position
    or behind it, and still in the text. -/
def Forward (size : Nat) (body : Nat → Registers → List Outcome) : Prop :=
  ∀ pos r, pos ≤ size → ∀ o ∈ body pos r, pos ≤ o.1 ∧ o.1 ≤ size

/-- Repeating a body that moves forward is another iteration or the way out, in the
    preferred order. -/
theorem iterations_eq (size : Nat) (q : Quantifier) (body : Nat → Registers → List Outcome)
    (hbody : Forward size body) (count : Nat) (consumed : Bool) (pos : Nat) (r : Registers)
    (hpos : pos ≤ size) :
    q.iterations size body count consumed pos r =
      let again := if q.mayRepeat count consumed then
          (body pos r).flatMap fun o => q.iterations size body (count + 1) (o.1 != pos) o.1 o.2
        else []
      let out := if q.mayLeave count consumed then [(pos, r)] else []
      if q.greedy then again ++ out else out ++ again := by
  have hall : ((body pos r).flatMap fun o =>
      if _h : pos ≤ o.1 ∧ o.1 ≤ size then
        q.iterations size body (count + 1) (o.1 != pos) o.1 o.2
      else []) =
      (body pos r).flatMap fun o => q.iterations size body (count + 1) (o.1 != pos) o.1 o.2 := by
    apply List.flatMap_congr
    intro o ho
    rw [dif_pos (hbody pos r hpos o ho)]
  rw [Quantifier.iterations, hall]
  simp only [dite_eq_ite]

-- An induction along the iterations of a body that moves forward: a statement on
-- the next iteration carries over to this one.
theorem iterations_induction (size : Nat) (q : Quantifier)
    (body : Nat → Registers → List Outcome) (hbody : Forward size body)
    (P : Nat → Bool → Nat → Registers → Prop)
    (h : ∀ count consumed pos r, pos ≤ size →
      (q.mayRepeat count consumed = true →
        ∀ o ∈ body pos r, P (count + 1) (o.1 != pos) o.1 o.2) → P count consumed pos r)
    (count : Nat) (consumed : Bool) (pos : Nat) (r : Registers) (hpos : pos ≤ size) :
    P count consumed pos r := by
  refine h count consumed pos r hpos (fun hrepeat o ho => ?_)
  have hforward := hbody pos r hpos o ho
  exact iterations_induction size q body hbody P h (count + 1) (o.1 != pos) o.1 o.2 hforward.2
  termination_by (size - pos, consumed.toNat)
  decreasing_by
    rw [Quantifier.mayRepeat, Bool.and_eq_true] at hrepeat
    rw [hrepeat.1]
    by_cases hsame : o.1 = pos
    · rw [hsame, bne_self_eq_false]
      exact Prod.Lex.right _ Nat.zero_lt_one
    · exact Prod.Lex.left _ _ (by omega)

theorem forward_iterations (size : Nat) (q : Quantifier)
    (body : Nat → Registers → List Outcome) (hbody : Forward size body) (count : Nat)
    (consumed : Bool) : Forward size (q.iterations size body count consumed) := by
  refine iterations_induction size q body hbody
    (fun count consumed pos r =>
      ∀ o ∈ q.iterations size body count consumed pos r, pos ≤ o.1 ∧ o.1 ≤ size) ?_ count consumed
  intro count consumed pos r hpos ih o ho
  rw [iterations_eq size q body hbody count consumed pos r hpos] at ho
  simp only [mem_preferred, mem_allowed] at ho
  rcases ho with hagain | ⟨_, rfl⟩
  · by_cases hrepeat : q.mayRepeat count consumed = true
    · rw [if_pos hrepeat, List.mem_flatMap] at hagain
      rcases hagain with ⟨mid, hmid, ho⟩
      have hfirst := hbody pos r hpos mid hmid
      have hrest := ih hrepeat mid hmid o ho
      exact ⟨Nat.le_trans hfirst.1 hrest.1, hrest.2⟩
    · rw [if_neg hrepeat] at hagain
      exact absurd hagain List.not_mem_nil
  · exact ⟨Nat.le_refl _, hpos⟩

-- A test of one or more bytes moves forward if it looks at them.
theorem forward_test (size : Nat) (test : Nat → Bool) (width : Nat)
    (h : ∀ pos, test pos = true → pos + width ≤ size) :
    Forward size fun pos r => if test pos then [(pos + width, r)] else [] := by
  intro pos r _ o ho
  rw [mem_allowed] at ho
  rcases ho with ⟨htest, rfl⟩
  exact ⟨Nat.le_add_right _ _, h pos htest⟩

/-- The ends of an any-string run are the positions up to its reach, in the order in
    which the machine counts them. -/
theorem stretches_eq (env : Env) (pos : Nat) (hpos : pos ≤ env.text.size) :
    env.stretches pos = counts (!env.minimal) pos (env.reach pos) := by
  have hreach := reach_le env pos hpos
  -- A stop is crossed over exactly when it is past the line end ahead.
  have hcrosses : ∀ stop, pos ≤ stop → stop ≤ env.text.size →
      ((!(env.multiline && (env.text.extract pos stop).contains Byte.lineFeed)) = true ↔
        stop ≤ env.reach pos) := by
    intro stop hstart hstop
    rw [Env.reach]
    cases env.multiline with
    | false => exact ⟨fun _ => hstop, fun _ => rfl⟩
    | true =>
        rw [Bool.true_and, Bool.not_eq_true', ← Bool.not_eq_true, crosses_iff, if_pos rfl]
        constructor
        · intro hnone
          by_contra hlt
          have hlt := Nat.lt_of_not_le hlt
          exact hnone ⟨_, le_lineEndFrom env.scan env.text pos, hlt,
            lineFeed_at_lineEndFrom env.scan env.text pos hpos (Nat.lt_of_lt_of_le hlt hstop)⟩
        · rintro hle ⟨i, hi, hlt, hfeed⟩
          exact ne_lineFeed_of_lt_lineEndFrom env.scan env.text pos hpos i hi
            (Nat.lt_of_lt_of_le hlt hle) hfeed
  -- The range splits at the reach: all before it pass the filter, none behind it does.
  have hsplit : List.range' pos (env.text.size + 1 - pos) =
      List.range' pos (env.reach pos + 1 - pos) ++
        List.range' (env.reach pos + 1) (env.text.size - env.reach pos) := by
    have happend := @List.range'_append_1 pos (env.reach pos + 1 - pos)
      (env.text.size - env.reach pos)
    rw [show pos + (env.reach pos + 1 - pos) = env.reach pos + 1 by omega] at happend
    rw [happend]
    congr 1
    omega
  have hfilter : ((List.range' pos (env.text.size + 1 - pos)).filter fun stop =>
      !(env.multiline && (env.text.extract pos stop).contains Byte.lineFeed)) =
      List.range' pos (env.reach pos + 1 - pos) := by
    rw [hsplit, List.filter_append, List.filter_eq_self.2, List.filter_eq_nil_iff.2,
      List.append_nil]
    · intro stop hstop
      rw [List.mem_range'_1] at hstop
      rw [hcrosses stop (by omega) (by omega)]
      omega
    · intro stop hstop
      rw [List.mem_range'_1] at hstop
      rw [hcrosses stop (by omega) (by omega)]
      omega
  rw [Env.stretches, hfilter, counts]
  cases env.minimal <;> rfl

-- The ends are the same in either order.
theorem mem_stretches_iff (env : Env) (pos stop : Nat) :
    stop ∈ env.stretches pos ↔ stop ∈ (List.range' pos (env.text.size + 1 - pos)).filter fun stop =>
      !(env.multiline && (env.text.extract pos stop).contains Byte.lineFeed) := by
  unfold Env.stretches
  split
  · exact Iff.rfl
  · exact List.mem_reverse

theorem mem_stretches (env : Env) (pos stop : Nat) (h : stop ∈ env.stretches pos) :
    pos ≤ stop ∧ (pos ≤ env.text.size → stop ≤ env.text.size) := by
  have hmem := (List.mem_filter.1 ((mem_stretches_iff env pos stop).1 h)).1
  rw [List.mem_range'_1] at hmem
  exact ⟨hmem.1, by omega⟩

mutual

/-- The outcomes of a block stay between the position and the end of the text. -/
theorem forward_block (env : Env) (b : Block) : Forward env.text.size (b.outcomes env) := by
  cases b with
  | literal w => exact forward_test _ _ w.size (occursAt_le env.ignoreCase w env.text)
  | set s => exact forward_test _ _ 1 (fun pos => byteIs_lt env pos _)
  | anyChar => exact forward_test _ _ 1 (fun pos => byteIs_lt env pos _)
  | anyString =>
      intro pos r hpos o ho
      rcases List.mem_map.1 ho with ⟨stop, hstop, rfl⟩
      have hmem := mem_stretches env pos stop hstop
      exact ⟨hmem.1, hmem.2 hpos⟩
  | anchor a =>
      intro pos r hpos o ho
      rcases (mem_allowed _ _ _).1 ho with ⟨_, rfl⟩
      exact ⟨Nat.le_refl _, hpos⟩
  | cursor =>
      intro pos r hpos o ho
      rw [List.mem_singleton.1 ho]
      exact ⟨Nat.le_refl _, hpos⟩
  | group n alts =>
      intro pos r hpos o ho
      rcases List.mem_map.1 ho with ⟨inner, hinner, rfl⟩
      exact forward_alternatives env alts pos _ hpos inner hinner
  | quantified q e => exact forward_iterations _ q _ (forward_block env e) 0 true

theorem forward_sequence (env : Env) (s : List Block) :
    Forward env.text.size (Sequence.outcomes env s) := by
  cases s with
  | nil =>
      intro pos r hpos o ho
      rw [List.mem_singleton.1 ho]
      exact ⟨Nat.le_refl _, hpos⟩
  | cons b rest =>
      intro pos r hpos o ho
      rcases List.mem_flatMap.1 ho with ⟨mid, hmid, ho⟩
      have hfirst := forward_block env b pos r hpos mid hmid
      have hrest := forward_sequence env rest mid.1 mid.2 hfirst.2 o ho
      exact ⟨Nat.le_trans hfirst.1 hrest.1, hrest.2⟩

theorem forward_alternatives (env : Env) (alts : List (List Block)) :
    Forward env.text.size (Alternatives.outcomes env alts) := by
  cases alts with
  | nil => exact fun _ _ _ _ ho => absurd ho List.not_mem_nil
  | cons s rest =>
      intro pos r hpos o ho
      rcases List.mem_append.1 ho with hs | hrest
      · exact forward_sequence env s pos r hpos o hs
      · exact forward_alternatives env rest pos r hpos o hrest

end

/-- Two matches put the same tests to their texts, with the same answers. -/
structure SameTests (env env' : Env) : Prop where
  size : env.text.size = env'.text.size
  literal : ∀ w pos, Literal.occursAt env.ignoreCase w env.text pos =
    Literal.occursAt env'.ignoreCase w env'.text pos
  set : ∀ (s : ByteSet) pos, env.byteIs pos s.contains = env'.byteIs pos s.contains
  anyChar : ∀ pos, (env.byteIs pos fun c => !(env.multiline && c == Byte.lineFeed)) =
    env'.byteIs pos fun c => !(env'.multiline && c == Byte.lineFeed)
  anyString : ∀ pos, env.stretches pos = env'.stretches pos
  anchor : ∀ pos a, env.holdsAt pos a = env'.holdsAt pos a

/-- Two matches put the same tests to their texts, with the same answers, as long as the
    sets that they ask for have a property. -/
structure SameTestsOn (S : ByteSet → Prop) (env env' : Env) : Prop where
  size : env.text.size = env'.text.size
  literal : ∀ w pos, Literal.occursAt env.ignoreCase w env.text pos =
    Literal.occursAt env'.ignoreCase w env'.text pos
  set : ∀ s, S s → ∀ pos, env.byteIs pos s.contains = env'.byteIs pos s.contains
  anyChar : ∀ pos, (env.byteIs pos fun c => !(env.multiline && c == Byte.lineFeed)) =
    env'.byteIs pos fun c => !(env'.multiline && c == Byte.lineFeed)
  anyString : ∀ pos, env.stretches pos = env'.stretches pos
  anchor : ∀ pos a, env.holdsAt pos a = env'.holdsAt pos a

theorem SameTests.on {env env' : Env} (h : SameTests env env') :
    SameTestsOn (fun _ => True) env env' :=
  ⟨h.size, h.literal, fun s _ => h.set s, h.anyChar, h.anyString, h.anchor⟩

mutual

-- The tests are all that the outcomes of a tree know of a match.
theorem outcomes_congrOn_block {S : ByteSet → Prop} {env env' : Env}
    (h : SameTestsOn S env env') (b : Block) (hb : b.EachSet S) :
    b.outcomes env = b.outcomes env' := by
  funext pos r
  cases b with
  | literal w => simp only [Block.outcomes, h.literal]
  | set s => simp only [Block.outcomes, h.set s hb]
  | anyChar => simp only [Block.outcomes, h.anyChar]
  | anyString => simp only [Block.outcomes, h.anyString]
  | anchor a => simp only [Block.outcomes, h.anchor]
  | cursor => simp only [Block.outcomes]
  | group n alts => simp only [Block.outcomes, outcomes_congrOn h alts hb]
  | quantified q e => simp only [Block.outcomes, outcomes_congrOn_block h e hb, h.size]

theorem outcomes_congrOn_sequence {S : ByteSet → Prop} {env env' : Env}
    (h : SameTestsOn S env env') (s : List Block) (hs : Sequence.EachSet S s) :
    Sequence.outcomes env s = Sequence.outcomes env' s := by
  funext pos r
  cases s with
  | nil => simp only [Sequence.outcomes]
  | cons b rest =>
      simp only [Sequence.outcomes, outcomes_congrOn_block h b hs.1,
        outcomes_congrOn_sequence h rest hs.2]

theorem outcomes_congrOn {S : ByteSet → Prop} {env env' : Env} (h : SameTestsOn S env env')
    (alts : List (List Block)) (halts : Alternatives.EachSet S alts) :
    Alternatives.outcomes env alts = Alternatives.outcomes env' alts := by
  funext pos r
  cases alts with
  | nil => simp only [Alternatives.outcomes]
  | cons s rest =>
      simp only [Alternatives.outcomes, outcomes_congrOn_sequence h s halts.1,
        outcomes_congrOn h rest halts.2]

end

-- Where all tests have the same answers, it does not matter which sets are asked for.
theorem outcomes_congr_sequence (env env' : Env) (h : SameTests env env') (s : List Block) :
    Sequence.outcomes env s = Sequence.outcomes env' s :=
  outcomes_congrOn_sequence h.on s (eachSet_sequence (fun _ => trivial) s)

theorem outcomes_congr_alternatives (env env' : Env) (h : SameTests env env')
    (alts : List (List Block)) :
    Alternatives.outcomes env alts = Alternatives.outcomes env' alts :=
  outcomes_congrOn h.on alts (eachSet_alternatives (fun _ => trivial) alts)

end ByteRegex

import ByteRegex.Proofs.Machine.Covers
import ByteRegex.Proofs.Machine.Registers
import ByteRegex.Proofs.Search.Exactness

/-!
# Counted Repetition and Copies

A group that is repeated exactly `n` times and `n` copies of the group in a row match
almost the same. The difference is made by empty iterations. A loop is left after an
iteration that has consumed nothing, whatever its bounds say, so the iterations of a
loop are some that consume, and possibly one that does not, which is the last. Among
copies an empty one may stand anywhere.

`covers_exactly` describes the loop: at most `n` iterations that consume, and where they
are fewer, an empty one at the position that they lead to. That one can stand for all the
copies that are missing, so what the loop matches the copies match too. The other way
round, the empty copies in a row of copies can be left out, but the loop needs one in the
end, and there the group may not match the empty text. `(^|a)` does so at the begin of a
line only, so two copies of it match all of `a` and the loop does not: that is
`copied_beyond_counted`.

If a group that matches the empty text at one position also does so further on, the two
agree. An anchor is the only operation that asks where it is without consuming anything,
so a group without anchors is of that kind.

## Main definitions

* `Quantifier.exactly`: Repeats a block a fixed number of times.
* `Program.counted`, `Program.copied`: The two programs that are compared.
* `Program.FoundAt`: An anchored search succeeds.
* `Advances`: Iterations each of which consumes something.
* `Block.KeepsEmpty`: Where a block matches the empty text, it does so further on.

## Theorems

* `covers_exactly`: What a loop of exactly `n` iterations can match.
* `covers_copies`: The copies match what the loop matches.
* `advances_of_copies`: The loop matches what the copies match, if the group keeps to
  the empty text.
* `keepsEmpty_block`: A block without anchors does.
* `found_copied_of_counted`, `found_counted_of_copied`: What follows for searches.
* `counted_copied`: Counted repetition and copies.
* `copied_beyond_counted`: Copies can match where the loop does not.
-/

namespace ByteRegex

open Machine

/-- Repeats a block exactly `n` times. -/
def Quantifier.exactly (n : Nat) (greedy : Bool) : Quantifier := ⟨.interval, n, some n, greedy⟩

namespace Program

/-- The program that repeats a block `n` times in a loop and goes on with the rest. -/
def counted (options : CompileOptions) (n : Nat) (greedy : Bool)
    (block rest : List Operation) : Program :=
  .ofOperations options
    (.quantifier (.exactly n greedy) :: (block ++ .loop :: (rest ++ [.finish])))

/-- The program that has `n` copies of a block in a row and goes on with the rest. -/
def copied (options : CompileOptions) (n : Nat) (block rest : List Operation) : Program :=
  .ofOperations options ((List.replicate n block).flatten ++ (rest ++ [.finish]))

/-- An anchored search with a program succeeds at an offset. -/
def FoundAt (p : Program) (text : Bytes) (search : SearchOptions) (scan : ExactScan) (s : Nat) :
    Prop :=
  (p.search text s (search.withAnchored true) scan).isSome = true

instance (p : Program) (text : Bytes) (search : SearchOptions) (scan : ExactScan) (s : Nat) :
    Decidable (p.FoundAt text search scan s) := inferInstanceAs (Decidable (_ = true))

end Program

/-- Iterations of a body lead from one position to another, and each of them consumes
    something. -/
inductive Advances (body : Nat → Nat → Prop) : (iterations pos stop : Nat) → Prop where
  | none (pos : Nat) : Advances body 0 pos pos
  | more (m pos mid stop : Nat) (h : body pos mid) (hlt : pos < mid)
      (hrest : Advances body m mid stop) : Advances body (m + 1) pos stop

/-- Where a block can match the empty text, from a position on, it can also do so at
    every later position of the text. -/
def Block.KeepsEmpty (env : Env) (b : Block) (s : Nat) : Prop :=
  ∀ u v, s ≤ u → u ≤ v → v ≤ env.text.size → b.Covers env u u → b.Covers env v v

section Loop

variable {body : Nat → Nat → Prop} {size : Nat}
  (hbody : ∀ pos stop, pos ≤ size → body pos stop → pos ≤ stop ∧ stop ≤ size)

include hbody

-- A loop that is left early ends with an iteration that consumes nothing.
theorem advances_of_covers (n : Nat) (greedy : Bool) (count : Nat) (consumed : Bool)
    (pos stop : Nat) (hcount : count ≤ n) (hpos : pos ≤ size) (hconsumed : consumed = true)
    (h : (Quantifier.exactly n greedy).Covers body count consumed pos stop) :
    ∃ m, count + m ≤ n ∧ Advances body m pos stop ∧ (count + m < n → body stop stop) := by
  induction h with
  | leave count consumed pos hleave =>
      rw [hconsumed, Quantifier.mayLeave, Quantifier.exactly, Bool.not_true, Bool.or_false,
        decide_eq_true_eq] at hleave
      exact ⟨0, hcount, Advances.none pos, fun hlt => absurd hlt (Nat.not_lt.2 hleave)⟩
  | again count consumed pos mid stop hrepeat hfirst hrest ih =>
      rw [hconsumed, Quantifier.mayRepeat, Quantifier.exactly, Bool.true_and, Option.all_some,
        decide_eq_true_eq] at hrepeat
      have hforward := hbody pos mid hpos hfirst
      by_cases hsame : mid = pos
      · -- There is only the way out behind an iteration that consumes nothing.
        subst hsame
        rw [bne_self_eq_false, Quantifier.covers_iff, Quantifier.mayRepeat, Bool.false_and] at hrest
        rcases hrest with ⟨hfalse, _⟩ | ⟨_, rfl⟩
        · exact absurd hfalse Bool.false_ne_true
        · exact ⟨0, hcount, Advances.none _, fun _ => hfirst⟩
      · rcases ih hrepeat hforward.2 (bne_iff_ne.2 hsame) with ⟨m, hm, hadvances, hempty⟩
        have hcounts : count + (m + 1) = count + 1 + m := by omega
        refine ⟨m + 1, hcounts ▸ hm, ?_, hcounts ▸ hempty⟩
        exact Advances.more m pos mid stop hfirst (by omega) hadvances

omit hbody

theorem covers_of_advances (n : Nat) (greedy : Bool) (m pos stop : Nat)
    (h : Advances body m pos stop) (count : Nat) (hm : count + m ≤ n)
    (hempty : count + m < n → body stop stop) :
    (Quantifier.exactly n greedy).Covers body count true pos stop := by
  induction h generalizing count with
  | none pos =>
      by_cases hlt : count < n
      · -- One empty iteration ends the loop before its count is reached.
        refine Quantifier.Covers.again count true pos pos pos ?_ (hempty hlt) ?_
        · rw [Quantifier.mayRepeat, Quantifier.exactly, Bool.true_and, Option.all_some,
            decide_eq_true_eq]
          exact hlt
        · rw [bne_self_eq_false]
          exact Quantifier.Covers.leave _ _ _ (Bool.or_true _)
      · refine Quantifier.Covers.leave count true pos ?_
        rw [Quantifier.mayLeave, Quantifier.exactly, Bool.not_true, Bool.or_false,
          decide_eq_true_eq]
        exact Nat.le_of_not_lt hlt
  | more m pos mid stop hfirst hlt hrest ih =>
      have hcounts : count + (m + 1) = count + 1 + m := by omega
      rw [hcounts] at hm hempty
      refine Quantifier.Covers.again count true pos mid stop ?_ hfirst ?_
      · rw [Quantifier.mayRepeat, Quantifier.exactly, Bool.true_and, Option.all_some,
          decide_eq_true_eq]
        omega
      · rw [bne_iff_ne.2 (Nat.ne_of_gt hlt)]
        exact ih (count + 1) hm hempty

include hbody

/-- A loop of exactly `n` iterations matches a stretch with at most `n` iterations that
    consume something and, where they are fewer, an empty one in the end. -/
theorem covers_exactly (n : Nat) (greedy : Bool) (pos stop : Nat) (hpos : pos ≤ size) :
    (Quantifier.exactly n greedy).Covers body 0 true pos stop ↔
      ∃ m ≤ n, Advances body m pos stop ∧ (m < n → body stop stop) := by
  constructor
  · intro h
    have hadvances := advances_of_covers hbody n greedy 0 true pos stop (Nat.zero_le n) hpos rfl h
    simpa only [Nat.zero_add] using hadvances
  · rintro ⟨m, hm, hadvances, hempty⟩
    rw [← Nat.zero_add m] at hm hempty
    exact covers_of_advances n greedy m pos stop hadvances 0 hm hempty

end Loop

section Copies

variable (env : Env) (b : Block)

-- A row of copies that consume nothing.
theorem covers_empty_copies (n pos : Nat) (h : b.Covers env pos pos) :
    Sequence.Covers env (List.replicate n b) pos pos := by
  induction n with
  | zero => rfl
  | succ n ih => exact ⟨pos, h, ih⟩

theorem covers_advancing_copies (m pos stop : Nat) (h : Advances (b.Covers env) m pos stop) :
    Sequence.Covers env (List.replicate m b) pos stop := by
  induction h with
  | none pos => rfl
  | more m pos mid stop hfirst _ _ ih => exact ⟨mid, hfirst, ih⟩

/-- The copies match what the loop matches: its last iteration, if that is empty, stands
    for all the copies that are missing. -/
theorem covers_copies (n m pos stop : Nat) (hm : m ≤ n)
    (h : Advances (b.Covers env) m pos stop) (hempty : m < n → b.Covers env stop stop) :
    Sequence.Covers env (List.replicate n b) pos stop := by
  have hsplit : List.replicate n b = List.replicate m b ++ List.replicate (n - m) b := by
    rw [List.replicate_append_replicate, Nat.add_sub_cancel' hm]
  rw [hsplit, covers_append]
  refine ⟨stop, covers_advancing_copies env b m pos stop h, ?_⟩
  by_cases hlt : m < n
  · exact covers_empty_copies env b _ stop (hempty hlt)
  · rw [Nat.sub_eq_zero_of_le (Nat.le_of_not_lt hlt)]
    rfl

/-- The loop matches what the copies match if the block keeps to the empty text: the
    copies that consume nothing are left out, and one of them is made up for in the end. -/
theorem advances_of_copies (s : Nat) (hkeeps : b.KeepsEmpty env s) (n pos stop : Nat)
    (hs : s ≤ pos) (hpos : pos ≤ env.text.size)
    (h : Sequence.Covers env (List.replicate n b) pos stop) :
    ∃ m ≤ n, Advances (b.Covers env) m pos stop ∧ (m < n → b.Covers env stop stop) := by
  induction n generalizing pos with
  | zero =>
      rw [show stop = pos from h]
      exact ⟨0, Nat.le_refl 0, Advances.none pos, fun hlt => absurd hlt (Nat.lt_irrefl 0)⟩
  | succ n ih =>
      rcases h with ⟨mid, hfirst, hrest⟩
      have hforward := le_of_covers env b pos mid hpos hfirst
      have hbehind := le_of_covers_sequence env _ mid stop hforward.2 hrest
      rcases ih mid (Nat.le_trans hs hforward.1) hforward.2 hrest with ⟨m, hm, hadvances, hempty⟩
      by_cases hsame : mid = pos
      · subst hsame
        exact ⟨m, Nat.le_succ_of_le hm, hadvances,
          fun _ => hkeeps mid stop hs hbehind.1 hbehind.2 hfirst⟩
      · exact ⟨m + 1, Nat.succ_le_succ hm, Advances.more m pos mid stop hfirst (by omega) hadvances,
          fun hlt => hempty (Nat.lt_of_succ_lt_succ hlt)⟩

end Copies

-- Iterations lead on in the text if the body does.
theorem le_of_covers_iterations (q : Quantifier) (body : Nat → Nat → Prop) (size : Nat)
    (hbody : ∀ pos stop, pos ≤ size → body pos stop → pos ≤ stop ∧ stop ≤ size)
    (count : Nat) (consumed : Bool) (pos stop : Nat) (hpos : pos ≤ size)
    (h : q.Covers body count consumed pos stop) : pos ≤ stop := by
  induction h with
  | leave _ _ _ _ => exact Nat.le_refl _
  | again count consumed pos mid stop _ hfirst _ ih =>
      have hforward := hbody pos mid hpos hfirst
      exact Nat.le_trans hforward.1 (ih hforward.2)

section Anchorless

variable (env : Env) (u v : Nat)

mutual

-- What matches the empty text without an anchor does so wherever it stands.
theorem covers_empty_block (hu : u ≤ env.text.size) (hv : v ≤ env.text.size) (b : Block)
    (hb : b.Proper) (hno : ∀ a, Operation.anchor a ∉ b.operations) (h : b.Covers env u u) :
    b.Covers env v v := by
  cases b with
  | literal w =>
      have hwidth : 0 < w.size := hb
      have := h.2
      omega
  | set s => exact absurd h.2 (Nat.ne_of_lt (Nat.lt_succ_self u))
  | anyChar => exact absurd h.2 (Nat.ne_of_lt (Nat.lt_succ_self u))
  | anyString =>
      rw [Block.Covers, stretches_eq env v hv, mem_counts]
      exact ⟨Nat.le_refl v, (reach_le env v hv).1⟩
  | anchor a => exact absurd (List.mem_singleton_self _) (hno a)
  | cursor => rfl
  | group n alts =>
      refine covers_empty_alternatives hu hv alts hb.2 (fun s hs a hmem => hno a ?_) h
      exact List.mem_cons_of_mem _
        (List.mem_append_left _ (sequence_subset_alternatives alts s hs hmem))
  | quantified q e =>
      have hinside : ∀ a, Operation.anchor a ∉ e.operations := fun a hmem =>
        hno a (List.mem_cons_of_mem _ (List.mem_append_left _ hmem))
      rw [Block.Covers, Quantifier.covers_iff] at h ⊢
      rcases h with ⟨hrepeat, mid, hfirst, hrest⟩ | ⟨hleave, _⟩
      · -- The iterations come back to where they began, so the first is empty.
        have hforward := le_of_covers env e u mid hu hfirst
        have hback := le_of_covers_iterations q _ env.text.size (le_of_covers env e) 1 _ mid u
          hforward.2 hrest
        rw [Nat.le_antisymm hback hforward.1] at hfirst
        refine Or.inl ⟨hrepeat, v, covers_empty_block hu hv e hb.2.2 hinside hfirst, ?_⟩
        rw [bne_self_eq_false]
        exact Quantifier.Covers.leave _ _ _ (Bool.or_true _)
      · exact Or.inr ⟨hleave, rfl⟩

theorem covers_empty_sequence (hu : u ≤ env.text.size) (hv : v ≤ env.text.size)
    (s : List Block) (hs : Sequence.Proper s)
    (hno : ∀ a, Operation.anchor a ∉ Sequence.operations s) (h : Sequence.Covers env s u u) :
    Sequence.Covers env s v v := by
  cases s with
  | nil => rfl
  | cons b rest =>
      rcases h with ⟨mid, hb, hrest⟩
      have hforward := le_of_covers env b u mid hu hb
      have hback := le_of_covers_sequence env rest mid u hforward.2 hrest
      rw [Nat.le_antisymm hback.1 hforward.1] at hb hrest
      have hfirst := covers_empty_block hu hv b hs.1
        (fun a hmem => hno a (List.mem_append_left _ hmem)) hb
      exact ⟨v, hfirst, covers_empty_sequence hu hv rest hs.2
        (fun a hmem => hno a (List.mem_append_right _ hmem)) hrest⟩

theorem covers_empty_alternatives (hu : u ≤ env.text.size) (hv : v ≤ env.text.size)
    (alts : List (List Block)) (halts : Alternatives.Proper alts)
    (hno : ∀ s ∈ alts, ∀ a, Operation.anchor a ∉ Sequence.operations s)
    (h : Alternatives.Covers env alts u u) : Alternatives.Covers env alts v v := by
  cases alts with
  | nil => exact h.elim
  | cons s rest =>
      refine h.imp (covers_empty_sequence hu hv s halts.1 (hno s List.mem_cons_self)) ?_
      exact covers_empty_alternatives hu hv rest halts.2
        (fun t ht => hno t (List.mem_cons_of_mem _ ht))

end

end Anchorless

/-- A block without anchors keeps to the empty text. -/
theorem keepsEmpty_block (env : Env) (b : Block) (hb : b.Proper)
    (hno : ∀ a, Operation.anchor a ∉ b.operations) (s : Nat) : b.KeepsEmpty env s :=
  fun u v _ hle hv h => covers_empty_block env u v (Nat.le_trans hle hv) hv b hb hno h

-- Behind the end of the text there is nowhere to go on to.
theorem Block.KeepsEmpty.min_size (env : Env) (b : Block) (s : Nat) (h : b.KeepsEmpty env s) :
    b.KeepsEmpty env (min s env.text.size) := by
  intro u v hs hle hv hempty
  by_cases hsize : s ≤ env.text.size
  · rw [Nat.min_eq_left hsize] at hs
    exact h u v hs hle hv hempty
  · rw [Nat.min_eq_right (Nat.le_of_not_le hsize)] at hs
    rw [show v = u by omega]
    exact hempty

-- Programs with the same options put the same tests to a text.
theorem sameTests_of_options (p p' : Program) (h : p.options = p'.options) (text : Bytes)
    (flags : SearchFlags) (scan : ExactScan) :
    SameTests ⟨p, text, flags, scan⟩ ⟨p', text, flags, scan⟩ where
  size := rfl
  literal := fun _ _ => by simp only [Env.ignoreCase, h]
  set := fun _ _ => rfl
  anyChar := fun _ => by simp only [Env.multiline, Env.byteIs, h]
  anyString := fun _ => by
    simp only [Env.stretches, Env.multiline, Env.minimal, h]
    rfl
  anchor := fun _ a => by
    cases a <;> simp only [Env.holdsAt, Env.multiline, Env.byteBeforeIs, Env.byteIs, h]

section Programs

variable (options : CompileOptions) (text : Bytes) (search : SearchOptions) (scan : ExactScan)

/-- An anchored search with one program succeeds where it does with another, if the
    other matches where the first one does. -/
theorem found_of_matchAt (p p' : Program) (hoptions : p.options = p'.options) (s : Nat)
    (hmatch : let flags := (search.withAnchored true).flags
      (matchAt ⟨p, text, flags, scan⟩ (min s text.size)).isSome = true →
        (matchAt ⟨p', text, flags, scan⟩ (min s text.size)).isSome = true)
    (h : p.FoundAt text search scan s) : p'.FoundAt text search scan s := by
  unfold Program.FoundAt at h ⊢
  by_cases hs : s ≤ text.size
  · rw [Nat.min_eq_left hs] at hmatch
    rw [search_anchored p text s (search.withAnchored true) scan rfl hs] at h
    rw [search_anchored p' text s (search.withAnchored true) scan rfl hs]
    exact hmatch h
  · -- Behind the text the direction decides, and both programs have the same one.
    have hbehind := Nat.lt_of_not_le hs
    have hdirection : p.direction (search.withAnchored true) =
        p'.direction (search.withAnchored true) := by
      rw [Program.direction, Program.direction, hoptions]
    rw [Nat.min_eq_right (Nat.le_of_lt hbehind)] at hmatch
    rw [search_anchored_behind p text s (search.withAnchored true) scan rfl hbehind,
      hdirection] at h
    rw [search_anchored_behind p' text s (search.withAnchored true) scan rfl hbehind]
    cases hside : p'.direction (search.withAnchored true) with
    | forward =>
        rw [hside] at h
        exact h
    | backward =>
        rw [hside] at h
        exact hmatch h

/-- A program that is laid out from blocks in a row matches where they cover something. -/
theorem matchAt_sequence_iff (env : Env) (s : List Block) (hs : Sequence.Proper s)
    (hprogram : env.program.operations = link (Sequence.operations s ++ [.finish])) (u : Nat)
    (hu : u ≤ env.text.size) :
    (matchAt env u).isSome = true ↔ ∃ stop, Sequence.Covers env s u stop := by
  rw [matchAt_isSome_iff env [s] (List.cons_ne_nil _ _) ⟨hs, trivial⟩ hprogram u hu]
  simp only [Alternatives.Covers, or_false]

-- Copies of a block are laid out as copies of its operations.
theorem operations_copies (n : Nat) (b : Block) (t : List Block) :
    Sequence.operations (List.replicate n b ++ t) =
      (List.replicate n b.operations).flatten ++ Sequence.operations t := by
  induction n with
  | zero => rfl
  | succ n ih =>
      rw [List.replicate_succ, List.replicate_succ, List.cons_append, Sequence.operations, ih,
        List.flatten_cons, List.append_assoc]

variable (n : Nat) (greedy : Bool) (b : Block) (t : List Block)

/-- Where the loop of a block and the rest behind it match. -/
theorem matchAt_counted_iff (hn : n ≤ Pattern.maxRepeat) (hb : b.Proper)
    (hrepeatable : b.Repeatable) (ht : Sequence.Proper t) (flags : SearchFlags) (u : Nat)
    (hu : u ≤ text.size) :
    let program := Program.counted options n greedy b.operations (Sequence.operations t)
    let env : Env := ⟨program, text, flags, scan⟩
    (matchAt env u).isSome = true ↔
      ∃ m ≤ n, ∃ mid stop, Advances (b.Covers env) m u mid ∧ (m < n → b.Covers env mid mid) ∧
        Sequence.Covers env t mid stop := by
  intro program env
  have hbounded : (Quantifier.exactly n greedy).Bounded :=
    ⟨hn, fun m hm => ⟨Nat.le_of_eq (Option.some.inj hm), Option.some.inj hm ▸ hn⟩⟩
  have hproper : Sequence.Proper (.quantified (.exactly n greedy) b :: t) :=
    ⟨⟨hbounded, hrepeatable, hb⟩, ht⟩
  have hprogram : program.operations =
      link (Sequence.operations (.quantified (.exactly n greedy) b :: t) ++ [.finish]) := by
    simp only [program, Program.counted, Program.ofOperations, Sequence.operations,
      Block.operations, List.cons_append, List.append_assoc, List.nil_append]
  rw [matchAt_sequence_iff env _ hproper hprogram u hu]
  simp only [Sequence.Covers, Block.Covers,
    covers_exactly (le_of_covers env b) n greedy u _ hu]
  constructor
  · rintro ⟨stop, mid, ⟨m, hm, hadvances, hempty⟩, hrest⟩
    exact ⟨m, hm, mid, stop, hadvances, hempty, hrest⟩
  · rintro ⟨m, hm, mid, stop, hadvances, hempty, hrest⟩
    exact ⟨stop, mid, ⟨m, hm, hadvances, hempty⟩, hrest⟩

/-- Where the copies of a block and the rest behind them match. The tests are the same as
    those of the loop, so what a block covers is said in its terms. -/
theorem matchAt_copied_iff (hb : b.Proper) (ht : Sequence.Proper t) (flags : SearchFlags)
    (u : Nat) (hu : u ≤ text.size) :
    let program := Program.copied options n b.operations (Sequence.operations t)
    let env : Env :=
      ⟨Program.counted options n greedy b.operations (Sequence.operations t), text, flags, scan⟩
    (matchAt ⟨program, text, flags, scan⟩ u).isSome = true ↔
      ∃ mid stop, Sequence.Covers env (List.replicate n b) u mid ∧
        Sequence.Covers env t mid stop := by
  intro program env
  have hproper : Sequence.Proper (List.replicate n b ++ t) := by
    rw [Sequence.proper_iff]
    intro x hx
    rcases List.mem_append.1 hx with hx | hx
    · exact List.eq_of_mem_replicate hx ▸ hb
    · exact (Sequence.proper_iff t).1 ht x hx
  have hprogram : program.operations =
      link (Sequence.operations (List.replicate n b ++ t) ++ [.finish]) := by
    rw [operations_copies, List.append_assoc]
    rfl
  have hsame : SameTests ⟨program, text, flags, scan⟩ env :=
    sameTests_of_options program env.program rfl text flags scan
  have hcongr := fun stop => covers_congr_sequence _ env hsame (List.replicate n b ++ t) u stop hu
  rw [matchAt_sequence_iff ⟨program, text, flags, scan⟩ _ hproper hprogram u hu,
    exists_congr hcongr]
  simp only [covers_append]
  exact exists_comm

section Comparison

variable (hn : n ≤ Pattern.maxRepeat) (hb : b.Proper) (hrepeatable : b.Repeatable)
  (ht : Sequence.Proper t) (s : Nat)

include hn hb hrepeatable ht

/-- Where the loop of a block is found, its copies are found as well. -/
theorem found_copied_of_counted
    (h : (Program.counted options n greedy b.operations (Sequence.operations t)).FoundAt
      text search scan s) :
    (Program.copied options n b.operations (Sequence.operations t)).FoundAt text search scan s := by
  refine found_of_matchAt text search scan (Program.counted options n greedy _ _)
    (Program.copied options n _ _) rfl s (fun hmatch => ?_) h
  have hu := Nat.min_le_right s text.size
  rcases
    (matchAt_counted_iff options text scan n greedy b t hn hb hrepeatable ht _ _ hu).1 hmatch with
    ⟨m, hm, mid, stop, hadvances, hempty, hcovers⟩
  refine (matchAt_copied_iff options text scan n greedy b t hb ht _ _ hu).2 ⟨mid, stop, ?_, hcovers⟩
  exact covers_copies _ b n m _ mid hm hadvances hempty

/-- Where its copies are found, the loop of a block that keeps to the empty text is found
    as well. -/
theorem found_counted_of_copied
    (hkeeps : b.KeepsEmpty ⟨Program.counted options n greedy b.operations (Sequence.operations t),
      text, (search.withAnchored true).flags, scan⟩ s)
    (h : (Program.copied options n b.operations (Sequence.operations t)).FoundAt
      text search scan s) :
    (Program.counted options n greedy b.operations (Sequence.operations t)).FoundAt
      text search scan s := by
  refine found_of_matchAt text search scan (Program.copied options n _ _)
    (Program.counted options n greedy _ _) rfl s (fun hmatch => ?_) h
  have hu := Nat.min_le_right s text.size
  rcases (matchAt_copied_iff options text scan n greedy b t hb ht _ _ hu).1 hmatch with
    ⟨mid, stop, hcopies, hcovers⟩
  rcases advances_of_copies _ b _ (hkeeps.min_size _ b s) n _ mid (Nat.le_refl _) hu hcopies with
    ⟨m, hm, hadvances, hempty⟩
  exact (matchAt_counted_iff options text scan n greedy b t hn hb hrepeatable ht _ _ hu).2
    ⟨m, hm, mid, stop, hadvances, hempty, hcovers⟩

/-- At a position of the text the loop of a block is found if iterations that consume
    something lead on to the rest, and behind fewer than all of them an empty one. -/
theorem found_counted_iff (hs : s ≤ text.size) :
    let program := Program.counted options n greedy b.operations (Sequence.operations t)
    let env : Env := ⟨program, text, (search.withAnchored true).flags, scan⟩
    program.FoundAt text search scan s ↔
      ∃ m ≤ n, ∃ mid stop, Advances (b.Covers env) m s mid ∧ (m < n → b.Covers env mid mid) ∧
        Sequence.Covers env t mid stop := by
  intro program env
  rw [Program.FoundAt, search_anchored program text s (search.withAnchored true) scan rfl hs]
  exact matchAt_counted_iff options text scan n greedy b t hn hb hrepeatable ht _ s hs

end Comparison

variable (k : GroupNumber) (body rest : List Operation)

/-- A group that is repeated exactly `n` times and `n` copies of it in a row. The anchored
    search with the loop succeeds where at most `n` iterations that consume something lead
    on to the rest, if there are fewer behind one more that is empty. Then the copies match
    as well. The copies match nowhere else if the group keeps to the empty text, so if
    there is no anchor in it. -/
theorem counted_copied (hbody : IsAlternatives body) (hrest : IsSequence rest)
    (hn : n ≤ Pattern.maxRepeat) (s : Nat) :
    let block := .openGroup k :: (body ++ [.closeGroup k])
    let counted := Program.counted options n greedy block rest
    let copied := Program.copied options n block rest
    let env : Env := ⟨counted, text, (search.withAnchored true).flags, scan⟩
    (counted.FoundAt text search scan s → copied.FoundAt text search scan s) ∧
      ((∀ a, Operation.anchor a ∉ block) →
        (copied.FoundAt text search scan s ↔ counted.FoundAt text search scan s)) ∧
      ∃ (b : Block) (t : List Block), b.Proper ∧ b.operations = block ∧ Sequence.Proper t ∧
        Sequence.operations t = rest ∧
        (b.KeepsEmpty env s →
          (copied.FoundAt text search scan s ↔ counted.FoundAt text search scan s)) ∧
        (s ≤ text.size → (counted.FoundAt text search scan s ↔
          ∃ m ≤ n, ∃ mid stop, Advances (b.Covers env) m s mid ∧
            (m < n → b.Covers env mid mid) ∧ Sequence.Covers env t mid stop)) := by
  intro block counted copied env
  rcases exists_alternatives body hbody with ⟨alts, hne, halts, rfl⟩
  rcases exists_sequence rest hrest with ⟨t, ht, rfl⟩
  let b := Block.group k alts
  have hb : b.Proper := ⟨hne, halts⟩
  have honward := found_copied_of_counted options text search scan n greedy b t hn hb trivial ht s
  have hback : b.KeepsEmpty env s →
      (copied.FoundAt text search scan s ↔ counted.FoundAt text search scan s) := fun hkeeps =>
    ⟨found_counted_of_copied options text search scan n greedy b t hn hb trivial ht s hkeeps,
      honward⟩
  exact ⟨honward, fun hno => hback (keepsEmpty_block env b hb hno s), b, t, hb, rfl, ht, rfl, hback,
    found_counted_iff options text search scan n greedy b t hn hb trivial ht s⟩

end Programs

-- The group of `(|a){3}$` can match the empty text and has no anchor in it, so that in
-- `aa` the loop and three copies match alike.
theorem counted_copied_optional :
    let body : List Operation :=
      [.branch, .branchEnd, .branch, .literal #[0x61] (Literal.borders? #[0x61]), .branchEnd]
    let block : List Operation :=
      .openGroup ⟨1, by decide⟩ :: (body ++ [.closeGroup ⟨1, by decide⟩])
    let found (p : Program) := p.FoundAt #[0x61, 0x61] .forward .walk 0
    IsAlternatives body ∧ IsSequence [.anchor .lineEnd] ∧ 3 ≤ Pattern.maxRepeat ∧
      (∀ a, Operation.anchor a ∉ block) ∧
      found (Program.counted {} 3 true block [.anchor .lineEnd]) ∧
      found (Program.copied {} 3 block [.anchor .lineEnd]) := by
  intro body block found
  have hbyte : IsSequence [.literal #[0x61] (Literal.borders? #[0x61])] :=
    .cons _ [] (.literal _ (by decide)) .nil
  have hbody : IsAlternatives body := .several [] _ .nil (.single _ hbyte)
  have hrest : IsSequence [.anchor .lineEnd] := .cons _ [] (.anchor _) .nil
  have hno : ∀ a, Operation.anchor a ∉ block := by
    simp [block, body]
  have hlimit : 3 ≤ Pattern.maxRepeat := by decide
  have hfound : found (Program.counted {} 3 true block [.anchor .lineEnd]) := by decide +kernel
  exact ⟨hbody, hrest, hlimit, hno, hfound,
    (counted_copied {} #[0x61, 0x61] .forward .walk 3 true _ body _ hbody hrest hlimit 0).1 hfound⟩

/-- Two copies of `(^|a)` match all of `a`, the first nothing at the begin of the line and
    the second the byte. A loop of two iterations is left after the empty one, and an
    empty one behind the byte would have to begin a line. -/
theorem copied_beyond_counted :
    let body : List Operation := [.branch, .anchor .lineBegin, .branchEnd,
      .branch, .literal #[0x61] (Literal.borders? #[0x61]), .branchEnd]
    let block : List Operation :=
      .openGroup ⟨1, by decide⟩ :: (body ++ [.closeGroup ⟨1, by decide⟩])
    let found (p : Program) := p.FoundAt #[0x61] .forward .walk 0
    IsAlternatives body ∧ IsSequence [.anchor .lineEnd] ∧ 2 ≤ Pattern.maxRepeat ∧
      found (Program.copied {} 2 block [.anchor .lineEnd]) ∧
      ¬found (Program.counted {} 2 true block [.anchor .lineEnd]) := by
  intro body block found
  have hbegin : IsSequence [.anchor .lineBegin] := .cons _ [] (.anchor _) .nil
  have hbyte : IsSequence [.literal #[0x61] (Literal.borders? #[0x61])] :=
    .cons _ [] (.literal _ (by decide)) .nil
  exact ⟨.several _ _ hbegin (.single _ hbyte), .cons _ [] (.anchor _) .nil, by decide,
    by decide +kernel, by decide +kernel⟩

end ByteRegex

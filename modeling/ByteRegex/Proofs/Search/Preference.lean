import ByteRegex.Proofs.Machine.Covers
import ByteRegex.Proofs.Search.Exactness

/-!
# Greediness Only Chooses Among Matches

Whether a quantifier is greedy decides which match is found at a position, but not
whether there is one. So a search with lazy quantifiers succeeds where one with greedy
quantifiers does, and what both find begins at the same position; how long it is and
what its groups hold may differ.

The machine does not make that plain. The order of its tries changes every count, every
frame and every register on the way, and the rule on empty iterations is applied to
what is on the stack. What the order cannot change is the relation of a position to the
ends that can be reached from it, in which no preference occurs. The argument takes the
trees of the two programs, forgets the preferences in both, and is left with two trees
that spell one program. They need not be the same tree: one program has one answer to
whether it matches, and each tree covers something exactly where that answer is yes.

## Main definitions

* `Quantifier.unbiased`, `CompileFlags.unbiased`: What is left without a preference.
* `Operation.unbiased`, `Block.unbiased`: An operation and a tree without preferences.

## Theorems

* `operations_unbiased`: A tree without preferences spells the operations without them.
* `covers_unbiased`: A tree covers the same without its preferences.
* `matchAt_start_of_unbiased`: Programs that differ in their preferences match in the
  same places.
* `search_unbiased`: So their matches are found at the same positions.
-/

namespace ByteRegex

open Machine

/-- A quantifier with its preference forgotten; every quantifier counts as greedy. -/
def Quantifier.unbiased (q : Quantifier) : Quantifier := { q with greedy := true }

/-- The flags of a program with its preference for short matches forgotten. -/
def CompileFlags.unbiased (flags : CompileFlags) : CompileFlags := { flags with minimal := false }

/-- An operation with the preference of its quantifier forgotten. -/
def Operation.unbiased : Operation → Operation
  | .quantifier q => .quantifier q.unbiased
  | op => op

mutual

/-- A block with the preferences of its quantifiers forgotten. -/
def Block.unbiased : Block → Block
  | .literal w => .literal w
  | .set s => .set s
  | .anyChar => .anyChar
  | .anyString => .anyString
  | .anchor a => .anchor a
  | .cursor => .cursor
  | .group n alternatives => .group n (Alternatives.unbiased alternatives)
  | .quantified q element => .quantified q.unbiased element.unbiased

/-- Blocks in a row with their preferences forgotten. -/
def Sequence.unbiased : List Block → List Block
  | [] => []
  | b :: rest => b.unbiased :: Sequence.unbiased rest

/-- Sequences to choose from with their preferences forgotten. -/
def Alternatives.unbiased : List (List Block) → List (List Block)
  | [] => []
  | s :: rest => Sequence.unbiased s :: Alternatives.unbiased rest

end

mutual

/-- A block without preferences spells its operations without them. -/
theorem operations_unbiased (b : Block) :
    b.unbiased.operations = b.operations.map Operation.unbiased := by
  cases b with
  | group n alts =>
      simp only [Block.unbiased, Block.operations, operations_unbiased_alternatives alts,
        List.map_cons, List.map_append, List.map_nil, Operation.unbiased]
  | quantified q e =>
      simp only [Block.unbiased, Block.operations, operations_unbiased e, List.map_cons,
        List.map_append, List.map_nil, Operation.unbiased]
  | _ => rfl

theorem operations_unbiased_sequence (s : List Block) :
    Sequence.operations (Sequence.unbiased s) =
      (Sequence.operations s).map Operation.unbiased := by
  cases s with
  | nil => rfl
  | cons b rest =>
      simp only [Sequence.unbiased, Sequence.operations, operations_unbiased b,
        operations_unbiased_sequence rest, List.map_append]

theorem operations_unbiased_alternatives (alts : List (List Block)) :
    Alternatives.operations (Alternatives.unbiased alts) =
      (Alternatives.operations alts).map Operation.unbiased := by
  match alts with
  | [] => rfl
  | [s] => exact operations_unbiased_sequence s
  | s :: t :: rest =>
      have hrest := operations_unbiased_branches (t :: rest)
      simp only [Alternatives.unbiased] at hrest
      simp only [Alternatives.unbiased, Alternatives.operations, operations_unbiased_sequence s,
        hrest, List.map_cons, List.map_append, Operation.unbiased]

theorem operations_unbiased_branches (alts : List (List Block)) :
    Alternatives.branches (Alternatives.unbiased alts) =
      (Alternatives.branches alts).map Operation.unbiased := by
  cases alts with
  | nil => rfl
  | cons s rest =>
      simp only [Alternatives.unbiased, Alternatives.branches, operations_unbiased_sequence s,
        operations_unbiased_branches rest, List.map_cons, List.map_append, Operation.unbiased]

end

mutual

-- A preference has no part in whether a tree is well formed.
theorem proper_unbiased (b : Block) (h : b.Proper) : b.unbiased.Proper := by
  cases b with
  | group n alts =>
      refine ⟨?_, proper_unbiased_alternatives alts h.2⟩
      cases alts with
      | nil => exact absurd rfl h.1
      | cons s rest => exact List.cons_ne_nil _ _
  | quantified q e =>
      refine ⟨h.1, ?_, proper_unbiased e h.2.2⟩
      have hrepeatable := h.2.1
      cases e <;> exact hrepeatable
  | _ => exact h

theorem proper_unbiased_sequence (s : List Block) (h : Sequence.Proper s) :
    Sequence.Proper (Sequence.unbiased s) := by
  cases s with
  | nil => trivial
  | cons b rest => exact ⟨proper_unbiased b h.1, proper_unbiased_sequence rest h.2⟩

theorem proper_unbiased_alternatives (alts : List (List Block)) (h : Alternatives.Proper alts) :
    Alternatives.Proper (Alternatives.unbiased alts) := by
  cases alts with
  | nil => trivial
  | cons s rest => exact ⟨proper_unbiased_sequence s h.1, proper_unbiased_alternatives rest h.2⟩

end

-- The bounds are all that a row of iterations knows of its quantifier.
theorem Quantifier.covers_of_bounds (q q' : Quantifier) (hmin : q.min = q'.min)
    (hmax : q.max = q'.max) (body : Nat → Nat → Prop) (count : Nat) (consumed : Bool)
    (pos stop : Nat) (h : q.Covers body count consumed pos stop) :
    q'.Covers body count consumed pos stop := by
  induction h with
  | leave count consumed pos hleave =>
      rw [mayLeave, hmin] at hleave
      exact Covers.leave _ _ _ hleave
  | again count consumed pos mid stop hrepeat hbody _ ih =>
      rw [mayRepeat, hmax] at hrepeat
      exact Covers.again _ _ _ mid _ hrepeat hbody ih

theorem Quantifier.covers_unbiased (q : Quantifier) (body : Nat → Nat → Prop) :
    q.Covers body 0 true = q.unbiased.Covers body 0 true := by
  funext pos stop
  exact propext ⟨covers_of_bounds q q.unbiased rfl rfl body 0 true pos stop,
    covers_of_bounds q.unbiased q rfl rfl body 0 true pos stop⟩

-- Without the preference all other flags are as they were.
theorem CompileFlags.eq_of_unbiased (f f' : CompileFlags) (h : f.unbiased = f'.unbiased) :
    f.ignoreCase = f'.ignoreCase ∧ f.backward = f'.backward ∧ f.multiline = f'.multiline := by
  rcases CompileFlags.mk.inj h with ⟨hcase, _, hbackward, hlines⟩
  exact ⟨hcase, hbackward, hlines⟩

section Covers

variable (p p' : Program) (text : Bytes) (flags : SearchFlags) (scan : ExactScan)

mutual

/-- What a block covers it also covers without its preferences, in a match with a
    program that has other preferences. -/
theorem covers_unbiased (h : p.options.flags.unbiased = p'.options.flags.unbiased) (b : Block) :
    b.Covers ⟨p, text, flags, scan⟩ = b.unbiased.Covers ⟨p', text, flags, scan⟩ := by
  rcases CompileFlags.eq_of_unbiased _ _ h with ⟨hcase, _, hlines⟩
  funext pos stop
  cases b with
  | literal w => simp only [Block.unbiased, Block.Covers, Env.ignoreCase, hcase]
  | set s => rfl
  | anyChar => simp only [Block.unbiased, Block.Covers, Env.byteIs, Env.multiline, hlines]
  | anyString =>
      simp only [Block.unbiased, Block.Covers, mem_stretches_iff, Env.multiline, hlines]
  | anchor a =>
      cases a <;>
        simp only [Block.unbiased, Block.Covers, Env.holdsAt, Env.byteBeforeIs, Env.byteIs,
          Env.multiline, hlines]
  | cursor => rfl
  | group n alts => simp only [Block.unbiased, Block.Covers, covers_unbiased_alternatives h alts]
  | quantified q e =>
      simp only [Block.unbiased, Block.Covers, covers_unbiased h e, q.covers_unbiased]

theorem covers_unbiased_sequence (h : p.options.flags.unbiased = p'.options.flags.unbiased)
    (s : List Block) :
    Sequence.Covers ⟨p, text, flags, scan⟩ s =
      Sequence.Covers ⟨p', text, flags, scan⟩ (Sequence.unbiased s) := by
  funext pos stop
  cases s with
  | nil => rfl
  | cons b rest =>
      simp only [Sequence.unbiased, Sequence.Covers, covers_unbiased h b,
        covers_unbiased_sequence h rest]

theorem covers_unbiased_alternatives (h : p.options.flags.unbiased = p'.options.flags.unbiased)
    (alts : List (List Block)) :
    Alternatives.Covers ⟨p, text, flags, scan⟩ alts =
      Alternatives.Covers ⟨p', text, flags, scan⟩ (Alternatives.unbiased alts) := by
  funext pos stop
  cases alts with
  | nil => rfl
  | cons s rest =>
      simp only [Alternatives.unbiased, Alternatives.Covers, covers_unbiased_sequence h s,
        covers_unbiased_alternatives h rest]

end

end Covers

namespace Machine

-- A program matches where the program does that its tree spells without preferences.
theorem matchAt_isSome_unbiased (options : CompileOptions) (t : Pattern) (ht : t.Proper)
    (options' : CompileOptions) (h : options.flags.unbiased = options'.flags.unbiased)
    (text : Bytes) (flags : SearchFlags) (scan : ExactScan) (s : Nat) (hs : s ≤ text.size) :
    (matchAt ⟨Program.ofPattern options t, text, flags, scan⟩ s).isSome = true ↔
      (matchAt ⟨Program.ofOperations options' (t.operations.map Operation.unbiased), text, flags,
        scan⟩ s).isSome = true := by
  have hne : Alternatives.unbiased t.alternatives ≠ [] := by
    cases halts : t.alternatives with
    | nil => exact absurd halts ht.nonempty
    | cons s rest => exact List.cons_ne_nil _ _
  have hlink : (Program.ofOperations options' (t.operations.map Operation.unbiased)).operations =
      link (Alternatives.operations (Alternatives.unbiased t.alternatives) ++ [.finish]) := by
    rw [operations_unbiased_alternatives, Program.ofOperations, Pattern.operations, List.map_append]
    rfl
  rw [matchAt_isSome_iff _ t.alternatives ht.nonempty ht.parts rfl s hs,
    matchAt_isSome_iff _ _ hne (proper_unbiased_alternatives _ ht.parts) hlink s hs,
    covers_unbiased_alternatives (Program.ofPattern options t)
      (Program.ofOperations options' (t.operations.map Operation.unbiased)) text flags scan h]

-- A match at a position has its start there.
theorem matchAt_map_start (env : Env) (s : Nat) :
    (matchAt env s).map Match.start = if (matchAt env s).isSome then some s else none := by
  rw [matchAt]
  cases start env s <;> rfl

/-- Two programs whose operations differ in their preferences match at the same
    positions. -/
theorem matchAt_start_of_unbiased (options options' : CompileOptions) (t u : Pattern)
    (ht : t.Proper) (hu : u.Proper)
    (hoperations : t.operations.map Operation.unbiased = u.operations.map Operation.unbiased)
    (hflags : options.flags.unbiased = options'.flags.unbiased) (text : Bytes)
    (flags : SearchFlags) (scan : ExactScan) (s : Nat) (hs : s ≤ text.size) :
    (matchAt ⟨Program.ofPattern options t, text, flags, scan⟩ s).map Match.start =
      (matchAt ⟨Program.ofPattern options' u, text, flags, scan⟩ s).map Match.start := by
  have hboth : (matchAt ⟨Program.ofPattern options t, text, flags, scan⟩ s).isSome = true ↔
      (matchAt ⟨Program.ofPattern options' u, text, flags, scan⟩ s).isSome = true := by
    rw [matchAt_isSome_unbiased options t ht options' hflags text flags scan s hs,
      matchAt_isSome_unbiased options' u hu options' rfl text flags scan s hs, hoperations]
  rw [matchAt_map_start, matchAt_map_start, Bool.eq_iff_iff.2 hboth]

end Machine

/-- Of two programs whose operations are equal but for the preferences of their quantifiers,
    and whose flags are equal but for the preference of short matches, a search finds a
    match with one if and only if it finds one with the other, and both matches have the
    same start: in every text, from every offset and with all options. -/
theorem search_unbiased (options options' : CompileOptions) (pattern pattern' : Bytes)
    (p p' : Program) (hp : compile options pattern = .ok p)
    (hp' : compile options' pattern' = .ok p')
    (hoperations : p.emitted.map Operation.unbiased = p'.emitted.map Operation.unbiased)
    (hflags : p.options.flags.unbiased = p'.options.flags.unbiased) (text : Bytes) (offset : Nat)
    (search : SearchOptions) (scan : ExactScan) :
    (p.search text offset search scan).map Match.start =
      (p'.search text offset search scan).map Match.start := by
  rcases compile_ok options pattern p hp with ⟨t, ht, rfl⟩
  rcases compile_ok options' pattern' p' hp' with ⟨u, hu, rfl⟩
  rw [Program.emitted_ofPattern, Program.emitted_ofPattern] at hoperations
  have hdirection : (Program.ofPattern options t).direction search =
      (Program.ofPattern options' u).direction search := by
    rw [Program.direction, Program.direction, (CompileFlags.eq_of_unbiased _ _ hflags).2.1]
  exact search_map_congr text offset search scan t ht options rfl u hu options' rfl rfl hdirection
    rfl Match.start
    (matchAt_start_of_unbiased options options' t u ht hu hoperations hflags text search.flags
      scan)

-- The pattern `x(a|b)+` and its lazy sibling, compiled to prefer short matches, find
-- matches of different lengths that have the same start.
theorem search_unbiased_lazy :
    ∃ p p', compile { dialect := .perl } #[0x78, 0x28, 0x61, 0x7C, 0x62, 0x29, 0x2B] = .ok p ∧
      compile { dialect := .perl, flags := { minimal := true } }
        #[0x78, 0x28, 0x61, 0x7C, 0x62, 0x29, 0x2B, 0x3F] = .ok p' ∧
      p.emitted.map Operation.unbiased = p'.emitted.map Operation.unbiased ∧
      p.options.flags.unbiased = p'.options.flags.unbiased ∧
      (p.search #[0x2D, 0x78, 0x61, 0x62] 0 .forward).map Match.stop = some 4 ∧
      (p'.search #[0x2D, 0x78, 0x61, 0x62] 0 .forward).map Match.stop = some 3 ∧
      (p.search #[0x2D, 0x78, 0x61, 0x62] 0 .forward).map Match.start =
        (p'.search #[0x2D, 0x78, 0x61, 0x62] 0 .forward).map Match.start := by
  have hvalue : (compile { dialect := .perl }
      #[0x78, 0x28, 0x61, 0x7C, 0x62, 0x29, 0x2B]).toOption.any (fun p =>
        (compile { dialect := .perl, flags := { minimal := true } }
          #[0x78, 0x28, 0x61, 0x7C, 0x62, 0x29, 0x2B, 0x3F]).toOption.any fun p' =>
            decide (p.emitted.map Operation.unbiased = p'.emitted.map Operation.unbiased ∧
              p.options.flags.unbiased = p'.options.flags.unbiased ∧
              (p.search #[0x2D, 0x78, 0x61, 0x62] 0 .forward).map Match.stop = some 4 ∧
              (p'.search #[0x2D, 0x78, 0x61, 0x62] 0 .forward).map Match.stop = some 3))
        = true := by decide +kernel
  rcases exists_ok_of_any _ _ hvalue with ⟨p, h, hvalue⟩
  rcases exists_ok_of_any _ _ hvalue with ⟨p', h', hvalue⟩
  rcases of_decide_eq_true hvalue with ⟨hoperations, hflags, hstop, hstop'⟩
  exact ⟨p, p', h, h', hoperations, hflags, hstop, hstop',
    search_unbiased _ _ _ _ p p' h h' hoperations hflags _ 0 .forward .walk⟩

end ByteRegex

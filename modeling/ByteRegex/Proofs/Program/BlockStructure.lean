import ByteRegex.Proofs.Pattern.WellFormed
import ByteRegex.Proofs.Program.Linking

/-!
# The Structure of Emitted Code

The operations that a pattern is compiled to form a flat list, and the linker
takes for granted that they nest. This module says what nesting means without
speaking of trees, and shows that the layout of every well-formed tree has it.

`IsBlock`, `IsSequence` and `IsAlternatives` are a grammar of operation lists. A
block is a test, a mark, a group or a loop, a sequence is blocks in a row, and a
choice is a sequence or at least two enclosed ones. A loop encloses one element,
and its bounds are in order.

The grammar derives no more than the layouts of well-formed trees, so what it
derives is balanced, which is what the linker asks for.

## Main definitions

* `IsBlock`, `IsElement`, `IsSequence`, `IsBranches`, `IsAlternatives`: The
  grammar.
* `IsProgram`: A choice that ends in the only `finish`.
* `Program.emitted`: The operations of a program, before they are linked.

## Theorems

* `operations_isBlock`: A well-formed block is laid out by the grammar.
* `exists_block`: The grammar derives nothing else.
* `balanced_of_isProgram`: What it derives is balanced.
* `openings_block`: Its groups open in the order of their numbers.
* `operations_isProgram`: A well-formed tree is laid out as a program of the grammar.
* `compile_ok`: The program of a pattern comes from a well-formed tree.
-/

namespace ByteRegex

mutual

/-- Operations that belong together: a test, a mark, a group or a loop. A run of
    literals carries the table that its length calls for. -/
inductive IsBlock : List Operation → Prop where
  | literal (w : Bytes) (h : 0 < w.size) : IsBlock [.literal w (Literal.borders? w)]
  | set (s : ByteSet) : IsBlock [.set s]
  | anyChar : IsBlock [.anyChar]
  | anyString : IsBlock [.anyString]
  | anchor (a : Anchor) : IsBlock [.anchor a]
  | cursor : IsBlock [.cursor]
  | group (n : GroupNumber) (body : List Operation) (h : IsAlternatives body) :
      IsBlock (.openGroup n :: (body ++ [.closeGroup n]))
  | loop (q : Quantifier) (x : List Operation) (hq : q.Bounded) (hx : IsElement x) :
      IsBlock (.quantifier q :: (x ++ [.loop]))

/-- What a loop can enclose. -/
inductive IsElement : List Operation → Prop where
  | byte (w : Bytes) (h : w.size = 1) : IsElement [.literal w (Literal.borders? w)]
  | set (s : ByteSet) : IsElement [.set s]
  | anyChar : IsElement [.anyChar]
  | group (n : GroupNumber) (body : List Operation) (h : IsAlternatives body) :
      IsElement (.openGroup n :: (body ++ [.closeGroup n]))

/-- Blocks in a row. -/
inductive IsSequence : List Operation → Prop where
  | nil : IsSequence []
  | cons (b s : List Operation) (hb : IsBlock b) (hs : IsSequence s) : IsSequence (b ++ s)

/-- Enclosed sequences in a row, at least one of them. -/
inductive IsBranches : List Operation → Prop where
  | single (s : List Operation) (h : IsSequence s) : IsBranches (.branch :: (s ++ [.branchEnd]))
  | cons (s rest : List Operation) (hs : IsSequence s) (hrest : IsBranches rest) :
      IsBranches (.branch :: (s ++ .branchEnd :: rest))

/-- One sequence that stands alone, or at least two that are enclosed. -/
inductive IsAlternatives : List Operation → Prop where
  | single (s : List Operation) (h : IsSequence s) : IsAlternatives s
  | several (s rest : List Operation) (hs : IsSequence s) (hrest : IsBranches rest) :
      IsAlternatives (.branch :: (s ++ .branchEnd :: rest))

end

/-- A whole program: a choice, and behind it the only `finish`. -/
def IsProgram (ops : List Operation) : Prop :=
  ∃ body, ops = body ++ [.finish] ∧ IsAlternatives body ∧ Operation.finish ∉ body

mutual

/-- A well-formed block is laid out by the grammar, by recursion on the tree. -/
theorem operations_isBlock (b : Block) (h : b.Proper) : IsBlock b.operations := by
  cases b with
  | literal w => exact IsBlock.literal w h
  | set s => exact IsBlock.set s
  | anyChar => exact IsBlock.anyChar
  | anyString => exact IsBlock.anyString
  | anchor a => exact IsBlock.anchor a
  | cursor => exact IsBlock.cursor
  | group n alts => exact IsBlock.group n _ (operations_isAlternatives alts h.2).1
  | quantified q e =>
      refine IsBlock.loop q _ h.1 ?_
      cases e with
      | literal w => exact IsElement.byte w h.2.1
      | set s => exact IsElement.set s
      | anyChar => exact IsElement.anyChar
      | group n alts => exact IsElement.group n _ (operations_isAlternatives alts h.2.2.2).1
      | anyString => exact h.2.1.elim
      | anchor a => exact h.2.1.elim
      | cursor => exact h.2.1.elim
      | quantified q' e' => exact h.2.1.elim

theorem operations_isSequence (s : List Block) (h : Sequence.Proper s) :
    IsSequence (Sequence.operations s) := by
  cases s with
  | nil => exact IsSequence.nil
  | cons b rest =>
      exact IsSequence.cons _ _ (operations_isBlock b h.1) (operations_isSequence rest h.2)

theorem operations_isAlternatives (alts : List (List Block)) (h : Alternatives.Proper alts) :
    IsAlternatives (Alternatives.operations alts) ∧
      (alts ≠ [] → IsBranches (Alternatives.branches alts)) := by
  cases alts with
  | nil => exact ⟨IsAlternatives.single _ IsSequence.nil, fun h => absurd rfl h⟩
  | cons s rest =>
      have hs := operations_isSequence s h.1
      have hrest := (operations_isAlternatives rest h.2).2
      cases rest with
      | nil => exact ⟨IsAlternatives.single _ hs, fun _ => IsBranches.single _ hs⟩
      | cons t more =>
          have hmore := hrest (List.cons_ne_nil t more)
          exact ⟨IsAlternatives.several _ _ hs hmore, fun _ => IsBranches.cons _ _ hs hmore⟩

end

mutual

/-- Every block of the grammar is laid out from a well-formed one, by induction on how
    the grammar derives it. -/
theorem exists_block (ops : List Operation) (h : IsBlock ops) :
    ∃ b : Block, b.Proper ∧ b.operations = ops := by
  match h with
  | .literal w hw => exact ⟨.literal w, hw, rfl⟩
  | .set s => exact ⟨.set s, trivial, rfl⟩
  | .anyChar => exact ⟨.anyChar, trivial, rfl⟩
  | .anyString => exact ⟨.anyString, trivial, rfl⟩
  | .anchor a => exact ⟨.anchor a, trivial, rfl⟩
  | .cursor => exact ⟨.cursor, trivial, rfl⟩
  | .group n body hbody =>
      rcases exists_alternatives body hbody with ⟨alts, hne, hproper, rfl⟩
      exact ⟨.group n alts, ⟨hne, hproper⟩, rfl⟩
  | .loop q x hq hx =>
      rcases exists_element x hx with ⟨e, hrepeatable, hproper, rfl⟩
      exact ⟨.quantified q e, ⟨hq, hrepeatable, hproper⟩, rfl⟩
  termination_by structural h

theorem exists_element (ops : List Operation) (h : IsElement ops) :
    ∃ b : Block, b.Repeatable ∧ b.Proper ∧ b.operations = ops := by
  match h with
  | .byte w hw => exact ⟨.literal w, hw, Nat.lt_of_lt_of_eq Nat.zero_lt_one hw.symm, rfl⟩
  | .set s => exact ⟨.set s, trivial, trivial, rfl⟩
  | .anyChar => exact ⟨.anyChar, trivial, trivial, rfl⟩
  | .group n body hbody =>
      rcases exists_alternatives body hbody with ⟨alts, hne, hproper, rfl⟩
      exact ⟨.group n alts, trivial, ⟨hne, hproper⟩, rfl⟩
  termination_by structural h

theorem exists_sequence (ops : List Operation) (h : IsSequence ops) :
    ∃ s : List Block, Sequence.Proper s ∧ Sequence.operations s = ops := by
  match h with
  | .nil => exact ⟨[], trivial, rfl⟩
  | .cons b rest hb hrest =>
      rcases exists_block b hb with ⟨first, hfirst, rfl⟩
      rcases exists_sequence rest hrest with ⟨s, hs, rfl⟩
      exact ⟨first :: s, ⟨hfirst, hs⟩, rfl⟩
  termination_by structural h

theorem exists_branches (ops : List Operation) (h : IsBranches ops) :
    ∃ alts : List (List Block), alts ≠ [] ∧ Alternatives.Proper alts ∧
      Alternatives.branches alts = ops := by
  match h with
  | .single body hbody =>
      rcases exists_sequence body hbody with ⟨s, hs, rfl⟩
      exact ⟨[s], List.cons_ne_nil _ _, ⟨hs, trivial⟩, rfl⟩
  | .cons body more hbody hmore =>
      rcases exists_sequence body hbody with ⟨s, hs, rfl⟩
      rcases exists_branches more hmore with ⟨alts, _, halts, rfl⟩
      exact ⟨s :: alts, List.cons_ne_nil _ _, ⟨hs, halts⟩, rfl⟩
  termination_by structural h

theorem exists_alternatives (ops : List Operation) (h : IsAlternatives ops) :
    ∃ alts : List (List Block), alts ≠ [] ∧ Alternatives.Proper alts ∧
      Alternatives.operations alts = ops := by
  match h with
  | .single _ hbody =>
      rcases exists_sequence ops hbody with ⟨s, hs, hops⟩
      exact ⟨[s], List.cons_ne_nil _ _, ⟨hs, trivial⟩, hops⟩
  | .several body more hbody hmore =>
      rcases exists_sequence body hbody with ⟨s, hs, rfl⟩
      rcases exists_branches more hmore with ⟨alts, hne, halts, rfl⟩
      -- There is a second alternative, so each is enclosed.
      cases alts with
      | nil => exact absurd rfl hne
      | cons t others => exact ⟨s :: t :: others, List.cons_ne_nil _ _, ⟨hs, halts⟩, rfl⟩
  termination_by structural h

end

/-- A program of the grammar is balanced. -/
theorem balanced_of_isProgram (ops : List Operation) (h : IsProgram ops) :
    BalancedProgram ops := by
  rcases h with ⟨body, rfl, hbody, -⟩
  rcases exists_alternatives body hbody with ⟨alts, -, -, rfl⟩
  exact ⟨_, rfl, (operations_balancedChoice alts).2⟩

-- The program ends nowhere inside a tree.
theorem finish_notMem_alternatives (alts : List (List Block)) :
    Operation.finish ∉ Alternatives.operations alts := by
  refine (operations_induction_alternatives (P := (Operation.finish ∉ ·)) List.not_mem_nil
    ?_ ?_ ?_ alts).2
  · exact fun a b ha hb h => (List.mem_append.1 h).elim ha hb
  · exact fun op hop h => by rwa [← List.mem_singleton.1 h] at hop
  · intro n ops hops h
    simp only [List.mem_cons, List.mem_append, List.not_mem_nil, reduceCtorEq, or_false,
      false_or] at h
    exact hops h

/-- The number of the group that an operation opens. -/
def Operation.opening? : Operation → Option Nat
  | .openGroup n => some n.val
  | _ => none

mutual

/-- The groups of a block open in the order in which the tree numbers them. -/
theorem openings_block (b : Block) :
    b.operations.filterMap Operation.opening? = b.numbers := by
  cases b with
  | group n alts =>
      have h := (openings_alternatives alts).1
      simp only [Block.operations, Block.numbers, List.filterMap_cons, List.filterMap_append,
        List.filterMap_nil, Operation.opening?, h, List.append_nil]
  | quantified q e =>
      rw [Block.operations, List.filterMap_cons_none rfl, List.filterMap_append, openings_block e]
      exact List.append_nil _
  | _ => rfl

theorem openings_sequence (s : List Block) :
    (Sequence.operations s).filterMap Operation.opening? = Sequence.numbers s := by
  cases s with
  | nil => rfl
  | cons b rest =>
      rw [Sequence.operations, List.filterMap_append, openings_block b, openings_sequence rest]
      rfl

theorem openings_alternatives (alts : List (List Block)) :
    (Alternatives.operations alts).filterMap Operation.opening? = Alternatives.numbers alts ∧
      (Alternatives.branches alts).filterMap Operation.opening? = Alternatives.numbers alts := by
  cases alts with
  | nil => exact ⟨rfl, rfl⟩
  | cons s rest =>
      -- The operations that enclose an alternative open no group.
      have hs := openings_sequence s
      have hbranches : (Alternatives.branches (s :: rest)).filterMap Operation.opening?
          = Alternatives.numbers (s :: rest) := by
        rw [Alternatives.branches, List.filterMap_cons_none rfl, List.filterMap_append, hs,
          List.filterMap_cons_none rfl, (openings_alternatives rest).2]
        rfl
      refine ⟨?_, hbranches⟩
      cases rest with
      | nil =>
          rw [Alternatives.numbers, Alternatives.numbers, List.append_nil]
          exact hs
      | cons t more => exact hbranches

end

-- The operations of a well-formed tree are a program of the grammar, and its
-- groups open in the order of their numbers.
theorem operations_isProgram (p : Pattern) (h : p.Proper) :
    IsProgram p.operations ∧
      p.operations.filterMap Operation.opening? = List.range' 1 p.groups := by
  constructor
  · exact ⟨_, rfl, (operations_isAlternatives p.alternatives h.parts).1,
      finish_notMem_alternatives p.alternatives⟩
  · rw [Pattern.operations, List.filterMap_append, (openings_alternatives p.alternatives).1,
      h.numbers]
    exact List.append_nil _

-- The program of a pattern comes from its tree, which is well formed.
theorem compile_parse (options : CompileOptions) (pattern : Bytes) (program : Program)
    (h : compile options pattern = .ok program) :
    ∃ t : Pattern, Pattern.parse options pattern = .ok t ∧
      program = Program.ofPattern options t := by
  rw [compile] at h
  cases ht : Pattern.parse options pattern with
  | error e =>
      rw [ht] at h
      exact absurd h (by simp only [bind, Except.bind, reduceCtorEq, not_false_eq_true])
  | ok t =>
      rw [ht] at h
      exact ⟨t, rfl, (Except.ok.inj h).symm⟩

theorem compile_ok (options : CompileOptions) (pattern : Bytes) (program : Program)
    (h : compile options pattern = .ok program) :
    ∃ t : Pattern, t.Proper ∧ program = Program.ofPattern options t := by
  rcases compile_parse options pattern program h with ⟨t, ht, hprogram⟩
  exact ⟨t, Pattern.parse_proper options pattern t ht, hprogram⟩

/-- The operations that a pattern is compiled to, before they are linked. -/
def Program.emitted (p : Program) : List Operation := p.operations.toList.map (·.operation)

theorem Program.emitted_ofPattern (options : CompileOptions) (t : Pattern) :
    (Program.ofPattern options t).emitted = t.operations := map_link t.operations

-- A result that is not an error is a value.
theorem exists_ok_of_isOk {ε α : Type} (e : Except ε α) (h : e.isOk = true) :
    ∃ a, e = .ok a := by
  cases e with
  | error _ => exact absurd h Bool.false_ne_true
  | ok a => exact ⟨a, rfl⟩

theorem exists_ok_of_any {ε α : Type} (e : Except ε α) (test : α → Bool)
    (h : e.toOption.any test = true) : ∃ a, e = .ok a ∧ test a = true := by
  cases e with
  | error _ => exact absurd h Bool.false_ne_true
  | ok a => exact ⟨a, rfl, h⟩

end ByteRegex

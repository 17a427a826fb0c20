import ByteRegex.Proofs.Program.BlockStructure

/-!
# The Loops Around an Operation

A linked program is flat, but every operation stands inside some loops.
`Program.enclosing` are the quantifiers of these: the loops that are open behind the
operations in front of it. The links are not asked for this, so it can be said what they
have to do with it.

A link that jumps keeps to the loops that it starts in. The branches of a choice and the
ends of its alternatives are linked over whole blocks, and a block closes what it opens.
Only a quantifier and its loop change the level, and they are linked to each other.
`WellLinked` collects this for a single operation, and `wellLinked_alternatives` shows it
for the whole layout of a tree, by recursion on the tree.

## Main definitions

* `Program.enclosing`: The loops around an operation.
* `WellLinked`: The links of an operation keep to the loops around it.
* `AllLinked`: All operations of a stretch are linked well.
* `Program.Wired`: All operations of a program are.

## Theorems

* `enclosing_placed`: What stands in a program leads from loops to loops.
* `wellLinked_block`: The operations of a block are linked well.
* `wired_program`: So are those of a whole program.
-/

namespace ByteRegex

/-- The quantifiers of the loops around an operation, the innermost first. -/
def Program.enclosing (p : Program) (pc : Nat) : List Nat := openLoops 0 [] (p.emitted.take pc)

section Levels

variable (p : Program)

/-- What stands in a program leads from the loops in front of it to those behind it. -/
theorem enclosing_placed (i : Nat) (ops : List LinkedOperation) (h : p.Placed i ops) :
    p.enclosing (i + ops.length) = openLoops i (p.enclosing i) (ops.map (·.operation)) := by
  rcases h with ⟨before, behind, hp, rfl⟩
  have hemitted : p.emitted = before.map (·.operation) ++
      (ops.map (·.operation) ++ behind.map (·.operation)) := by
    rw [Program.emitted, hp, List.append_assoc, List.map_append, List.map_append]
  have hfront : p.emitted.take before.length = before.map (·.operation) := by
    rw [hemitted, List.take_left' (List.length_map _)]
  have hall : p.emitted.take (before.length + ops.length) =
      before.map (·.operation) ++ ops.map (·.operation) := by
    rw [hemitted, ← List.append_assoc, List.take_left']
    rw [List.length_append, List.length_map, List.length_map]
  rw [Program.enclosing, Program.enclosing, hall, hfront, openLoops_append, List.length_map,
    Nat.zero_add]

-- Every operation of a program is placed there.
theorem placed_of_at? (pc : Nat) (x : LinkedOperation) (h : p.at? pc = some x) :
    p.Placed pc [x] := by
  rw [Program.at?, ← Array.getElem?_toList] at h
  rcases exists_cut pc x h with ⟨before, behind, hp, hpc⟩
  exact ⟨before, behind, by rw [hp, List.append_assoc, List.singleton_append], hpc⟩

theorem enclosing_succ (pc : Nat) (x : LinkedOperation) (h : p.at? pc = some x) :
    p.enclosing (pc + 1) = openLoops pc (p.enclosing pc) [x.operation] :=
  enclosing_placed p pc [x] (placed_of_at? p pc x h)

/-- The links of an operation at an index keep to the loops around it: the links of a
    choice do not leave a loop or enter one, and a quantifier and its loop are linked to
    each other and enclose what stands between them. -/
def WellLinked (i : Nat) (x : LinkedOperation) : Prop :=
  match x.operation with
  | .finish => True
  | .branch => i < x.next ∧ p.enclosing x.next = p.enclosing i
  | .branchEnd => p.enclosing x.next = p.enclosing i
  | .quantifier _ =>
    x.next = i + 1 ∧ ∃ loopAt, x.partner = some loopAt ∧ i < loopAt ∧
      p.at? loopAt = some ⟨.loop, loopAt + 1, some i⟩ ∧
      p.enclosing loopAt = i :: p.enclosing i
  | .loop =>
    x.next = i + 1 ∧ ∃ quantifierAt q, x.partner = some quantifierAt ∧
      p.at? quantifierAt = some ⟨.quantifier q, quantifierAt + 1, some i⟩ ∧
      p.enclosing i = quantifierAt :: p.enclosing quantifierAt
  | _ => x.next = i + 1

/-- All operations of a stretch that is placed at an index are linked well. -/
def AllLinked (i : Nat) (ops : List LinkedOperation) : Prop :=
  ∀ k x, ops[k]? = some x → WellLinked p (i + k) x

theorem allLinked_nil (i : Nat) : AllLinked p i [] :=
  fun k x h => absurd h (by simp only [List.getElem?_nil, reduceCtorEq, not_false_eq_true])

theorem allLinked_append (i : Nat) (a b : List LinkedOperation) (ha : AllLinked p i a)
    (hb : AllLinked p (i + a.length) b) : AllLinked p i (a ++ b) := by
  intro k x h
  by_cases hk : k < a.length
  · rw [List.getElem?_append_left hk] at h
    exact ha k x h
  · have hk := Nat.le_of_not_lt hk
    rw [List.getElem?_append_right hk] at h
    have hx := hb _ x h
    rwa [Nat.add_assoc, Nat.add_sub_cancel' hk] at hx

theorem allLinked_single (i : Nat) (x : LinkedOperation) (h : WellLinked p i x) :
    AllLinked p i [x] := by
  intro k y hk
  cases k with
  | zero => exact Option.some.inj hk ▸ h
  | succ k => exact absurd hk (by simp only [List.getElem?_cons_succ, List.getElem?_nil,
      reduceCtorEq, not_false_eq_true])

theorem allLinked_cons (i : Nat) (x : LinkedOperation) (ops : List LinkedOperation)
    (hx : WellLinked p i x) (hops : AllLinked p (i + 1) ops) : AllLinked p i (x :: ops) :=
  allLinked_append p i [x] ops (allLinked_single p i x hx) hops

variable {p}

mutual

/-- The operations of a block are linked well, by recursion on the tree. -/
theorem wellLinked_block (b : Block) (i : Nat) (h : p.Placed i (b.linked i)) :
    AllLinked p i (b.linked i) := by
  cases b with
  | group n alts =>
      have hin := (Program.placed_enclosed p i _ _ _ h).2.1
      refine allLinked_cons p i _ _ rfl (allLinked_append p _ _ _ ?_ (allLinked_single p _ _ ?_))
      · exact wellLinked_alternatives alts (i + 1) hin
      · rw [Alternatives.length_linked]
        rfl
  | quantified q e =>
      rcases Program.placed_enclosed p i _ _ _ h with ⟨hfirst, hin, hlast⟩
      -- The loop stands behind a whole block, so only its own quantifier is open there.
      have hinside : p.enclosing (i + 1 + e.operations.length) = i :: p.enclosing i := by
        have hplaced := enclosing_placed p (i + 1) _ hin
        rw [Block.length_linked, Block.map_linked,
          openLoops_balancedBlock _ (operations_balancedBlock e)] at hplaced
        rw [hplaced, enclosing_succ p i _ hfirst]
        rfl
      rw [Block.length_linked] at hlast
      refine allLinked_cons p i _ _ ⟨rfl, _, rfl, by omega, hlast, hinside⟩
        (allLinked_append p _ _ _ (wellLinked_block e (i + 1) hin) (allLinked_single p _ _ ?_))
      rw [Block.length_linked]
      exact ⟨rfl, i, q, rfl, hfirst, hinside⟩
  | _ => exact allLinked_single p i _ rfl
  termination_by (sizeOf b, 0)

theorem wellLinked_sequence (s : List Block) (i : Nat) (h : p.Placed i (Sequence.linked i s)) :
    AllLinked p i (Sequence.linked i s) := by
  cases s with
  | nil => exact allLinked_nil p i
  | cons b rest =>
      have hrest := Program.placed_append_right p i _ _ h
      rw [Block.length_linked] at hrest
      have hfirst := Program.placed_append_left p i _ _ h
      refine allLinked_append p i _ _ (wellLinked_block b i hfirst) ?_
      rw [Block.length_linked]
      exact wellLinked_sequence rest _ hrest
  termination_by (sizeOf s, 0)

-- The branches of a choice that ends at a place with the same loops around it.
theorem wellLinked_branches (alts : List (List Block)) (behind i : Nat)
    (hbehind : p.enclosing behind = p.enclosing i)
    (h : p.Placed i (Alternatives.linkedBranches behind i alts)) :
    AllLinked p i (Alternatives.linkedBranches behind i alts) := by
  cases alts with
  | nil => exact allLinked_nil p i
  | cons s rest =>
      have hfirst := Program.at?_of_placed p i _ _ h
      have hinside := Program.placed_tail p i _ _ h
      have hs := Program.placed_append_left p _ _ _ hinside
      have hlast := Program.placed_append_right p _ _ _ hinside
      rw [Sequence.length_linked] at hlast
      -- The level is the same in front of the sequence, behind it and behind its end.
      have hlevel : p.enclosing (i + 1) = p.enclosing i := enclosing_succ p i _ hfirst
      have hlevel' : p.enclosing (i + 1 + (Sequence.operations s).length) = p.enclosing i := by
        have hplaced := enclosing_placed p (i + 1) _ hs
        rwa [Sequence.length_linked, Sequence.map_linked,
          openLoops_balancedSequence _ (operations_balancedSequence s), hlevel] at hplaced
      have hnext : p.enclosing (i + 1 + (Sequence.operations s).length + 1) = p.enclosing i :=
        (enclosing_succ p _ _ (Program.at?_of_placed p _ _ _ hlast)).trans hlevel'
      refine allLinked_cons p i _ _ ⟨by simp only; omega, hnext⟩ (allLinked_append p _ _ _
        (wellLinked_sequence s (i + 1) hs) ?_)
      rw [Sequence.length_linked]
      refine allLinked_cons p _ _ _ (hbehind.trans hlevel'.symm) ?_
      exact wellLinked_branches rest behind _ (hbehind.trans hnext.symm)
        (Program.placed_tail p _ _ _ hlast)
  termination_by (sizeOf alts, 0)

theorem wellLinked_alternatives (alts : List (List Block)) (i : Nat)
    (h : p.Placed i (Alternatives.linked i alts)) : AllLinked p i (Alternatives.linked i alts) := by
  match alts with
  | [] => exact allLinked_nil p i
  | [s] => exact wellLinked_sequence s i h
  | s :: t :: more =>
      rw [Alternatives.linked_cons] at h ⊢
      refine wellLinked_branches (s :: t :: more) _ i ?_ h
      -- The choice ends behind all of its branches.
      have hplaced := enclosing_placed p i _ h
      rwa [Alternatives.length_linkedBranches, Alternatives.map_linkedBranches,
        ← Alternatives.operations_cons, openLoops_balancedChoice _
          (operations_balancedChoice (s :: t :: more)).2] at hplaced
  termination_by (sizeOf alts, 1)

end

/-- Every operation of a program is linked well, and to an operation that exists. -/
def Program.Wired (p : Program) : Prop :=
  ∀ pc x, p.at? pc = some x → WellLinked p pc x ∧ x.next < p.size

-- Linking makes no operation and drops none.
theorem size_of_link (ops : List Operation) (h : p.operations = link ops) :
    p.size = ops.length := by
  rw [Program.size, h, ← Array.length_toList, ← List.length_map, map_link]

/-- A program that is laid out from a choice is wired. -/
theorem wired_program (alts : List (List Block))
    (h : p.operations = link (Alternatives.operations alts ++ [.finish])) : p.Wired := by
  have hlayout := link_operations ⟨alts, 0⟩
  rw [Pattern.operations, ← h] at hlayout
  have hplaced : p.Placed 0 (Alternatives.linked 0 alts) :=
    ⟨[], _, by rw [hlayout]; rfl, rfl⟩
  have hall : AllLinked p 0 (Alternatives.linked 0 alts ++
      [⟨.finish, (Alternatives.operations alts).length, none⟩]) :=
    allLinked_append p 0 _ _ (wellLinked_alternatives alts 0 hplaced)
      (allLinked_single p _ _ trivial)
  intro pc x hx
  rw [Program.at?, ← Array.getElem?_toList] at hx
  constructor
  · rw [hlayout] at hx
    exact Nat.zero_add pc ▸ hall pc x hx
  · rw [size_of_link _ h]
    rw [h] at hx
    exact (within_program (operations_balancedProgram ⟨alts, 0⟩) x (List.mem_of_getElem? hx)).2.1

end Levels

end ByteRegex

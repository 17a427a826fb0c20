import ByteRegex.Program.Basic
import ByteRegex.Proofs.Program.Balance

/-!
# The Layout of a Linked Tree

What the linker makes of the operations of a tree. `link` walks over a flat list
and looks ahead for the end of an alternative, of a choice and of a loop; the
tree knows these places without looking. `Block.linked` writes down the linked
operations of a block from the tree alone, given the index at which the block is
placed, and `linkFrom_block` says that the linker finds the same.

Looking ahead works because the operations of a tree are balanced, so that every
walk of the linker passes over a block. What stands behind a choice is the
closing of a group or the end of the program, and there its chain of branches
ends.

`Program.Placed` is how the later theorems speak of code inside a program: a list
of linked operations stands at an index. It splits along concatenation, so a
theorem about a tree passes from the tree to its parts.

## Main definitions

* `Operation.Inside`: An operation of a tree other than the ends of a group.
* `Operation.Unlooped`: An operation other than the ends of a loop.
* `Looping`: Behind every quantifier stand a block and the loop.
* `Block.linked`: The linked operations of a block at an index.
* `Program.Placed`: Linked operations stand at an index of a program.

## Theorems

* `operations_loopInduction`: An induction over the operations of a tree, loop by loop.
* `operations_induction`: The same, where the ends of a loop count as single operations.
* `looping_pattern`: Behind every quantifier of a tree stand its block and its loop.
* `operations_balancedBlock`: The operations of a block are balanced.
* `behindBranch_sequence`: The end of an alternative is found.
* `behindChain_branches`: The end of a choice is found.
* `linkFrom_block`: The linker lays out a block as the tree says.
* `link_operations`: The linker lays out a whole pattern as the tree says.
* `placed_append_left`, `placed_append_right`: Placed code splits into its parts.
* `placed_enclosed`: So does code between two operations.
-/

namespace ByteRegex

-- Of several alternatives each is enclosed; a single one stands alone.
theorem Alternatives.operations_cons (s t : List Block) (rest : List (List Block)) :
    Alternatives.operations (s :: t :: rest) = Alternatives.branches (s :: t :: rest) := rfl

/-- An operation of a tree that is neither end of a group. A run of literals comes with
    the border table that its length calls for. -/
def Operation.Inside : Operation → Prop
  | .literal word table => table = Literal.borders? word
  | .finish => False
  | .openGroup _ => False
  | .closeGroup _ => False
  | _ => True

/-- An operation that is neither end of a loop. -/
def Operation.Unlooped : Operation → Prop
  | .quantifier _ => False
  | .loop => False
  | _ => True

section OperationsInduction

variable {P : List Operation → Prop}

mutual

/-- What holds of single operations, of groups, of loops and of operations one after the
    other holds of a tree. -/
theorem operations_loopInduction (hnil : P []) (happend : ∀ a b, P a → P b → P (a ++ b))
    (hsingle : ∀ op, op.Inside → op.Unlooped → P [op])
    (hgroup : ∀ n ops, P ops → P (.openGroup n :: (ops ++ [.closeGroup n])))
    (hloop : ∀ q (e : Block), P e.operations → P (.quantifier q :: (e.operations ++ [.loop])))
    (b : Block) : P b.operations := by
  cases b with
  | group n alts =>
      exact hgroup n _
        (operations_loopInduction_alternatives hnil happend hsingle hgroup hloop alts).2
  | quantified q e =>
      exact hloop q e (operations_loopInduction hnil happend hsingle hgroup hloop e)
  | literal w => exact hsingle _ rfl trivial
  | _ => exact hsingle _ trivial trivial

theorem operations_loopInduction_sequence (hnil : P []) (happend : ∀ a b, P a → P b → P (a ++ b))
    (hsingle : ∀ op, op.Inside → op.Unlooped → P [op])
    (hgroup : ∀ n ops, P ops → P (.openGroup n :: (ops ++ [.closeGroup n])))
    (hloop : ∀ q (e : Block), P e.operations → P (.quantifier q :: (e.operations ++ [.loop])))
    (s : List Block) : P (Sequence.operations s) := by
  cases s with
  | nil => exact hnil
  | cons b rest =>
      exact happend _ _ (operations_loopInduction hnil happend hsingle hgroup hloop b)
        (operations_loopInduction_sequence hnil happend hsingle hgroup hloop rest)

theorem operations_loopInduction_alternatives (hnil : P [])
    (happend : ∀ a b, P a → P b → P (a ++ b))
    (hsingle : ∀ op, op.Inside → op.Unlooped → P [op])
    (hgroup : ∀ n ops, P ops → P (.openGroup n :: (ops ++ [.closeGroup n])))
    (hloop : ∀ q (e : Block), P e.operations → P (.quantifier q :: (e.operations ++ [.loop])))
    (alts : List (List Block)) :
    P (Alternatives.branches alts) ∧ P (Alternatives.operations alts) := by
  cases alts with
  | nil => exact ⟨hnil, hnil⟩
  | cons s rest =>
      have hs := operations_loopInduction_sequence hnil happend hsingle hgroup hloop s
      have hrest :=
        (operations_loopInduction_alternatives hnil happend hsingle hgroup hloop rest).1
      have hbranches : P (Alternatives.branches (s :: rest)) :=
        happend [_] _ (hsingle _ trivial trivial)
          (happend _ _ hs (happend [_] _ (hsingle _ trivial trivial) hrest))
      refine ⟨hbranches, ?_⟩
      cases rest with
      | nil => exact hs
      | cons t more => exact hbranches

end

-- Where the ends of a loop count as single operations, a loop is made of them.
theorem loop_of_single (happend : ∀ a b, P a → P b → P (a ++ b))
    (hinside : ∀ op, op.Inside → P [op]) (q : Quantifier) (e : Block) (he : P e.operations) :
    P (.quantifier q :: (e.operations ++ [.loop])) :=
  happend [_] _ (hinside _ trivial) (happend _ [_] he (hinside _ trivial))

/-- What holds of single operations, of groups and of operations one after the
    other holds of a tree. -/
theorem operations_induction (hnil : P []) (happend : ∀ a b, P a → P b → P (a ++ b))
    (hinside : ∀ op, op.Inside → P [op])
    (hgroup : ∀ n ops, P ops → P (.openGroup n :: (ops ++ [.closeGroup n]))) (b : Block) :
    P b.operations :=
  operations_loopInduction hnil happend (fun op hop _ => hinside op hop) hgroup
    (loop_of_single happend hinside) b

theorem operations_induction_alternatives (hnil : P []) (happend : ∀ a b, P a → P b → P (a ++ b))
    (hinside : ∀ op, op.Inside → P [op])
    (hgroup : ∀ n ops, P ops → P (.openGroup n :: (ops ++ [.closeGroup n])))
    (alts : List (List Block)) :
    P (Alternatives.branches alts) ∧ P (Alternatives.operations alts) :=
  operations_loopInduction_alternatives hnil happend (fun op hop _ => hinside op hop) hgroup
    (loop_of_single happend hinside) alts

end OperationsInduction

/-- Behind every quantifier among the operations stand a block and a loop. -/
def Looping (ops : List Operation) : Prop :=
  ∀ a q c, ops = a ++ .quantifier q :: c →
    ∃ (e : Block) (behind : List Operation), c = e.operations ++ .loop :: behind

-- Operations that are not cut by a quantifier of theirs.
theorem looping_append (x y : List Operation) (hx : Looping x) (hy : Looping y) :
    Looping (x ++ y) := by
  intro a q c h
  rcases List.append_eq_append_iff.1 h with ⟨a', rfl, hcut⟩ | ⟨c', rfl, hcut⟩
  · exact hy a' q c hcut
  · cases c' with
    | nil => exact hy [] q c hcut.symm
    | cons op rest =>
        rcases List.cons.inj hcut with ⟨rfl, rfl⟩
        rcases hx a q rest rfl with ⟨e, behind, rfl⟩
        exact ⟨e, behind ++ y, List.append_assoc _ _ _⟩

theorem looping_single (op : Operation) (h : ∀ q, op ≠ .quantifier q) : Looping [op] := by
  intro a q c hcut
  have hmem : Operation.quantifier q ∈ [op] := hcut ▸ List.mem_append_right a List.mem_cons_self
  exact absurd (List.mem_singleton.1 hmem).symm (h q)

/-- In a tree the block of a quantifier stands behind it, and then the loop. -/
theorem looping_alternatives (alts : List (List Block)) :
    Looping (Alternatives.operations alts) := by
  refine (operations_loopInduction_alternatives (P := Looping) ?_ looping_append ?_ ?_ ?_ alts).2
  · exact fun a q c h => absurd h.symm (List.append_ne_nil_of_right_ne_nil a (List.cons_ne_nil _ _))
  · exact fun op _ hop => looping_single op fun q hq => by rw [hq] at hop; exact hop
  · intro n ops hops
    exact looping_append [_] _ (looping_single _ fun _ => Operation.noConfusion)
      (looping_append _ [_] hops (looping_single _ fun _ => Operation.noConfusion))
  · intro q e he a q' c h
    cases a with
    | nil =>
        rcases List.cons.inj h with ⟨_, rfl⟩
        exact ⟨e, [], rfl⟩
    | cons op rest =>
        rcases List.cons.inj h with ⟨_, hrest⟩
        exact looping_append _ [_] he (looping_single _ fun _ => Operation.noConfusion) rest q' c
          hrest

-- Behind the tree stands `finish`.
theorem looping_pattern (t : Pattern) : Looping t.operations :=
  looping_append _ [_] (looping_alternatives t.alternatives)
    (looping_single _ fun _ => Operation.noConfusion)

-- Alternatives that are enclosed form a chain.
theorem Alternatives.branches_eq_chain (alts : List (List Block)) :
    Alternatives.branches alts = chain (alts.map Sequence.operations) := by
  induction alts with
  | nil => rfl
  | cons s rest ih => rw [Alternatives.branches, ih, List.map_cons, chain]

mutual

/-- The operations of a block are balanced, by recursion on the tree. -/
theorem operations_balancedBlock (b : Block) : BalancedBlock b.operations := by
  cases b with
  | group n alts => exact .group n n _ (operations_balancedChoice alts).2
  | quantified q e => exact .loop q _ (operations_balancedBlock e)
  | _ => exact .plain _ trivial

theorem operations_balancedSequence (s : List Block) :
    BalancedSequence (Sequence.operations s) := by
  cases s with
  | nil => exact .nil
  | cons b rest =>
      exact .cons _ _ (operations_balancedBlock b) (operations_balancedSequence rest)

theorem operations_balancedChoice (alts : List (List Block)) :
    (∀ t ∈ alts.map Sequence.operations, BalancedSequence t) ∧
      BalancedChoice (Alternatives.operations alts) := by
  cases alts with
  | nil => exact ⟨fun t ht => absurd ht List.not_mem_nil, .single _ .nil⟩
  | cons s rest =>
      have hs := operations_balancedSequence s
      have hall : ∀ t ∈ (s :: rest).map Sequence.operations, BalancedSequence t :=
        List.forall_mem_cons.2 ⟨hs, (operations_balancedChoice rest).1⟩
      refine ⟨hall, ?_⟩
      cases rest with
      | nil => exact .single _ hs
      | cons t more =>
          rw [Alternatives.operations_cons, Alternatives.branches_eq_chain]
          exact .chain _ hall

end

/-- The operations of a pattern can be given to the linker. -/
theorem operations_balancedProgram (p : Pattern) : BalancedProgram p.operations :=
  ⟨_, rfl, (operations_balancedChoice p.alternatives).2⟩

/-- Behind a branch stand its sequence and its end, whatever comes after. -/
theorem behindBranch_sequence (s : List Block) (rest : List Operation) :
    behindBranch (Sequence.operations s ++ .branchEnd :: rest)
      = (Sequence.operations s).length + 1 :=
  behindBranch_balanced _ rest (operations_balancedSequence s)

/-- The chain of a choice ends where something other than a branch follows. -/
theorem behindChain_branches (alts : List (List Block)) (rest : List Operation)
    (hrest : rest.head? ≠ some .branch) :
    behindChain (Alternatives.branches alts ++ rest) = (Alternatives.branches alts).length := by
  rw [Alternatives.branches_eq_chain]
  exact behindChain_chain _ rest (operations_balancedChoice alts).1 hrest

mutual

/-- The linked operations of a block that is placed at index `i`. -/
def Block.linked (i : Nat) : Block → List LinkedOperation
  | .literal w => [⟨Operation.ofLiteral w, i + 1, none⟩]
  | .set s => [⟨.set s, i + 1, none⟩]
  | .anyChar => [⟨.anyChar, i + 1, none⟩]
  | .anyString => [⟨.anyString, i + 1, none⟩]
  | .anchor a => [⟨.anchor a, i + 1, none⟩]
  | .cursor => [⟨.cursor, i + 1, none⟩]
  | .group n alternatives =>
    let closing := i + 1 + (Alternatives.operations alternatives).length
    ⟨.openGroup n, i + 1, none⟩ ::
      (Alternatives.linked (i + 1) alternatives ++ [⟨.closeGroup n, closing + 1, none⟩])
  | .quantified q element =>
    let loopAt := i + 1 + element.operations.length
    ⟨.quantifier q, i + 1, some loopAt⟩ ::
      (element.linked (i + 1) ++ [⟨.loop, loopAt + 1, some i⟩])

/-- The linked operations of blocks in a row. -/
def Sequence.linked (i : Nat) : List Block → List LinkedOperation
  | [] => []
  | b :: rest => b.linked i ++ Sequence.linked (i + b.operations.length) rest

/-- The linked operations of sequences to choose from. -/
def Alternatives.linked (i : Nat) : List (List Block) → List LinkedOperation
  | [] => []
  | [s] => Sequence.linked i s
  | s :: t :: rest =>
    let next := i + 1 + (Sequence.operations s).length + 1
    let behind := next + (Alternatives.branches (t :: rest)).length
    ⟨.branch, next, none⟩ :: (Sequence.linked (i + 1) s ++
      ⟨.branchEnd, behind, none⟩ :: Alternatives.linkedBranches behind next (t :: rest))

/-- The linked operations of the branches of a choice that ends before the index
    `behind`. -/
def Alternatives.linkedBranches (behind i : Nat) : List (List Block) → List LinkedOperation
  | [] => []
  | s :: rest =>
    let next := i + 1 + (Sequence.operations s).length + 1
    ⟨.branch, next, none⟩ :: (Sequence.linked (i + 1) s ++
      ⟨.branchEnd, behind, none⟩ :: Alternatives.linkedBranches behind next rest)

end

-- The branches of a choice end behind the branches of its later alternatives.
theorem Alternatives.behind_branches (i : Nat) (s : List Block) (rest : List (List Block)) :
    i + (Alternatives.branches (s :: rest)).length =
      i + 1 + (Sequence.operations s).length + 1 + (Alternatives.branches rest).length := by
  rw [Alternatives.branches, List.length_cons, List.length_append, List.length_cons]
  omega

-- A choice of several alternatives is its branches, and ends behind them.
theorem Alternatives.linked_cons (i : Nat) (s t : List Block) (rest : List (List Block)) :
    Alternatives.linked i (s :: t :: rest) =
      Alternatives.linkedBranches (i + (Alternatives.branches (s :: t :: rest)).length) i
        (s :: t :: rest) := by
  rw [Alternatives.linked, Alternatives.linkedBranches, Alternatives.behind_branches i s]
  rfl

/-- The linker turns operations at index `i` into linked ones and goes on behind
    them. On the way the quantifiers that await their loops change from `opened`
    to `opened'`. -/
def LinksTo (i : Nat) (opened : List Nat) (ops : List Operation)
    (linked : List LinkedOperation) (opened' : List Nat) (rest : List Operation) : Prop :=
  linkFrom i opened (ops ++ rest) = linked ++ linkFrom (i + ops.length) opened' rest

theorem linksTo_append (i : Nat) (o₁ o₂ o₃ : List Nat) (a b : List Operation)
    (la lb : List LinkedOperation) (rest : List Operation)
    (ha : LinksTo i o₁ a la o₂ (b ++ rest)) (hb : LinksTo (i + a.length) o₂ b lb o₃ rest) :
    LinksTo i o₁ (a ++ b) (la ++ lb) o₃ rest := by
  unfold LinksTo at ha hb ⊢
  rw [List.append_assoc, ha, hb, List.append_assoc, List.length_append, Nat.add_assoc]

theorem linksTo_single (i : Nat) (o₁ o₂ : List Nat) (op : Operation) (x : LinkedOperation)
    (rest : List Operation) (h : linkFrom i o₁ (op :: rest) = x :: linkFrom (i + 1) o₂ rest) :
    LinksTo i o₁ [op] [x] o₂ rest := h

mutual

/-- The linker lays out a block as the tree says, whatever follows. -/
theorem linkFrom_block (b : Block) (i : Nat) (opened : List Nat) (rest : List Operation) :
    LinksTo i opened b.operations (b.linked i) opened rest := by
  cases b with
  | literal w => rfl
  | set s => rfl
  | anyChar => rfl
  | anyString => rfl
  | anchor a => rfl
  | cursor => rfl
  | group n alts =>
      have hin := linkFrom_alternatives alts (i + 1) opened (.closeGroup n :: rest)
        (by simp only [List.head?_cons, ne_eq, Option.some.injEq, reduceCtorEq, not_false_eq_true])
      exact linksTo_append i _ _ _ [.openGroup n] _ _ _ rest (linksTo_single _ _ _ _ _ _ rfl)
        (linksTo_append (i + 1) _ _ _ _ [.closeGroup n] _ _ rest hin
          (linksTo_single _ _ _ _ _ _ rfl))
  | quantified q e =>
      have hin := linkFrom_block e (i + 1) (i :: opened) (.loop :: rest)
      -- Behind the body stands the loop, so the quantifier looks ahead to it.
      have hloop := behindLoop?_balanced e.operations rest (operations_balancedBlock e)
      have hfirst : LinksTo i opened [.quantifier q]
          [⟨.quantifier q, i + 1, some (i + 1 + e.operations.length)⟩] (i :: opened)
          (e.operations ++ [.loop] ++ rest) := by
        refine linksTo_single _ _ _ _ _ _ ?_
        rw [List.append_assoc, List.singleton_append, linkFrom, hloop, Option.map_some]
      exact linksTo_append i _ _ _ [.quantifier q] (e.operations ++ [.loop]) _ _ rest hfirst
        (linksTo_append (i + 1) _ _ _ _ [.loop] _ _ rest hin (linksTo_single _ _ _ _ _ _ rfl))
  termination_by (sizeOf b, 0)

theorem linkFrom_sequence (s : List Block) (i : Nat) (opened : List Nat)
    (rest : List Operation) :
    LinksTo i opened (Sequence.operations s) (Sequence.linked i s) opened rest := by
  cases s with
  | nil => rfl
  | cons b t =>
      exact linksTo_append i opened opened opened _ _ _ _ rest
        (linkFrom_block b i opened (Sequence.operations t ++ rest))
        (linkFrom_sequence t (i + b.operations.length) opened rest)
  termination_by (sizeOf s, 0)

-- The linker lays out a choice as the tree says, if what follows is not taken
-- for another branch of it.
theorem linkFrom_alternatives (alts : List (List Block)) (i : Nat) (opened : List Nat)
    (rest : List Operation) (hrest : rest.head? ≠ some .branch) :
    LinksTo i opened (Alternatives.operations alts) (Alternatives.linked i alts) opened rest := by
  match alts with
  | [] => rfl
  | [s] => exact linkFrom_sequence s i opened rest
  | s :: t :: more =>
      rw [Alternatives.linked_cons]
      exact linkFrom_branches (s :: t :: more) i opened rest hrest
  termination_by (sizeOf alts, 1)

theorem linkFrom_branches (alts : List (List Block)) (i : Nat) (opened : List Nat)
    (rest : List Operation) (hrest : rest.head? ≠ some .branch) :
    LinksTo i opened (Alternatives.branches alts)
      (Alternatives.linkedBranches (i + (Alternatives.branches alts).length) i alts)
      opened rest := by
  cases alts with
  | nil => rfl
  | cons s t =>
      have hs := linkFrom_sequence s (i + 1) opened
        (.branchEnd :: (Alternatives.branches t ++ rest))
      have ht := linkFrom_branches t (i + 1 + (Sequence.operations s).length + 1) opened rest hrest
      -- The branch looks ahead to the end of its alternative.
      have hfirst : LinksTo i opened [.branch]
          [⟨.branch, i + 1 + (Sequence.operations s).length + 1, none⟩] opened
          (Sequence.operations s ++ .branchEnd :: Alternatives.branches t ++ rest) := by
        refine linksTo_single _ _ _ _ _ _ ?_
        rw [List.append_assoc, List.cons_append, linkFrom, behindBranch_sequence, ← Nat.add_assoc]
      -- The end of the alternative looks ahead to the end of the choice.
      have hlast : linkFrom (i + 1 + (Sequence.operations s).length) opened
          (.branchEnd :: (Alternatives.branches t ++ rest)) =
          ⟨.branchEnd, i + (Alternatives.branches (s :: t)).length, none⟩ ::
            linkFrom (i + 1 + (Sequence.operations s).length + 1) opened
              (Alternatives.branches t ++ rest) := by
        rw [linkFrom, behindChain_branches t rest hrest, Alternatives.behind_branches]
      rw [← Alternatives.behind_branches i s t] at ht
      exact linksTo_append i _ _ _ [.branch]
        (Sequence.operations s ++ .branchEnd :: Alternatives.branches t) _ _ rest hfirst
        (linksTo_append (i + 1) _ _ _ _ (.branchEnd :: Alternatives.branches t) _ _ rest hs
          (linksTo_append _ _ _ _ [.branchEnd] _ _ _ rest (linksTo_single _ _ _ _ _ _ hlast) ht))
  termination_by (sizeOf alts, 0)

end

/-- The linker lays out a whole pattern as the tree says; `finish` is followed
    by itself. -/
theorem link_operations (p : Pattern) :
    (link p.operations).toList = Alternatives.linked 0 p.alternatives ++
      [⟨.finish, (Alternatives.operations p.alternatives).length, none⟩] := by
  have h := linkFrom_alternatives p.alternatives 0 [] [.finish]
    (by simp only [List.head?_cons, ne_eq, Option.some.injEq, reduceCtorEq, not_false_eq_true])
  unfold LinksTo at h
  rw [link, Pattern.operations, h, Nat.zero_add]
  rfl

-- Linking leaves the operations as they are.
theorem map_linkFrom (i : Nat) (opened : List Nat) (ops : List Operation) :
    (linkFrom i opened ops).map (·.operation) = ops := by
  induction ops generalizing i opened with
  | nil => rfl
  | cons op rest ih =>
      unfold linkFrom
      split <;> rw [List.map_cons, ih]

theorem map_link (ops : List Operation) :
    (link ops).toList.map (·.operation) = ops := map_linkFrom 0 [] ops

theorem Block.map_linked (b : Block) (i : Nat) :
    (b.linked i).map (·.operation) = b.operations := by
  have h := linkFrom_block b i [] []
  unfold LinksTo at h
  rw [linkFrom, List.append_nil, List.append_nil] at h
  rw [← h, map_linkFrom]

theorem Sequence.map_linked (s : List Block) (i : Nat) :
    (Sequence.linked i s).map (·.operation) = Sequence.operations s := by
  have h := linkFrom_sequence s i [] []
  unfold LinksTo at h
  rw [linkFrom, List.append_nil, List.append_nil] at h
  rw [← h, map_linkFrom]

theorem Alternatives.map_linkedBranches (alts : List (List Block)) (i : Nat) :
    (Alternatives.linkedBranches (i + (Alternatives.branches alts).length) i alts).map
      (·.operation) = Alternatives.branches alts := by
  have h := linkFrom_branches alts i [] []
    (by simp only [List.head?_nil, ne_eq, reduceCtorEq, not_false_eq_true])
  unfold LinksTo at h
  rw [linkFrom, List.append_nil, List.append_nil] at h
  rw [← h, map_linkFrom]

theorem Block.length_linked (b : Block) (i : Nat) :
    (b.linked i).length = b.operations.length := by
  rw [← Block.map_linked b i, List.length_map]

theorem Sequence.length_linked (s : List Block) (i : Nat) :
    (Sequence.linked i s).length = (Sequence.operations s).length := by
  induction s generalizing i with
  | nil => rfl
  | cons b rest ih =>
      rw [Sequence.linked, Sequence.operations, List.length_append, List.length_append, ih,
        Block.length_linked]

theorem Alternatives.length_linkedBranches (alts : List (List Block)) (behind i : Nat) :
    (Alternatives.linkedBranches behind i alts).length = (Alternatives.branches alts).length := by
  induction alts generalizing i with
  | nil => rfl
  | cons s rest ih =>
      rw [Alternatives.linkedBranches, Alternatives.branches, List.length_cons, List.length_cons,
        List.length_append, List.length_append, List.length_cons, List.length_cons, ih,
        Sequence.length_linked]

theorem Alternatives.length_linked (alts : List (List Block)) (i : Nat) :
    (Alternatives.linked i alts).length = (Alternatives.operations alts).length := by
  match alts with
  | [] => rfl
  | [s] => exact Sequence.length_linked s i
  | s :: t :: more =>
      rw [Alternatives.linked_cons, Alternatives.length_linkedBranches,
        Alternatives.operations_cons]

namespace Program

/-- The linked operations stand in the program from index `i` on. -/
def Placed (p : Program) (i : Nat) (ops : List LinkedOperation) : Prop :=
  ∃ before behind, p.operations.toList = before ++ ops ++ behind ∧ before.length = i

theorem at?_of_placed (p : Program) (i : Nat) (x : LinkedOperation)
    (ops : List LinkedOperation) (h : p.Placed i (x :: ops)) : p.at? i = some x := by
  rcases h with ⟨before, behind, hp, rfl⟩
  rw [at?, ← Array.getElem?_toList, hp, List.append_assoc, List.cons_append,
    List.getElem?_append_right (Nat.le_refl _), Nat.sub_self, List.getElem?_cons_zero]

theorem placed_append_left (p : Program) (i : Nat) (a b : List LinkedOperation)
    (h : p.Placed i (a ++ b)) : p.Placed i a := by
  rcases h with ⟨before, behind, hp, hi⟩
  exact ⟨before, b ++ behind, by rw [hp]; simp only [List.append_assoc], hi⟩

theorem placed_append_right (p : Program) (i : Nat) (a b : List LinkedOperation)
    (h : p.Placed i (a ++ b)) : p.Placed (i + a.length) b := by
  rcases h with ⟨before, behind, hp, rfl⟩
  exact ⟨before ++ a, behind, by rw [hp]; simp only [List.append_assoc], List.length_append⟩

theorem placed_tail (p : Program) (i : Nat) (x : LinkedOperation)
    (ops : List LinkedOperation) (h : p.Placed i (x :: ops)) : p.Placed (i + 1) ops :=
  placed_append_right p i [x] ops h

/-- Code between two operations: each end has its place, and so has what stands between
    them. -/
theorem placed_enclosed (p : Program) (i : Nat) (x y : LinkedOperation)
    (ops : List LinkedOperation) (h : p.Placed i (x :: (ops ++ [y]))) :
    p.at? i = some x ∧ p.Placed (i + 1) ops ∧ p.at? (i + 1 + ops.length) = some y := by
  have hinside := placed_tail p i x _ h
  exact ⟨at?_of_placed p i x _ h, placed_append_left p _ _ _ hinside,
    at?_of_placed p _ y [] (placed_append_right p _ ops _ hinside)⟩

end Program

end ByteRegex

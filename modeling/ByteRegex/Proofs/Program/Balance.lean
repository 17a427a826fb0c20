import ByteRegex.Program.Link

/-!
# Balanced Operations

What the linker takes for granted. Groups, loops and alternatives of a list of
operations are marked by the operations that open and close them, and the linker
finds an end by walking to it. `BalancedBlock`, `BalancedSequence` and
`BalancedChoice` are the lists on which that makes sense: what is opened is
closed, and nothing reaches across. They ask for nothing else. A loop may
enclose a loop, a group may close with another number than it opened with, and
a run of literals may carry any table, since the linker looks at none of these.

Walking ahead works because balanced operations keep to themselves. The walk to
the end of an alternative counts the groups that are open, and a `branchEnd`
inside a block stands inside one of its groups, so the walk passes over the
whole block and comes out with the count it went in with. The walk to a loop
counts quantifiers and passes over a block in the same way. `PassesBlocks` is
what the two have in common.

Only a choice needs to know what stands behind it: its chain of branches ends
where something other than a branch follows.

Going over a list from its front, a quantifier opens a loop, and the end of a loop
closes the innermost. `openLoops` are the quantifiers whose loops are open, and
balanced operations leave them as they were.

## Main definitions

* `chain`: Alternatives, each between its `branch` and its `branchEnd`.
* `BalancedBlock`, `BalancedSequence`, `BalancedChoice`: Balanced operations.
* `BalancedProgram`: A balanced choice and `finish` behind it.
* `Passes`: A walk over operations steps over a stretch of them.
* `PassesBlocks`: What makes a walk step over whole blocks.
* `openLoops`: The loops that are open behind operations.

## Theorems

* `passes_balancedBlock`: A walk that keeps to blocks passes over every block.
* `untilBranchEnd?_passes`, `behindLoop?_passes`: The walks of the linker do.
* `behindBranch_balanced`: The end of an alternative is found.
* `behindChain_chain`: The end of a choice is found.
* `behindLoop?_balanced`: The loop of a quantifier is found.
* `openLoops_balancedBlock`: A block closes the loops that it opens.
-/

namespace ByteRegex

/-- An operation that neither opens nor closes anything. -/
def Operation.Plain : Operation → Prop
  | .literal _ _ => True
  | .set _ => True
  | .anyChar => True
  | .anyString => True
  | .anchor _ => True
  | .cursor => True
  | _ => False

/-- The operations of alternatives that are enclosed, one behind the other. -/
def chain : List (List Operation) → List Operation
  | [] => []
  | s :: rest => .branch :: (s ++ .branchEnd :: chain rest)

theorem chain_append (a b : List (List Operation)) : chain (a ++ b) = chain a ++ chain b := by
  induction a with
  | nil => rfl
  | cons s rest ih =>
      simp only [List.cons_append, chain, ih, List.append_assoc]

theorem length_chain_cons (s : List Operation) (rest : List (List Operation)) :
    (chain (s :: rest)).length = 1 + s.length + 1 + (chain rest).length := by
  rw [chain, List.length_cons, List.length_append, List.length_cons]
  omega

mutual

/-- Operations that belong together: a single one that opens and closes nothing, a
    group, or a loop around a block. -/
inductive BalancedBlock : List Operation → Prop where
  | plain (op : Operation) (h : op.Plain) : BalancedBlock [op]
  | group (m n : GroupNumber) (body : List Operation) (h : BalancedChoice body) :
      BalancedBlock (.openGroup m :: (body ++ [.closeGroup n]))
  | loop (q : Quantifier) (x : List Operation) (h : BalancedBlock x) :
      BalancedBlock (.quantifier q :: (x ++ [.loop]))

/-- Blocks in a row. -/
inductive BalancedSequence : List Operation → Prop where
  | nil : BalancedSequence []
  | cons (b s : List Operation) (hb : BalancedBlock b) (hs : BalancedSequence s) :
      BalancedSequence (b ++ s)

/-- A sequence that stands alone, or a chain of enclosed ones. -/
inductive BalancedChoice : List Operation → Prop where
  | single (s : List Operation) (h : BalancedSequence s) : BalancedChoice s
  | chain (alts : List (List Operation)) (h : ∀ s ∈ alts, BalancedSequence s) :
      BalancedChoice (chain alts)

end

/-- What the linker can be given: a balanced choice, and `finish` behind it. -/
def BalancedProgram (ops : List Operation) : Prop :=
  ∃ body, ops = body ++ [.finish] ∧ BalancedChoice body

/-- A walk that looks ahead for something passes over operations: what it finds
    behind them it finds from their beginning, as much further on. -/
def Passes (walk : List Operation → Option Nat) (ops : List Operation) : Prop :=
  ∀ rest, walk (ops ++ rest) = (walk rest).map (· + ops.length)

theorem passes_nil (walk : List Operation → Option Nat) : Passes walk [] :=
  fun _ => Option.map_id'.symm

theorem passes_append (walk : List Operation → Option Nat) (ops more : List Operation)
    (h : Passes walk ops) (hmore : Passes walk more) : Passes walk (ops ++ more) := by
  intro rest
  rw [List.append_assoc, h, hmore, Option.map_map, List.length_append]
  congr 1
  funext n
  simp only [Function.comp_apply]
  omega

-- One operation that the walk steps over.
theorem passes_single (walk : List Operation → Option Nat) (op : Operation)
    (h : ∀ rest, walk (op :: rest) = (walk rest).map (· + 1)) : Passes walk [op] := h

-- A stretch between an operation after which the walk goes on as another walk
-- and an operation that brings it back.
theorem passes_enclosed (walk inside : List Operation → Option Nat) (first last : Operation)
    (ops : List Operation) (hfirst : ∀ rest, walk (first :: rest) = (inside rest).map (· + 1))
    (hops : Passes inside ops)
    (hlast : ∀ rest, inside (last :: rest) = (walk rest).map (· + 1)) :
    Passes walk (first :: (ops ++ [last])) := by
  intro rest
  rw [List.cons_append, hfirst, List.append_assoc, hops, List.singleton_append, hlast,
    Option.map_map, Option.map_map, List.length_cons, List.length_append, List.length_singleton]
  congr 1
  funext n
  simp only [Function.comp_apply]
  omega

/-- A family of walks, one for each place a walk can be in. A group and a loop
    take the walk to another place and bring it back, and inside a group the walk
    steps over the ends of alternatives. -/
structure PassesBlocks {σ : Type} (walk : σ → List Operation → Option Nat)
    (inGroup inLoop : σ → σ) : Prop where
  plain : ∀ s op rest, op.Plain → walk s (op :: rest) = (walk s rest).map (· + 1)
  openGroup : ∀ s n rest,
    walk s (.openGroup n :: rest) = (walk (inGroup s) rest).map (· + 1)
  closeGroup : ∀ s n rest,
    walk (inGroup s) (.closeGroup n :: rest) = (walk s rest).map (· + 1)
  quantifier : ∀ s q rest,
    walk s (.quantifier q :: rest) = (walk (inLoop s) rest).map (· + 1)
  loop : ∀ s rest, walk (inLoop s) (.loop :: rest) = (walk s rest).map (· + 1)
  branch : ∀ s rest, walk s (.branch :: rest) = (walk s rest).map (· + 1)
  branchEnd : ∀ s rest,
    walk (inGroup s) (.branchEnd :: rest) = (walk (inGroup s) rest).map (· + 1)

section PassingBlocks

variable {σ : Type} {walk : σ → List Operation → Option Nat} {inGroup inLoop : σ → σ}

-- Inside a group the walk passes over a whole choice, if it passes over the
-- alternatives.
theorem passes_chain (hw : PassesBlocks walk inGroup inLoop) (alts : List (List Operation))
    (s : σ) (h : ∀ t ∈ alts, Passes (walk (inGroup s)) t) :
    Passes (walk (inGroup s)) (chain alts) := by
  induction alts with
  | nil => exact passes_nil _
  | cons t rest ih =>
      have hfirst := passes_enclosed _ _ .branch .branchEnd t (hw.branch (inGroup s))
        (h t List.mem_cons_self) (hw.branchEnd s)
      have hrest := ih (fun u hu => h u (List.mem_cons_of_mem t hu))
      have hall := passes_append _ _ _ hfirst hrest
      rwa [List.cons_append, List.append_assoc] at hall

mutual

/-- Such a walk passes over every block, by induction on how the block is made
    up: what it opens it closes, and its own alternatives end inside its groups. -/
theorem passes_balancedBlock (hw : PassesBlocks walk inGroup inLoop) (ops : List Operation)
    (h : BalancedBlock ops) (s : σ) : Passes (walk s) ops := by
  match h with
  | .plain op hop => exact passes_single _ _ (fun rest => hw.plain s op rest hop)
  | .group m n body hbody =>
      exact passes_enclosed _ _ _ _ _ (hw.openGroup s m)
        (passes_balancedChoice hw body hbody s) (hw.closeGroup s n)
  | .loop q x hx =>
      exact passes_enclosed _ _ _ _ _ (hw.quantifier s q)
        (passes_balancedBlock hw x hx (inLoop s)) (hw.loop s)
  termination_by structural h

theorem passes_balancedSequence (hw : PassesBlocks walk inGroup inLoop) (ops : List Operation)
    (h : BalancedSequence ops) (s : σ) : Passes (walk s) ops := by
  match h with
  | .nil => exact passes_nil _
  | .cons b rest hb hrest =>
      exact passes_append _ _ _ (passes_balancedBlock hw b hb s)
        (passes_balancedSequence hw rest hrest s)
  termination_by structural h

theorem passes_balancedChoice (hw : PassesBlocks walk inGroup inLoop) (ops : List Operation)
    (h : BalancedChoice ops) (s : σ) : Passes (walk (inGroup s)) ops := by
  match h with
  | .single _ hops => exact passes_balancedSequence hw ops hops (inGroup s)
  | .chain alts halts =>
      exact passes_chain hw alts s
        (fun t ht => passes_balancedSequence hw t (halts t ht) (inGroup s))
  termination_by structural h

end

end PassingBlocks

/-- The walk to the end of an alternative counts the groups that are open. -/
theorem untilBranchEnd?_passes : PassesBlocks untilBranchEnd? (· + 1) id where
  plain := by
    intro s op rest h
    cases op <;> first | rfl | exact h.elim
  openGroup := fun _ _ _ => rfl
  closeGroup := fun _ _ _ => rfl
  quantifier := fun _ _ _ => rfl
  loop := fun _ _ => rfl
  branch := fun _ _ => rfl
  branchEnd := fun _ _ => rfl

/-- The walk to a loop counts the quantifiers that are open. -/
theorem behindLoop?_passes : PassesBlocks behindLoop? id (· + 1) where
  plain := by
    intro s op rest h
    cases op <;> first | rfl | exact h.elim
  openGroup := fun _ _ _ => rfl
  closeGroup := fun _ _ _ => rfl
  quantifier := fun _ _ _ => rfl
  loop := fun _ _ => rfl
  branch := fun _ _ => rfl
  branchEnd := fun _ _ => rfl

/-- Behind a branch stand its sequence and its end, whatever comes after. -/
theorem behindBranch_balanced (s rest : List Operation) (h : BalancedSequence s) :
    behindBranch (s ++ .branchEnd :: rest) = s.length + 1 := by
  have hend : untilBranchEnd? 0 (.branchEnd :: rest) = some 0 := by
    rw [untilBranchEnd?, if_pos rfl]
  rw [behindBranch, passes_balancedSequence untilBranchEnd?_passes s h 0, hend, Option.map_some,
    Nat.zero_add]

/-- The chain of a choice ends where something other than a branch follows. -/
theorem behindChain_chain (alts : List (List Operation)) (rest : List Operation)
    (h : ∀ s ∈ alts, BalancedSequence s) (hrest : rest.head? ≠ some .branch) :
    behindChain (chain alts ++ rest) = (chain alts).length := by
  induction alts with
  | nil =>
      rw [chain, List.nil_append, List.length_nil]
      cases rest with
      | nil => rw [behindChain]
      | cons op more =>
          rw [behindChain]
          · intro h
            exact hrest (by rw [h, List.head?_cons])
  | cons s t ih =>
      have hs := h s List.mem_cons_self
      have ht := ih (fun u hu => h u (List.mem_cons_of_mem s hu))
      have hdrop : (s ++ .branchEnd :: (chain t ++ rest)).drop (s.length + 1) =
          chain t ++ rest := by
        rw [← List.drop_drop, List.drop_left]
        rfl
      rw [length_chain_cons, chain, List.cons_append, List.append_assoc, List.cons_append,
        behindChain, behindBranch_balanced s _ hs, hdrop, ht]
      omega

/-- Behind a quantifier stand a block and the loop. -/
theorem behindLoop?_balanced (x rest : List Operation) (h : BalancedBlock x) :
    behindLoop? 0 (x ++ .loop :: rest) = some x.length := by
  rw [passes_balancedBlock behindLoop?_passes x h 0, behindLoop?, if_pos rfl, Option.map_some,
    Nat.zero_add]

/-- The quantifiers whose loops are open behind operations that are placed at index `i`,
    the innermost first, when those at `opened` are open in front of them. -/
def openLoops (i : Nat) (opened : List Nat) : List Operation → List Nat
  | [] => opened
  | op :: rest =>
    match op with
    | .quantifier _ => openLoops (i + 1) (i :: opened) rest
    | .loop => openLoops (i + 1) opened.tail rest
    | _ => openLoops (i + 1) opened rest

-- A single operation takes the loops from what is in front of it to what is behind.
theorem openLoops_cons (i : Nat) (opened : List Nat) (op : Operation) (rest : List Operation) :
    openLoops i opened (op :: rest) = openLoops (i + 1) (openLoops i opened [op]) rest := by
  cases op <;> rfl

theorem openLoops_append (i : Nat) (opened : List Nat) (a b : List Operation) :
    openLoops i opened (a ++ b) = openLoops (i + a.length) (openLoops i opened a) b := by
  induction a generalizing i opened with
  | nil => rfl
  | cons op rest ih =>
      rw [List.length_cons, Nat.add_comm rest.length, ← Nat.add_assoc]
      cases op <;> exact ih (i + 1) _

-- A chain leaves the loops open that its alternatives leave open.
theorem openLoops_chain (alts : List (List Operation)) (i : Nat) (opened : List Nat)
    (h : ∀ s ∈ alts, ∀ j, openLoops j opened s = opened) :
    openLoops i opened (chain alts) = opened := by
  induction alts generalizing i with
  | nil => rfl
  | cons s rest ih =>
      have hs := h s List.mem_cons_self (i + 1)
      rw [chain, openLoops_cons, openLoops_append]
      refine Eq.trans (congrArg (openLoops _ · (.branchEnd :: chain rest)) hs) ?_
      exact ih _ (fun t ht => h t (List.mem_cons_of_mem s ht))

mutual

/-- A block closes the loops that it opens, by induction on how it is made up. -/
theorem openLoops_balancedBlock (ops : List Operation) (h : BalancedBlock ops) (i : Nat)
    (opened : List Nat) : openLoops i opened ops = opened := by
  match h with
  | .plain op hop => cases op <;> first | rfl | exact hop.elim
  | .group m n body hbody =>
      have hin := openLoops_balancedChoice body hbody (i + 1) opened
      rw [openLoops_cons, openLoops_append]
      exact congrArg (openLoops _ · [.closeGroup n]) hin
  | .loop q x hx =>
      rw [openLoops, openLoops_append, openLoops_balancedBlock x hx]
      rfl
  termination_by structural h

theorem openLoops_balancedSequence (ops : List Operation) (h : BalancedSequence ops) (i : Nat)
    (opened : List Nat) : openLoops i opened ops = opened := by
  match h with
  | .nil => rfl
  | .cons b rest hb hrest =>
      rw [openLoops_append, openLoops_balancedBlock b hb, openLoops_balancedSequence rest hrest]
  termination_by structural h

theorem openLoops_balancedChoice (ops : List Operation) (h : BalancedChoice ops) (i : Nat)
    (opened : List Nat) : openLoops i opened ops = opened := by
  match h with
  | .single _ hops => exact openLoops_balancedSequence ops hops i opened
  | .chain alts halts =>
      exact openLoops_chain alts i opened
        (fun s hs j => openLoops_balancedSequence s (halts s hs) j opened)
  termination_by structural h

end

end ByteRegex

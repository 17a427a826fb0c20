import ByteRegex.Program.InPlace
import ByteRegex.Proofs.Program.Linking

/-!
# Linking in Place

The linker that works in place writes its links one after the other, and relies on what it
has written before. On balanced operations it comes to the links that `link` reads off, and
nothing that it asserts can fail.

Each pass is a loop over indices with an invariant. The pass over quantifiers and loops keeps
the quantifiers that are open in front of the index (`Paired`): a partner is known, or it is
still to come, or its quantifier is among those that are open. So a loop finds its quantifier
on the top of the stack, and none is left over.

The pass over choices keeps that a link that is known is right (`Fits`), and that a branch is
not linked before the end of its alternative is (`Closed`). A branch that is found without a
link stands in a chain, and what is left of the chain from there on is a chain as well. The
walk along it finds the end of one alternative after the other, which is an induction on the
alternatives that are left. When no branch is left without a link, the ends have theirs too,
because each of them belongs to a branch.

## Main definitions

* `Slot.ofLinked`: An operation whose links are all known.
* `Paired`: The partners that are known when the first operations have been visited.
* `Fits`: The links that are known are right.
* `Linked`: The link of an operation is known.
* `Closed`: With a branch the end of its alternative is linked.

## Theorems

* `foldlM_range`: What every step keeps, a loop over indices keeps.
* `pairLoops_paired`: Quantifiers and loops are paired.
* `setNext?_fits`: A link that is right can be written.
* `linkBranches_chained`: The branches of a chain are linked from any of them on.
* `linkChoice_chained`: With its branches, the ends of a chain are linked.
* `linkChoices_fits`: All choices are linked.
* `link_inPlace`: Linking in place comes to the links of `link`.
* `link_resolved`: The linker resolves balanced operations.
-/

namespace ByteRegex

/-- A loop over indices gives a result and keeps what each of its steps keeps. -/
theorem foldlM_range {σ : Type} (f : σ → Nat → Option σ) (P : Nat → σ → Prop) (n : Nat) (s : σ)
    (hs : P 0 s) (hstep : ∀ i s, i < n → P i s → ∃ s', f s i = some s' ∧ P (i + 1) s') :
    ∃ s', (List.range n).foldlM f s = some s' ∧ P n s' := by
  induction n with
  | zero => exact ⟨s, rfl, hs⟩
  | succ n ih =>
      rcases ih (fun i s hi => hstep i s (Nat.lt_succ_of_lt hi)) with ⟨s₁, hrun, h₁⟩
      rcases hstep n s₁ (Nat.lt_succ_self n) h₁ with ⟨s₂, hlast, h₂⟩
      refine ⟨s₂, ?_, h₂⟩
      rw [List.range_succ, List.foldlM_append, hrun]
      simp only [List.foldlM_cons, List.foldlM_nil, Option.bind_eq_bind, Option.bind_some, hlast]
      rfl

namespace InPlace

/-- An operation whose links are all known. -/
def Slot.ofLinked (x : LinkedOperation) : Slot := ⟨x.operation, some x.next, x.partner⟩

theorem mapM_linked? (xs : List LinkedOperation) :
    (xs.map Slot.ofLinked).mapM Slot.linked? = some xs := by
  induction xs with
  | nil => rfl
  | cons x xs ih => rw [List.map_cons, List.mapM_cons, ih]; rfl

section Pairing

/-- The partners that are known when the operations in front of an index have been visited. A
    partner that is not known is still to come, or its quantifier is open. -/
structure Paired (ops : List Operation) (i : Nat) (state : List Slot × List Nat) : Prop where
  length : state.1.length = ops.length
  opened : state.2 = openLoops 0 [] (ops.take i)
  slot : ∀ (j : Nat) x, (ByteRegex.link ops)[j]? = some x → ∃ partner,
    state.1[j]? = some ⟨x.operation, (Slot.ofOperation j x.operation).next, partner⟩ ∧
      (partner = x.partner ∨ partner = none ∧ (i ≤ j ∨ j ∈ state.2))

variable {ops : List Operation}

theorem paired_initial (ops : List Operation) :
    Paired ops 0 (ops.mapIdx Slot.ofOperation, []) where
  length := List.length_mapIdx
  opened := rfl
  slot := by
    intro j x hx
    refine ⟨none, ?_, Or.inr ⟨rfl, Or.inl (Nat.zero_le j)⟩⟩
    rw [List.getElem?_mapIdx, operation_of_link j x hx, Option.map_some, Option.some.injEq]
    cases x.operation <;> rfl

-- What is linked at an index, given what stands there.
theorem link_at (i : Nat) (op : Operation) (hop : ops[i]? = some op) :
    (ByteRegex.link ops)[i]? =
      some (linkedOperation i (openLoops 0 [] (ops.take i)) (ops.drop (i + 1)) op) := by
  rcases exists_cut i op hop with ⟨a, b, rfl, rfl⟩
  rw [getElem?_link, List.take_left, ← List.drop_drop, List.drop_left]
  rfl

theorem linkedOperation_operation (i : Nat) (opened : List Nat) (rest : List Operation)
    (op : Operation) : (linkedOperation i opened rest op).operation = op := by
  cases op <;> rfl

theorem openLoops_take_succ (i : Nat) (op : Operation) (hop : ops[i]? = some op) :
    openLoops 0 [] (ops.take (i + 1)) = openLoops i (openLoops 0 [] (ops.take i)) [op] := by
  have hi := (List.getElem?_eq_some_iff.1 hop).1
  rw [List.take_add_one, hop, openLoops_append, List.length_take_of_le (Nat.le_of_lt hi),
    Nat.zero_add]
  rfl

/-- The partner of an operation at an index is written. -/
theorem setPartner?_eq (slots : List Slot) (i partner : Nat) (s : Slot)
    (hs : slots[i]? = some s) : ∃ slots', setPartner? slots i partner = some slots' ∧
      slots'.length = slots.length ∧ slots'[i]? = some { s with partner := some partner } ∧
      ∀ j, j ≠ i → slots'[j]? = slots[j]? := by
  have hi := (List.getElem?_eq_some_iff.1 hs).1
  refine ⟨_, if_pos hi, List.length_modify .., ?_, fun j hj => ?_⟩
  · rw [List.getElem?_modify_eq, hs]
    rfl
  · exact List.getElem?_modify_ne _ _ (Ne.symm hj)

-- Behind everything but the end of the program something follows.
theorem succ_lt_of_ne_finish (h : BalancedProgram ops) (i : Nat) (op : Operation)
    (hop : ops[i]? = some op) (hne : op ≠ .finish) : i + 1 < ops.length := by
  rcases h with ⟨body, rfl, -⟩
  have hi := (List.getElem?_eq_some_iff.1 hop).1
  rw [List.length_append, List.length_singleton] at hi ⊢
  refine Nat.lt_of_not_le fun hlast => hne ?_
  rw [show i = body.length by omega, List.getElem?_concat_length] at hop
  exact (Option.some.inj hop).symm

/-- An operation is visited that is not the end of a loop. The quantifiers that have no
    partner yet have to stay among those that are open. -/
theorem paired_succ (i : Nat) (slots : List Slot) (opened opened' : List Nat)
    (hpaired : Paired ops i (slots, opened))
    (hopened : opened' = openLoops 0 [] (ops.take (i + 1)))
    (hmem : ∀ (j : Nat) x, (ByteRegex.link ops)[j]? = some x → x.partner ≠ none →
      j = i ∨ j ∈ opened → j ∈ opened') : Paired ops (i + 1) (slots, opened') where
  length := hpaired.length
  opened := hopened
  slot := by
    intro j x hx
    rcases hpaired.slot j x hx with ⟨partner, hslot, hpartner⟩
    refine ⟨partner, hslot, ?_⟩
    rcases hpartner with hknown | ⟨hnone, hwhere⟩
    · exact Or.inl hknown
    · by_cases hx' : x.partner = none
      · exact Or.inl (hnone.trans hx'.symm)
      · refine Or.inr ⟨hnone, ?_⟩
        by_cases hij : i + 1 ≤ j
        · exact Or.inl hij
        · refine Or.inr (hmem j x hx hx' ?_)
          exact hwhere.imp (fun hle => by omega) id

/-- The end of a loop is visited. Its quantifier is the innermost that is open. -/
theorem pairAt_loop (h : BalancedProgram ops) (i : Nat) (slots : List Slot) (opened : List Nat)
    (hpaired : Paired ops i (slots, opened)) (hop : ops[i]? = some .loop)
    (hvisit : slots[i]?.map Slot.operation = some .loop) :
    ∃ state', pairAt (slots, opened) i = some state' ∧ Paired ops (i + 1) state' := by
  have hi := succ_lt_of_ne_finish h i .loop hop Operation.noConfusion
  rcases inPlace_program h i .loop hop hi with ⟨k, hlooped⟩
  have hki := (lt_of_looped k i hlooped).1
  rcases link_loop k i hlooped with ⟨q, hq, hl⟩
  -- The quantifier is on the top of the stack.
  have hlinked := Option.some.inj ((link_at i _ hop).symm.trans hl)
  rw [← hpaired.opened] at hlinked
  have hhead : opened.head? = some k := congrArg LinkedOperation.partner hlinked
  rcases List.head?_eq_some_iff.1 hhead with ⟨rest, rfl⟩
  have hopened := openLoops_take_succ i _ hop
  rw [← hpaired.opened] at hopened
  rcases hpaired.slot k _ hq with ⟨partner, hslot, -⟩
  rcases setPartner?_eq slots k i _ hslot with ⟨slots₁, hset₁, hlength₁, hat₁, hother₁⟩
  rcases hpaired.slot i _ hl with ⟨partner', hslot', -⟩
  rw [← hother₁ i (Nat.ne_of_gt hki)] at hslot'
  rcases setPartner?_eq slots₁ i k _ hslot' with ⟨slots₂, hset₂, hlength₂, hat₂, hother₂⟩
  refine ⟨(slots₂, rest), ?_, ?_⟩
  · rw [pairAt, hvisit]
    simp only [hset₁, hset₂, Option.bind_eq_bind, Option.bind_some]
    rfl
  · refine ⟨(hlength₂.trans hlength₁).trans hpaired.length, hopened.symm, fun j x hx => ?_⟩
    by_cases hji : j = i
    · subst hji
      rw [Option.some.inj (hx.symm.trans hl)]
      exact ⟨some k, hat₂, Or.inl rfl⟩
    by_cases hjk : j = k
    · subst hjk
      rw [Option.some.inj (hx.symm.trans hq)]
      exact ⟨some i, (hother₂ j hji).trans hat₁, Or.inl rfl⟩
    -- All others are as they were.
    rcases hpaired.slot j x hx with ⟨p, hp, hpartner⟩
    refine ⟨p, ((hother₂ j hji).trans (hother₁ j hjk)).trans hp, hpartner.imp id fun hwhere => ?_⟩
    refine ⟨hwhere.1, hwhere.2.imp (fun hle => by omega) fun hmem => ?_⟩
    exact (List.mem_cons.1 hmem).resolve_left hjk

/-- Every operation is visited and leaves its partner, if it has one, paired. -/
theorem pairAt_paired (h : BalancedProgram ops) (i : Nat) (state : List Slot × List Nat)
    (hi : i < ops.length) (hpaired : Paired ops i state) :
    ∃ state', pairAt state i = some state' ∧ Paired ops (i + 1) state' := by
  rcases state with ⟨slots, opened⟩
  have hop := List.getElem?_eq_getElem hi
  have hx := link_at i _ hop
  have hopened := openLoops_take_succ i _ hop
  rw [← hpaired.opened] at hopened
  rcases hpaired.slot i _ hx with ⟨partner, hslot, -⟩
  have hvisit : slots[i]?.map Slot.operation = some ops[i] := by
    rw [hslot, Option.map_some]
    cases ops[i] <;> rfl
  generalize hat : ops[i] = op at *
  -- What has no partner need not be open.
  have hstays (hnone : (linkedOperation i (openLoops 0 [] (ops.take i)) (ops.drop (i + 1))
      op).partner = none) (hsame : openLoops i opened [op] = opened) :
      Paired ops (i + 1) (slots, opened) :=
    paired_succ i slots opened opened hpaired (hsame.symm.trans hopened.symm)
      fun j x hj hpartner hwhere => hwhere.resolve_left fun hji => hpartner (by
        rw [hji] at hj
        rw [Option.some.inj (hj.symm.trans hx), hnone])
  cases op with
  | quantifier q =>
      refine ⟨(slots, i :: opened), by rw [pairAt, hvisit], ?_⟩
      exact paired_succ i slots opened _ hpaired hopened.symm
        fun j x hj hpartner hwhere => List.mem_cons.2 hwhere
  | loop => exact pairAt_loop h i slots opened hpaired hop hvisit
  | _ => exact ⟨(slots, opened), by rw [pairAt, hvisit], hstays rfl rfl⟩

/-- All quantifiers and loops are paired, and no quantifier is left over. -/
theorem pairLoops_paired (h : BalancedProgram ops) :
    ∃ slots, pairLoops (ops.mapIdx Slot.ofOperation) = some slots ∧
      slots.length = ops.length ∧ ∀ (j : Nat) x, (ByteRegex.link ops)[j]? = some x →
        slots[j]? = some ⟨x.operation, (Slot.ofOperation j x.operation).next, x.partner⟩ := by
  rcases foldlM_range pairAt (Paired ops) ops.length (ops.mapIdx Slot.ofOperation, [])
    (paired_initial ops) (fun i state hi => pairAt_paired h i state hi) with
    ⟨⟨slots, opened⟩, hrun, hpaired⟩
  have hnone : opened = [] := by
    have hopened := hpaired.opened
    rcases h with ⟨body, rfl, hbody⟩
    rw [List.take_length, openLoops_append, openLoops_balancedChoice body hbody] at hopened
    exact hopened
  refine ⟨slots, ?_, hpaired.length, fun j x hx => ?_⟩
  · rw [pairLoops, List.length_mapIdx, hrun, hnone]
    rfl
  · rcases hpaired.slot j x hx with ⟨partner, hslot, hpartner | ⟨-, hwhere⟩⟩
    · rwa [hpartner] at hslot
    · -- Nothing is still to come, and nothing is open.
      have hj := (List.getElem?_eq_some_iff.1 (operation_of_link j x hx)).1
      rw [hnone] at hwhere
      rcases hwhere with hle | hmem
      · omega
      · exact absurd hmem List.not_mem_nil

end Pairing

section Choices

/-- The links that are known are right, and only those of branches and of the ends of
    alternatives may be unknown. -/
structure Fits (ops : List Operation) (slots : List Slot) : Prop where
  length : slots.length = ops.length
  slot : ∀ (j : Nat) x, (ByteRegex.link ops)[j]? = some x → ∃ next,
    slots[j]? = some ⟨x.operation, next, x.partner⟩ ∧
      (next = some x.next ∨ next = none ∧ (x.operation = .branch ∨ x.operation = .branchEnd))

/-- The link of the operation at an index is known. -/
def Linked (slots : List Slot) (j : Nat) : Prop := ∃ s, slots[j]? = some s ∧ s.next ≠ none

/-- With a branch the end of its alternative is linked, which stands in front of what the
    branch is linked to. -/
def Closed (ops : List Operation) (slots : List Slot) : Prop :=
  ∀ (j : Nat) x, (ByteRegex.link ops)[j]? = some x → x.operation = .branch → Linked slots j →
    Linked slots (x.next - 1)

variable {ops : List Operation}

-- The operations stay what they are.
theorem operation_of_fits (slots : List Slot) (hfits : Fits ops slots) :
    slots.map Slot.operation = ops := by
  refine List.ext_getElem? fun j => ?_
  rw [List.getElem?_map]
  cases hop : ops[j]? with
  | none =>
      rw [List.getElem?_eq_none_iff] at hop
      rw [List.getElem?_eq_none (hfits.length ▸ hop), Option.map_none]
  | some op =>
      rcases hfits.slot j _ (link_at j op hop) with ⟨next, hslot, -⟩
      rw [hslot, Option.map_some]
      cases op <;> rfl

/-- A link that is right can be written, and no other is touched. -/
theorem fits_modify (slots : List Slot) (hfits : Fits ops slots) (j : Nat) (x : LinkedOperation)
    (hx : (ByteRegex.link ops)[j]? = some x) :
    Fits ops (slots.modify j fun s => { s with next := some x.next }) ∧
      ∀ k, Linked (slots.modify j fun s => { s with next := some x.next }) k ↔
        k = j ∨ Linked slots k := by
  rcases hfits.slot j x hx with ⟨next, hslot, -⟩
  have hat : (slots.modify j fun s => { s with next := some x.next })[j]? =
      some ⟨x.operation, some x.next, x.partner⟩ := by
    rw [List.getElem?_modify_eq, hslot]
    rfl
  have hother (k : Nat) (hk : k ≠ j) :
      (slots.modify j fun s => { s with next := some x.next })[k]? = slots[k]? :=
    List.getElem?_modify_ne _ _ (Ne.symm hk)
  refine ⟨⟨(List.length_modify ..).trans hfits.length, fun k y hy => ?_⟩, fun k => ?_⟩
  · by_cases hk : k = j
    · subst hk
      rw [Option.some.inj (hy.symm.trans hx)]
      exact ⟨some x.next, hat, Or.inl rfl⟩
    · rw [hother k hk]
      exact hfits.slot k y hy
  · by_cases hk : k = j
    · subst hk
      exact ⟨fun _ => Or.inl rfl, fun _ => ⟨_, hat, Option.some_ne_none _⟩⟩
    · rw [Linked, hother k hk]
      exact ⟨Or.inr, fun h => h.resolve_left hk⟩

theorem setNext?_fits (slots : List Slot) (hfits : Fits ops slots) (j : Nat) (x : LinkedOperation)
    (hx : (ByteRegex.link ops)[j]? = some x) :
    ∃ slots', setNext? slots j x.next = some slots' ∧ Fits ops slots' ∧
      ∀ k, Linked slots' k ↔ k = j ∨ Linked slots k := by
  have hj := (List.getElem?_eq_some_iff.1 (operation_of_link j x hx)).1
  have hmodify := fits_modify slots hfits j x hx
  exact ⟨_, if_pos (Nat.lt_of_lt_of_eq hj hfits.length.symm), hmodify.1, hmodify.2⟩

/-- All ends that have been collected are linked to the same place. -/
theorem setNext?_all (behind : Nat) (ends : List Nat) (slots : List Slot) (hfits : Fits ops slots)
    (hends : ∀ e ∈ ends, (ByteRegex.link ops)[e]? = some ⟨.branchEnd, behind, none⟩) :
    ∃ slots', ends.foldlM (fun slots i => setNext? slots i behind) slots = some slots' ∧
      Fits ops slots' ∧ ∀ k, Linked slots' k ↔ k ∈ ends ∨ Linked slots k := by
  induction ends generalizing slots with
  | nil =>
      exact ⟨slots, rfl, hfits, fun k => by simp only [List.not_mem_nil, false_or]⟩
  | cons e ends ih =>
      rcases setNext?_fits slots hfits e _ (hends e List.mem_cons_self) with
        ⟨slots₁, hset, hfits₁, hlinked₁⟩
      rcases ih slots₁ hfits₁ (fun e' he' => hends e' (List.mem_cons_of_mem e he')) with
        ⟨slots₂, hrun, hfits₂, hlinked₂⟩
      refine ⟨slots₂, ?_, hfits₂, fun k => ?_⟩
      · rw [List.foldlM_cons, hset]
        exact hrun
      · rw [hlinked₂, hlinked₁, List.mem_cons, ← or_assoc, or_comm (a := k ∈ ends)]

/-- The end of an alternative that is balanced is found. -/
theorem branchEnd?_passes : PassesBlocks branchEnd? (· + 1) id where
  plain := by
    intro s op rest h
    cases op <;> first | rfl | exact h.elim
  openGroup := fun _ _ _ => rfl
  closeGroup := fun _ _ _ => rfl
  quantifier := fun _ _ _ => rfl
  loop := fun _ _ => rfl
  branch := fun _ _ => rfl
  branchEnd := fun _ _ => rfl

theorem branchEnd?_balanced (s rest : List Operation) (h : BalancedSequence s) :
    branchEnd? 0 (s ++ .branchEnd :: rest) = some s.length := by
  have hend : branchEnd? 0 (.branchEnd :: rest) = some 0 := by
    rw [branchEnd?, if_pos rfl]
  rw [passes_balancedSequence branchEnd?_passes s h 0, hend, Option.map_some, Nat.zero_add]

-- What is left of a chain is a chain.
theorem chained_tail (i : Nat) (us vs : List (List Operation)) (h : Chained ops i (us ++ vs)) :
    Chained ops (i + (chain us).length) vs := by
  rcases h with ⟨before, op, behind, rfl, rfl, hop, halts⟩
  exact ⟨before ++ chain us, op, behind, by simp only [chain_append, List.append_assoc],
    List.length_append, hop, fun s hs => halts s (List.mem_append_right us hs)⟩

/-- What linking the branches of a chain leaves behind, if the chain ends in front of the index
    `behind`. -/
structure ChainLinked (ops : List Operation) (behind : Nat) (slots slots' : List Slot)
    (ends ends' : List Nat) : Prop where
  fits : Fits ops slots'
  /-- The latest end is that of the last alternative. -/
  last : ends'.head?.map (· + 1) = some behind
  /-- The ends that are added all lead to the same place. -/
  added : ∀ e ∈ ends', e ∈ ends ∨
    (ByteRegex.link ops)[e]? = some ⟨.branchEnd, behind, none⟩
  collected : ∀ e ∈ ends, e ∈ ends'
  kept : ∀ k, Linked slots k → Linked slots' k
  /-- The end of an alternative is collected when its branch is linked. -/
  branches : ∀ k, Linked slots' k → Linked slots k ∨
    ∃ x, (ByteRegex.link ops)[k]? = some x ∧ x.next - 1 ∈ ends'

/-- The branch at an index is linked and its end collected, and then the rest of the chain. -/
theorem chainLinked_cons (behind i last : Nat) (slots slots₁ slots' : List Slot)
    (ends ends' : List Nat) (hbranch : (ByteRegex.link ops)[i]? = some ⟨.branch, last + 1, none⟩)
    (hend : (ByteRegex.link ops)[last]? = some ⟨.branchEnd, behind, none⟩)
    (hlinked : ∀ k, Linked slots₁ k ↔ k = i ∨ Linked slots k)
    (hrest : ChainLinked ops behind slots₁ slots' (last :: ends) ends') :
    Linked slots' i ∧ ChainLinked ops behind slots slots' ends ends' := by
  refine ⟨hrest.kept i ((hlinked i).2 (Or.inl rfl)), hrest.fits, hrest.last, fun e he => ?_,
    fun e he => hrest.collected e (List.mem_cons_of_mem last he),
    fun k hk => hrest.kept k ((hlinked k).2 (Or.inr hk)), fun k hk => ?_⟩
  · rcases hrest.added e he with hmem | hadded
    · rcases List.mem_cons.1 hmem with rfl | hmem
      · exact Or.inr hend
      · exact Or.inl hmem
    · exact Or.inr hadded
  · rcases hrest.branches k hk with hbefore | hmem
    · rcases (hlinked k).1 hbefore with rfl | hbefore
      · exact Or.inr ⟨_, hbranch, hrest.collected last List.mem_cons_self⟩
      · exact Or.inl hbefore
    · exact Or.inr hmem

-- The end of the first alternative, seen from its branch.
theorem length_chain_singleton (i : Nat) (s : List Operation) :
    i + 1 + s.length + 1 = i + (chain [s]).length := by
  rw [length_chain_cons, chain, List.length_nil]
  omega

-- The links of the first alternative of a chain.
theorem link_first (i : Nat) (s : List Operation) (vs : List (List Operation))
    (h : Chained ops i (s :: vs)) :
    (ByteRegex.link ops)[i]? = some ⟨.branch, i + 1 + s.length + 1, none⟩ ∧
      (ByteRegex.link ops)[i + 1 + s.length]? =
        some ⟨.branchEnd, i + (chain (s :: vs)).length, none⟩ := by
  rw [length_chain_singleton]
  exact ⟨link_branch i [] s vs h, link_branchEnd i [] s vs h⟩

/-- The first branch of a chain is linked, and the walk goes on if there is another. -/
theorem linkBranches_step (slots : List Slot) (i : Nat) (s : List Operation)
    (vs : List (List Operation)) (ends : List Nat) (hfits : Fits ops slots)
    (hchained : Chained ops i (s :: vs)) :
    ∃ slots₁, Fits ops slots₁ ∧ (∀ k, Linked slots₁ k ↔ k = i ∨ Linked slots k) ∧
      linkBranches slots i ends =
        if vs.isEmpty then some (slots₁, (i + 1 + s.length) :: ends)
        else linkBranches slots₁ (i + 1 + s.length + 1) ((i + 1 + s.length) :: ends) := by
  have hbranch := (link_first i s vs hchained).1
  have hi := Nat.lt_of_lt_of_eq (List.getElem?_eq_some_iff.1 (operation_of_link i _ hbranch)).1
    hfits.length.symm
  rcases fits_modify slots hfits i _ hbranch with ⟨hfits₁, hlinked₁⟩
  refine ⟨_, hfits₁, hlinked₁, ?_⟩
  rcases hchained with ⟨before, op, behind, hops, rfl, hop, halts⟩
  -- The walk to the end of the alternative passes over it.
  have hdrop : ops.drop (before.length + 1) =
      s ++ .branchEnd :: (chain vs ++ op :: behind) := by
    rw [hops, ← List.drop_drop, List.drop_left, chain, List.cons_append, List.append_assoc]
    rfl
  have hwalk : branchEnd? 0 ((slots.drop (before.length + 1)).map Slot.operation) =
      some s.length := by
    rw [List.map_drop, operation_of_fits slots hfits, hdrop]
    exact branchEnd?_balanced s _ (halts s List.mem_cons_self)
  -- What follows is the next branch, or what stands behind the chain.
  have hlook : (slots.modify before.length fun slot =>
      { slot with next := some (before.length + 1 + s.length + 1) })[before.length + 1 +
        s.length + 1]?.map Slot.operation = (chain vs ++ op :: behind).head? := by
    rw [← List.getElem?_map, operation_of_fits _ hfits₁, List.head?_eq_getElem?,
      Nat.add_assoc (before.length + 1), ← List.getElem?_drop, hdrop,
      List.getElem?_append_right (Nat.le_add_right _ _), Nat.add_sub_cancel_left]
    rfl
  rw [linkBranches, hwalk]
  simp only [if_pos hi, hlook]
  cases vs with
  | nil =>
      cases op with
      | branch => exact absurd rfl hop
      | _ => rfl
  | cons t vs => rfl

/-- The branches of a chain are linked from its first alternative on, by induction on the
    alternatives that are left. -/
theorem linkBranches_chained (vs : List (List Operation)) (slots : List Slot) (i : Nat)
    (s : List Operation) (ends : List Nat) (hfits : Fits ops slots)
    (hchained : Chained ops i (s :: vs)) :
    ∃ slots' ends', linkBranches slots i ends = some (slots', ends') ∧ Linked slots' i ∧
      ChainLinked ops (i + (chain (s :: vs)).length) slots slots' ends ends' := by
  induction vs generalizing slots i s ends with
  | nil =>
      rcases link_first i s [] hchained with ⟨hbranch, hend⟩
      rcases linkBranches_step slots i s [] ends hfits hchained with
        ⟨slots₁, hfits₁, hlinked₁, hrun⟩
      have hdone : ChainLinked ops (i + (chain [s]).length) slots₁ slots₁
          ((i + 1 + s.length) :: ends) ((i + 1 + s.length) :: ends) :=
        ⟨hfits₁, congrArg some (length_chain_singleton i s), fun e he => Or.inl he,
          fun e he => he, fun k hk => hk, fun k hk => Or.inl hk⟩
      exact ⟨slots₁, _, hrun, chainLinked_cons _ i _ _ _ _ _ _ hbranch hend hlinked₁ hdone⟩
  | cons t vs ih =>
      rcases link_first i s (t :: vs) hchained with ⟨hbranch, hend⟩
      rcases linkBranches_step slots i s (t :: vs) ends hfits hchained with
        ⟨slots₁, hfits₁, hlinked₁, hrun⟩
      have hnext := chained_tail i [s] (t :: vs) hchained
      rw [← length_chain_singleton] at hnext
      rcases ih slots₁ _ t ((i + 1 + s.length) :: ends) hfits₁ hnext with
        ⟨slots', ends', hrest, -, hlinked⟩
      rw [length_chain_singleton, Nat.add_assoc, ← List.length_append, ← chain_append,
        List.singleton_append] at hlinked
      exact ⟨slots', ends', hrun.trans hrest,
        chainLinked_cons _ i _ _ _ _ _ _ hbranch hend hlinked₁ hlinked⟩

/-- A choice is linked from the branch of any of its alternatives on. -/
theorem linkChoice_chained (slots : List Slot) (i : Nat) (s : List Operation)
    (vs : List (List Operation)) (hfits : Fits ops slots) (hclosed : Closed ops slots)
    (hchained : Chained ops i (s :: vs)) :
    ∃ slots', linkChoice slots i = some slots' ∧ Fits ops slots' ∧ Closed ops slots' ∧
      Linked slots' i ∧ ∀ k, Linked slots k → Linked slots' k := by
  rcases linkBranches_chained vs slots i s [] hfits hchained with
    ⟨slots₁, ends, hrun, hfirst, hlinked₁⟩
  have hends : ∀ e ∈ ends, (ByteRegex.link ops)[e]? =
      some ⟨.branchEnd, i + (chain (s :: vs)).length, none⟩ :=
    fun e he => (hlinked₁.added e he).resolve_left List.not_mem_nil
  rcases setNext?_all _ ends.reverse slots₁ hlinked₁.fits
    (fun e he => hends e (List.mem_reverse.1 he)) with ⟨slots₂, hset, hfits₂, hlinked₂⟩
  refine ⟨slots₂, ?_, hfits₂, fun j x hx hop hj => ?_, (hlinked₂ i).2 (Or.inr hfirst),
    fun k hk => (hlinked₂ k).2 (Or.inr (hlinked₁.kept k hk))⟩
  · -- The latest end tells where the chain ends.
    have hlast := hlinked₁.last
    cases ends with
    | nil => exact absurd hlast (by simp only [List.head?_nil, Option.map_none, reduceCtorEq,
        not_false_eq_true])
    | cons last more =>
        have hbehind : last + 1 = i + (chain (s :: vs)).length := Option.some.inj hlast
        rw [linkChoice, hrun]
        simp only [Option.bind_eq_bind, Option.bind_some, hbehind]
        exact hset
  · rw [hlinked₂] at hj ⊢
    rcases hj with hmem | hj
    · -- An end is not a branch.
      have hend := hends j (List.mem_reverse.1 hmem)
      rw [Option.some.inj (hx.symm.trans hend)] at hop
      exact absurd hop (by simp only [reduceCtorEq, not_false_eq_true])
    · rcases hlinked₁.branches j hj with hbefore | ⟨y, hy, hmem⟩
      · exact Or.inr (hlinked₁.kept _ (hclosed j x hx hop hbefore))
      · rw [Option.some.inj (hx.symm.trans hy)]
        exact Or.inl (List.mem_reverse.2 hmem)

/-- After the operations in front of an index have been visited, their branches are linked. -/
structure Chosen (ops : List Operation) (i : Nat) (slots : List Slot) : Prop where
  fits : Fits ops slots
  closed : Closed ops slots
  branches : ∀ j, j < i → ops[j]? = some .branch → Linked slots j

/-- Every operation is visited, and if it is a branch, it is linked behind that. -/
theorem linkChoiceAt_chosen (h : BalancedProgram ops) (i : Nat) (slots : List Slot)
    (hi : i < ops.length) (hchosen : Chosen ops i slots) :
    ∃ slots', linkChoiceAt slots i = some slots' ∧ Chosen ops (i + 1) slots' := by
  have hop := List.getElem?_eq_getElem hi
  rcases hchosen.fits.slot i _ (link_at i _ hop) with ⟨next, hslot, -⟩
  rw [linkedOperation_operation] at hslot
  generalize hat : ops[i] = op at *
  -- A branch that has a link, and everything else, stays as it is.
  have hstays (hbranch : op = .branch → next ≠ none) (hsame : linkChoiceAt slots i = some slots) :
      ∃ slots', linkChoiceAt slots i = some slots' ∧ Chosen ops (i + 1) slots' := by
    refine ⟨slots, hsame, hchosen.fits, hchosen.closed, fun j hj hjop => ?_⟩
    rcases Nat.lt_succ_iff_lt_or_eq.1 hj with hlt | rfl
    · exact hchosen.branches j hlt hjop
    · exact ⟨_, hslot, hbranch (Option.some.inj (hop.symm.trans hjop))⟩
  cases op with
  | branch =>
      cases next with
      | some next =>
          exact hstays (fun _ => Option.some_ne_none next) (by rw [linkChoiceAt, hslot])
      | none =>
          have hlt := succ_lt_of_ne_finish h i _ hop Operation.noConfusion
          rcases inPlace_program h i .branch hop hlt with ⟨first, us, s, vs, hchained, rfl⟩
          rcases linkChoice_chained slots _ s vs hchosen.fits hchosen.closed
            (chained_tail first us (s :: vs) hchained) with
            ⟨slots', hrun, hfits, hclosed, hfirst, hkept⟩
          refine ⟨slots', by rw [linkChoiceAt, hslot]; exact hrun, hfits, hclosed,
            fun j hj hjop => ?_⟩
          rcases Nat.lt_succ_iff_lt_or_eq.1 hj with hlt | rfl
          · exact hkept j (hchosen.branches j hlt hjop)
          · exact hfirst
  | _ => exact hstays Operation.noConfusion (by rw [linkChoiceAt, hslot])

/-- All choices are linked, and then every link is known. -/
theorem linkChoices_fits (h : BalancedProgram ops) (slots : List Slot) (hfits : Fits ops slots)
    (hclosed : Closed ops slots) : ∃ slots', linkChoices slots = some slots' ∧
      Fits ops slots' ∧ ∀ j, j < ops.length → Linked slots' j := by
  rcases foldlM_range linkChoiceAt (Chosen ops) ops.length slots
    ⟨hfits, hclosed, fun j hj => absurd hj (Nat.not_lt_zero j)⟩
    (fun i slots hi => linkChoiceAt_chosen h i slots hi) with ⟨slots', hrun, hchosen⟩
  refine ⟨slots', by rw [linkChoices, hfits.length, hrun], hchosen.fits, fun j hj => ?_⟩
  have hop := List.getElem?_eq_getElem hj
  have hx := link_at j _ hop
  rcases hchosen.fits.slot j _ hx with ⟨next, hslot, hnext⟩
  rcases hnext with hknown | ⟨-, hbranch | hend⟩
  · exact ⟨_, hslot, by rw [hknown]; exact Option.some_ne_none _⟩
  · rw [linkedOperation_operation] at hbranch
    exact hchosen.branches j hj (hbranch ▸ hop)
  · -- The end belongs to a branch, which is linked.
    rw [linkedOperation_operation] at hend
    rw [hend] at hop
    have hlt := succ_lt_of_ne_finish h j _ hop Operation.noConfusion
    rcases inPlace_program h j .branchEnd hop hlt with ⟨first, us, s, vs, hchained, rfl⟩
    rcases link_first _ s vs (chained_tail first us (s :: vs) hchained) with ⟨hbranch, -⟩
    have hlinked := hchosen.branches _ (by omega) (operation_of_link _ _ hbranch)
    exact hchosen.closed _ _ hbranch rfl hlinked

-- Before any choice is linked, the links that are known are those that need no search.
theorem fits_paired (slots : List Slot) (hlength : slots.length = ops.length)
    (hslots : ∀ (j : Nat) x, (ByteRegex.link ops)[j]? = some x →
      slots[j]? = some ⟨x.operation, (Slot.ofOperation j x.operation).next, x.partner⟩) :
    Fits ops slots ∧ Closed ops slots := by
  refine ⟨⟨hlength, fun j x hx => ⟨_, hslots j x hx, ?_⟩⟩, fun j x hx hop hj => ?_⟩
  · have hop := operation_of_link j x hx
    rw [Option.some.inj (hx.symm.trans (link_at j _ hop)), linkedOperation_operation]
    cases x.operation with
    | branch => exact Or.inr ⟨rfl, Or.inl rfl⟩
    | branchEnd => exact Or.inr ⟨rfl, Or.inr rfl⟩
    | _ => exact Or.inl rfl
  · rcases hj with ⟨slot, hslot, hnext⟩
    rw [hslots j x hx, hop, Option.some.injEq] at hslot
    exact absurd (congrArg Slot.next hslot).symm hnext

/-- Where every link is known, the slots are what `link` makes of the operations. -/
theorem map_ofLinked (slots : List Slot) (hfits : Fits ops slots)
    (hlinked : ∀ j, j < ops.length → Linked slots j) :
    slots = (ByteRegex.link ops).toList.map Slot.ofLinked := by
  refine List.ext_getElem? fun j => ?_
  have hat : (ByteRegex.link ops).toList[j]? = (ByteRegex.link ops)[j]? := Array.getElem?_toList
  rw [List.getElem?_map, hat]
  cases hx : (ByteRegex.link ops)[j]? with
  | none =>
      have hlength := congrArg List.length (map_link ops)
      rw [List.length_map, Array.length_toList] at hlength
      rw [Array.getElem?_eq_none_iff, hlength, ← hfits.length] at hx
      rw [List.getElem?_eq_none hx, Option.map_none]
  | some x =>
      rcases hfits.slot j x hx with ⟨next, hslot, hnext⟩
      rcases hlinked j (List.getElem?_eq_some_iff.1 (operation_of_link j x hx)).1 with
        ⟨slot, hslot', hknown⟩
      rw [Option.some.inj (hslot'.symm.trans hslot)] at hknown
      rw [hslot, hnext.resolve_right fun hunknown => hknown hunknown.1]
      rfl

end Choices

/-- Linking in place comes to the same links, and nothing that it asserts can fail. -/
theorem link_inPlace (ops : List Operation) (h : BalancedProgram ops) :
    link ops = some (ByteRegex.link ops) := by
  have hfinish : ops.getLast? = some .finish := by
    rcases h with ⟨body, rfl, -⟩
    exact List.getLast?_concat
  rcases pairLoops_paired h with ⟨slots₁, hpairs, hlength, hslots₁⟩
  rcases fits_paired slots₁ hlength hslots₁ with ⟨hfits₁, hclosed₁⟩
  rcases linkChoices_fits h slots₁ hfits₁ hclosed₁ with ⟨slots₂, hchoices, hfits₂, hlinked⟩
  rw [link, if_pos hfinish, hpairs]
  simp only [Option.bind_eq_bind, Option.bind_some, hchoices, map_ofLinked slots₂ hfits₂ hlinked,
    mapM_linked?]
  rfl

end InPlace

/-- The linker resolves every list of operations that is balanced, however deep its groups,
    loops and choices are nested. It never goes astray while it works in place. -/
theorem link_resolved (ops : List Operation) (h : BalancedProgram ops) :
    InPlace.link ops = some (link ops) ∧ Resolved ops (link ops) :=
  ⟨InPlace.link_inPlace ops h, resolved_link ops h⟩

-- A choice in a group in a loop in the first alternative of a choice. The loop is
-- the quantifier's partner, and no branch is taken for one of the other chain.
theorem link_resolved_nested :
    let ops : List Operation := [.branch, .quantifier ⟨.oneOrMore, 1, none, true⟩,
      .openGroup ⟨1, by decide⟩, .branch, .anyChar, .branchEnd, .branch, .anyString, .branchEnd,
      .closeGroup ⟨1, by decide⟩, .loop, .branchEnd, .branch, .cursor, .branchEnd, .finish]
    BalancedProgram ops ∧ InPlace.link ops = some (link ops) ∧ Resolved ops (link ops) ∧
      (link ops).toList.map (·.next) =
        [12, 2, 3, 6, 5, 9, 9, 8, 9, 10, 11, 15, 15, 14, 15, 15] := by
  have hbalanced := operations_balancedProgram ⟨[[.quantified ⟨.oneOrMore, 1, none, true⟩
    (.group ⟨1, by decide⟩ [[.anyChar], [.anyString]])], [.cursor]], 1⟩
  have hlink := link_resolved _ hbalanced
  exact ⟨hbalanced, hlink.1, hlink.2, by decide +kernel⟩

end ByteRegex

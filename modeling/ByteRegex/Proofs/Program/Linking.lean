import ByteRegex.Proofs.Program.Layout

/-!
# Links Follow the Structure

What the linker makes of balanced operations, whether or not they come from a
tree. `Chained`, `Looped` and `Grouped` say where in a flat list a choice, a loop
or a group stands. `Resolved` says what its links have to be: a branch leads to
the next one of its chain and the last one behind the chain, where every end of
the chain leads as well; a quantifier and its loop lead to each other; `finish`
leads to itself and everything else to its neighbour.

The linker goes over the list once. What it makes of one operation depends on
the quantifiers that are open in front of it and on the operations behind it, and
nothing else (`linkFrom_cons`), so a link can be read off wherever the list is cut
in two (`getElem?_link`). The walks that look ahead pass over balanced operations,
and the loops that are open behind them are those that were open in front. This
settles each link from the structure that surrounds it.

That every operation has such a structure around it is an induction on how the
operations are balanced (`inPlace_block`). It also keeps the links inside: what
surrounds an operation of a group lies in the group.

## Main definitions

* `linkedOperation`: What linking makes of one operation.
* `Chained`, `Looped`, `Grouped`: A chain, a loop or a group stands in a list.
* `Operation.InPlace`: An operation belongs to a structure of the list.
* `LinkedOperation.Within`: The links of an operation lead into a stretch.
* `Resolved`: The links are what the structure calls for.

## Theorems

* `getElem?_link`: One operation of a linked list.
* `link_branch`, `link_branchEnd`: The links of a chain.
* `link_loop`: The links of a loop.
* `inPlace_block`: Every operation of a block belongs to a structure.
* `within_of_inPlace`: Its links stay where the structure is.
* `resolved_link`: The links of balanced operations are what their structure calls for.
-/

namespace ByteRegex

/-- What linking makes of an operation at index `i`, when the quantifiers at `opened`
    await their loops and `rest` stands behind it. -/
def linkedOperation (i : Nat) (opened : List Nat) (rest : List Operation) (op : Operation) :
    LinkedOperation :=
  match op with
  | .finish => ⟨op, i, none⟩
  | .branch => ⟨op, i + 1 + behindBranch rest, none⟩
  | .branchEnd => ⟨op, i + 1 + behindChain rest, none⟩
  | .quantifier _ => ⟨op, i + 1, (behindLoop? 0 rest).map (i + 1 + ·)⟩
  | .loop => ⟨op, i + 1, opened.head?⟩
  | _ => ⟨op, i + 1, none⟩

/-- Linking takes one operation at a time. -/
theorem linkFrom_cons (i : Nat) (opened : List Nat) (op : Operation) (rest : List Operation) :
    linkFrom i opened (op :: rest) = linkedOperation i opened rest op ::
      linkFrom (i + 1) (openLoops i opened [op]) rest := by
  cases op <;> rfl

theorem getElem?_linkFrom (i : Nat) (opened : List Nat) (a : List Operation) (op : Operation)
    (b : List Operation) : (linkFrom i opened (a ++ op :: b))[a.length]? =
      some (linkedOperation (i + a.length) (openLoops i opened a) b op) := by
  induction a generalizing i opened with
  | nil =>
      rw [List.nil_append, linkFrom_cons]
      rfl
  | cons first rest ih =>
      rw [List.cons_append, linkFrom_cons, List.length_cons, List.getElem?_cons_succ, ih,
        openLoops_cons i opened first rest]
      congr 2
      omega

/-- Linking a list links each operation to what is behind it, from the loops that
    are open in front of it. -/
theorem getElem?_link (a : List Operation) (op : Operation) (b : List Operation) :
    (link (a ++ op :: b))[a.length]? =
      some (linkedOperation a.length (openLoops 0 [] a) b op) := by
  rw [link, List.getElem?_toArray, getElem?_linkFrom, Nat.zero_add]

/-- A chain of branches stands at an index of a list. Behind it is an operation that
    does not make the chain any longer. -/
def Chained (ops : List Operation) (i : Nat) (alts : List (List Operation)) : Prop :=
  ∃ before op behind, ops = before ++ (chain alts ++ op :: behind) ∧ before.length = i ∧
    op ≠ .branch ∧ ∀ s ∈ alts, BalancedSequence s

/-- A quantifier stands at index `i`, a block behind it, and the loop at index `l`. -/
def Looped (ops : List Operation) (i l : Nat) : Prop :=
  ∃ before q x behind, ops = before ++ .quantifier q :: (x ++ .loop :: behind) ∧
    before.length = i ∧ i + 1 + x.length = l ∧ BalancedBlock x

/-- A group opens at index `i` and closes at index `j`. -/
def Grouped (ops : List Operation) (i j : Nat) : Prop :=
  ∃ before m body n behind, ops = before ++ .openGroup m :: (body ++ .closeGroup n :: behind) ∧
    before.length = i ∧ i + 1 + body.length = j ∧ BalancedChoice body

/-- An operation at an index belongs to a structure of the list: a branch and its end
    to a chain, a quantifier and its loop to each other, and so the ends of a group. -/
def Operation.InPlace (ops : List Operation) (i : Nat) : Operation → Prop
  | .branch => ∃ first us s vs, Chained ops first (us ++ s :: vs) ∧
      i = first + (chain us).length
  | .branchEnd => ∃ first us s vs, Chained ops first (us ++ s :: vs) ∧
      i = first + (chain us).length + 1 + s.length
  | .quantifier _ => ∃ l, Looped ops i l
  | .loop => ∃ k, Looped ops k i
  | .openGroup _ => ∃ j, Grouped ops i j
  | .closeGroup _ => ∃ k, Grouped ops k i
  | .finish => False
  | _ => True

/-- An operation behind which the program goes on with its neighbour, and that has no
    partner. -/
def Operation.FallsThrough : Operation → Prop
  | .finish => False
  | .branch => False
  | .branchEnd => False
  | .quantifier _ => False
  | .loop => False
  | _ => True

/-- The links of an operation lead to indices from `lo` on that are less than `hi`. -/
def LinkedOperation.Within (x : LinkedOperation) (lo hi : Nat) : Prop :=
  lo ≤ x.next ∧ x.next < hi ∧ ∀ k, x.partner = some k → lo ≤ k ∧ k < hi

/-- The links of a list are what its structure calls for. -/
structure Resolved (ops : List Operation) (linked : Array LinkedOperation) : Prop where
  /-- The operations themselves are left as they are. -/
  operations : linked.toList.map (·.operation) = ops
  /-- A branch leads to the next one of its chain, and the last one behind the chain. -/
  branches : ∀ i us s vs, Chained ops i (us ++ s :: vs) →
    linked[i + (chain us).length]? =
      some ⟨.branch, i + (chain (us ++ [s])).length, none⟩
  /-- The end of every alternative leads behind the chain. -/
  branchEnds : ∀ i us s vs, Chained ops i (us ++ s :: vs) →
    linked[i + (chain us).length + 1 + s.length]? =
      some ⟨.branchEnd, i + (chain (us ++ s :: vs)).length, none⟩
  /-- A quantifier and its loop are each other's partners. -/
  loops : ∀ i l, Looped ops i l →
    ∃ q, linked[i]? = some ⟨.quantifier q, i + 1, some l⟩ ∧
      linked[l]? = some ⟨.loop, l + 1, some i⟩
  /-- The end of the program leads to itself. -/
  finish : ∀ i : Nat, ops[i]? = some .finish → linked[i]? = some ⟨.finish, i, none⟩
  /-- Every other operation leads to its neighbour. -/
  neighbours : ∀ (i : Nat) op, ops[i]? = some op → op.FallsThrough →
    linked[i]? = some ⟨op, i + 1, none⟩
  /-- No branch, quantifier or loop stands outside of a chain or a loop, and the program
      ends nowhere but behind the last operation. -/
  inPlace : ∀ (i : Nat) op, ops[i]? = some op → i + 1 < ops.length → op.InPlace ops i
  /-- No link leaves a group. -/
  inside : ∀ i j, Grouped ops i j → ∀ (k : Nat) x, i < k → k < j → linked[k]? = some x →
    x.Within (i + 1) (j + 1)
  /-- Every link leads to an operation. -/
  resolved : ∀ x ∈ linked.toList, x.Within 0 ops.length

-- A list is what stands in front of one of its elements, the element, and what
-- stands behind it.
theorem exists_cut {α : Type} {xs : List α} (i : Nat) (x : α) (h : xs[i]? = some x) :
    ∃ a b, xs = a ++ x :: b ∧ a.length = i := by
  rcases List.getElem?_eq_some_iff.1 h with ⟨hi, rfl⟩
  exact ⟨xs.take i, xs.drop (i + 1),
    by rw [← List.drop_eq_getElem_cons hi, List.take_append_drop],
    List.length_take_of_le (Nat.le_of_lt hi)⟩

section Links

variable {ops : List Operation}

/-- The branch of an alternative leads behind the alternative. -/
theorem link_branch (i : Nat) (us : List (List Operation)) (s : List Operation)
    (vs : List (List Operation)) (h : Chained ops i (us ++ s :: vs)) :
    (link ops)[i + (chain us).length]? =
      some ⟨.branch, i + (chain (us ++ [s])).length, none⟩ := by
  rcases h with ⟨before, op, behind, rfl, rfl, -, halts⟩
  have hs := halts s (List.mem_append_right us List.mem_cons_self)
  have hcut : before ++ (chain (us ++ s :: vs) ++ op :: behind) =
      (before ++ chain us) ++ .branch :: (s ++ .branchEnd :: (chain vs ++ op :: behind)) := by
    simp only [chain_append, chain, List.append_assoc, List.cons_append]
  rw [hcut, ← List.length_append, getElem?_link, linkedOperation, behindBranch_balanced s _ hs,
    chain_append, List.length_append, List.length_append, length_chain_cons]
  simp only [chain, List.length_nil, Option.some.injEq, LinkedOperation.mk.injEq, true_and,
    and_true]
  omega

/-- The end of an alternative leads behind the chain. -/
theorem link_branchEnd (i : Nat) (us : List (List Operation)) (s : List Operation)
    (vs : List (List Operation)) (h : Chained ops i (us ++ s :: vs)) :
    (link ops)[i + (chain us).length + 1 + s.length]? =
      some ⟨.branchEnd, i + (chain (us ++ s :: vs)).length, none⟩ := by
  rcases h with ⟨before, op, behind, rfl, rfl, hop, halts⟩
  have hvs : ∀ t ∈ vs, BalancedSequence t :=
    fun t ht => halts t (List.mem_append_right us (List.mem_cons_of_mem s ht))
  have hbehind : behindChain (chain vs ++ op :: behind) = (chain vs).length :=
    behindChain_chain vs _ hvs (fun h => hop (Option.some.inj h))
  have hcut : before ++ (chain (us ++ s :: vs) ++ op :: behind) =
      (before ++ (chain us ++ .branch :: s)) ++ .branchEnd :: (chain vs ++ op :: behind) := by
    simp only [chain_append, chain, List.append_assoc, List.cons_append]
  have hlength : (before ++ (chain us ++ .branch :: s)).length =
      before.length + (chain us).length + 1 + s.length := by
    rw [List.length_append, List.length_append, List.length_cons]
    omega
  rw [hcut, ← hlength, getElem?_link, linkedOperation, hbehind, hlength, chain_append,
    List.length_append, length_chain_cons]
  simp only [Option.some.injEq, LinkedOperation.mk.injEq, true_and, and_true]
  omega

/-- A quantifier and its loop are linked to each other. -/
theorem link_loop (i l : Nat) (h : Looped ops i l) :
    ∃ q, (link ops)[i]? = some ⟨.quantifier q, i + 1, some l⟩ ∧
      (link ops)[l]? = some ⟨.loop, l + 1, some i⟩ := by
  rcases h with ⟨before, q, x, behind, rfl, rfl, rfl, hx⟩
  refine ⟨q, ?_, ?_⟩
  · rw [getElem?_link, linkedOperation, behindLoop?_balanced x behind hx, Option.map_some]
  · have hcut : before ++ .quantifier q :: (x ++ .loop :: behind) =
        (before ++ .quantifier q :: x) ++ .loop :: behind := by
      rw [List.append_assoc, List.cons_append]
    have hlength : (before ++ .quantifier q :: x).length = before.length + 1 + x.length := by
      rw [List.length_append, List.length_cons]
      omega
    -- The block between them leaves the quantifier the innermost that is open.
    have hopen : openLoops 0 [] (before ++ .quantifier q :: x) =
        before.length :: openLoops 0 [] before := by
      rw [openLoops_append, openLoops_cons, openLoops_balancedBlock x hx, Nat.zero_add]
      rfl
    rw [hcut, ← hlength, getElem?_link, linkedOperation, hopen, List.head?_cons]

-- A linked operation stands where the operation stood.
theorem operation_of_link (i : Nat) (x : LinkedOperation) (h : (link ops)[i]? = some x) :
    ops[i]? = some x.operation := by
  rw [← map_link ops, List.getElem?_map, Array.getElem?_toList, h, Option.map_some]

theorem link_finish (i : Nat) (h : ops[i]? = some .finish) :
    (link ops)[i]? = some ⟨.finish, i, none⟩ := by
  rcases exists_cut i _ h with ⟨a, b, rfl, rfl⟩
  exact getElem?_link a .finish b

theorem link_neighbour (i : Nat) (op : Operation) (h : ops[i]? = some op)
    (hop : op.FallsThrough) : (link ops)[i]? = some ⟨op, i + 1, none⟩ := by
  rcases exists_cut i _ h with ⟨a, b, rfl, rfl⟩
  rw [getElem?_link]
  cases op <;> first | rfl | exact hop.elim

end Links

section Places

variable {ops : List Operation} (a b : List Operation)

-- What stands in a list stands in every longer one.
theorem chained_extend (i : Nat) (alts : List (List Operation)) (h : Chained ops i alts) :
    Chained (a ++ (ops ++ b)) (a.length + i) alts := by
  rcases h with ⟨before, last, behind, rfl, rfl, hlast, halts⟩
  exact ⟨a ++ before, last, behind ++ b, by simp only [List.append_assoc, List.cons_append],
    List.length_append, hlast, halts⟩

theorem looped_extend (i l : Nat) (h : Looped ops i l) :
    Looped (a ++ (ops ++ b)) (a.length + i) (a.length + l) := by
  rcases h with ⟨before, q, x, behind, rfl, rfl, rfl, hx⟩
  exact ⟨a ++ before, q, x, behind ++ b, by simp only [List.append_assoc, List.cons_append],
    List.length_append, by omega, hx⟩

theorem grouped_extend (i j : Nat) (h : Grouped ops i j) :
    Grouped (a ++ (ops ++ b)) (a.length + i) (a.length + j) := by
  rcases h with ⟨before, m, body, n, behind, rfl, rfl, rfl, hbody⟩
  exact ⟨a ++ before, m, body, n, behind ++ b,
    by simp only [List.append_assoc, List.cons_append], List.length_append, by omega, hbody⟩

/-- An operation that belongs to a structure of a list belongs to it in every longer one. -/
theorem Operation.inPlace_extend (i : Nat) (op : Operation) (h : op.InPlace ops i) :
    op.InPlace (a ++ (ops ++ b)) (a.length + i) := by
  cases op with
  | branch =>
      rcases h with ⟨first, us, s, vs, hc, rfl⟩
      exact ⟨_, us, s, vs, chained_extend a b _ _ hc, by omega⟩
  | branchEnd =>
      rcases h with ⟨first, us, s, vs, hc, rfl⟩
      exact ⟨_, us, s, vs, chained_extend a b _ _ hc, by omega⟩
  | quantifier q => exact h.imp' (a.length + ·) (fun l => looped_extend a b i l)
  | loop => exact h.imp' (a.length + ·) (fun k => looped_extend a b k i)
  | openGroup n => exact h.imp' (a.length + ·) (fun j => grouped_extend a b i j)
  | closeGroup n => exact h.imp' (a.length + ·) (fun k => grouped_extend a b k i)
  | finish => exact h.elim
  | _ => trivial

-- There is an operation behind every chain, and a loop does not end before it begins.
theorem lt_of_chained (i : Nat) (alts : List (List Operation)) (h : Chained ops i alts) :
    i + (chain alts).length < ops.length := by
  rcases h with ⟨before, last, behind, rfl, rfl, -, -⟩
  rw [List.length_append, List.length_append, List.length_cons]
  omega

theorem lt_of_looped (i l : Nat) (h : Looped ops i l) : i < l ∧ l < ops.length := by
  rcases h with ⟨before, q, x, behind, rfl, rfl, rfl, -⟩
  rw [List.length_append, List.length_cons, List.length_append, List.length_cons]
  omega

/-- Every operation of a stretch belongs to a structure of the list that the stretch
    is the beginning of. -/
def AllInPlace (stretch behind : List Operation) : Prop :=
  ∀ (i : Nat) op, stretch[i]? = some op → op.InPlace (stretch ++ behind) i

theorem allInPlace_append (behind : List Operation) (ha : AllInPlace a (b ++ behind))
    (hb : AllInPlace b behind) : AllInPlace (a ++ b) behind := by
  intro i op h
  rw [List.append_assoc]
  by_cases hi : i < a.length
  · rw [List.getElem?_append_left hi] at h
    exact ha i op h
  · have hi := Nat.le_of_not_lt hi
    rw [List.getElem?_append_right hi] at h
    have hin := Operation.inPlace_extend a [] _ op (hb _ op h)
    rwa [List.append_nil, Nat.add_sub_cancel' hi] at hin

-- Operations between two others that belong to a structure, for instance to one
-- that the two make up with them.
theorem allInPlace_enclosed (first last : Operation) (ops behind : List Operation)
    (hfirst : first.InPlace (first :: (ops ++ last :: behind)) 0)
    (hops : AllInPlace ops (last :: behind))
    (hlast : last.InPlace (first :: (ops ++ last :: behind)) (1 + ops.length)) :
    AllInPlace (first :: (ops ++ [last])) behind := by
  intro i op h
  rw [List.cons_append, List.append_assoc, List.singleton_append]
  cases i with
  | zero => exact Option.some.inj h ▸ hfirst
  | succ i =>
      rw [List.getElem?_cons_succ] at h
      by_cases hi : i < ops.length
      · rw [List.getElem?_append_left hi] at h
        have hin := Operation.inPlace_extend [first] [] i op (hops i op h)
        rwa [List.append_nil, List.length_singleton, Nat.add_comm] at hin
      · -- Nothing but the last operation is left.
        have hle := Nat.le_of_not_lt hi
        rw [List.getElem?_append_right hle] at h
        rcases List.getElem?_eq_some_iff.1 h with ⟨hlt, heq⟩
        rw [List.length_singleton] at hlt
        rw [List.getElem_singleton] at heq
        rw [← heq, show i + 1 = 1 + ops.length by omega]
        exact hlast

theorem allInPlace_chain (alts : List (List Operation)) (last : Operation)
    (behind : List Operation) (hlast : last ≠ .branch)
    (halts : ∀ s ∈ alts, BalancedSequence s)
    (h : ∀ s ∈ alts, ∀ rest, AllInPlace s rest) : AllInPlace (chain alts) (last :: behind) := by
  induction alts with
  | nil => exact fun i op hi => absurd hi (by simp only [chain, List.getElem?_nil, reduceCtorEq,
      not_false_eq_true])
  | cons s rest ih =>
      have hrest := ih (fun t ht => halts t (List.mem_cons_of_mem s ht))
        (fun t ht => h t (List.mem_cons_of_mem s ht))
      have hsplit : .branch :: (s ++ .branchEnd :: (chain rest ++ last :: behind)) =
          chain (s :: rest) ++ last :: behind := by
        rw [chain, List.cons_append, List.append_assoc, List.cons_append]
      -- The alternatives from here on are a chain, and `s` is its first.
      have hchained : Chained (.branch :: (s ++ .branchEnd :: (chain rest ++ last :: behind))) 0
          ([] ++ s :: rest) := ⟨[], last, behind, hsplit, rfl, hlast, halts⟩
      have hfirst : AllInPlace (.branch :: (s ++ [.branchEnd])) (chain rest ++ last :: behind) :=
        allInPlace_enclosed _ _ s _ ⟨0, [], s, rest, hchained, rfl⟩
          (h s List.mem_cons_self _)
          ⟨0, [], s, rest, hchained, by rw [chain, List.length_nil, Nat.zero_add]⟩
      have hall := allInPlace_append _ _ _ hfirst hrest
      rwa [List.cons_append, List.append_assoc] at hall

mutual

/-- Every operation of a block belongs to a structure, by induction on how the block
    is made up. -/
theorem inPlace_block (ops : List Operation) (h : BalancedBlock ops) (behind : List Operation) :
    AllInPlace ops behind := by
  match h with
  | .plain op hop =>
      intro i op' hi
      cases i with
      | zero =>
          rw [← Option.some.inj hi]
          cases op <;> trivial
      | succ i => exact absurd hi (by simp only [List.getElem?_cons_succ, List.getElem?_nil,
          reduceCtorEq, not_false_eq_true])
  | .group m n body hbody =>
      have hgrouped : Grouped (.openGroup m :: (body ++ .closeGroup n :: behind)) 0
          (1 + body.length) := ⟨[], m, body, n, behind, rfl, rfl, by omega, hbody⟩
      exact allInPlace_enclosed _ _ body behind ⟨_, hgrouped⟩
        (inPlace_choice body hbody (.closeGroup n) behind
          (by simp only [ne_eq, reduceCtorEq, not_false_eq_true])) ⟨_, hgrouped⟩
  | .loop q x hx =>
      have hlooped : Looped (.quantifier q :: (x ++ .loop :: behind)) 0 (1 + x.length) :=
        ⟨[], q, x, behind, rfl, rfl, by omega, hx⟩
      exact allInPlace_enclosed _ _ x behind ⟨_, hlooped⟩ (inPlace_block x hx _) ⟨_, hlooped⟩
  termination_by structural h

theorem inPlace_sequence (ops : List Operation) (h : BalancedSequence ops)
    (behind : List Operation) : AllInPlace ops behind := by
  match h with
  | .nil => exact fun i op hi => absurd hi (by simp only [List.getElem?_nil, reduceCtorEq,
      not_false_eq_true])
  | .cons b rest hb hrest =>
      exact allInPlace_append b rest behind (inPlace_block b hb _)
        (inPlace_sequence rest hrest behind)
  termination_by structural h

theorem inPlace_choice (ops : List Operation) (h : BalancedChoice ops) (last : Operation)
    (behind : List Operation) (hlast : last ≠ .branch) : AllInPlace ops (last :: behind) := by
  match h with
  | .single _ hops => exact inPlace_sequence ops hops _
  | .chain alts halts =>
      exact allInPlace_chain alts last behind hlast halts
        (fun s hs rest => inPlace_sequence s (halts s hs) rest)
  termination_by structural h

end

end Places

section Inside

variable {ops : List Operation}

/-- The links of an operation that belongs to a structure of a stretch lead into the
    stretch, wherever it is placed. The stretch goes on behind the operation. -/
theorem within_of_inPlace (a b : List Operation) (i : Nat) (op : Operation)
    (x : LinkedOperation) (hop : ops[i]? = some op) (hi : i + 1 < ops.length)
    (h : op.InPlace ops i) (hx : (link (a ++ (ops ++ b)))[a.length + i]? = some x) :
    x.Within a.length (a.length + ops.length) := by
  -- It is enough to know where a link without a partner leads.
  have hnext : ∀ k n, k = a.length + i → (link (a ++ (ops ++ b)))[k]? = some ⟨op, n, none⟩ →
      a.length ≤ n → n < a.length + ops.length → x.Within a.length (a.length + ops.length) := by
    rintro _ n rfl hn hlo hhi
    rw [Option.some.inj (hx.symm.trans hn)]
    exact ⟨hlo, hhi, fun k hk => absurd hk (by simp only [reduceCtorEq, not_false_eq_true])⟩
  have hfalls : op.FallsThrough → x.Within a.length (a.length + ops.length) := by
    intro hfalls
    have hat : (a ++ (ops ++ b))[a.length + i]? = some op := by
      rw [List.getElem?_append_right (Nat.le_add_right _ _), Nat.add_sub_cancel_left,
        List.getElem?_append_left (by omega), hop]
    exact hnext _ _ rfl (link_neighbour _ op hat hfalls) (by omega) (by omega)
  cases op with
  | finish => exact h.elim
  | branch =>
      rcases h with ⟨first, us, s, vs, hc, rfl⟩
      have hlt := lt_of_chained _ _ hc
      have hlink := link_branch _ us s vs (chained_extend a b _ _ hc)
      rw [← List.singleton_append, ← List.append_assoc, chain_append, List.length_append] at hlt
      exact hnext _ _ (by omega) hlink (by omega) (by omega)
  | branchEnd =>
      rcases h with ⟨first, us, s, vs, hc, rfl⟩
      have hlt := lt_of_chained _ _ hc
      have hlink := link_branchEnd _ us s vs (chained_extend a b _ _ hc)
      exact hnext _ _ (by omega) hlink (by omega) (by omega)
  | quantifier q =>
      rcases h with ⟨l, hl⟩
      have hlt := lt_of_looped i l hl
      rcases link_loop _ _ (looped_extend a b i l hl) with ⟨q', hq, -⟩
      rw [Option.some.inj (hx.symm.trans hq)]
      exact ⟨by simp only; omega, by simp only; omega,
        fun k hk => by rw [← Option.some.inj hk]; omega⟩
  | loop =>
      rcases h with ⟨k, hk⟩
      have hlt := lt_of_looped k i hk
      rcases link_loop _ _ (looped_extend a b k i hk) with ⟨q, -, hloop⟩
      rw [Option.some.inj (hx.symm.trans hloop)]
      exact ⟨by simp only; omega, by simp only; omega,
        fun m hm => by rw [← Option.some.inj hm]; omega⟩
  | _ => exact hfalls trivial

/-- The links inside a group do not leave it. -/
theorem within_group (i j k : Nat) (x : LinkedOperation) (h : Grouped ops i j) (hik : i < k)
    (hkj : k < j) (hx : (link ops)[k]? = some x) : x.Within (i + 1) (j + 1) := by
  rcases h with ⟨before, m, body, n, behind, rfl, rfl, rfl, hbody⟩
  have hcut : before ++ .openGroup m :: (body ++ .closeGroup n :: behind) =
      (before ++ [.openGroup m]) ++ ((body ++ [.closeGroup n]) ++ behind) := by
    simp only [List.append_assoc, List.cons_append, List.nil_append]
  have hfront : (before ++ [Operation.openGroup m]).length = before.length + 1 :=
    List.length_append
  rcases Nat.exists_eq_add_of_le hik with ⟨d, rfl⟩
  -- The body and the end of the group are the stretch that the links lead into.
  have hd : d < body.length := by omega
  have hin := inPlace_choice body hbody (.closeGroup n) []
    (by simp only [ne_eq, reduceCtorEq, not_false_eq_true]) d _ (List.getElem?_eq_getElem hd)
  have hat : (body ++ [.closeGroup n])[d]? = some body[d] := by
    rw [List.getElem?_append_left hd, List.getElem?_eq_getElem hd]
  rw [hcut, Nat.succ_eq_add_one, ← hfront] at hx
  have hwithin := within_of_inPlace _ behind d _ x hat
    (by rw [List.length_append, List.length_singleton]; omega) hin hx
  rwa [hfront, List.length_append, List.length_singleton, ← Nat.add_assoc] at hwithin

/-- Every operation of a balanced program but the last belongs to a structure. -/
theorem inPlace_program (h : BalancedProgram ops) (i : Nat) (op : Operation)
    (hop : ops[i]? = some op) (hi : i + 1 < ops.length) : op.InPlace ops i := by
  rcases h with ⟨body, rfl, hbody⟩
  rw [List.length_append, List.length_singleton] at hi
  rw [List.getElem?_append_left (by omega)] at hop
  exact inPlace_choice body hbody .finish []
    (by simp only [ne_eq, reduceCtorEq, not_false_eq_true]) i op hop

/-- The links of a balanced program lead to its operations. -/
theorem within_program (h : BalancedProgram ops) (x : LinkedOperation)
    (hx : x ∈ (link ops).toList) : x.Within 0 ops.length := by
  rcases List.mem_iff_getElem?.1 hx with ⟨i, hi⟩
  rw [Array.getElem?_toList] at hi
  have hop := operation_of_link i x hi
  have hlt := (List.getElem?_eq_some_iff.1 hop).1
  by_cases hlast : i + 1 < ops.length
  · have hwithin := within_of_inPlace [] [] i _ x hop hlast (inPlace_program h i _ hop hlast)
    rw [List.nil_append, List.append_nil, List.length_nil, Nat.zero_add, Nat.zero_add] at hwithin
    exact hwithin hi
  · -- Behind everything else stands the end of the program, which leads to itself.
    have hfinish : ops[i]? = some .finish := by
      rcases h with ⟨body, rfl, -⟩
      rw [List.length_append, List.length_singleton] at hlt hlast
      rw [show i = body.length by omega, List.getElem?_concat_length]
    rw [Option.some.inj (hi.symm.trans (link_finish i hfinish))]
    exact ⟨Nat.zero_le i, hlt,
      fun k hk => absurd hk (by simp only [reduceCtorEq, not_false_eq_true])⟩

end Inside

-- The links of a balanced list are what its structure calls for.
theorem resolved_link (ops : List Operation) (h : BalancedProgram ops) :
    Resolved ops (link ops) where
  operations := map_link ops
  branches := link_branch
  branchEnds := link_branchEnd
  loops := link_loop
  finish := link_finish
  neighbours := link_neighbour
  inPlace := inPlace_program h
  inside := fun i j hij k x => within_group i j k x hij
  resolved := within_program h

end ByteRegex

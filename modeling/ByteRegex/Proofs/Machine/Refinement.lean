import ByteRegex.Proofs.Machine.Counting

/-!
# The Machine Refines the Outcomes

The machine finds the first outcome of a tree. It works on a flat list, jumps along
links, keeps a stack of loops and undoes what it wrote; the outcomes are lists that
are bound and appended. `Leads` compares the two at one place of a program: from
there on, with the given stack, a run agrees with a function from positions and
registers to outcomes. `leads_block` is the theorem: if the place behind a block
leads to outcomes, the place of the block leads to the outcomes of the block, each
followed by those.

Fuel is an upper bound in the definition, so a run that is out of fuel agrees with
everything. That is what lets the loop be proved by induction on the fuel: going
back to the body costs a step, and the body leads to the loop with less of it. The
frame on the stack stands for the iterations that have ended, so it is part of what
the place behind the body leads to.

A choice is taken apart way by way. The ways are tried from one and the same state,
since each that fails is undone, and so their outcomes are appended.

## Main definitions

* `Agrees`: How a run ends agrees with a list of outcomes.
* `Chooses`: A choice between ways agrees with a list of outcomes.
* `Leads`: From a place of a program, runs agree with outcomes.

## Theorems

* `chooses_append`: The outcomes of ways are appended.
* `agrees_againOrOut`: A choice at a quantifier or loop agrees with the iterations.
* `leads_group`: A group leads through what it encloses.
* `leads_loop`: A loop leads to the further iterations of its body.
* `leads_counted`: So does a quantifier that counts.
* `leads_block`: A block leads to its outcomes, followed by those behind it.
* `leads_program`: A whole program leads to the outcomes of its tree.
-/

namespace ByteRegex

namespace Machine

/-- How a run ends agrees with a list of outcomes: it matches with the first of them,
    or fails if there are none. A run may always be out of fuel. -/
def Agrees (a : Attempt) (outcomes : List Outcome) : Prop :=
  match a with
  | .matched stop st => outcomes.head? = some (stop, st.registers)
  | .failed _ => outcomes = []
  | .fault f => f = .exhausted

/-- A choice between ways, each of which can be undone, agrees with a list of
    outcomes. -/
structure Chooses (ways : List (State → Attempt)) (st : State) (outcomes : List Outcome) :
    Prop where
  reverts : ∀ way ∈ ways, Reverts way st
  agrees : Agrees (firstOf ways st) outcomes

theorem chooses_nil (st : State) : Chooses [] st [] where
  reverts := fun _ hway => absurd hway List.not_mem_nil
  agrees := rfl

-- A way that can be undone is tried as it is.
theorem firstOf_cons (way : State → Attempt) (others : List (State → Attempt)) (st : State)
    (h : Reverts way st) :
    firstOf (way :: others) st =
      match way st with
      | .failed _ => firstOf others st
      | done => done := by
  rw [firstOf]
  cases hway : way st with
  | failed later => rw [h later hway]
  | matched stop later => rw [reverting, hway]
  | fault f => rw [reverting, hway]

theorem firstOf_append (ways others : List (State → Attempt)) (st : State)
    (h : ∀ way ∈ ways, Reverts way st) :
    firstOf (ways ++ others) st =
      match firstOf ways st with
      | .failed _ => firstOf others st
      | done => done := by
  induction ways with
  | nil => rfl
  | cons way rest ih =>
      have hrest := ih fun w hw => h w (List.mem_cons_of_mem _ hw)
      have hway := h way List.mem_cons_self
      rw [List.cons_append, firstOf_cons _ _ _ hway, firstOf_cons _ _ _ hway, hrest]
      cases way st <;> rfl

-- A way that may not be open to the machine.
theorem chooses_allowed (allowed : Bool) (way : State → Attempt) (st : State)
    (outcomes : List Outcome) (hrevert : Reverts way st) (hway : Agrees (way st) outcomes) :
    Chooses (if allowed then [way] else []) st (if allowed then outcomes else []) := by
  cases allowed with
  | false => exact chooses_nil st
  | true =>
      refine ⟨fun w hw => List.mem_singleton.1 hw ▸ hrevert, ?_⟩
      rw [if_pos rfl, if_pos rfl, firstOf_cons _ _ _ hrevert]
      cases h : way st with
      | failed later =>
          rw [h] at hway
          exact hway
      | matched stop later =>
          rw [h] at hway
          exact hway
      | fault f =>
          rw [h] at hway
          exact hway

/-- The outcomes of ways are appended as the ways are. -/
theorem chooses_append (ways others : List (State → Attempt)) (st : State)
    (first rest : List Outcome) (hways : Chooses ways st first)
    (hothers : Chooses others st rest) : Chooses (ways ++ others) st (first ++ rest) where
  reverts := List.forall_mem_append.2 ⟨hways.reverts, hothers.reverts⟩
  agrees := by
    have hfirst := hways.agrees
    rw [firstOf_append _ _ _ hways.reverts]
    cases h : firstOf ways st with
    | failed later =>
        rw [h] at hfirst
        have hnone : first = [] := hfirst
        rw [hnone, List.nil_append]
        exact hothers.agrees
    | matched stop later =>
        rw [h] at hfirst
        have hsome : first.head? = some (stop, later.registers) := hfirst
        rw [Agrees, List.head?_append, hsome, Option.some_or]
    | fault f =>
        rw [h] at hfirst
        exact hfirst

-- Which of two sets of ways is tried first is decided alike on both sides.
theorem chooses_preferred (first : Bool) (ways others : List (State → Attempt)) (st : State)
    (a b : List Outcome) (ha : Chooses ways st a) (hb : Chooses others st b) :
    Chooses (if first then ways ++ others else others ++ ways) st
      (if first then a ++ b else b ++ a) := by
  cases first with
  | true => exact chooses_append _ _ _ _ _ ha hb
  | false => exact chooses_append _ _ _ _ _ hb ha

-- Ways that go through items in order have the outcomes of each item in order.
theorem chooses_map {ι : Type} (items : List ι) (way : ι → State → Attempt) (st : State)
    (outcomes : ι → List Outcome)
    (h : ∀ x ∈ items, Reverts (way x) st ∧ Agrees (way x st) (outcomes x)) :
    Chooses (items.map way) st (items.flatMap outcomes) := by
  induction items with
  | nil => exact chooses_nil st
  | cons x rest ih =>
      have hx := h x List.mem_cons_self
      have hfirst := chooses_allowed true (way x) st (outcomes x) hx.1 hx.2
      exact chooses_append [way x] _ st (outcomes x) _ hfirst
        (ih fun y hy => h y (List.mem_cons_of_mem _ hy))

/-- From a place of the program, with the given loops on the stack, every run of at
    most `n` steps agrees with the outcomes for its position and registers. -/
def Leads (env : Env) (n pc : Nat) (frames : List LoopFrame)
    (outcomes : Nat → Registers → List Outcome) : Prop :=
  ∀ fuel ≤ n, ∀ pos st, st.frames = frames → pos ≤ env.text.size →
    Agrees (run env fuel pc pos st) (outcomes pos st.registers)

section Steps

variable {env : Env} {n pc : Nat} {frames : List LoopFrame}

variable {K : Nat → Registers → List Outcome}

-- Fewer steps agree if more do.
theorem Leads.mono (m : Nat) (h : Leads env n pc frames K) (hm : m ≤ n) :
    Leads env m pc frames K :=
  fun fuel hfuel => h fuel (Nat.le_trans hfuel hm)

-- A place leads somewhere if a step from there does the right thing with the fuel
-- that is left for what follows.
theorem leads_of_step
    (h : ∀ fuel < n, ∀ pos st, st.frames = frames → pos ≤ env.text.size →
      Agrees (step env (run env fuel) pc pos st) (K pos st.registers)) :
    Leads env n pc frames K := by
  intro fuel hfuel pos st hst hpos
  cases fuel with
  | zero => exact rfl
  | succ fuel => exact h fuel hfuel pos st hst hpos

-- An operation that goes on to its neighbour after a test, and fails otherwise.
theorem leads_test (test : Nat → Bool) (w : Nat)
    (hstep : ∀ go pos st, pos ≤ env.text.size →
      step env go pc pos st = if test pos then go (pc + 1) (pos + w) st else .failed st)
    (hfits : ∀ pos, pos ≤ env.text.size → test pos = true → pos + w ≤ env.text.size)
    (hK : Leads env n (pc + 1) frames K) :
    Leads env n pc frames fun pos r =>
      (if test pos then [(pos + w, r)] else []).flatMap fun o => K o.1 o.2 := by
  refine leads_of_step (fun fuel hfuel pos st hst hpos => ?_)
  rw [hstep _ pos st hpos]
  by_cases htest : test pos = true
  · rw [if_pos htest, if_pos htest, List.flatMap_singleton]
    exact hK fuel (Nat.le_of_lt hfuel) _ st hst (hfits pos hpos htest)
  · rw [if_neg htest, if_neg htest]
    exact rfl

-- An operation that goes on to its neighbour after a write to the registers.
theorem leads_write (write : State → Nat → State) (record : Registers → Nat → Registers)
    (hstep : ∀ go pos st, pos ≤ env.text.size →
      step env go pc pos st = go (pc + 1) pos (write st pos))
    (hframes : ∀ st pos, (write st pos).frames = st.frames)
    (hregisters : ∀ st pos, (write st pos).registers = record st.registers pos)
    (hK : Leads env n (pc + 1) frames K) :
    Leads env n pc frames fun pos r => K pos (record r pos) := by
  refine leads_of_step (fun fuel hfuel pos st hst hpos => ?_)
  rw [hstep _ pos st hpos, ← hregisters]
  exact hK fuel (Nat.le_of_lt hfuel) pos _ ((hframes st pos).trans hst) hpos

/-- A group records where it begins, leads through what it encloses and records where
    it ends. -/
theorem leads_group (m : GroupNumber) (inside : Nat → Registers → List Outcome) (close : Nat)
    (hx : env.program.at? pc = some ⟨.openGroup m, pc + 1, none⟩)
    (hy : env.program.at? close = some ⟨.closeGroup m, close + 1, none⟩)
    (hinside : ∀ L, Leads env n close frames L →
      Leads env n (pc + 1) frames fun pos r => (inside pos r).flatMap fun o => L o.1 o.2)
    (hK : Leads env n (close + 1) frames K) :
    Leads env n pc frames fun pos r =>
      (inside pos (r.openGroup m pos)).flatMap fun o => K o.1 (o.2.closeGroup m o.1) := by
  have hclose := leads_write (fun st pos => st.closeGroup m pos)
    (fun r pos => r.closeGroup m pos)
    (fun go pos st hpos => by simp only [step, hy, if_neg (Nat.not_lt.2 hpos)])
    (fun st pos => (recovers_closeGroup st m pos).frames)
    (fun st pos => State.closeGroup_registers st m pos) hK
  refine leads_write (fun st pos => st.openGroup m pos) (fun r pos => r.openGroup m pos)
    (fun go pos st hpos => ?_) (fun _ _ => rfl) (fun _ _ => rfl) (hinside _ hclose)
  simp only [step, hx, if_neg (Nat.not_lt.2 hpos)]

-- An any-string run tries its ends in order.
theorem leads_anyString (hx : env.program.at? pc = some ⟨.anyString, pc + 1, none⟩)
    (hK : Leads env n (pc + 1) frames K) :
    Leads env n pc frames fun pos r => (Block.anyString.outcomes env pos r).flatMap
      fun o => K o.1 o.2 := by
  refine leads_of_step (fun fuel hfuel pos st hst hpos => ?_)
  have hends : ∀ stop ∈ env.stretches pos, stop ≤ env.text.size :=
    fun stop hstop => (mem_stretches env pos stop hstop).2 hpos
  simp only [step, hx, if_neg (Nat.not_lt.2 hpos), Block.outcomes, List.flatMap_map]
  rw [← stretches_eq env pos hpos]
  refine (chooses_map _ _ st (fun stop => K stop st.registers) (fun stop hstop => ⟨?_, ?_⟩)).agrees
  · exact reverts_of_recovers_self _ st (run_recovers env fuel _ _ st)
  · exact hK fuel (Nat.le_of_lt hfuel) stop st hst (hends stop hstop)

/-- A choice at a quantifier or a loop agrees with the iterations of the body, if the
    way back leads to the next iteration and the way out to what stands behind. -/
theorem agrees_againOrOut (q : Quantifier) (body : Nat → Registers → List Outcome)
    (hbody : Forward env.text.size body) (fuel next pos count : Nat) (consumed : Bool)
    (below : List LoopFrame) (st : State) (hpos : pos ≤ env.text.size)
    (hagain : Agrees (run env fuel (pc + 1) pos { st with frames := ⟨pc, count, pos⟩ :: below })
      ((body pos st.registers).flatMap fun o =>
        (q.iterations env.text.size body (count + 1) (o.1 != pos) o.1 o.2).flatMap
          fun o => K o.1 o.2))
    (hout : Agrees (run env fuel next pos { st with frames := below }) (K pos st.registers)) :
    Agrees (againOrOut (run env fuel) q pc next pos count below (q.mayRepeat count consumed)
        (q.mayLeave count consumed) st)
      ((q.iterations env.text.size body count consumed pos st.registers).flatMap
        fun o => K o.1 o.2) := by
  have hrepeat := chooses_allowed (q.mayRepeat count consumed)
    (fun st => run env fuel (pc + 1) pos { st with frames := ⟨pc, count, pos⟩ :: below }) st _
    (reverts_of_recovers _ st _ (run_recovers env fuel _ _ _)) hagain
  have hleave := chooses_allowed (q.mayLeave count consumed)
    (fun st => run env fuel next pos { st with frames := below }) st _
    (reverts_of_recovers _ st _ (run_recovers env fuel _ _ _)) hout
  -- The order of the two ways is the same on both sides.
  have hways := (chooses_preferred q.greedy _ _ st _ _ hrepeat hleave).agrees
  rw [iterations_eq env.text.size q body hbody count consumed pos st.registers hpos]
  cases hg : q.greedy <;> cases hr : q.mayRepeat count consumed <;>
    cases hl : q.mayLeave count consumed <;>
    simpa [againOrOut, hg, hr, hl, List.flatMap_assoc] using hways

/-- A loop leads to the further iterations of its body. The frame on top of the stack
    tells how many have ended before the present one and where that began. The
    induction is on the fuel: the way back to the body takes a step of it. -/
theorem leads_loop (q : Quantifier) (body : Nat → Registers → List Outcome)
    (hbody : Forward env.text.size body) (loopAt : Nat) (x y : LinkedOperation)
    (hx : env.program.at? pc = some x) (hxop : x.operation = .quantifier q)
    (hy : env.program.at? loopAt = some y) (hyop : y = ⟨.loop, loopAt + 1, some pc⟩)
    (hlead : ∀ m frames K, Leads env m loopAt frames K →
      Leads env m (pc + 1) frames fun pos r => (body pos r).flatMap fun o => K o.1 o.2)
    (hK : Leads env n (loopAt + 1) frames K) (count start : Nat) :
    Leads env n loopAt (⟨pc, count, start⟩ :: frames) fun pos r =>
      (q.iterations env.text.size body (count + 1) (pos != start) pos r).flatMap
        fun o => K o.1 o.2 := by
  induction n generalizing count start with
  | zero =>
      refine leads_of_step (fun fuel hfuel => absurd hfuel (Nat.not_lt_zero fuel))
  | succ n ih =>
      refine leads_of_step (fun fuel hfuel pos st hst hpos => ?_)
      have hfuel := Nat.le_of_lt_succ hfuel
      subst hyop
      rcases x with ⟨op, next, partner⟩
      have hxop : op = .quantifier q := hxop
      subst hxop
      -- The way back runs through the body once more and arrives here with less fuel.
      have hback := hlead n (⟨pc, count + 1, pos⟩ :: frames) _
        (ih (hK.mono n (Nat.le_succ n)) (count + 1) pos)
      have hagain := hback fuel hfuel pos
        { st with frames := ⟨pc, count + 1, pos⟩ :: frames } rfl hpos
      have hout := hK fuel (Nat.le_succ_of_le hfuel) pos { st with frames := frames } rfl hpos
      have hagrees := agrees_againOrOut q body hbody fuel (loopAt + 1) pos (count + 1)
        (pos != start) frames st hpos hagain hout
      simp only [step, hy, if_neg (Nat.not_lt.2 hpos), stepLoop, hx, hst, if_true, endIteration]
      exact hagrees

-- A quantifier that runs through its body leads to the iterations.
theorem leads_entered (q : Quantifier) (body : Nat → Registers → List Outcome)
    (hbody : Forward env.text.size body) (loopAt : Nat)
    (hx : env.program.at? pc = some ⟨.quantifier q, pc + 1, some loopAt⟩)
    (hy : env.program.at? loopAt = some ⟨.loop, loopAt + 1, some pc⟩)
    (hwidth : countedWidth? (bodyOf env.program (pc + 1) loopAt) = none)
    (hlead : ∀ m frames K, Leads env m loopAt frames K →
      Leads env m (pc + 1) frames fun pos r => (body pos r).flatMap fun o => K o.1 o.2)
    (hK : Leads env n (loopAt + 1) frames K) :
    Leads env n pc frames fun pos r =>
      (q.iterations env.text.size body 0 true pos r).flatMap fun o => K o.1 o.2 := by
  refine leads_of_step (fun fuel hfuel pos st hst hpos => ?_)
  have hloop := leads_loop q body hbody loopAt _ _ hx rfl hy rfl hlead hK 0 pos
  have hagain := hlead n (⟨pc, 0, pos⟩ :: frames) _ hloop fuel (Nat.le_of_lt hfuel) pos
    { st with frames := ⟨pc, 0, pos⟩ :: frames } rfl hpos
  have hout := hK fuel (Nat.le_of_lt hfuel) pos { st with frames := frames } rfl hpos
  have hagrees := agrees_againOrOut q body hbody fuel (loopAt + 1) pos 0 true frames st hpos
    hagain hout
  -- The machine asks for the bounds in another form here than at the loop.
  have hrepeat : (q.max != some 0) = q.mayRepeat 0 true := by
    rw [Quantifier.mayRepeat, Bool.true_and]
    cases q.max with
    | none => rfl
    | some m => cases m <;> rfl
  have hleave : (q.min == 0) = q.mayLeave 0 true := by
    rw [Quantifier.mayLeave]
    cases q.min <;> rfl
  simp only [step, hx, if_neg (Nat.not_lt.2 hpos), stepQuantifier, hy, hwidth, enterLoop, hst,
    hrepeat, hleave]
  exact hagrees

/-- A quantifier that counts the iterations of its body leads to the same. -/
theorem leads_counted (q : Quantifier) (b : Block) (hb : b.Proper) (w loopAt : Nat)
    (hx : env.program.at? pc = some ⟨.quantifier q, pc + 1, some loopAt⟩)
    (hy : env.program.at? loopAt = some ⟨.loop, loopAt + 1, some pc⟩)
    (hbody : bodyOf env.program (pc + 1) loopAt = b.operations)
    (hw : countedWidth? b.operations = some w)
    (hK : Leads env n (loopAt + 1) frames K) :
    Leads env n pc frames fun pos r =>
      (q.iterations env.text.size (b.outcomes env) 0 true pos r).flatMap
        fun o => K o.1 o.2 := by
  refine leads_of_step (fun fuel hfuel pos st hst hpos => ?_)
  have houtcomes := iterations_eq_counts env q b hb w hw pos st.registers hpos
  have hforward := forward_iterations env.text.size q _ (forward_block env b) 0 true pos
    st.registers hpos
  simp only [step, hx, if_neg (Nat.not_lt.2 hpos), stepQuantifier, hy, hbody, hw,
    repeatCounted_eq]
  rw [houtcomes] at hforward ⊢
  rw [List.flatMap_map]
  -- Every count is a way of its own.
  refine (chooses_map _ _ st _ (fun k hk => ?_)).agrees
  have hrecovers := recovers_counted b.operations st (pos + (k - 1) * w) k
  -- The groups are recorded as the last iteration leaves them.
  have hregisters : (if k = 0 then st
      else recordGroups (pos + (k - 1) * w) st b.operations).registers =
      lastRecorded b.operations w pos k st.registers := by
    by_cases hzero : k = 0
    · rw [lastRecorded, if_pos hzero, if_pos hzero]
    · rw [lastRecorded, if_neg hzero, if_neg hzero, recordGroups_registers]
  have hfits := (hforward _ (List.mem_map_of_mem hk)).2
  constructor
  · refine reverts_of_recovers_self _ st (fun later hlater => ?_)
    exact Recovers.trans _ _ _ hrecovers (run_recovers env fuel _ _ _ later hlater)
  · rw [← hregisters]
    exact hK fuel (Nat.le_of_lt hfuel) _ _ (hrecovers.frames.trans hst) hfits

-- Between a quantifier and its loop stands the body that was laid out there.
theorem bodyOf_placed (p : Program) (i : Nat) (ops : List LinkedOperation)
    (h : p.Placed i ops) : bodyOf p i (i + ops.length) = ops.map (·.operation) := by
  rcases h with ⟨before, behind, hp, rfl⟩
  have hcut : (p.operations.extract before.length (before.length + ops.length)).toList = ops := by
    rw [Array.toList_extract, hp, List.append_assoc, List.extract_eq_take_drop, List.drop_left,
      Nat.add_sub_cancel_left, List.take_left]
  rw [bodyOf, hcut]

theorem branchesFrom_of_branch (p : Program) (pc next : Nat) (partner : Option Nat)
    (h : p.at? pc = some ⟨.branch, next, partner⟩) (hnext : pc < next) :
    branchesFrom p pc = pc :: branchesFrom p next := by
  rcases Array.getElem?_eq_some_iff.1 h with ⟨hpc, hop⟩
  rw [branchesFrom, dif_pos hpc]
  simp only [hop, dif_pos hnext]

theorem branchesFrom_of_other (p : Program) (pc : Nat)
    (h : ∀ x, p.at? pc = some x → x.operation ≠ .branch) : branchesFrom p pc = [] := by
  rw [branchesFrom]
  by_cases hpc : pc < p.operations.size
  · have hop := h p.operations[pc] (Array.getElem?_eq_getElem hpc)
    rw [dif_pos hpc]
    split
    · exact absurd ‹_› hop
    · rfl
  · rw [dif_neg hpc]

theorem behind_enclosed (pc : Nat) (first last : Operation) (ops : List Operation) :
    pc + (first :: (ops ++ [last])).length = pc + 1 + ops.length + 1 := by
  rw [List.length_cons, List.length_append, List.length_singleton]
  omega

mutual

/-- If the place behind a block leads to outcomes, the place of the block leads to
    its own outcomes, each followed by those. -/
theorem leads_block (b : Block) (hb : b.Proper) (n pc : Nat) (frames : List LoopFrame)
    (K : Nat → Registers → List Outcome) (hplaced : env.program.Placed pc (b.linked pc))
    (hK : Leads env n (pc + b.operations.length) frames K) :
    Leads env n pc frames fun pos r => (b.outcomes env pos r).flatMap fun o => K o.1 o.2 := by
  have hat := Program.at?_of_placed env.program pc
  cases b with
  | literal w =>
      have hx := hat _ _ hplaced
      refine leads_test (Literal.occursAt env.ignoreCase w env.text) w.size
        (fun go pos st hpos => ?_) (fun pos _ => occursAt_le _ _ _ pos) hK
      simp only [step, hx, Operation.ofLiteral, if_neg (Nat.not_lt.2 hpos), Env.passes]
      rfl
  | set s =>
      have hx := hat _ _ hplaced
      refine leads_test (env.byteIs · s.contains) 1 (fun go pos st hpos => ?_)
        (fun pos _ => byteIs_lt env pos _) hK
      simp only [step, hx, if_neg (Nat.not_lt.2 hpos), Env.passes]
      rfl
  | anyChar =>
      have hx := hat _ _ hplaced
      refine leads_test (env.byteIs · fun c => !(env.multiline && c == Byte.lineFeed)) 1
        (fun go pos st hpos => ?_) (fun pos _ => byteIs_lt env pos _) hK
      simp only [step, hx, if_neg (Nat.not_lt.2 hpos), Env.passes]
      rfl
  | anyString => exact leads_anyString (hat _ _ hplaced) hK
  | anchor a =>
      have hx := hat _ _ hplaced
      refine leads_test (env.holdsAt · a) 0 (fun go pos st hpos => ?_) (fun pos hpos _ => hpos) hK
      simp only [step, hx, if_neg (Nat.not_lt.2 hpos), Nat.add_zero]
  | cursor =>
      have hx := hat _ _ hplaced
      simp only [Block.outcomes, List.flatMap_singleton]
      refine leads_write State.recordCursor Registers.recordCursor (fun go pos st hpos => ?_)
        (fun _ _ => rfl) (fun _ _ => rfl) hK
      simp only [step, hx, if_neg (Nat.not_lt.2 hpos)]
  | group m alts =>
      rcases Program.placed_enclosed _ _ _ _ _ hplaced with ⟨hx, hin, hy⟩
      rw [Alternatives.length_linked] at hy
      rw [Block.operations, behind_enclosed] at hK
      simp only [Block.outcomes, List.flatMap_map]
      refine leads_group m (Alternatives.outcomes env alts) _ hx hy (fun L hL => ?_) hK
      -- Behind the alternatives the group closes, and closing is no branch.
      refine leads_alternatives alts hb.1 hb.2 n (pc + 1) frames L hin (fun x hxend => ?_) hL
      rw [hy] at hxend
      rw [← Option.some.inj hxend]
      simp only [ne_eq, reduceCtorEq, not_false_eq_true]
  | quantified q e =>
      rcases Program.placed_enclosed _ _ _ _ _ hplaced with ⟨hx, hin, hy⟩
      rw [Block.length_linked] at hy
      rw [Block.operations, behind_enclosed] at hK
      have hbody := bodyOf_placed _ _ _ hin
      rw [Block.length_linked, Block.map_linked] at hbody
      simp only [Block.outcomes]
      -- A body of fixed width is counted, and every other is run through.
      cases hw : countedWidth? e.operations with
      | some w => exact leads_counted q e hb.2.2 w _ hx hy hbody hw hK
      | none =>
          exact leads_entered q _ (forward_block env e) _ hx hy (hbody.symm ▸ hw)
            (fun m below L hL => leads_block e hb.2.2 m (pc + 1) below L hin hL) hK
  termination_by (sizeOf b, 0)

theorem leads_sequence (s : List Block) (hs : Sequence.Proper s) (n pc : Nat)
    (frames : List LoopFrame) (K : Nat → Registers → List Outcome)
    (hplaced : env.program.Placed pc (Sequence.linked pc s))
    (hK : Leads env n (pc + (Sequence.operations s).length) frames K) :
    Leads env n pc frames fun pos r =>
      (Sequence.outcomes env s pos r).flatMap fun o => K o.1 o.2 := by
  cases s with
  | nil =>
      simp only [Sequence.outcomes, List.flatMap_singleton]
      exact hK
  | cons b rest =>
      have hfirst := Program.placed_append_left _ _ _ _ hplaced
      have hbehind := Program.placed_append_right _ _ _ _ hplaced
      rw [Block.length_linked] at hbehind
      rw [Sequence.operations, List.length_append, ← Nat.add_assoc] at hK
      have hrest := leads_sequence rest hs.2 n _ frames K hbehind hK
      simp only [Sequence.outcomes, List.flatMap_assoc]
      exact leads_block b hs.1 n pc frames _ hfirst hrest
  termination_by (sizeOf s, 0)

-- A choice leads to the outcomes of its alternatives if what stands behind it is not
-- taken for another branch.
theorem leads_alternatives (alts : List (List Block)) (hne : alts ≠ [])
    (halts : Alternatives.Proper alts) (n pc : Nat) (frames : List LoopFrame)
    (K : Nat → Registers → List Outcome)
    (hplaced : env.program.Placed pc (Alternatives.linked pc alts))
    (hend : ∀ x, env.program.at? (pc + (Alternatives.operations alts).length) = some x →
      x.operation ≠ .branch)
    (hK : Leads env n (pc + (Alternatives.operations alts).length) frames K) :
    Leads env n pc frames fun pos r =>
      (Alternatives.outcomes env alts pos r).flatMap fun o => K o.1 o.2 := by
  match alts with
  | [] => exact absurd rfl hne
  | [s] =>
      simp only [Alternatives.outcomes, List.append_nil]
      exact leads_sequence s halts.1 n pc frames K hplaced hK
  | s :: t :: rest =>
      rw [Alternatives.linked_cons] at hplaced
      have hx := Program.at?_of_placed _ _ _ _ hplaced
      refine leads_of_step (fun fuel hfuel pos st hst hpos => ?_)
      simp only [step, hx, if_neg (Nat.not_lt.2 hpos)]
      exact (chooses_branches (s :: t :: rest) halts n pc _ frames K hplaced rfl hend hK fuel
        (Nat.le_of_lt hfuel) pos st hst hpos).agrees
  termination_by (sizeOf alts, 1)

-- The branches of a choice, tried one after the other.
theorem chooses_branches (alts : List (List Block)) (halts : Alternatives.Proper alts)
    (n pc behind : Nat) (frames : List LoopFrame) (K : Nat → Registers → List Outcome)
    (hplaced : env.program.Placed pc (Alternatives.linkedBranches behind pc alts))
    (hbehind : pc + (Alternatives.branches alts).length = behind)
    (hend : ∀ x, env.program.at? behind = some x → x.operation ≠ .branch)
    (hK : Leads env n behind frames K) (fuel : Nat) (hfuel : fuel ≤ n) (pos : Nat) (st : State)
    (hst : st.frames = frames) (hpos : pos ≤ env.text.size) :
    Chooses ((branchesFrom env.program pc).map fun branch => run env fuel (branch + 1) pos) st
      ((Alternatives.outcomes env alts pos st.registers).flatMap fun o => K o.1 o.2) := by
  cases alts with
  | nil =>
      rw [Alternatives.branches, List.length_nil, Nat.add_zero] at hbehind
      rw [hbehind, branchesFrom_of_other _ _ hend]
      exact chooses_nil st
  | cons s rest =>
      -- The branch, its alternative and its end stand one after the other.
      have hx := Program.at?_of_placed _ _ _ _ hplaced
      have hinside := Program.placed_tail _ _ _ _ hplaced
      have hs := Program.placed_append_left _ _ _ _ hinside
      have hmore := Program.placed_append_right _ _ _ _ hinside
      rw [Sequence.length_linked] at hmore
      have hy := Program.at?_of_placed _ _ _ _ hmore
      have hnext := Program.placed_tail _ _ _ _ hmore
      rw [Alternatives.behind_branches] at hbehind
      -- The end of the alternative goes on behind the whole choice.
      have hleave : Leads env n (pc + 1 + (Sequence.operations s).length) frames K := by
        refine leads_of_step (fun fuel hfuel pos st hst hpos => ?_)
        simp only [step, hy, if_neg (Nat.not_lt.2 hpos)]
        exact hK fuel (Nat.le_of_lt hfuel) pos st hst hpos
      have hfirst := leads_sequence s halts.1 n (pc + 1) frames K hs hleave fuel hfuel pos st hst
        hpos
      have hrest := chooses_branches rest halts.2 n _ behind frames K hnext hbehind hend hK fuel
        hfuel pos st hst hpos
      rw [branchesFrom_of_branch _ _ _ _ hx (by omega), Alternatives.outcomes, List.flatMap_append]
      exact chooses_append [_] _ st _ _ (chooses_allowed true _ st _
        (reverts_of_recovers_self _ st (run_recovers env fuel _ _ _)) hfirst) hrest
  termination_by (sizeOf alts, 0)

end

/-- A whole program leads to the outcomes of the choice that it is laid out from. -/
theorem leads_program (alts : List (List Block)) (hne : alts ≠ [])
    (halts : Alternatives.Proper alts)
    (hprogram : env.program.operations = link (Alternatives.operations alts ++ [.finish]))
    (n : Nat) : Leads env n 0 [] (Alternatives.outcomes env alts) := by
  -- How many groups the pattern has plays no part in the layout.
  have hlayout := link_operations ⟨alts, 0⟩
  rw [Pattern.operations, ← hprogram] at hlayout
  have hplaced : env.program.Placed 0 (Alternatives.linked 0 alts ++
      [⟨.finish, (Alternatives.operations alts).length, none⟩]) :=
    ⟨[], [], by rw [hlayout, List.nil_append, List.append_nil], rfl⟩
  have hin := Program.placed_append_left _ _ _ _ hplaced
  have hbehind := Program.placed_append_right _ _ _ _ hplaced
  rw [Alternatives.length_linked] at hbehind
  have hx := Program.at?_of_placed _ _ _ _ hbehind
  have hfinish : Leads env n (0 + (Alternatives.operations alts).length) []
      fun pos r => [(pos, r)] := by
    refine leads_of_step (fun fuel hfuel pos st hst hpos => ?_)
    simp only [step, hx, if_neg (Nat.not_lt.2 hpos)]
    exact rfl
  -- What ends the program is no branch either.
  have hall := leads_alternatives alts hne halts n 0 [] _ hin
    (fun x hxend => by
      rw [hx] at hxend
      rw [← Option.some.inj hxend]
      simp only [ne_eq, reduceCtorEq, not_false_eq_true]) hfinish
  simpa only [List.flatMap_singleton'] using hall

end Steps

end Machine

end ByteRegex

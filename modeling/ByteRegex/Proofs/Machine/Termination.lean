import ByteRegex.Proofs.Machine.Calls

/-!
# The Budget Suffices

No run is ever out of fuel. Links lead forward, so a way through the program can
only become long by going back from a loop to its body, and it goes back only when
the iteration that has ended consumed something. The measure counts, in this order,
the bytes that are left, the loops on the stack whose present iteration began before
the position, and the operations that are left. Going back from a loop makes its
iteration begin at the position and so takes one from the second count; everything
else either moves on in the text or moves on in the program.

The second count stays below the size of the program because the loops on the stack
are nested: their quantifiers stand before one another and before the place of the
run. `Nested` is that invariant. It holds of every run of every linked list, whether
it comes from a pattern or not.

A run may also stop with a fault of another kind. Nothing is said of those here; a
run that is sent behind the end of the text stops there at once.

The fuel is an artifact, and in the end nothing depends on it. The calls of a run form a
relation in which no chain goes on forever, so the equation that a machine without fuel
has to satisfy, to do at a place what a step does there and then itself, has exactly one
solution. `solves_run` and `solves_unique` say that the machine with its budget is that
solution.

## Main definitions

* `ForwardLinks`: The links of a program lead forward, those of its loops back.
* `Nested`: The loops on the stack are nested around a place.
* `potential`: How many steps a way through the program can still take.
* `Covered`: The fuel covers a place, a position and a stack.
* `Solves`: A continuation is the machine without fuel.

## Theorems

* `forwardLinks_link`: The links of every list lead forward.
* `covered_ahead`: The fuel covers what lies ahead.
* `covered_back`: The fuel covers going back from a loop.
* `covered_of_calls`: So the fuel covers what a step calls.
* `run_decided`: A run whose fuel covers it does not run out of it.
* `run_stable`: More fuel changes nothing about such a run.
* `covered_start`: The budget covers the whole run.
* `acc_of_covered`: No chain of calls goes on forever.
* `solves_run`, `solves_unique`: The machine without fuel is the one with the budget.
-/

namespace ByteRegex

namespace Machine

/-- The links of an operation at index `i` lead forward, except that `finish` stays
    where it is, and the partner of a loop stands before it. -/
structure LinkedForward (i : Nat) (x : LinkedOperation) : Prop where
  next_ge : i ≤ x.next
  next_gt : x.operation ≠ .finish → i < x.next
  ahead : ∀ q loopAt, x.operation = .quantifier q → x.partner = some loopAt → i < loopAt
  back : ∀ quantifierAt, x.operation = .loop → x.partner = some quantifierAt → quantifierAt < i

/-- The links of a program lead forward. -/
def ForwardLinks (p : Program) : Prop :=
  ∀ pc x, p.at? pc = some x → LinkedForward pc x

-- An operation that is linked to a later place and to no partner.
theorem linkedForward_later (i next : Nat) (op : Operation) (h : i < next) :
    LinkedForward i ⟨op, next, none⟩ where
  next_ge := Nat.le_of_lt h
  next_gt := fun _ => h
  ahead := fun _ _ _ h => absurd h (by simp only [reduceCtorEq, not_false_eq_true])
  back := fun _ _ h => absurd h (by simp only [reduceCtorEq, not_false_eq_true])

-- The linker links forward, if the quantifiers that await their loops stand before
-- the place where it is.
theorem linkedForward_linkFrom (i : Nat) (opened : List Nat) (ops : List Operation)
    (hopened : ∀ o ∈ opened, o < i) (k : Nat) (x : LinkedOperation)
    (hx : (linkFrom i opened ops)[k]? = some x) : LinkedForward (i + k) x := by
  induction ops generalizing i opened k with
  | nil => exact absurd hx (by simp only [linkFrom, List.getElem?_nil, reduceCtorEq,
      not_false_eq_true])
  | cons op rest ih =>
      have hlater : ∀ o ∈ opened, o < i + 1 := fun o ho => Nat.lt_succ_of_lt (hopened o ho)
      -- The first operation is linked as `first`, and the rest by a later call.
      have hsplit : ∀ first opened', LinkedForward i first → (∀ o ∈ opened', o < i + 1) →
          (first :: linkFrom (i + 1) opened' rest)[k]? = some x → LinkedForward (i + k) x := by
        intro first opened' hfirst hopened' hk
        cases k with
        | zero => exact Option.some.inj hk ▸ hfirst
        | succ k =>
            have hrest := ih (i + 1) opened' hopened' k hk
            rwa [Nat.add_right_comm, Nat.add_assoc] at hrest
      cases op with
      | finish =>
          refine hsplit _ opened ⟨Nat.le_refl i, fun h => absurd rfl h, ?_, ?_⟩ hlater hx
          · exact fun _ _ h => absurd h (by simp only [reduceCtorEq, not_false_eq_true])
          · exact fun _ h => absurd h (by simp only [reduceCtorEq, not_false_eq_true])
      | branch =>
          exact hsplit _ opened
            (linkedForward_later i _ _ (Nat.lt_add_right _ (Nat.lt_succ_self i))) hlater hx
      | branchEnd =>
          exact hsplit _ opened
            (linkedForward_later i _ _ (Nat.lt_add_right _ (Nat.lt_succ_self i))) hlater hx
      | quantifier q =>
          refine hsplit _ (i :: opened) ⟨Nat.le_succ i, fun _ => Nat.lt_succ_self i, ?_, ?_⟩
            (List.forall_mem_cons.2 ⟨Nat.lt_succ_self i, hlater⟩) hx
          · -- The loop of a quantifier is looked for behind it.
            intro _ loopAt _ hpartner
            rcases Option.map_eq_some_iff.1 hpartner with ⟨n, _, rfl⟩
            omega
          · exact fun _ h => absurd h (by simp only [reduceCtorEq, not_false_eq_true])
      | loop =>
          refine hsplit _ opened.tail ⟨Nat.le_succ i, fun _ => Nat.lt_succ_self i, ?_, ?_⟩
            (fun o ho => hlater o (List.mem_of_mem_tail ho)) hx
          · exact fun _ _ h => absurd h (by simp only [reduceCtorEq, not_false_eq_true])
          · -- The quantifier of a loop is one that awaits it.
            exact fun quantifierAt _ hpartner =>
              hopened quantifierAt (List.mem_of_mem_head? hpartner)
      | _ => exact hsplit _ opened (linkedForward_later i _ _ (Nat.lt_succ_self i)) hlater hx

/-- The links of every list of operations lead forward. -/
theorem forwardLinks_link (p : Program) (ops : List Operation) (h : p.operations = link ops) :
    ForwardLinks p := by
  intro pc x hx
  rw [Program.at?, h, link, List.getElem?_toArray] at hx
  have hforward := linkedForward_linkFrom 0 [] ops (fun _ ho => absurd ho List.not_mem_nil) pc x hx
  rwa [Nat.zero_add] at hforward

/-- The loops on the stack are nested around a place: their quantifiers stand before
    it, each before the one inside it. -/
def Nested (pc : Nat) : List LoopFrame → Prop
  | [] => True
  | frame :: below => frame.quantifier < pc ∧ Nested frame.quantifier below

theorem Nested.mono (pc pc' : Nat) (frames : List LoopFrame) (h : Nested pc frames)
    (hle : pc ≤ pc') : Nested pc' frames := by
  cases frames with
  | nil => trivial
  | cons frame below => exact ⟨Nat.lt_of_lt_of_le h.1 hle, h.2⟩

-- There are no more loops than there are places before the innermost.
theorem Nested.length_le (pc : Nat) (frames : List LoopFrame) (h : Nested pc frames) :
    frames.length ≤ pc := by
  induction frames generalizing pc with
  | nil => exact Nat.zero_le _
  | cons frame below ih =>
      have hbelow := ih frame.quantifier h.2
      have hfirst := h.1
      rw [List.length_cons]
      omega

/-- How many loops on the stack can still go back from a position: those whose present
    iteration has consumed something. -/
def pending (pos : Nat) (frames : List LoopFrame) : Nat := frames.countP (·.start != pos)

/-- How many steps a way through the program can still take. -/
def potential (env : Env) (pc pos : Nat) (frames : List LoopFrame) : Nat :=
  (env.text.size - pos) * ((env.program.size + 1) * (env.program.size + 1)) +
    pending pos frames * (env.program.size + 1) + (env.program.size + 1 - pc)

/-- The fuel covers what a run may need from a place and a position, with the given
    loops on the stack. Behind the end of the text one step is enough. -/
structure Covered (env : Env) (fuel pc pos : Nat) (frames : List LoopFrame) : Prop where
  nested : Nested pc frames
  positive : 0 < fuel
  enough : pos ≤ env.text.size → potential env pc pos frames ≤ fuel

theorem Covered.mono {env : Env} {fuel more pc pos : Nat} {frames : List LoopFrame}
    (h : Covered env fuel pc pos frames) (hle : fuel ≤ more) : Covered env more pc pos frames where
  nested := h.nested
  positive := Nat.lt_of_lt_of_le h.positive hle
  enough := fun hpos => Nat.le_trans (h.enough hpos) hle

theorem pending_cons (pos : Nat) (frame : LoopFrame) (below : List LoopFrame) :
    pending pos (frame :: below) = pending pos below + if frame.start = pos then 0 else 1 := by
  rw [pending, List.countP_cons, pending]
  by_cases h : frame.start = pos <;> simp [h]

theorem pending_le_length (pos : Nat) (frames : List LoopFrame) :
    pending pos frames ≤ frames.length := List.countP_le_length

section Coverage

variable {env : Env} {fuel pc pos : Nat} {frames : List LoopFrame}

/-- The fuel covers what lies ahead: a later place, at the same position with no more
    loops pending or at a later position. -/
theorem covered_ahead (h : Covered env (fuel + 1) pc pos frames) (hpc : pc < env.program.size)
    (hpos : pos ≤ env.text.size) (pc' pos' : Nat) (frames' : List LoopFrame) (hnext : pc < pc')
    (hle : pos ≤ pos') (hnested : Nested pc' frames') (hlength : frames'.length ≤ env.program.size)
    (hpending : pos' = pos → pending pos frames' ≤ pending pos frames) :
    Covered env fuel pc' pos' frames' := by
  have henough := h.enough hpos
  unfold potential at henough
  refine ⟨hnested, by omega, fun hpos' => ?_⟩
  unfold potential
  by_cases hsame : pos' = pos
  · subst hsame
    have hloops := Nat.mul_le_mul_right (env.program.size + 1) (hpending rfl)
    omega
  · -- A byte of the text pays for a full stack and a way through the whole program.
    have hbyte : (env.text.size - pos' + 1) * ((env.program.size + 1) * (env.program.size + 1)) ≤
        (env.text.size - pos) * ((env.program.size + 1) * (env.program.size + 1)) :=
      Nat.mul_le_mul_right _ (by omega)
    have hstack := Nat.mul_le_mul_right (env.program.size + 1)
      (Nat.le_trans (pending_le_length pos' frames') hlength)
    rw [Nat.add_one_mul] at hbyte
    have hsquare := Nat.add_one_mul env.program.size (env.program.size + 1)
    omega

/-- The fuel covers going back from a loop whose iteration has consumed something: the
    next iteration begins at the position. -/
theorem covered_back (frame : LoopFrame) (below : List LoopFrame)
    (h : Covered env (fuel + 1) pc pos (frame :: below)) (hpc : pc < env.program.size)
    (hpos : pos ≤ env.text.size) (hconsumed : frame.start ≠ pos) (count : Nat) :
    Covered env fuel (frame.quantifier + 1) pos (⟨frame.quantifier, count, pos⟩ :: below) := by
  have henough := h.enough hpos
  unfold potential at henough
  rw [pending_cons, if_neg hconsumed, Nat.add_one_mul (pending pos below)] at henough
  refine ⟨⟨Nat.lt_succ_self _, h.nested.2⟩, by omega, fun _ => ?_⟩
  unfold potential
  rw [pending_cons, if_pos rfl, Nat.add_zero (pending pos below)]
  omega

theorem branchesFrom_ge (p : Program) (pc branch : Nat) (h : branch ∈ branchesFrom p pc) :
    pc ≤ branch := by
  fun_induction branchesFrom p pc with
  | case1 pc hpc hop hnext ih =>
      rcases List.mem_cons.1 h with rfl | hlater
      · exact Nat.le_refl _
      · exact Nat.le_trans (Nat.le_of_lt hnext) (ih hlater)
  | case2 pc hpc hop hnext => exact Nat.le_of_eq (List.mem_singleton.1 h).symm
  | case3 => exact absurd h List.not_mem_nil
  | case4 => exact absurd h List.not_mem_nil

/-- What a step calls is covered by the fuel that is left. -/
theorem covered_of_calls (hlinks : ForwardLinks env.program) (c c' : Place)
    (hcalls : Calls env c c') (h : Covered env (fuel + 1) c.pc c.pos c.frames) :
    Covered env fuel c'.pc c'.pos c'.frames := by
  have hbound : ∀ {pc x}, env.program.at? pc = some x → pc < env.program.size :=
    fun hop => (Array.getElem?_eq_some_iff.1 hop).1
  -- Most calls lead to a later place with the same loops on the stack.
  have hlater : ∀ pc' pos', c.pc < env.program.size → c.pos ≤ env.text.size → c.pc < pc' →
      c.pos ≤ pos' → Covered env fuel pc' pos' c.frames := fun pc' pos' hpc hpos hnext hle =>
    covered_ahead h hpc hpos pc' pos' c.frames hnext hle
      (h.nested.mono _ _ _ (Nat.le_of_lt hnext))
      (Nat.le_trans h.nested.length_le (Nat.le_of_lt hpc)) (fun _ => Nat.le_refl _)
  cases hcalls with
  | onward pc pos stop frames x hop hpos honward =>
      have hforward := le_of_onward env pos stop _ honward
      exact hlater _ _ (hbound hop) hpos ((hlinks pc x hop).next_gt hforward.2) hforward.1
  | branch pc pos branch next partner frames hop hpos hbranch =>
      exact hlater _ _ (hbound hop) hpos (Nat.lt_succ_of_le (branchesFrom_ge _ _ _ hbranch))
        (Nat.le_refl _)
  | count pc pos k width next loopAt frames q loop hop hpos hloop =>
      have hahead := (hlinks pc _ hop).ahead q loopAt rfl rfl
      exact hlater _ _ (hbound hop) hpos
        (Nat.lt_of_lt_of_le hahead (hlinks loopAt loop hloop).next_ge) (Nat.le_add_right _ _)
  | enter pc pos next loopAt frames q loop hop hpos =>
      -- The iteration begins here, so its loop is not pending yet.
      refine covered_ahead h (hbound hop) hpos _ _ _ (Nat.lt_succ_self pc) (Nat.le_refl _)
        ⟨Nat.lt_succ_self pc, h.nested⟩ (Nat.lt_of_le_of_lt h.nested.length_le (hbound hop))
        (fun _ => ?_)
      rw [pending_cons, if_pos rfl]
      exact Nat.le_refl _
  | skip pc pos next loopAt frames q loop hop hpos hloop =>
      have hahead := (hlinks pc _ hop).ahead q loopAt rfl rfl
      exact hlater _ _ (hbound hop) hpos
        (Nat.lt_of_lt_of_le hahead (hlinks loopAt loop hloop).next_ge) (Nat.le_refl _)
  | again pc pos next frame below q first partner hop hpos _ hconsumed =>
      exact covered_back frame below h (hbound hop) hpos hconsumed _
  | leave pc pos next frame below q first partner hop hpos =>
      have hnext := (hlinks pc _ hop).next_gt Operation.noConfusion
      have hlength := h.nested.length_le
      have hpc := hbound hop
      rw [List.length_cons] at hlength
      refine covered_ahead h hpc hpos next pos below hnext (Nat.le_refl _)
        (h.nested.2.mono _ _ _ (Nat.le_of_lt (Nat.lt_trans h.nested.1 hnext)))
        (Nat.le_trans (Nat.le_of_succ_le hlength) (Nat.le_of_lt hpc)) (fun _ => ?_)
      rw [pending_cons]
      exact Nat.le_add_right _ _

end Coverage

/-- A run has come to an end of its own and not to that of its fuel. -/
def Decided (a : Attempt) : Prop := a ≠ .fault .exhausted

/-- A run whose fuel covers it does not run out of it, by induction on the fuel. -/
theorem run_decided (env : Env) (hlinks : ForwardLinks env.program) (fuel pc pos : Nat)
    (st : State) (h : Covered env fuel pc pos st.frames) : Decided (run env fuel pc pos st) := by
  induction fuel generalizing pc pos st with
  | zero => exact absurd h.positive (Nat.lt_irrefl 0)
  | succ fuel ih =>
      intro hexhausted
      rcases fault_of_step env _ pc pos st _ hexhausted with ⟨hne, _⟩ | ⟨c', hc', st', hst', hrun⟩
      · exact hne rfl
      · have hcovered := covered_of_calls hlinks _ c' hc' h
        exact ih c'.pc c'.pos st' (hst' ▸ hcovered) hrun

/-- More fuel than covers a run changes nothing about it. -/
theorem run_stable (env : Env) (hlinks : ForwardLinks env.program) (fuel more pc pos : Nat)
    (st : State) (h : Covered env fuel pc pos st.frames) (hle : fuel ≤ more) :
    run env more pc pos st = run env fuel pc pos st := by
  induction fuel generalizing more pc pos st with
  | zero => exact absurd h.positive (Nat.lt_irrefl 0)
  | succ fuel ih =>
      rcases Nat.exists_eq_add_of_le' (Nat.lt_of_lt_of_le (Nat.succ_pos fuel) hle) with ⟨more, rfl⟩
      refine step_congr env _ _ pc pos st fun c' hc' st' hst' => ?_
      have hcovered := covered_of_calls hlinks _ c' hc' h
      exact ih more c'.pc c'.pos st' (hst' ▸ hcovered) (Nat.le_of_succ_le_succ hle)

/-- The budget covers a run from the first operation, at any position. -/
theorem covered_start (env : Env) (pos : Nat) : Covered env (budget env) 0 pos [] := by
  refine ⟨trivial, Nat.succ_pos _, fun hpos => ?_⟩
  -- The potential at the start is largest when the whole text is ahead.
  have hbytes : (env.text.size - pos) * ((env.program.size + 1) * (env.program.size + 1)) ≤
      env.text.size * ((env.program.size + 1) * (env.program.size + 1)) :=
    Nat.mul_le_mul_right _ (Nat.sub_le _ _)
  have hwidth : 0 < env.program.size + 1 := Nat.succ_pos _
  have hplaces := Nat.le_mul_of_pos_right (env.program.size + 1) hwidth
  have hone := Nat.add_one_mul env.text.size
    ((env.program.size + 1) * (env.program.size + 1))
  have hnone : pending pos [] = 0 := rfl
  unfold potential budget
  rw [hnone, Nat.zero_mul]
  simp only
  omega

theorem start_decided (env : Env) (hlinks : ForwardLinks env.program) (pos : Nat) :
    Decided (start env pos) :=
  run_decided env hlinks (budget env) 0 pos State.initial (covered_start env pos)

/-- From a place that is covered no chain of calls goes on forever. -/
theorem acc_of_covered (env : Env) (hlinks : ForwardLinks env.program) (fuel : Nat) (c : Place)
    (h : Covered env fuel c.pc c.pos c.frames) : Acc (flip (Calls env)) c := by
  induction fuel generalizing c with
  | zero => exact absurd h.positive (Nat.lt_irrefl 0)
  | succ fuel ih => exact Acc.intro c fun c' hc' => ih c' (covered_of_calls hlinks c c' hc' h)

-- The budget of a run covers all the places that the run comes to.
theorem covered_reached (env : Env) (hlinks : ForwardLinks env.program) (s : Nat) (c : Place)
    (h : Reached env s c) : Covered env (budget env) c.pc c.pos c.frames := by
  induction h with
  | refl => exact covered_start env s
  | tail _ hcalls ih => exact (covered_of_calls hlinks _ _ hcalls ih).mono (Nat.le_succ _)

/-- A continuation does at every place that a run comes to what a step does there and the
    continuation does next. This is the machine without fuel. -/
def Solves (env : Env) (go : Continuation) : Prop :=
  ∀ s c, Reached env s c → ∀ st : State, st.frames = c.frames →
    go c.pc c.pos st = step env go c.pc c.pos st

/-- The machine with its budget is one that needs no fuel. -/
theorem solves_run (env : Env) (hlinks : ForwardLinks env.program) :
    Solves env (run env (budget env)) := by
  intro s c hc st hst
  have hcovered := covered_reached env hlinks s c hc
  rw [← hst] at hcovered
  exact (run_stable env hlinks _ (budget env + 1) c.pc c.pos st hcovered (Nat.le_succ _)).symm

/-- There is only one machine without fuel, by induction along the calls. -/
theorem solves_unique (env : Env) (hlinks : ForwardLinks env.program) (go go' : Continuation)
    (h : Solves env go) (h' : Solves env go') (s : Nat) :
    go 0 s State.initial = go' 0 s State.initial := by
  suffices hall : ∀ c, Reached env s c → ∀ st : State, st.frames = c.frames →
      go c.pc c.pos st = go' c.pc c.pos st from
    hall ⟨0, s, []⟩ Relation.ReflTransGen.refl State.initial rfl
  intro c hc
  have hacc := acc_of_covered env hlinks _ c (covered_reached env hlinks s c hc)
  induction hacc with
  | intro c _ ih =>
      intro st hst
      rw [h s c hc st hst, h' s c hc st hst]
      refine step_congr env go go' c.pc c.pos st fun c' hc' => ?_
      rw [hst] at hc'
      exact ih c' hc' (hc.tail hc')

end Machine

end ByteRegex

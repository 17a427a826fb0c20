import ByteRegex.Proofs.Program.Nesting
import ByteRegex.Proofs.Search.Matches
import ByteRegex.Proofs.Search.Trials

/-!
# The Machine Stays in Bounds

A run of a compiled program looks up operations, bytes, frames and registers, and finds
all of them. The links of the program are in order from the beginning, so what has to be
shown is that the machine keeps to them: its position stays in the text, and the frames
on its stack are those of the loops around the operation that it is at. `OnTrack` is that
invariant. One step keeps it, in whichever way the step goes on, and so it holds wherever
a run comes to.

Only loops whose body is run through have frames. A body that is counted is never
entered, so the loops around a place that a run comes to are all of that kind, and the
stack is the whole chain of them.

From the invariant each step finds what it looks up. When a loop is reached, the frame on
top is the one of the quantifier that it is linked to, since both are the innermost loop
around it.

## Main definitions

* `Program.Framed`: A quantifier whose body is run through.
* `OnTrack`: The position is in the text and the stack fits the place.

## Theorems

* `onTrack_of_calls`: A step keeps the invariant.
* `onTrack_reached`: So it holds wherever a run comes to.
* `inBounds_of_onTrack`: On track a step finds what it looks up.
* `fault_of_run`: So no run ends with a fault of its own.
* `trial_inBounds`: A trial finds everything in order.
* `search_inBounds`: No search of a compiled program leaves its bounds.
-/

namespace ByteRegex

open Machine

/-- A quantifier whose body is run through, with a frame on the stack, and not counted. -/
def Program.Framed (p : Program) (i : Nat) : Prop :=
  ∃ q next loopAt, p.at? i = some ⟨.quantifier q, next, some loopAt⟩ ∧
    countedWidth? (bodyOf p (i + 1) loopAt) = none

namespace Machine

/-- The machine is at an operation and a position that exist, and its stack is the chain
    of the loops around the operation, all of which have frames. -/
structure OnTrack (env : Env) (c : Place) : Prop where
  operation : c.pc < env.program.size
  position : c.pos ≤ env.text.size
  stack : c.frames.map (·.quantifier) = env.program.enclosing c.pc
  framed : ∀ i ∈ env.program.enclosing c.pc, env.program.Framed i

section Steps

variable {env : Env} (hwired : env.program.Wired)

include hwired

-- An operation that goes on by itself stays inside the same loops.
theorem enclosing_onward (pc pos stop : Nat) (x : LinkedOperation)
    (hx : env.program.at? pc = some x) (h : env.Onward pos stop x.operation) :
    env.program.enclosing x.next = env.program.enclosing pc := by
  have hlinked := (hwired pc x hx).1
  have hsucc := enclosing_succ env.program pc x hx
  rcases x with ⟨op, next, partner⟩
  cases op with
  | finish => exact h.elim
  | branch => exact h.elim
  | quantifier q => exact h.elim
  | loop => exact h.elim
  | branchEnd => exact hlinked
  | _ => exact (congrArg env.program.enclosing hlinked).trans hsucc

-- All branches of a choice stand inside the same loops.
theorem enclosing_branches (pc branch : Nat) (h : branch ∈ branchesFrom env.program pc) :
    ∃ x, env.program.at? branch = some x ∧ x.operation = .branch ∧
      env.program.enclosing branch = env.program.enclosing pc := by
  fun_induction branchesFrom env.program pc with
  | case1 pc hpc hop hnext ih =>
      have hx : env.program.at? pc = some env.program.operations[pc] :=
        Array.getElem?_eq_getElem hpc
      rcases List.mem_cons.1 h with rfl | hlater
      · exact ⟨_, hx, hop, rfl⟩
      · rcases ih hlater with ⟨x, hbranch, hxop, hlevel⟩
        have hlinked := (hwired pc _ hx).1
        rw [WellLinked, hop] at hlinked
        exact ⟨x, hbranch, hxop, hlevel.trans hlinked.2⟩
  | case2 pc hpc hop hnext =>
      rw [List.mem_singleton.1 h]
      exact ⟨_, Array.getElem?_eq_getElem hpc, hop, rfl⟩
  | case3 => exact absurd h List.not_mem_nil
  | case4 => exact absurd h List.not_mem_nil

-- Behind the loop of a quantifier the level is that of the quantifier.
theorem enclosing_behind (pc next loopAt : Nat) (q : Quantifier) (loop : LinkedOperation)
    (hop : env.program.at? pc = some ⟨.quantifier q, next, some loopAt⟩)
    (hloop : env.program.at? loopAt = some loop) :
    loop.next < env.program.size ∧
      env.program.enclosing loop.next = env.program.enclosing pc := by
  rcases (hwired pc _ hop).1.2 with ⟨loopAt', hpartner, _, hat, hinside⟩
  rw [← Option.some.inj hpartner] at hat hinside
  rw [hat] at hloop
  rw [← Option.some.inj hloop]
  refine ⟨(hwired loopAt _ hat).2, ?_⟩
  rw [enclosing_succ env.program loopAt _ hat, hinside]
  rfl

-- Inside a loop its quantifier is the innermost.
theorem enclosing_inside (pc next : Nat) (partner : Option Nat) (q : Quantifier)
    (hop : env.program.at? pc = some ⟨.quantifier q, next, partner⟩) :
    pc + 1 < env.program.size ∧
      env.program.enclosing (pc + 1) = pc :: env.program.enclosing pc := by
  have hlinked := hwired pc _ hop
  have hnext : next = pc + 1 := hlinked.1.1
  exact ⟨hnext ▸ hlinked.2, enclosing_succ env.program pc _ hop⟩

-- At a loop the innermost quantifier is the one that the loop is linked to.
theorem enclosing_loop (pc next quantifierAt : Nat)
    (hop : env.program.at? pc = some ⟨.loop, next, some quantifierAt⟩) :
    next < env.program.size ∧
      env.program.enclosing pc = quantifierAt :: env.program.enclosing quantifierAt ∧
      env.program.enclosing next = env.program.enclosing quantifierAt := by
  have hlinked := hwired pc _ hop
  rcases hlinked.1 with ⟨hnext, quantifierAt', q, hpartner, _, hinside⟩
  have hnext : next = pc + 1 := hnext
  rw [← Option.some.inj hpartner] at hinside
  refine ⟨hlinked.2, hinside, ?_⟩
  rw [hnext, enclosing_succ env.program pc _ hop, hinside]
  rfl

/-- A step keeps the machine on track, in whichever way it goes on. -/
theorem onTrack_of_calls (c c' : Place) (hcalls : Calls env c c') (h : OnTrack env c) :
    OnTrack env c' := by
  cases hcalls with
  | onward pc pos stop frames x hop hpos honward =>
      have hlevel := enclosing_onward hwired pc pos stop x hop honward
      exact ⟨(hwired pc x hop).2, onward_le_size env pos stop _ hpos honward,
        h.stack.trans hlevel.symm, hlevel.symm ▸ h.framed⟩
  | branch pc pos branch next partner frames hop hpos hbranch =>
      rcases enclosing_branches hwired pc branch hbranch with ⟨x, hx, hxop, hlevel⟩
      have hlinked := hwired branch x hx
      rw [WellLinked, hxop] at hlinked
      have hlevel : env.program.enclosing (branch + 1) = env.program.enclosing pc := by
        rw [enclosing_succ env.program branch x hx, hxop, ← hlevel]
        rfl
      exact ⟨Nat.lt_of_le_of_lt hlinked.1.1 hlinked.2, hpos, h.stack.trans hlevel.symm,
        hlevel.symm ▸ h.framed⟩
  | count pc pos k width next loopAt frames q loop hop hpos hloop hbody _ hmost =>
      rcases enclosing_behind hwired pc next loopAt q loop hop hloop with ⟨hsize, hlevel⟩
      -- No more iterations are counted than fit into the text.
      have hfits : pos + k * width ≤ env.text.size :=
        Nat.le_trans (Nat.add_le_add_left (Nat.mul_le_mul_right width hmost) pos)
          (iterationsFrom_fits env _ width hbody pos 0 _ (by omega))
      exact ⟨hsize, hfits, h.stack.trans hlevel.symm, hlevel.symm ▸ h.framed⟩
  | enter pc pos next loopAt frames q loop hop hpos hloop hbody =>
      rcases enclosing_inside hwired pc next _ q hop with ⟨hsize, hlevel⟩
      refine ⟨hsize, hpos, ?_, ?_⟩
      · rw [hlevel, ← h.stack]
        rfl
      · intro i hi
        rw [hlevel] at hi
        rcases List.mem_cons.1 hi with rfl | hi
        · exact ⟨q, next, loopAt, hop, hbody⟩
        · exact h.framed i hi
  | skip pc pos next loopAt frames q loop hop hpos hloop =>
      rcases enclosing_behind hwired pc next loopAt q loop hop hloop with ⟨hsize, hlevel⟩
      exact ⟨hsize, hpos, h.stack.trans hlevel.symm, hlevel.symm ▸ h.framed⟩
  | again pc pos next frame below q first partner hop hpos hquantifier =>
      -- The next iteration is inside the same loops as the end of the last.
      rcases enclosing_loop hwired pc next frame.quantifier hop with ⟨_, hinside, _⟩
      rcases enclosing_inside hwired frame.quantifier first partner q hquantifier with
        ⟨hsize, hlevel⟩
      have hsame := hlevel.trans hinside.symm
      exact ⟨hsize, hpos, h.stack.trans hsame.symm, hsame.symm ▸ h.framed⟩
  | leave pc pos next frame below q first partner hop hpos hquantifier =>
      rcases enclosing_loop hwired pc next frame.quantifier hop with ⟨hsize, hinside, hbehind⟩
      have hstack : frame.quantifier :: below.map (·.quantifier) =
          frame.quantifier :: env.program.enclosing frame.quantifier := h.stack.trans hinside
      refine ⟨hsize, hpos, (List.cons.inj hstack).2.trans hbehind.symm, ?_⟩
      intro i hi
      rw [hbehind] at hi
      exact h.framed i (hinside ▸ List.mem_cons_of_mem _ hi)

/-- A run that begins in the text stays on track, by induction along its calls. -/
theorem onTrack_reached (s : Nat) (hs : s ≤ env.text.size) (hsize : 0 < env.program.size)
    (c : Place) (h : Reached env s c) : OnTrack env c := by
  induction h with
  | refl => exact ⟨hsize, hs, rfl, fun i hi => absurd hi List.not_mem_nil⟩
  | tail _ hcalls ih => exact onTrack_of_calls hwired _ _ hcalls ih

/-- On track a step finds what it looks up. -/
theorem inBounds_of_onTrack (c : Place) (h : OnTrack env c) : InBounds env c where
  operation := h.operation
  position := h.position
  quantifier := fun q next partner hop => by
    rcases (hwired c.pc _ hop).1.2 with ⟨loopAt, hpartner, hlt, hloop, _⟩
    exact ⟨loopAt, loopAt + 1, hpartner, hlt, hloop⟩
  loop := fun next partner hop => by
    rcases (hwired c.pc _ hop).1.2 with ⟨quantifierAt, q, hpartner, hquantifier, hinside⟩
    have hstack := h.stack.trans hinside
    -- The innermost loop around the place is the one that ends there.
    cases hframes : c.frames with
    | nil =>
        rw [hframes] at hstack
        exact absurd hstack.symm (List.cons_ne_nil _ _)
    | cons frame below =>
        rw [hframes] at hstack
        have htop : frame.quantifier = quantifierAt := (List.cons.inj hstack).1
        exact ⟨frame, below, q, quantifierAt + 1, rfl, htop ▸ hpartner, htop ▸ hquantifier⟩

/-- A run from a place that a run comes to ends with no fault but that of the fuel, by
    induction on the fuel. -/
theorem fault_of_run (s : Nat) (hs : s ≤ env.text.size) (hsize : 0 < env.program.size)
    (fuel : Nat) (c : Place) (hc : Reached env s c) (st : State) (hst : st.frames = c.frames)
    (f : Fault) (h : run env fuel c.pc c.pos st = .fault f) : f = .exhausted := by
  induction fuel generalizing c st with
  | zero => exact (Attempt.fault.inj h).symm
  | succ fuel ih =>
      rcases fault_of_step env _ c.pc c.pos st f h with ⟨_, hout⟩ | ⟨c', hc', st', hst', hrun⟩
      · rw [hst] at hout
        exact absurd (inBounds_of_onTrack hwired c (onTrack_reached hwired s hs hsize c hc)) hout
      · rw [hst] at hc'
        exact ih c' (hc.tail hc') st' hst' hrun

end Steps

end Machine

-- The groups that the operations of a pattern open and close are numbered from one.
theorem group_of_operations (t : Pattern) (ht : t.Proper) (n : GroupNumber)
    (h : Operation.openGroup n ∈ t.operations ∨ Operation.closeGroup n ∈ t.operations) :
    1 ≤ n.val ∧ n.val ≤ t.groups := by
  have hnumber : n.val ∈ Alternatives.numbers t.alternatives := by
    rw [← (openings_alternatives t.alternatives).1, List.mem_filterMap]
    refine ⟨.openGroup n, ?_, rfl⟩
    simp only [Pattern.operations, List.mem_append, List.mem_singleton, reduceCtorEq,
      or_false] at h
    exact h.elim id (openGroup_of_closeGroup t.alternatives n)
  rw [ht.numbers, List.mem_range'_1] at hnumber
  omega

/-- A trial in the text finds everything in order wherever it comes to, and ends with no
    fault. -/
theorem trial_inBounds (options : CompileOptions) (t : Pattern) (text : Bytes)
    (flags : SearchFlags) (scan : ExactScan) (s : Nat) (hs : s ≤ text.size) :
    let env : Env := ⟨Program.ofPattern options t, text, flags, scan⟩
    (∀ c, Reached env s c → OnTrack env c ∧ InBounds env c ∧
      ∀ fuel (st : State), st.frames = c.frames →
        ∀ f, run env fuel c.pc c.pos st = .fault f → f = .exhausted) ∧
      ∀ f, start env s ≠ .fault f := by
  intro env
  have hwired : env.program.Wired := wired_program t.alternatives rfl
  have hsize : 0 < env.program.size := by
    have hlength : env.program.size = t.operations.length := size_of_link t.operations rfl
    rw [hlength, Pattern.operations, List.length_append]
    exact Nat.succ_pos _
  constructor
  · intro c hc
    have htrack := onTrack_reached hwired s hs hsize c hc
    refine ⟨htrack, inBounds_of_onTrack hwired c htrack, ?_⟩
    intro fuel st hst f hf
    exact fault_of_run hwired s hs hsize fuel c hc st hst f hf
  · -- The only fault that is left is that of the fuel, and the budget suffices.
    intro f hf
    have hexhausted := fault_of_run hwired s hs hsize _ ⟨0, s, []⟩
      Relation.ReflTransGen.refl State.initial rfl f hf
    rw [hexhausted] at hf
    exact start_decided env (forwardLinks_link _ _ rfl) s hf

/-- Whatever pattern compiles, no search of any text leaves its bounds. The links of the
    program lead to operations, those of quantifiers and loops to their partners, and its
    groups have registers. The search goes back and makes its trials inside the text only.
    Wherever a trial comes to, the operation and the position exist, the stack is the chain
    of the loops around the operation, and the step finds what it looks up, at a loop the
    frame of its own quantifier on top. So no run ends with a fault other than that of the
    fuel, and with the budget of the machine with none. -/
theorem search_inBounds (options : CompileOptions) (pattern : Bytes) (program : Program)
    (h : compile options pattern = .ok program) (text : Bytes) (offset : Nat)
    (search : SearchOptions) (scan : ExactScan) :
    let env : Env := ⟨program, text, search.flags, scan⟩
    program.Wired ∧ program.groups < slots ∧
      (∀ n, Operation.openGroup n ∈ program.emitted ∨ Operation.closeGroup n ∈ program.emitted →
        1 ≤ n.val ∧ n.val ≤ program.groups) ∧
      (∀ pos, Relation.ReflTransGen ((backwardRow env).Retries env) (min offset text.size) pos →
        pos ≤ text.size) ∧
      ∀ s, program.Tries text offset search scan s →
        s ≤ text.size ∧
          (∀ c, Reached env s c → OnTrack env c ∧ InBounds env c ∧
            ∀ fuel (st : State), st.frames = c.frames →
              ∀ f, run env fuel c.pc c.pos st = .fault f → f = .exhausted) ∧
          ∀ f, start env s ≠ .fault f := by
  intro env
  rcases compile_ok options pattern program h with ⟨t, ht, rfl⟩
  refine ⟨wired_program t.alternatives rfl, ht.groups_lt, ?_, ?_, ?_⟩
  · intro n hn
    rw [Program.emitted_ofPattern] at hn
    exact group_of_operations t ht n hn
  · intro pos hpos
    exact Nat.le_trans (backwardRow_le env _ pos hpos) (Nat.min_le_right _ _)
  · intro s hs
    have hinside := tries_le _ text offset search scan (ofPattern_listed options t) s hs
    exact ⟨hinside, trial_inBounds options t text search.flags scan s hinside⟩

-- In `((a|b)*c)*` the inner loop has a choice in it and the outer one the inner loop, so
-- both have frames.
theorem search_inBounds_nested :
    ∃ program, compile { dialect := .perl }
        #[0x28, 0x28, 0x61, 0x7C, 0x62, 0x29, 0x2A, 0x63, 0x29, 0x2A] = .ok program ∧
      program.Wired ∧
      ∀ s, program.Tries #[0x61, 0x63] 0 .forward .walk s →
        s ≤ 2 ∧ ∀ f, start ⟨program, #[0x61, 0x63], {}, .walk⟩ s ≠ .fault f := by
  rcases exists_ok_of_isOk (compile { dialect := .perl }
    #[0x28, 0x28, 0x61, 0x7C, 0x62, 0x29, 0x2A, 0x63, 0x29, 0x2A]) (by decide +kernel) with
    ⟨program, h⟩
  have hbounds := search_inBounds _ _ program h #[0x61, 0x63] 0 .forward .walk
  refine ⟨program, h, hbounds.1, fun s hs => ?_⟩
  have htrial := hbounds.2.2.2.2 s hs
  exact ⟨htrial.1, htrial.2.2⟩

end ByteRegex

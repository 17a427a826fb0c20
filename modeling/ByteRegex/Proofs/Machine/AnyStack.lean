import ByteRegex.Proofs.Machine.Termination

/-!
# Runs with Any Stack

A run ends whatever stack it begins with, though the budget is made for runs that begin
with none. The frames on a stack need not belong to the place: there may be more of them
than there are loops in the program, and they may begin anywhere. A byte of the text
cannot be given a fixed price then, for where the position moves on every frame on the
stack may become pending, and on the way there new ones may have been pushed.

The price grows instead. `room` bounds what a stack can become at a position. Moving on in
the program it does not grow, since every push leaves an operation behind, and going back
from a loop is paid for by the frame that is no longer pending. With the next byte all of
the stack may be pending, and the room is multiplied. `reserve` adds up what all the bytes
that are left can cost in this way.

So there is an amount of fuel for every place that decides the run from there, and more
makes no difference. `final` is the run with that fuel, and it does what a step does and
then itself: a machine without fuel, on every stack.

## Main definitions

* `level`: What is left to do at a position.
* `room`: How much a stack can become at a position.
* `reserve`: What the bytes that are left can cost.
* `needed`: How much fuel decides a run.
* `final`: The run with that fuel.

## Theorems

* `needed_lt_of_calls`: What a step calls needs less.
* `run_eq_final`: With enough fuel a run is the final one.
* `final_eq_step`: The final run is a step followed by itself.
* `final_decided`: It is not out of fuel.
-/

namespace ByteRegex

namespace Machine

/-- What is left to do at the position of a place: the loops that can go back, and the
    operations up to the end of the program. -/
def level (env : Env) (c : Place) : Nat :=
  pending c.pos c.frames * (env.program.size + 1) + (env.program.size + 1 - c.pc)

/-- A bound for the stack of a run from a place, as long as it stays at the position. -/
def room (env : Env) (c : Place) : Nat := c.frames.length + level env c

/-- The cost of a number of bytes, when there is the given room at the first: of each the
    level that it can begin with, and then that of the others in the room that it leaves. -/
def reserve (width : Nat) : (bytes room : Nat) → Nat
  | 0, _ => 0
  | bytes + 1, room => room * width + width + reserve width bytes (room + room * width)

/-- The fuel that decides a run from a place. Behind the end of the text one step does. -/
def needed (env : Env) (c : Place) : Nat :=
  if c.pos ≤ env.text.size then
    level env c + reserve (env.program.size + 1) (env.text.size - c.pos) (room env c) + 1
  else 1

theorem reserve_mono (width bytes bytes' room room' : Nat) (hbytes : bytes ≤ bytes')
    (hroom : room ≤ room') : reserve width bytes room ≤ reserve width bytes' room' := by
  induction bytes generalizing bytes' room room' with
  | zero => exact Nat.zero_le _
  | succ bytes ih =>
      cases bytes' with
      | zero => exact absurd hbytes (Nat.not_succ_le_zero bytes)
      | succ more =>
          have hwidth := Nat.mul_le_mul_right width hroom
          have hrest := ih more (room + room * width) (room' + room' * width)
            (Nat.le_of_succ_le_succ hbytes) (Nat.add_le_add hroom hwidth)
          rw [reserve, reserve]
          omega

section Needs

variable {env : Env} {pc pos : Nat} {frames : List LoopFrame}

-- There is always something left to do in the program.
theorem level_pos (hpc : pc < env.program.size) : 0 < level env ⟨pc, pos, frames⟩ := by
  simp only [level]
  omega

-- What is left to do at the same position is less, and there is no more room for it.
theorem needed_lt_of_level (c c' : Place) (hpos : c.pos ≤ env.text.size) (hsame : c'.pos = c.pos)
    (hlevel : level env c' < level env c) (hroom : room env c' ≤ room env c) :
    needed env c' < needed env c := by
  have hreserve := reserve_mono (env.program.size + 1) _ _ _ _
    (Nat.le_refl (env.text.size - c.pos)) hroom
  rw [needed, needed, hsame, if_pos hpos, if_pos hpos]
  omega

/-- A later place at the same position needs less, with at most one more frame, if no more
    of them are pending. -/
theorem needed_ahead (hpc : pc < env.program.size) (hpos : pos ≤ env.text.size) (pc' : Nat)
    (frames' : List LoopFrame) (hnext : pc < pc') (hlength : frames'.length ≤ frames.length + 1)
    (hpending : pending pos frames' ≤ pending pos frames) :
    needed env ⟨pc', pos, frames'⟩ < needed env ⟨pc, pos, frames⟩ := by
  have hloops := Nat.mul_le_mul_right (env.program.size + 1) hpending
  refine needed_lt_of_level _ _ hpos rfl ?_ ?_
  · simp only [level]
    omega
  · simp only [room, level]
    omega

/-- A later position needs less, at a later place with the same frames: the byte pays for
    all of them. -/
theorem needed_onward (hpc : pc < env.program.size) (hpos : pos ≤ env.text.size)
    (pc' pos' : Nat) (hnext : pc < pc') (hle : pos ≤ pos') :
    needed env ⟨pc', pos', frames⟩ < needed env ⟨pc, pos, frames⟩ := by
  by_cases hsame : pos' = pos
  · subst hsame
    exact needed_ahead hpc hpos pc' frames hnext (Nat.le_succ _) (Nat.le_refl _)
  · have hplace : 0 < level env ⟨pc, pos, frames⟩ := level_pos hpc
    rw [needed, needed, if_pos hpos]
    by_cases hinside : pos' ≤ env.text.size
    · rw [if_pos hinside]
      have hpending := pending_le_length pos' frames
      have hroom : frames.length + (env.program.size + 1 - pc) ≤ room env ⟨pc, pos, frames⟩ := by
        simp only [room, level]
        omega
      have hstack := Nat.mul_le_mul_right (env.program.size + 1)
        (Nat.le_trans (Nat.le_add_right frames.length (env.program.size + 1 - pc)) hroom)
      have hloops := Nat.mul_le_mul_right (env.program.size + 1) hpending
      -- All of the stack may be pending now, and the whole program may be ahead.
      have hlevel : level env ⟨pc', pos', frames⟩ ≤
          room env ⟨pc, pos, frames⟩ * (env.program.size + 1) + (env.program.size + 1) := by
        simp only [level]
        omega
      have hgrown : room env ⟨pc', pos', frames⟩ ≤ room env ⟨pc, pos, frames⟩ +
          room env ⟨pc, pos, frames⟩ * (env.program.size + 1) := by
        rw [room, level]
        simp only
        omega
      have hreserve := reserve_mono (env.program.size + 1) (env.text.size - pos' + 1) _ _ _
        (show env.text.size - pos' + 1 ≤ env.text.size - pos by omega)
        (Nat.le_refl (room env ⟨pc, pos, frames⟩))
      have hrest := reserve_mono (env.program.size + 1) _ _ _ _
        (Nat.le_refl (env.text.size - pos')) hgrown
      rw [reserve] at hreserve
      simp only
      omega
    · rw [if_neg hinside]
      omega

/-- Going back from a loop needs less: the frame on top is no longer pending. -/
theorem needed_back (frame : LoopFrame) (below : List LoopFrame) (hpc : pc < env.program.size)
    (hpos : pos ≤ env.text.size) (hconsumed : frame.start ≠ pos) (pc' count : Nat) :
    needed env ⟨pc', pos, ⟨frame.quantifier, count, pos⟩ :: below⟩ <
      needed env ⟨pc, pos, frame :: below⟩ := by
  have hlevel : level env ⟨pc', pos, ⟨frame.quantifier, count, pos⟩ :: below⟩ <
      level env ⟨pc, pos, frame :: below⟩ := by
    simp only [level]
    rw [pending_cons, pending_cons, if_pos rfl, if_neg hconsumed, Nat.add_zero,
      Nat.add_one_mul]
    omega
  refine needed_lt_of_level _ _ hpos rfl hlevel ?_
  simp only [room, List.length_cons]
  omega

/-- What a step calls needs less than the step. -/
theorem needed_lt_of_calls (hlinks : ForwardLinks env.program) (c c' : Place)
    (hcalls : Calls env c c') : needed env c' < needed env c := by
  have hbound : ∀ {pc x}, env.program.at? pc = some x → pc < env.program.size :=
    fun hop => (Array.getElem?_eq_some_iff.1 hop).1
  cases hcalls with
  | onward pc pos stop frames x hop hpos honward =>
      have hforward := le_of_onward env pos stop _ honward
      exact needed_onward (hbound hop) hpos _ _ ((hlinks pc x hop).next_gt hforward.2) hforward.1
  | branch pc pos branch next partner frames hop hpos hbranch =>
      exact needed_onward (hbound hop) hpos _ _ (Nat.lt_succ_of_le (branchesFrom_ge _ _ _ hbranch))
        (Nat.le_refl _)
  | count pc pos k width next loopAt frames q loop hop hpos hloop =>
      have hahead := (hlinks pc _ hop).ahead q loopAt rfl rfl
      exact needed_onward (hbound hop) hpos _ _
        (Nat.lt_of_lt_of_le hahead (hlinks loopAt loop hloop).next_ge) (Nat.le_add_right _ _)
  | enter pc pos next loopAt frames q loop hop hpos =>
      -- The iteration begins here, so its loop is not pending yet.
      refine needed_ahead (hbound hop) hpos _ _ (Nat.lt_succ_self pc) (Nat.le_refl _) ?_
      rw [pending_cons, if_pos rfl]
      exact Nat.le_refl _
  | skip pc pos next loopAt frames q loop hop hpos hloop =>
      have hahead := (hlinks pc _ hop).ahead q loopAt rfl rfl
      exact needed_onward (hbound hop) hpos _ _
        (Nat.lt_of_lt_of_le hahead (hlinks loopAt loop hloop).next_ge) (Nat.le_refl _)
  | again pc pos next frame below q first partner hop hpos _ hconsumed =>
      exact needed_back frame below (hbound hop) hpos hconsumed _ _
  | leave pc pos next frame below q first partner hop hpos =>
      refine needed_ahead (hbound hop) hpos next below
        ((hlinks pc _ hop).next_gt Operation.noConfusion) (by rw [List.length_cons]; omega) ?_
      rw [pending_cons]
      exact Nat.le_add_right _ _

end Needs

/-- The run from a place with the fuel that decides it. -/
def final (env : Env) : Continuation := fun pc pos st =>
  run env (needed env ⟨pc, pos, st.frames⟩) pc pos st

section Final

variable (env : Env) (hlinks : ForwardLinks env.program)

theorem needed_pos (c : Place) : 0 < needed env c := by
  rw [needed]
  split <;> exact Nat.succ_pos _

include hlinks

-- More fuel than a run needs changes nothing, by induction on the fuel.
theorem run_of_needed (fuel more pc pos : Nat) (st : State)
    (h : needed env ⟨pc, pos, st.frames⟩ ≤ fuel) (h' : needed env ⟨pc, pos, st.frames⟩ ≤ more) :
    run env fuel pc pos st = run env more pc pos st := by
  have hpos := needed_pos env ⟨pc, pos, st.frames⟩
  induction fuel generalizing more pc pos st with
  | zero => omega
  | succ fuel ih =>
      cases more with
      | zero => omega
      | succ more =>
          refine step_congr env _ _ pc pos st fun c' hc' st' hst' => ?_
          have hless := needed_lt_of_calls hlinks _ c' hc'
          have hframes : needed env ⟨c'.pc, c'.pos, st'.frames⟩ = needed env c' := by rw [hst']
          exact ih more c'.pc c'.pos st' (by omega) (by omega) (needed_pos env _)

/-- With enough fuel a run is the final one. -/
theorem run_eq_final (fuel pc pos : Nat) (st : State)
    (h : needed env ⟨pc, pos, st.frames⟩ ≤ fuel) : run env fuel pc pos st = final env pc pos st :=
  run_of_needed env hlinks fuel _ pc pos st h (Nat.le_refl _)

/-- The final run is a step followed by itself. -/
theorem final_eq_step (pc pos : Nat) (st : State) :
    final env pc pos st = step env (final env) pc pos st := by
  rw [← run_eq_final env hlinks (needed env ⟨pc, pos, st.frames⟩ + 1) pc pos st (Nat.le_succ _)]
  refine step_congr env _ _ pc pos st fun c' hc' st' hst' => ?_
  have hless := needed_lt_of_calls hlinks _ c' hc'
  exact run_eq_final env hlinks _ c'.pc c'.pos st' (hst' ▸ Nat.le_of_lt hless)

/-- The final run is not out of fuel, by induction on what it needs. -/
theorem final_decided (c : Place) (st : State) (hst : st.frames = c.frames) :
    Decided (final env c.pc c.pos st) := by
  induction hneeded : needed env c using Nat.strongRecOn generalizing c st with
  | ind n ih =>
      intro hexhausted
      rw [final_eq_step env hlinks] at hexhausted
      rcases fault_of_step env _ c.pc c.pos st _ hexhausted with
        ⟨hne, _⟩ | ⟨c', hc', st', hst', hrun⟩
      · exact hne rfl
      · rw [hst] at hc'
        exact ih _ (hneeded ▸ needed_lt_of_calls hlinks c c' hc') c' st' hst' rfl hrun

end Final

end Machine

end ByteRegex

import ByteRegex.Proofs.Machine.Journal
import ByteRegex.Proofs.Machine.Position
import Mathlib.Data.List.Forall2
import Mathlib.Logic.Relation

/-!
# Where a Step Goes On

A step of the machine is a function of what the machine does next, and asks that
function at a few places only. `Calls` lists them, one constructor for each way of going
on, with all that has been tested before. It speaks of the operation, the position and
the loops on the stack. What has been recorded plays no part, since no step asks for it.

`step_congr` says that nothing is left out: two continuations that agree where a step
calls them make the same step. So what is to be shown of all runs of the machine can be
shown of the relation, and the step itself need not be opened again. There are two such
properties. Fuel that covers a place covers what is called from there, so that runs end;
and the links, the position and the stack stay in order, so that runs never end with a
fault. For the second a step must be in bounds, which means that its operation is there
and linked; then a fault can only come from what it calls, which is `fault_of_step`.

## Main definitions

* `Place`: An operation, a position and the loops that are being repeated.
* `Env.Onward`: From where to where a single operation goes on.
* `Calls`: At which places a step calls the continuation.
* `Reached`: The places that a run comes to.
* `InBounds`: A step from a place finds all that it looks up.
* `Alike`: Two runs end alike.

## Theorems

* `alike_step`: A step with continuations that are alike is alike.
* `step_congr`: A step depends on what it calls alone.
* `fault_of_step`: In bounds a fault comes from what is called.
-/

namespace ByteRegex

namespace Machine

/-- Where the machine is in the program, in the text and in the loops. -/
structure Place where
  pc : Nat
  pos : Nat
  /-- The loops that are being repeated, the innermost first. -/
  frames : List LoopFrame

/-- A single operation goes on from one position to another. -/
def Env.Onward (env : Env) (pos stop : Nat) : Operation → Prop
  | .literal word table => env.passes pos (.literal word table) = true ∧ stop = pos + word.size
  | .set s => env.passes pos (.set s) = true ∧ stop = pos + 1
  | .anyChar => env.passes pos .anyChar = true ∧ stop = pos + 1
  | .anyString => pos ≤ stop ∧ stop ≤ env.reach pos
  | .anchor a => env.holdsAt pos a = true ∧ stop = pos
  | .cursor => stop = pos
  | .openGroup _ => stop = pos
  | .closeGroup _ => stop = pos
  | .branchEnd => stop = pos
  | _ => False

-- A single operation does not go back in the text, and it is not `finish`.
theorem le_of_onward (env : Env) (pos stop : Nat) (op : Operation) (h : env.Onward pos stop op) :
    pos ≤ stop ∧ op ≠ .finish := by
  cases op with
  | finish => exact h.elim
  | branch => exact h.elim
  | quantifier q => exact h.elim
  | loop => exact h.elim
  | anyString => exact ⟨h.1, Operation.noConfusion⟩
  | literal w table => exact ⟨h.2 ▸ Nat.le_add_right pos w.size, Operation.noConfusion⟩
  | set s => exact ⟨h.2 ▸ Nat.le_succ pos, Operation.noConfusion⟩
  | anyChar => exact ⟨h.2 ▸ Nat.le_succ pos, Operation.noConfusion⟩
  | anchor a => exact ⟨Nat.le_of_eq h.2.symm, Operation.noConfusion⟩
  | _ => exact ⟨Nat.le_of_eq h.symm, Operation.noConfusion⟩

-- And it does not leave the text.
theorem onward_le_size (env : Env) (pos stop : Nat) (op : Operation)
    (hpos : pos ≤ env.text.size) (h : env.Onward pos stop op) : stop ≤ env.text.size := by
  cases op with
  | finish => exact h.elim
  | branch => exact h.elim
  | quantifier q => exact h.elim
  | loop => exact h.elim
  | anyString => exact Nat.le_trans h.2 (reach_le env pos hpos).2
  | literal w table => exact h.2 ▸ occursAt_le _ _ _ pos h.1
  | set s => exact h.2 ▸ byteIs_lt env pos _ h.1
  | anyChar => exact h.2 ▸ byteIs_lt env pos _ h.1
  | anchor a => exact h.2 ▸ hpos
  | _ => exact Eq.symm h ▸ hpos

/-- A step from one place calls the continuation at another. -/
inductive Calls (env : Env) : Place → Place → Prop where
  /-- An operation goes on to the one that it is linked to. -/
  | onward (pc pos stop : Nat) (frames : List LoopFrame) (x : LinkedOperation)
      (hop : env.program.at? pc = some x) (hpos : pos ≤ env.text.size)
      (h : env.Onward pos stop x.operation) :
      Calls env ⟨pc, pos, frames⟩ ⟨x.next, stop, frames⟩
  /-- A choice goes on behind one of its branches. -/
  | branch (pc pos branch next : Nat) (partner : Option Nat) (frames : List LoopFrame)
      (hop : env.program.at? pc = some ⟨.branch, next, partner⟩) (hpos : pos ≤ env.text.size)
      (h : branch ∈ branchesFrom env.program pc) :
      Calls env ⟨pc, pos, frames⟩ ⟨branch + 1, pos, frames⟩
  /-- A body that is counted is left behind a number of iterations that match. -/
  | count (pc pos k width next loopAt : Nat) (frames : List LoopFrame) (q : Quantifier)
      (loop : LinkedOperation)
      (hop : env.program.at? pc = some ⟨.quantifier q, next, some loopAt⟩)
      (hpos : pos ≤ env.text.size) (hloop : env.program.at? loopAt = some loop)
      (hbody : countedWidth? (bodyOf env.program (pc + 1) loopAt) = some width)
      (hmin : q.min ≤ k)
      (hmost : k ≤ mostIterations env (bodyOf env.program (pc + 1) loopAt) width q pos) :
      Calls env ⟨pc, pos, frames⟩ ⟨loop.next, pos + k * width, frames⟩
  /-- Any other body is entered with a new frame. -/
  | enter (pc pos next loopAt : Nat) (frames : List LoopFrame) (q : Quantifier)
      (loop : LinkedOperation)
      (hop : env.program.at? pc = some ⟨.quantifier q, next, some loopAt⟩)
      (hpos : pos ≤ env.text.size) (hloop : env.program.at? loopAt = some loop)
      (hbody : countedWidth? (bodyOf env.program (pc + 1) loopAt) = none)
      (hmax : q.max ≠ some 0) :
      Calls env ⟨pc, pos, frames⟩ ⟨pc + 1, pos, ⟨pc, 0, pos⟩ :: frames⟩
  /-- Or it is passed over, if there need not be an iteration. -/
  | skip (pc pos next loopAt : Nat) (frames : List LoopFrame) (q : Quantifier)
      (loop : LinkedOperation)
      (hop : env.program.at? pc = some ⟨.quantifier q, next, some loopAt⟩)
      (hpos : pos ≤ env.text.size) (hloop : env.program.at? loopAt = some loop)
      (hbody : countedWidth? (bodyOf env.program (pc + 1) loopAt) = none) (hmin : q.min = 0) :
      Calls env ⟨pc, pos, frames⟩ ⟨loop.next, pos, frames⟩
  /-- A loop goes back after an iteration that has consumed something. -/
  | again (pc pos next : Nat) (frame : LoopFrame) (below : List LoopFrame) (q : Quantifier)
      (first : Nat) (partner : Option Nat)
      (hop : env.program.at? pc = some ⟨.loop, next, some frame.quantifier⟩)
      (hpos : pos ≤ env.text.size)
      (hquantifier : env.program.at? frame.quantifier = some ⟨.quantifier q, first, partner⟩)
      (hconsumed : frame.start ≠ pos) (hmax : q.max.all (frame.count + 1 < ·) = true) :
      Calls env ⟨pc, pos, frame :: below⟩
        ⟨frame.quantifier + 1, pos, ⟨frame.quantifier, frame.count + 1, pos⟩ :: below⟩
  /-- It is left when there are enough iterations or the last one was empty. -/
  | leave (pc pos next : Nat) (frame : LoopFrame) (below : List LoopFrame) (q : Quantifier)
      (first : Nat) (partner : Option Nat)
      (hop : env.program.at? pc = some ⟨.loop, next, some frame.quantifier⟩)
      (hpos : pos ≤ env.text.size)
      (hquantifier : env.program.at? frame.quantifier = some ⟨.quantifier q, first, partner⟩)
      (hleave : q.min ≤ frame.count + 1 ∨ frame.start = pos) :
      Calls env ⟨pc, pos, frame :: below⟩ ⟨next, pos, below⟩

/-- A run from the first operation, at a position `s`, comes to a place. -/
def Reached (env : Env) (s : Nat) : Place → Prop := Relation.ReflTransGen (Calls env) ⟨0, s, []⟩

/-- A step from a place finds all that it looks up: its operation, the position, the
    partner of a quantifier or a loop, and the frame of a loop on top of the stack. -/
structure InBounds (env : Env) (c : Place) : Prop where
  operation : c.pc < env.program.size
  position : c.pos ≤ env.text.size
  /-- A quantifier and its loop are linked to each other. -/
  quantifier : ∀ q next partner, env.program.at? c.pc = some ⟨.quantifier q, next, partner⟩ →
    ∃ loopAt behind, partner = some loopAt ∧ c.pc < loopAt ∧
      env.program.at? loopAt = some ⟨.loop, behind, some c.pc⟩
  /-- So are a loop and the quantifier of the frame on top. -/
  loop : ∀ next partner, env.program.at? c.pc = some ⟨.loop, next, partner⟩ →
    ∃ frame below q first, c.frames = frame :: below ∧ partner = some frame.quantifier ∧
      env.program.at? frame.quantifier = some ⟨.quantifier q, first, some c.pc⟩

/-- Two runs end alike, and if with a fault then with one of a given kind. -/
def Alike (kind : Fault → Prop) (a b : Attempt) : Prop := a = b ∧ ∀ f, a = .fault f → kind f

section Alike

variable {kind : Fault → Prop}

theorem alike_fault (f : Fault) (h : kind f) : Alike kind (.fault f) (.fault f) :=
  ⟨rfl, fun _ hf => Attempt.fault.inj hf ▸ h⟩

theorem alike_failed (st : State) : Alike kind (.failed st) (.failed st) :=
  ⟨rfl, fun _ h => absurd h (by simp only [reduceCtorEq, not_false_eq_true])⟩

theorem alike_matched (stop : Nat) (st : State) :
    Alike kind (.matched stop st) (.matched stop st) :=
  ⟨rfl, fun _ h => absurd h (by simp only [reduceCtorEq, not_false_eq_true])⟩

/-- Ways that are alike one by one, from any state with the same loops. -/
def AlikeWays (kind : Fault → Prop) (st : State) : List (State → Attempt) →
    List (State → Attempt) → Prop :=
  List.Forall₂ fun way way' =>
    ∀ st', st'.frames = st.frames → Alike kind (way st') (way' st')

-- A choice between ways that are alike is alike.
theorem alike_firstOf (ways ways' : List (State → Attempt)) (st : State)
    (h : AlikeWays kind st ways ways') : Alike kind (firstOf ways st) (firstOf ways' st) := by
  suffices hall : ∀ st', st'.frames = st.frames →
      Alike kind (firstOf ways st') (firstOf ways' st') from hall st rfl
  induction h with
  | nil => exact fun st' _ => alike_failed st'
  | @cons way way' _ _ hway _ ih =>
      intro st' hst'
      have halike := hway st' hst'
      rw [firstOf, firstOf, reverting, reverting, ← halike.1]
      cases hresult : way st' with
      | failed later => exact ih _ hst'
      | matched stop later => exact alike_matched stop later
      | fault f => exact alike_fault f (halike.2 f hresult)

theorem alikeWays_map {ι : Type} (items : List ι) (way way' : ι → State → Attempt) (st : State)
    (h : ∀ x ∈ items, ∀ st', st'.frames = st.frames → Alike kind (way x st') (way' x st')) :
    AlikeWays kind st (items.map way) (items.map way') := by
  rw [AlikeWays, List.forall₂_map_left_iff, List.forall₂_map_right_iff, List.forall₂_same]
  exact h

theorem alikeWays_allowed (allowed : Bool) (way way' : State → Attempt) (st : State)
    (h : allowed = true → ∀ st', st'.frames = st.frames → Alike kind (way st') (way' st')) :
    AlikeWays kind st (if allowed then [way] else []) (if allowed then [way'] else []) := by
  cases allowed with
  | true => exact List.Forall₂.cons (h rfl) List.Forall₂.nil
  | false => exact List.Forall₂.nil

theorem alikeWays_preferred (first : Bool) (a a' b b' : List (State → Attempt)) (st : State)
    (ha : AlikeWays kind st a a') (hb : AlikeWays kind st b b') :
    AlikeWays kind st (if first then a ++ b else b ++ a)
      (if first then a' ++ b' else b' ++ a') := by
  cases first with
  | true => exact List.rel_append ha hb
  | false => exact List.rel_append hb ha

-- A test goes on or fails on the spot.
theorem alike_test (passed : Bool) (a a' : Attempt) (st : State)
    (h : passed = true → Alike kind a a') :
    Alike kind (if passed then a else .failed st) (if passed then a' else .failed st) := by
  cases passed with
  | true => exact h rfl
  | false => exact alike_failed st

end Alike

section Steps

variable {env : Env} {pc pos : Nat} {st : State} {go go' : Continuation} {kind : Fault → Prop}

theorem alike_againOrOut (q : Quantifier) (back next count : Nat) (below : List LoopFrame)
    (mayRepeat mayLeave : Bool)
    (hagain : mayRepeat = true → ∀ st' : State, st'.frames = ⟨back, count, pos⟩ :: below →
      Alike kind (go (back + 1) pos st') (go' (back + 1) pos st'))
    (hout : mayLeave = true → ∀ st' : State, st'.frames = below →
      Alike kind (go next pos st') (go' next pos st')) :
    Alike kind (againOrOut go q back next pos count below mayRepeat mayLeave st)
      (againOrOut go' q back next pos count below mayRepeat mayLeave st) := by
  refine alike_firstOf _ _ st (alikeWays_preferred _ _ _ _ _ st ?_ ?_)
  · exact alikeWays_allowed _ _ _ st fun h st' _ => hagain h _ rfl
  · exact alikeWays_allowed _ _ _ st fun h st' _ => hout h _ rfl

variable (hcalls : ∀ c', Calls env ⟨pc, pos, st.frames⟩ c' → ∀ st' : State,
    st'.frames = c'.frames → Alike kind (go c'.pc c'.pos st') (go' c'.pc c'.pos st'))

include hcalls

theorem alike_quantifier (hpos : pos ≤ env.text.size) (q : Quantifier) (next loopAt : Nat)
    (hop : env.program.at? pc = some ⟨.quantifier q, next, some loopAt⟩)
    (hfault : env.program.at? loopAt = none → kind (.unpaired pc)) :
    Alike kind (stepQuantifier env go q pc loopAt pos st)
      (stepQuantifier env go' q pc loopAt pos st) := by
  unfold stepQuantifier
  cases hloop : env.program.at? loopAt with
  | none => exact alike_fault _ (hfault hloop)
  | some loop =>
      simp only
      cases hbody : countedWidth? (bodyOf env.program (pc + 1) loopAt) with
      | some width =>
          simp only [repeatCounted_eq]
          refine alike_firstOf _ _ st (alikeWays_map _ _ _ st fun k hk st' hst' => ?_)
          rw [mem_counts] at hk
          -- Recording the groups of the last iteration leaves the stack alone.
          have hrecovers := recovers_counted (bodyOf env.program (pc + 1) loopAt) st'
            (pos + (k - 1) * width) k
          exact hcalls _ (.count pc pos k width next loopAt _ q loop hop hpos hloop hbody hk.1 hk.2)
            _ (hrecovers.frames.trans hst')
      | none =>
          refine alike_againOrOut q pc loop.next 0 st.frames _ _ (fun hmax st' hst' => ?_)
            (fun hmin st' hst' => ?_)
          · exact hcalls _ (.enter pc pos next loopAt _ q loop hop hpos hloop hbody
              (bne_iff_ne.1 hmax)) st' hst'
          · exact hcalls _ (.skip pc pos next loopAt _ q loop hop hpos hloop hbody
              (beq_iff_eq.1 hmin)) st' hst'

theorem alike_loop (hpos : pos ≤ env.text.size) (next quantifierAt : Nat)
    (hop : env.program.at? pc = some ⟨.loop, next, some quantifierAt⟩)
    (hunpaired : (∀ q first partner,
      env.program.at? quantifierAt ≠ some ⟨.quantifier q, first, partner⟩) → kind (.unpaired pc))
    (hforeign : (∀ frame below, st.frames = frame :: below → frame.quantifier ≠ quantifierAt) →
      kind (.foreignFrame pc)) :
    Alike kind (stepLoop env go pc quantifierAt next pos st)
      (stepLoop env go' pc quantifierAt next pos st) := by
  unfold stepLoop
  split
  · rename_i q first partner hquantifier
    cases hframes : st.frames with
    | nil =>
        refine alike_fault _ (hforeign fun frame below h => ?_)
        exact absurd (hframes.symm.trans h) (by simp only [reduceCtorEq, not_false_eq_true])
    | cons frame below =>
        simp only
        by_cases hown : frame.quantifier = quantifierAt
        · subst hown
          rw [hframes] at hcalls
          simp only [if_true]
          refine alike_againOrOut q frame.quantifier next (frame.count + 1) below _ _
            (fun hrepeat st' hst' => ?_) (fun hleave st' hst' => ?_)
          · rw [Bool.and_eq_true, bne_iff_ne] at hrepeat
            exact hcalls _ (.again pc pos next frame below q first partner hop hpos hquantifier
              hrepeat.1.symm hrepeat.2) st' hst'
          · rw [Bool.or_eq_true, decide_eq_true_eq, Bool.not_eq_true', bne_eq_false_iff_eq,
              eq_comm (a := pos)] at hleave
            exact hcalls _ (.leave pc pos next frame below q first partner hop hpos hquantifier
              hleave) st' hst'
        · simp only [if_neg hown]
          refine alike_fault _ (hforeign fun frame' below' h => ?_)
          rw [hframes] at h
          rw [← (List.cons.inj h).1]
          exact hown
  · rename_i hnone
    exact alike_fault _ (hunpaired fun q first partner h => hnone q first partner h)

/-- A step with continuations that are alike at the places that it calls is alike, and
    ends with a fault of its own only out of bounds. -/
theorem alike_step
    (hown : ∀ f, f ≠ .exhausted → ¬InBounds env ⟨pc, pos, st.frames⟩ → kind f) :
    Alike kind (step env go pc pos st) (step env go' pc pos st) := by
  have hfault : ∀ f, f ≠ .exhausted → ¬InBounds env ⟨pc, pos, st.frames⟩ →
      Alike kind (.fault f) (.fault f) := fun f hf hout => alike_fault f (hown f hf hout)
  unfold step
  cases hop : env.program.at? pc with
  | none =>
      refine hfault _ Fault.noConfusion fun hin => ?_
      exact absurd (Array.getElem?_eq_getElem hin.operation).symm (by
        rw [show env.program.operations[pc]? = none from hop]
        simp only [reduceCtorEq, not_false_eq_true])
  | some x =>
      rcases x with ⟨op, next, partner⟩
      by_cases hpos : env.text.size < pos
      · simp only [if_pos hpos]
        exact hfault _ Fault.noConfusion
          fun hin => Nat.not_le.2 hpos hin.position
      · have hpos := Nat.le_of_not_lt hpos
        simp only [if_neg (Nat.not_lt.2 hpos)]
        -- Most operations go on to the next one from a state with the same loops.
        have honward : ∀ stop, env.Onward pos stop op → ∀ st' : State, st'.frames = st.frames →
            Alike kind (go next stop st') (go' next stop st') :=
          fun stop h st' hst' =>
            hcalls _ (.onward pc pos stop st.frames ⟨op, next, partner⟩ hop hpos h) st' hst'
        cases op with
        | finish => exact alike_matched pos st
        | branchEnd => exact honward pos rfl st rfl
        | branch =>
            refine alike_firstOf _ _ st (alikeWays_map _ _ _ st fun branch hbranch st' hst' => ?_)
            exact hcalls _ (.branch pc pos branch next partner _ hop hpos hbranch) st' hst'
        | literal word table => exact alike_test _ _ _ st fun h => honward _ ⟨h, rfl⟩ st rfl
        | set s => exact alike_test _ _ _ st fun h => honward _ ⟨h, rfl⟩ st rfl
        | anyChar => exact alike_test _ _ _ st fun h => honward _ ⟨h, rfl⟩ st rfl
        | anchor a => exact alike_test _ _ _ st fun h => honward _ ⟨h, rfl⟩ st rfl
        | cursor => exact honward pos rfl _ rfl
        | anyString =>
            refine alike_firstOf _ _ st (alikeWays_map _ _ _ st fun stop hstop st' hst' => ?_)
            exact honward stop ((mem_counts _ _ _ _).1 hstop) st' hst'
        | openGroup n => exact honward pos rfl _ rfl
        | closeGroup n => exact honward pos rfl _ (recovers_closeGroup st n pos).frames
        | quantifier q =>
            cases partner with
            | none =>
                refine hfault _ Fault.noConfusion fun hin => ?_
                rcases hin.quantifier q next none hop with ⟨loopAt, _, hpartner, _⟩
                exact absurd hpartner (by simp only [reduceCtorEq, not_false_eq_true])
            | some loopAt =>
                refine alike_quantifier hcalls hpos q next loopAt hop fun hnone => ?_
                refine hown _ Fault.noConfusion fun hin => ?_
                rcases hin.quantifier q next _ hop with ⟨loopAt', behind, hpartner, _, hloop⟩
                rw [← Option.some.inj hpartner, hnone] at hloop
                exact absurd hloop (by simp only [reduceCtorEq, not_false_eq_true])
        | loop =>
            cases partner with
            | none =>
                refine hfault _ Fault.noConfusion fun hin => ?_
                rcases hin.loop next none hop with ⟨frame, _, _, _, _, hpartner, _⟩
                exact absurd hpartner (by simp only [reduceCtorEq, not_false_eq_true])
            | some quantifierAt =>
                refine alike_loop hcalls hpos next quantifierAt hop (fun hno => ?_) (fun hno => ?_)
                all_goals
                  refine hown _ Fault.noConfusion fun hin => ?_
                  rcases hin.loop next _ hop with ⟨frame, below, q, first, hframes, hpartner, hat⟩
                · exact hno q first _ (Option.some.inj hpartner ▸ hat)
                · exact hno frame below hframes (Option.some.inj hpartner).symm

end Steps

/-- A step depends on the continuation at the places that it calls alone. -/
theorem step_congr (env : Env) (go go' : Continuation) (pc pos : Nat) (st : State)
    (h : ∀ c', Calls env ⟨pc, pos, st.frames⟩ c' → ∀ st' : State, st'.frames = c'.frames →
      go c'.pc c'.pos st' = go' c'.pc c'.pos st') :
    step env go pc pos st = step env go' pc pos st := by
  have halike : Alike (fun _ => True) (step env go pc pos st) (step env go' pc pos st) :=
    alike_step (fun c' hc' st' hst' => ⟨h c' hc' st' hst', fun _ _ => trivial⟩)
      (fun _ _ _ => trivial)
  exact halike.1

/-- A step ends with a fault only out of bounds, or because what it calls does. -/
theorem fault_of_step (env : Env) (go : Continuation) (pc pos : Nat) (st : State) (f : Fault)
    (h : step env go pc pos st = .fault f) :
    (f ≠ .exhausted ∧ ¬InBounds env ⟨pc, pos, st.frames⟩) ∨
      ∃ c', Calls env ⟨pc, pos, st.frames⟩ c' ∧
        ∃ st' : State, st'.frames = c'.frames ∧ go c'.pc c'.pos st' = .fault f := by
  -- A step is alike to itself, with the faults of what it calls and its own.
  have halike : Alike (fun f => (f ≠ .exhausted ∧ ¬InBounds env ⟨pc, pos, st.frames⟩) ∨
      ∃ c', Calls env ⟨pc, pos, st.frames⟩ c' ∧
        ∃ st' : State, st'.frames = c'.frames ∧ go c'.pc c'.pos st' = .fault f)
      (step env go pc pos st) (step env go pc pos st) :=
    alike_step (fun c' hc' st' hst' => ⟨rfl, fun f hf => Or.inr ⟨c', hc', st', hst', hf⟩⟩)
      (fun f hf hout => Or.inl ⟨hf, hout⟩)
  exact halike.2 f h

end Machine

end ByteRegex

import ByteRegex.Proofs.Machine.Refinement

/-!
# The Journal Has No Say

The machine writes to its journal and reads it only to roll back. How a run ends does not
depend on what the journal holds in the beginning: runs from two states that agree in
everything else fail together, or end at the same position with the same registers and
the same stack.

`Attempt.ending?` is what is compared, and nothing stands for a failure. A choice then
ends as the first of its ways that ends at all, from the state in which it arose. That
is how choices made by different means are compared.

## Main definitions

* `Attempt.ending?`: How an attempt ends, the journal aside.
* `Agree`: Two states differ in their journals at most.
* `Blind`: A continuation does not depend on the journal.

## Theorems

* `ending?_firstOf`: A choice ends as the first of its ways that ends.
* `ending?_againOrOut`, `ending?_repeatCounted`: So do the choices of a loop.
* `step_blind`, `run_blind`: Runs are blind to the journal.
-/

namespace ByteRegex

namespace Machine

/-- How an attempt ends, the journal aside: with a position, registers and a stack, or with
    a fault. A failed attempt has no ending. -/
def Attempt.ending? : Attempt → Option (Except Fault (Nat × Registers × List LoopFrame))
  | .matched stop st => some (.ok (stop, st.registers, st.frames))
  | .failed _ => none
  | .fault f => some (.error f)

/-- A choice ends as the first of its ways that ends, from the state in which it arose. -/
theorem ending?_firstOf (ways : List (State → Attempt)) (st : State)
    (h : ∀ way ∈ ways, Reverts way st) :
    (firstOf ways st).ending? = ways.findSome? fun way => (way st).ending? := by
  induction ways with
  | nil => rfl
  | cons way others ih =>
      have hothers := ih fun w hw => h w (List.mem_cons_of_mem _ hw)
      rw [firstOf_cons _ _ _ (h way List.mem_cons_self), List.findSome?_cons]
      cases way st with
      | failed later => exact hothers
      | matched stop later => rfl
      | fault f => rfl

-- The first of preferred items, and of one that is allowed or not.
theorem findSome?_preferred {α β : Type} (first : Bool) (xs ys : List α) (f : α → Option β) :
    (if first then xs ++ ys else ys ++ xs).findSome? f =
      if first then (xs.findSome? f).or (ys.findSome? f)
      else (ys.findSome? f).or (xs.findSome? f) := by
  cases first with
  | true => exact List.findSome?_append
  | false => exact List.findSome?_append

theorem findSome?_allowed {α β : Type} (allowed : Prop) [Decidable allowed] (x : α)
    (f : α → Option β) :
    (if allowed then [x] else []).findSome? f = if allowed then f x else none := by
  by_cases h : allowed
  · rw [if_pos h, if_pos h, List.findSome?_singleton]
  · rw [if_neg h, if_neg h, List.findSome?_nil]

section Choices

variable {go : Continuation} (hundoable : Undoable go)

include hundoable

-- The ways of a choice that go on somewhere else from the same state.
theorem ending?_firstOf_map {ι : Type} (items : List ι) (pc pos : ι → Nat) (st : State) :
    (firstOf (items.map fun x => go (pc x) (pos x)) st).ending? =
      items.findSome? fun x => (go (pc x) (pos x) st).ending? := by
  rw [ending?_firstOf _ _ (reverts_map hundoable items pc pos st), List.findSome?_map]
  rfl

-- Another iteration and the way out, one after the other.
theorem ending?_againOrOut (q : Quantifier) (pc next pos count : Nat)
    (below : List LoopFrame) (mayRepeat mayLeave : Bool) (st : State) :
    (againOrOut go q pc next pos count below mayRepeat mayLeave st).ending? =
      (let again := if mayRepeat then
          (go (pc + 1) pos { st with frames := ⟨pc, count, pos⟩ :: below }).ending? else none
       let out := if mayLeave then (go next pos { st with frames := below }).ending? else none
       if q.greedy then again.or out else out.or again) := by
  have hreverts := reverts_preferred q.greedy mayRepeat mayLeave _ _ st
    (reverts_withFrames hundoable (pc + 1) pos (⟨pc, count, pos⟩ :: below) st)
    (reverts_withFrames hundoable next pos below st)
  rw [againOrOut, ending?_firstOf _ st hreverts, findSome?_preferred, findSome?_allowed,
    findSome?_allowed]

-- The counts of a row of iterations.
theorem ending?_repeatCounted (env : Env) (body : List Operation) (width : Nat) (q : Quantifier)
    (next pos : Nat) (st : State) :
    (repeatCounted env go body width q next pos st).ending? =
      (counts q.greedy q.min (mostIterations env body width q pos)).findSome? fun k =>
        (go next (pos + k * width)
          (if k = 0 then st else recordGroups (pos + (k - 1) * width) st body)).ending? := by
  rw [repeatCounted_eq, ending?_firstOf _ st (reverts_counted hundoable _ body width next pos st),
    List.findSome?_map]
  rfl

end Choices

/-- Two states differ in their journals at most. -/
structure Agree (st st' : State) : Prop where
  registers : st.registers = st'.registers
  frames : st.frames = st'.frames

namespace Agree

variable {st st' : State}

theorem openGroup (h : Agree st st') (n : GroupNumber) (pos : Nat) :
    Agree (st.openGroup n pos) (st'.openGroup n pos) where
  registers := congrArg (·.openGroup n pos) h.registers
  frames := h.frames

theorem closeGroup (h : Agree st st') (n : GroupNumber) (pos : Nat) :
    Agree (st.closeGroup n pos) (st'.closeGroup n pos) where
  registers := by rw [State.closeGroup_registers, State.closeGroup_registers, h.registers]
  frames := by
    rw [(recovers_closeGroup st n pos).frames, (recovers_closeGroup st' n pos).frames, h.frames]

theorem recordCursor (h : Agree st st') (pos : Nat) :
    Agree (st.recordCursor pos) (st'.recordCursor pos) where
  registers := congrArg (·.recordCursor pos) h.registers
  frames := h.frames

theorem counted (h : Agree st st') (body : List Operation) (pos k : Nat) :
    Agree (if k = 0 then st else recordGroups pos st body)
      (if k = 0 then st' else recordGroups pos st' body) where
  registers := by
    by_cases hk : k = 0
    · rw [if_pos hk, if_pos hk, h.registers]
    · rw [if_neg hk, if_neg hk, recordGroups_registers, recordGroups_registers, h.registers]
  frames := by
    rw [(recovers_counted body st pos k).frames, (recovers_counted body st' pos k).frames, h.frames]

theorem withFrames (h : Agree st st') (frames : List LoopFrame) :
    Agree { st with frames := frames } { st' with frames := frames } where
  registers := h.registers
  frames := rfl

end Agree

/-- How the machine goes on does not depend on the journal. -/
def Blind (go : Continuation) : Prop :=
  ∀ pc pos st st', Agree st st' → (go pc pos st).ending? = (go pc pos st').ending?

section Steps

variable {go : Continuation} (hgo : Blind go) (hundoable : Undoable go)

include hgo

-- A test goes on or fails on the spot.
theorem test_blind (passed : Bool) (pc pos : Nat) (st st' : State) (h : Agree st st') :
    (if passed then go pc pos st else .failed st).ending? =
      (if passed then go pc pos st' else .failed st').ending? := by
  cases passed with
  | true => exact hgo pc pos st st' h
  | false => rfl

include hundoable

theorem firstOf_map_blind {ι : Type} (items : List ι) (pc pos : ι → Nat) (st st' : State)
    (h : Agree st st') :
    (firstOf (items.map fun x => go (pc x) (pos x)) st).ending? =
      (firstOf (items.map fun x => go (pc x) (pos x)) st').ending? := by
  rw [ending?_firstOf_map hundoable, ending?_firstOf_map hundoable]
  exact congrArg (items.findSome? ·) (funext fun x => hgo _ _ st st' h)

theorem againOrOut_blind (q : Quantifier) (pc next pos count : Nat) (below : List LoopFrame)
    (mayRepeat mayLeave : Bool) (st st' : State) (h : Agree st st') :
    (againOrOut go q pc next pos count below mayRepeat mayLeave st).ending? =
      (againOrOut go q pc next pos count below mayRepeat mayLeave st').ending? := by
  rw [ending?_againOrOut hundoable, ending?_againOrOut hundoable,
    hgo _ _ _ _ (h.withFrames (⟨pc, count, pos⟩ :: below)), hgo _ _ _ _ (h.withFrames below)]

theorem repeatCounted_blind (env : Env) (body : List Operation) (width : Nat) (q : Quantifier)
    (next pos : Nat) (st st' : State) (h : Agree st st') :
    (repeatCounted env go body width q next pos st).ending? =
      (repeatCounted env go body width q next pos st').ending? := by
  rw [ending?_repeatCounted hundoable, ending?_repeatCounted hundoable]
  exact congrArg (List.findSome? · _) (funext fun k => hgo _ _ _ _ (h.counted body _ k))

theorem stepQuantifier_blind (env : Env) (q : Quantifier) (pc loopAt pos : Nat)
    (st st' : State) (h : Agree st st') :
    (stepQuantifier env go q pc loopAt pos st).ending? =
      (stepQuantifier env go q pc loopAt pos st').ending? := by
  unfold stepQuantifier
  cases env.program.at? loopAt with
  | none => rfl
  | some loop =>
      dsimp only
      cases countedWidth? (bodyOf env.program (pc + 1) loopAt) with
      | some width => exact repeatCounted_blind hgo hundoable env _ width q _ pos st st' h
      | none =>
          dsimp only
          rw [enterLoop, enterLoop, h.frames]
          exact againOrOut_blind hgo hundoable q pc _ pos _ _ _ _ st st' h

theorem stepLoop_blind (env : Env) (pc quantifierAt next pos : Nat) (st st' : State)
    (h : Agree st st') :
    (stepLoop env go pc quantifierAt next pos st).ending? =
      (stepLoop env go pc quantifierAt next pos st').ending? := by
  unfold stepLoop
  rw [h.frames]
  split
  · split
    · split
      · exact againOrOut_blind hgo hundoable _ _ next pos _ _ _ _ st st' h
      · rfl
    · rfl
  · rfl

/-- A step is blind to the journal if the rest of the run is. -/
theorem step_blind (env : Env) : Blind (step env go) := by
  intro pc pos st st' h
  unfold step
  cases env.program.at? pc with
  | none => rfl
  | some x =>
      rcases x with ⟨op, next, partner⟩
      by_cases hpos : env.text.size < pos
      · simp only [if_pos hpos]
      · simp only [if_neg hpos]
        cases op with
        | finish => simp only [Attempt.ending?, h.registers, h.frames]
        | branchEnd => exact hgo _ _ _ _ h
        | branch => exact firstOf_map_blind hgo hundoable _ (· + 1) (fun _ => pos) st st' h
        | literal word table => exact test_blind hgo _ _ _ st st' h
        | set s => exact test_blind hgo _ _ _ st st' h
        | anyChar => exact test_blind hgo _ _ _ st st' h
        | anchor a => exact test_blind hgo _ _ _ st st' h
        | cursor => exact hgo _ _ _ _ (h.recordCursor pos)
        | anyString => exact firstOf_map_blind hgo hundoable _ (fun _ => next) id st st' h
        | openGroup n => exact hgo _ _ _ _ (h.openGroup n pos)
        | closeGroup n => exact hgo _ _ _ _ (h.closeGroup n pos)
        | quantifier q =>
            cases partner with
            | none => rfl
            | some loopAt => exact stepQuantifier_blind hgo hundoable env q pc loopAt pos st st' h
        | loop =>
            cases partner with
            | none => rfl
            | some quantifierAt =>
                exact stepLoop_blind hgo hundoable env pc quantifierAt next pos st st' h

end Steps

/-- How a run ends does not depend on the journal, by induction on the fuel. -/
theorem run_blind (env : Env) (fuel : Nat) : Blind (run env fuel) := by
  induction fuel with
  | zero => exact fun _ _ _ _ _ => rfl
  | succ fuel ih => exact step_blind ih (run_recovers env fuel) env

end Machine

end ByteRegex

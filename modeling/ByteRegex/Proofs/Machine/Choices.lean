import ByteRegex.Machine.Run

/-!
# Ways in Order

Lists of the ways in which the machine can go on. Two kinds of order occur. At a
quantifier there are at most two ways, another iteration and the way out, each of
which may be closed; the quantifier decides which comes first. At an any-string run
and at a counted body there is a way for every number in an interval, from the
preferred end to the other.

The two meet in `counts_preferred`: the numbers from an interval are those from the
interval without its lowest, and the lowest on the side that is not preferred. So
the counts of a row of iterations are ordered as if the iterations were gone through.

## Main definitions

* `mostIterations`: The longest row of iterations of a counted body.

## Theorems

* `mem_preferred`, `mem_allowed`: Which ways there are at a quantifier.
* `mem_counts`: Which numbers are counted.
* `counts_preferred`: The lowest count comes on the side that is not preferred.
* `repeatCounted_eq`: Repeating a counted body is a choice between counts.
-/

namespace ByteRegex

namespace Machine

/-- Which of two lists is preferred does not matter for what is on them. -/
theorem mem_preferred {α : Type} (first : Bool) (xs ys : List α) (x : α) :
    x ∈ (if first then xs ++ ys else ys ++ xs) ↔ x ∈ xs ∨ x ∈ ys := by
  cases first with
  | true => exact List.mem_append
  | false => exact List.mem_append.trans Or.comm

theorem mem_allowed {α : Type} (allowed : Bool) (a x : α) :
    x ∈ (if allowed then [a] else []) ↔ allowed = true ∧ x = a := by
  cases allowed with
  | true => exact List.mem_singleton.trans (by rw [eq_self, true_and])
  | false => exact ⟨fun h => absurd h List.not_mem_nil, fun h => absurd h.1 Bool.false_ne_true⟩

theorem mem_counts (longestFirst : Bool) (low high k : Nat) :
    k ∈ counts longestFirst low high ↔ low ≤ k ∧ k ≤ high := by
  have hrange : k ∈ List.range' low (high + 1 - low) ↔ low ≤ k ∧ k ≤ high := by
    rw [List.mem_range'_1]
    omega
  cases longestFirst with
  | true => exact List.mem_reverse.trans hrange
  | false => exact hrange

theorem le_iterationsFrom (env : Env) (body : List Operation) (width pos done limit : Nat) :
    done ≤ iterationsFrom env body width pos done limit := by
  induction limit generalizing done with
  | zero => exact Nat.le_refl _
  | succ limit ih =>
      rw [iterationsFrom]
      split
      · exact Nat.le_of_succ_le (ih (done + 1))
      · exact Nat.le_refl _

theorem counts_of_lt (longestFirst : Bool) (low high : Nat) (h : high < low) :
    counts longestFirst low high = [] := by
  rw [counts, Nat.sub_eq_zero_of_le h]
  cases longestFirst <;> rfl

-- The lowest count stands at the end that is not preferred.
theorem counts_low (longestFirst : Bool) (low high : Nat) (h : low ≤ high) :
    counts longestFirst low high =
      if longestFirst then counts longestFirst (low + 1) high ++ [low]
      else low :: counts longestFirst (low + 1) high := by
  have hrange : List.range' low (high + 1 - low) =
      low :: List.range' (low + 1) (high + 1 - (low + 1)) := by
    rw [show high + 1 - low = (high + 1 - (low + 1)) + 1 by omega]
    rfl
  rw [counts, counts, hrange]
  cases longestFirst with
  | true => exact List.reverse_cons
  | false => rfl

/-- To the counts behind one more iteration the present one is added at the end that
    is not preferred, if it may be left at all. -/
theorem counts_preferred {α : Type} (f : Nat → α) (longestFirst : Bool) (done low most : Nat)
    (h : done ≤ most) :
    (let again := (counts longestFirst (max (done + 1) low) most).map f
      let out := if low ≤ done then [f done] else []
      if longestFirst then again ++ out else out ++ again) =
      (counts longestFirst (max done low) most).map f := by
  by_cases hlow : low ≤ done
  · rw [Nat.max_eq_left hlow, Nat.max_eq_left (Nat.le_succ_of_le hlow), if_pos hlow,
      counts_low longestFirst done most h]
    cases longestFirst with
    | true =>
        simp only [if_true, List.map_append, List.map_cons, List.map_nil, Nat.succ_eq_add_one]
    | false => rfl
  · rw [Nat.max_eq_right (Nat.le_of_not_le hlow), Nat.max_eq_right (by omega), if_neg hlow]
    simp only [List.append_nil, List.nil_append, ite_self]

/-- The longest row of iterations of a counted body from a position, as far as the
    bounds and the text allow. -/
def mostIterations (env : Env) (body : List Operation) (width : Nat) (q : Quantifier)
    (pos : Nat) : Nat :=
  iterationsFrom env body width pos 0
    (match q.max with
      | some m => min m (env.text.size - pos)
      | none => env.text.size - pos)

/-- Repeating a counted body is a choice between the counts up to the longest row, of
    which there are none if the row is too short. -/
theorem repeatCounted_eq (env : Env) (go : Continuation) (body : List Operation) (width : Nat)
    (q : Quantifier) (next pos : Nat) (st : State) :
    repeatCounted env go body width q next pos st =
      firstOf ((counts q.greedy q.min (mostIterations env body width q pos)).map fun k st =>
        go next (pos + k * width)
          (if k = 0 then st else recordGroups (pos + (k - 1) * width) st body)) st := by
  by_cases hmost : mostIterations env body width q pos < q.min
  · rw [counts_of_lt _ _ _ hmost]
    exact if_pos hmost
  · exact if_neg hmost

end Machine

end ByteRegex

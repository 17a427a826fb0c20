import ByteRegex.Literal.ByteScan

/-!
# Exact Scans

A scan for a byte is exact when it finds the first index of the byte, or the last one,
and nothing only where there is none. `FirstFrom` and `LastUpTo` say so of any condition
on positions; the searches for a word and those for the start of a match are measured by
the same words.

A match looks for line feeds, and a search for the words with which a match begins. Both
take their scans as they come, as long as they are exact.

## Main definitions

* `FirstFrom`: The first position from one on where a condition holds.
* `LastUpTo`: The last position up to one where a condition holds.
* `ByteScan.Exact`: Scans that find what they say they do.
* `ExactScan`: Such scans.
* `ExactScan.walk`: Looking at one byte after the other.

## Theorems

* `walk_exact`: Looking at one byte after the other is exact.
-/

namespace ByteRegex

/-- The result is the first position from `s` on where a condition holds, if there is
    one. -/
def FirstFrom (P : Nat → Prop) (s : Nat) (result : Option Nat) : Prop :=
  match result with
  | some t => s ≤ t ∧ P t ∧ ∀ u, s ≤ u → u < t → ¬P u
  | none => ∀ u, s ≤ u → ¬P u

/-- The result is the last position up to `s` where a condition holds, if there is
    one. -/
def LastUpTo (P : Nat → Prop) (s : Nat) (result : Option Nat) : Prop :=
  match result with
  | some t => t ≤ s ∧ P t ∧ ∀ u, t < u → u ≤ s → ¬P u
  | none => ∀ u, u ≤ s → ¬P u

-- The condition may be replaced by one that agrees with it where it is asked for.
theorem FirstFrom.congr (P Q : Nat → Prop) (s : Nat) (result : Option Nat)
    (hPQ : ∀ u, s ≤ u → (P u ↔ Q u)) (h : FirstFrom P s result) : FirstFrom Q s result := by
  cases result with
  | none => exact fun u hu hq => h u hu ((hPQ u hu).2 hq)
  | some t =>
      exact ⟨h.1, (hPQ t h.1).1 h.2.1, fun u hu hut hq => h.2.2 u hu hut ((hPQ u hu).2 hq)⟩

theorem LastUpTo.congr (P Q : Nat → Prop) (s : Nat) (result : Option Nat)
    (hPQ : ∀ u, u ≤ s → (P u ↔ Q u)) (h : LastUpTo P s result) : LastUpTo Q s result := by
  cases result with
  | none => exact fun u hu hq => h u hu ((hPQ u hu).2 hq)
  | some t =>
      exact ⟨h.1, (hPQ t h.1).1 h.2.1, fun u htu hu hq => h.2.2 u htu hu ((hPQ u hu).2 hq)⟩

/-- Scans that find the first and the last index of the bytes they are asked for. -/
structure ByteScan.Exact (scan : ByteScan) : Prop where
  first : ∀ c hay, FirstFrom (fun i => hay[i]? = some c) 0 (scan.first? c hay)
  firstOfTwo : ∀ c d hay,
    FirstFrom (fun i => hay[i]? = some c ∨ hay[i]? = some d) 0 (scan.firstOfTwo? c d hay)
  last : ∀ c hay, LastUpTo (fun i => hay[i]? = some c) hay.size (scan.last? c hay)
  lastOfTwo : ∀ c d hay,
    LastUpTo (fun i => hay[i]? = some c ∨ hay[i]? = some d) hay.size (scan.lastOfTwo? c d hay)

namespace ByteScan

-- The first index whose byte passes a test.
theorem findIdx?_first (test : UInt8 → Bool) (hay : Bytes) :
    FirstFrom (fun i => (hay[i]?).any test = true) 0 (hay.findIdx? test) := by
  cases h : hay.findIdx? test with
  | none =>
      intro u _ hu
      rcases (Option.any_eq_true _ _).1 hu with ⟨c, hc, htest⟩
      have hmiss := Array.findIdx?_eq_none_iff.1 h c (Array.mem_of_getElem? hc)
      exact Bool.false_ne_true (hmiss.symm.trans htest)
  | some t =>
      rcases Array.findIdx?_eq_some_iff_getElem.1 h with ⟨ht, htest, hbefore⟩
      refine ⟨Nat.zero_le t, ?_, fun u _ hut hu => hbefore u hut ?_⟩
      · simp only [Array.getElem?_eq_getElem ht, Option.any_some, htest]
      · simp only [Array.getElem?_eq_getElem (Nat.lt_trans hut ht), Option.any_some] at hu
        exact hu

-- The last one, by induction on the bound.
theorem lastIndexBelow?_last (test : UInt8 → Bool) (hay : Bytes) (bound : Nat) :
    LastUpTo (fun i => i < bound ∧ (hay[i]?).any test = true) bound
      (lastIndexBelow? test hay bound) := by
  induction bound with
  | zero => exact fun u _ hu => Nat.not_lt_zero u hu.1
  | succ i ih =>
      rw [lastIndexBelow?]
      by_cases hhere : (hay[i]?).any test = true
      · rw [if_pos hhere]
        exact ⟨Nat.le_succ i, ⟨Nat.lt_succ_self i, hhere⟩, fun u hiu _ hu => by omega⟩
      · rw [if_neg hhere]
        have hbelow : ∀ u, u < i + 1 ∧ (hay[u]?).any test = true →
            u < i ∧ (hay[u]?).any test = true := by
          rintro u ⟨hu, htest⟩
          refine ⟨Nat.lt_of_le_of_ne (Nat.le_of_lt_succ hu) (fun hsame => ?_), htest⟩
          exact hhere (hsame ▸ htest)
        cases hresult : lastIndexBelow? test hay i with
        | none =>
            rw [hresult] at ih
            intro u _ hu
            have hu := hbelow u hu
            exact ih u (Nat.le_of_lt hu.1) hu
        | some t =>
            rw [hresult] at ih
            refine ⟨Nat.le_succ_of_le ih.1, ⟨Nat.lt_succ_of_lt ih.2.1.1, ih.2.1.2⟩, ?_⟩
            intro u htu _ hu
            have hu := hbelow u hu
            exact ih.2.2 u htu (Nat.le_of_lt hu.1) hu

-- A byte of the stretch lies below its end.
theorem any_size_iff (test : UInt8 → Bool) (hay : Bytes) (i : Nat) :
    (i < hay.size ∧ (hay[i]?).any test = true) ↔ (hay[i]?).any test = true := by
  refine and_iff_right_of_imp (fun h => ?_)
  rcases (Option.any_eq_true _ _).1 h with ⟨c, hc, _⟩
  exact (Array.getElem?_eq_some_iff.1 hc).1

theorem any_is_iff (b : Option UInt8) (c : UInt8) : b.any (· == c) = true ↔ b = some c := by
  cases b with
  | none => simp only [Option.any_none, Bool.false_eq_true, reduceCtorEq]
  | some x => rw [Option.any_some, beq_iff_eq, Option.some.injEq]

theorem any_isOneOf_iff (b : Option UInt8) (c d : UInt8) :
    b.any (fun x => x == c || x == d) = true ↔ b = some c ∨ b = some d := by
  cases b with
  | none => simp only [Option.any_none, Bool.false_eq_true, reduceCtorEq, or_self]
  | some x => rw [Option.any_some, Bool.or_eq_true, beq_iff_eq, beq_iff_eq, Option.some.injEq,
      Option.some.injEq]

/-- Looking at one byte after the other is exact. -/
theorem walk_exact : walk.Exact where
  first := fun c hay => (findIdx?_first _ hay).congr _ _ _ _ fun _ _ => any_is_iff _ c
  firstOfTwo := fun c d hay =>
    (findIdx?_first _ hay).congr _ _ _ _ fun _ _ => any_isOneOf_iff _ c d
  last := fun c hay => (lastIndexBelow?_last _ hay hay.size).congr _ _ _ _ fun u _ =>
    (any_size_iff _ hay u).trans (any_is_iff _ c)
  lastOfTwo := fun c d hay => (lastIndexBelow?_last _ hay hay.size).congr _ _ _ _ fun u _ =>
    (any_size_iff _ hay u).trans (any_isOneOf_iff _ c d)

end ByteScan

/-- Scans that find what they say they do. -/
structure ExactScan extends ByteScan where
  exact : toByteScan.Exact

/-- Looking at one byte after the other. -/
def ExactScan.walk : ExactScan := ⟨ByteScan.walk, ByteScan.walk_exact⟩

end ByteRegex

import ByteRegex.Literal.ExactScan
import ByteRegex.Literal.Occurrence

/-!
# What Exact Scans Find

The searches for a word are shown to be exact for all exact scans, and this module is
all they have to know of them. A scan looks at a stretch of the text, so what it finds is
first moved to where the stretch lies. It finds the bytes that can begin the word: the
byte in front of the word or, where letter case is ignored, the partner of that. No
occurrence begins with any other.

## Main definitions

* `Heads`: A byte that can begin the word stands at a position.

## Theorems

* `FirstFrom.unique`: There is but one first position.
* `first?_rest`, `last?_front`: What exact scans find in a stretch of the text.
* `heads_of_occurs`: An occurrence begins with a byte that can begin the word.
* `firstHead?_first`, `lastHead?_last`: Exact scans find the nearest such byte.
-/

namespace ByteRegex

-- A position where the condition holds is the nearest to itself.
theorem firstFrom_self (P : Nat → Prop) (s : Nat) (h : P s) : FirstFrom P s (some s) :=
  ⟨Nat.le_refl s, h, fun _ hu hlt => absurd hlt (Nat.not_lt.2 hu)⟩

theorem lastUpTo_self (P : Nat → Prop) (s : Nat) (h : P s) : LastUpTo P s (some s) :=
  ⟨Nat.le_refl s, h, fun _ hu hle => absurd hle (Nat.not_le.2 hu)⟩

-- Positions where the condition fails may be jumped over.
theorem FirstFrom.skip (P : Nat → Prop) (s s' : Nat) (result : Option Nat) (hle : s ≤ s')
    (hnone : ∀ u, s ≤ u → u < s' → ¬P u) (h : FirstFrom P s' result) :
    FirstFrom P s result := by
  cases result with
  | none =>
      intro u hu
      by_cases hus : u < s'
      · exact hnone u hu hus
      · exact h u (Nat.le_of_not_lt hus)
  | some t =>
      refine ⟨Nat.le_trans hle h.1, h.2.1, fun u hu hut => ?_⟩
      by_cases hus : u < s'
      · exact hnone u hu hus
      · exact h.2.2 u (Nat.le_of_not_lt hus) hut

theorem LastUpTo.skip (P : Nat → Prop) (s s' : Nat) (result : Option Nat) (hle : s' ≤ s)
    (hnone : ∀ u, s' < u → u ≤ s → ¬P u) (h : LastUpTo P s' result) :
    LastUpTo P s result := by
  cases result with
  | none =>
      intro u hu
      by_cases hus : s' < u
      · exact hnone u hus hu
      · exact h u (Nat.le_of_not_lt hus)
  | some t =>
      refine ⟨Nat.le_trans h.1 hle, h.2.1, fun u htu hu => ?_⟩
      by_cases hus : s' < u
      · exact hnone u hus hu
      · exact h.2.2 u htu (Nat.le_of_not_lt hus)

-- Positions found in a stretch of the text that begins at `s`.
theorem FirstFrom.shift (P Q : Nat → Prop) (s : Nat) (result : Option Nat)
    (hPQ : ∀ i, Q i ↔ P (s + i)) (h : FirstFrom Q 0 result) :
    FirstFrom P s (result.map (s + ·)) := by
  cases result with
  | none =>
      intro u hu hp
      rw [← Nat.add_sub_cancel' hu, ← hPQ] at hp
      exact h _ (Nat.zero_le _) hp
  | some t =>
      refine ⟨Nat.le_add_right s t, (hPQ t).1 h.2.1, fun u hu (hut : u < s + t) hp => ?_⟩
      rw [← Nat.add_sub_cancel' hu, ← hPQ] at hp
      exact h.2.2 _ (Nat.zero_le _) (Nat.sub_lt_left_of_lt_add hu hut) hp

-- There is but one result.
theorem FirstFrom.eq_some_iff (P : Nat → Prop) (s : Nat) (result : Option Nat)
    (h : FirstFrom P s result) (t : Nat) :
    result = some t ↔ s ≤ t ∧ P t ∧ ∀ u, s ≤ u → u < t → ¬P u := by
  refine ⟨fun ht => by rwa [ht] at h, fun ⟨hle, hp, hbefore⟩ => ?_⟩
  cases result with
  | none => exact absurd hp (h t hle)
  | some t' =>
      rcases Nat.lt_trichotomy t t' with hlt | hsame | hgt
      · exact absurd hp (h.2.2 t hle hlt)
      · rw [hsame]
      · exact absurd h.2.1 (hbefore t' h.1 hgt)

theorem FirstFrom.eq_none_iff (P : Nat → Prop) (s : Nat) (result : Option Nat)
    (h : FirstFrom P s result) : result = none ↔ ¬∃ u, s ≤ u ∧ P u := by
  cases result with
  | none => exact iff_of_true rfl fun ⟨u, hu, hp⟩ => h u hu hp
  | some t =>
      refine iff_of_false (by simp only [reduceCtorEq, not_false_eq_true]) (not_not_intro ?_)
      exact ⟨t, h.1, h.2.1⟩

theorem FirstFrom.unique (P : Nat → Prop) (s : Nat) (result result' : Option Nat)
    (h : FirstFrom P s result) (h' : FirstFrom P s result') : result = result' :=
  Option.ext fun t => (h.eq_some_iff P s _ t).trans (h'.eq_some_iff P s _ t).symm

theorem LastUpTo.eq_some_iff (P : Nat → Prop) (s : Nat) (result : Option Nat)
    (h : LastUpTo P s result) (t : Nat) :
    result = some t ↔ t ≤ s ∧ P t ∧ ∀ u, t < u → u ≤ s → ¬P u := by
  refine ⟨fun ht => by rwa [ht] at h, fun ⟨hle, hp, hbehind⟩ => ?_⟩
  cases result with
  | none => exact absurd hp (h t hle)
  | some t' =>
      rcases Nat.lt_trichotomy t t' with hlt | hsame | hgt
      · exact absurd h.2.1 (hbehind t' hlt h.1)
      · rw [hsame]
      · exact absurd hp (h.2.2 t hgt hle)

theorem LastUpTo.eq_none_iff (P : Nat → Prop) (s : Nat) (result : Option Nat)
    (h : LastUpTo P s result) : result = none ↔ ¬∃ u, u ≤ s ∧ P u := by
  cases result with
  | none => exact iff_of_true rfl fun ⟨u, hu, hp⟩ => h u hu hp
  | some t =>
      refine iff_of_false (by simp only [reduceCtorEq, not_false_eq_true]) (not_not_intro ?_)
      exact ⟨t, h.1, h.2.1⟩

-- The bytes of what is left of a text, and of its beginning.
theorem getElem?_rest (text : Bytes) (s i : Nat) :
    (text.extract s text.size)[i]? = text[s + i]? := by
  by_cases hi : s + i < text.size
  · rw [Array.getElem?_extract_of_lt (by omega), Array.getElem?_eq_getElem hi]
  · rw [Array.getElem?_eq_none (by rw [Array.size_extract]; omega),
      Array.getElem?_eq_none (Nat.le_of_not_lt hi)]

theorem getElem?_front (text : Bytes) (stop i : Nat) (c : UInt8) (hstop : stop ≤ text.size) :
    (text.extract 0 stop)[i]? = some c ↔ i < stop ∧ text[i]? = some c := by
  by_cases hi : i < stop
  · rw [Array.getElem?_extract, if_pos (by omega), Nat.zero_add]
    exact (and_iff_right hi).symm
  · rw [Array.getElem?_eq_none (by rw [Array.size_extract]; omega)]
    exact ⟨fun h => absurd h (by simp only [reduceCtorEq, not_false_eq_true]),
      fun h => absurd h.1 hi⟩

theorem size_front (text : Bytes) (stop : Nat) (hstop : stop ≤ text.size) :
    (text.extract 0 stop).size = stop := by
  rw [Array.size_extract, Nat.min_eq_left hstop, Nat.sub_zero]

section Stretches

variable {scan : ByteScan} (hscan : scan.Exact) (c d : UInt8) (text : Bytes)

include hscan

/-- In what is left of a text from `s` on an exact scan finds the first byte of its kind. -/
theorem first?_rest (s : Nat) : FirstFrom (fun u => text[u]? = some c) s
    ((scan.first? c (text.extract s text.size)).map (s + ·)) :=
  FirstFrom.shift _ _ s _ (fun i => by rw [getElem?_rest]) (hscan.first c _)

theorem firstOfTwo?_rest (s : Nat) :
    FirstFrom (fun u => text[u]? = some c ∨ text[u]? = some d) s
      ((scan.firstOfTwo? c d (text.extract s text.size)).map (s + ·)) :=
  FirstFrom.shift _ _ s _ (fun i => by rw [getElem?_rest]) (hscan.firstOfTwo c d _)

/-- In the first `stop` bytes of a text it finds the last one. -/
theorem last?_front (stop : Nat) (hstop : stop ≤ text.size) :
    LastUpTo (fun u => u < stop ∧ text[u]? = some c) stop
      (scan.last? c (text.extract 0 stop)) := by
  have hlast := hscan.last c (text.extract 0 stop)
  rw [size_front text stop hstop] at hlast
  exact hlast.congr _ _ _ _ fun u _ => getElem?_front text stop u c hstop

theorem lastOfTwo?_front (stop : Nat) (hstop : stop ≤ text.size) :
    LastUpTo (fun u => u < stop ∧ (text[u]? = some c ∨ text[u]? = some d)) stop
      (scan.lastOfTwo? c d (text.extract 0 stop)) := by
  have hlast := hscan.lastOfTwo c d (text.extract 0 stop)
  rw [size_front text stop hstop] at hlast
  refine hlast.congr _ _ _ _ fun u _ => ?_
  rw [getElem?_front text stop u c hstop, getElem?_front text stop u d hstop, and_or_left]

end Stretches

namespace Literal

/-- A byte with which a word can begin stands at a position of the text, when the word has
    the byte `head` in front. -/
def Heads (ignoreCase : Bool) (head : UInt8) (text : Bytes) (u : Nat) : Prop :=
  text[u]? = some head ∨ (ignoreCase = true ∧ text[u]? = some (Byte.otherCase head))

/-- Every occurrence begins with such a byte. -/
theorem heads_of_occurs (ignoreCase : Bool) (word text : Bytes) (head : UInt8) (u : Nat)
    (hhead : word[0]? = some head) (h : Occurs ignoreCase word text u) :
    Heads ignoreCase head text u := by
  have hpos : 0 < word.size := (Array.getElem?_eq_some_iff.1 hhead).1
  have hbyte := h.2 0 hpos
  rw [Nat.add_zero, hhead] at hbyte
  rcases Option.map_eq_some_iff.1 hbyte with ⟨c, hc, hcanonical⟩
  rw [Heads, hc, Option.some.injEq, Option.some.injEq]
  cases ignoreCase with
  | false => exact Or.inl hcanonical
  | true =>
      -- Folding leaves the byte alone or replaces it by its partner.
      have hfold : Byte.fold c = head := hcanonical
      rcases Byte.fold_eq_or c with hsame | hother
      · exact Or.inl (hsame.symm.trans hfold)
      · refine Or.inr ⟨rfl, ?_⟩
        rw [← hfold, hother, Byte.otherCase_otherCase]

section Heads

variable (scan : ByteScan) (hscan : scan.Exact) (ignoreCase : Bool) (head : UInt8) (text : Bytes)

include hscan

/-- In what is left of the text from `s` on an exact scan finds the first byte that can
    begin the word. -/
theorem firstHead?_first (s : Nat) :
    FirstFrom (Heads ignoreCase head text) s
      ((scan.firstHead? ignoreCase head (text.extract s text.size)).map (s + ·)) := by
  rw [ByteScan.firstHead?]
  cases ignoreCase with
  | false =>
      refine (first?_rest hscan head text s).congr _ _ _ _ fun u _ => ?_
      simp only [Heads, Bool.false_eq_true, false_and, or_false]
  | true =>
      refine (firstOfTwo?_rest hscan head (Byte.otherCase head) text s).congr _ _ _ _ fun u _ => ?_
      simp only [Heads, true_and]

/-- In the first `stop` bytes of the text it finds the last one. -/
theorem lastHead?_last (stop : Nat) (hstop : stop ≤ text.size) :
    LastUpTo (fun u => u < stop ∧ Heads ignoreCase head text u) stop
      (scan.lastHead? ignoreCase head (text.extract 0 stop)) := by
  rw [ByteScan.lastHead?]
  cases ignoreCase with
  | false =>
      refine (last?_front hscan head text stop hstop).congr _ _ _ _ fun u _ => ?_
      simp only [Heads, Bool.false_eq_true, false_and, or_false]
  | true =>
      refine (lastOfTwo?_front hscan head (Byte.otherCase head) text stop hstop).congr _ _ _ _
        fun u _ => ?_
      simp only [Heads, true_and]

end Heads

end Literal

end ByteRegex

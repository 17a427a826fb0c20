import ByteRegex.Proofs.Literal.Scanning
import ByteRegex.Search.Start

/-!
# Lines and Positions

Facts on the tests at a position that do not depend on a program. A test that
passes has looked at bytes that exist, so it leads to a position in the text. An exact
scan finds the end of a line at the first line feed, or at the end of the text if there
is none; so between a position and the end of its line there is no line feed.

## Theorems

* `byteIs_lt`, `occursAt_le`: A test that passes has looked at bytes of the text.
* `any_lineFeed_iff`: What it is to find a line feed.
* `lineEndFrom_first`: A line ends at the nearest line feed or at the end of the text.
* `lineEndFrom_le`: The end of a line is in the text.
* `ne_lineFeed_of_lt_lineEndFrom`: There is no line feed before the end of a line.
* `lineFeed_at_lineEndFrom`: The end of a line is at a line feed, unless it is the
  end of the text.
* `crosses_iff`: A stretch of the text crosses a line if it holds a line feed.
-/

namespace ByteRegex

namespace Machine

/-- A byte that passes a test exists. -/
theorem byteIs_lt (env : Env) (pos : Nat) (test : UInt8 → Bool)
    (h : env.byteIs pos test = true) : pos + 1 ≤ env.text.size := by
  by_cases hpos : pos < env.text.size
  · exact hpos
  · rw [Env.byteIs, Array.getElem?_eq_none (Nat.le_of_not_lt hpos)] at h
    exact absurd h Bool.false_ne_true

/-- A word that stands in the text ends in it. -/
theorem occursAt_le (ignoreCase : Bool) (word text : Bytes) (pos : Nat)
    (h : Literal.occursAt ignoreCase word text pos = true) : pos + word.size ≤ text.size := by
  rw [Literal.occursAt, Bool.and_eq_true, decide_eq_true_iff] at h
  exact h.1

/-- A byte that is found and is a line feed. -/
theorem any_lineFeed_iff (c : Option UInt8) :
    c.any (· == Byte.lineFeed) = true ↔ c = some Byte.lineFeed := by
  rw [Option.any_eq_true]
  constructor
  · rintro ⟨d, hd, heq⟩
    rw [hd, eq_of_beq heq]
  · exact fun h => ⟨_, h, beq_self_eq_true _⟩

section Lines

variable (scan : ExactScan) (text : Bytes) (pos : Nat)

/-- A line ends at the nearest line feed, or at the end of the text. -/
theorem lineEndFrom_first (h : pos ≤ text.size) :
    FirstFrom (fun u => text[u]? = some Byte.lineFeed ∨ u = text.size) pos
      (some (Env.lineEndFrom scan text pos)) := by
  have hfirst := first?_rest scan.exact Byte.lineFeed text pos
  rw [Env.lineEndFrom]
  cases hfound : scan.first? Byte.lineFeed (text.extract pos text.size) with
  | none =>
      rw [hfound] at hfirst
      have hend : pos + (text.extract pos text.size).size = text.size := by
        rw [Array.size_extract, Nat.min_self, Nat.add_sub_cancel' h]
      rw [Option.getD_none, hend]
      exact ⟨h, Or.inr rfl, fun u hu hlt hline => hline.elim (hfirst u hu) (Nat.ne_of_lt hlt)⟩
  | some n =>
      rw [hfound] at hfirst
      have hlt := (Array.getElem?_eq_some_iff.1 hfirst.2.1).1
      exact ⟨hfirst.1, Or.inl hfirst.2.1, fun u hu hun hline =>
        hline.elim (hfirst.2.2 u hu hun) (Nat.ne_of_lt (Nat.lt_trans hun hlt))⟩

theorem le_lineEndFrom : pos ≤ Env.lineEndFrom scan text pos := Nat.le_add_right _ _

theorem lineEndFrom_le (h : pos ≤ text.size) : Env.lineEndFrom scan text pos ≤ text.size := by
  rcases (lineEndFrom_first scan text pos h).2.1 with hfeed | hend
  · exact Nat.le_of_lt (Array.getElem?_eq_some_iff.1 hfeed).1
  · exact Nat.le_of_eq hend

theorem ne_lineFeed_of_lt_lineEndFrom (h : pos ≤ text.size) (i : Nat) (hpos : pos ≤ i)
    (hi : i < Env.lineEndFrom scan text pos) : text[i]? ≠ some Byte.lineFeed :=
  fun hfeed => (lineEndFrom_first scan text pos h).2.2 i hpos hi (Or.inl hfeed)

theorem lineFeed_at_lineEndFrom (h : pos ≤ text.size)
    (hlt : Env.lineEndFrom scan text pos < text.size) :
    text[Env.lineEndFrom scan text pos]? = some Byte.lineFeed :=
  (lineEndFrom_first scan text pos h).2.1.resolve_right (Nat.ne_of_lt hlt)

end Lines

-- How far an any-string run extends: up to the first line feed in a text of
-- several lines, and to the end of the text otherwise.
theorem reach_le (env : Env) (pos : Nat) (h : pos ≤ env.text.size) :
    pos ≤ env.reach pos ∧ env.reach pos ≤ env.text.size := by
  rw [Env.reach]
  split
  · exact ⟨le_lineEndFrom env.scan env.text pos, lineEndFrom_le env.scan env.text pos h⟩
  · exact ⟨h, Nat.le_refl _⟩

/-- Whether a line feed stands between two positions. -/
theorem crosses_iff (text : Bytes) (pos stop : Nat) :
    (text.extract pos stop).contains Byte.lineFeed = true ↔
      ∃ i, pos ≤ i ∧ i < stop ∧ text[i]? = some Byte.lineFeed := by
  rw [Array.contains_iff_mem, Array.mem_iff_getElem?]
  constructor
  · rintro ⟨k, hk⟩
    rw [Array.getElem?_extract] at hk
    split at hk
    · exact ⟨pos + k, by omega, by omega, hk⟩
    · exact absurd hk (by simp only [reduceCtorEq, not_false_eq_true])
  · rintro ⟨i, hpos, hi, hfeed⟩
    have hlt := (Array.getElem?_eq_some_iff.1 hfeed).1
    refine ⟨i - pos, ?_⟩
    rw [Array.getElem?_extract, if_pos (by omega), Nat.add_sub_cancel' hpos, hfeed]

end Machine

end ByteRegex

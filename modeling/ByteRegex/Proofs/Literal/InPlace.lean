import ByteRegex.Proofs.Literal.Borders
import Mathlib.Order.Bounds.Basic

/-!
# Filling a Border Table in Place

A border table can be filled in the place that it is to have, entry by entry, with nothing
to lean on. Every byte and every entry is looked up by its index, and an index that is out
of range leaves the filling without a result. So does a border that has no room in its
entry, and so does an entry that does not lead down: a descent that follows it need never
end.

A word of at most `maxLength` bytes has a result. The entries in front of the one that is
to be filled list longest borders, and a border is shorter than what it is a border of, so
the descent meets only such entries and ends. What it ends with is the longest border of
the next prefix. The filled table is therefore that of `borders`, since a table that lists
longest borders has no choice in its entries.

## Main definitions

* `descend`: The longest border with one more byte, if the entries lead down to it.
* `store?`: Writes an entry, if it is there and large enough.
* `fillFrom`, `fill`: Fills a table in place.

## Theorems

* `isBorder_iff`: A border is a proper prefix that is a suffix.
* `descend_eq`: In a table that lists borders the descent ends.
* `fillFrom_lists`: A table is filled with the longest borders.
* `lists_unique`: There is only one such table.
* `borders_exact`: The table lists longest borders, and filling it in place goes well.
-/

namespace ByteRegex

namespace Literal

/-- The longest border after the byte `c`, when `k` is the length of the longest border
    before it. Bytes and entries have to be there, and an entry has to lead down. -/
def descend (word : Bytes) (table : Array UInt16) (c : UInt8) (k : Nat) : Option Nat := do
  let d ← word[k]?
  if d = c then some (k + 1)
  else if k = 0 then some 0
  else
    let shorter ← table[k - 1]?
    if shorter.toNat < k then descend word table c shorter.toNat else none
  termination_by k

/-- Writes an entry, if there is an entry `i` and it can hold the number. -/
def store? (table : Array UInt16) (i entry : Nat) : Option (Array UInt16) :=
  if i < table.size ∧ entry < UInt16.size then some (table.setIfInBounds i (UInt16.ofNat entry))
  else none

/-- Fills the table from entry `i` on, where `k` is what the entry before stands for. -/
def fillFrom (word : Bytes) (table : Array UInt16) (i k : Nat) : Option (Array UInt16) :=
  if i < word.size then do
    let c ← word[i]?
    let k' ← descend word table c k
    let table' ← store? table i k'
    fillFrom word table' (i + 1) k'
  else some table
  termination_by word.size - i

/-- Fills a table of as many entries as the word has bytes, of which the first stays
    zero. -/
def fill (word : Bytes) : Option (Array UInt16) :=
  fillFrom word (Array.replicate word.size 0) 1 0

/-- A border of a prefix is a shorter prefix that is also a suffix. -/
theorem isBorder_iff (word : Bytes) (n b : Nat) (hn : n ≤ word.size) :
    IsBorder word n b ↔ b < n ∧ word.toList.take b <:+ word.toList.take n := by
  have hlength : word.toList.length = word.size := Array.length_toList
  -- The suffix starts where the rest of the prefix ends.
  have hsuffix (hb : b < n) : word.toList.take b <:+ word.toList.take n ↔
      word.toList.take b = (word.toList.take n).drop (n - b) := by
    rw [List.suffix_iff_eq_drop, List.length_take, List.length_take, hlength,
      Nat.min_eq_left hn, Nat.min_eq_left (by omega)]
  constructor
  · intro h
    refine ⟨h.lt, (hsuffix h.lt).2 (List.ext_getElem? fun i => ?_)⟩
    have hb := h.lt
    rw [List.getElem?_drop]
    by_cases hi : i < b
    · rw [List.getElem?_take_of_lt hi, List.getElem?_take_of_lt (by omega),
        Array.getElem?_toList, Array.getElem?_toList]
      exact h.eq i hi
    · rw [List.getElem?_take_eq_none (by omega), List.getElem?_take_eq_none (by omega)]
  · rintro ⟨hb, h⟩
    refine ⟨hb, fun i hi => ?_⟩
    have heq := congrArg (·[i]?) ((hsuffix hb).1 h)
    simp only [List.getElem?_drop] at heq
    rwa [List.getElem?_take_of_lt hi, List.getElem?_take_of_lt (by omega),
      Array.getElem?_toList, Array.getElem?_toList] at heq

-- The longest border is the greatest of the prefixes in question.
theorem isGreatest_of_longestBorder (word : Bytes) (i b : Nat) (hi : i < word.size)
    (h : LongestBorder word (i + 1) b) :
    IsGreatest {b | b ≤ i ∧ word.toList.take b <:+ word.toList.take (i + 1)} b := by
  have hborder (b : Nat) := isBorder_iff word (i + 1) b hi
  constructor
  · have hb := (hborder b).1 h.border
    exact ⟨Nat.le_of_lt_succ hb.1, hb.2⟩
  · rintro c ⟨hc, hsuffix⟩
    exact h.longest c ((hborder c).2 ⟨Nat.lt_succ_of_le hc, hsuffix⟩)

/-- Where the table lists the prefixes of up to `n` bytes, the descent from a border that
    is no longer finds every entry it looks up, and ends. -/
theorem descend_eq (word : Bytes) (table : Array UInt16) (c : UInt8) (n k : Nat)
    (htable : Lists word table n) (hn : n < word.size) (hk : k ≤ n) :
    descend word table c k = some (extendBorder word table c k) := by
  fun_induction extendBorder word table c k with
  | case1 k hmatch =>
      rw [descend, hmatch, Option.bind_eq_bind, Option.bind_some, if_pos rfl]
  | case2 k hmiss hpos shorter hlt ih =>
      rcases htable k hpos hk with ⟨v, hv, _⟩
      have hshorter : shorter = v.toNat := by
        simp only [shorter, hv, Option.getD_some]
      have hbyte : word[k]? = some word[k] := Array.getElem?_eq_getElem (by omega)
      rw [hbyte, Option.some.injEq] at hmiss
      rw [← ih (by omega), descend, hbyte, Option.bind_eq_bind, Option.bind_some, if_neg hmiss,
        if_neg (by omega), hv, Option.bind_eq_bind, Option.bind_some, ← hshorter, if_pos hlt]
  | case3 k hmiss hpos shorter hnlt =>
      rcases htable k hpos hk with ⟨v, hv, hborder⟩
      have hshorter : shorter = v.toNat := by
        simp only [shorter, hv, Option.getD_some]
      exact absurd (hshorter ▸ hborder.border.lt) hnlt
  | case4 k hmiss hzero =>
      have hbyte : word[k]? = some word[k] := Array.getElem?_eq_getElem (by omega)
      rw [hbyte, Option.some.injEq] at hmiss
      rw [descend, hbyte, Option.bind_eq_bind, Option.bind_some, if_neg hmiss,
        if_pos (by omega)]

/-- From a prefix that is listed, the table is filled to its end. -/
theorem fillFrom_lists (word : Bytes) (hword : word.size ≤ maxLength) (table : Array UInt16)
    (i k : Nat) (hsize : table.size = word.size) (htable : Lists word table i)
    (hk : LongestBorder word i k) :
    ∃ filled, fillFrom word table i k = some filled ∧ filled.size = word.size ∧
      Lists word filled word.size := by
  fun_induction fillFrom word table i k with
  | case1 table i k hi ih =>
      have hc : word[i]? = some word[i] := Array.getElem?_eq_getElem hi
      have hnext := extendBorder_longest word table word[i] i k htable hc hk.border
        (fun b hb => hk.longest b ((isBorder_succ word i b).1 hb).1)
      have hfits := entry_fits word hword i _ hi hnext
      have hdescend := descend_eq word table word[i] i k htable hi (Nat.le_of_lt hk.border.lt)
      have hstore : store? table i (extendBorder word table word[i] k) =
          some (table.setIfInBounds i (UInt16.ofNat (extendBorder word table word[i] k))) :=
        if_pos ⟨by omega, hfits⟩
      simp only [hc, hdescend, hstore, Option.bind_eq_bind, Option.bind_some]
      refine ih _ _ (Array.size_setIfInBounds.trans hsize) ?_ hnext
      refine lists_succ word table _ i _ htable hnext hfits (fun j hj => ?_) ?_
      · exact Array.getElem?_setIfInBounds_ne (by omega)
      · exact Array.getElem?_setIfInBounds_self_of_lt (by omega)
  | case2 table i k hi =>
      exact ⟨table, rfl, hsize, fun m hm hle => htable m hm (by omega)⟩

theorem fill_lists (word : Bytes) (hword : word.size ≤ maxLength) :
    ∃ filled, fill word = some filled ∧ filled.size = word.size ∧
      Lists word filled word.size := by
  have hsize : (Array.replicate word.size (0 : UInt16)).size = word.size := Array.size_replicate
  have hnone : Lists word (Array.replicate word.size 0) 0 := fun m hm hle => absurd hle (by omega)
  rcases Nat.eq_zero_or_pos word.size with hempty | hpos
  · refine ⟨_, ?_, hsize, by rwa [hempty] at hnone ⊢⟩
    rw [fill, fillFrom, if_neg (by omega)]
  · -- The entry of the first byte is there from the outset.
    have hone := lists_succ word _ _ 0 0 hnone (longestBorder_one word) (by decide)
      (fun i _ => rfl) (by rw [Array.getElem?_replicate, if_pos hpos]; rfl)
    exact fillFrom_lists word hword _ 1 0 hsize hone (longestBorder_one word)

/-- Two tables that list the longest borders of a word are the same. -/
theorem lists_unique (word : Bytes) (table table' : Array UInt16)
    (hsize : table.size = word.size) (hsize' : table'.size = word.size)
    (h : Lists word table word.size) (h' : Lists word table' word.size) : table = table' := by
  refine Array.ext_getElem? fun i => ?_
  by_cases hi : i < word.size
  · rcases h (i + 1) (Nat.succ_pos i) hi with ⟨v, hv, hborder⟩
    rcases h' (i + 1) (Nat.succ_pos i) hi with ⟨v', hv', hborder'⟩
    rw [Nat.add_sub_cancel] at hv hv'
    have hle := hborder'.longest _ hborder.border
    have hle' := hborder.longest _ hborder'.border
    rw [hv, hv', UInt16.toNat_inj.1 (Nat.le_antisymm hle hle')]
  · rw [Array.getElem?_eq_none (by omega), Array.getElem?_eq_none (by omega)]

/-- The table of a word of at most `maxLength` bytes has an entry for each byte, which is
    the length of the longest proper prefix, of the prefix that ends with the byte, that is
    also its suffix. Filled in place it comes out the same: every descent leads down to
    its end, whatever is looked up or written is there, and every border has room in its
    entry. -/
theorem borders_exact (word : Bytes) (hword : word.size ≤ maxLength) :
    fill word = some (borders word) ∧ (borders word).size = word.size ∧
      ∀ i, i < word.size → ∃ entry, (borders word)[i]? = some entry ∧
        IsGreatest {b | b ≤ i ∧ word.toList.take b <:+ word.toList.take (i + 1)}
          entry.toNat := by
  rcases borders_lists word hword with ⟨hlists, hsize⟩
  rcases fill_lists word hword with ⟨filled, hfill, hsize', hlists'⟩
  refine ⟨?_, hsize, fun i hi => ?_⟩
  · rw [hfill, lists_unique word filled _ hsize' hsize hlists' hlists]
  · rcases hlists (i + 1) (Nat.succ_pos i) hi with ⟨entry, hentry, hborder⟩
    exact ⟨entry, hentry, isGreatest_of_longestBorder word i _ hi hborder⟩

-- The border `aa` of `aabaa` does not go on with the next `a`, but its border `a` does.
theorem borders_exact_periodic :
    (#[0x61, 0x61, 0x62, 0x61, 0x61, 0x61, 0x62] : Bytes).size ≤ maxLength ∧
      ∃ table, fill #[0x61, 0x61, 0x62, 0x61, 0x61, 0x61, 0x62] = some table ∧
        ∃ entry, table[5]? = some entry ∧ entry.toNat = 2 := by
  refine ⟨by decide, ?_⟩
  have hexact := borders_exact #[0x61, 0x61, 0x62, 0x61, 0x61, 0x61, 0x62] (by decide)
  rcases hexact.2.2 5 (by decide) with ⟨entry, hentry, hgreatest⟩
  refine ⟨_, hexact.1, entry, hentry, hgreatest.unique ⟨by decide, ?_⟩⟩
  rintro b ⟨hb, hsuffix⟩
  revert b
  decide

end Literal

end ByteRegex

import ByteRegex.Literal.Borders

/-!
# What a Border Table Lists

The table of a word lists the longest border of each of its prefixes. A border is
told apart from the words it is cut out of by positions alone: `IsBorder word n b`
says that the first `b` bytes of the word are also the last `b` of its first `n`.

Two facts carry the construction. A border of a prefix that is one byte longer is a
border of the prefix before it, followed by the same byte; and the shorter borders of
a prefix are the borders of its longest border, which the table lists already. So the
candidates for the next entry are met in descending order, and the first that fits
is the longest.

An entry is cut to 16 bits. Nothing is lost by that for a word of at most `maxLength`
bytes, and only such words are given a table.

## Main definitions

* `IsBorder`: A proper prefix that is also a suffix.
* `LongestBorder`: The longest of them.
* `Lists`: A table lists the longest borders of the prefixes up to a length.
* `Extended`: What a byte makes of a prefix of the word.

## Theorems

* `isBorder_succ`: The borders of a prefix with one more byte.
* `isBorder_trans`: The shorter borders of a prefix are those of its border.
* `extendBorder_extended`: A step down the table extends the longest border it can.
* `extendBorder_longest`: The next entry is the longest border.
* `lists_succ`: With that entry the table lists one more prefix.
* `borders_lists`: The table of a word lists the longest borders of all its prefixes.
-/

namespace ByteRegex

namespace Literal

/-- The first `b` bytes of a word are fewer than `n`, and the last of its first `n`. -/
structure IsBorder (word : Bytes) (n b : Nat) : Prop where
  lt : b < n
  eq : ∀ i, i < b → word[i]? = word[n - b + i]?

/-- The longest border of the first `n` bytes of a word. -/
structure LongestBorder (word : Bytes) (n b : Nat) : Prop where
  border : IsBorder word n b
  longest : ∀ c, IsBorder word n c → c ≤ b

-- The empty prefix is a border of every other.
theorem isBorder_zero (word : Bytes) (n : Nat) (h : 0 < n) : IsBorder word n 0 where
  lt := h
  eq := fun i hi => absurd hi (Nat.not_lt_zero i)

-- It is the only border of a single byte.
theorem longestBorder_one (word : Bytes) : LongestBorder word 1 0 where
  border := isBorder_zero word 1 Nat.zero_lt_one
  longest := fun _ hb => Nat.le_of_lt_succ hb.lt

-- A longer border ends in the byte that was added, and loses it with the prefix.
theorem isBorder_succ (word : Bytes) (n b : Nat) :
    IsBorder word (n + 1) (b + 1) ↔ IsBorder word n b ∧ word[b]? = word[n]? := by
  constructor
  · intro h
    have hlt : b < n := Nat.lt_of_succ_lt_succ h.lt
    refine ⟨⟨hlt, fun i hi => ?_⟩, ?_⟩
    · have heq := h.eq i (Nat.lt_succ_of_lt hi)
      rwa [Nat.add_sub_add_right] at heq
    · have heq := h.eq b (Nat.lt_succ_self b)
      rwa [Nat.add_sub_add_right, Nat.sub_add_cancel (Nat.le_of_lt hlt)] at heq
  · rintro ⟨h, hlast⟩
    refine ⟨Nat.succ_lt_succ h.lt, fun i hi => ?_⟩
    rw [Nat.add_sub_add_right]
    by_cases hib : i = b
    · rw [hib, Nat.sub_add_cancel (Nat.le_of_lt h.lt)]
      exact hlast
    · exact h.eq i (by omega)

/-- The borders of a prefix that are shorter than one of them are its borders. -/
theorem isBorder_trans (word : Bytes) (n k b : Nat) (hk : IsBorder word n k) (hb : b < k) :
    IsBorder word n b ↔ IsBorder word k b := by
  have hkn := hk.lt
  -- The last `b` bytes of the prefix are the last `b` of its border.
  have hshift : ∀ i, i < b → word[k - b + i]? = word[n - b + i]? := by
    intro i hi
    have heq := hk.eq (k - b + i) (by omega)
    rwa [show n - k + (k - b + i) = n - b + i by omega] at heq
  constructor
  · exact fun h => ⟨hb, fun i hi => (h.eq i hi).trans (hshift i hi).symm⟩
  · exact fun h => ⟨Nat.lt_trans hb hkn, fun i hi => (h.eq i hi).trans (hshift i hi)⟩

/-- A table lists the longest borders of the prefixes of up to `n` bytes. -/
def Lists (word : Bytes) (table : Array UInt16) (n : Nat) : Prop :=
  ∀ m, 0 < m → m ≤ n → ∃ v, table[m - 1]? = some v ∧ LongestBorder word m v.toNat

/-- A byte behind the first `k` bytes of a word makes `e` bytes of them: one more than
    the longest among `k` and its borders that the byte extends, or none. -/
structure Extended (word : Bytes) (c : UInt8) (k e : Nat) : Prop where
  attained : e = 0 ∨ ∃ b, e = b + 1 ∧ (b = k ∨ IsBorder word k b) ∧ word[b]? = some c
  greatest : ∀ b, b = k ∨ IsBorder word k b → word[b]? = some c → b + 1 ≤ e

/-- Going down from border to border as the table says, the first that the byte extends
    is the longest. -/
theorem extendBorder_extended (word : Bytes) (table : Array UInt16) (c : UInt8) (n k : Nat)
    (htable : Lists word table n) (hk : k ≤ n) :
    Extended word c k (extendBorder word table c k) := by
  fun_induction extendBorder word table c k with
  | case1 k hmatch =>
      refine ⟨Or.inr ⟨k, rfl, Or.inl rfl, hmatch⟩, fun b hb _ => ?_⟩
      rcases hb with rfl | hb
      · exact Nat.le_refl _
      · exact Nat.succ_le_succ (Nat.le_of_lt hb.lt)
  | case2 k hmiss hpos shorter hlt ih =>
      rcases htable k hpos hk with ⟨v, hv, hborder⟩
      have hshorter : shorter = v.toNat := by
        simp only [shorter, hv, Option.getD_some]
      rw [← hshorter] at hborder
      have hrest := ih (Nat.le_trans (Nat.le_of_lt hlt) hk)
      constructor
      · -- A border of the longest border is a border.
        rcases hrest.attained with hzero | ⟨b, he, hb, hmatch⟩
        · exact Or.inl hzero
        · refine Or.inr ⟨b, he, Or.inr ?_, hmatch⟩
          rcases hb with rfl | hb
          · exact hborder.border
          · exact (isBorder_trans word k shorter b hborder.border hb.lt).2 hb
      · -- What the byte extends is no longer than the longest border, since it is not `k`.
        intro b hb hmatch
        rcases hb with rfl | hb
        · exact absurd hmatch hmiss
        · have hle := hborder.longest b hb
          refine hrest.greatest b ?_ hmatch
          by_cases hsame : b = shorter
          · exact Or.inl hsame
          · exact Or.inr ((isBorder_trans word k shorter b hborder.border (by omega)).1 hb)
  | case3 k hmiss hpos shorter hnlt =>
      rcases htable k hpos hk with ⟨v, hv, hborder⟩
      have hshorter : shorter = v.toNat := by
        simp only [shorter, hv, Option.getD_some]
      -- The table lists borders, and a border is shorter than what it is a border of.
      exact absurd (hshorter ▸ hborder.border.lt) hnlt
  | case4 k hmiss hzero =>
      refine ⟨Or.inl rfl, fun b hb hmatch => ?_⟩
      rcases hb with rfl | hb
      · exact absurd hmatch hmiss
      · exact absurd (Nat.lt_of_le_of_lt (Nat.zero_le b) hb.lt) hzero

/-- The next entry is the longest border of the prefix with one more byte, if `k` is a
    border of the prefix before and no longer one can be extended. -/
theorem extendBorder_longest (word : Bytes) (table : Array UInt16) (c : UInt8) (n k : Nat)
    (htable : Lists word table n) (hc : word[n]? = some c) (hk : IsBorder word n k)
    (hall : ∀ b, IsBorder word (n + 1) (b + 1) → b ≤ k) :
    LongestBorder word (n + 1) (extendBorder word table c k) := by
  have hextended := extendBorder_extended word table c n k htable (Nat.le_of_lt hk.lt)
  constructor
  · rcases hextended.attained with hzero | ⟨b, he, hb, hmatch⟩
    · rw [hzero]
      exact isBorder_zero word (n + 1) (Nat.succ_pos n)
    · rw [he]
      refine (isBorder_succ word n b).2 ⟨?_, hmatch.trans hc.symm⟩
      rcases hb with rfl | hb
      · exact hk
      · exact (isBorder_trans word n k b hk hb.lt).2 hb
  · intro b hb
    cases b with
    | zero => exact Nat.zero_le _
    | succ b =>
        have hb' := (isBorder_succ word n b).1 hb
        have hle := hall b hb
        refine hextended.greatest b ?_ (hb'.2.trans hc)
        by_cases hsame : b = k
        · exact Or.inl hsame
        · exact Or.inr ((isBorder_trans word n k b hk (by omega)).1 hb'.1)

-- A border is shorter than its prefix, so it has room in an entry.
theorem entry_fits (word : Bytes) (hword : word.size ≤ maxLength) (n e : Nat)
    (hn : n < word.size) (h : LongestBorder word (n + 1) e) : e < UInt16.size := by
  have hcap : maxLength < UInt16.size := by decide
  have hsmall := h.border.lt
  omega

/-- A table with the entry of one more prefix lists on, if the entries before are untouched. -/
theorem lists_succ (word : Bytes) (table table' : Array UInt16) (n e : Nat)
    (htable : Lists word table n) (hnext : LongestBorder word (n + 1) e) (hfits : e < UInt16.size)
    (hbefore : ∀ i, i < n → table'[i]? = table[i]?)
    (hentry : table'[n]? = some (UInt16.ofNat e)) : Lists word table' (n + 1) := by
  have hvalue : (UInt16.ofNat e).toNat = e := UInt16.toNat_ofNat_of_lt hfits
  intro m hm hle
  by_cases hlast : m = n + 1
  · refine ⟨UInt16.ofNat e, ?_, ?_⟩
    · rw [hlast, Nat.add_sub_cancel]
      exact hentry
    · rw [hvalue, hlast]
      exact hnext
  · rcases htable m hm (by omega) with ⟨v, hv, hborder⟩
    refine ⟨v, ?_, hborder⟩
    rw [hbefore (m - 1) (by omega), hv]

-- Listing on from a prefix of `n` bytes lists the borders of the whole word.
theorem bordersFrom_lists (word : Bytes) (hword : word.size ≤ maxLength) (rest : List UInt8)
    (table : Array UInt16) (n k : Nat) (hrest : ∀ i, word[n + i]? = rest[i]?)
    (hsize : n + rest.length = word.size) (htable : Lists word table n)
    (hlength : table.size = n) (hk : LongestBorder word n k) :
    Lists word (bordersFrom word table k rest) word.size ∧
      (bordersFrom word table k rest).size = word.size := by
  induction rest generalizing table n k with
  | nil =>
      rw [List.length_nil, Nat.add_zero] at hsize
      rw [bordersFrom, ← hsize]
      exact ⟨htable, hlength⟩
  | cons c rest ih =>
      have hc : word[n]? = some c := hrest 0
      have hnext := extendBorder_longest word table c n k htable hc hk.border
        (fun b hb => hk.longest b ((isBorder_succ word n b).1 hb).1)
      rw [List.length_cons] at hsize
      have hfits := entry_fits word hword n _ (by omega) hnext
      rw [bordersFrom]
      refine ih _ (n + 1) _ (fun i => ?_) (by omega) ?_ ?_ hnext
      · have heq := hrest (i + 1)
        rwa [List.getElem?_cons_succ, show n + (i + 1) = n + 1 + i by omega] at heq
      · refine lists_succ word table _ n _ htable hnext hfits (fun i hi => ?_) ?_
        · rw [Array.getElem?_push, if_neg (by omega)]
        · rw [← hlength, Array.getElem?_push_size]
      · rw [Array.size_push, hlength]

/-- The table of a word lists the longest borders of all its prefixes, one entry for
    each byte. -/
theorem borders_lists (word : Bytes) (hword : word.size ≤ maxLength) :
    Lists word (borders word) word.size ∧ (borders word).size = word.size := by
  unfold borders
  cases hlist : word.toList with
  | nil =>
      have hempty : word.size = 0 := by rw [← Array.length_toList, hlist, List.length_nil]
      rw [hempty]
      exact ⟨fun m hm hle => absurd hle (by omega), rfl⟩
  | cons c rest =>
      refine bordersFrom_lists word hword rest #[0] 1 0 (fun i => ?_) ?_ (fun m hm hle => ?_) rfl
        (longestBorder_one word)
      · rw [← Array.getElem?_toList, hlist, Nat.add_comm, List.getElem?_cons_succ]
      · rw [← Array.length_toList, hlist, List.length_cons, Nat.add_comm]
      · have hm1 : m = 1 := by omega
        rw [hm1]
        exact ⟨0, rfl, longestBorder_one word⟩

end Literal

end ByteRegex

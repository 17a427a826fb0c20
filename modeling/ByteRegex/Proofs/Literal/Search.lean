import ByteRegex.Proofs.Literal.Borders
import ByteRegex.Proofs.Literal.Scanning

/-!
# Searches Forward Are Exact

Each search for a word finds the first occurrence from a position on, and nothing only
where there is none: with a border table and without one, ignoring letter case or not.

Without a table the search goes through the bytes that can begin the word and compares
it at each of them, which needs no argument. With a table it never goes back in the
text. `StandsBefore` says which bytes of the word are the last ones read. The search
keeps the longest beginning of the word that stands there, of those that can still
become an occurrence: an occurrence that has begun before it has failed. A byte more is
read by the step that builds the table, and since the table lists the longest borders,
it leaves the longest again. The jump to the next byte that can begin the word is made
where nothing stands before the position, so nothing is lost by it.

## Main definitions

* `StandsBefore`: The first bytes of the word stand before a position of the text.

## Theorems

* `firstOccurrence?_first`: The search without a table finds the first occurrence.
* `standsBefore_border`: What stands before a position as well is a border.
* `extendBorder_standsBefore`: A byte more leaves the longest beginning of the word.
* `searchFrom_first`: The search goes on from what it has matched.
* `tabledOccurrence?_first`: The search with a table finds the first occurrence.
* `forwardSearch_exact`: Every way to search forward gives the first occurrence.
* `nextOccurrence?_first`: So does the search with the table if there is one.
-/

namespace ByteRegex

namespace Literal

section Forward

variable (scan : ByteScan) (hscan : scan.Exact) (ignoreCase : Bool) (word text : Bytes)

-- The empty word stands everywhere in the text.
theorem firstFrom_of_empty (hword : word[0]? = none) (s : Nat) :
    FirstFrom (Occurs ignoreCase word text) s (if s ≤ text.size then some s else none) := by
  have hempty : word.size = 0 := Nat.le_zero.1 (Array.getElem?_eq_none_iff.1 hword)
  by_cases hs : s ≤ text.size
  · rw [if_pos hs]
    exact firstFrom_self _ s ⟨by omega, fun i hi => absurd hi (by omega)⟩
  · rw [if_neg hs]
    intro u hu hocc
    have hfits := hocc.1
    omega

-- A word that is not empty stands nowhere behind the end of the text.
theorem not_occurs_of_size_le (head : UInt8) (hhead : word[0]? = some head) (u : Nat)
    (hu : text.size ≤ u) : ¬Occurs ignoreCase word text u := by
  intro hocc
  have hpos : 0 < word.size := (Array.getElem?_eq_some_iff.1 hhead).1
  have hfits := hocc.1
  omega

include hscan in
-- Each hit that is rejected moves the search on to the byte behind it.
theorem firstFrom?_first (head : UInt8) (hhead : word[0]? = some head) (s : Nat) :
    FirstFrom (Occurs ignoreCase word text) s (firstFrom? scan ignoreCase word text head s) := by
  fun_induction firstFrom? scan ignoreCase word text head s with
  | case1 s hs hnone =>
      have hfirst := firstHead?_first scan hscan ignoreCase head text s
      rw [hnone] at hfirst
      exact fun u hu hocc => hfirst u hu (heads_of_occurs ignoreCase word text head u hhead hocc)
  | case2 s hs hit hsome hoccurs =>
      have hfirst := firstHead?_first scan hscan ignoreCase head text s
      rw [hsome] at hfirst
      refine ⟨hfirst.1, occursAt_iff.1 hoccurs, fun u hu hlt hocc => ?_⟩
      exact hfirst.2.2 u hu hlt (heads_of_occurs ignoreCase word text head u hhead hocc)
  | case3 s hs hit hsome hrejected ih =>
      have hfirst := firstHead?_first scan hscan ignoreCase head text s
      rw [hsome] at hfirst
      refine FirstFrom.skip _ s (s + hit + 1) _ (by omega) (fun u hu hlt hocc => ?_) ih
      by_cases hsame : u = s + hit
      · exact hrejected (occursAt_iff.2 (hsame ▸ hocc))
      · have hbefore : u < s + hit := by omega
        exact hfirst.2.2 u hu hbefore (heads_of_occurs ignoreCase word text head u hhead hocc)
  | case4 s hs =>
      exact fun u hu =>
        not_occurs_of_size_le ignoreCase word text head hhead u (by omega)

include hscan in
/-- The search without a table finds the first occurrence. -/
theorem firstOccurrence?_first (s : Nat) :
    FirstFrom (Occurs ignoreCase word text) s
      (firstOccurrence? scan ignoreCase word text s) := by
  rw [firstOccurrence?]
  cases hhead : word[0]? with
  | none => exact firstFrom_of_empty ignoreCase word text hhead s
  | some head => exact firstFrom?_first scan hscan ignoreCase word text head hhead s

/-- The first `k` bytes of the word stand in the text just before position `i`. -/
structure StandsBefore (i k : Nat) : Prop where
  le : k ≤ i
  eq : ∀ j, j < k → (text[i - k + j]?).map (Byte.canonical ignoreCase) = word[j]?

theorem standsBefore_zero (i : Nat) : StandsBefore ignoreCase word text i 0 where
  le := Nat.zero_le i
  eq := fun j hj => absurd hj (Nat.not_lt_zero j)

-- One byte more stands there if the bytes before it do and the byte is the next.
theorem standsBefore_succ (i k : Nat) (c : UInt8) (hc : text[i]? = some c) :
    StandsBefore ignoreCase word text (i + 1) (k + 1) ↔
      StandsBefore ignoreCase word text i k ∧
        word[k]? = some (Byte.canonical ignoreCase c) := by
  constructor
  · intro h
    have hle := Nat.le_of_succ_le_succ h.le
    refine ⟨⟨hle, fun j hj => ?_⟩, ?_⟩
    · have heq := h.eq j (Nat.lt_succ_of_lt hj)
      rwa [Nat.add_sub_add_right] at heq
    · have heq := h.eq k (Nat.lt_succ_self k)
      rw [Nat.add_sub_add_right, Nat.sub_add_cancel hle, hc, Option.map_some] at heq
      exact heq.symm
  · rintro ⟨h, hlast⟩
    refine ⟨Nat.succ_le_succ h.le, fun j hj => ?_⟩
    rw [Nat.add_sub_add_right]
    by_cases hjk : j = k
    · rw [hjk, Nat.sub_add_cancel h.le, hc, Option.map_some, hlast]
    · exact h.eq j (by omega)

/-- Of the bytes that stand before a position, a shorter beginning of the word stands
    there as well if it is a border of them. -/
theorem standsBefore_border (i k b : Nat) (h : StandsBefore ignoreCase word text i k)
    (hb : b < k) : StandsBefore ignoreCase word text i b ↔ IsBorder word k b := by
  have hki := h.le
  -- The last `b` bytes before the position are the last of the `k` that stand there.
  have hlast : ∀ j, j < b →
      (text[i - b + j]?).map (Byte.canonical ignoreCase) = word[k - b + j]? := by
    intro j hj
    have heq := h.eq (k - b + j) (by omega)
    rwa [show i - k + (k - b + j) = i - b + j by omega] at heq
  constructor
  · exact fun hstands => ⟨hb, fun j hj => (hstands.eq j hj).symm.trans (hlast j hj)⟩
  · intro hborder
    have hbi : b ≤ i := Nat.le_trans (Nat.le_of_lt hb) hki
    exact ⟨hbi, fun j hj => (hlast j hj).trans (hborder.eq j hj).symm⟩

-- An occurrence that has begun stands before the position as far as it has been read.
theorem standsBefore_of_occurs (u i : Nat) (h : Occurs ignoreCase word text u) (hu : u ≤ i)
    (hi : i ≤ u + word.size) : StandsBefore ignoreCase word text i (i - u) where
  le := Nat.sub_le i u
  eq := fun j hj => by
    rw [Nat.sub_sub_self hu]
    exact h.2 j (by omega)

-- A whole word that stands before a position is an occurrence.
theorem occurs_of_standsBefore (i : Nat) (h : StandsBefore ignoreCase word text i word.size)
    (hi : i ≤ text.size) : Occurs ignoreCase word text (i - word.size) :=
  ⟨Nat.le_trans (Nat.le_of_eq (Nat.sub_add_cancel h.le)) hi, h.eq⟩

/-- The step down the table keeps the longest beginning of the word: what it makes of
    the first `k` bytes stands before the next position, and of those no longer than
    `k + 1` nothing longer does. -/
theorem extendBorder_standsBefore (table : Array UInt16)
    (htable : Lists word table word.size) (i k : Nat) (c : UInt8) (hc : text[i]? = some c)
    (hk : k ≤ word.size) (h : StandsBefore ignoreCase word text i k) :
    StandsBefore ignoreCase word text (i + 1)
        (extendBorder word table (Byte.canonical ignoreCase c) k) ∧
      ∀ m, m ≤ k + 1 → StandsBefore ignoreCase word text (i + 1) m →
        m ≤ extendBorder word table (Byte.canonical ignoreCase c) k := by
  have hextended :=
    extendBorder_extended word table (Byte.canonical ignoreCase c) word.size k htable hk
  have hcandidate : ∀ b, b ≤ k →
      (StandsBefore ignoreCase word text i b ↔ b = k ∨ IsBorder word k b) := by
    intro b hb
    by_cases hsame : b = k
    · exact ⟨fun _ => Or.inl hsame, fun _ => hsame ▸ h⟩
    · rw [standsBefore_border ignoreCase word text i k b h (by omega)]
      exact (or_iff_right hsame).symm
  constructor
  · rcases hextended.attained with hzero | ⟨b, he, hb, hmatch⟩
    · rw [hzero]
      exact standsBefore_zero ignoreCase word text (i + 1)
    · rw [he]
      have hle : b ≤ k := hb.elim Nat.le_of_eq fun hborder => Nat.le_of_lt hborder.lt
      exact (standsBefore_succ ignoreCase word text i b c hc).2 ⟨(hcandidate b hle).2 hb, hmatch⟩
  · intro m hm hstands
    cases m with
    | zero => exact Nat.zero_le _
    | succ b =>
        have hb := (standsBefore_succ ignoreCase word text i b c hc).1 hstands
        exact hextended.greatest b ((hcandidate b (Nat.le_of_succ_le_succ hm)).1 hb.1) hb.2

/-- Nothing is lost by a jump from position `i` with `k` bytes matched: what it leads to is
    still preceded by them, and no occurrence begins in between. -/
def Jump (i k : Nat) : Option Nat → Prop
  | none => ∀ u, i - k ≤ u → ¬Occurs ignoreCase word text u
  | some skip => i + skip < text.size ∧ StandsBefore ignoreCase word text (i + skip) k ∧
      ∀ u, i - k ≤ u → u < i + skip - k → ¬Occurs ignoreCase word text u

include hscan in
-- The search jumps only where nothing has matched, and over bytes that cannot begin the
-- word.
theorem skip_jump (head : UInt8) (hhead : word[0]? = some head) (i k : Nat)
    (hi : i < text.size) (h : StandsBefore ignoreCase word text i k) :
    Jump ignoreCase word text i k (if k = 0 then
      scan.firstHead? ignoreCase head (text.extract i text.size) else some 0) := by
  by_cases hk : k = 0
  · have hfirst := firstHead?_first scan hscan ignoreCase head text i
    rw [if_pos hk]
    cases hskip : scan.firstHead? ignoreCase head (text.extract i text.size) with
    | none =>
        rw [hskip] at hfirst
        intro u hu hocc
        exact hfirst u (by omega) (heads_of_occurs ignoreCase word text head u hhead hocc)
    | some skip =>
        rw [hskip] at hfirst
        have hinside : i + skip < text.size := by
          rcases hfirst.2.1 with hbyte | ⟨_, hbyte⟩
          · exact (Array.getElem?_eq_some_iff.1 hbyte).1
          · exact (Array.getElem?_eq_some_iff.1 hbyte).1
        refine ⟨hinside, hk ▸ standsBefore_zero ignoreCase word text _, fun u hu hlt hocc => ?_⟩
        have hbefore : u < i + skip := by omega
        exact hfirst.2.2 u (by omega) hbefore
          (heads_of_occurs ignoreCase word text head u hhead hocc)
  · rw [if_neg hk]
    exact ⟨hi, h, fun u hu hlt => absurd hlt (by omega)⟩

/-- After a jump and the byte it leads to, the longest beginning of the word stands before
    the next position, and no occurrence has begun before it. -/
theorem Jump.read (table : Array UInt16) (htable : Lists word table word.size) (i k skip : Nat)
    (c : UInt8) (hk : k < word.size) (hc : text[i + skip]? = some c)
    (h : Jump ignoreCase word text i k (some skip)) :
    StandsBefore ignoreCase word text (i + skip + 1)
        (extendBorder word table (Byte.canonical ignoreCase c) k) ∧
      ∀ u, i - k ≤ u →
        u < i + skip + 1 - extendBorder word table (Byte.canonical ignoreCase c) k →
        ¬Occurs ignoreCase word text u := by
  rcases h with ⟨_, hstands, hbefore⟩
  have hextend := extendBorder_standsBefore ignoreCase word text table htable (i + skip) k c hc
    (Nat.le_of_lt hk) hstands
  refine ⟨hextend.1, fun u hu hlt hocc => ?_⟩
  by_cases hskipped : u < i + skip - k
  · exact hbefore u hu hskipped hocc
  · -- The occurrence has begun and is not over, so it would stand before the position.
    have hread := standsBefore_of_occurs ignoreCase word text u (i + skip + 1) hocc (by omega)
      (by omega)
    have hlongest := hextend.2 _ (by omega) hread
    omega

include hscan in
/-- With the first `k` bytes of the word before position `i`, the search on finds the
    first occurrence from where these begin. -/
theorem searchFrom_first (table : Array UInt16) (htable : Lists word table word.size)
    (head : UInt8) (hhead : word[0]? = some head) (i k : Nat) (hk : k < word.size)
    (h : StandsBefore ignoreCase word text i k) :
    FirstFrom (Occurs ignoreCase word text) (i - k)
      (searchFrom scan ignoreCase word table text head i k) := by
  fun_induction searchFrom scan ignoreCase word table text head i k with
  | case1 i k hi skip? hskip =>
      have hjump : Jump ignoreCase word text i k skip? :=
        skip_jump scan hscan ignoreCase word text head hhead i k hi h
      rw [hskip] at hjump
      exact hjump
  | case2 i k hi skip? skip hskip hend =>
      have hjump : Jump ignoreCase word text i k skip? :=
        skip_jump scan hscan ignoreCase word text head hhead i k hi h
      rw [hskip] at hjump
      exact absurd hjump.1 (Nat.not_lt.2 (Array.getElem?_eq_none_iff.1 hend))
  | case3 i k hi skip? skip hskip c hc k' hwhole =>
      have hjump : Jump ignoreCase word text i k skip? :=
        skip_jump scan hscan ignoreCase word text head hhead i k hi h
      rw [hskip] at hjump
      have hread := hjump.read ignoreCase word text table htable i k skip c hk hc
      have hle := extendBorder_le word table (Byte.canonical ignoreCase c) k
      refine ⟨by omega, ?_, hread.2⟩
      have hoccurs := occurs_of_standsBefore ignoreCase word text (i + skip + 1)
        (hwhole ▸ hread.1) hjump.1
      rwa [← hwhole] at hoccurs
  | case4 i k hi skip? skip hskip c hc k' hpart ih =>
      have hjump : Jump ignoreCase word text i k skip? :=
        skip_jump scan hscan ignoreCase word text head hhead i k hi h
      rw [hskip] at hjump
      have hread := hjump.read ignoreCase word text table htable i k skip c hk hc
      have hle := extendBorder_le word table (Byte.canonical ignoreCase c) k
      exact FirstFrom.skip _ _ _ _ (by omega) hread.2 (ih (by omega) hread.1)
  | case5 i k hend =>
      -- An occurrence would have more bytes than are left.
      intro u hu hocc
      have hfits := hocc.1
      have hki := h.le
      omega

include hscan in
/-- The search with a table finds the first occurrence. -/
theorem tabledOccurrence?_first (hword : word.size ≤ maxLength) (s : Nat) :
    FirstFrom (Occurs ignoreCase word text) s
      (tabledOccurrence? scan ignoreCase word (borders word) text s) := by
  rw [tabledOccurrence?]
  cases hhead : word[0]? with
  | none => exact firstFrom_of_empty ignoreCase word text hhead s
  | some head =>
      exact searchFrom_first scan hscan ignoreCase word text _ (borders_lists word hword).1 head
        hhead s 0 (Array.getElem?_eq_some_iff.1 hhead).1
        (standsBefore_zero ignoreCase word text s)

include hscan in
/-- Every way to search forward gives the first occurrence from `s` on, and nothing just
    when there is none. The empty word is found at `s` itself, up to the end of the text.
    The table has an entry for every number of bytes that can have matched, and each
    leads to fewer. -/
theorem forwardSearch_exact (hword : word.size ≤ maxLength) (s : Nat) (found : Option Nat)
    (hfound : found ∈ [tabledOccurrence? scan ignoreCase word (borders word) text s,
      firstOccurrence? scan ignoreCase word text s,
      nextOccurrence? scan ignoreCase word (some (borders word)) text s,
      nextOccurrence? scan ignoreCase word none text s]) :
    (∀ t, found = some t ↔ s ≤ t ∧ Occurs ignoreCase word text t ∧
      ∀ u, s ≤ u → u < t → ¬Occurs ignoreCase word text u) ∧
    (found = none ↔ ¬∃ u, s ≤ u ∧ Occurs ignoreCase word text u) ∧
    (word.size = 0 → found = if s ≤ text.size then some s else none) ∧
    ∀ k, 0 < k → k < word.size → ∃ v, (borders word)[k - 1]? = some v ∧ v.toNat < k := by
  have htabled := tabledOccurrence?_first scan hscan ignoreCase word text hword s
  have hplain := firstOccurrence?_first scan hscan ignoreCase word text s
  have hfirst : FirstFrom (Occurs ignoreCase word text) s found := by
    simp only [nextOccurrence?, List.mem_cons, List.not_mem_nil, or_false] at hfound
    rcases hfound with rfl | rfl | rfl | rfl
    · exact htabled
    · exact hplain
    · exact htabled
    · exact hplain
  refine ⟨hfirst.eq_some_iff, hfirst.eq_none_iff, fun hempty => ?_, fun k hpos hk => ?_⟩
  · have hhead : word[0]? = none := Array.getElem?_eq_none (Nat.le_of_eq hempty)
    exact hfirst.unique _ _ _ _ (firstFrom_of_empty ignoreCase word text hhead s)
  · rcases (borders_lists word hword).1 k hpos (Nat.le_of_lt hk) with ⟨v, hv, hlongest⟩
    exact ⟨v, hv, hlongest.border.lt⟩

-- The word `abac` fails at the fourth byte of `ABABAc`, where a border of what has matched
-- goes on.
theorem forwardSearch_exact_border :
    ByteScan.walk.Exact ∧
      nextOccurrence? .walk true #[0x61, 0x62, 0x61, 0x63]
        (some (borders #[0x61, 0x62, 0x61, 0x63]))
        #[0x41, 0x42, 0x41, 0x42, 0x41, 0x63] 0 = some 2 ∧
      ∀ u, u < 2 →
        ¬Occurs true #[0x61, 0x62, 0x61, 0x63] #[0x41, 0x42, 0x41, 0x42, 0x41, 0x63] u := by
  have hfound : nextOccurrence? .walk true #[0x61, 0x62, 0x61, 0x63]
      (some (borders #[0x61, 0x62, 0x61, 0x63]))
      #[0x41, 0x42, 0x41, 0x42, 0x41, 0x63] 0 = some 2 := by decide +kernel
  have hexact := (forwardSearch_exact .walk ByteScan.walk_exact true #[0x61, 0x62, 0x61, 0x63]
    #[0x41, 0x42, 0x41, 0x42, 0x41, 0x63] (by decide) 0 _
    (List.mem_cons_of_mem _ (List.mem_cons_of_mem _ (List.mem_cons_self)))).1 2
  exact ⟨ByteScan.walk_exact, hfound, fun u hu => (hexact.1 hfound).2.2 u (Nat.zero_le u) hu⟩

include hscan in
/-- Whether or not a word has a table, the search finds the first occurrence. -/
theorem nextOccurrence?_first (s : Nat) :
    FirstFrom (Occurs ignoreCase word text) s
      (nextOccurrence? scan ignoreCase word (borders? word) text s) := by
  rw [borders?]
  by_cases hlength : (minLength ≤ word.size && word.size ≤ maxLength) = true
  · rw [if_pos hlength]
    rw [Bool.and_eq_true, decide_eq_true_eq, decide_eq_true_eq] at hlength
    exact tabledOccurrence?_first scan hscan ignoreCase word text hlength.2 s
  · rw [if_neg hlength]
    exact firstOccurrence?_first scan hscan ignoreCase word text s

end Forward

end Literal

end ByteRegex

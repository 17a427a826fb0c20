import ByteRegex.Proofs.Literal.Scanning
import Mathlib.Logic.Relation

/-!
# Searches Backward Are Exact

The search for the last occurrence up to a position looks for the last byte in a window
of the text that can begin the word. The window begins with the text and ends behind the
last position in question, and it shrinks to each hit where the word does not stand. So
its end is never behind the end of the text, every hit lies in it, and what is cut off
holds no occurrence.

Where the word fits into the text only in front of the position asked for, the window
ends behind the last position where it fits. An occurrence cannot begin later.

## Main definitions

* `Narrows`: A window and the one that a rejected hit leaves of it.
* `Window`: The windows that a search comes through.

## Theorems

* `lastBelow?_last`: In a window the search finds the last occurrence.
* `window_le`, `acc_narrows`: Windows stay inside the text and become smaller.
* `backwardSearch_exact`: The search finds the last occurrence, reading only inside the
  text, and comes to an end.
-/

namespace ByteRegex

-- What is found in a window that a hit has narrowed is found in the window itself.
theorem LastUpTo.widen (P : Nat → Prop) (stop hit : Nat) (result : Option Nat)
    (hlt : hit < stop) (hnone : ∀ u, hit ≤ u → u < stop → ¬P u)
    (h : LastUpTo (fun u => u < hit ∧ P u) hit result) :
    LastUpTo (fun u => u < stop ∧ P u) stop result := by
  have hsame : ∀ u, u ≤ hit → ((u < hit ∧ P u) ↔ (u < stop ∧ P u)) := by
    intro u hu
    refine ⟨fun ⟨hbelow, hp⟩ => ⟨Nat.lt_trans hbelow hlt, hp⟩, fun ⟨hbelow, hp⟩ => ⟨?_, hp⟩⟩
    exact Nat.lt_of_not_le fun hle => hnone u hle hbelow hp
  refine LastUpTo.skip _ stop hit _ (Nat.le_of_lt hlt) (fun u hu _ hp => ?_)
    (h.congr _ _ _ _ hsame)
  exact hnone u (Nat.le_of_lt hu) hp.1 hp.2

-- Below the end of a window is up to the position before it.
theorem LastUpTo.of_below (P : Nat → Prop) (s : Nat) (result : Option Nat)
    (h : LastUpTo (fun u => u < s + 1 ∧ P u) (s + 1) result) : LastUpTo P s result := by
  cases result with
  | none => exact fun u hu hp => h u (Nat.le_succ_of_le hu) ⟨Nat.lt_succ_of_le hu, hp⟩
  | some t =>
      refine ⟨Nat.le_of_lt_succ h.2.1.1, h.2.1.2, fun u htu hu hp => ?_⟩
      exact h.2.2 u htu (Nat.le_succ_of_le hu) ⟨Nat.lt_succ_of_le hu, hp⟩

namespace Literal

section Backward

variable (scan : ByteScan) (hscan : scan.Exact) (ignoreCase : Bool) (word text : Bytes)

include hscan in
/-- In a window of the text the search finds the last occurrence that begins there. -/
theorem lastBelow?_last (head : UInt8) (hhead : word[0]? = some head) (stop : Nat)
    (hstop : stop ≤ text.size) :
    LastUpTo (fun u => u < stop ∧ Occurs ignoreCase word text u) stop
      (lastBelow? scan ignoreCase word text head stop) := by
  have hheads : ∀ stop u, u < stop ∧ Occurs ignoreCase word text u →
      u < stop ∧ Heads ignoreCase head text u :=
    fun _ u hu => ⟨hu.1, heads_of_occurs ignoreCase word text head u hhead hu.2⟩
  fun_induction lastBelow? scan ignoreCase word text head stop with
  | case1 stop hpos hnone =>
      have hlast := lastHead?_last scan hscan ignoreCase head text stop hstop
      rw [hnone] at hlast
      exact fun u hu hocc => hlast u hu (hheads stop u hocc)
  | case2 stop hpos hit hsome hlt hoccurs =>
      have hlast := lastHead?_last scan hscan ignoreCase head text stop hstop
      rw [hsome] at hlast
      refine ⟨hlast.1, ⟨hlt, occursAt_iff.1 hoccurs⟩, fun u hu hle hocc => ?_⟩
      exact hlast.2.2 u hu hle (hheads stop u hocc)
  | case3 stop hpos hit hsome hlt hrejected ih =>
      have hlast := lastHead?_last scan hscan ignoreCase head text stop hstop
      rw [hsome] at hlast
      -- Neither at the hit nor behind it.
      refine LastUpTo.widen _ stop hit _ hlt (fun u hle hu hocc => ?_) (ih (by omega))
      by_cases hsame : u = hit
      · exact hrejected (occursAt_iff.2 (hsame ▸ hocc))
      · exact hlast.2.2 u (by omega) (Nat.le_of_lt hu) (hheads stop u ⟨hu, hocc⟩)
  | case4 stop hpos hit hsome hnlt =>
      have hlast := lastHead?_last scan hscan ignoreCase head text stop hstop
      rw [hsome] at hlast
      exact absurd hlast.2.1.1 hnlt
  | case5 stop hzero => exact fun u _ hu => absurd (Nat.zero_lt_of_lt hu.1) hzero

include hscan in
/-- The search finds the last occurrence up to a position. -/
theorem lastOccurrence?_last (s : Nat) :
    LastUpTo (Occurs ignoreCase word text) s
      (lastOccurrence? scan ignoreCase word text s) := by
  rw [lastOccurrence?]
  by_cases hlonger : text.size < word.size
  · rw [if_pos hlonger]
    intro u hu hocc
    have hfits := hocc.1
    omega
  · rw [if_neg hlonger]
    -- The word does not fit behind the position where the search begins.
    refine LastUpTo.skip _ s (min s (text.size - word.size)) _ (Nat.min_le_left _ _)
      (fun u hu hle hocc => ?_) ?_
    · have hfits := hocc.1
      omega
    · cases hhead : word[0]? with
      | none =>
          have hempty : word.size = 0 := Nat.le_zero.1 (Array.getElem?_eq_none_iff.1 hhead)
          exact lastUpTo_self _ _ ⟨by omega, fun i hi => absurd hi (by omega)⟩
      | some head =>
          have hpos : 0 < word.size := (Array.getElem?_eq_some_iff.1 hhead).1
          exact LastUpTo.of_below _ _ _
            (lastBelow?_last scan hscan ignoreCase word text head hhead _ (by omega))

/-- A window of the text that ends at `stop`, and the next, that ends at a hit in it where
    the word does not stand. -/
def Narrows (head : UInt8) (stop next : Nat) : Prop :=
  0 < stop ∧ scan.lastHead? ignoreCase head (text.extract 0 stop) = some next ∧
    occursAt ignoreCase word text next = false

/-- The windows that the search up to a position comes through, by their ends. -/
def Window (s : Nat) (head : UInt8) (stop : Nat) : Prop :=
  Relation.ReflTransGen (Narrows scan ignoreCase word text head)
    (min s (text.size - word.size) + 1) stop

include hscan in
-- A hit lies in the window.
theorem hit_lt (head : UInt8) (stop hit : Nat) (hstop : stop ≤ text.size)
    (hhit : scan.lastHead? ignoreCase head (text.extract 0 stop) = some hit) : hit < stop := by
  have hlast := lastHead?_last scan hscan ignoreCase head text stop hstop
  rw [hhit] at hlast
  exact hlast.2.1.1

include hscan in
/-- No window ends behind the one that the search begins with, and that is inside the text. -/
theorem window_le (s : Nat) (head : UInt8) (hpos : 0 < word.size) (hfits : word.size ≤ text.size)
    (stop : Nat) (h : Window scan ignoreCase word text s head stop) :
    stop ≤ min s (text.size - word.size) + 1 := by
  induction h with
  | refl => exact Nat.le_refl _
  | tail _ hstep ih =>
      have hlt := hit_lt scan hscan ignoreCase text head _ _ (by omega) hstep.2.1
      omega

include hscan in
-- Windows become smaller, so there are finitely many.
theorem acc_narrows (head : UInt8) (stop : Nat) (hstop : stop ≤ text.size) :
    Acc (flip (Narrows scan ignoreCase word text head)) stop := by
  induction stop using Nat.strongRecOn with
  | ind stop ih =>
      refine Acc.intro stop fun next hstep => ?_
      have hlt := hit_lt scan hscan ignoreCase text head stop next hstop hstep.2.1
      exact ih next hlt (by omega)

include hscan in
/-- The search gives the last occurrence up to `s`, and nothing just when there is none.
    Every window it comes through ends inside the text, every hit lies in its window with
    room for the word behind it, and from each window on there are finitely many. -/
theorem backwardSearch_exact (s : Nat) :
    (∀ t, lastOccurrence? scan ignoreCase word text s = some t ↔
      t ≤ s ∧ Occurs ignoreCase word text t ∧
        ∀ u, t < u → u ≤ s → ¬Occurs ignoreCase word text u) ∧
    (lastOccurrence? scan ignoreCase word text s = none ↔
      ¬∃ u, u ≤ s ∧ Occurs ignoreCase word text u) ∧
    ∀ head, word[0]? = some head → word.size ≤ text.size →
      ∀ stop, Window scan ignoreCase word text s head stop →
        stop ≤ text.size ∧
        (∀ hit, scan.lastHead? ignoreCase head (text.extract 0 stop) = some hit →
          hit < stop ∧ hit + word.size ≤ text.size) ∧
        Acc (flip (Narrows scan ignoreCase word text head)) stop := by
  have hlast := lastOccurrence?_last scan hscan ignoreCase word text s
  refine ⟨hlast.eq_some_iff, hlast.eq_none_iff, fun head hhead hfits stop hwindow => ?_⟩
  have hpos : 0 < word.size := (Array.getElem?_eq_some_iff.1 hhead).1
  have hle := window_le scan hscan ignoreCase word text s head hpos hfits stop hwindow
  have hstop : stop ≤ text.size := by omega
  refine ⟨hstop, fun hit hhit => ?_, acc_narrows scan hscan ignoreCase word text head stop hstop⟩
  have hlt := hit_lt scan hscan ignoreCase text head stop hit hstop hhit
  exact ⟨hlt, by omega⟩

-- The word `ab` is asked for up to a position behind the end of `abaBxa`. The last `a` is
-- outside the first window, the one before it is followed by another byte and ends the next.
theorem backwardSearch_exact_clamped :
    ByteScan.walk.Exact ∧
      lastOccurrence? .walk false #[0x61, 0x62] #[0x61, 0x62, 0x61, 0x42, 0x78, 0x61] 9 = some 0 ∧
      (∀ u, 0 < u → u ≤ 9 →
        ¬Occurs false #[0x61, 0x62] #[0x61, 0x62, 0x61, 0x42, 0x78, 0x61] u) ∧
      Window .walk false #[0x61, 0x62] #[0x61, 0x62, 0x61, 0x42, 0x78, 0x61] 9 0x61 2 ∧
      Acc (flip (Narrows .walk false #[0x61, 0x62]
        #[0x61, 0x62, 0x61, 0x42, 0x78, 0x61] 0x61)) 2 := by
  have hfound : lastOccurrence? .walk false #[0x61, 0x62]
      #[0x61, 0x62, 0x61, 0x42, 0x78, 0x61] 9 = some 0 := by decide +kernel
  have hexact := backwardSearch_exact .walk ByteScan.walk_exact false #[0x61, 0x62]
    #[0x61, 0x62, 0x61, 0x42, 0x78, 0x61] 9
  have hwindow : Window .walk false #[0x61, 0x62]
      #[0x61, 0x62, 0x61, 0x42, 0x78, 0x61] 9 0x61 2 :=
    Relation.ReflTransGen.single ⟨by decide, by decide +kernel, by decide +kernel⟩
  exact ⟨ByteScan.walk_exact, hfound, ((hexact.1 0).1 hfound).2.2, hwindow,
    (hexact.2.2 0x61 rfl (by decide) 2 hwindow).2.2⟩

end Backward

end Literal

end ByteRegex

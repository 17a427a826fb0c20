import ByteRegex.Proofs.Search.Matches
import ByteRegex.Template.Expand

/-!
# The Expansion of a Match

What a template expands to for a match that a search has found: one stretch of the
text after another, with the literals between them. Every stretch is there. An
expansion checks the bounds of a stretch before it copies, and a stretch out of
bounds would be left out without a report; but the positions of a match fit
together, so the check never fails.

The number of the highest group is a register of its own, and the template looks up
the group with that number. `Match.lastGroup?` asks the groups themselves, from the
last one down. The two agree for a consistent match, also where no group took part:
then the register is zero, and group zero is the whole match.

## Main definitions

* `Match.lastGroup?`: The span of the highest group that took part.
* `Reference.stretch?`: What a reference stands for.
* `Reference.lookUp?`: What an expansion looks up for it.
* `Piece.expansion`, `Piece.report?`: What becomes of a piece.

## Theorems

* `addReference_of_lookUp?`: An expansion adds what it looks up.
* `lookUp?_eq`: For a consistent match, what is looked up is what is meant.
* `lookUp?_inText`: It lies in the text.
* `foldl_addPiece`: An expansion is made piece by piece.
* `renew_found`: The expansion of a match that was found.
-/

namespace ByteRegex

/-- The span of the highest group that took part in a match; the whole match does not
    count as a group. -/
def Match.lastGroup? (m : Match) : Option Span :=
  (List.range' 1 9).reverse.findSome? m.group?

namespace Reference

variable (m : Match) (text : Bytes)

/-- The stretch of the text that a reference stands for. -/
def stretch? : Reference → Option Span
  | wholeMatch => some ⟨m.start, m.stop⟩
  | before => some ⟨0, m.start⟩
  | after => some ⟨m.stop, text.size⟩
  | highestGroup => some (m.lastGroup?.getD ⟨m.start, m.stop⟩)
  | group n => m.group? n

/-- The stretch that an expansion looks up for a reference. -/
def lookUp? : Reference → Option Span
  | wholeMatch => some m.span
  | before => some ⟨0, m.start⟩
  | after => some ⟨m.stop, text.size⟩
  | highestGroup => some ((m.group? m.highest).getD m.span)
  | group n => m.group? n

end Reference

namespace Piece

/-- The bytes that a piece expands to. -/
def expansion (m : Match) (text : Bytes) : Piece → Bytes
  | literal bytes => bytes
  | reference r =>
    match r.stretch? m text with
    | some s => text.extract s.start s.stop
    | none => #[]

/-- The report that a piece gives rise to: a numbered group that does not exist or took
    no part in the match. -/
def report? (m : Match) : Piece → Option Diagnostic
  | reference (.group n) => if 9 < n ∨ m.group? n = none then some (.noSuchGroup n) else none
  | _ => none

end Piece

-- There are no groups beyond the ninth.
theorem Match.group?_eq_none (m : Match) (n : Nat) (h : 9 < n) : m.group? n = none := by
  by_contra hsome
  rcases m.number_of_group? n hsome with ⟨k, rfl⟩
  have := k.isLt
  simp only [slots] at this
  omega

section LookUp

variable (m : Match) (text : Bytes)

/-- A reference adds the stretch that is looked up for it, if its bounds are right. -/
theorem addReference_of_lookUp? (e : Expansion) (r : Reference) (s : Span)
    (hs : r.lookUp? m text = some s) : e.addReference m text r = e.append (slice text s) := by
  cases r with
  | group n =>
      have hn : m.group? n = some s := hs
      simp only [Expansion.addReference, hn]
  | _ =>
      rw [← Option.some.inj hs]
      rfl

-- A reference that is found is not reported.
theorem report?_of_lookUp? (r : Reference) (s : Span) (hs : r.lookUp? m text = some s) :
    (Piece.reference r).report? m = none := by
  cases r with
  | group n =>
      have hn : m.group? n = some s := hs
      have hfound : ¬ (9 < n ∨ m.group? n = none) := by
        rw [hn]
        rintro (hbeyond | hnone)
        · exact Option.some_ne_none s (hn ▸ m.group?_eq_none n hbeyond)
        · exact Option.some_ne_none s hnone
      exact if_neg hfound
  | _ => rfl

end LookUp

-- The last hit below a bound is the first one on the way down.
theorem findSome?_reverse_range' {α : Type} (f : Nat → Option α) (last most : Nat) (a : α)
    (hpos : 0 < last) (hle : last ≤ most) (hlast : f last = some a)
    (hbeyond : ∀ n, last < n → f n = none) :
    (List.range' 1 most).reverse.findSome? f = some a := by
  induction most with
  | zero => omega
  | succ k ih =>
      rw [List.range'_1_concat, List.reverse_append, List.reverse_singleton,
        List.singleton_append, List.findSome?_cons]
      by_cases hk : last = 1 + k
      · rw [← hk, hlast]
      · rw [hbeyond (1 + k) (by omega)]
        exact ih (by omega)

section Consistent

variable (program : Program) (text : Bytes) (m : Match) (h : m.Consistent program text)

include h

/-- The register of the highest group names the last group that took part. -/
theorem lastGroup?_of_consistent : (m.group? m.highest).getD m.span = m.lastGroup?.getD m.span := by
  rcases h.highest with ⟨hzero, hnone⟩ | ⟨hpos, hsome, hlast⟩
  · -- Without a group the whole match is looked up, by its number zero.
    have hno : m.lastGroup? = none := by
      rw [Match.lastGroup?, List.findSome?_eq_none_iff]
      intro n hn
      rw [List.mem_reverse, List.mem_range'_1] at hn
      exact hnone n hn.1
    rw [hzero, h.whole, hno]
    rfl
  · rcases Option.ne_none_iff_exists'.1 hsome with ⟨s, hs⟩
    have hle : m.highest ≤ 9 := by
      by_contra hbeyond
      exact hsome (m.group?_eq_none _ (by omega))
    have hbeyond : ∀ n, m.highest < n → m.group? n = none := by
      intro n hn
      by_contra hgroup
      have := hlast n (by omega) hgroup
      omega
    rw [Match.lastGroup?, findSome?_reverse_range' m.group? m.highest 9 s hpos hle hs hbeyond, hs]

/-- For a consistent match, the stretch that is looked up is the one that is meant. -/
theorem lookUp?_eq (r : Reference) : r.lookUp? m text = r.stretch? m text := by
  cases r with
  | highestGroup => exact congrArg some (lastGroup?_of_consistent program text m h)
  | _ => rfl

-- The span of a group lies in the match, that of group zero being the match.
theorem group?_inText (n : Nat) (s : Span) (hs : m.group? n = some s) :
    s.start ≤ s.stop ∧ s.stop ≤ text.size := by
  by_cases hn : n = 0
  · rw [hn, h.whole] at hs
    rw [← Option.some.inj hs]
    exact ⟨h.start_le, h.stop_le⟩
  · have hinside := h.inside n s (Nat.pos_of_ne_zero hn) hs
    exact ⟨hinside.2.1, Nat.le_trans hinside.2.2 h.stop_le⟩

/-- The stretch that is looked up lies in the text. -/
theorem lookUp?_inText (r : Reference) (s : Span) (hs : r.lookUp? m text = some s) :
    s.start ≤ s.stop ∧ s.stop ≤ text.size := by
  have hstop := h.stop_le
  have hwhole := group?_inText program text m h 0 m.span h.whole
  cases r with
  | wholeMatch => rwa [← Option.some.inj hs]
  | before =>
      rw [← Option.some.inj hs]
      exact ⟨Nat.zero_le _, Nat.le_trans h.start_le hstop⟩
  | after =>
      rw [← Option.some.inj hs]
      exact ⟨hstop, Nat.le_refl _⟩
  | highestGroup =>
      rw [← Option.some.inj hs]
      cases hgroup : m.group? m.highest with
      | none => exact hwhole
      | some g => exact group?_inText program text m h _ g hgroup
  | group n => exact group?_inText program text m h n s hs

/-- What a piece adds to an expansion: the bytes that it stands for, and its report. -/
theorem addPiece_of_consistent (e : Expansion) (p : Piece) :
    e.addPiece m text p =
      ⟨e.bytes ++ p.expansion m text, e.diagnostics ++ (p.report? m).toList⟩ := by
  cases p with
  | literal bytes => exact congrArg (Expansion.mk _) (List.append_nil _).symm
  | reference r =>
      cases hs : r.lookUp? m text with
      | some s =>
          have hslice : slice text s = (Piece.reference r).expansion m text := by
            rw [slice, if_pos (lookUp?_inText program text m h r s hs), Piece.expansion,
              ← lookUp?_eq program text m h, hs]
          rw [report?_of_lookUp? m text r s hs, ← hslice, Option.toList_none, List.append_nil]
          exact addReference_of_lookUp? m text e r s hs
      | none =>
          -- Only a numbered group can be missing.
          cases r with
          | group n =>
              have hn : m.group? n = none := hs
              have hbytes : (Piece.reference (.group n)).expansion m text = #[] := by
                simp only [Piece.expansion, Reference.stretch?, hn]
              rw [Piece.report?, if_pos (Or.inr hn), hbytes, Array.append_empty]
              simp only [Expansion.addPiece, Expansion.addReference, hn]
              rfl
          | _ => exact absurd hs (Option.some_ne_none _)

/-- An expansion is made piece by piece, behind what it holds. -/
theorem foldl_addPiece (e : Expansion) (pieces : List Piece) :
    pieces.foldl (Expansion.addPiece m text) e =
      ⟨e.bytes ++ (pieces.flatMap fun p => (p.expansion m text).toList).toArray,
        e.diagnostics ++ pieces.filterMap (Piece.report? m)⟩ := by
  induction pieces generalizing e with
  | nil =>
      rw [List.foldl_nil, List.flatMap_nil, List.filterMap_nil, Array.append_empty, List.append_nil]
  | cons p rest ih =>
      have hreports : (p :: rest).filterMap (Piece.report? m) =
          (p.report? m).toList ++ rest.filterMap (Piece.report? m) := by
        cases hp : p.report? m with
        | none => rw [List.filterMap_cons_none hp, Option.toList_none, List.nil_append]
        | some d => rw [List.filterMap_cons_some hp, Option.toList_some, List.singleton_append]
      rw [List.foldl_cons, ih, addPiece_of_consistent program text m h, hreports,
        List.flatMap_cons, ← List.append_toArray, Array.toArray_toList, Array.append_assoc,
        List.append_assoc]

/-- The text before a match, the match and the text after it make up the text. -/
theorem extract_around : text.extract 0 m.start ++
    (text.extract m.start m.stop ++ text.extract m.stop text.size) = text := by
  rw [Array.extract_append_extract, Nat.min_eq_left h.start_le, Nat.max_eq_right h.stop_le,
    Array.extract_append_extract, Nat.min_eq_left (Nat.zero_le _),
    Nat.max_eq_right (Nat.le_trans h.start_le h.stop_le), Array.extract_size]

end Consistent

/-- The expansion of a match that a search has found, in the place of whatever expansion
    was made before. It is the concatenation of what the pieces stand for: a literal its
    bytes, a reference its stretch of the text, and a group without a span nothing; the
    reports are those of the numbered groups that do not exist or took no part, in the
    order of the pieces. Every stretch that is looked up lies in the text, so that the
    check of its bounds never fails. The text before the match, the match and the text
    after it give the text back. -/
theorem renew_found (options : CompileOptions) (pattern : Bytes) (program : Program)
    (h : compile options pattern = .ok program) (text : Bytes) (offset : Nat)
    (search : SearchOptions) (scan : ExactScan) (m : Match)
    (hm : program.search text offset search scan = some m)
    (earlier : Expansion) :
    (∀ t : Template, earlier.renew t m text =
        ⟨(t.pieces.flatMap fun p => (p.expansion m text).toList).toArray,
          t.pieces.filterMap (Piece.report? m)⟩) ∧
      (∀ r s, Reference.lookUp? m text r = some s → s.start ≤ s.stop ∧ s.stop ≤ text.size) ∧
      ∀ t : Template, t.pieces = [.reference .before, .reference .wholeMatch, .reference .after] →
        earlier.renew t m text = ⟨text, []⟩ := by
  have hconsistent : m.Consistent program text := by
    rcases compile_ok options pattern program h with ⟨t, ht, rfl⟩
    exact (found_consistent options t ht text scan offset search m hm).1
  have hall (t : Template) : earlier.renew t m text =
      ⟨(t.pieces.flatMap fun p => (p.expansion m text).toList).toArray,
        t.pieces.filterMap (Piece.report? m)⟩ := by
    rw [Expansion.renew, Expansion.clear_eq, foldl_addPiece program text m hconsistent,
      Array.empty_append, List.nil_append]
  refine ⟨hall, lookUp?_inText program text m hconsistent, fun t ht => ?_⟩
  have haround : (t.pieces.flatMap fun p => (p.expansion m text).toList).toArray = text := by
    rw [ht]
    change ((text.extract 0 m.start).toList ++ ((text.extract m.start m.stop).toList ++
      ((text.extract m.stop text.size).toList ++ []))).toArray = text
    rw [List.append_nil, ← Array.toList_append, ← Array.toList_append, Array.toArray_toList]
    exact extract_around program text m hconsistent
  rw [hall, haround, ht]
  rfl

-- In `xbcy` the pattern `(a)|(b)c` matches by its second alternative. The template
-- ``$1${12}$`$+$'`` refers to a group that took no part, to one that does not exist, to
-- the text before, to the highest group, and to the text after.
theorem renew_found_missing :
    ∃ program m, compile { dialect := .perl }
        #[0x28, 0x61, 0x29, 0x7C, 0x28, 0x62, 0x29, 0x63] = .ok program ∧
      program.search #[0x78, 0x62, 0x63, 0x79] 0 .forward = some m ∧
      (Expansion.mk #[0x7A] [.noSuchGroup 3]).renew
        (Template.read .perl
          #[0x24, 0x31, 0x24, 0x7B, 0x31, 0x32, 0x7D, 0x24, 0x60, 0x24, 0x2B, 0x24, 0x27])
        m #[0x78, 0x62, 0x63, 0x79] =
        ⟨#[0x78, 0x62, 0x79], [.noSuchGroup 1, .noSuchGroup 12]⟩ := by
  rcases exists_ok_of_any (compile { dialect := .perl }
    #[0x28, 0x61, 0x29, 0x7C, 0x28, 0x62, 0x29, 0x63])
    (fun program => decide (program.search #[0x78, 0x62, 0x63, 0x79] 0 .forward = some
      ⟨1, 3, #v[some ⟨1, 3⟩, none, some ⟨1, 2⟩, none, none, none, none, none, none, none], 2,
        none⟩)) (by decide +kernel) with ⟨program, h, hvalue⟩
  have hm := of_decide_eq_true hvalue
  refine ⟨program, _, h, hm, ?_⟩
  rw [(renew_found _ _ program h _ 0 .forward .walk _ hm _).1]
  decide +kernel

end ByteRegex

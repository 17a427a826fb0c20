import ByteRegex.Proofs.Regex.Iteration
import ByteRegex.Regex.Replace

/-!
# A Replacement Is a Splice

What replacing makes of a text, said of the matches alone: the stretches between them
as they are, and in the place of each match its expansion. `spliced` puts the pieces
together, and `replace_splices` says that this is what the loop produces, over the
matches that an iterator gives or over the first of them.

The loop does not work like that. Behind an empty match it copies the byte that the next
search skips, and then takes the stretch up to the next match from one byte further on;
at the end of the text there is no such byte, and it runs past the end. `Completes` is
what it keeps: whatever has been copied, the stretch from there on is still to come, so
that copying ahead makes no difference as long as no match begins there.

No byte is lost and none is doubled, so a template that refers to the whole match and
to nothing else gives the text back.

## Main definitions

* `spliced`: The text from a position on with its matches replaced.
* `Replacement.ofMatches`: The replacement of a list of matches.
* `Splice.Completes`: How a replacement under way comes to its end.

## Theorems

* `extract_spliced`: Up to the next match the text is as it was.
* `completes_replace`, `completes_copySkipped`: What the steps of the loop do.
* `replaceFrom_completes`: The loop replaces the matches that are listed.
* `spliced_wholeMatch`: Matches that are replaced by themselves leave the text as it is.
* `replace_splices`: A replacement is the splice over the matches of an iterator.
-/

namespace ByteRegex

/-- The text from a position on, with the expansion of a template in the place of each
    match. -/
def spliced (text : Bytes) (template : Template) : (pos : Nat) → List Match → Bytes
  | pos, [] => text.extract pos text.size
  | pos, m :: rest =>
    text.extract pos m.start ++ (template.expand m text).bytes ++
      spliced text template m.stop rest

/-- The replacement of some matches of a text: the text with their expansions, how many
    they are, and what their expansions reported. -/
def Replacement.ofMatches (text : Bytes) (template : Template) (ms : List Match) :
    Replacement where
  text := Utf8.lossy (spliced text template 0 ms)
  count := ms.length
  diagnostics := ms.flatMap fun m => (template.expand m text).diagnostics

-- Two stretches in a row, the second up to the end of the text. The first may run past it.
theorem extract_append_rest (text : Bytes) (pos mid : Nat) (hmid : pos ≤ mid) :
    text.extract pos mid ++ text.extract mid text.size = text.extract pos text.size := by
  rw [Array.extract_append_extract, Nat.min_eq_left hmid]
  refine Array.ext ?_ fun i _ _ => ?_
  · simp only [Array.size_extract]
    omega
  · simp only [Array.getElem_extract]

/-- Up to the next match the text is as it was, so that it may be copied ahead. -/
theorem extract_spliced (text : Bytes) (template : Template) (pos mid : Nat) (ms : List Match)
    (hmid : pos ≤ mid) (hbehind : InOrder text.size mid ms) :
    text.extract pos mid ++ spliced text template mid ms = spliced text template pos ms := by
  cases ms with
  | nil => exact extract_append_rest text pos mid hmid
  | cons m rest =>
      rw [spliced, spliced, ← Array.append_assoc, ← Array.append_assoc,
        Array.extract_append_extract, Nat.min_eq_left hmid, Nat.max_eq_right hbehind.1]

/-- Replacing the matches `ms` brings a replacement under way from `s` to `s'`: with the
    rest of the text behind it, `s'` has produced the splice, and it has counted the
    matches and collected what their expansions reported. -/
structure Splice.Completes (text : Bytes) (template : Template) (s : Splice) (ms : List Match)
    (s' : Splice) : Prop where
  out : s'.out ++ text.extract s'.copied text.size = s.out ++ spliced text template s.copied ms
  count : s'.count = s.count + ms.length
  diagnostics : s'.diagnostics =
    s.diagnostics ++ ms.flatMap fun m => (template.expand m text).diagnostics

section Steps

variable (text : Bytes) (template : Template)

theorem completes_nil (s : Splice) : s.Completes text template [] s :=
  ⟨rfl, rfl, (List.append_nil _).symm⟩

/-- To put a match in its place is to replace it before the others. -/
theorem completes_replace (s s' : Splice) (m : Match) (ms : List Match)
    (h : (s.replace text template m).Completes text template ms s') :
    s.Completes text template (m :: ms) s' where
  out := by
    rw [h.out, spliced, Splice.replace]
    simp only [Array.append_assoc]
  count := by
    rw [h.count, List.length_cons, Splice.replace, Nat.add_assoc, Nat.add_comm 1]
  diagnostics := by
    rw [h.diagnostics, List.flatMap_cons, Splice.replace, List.append_assoc]

-- One byte, if it is there, is a stretch of one position.
theorem toArray_getElem? (pos : Nat) : (text[pos]?).toArray = text.extract pos (pos + 1) := by
  by_cases hpos : pos < text.size
  · have hpush := Array.push_extract_getElem (i := pos) hpos
    rw [Nat.min_self, Array.extract_empty_of_stop_le_start (Nat.le_refl pos)] at hpush
    rw [Array.getElem?_eq_getElem hpos, ← hpush]
    rfl
  · rw [Array.getElem?_eq_none (Nat.le_of_not_lt hpos),
      Array.extract_empty_of_size_le_start (Nat.le_of_not_lt hpos)]
    rfl

/-- To copy the byte that is skipped behind a match changes nothing, if the others begin
    where the next search does. -/
theorem completes_copySkipped (s s' : Splice) (m : Match) (ms : List Match)
    (hcopied : s.copied = m.stop) (hbehind : InOrder text.size m.resume ms)
    (h : (s.copySkipped text m).Completes text template ms s') :
    s.Completes text template ms s' := by
  rw [Splice.copySkipped] at h
  by_cases hempty : m.isEmpty = true
  · rw [if_pos hempty] at h
    rw [Match.resume, if_pos hempty] at hbehind
    refine ⟨?_, h.count, h.diagnostics⟩
    rw [h.out, toArray_getElem?, Array.append_assoc,
      extract_spliced text template m.stop (m.stop + 1) ms (Nat.le_succ _) hbehind, hcopied]
  · rwa [if_neg hempty] at h

-- The text has been dealt with up to where the next search begins.
theorem copySkipped_copied (s : Splice) (m : Match) :
    ((s.replace text template m).copySkipped text m).copied = m.resume := by
  rw [Splice.copySkipped, Match.resume]
  split <;> rfl

/-- The loop replaces the matches that are listed from the position on, up to which the
    text has been dealt with. The induction is along the listing. -/
theorem replaceFrom_completes (r : Regex) (scan : ExactScan) (h : r.FindsAhead text scan)
    (pos : Nat) (s : Splice) (hcopied : s.copied = pos) :
    s.Completes text template (r.findAllFrom text pos scan)
      (r.replaceFrom text template pos s scan) := by
  fun_induction Regex.findAllFrom r text pos scan generalizing s with
  | case1 pos hpos hnone =>
      rw [Regex.replaceFrom, if_pos hpos, hnone]
      exact completes_nil text template s
  | case2 pos hpos m hm hlt ih =>
      rw [Regex.replaceFrom, if_pos hpos, hm]
      simp only [if_pos hlt]
      refine completes_replace text template s _ m _ ?_
      refine completes_copySkipped text template _ _ m _ rfl
        (findAllFrom_inOrder r text scan h _) ?_
      exact ih _ (copySkipped_copied text template s m)
  | case3 pos hpos m hm hlt =>
      -- The next search always begins further on.
      have hahead := h pos m hm
      rw [Match.resume_eq m hahead.2.1] at hlt
      omega
  | case4 pos hpos =>
      rw [Regex.replaceFrom, if_neg hpos]
      exact completes_nil text template s

/-- What a replacement from the beginning of the text ends with. -/
theorem finish_of_completes (s : Splice) (ms : List Match)
    (h : ({} : Splice).Completes text template ms s) :
    s.finish text = Replacement.ofMatches text template ms := by
  rw [Splice.finish, Replacement.ofMatches, h.out, h.count, h.diagnostics, Array.empty_append,
    List.nil_append, Nat.zero_add]

-- A template of one reference to the whole match expands to the match.
theorem expand_wholeMatch (h : template.pieces = [.reference .wholeMatch]) (m : Match)
    (hle : m.start ≤ m.stop) (hsize : m.stop ≤ text.size) :
    (template.expand m text).bytes = text.extract m.start m.stop := by
  rw [Template.expand, h]
  change #[] ++ slice text m.span = _
  rw [Array.empty_append, slice]
  exact if_pos ⟨hle, hsize⟩

/-- Matches that are replaced by themselves leave the text as it is. -/
theorem spliced_wholeMatch (h : template.pieces = [.reference .wholeMatch]) (pos : Nat)
    (ms : List Match) (horder : InOrder text.size pos ms) :
    spliced text template pos ms = text.extract pos text.size := by
  induction ms generalizing pos with
  | nil => rfl
  | cons m rest ih =>
      rcases horder with ⟨hstart, hle, hsize, hrest⟩
      -- What follows stands in order from the end of the match on, too.
      have hstop : InOrder text.size m.stop rest := by
        cases rest with
        | nil => trivial
        | cons m' rest =>
            refine ⟨Nat.le_trans ?_ hrest.1, hrest.2⟩
            rw [Match.resume_eq m hle]
            exact Nat.le_max_left _ _
      rw [spliced, expand_wholeMatch text template h m hle hsize, ih m.stop hstop,
        Array.extract_append_extract, Nat.min_eq_left hstart, Nat.max_eq_right hle]
      exact extract_append_rest text pos m.stop (Nat.le_trans hstart hle)

end Steps

/-- A replacement is a splice over the matches that an iterator gives: those of one list,
    which stand one behind the other in the text. Replacing everywhere puts the expansion
    of the template in the place of each of them, counts them, and reports what the
    expansions report, in the order of the matches. Otherwise this is done for the first
    match, if there is one. With a template that is just a reference to the whole match
    the result is the text itself. -/
theorem replace_splices (options : CompileOptions) (pattern : Bytes) (r : Regex)
    (h : Regex.ofPattern pattern options = .ok r) (text : Bytes) (template : Template)
    (scan : ExactScan) :
    (∀ ms, (MatchIterator.mk r text 0 scan).Visits ms ↔ ms = r.findAll text scan) ∧
      InOrder text.size 0 (r.findAll text scan) ∧
      r.replace text template true scan
        = Replacement.ofMatches text template (r.findAll text scan) ∧
      r.replace text template false scan
        = Replacement.ofMatches text template ((r.findAll text scan).take 1) ∧
      (template.pieces = [.reference .wholeMatch] →
        ∀ everywhere, (r.replace text template everywhere scan).text = Utf8.lossy text) := by
  have hahead := findsAhead_of_ofPattern pattern options r h text scan
  have horder : InOrder text.size 0 (r.findAll text scan) :=
    findAllFrom_inOrder r text scan hahead 0
  have hall : r.replace text template true scan =
      Replacement.ofMatches text template (r.findAll text scan) := by
    rw [Regex.replace, if_pos rfl]
    exact finish_of_completes text template _ _
      (replaceFrom_completes text template r scan hahead 0 {} rfl)
  have hfirst : r.replace text template false scan =
      Replacement.ofMatches text template ((r.findAll text scan).take 1) := by
    rw [Regex.replace, if_neg Bool.false_ne_true, Regex.findAll, Regex.findAllFrom,
      if_pos (Nat.zero_le _)]
    cases hfind : r.find? text 0 scan with
    | none => exact finish_of_completes text template _ _ (completes_nil text template {})
    | some m =>
        have hone := finish_of_completes text template _ [m]
          (completes_replace text template {} _ m [] (completes_nil text template _))
        simp only
        split <;> exact hone
  refine ⟨visits_iff r text scan hahead 0, horder, hall, hfirst, fun hwhole everywhere => ?_⟩
  have hself (ms : List Match) (hms : InOrder text.size 0 ms) :
      (Replacement.ofMatches text template ms).text = Utf8.lossy text := by
    rw [Replacement.ofMatches, spliced_wholeMatch text template hwhole 0 ms hms, Array.extract_size]
  cases everywhere with
  | true => exact hall ▸ hself _ horder
  | false => exact hfirst ▸ hself _ (horder.take _ _ _ 1)

-- The pattern `a*` matches three letters of `baaac` together and the empty text at three
-- places, one of them right behind those letters and one at the end.
theorem replace_splices_empty :
    ∃ r, Regex.ofPattern #[0x61, 0x2A] { dialect := .perl } = .ok r ∧
      r.replace #[0x62, 0x61, 0x61, 0x61, 0x63] (Template.read .perl #[0x2D]) true
        = ⟨"-b--c-", 4, []⟩ ∧
      r.replace #[0x62, 0x61, 0x61, 0x61, 0x63] (Template.read .perl #[0x2D]) true
        = Replacement.ofMatches #[0x62, 0x61, 0x61, 0x61, 0x63] (Template.read .perl #[0x2D])
          (r.findAll #[0x62, 0x61, 0x61, 0x61, 0x63]) := by
  rcases exists_ok_of_any (Regex.ofPattern #[0x61, 0x2A] { dialect := .perl })
    (fun r => decide (r.replace #[0x62, 0x61, 0x61, 0x61, 0x63] (Template.read .perl #[0x2D]) true
      = ⟨"-b--c-", 4, []⟩)) (by decide +kernel) with ⟨r, h, hvalue⟩
  exact ⟨r, h, of_decide_eq_true hvalue, (replace_splices _ _ r h _ _ .walk).2.2.1⟩

end ByteRegex

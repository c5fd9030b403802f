import RouteScaffold.Proofs.Edit.Statements

/-!
# Taking Out the Lines with a Word

Erasing the lines with a word is a filter on the lines of a text, whatever the text and
whatever the word is made of, as long as it has no line break in it. A line is one of those
if the word stands in it with a boundary on either side, and since a line break is outside
words, it makes no difference whether one looks at the line or at the whole text.

So a second erasure finds nothing. This is also so in a file, although the text that the
second one finds may have lost some carriage returns: a place where a word stands in a text
whose pairs have been turned is one where it stood before.

## Main definitions

* `Text.HasWord`: A word stands in a text with a boundary on either side.

## Theorems

* `hasWord_iff_rows`: A word stands in a text if it stands in one of its lines.
* `hasWord_of_toLf`: Turning the pairs of a text puts no word in it.
* `erase_lineWith_eq_self_iff`: What is left as it is.
* `line_removal_filters`: The removal of the lines with a word, from texts and from files.
-/

namespace RouteScaffold

open Cursor

namespace Text

variable {w t : Text}

/-- A word stands in a text with a boundary on either side. -/
def HasWord (w t : Text) : Prop :=
  ∃ s r, t = s ++ (w ++ r) ∧ atBoundary s.getLast? (w ++ r).head? = true
    ∧ atBoundary (s ++ w).getLast? r.head? = true

theorem mentions_iff_hasWord : mentions w t = true ↔ HasWord w t := by
  rw [mentions_eq, mentionsFrom_iff]
  simp only [HasWord, ← passed_none, passed_append]

instance : Decidable (HasWord w t) := decidable_of_iff _ mentions_iff_hasWord

/-! ### Words and lines -/

/-- A word stands in a text if it stands in one of its lines. -/
theorem hasWord_iff_rows (hne : w ≠ []) (hw : '\n' ∉ w) :
    HasWord w t ↔ ∃ row ∈ rows t, HasWord w row := by
  simp only [← mentions_iff_hasWord]
  induction t using lineInduction with
  | last u hu =>
      by_cases hnil : u = []
      · rw [hnil, mentions_eq, mentionsFrom_nil hne]
        simp [rows]
      · rw [rows_of_line hnil hu]
        simp
  | line u r hu ih =>
      rw [rows_line_append hu, mentions_eq, mentionsFrom_delimited hne (by decide) hw,
        ← mentions_eq, Pattern.mentionsFrom_lineStart (by simp) hne, Bool.or_eq_true, ih]
      simp only [List.mem_cons, exists_eq_or_imp, Pattern.mentions_row hne hw]

/-- The rows that are kept are the rows of what is left. -/
theorem rows_filter_flatten (keep : Text → Bool) (t : Text) :
    rows ((rows t).filter keep).flatten = (rows t).filter keep := by
  induction t using lineInduction with
  | last u hu =>
      -- Nothing behind the last line break is no row.
      by_cases hnil : u = []
      · rw [hnil]
        rfl
      · rw [rows_of_line hnil hu, List.filter_singleton]
        cases keep u with
        | false => rfl
        | true => simpa using rows_of_line hnil hu
  | line u r hu ih =>
      rw [rows_line_append hu, List.filter_cons]
      -- Whether a row is kept says nothing about those behind it.
      cases keep (u ++ ['\n']) with
      | false => exact ih
      | true =>
          rw [if_pos rfl, List.flatten_cons, List.append_assoc, List.singleton_append,
            rows_line_append hu, ih]

/-! ### Words and line endings -/

/-- The first character of a text is part of a word exactly if the first one of its view
    is. -/
theorem any_head?_toLf (t : Text) : (toLf t).head?.any isWord = t.head?.any isWord := by
  cases t using turnInduction with
  | nil => rfl
  | pair t _ =>
      rw [toLf_pair]
      exact show isWord '\n' = isWord '\r' by decide
  | cons c t hc _ => rw [toLf_cons hc, List.head?_cons, List.head?_cons]

/-- Turning the pairs of a text puts no word in it. -/
theorem hasWord_of_toLf (hne : w ≠ []) (hw : '\n' ∉ w) (h : HasWord w (toLf t)) : HasWord w t := by
  rcases h with ⟨s, r, heq, hfront, hback⟩
  rcases exists_of_toLf_append heq with ⟨s', u, rfl, rfl, hu⟩
  rcases exists_of_toLf_append hu with ⟨w', r', rfl, hturned, rfl⟩
  have hsame : w' = w := by
    rw [← hturned]
    exact (toLf_of_no_break fun hmem => hw (hturned ▸ break_mem_toLf hmem)).symm
  subst hsame
  refine ⟨s', r', rfl, ?_, ?_⟩
  · rw [← passed_none, passed_toLf, passed_none, List.head?_append_of_ne_nil _ hne] at hfront
    rw [List.head?_append_of_ne_nil _ hne]
    exact hfront
  · rw [List.getLast?_append_of_ne_nil _ hne] at hback ⊢
    rwa [atBoundary, any_head?_toLf] at hback

end Text

namespace Pattern

open Text

variable {w t : Text}

theorem erase_lineWith_eq_filter (hne : w ≠ []) (hw : '\n' ∉ w) (t : Text) :
    erase (.lineWith w) t = ((rows t).filter fun row => ¬ HasWord w row).flatten := by
  rw [erase_lineWith hne hw]
  congr 2
  funext row
  rw [decide_not, Bool.not_inj_iff, Bool.eq_iff_iff, decide_eq_true_iff, mentions_iff_hasWord]

/-- A text is left as it is exactly if the word stands in none of its lines. -/
theorem erase_lineWith_eq_self_iff (hne : w ≠ []) (hw : '\n' ∉ w) :
    erase (.lineWith w) t = t ↔ ¬ HasWord w t := by
  rw [erase_lineWith_eq_filter hne hw, hasWord_iff_rows hne hw]
  constructor
  · rintro h ⟨row, hrow, hword⟩
    have hrows := rows_filter_flatten (fun row => ¬ HasWord w row) t
    rw [h] at hrows
    simpa [hword] using List.filter_eq_self.mp hrows.symm row hrow
  · intro h
    have hkept : ((rows t).filter fun row => ¬ HasWord w row) = rows t :=
      List.filter_eq_self.mpr fun row hrow => decide_eq_true fun hword => h ⟨row, hrow, hword⟩
    rw [hkept, rows_flatten]

/-- The word stands nowhere in what is left. -/
theorem not_hasWord_erase_lineWith (hne : w ≠ []) (hw : '\n' ∉ w) (t : Text) :
    ¬ HasWord w (erase (.lineWith w) t) := by
  rw [hasWord_iff_rows hne hw, erase_lineWith_eq_filter hne hw, rows_filter_flatten]
  rintro ⟨row, hrow, hword⟩
  simp [hword] at hrow

end Pattern

namespace Job

open Text Pattern Disk

variable {w raw : Text} {p : Path} {d d' : Disk}

theorem written_eraseLines (hne : w ≠ []) (hw : '\n' ∉ w) (file raw : Text) :
    (Edit.erase (.lineWith w)).written file raw = .ok (if HasWord w raw.toLf then
      some ((Pattern.erase (.lineWith w) raw.toLf).withEnding (.detect raw)) else none) := by
  simp only [Edit.written, Edit.apply, bind, Except.bind, pure, Except.pure,
    erase_lineWith_eq_self_iff hne hw, ite_not]

/-- A removal that finds none of the lines changes nothing. -/
theorem on_eraseLines_of_none (hne : w ≠ []) (hw : '\n' ∉ w) (hread : (readRaw p).on d = (.ok raw, d))
    (h : ¬ HasWord w raw.toLf) : (edit p (.erase (.lineWith w))).on d = (.ok false, d) := by
  rw [edit_of_not_append (by simp [Edit.operation]), on_editExisting_of_read hread, written_eraseLines hne hw,
    if_neg h]

/-- A removal that finds some of the lines leaves none of them. -/
theorem on_eraseLines_of_some (hne : w ≠ []) (hw : '\n' ∉ w) (hread : (readRaw p).on d = (.ok raw, d))
    (h : HasWord w raw.toLf) {loc : Location} (hreplace : d.replaceable p = .ok loc) :
    ∃ d', (edit p (.erase (.lineWith w))).on d = (.ok true, d')
      ∧ (edit p (.erase (.lineWith w))).on d' = (.ok false, d') := by
  rcases replaceable_made hreplace
    ((Pattern.erase (.lineWith w) raw.toLf).withEnding (.detect raw)) with ⟨hagain, hnow⟩
  refine ⟨_, ?_, on_eraseLines_of_none hne hw
    (on_readRaw_text (replaceable_eq hagain).1 hnow) ?_⟩
  · rw [edit_of_not_append (by simp [Edit.operation]), on_editExisting_of_read hread, written_eraseLines hne hw,
      if_pos h, hreplace]
  · exact reread (P := fun t => ¬ HasWord w t) (fun t ht hword => ht (hasWord_of_toLf hne hw hword))
      (not_hasWord_erase_lineWith hne hw _) _

/-- The removal of the lines with a word filters the lines of a text. From a file it takes
    something exactly if one of the lines of its view has the word, and then nothing is left
    for a second one. -/
theorem line_removal_filters (hne : w ≠ []) (hw : '\n' ∉ w) :
    (∀ t, Pattern.erase (.lineWith w) t = ((rows t).filter fun row => ¬ HasWord w row).flatten)
    ∧ (∀ t, Pattern.erase (.lineWith w) (Pattern.erase (.lineWith w) t) = Pattern.erase (.lineWith w) t)
    ∧ ∀ p d raw, (readRaw p).on d = (.ok raw, d) →
      ((d.replaceable p).isOk = true → ∃ b d', (edit p (.erase (.lineWith w))).on d = (.ok b, d'))
      ∧ ∀ b d', (edit p (.erase (.lineWith w))).on d = (.ok b, d') →
        (b = true ↔ ∃ row ∈ rows raw.toLf, HasWord w row)
          ∧ (edit p (.erase (.lineWith w))).on d' = (.ok false, d') := by
  refine ⟨erase_lineWith_eq_filter hne hw, fun t =>
    (erase_lineWith_eq_self_iff hne hw).mpr (not_hasWord_erase_lineWith hne hw t), fun p d raw hread => ?_⟩
  rw [← hasWord_iff_rows hne hw]
  -- If there is such a line the file is exchanged, or cannot be; otherwise it is left alone.
  by_cases h : HasWord w raw.toLf
  · cases hreplace : d.replaceable p with
    | ok loc =>
        rcases on_eraseLines_of_some hne hw hread h hreplace with ⟨d', hfirst, hsecond⟩
        refine ⟨fun _ => ⟨true, d', hfirst⟩, fun b e he => ?_⟩
        rw [hfirst, Prod.mk.injEq, Except.ok.injEq] at he
        rw [← he.1, ← he.2]
        exact ⟨iff_of_true rfl h, hsecond⟩
    | error f =>
        refine ⟨fun hok => absurd hok (by simp [Except.isOk, Except.toBool]), fun b e he => ?_⟩
        rw [edit_of_not_append (by simp [Edit.operation]), on_editExisting_of_read hread, written_eraseLines hne hw,
          if_pos h, hreplace] at he
        exact absurd he (by simp)
  · have hfirst := on_eraseLines_of_none hne hw hread h
    refine ⟨fun _ => ⟨false, d, hfirst⟩, fun b e he => ?_⟩
    rw [hfirst, Prod.mk.injEq, Except.ok.injEq] at he
    rw [← he.1, ← he.2]
    exact ⟨iff_of_false (by simp) h, hfirst⟩

/-- A file that uses pairs, and lists a name as a word, in part of a word, and as a word
    again on a last line without a line break. -/
def listing : Disk :=
  .fresh ⟨[(["route.tsx".toList], .file (.text "aRoute,\r\nsubaRoute,\r\n  aRoute".toList))]⟩ []

theorem line_removal_filters_listing : ("aRoute".toList ≠ [] ∧ '\n' ∉ "aRoute".toList)
    ∧ Pattern.erase (.lineWith "aRoute") "aRoute,\nsubaRoute,\n  aRoute" = "subaRoute,\n".toList
    ∧ ∃ d', (edit (Path.ofText "route.tsx") (.erase (.lineWith "aRoute"))).on listing = (.ok true, d')
      ∧ (edit (Path.ofText "route.tsx") (.erase (.lineWith "aRoute"))).on d' = (.ok false, d') := by
  have hword : "aRoute".toList ≠ [] ∧ '\n' ∉ "aRoute".toList := by decide
  rcases line_removal_filters hword.1 hword.2 with ⟨hfilter, -, hfile⟩
  refine ⟨hword, (hfilter _).trans (by decide), ?_⟩
  rcases hfile (Path.ofText "route.tsx") listing _ rfl with ⟨hreturns, hreports⟩
  rcases hreturns rfl with ⟨b, d', hfirst⟩
  rcases hreports b d' hfirst with ⟨hiff, hsecond⟩
  rw [hiff.mpr ⟨"aRoute,\n".toList, by decide, by decide⟩] at hfirst
  exact ⟨d', hfirst, hsecond⟩

end Job

end RouteScaffold

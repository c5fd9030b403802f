import RouteScaffold.Proofs.Edit.Statements
import RouteScaffold.Proofs.Edit.Uniform

/-!
# Lines behind the Heads of Arrays

What is entered into an array is put behind its opening bracket, wherever on a line
the bracket is, and it is taken out again by the line. So what follows the bracket on
its line shares the line of the entry, and goes with it.

A line in front of the file does not move the place of the entry to another head, as
long as no head can begin on that line. A head begins with its keywords, which are
known by a gap or a colon among them.

## Main definitions

* `Occurrence.endLine`: A text without what follows an occurrence on its line.
* `Anchor.IsHead`: The anchors that are heads of arrays.
* `Pattern.HeadStart`: What the first part of a head is like.

## Theorems

* `erase_lineWith_entry`: An erasure takes out the rest of the line with the entry.
* `IsHead.locate_behindLine`: A head behind a line is the head that it was.
* `Fits.endLine`: What is left of the text fits the file.
-/

namespace RouteScaffold

open Cursor Recogniser

/-! ### Erasing the line of an entry -/

namespace Text

theorem rows_append_break (s t : Text) : rows (s ++ '\n' :: t) = rows (s ++ ['\n']) ++ rows t := by
  induction s using lineInduction with
  | last u hu => rw [rows_line_append hu, rows_line_append hu]; rfl
  | line u r hu ih =>
      rw [List.append_assoc, List.cons_append, rows_line_append hu, ih, List.append_assoc,
        List.cons_append, rows_line_append hu, List.cons_append]

/-- What stands below the line that a text begins in. -/
def belowLine (t : Text) : Text := (t.dropWhile (· ≠ '\n')).tail

theorem belowLine_of_line {u : Text} (hu : '\n' ∉ u) : belowLine u = [] := by
  rw [belowLine, List.dropWhile_eq_nil_iff.mpr (Pattern.ne_of_not_mem hu)]
  rfl

theorem belowLine_append {u : Text} (hu : '\n' ∉ u) (t : Text) : belowLine (u ++ '\n' :: t) = t := by
  rw [belowLine, List.dropWhile_append_of_pos (Pattern.ne_of_not_mem hu)]
  simp

theorem belowLine_suffix (t : Text) : belowLine t <:+ t :=
  (List.tail_suffix _).trans (List.dropWhile_suffix _)

end Text

open Text

namespace Pattern

section LineWith

variable {w : Text}

theorem mentions_break (hne : w ≠ []) (hw : '\n' ∉ w) (s t : Text) :
    mentions w (s ++ '\n' :: t) = (mentions w s || mentions w t) := by
  rw [mentions_eq, mentionsFrom_delimited hne (by decide) hw,
    mentionsFrom_lineStart (fun c hc => (Option.some.inj hc).symm) hne]
  rfl

theorem erase_lineWith_append (hne : w ≠ []) (hw : '\n' ∉ w) (s t : Text) :
    erase (.lineWith w) (s ++ '\n' :: t)
      = erase (.lineWith w) (s ++ ['\n']) ++ erase (.lineWith w) t := by
  rw [erase_lineWith hne hw, erase_lineWith hne hw, erase_lineWith hne hw, rows_append_break,
    List.filter_append, List.flatten_append]

/-- An erasure leaves a text alone that does not mention the word. -/
theorem erase_lineWith_unused (hne : w ≠ []) (hw : '\n' ∉ w) {t : Text} (h : mentions w t = false) :
    erase (.lineWith w) t = t := by
  induction t using lineInduction with
  | last u hu =>
      rw [erase_lineWith hne hw]
      by_cases hnil : u = []
      · rw [hnil]
        rfl
      · rw [rows_of_line hnil hu]
        simp [h]
  | line u r hu ih =>
      rw [mentions_break hne hw, Bool.or_eq_false_iff] at h
      rw [erase_lineWith_append hne hw, ih h.2, erase_lineWith hne hw, rows_line_append hu,
        List.filter_cons, mentions_row hne hw, h.1]
      simp [rows]

/-- An erasure takes out a line that mentions the word. -/
theorem erase_lineWith_line (hne : w ≠ []) (hw : '\n' ∉ w) {u : Text} (hu : '\n' ∉ u)
    (h : mentions w u = true) (t : Text) :
    erase (.lineWith w) (u ++ '\n' :: t) = erase (.lineWith w) t := by
  rw [erase_lineWith hne hw, erase_lineWith hne hw, rows_line_append hu, List.filter_cons,
    mentions_row hne hw, h]
  rfl

/-- With the line of an entry goes all that follows the entry on the line. -/
theorem erase_lineWith_entry (hne : w ≠ []) (hw : '\n' ∉ w) {u : Text} (hu : '\n' ∉ u)
    (hentry : ∀ r, mentions w (u ++ r) = true) {t : Text} (h : mentions w t = false) :
    erase (.lineWith w) (u ++ t) = belowLine t := by
  -- What follows the entry is the rest of its line, or goes on with further lines.
  rcases line_or_line_append t with ht | ⟨v, r, rfl, hv⟩
  · have hline : '\n' ∉ u ++ t := by
      rw [List.mem_append, not_or]
      exact ⟨hu, ht⟩
    have hnil : u ++ t ≠ [] := fun hnil => by
      have := hentry t
      rw [hnil, mentions_eq, mentionsFrom_nil hne] at this
      exact absurd this (by simp)
    rw [belowLine_of_line ht, erase_lineWith hne hw, rows_of_line hnil hline]
    simp [hentry t]
  · have hline : '\n' ∉ u ++ v := by
      rw [List.mem_append, not_or]
      exact ⟨hu, hv⟩
    rw [mentions_break hne hw, Bool.or_eq_false_iff] at h
    rw [belowLine_append hv, ← List.append_assoc, erase_lineWith_line hne hw hline (hentry v),
      erase_lineWith_unused hne hw h.2]

end LineWith

/-! ### What a head begins with -/

/-- The first part of a head: its keywords with the gap or the colon among them,
    which neither a word nor a path has. -/
structure HeadStart (p : Text) : Prop where
  first : ∃ c, p.head? = some c ∧ isBlank c = false
  last : ∃ c, p.getLast? = some c ∧ isBlank c = false
  long : 7 < p.length
  apart : ∃ c ∈ p, isBlank c = true ∨ c = ':'
  plain : ∀ c ∈ "\x7b\x7d\";".toList, c ∉ p

theorem not_mem_gap {gap : Text} (h : ∀ c ∈ gap, isBlank c = true) {c : Char} (hc : isBlank c = false) :
    c ∉ gap := fun hmem => by
  rw [h c hmem] at hc
  exact absurd hc (by simp)

theorem ArrayHead.headStart {symbol t rest : Text} (h : ArrayHead symbol t rest) :
    ∃ p, p <+: t ∧ HeadStart p := by
  rcases h.parts with ⟨gap, gap', typed, gap'', rfl, hne, hgap, -⟩
  -- The first part is all that has to be on one line: both words, and blanks between them.
  refine ⟨"export".toList ++ (gap ++ "const".toList), ?_, ⟨'e', rfl, by decide⟩, ⟨'t', ?_, by decide⟩,
    by simp, ?_, fun c hc => ?_⟩
  · rw [← List.append_assoc gap, ← List.append_assoc "export".toList]
    exact List.prefix_append _ _
  · rw [List.getLast?_append, List.getLast?_append]
    rfl
  · rcases List.exists_cons_of_ne_nil hne with ⟨c, gap, rfl⟩
    exact ⟨c, by simp, Or.inl (hgap c (by simp))⟩
  · rw [List.mem_append, List.mem_append, not_or, not_or]
    -- None of the characters in question is a blank or a letter of the two words.
    have hblank : isBlank c = false ∧ c ∉ "export".toList ∧ c ∉ "const".toList := by
      revert c
      decide
    exact ⟨hblank.2.1, not_mem_gap hgap hblank.1, hblank.2.2⟩

theorem ChildrenHead.headStart {b : Option Char} {t rest : Text} (h : ChildrenHead b t rest) :
    ∃ p, p <+: t ∧ HeadStart p := by
  rcases h.parts with ⟨gap, gap', rfl, hgap, -⟩
  refine ⟨"children".toList ++ (gap ++ [':']), ?_, ⟨'c', rfl, by decide⟩, ⟨':', ?_, by decide⟩,
    by simp, ⟨':', by simp, Or.inr rfl⟩, fun c hc => ?_⟩
  · rw [List.append_cons gap ':' (gap' ++ '[' :: rest), ← List.append_assoc "children".toList]
    exact List.prefix_append _ _
  · rw [List.getLast?_append, List.getLast?_concat]
    rfl
  · rw [List.mem_append, List.mem_append, not_or, not_or]
    have hblank : isBlank c = false ∧ c ∉ "children".toList ∧ c ∉ [':'] := by
      revert c
      decide
    exact ⟨hblank.2.1, not_mem_gap hgap hblank.1, hblank.2.2⟩

end Pattern

/-! ### Heads behind a line -/

namespace Anchor

open Pattern

/-- The anchors that are heads of arrays. -/
def IsHead : Anchor → Prop
  | literal _ => False
  | arrayHead symbol => symbol ≠ []
  | childrenHead => True

variable {a : Anchor} {t : Text}

theorem IsHead.headStart (h : a.IsHead) {b : Option Char} {k : Cursor}
    (hk : a.pattern.recognise ⟨b, t⟩ = some k) : ∃ p, p <+: t ∧ HeadStart p := by
  cases a with
  | literal l => exact h.elim
  | arrayHead symbol => exact (arrayHead_of_recognise h hk).headStart
  | childrenHead => exact (childrenHead_of_recognise hk).headStart

theorem literal?_congr {l : Text} (hne : l ≠ []) (b b' : Option Char) (t : Text) :
    (⟨b, t⟩ : Cursor).literal? l = (⟨b', t⟩ : Cursor).literal? l := by
  cases l with
  | nil => exact absurd rfl hne
  | cons c l => cases t <;> rfl

/-- A head is read at the start of a line as at the start of a text. -/
theorem IsHead.recognise_lineStart (h : a.IsHead) (t : Text) :
    a.pattern.recognise ⟨some '\n', t⟩ = a.pattern.recognise ⟨none, t⟩ := by
  cases a with
  | literal l => exact h.elim
  | arrayHead symbol =>
      rw [pattern, recognise_arrayHead_eq, recognise_arrayHead_eq,
        literal?_congr (by decide) (some '\n') none]
  | childrenHead =>
      rw [pattern, recognise_childrenHead_eq, recognise_childrenHead_eq,
        literal?_congr (by decide) (some '\n') none]
      rfl

/-- A head ends with its bracket. -/
theorem IsHead.hit_bracket (h : a.IsHead) {o : Occurrence} (ho : a.locate? t = some o) :
    ∃ s, o.hit = s ++ ['['] := by
  rcases hit_of_findFrom ho with ⟨k, hk, hhit⟩
  -- Both heads are read up to their bracket.
  have hopens : ∃ s, o.hit ++ o.after = s ++ '[' :: k.after := by
    cases a with
    | literal l => exact h.elim
    | arrayHead symbol =>
        rcases (arrayHead_of_recognise h hk).parts with ⟨a, b, c, e, heq, -⟩
        exact ⟨_, by rw [heq]; simp only [← List.append_assoc, ← List.cons_append]; rfl⟩
    | childrenHead =>
        rcases (childrenHead_of_recognise hk).parts with ⟨a, b, heq, -⟩
        exact ⟨_, by rw [heq]; simp only [← List.append_assoc, ← List.cons_append]; rfl⟩
  rcases hopens with ⟨s, hs⟩
  refine ⟨s, ?_⟩
  rw [hs] at hhit
  rw [hhit, show s ++ '[' :: k.after = (s ++ ['[']) ++ k.after by simp, List.length_append,
    Nat.add_sub_cancel, List.take_left]

theorem prefix_delimited {p s t : Text} {d : Char} (hd : d ∉ p) (h : p <+: s ++ d :: t) : p <+: s := by
  rcases h with ⟨r, hr⟩
  rcases List.append_eq_append_iff.mp hr with ⟨z, rfl, -⟩ | ⟨z, rfl, hz⟩
  · exact List.prefix_append p z
  · cases z with
    | nil => simp
    | cons c z =>
        rw [List.cons_append, List.cons.injEq] at hz
        exact absurd (by simp [hz.1]) hd

/-- No head is read on a line that has no first part of one and ends a statement. -/
theorem IsHead.quiet_line (h : a.IsHead) {u : Text} (hu : ∀ p, HeadStart p → ¬ p <:+: u ++ [';'])
    (b : Option Char) (t : Text) : Quiet a.pattern.recognise b (u ++ [';', '\n']) t := by
  rw [quiet_iff]
  intro s c v hs
  cases hk : a.pattern.recognise ⟨passed b s, c :: (v ++ t)⟩ with
  | none => rfl
  | some k =>
      exfalso
      rcases h.headStart hk with ⟨p, hp, hstart⟩
      rcases List.eq_nil_or_concat v with rfl | ⟨v, d, rfl⟩
      · -- No head begins with the line break.
        have hc : c = '\n' := by
          have := congrArg List.getLast? hs
          simpa using this.symm
        rcases hstart.first with ⟨e, he, hblank⟩
        rcases hp with ⟨r, hr⟩
        have hhead := congrArg List.head? hr
        rw [List.head?_append, he] at hhead
        rw [Option.some.inj hhead, hc] at hblank
        exact absurd hblank (by decide)
      · -- A head that begins before does not go beyond the semicolon.
        rw [List.concat_eq_append] at hs hp
        have hd : u ++ [';'] = s ++ c :: v ∧ '\n' = d := by
          have hcut : (u ++ [';']) ++ ['\n'] = (s ++ c :: v) ++ [d] := by simpa using hs
          have := List.append_inj' hcut rfl
          exact ⟨this.1, List.singleton_inj.mp this.2⟩
        rw [← hd.2] at hp
        rcases List.eq_nil_or_concat (c :: v) with hnil | ⟨v', e, hv⟩
        · exact absurd hnil (by simp)
        · rw [List.concat_eq_append] at hv
          have hsemi : e = ';' := by
            have := congrArg List.getLast? hd.1
            rw [hv] at this
            simpa using this.symm
          have hline : p <+: v' := by
            refine prefix_delimited (d := ';') (t := '\n' :: t) (hstart.plain _ (by decide)) ?_
            have : c :: (v ++ ['\n'] ++ t) = v' ++ ';' :: '\n' :: t := by
              rw [List.append_assoc, ← List.cons_append, hv, hsemi]
              simp
            rwa [← this]
          refine hu p hstart (hline.isInfix.trans ⟨s, [';'], ?_⟩)
          rw [hd.1, hv, hsemi, List.append_assoc]

/-- A head behind a line is the head that it was. -/
theorem IsHead.locate_behindLine (h : a.IsHead) {u : Text}
    (hu : ∀ p, HeadStart p → ¬ p <:+: u ++ [';']) {o : Occurrence} (ho : a.locate? t = some o) :
    a.locate? (u ++ [';'] ++ '\n' :: t) = some ⟨u ++ [';'] ++ '\n' :: o.before, o.hit, o.after⟩ := by
  have hstart : a.pattern.recognise.findFrom (some '\n') t = some o := by
    have heq := h.recognise_lineStart t
    rw [← ho, locate?, find?]
    cases t with
    | nil => rw [findFrom, findFrom, length?, length?, heq]
    | cons c t => rw [findFrom, findFrom, length?, length?, heq]
  have hfound := findFrom_quiet _ none (u ++ [';', '\n']) t (h.quiet_line hu none t)
  have hpassed : passed none (u ++ [';', '\n']) = some '\n' := by
    rw [passed_append]
    rfl
  rw [hpassed, hstart] at hfound
  simpa [locate?, find?] using hfound

end Anchor

/-! ### What is left of a text -/

/-- A text without what follows an occurrence on its line. The line ends there, also
    where the text ends with it. -/
def Occurrence.endLine (o : Occurrence) : Text := o.before ++ (o.hit ++ '\n' :: belowLine o.after)

/-- Nothing is cut off exactly where the line ends behind the occurrence. -/
theorem Occurrence.endLine_eq_iff {o : Occurrence} :
    o.endLine = o.before ++ (o.hit ++ o.after) ↔ o.after.head? = some '\n' := by
  rw [endLine, List.append_cancel_left_eq, List.append_cancel_left_eq]
  constructor
  · intro h
    rw [← h]
    rfl
  · intro h
    cases hafter : o.after with
    | nil => exact absurd h (by simp [hafter])
    | cons c r =>
        rw [hafter, List.head?_cons, Option.some.injEq] at h
        rw [h]
        exact congrArg _ (belowLine_append (u := []) (by simp) r)

/-- What is left of a text behind a bracket can be in the file. -/
theorem Text.Fits.endLine {e : LineEnding} {o : Occurrence} (h : (o.before ++ (o.hit ++ o.after)).Fits e)
    {s : Text} (hhit : o.hit = s ++ ['[']) : o.endLine.Fits e := by
  have hbelow := belowLine_suffix o.after
  cases e with
  | crlf =>
      rcases h with ⟨hreturn, -⟩
      refine ⟨?_, by simp [Occurrence.endLine]⟩
      simp only [Occurrence.endLine, List.mem_append, List.mem_cons, not_or] at hreturn ⊢
      exact ⟨hreturn.1, hreturn.2.1, by decide, fun hmem => hreturn.2.2 (hbelow.subset hmem)⟩
  | lf =>
      -- Neither side of the break has a return before a break.
      have hfirst : hasCrlf (o.before ++ o.hit) = false := by
        refine hasCrlf_of_infix (List.IsPrefix.isInfix ?_) h
        rw [← List.append_assoc]
        exact List.prefix_append _ _
      have hrest : hasCrlf (belowLine o.after) = false := by
        refine hasCrlf_of_infix (List.IsSuffix.isInfix (hbelow.trans ?_)) h
        rw [← List.append_assoc]
        exact List.suffix_append _ _
      change hasCrlf (o.before ++ (o.hit ++ '\n' :: belowLine o.after)) = false
      rw [← List.append_assoc, hasCrlf_append fun hlast => ?_, hfirst, hasCrlf_cons (by simp), hrest]
      · rfl
      -- The bracket stands before the break, so no return does.
      · rw [hhit, ← List.append_assoc, List.getLast?_concat] at hlast
        exact absurd hlast (by decide)

end RouteScaffold

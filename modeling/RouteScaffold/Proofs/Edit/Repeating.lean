import RouteScaffold.Proofs.Edit.Inserting
import RouteScaffold.Proofs.Edit.Preserving

/-!
# Insertions Made Twice

An insertion looks first whether the lines of its text stand in the file, blanks around them
and blank lines aside. So what counts of a text is the list of its trimmed lines, and an
insertion that is made again changes nothing exactly if the first one has put the lines of
its text into that list, one below the other.

At the head and at the end of a file it always has. At an anchor it depends on what stands
beside the text that is put in. In front of an anchor the first line of the text ends up on
what was the anchor's line, behind whatever stood there; behind an anchor the last line ends
up in front of whatever followed. If that is blank, the lines stand in the list. If it is
not, any line that is longer than the file has been spoilt, so it does not stand there, and
is put in again.

Nothing of this depends on what an anchor is. It is looked for by any search that finds a
part of the text, be it the first occurrence or not, and the two insertions of the library
are those with its own anchors.

## Main definitions

* `Text.lastLine`, `Text.firstLine`: The parts of a text up to its outer line breaks.
* `Search`: A way to look for an anchor.
* `Insertion`, `Insertion.put`: Where a text is put in, and what that makes of another.
* `Insertion.Clear`: What is put in gets lines of its own.
* `Edit.insertion?`: The insertion that an edit makes.

## Theorems

* `trimmedLines_reindent`: Moving a text in does not change its lines.
* `trimmedLines_reread`: Neither does writing it to a file.
* `put_again_iff`: When insertions can be repeated.
* `transform_again`, `edit_again`: Repeated insertions into a file.
* `insertion_again_idle_iff`: When repeated insertions change nothing.
-/

namespace RouteScaffold

namespace Text

variable {s t p b : Text} {c : Char}

/-! ### Lists of trimmed lines -/

theorem standsIn_iff {wanted ls : List Text} : standsIn wanted ls = true ↔ wanted <:+: ls := by
  induction ls with
  | nil => rw [standsIn, List.isEmpty_iff, List.infix_nil]
  | cons line ls ih =>
      rw [standsIn, Bool.or_eq_true, List.isPrefixOf_iff_prefix, ih, List.infix_cons_iff]

theorem alreadyHolds_iff {content : Text} :
    alreadyHolds content t = true ↔ trimmedLines t <:+: trimmedLines content := standsIn_iff

theorem lines_break (s t : Text) : lines (s ++ '\n' :: t) = lines s ++ lines t := by
  induction s using lineInduction with
  | last u hu => rw [lines_append hu, lines_line hu, List.singleton_append]
  | line u r hu ih =>
      rw [List.append_assoc, List.cons_append, lines_append hu, lines_append hu, ih, List.cons_append]

theorem trimmedLines_break (s t : Text) :
    trimmedLines (s ++ '\n' :: t) = trimmedLines s ++ trimmedLines t := by
  rw [trimmedLines, lines_break, List.map_append, List.filter_append]
  rfl

theorem trimmedLines_eq_flatMap (t : Text) : trimmedLines t = (lines t).flatMap trimmedLines := by
  induction t using lineInduction with
  | last u hu => rw [lines_line hu, List.flatMap_singleton]
  | line u r hu ih => rw [trimmedLines_break, lines_append hu, List.flatMap_cons, ← ih]

theorem trimmedLines_join (ls : List Text) : trimmedLines (join ['\n'] ls) = ls.flatMap trimmedLines := by
  induction ls with
  | nil => rfl
  | cons line ls ih =>
      cases ls with
      | nil => rw [join, List.flatMap_singleton]
      | cons line' ls =>
          rw [List.flatMap_cons, ← ih, join, List.append_assoc, List.singleton_append,
            trimmedLines_break]
          exact List.cons_ne_nil _ _

/-! ### Blanks beside a line -/

theorem trimmedLines_cons (h : isBlank c = true) (t : Text) :
    trimmedLines (c :: t) = trimmedLines t := by
  by_cases hc : c = '\n'
  · rw [hc]
    exact trimmedLines_break [] t
  · -- The blank stands at the start of a line.
    cases ht : lines t with
    | nil =>
        rw [trimmedLines, trimmedLines, lines, splitAt, if_neg hc, show splitAt '\n' t = [] from ht]
        simp [trim, trimBoth, trimEnd, h, ht]
    | cons l ls =>
        rw [trimmedLines, trimmedLines, lines, splitAt, if_neg hc,
          show splitAt '\n' t = l :: ls from ht, ht]
        simp [trim, trimBoth, h]

theorem trimmedLines_blanks (h : p.isBlankLine = true) (t : Text) :
    trimmedLines (p ++ t) = trimmedLines t := by
  induction p with
  | nil => rfl
  | cons c p ih =>
      rw [isBlankLine, List.all_cons, Bool.and_eq_true] at h
      rw [List.cons_append, trimmedLines_cons h.1, ih h.2]

theorem trimmedLines_of_blank (h : p.isBlankLine = true) : trimmedLines p = [] := by
  have := trimmedLines_blanks h []
  rwa [List.append_nil] at this

theorem trim_concat (h : isBlank c = true) (t : Text) : trim (t ++ [c]) = trim t := by
  rw [trim, trim, trimBoth, trimBoth, List.dropWhile_append]
  split
  · next hempty => simp [h, List.isEmpty_iff.mp hempty]
  · rw [trimEnd, trimEnd, List.reverse_append]
    simp [h]

theorem trimmedLines_concat (h : isBlank c = true) (t : Text) :
    trimmedLines (t ++ [c]) = trimmedLines t := by
  induction t using lineInduction with
  | last u hu =>
      by_cases hc : c = '\n'
      · rw [hc, trimmedLines_break, trimmedLines_of_blank (p := []) rfl, List.append_nil]
      · have hline : '\n' ∉ u ++ [c] := by simp [hu, Ne.symm hc]
        rw [trimmedLines, trimmedLines, lines_line hline, lines_line hu, List.map_singleton,
          List.map_singleton, trim_concat h]
  | line u r hu ih =>
      rw [List.append_assoc, List.cons_append, trimmedLines_break, trimmedLines_break, ih]

theorem trimmedLines_blanks_behind (h : p.isBlankLine = true) (t : Text) :
    trimmedLines (t ++ p) = trimmedLines t := by
  induction p generalizing t with
  | nil => rw [List.append_nil]
  | cons c p ih =>
      rw [isBlankLine, List.all_cons, Bool.and_eq_true] at h
      rw [List.append_cons, ih h.2, trimmedLines_concat h.1]

/-! ### Texts that are moved in, trimmed or written -/

theorem trimmedLines_trimBoth {q : Char → Bool} (hq : ∀ c, q c = true → isBlank c = true) (t : Text) :
    trimmedLines (trimBoth q t) = trimmedLines t := by
  rcases exists_of_trimBoth q t with ⟨s, r, ht, hs, hr⟩
  have hblank : ∀ u : Text, u.all q = true → u.isBlankLine = true := fun u hu =>
    List.all_eq_true.mpr fun c hc => hq c (List.all_eq_true.mp hu c hc)
  conv_rhs => rw [ht, trimmedLines_blanks (hblank s hs), trimmedLines_blanks_behind (hblank r hr)]

/-- Moving a text in does not change its lines. -/
theorem trimmedLines_reindent {indent : Text} (h : indent.isBlankLine = true) (t : Text) :
    trimmedLines (reindent t indent) = trimmedLines t := by
  have hbreak : ∀ c, decide (c = '\n') = true → isBlank c = true := by
    intro c hc
    rw [of_decide_eq_true hc]
    decide
  have hline : ∀ line : Text, trimmedLines (if line.isBlankLine then [] else indent ++ line)
      = trimmedLines line := by
    intro line
    split
    · next hblank => rw [trimmedLines_of_blank hblank, trimmedLines_of_blank rfl]
    · exact trimmedLines_blanks h line
  -- Blanks at both ends of the text count for nothing, and neither do those put in front of its lines.
  rw [← trimmedLines_trimBoth hbreak t, trimmedLines_eq_flatMap (trimBoth _ t), reindent]
  split
  · next heq =>
      rw [heq]
      rfl
  · next first rest heq =>
      rw [heq, trimmedLines_join, List.flatMap_cons, List.flatMap_cons, List.flatMap_map]
      simp only [hline]

/-- Turning the pairs of a text does not change its lines. -/
theorem trimmedLines_toLf (t : Text) : trimmedLines (toLf t) = trimmedLines t := by
  induction t using lineInduction with
  | last u hu => rw [toLf_of_no_break hu]
  | line u r hu ih =>
      rcases List.eq_nil_or_concat u with rfl | ⟨v, c, rfl⟩
      · rw [List.nil_append, toLf_cons (by simp), trimmedLines_cons (by decide), ih,
          trimmedLines_cons (by decide)]
      · rw [List.concat_eq_append] at hu ⊢
        by_cases hc : c = '\r'
        · have hv : '\n' ∉ v := fun hmem => hu (List.mem_append_left _ hmem)
          rw [hc, List.append_assoc, List.singleton_append, toLf_append (by simp), toLf_pair,
            toLf_of_no_break hv, trimmedLines_break, ih, ← List.singleton_append,
            ← List.append_assoc, trimmedLines_break, trimmedLines_concat (by decide)]
        · rw [toLf_append (by simp [hc]), toLf_cons (by simp), toLf_of_no_break hu,
            trimmedLines_break, trimmedLines_break, ih]

/-- Writing a text to a file, and reading it, does not change its lines. -/
theorem trimmedLines_reread (t : Text) (e : LineEnding) :
    trimmedLines (t.withEnding e).toLf = trimmedLines t := by
  rcases reread_cases t e with heq | heq
  · rw [heq, trimmedLines_toLf]
  · rw [heq, trimmedLines_toLf, trimmedLines_toLf]

/-! ### The lines at either end of a text -/

/-- What stands behind the last line break of a text. -/
def lastLine (t : Text) : Text := (t.reverse.takeWhile (· ≠ '\n')).reverse

/-- What stands in front of the first line break of a text. -/
def firstLine (t : Text) : Text := t.takeWhile (· ≠ '\n')

theorem lastLine_cases (t : Text) : t = lastLine t ∨ ∃ u, t = u ++ '\n' :: lastLine t := by
  rcases line_or_line_append t.reverse with h | ⟨v, r, hr, hv⟩
  · left
    rw [lastLine, List.takeWhile_eq_self_iff.mpr (Pattern.ne_of_not_mem h), List.reverse_reverse]
  · right
    refine ⟨r.reverse, ?_⟩
    rw [lastLine, hr, List.takeWhile_append_of_pos (Pattern.ne_of_not_mem hv)]
    simpa using congrArg List.reverse hr

theorem lastLine_of_ended (h : ∀ c ∈ t.getLast?, c = '\n') : lastLine t = [] := by
  rw [lastLine, List.reverse_eq_nil_iff, List.takeWhile_eq_nil_iff]
  intro hlen
  have := h t.reverse[0] (by rw [List.getElem_reverse]; simp [List.getLast?_eq_getElem?])
  simp [this]

theorem firstLine_cases (t : Text) : t = firstLine t ∨ ∃ r, t = firstLine t ++ '\n' :: r := by
  rcases line_or_line_append t with h | ⟨u, r, rfl, hu⟩
  · left
    rw [firstLine, List.takeWhile_eq_self_iff.mpr (Pattern.ne_of_not_mem h)]
  · right
    refine ⟨r, ?_⟩
    rw [firstLine, List.takeWhile_append_of_pos (Pattern.ne_of_not_mem hu)]
    simp

theorem break_not_mem_lastLine (t : Text) : '\n' ∉ lastLine t := by
  intro h
  have := List.mem_takeWhile_imp (List.mem_reverse.mp h)
  simp at this

theorem break_not_mem_firstLine (t : Text) : '\n' ∉ firstLine t := by
  intro h
  have := List.mem_takeWhile_imp h
  simp at this

/-- Behind blanks a text has lines of its own. -/
theorem trimmedLines_behind (h : (lastLine s).isBlankLine = true) (t : Text) :
    trimmedLines (s ++ t) = trimmedLines s ++ trimmedLines t := by
  rcases lastLine_cases s with heq | ⟨u, heq⟩
  · rw [← heq] at h
    rw [trimmedLines_blanks h, trimmedLines_of_blank h, List.nil_append]
  · rw [heq, List.append_assoc, List.cons_append, trimmedLines_break, trimmedLines_break,
      trimmedLines_blanks h, trimmedLines_of_blank h, List.append_nil]

/-- In front of blanks a text has lines of its own. -/
theorem trimmedLines_before (h : (firstLine t).isBlankLine = true) (s : Text) :
    trimmedLines (s ++ t) = trimmedLines s ++ trimmedLines t := by
  rcases firstLine_cases t with heq | ⟨r, heq⟩
  · rw [← heq] at h
    rw [trimmedLines_blanks_behind h, trimmedLines_of_blank h, List.append_nil]
  · rw [heq, ← List.append_assoc, trimmedLines_break, trimmedLines_break,
      trimmedLines_blanks_behind h, trimmedLines_of_blank h, List.nil_append]

end Text

/-! ### Searches -/

/-- A way to look for an anchor. What is found is a part of the text. -/
structure Search where
  find? : Text → Option Occurrence
  append_of_find : ∀ {t : Text} {o : Occurrence}, find? t = some o → o.before ++ (o.hit ++ o.after) = t

/-- The search for the first occurrence of an anchor. -/
def Anchor.search (a : Anchor) : Search := ⟨a.locate?, Recogniser.append_of_findFrom⟩

namespace Search

open Text

/-- Nothing but blanks stands in front of what is found on its line. -/
def OpensLine (s : Search) (content : Text) : Prop :=
  ∀ o, s.find? content = some o → (lastLine o.before).isBlankLine = true

/-- Nothing but blanks stands behind what is found on its line. -/
def ClosesLine (s : Search) (content : Text) : Prop :=
  ∀ o, s.find? content = some o → (firstLine o.after).isBlankLine = true

instance (s : Search) (content : Text) : Decidable (s.OpensLine content) :=
  decidable_of_iff _ (Option.all_eq_true (fun o => (lastLine o.before).isBlankLine) (s.find? content))

instance (s : Search) (content : Text) : Decidable (s.ClosesLine content) :=
  decidable_of_iff _ (Option.all_eq_true (fun o => (firstLine o.after).isBlankLine) (s.find? content))

end Search

namespace Text

variable {s t r content : Text}

theorem isBlankLine_lastIndent (t : Text) : (lastIndent t).isBlankLine = true :=
  List.all_eq_true.mpr fun c hc => by
    have := List.mem_takeWhile_imp hc
    rw [isIndent, Bool.or_eq_true, decide_eq_true_eq, decide_eq_true_eq] at this
    rcases this with rfl | rfl <;> decide

theorem isBlankLine_append (s t : Text) : (s ++ t).isBlankLine = (s.isBlankLine && t.isBlankLine) :=
  List.all_append

/-! ### A line that stands in no file of a given size -/

/-- A line that is longer than a given length. -/
def longLine (n : Nat) : Text := List.replicate (n + 1) 'x'

theorem trimmedLines_longLine (n : Nat) : trimmedLines (longLine n) = [longLine n] := by
  refine trimmedLines_line ?_ (by simp [longLine]) ?_ ?_
  · simp [longLine]
  · intro c hc
    rw [List.eq_of_mem_replicate (List.mem_of_mem_head? hc)]
    decide
  · intro c hc
    rw [List.eq_of_mem_replicate (List.mem_of_getLast? hc)]
    decide

/-- A trimmed line is no longer than its text. -/
theorem length_le_of_mem_trimmedLines {l : Text} (h : l ∈ trimmedLines t) : l.length ≤ t.length := by
  rw [trimmedLines, List.mem_filter] at h
  rcases List.mem_map.mp h.1 with ⟨u, hu, rfl⟩
  exact ((trimBoth_part isBlank u).trans (infix_of_mem_lines hu)).length_le

theorem not_alreadyHolds_longLine_iff {n : Nat} :
    alreadyHolds content (longLine n) = false ↔ longLine n ∉ trimmedLines content := by
  rw [Bool.eq_false_iff, ne_eq, alreadyHolds_iff, trimmedLines_longLine, List.singleton_infix_iff]

theorem not_mem_of_short {n : Nat} (h : t.length ≤ n) : longLine n ∉ trimmedLines t := by
  intro hmem
  have := length_le_of_mem_trimmedLines hmem
  rw [longLine, List.length_replicate] at this
  omega

theorem longLine_head (n : Nat) : ∀ c ∈ (longLine n).head?, isBlank c = false := by
  intro c hc
  rw [List.eq_of_mem_replicate (List.mem_of_mem_head? hc)]
  decide

theorem longLine_getLast (n : Nat) : ∀ c ∈ (longLine n).getLast?, isBlank c = false := by
  intro c hc
  rw [List.eq_of_mem_replicate (List.mem_of_getLast? hc)]
  decide

/-- A line that something stands in front of, which is not all blank, is a part of a longer
    one. -/
theorem longLine_not_mem_behind {n : Nat} (hline : '\n' ∉ s) (hs : s.isBlankLine = false) :
    longLine n ∉ trimmedLines (s ++ longLine n) := by
  -- What is left of the first part is not empty, so the line has become a longer one.
  have hkept : s.dropWhile isBlank ≠ [] := by
    rw [ne_eq, List.dropWhile_eq_nil_iff, ← List.all_eq_true]
    exact fun hall => Bool.false_ne_true (hs.symm.trans hall)
  have hbreak : '\n' ∉ s.dropWhile isBlank ++ longLine n := by
    rw [List.mem_append, not_or]
    exact ⟨fun hmem => hline ((List.dropWhile_suffix isBlank).subset hmem), by simp [longLine]⟩
  have htrimmed : trimmedLines (s ++ longLine n) = [s.dropWhile isBlank ++ longLine n] := by
    have hblank : isBlankLine (s.takeWhile isBlank) = true :=
      List.all_eq_true.mpr fun c hc => List.mem_takeWhile_imp hc
    conv_lhs => rw [← List.takeWhile_append_dropWhile (p := isBlank) (l := s), List.append_assoc,
      trimmedLines_blanks hblank]
    refine trimmedLines_line hbreak (by simp [hkept]) ?_ ?_
    · rw [List.head?_append_of_ne_nil _ hkept]
      exact fun c hc => Bool.eq_false_iff.mpr fun h => by
        have := List.head?_dropWhile_not isBlank s
        rw [Option.mem_def.mp hc] at this
        simp [h] at this
    · rw [List.getLast?_append_of_ne_nil _ (by simp [longLine])]
      exact longLine_getLast n
  rw [htrimmed, List.mem_singleton]
  intro heq
  have := congrArg List.length heq
  rw [List.length_append] at this
  have := List.length_pos_iff.mpr hkept
  omega

/-- A line that something stands behind, which is not all blank, is a part of a longer
    one. -/
theorem longLine_not_mem_before {n : Nat} (hline : '\n' ∉ s) (hs : s.isBlankLine = false) :
    longLine n ∉ trimmedLines (longLine n ++ s) := by
  -- As for the part in front, with the ends exchanged.
  have hkept : trimEnd isBlank s ≠ [] := by
    rw [trimEnd, ne_eq, List.reverse_eq_nil_iff, List.dropWhile_eq_nil_iff]
    intro hall
    have hblank : s.isBlankLine = true := List.all_eq_true.mpr fun c hc => hall c (List.mem_reverse.mpr hc)
    exact Bool.false_ne_true (hs.symm.trans hblank)
  have hsplit : s = trimEnd isBlank s ++ (s.reverse.takeWhile isBlank).reverse := by
    rw [trimEnd, ← List.reverse_append, List.takeWhile_append_dropWhile, List.reverse_reverse]
  have hbreak : '\n' ∉ longLine n ++ trimEnd isBlank s := by
    rw [List.mem_append, not_or]
    exact ⟨by simp [longLine], fun hmem => hline (by rw [hsplit]; exact List.mem_append_left _ hmem)⟩
  have htrimmed : trimmedLines (longLine n ++ s) = [longLine n ++ trimEnd isBlank s] := by
    have hblank : isBlankLine (s.reverse.takeWhile isBlank).reverse = true :=
      List.all_eq_true.mpr fun c hc => List.mem_takeWhile_imp (List.mem_reverse.mp hc)
    conv_lhs => rw [hsplit, ← List.append_assoc, trimmedLines_blanks_behind hblank]
    refine trimmedLines_line hbreak (by simp [hkept]) ?_ ?_
    · rw [List.head?_append_of_ne_nil _ (by simp [longLine])]
      exact longLine_head n
    · rw [List.getLast?_append_of_ne_nil _ hkept, trimEnd, List.getLast?_reverse]
      exact fun c hc => Bool.eq_false_iff.mpr fun h => by
        have := List.head?_dropWhile_not isBlank s.reverse
        rw [Option.mem_def.mp hc] at this
        simp [h] at this
  rw [htrimmed, List.mem_singleton]
  intro heq
  have := congrArg List.length heq
  rw [List.length_append] at this
  have := List.length_pos_iff.mpr hkept
  omega

/-- Behind a text that breaks off in the middle of a line, a longer line is spoilt. -/
theorem longLine_spoilt_behind {n : Nat} (hn : s.length ≤ n) (hs : (lastLine s).isBlankLine = false) :
    longLine n ∉ trimmedLines (s ++ longLine n) := by
  have hspoilt := longLine_not_mem_behind (n := n) (break_not_mem_lastLine s) hs
  rcases lastLine_cases s with heq | ⟨u, heq⟩
  · rwa [← heq] at hspoilt
  · rw [heq, List.append_assoc, List.cons_append, trimmedLines_break, List.mem_append, not_or]
    refine ⟨not_mem_of_short ?_, hspoilt⟩
    have := congrArg List.length heq
    rw [List.length_append] at this
    omega

/-- In front of a text that goes on with a line, a longer line is spoilt. -/
theorem longLine_spoilt_before {n : Nat} (hn : s.length ≤ n) (hs : (firstLine s).isBlankLine = false) :
    longLine n ∉ trimmedLines (longLine n ++ s) := by
  have hspoilt := longLine_not_mem_before (n := n) (break_not_mem_firstLine s) hs
  rcases firstLine_cases s with heq | ⟨r, heq⟩
  · rwa [← heq] at hspoilt
  · rw [heq, ← List.append_assoc, trimmedLines_break, List.mem_append, not_or]
    refine ⟨hspoilt, not_mem_of_short ?_⟩
    have := congrArg List.length heq
    rw [List.length_append, List.length_cons] at this
    omega

end Text

/-! ### Insertions -/

/-- Where a text is put in. -/
inductive Insertion where
  | before (s : Search)
  | behind (s : Search)
  | atHead
  | atEnd

namespace Insertion

open Text

variable {i : Insertion} {content edited t : Text} {s : Search} {o : Occurrence} {missing : Fault}

/-- What putting a text in makes of another, if there is a place for it. -/
def splice (t content : Text) : Insertion → Option Text
  | before s => (s.find? content).map fun o =>
    o.before ++ reindent t (lastIndent o.before) ++ '\n' :: lastIndent o.before ++ o.hit ++ o.after
  | behind s => (s.find? content).map fun o =>
    o.before ++ o.hit ++ '\n' :: (lastIndent o.before ++ "  ")
      ++ reindent t (lastIndent o.before ++ "  ") ++ o.after
  | atHead => some (reindent t [] ++ '\n' :: content)
  | atEnd => some (content
    ++ ((if content.isEmpty || content.getLast? = some '\n' then [] else ['\n']) ++ (trim t ++ ['\n'])))

/-- Puts a text in unless its lines stand there already. If there is no place for it, this is
    a fault. -/
def put (i : Insertion) (missing : Fault) (t content : Text) : Except Fault Text :=
  if alreadyHolds content t then .ok content
  else
    match i.splice t content with
    | some edited => .ok edited
    | none => .error missing

/-- What is put in gets lines of its own. -/
def Clear (content : Text) : Insertion → Prop
  | before s => s.OpensLine content
  | behind s => s.ClosesLine content
  | atHead | atEnd => True

/-- Putting in lines that stand in the text already changes nothing. -/
theorem put_of_holds (h : alreadyHolds content t = true) : i.put missing t content = .ok content :=
  if_pos h

theorem put_of_splice (hnew : alreadyHolds content t = false) (h : i.splice t content = some edited) :
    i.put missing t content = .ok edited := by
  rw [put, hnew, if_neg (by simp), h]

theorem splice_of_put (hnew : alreadyHolds content t = false) (h : i.put missing t content = .ok edited) :
    i.splice t content = some edited := by
  rw [put, hnew, if_neg (by simp)] at h
  cases hsplice : i.splice t content with
  | none => simp [hsplice] at h
  | some u => simpa [hsplice] using h

/-- Whatever is put in makes a text longer. -/
theorem length_lt_of_splice (h : i.splice t content = some edited) : content.length < edited.length := by
  -- In each place a line break comes with the text.
  cases i with
  | before s =>
      rcases Option.map_eq_some_iff.mp h with ⟨o, ho, rfl⟩
      rw [← s.append_of_find ho]
      simp only [List.length_append, List.length_cons]
      omega
  | behind s =>
      rcases Option.map_eq_some_iff.mp h with ⟨o, ho, rfl⟩
      rw [← s.append_of_find ho]
      simp only [List.length_append, List.length_cons]
      omega
  | atHead =>
      rw [← Option.some.inj h]
      simp only [List.length_append, List.length_cons]
      omega
  | atEnd =>
      rw [← Option.some.inj h]
      simp only [List.length_append, List.length_singleton]
      omega

/-- An insertion changes nothing exactly if its lines stand in the text. -/
theorem put_eq_self_iff : i.put missing t content = .ok content ↔ alreadyHolds content t = true := by
  refine ⟨fun heq => ?_, put_of_holds⟩
  cases h : alreadyHolds content t with
  | true => rfl
  | false => exact absurd (length_lt_of_splice (splice_of_put h heq)) (Nat.lt_irrefl _)

/-! ### What an insertion leaves -/

theorem trimmedLines_put_before (h : (lastLine o.before).isBlankLine = true) (t : Text) :
    trimmedLines (o.before ++ reindent t (lastIndent o.before) ++ '\n' :: lastIndent o.before ++ o.hit
      ++ o.after) = trimmedLines o.before ++ trimmedLines t ++ trimmedLines (o.hit ++ o.after) := by
  have hindent := isBlankLine_lastIndent o.before
  rw [List.append_assoc, List.append_assoc, List.cons_append, trimmedLines_break, trimmedLines_behind h,
    trimmedLines_reindent hindent, trimmedLines_blanks hindent]

theorem isBlankLine_deeper (t : Text) : isBlankLine (lastIndent t ++ "  ") = true := by
  rw [isBlankLine_append, isBlankLine_lastIndent]
  decide

theorem trimmedLines_put_behind (h : (firstLine o.after).isBlankLine = true) (t : Text) :
    trimmedLines (o.before ++ o.hit ++ '\n' :: (lastIndent o.before ++ "  ")
      ++ reindent t (lastIndent o.before ++ "  ") ++ o.after)
      = trimmedLines (o.before ++ o.hit) ++ trimmedLines t ++ trimmedLines o.after := by
  have hindent := isBlankLine_deeper o.before
  rw [trimmedLines_before h, List.append_assoc (o.before ++ o.hit), List.cons_append, trimmedLines_break,
    trimmedLines_blanks hindent, trimmedLines_reindent hindent]

theorem trimmedLines_put_atEnd (content t : Text) : trimmedLines (content
    ++ ((if content.isEmpty || content.getLast? = some '\n' then [] else ['\n']) ++ (trim t ++ ['\n'])))
    = trimmedLines content ++ trimmedLines t := by
  have hline : trimmedLines (trim t ++ ['\n']) = trimmedLines t := by
    rw [trimmedLines_concat (by decide), trim, trimmedLines_trimBoth fun _ => id]
  split
  · next hended =>
      rw [List.nil_append, trimmedLines_behind ?_, hline]
      rw [lastLine_of_ended fun c hc => ?_]
      · rfl
      · rcases Bool.or_eq_true_iff.mp hended with hempty | hlast
        · rw [List.isEmpty_iff.mp hempty] at hc
          exact absurd hc (by simp)
        · rw [of_decide_eq_true hlast] at hc
          exact (Option.mem_some.mp hc).symm
  · rw [List.singleton_append, trimmedLines_break, hline]

/-- A text that gets lines of its own stands in what an insertion leaves. -/
theorem holds_of_put (hclear : i.Clear content) (h : i.put missing t content = .ok edited) :
    alreadyHolds edited t = true := by
  cases hnew : alreadyHolds content t with
  | true =>
      rw [put_of_holds hnew, Except.ok.injEq] at h
      rw [← h, hnew]
  | false =>
      have hsplice := splice_of_put hnew h
      -- The lines of the text are the lines put in, whatever the file had around them.
      rw [alreadyHolds_iff]
      cases i with
      | before s =>
          rcases Option.map_eq_some_iff.mp hsplice with ⟨o, ho, rfl⟩
          rw [trimmedLines_put_before (hclear o ho)]
          exact ⟨_, _, rfl⟩
      | behind s =>
          rcases Option.map_eq_some_iff.mp hsplice with ⟨o, ho, rfl⟩
          rw [trimmedLines_put_behind (hclear o ho)]
          exact ⟨_, _, rfl⟩
      | atHead =>
          rw [← Option.some.inj hsplice, trimmedLines_break, trimmedLines_reindent rfl]
          exact ⟨[], _, rfl⟩
      | atEnd =>
          rw [← Option.some.inj hsplice, trimmedLines_put_atEnd]
          exact ⟨_, [], by rw [List.append_nil]⟩

/-! ### Insertions that cannot be repeated -/

/-- In front of what does not open its line, a line longer than the text is spoilt. -/
theorem spoilt_before (ho : s.find? content = some o) (hline : (lastLine o.before).isBlankLine = false) :
    ∃ edited, (before s).splice (longLine content.length) content = some edited
      ∧ alreadyHolds edited (longLine content.length) = false := by
  have hsplit := congrArg List.length (s.append_of_find ho)
  simp only [List.length_append] at hsplit
  have hindent := isBlankLine_lastIndent o.before
  refine ⟨_, Option.map_eq_some_iff.mpr ⟨o, ho, rfl⟩, ?_⟩
  rw [not_alreadyHolds_longLine_iff, reindent_line (by simp [longLine]), List.append_assoc,
    List.append_assoc, List.cons_append, trimmedLines_break, trimmedLines_blanks hindent, List.mem_append,
    not_or]
  refine ⟨longLine_spoilt_behind (by omega) hline, not_mem_of_short ?_⟩
  rw [List.length_append]
  omega

/-- Behind what does not close its line, a line longer than the text is spoilt. -/
theorem spoilt_behind (ho : s.find? content = some o) (hline : (firstLine o.after).isBlankLine = false) :
    ∃ edited, (behind s).splice (longLine content.length) content = some edited
      ∧ alreadyHolds edited (longLine content.length) = false := by
  have hsplit := congrArg List.length (s.append_of_find ho)
  simp only [List.length_append] at hsplit
  have hindent := isBlankLine_deeper o.before
  refine ⟨_, Option.map_eq_some_iff.mpr ⟨o, ho, rfl⟩, ?_⟩
  generalize lastIndent o.before ++ "  " = indent at hindent ⊢
  rw [not_alreadyHolds_longLine_iff, reindent_line (by simp [longLine]), List.append_assoc,
    List.append_assoc, List.cons_append, trimmedLines_break, trimmedLines_blanks hindent, List.mem_append,
    not_or]
  refine ⟨not_mem_of_short ?_, longLine_spoilt_before (by omega) hline⟩
  rw [List.length_append]
  omega

theorem clear_or_spoilt (i : Insertion) (content : Text) : i.Clear content
    ∨ ∃ edited, i.splice (longLine content.length) content = some edited
      ∧ alreadyHolds edited (longLine content.length) = false := by
  cases i with
  | before s =>
      refine or_iff_not_imp_right.mpr fun hnone o ho => ?_
      cases hline : (lastLine o.before).isBlankLine with
      | true => rfl
      | false => exact absurd (spoilt_before ho hline) hnone
  | behind s =>
      refine or_iff_not_imp_right.mpr fun hnone o ho => ?_
      cases hline : (firstLine o.after).isBlankLine with
      | true => rfl
      | false => exact absurd (spoilt_behind ho hline) hnone
  | atHead | atEnd => exact Or.inl trivial

/-- An insertion can be repeated, whatever is put in, exactly if what is put in gets lines of
    its own. -/
theorem put_again_iff (i : Insertion) (missing : Fault) (content : Text) :
    (∀ t edited, i.put missing t content = .ok edited → i.put missing t edited = .ok edited)
      ↔ i.Clear content := by
  refine ⟨fun hidle => ?_, fun hclear t edited h => put_of_holds (holds_of_put hclear h)⟩
  rcases clear_or_spoilt i content with hclear | ⟨edited, hsplice, hlost⟩
  · exact hclear
  · have hnew := not_alreadyHolds_longLine_iff.mpr (not_mem_of_short (Nat.le_refl content.length))
    have hheld := put_eq_self_iff.mp (hidle _ _ (put_of_splice hnew hsplice))
    exact absurd (hheld.symm.trans hlost) (by simp)

end Insertion

namespace Insert

open Text

variable {content t file : Text} {a : Anchor}

theorem before_eq_put : before content a t file
    = (Insertion.before a.search).put (.anchorNotFound file a.label) t content := by
  rw [before, Insertion.put, Insertion.splice, Anchor.locate,
    show a.search.find? content = a.locate? content from rfl]
  cases a.locate? content <;> rfl

theorem behind_eq_put : behind content a t file
    = (Insertion.behind a.search).put (.anchorNotFound file a.label) t content := by
  rw [behind, Insertion.put, Insertion.splice, Anchor.locate,
    show a.search.find? content = a.locate? content from rfl]
  cases a.locate? content <;> rfl

theorem atHead_eq_put {missing : Fault} : .ok (atHead content t) = Insertion.atHead.put missing t content :=
  apply_ite Except.ok ..

theorem atEnd_eq_put {missing : Fault} : .ok (atEnd content t) = Insertion.atEnd.put missing t content := by
  rw [atEnd, apply_ite Except.ok, Insertion.put, Insertion.splice]
  split
  · rfl
  · split <;> simp

end Insert

namespace Edit

variable {e : Edit} {i : Insertion} {t : Text}

/-- The insertion that an edit makes, and what it puts in. -/
def insertion? : Edit → Option (Insertion × Text)
  | before a t => some (.before a.search, t)
  | behind a t => some (.behind a.search, t)
  | atHead t => some (.atHead, t)
  | append t => some (.atEnd, t)
  | erase _ | cutRoute .. => none

theorem apply_eq_put (h : e.insertion? = some (i, t)) (file : Text) :
    ∃ missing, e.apply file = i.put missing t := by
  cases e with
  | before a u =>
      cases h
      exact ⟨_, funext fun content => Insert.before_eq_put⟩
  | behind a u =>
      cases h
      exact ⟨_, funext fun content => Insert.behind_eq_put⟩
  | atHead u =>
      cases h
      exact ⟨.anchorNotFound file t, funext fun content => Insert.atHead_eq_put⟩
  | append u =>
      cases h
      exact ⟨.anchorNotFound file t, funext fun content => Insert.atEnd_eq_put⟩
  | erase p => exact absurd h (by simp [insertion?])
  | cutRoute segment within => exact absurd h (by simp [insertion?])

end Edit

/-! ### Insertions into files -/

namespace Job

open Text Disk

variable {p : Path} {e : Edit} {i : Insertion} {missing : Fault} {f : Text → Except Fault Text} {d d' : Disk}
  {b : Bool} {t raw : Text}

/-- A change that has no effect on the view of a file leaves the file as it is. -/
theorem on_transform_idle (hraw : (readRaw p).on d = (.ok raw, d)) (hf : f raw.toLf = .ok raw.toLf) :
    (transform p f).on d = (.ok false, d) := by
  rw [transform, on_bind_ok hraw, hf, on_ofExcept_bind, if_pos rfl]
  rfl

/-- An insertion whose text gets lines of its own changes nothing in a file for the second
    time. -/
theorem transform_again (hclear : ∀ raw, (readRaw p).on d = (.ok raw, d) → i.Clear raw.toLf)
    (h : (transform p (i.put missing t)).on d = (.ok b, d')) :
    (transform p (i.put missing t)).on d' = (.ok false, d') := by
  rcases on_bind_eq_ok.mp h with ⟨raw, d₁, hraw, hrest⟩
  rcases on_bind_eq_ok.mp hrest with ⟨edited, d₂, hput, hwrite⟩
  obtain rfl := (looks_readRaw p).ok hraw
  rw [on_ofExcept, Prod.mk.injEq] at hput
  rcases hput with ⟨hput, rfl⟩
  have hheld := Insertion.holds_of_put (hclear raw hraw) hput
  split at hwrite
  · next hsame =>
      rw [← (Prod.mk.inj hwrite).2]
      exact on_transform_idle hraw (hsame ▸ hput)
  · -- What is read now has the lines of what was written.
    rcases on_bind_eq_ok.mp hwrite with ⟨u, d₂, hreplaced, hpure⟩
    rw [on_replace] at hreplaced
    split at hreplaced
    · next loc hreplace =>
        rcases replaceable_made hreplace (edited.withEnding (.detect raw)) with ⟨hagain, hnow⟩
        rw [← (Prod.mk.inj hpure).2, ← (Prod.mk.inj hreplaced).2]
        refine on_transform_idle (on_readRaw_text (replaceable_eq hagain).1 hnow) (Insertion.put_of_holds ?_)
        rwa [alreadyHolds_iff, trimmedLines_reread, ← alreadyHolds_iff]
    · exact absurd hreplaced (by simp)

/-- A file that has been read is not supplied. -/
theorem on_supply_of_read (h : (readRaw p).on d = (.ok raw, d)) : (supply p).on d = (.ok (), d) := by
  rcases readRaw_ok h with ⟨-, loc, c, hfind, hfile, -⟩
  have hthere : (isThere p).on d = (.ok true, d) := by
    rw [on_isThere, look_eq_some.mpr ⟨loc, hfind, hfile⟩]
    rfl
  rw [supply, on_bind_ok hthere]
  rfl

/-- The same of an edit, which may have made the file. -/
theorem edit_again (hi : e.insertion? = some (i, t))
    (hclear : ∀ raw, (readRaw p).on d = (.ok raw, d) → i.Clear raw.toLf)
    (h : (edit p e).on d = (.ok b, d')) : (edit p e).on d' = (.ok false, d') := by
  rcases Edit.apply_eq_put hi p.text with ⟨missing, hput⟩
  have htransform : editExisting p e = transform p (i.put missing t) := by rw [editExisting_eq_transform, hput]
  by_cases hop : e.operation = .append
  · -- The line gets a line of its own, whatever the file holds once it is there.
    have halways : ∀ content, i.Clear content := by
      cases e with
      | append line =>
          cases hi
          exact fun _ => trivial
      | before a u | behind a u | atHead u | erase pattern | cutRoute segment within =>
          exact absurd hop (by simp [Edit.operation])
    rw [edit, if_pos hop, htransform] at h ⊢
    rcases on_bind_eq_ok.mp h with ⟨u, d₁, -, hrun⟩
    have hagain := transform_again (fun raw _ => halways raw.toLf) hrun
    rcases on_bind_eq_ok.mp hagain with ⟨raw, d₂, hread, -⟩
    rw [(looks_readRaw p).ok hread] at hread
    rw [on_bind_ok (on_supply_of_read hread), hagain]
  · rw [edit_of_not_append hop, htransform] at h ⊢
    exact transform_again hclear h

end Job

open Job in
/-- When repeated insertions change nothing. At the head and at the end of a text, any text
    can be put in twice; in front of what a search finds exactly if nothing but blanks
    stands in front of it on its line, and behind it exactly if nothing but blanks stands
    behind it. A file that is changed in one of these ways is left as it is for the second
    time. And the insertions of the library are such insertions, as are the edits that make
    them. -/
theorem insertion_again_idle_iff (i : Insertion) (missing : Fault) (content : Text) :
    ((∀ t edited, i.put missing t content = .ok edited → i.put missing t edited = .ok edited)
      ↔ i.Clear content)
    ∧ (∀ p t d b d', (∀ raw, (readRaw p).on d = (.ok raw, d) → i.Clear raw.toLf) →
      (transform p (i.put missing t)).on d = (.ok b, d') →
      (transform p (i.put missing t)).on d' = (.ok false, d'))
    ∧ (∀ e p t d b d', e.insertion? = some (i, t) →
      (∀ raw, (readRaw p).on d = (.ok raw, d) → i.Clear raw.toLf) →
      (edit p e).on d = (.ok b, d') → (edit p e).on d' = (.ok false, d'))
    ∧ (∀ a t file, Insert.before content a t file
        = (Insertion.before a.search).put (.anchorNotFound file a.label) t content
      ∧ Insert.behind content a t file
        = (Insertion.behind a.search).put (.anchorNotFound file a.label) t content)
    ∧ ∀ t, .ok (Insert.atHead content t) = Insertion.atHead.put missing t content
      ∧ .ok (Insert.atEnd content t) = Insertion.atEnd.put missing t content :=
  ⟨Insertion.put_again_iff i missing content, fun _ _ _ _ _ => transform_again,
    fun _ _ _ _ _ _ => edit_again, fun _ _ _ => ⟨Insert.before_eq_put, Insert.behind_eq_put⟩,
    fun _ => ⟨Insert.atHead_eq_put, Insert.atEnd_eq_put⟩⟩

namespace Edit

open Text Job Disk

/-- A registry that uses pairs, with a sentinel on a line of its own. -/
def sentinels : Disk :=
  .fresh ⟨[(["route.tsx".toList], .file (.text "(\r\n  X\r\n);\r\n".toList))]⟩ []

/-- Two lines and a blank one between them, put in front of a sentinel twice, and an entry
    put twice behind the head of an array. -/
theorem insertion_again_idle_iff_sentinel :
    ((Anchor.literal "[").search.ClosesLine "[\n];\n"
      ∧ Insert.behind "[\n  x,\n];\n" (.literal "[") "x," "route.tsx" = .ok "[\n  x,\n];\n".toList)
    ∧ (Anchor.literal "X").search.OpensLine "(\n  X\n);\n"
    ∧ Insert.before "(\n  A\n\n  B\n  X\n);\n" (.literal "X") "A\n\nB" "route.tsx"
      = .ok "(\n  A\n\n  B\n  X\n);\n".toList
    ∧ ∃ d', (edit (Path.ofText "route.tsx") (before (.literal "X") "A\n\nB")).on sentinels = (.ok true, d')
      ∧ d'.tree.get? ["route.tsx".toList]
        = some (.file (.text "(\r\n  A\r\n\r\n  B\r\n  X\r\n);\r\n".toList))
      ∧ (edit (Path.ofText "route.tsx") (before (.literal "X") "A\n\nB")).on d' = (.ok false, d') := by
  have hopens : (Anchor.literal "X").search.OpensLine "(\n  X\n);\n" := by decide
  have hcloses : (Anchor.literal "[").search.ClosesLine "[\n];\n" := by decide
  rcases insertion_again_idle_iff (.behind (Anchor.literal "[").search) (.anchorNotFound "route.tsx" "[") "[\n];\n"
    with ⟨hbehind, -⟩
  rcases insertion_again_idle_iff (.before (Anchor.literal "X").search) (.anchorNotFound "route.tsx" "X")
    "(\n  X\n);\n" with ⟨hbefore, -, hfile, -⟩
  refine ⟨⟨hcloses, ?_⟩, hopens, ?_, _, rfl, by decide, ?_⟩
  · exact Insert.behind_eq_put.trans (hbehind.mpr hcloses _ _ (by decide))
  · exact Insert.before_eq_put.trans (hbefore.mpr hopens _ _ (by decide))
  · refine hfile _ _ _ sentinels true _ rfl (fun raw hraw => ?_) rfl
    have hview : raw.toLf = "(\n  X\n);\n".toList := by
      rw [show raw = "(\r\n  X\r\n);\r\n".toList from (Except.ok.inj (congrArg Prod.fst hraw)).symm]
      decide +kernel
    rw [hview]
    exact hopens

/-- An entry put twice behind the head of an array that goes on on its line, and an element
    put twice in front of a sentinel in the middle of a line: what is put in is part of a
    longer line, so it is put in again. -/
theorem insertion_again_changes :
    (∃ once twice, Insert.behind "const xs = [y];\n" (.literal "[") "x," "route.tsx" = .ok once
      ∧ Insert.behind once (.literal "[") "x," "route.tsx" = .ok twice ∧ twice ≠ once)
    ∧ ∃ once twice, Insert.before "(X)\n" (.literal "X") "Y" "route.tsx" = .ok once
      ∧ Insert.before once (.literal "X") "Y" "route.tsx" = .ok twice ∧ twice ≠ once := by
  refine ⟨⟨"const xs = [\n  x,y];\n", "const xs = [\n  x,\n  x,y];\n", ?_⟩, ⟨"(Y\nX)\n", "(Y\nY\nX)\n", ?_⟩⟩
  · decide +kernel
  · decide +kernel

end Edit

end RouteScaffold

import RouteScaffold.Edit.Insert
import RouteScaffold.Proofs.Edit.Lines

/-!
# Where Text Is Inserted

An insertion does three things that have to be known exactly: it looks whether
its lines stand in the text already, it finds its anchor, and it moves its
lines in to the column of the anchor.

The first is settled by one line. The lines cannot stand there if the first of
them is no part of the text, and a line is part of a text only if it is part
of one of the text's lines.

## Theorems

* `alreadyHolds_eq_false`: A text does not hold lines the first of which is no
  part of it.
* `before_eq`, `behind_eq`, `atHead_eq`: What insertions make of a text.
-/

namespace RouteScaffold

namespace Text

/-! ### Pieces -/

theorem splitAt_of_not_mem {sep : Char} {t : Text} (h : sep ∉ t) : splitAt sep t = [t] := by
  induction t with
  | nil => rfl
  | cons c t ih =>
      have hc : c ≠ sep := fun hc => h (by simp [hc])
      rw [splitAt, if_neg hc, ih fun ht => h (by simp [ht])]

theorem splitAt_append {sep : Char} {u : Text} (hu : sep ∉ u) (t : Text) :
    splitAt sep (u ++ sep :: t) = u :: splitAt sep t := by
  induction u with
  | nil => simp [splitAt]
  | cons c u ih =>
      have hc : c ≠ sep := fun hc => hu (by simp [hc])
      rw [List.cons_append, splitAt, if_neg hc, ih fun h => hu (by simp [h])]

theorem lines_line {u : Text} (hu : '\n' ∉ u) : lines u = [u] := splitAt_of_not_mem hu

theorem lines_append {u : Text} (hu : '\n' ∉ u) (t : Text) : lines (u ++ '\n' :: t) = u :: lines t :=
  splitAt_append hu t

/-- A line is a part of its text. -/
theorem infix_of_mem_lines {t u : Text} (h : u ∈ lines t) : u <:+: t := by
  induction t using lineInduction with
  | last v hv =>
      rw [lines_line hv, List.mem_singleton] at h
      exact h ▸ List.infix_rfl
  | line v r hv ih =>
      rw [lines_append hv] at h
      rcases List.mem_cons.mp h with rfl | h
      · exact (List.prefix_append u _).isInfix
      · exact (ih h).trans ((List.suffix_cons '\n' r).trans (List.suffix_append v _)).isInfix

theorem trimBoth_part (p : Char → Bool) (t : Text) : trimBoth p t <:+: t := by
  have hend : trimEnd p (t.dropWhile p) <+: t.dropWhile p := by
    rw [trimEnd, ← List.reverse_suffix, List.reverse_reverse]
    exact List.dropWhile_suffix p
  exact hend.isInfix.trans (List.dropWhile_suffix p).isInfix

theorem trimBoth_of {p : Char → Bool} {t : Text} (hhead : ∀ c ∈ t.head?, p c = false)
    (hlast : ∀ c ∈ t.getLast?, p c = false) : trimBoth p t = t := by
  have hstart : ∀ s : Text, (∀ c ∈ s.head?, p c = false) → s.dropWhile p = s := by
    intro s hs
    cases s with
    | nil => rfl
    | cons c s => exact List.dropWhile_cons_of_neg (by simp [hs c rfl])
  rw [trimBoth, trimEnd, hstart t hhead, hstart t.reverse, List.reverse_reverse]
  rw [List.head?_reverse]
  exact hlast

/-! ### What stands in a text already -/

/-- The first of some lines that stand in a text is one of its lines. -/
theorem mem_of_standsIn {line : Text} {wanted ls : List Text}
    (h : standsIn (line :: wanted) ls = true) : line ∈ ls := by
  induction ls with
  | nil => simp [standsIn] at h
  | cons l ls ih =>
      rw [standsIn, Bool.or_eq_true] at h
      rcases h with h | h
      · have := List.isPrefixOf_iff_prefix.mp h
        rcases this with ⟨r, hr⟩
        rw [List.cons_append, List.cons.injEq] at hr
        simp [hr.1]
      · exact List.mem_cons_of_mem l (ih h)

/-- A text does not hold lines the first of which is no part of it. -/
theorem alreadyHolds_eq_false {content t line : Text} {wanted : List Text}
    (ht : trimmedLines t = line :: wanted) (h : ¬ line <:+: content) :
    alreadyHolds content t = false := by
  cases hholds : alreadyHolds content t with
  | false => rfl
  | true =>
      exfalso
      rw [alreadyHolds, ht] at hholds
      have hmem := mem_of_standsIn hholds
      rw [trimmedLines, List.mem_filter] at hmem
      rcases List.mem_map.mp hmem.1 with ⟨u, hu, rfl⟩
      exact h ((trimBoth_part isBlank u).trans (infix_of_mem_lines hu))

/-- A text without line breaks has one line at most. -/
theorem trimmedLines_line {t : Text} (hbreak : '\n' ∉ t) (hne : t ≠ [])
    (hhead : ∀ c ∈ t.head?, isBlank c = false) (hlast : ∀ c ∈ t.getLast?, isBlank c = false) :
    trimmedLines t = [t] := by
  rw [trimmedLines, lines_line hbreak, List.map_singleton, trim, trimBoth_of hhead hlast]
  cases t with
  | nil => exact absurd rfl hne
  | cons c t => rfl

theorem trimmedLines_append {u : Text} (hbreak : '\n' ∉ u) (hne : u ≠ [])
    (hhead : ∀ c ∈ u.head?, isBlank c = false) (hlast : ∀ c ∈ u.getLast?, isBlank c = false)
    (t : Text) : trimmedLines (u ++ '\n' :: t) = u :: trimmedLines t := by
  rw [trimmedLines, lines_append hbreak, List.map_cons, trim, trimBoth_of hhead hlast]
  cases u with
  | nil => exact absurd rfl hne
  | cons c u => rfl

/-- A part of a text without a character stands on one side of it. -/
theorem infix_delimited {l s t : Text} {d : Char} (hd : d ∉ l) (h : l <:+: s ++ d :: t) :
    l <:+: s ∨ l <:+: t := by
  rcases h with ⟨a, b, hab⟩
  rw [List.append_assoc] at hab
  rcases List.append_eq_append_iff.mp hab with ⟨z, hz, hr⟩ | ⟨z, hz, hr⟩
  · -- The part begins in front of the character, so it also ends there.
    rcases List.append_eq_append_iff.mp hr with ⟨y, hy, hb⟩ | ⟨y, hy, hb⟩
    · left
      exact ⟨a, y, by rw [hz, hy, List.append_assoc]⟩
    · cases y with
      | nil =>
          left
          exact ⟨a, [], by rw [hz, hy]; simp⟩
      -- Otherwise it would go over the character, which it does not hold.
      | cons c y =>
          rw [List.cons_append, List.cons.injEq] at hb
          exact absurd (by rw [hy, hb.1]; simp) hd
  · cases z with
    | nil =>
        cases l with
        | nil => exact Or.inl List.nil_infix
        | cons c l =>
            rw [List.nil_append, List.cons_append, List.cons.injEq] at hr
            exact absurd (by rw [hr.1]; simp) hd
    | cons c z =>
        right
        rw [List.cons_append, List.cons.injEq] at hr
        exact ⟨z, b, by rw [hr.2]; simp⟩

/-! ### Columns -/

/-- The indentation behind a line break. -/
theorem lastIndent_append (s : Text) {indent : Text} (h : ∀ c ∈ indent, isIndent c = true) :
    lastIndent (s ++ '\n' :: indent) = indent := by
  have hbreak : ∀ c ∈ indent.reverse, decide (c ≠ '\n') = true := by
    intro c hc
    rw [decide_eq_true_eq]
    rintro rfl
    exact absurd (h _ (List.mem_reverse.mp hc)) (by decide)
  rw [lastIndent, List.reverse_append, List.reverse_cons, List.append_assoc,
    List.takeWhile_append_of_pos hbreak]
  simp only [List.singleton_append, ne_eq, not_true_eq_false, decide_false, Bool.false_eq_true,
    not_false_eq_true, List.takeWhile_cons_of_neg, List.append_nil, List.reverse_reverse]
  exact List.takeWhile_eq_self_iff.mpr h

/-- A text of one line stays as it is. -/
theorem reindent_line {t : Text} (h : '\n' ∉ t) (indent : Text) : reindent t indent = t := by
  have htrim : trimBoth (· = '\n') t = t := by
    apply trimBoth_of
    · intro c hc
      rw [decide_eq_false_iff_not]
      rintro rfl
      exact h (List.mem_of_mem_head? hc)
    · intro c hc
      rw [decide_eq_false_iff_not]
      rintro rfl
      exact h (List.mem_of_getLast? hc)
  rw [reindent, htrim, lines_line h]
  rfl

/-- The lines below the first one are moved in. -/
theorem reindent_lines {a b c : Text} (ha : '\n' ∉ a) (hb : '\n' ∉ b) (hc : '\n' ∉ c)
    (hane : a ≠ []) (hbne : b.isBlankLine = false) (hcne : c.isBlankLine = false) (indent : Text) :
    reindent (a ++ '\n' :: (b ++ '\n' :: c)) indent
      = a ++ '\n' :: (indent ++ b ++ '\n' :: (indent ++ c)) := by
  have hcnil : c ≠ [] := by
    rintro rfl
    exact absurd hcne (by decide)
  have htrim : trimBoth (· = '\n') (a ++ '\n' :: (b ++ '\n' :: c)) = a ++ '\n' :: (b ++ '\n' :: c) := by
    apply trimBoth_of
    -- Neither end is a line break, so no line is dropped.
    · intro x hx
      rw [decide_eq_false_iff_not]
      rintro rfl
      cases a with
      | nil => exact hane rfl
      | cons y a =>
          rw [List.cons_append, List.head?_cons, Option.mem_some_iff] at hx
          exact ha (by simp [hx])
    · intro x hx
      rw [decide_eq_false_iff_not]
      rintro rfl
      rcases List.eq_nil_or_concat c with rfl | ⟨c, y, rfl⟩
      · exact hcnil rfl
      · rw [List.concat_eq_append] at hx hc
        have : y = '\n' := by
          simpa [List.getLast?_append, List.getLast?_cons] using hx
        exact hc (by simp [this])
  rw [reindent, htrim, lines_append ha, lines_append hb, lines_line hc]
  simp only [List.map_cons, List.map_nil, hbne, hcne, Bool.false_eq_true, if_false, join,
    List.append_assoc, List.singleton_append]

end Text

namespace Insert

open Text

/-- What an insertion before an anchor makes of a text. -/
theorem before_eq {content t file : Text} {a : Anchor} {o : Occurrence}
    (hnew : alreadyHolds content t = false) (ho : a.locate? content = some o) :
    before content a t file = .ok (o.before ++ reindent t (lastIndent o.before) ++ '\n' ::
      lastIndent o.before ++ o.hit ++ o.after) := by
  rw [before, hnew, if_neg (by simp), Anchor.locate, ho]
  rfl

theorem behind_eq {content t file : Text} {a : Anchor} {o : Occurrence}
    (hnew : alreadyHolds content t = false) (ho : a.locate? content = some o) :
    behind content a t file = .ok (o.before ++ o.hit ++ '\n' :: (lastIndent o.before ++ "  ")
      ++ reindent t (lastIndent o.before ++ "  ") ++ o.after) := by
  rw [behind, hnew, if_neg (by simp), Anchor.locate, ho]
  rfl

theorem atHead_eq {content t : Text} (hnew : alreadyHolds content t = false) :
    atHead content t = reindent t [] ++ '\n' :: content := by
  rw [atHead, hnew, if_neg (by simp)]

end Insert

end RouteScaffold

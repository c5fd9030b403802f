import RouteScaffold.Edit.Basic
import RouteScaffold.Proofs.Edit.Inserting
import RouteScaffold.Proofs.Edit.Leading
import RouteScaffold.Registry.Fragment

/-!
# Barrels as Lists of Names

A barrel that nobody but the tool has written to is a list of names, one line for
each. Appending a line for a new name puts the name at the end of the list, and
erasing the line of a name takes it out of the list and nothing else, although the
one is told by the lines that stand in the text already, and the other by a pattern.

A name may end in a line break, and then its line is two lines of the text. What is
told apart by the quotation mark behind a name does not suffer from that: no name
holds one.

## Main definitions

* `Barrel.line`, `Barrel.text`: The line of a name, and the text of some names.
* `Barrel.Lists`: A text in which the line of a name stands.
* `Barrel.Nameable`: What a name is like.

## Theorems

* `Barrel.atEnd_text`: A new line comes last.
* `Barrel.erase_text`: Erasing takes out one name.
* `Barrel.lists_text`: The names in a text are those that it was made of.
-/

namespace RouteScaffold

open Naming Cursor

namespace Barrel

/-- The line of a barrel that exports a file. -/
def line (name : Text) : Text := Snippet.barrelEntry name ++ ['\n']

/-- The text of a barrel that exports some files, in this order. -/
def text (names : List Text) : Text := names.flatMap line

/-- A text in which the line of a name stands, from the start of a line on. -/
def Lists (t name : Text) : Prop := ∃ before behind, (before = [] ∨ ∃ s, before = s ++ ['\n'])
  ∧ t = before ++ (line name ++ behind)

/-- A name of characters of identifiers, which a line break may follow. -/
def Nameable (name : Text) : Prop := ∃ stem, (name = stem ∨ name = stem ++ ['\n']) ∧ stem ≠ []
  ∧ ∀ c ∈ stem, continuesIdentifier c = true

theorem nameable_of_isRun {first rest : Char → Bool} {name : Text}
    (hfirst : ∀ c, first c = true → continuesIdentifier c = true)
    (hrest : ∀ c, rest c = true → continuesIdentifier c = true)
    (h : isRun first rest (withoutFinalBreak name) = true) : Nameable name := by
  have hrun : ∀ t : Text, isRun first rest t = true → t ≠ [] ∧ ∀ c ∈ t, continuesIdentifier c = true := by
    intro t ht
    -- Every character of a run is a first or a further one.
    cases t with
    | nil => exact absurd ht (by simp [isRun])
    | cons d t =>
        rw [isRun, Bool.and_eq_true, List.all_eq_true] at ht
        refine ⟨by simp, fun c hc => ?_⟩
        rcases List.mem_cons.mp hc with rfl | hc
        · exact hfirst c ht.1
        · exact hrest c (ht.2 c hc)
  rw [withoutFinalBreak] at h
  split at h
  -- A final line break is let through by the pattern, and stays with the name.
  · next hlast =>
      exact ⟨name.dropLast, Or.inr (List.dropLast_append_getLast? _ hlast).symm, hrun _ h⟩
  · exact ⟨name, Or.inl rfl, hrun _ h⟩

theorem nameable_of_isIdentifier {name : Text} (h : isIdentifier name = true) : Nameable name := by
  refine nameable_of_isRun (fun c hc => ?_) (fun c hc => hc) h
  simp only [beginsIdentifier, Bool.or_eq_true, decide_eq_true_eq] at hc
  rcases hc with (hc | rfl) | rfl
  · simp [continuesIdentifier, Char.isAlphanum, hc]
  · decide
  · decide

/-- The names of packages are nameable. -/
theorem nameable_of_canonical {kind : PackageKind} {raw name : Text}
    (h : (Kind.package kind).canonicalOf raw = .ok name) : Nameable name := by
  have hidentifier : ∀ {t : Text} {f : Fault},
      (if isIdentifier t = true then .ok t else .error f : Except Fault Text) = .ok name → Nameable name := by
    intro t f h
    split at h
    · next hident =>
        rw [← Except.ok.inj h]
        exact nameable_of_isIdentifier hident
    · exact absurd h (by simp)
  -- Hooks and utilities are checked by patterns of their own, the others as identifiers.
  have halphanum : ∀ c : Char, c.isAlphanum = true → continuesIdentifier c = true := fun c hc => by
    simp [continuesIdentifier, hc]
  have hlower : ∀ c : Char, c.isLower = true → continuesIdentifier c = true := fun c hc =>
    halphanum c (by simp [Char.isAlphanum, Naming.isAlpha_eq, hc])
  cases kind with
  | hook =>
      change (if isHookName raw = true then _ else _) = _ at h
      split at h
      · next hhook =>
          rw [← Except.ok.inj h]
          exact nameable_of_isRun hlower halphanum (isRun_of_isHookName hhook)
      · exact absurd h (by simp)
  | util =>
      change (if isUtilName raw = true then _ else _) = _ at h
      split at h
      · next hutil =>
          rw [← Except.ok.inj h]
          rw [isUtilName, Bool.and_eq_true] at hutil
          exact nameable_of_isRun hlower halphanum hutil.1
      · exact absurd h (by simp)
  | component => exact hidentifier h
  | store => exact hidentifier h
  | context => exact hidentifier h
  | partialView => exact hidentifier h

variable {name m : Text} {names : List Text}

theorem Nameable.not_mem (h : Nameable name) {c : Char} (hc : continuesIdentifier c = false)
    (hbreak : c ≠ '\n') : c ∉ name := by
  rcases h with ⟨stem, hname, -, hstem⟩
  have hnot : c ∉ stem := fun hmem => by
    rw [hstem c hmem] at hc
    exact absurd hc (by simp)
  rcases hname with rfl | rfl
  · exact hnot
  · simp [hnot, hbreak]

/-! ### Lines of names -/

/-- What stands before a name in its line. -/
def opening : Text := "export * from \"./".toList

/-- What stands behind a name in its line, up to the line break. -/
def closing : Text := "\";".toList

theorem entry_eq (name : Text) : Snippet.barrelEntry name = opening ++ (name ++ closing) := by
  have hclosing : closing = "\";".toList ++ [] := rfl
  rw [hclosing]
  rfl

theorem head_opening (u : Text) : (opening ++ u).head? = some 'e' := rfl

theorem line_append (name r : Text) : line name ++ r = opening ++ (name ++ (closing ++ '\n' :: r)) := by
  rw [line, entry_eq]
  simp only [List.append_assoc, List.singleton_append]

theorem text_cons (name : Text) (names : List Text) : text (name :: names) = line name ++ text names :=
  List.flatMap_cons

theorem text_append (xs ys : List Text) : text (xs ++ ys) = text xs ++ text ys := List.flatMap_append

/-- A name ends at the quotation mark behind it. -/
theorem name_unique (hname : Nameable name) (hm : Nameable m) {r s : Text}
    (h : name ++ '"' :: r = m ++ '"' :: s) : name = m ∧ r = s := by
  have hno := hname.not_mem (c := '"') (by decide) (by decide)
  have hno' := hm.not_mem (c := '"') (by decide) (by decide)
  rcases List.append_eq_append_iff.mp h with ⟨z, hz, hr⟩ | ⟨z, hz, hr⟩
  -- If one name ended earlier, the other would hold a quotation mark.
  · cases z with
    | nil =>
        rw [List.append_nil] at hz
        exact ⟨hz.symm, (List.cons.inj hr).2⟩
    | cons c z =>
        rw [List.cons_append, List.cons.injEq] at hr
        exact absurd (by rw [hz, ← hr.1]; simp) hno'
  · cases z with
    | nil =>
        rw [List.append_nil] at hz
        exact ⟨hz, (List.cons.inj hr).2.symm⟩
    | cons c z =>
        rw [List.cons_append, List.cons.injEq] at hr
        exact absurd (by rw [hz, ← hr.1]; simp) hno

theorem line_unique (hname : Nameable name) (hm : Nameable m) {r s : Text}
    (h : line name ++ r = line m ++ s) : name = m ∧ r = s := by
  rw [line_append, line_append, List.append_cancel_left_eq] at h
  rcases name_unique hname hm h with ⟨hsame, htail⟩
  exact ⟨hsame, (List.cons.inj (List.cons.inj htail).2).2⟩

theorem no_return_line (h : Nameable name) : '\r' ∉ line name := by
  have hname := h.not_mem (c := '\r') (by decide) (by decide)
  rw [← List.append_nil (line name), line_append]
  simp only [List.mem_append, not_or]
  exact ⟨by decide, hname, by decide, by decide⟩

theorem no_return_text (h : ∀ n ∈ names, Nameable n) : '\r' ∉ text names := by
  intro hmem
  rcases List.mem_flatMap.mp hmem with ⟨n, hn, hchar⟩
  exact no_return_line (h n hn) hchar

/-! ### What stands in a barrel -/

section Lines

open Text

variable {stem : Text}

/-- No line of a barrel is trimmed: neither end of one is a blank. -/
theorem opening_ends {u : Text} (h : ∀ c ∈ (opening ++ u).getLast?, isBlank c = false) :
    opening ++ u ≠ [] ∧ (∀ c ∈ (opening ++ u).head?, isBlank c = false)
      ∧ ∀ c ∈ (opening ++ u).getLast?, isBlank c = false :=
  ⟨fun hnil => absurd (List.append_eq_nil_iff.mp hnil).1 (by decide), fun c hc => by
    rw [head_opening, Option.mem_some_iff] at hc
    rw [← hc]
    decide, h⟩

theorem isBlank_last_closing (u : Text) : ∀ c ∈ (u ++ closing).getLast?, isBlank c = false := by
  intro c hc
  rw [List.getLast?_append_of_ne_nil u (show closing ≠ [] by decide),
    show closing.getLast? = some ';' from rfl, Option.mem_some_iff] at hc
  rw [← hc]
  decide

theorem isBlank_last_stem (hne : stem ≠ []) (h : ∀ c ∈ stem, continuesIdentifier c = true) :
    ∀ c ∈ (opening ++ stem).getLast?, isBlank c = false := by
  intro c hc
  rw [List.getLast?_append_of_ne_nil _ hne] at hc
  exact isBlank_of_tame (isTame_of_continuesIdentifier (h c (List.mem_of_getLast? hc)))

theorem no_break_stem (h : ∀ c ∈ stem, continuesIdentifier c = true) : '\n' ∉ stem := fun hmem =>
  absurd (h _ hmem) (by decide)

/-- A name without a line break has one line. -/
theorem trimmedLines_plain (h : ∀ c ∈ stem, continuesIdentifier c = true) :
    trimmedLines (Snippet.barrelEntry stem) = [Snippet.barrelEntry stem]
      ∧ ∀ r, trimmedLines (line stem ++ r) = Snippet.barrelEntry stem :: trimmedLines r := by
  have hbreak : '\n' ∉ opening ++ (stem ++ closing) := by
    simp only [List.mem_append, not_or]
    exact ⟨by decide, no_break_stem h, by decide⟩
  have hlast := isBlank_last_closing (opening ++ stem)
  rw [List.append_assoc] at hlast
  rcases opening_ends hlast with ⟨hne, hhead, -⟩
  rw [entry_eq]
  refine ⟨trimmedLines_line hbreak hne hhead hlast, fun r => ?_⟩
  rw [line, entry_eq, List.append_assoc, List.singleton_append]
  exact trimmedLines_append hbreak hne hhead hlast r

/-- A name with a line break at its end has two lines, and the second one is the same
    for all of them. -/
theorem trimmedLines_broken (hne : stem ≠ []) (h : ∀ c ∈ stem, continuesIdentifier c = true) :
    trimmedLines (Snippet.barrelEntry (stem ++ ['\n'])) = [opening ++ stem, closing]
      ∧ ∀ r, trimmedLines (line (stem ++ ['\n']) ++ r) = (opening ++ stem) :: closing :: trimmedLines r := by
  have hbreak : '\n' ∉ opening ++ stem := by
    rw [List.mem_append, not_or]
    exact ⟨by decide, no_break_stem h⟩
  rcases opening_ends (isBlank_last_stem hne h) with ⟨hnil, hhead, hlast⟩
  -- The break in the name divides the entry into its two lines.
  have hsplit : ∀ r, opening ++ (stem ++ ['\n'] ++ (closing ++ r)) = (opening ++ stem) ++ '\n' :: (closing ++ r) :=
    fun r => by simp
  have hclosing : ∀ c ∈ closing.head?, isBlank c = false := fun c hc => by
    rw [show closing.head? = some '"' from rfl, Option.mem_some_iff] at hc
    rw [← hc]
    decide
  have hclosing' : ∀ c ∈ closing.getLast?, isBlank c = false := isBlank_last_closing []
  constructor
  · have hwhole := hsplit []
    rw [List.append_nil] at hwhole
    rw [entry_eq, hwhole, trimmedLines_append hbreak hnil hhead hlast,
      trimmedLines_line (by decide) (by decide) hclosing hclosing']
  · intro r
    rw [line_append, hsplit, trimmedLines_append hbreak hnil hhead hlast,
      trimmedLines_append (by decide) (by decide) hclosing hclosing']

/-- The first of the lines of a name tells which name it is. -/
theorem exists_trimmedLines (h : Nameable name) : ∃ first, first ∈ trimmedLines (Snippet.barrelEntry name)
    ∧ ∀ m, Nameable m → first ∈ trimmedLines (Snippet.barrelEntry m) → name = m := by
  -- A name has no semicolon, so it does not end as an entry does.
  have hquote : ∀ {u v : Text}, (∀ c ∈ u, continuesIdentifier c = true) → u ≠ v ++ closing := by
    rintro u v hu rfl
    exact absurd (hu ';' (List.mem_append_right _ (by decide))) (by decide)
  have hshort : ∀ u, opening ++ u ≠ closing := fun u heq => by
    have := congrArg List.head? heq
    rw [head_opening] at this
    exact absurd this (by decide)
  -- Each name is plain or ends in a line break, which makes four cases.
  rcases h with ⟨stem, rfl | rfl, hne, hstem⟩
  · rw [(trimmedLines_plain hstem).1, entry_eq]
    refine ⟨_, List.mem_singleton_self _, fun m hm hmem => ?_⟩
    rcases hm with ⟨stem', rfl | rfl, hne', hstem'⟩
    · rw [(trimmedLines_plain hstem').1, List.mem_singleton, entry_eq, List.append_cancel_left_eq] at hmem
      exact List.append_cancel_right hmem
    · rw [(trimmedLines_broken hne' hstem').1, List.mem_cons, List.mem_singleton] at hmem
      rcases hmem with hmem | hmem
      · rw [List.append_cancel_left_eq] at hmem
        exact absurd hmem.symm (hquote hstem')
      · exact absurd hmem (hshort _)
  -- A broken name leaves the quotation mark off its first line, and that tells it.
  · rw [(trimmedLines_broken hne hstem).1]
    refine ⟨opening ++ stem, List.mem_cons_self, fun m hm hmem => ?_⟩
    rcases hm with ⟨stem', rfl | rfl, hne', hstem'⟩
    · rw [(trimmedLines_plain hstem').1, List.mem_singleton, entry_eq, List.append_cancel_left_eq] at hmem
      exact absurd hmem (hquote hstem)
    · rw [(trimmedLines_broken hne' hstem').1, List.mem_cons, List.mem_singleton] at hmem
      rcases hmem with hmem | hmem
      · rw [List.append_cancel_left hmem]
      · exact absurd hmem (hshort _)

theorem trimmedLines_text (h : ∀ n ∈ names, Nameable n) :
    trimmedLines (text names) = names.flatMap fun n => trimmedLines (Snippet.barrelEntry n) := by
  induction names with
  | nil => rfl
  | cons n names ih =>
      have hnames := ih fun n hn => h n (by simp [hn])
      rw [text_cons, List.flatMap_cons, ← hnames]
      rcases h n (by simp) with ⟨stem, rfl | rfl, hne, hstem⟩
      · rw [(trimmedLines_plain hstem).1, (trimmedLines_plain hstem).2]
        rfl
      · rw [(trimmedLines_broken hne hstem).1, (trimmedLines_broken hne hstem).2]
        rfl

/-- The lines of a name do not stand in a barrel without the name. -/
theorem alreadyHolds_text (hname : Nameable name) (h : ∀ n ∈ names, Nameable n) (hnew : name ∉ names) :
    alreadyHolds (text names) (Snippet.barrelEntry name) = false := by
  rcases exists_trimmedLines hname with ⟨first, hfirst, hunique⟩
  cases hholds : alreadyHolds (text names) (Snippet.barrelEntry name) with
  | false => rfl
  | true =>
      have hmem := mem_of_alreadyHolds hholds hfirst
      rw [trimmedLines_text h] at hmem
      rcases List.mem_flatMap.mp hmem with ⟨m, hm, hmem⟩
      rw [hunique m (h m hm) hmem] at hnew
      exact absurd hm hnew

end Lines

/-! ### Appending and erasing -/

theorem text_ends (names : List Text) : text names = [] ∨ (text names).getLast? = some '\n' := by
  rcases List.eq_nil_or_concat names with rfl | ⟨ms, m, rfl⟩
  · exact Or.inl rfl
  · right
    rw [List.concat_eq_append, text_append, text_cons, show text [] = [] from rfl, List.append_nil, line,
      ← List.append_assoc, List.getLast?_concat]

/-- A line for a new name comes last. -/
theorem atEnd_text (hname : Nameable name) (h : ∀ n ∈ names, Nameable n) (hnew : name ∉ names) :
    Insert.atEnd (text names) (Snippet.barrelEntry name) = text (names ++ [name]) := by
  -- The entry is no blank line, and is put in as it is.
  have htrim : Text.trim (Snippet.barrelEntry name) = Snippet.barrelEntry name := by
    have hlast := isBlank_last_closing (opening ++ name)
    rw [List.append_assoc] at hlast
    rcases opening_ends hlast with ⟨-, hhead, -⟩
    rw [entry_eq]
    exact Text.trimBoth_of hhead hlast
  -- A barrel is empty or ends in a line break.
  have hwhole : ((text names).isEmpty || (text names).getLast? = some '\n') = true := by
    rcases text_ends names with hnil | hlast
    · rw [hnil]
      rfl
    · rw [hlast]
      simp
  rw [Insert.atEnd, alreadyHolds_text hname h hnew, if_neg (by simp), if_pos hwhole, htrim, text_append,
    text_cons, show text [] = [] from rfl, List.append_nil, line, List.append_assoc]

theorem recognise_barrelLine_eq (name : Text) (k : Cursor) : Pattern.recognise (.barrelLine name) k
    = if k.atLineStart then (k.literal? opening).bind fun k => (k.literal? name).bind fun k =>
        (k.literal? closing).bind fun k => some (Pattern.statementTail k)
      else none := by
  rw [Pattern.recognise]
  cases k.atLineStart <;> rfl

/-- At the start of a line, the pattern of a name reads the line of the name, and no
    other line of a barrel. -/
theorem recognise_line (hname : Nameable name) (hm : Nameable m) {b : Option Char} (hb : ∀ c ∈ b, c = '\n')
    (r : Text) : (Pattern.recognise (.barrelLine name) ⟨b, line m ++ r⟩).map Cursor.after
      = if m = name then some r else none := by
  rw [recognise_barrelLine_eq, if_pos (Pattern.atLineStart_of hb _), line_append, literal?_append,
    Option.bind_some]
  split
  · next hsame =>
      subst hsame
      rw [literal?_append, Option.bind_some, literal?_append, Option.bind_some, Option.map_some,
        Pattern.statementTail]
      rfl
  · next hother =>
      rw [Option.map_eq_none_iff, Option.bind_eq_none_iff]
      intro k hk
      cases hread : k.literal? closing with
      | none => rfl
      | some k' =>
          -- Then both names stand here, with a quotation mark behind either of them.
          have hsplit := (literal?_eq_some.mp hk).1
          rcases k with ⟨x, t⟩
          have htail := (literal?_eq_some.mp hread).1
          dsimp only at hsplit htail
          rw [htail] at hsplit
          exact absurd (name_unique hm hname hsplit).1 hother

theorem recognise_closing (name : Text) (b : Option Char) (r : Text) :
    Pattern.recognise (.barrelLine name) ⟨b, closing ++ r⟩ = none := by
  rw [recognise_barrelLine_eq]
  split
  · have hnone : (⟨b, closing ++ r⟩ : Cursor).literal? opening = none := rfl
    rw [hnone]
    rfl
  · rfl

theorem eraseFrom_line (hname : Nameable name) (hm : Nameable m) {b : Option Char} (hb : ∀ c ∈ b, c = '\n')
    (r : Text) : Recogniser.eraseFrom (Pattern.recognise (.barrelLine name)) 0 b (line m ++ r)
      = (if m = name then [] else line m)
        ++ Recogniser.eraseFrom (Pattern.recognise (.barrelLine name)) 0 (some '\n') r := by
  have hanchored := Pattern.anchored_barrelLine name
  have hread := recognise_line hname hm hb r
  by_cases hsame : m = name
  -- The line of the name itself is a hit, and goes.
  · rw [if_pos hsame] at hread ⊢
    rcases Option.map_eq_some_iff.mp hread with ⟨k, hk, hkr⟩
    rw [Recogniser.eraseFrom_hit _ b k (line m) r (by simp [line]) hk hkr, line, passed_concat]
    rfl
  · rw [if_neg hsame] at hread ⊢
    rw [Option.map_eq_none_iff, line_append] at hread
    rw [line_append]
    -- Any other line is passed row by row, two rows if its name ends in a break.
    rcases hm with ⟨stem, rfl | rfl, hne, hstem⟩
    · have hbreak : '\n' ∉ opening ++ (m ++ closing) := by
        simp only [List.mem_append, not_or]
        exact ⟨by decide, no_break_stem hstem, by decide⟩
      have hsplit : opening ++ (m ++ (closing ++ '\n' :: r)) = (opening ++ (m ++ closing)) ++ '\n' :: r := by
        simp
      rw [hsplit] at hread ⊢
      rw [hanchored.eraseFrom_row hbreak r hread, line, entry_eq]
      simp
    · have hbreak : '\n' ∉ opening ++ stem := by
        rw [List.mem_append, not_or]
        exact ⟨by decide, no_break_stem hstem⟩
      have hsplit : opening ++ (stem ++ ['\n'] ++ (closing ++ '\n' :: r))
          = (opening ++ stem) ++ '\n' :: (closing ++ '\n' :: r) := by simp
      rw [hsplit] at hread ⊢
      rw [hanchored.eraseFrom_row hbreak _ hread,
        hanchored.eraseFrom_row (by decide) r (recognise_closing name _ _), line, entry_eq]
      simp

/-- Erasing takes out one name, and nothing else. -/
theorem erase_text (hname : Nameable name) (h : ∀ n ∈ names, Nameable n) :
    (Pattern.barrelLine name).erase (text names) = text (names.filter (· ≠ name)) := by
  have hfrom : ∀ b : Option Char, (∀ c ∈ b, c = '\n') →
      Recogniser.eraseFrom (Pattern.recognise (.barrelLine name)) 0 b (text names)
        = text (names.filter (· ≠ name)) := by
    induction names with
    | nil => exact fun _ _ => rfl
    | cons m names ih =>
        intro b hb
        rw [text_cons, eraseFrom_line hname (h m (by simp)) hb, ih (fun n hn => h n (by simp [hn])) _ (by simp)]
        by_cases hsame : m = name
        · rw [if_pos hsame, List.filter_cons_of_neg (by simp [hsame])]
          rfl
        · rw [if_neg hsame, List.filter_cons_of_pos (by simp [hsame]), text_cons]
  exact hfrom none (by simp)

/-! ### What a barrel lists -/

/-- Behind the first line break, or further on in what stands behind it. -/
theorem cut_behind {u r s z : Text} (hu : '\n' ∉ u) (h : u ++ '\n' :: r = s ++ '\n' :: z) :
    z = r ∨ ∃ s', r = s' ++ '\n' :: z := by
  rcases List.append_eq_append_iff.mp h with ⟨a, -, hr⟩ | ⟨a, ha, hr⟩
  · cases a with
    | nil => exact Or.inl (List.cons.inj hr).2.symm
    | cons c a => exact Or.inr ⟨a, (List.cons.inj hr).2⟩
  · cases a with
    | nil => exact Or.inl (List.cons.inj hr).2
    | cons c a =>
        rw [List.cons_append, List.cons.injEq] at hr
        exact absurd (by rw [ha, ← hr.1]; simp) hu

/-- No line of a barrel begins within the line of a name. -/
theorem head_behind_break (hm : Nameable m) {s z : Text} (h : line m = s ++ '\n' :: z) :
    z = [] ∨ z.head? = some '"' := by
  have hlast : ∀ {u : Text}, '\n' ∉ u → ∀ {s : Text}, u ++ ['\n'] = s ++ '\n' :: z → z = [] := by
    intro u hu s h
    rcases cut_behind hu h with hz | ⟨s', hs'⟩
    · exact hz
    · exact absurd hs' (by simp)
  rw [line, entry_eq] at h
  -- The break is that at the end, or the one within the name.
  rcases hm with ⟨stem, rfl | rfl, hne, hstem⟩
  · refine Or.inl (hlast ?_ h)
    simp only [List.mem_append, not_or]
    exact ⟨by decide, no_break_stem hstem, by decide⟩
  · have hbreak : '\n' ∉ opening ++ stem := by
      rw [List.mem_append, not_or]
      exact ⟨by decide, no_break_stem hstem⟩
    have hsplit : opening ++ (stem ++ ['\n'] ++ closing) ++ ['\n'] = (opening ++ stem) ++ '\n' :: (closing ++ ['\n']) := by
      simp
    rw [hsplit] at h
    rcases cut_behind hbreak h with hz | ⟨s', hs'⟩
    · rw [hz]
      exact Or.inr rfl
    · exact Or.inl (hlast (by decide) hs')

/-- The names in a text are those that it was made of. -/
theorem lists_text (hname : Nameable name) (h : ∀ n ∈ names, Nameable n) :
    Lists (text names) name ↔ name ∈ names := by
  have hhead : ∀ behind, (line name ++ behind).head? = some 'e' := fun behind => by
    rw [line_append, head_opening]
  constructor
  -- By induction on the names: the line is that of the first, or stands behind it.
  · rintro ⟨before, behind, hbefore, heq⟩
    induction names generalizing before with
    | nil =>
        have hnil := (List.append_eq_nil_iff.mp heq.symm).2
        have := hhead behind
        rw [hnil] at this
        exact absurd this (by simp)
    | cons m names ih =>
        have ih := ih fun n hn => h n (by simp [hn])
        rw [text_cons] at heq
        rcases hbefore with rfl | ⟨s, rfl⟩
        · simp [(line_unique (h m (by simp)) hname heq).1]
        · rcases List.append_eq_append_iff.mp heq with ⟨z, hz, hrest⟩ | ⟨z, hz, hrest⟩
          · -- The line begins behind the first one, where a line begins.
            refine List.mem_cons_of_mem m (ih z ?_ hrest)
            rcases List.eq_nil_or_concat z with rfl | ⟨z, c, rfl⟩
            · exact Or.inl rfl
            · rw [List.concat_eq_append, ← List.append_assoc] at hz
              have hc := List.append_inj_right' hz rfl
              rw [List.concat_eq_append, ← hc]
              exact Or.inr ⟨z, rfl⟩
          -- The line would begin within the first one, at a break, and there no entry begins.
          · rw [List.append_assoc, List.singleton_append] at hz
            rcases head_behind_break (h m (by simp)) hz with rfl | hquote
            · exact List.mem_cons_of_mem m (ih [] (Or.inl rfl) hrest.symm)
            · have := hhead behind
              rw [hrest] at this
              cases z with
              | nil => exact absurd hquote (by simp)
              | cons c z =>
                  rw [List.head?_cons, Option.some.injEq] at hquote
                  rw [List.cons_append, List.head?_cons, hquote] at this
                  exact absurd this (by simp)
  · intro hmem
    rcases List.append_of_mem hmem with ⟨xs, ys, rfl⟩
    refine ⟨text xs, text ys, ?_, by rw [text_append, text_cons]⟩
    -- The lines before are complete, so the next one begins a line.
    rcases text_ends xs with hnil | hlast
    · exact Or.inl hnil
    · exact Or.inr ⟨_, (List.dropLast_append_getLast? _ hlast).symm⟩

end Barrel

end RouteScaffold

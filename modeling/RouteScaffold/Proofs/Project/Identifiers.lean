import RouteScaffold.Proofs.Project.Commands
import RouteScaffold.Registry.Fragment

/-!
# Names as Identifiers

A canonical name is meant to stand in generated sources: behind an `export`, between the
braces of an import, in the line of a barrel. It can if it is an identifier of ASCII
characters, and then these statements take as many lines as their templates do.

Two things get in the way. The conventions on names that are taken as they were typed let
a line break at the end pass, so a hook, a util or a role can have a name that ends its
line. And a name to which a suffix is put is an identifier by its suffix alone, so a store
or a context can be made of a raw name without a single word. Apart from these two, every
accepted name is an identifier and comes from at least one word.

## Main definitions

* `Kind.takenAsTyped`, `Kind.suffixed`: The kinds of which this is so.

## Theorems

* `isIdentifier_of_canonicalOf`: Every accepted name is an identifier, up to a line break.
* `strict_iff`: It is one if it does not end in a line break.
* `length_lines_fill`: A template has as many lines when it is filled.
* `canonical_identifies_iff`: When accepted names are identifiers, and made of words.
-/

namespace RouteScaffold

open Naming

/-! ### Line breaks -/

namespace Text

theorem length_splitAt (sep : Char) (t : Text) : (splitAt sep t).length = t.count sep + 1 := by
  induction t with
  | nil => rfl
  | cons c t ih =>
      rw [splitAt]
      by_cases hc : c = sep
      · rw [if_pos hc, List.length_cons, ih, hc, List.count_cons_self]
      · rw [if_neg hc, List.count_cons_of_ne hc]
        split
        · next hnil =>
            rw [hnil] at ih
            exact absurd ih (by simp)
        · next piece pieces hpieces =>
            rw [hpieces] at ih
            exact ih

/-- A text has one more line than it has line breaks. -/
theorem length_lines (t : Text) : (lines t).length = t.count '\n' + 1 := length_splitAt '\n' t

/-- A line break is no upper case of anything else. -/
theorem break_not_mem_upper {t : Text} (h : '\n' ∉ t) : '\n' ∉ upper t := by
  have hascii : ∀ c ∈ CaseMap.ascii, c.toUpper = '\n' → c = '\n' := by decide +kernel
  have hsingular : ∀ p ∈ singularUppers, '\n' ∉ p.2.map Char.ofNat := by decide +kernel
  intro hmem
  rcases List.mem_flatMap.mp hmem with ⟨c, hc, hbreak⟩
  refine h ?_
  -- A character is ASCII, has a case of its own in one of the tables, or has none.
  rcases CaseMap.upperOf_cases c with ⟨hlt, heq⟩ | ⟨-, p, hp, -, heq⟩ | ⟨-, p, hp, -, heq⟩ | ⟨-, heq⟩
  · rw [heq, List.mem_singleton] at hbreak
    exact hascii c (CaseMap.mem_ascii hlt) hbreak.symm ▸ hc
  · exact absurd (heq ▸ hbreak) (hsingular p hp)
  · rw [heq, List.mem_singleton] at hbreak
    have hbeyond := (CaseMap.pairs_beyond hp).1
    have hnat := CaseMap.toNat_ofNat hbeyond.2
    rw [← hbreak] at hnat
    exact absurd hnat (by simp; omega)
  · rw [heq, List.mem_singleton] at hbreak
    exact hbreak ▸ hc

end Text

namespace Template

variable {values : Slot → Text}

theorem break_not_mem_asConstant {v : Text} (h : '\n' ∉ v) : '\n' ∉ asConstant v := by
  refine Text.break_not_mem_upper fun hmem => ?_
  rcases List.mem_map.mp hmem with ⟨c, hc, heq⟩
  split at heq
  · exact absurd heq (by decide)
  · exact h (heq ▸ hc)

/-- A template has as many lines when values without line breaks are written in. -/
theorem length_lines_fill (h : ∀ slot, '\n' ∉ values slot) (t : Template) :
    (Text.lines (t.fill values)).length = (Text.lines (t.fill fun _ => [])).length := by
  rw [Text.length_lines, Text.length_lines]
  congr 1
  induction t with
  | nil => rfl
  | cons p t ih =>
      rw [fill, List.flatMap_cons, List.count_append, ← fill, ih]
      rw [fill, fill, List.flatMap_cons, List.count_append]
      congr 1
      cases p with
      | text u => rfl
      | value slot => exact List.count_eq_zero_of_not_mem (h slot)
      | constant slot => exact List.count_eq_zero_of_not_mem (break_not_mem_asConstant (h slot))

end Template

namespace Snippet

variable {name source : Text}

/-- The line of a barrel is one line if the name has no line break. -/
theorem length_lines_barrelEntry : (Text.lines (barrelEntry name)).length = 1 ↔ '\n' ∉ name := by
  have heq : barrelEntry name = "export * from \"./".toList ++ (name ++ "\";".toList) := by
    simp [barrelEntry, render, template, Template.fill, Piece.fill]
  rw [Text.length_lines, heq, List.count_append, List.count_append, ← List.count_eq_zero]
  simp

/-- An import is one line if neither the name nor the source has a line break. -/
theorem length_lines_importLine (hsource : '\n' ∉ source) :
    (Text.lines (importLine name source)).length = 1 ↔ '\n' ∉ name := by
  have heq : importLine name source
      = "import \x7b ".toList ++ (name ++ (" \x7d from \"".toList ++ (source ++ "\";".toList))) := by
    simp [importLine, render, template, Template.fill, Piece.fill]
  rw [Text.length_lines, heq, List.count_append, List.count_append, List.count_append, List.count_append,
    List.count_eq_zero_of_not_mem hsource, ← List.count_eq_zero]
  simp

end Snippet

/-! ### Identifiers -/

namespace Naming

variable {name raw : Text}

theorem isRun_mono {first rest first' rest' : Char → Bool} {t : Text} (h : isRun first rest t = true)
    (hfirst : ∀ c, first c = true → first' c = true) (hrest : ∀ c, rest c = true → rest' c = true) :
    isRun first' rest' t = true := by
  cases t with
  | nil => exact absurd h (by simp [isRun])
  | cons c t =>
      rw [isRun, Bool.and_eq_true, List.all_eq_true] at h ⊢
      exact ⟨hfirst c h.1, fun d hd => hrest d (h.2 d hd)⟩

theorem continuesIdentifier_of_begins {c : Char} (h : beginsIdentifier c = true) : continuesIdentifier c = true := by
  simp only [beginsIdentifier, Bool.or_eq_true, decide_eq_true_eq] at h
  rcases h with (h | rfl) | rfl
  · simp [continuesIdentifier, Char.isAlphanum, h]
  · decide
  · decide

/-- The characters of an identifier. -/
theorem continues_of_strict (h : isRun beginsIdentifier continuesIdentifier name = true) :
    ∀ c ∈ name, continuesIdentifier c = true := by
  cases name with
  | nil => exact absurd h (by simp [isRun])
  | cons c t =>
      rw [isRun, Bool.and_eq_true, List.all_eq_true] at h
      exact List.forall_mem_cons.mpr ⟨continuesIdentifier_of_begins h.1, h.2⟩

/-- A name that is an identifier up to a line break is one if it does not end in a line
    break, that is, if it has none. -/
theorem strict_iff (h : isIdentifier name = true) :
    (isRun beginsIdentifier continuesIdentifier name = true ↔ name.getLast? ≠ some '\n')
      ∧ ('\n' ∉ name ↔ name.getLast? ≠ some '\n') := by
  have hopen : name.getLast? ≠ some '\n' → isRun beginsIdentifier continuesIdentifier name = true := fun hlast => by
    rwa [isIdentifier, withoutFinalBreak, if_neg hlast] at h
  have hnone : isRun beginsIdentifier continuesIdentifier name = true → '\n' ∉ name := fun hstrict hmem =>
    absurd (continues_of_strict hstrict _ hmem) (by decide)
  have hlast : '\n' ∉ name → name.getLast? ≠ some '\n' := fun hno heq => hno (List.mem_of_getLast? heq)
  exact ⟨⟨fun hstrict => hlast (hnone hstrict), hopen⟩, hlast, fun hne => hnone (hopen hne)⟩

theorem not_isSeparator_of_isAlpha {c : Char} (h : c.isAlpha = true) : isSeparator c = false := by
  have hident : continuesIdentifier c = true := by simp [continuesIdentifier, Char.isAlphanum, h]
  rw [isSeparator, isBlank_of_tame (isTame_of_continuesIdentifier hident), Bool.or_false, Bool.or_eq_false_iff]
  refine ⟨decide_eq_false ?_, decide_eq_false ?_⟩
  · rintro rfl
    exact absurd h (by decide)
  · rintro rfl
    exact absurd h (by decide)

theorem words_ne_nil {c : Char} {t : Text} (h : isSeparator c = false) : words (c :: t) ≠ [] := by
  rw [words, Text.words_cons_run h]
  simp

end Naming

namespace Kind

variable {kind : Kind} {raw name : Text}

/-- The kinds whose names are taken as they were typed. -/
def takenAsTyped : Kind → Bool
  | package .hook | package .util | role => true
  | _ => false

/-- The kinds whose names end in a suffix. -/
def suffixed : Kind → Bool
  | package .context | package .store => true
  | _ => false

theorem canonical_eq_ok {raw : Option Text} (h : kind.canonical raw = .ok name) :
    ∃ typed, raw = some typed ∧ kind.canonicalOf typed = .ok name := by
  rw [canonical] at h
  cases hpresent : present kind.name raw with
  | error f =>
      rw [hpresent] at h
      exact absurd h (by simp [bind, Except.bind])
  | ok typed =>
      rw [hpresent] at h
      exact ⟨typed, present_eq_ok hpresent, h⟩

/-- A name that is taken as it was typed is a run of letters and digits behind a letter, up
    to a line break. -/
theorem run_of_takenAsTyped (h : kind.canonicalOf raw = .ok name) (htyped : kind.takenAsTyped = true) :
    name = raw ∧ isRun Char.isAlpha (fun c => c.isAlphanum || c = '_') (withoutFinalBreak raw) = true := by
  have hsmall : ∀ c : Char, c.isLower = true → c.isAlpha = true := fun c hc => by simp [isAlpha_eq, hc]
  have hrest : ∀ c : Char, c.isAlphanum = true → (c.isAlphanum || c = '_') = true := fun c hc => by simp [hc]
  cases kind with
  | role => exact ⟨(of_ite_eq_ok h).2.symm, (of_ite_eq_ok h).1⟩
  | module | page => exact absurd htyped (by simp [takenAsTyped])
  | package kind =>
      cases kind with
      | hook => exact ⟨(of_ite_eq_ok h).2.symm, isRun_mono (isRun_of_isHookName (of_ite_eq_ok h).1) hsmall hrest⟩
      | util =>
          have hutil := (of_ite_eq_ok h).1
          rw [isUtilName, Bool.and_eq_true] at hutil
          exact ⟨(of_ite_eq_ok h).2.symm, isRun_mono hutil.1 hsmall hrest⟩
      | component | partialView | store | context => exact absurd htyped (by simp [takenAsTyped])

/-- Any other name is an identifier up to a line break, made of the words that were typed and
    of a suffix, if its kind has one. -/
theorem words_of_not_takenAsTyped (h : kind.canonicalOf raw = .ok name) (htyped : kind.takenAsTyped = false) :
    isIdentifier name = true ∧ ((kind.suffixed = false ∧ name = pascal raw)
      ∨ (kind.suffixed = true ∧ ∃ stem suffix : Text,
        name = stem ++ suffix ∧ suffix.getLast?.any (· ≠ '\n') = true)) := by
  have hplain : ∀ {t : Text}, isIdentifier t = true ∧ t = name → isIdentifier name = true ∧ name = t :=
    fun ⟨hident, heq⟩ => ⟨heq ▸ hident, heq.symm⟩
  cases kind with
  | role => exact absurd htyped (by simp [takenAsTyped])
  | module | page => exact (hplain (of_ite_eq_ok h)).imp_right fun heq => Or.inl ⟨rfl, heq⟩
  | package kind =>
      -- Hooks and utils are taken as they are typed.
      cases kind with
      | hook | util => exact absurd htyped (by simp [takenAsTyped])
      | component | partialView => exact (hplain (of_ite_eq_ok h)).imp_right fun heq => Or.inl ⟨rfl, heq⟩
      | store =>
          exact (hplain (of_ite_eq_ok h)).imp_right fun heq => Or.inr ⟨rfl, _, "Store".toList, heq, by decide⟩
      | context =>
          exact (hplain (of_ite_eq_ok h)).imp_right fun heq => Or.inr ⟨rfl, _, "Context".toList, heq, by decide⟩

/-- Every accepted name is an identifier, up to a line break at its end. -/
theorem isIdentifier_of_canonicalOf (h : kind.canonicalOf raw = .ok name) : isIdentifier name = true := by
  cases htyped : kind.takenAsTyped with
  | true =>
      rcases run_of_takenAsTyped h htyped with ⟨rfl, hrun⟩
      refine isRun_mono hrun (fun c hc => by simp [beginsIdentifier, hc]) fun c hc => ?_
      rw [Bool.or_eq_true] at hc
      rcases hc with hc | hc
      · simp [continuesIdentifier, hc]
      · simp [continuesIdentifier, of_decide_eq_true hc]
  | false => exact (words_of_not_takenAsTyped h htyped).1

/-- A name ends in a line break only if it was typed so, and taken as it was typed. -/
theorem getLast?_iff (h : kind.canonicalOf raw = .ok name) :
    name.getLast? ≠ some '\n' ↔ (kind.takenAsTyped = true → raw.getLast? ≠ some '\n') := by
  cases htyped : kind.takenAsTyped with
  | true =>
      rw [(run_of_takenAsTyped h htyped).1]
      exact ⟨fun hne _ => hne, fun hne => hne rfl⟩
  | false =>
      refine ⟨fun _ ht => absurd ht (by simp), fun _ hlast => ?_⟩
      rcases words_of_not_takenAsTyped h htyped with ⟨hident, ⟨-, rfl⟩ | ⟨-, stem, suffix, rfl, hsuffix⟩⟩
      · exact absurd (pascal_char hident _ (List.mem_of_getLast? hlast)) (by decide)
      -- The suffix of a store or a context ends in a letter.
      · cases hs : suffix.getLast? with
        | none =>
            rw [hs] at hsuffix
            exact absurd hsuffix (by simp)
        | some c =>
            rw [List.getLast?_append, hs, Option.some_or, Option.some.injEq] at hlast
            rw [hs, hlast] at hsuffix
            exact absurd hsuffix (by decide)

/-- A name without a suffix comes from at least one word. -/
theorem words_ne_nil_of_canonicalOf (h : kind.canonicalOf raw = .ok name) (hsuffix : kind.suffixed = false) :
    words raw ≠ [] := by
  cases htyped : kind.takenAsTyped with
  | true =>
      rcases exists_of_isRun (run_of_takenAsTyped h htyped).2 with ⟨c, s, rfl, hc, -⟩
      exact words_ne_nil (not_isSeparator_of_isAlpha hc)
  | false =>
      rcases words_of_not_takenAsTyped h htyped with ⟨hident, ⟨-, rfl⟩ | ⟨hsuffixed, -⟩⟩
      · exact fun hnil => pascal_ne_nil hident (by rw [pascal, hnil]; rfl)
      · exact absurd hsuffixed (by simp [hsuffix])

/-- When accepted names are identifiers, and made of words. Every one is an identifier up to
    a line break at its end. It is an identifier, and comes from at least one word, exactly
    if it was not taken with a line break at its end as it was typed, and does not consist
    of a suffix alone. The line that exports it from a barrel and the line that imports it
    are one line each exactly if there is no such line break; and then the sources of its
    kind have as many lines as their templates. -/
theorem canonical_identifies_iff {raw : Option Text} (h : kind.canonical raw = .ok name) :
    isRun beginsIdentifier continuesIdentifier (withoutFinalBreak name) = true
    ∧ ∃ typed, raw = some typed
      ∧ ((words typed ≠ [] ∧ isRun beginsIdentifier continuesIdentifier name = true)
        ↔ (kind.takenAsTyped = true → typed.getLast? ≠ some '\n') ∧ (kind.suffixed = true → words typed ≠ []))
      ∧ ((Text.lines (Snippet.barrelEntry name)).length = 1
        ↔ (kind.takenAsTyped = true → typed.getLast? ≠ some '\n'))
      ∧ (∀ source, '\n' ∉ source → ((Text.lines (Snippet.importLine name source)).length = 1
        ↔ (kind.takenAsTyped = true → typed.getLast? ≠ some '\n')))
      ∧ ((kind.takenAsTyped = true → typed.getLast? ≠ some '\n') → ∀ f ∈ kind.files, ∀ values : Slot → Text,
        values .name = name → (∀ slot, slot ≠ .name → '\n' ∉ values slot) →
        (Text.lines (f.body.fill values)).length = (Text.lines (f.body.fill fun _ => [])).length) := by
  rcases canonical_eq_ok h with ⟨typed, rfl, hname⟩
  have hident := isIdentifier_of_canonicalOf hname
  have hlast := getLast?_iff hname
  rcases strict_iff hident with ⟨hstrict, hbreak⟩
  refine ⟨hident, typed, rfl, ?_, ?_, fun source hsource => ?_, fun hclean f _ values hvalue hothers => ?_⟩
  · rw [hstrict, hlast, and_comm]
    refine and_congr_right fun _ => ⟨fun hwords _ => hwords, fun hwords => ?_⟩
    cases hsuffix : kind.suffixed with
    | true => exact hwords hsuffix
    | false => exact words_ne_nil_of_canonicalOf hname hsuffix
  · rw [← hlast, ← hbreak, Snippet.length_lines_barrelEntry]
  · rw [← hlast, ← hbreak, Snippet.length_lines_importLine hsource]
  · refine Template.length_lines_fill (fun slot => ?_) f.body
    by_cases hslot : slot = .name
    · rw [hslot, hvalue]
      exact hbreak.mpr (hlast.mpr hclean)
    · exact hothers slot hslot

theorem canonical_identifies_iff_context :
    (package .context).canonical (some "user_data\n".toList) = .ok "UserDataContext".toList
    ∧ words "user_data\n".toList ≠ []
    ∧ isRun beginsIdentifier continuesIdentifier "UserDataContext".toList = true
    ∧ (Text.lines (Snippet.barrelEntry "UserDataContext".toList)).length = 1
    ∧ (Text.lines (Snippet.importLine "UserDataContext".toList "./UserDataContext".toList)).length = 1 := by
  have h : (package .context).canonical (some "user_data\n".toList) = .ok "UserDataContext".toList := by decide
  have hclean : (package .context).takenAsTyped = true → "user_data\n".toList.getLast? ≠ some '\n' := fun htyped =>
    absurd htyped (by decide)
  rcases canonical_identifies_iff h with ⟨-, typed, hraw, hiff, hbarrel, himport, -⟩
  obtain rfl := Option.some.inj hraw
  rcases hiff.mpr ⟨hclean, fun _ => by decide⟩ with ⟨hwords, hstrict⟩
  exact ⟨h, hwords, hstrict, hbarrel.mpr hclean, (himport _ (by decide)).mpr hclean⟩

/-- A hook may have a name that ends its line, and breaks the line that exports it. A context
    can be made of a raw name without a word. -/
theorem canonical_of_break_and_of_no_word :
    (package .hook).canonical (some "useFoo\n".toList) = .ok "useFoo\n".toList
    ∧ isRun beginsIdentifier continuesIdentifier "useFoo\n".toList = false
    ∧ Text.lines (Snippet.barrelEntry "useFoo\n".toList) = ["export * from \"./useFoo".toList, "\";".toList]
    ∧ (package .context).canonical (some "-".toList) = .ok "Context".toList
    ∧ words "-".toList = [] := by
  decide

end Kind

end RouteScaffold

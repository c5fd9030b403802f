import RouteScaffold.Proofs.Text.Case
import RouteScaffold.Proofs.Text.Words
import RouteScaffold.Template.Basic

/-!
# Accepted Names

The name of a module or a page is accepted if its words, capitalised and put
together, make an identifier. Such a name is spelled with ASCII letters and
digits, and with the dollar sign; it begins with no small letter. Its segment
is spelled with hyphens and small letters, not all of them ASCII, and with the
same digits and dollar signs.

The segment loses nothing that the name keeps: the name can be read off the
segment. So two artifacts with one segment have one name.

## Main definitions

* `Naming.isTame`: The characters of accepted names and their segments.

## Theorems

* `pascal_segment`: The name is a function of the segment.
* `segment_char`: What segments are spelled with.
* `pascal_char`: What accepted names are spelled with.
* `isUpper_head_pascal`: An accepted name without a dollar sign begins with a
  capital letter.
* `constant_plain`: The constant that is made of such a name has no dollar sign either.
-/

namespace RouteScaffold

namespace Naming

open CaseMap

/-- Whether a character can stand in an accepted name or in its segment. -/
def isTame (c : Char) : Bool := isWord c || c = '$' || c = '-'

/-! ### Characters -/

theorem isAlpha_eq (c : Char) : c.isAlpha = (c.isUpper || c.isLower) := rfl

theorem isUpper_iff {c : Char} : c.isUpper = true ↔ 65 ≤ c.toNat ∧ c.toNat ≤ 90 := by
  change decide (65 ≤ c.toNat ∧ c.toNat ≤ 90) = true ↔ _
  rw [decide_eq_true_eq]

theorem isLower_iff {c : Char} : c.isLower = true ↔ 97 ≤ c.toNat ∧ c.toNat ≤ 122 := by
  change (decide (97 ≤ c.toNat) && decide (c.toNat ≤ 122)) = true ↔ _
  rw [Bool.and_eq_true, decide_eq_true_eq, decide_eq_true_eq]

theorem isDigit_iff {c : Char} : c.isDigit = true ↔ 48 ≤ c.toNat ∧ c.toNat ≤ 57 := by
  change (decide (48 ≤ c.toNat) && decide (c.toNat ≤ 57)) = true ↔ _
  rw [Bool.and_eq_true, decide_eq_true_eq, decide_eq_true_eq]

theorem isTame_of_continuesIdentifier {c : Char} (h : continuesIdentifier c = true) :
    isTame c = true := by
  simp only [continuesIdentifier, Bool.or_eq_true, decide_eq_true_eq] at h
  rcases h with (h | rfl) | rfl
  · simp [isTame, isWord, h]
  · decide
  · decide

/-- A character that is not tame is in no text of tame characters. -/
theorem not_mem_of_tame {t : Text} (h : ∀ c ∈ t, isTame c = true) {x : Char}
    (hx : isTame x = false) : x ∉ t := by
  intro hmem
  rw [h x hmem] at hx
  exact absurd hx (by simp)

/-- No character of the word table is blank. -/
theorem not_blank_of_letter {c : Char} (h : CharRange.covers letterRanges c = true) : isBlank c = false :=
  CharRange.not_covers_of_apart (by decide +kernel) h

theorem isBlank_of_tame {c : Char} (h : isTame c = true) : isBlank c = false := by
  simp only [isTame, isWord, Bool.or_eq_true, Bool.and_eq_true, decide_eq_true_eq] at h
  rcases h with (((h | rfl) | h) | rfl) | rfl
  · -- Of the blanks that are ASCII characters none is a letter or a digit.
    by_contra hb
    simp only [isBlank, CharRange.covers, blankRanges, CharRange.single, List.any_cons,
      List.any_nil, Bool.or_false, Bool.or_eq_true, Bool.and_eq_true, decide_eq_true_eq,
      Bool.not_eq_false] at hb
    rw [Char.isAlphanum, isAlpha_eq, Bool.or_eq_true, Bool.or_eq_true, isUpper_iff, isLower_iff,
      isDigit_iff] at h
    omega
  · decide
  · exact not_blank_of_letter h.2
  · decide
  · decide

/-- Whether a first character of a word has an upper case that identifiers
    allow. -/
def startsWord (c : Char) : Bool :=
  !isSeparator c && (upperOf c).all continuesIdentifier

/-- Whether a later character of a word has a lower case that identifiers
    allow. -/
def followsInWord (c : Char) : Bool :=
  !isSeparator c && (lowerOf c).all continuesIdentifier

/-- What the first characters of words become in segments: one character that
    has the same upper case, and is no capital. -/
def IsSmallStart (c : Char) : Prop :=
  ∃ d, lowerOf c = [d] ∧ upperOf d = upperOf c ∧ isTame d = true ∧ isSeparator d = false
    ∧ d.isUpper = false

/-- What later characters become in segments: one character that is its own
    lower case, and is no capital. -/
def IsSmall (c : Char) : Prop :=
  ∃ d, lowerOf c = [d] ∧ lowerOf d = [d] ∧ isTame d = true ∧ isSeparator d = false
    ∧ d.isUpper = false ∧ d ≠ 'Σ'

instance (c : Char) : Decidable (IsSmallStart c) :=
  decidable_of_iff ((lowerOf c).length = 1 ∧ ∀ d ∈ lowerOf c, upperOf d = upperOf c
    ∧ isTame d = true ∧ isSeparator d = false ∧ d.isUpper = false) <| by
      constructor
      · rintro ⟨hlen, h⟩
        rcases List.length_eq_one_iff.mp hlen with ⟨d, hd⟩
        exact ⟨d, hd, h d (by simp [hd])⟩
      · rintro ⟨d, hd, h⟩
        simpa [hd] using h

instance (c : Char) : Decidable (IsSmall c) :=
  decidable_of_iff ((lowerOf c).length = 1 ∧ ∀ d ∈ lowerOf c, lowerOf d = [d]
    ∧ isTame d = true ∧ isSeparator d = false ∧ d.isUpper = false ∧ d ≠ 'Σ') <| by
      constructor
      · rintro ⟨hlen, h⟩
        rcases List.length_eq_one_iff.mp hlen with ⟨d, hd⟩
        exact ⟨d, hd, h d (by simp [hd])⟩
      · rintro ⟨d, hd, h⟩
        simpa [hd] using h

/-- What one search finds out about the characters with an upper case in ASCII. -/
theorem starts_search : ∀ c ∈ starts, c ≠ 'Σ' ∧ ('\n' ∈ upperOf c → isSeparator c = true)
    ∧ (∀ d ∈ upperOf c, d.isLower = false)
    ∧ (startsWord c = true → IsSmallStart c
      ∧ (upperOf c).head?.any (fun d => d.isUpper || d.isDigit || d = '$') = true
      ∧ ∀ d ∈ lowerOf c, (upperOf d).all continuesIdentifier = true ∧ d ≠ 'Σ' ∧ (lowerOf d).all isTame = true) := by
  decide +kernel

/-- What one search finds out about those with a lower case in ASCII. -/
theorem followers_search : ∀ c ∈ followers, c ≠ 'Σ' ∧ ('\n' ∈ lowerOf c → isSeparator c = true)
    ∧ (followsInWord c = true → IsSmall c ∧ ∀ d ∈ lowerOf c, (upperOf d).all continuesIdentifier = true) := by
  decide +kernel

theorem starts_small (c : Char) (hc : c ∈ starts) (h : startsWord c = true) : IsSmallStart c :=
  ((starts_search c hc).2.2.2 h).1

theorem followers_small (c : Char) (hc : c ∈ followers) (h : followsInWord c = true) : IsSmall c :=
  ((followers_search c hc).2.2 h).1

/-- The upper case of a first character begins with a capital letter, a digit
    or the dollar sign. -/
theorem starts_upper (c : Char) (hc : c ∈ starts) (h : startsWord c = true) :
    (upperOf c).head?.any (fun d => d.isUpper || d.isDigit || d = '$') = true :=
  ((starts_search c hc).2.2.2 h).2.1

/-- A segment written as a constant is an identifier's worth of
    characters. -/
theorem starts_constant (c : Char) (hc : c ∈ starts) (h : startsWord c = true) :
    ∀ d ∈ lowerOf c, (upperOf d).all continuesIdentifier = true :=
  fun d hd => (((starts_search c hc).2.2.2 h).2.2 d hd).1

theorem followers_constant (c : Char) (hc : c ∈ followers) (h : followsInWord c = true) :
    ∀ d ∈ lowerOf c, (upperOf d).all continuesIdentifier = true :=
  ((followers_search c hc).2.2 h).2

/-- Whether a character can stand in an accepted name, its final line break
    included. -/
def continuesName (c : Char) : Bool := continuesIdentifier c || c = '\n'

/-- A text that may end an accepted name is spelled like one if no line break is in it. -/
theorem continuesIdentifier_of_name {t : Text} (h : t.all continuesName = true) (hbreak : '\n' ∉ t) :
    t.all continuesIdentifier = true := by
  refine List.all_eq_true.mpr fun d hd => ?_
  have hname := List.all_eq_true.mp h d hd
  rw [continuesName, Bool.or_eq_true, decide_eq_true_eq] at hname
  rcases hname with hname | rfl
  · exact hname
  · exact absurd hd hbreak

/-- No case mapping makes a line break. -/
theorem starts_of_name (c : Char) (hc : c ∈ starts) (hsep : isSeparator c = false)
    (h : (upperOf c).all continuesName = true) : startsWord c = true := by
  have hbreak : '\n' ∉ upperOf c := fun hin => by simp [(starts_search c hc).2.1 hin] at hsep
  rw [startsWord, hsep, continuesIdentifier_of_name h hbreak]
  rfl

theorem followers_of_name (c : Char) (hc : c ∈ followers) (hsep : isSeparator c = false)
    (h : (lowerOf c).all continuesName = true) : followsInWord c = true := by
  have hbreak : '\n' ∉ lowerOf c := fun hin => by simp [(followers_search c hc).2.1 hin] at hsep
  rw [followsInWord, hsep, continuesIdentifier_of_name h hbreak]
  rfl

theorem toNat_of_continuesName {c : Char} (h : continuesName c = true) : c.toNat < 128 := by
  simp only [continuesName, continuesIdentifier, Char.isAlphanum, isAlpha_eq, Bool.or_eq_true,
    decide_eq_true_eq, isUpper_iff, isLower_iff, isDigit_iff] at h
  rcases h with ((h | rfl) | rfl) | rfl
  · omega
  · decide
  · decide
  · decide

/-! ### Words -/

/-- A word of a raw name whose capitalised form is spelled like a name. -/
structure IsNameWord (c : Char) (rest : Text) : Prop where
  start : startsWord c = true
  start_mem : c ∈ starts
  follow : ∀ d ∈ rest, followsInWord d = true
  follow_mem : ∀ d ∈ rest, d ∈ followers
  capitalized_eq : capitalized (c :: rest) = upperOf c ++ rest.flatMap lowerOf

theorem isNameWord_of {c : Char} {rest : Text} (hsep : ∀ d ∈ c :: rest, isSeparator d = false)
    (h : ∀ d ∈ capitalized (c :: rest), continuesName d = true) : IsNameWord c rest := by
  have hcap : capitalized (c :: rest) = upperOf c ++ Text.lower rest := by
    simp [capitalized, Text.upper]
  rw [hcap] at h
  rcases List.forall_mem_append.mp h with ⟨hup, hlow⟩
  rcases List.forall_mem_cons.mp hsep with ⟨hc, hrest⟩
  have hstart := mem_starts fun d hd => toNat_of_continuesName (hup d hd)
  rcases lowerAfter_of_ascii fun d hd => toNat_of_continuesName (hlow d hd) with ⟨heq, hall⟩
  have hmem : ∀ d ∈ rest, d ∈ followers := fun d hd => mem_followers (hall d hd)
  rw [Text.lower, heq] at hlow hcap
  refine ⟨starts_of_name c hstart hc (List.all_eq_true.mpr hup), hstart, fun d hd => ?_, hmem, hcap⟩
  apply followers_of_name d (hmem d hd) (hrest d hd)
  exact List.all_eq_true.mpr fun e he => hlow e (List.mem_flatMap.mpr ⟨d, hd, he⟩)

theorem IsNameWord.no_sigma {c : Char} {rest : Text} (h : IsNameWord c rest) :
    'Σ' ∉ c :: rest := by
  intro hmem
  rcases List.mem_cons.mp hmem with rfl | hmem
  · exact (starts_search _ h.start_mem).1 rfl
  · exact (followers_search _ (h.follow_mem _ hmem)).1 rfl

/-- The characters of a word of an accepted name, in lower case. -/
theorem mem_lower_word {c : Char} {rest : Text} (h : IsNameWord c rest) {e : Char}
    (he : e ∈ Text.lower (c :: rest)) : (upperOf e).all continuesIdentifier = true := by
  have hsigma := h.no_sigma
  rw [Text.lower, lowerAfter_of_no_sigma hsigma, List.flatMap_cons] at he
  rcases List.mem_append.mp he with he | he
  · exact starts_constant c h.start_mem h.start e he
  · rcases List.mem_flatMap.mp he with ⟨x, hx, he⟩
    exact followers_constant x (h.follow_mem x hx) (h.follow x hx) e he

/-- What a word of an accepted name becomes in the segment. -/
theorem lower_word {c : Char} {rest : Text} (h : IsNameWord c rest) :
    ∃ d t, Text.lower (c :: rest) = d :: t ∧ capitalized (d :: t) = capitalized (c :: rest)
      ∧ ∀ e ∈ d :: t, isTame e = true ∧ isSeparator e = false ∧ e.isUpper = false := by
  rcases starts_small c h.start_mem h.start with ⟨d, hd, hup, htame, hsep, hupper⟩
  have hsmall : ∀ e ∈ rest, IsSmall e := fun e he =>
    followers_small e (h.follow_mem e he) (h.follow e he)
  have hsigma := h.no_sigma
  have hlow : Text.lower (c :: rest) = d :: rest.flatMap lowerOf := by
    -- Without a sigma, each character is put into lower case by itself.
    rw [Text.lower, lowerAfter_of_no_sigma hsigma, List.flatMap_cons, hd]
    rfl
  have htail : ∀ e ∈ rest.flatMap lowerOf, lowerOf e = [e] ∧ isTame e = true
      ∧ isSeparator e = false ∧ e.isUpper = false ∧ e ≠ 'Σ' := by
    intro e he
    rcases List.mem_flatMap.mp he with ⟨x, hx, he⟩
    rcases hsmall x hx with ⟨y, hy, h1, h2, h3, h4, h5⟩
    rw [hy, List.mem_singleton] at he
    subst he
    exact ⟨h1, h2, h3, h4, h5⟩
  refine ⟨d, rest.flatMap lowerOf, hlow, ?_, ?_⟩
  -- Small characters stay as they are.
  · have hagain : (rest.flatMap lowerOf).flatMap lowerOf = rest.flatMap lowerOf := by
      rw [List.flatMap_congr fun e he => (htail e he).1]
      simp
    rw [h.capitalized_eq, capitalized, List.take_one, List.drop_one, List.head?_cons, List.tail_cons,
      Text.lower, lowerAfter_of_no_sigma fun hmem => (htail _ hmem).2.2.2.2 rfl, hagain, ← hup]
    simp [Text.upper]
  · intro e he
    rcases List.mem_cons.mp he with rfl | he
    · exact ⟨htame, hsep, hupper⟩
    · rcases htail e he with ⟨-, h2, h3, h4, -⟩
      exact ⟨h2, h3, h4⟩

/-! ### Names and segments -/

/-- A run that may be followed by one line break. -/
theorem exists_of_isRun {first rest : Char → Bool} {t : Text}
    (h : isRun first rest (withoutFinalBreak t) = true) :
    ∃ c s, t = c :: s ∧ first c = true ∧ ∀ d ∈ s, rest d = true ∨ d = '\n' := by
  -- A line break may stand behind the run.
  rw [withoutFinalBreak] at h
  split at h
  · next hlast =>
      rcases List.eq_nil_or_concat t with rfl | ⟨u, d, rfl⟩
      · exact absurd hlast (by simp)
      · rw [List.concat_eq_append] at h hlast ⊢
        rw [List.dropLast_concat] at h
        rw [List.getLast?_concat, Option.some.injEq] at hlast
        cases u with
        | nil => exact absurd h (by simp [isRun])
        | cons c u =>
            rw [isRun, Bool.and_eq_true, List.all_eq_true] at h
            refine ⟨c, u ++ [d], rfl, h.1, fun e he => ?_⟩
            rcases List.mem_append.mp he with he | he
            · exact Or.inl (h.2 e he)
            · exact Or.inr ((List.mem_singleton.mp he).trans hlast)
  · cases t with
    | nil => exact absurd h (by simp [isRun])
    | cons c s =>
        rw [isRun, Bool.and_eq_true, List.all_eq_true] at h
        exact ⟨c, s, rfl, h.1, fun e he => Or.inl (h.2 e he)⟩

theorem continuesName_of_isRun {first rest : Char → Bool} {t : Text}
    (hfirst : ∀ c, first c = true → continuesName c = true)
    (hrest : ∀ c, rest c = true → continuesName c = true)
    (h : isRun first rest (withoutFinalBreak t) = true) : ∀ c ∈ t, continuesName c = true := by
  rcases exists_of_isRun h with ⟨c, s, rfl, hc, hs⟩
  intro d hd
  rcases List.mem_cons.mp hd with rfl | hd
  · exact hfirst d hc
  · rcases hs d hd with hd | rfl
    · exact hrest d hd
    · decide

theorem continuesName_of_isIdentifier {name : Text} (h : isIdentifier name = true) :
    ∀ c ∈ name, continuesName c = true := by
  refine continuesName_of_isRun (fun c hc => ?_) (fun c hc => by simp [continuesName, hc]) h
  simp only [beginsIdentifier, Bool.or_eq_true, decide_eq_true_eq] at hc
  rcases hc with (hc | rfl) | rfl
  · simp [continuesName, continuesIdentifier, Char.isAlphanum, hc]
  · decide
  · decide

theorem eq_of_after? {l t r : Text} (h : Text.after? l t = some r) : t = l ++ r := by
  induction l generalizing t with
  | nil => exact Option.some.inj h
  | cons c l ih =>
      cases t with
      | nil => exact absurd h (by simp [Text.after?])
      | cons d t =>
          rw [Text.after?] at h
          split at h
          · next hcd => rw [hcd, ih h, List.cons_append]
          · exact absurd h (by simp)

theorem continuesName_of_isAlphanum {c : Char} (h : c.isAlphanum = true) : continuesName c = true := by
  simp [continuesName, continuesIdentifier, h]

/-- Hook names are runs too, behind their first letter. -/
theorem isRun_of_isHookName {name : Text} (h : isHookName name = true) :
    isRun Char.isLower Char.isAlphanum (withoutFinalBreak name) = true := by
  rw [isHookName] at h
  split at h
  · next t hafter =>
      rw [eq_of_after? hafter]
      cases t with
      | nil => exact absurd h (by simp [isRun])
      | cons c t =>
          rw [isRun, Bool.and_eq_true] at h
          have hc : c.isAlphanum = true := by simp [Char.isAlphanum, isAlpha_eq, h.1]
          rw [show "use".toList ++ c :: t = 'u' :: 's' :: 'e' :: c :: t from rfl, isRun, List.all_cons,
            List.all_cons, List.all_cons, hc, h.2]
          decide
  · exact absurd h (by simp)

/-- The words of an accepted name. -/
theorem isNameWord_of_mem {raw w : Text} (h : isIdentifier (pascal raw) = true)
    (hw : w ∈ words raw) : ∃ c rest, w = c :: rest ∧ IsNameWord c rest := by
  rcases Text.exists_of_mem_words hw with ⟨hne, hsep, -⟩
  cases w with
  | nil => exact absurd rfl hne
  | cons c rest =>
      refine ⟨c, rest, rfl, isNameWord_of hsep fun d hd => ?_⟩
      exact continuesName_of_isIdentifier h d (List.mem_flatMap.mpr ⟨_, hw, hd⟩)

theorem words_join {ws : List Text} (h : ∀ w ∈ ws, w ≠ [] ∧ ∀ c ∈ w, isSeparator c = false) :
    words (Text.join ['-'] ws) = ws := by
  induction ws with
  | nil => rfl
  | cons w ws ih =>
      rcases List.forall_mem_cons.mp h with ⟨⟨hne, hw⟩, hws⟩
      have hrun : words w = [w] := Text.words_of_run hne hw
      cases ws with
      | nil => exact hrun
      | cons v ws =>
          have hsep : isSeparator '-' = true := by decide
          rw [Text.join, List.append_assoc, List.singleton_append, words,
            Text.words_append_sep hsep, ← words, ← words, ih hws, hrun]
          · rfl
          · simp

/-- The words of the segment are those of the name, in lower case. -/
theorem words_segment {raw : Text} (h : isIdentifier (pascal raw) = true) :
    words (segment raw) = (words raw).map Text.lower := by
  apply words_join
  intro v hv
  rcases List.mem_map.mp hv with ⟨w, hw, rfl⟩
  rcases isNameWord_of_mem h hw with ⟨c, rest, rfl, hword⟩
  rcases lower_word hword with ⟨d, t, hlow, -, hall⟩
  rw [hlow]
  exact ⟨by simp, fun e he => (hall e he).2.1⟩

/-- The name is a function of the segment. -/
theorem pascal_segment {raw : Text} (h : isIdentifier (pascal raw) = true) :
    pascal (segment raw) = pascal raw := by
  rw [pascal, words_segment h, List.flatMap_map, pascal]
  apply List.flatMap_congr
  intro w hw
  rcases isNameWord_of_mem h hw with ⟨c, rest, rfl, hword⟩
  rcases lower_word hword with ⟨d, t, hlow, hcap, -⟩
  rw [hlow, hcap]

theorem mem_join {sep : Text} {ws : List Text} {c : Char} (h : c ∈ Text.join sep ws) :
    c ∈ sep ∨ ∃ w ∈ ws, c ∈ w := by
  induction ws with
  | nil => exact absurd h (by simp [Text.join])
  | cons w ws ih =>
      cases ws with
      | nil => exact Or.inr ⟨w, by simp, h⟩
      | cons v ws =>
          rw [Text.join] at h
          · rcases List.mem_append.mp h with h | h
            · rcases List.mem_append.mp h with h | h
              · exact Or.inr ⟨w, by simp, h⟩
              · exact Or.inl h
            · rcases ih h with h | ⟨x, hx, hc⟩
              · exact Or.inl h
              · exact Or.inr ⟨x, by simp [hx], hc⟩
          · simp

/-- What segments are spelled with: no capital letters among it. -/
theorem segment_char {raw : Text} (h : isIdentifier (pascal raw) = true) :
    ∀ c ∈ segment raw, isTame c = true ∧ c.isUpper = false := by
  intro c hc
  rcases mem_join hc with hc | ⟨v, hv, hc⟩
  · rw [List.mem_singleton.mp hc]
    decide
  · rcases List.mem_map.mp hv with ⟨w, hw, rfl⟩
    rcases isNameWord_of_mem h hw with ⟨x, rest, rfl, hword⟩
    rcases lower_word hword with ⟨d, t, hlow, -, hall⟩
    rw [hlow] at hc
    rcases hall c hc with ⟨h1, -, h3⟩
    exact ⟨h1, h3⟩

/-- What the constant of a segment is spelled with. -/
theorem constant_char {raw : Text} (h : isIdentifier (pascal raw) = true) :
    ∀ c ∈ asConstant (segment raw), continuesIdentifier c = true := by
  intro c hc
  rcases List.mem_flatMap.mp hc with ⟨d, hd, hc⟩
  rcases List.mem_map.mp hd with ⟨e, he, rfl⟩
  have hall : (upperOf (if e = '-' then '_' else e)).all continuesIdentifier = true := by
    rcases mem_join he with he | ⟨v, hv, he⟩
    · rw [List.mem_singleton.mp he]
      decide
    · rcases List.mem_map.mp hv with ⟨w, hw, rfl⟩
      rcases isNameWord_of_mem h hw with ⟨x, rest, rfl, hword⟩
      split
      · decide
      · exact mem_lower_word hword he
  exact List.all_eq_true.mp hall c hc

/-- A constant has no small letters. -/
theorem constant_not_lower {raw : Text} (h : isIdentifier (pascal raw) = true) :
    ∀ c ∈ asConstant (segment raw), c.isLower = false := by
  intro c hc
  have hall := constant_char h
  rcases List.mem_flatMap.mp hc with ⟨d, hd, hcd⟩
  -- All of its upper case is ASCII, so the character is one of those looked through.
  refine (starts_search d (mem_starts fun e he => ?_)).2.2.1 c hcd
  have hident := hall e (List.mem_flatMap.mpr ⟨d, hd, he⟩)
  exact toNat_of_continuesName (by simp [continuesName, hident])

/-- What accepted names are spelled with. -/
theorem pascal_char {raw : Text} (h : isIdentifier (pascal raw) = true) :
    ∀ c ∈ pascal raw, continuesIdentifier c = true := by
  intro c hc
  rcases List.mem_flatMap.mp hc with ⟨w, hw, hc⟩
  rcases isNameWord_of_mem h hw with ⟨x, rest, rfl, hword⟩
  rw [hword.capitalized_eq] at hc
  rcases List.mem_append.mp hc with hc | hc
  · have := hword.start
    simp only [startsWord, Bool.and_eq_true, List.all_eq_true] at this
    exact this.2 c hc
  · rcases List.mem_flatMap.mp hc with ⟨y, hy, hc⟩
    have := hword.follow y hy
    simp only [followsInWord, Bool.and_eq_true, List.all_eq_true] at this
    exact this.2 c hc

/-- What the variables of routes are spelled with. -/
theorem camel_segment_char {raw : Text} (h : isIdentifier (pascal raw) = true) :
    ∀ c ∈ camel (segment raw), isTame c = true := by
  intro c hc
  rw [camel, words_segment h] at hc
  cases hwords : words raw with
  | nil =>
      rw [hwords] at hc
      exact absurd hc (by simp)
  | cons w ws =>
      rw [hwords, List.map_cons] at hc
      have hmem : ∀ v ∈ w :: ws, v ∈ words raw := fun v hv => hwords ▸ hv
      rcases isNameWord_of_mem h (hmem w (by simp)) with ⟨x, rest, rfl, hword⟩
      rcases lower_word hword with ⟨d, t, hlow, -, hall⟩
      rw [hlow] at hc
      change c ∈ Text.lower [d] ++ t ++ (ws.map Text.lower).flatMap capitalized at hc
      -- The first word is small, each of the others begins with a capital.
      rcases List.mem_append.mp hc with hc | hc
      · rcases List.mem_append.mp hc with hc | hc
        · -- The first character is put into lower case once more.
          have hd : d ∈ lowerOf x := by
            rcases starts_small x hword.start_mem hword.start with ⟨e, he, -⟩
            have heq : Text.lower (x :: rest) = e :: rest.flatMap lowerOf := by
              rw [Text.lower, lowerAfter_of_no_sigma hword.no_sigma, List.flatMap_cons, he]
              rfl
            rw [hlow, List.cons.injEq] at heq
            rw [he, heq.1]
            simp
          rcases (((starts_search x hword.start_mem).2.2.2 hword.start).2.2 d hd).2 with ⟨hsigma, htame⟩
          have hone : Text.lower [d] = lowerOf d := by
            rw [Text.lower, lowerAfter_of_no_sigma (by simpa using Ne.symm hsigma)]
            simp
          exact List.all_eq_true.mp htame c (hone ▸ hc)
        · exact (hall c (by simp [hc])).1
      · rcases List.mem_flatMap.mp hc with ⟨v, hv, hc⟩
        rcases List.mem_map.mp hv with ⟨u, hu, rfl⟩
        rcases isNameWord_of_mem h (hmem u (by simp [hu])) with ⟨y, rest', rfl, hword'⟩
        rcases lower_word hword' with ⟨d', t', hlow', hcap, -⟩
        rw [hlow', hcap] at hc
        exact isTame_of_continuesIdentifier (pascal_char h c
          (List.mem_flatMap.mpr ⟨y :: rest', hmem _ (by simp [hu]), hc⟩))

theorem pascal_ne_nil {raw : Text} (h : isIdentifier (pascal raw) = true) : pascal raw ≠ [] := by
  intro hnil
  rw [hnil] at h
  exact absurd h (by decide)

theorem segment_ne_nil {raw : Text} (h : isIdentifier (pascal raw) = true) : segment raw ≠ [] := by
  intro hnil
  have := pascal_segment h
  rw [hnil] at this
  exact pascal_ne_nil h this.symm

/-- An accepted name without a dollar sign begins with a capital letter. -/
theorem isUpper_head_pascal {raw : Text} (h : isIdentifier (pascal raw) = true)
    (hd : '$' ∉ pascal raw) : (pascal raw).head?.any Char.isUpper = true := by
  have hne := pascal_ne_nil h
  cases hws : words raw with
  | nil => exact absurd (by rw [pascal, hws]; rfl) hne
  | cons w ws =>
      rcases isNameWord_of_mem h (w := w) (by simp [hws]) with ⟨c, rest, rfl, hword⟩
      have hup := starts_upper c hword.start_mem hword.start
      cases hc : upperOf c with
      | nil =>
          rw [hc] at hup
          exact absurd hup (by simp)
      | cons d t =>
          have hhead : ∃ u, pascal raw = d :: u := by
            rw [pascal, hws, List.flatMap_cons, hword.capitalized_eq, hc]
            exact ⟨_, rfl⟩
          rcases hhead with ⟨u, hu⟩
          rw [hc] at hup
          rw [hu] at h hd ⊢
          simp only [List.head?_cons, Option.any_some, Bool.or_eq_true, decide_eq_true_eq] at hup ⊢
          -- The first character is a capital, a digit, or the one letter that the premise excludes.
          rcases hup with (hup | hup) | rfl
          · exact hup
          · -- A digit begins no identifier.
            exfalso
            have hbegin : beginsIdentifier d = true := by
              unfold isIdentifier withoutFinalBreak at h
              split at h
              · cases u with
                | nil => exact absurd h (by simp [isRun])
                | cons e u =>
                    simp only [List.dropLast, isRun, Bool.and_eq_true] at h
                    exact h.1
              · simp only [isRun, Bool.and_eq_true] at h
                exact h.1
            simp only [beginsIdentifier, Bool.or_eq_true, decide_eq_true_eq] at hbegin
            rcases hbegin with (halpha | rfl) | rfl
            · rw [isAlpha_eq, Bool.or_eq_true, isUpper_iff, isLower_iff] at halpha
              rw [isDigit_iff] at hup
              omega
            · exact absurd hup (by decide)
            · exact absurd hup (by decide)
          · exact absurd hd (by simp)

/-- Two raw names with one segment have one canonical name. -/
theorem pascal_eq_of_segment_eq {raw raw' : Text} (h : isIdentifier (pascal raw) = true)
    (h' : isIdentifier (pascal raw') = true) (hseg : segment raw = segment raw') :
    pascal raw = pascal raw' := by
  rw [← pascal_segment h, ← pascal_segment h', hseg]

/-! ### Dollar signs -/

/-- A dollar sign, and an underscore, is the upper case and the lower case of itself alone. -/
theorem marks_search : ∀ c ∈ starts ++ followers, ∀ b ∈ ['$', '_'], (b ∈ upperOf c ∨ b ∈ lowerOf c → c = b)
    ∧ ∀ e ∈ lowerOf c, b ∈ upperOf e ∨ b ∈ lowerOf e → e = b := by
  decide +kernel

/-- An underscore separates words, so no accepted name has one. -/
theorem not_underscore_pascal {raw : Text} (h : isIdentifier (pascal raw) = true) : '_' ∉ pascal raw := by
  intro hmem
  rcases List.mem_flatMap.mp hmem with ⟨w, hw, hc⟩
  rcases isNameWord_of_mem h hw with ⟨x, rest, rfl, hword⟩
  rw [hword.capitalized_eq] at hc
  rcases List.mem_append.mp hc with hc | hc
  · have heq := (marks_search x (by simp [hword.start_mem]) '_' (by simp)).1 (Or.inl hc)
    subst heq
    exact absurd hword.start (by decide)
  · rcases List.mem_flatMap.mp hc with ⟨y, hy, hc⟩
    have heq := (marks_search y (by simp [hword.follow_mem y hy]) '_' (by simp)).1 (Or.inr hc)
    subst heq
    exact absurd (hword.follow _ hy) (by decide)

/-- The words of a name without a dollar sign have none either, and neither has what they
    become in the segment. -/
theorem lower_word_plain {c : Char} {rest : Text} (h : IsNameWord c rest) (hd : '$' ∉ capitalized (c :: rest)) :
    ∀ e ∈ Text.lower (c :: rest), '$' ∉ upperOf e ∧ '$' ∉ lowerOf e := by
  have hmark : ∀ x ∈ c :: rest, x ∈ starts ++ followers ∧ x ≠ '$' := by
    intro x hx
    rw [h.capitalized_eq, List.mem_append, not_or] at hd
    rcases List.mem_cons.mp hx with rfl | hx
    -- The sign is a capital of none but itself.
    · refine ⟨List.mem_append_left _ h.start_mem, ?_⟩
      rintro rfl
      exact hd.1 (by decide)
    · refine ⟨List.mem_append_right _ (h.follow_mem x hx), ?_⟩
      rintro rfl
      exact hd.2 (List.mem_flatMap.mpr ⟨_, hx, by decide⟩)
  intro e he
  rw [Text.lower, lowerAfter_of_no_sigma h.no_sigma] at he
  rcases List.mem_flatMap.mp he with ⟨x, hx, he⟩
  have hsearch := marks_search x (hmark x hx).1 '$' (by simp)
  have hne : e ≠ '$' := by
    rintro rfl
    exact (hmark x hx).2 (hsearch.1 (Or.inr he))
  exact ⟨fun hup => hne (hsearch.2 e he (Or.inl hup)), fun hlow => hne (hsearch.2 e he (Or.inr hlow))⟩

section Plain

variable {raw : Text} (h : isIdentifier (pascal raw) = true) (hd : '$' ∉ pascal raw)
include h hd

theorem word_plain {w : Text} (hw : w ∈ words raw) :
    '$' ∉ capitalized w ∧ ∀ e ∈ Text.lower w, '$' ∉ upperOf e ∧ '$' ∉ lowerOf e := by
  have hcap : '$' ∉ capitalized w := fun hmem => hd (List.mem_flatMap.mpr ⟨w, hw, hmem⟩)
  rcases isNameWord_of_mem h hw with ⟨x, rest, rfl, hword⟩
  exact ⟨hcap, lower_word_plain hword hcap⟩

/-- The constant of a segment has no dollar sign if the name has none. -/
theorem constant_plain : '$' ∉ asConstant (segment raw) := by
  intro hc
  rcases List.mem_flatMap.mp hc with ⟨d, hd', hc⟩
  rcases List.mem_map.mp hd' with ⟨e, he, rfl⟩
  split at hc
  · exact absurd hc (by decide)
  · next hne =>
      rcases mem_join he with he | ⟨v, hv, he⟩
      · exact hne (List.mem_singleton.mp he)
      · rcases List.mem_map.mp hv with ⟨w, hw, rfl⟩
        exact ((word_plain h hd hw).2 e he).1 hc

end Plain

/-- A role's name begins with a letter. -/
theorem role_head {role : Text} (h : isRoleName role = true) :
    ∃ c t, role = c :: t ∧ c.isAlpha = true := by
  rcases exists_of_isRun h with ⟨c, t, heq, hc, -⟩
  exact ⟨c, t, heq, hc⟩

end Naming

end RouteScaffold

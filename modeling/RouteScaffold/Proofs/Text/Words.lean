import Mathlib.Data.List.TakeWhile
import Mathlib.Data.List.Infix
import RouteScaffold.Proofs.Edit.Reading

/-!
# Words of a Text

A word stands in a text with a boundary on either side. For a word that is
made of word characters this is the same as being one of the runs of word
characters that the text falls into, and runs are easy to list: they never
cross a character of another sort, so a text that is put together from pieces
has the runs of its pieces.

Words with other characters at their edges, which an identifier may have, are
covered by `mentionsFrom` alone; there the boundary falls inside what a reader
would call the word.

## Main definitions

* `Text.tokens`: The runs of word characters of a text.
* `Text.mentionsFrom`: Whether a word stands in a text behind a character.

## Theorems

* `words_append_sep`: Words on both sides of a separator.
* `wholeWord?_eq_some`: What a whole word is.
* `mentionsFrom_iff`: Where a word stands.
* `wholeWord?_delimited`: A word does not reach over a delimiter.
* `mentions_iff_mem_tokens`: Words of word characters are runs.
-/

namespace RouteScaffold

open Cursor

namespace Text

/-- The runs of word characters of a text. -/
def tokens (t : Text) : List Text := words (fun c => !isWord c) t

theorem words_cons_sep {p : Char → Bool} {c : Char} (hc : p c = true) (t : Text) :
    words p (c :: t) = words p t := by
  simp [words, hc]

/-- Off a separator, the first word is the run that starts there. -/
theorem words_cons_run {p : Char → Bool} {c : Char} (hc : p c = false) (t : Text) :
    words p (c :: t) = (c :: t.takeWhile (!p ·)) :: words p (t.dropWhile (!p ·)) := by
  induction t generalizing c with
  | nil => simp [words, hc]
  | cons d t ih =>
      rw [words]
      by_cases hd : p d = true
      · simp [hc, hd]
      · have hdf : p d = false := by simpa using hd
        simp [hc, hdf, ih hdf]

theorem words_append_sep {p : Char → Bool} {c : Char} (hc : p c = true) (s t : Text) :
    words p (s ++ c :: t) = words p s ++ words p t := by
  induction s with
  | nil => simp [words_cons_sep hc, words]
  | cons x s ih =>
      -- A separator ends a word; anything else goes on with it, or begins one.
      by_cases hx : p x = true
      · rw [List.cons_append, words_cons_sep hx, words_cons_sep hx, ih]
      · have hxf : p x = false := by simpa using hx
        cases s with
        | nil => simp [words, hxf, hc]
        | cons d s =>
            rw [List.cons_append, List.cons_append] at *
            rw [words, words]
            by_cases hd : p d = true
            · simp only [hxf, hd, Bool.false_eq_true, if_false, if_true, ih, List.cons_append]
            · have hdf : p d = false := by simpa using hd
              simp only [hxf, hdf, Bool.false_eq_true, if_false, ih, words_cons_run hdf s,
                List.cons_append]

/-- A run of word characters is one word. -/
theorem words_of_run {p : Char → Bool} {w : Text} (hne : w ≠ []) (hw : ∀ c ∈ w, p c = false) :
    words p w = [w] := by
  induction w with
  | nil => exact absurd rfl hne
  | cons c w ih =>
      have hc := hw c (by simp)
      cases w with
      | nil => simp [words, hc]
      | cons d w =>
          have hd := hw d (by simp)
          rw [words]
          simp only [hc, hd, Bool.false_eq_true, if_false,
            ih (by simp) fun e he => hw e (by simp [he])]

/-- A word is bounded by separators, or by the ends of the text. -/
theorem exists_of_mem_words {p : Char → Bool} {w t : Text} (h : w ∈ words p t) :
    w ≠ [] ∧ (∀ c ∈ w, p c = false) ∧ ∃ s r, t = s ++ (w ++ r)
      ∧ (∀ c ∈ s.getLast?, p c = true) ∧ ∀ c ∈ r.head?, p c = true := by
  induction ht : t.length using Nat.strong_induction_on generalizing t with
  | _ n ih =>
      cases t with
      | nil => simp [words] at h
      | cons c t =>
          by_cases hc : p c = true
          · rw [words_cons_sep hc] at h
            rcases ih t.length (by simp [← ht]) h rfl with ⟨h1, h2, s, r, hsr, hs, hr⟩
            refine ⟨h1, h2, c :: s, r, by rw [hsr]; rfl, ?_, hr⟩
            cases s with
            | nil => simp [hc]
            | cons d s => simpa [List.getLast?_cons] using hs
          · have hcf : p c = false := by simpa using hc
            rw [words_cons_run hcf] at h
            have hsplit := List.takeWhile_append_dropWhile (p := (!p ·)) (l := t)
            have hhead : ∀ e ∈ (t.dropWhile (!p ·)).head?, p e = true := by
              intro e he
              have := List.head?_dropWhile_not (!p ·) t
              rw [Option.mem_def.mp he] at this
              simpa using this
            rcases List.mem_cons.mp h with rfl | h
            · refine ⟨by simp, ?_, [], t.dropWhile (!p ·), by simp, by simp, hhead⟩
              intro e he
              rcases List.mem_cons.mp he with rfl | he
              · exact hcf
              · simpa using List.mem_takeWhile_imp he
            · have hlt : (t.dropWhile (!p ·)).length < n := by
                have := (List.dropWhile_suffix (!p ·) (l := t)).length_le
                simp only [List.length_cons] at ht
                omega
              rcases ih _ hlt h rfl with ⟨h1, h2, s, r, hsr, hs, hr⟩
              refine ⟨h1, h2, c :: t.takeWhile (!p ·) ++ s, r, ?_, ?_, hr⟩
              · rw [List.append_assoc, List.cons_append, ← hsr, hsplit]
              · intro e he
                -- The run before the word ends at a separator, so `s` is not empty.
                rcases List.eq_nil_or_concat s with rfl | ⟨s', d, rfl⟩
                · rcases List.exists_cons_of_ne_nil h1 with ⟨x, v, rfl⟩
                  have hx := hhead x (by rw [hsr]; rfl)
                  rw [h2 x (by simp)] at hx
                  exact absurd hx (by simp)
                · apply hs
                  rw [List.concat_eq_append, List.getLast?_append] at *
                  simpa using he

/-- Whether a word stands in a text that follows a character. -/
def mentionsFrom (word : Text) (before : Option Char) (t : Text) : Bool :=
  (Recogniser.findFrom (Pattern.wholeWord? word) before t).isSome

theorem mentions_eq (word t : Text) : mentions word t = mentionsFrom word none t := rfl

/-- What a whole word is: the word itself, with a boundary on either side. -/
theorem wholeWord?_eq_some {w : Text} {b : Option Char} {t : Text} {k : Cursor} :
    Pattern.wholeWord? w ⟨b, t⟩ = some k ↔
      t = w ++ k.after ∧ k.before = passed b w ∧ atBoundary b t.head? = true
        ∧ atBoundary (passed b w) k.after.head? = true := by
  simp only [Pattern.wholeWord?, atWordBoundary, bind, Option.bind, guard]
  -- No word begins where there is no boundary.
  by_cases hb : atBoundary b t.head? = true
  · simp only [hb, if_true, pure]
    constructor
    · intro h
      split at h
      · exact absurd h (by simp)
      · next k' hk' =>
          rcases literal?_eq_some.mp hk' with ⟨ht, hk⟩
          by_cases he : atBoundary k'.before k'.after.head? = true
          · simp only [he, if_true, Option.some.injEq] at h
            subst h
            exact ⟨ht, hk, trivial, by rw [← hk]; exact he⟩
          · simp [he] at h
    · rintro ⟨ht, hk, -, he⟩
      have hlit := literal?_eq_some.mpr ⟨ht, hk⟩
      rw [hlit]
      rw [← hk] at he
      simp [he]
  · simp [hb, failure]

/-- Where a word stands: between two parts of the text, each side with a
    boundary. -/
theorem mentionsFrom_iff (w : Text) (b : Option Char) (t : Text) :
    mentionsFrom w b t = true ↔
      ∃ s r, t = s ++ (w ++ r) ∧ atBoundary (passed b s) (w ++ r).head? = true
        ∧ atBoundary (passed (passed b s) w) r.head? = true := by
  rw [mentionsFrom, Recogniser.findFrom_isSome_iff]
  constructor
  · rintro ⟨s, r, hsr, h⟩
    rcases Option.isSome_iff_exists.mp h with ⟨k, hk⟩
    rcases wholeWord?_eq_some.mp hk with ⟨hr, -, h1, h2⟩
    exact ⟨s, k.after, by rw [hsr, ← hr], by rw [← hr]; exact h1, h2⟩
  · rintro ⟨s, r, hsr, h1, h2⟩
    refine ⟨s, w ++ r, hsr, ?_⟩
    have : Pattern.wholeWord? w ⟨passed b s, w ++ r⟩ = some ⟨passed (passed b s) w, r⟩ :=
      wholeWord?_eq_some.mpr ⟨rfl, rfl, h1, h2⟩
    rw [this]
    rfl

/-! ### Delimiters -/

/-- Reading a whole word looks no further than a delimiter that the word does
    not hold. -/
theorem wholeWord?_delimited {w : Text} {d : Char} (hd : isWord d = false) (hw : d ∉ w)
    (b : Option Char) (s r : Text) :
    Pattern.wholeWord? w ⟨b, s ++ d :: r⟩
      = (Pattern.wholeWord? w ⟨b, s⟩).map fun k => ⟨k.before, k.after ++ d :: r⟩ := by
  -- The boundary in front of the delimiter is that at the end of a text.
  have hhead : ∀ (x : Option Char) (v : Text),
      atBoundary x (v ++ d :: r).head? = atBoundary x v.head? := by
    intro x v
    cases v with
    | nil => simp [atBoundary, hd]
    | cons c v => rfl
  cases h : Pattern.wholeWord? w ⟨b, s⟩ with
  | some k =>
      rcases wholeWord?_eq_some.mp h with ⟨hs, hk, h1, h2⟩
      rw [Option.map_some]
      apply wholeWord?_eq_some.mpr
      refine ⟨by simp [hs], hk, ?_, ?_⟩
      · rw [hhead]
        exact h1
      · rw [hhead]
        exact h2
  | none =>
      rw [Option.map_none]
      cases h' : Pattern.wholeWord? w ⟨b, s ++ d :: r⟩ with
      | none => rfl
      | some k =>
          rcases wholeWord?_eq_some.mp h' with ⟨hs, hk, h1, h2⟩
          exfalso
          rcases List.append_eq_append_iff.mp hs with ⟨v, hv, hr⟩ | ⟨v, hv, hr⟩
          · -- The word reaches over the delimiter.
            cases v with
            | nil =>
                rw [List.append_nil] at hv
                rw [List.nil_append] at hr
                have : Pattern.wholeWord? w ⟨b, s⟩ = some ⟨passed b w, []⟩ := by
                  apply wholeWord?_eq_some.mpr
                  refine ⟨by rw [hv, List.append_nil], rfl, ?_, ?_⟩
                  · rw [hhead] at h1
                    exact h1
                  · rw [← hr] at h2
                    have := hhead (passed b w) []
                    rw [List.nil_append] at this
                    rw [← this]
                    exact h2
                rw [h] at this
                exact absurd this (by simp)
            | cons c v =>
                rw [List.cons_append, List.cons.injEq] at hr
                rw [hv, ← hr.1] at hw
                simp at hw
          · have : Pattern.wholeWord? w ⟨b, s⟩ = some ⟨passed b w, v⟩ := by
              apply wholeWord?_eq_some.mpr
              refine ⟨hv, rfl, ?_, ?_⟩
              · rw [hhead] at h1
                exact h1
              · rw [hr, hhead] at h2
                exact h2
            rw [h] at this
            exact absurd this (by simp)

theorem wholeWord?_nil {w : Text} (hne : w ≠ []) (b : Option Char) :
    Pattern.wholeWord? w ⟨b, []⟩ = none := by
  cases h : Pattern.wholeWord? w ⟨b, []⟩ with
  | none => rfl
  | some k =>
      rcases wholeWord?_eq_some.mp h with ⟨hs, -⟩
      exact absurd (List.append_eq_nil_iff.mp hs.symm).1 hne

theorem mentionsFrom_nil {w : Text} (hne : w ≠ []) (b : Option Char) :
    mentionsFrom w b [] = false := by
  simp [mentionsFrom, Recogniser.findFrom, Recogniser.length?, wholeWord?_nil hne]

theorem mentionsFrom_cons (w : Text) (b : Option Char) (c : Char) (t : Text) :
    mentionsFrom w b (c :: t)
      = ((Pattern.wholeWord? w ⟨b, c :: t⟩).isSome || mentionsFrom w (some c) t) := by
  simp only [mentionsFrom, Recogniser.findFrom, Recogniser.length?]
  cases Pattern.wholeWord? w ⟨b, c :: t⟩ <;> simp

/-- A word stands on one side of a delimiter or on the other. -/
theorem mentionsFrom_delimited {w : Text} (hne : w ≠ []) {d : Char} (hd : isWord d = false)
    (hw : d ∉ w) (b : Option Char) (s r : Text) :
    mentionsFrom w b (s ++ d :: r) = (mentionsFrom w b s || mentionsFrom w (some d) r) := by
  -- Up to the delimiter, the word is read in the same way as in the first part.
  have hword : ∀ (x : Option Char) (v : Text),
      (Pattern.wholeWord? w ⟨x, v ++ d :: r⟩).isSome = (Pattern.wholeWord? w ⟨x, v⟩).isSome := by
    intro x v
    rw [wholeWord?_delimited hd hw]
    simp
  induction s generalizing b with
  | nil =>
      have := hword b []
      rw [List.nil_append, wholeWord?_nil hne] at this
      rw [List.nil_append, mentionsFrom_cons, this, mentionsFrom_nil hne]
      simp
  | cons c s ih =>
      have := hword b (c :: s)
      rw [List.cons_append] at this ⊢
      rw [mentionsFrom_cons, mentionsFrom_cons, this, ih, Bool.or_assoc]

/-- All that counts of the character before a text is whether it is part of
    words. -/
theorem mentionsFrom_congr {b b' : Option Char} (h : b.any isWord = b'.any isWord) {w : Text}
    (hne : w ≠ []) (t : Text) : mentionsFrom w b t = mentionsFrom w b' t := by
  cases t with
  | nil => rw [mentionsFrom_nil hne, mentionsFrom_nil hne]
  | cons c t =>
      have hword : (Pattern.wholeWord? w ⟨b, c :: t⟩).isSome
          = (Pattern.wholeWord? w ⟨b', c :: t⟩).isSome := by
        -- Only the kind of the character in front counts.
        have hiff : ∀ x y : Option Char, x.any isWord = y.any isWord →
            (Pattern.wholeWord? w ⟨x, c :: t⟩).isSome = true →
            (Pattern.wholeWord? w ⟨y, c :: t⟩).isSome = true := by
          intro x y hxy hx
          rcases Option.isSome_iff_exists.mp hx with ⟨k, hk⟩
          rcases wholeWord?_eq_some.mp hk with ⟨h1, h2, h3, h4⟩
          have : Pattern.wholeWord? w ⟨y, c :: t⟩ = some k :=
            wholeWord?_eq_some.mpr ⟨h1, by rw [h2, passed_of_ne_nil x y hne],
              by rw [atBoundary, ← hxy]; exact h3, by rw [passed_of_ne_nil y x hne]; exact h4⟩
          rw [this]
          rfl
        rw [Bool.eq_iff_iff]
        exact ⟨hiff b b' h, hiff b' b h.symm⟩
      rw [mentionsFrom_cons, mentionsFrom_cons, hword]

/-! ### Runs -/

/-- A run of word characters that begins behind a character of another sort,
    and ends before one. -/
theorem atBoundary_run {b : Option Char} {w r : Text} (hne : w ≠ [])
    (hw : ∀ c ∈ w, isWord c = true) :
    (atBoundary b (w ++ r).head? = true ∧ atBoundary (passed b w) r.head? = true) ↔
      b.any isWord = false ∧ r.head?.any isWord = false := by
  have hhead : (w ++ r).head?.any isWord = true := by
    cases w with
    | nil => exact absurd rfl hne
    | cons c w => simp [hw c (by simp)]
  have hlast : (passed b w).any isWord = true := by
    rcases List.eq_nil_or_concat w with rfl | ⟨v, c, rfl⟩
    · exact absurd rfl hne
    · rw [List.concat_eq_append, passed_concat]
      simp [hw c (by simp)]
  simp only [atBoundary, hhead, hlast]
  cases b.any isWord <;> cases r.head?.any isWord <;> simp

theorem passed_none_any (s : Text) (p : Char → Bool) :
    (passed none s).any p = s.getLast?.any p := by
  rcases List.eq_nil_or_concat s with rfl | ⟨s, c, rfl⟩
  · rfl
  · simp [List.concat_eq_append]

/-! ### Texts put together -/

theorem tokens_word {w : Text} (hne : w ≠ []) (hw : ∀ c ∈ w, isWord c = true) : tokens w = [w] :=
  words_of_run hne (by simpa using hw)

theorem tokens_append_sep {c : Char} (hc : isWord c = false) (s t : Text) :
    tokens (s ++ c :: t) = tokens s ++ tokens t := words_append_sep (by rw [hc]; rfl) s t

/-- A text that ends with no word character keeps its words to itself. -/
theorem tokens_append {s : Text} (h : s.getLast?.any isWord = false) (t : Text) :
    tokens (s ++ t) = tokens s ++ tokens t := by
  rcases List.eq_nil_or_concat s with rfl | ⟨u, c, rfl⟩
  · rfl
  · have hc : isWord c = false := by simpa using h
    rw [List.concat_eq_append, List.append_assoc, List.singleton_append, tokens_append_sep hc, tokens_append_sep hc]
    simp [tokens, words]

/-- So does a text in front of one that begins with no word character. -/
theorem tokens_append_of_head (s : Text) {t : Text} (h : t.head?.any isWord = false) :
    tokens (s ++ t) = tokens s ++ tokens t := by
  cases t with
  | nil => simp [tokens, words]
  | cons c t =>
      have hc : isWord c = false := by simpa using h
      rw [tokens_append_sep hc, tokens, tokens, tokens, words_cons_sep (by rw [hc]; rfl)]

/-- Texts that all end with no word character keep their words to themselves. -/
theorem tokens_flatMap_append {α : Type} {f : α → Text} {xs : List α}
    (h : ∀ x ∈ xs, (f x).getLast?.any isWord = false) (t : Text) :
    tokens (xs.flatMap f ++ t) = xs.flatMap (fun x => tokens (f x)) ++ tokens t := by
  induction xs with
  | nil => rfl
  | cons x xs ih =>
      rw [List.flatMap_cons, List.append_assoc, tokens_append (h x (by simp)), ih fun y hy => h y (by simp [hy]),
        List.flatMap_cons, List.append_assoc]

/-- Words of word characters are runs. -/
theorem mentions_iff_mem_tokens {w t : Text} (hne : w ≠ []) (hw : ∀ c ∈ w, isWord c = true) :
    mentions w t = true ↔ w ∈ tokens t := by
  rw [mentions_eq, mentionsFrom_iff]
  constructor
  · rintro ⟨s, r, rfl, h1, h2⟩
    rcases (atBoundary_run hne hw).mp ⟨h1, h2⟩ with ⟨hs, hr⟩
    -- What follows the word starts with a separator, if with anything.
    have hright : tokens (w ++ r) = w :: tokens r := by
      have hrun := words_of_run (p := fun c => !isWord c) hne (by simpa using hw)
      cases r with
      | nil => simpa [tokens, words] using hrun
      | cons c r =>
          have hc : (!isWord c) = true := by simpa using hr
          rw [tokens, words_append_sep hc, hrun, tokens, words_cons_sep hc]
          rfl
    rcases List.eq_nil_or_concat s with rfl | ⟨s, c, rfl⟩
    · rw [List.nil_append, hright]
      simp
    · have hc : (!isWord c) = true := by
        rw [List.concat_eq_append, passed_concat] at hs
        simpa using hs
      have hcons : s.concat c ++ (w ++ r) = s ++ c :: (w ++ r) := by simp
      rw [hcons, tokens, words_append_sep hc]
      rw [tokens] at hright
      rw [hright]
      simp
  · intro h
    rcases exists_of_mem_words h with ⟨-, -, s, r, rfl, hs, hr⟩
    refine ⟨s, r, rfl, (atBoundary_run hne hw).mpr ⟨?_, ?_⟩⟩
    · rw [passed_none_any]
      cases hl : s.getLast? with
      | none => rfl
      | some c => simpa using hs c (by simp [hl])
    · cases r with
      | nil => rfl
      | cons c r => simpa using hr c rfl

end Text

end RouteScaffold

import RouteScaffold.Proofs.Edit.Reading
import RouteScaffold.Text.LineEnding

/-!
# Line Endings and Cuts

Turning CR LF pairs into line feeds takes away carriage returns and nothing
else, and it takes one away only where a line feed follows. So a cut through
the new text is a cut through the old one, and a stretch that holds neither
character stands in the one exactly if it stands in the other.

A text that is edited, written with the ending of its file and read again has
gone through several such turns. What a later edit looks for is shown here to
outlast all of them.

## Theorems

* `toLf_append`: Text is turned piece by piece, unless a pair is cut through.
* `exists_of_toLf_append`: A cut through the turned text.
* `toLf_toCrlf`: Line feeds are found again.
* `infix_toLf_iff`: A stretch without line endings stays where it is.
* `reread_cases`: What is read of a text that was written with an ending.
-/

namespace RouteScaffold

namespace Text

open Cursor

theorem toLf_pair (t : Text) : toLf ('\r' :: '\n' :: t) = '\n' :: toLf t := by
  rw [toLf]

theorem toLf_cons {c : Char} {t : Text} (h : c = '\r' → t.head? ≠ some '\n') :
    toLf (c :: t) = c :: toLf t := by
  rw [toLf]
  rintro t' rfl rfl
  exact h rfl rfl

/-- What is turned is read off pair by pair and character by character. -/
theorem turnInduction {motive : Text → Prop} (nil : motive [])
    (pair : ∀ t, motive t → motive ('\r' :: '\n' :: t))
    (cons : ∀ c t, (c = '\r' → t.head? ≠ some '\n') → motive t → motive (c :: t)) (t : Text) :
    motive t := by
  induction t using toLf.induct with
  | case1 t ih => exact pair t ih
  | case2 c t hne ih =>
      refine cons c t (fun hc hhead => ?_) ih
      cases t with
      | nil => exact absurd hhead (by simp)
      | cons d t =>
          rw [List.head?_cons, Option.some.injEq] at hhead
          exact hne t hc (by rw [hhead])
  | case3 => exact nil

@[simp] theorem toLf_nil : toLf [] = [] := rfl

theorem mem_of_mem_toLf {c : Char} {t : Text} (h : c ∈ toLf t) : c ∈ t := by
  induction t using turnInduction with
  | nil => exact h
  | pair t ih =>
      rw [toLf_pair, List.mem_cons] at h
      rcases h with rfl | h
      · simp
      · simp [ih h]
  | cons d t hd ih =>
      rw [toLf_cons hd, List.mem_cons] at h
      rcases h with rfl | h
      · simp
      · simp [ih h]

/-- No line feed is lost. -/
theorem break_mem_toLf {t : Text} (h : '\n' ∈ t) : '\n' ∈ toLf t := by
  induction t using turnInduction with
  | nil => exact h
  | pair t _ => simp [toLf_pair]
  | cons c t hc ih =>
      rw [toLf_cons hc]
      rcases List.mem_cons.mp h with rfl | h
      · simp
      · simp [ih h]

theorem toLf_of_no_break {t : Text} (h : '\n' ∉ t) : toLf t = t := by
  induction t using turnInduction with
  | nil => rfl
  | pair t _ => simp at h
  | cons c t hc ih => rw [toLf_cons hc, ih fun hmem => h (List.mem_cons_of_mem c hmem)]

theorem toLf_ne_nil {t : Text} (h : t ≠ []) : toLf t ≠ [] := by
  cases t using turnInduction with
  | nil => exact absurd rfl h
  | pair t _ => simp [toLf_pair]
  | cons c t hc _ => simp [toLf_cons hc]

/-- Text is turned piece by piece, unless a pair is cut through. -/
theorem toLf_append {s t : Text} (h : s.getLast? = some '\r' → t.head? ≠ some '\n') :
    toLf (s ++ t) = toLf s ++ toLf t := by
  induction s using turnInduction with
  | nil => rfl
  | pair s ih =>
      have hs : s.getLast? = some '\r' → t.head? ≠ some '\n' := by
        intro hlast
        exact h (by simp [List.getLast?_cons, hlast])
      rw [List.cons_append, List.cons_append, toLf_pair, toLf_pair, ih hs, List.cons_append]
  | cons c s hc ih =>
      have hs : s.getLast? = some '\r' → t.head? ≠ some '\n' := by
        intro hlast
        exact h (by simp [List.getLast?_cons, hlast])
      -- The first character is followed by `s`, or, where that is empty, by `t`.
      have hcons : c = '\r' → (s ++ t).head? ≠ some '\n' := by
        intro heq
        cases s with
        | nil => exact h (by simp [heq])
        | cons d s => exact hc heq
      rw [List.cons_append, toLf_cons hcons, toLf_cons hc, ih hs, List.cons_append]

/-- A cut through the turned text is one through the text itself. -/
theorem exists_of_toLf_append {t s r : Text} (h : toLf t = s ++ r) :
    ∃ s' r', t = s' ++ r' ∧ toLf s' = s ∧ toLf r' = r := by
  induction t using turnInduction generalizing s with
  | nil =>
      rcases List.append_eq_nil_iff.mp h.symm with ⟨rfl, rfl⟩
      exact ⟨[], [], rfl, rfl, rfl⟩
  | pair t ih =>
      rw [toLf_pair] at h
      cases s with
      | nil => exact ⟨[], '\r' :: '\n' :: t, rfl, rfl, by rw [toLf_pair]; exact h⟩
      | cons c s =>
          rw [List.cons_append, List.cons.injEq] at h
          rcases h with ⟨rfl, h⟩
          rcases ih h with ⟨s', r', rfl, rfl, hr⟩
          exact ⟨'\r' :: '\n' :: s', r', rfl, toLf_pair s', hr⟩
  | cons c t hc ih =>
      rw [toLf_cons hc] at h
      cases s with
      | nil => exact ⟨[], c :: t, rfl, rfl, by rw [toLf_cons hc]; exact h⟩
      | cons d s =>
          rw [List.cons_append, List.cons.injEq] at h
          rcases h with ⟨rfl, h⟩
          rcases ih h with ⟨s', r', rfl, rfl, hr⟩
          -- A return in front of the rest would have been a part of a pair.
          refine ⟨c :: s', r', rfl, toLf_cons fun heq hhead => hc heq ?_, hr⟩
          cases s' with
          | nil => exact absurd hhead (by simp)
          | cons e s' => exact hhead

/-- The last character stays the last one. -/
theorem passed_toLf (b : Option Char) (t : Text) : passed b (toLf t) = passed b t := by
  induction t using turnInduction generalizing b with
  | nil => rfl
  | pair t ih =>
      rw [toLf_pair, passed, ih]
      rfl
  | cons c t hc ih => rw [toLf_cons hc, passed, passed, ih]

/-- Line feeds are found again. -/
theorem toLf_toCrlf (t : Text) : toLf (toCrlf t) = t := by
  induction t with
  | nil => rfl
  | cons c t ih =>
      by_cases hc : c = '\n'
      · subst hc
        rw [toCrlf, toLf_pair, ih]
      · have hcons : toCrlf (c :: t) = c :: toCrlf t := by
          rw [toCrlf]
          exact hc
        -- A line feed is written as a pair, so none stands first.
        have hhead : (toCrlf t).head? ≠ some '\n' := by
          cases t with
          | nil => simp [toCrlf]
          | cons d t =>
              by_cases hd : d = '\n'
              · subst hd
                simp [toCrlf]
              · rw [toCrlf]
                · simpa using hd
                · exact hd
        rw [hcons, toLf_cons fun _ => hhead, ih]

/-- A stretch without line endings stays where it is. -/
theorem infix_toLf_iff {l t : Text} (hbreak : '\n' ∉ l) (hreturn : '\r' ∉ l) :
    l <:+: toLf t ↔ l <:+: t := by
  constructor
  · rintro ⟨s, r, h⟩
    rw [List.append_assoc] at h
    -- The view of the part has no breaks, so it is the part itself.
    rcases exists_of_toLf_append h.symm with ⟨s', u, rfl, -, hu⟩
    rcases exists_of_toLf_append hu with ⟨l', r', rfl, hl, -⟩
    have heq : l' = l := by
      rw [← hl]
      exact (toLf_of_no_break fun hmem => hbreak (hl ▸ break_mem_toLf hmem)).symm
    exact ⟨s', r', by rw [heq, List.append_assoc]⟩
  · rintro ⟨s, r, rfl⟩
    by_cases hne : l = []
    · exact hne ▸ List.nil_infix
    -- Neither seam makes or breaks a pair, as the part has no breaks and no returns.
    · rw [List.append_assoc, toLf_append, toLf_append, toLf_of_no_break hbreak]
      · exact ⟨toLf s, toLf r, List.append_assoc ..⟩
      · exact fun hlast => absurd (List.mem_of_getLast? hlast) hreturn
      · intro _ hhead
        rw [List.head?_append, Option.or_of_isSome (by simpa using hne)] at hhead
        exact hbreak (List.mem_of_head? hhead)

/-- What is read of a text that was written with an ending: the text turned
    once or twice. -/
theorem reread_cases (t : Text) (e : LineEnding) :
    (t.withEnding e).toLf = t.toLf ∨ (t.withEnding e).toLf = t.toLf.toLf := by
  cases e with
  | lf => exact Or.inr rfl
  | crlf => exact Or.inl (toLf_toCrlf _)

/-- What turning preserves is preserved by writing and reading again. -/
theorem reread {P : Text → Prop} (h : ∀ t, P t → P t.toLf) {t : Text} (ht : P t) (e : LineEnding) :
    P (t.withEnding e).toLf := by
  rcases reread_cases t e with heq | heq
  · rw [heq]
    exact h _ ht
  · rw [heq]
    exact h _ (h _ ht)

/-- A stretch without line endings stands in what is read again exactly if it
    stood in what was written. -/
theorem infix_reread_iff {l t : Text} (hbreak : '\n' ∉ l) (hreturn : '\r' ∉ l) (e : LineEnding) :
    l <:+: (t.withEnding e).toLf ↔ l <:+: t := by
  rcases reread_cases t e with heq | heq
  · rw [heq, infix_toLf_iff hbreak hreturn]
  · rw [heq, infix_toLf_iff hbreak hreturn, infix_toLf_iff hbreak hreturn]

end Text

end RouteScaffold

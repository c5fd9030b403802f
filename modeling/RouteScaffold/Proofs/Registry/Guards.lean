import RouteScaffold.Proofs.Edit.Inserting
import RouteScaffold.Registry.Guard

/-!
# What Guards Find Out

A guard lets a file pass that holds its anchors and does not use its
identifiers. An identifier is used wherever it stands between characters that
are no part of words; so a line in which it stands that way is no line of a file
that a guard has let pass.

## Theorems

* `occurs_iff_part`: A text occurs where it is a part.
* `Guard.uses_of_aligned`, `uses_of_delimited`: Where an identifier is used.
* `not_infix_of_unused`: What an unused identifier excludes.
* `Guard.admits_iff`: What has to hold for a guard to let a text pass.
-/

namespace RouteScaffold

open Text

/-! ### Names in use -/

theorem occurs_iff_part (l t : Text) : Text.occurs l t = true ↔ l <:+: t := by
  have hstarts : ∀ l t : Text, Text.startsWith l t = true ↔ l <+: t := by
    intro l t
    induction l generalizing t with
    | nil => simp [Text.startsWith, Text.after?]
    | cons c l ih =>
        cases t with
        | nil => simp [Text.startsWith, Text.after?]
        | cons d t =>
            -- The texts agree in their first characters, or they do not begin alike.
            rw [List.cons_prefix_cons, ← ih t]
            by_cases hcd : c = d
            · simp [Text.startsWith, Text.after?, hcd]
            · simp [Text.startsWith, Text.after?, hcd]
  induction t with
  | nil =>
      cases l with
      | nil => simp [Text.occurs]
      | cons c l => simp [Text.occurs]
  | cons c t ih =>
      simp only [Text.occurs, Bool.or_eq_true, hstarts, List.infix_cons_iff, ih]

/-- An identifier is used where it stands with no word running into it, and
    ends before something that is no part of a word. -/
theorem Guard.uses_of_aligned {name t : Text} {d : Char} (hne : name ≠ []) (hd : isWord d = false)
    (h : Aligned (name ++ [d]) t) : Guard.uses t name = true := by
  rcases h with ⟨s, r, rfl, hs⟩
  rw [uses]
  split
  · next hall =>
      rw [Bool.and_eq_true, List.all_eq_true] at hall
      rw [mentions_eq, mentionsFrom_iff]
      exact ⟨s, d :: r, by simp, (atBoundary_run hne hall.2).mpr ⟨hs, by simpa using hd⟩⟩
  · rw [occurs_iff_part]
    exact ⟨s, d :: r, by simp⟩

/-- A name between two characters that are no part of words is used. -/
theorem uses_of_delimited {s name r : Text} {c d : Char} (hne : name ≠ [])
    (hc : isWord c = false) (hd : isWord d = false) :
    Guard.uses (s ++ c :: (name ++ d :: r)) name = true :=
  Guard.uses_of_aligned hne hd ⟨s ++ [c], r, by simp, by simpa using hc⟩

/-- A part of a text in which a name is delimited is no part of a text that
    does not use the name. -/
theorem not_infix_of_unused {content part s name r : Text} {c d : Char}
    (hpart : part = s ++ c :: (name ++ d :: r)) (hne : name ≠ []) (hc : isWord c = false)
    (hd : isWord d = false) (hunused : Guard.uses content name = false) : ¬ part <:+: content := by
  rintro ⟨a, b, hab⟩
  have := uses_of_delimited (s := a ++ s) (r := r ++ b) hne hc hd
  rw [← hab, hpart] at hunused
  simp only [List.append_assoc, List.cons_append] at hunused this
  rw [hunused] at this
  exact absurd this (by simp)

/-! ### What has to hold -/

namespace Guard

variable {file t : Text}

theorem requireAnchors_iff {as : List Anchor} :
    requireAnchors file t as = .ok () ↔ ∀ a ∈ as, a.Stands t := by
  induction as with
  | nil => simp [requireAnchors]
  | cons a as ih =>
      rw [requireAnchors, List.forall_mem_cons, ← ih, Anchor.Stands]
      by_cases h : (a.locate? t).isSome = true <;> simp [h]

theorem requireUnused_iff {names : List Text} :
    requireUnused file t names = .ok () ↔ ∀ name ∈ names, uses t name = false := by
  induction names with
  | nil => simp [requireUnused]
  | cons name names ih =>
      rw [requireUnused, List.forall_mem_cons, ← ih]
      by_cases h : uses t name = true <;> simp [h]

/-- A guard lets a text pass that holds its anchors and does not use its
    identifiers. -/
theorem admits_iff {g : Guard} : g.admits t = .ok ()
    ↔ (∀ a ∈ g.anchors, a.Stands t) ∧ ∀ name ∈ g.identifiers, uses t name = false := by
  rw [← @requireAnchors_iff g.file.text, ← @requireUnused_iff g.file.text, admits]
  cases requireAnchors g.file.text t g.anchors with
  | error f => simp [bind, Except.bind]
  | ok u => simp [bind, Except.bind]

end Guard

end RouteScaffold

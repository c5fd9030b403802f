import RouteScaffold.Edit.Pattern

/-!
# What Recognisers Read

The recognisers are built from a few moves of a cursor, and each move is
pinned down here by the text on both sides of it: a literal reads itself, and
a class of characters reads its longest run.

A search, and an erasure, go through a text character by character until the
recogniser takes over. What they do to a long text is put together from what
they do to its parts, and for that the parts have to be of two kinds: a quiet
stretch, at none of whose places the recogniser reads anything, and a stretch
that it reads. `Quiet` says the first, and it splits over concatenation, so a
generated text can be walked through piece by piece.

## Main definitions

* `Cursor.passed`: The character before a place, behind a stretch of text.
* `Recogniser.Quiet`: A stretch at whose places nothing is read.
* `Recogniser.Passes`: A stretch that is quiet wherever it stands.

## Theorems

* `literal?_eq_some`: A literal reads itself.
* `skipAll_eq`: A class reads its longest run.
* `quiet_append`: Quiet stretches can be put together and taken apart.
* `findFrom_quiet`: A search passes over a quiet stretch.
* `findFrom_hit`: A search stops at what is read.
* `eraseFrom_quiet`: An erasure copies a quiet stretch.
* `eraseFrom_hit`: An erasure leaves out what is read.
-/

namespace RouteScaffold

namespace Cursor

/-- The character before the place behind a stretch of text. -/
def passed : Option Char → Text → Option Char
  | before, [] => before
  | _, c :: t => passed (some c) t

theorem passed_append (b : Option Char) (s t : Text) :
    passed b (s ++ t) = passed (passed b s) t := by
  induction s generalizing b with
  | nil => rfl
  | cons c s ih => exact ih (some c)

@[simp] theorem passed_concat (b : Option Char) (s : Text) (c : Char) :
    passed b (s ++ [c]) = some c := by
  rw [passed_append]
  rfl

theorem passed_of_ne_nil (b b' : Option Char) {t : Text} (h : t ≠ []) :
    passed b t = passed b' t := by
  cases t with
  | nil => exact absurd rfl h
  | cons c t => rfl

theorem literal?_append (l : Text) (b : Option Char) (t : Text) :
    (⟨b, l ++ t⟩ : Cursor).literal? l = some ⟨passed b l, t⟩ := by
  induction l generalizing b with
  | nil => rfl
  | cons c l ih =>
      simp only [List.cons_append, literal?, if_true]
      exact ih (some c)

theorem literal?_eq_some {l : Text} {b : Option Char} {t : Text} {k : Cursor} :
    (⟨b, t⟩ : Cursor).literal? l = some k ↔ t = l ++ k.after ∧ k.before = passed b l := by
  constructor
  · intro h
    induction l generalizing b t with
    | nil =>
        simp only [literal?, Option.some.injEq] at h
        subst h
        exact ⟨rfl, rfl⟩
    | cons c l ih =>
        cases t with
        | nil => simp [literal?] at h
        | cons d t =>
            simp only [literal?] at h
            split at h
            · next hcd =>
                subst hcd
                rcases ih h with ⟨ht, hb⟩
                exact ⟨by rw [ht]; rfl, hb⟩
            · exact absurd h (by simp)
  · rintro ⟨ht, hb⟩
    rw [ht, literal?_append, ← hb]

theorem literal?_isSome {l : Text} {b : Option Char} {t : Text} :
    ((⟨b, t⟩ : Cursor).literal? l).isSome = true ↔ l <+: t := by
  constructor
  · intro h
    rcases Option.isSome_iff_exists.mp h with ⟨k, hk⟩
    rcases literal?_eq_some.mp hk with ⟨ht, _⟩
    exact ⟨k.after, ht.symm⟩
  · rintro ⟨r, hr⟩
    rw [← hr, literal?_append]
    rfl

theorem literal?_eq_none {l : Text} {b : Option Char} {t : Text} :
    (⟨b, t⟩ : Cursor).literal? l = none ↔ ¬ l <+: t := by
  rw [← literal?_isSome (b := b), Bool.not_eq_true, Option.isSome_eq_false_iff,
    Option.isNone_iff_eq_none]

theorem skip_eq (p : Char → Bool) (b : Option Char) (t : Text) :
    skip p b t = ⟨passed b (t.takeWhile p), t.dropWhile p⟩ := by
  induction t generalizing b with
  | nil => rfl
  | cons c t ih =>
      by_cases hc : p c = true
      · simp only [skip, hc, if_true, ih, List.dropWhile_cons_of_pos, List.takeWhile_cons_of_pos]
        rfl
      · rw [List.takeWhile_cons_of_neg hc, List.dropWhile_cons_of_neg hc]
        simp only [skip, hc, if_false, Bool.false_eq_true]
        rfl

/-- A class of characters reads its longest run. -/
theorem skipAll_eq (p : Char → Bool) (b : Option Char) (t : Text) :
    (⟨b, t⟩ : Cursor).skipAll p = ⟨passed b (t.takeWhile p), t.dropWhile p⟩ :=
  skip_eq p b t

/-- A class of characters reads a run of it that something else follows. -/
theorem skipAll_append (p : Char → Bool) (b : Option Char) (s t : Text) (hs : ∀ c ∈ s, p c = true)
    (ht : ∀ c ∈ t.head?, p c = false) :
    (⟨b, s ++ t⟩ : Cursor).skipAll p = ⟨passed b s, t⟩ := by
  have hhead : t.takeWhile p = [] ∧ t.dropWhile p = t := by
    cases t with
    | nil => exact ⟨rfl, rfl⟩
    | cons c t =>
        have hc := ht c rfl
        exact ⟨List.takeWhile_cons_of_neg (by simp [hc]), List.dropWhile_cons_of_neg (by simp [hc])⟩
  rw [skipAll_eq, List.takeWhile_append_of_pos hs, List.dropWhile_append_of_pos hs, hhead.1,
    hhead.2, List.append_nil]

/-! ### Choice of length -/

/-- A lazy choice ends at one of the places that it may choose from. -/
theorem exists_of_lazyFrom {p : Char → Bool} {next : Cursor → Option Cursor} {b : Option Char}
    {t : Text} {k : Cursor} (h : lazyFrom p next b t = some k) :
    ∃ s r, t = s ++ r ∧ (∀ c ∈ s, p c = true) ∧ next ⟨passed b s, r⟩ = some k := by
  induction t generalizing b with
  | nil => exact ⟨[], [], rfl, by simp, h⟩
  | cons c t ih =>
      simp only [lazyFrom] at h
      split at h
      · next k' hk' => exact ⟨[], c :: t, rfl, by simp, by rw [← h]; exact hk'⟩
      · split at h
        · next hc =>
            rcases ih h with ⟨s, r, hsr, hs, hk⟩
            exact ⟨c :: s, r, by rw [hsr]; rfl, by simpa [hc] using hs, hk⟩
        · exact absurd h (by simp)

/-- A lazy choice succeeds if it can at one of its places. -/
theorem lazyFrom_isSome {p : Char → Bool} {next : Cursor → Option Cursor} {b : Option Char}
    {s r : Text} (hs : ∀ c ∈ s, p c = true) (h : (next ⟨passed b s, r⟩).isSome = true) :
    (lazyFrom p next b (s ++ r)).isSome = true := by
  induction s generalizing b with
  | nil =>
      cases r with
      | nil => exact h
      | cons c r =>
          rcases Option.isSome_iff_exists.mp h with ⟨k, hk⟩
          rw [passed] at hk
          simp [lazyFrom, hk]
  | cons c s ih =>
      have hrest := ih (b := some c) (fun d hd => hs d (by simp [hd])) h
      simp only [List.cons_append, lazyFrom, hs c (by simp), if_true]
      split
      · rfl
      · exact hrest

/-- A greedy choice ends at one of the places that it may choose from. -/
theorem exists_of_greedyFrom {p : Char → Bool} {next : Cursor → Option Cursor} {b : Option Char}
    {t : Text} {k : Cursor} (h : greedyFrom p next b t = some k) :
    ∃ s r, t = s ++ r ∧ (∀ c ∈ s, p c = true) ∧ next ⟨passed b s, r⟩ = some k := by
  induction t generalizing b with
  | nil => exact ⟨[], [], rfl, by simp, h⟩
  | cons c t ih =>
      simp only [greedyFrom] at h
      split at h
      · next hc =>
          split at h
          · next k' hk' =>
              rcases ih (hk'.trans h) with ⟨s, r, hsr, hs, hk⟩
              exact ⟨c :: s, r, by rw [hsr]; rfl, by simpa [hc] using hs, hk⟩
          · exact ⟨[], c :: t, rfl, by simp, h⟩
      · exact ⟨[], c :: t, rfl, by simp, h⟩

/-- A greedy choice succeeds if it can at one of its places. -/
theorem greedyFrom_isSome {p : Char → Bool} {next : Cursor → Option Cursor} {b : Option Char}
    {s r : Text} (hs : ∀ c ∈ s, p c = true) (h : (next ⟨passed b s, r⟩).isSome = true) :
    (greedyFrom p next b (s ++ r)).isSome = true := by
  induction s generalizing b with
  | nil =>
      cases r with
      | nil => exact h
      | cons c r =>
          simp only [List.nil_append, greedyFrom]
          split
          · split
            · rfl
            · exact h
          · exact h
  | cons c s ih =>
      have hrest := ih (b := some c) (fun d hd => hs d (by simp [hd])) h
      simp only [List.cons_append, greedyFrom, hs c (by simp), if_true]
      split
      · rfl
      · next hnone =>
          rw [hnone] at hrest
          exact absurd hrest (by simp)

end Cursor

namespace Recogniser

open Cursor

/-- A stretch of a text, with what follows it, at whose places a recogniser
    reads nothing. -/
def Quiet (m : Recogniser) : Option Char → (stretch rest : Text) → Prop
  | _, [], _ => True
  | before, c :: s, rest => m ⟨before, c :: (s ++ rest)⟩ = none ∧ Quiet m (some c) s rest

/-- Quiet stretches can be put together and taken apart. -/
theorem quiet_append (m : Recogniser) (b : Option Char) (s t r : Text) :
    Quiet m b (s ++ t) r ↔ Quiet m b s (t ++ r) ∧ Quiet m (passed b s) t r := by
  induction s generalizing b with
  | nil => simp [Quiet, passed]
  | cons c s ih =>
      simp only [List.cons_append, Quiet, passed, ih, List.append_assoc, and_assoc]

theorem quiet_cons (m : Recogniser) (b : Option Char) (c : Char) (s r : Text) :
    Quiet m b (c :: s) r ↔ m ⟨b, c :: (s ++ r)⟩ = none ∧ Quiet m (some c) s r := Iff.rfl

@[simp] theorem quiet_nil (m : Recogniser) (b : Option Char) (r : Text) : Quiet m b [] r := trivial

/-- A stretch is quiet if the recogniser is, wherever one of its characters
    comes next. -/
theorem quiet_of_forall (m : Recogniser) (b : Option Char) (s r : Text)
    (h : ∀ b, ∀ c ∈ s, ∀ t, m ⟨b, c :: t⟩ = none) : Quiet m b s r := by
  induction s generalizing b with
  | nil => trivial
  | cons c s ih =>
      exact ⟨h b c (by simp) _, ih (some c) fun b d hd t => h b d (by simp [hd]) t⟩

theorem length?_eq_none {m : Recogniser} {b : Option Char} {t : Text} (h : m ⟨b, t⟩ = none) :
    m.length? b t = none := by
  simp [length?, h]

theorem length?_hit {m : Recogniser} {b : Option Char} {k : Cursor} {h r : Text}
    (hm : m ⟨b, h ++ r⟩ = some k) (hk : k.after = r) : m.length? b (h ++ r) = some h.length := by
  simp [length?, hm, hk]

/-- A search passes over a quiet stretch. -/
theorem findFrom_quiet (m : Recogniser) (b : Option Char) (s r : Text) (h : Quiet m b s r) :
    m.findFrom b (s ++ r)
      = (m.findFrom (passed b s) r).map fun o => { o with before := s ++ o.before } := by
  induction s generalizing b with
  | nil => simp [passed]
  | cons c s ih =>
      have hnone := length?_eq_none h.1
      rw [List.cons_append]
      simp only [findFrom, hnone, ih (some c) h.2, passed]
      cases m.findFrom (passed (some c) s) r with
      | none => rfl
      | some o => rfl

/-- A search stops at what is read. -/
theorem findFrom_hit (m : Recogniser) (b : Option Char) (k : Cursor) (h r : Text)
    (hm : m ⟨b, h ++ r⟩ = some k) (hk : k.after = r) :
    m.findFrom b (h ++ r) = some ⟨[], h, r⟩ := by
  have hlen := length?_hit hm hk
  cases hr : h ++ r with
  | nil =>
      rcases List.append_eq_nil_iff.mp hr with ⟨rfl, rfl⟩
      rw [hr] at hlen
      simp [findFrom, hlen]
  | cons c t =>
      rw [hr] at hlen
      simp only [findFrom, hlen]
      rw [← hr]
      simp

/-- What a search finds behind a quiet stretch. -/
theorem find?_of_quiet (m : Recogniser) (s h r : Text) (k : Cursor)
    (hs : Quiet m none s (h ++ r)) (hm : m ⟨passed none s, h ++ r⟩ = some k) (hk : k.after = r) :
    m.find? (s ++ (h ++ r)) = some ⟨s, h, r⟩ := by
  rw [find?, findFrom_quiet m none s (h ++ r) hs, findFrom_hit m _ k h r hm hk]
  simp

theorem find?_eq_none_of_quiet (m : Recogniser) (t : Text) (ht : Quiet m none t [])
    (hm : m ⟨passed none t, []⟩ = none) : m.find? t = none := by
  have h := findFrom_quiet m none t [] ht
  rw [List.append_nil] at h
  rw [find?, h]
  simp [findFrom, length?, hm]

/-- A search succeeds exactly if the recogniser reads something at one of the
    places on the way. -/
theorem findFrom_isSome_iff (m : Recogniser) (b : Option Char) (t : Text) :
    (m.findFrom b t).isSome = true ↔
      ∃ s r, t = s ++ r ∧ (m ⟨passed b s, r⟩).isSome = true := by
  induction t generalizing b with
  | nil =>
      constructor
      · intro h
        exact ⟨[], [], rfl, by simpa [findFrom, length?, passed] using h⟩
      · rintro ⟨s, r, hsr, h⟩
        rcases List.nil_eq_append_iff.mp hsr with ⟨rfl, rfl⟩
        simpa [findFrom, length?, passed] using h
  | cons c t ih =>
      have hstep : (m.findFrom b (c :: t)).isSome
          = ((m ⟨b, c :: t⟩).isSome || (m.findFrom (some c) t).isSome) := by
        simp only [findFrom, length?]
        cases m ⟨b, c :: t⟩ <;> simp
      rw [hstep, Bool.or_eq_true, ih]
      constructor
      · rintro (h | ⟨s, r, hsr, h⟩)
        · exact ⟨[], c :: t, rfl, h⟩
        · exact ⟨c :: s, r, by rw [hsr]; rfl, h⟩
      · rintro ⟨s, r, hsr, h⟩
        cases s with
        | nil =>
            left
            rw [List.nil_append] at hsr
            rw [hsr]
            exact h
        | cons d s =>
            right
            rw [List.cons_append, List.cons.injEq] at hsr
            rcases hsr with ⟨rfl, hsr⟩
            exact ⟨s, r, hsr, h⟩

/-- An erasure copies a quiet stretch. -/
theorem eraseFrom_quiet (m : Recogniser) (b : Option Char) (s r : Text) (h : Quiet m b s r) :
    m.eraseFrom 0 b (s ++ r) = s ++ m.eraseFrom 0 (passed b s) r := by
  induction s generalizing b with
  | nil => rfl
  | cons c s ih =>
      have hnone := length?_eq_none h.1
      rw [List.cons_append]
      simp only [eraseFrom, hnone, ih (some c) h.2, passed]
      rfl

theorem eraseFrom_covered (m : Recogniser) (b : Option Char) (h r : Text) :
    m.eraseFrom h.length b (h ++ r) = m.eraseFrom 0 (passed b h) r := by
  induction h generalizing b with
  | nil => rfl
  | cons c h ih =>
      simp only [List.length_cons, List.cons_append, eraseFrom, passed]
      exact ih (some c)

/-- An erasure leaves out what is read. -/
theorem eraseFrom_hit (m : Recogniser) (b : Option Char) (k : Cursor) (h r : Text) (hne : h ≠ [])
    (hm : m ⟨b, h ++ r⟩ = some k) (hk : k.after = r) :
    m.eraseFrom 0 b (h ++ r) = m.eraseFrom 0 (passed b h) r := by
  have hlen := length?_hit hm hk
  cases h with
  | nil => exact absurd rfl hne
  | cons c h =>
      rw [List.cons_append] at hlen ⊢
      simp only [eraseFrom, hlen, List.length_cons, passed]
      exact eraseFrom_covered m (some c) h r

/-- An erasure leaves a text alone at whose places nothing is read. -/
theorem eraseFrom_of_quiet (m : Recogniser) (b : Option Char) (t : Text) (h : Quiet m b t []) :
    m.eraseFrom 0 b t = t := by
  have := eraseFrom_quiet m b t [] h
  rw [List.append_nil] at this
  rw [this]
  simp [eraseFrom]

/-! ### Stretches that are passed over -/

/-- A stretch at whose places a recogniser reads nothing, whatever stands in
    front of the stretch and behind it. -/
def Passes (m : Recogniser) (s : Text) : Prop := ∀ b r, Quiet m b s r

theorem passes_nil (m : Recogniser) : m.Passes [] := fun _ _ => trivial

theorem Passes.append {m : Recogniser} {s t : Text} (hs : m.Passes s) (ht : m.Passes t) :
    m.Passes (s ++ t) :=
  fun b r => (quiet_append m b s t r).mpr ⟨hs b (t ++ r), ht (passed b s) r⟩

theorem Passes.cons {m : Recogniser} {c : Char} {s : Text} (hc : ∀ b r, m ⟨b, c :: (s ++ r)⟩ = none)
    (hs : m.Passes s) : m.Passes (c :: s) :=
  fun b r => ⟨hc b r, hs (some c) r⟩

theorem passes_flatMap {α : Type} {m : Recogniser} {f : α → Text} {xs : List α}
    (h : ∀ x ∈ xs, m.Passes (f x)) : m.Passes (xs.flatMap f) := by
  induction xs with
  | nil => exact passes_nil m
  | cons x xs ih =>
      rw [List.flatMap_cons]
      exact (h x (by simp)).append (ih fun y hy => h y (by simp [hy]))

theorem passes_of_forall {m : Recogniser} {s : Text} (h : ∀ b, ∀ c ∈ s, ∀ t, m ⟨b, c :: t⟩ = none) :
    m.Passes s :=
  fun b r => quiet_of_forall m b s r h

end Recogniser

namespace Pattern

open Recogniser

/-- A literal is read only where its first character stands. -/
theorem passes_literal_of_not_mem {c : Char} {l s : Text} (h : c ∉ s) :
    Passes (recognise (.literal (c :: l))) s := by
  apply passes_of_forall
  intro b d hd t
  have hcd : c ≠ d := fun hcd => h (hcd ▸ hd)
  simp [recognise, Cursor.literal?, hcd]

/-- A literal stands on one side of a character that it does not hold. -/
theorem passes_literal_delimited {l u : Text} {d : Char} (hne : l ≠ []) (hd : d ∉ l)
    (h : ¬ l <:+: u) : Passes (recognise (.literal l)) (u ++ [d]) := by
  -- A literal that reaches over the end would hold the character there.
  have hstart : ∀ v, v <:+ u → ∀ r, ¬ l <+: v ++ d :: r := by
    rintro v hv r ⟨x, hx⟩
    rcases List.append_eq_append_iff.mp hx with ⟨z, hz, -⟩ | ⟨z, hz, hr⟩
    · exact h (List.IsInfix.trans ⟨[], z, by rw [List.nil_append, ← hz]⟩ hv.isInfix)
    · cases z with
      | nil =>
          rw [List.append_nil] at hz
          exact h (hz ▸ hv.isInfix)
      | cons c z =>
          rw [List.cons_append, List.cons.injEq] at hr
          exact hd (by rw [hz, hr.1]; simp)
  clear h
  induction u with
  | nil =>
      intro b r
      exact ⟨Cursor.literal?_eq_none.mpr (hstart [] (List.nil_suffix) r), trivial⟩
  | cons c u ih =>
      have hrest := ih fun v hv => hstart v (hv.trans (List.suffix_cons c u))
      refine Passes.cons (fun b r => ?_) hrest
      have := hstart (c :: u) List.suffix_rfl r
      apply Cursor.literal?_eq_none.mpr
      simpa using this

end Pattern

end RouteScaffold

import RouteScaffold.Edit.Insert
import RouteScaffold.Proofs.Edit.Lines
import RouteScaffold.Proofs.Text.Endings

/-!
# Anchors Do Not Vanish

An anchor that is found in a text is found again after lines have been put
before it, and after CR LF pairs have been turned into line feeds. For a
literal this is plain. A head of an array may have line endings inside, in the
gaps between its words; turning them leaves each gap a gap, and a gap that must
not be empty does not become so.

## Main definitions

* `Pattern.ArrayHead`, `Pattern.ChildrenHead`: The two heads, word by word.
* `Anchor.Stands`: An anchor is found in a text.
* `Anchor.Steady`: The anchors for which carriage returns make no difference.

## Theorems

* `stands_literal_iff`: A literal is found exactly where it is a part.
* `arrayHead_of_recognise`, `childrenHead_of_recognise`: What the two heads are.
* `Stands.behindLines`: Lines put before an anchor do not hide it.
* `Stands.toLf`: Turning line endings does not hide an anchor.
-/

namespace RouteScaffold

open Cursor Recogniser

namespace Cursor

/-- A character behind everything of a class that it is not in. -/
theorem skip_literal_iff {p : Char → Bool} {c : Char} (hc : p c = false) {b : Option Char} {t : Text}
    {k : Cursor} : ((⟨b, t⟩ : Cursor).skipAll p).literal? [c] = some k ↔
      k.before = some c ∧ ∃ s, (∀ x ∈ s, p x = true) ∧ t = s ++ c :: k.after := by
  rw [skipAll_eq, literal?_eq_some]
  constructor
  · rintro ⟨h, hb⟩
    refine ⟨hb, t.takeWhile p, fun x hx => List.mem_takeWhile_imp hx, ?_⟩
    calc t = t.takeWhile p ++ t.dropWhile p := List.takeWhile_append_dropWhile.symm
      _ = t.takeWhile p ++ c :: k.after := by rw [h]; rfl
  · rintro ⟨hb, s, hs, rfl⟩
    refine ⟨?_, hb⟩
    rw [List.dropWhile_append_of_pos hs, List.dropWhile_cons_of_neg (by simp [hc])]
    rfl

end Cursor

namespace Pattern

theorem arrayOpening?_eq (symbol : Text) (k : Cursor) : arrayOpening? symbol k
    = (k.literal? symbol).bind fun k => if k.atWordBoundary then
        ((k.skipAll fun c => c ≠ '=' && c ≠ '\n').literal? ['=']).bind fun k =>
          (k.skipAll isBlank).literal? ['[']
      else none := by
  rw [arrayOpening?]
  simp only [bind]
  congr 1
  funext k
  cases k.atWordBoundary <;> rfl

/-- What follows the keywords of an array's head, up to the rest of the text. -/
structure ArrayOpening (symbol : Text) (b : Option Char) (t rest : Text) : Prop where
  parts : ∃ typed gap, t = symbol ++ (typed ++ '=' :: (gap ++ '[' :: rest))
    ∧ (∀ c ∈ typed, c ≠ '=' ∧ c ≠ '\n') ∧ (∀ c ∈ gap, isBlank c = true)
    ∧ atBoundary (passed b symbol) (typed ++ ['=']).head? = true

theorem head?_cut (s : Text) (c : Char) (t : Text) : (s ++ c :: t).head? = (s ++ [c]).head? := by
  cases s <;> rfl

theorem arrayOpening_of_eq_some {symbol : Text} {b : Option Char} {t : Text} {k : Cursor}
    (h : arrayOpening? symbol ⟨b, t⟩ = some k) : ArrayOpening symbol b t k.after := by
  rw [arrayOpening?_eq] at h
  rcases Option.bind_eq_some_iff.mp h with ⟨⟨b₁, t₁⟩, h₁, h⟩
  -- The word must end where the symbol ends, and then come a type, a sign and a bracket.
  by_cases hbound : (⟨b₁, t₁⟩ : Cursor).atWordBoundary = true
  · rw [if_pos hbound] at h
    rcases Option.bind_eq_some_iff.mp h with ⟨⟨b₂, t₂⟩, h₂, h⟩
    rcases literal?_eq_some.mp h₁ with ⟨ht, hb₁⟩
    rcases (skip_literal_iff (by decide)).mp h₂ with ⟨-, typed, htyped, ht₁⟩
    rcases (skip_literal_iff (by decide)).mp h with ⟨-, gap, hgap, ht₂⟩
    dsimp only at ht hb₁ ht₁ ht₂
    refine ⟨typed, gap, by rw [ht, ht₁, ht₂], ?_, hgap, ?_⟩
    · intro c hc
      simpa using htyped c hc
    · rw [atWordBoundary, hb₁, ht₁, head?_cut] at hbound
      exact hbound
  · rw [if_neg hbound] at h
    exact absurd h (by simp)

theorem ArrayOpening.isSome {symbol : Text} {b : Option Char} {t rest : Text}
    (h : ArrayOpening symbol b t rest) : (arrayOpening? symbol ⟨b, t⟩).isSome = true := by
  rcases h with ⟨typed, gap, rfl, htyped, hgap, hbound⟩
  rw [arrayOpening?_eq, literal?_append, Option.bind_some, if_pos, Option.isSome_iff_exists]
  · refine ⟨⟨some '[', rest⟩, Option.bind_eq_some_iff.mpr ⟨⟨some '=', gap ++ '[' :: rest⟩,
      (skip_literal_iff (by decide)).mpr ⟨rfl, typed, ?_, rfl⟩,
      (skip_literal_iff (by decide)).mpr ⟨rfl, gap, hgap, rfl⟩⟩⟩
    intro c hc
    simpa using htyped c hc
  · rw [atWordBoundary, head?_cut]
    exact hbound

theorem recognise_arrayHead_eq (symbol : Text) (k : Cursor) : recognise (.arrayHead symbol) k
    = (k.literal? "export".toList).bind fun k => (k.skipSome? isBlank).bind fun k =>
        (k.literal? "const".toList).bind fun k => (k.one? isBlank).bind
          (Cursor.greedily isBlank (arrayOpening? symbol)) := rfl

/-- The head of an exported array, up to the rest of the text: two keywords with
    a gap behind each, the symbol with whatever stands before the equals sign,
    and the bracket. -/
structure ArrayHead (symbol t rest : Text) : Prop where
  parts : ∃ gap gap' typed gap'', t = "export".toList ++ (gap ++ ("const".toList
      ++ (gap' ++ (symbol ++ (typed ++ '=' :: (gap'' ++ '[' :: rest))))))
    ∧ gap ≠ [] ∧ (∀ c ∈ gap, isBlank c = true) ∧ gap' ≠ [] ∧ (∀ c ∈ gap', isBlank c = true)
    ∧ (∀ c ∈ typed, c ≠ '=' ∧ c ≠ '\n') ∧ (∀ c ∈ gap'', isBlank c = true)
    ∧ atBoundary (passed none symbol) (typed ++ ['=']).head? = true

theorem arrayHead_of_recognise {symbol : Text} (hsymbol : symbol ≠ []) {b : Option Char} {t : Text}
    {k : Cursor} (h : recognise (.arrayHead symbol) ⟨b, t⟩ = some k) : ArrayHead symbol t k.after := by
  rw [recognise_arrayHead_eq] at h
  rcases Option.bind_eq_some_iff.mp h with ⟨⟨b₁, t₁⟩, h₁, h⟩
  rcases Option.bind_eq_some_iff.mp h with ⟨⟨b₂, t₂⟩, h₂, h⟩
  rcases Option.bind_eq_some_iff.mp h with ⟨⟨b₃, t₃⟩, h₃, h⟩
  rcases Option.bind_eq_some_iff.mp h with ⟨⟨b₄, t₄⟩, h₄, h⟩
  rcases Option.map_eq_some_iff.mp h₂ with ⟨⟨b₅, t₅⟩, h₅, hskip⟩
  -- The matcher goes from part to part; what each has taken is put together again.
  rcases one?_eq_some.mp h₅ with ⟨x, hx, e₁, -⟩
  rcases one?_eq_some.mp h₄ with ⟨y, hy, e₃, -⟩
  rcases exists_of_greedyFrom h with ⟨s, r, e₄, hs, hopening⟩
  rcases (arrayOpening_of_eq_some hopening).parts with ⟨typed, gap'', hr, htyped, hgap'', hbound⟩
  rw [skipAll_eq, Cursor.mk.injEq] at hskip
  have e₀ := (literal?_eq_some.mp h₁).1
  have e₂ := (literal?_eq_some.mp h₃).1
  have e₅ : t₅ = t₅.takeWhile isBlank ++ t₂ := by
    rw [← hskip.2]
    exact List.takeWhile_append_dropWhile.symm
  dsimp only at e₀ e₁ e₂ e₃ e₄
  refine ⟨x :: t₅.takeWhile isBlank, y :: s, typed, gap'', ?_, by simp, ?_, by simp, ?_, htyped,
    hgap'', ?_⟩
  -- What the matcher has passed is the text, part by part.
  · calc t = "export".toList ++ (x :: (t₅.takeWhile isBlank ++ ("const".toList ++ (y :: (s ++ r))))) := by
          rw [e₀, e₁, ← e₄, ← e₃, ← e₂, ← e₅]
      _ = _ := by
          rw [hr]
          rfl
  · intro c hc
    rcases List.mem_cons.mp hc with rfl | hc
    · exact hx
    · exact List.mem_takeWhile_imp hc
  · intro c hc
    rcases List.mem_cons.mp hc with rfl | hc
    · exact hy
    · exact hs c hc
  · rw [passed_of_ne_nil none _ hsymbol]
    exact hbound

theorem ArrayHead.isSome {symbol : Text} (hsymbol : symbol ≠ []) {t rest : Text}
    (h : ArrayHead symbol t rest) (b : Option Char) :
    (recognise (.arrayHead symbol) ⟨b, t⟩).isSome = true := by
  rcases h with ⟨gap, gap', typed, gap'', rfl, hne, hgap, hne', hgap', htyped, hgap'', hbound⟩
  rcases List.exists_cons_of_ne_nil hne with ⟨x, xs, rfl⟩
  rcases List.exists_cons_of_ne_nil hne' with ⟨y, ys, rfl⟩
  -- Blanks are taken greedily, but the symbol begins behind them all the same.
  have hopening : (greedyFrom isBlank (arrayOpening? symbol) (some y) (ys ++ (symbol
      ++ (typed ++ '=' :: (gap'' ++ '[' :: rest))))).isSome = true := by
    refine greedyFrom_isSome (fun c hc => hgap' c (List.mem_cons_of_mem y hc))
      (ArrayOpening.isSome ⟨typed, gap'', rfl, htyped, hgap'', ?_⟩)
    rw [passed_of_ne_nil _ none hsymbol]
    exact hbound
  have hskip : (⟨passed b "export".toList, x :: xs ++ ("const".toList ++ (y :: ys
      ++ (symbol ++ (typed ++ '=' :: (gap'' ++ '[' :: rest)))))⟩ : Cursor).skipSome? isBlank
      = some ⟨passed (some x) xs, "const".toList ++ (y :: ys
        ++ (symbol ++ (typed ++ '=' :: (gap'' ++ '[' :: rest))))⟩ := by
    rw [skipSome?, List.cons_append, one?, if_pos (hgap x (by simp)), Option.map_some,
      skipAll_append _ _ _ _ (fun c hc => hgap c (List.mem_cons_of_mem x hc)) (by simp; decide)]
  rw [recognise_arrayHead_eq, literal?_append, Option.bind_some, hskip, Option.bind_some,
    literal?_append, Option.bind_some, List.cons_append, one?, if_pos (hgap' y (by simp)),
    Option.bind_some]
  exact hopening

theorem recognise_childrenHead_eq (k : Cursor) : recognise .childrenHead k
    = if k.atWordBoundary then (k.literal? "children".toList).bind fun k =>
        ((k.skipAll isBlank).literal? [':']).bind fun k => (k.skipAll isBlank).literal? ['[']
      else none := by
  rw [recognise]
  cases k.atWordBoundary <;> rfl

/-- The head of an array of children, up to the rest of the text, and behind
    something that is no part of its key. -/
structure ChildrenHead (b : Option Char) (t rest : Text) : Prop where
  apart : b.any isWord = false
  parts : ∃ gap gap', t = "children".toList ++ (gap ++ ':' :: (gap' ++ '[' :: rest))
    ∧ (∀ c ∈ gap, isBlank c = true) ∧ ∀ c ∈ gap', isBlank c = true

/-- The key starts with a letter, so the boundary is on its other side. -/
theorem atWordBoundary_children (b : Option Char) (t : Text) :
    (⟨b, "children".toList ++ t⟩ : Cursor).atWordBoundary = !b.any isWord := by
  have hc : isWord 'c' = true := by decide
  simp [atWordBoundary, atBoundary, hc]

theorem childrenHead_of_recognise {b : Option Char} {t : Text} {k : Cursor}
    (h : recognise .childrenHead ⟨b, t⟩ = some k) : ChildrenHead b t k.after := by
  rw [recognise_childrenHead_eq] at h
  -- No word goes on behind the word, and then come a colon and a bracket.
  by_cases hbound : (⟨b, t⟩ : Cursor).atWordBoundary = true
  · rw [if_pos hbound] at h
    rcases Option.bind_eq_some_iff.mp h with ⟨⟨b₁, t₁⟩, h₁, h⟩
    rcases Option.bind_eq_some_iff.mp h with ⟨⟨b₂, t₂⟩, h₂, h⟩
    rcases literal?_eq_some.mp h₁ with ⟨ht, -⟩
    rcases (skip_literal_iff (by decide)).mp h₂ with ⟨-, gap, hgap, ht₁⟩
    rcases (skip_literal_iff (by decide)).mp h with ⟨-, gap', hgap', ht₂⟩
    dsimp only at ht ht₁ ht₂
    subst ht ht₁ ht₂
    rw [atWordBoundary_children] at hbound
    exact ⟨by simpa using hbound, gap, gap', rfl, hgap, hgap'⟩
  · rw [if_neg hbound] at h
    exact absurd h (by simp)

theorem ChildrenHead.isSome {b : Option Char} {t rest : Text} (h : ChildrenHead b t rest) :
    (recognise .childrenHead ⟨b, t⟩).isSome = true := by
  rcases h with ⟨hapart, gap, gap', rfl, hgap, hgap'⟩
  rw [recognise_childrenHead_eq, if_pos (by rw [atWordBoundary_children, hapart]; rfl),
    literal?_append, Option.bind_some, Option.isSome_iff_exists]
  exact ⟨⟨some '[', rest⟩, Option.bind_eq_some_iff.mpr ⟨⟨some ':', gap' ++ '[' :: rest⟩,
    (skip_literal_iff (by decide)).mpr ⟨rfl, gap, hgap, rfl⟩,
    (skip_literal_iff (by decide)).mpr ⟨rfl, gap', hgap', rfl⟩⟩⟩

end Pattern

open Text

/-- A gap is one after its line endings have been turned. -/
theorem Text.gap_toLf {gap : Text} (h : ∀ c ∈ gap, isBlank c = true) :
    ∀ c ∈ toLf gap, isBlank c = true :=
  fun c hc => h c (mem_of_mem_toLf hc)

/-- Text before a character that is no line feed is turned by itself. -/
theorem Text.toLf_before {c : Char} (hc : c ≠ '\n') (s t : Text) :
    toLf (s ++ c :: t) = toLf s ++ toLf (c :: t) :=
  toLf_append fun _ => by simpa using hc

/-- Text without carriage returns is turned into itself, and what follows by
    itself. -/
theorem Text.toLf_behind {s : Text} (h : '\r' ∉ s) (t : Text) : toLf (s ++ t) = s ++ toLf t := by
  induction s with
  | nil => rfl
  | cons c s ih =>
      rw [List.mem_cons, not_or] at h
      rw [List.cons_append, toLf_cons fun hc => absurd hc.symm h.1, ih h.2, List.cons_append]

namespace Pattern

theorem ArrayHead.toLf {symbol t rest : Text} (hne : symbol ≠ []) (hsymbol : '\r' ∉ symbol)
    (hhead : symbol.head? ≠ some '\n') (h : ArrayHead symbol t rest) :
    ArrayHead symbol t.toLf rest.toLf := by
  rcases h.parts with ⟨gap, gap', typed, gap'', rfl, hgapne, hgap, hgapne', hgap', htyped, hgap'', hbound⟩
  refine ⟨Text.toLf gap, Text.toLf gap', typed, Text.toLf gap'', ?_, toLf_ne_nil hgapne,
    gap_toLf hgap, toLf_ne_nil hgapne', gap_toLf hgap', htyped, gap_toLf hgap'', hbound⟩
  have htypedLf : Text.toLf typed = typed := toLf_of_no_break fun hmem => (htyped _ hmem).2 rfl
  rw [toLf_behind (by decide), toLf_append fun _ => by simp, toLf_behind (by decide),
    toLf_append fun _ => ?_, toLf_behind hsymbol, toLf_before (by decide), htypedLf,
    toLf_cons fun heq => absurd heq (by decide), toLf_before (by decide),
    toLf_cons fun heq => absurd heq (by decide)]
  rw [List.head?_append, Option.or_of_isSome (by simpa using hne)]
  exact hhead

theorem ChildrenHead.toLf {b : Option Char} {t rest : Text} (h : ChildrenHead b t rest) :
    ChildrenHead b t.toLf rest.toLf := by
  rcases h with ⟨hapart, gap, gap', rfl, hgap, hgap'⟩
  refine ⟨hapart, Text.toLf gap, Text.toLf gap', ?_, gap_toLf hgap, gap_toLf hgap'⟩
  rw [toLf_behind (by decide), toLf_before (by decide), toLf_cons fun heq => absurd heq (by decide),
    toLf_before (by decide), toLf_cons fun heq => absurd heq (by decide)]

end Pattern

namespace Anchor

/-- An anchor is found in a text. -/
def Stands (a : Anchor) (t : Text) : Prop := (a.locate? t).isSome = true

/-- The anchors for which carriage returns make no difference. -/
def Steady : Anchor → Prop
  | literal l => '\n' ∉ l ∧ '\r' ∉ l
  | arrayHead symbol => symbol ≠ [] ∧ '\r' ∉ symbol ∧ symbol.head? ≠ some '\n'
  | childrenHead => True

variable {a : Anchor} {t : Text}

theorem stands_iff : a.Stands t ↔
    ∃ s r, t = s ++ r ∧ (a.pattern.recognise ⟨passed none s, r⟩).isSome = true :=
  findFrom_isSome_iff _ _ _

/-- A literal is found exactly where it is a part. -/
theorem stands_literal_iff {l : Text} : (literal l).Stands t ↔ l <:+: t := by
  rw [stands_iff]
  constructor
  · rintro ⟨s, r, rfl, h⟩
    rcases literal?_isSome.mp h with ⟨u, rfl⟩
    exact ⟨s, u, by rw [List.append_assoc]⟩
  · rintro ⟨s, u, rfl⟩
    exact ⟨s, l ++ u, by rw [List.append_assoc], literal?_isSome.mpr (List.prefix_append l u)⟩

/-- An array's head is found where one stands. -/
theorem stands_arrayHead_iff {symbol : Text} (h : symbol ≠ []) :
    (arrayHead symbol).Stands t ↔ ∃ s r rest, t = s ++ r ∧ Pattern.ArrayHead symbol r rest := by
  rw [stands_iff]
  constructor
  · rintro ⟨s, r, rfl, hr⟩
    rcases Option.isSome_iff_exists.mp hr with ⟨k, hk⟩
    exact ⟨s, r, k.after, rfl, Pattern.arrayHead_of_recognise h hk⟩
  · rintro ⟨s, r, rest, rfl, hr⟩
    exact ⟨s, r, rfl, hr.isSome h _⟩

/-- An array of children is found where its head stands. -/
theorem stands_childrenHead_iff :
    childrenHead.Stands t ↔ ∃ s r rest, t = s ++ r ∧ Pattern.ChildrenHead (passed none s) r rest := by
  rw [stands_iff]
  constructor
  · rintro ⟨s, r, rfl, hr⟩
    rcases Option.isSome_iff_exists.mp hr with ⟨k, hk⟩
    exact ⟨s, r, k.after, rfl, Pattern.childrenHead_of_recognise hk⟩
  · rintro ⟨s, r, rest, rfl, hr⟩
    exact ⟨s, r, rfl, hr.isSome⟩

/-- Lines put before an anchor do not hide it. -/
theorem Stands.behindLines (ha : a.Steady) (h : a.Stands t) (u : Text) : a.Stands (u ++ '\n' :: t) := by
  cases a with
  | literal l =>
      rw [stands_literal_iff] at h ⊢
      exact h.trans ⟨u ++ ['\n'], [], by simp⟩
  | arrayHead symbol =>
      rcases (stands_arrayHead_iff ha.1).mp h with ⟨s, r, rest, rfl, hr⟩
      exact (stands_arrayHead_iff ha.1).mpr ⟨u ++ '\n' :: s, r, rest, by simp, hr⟩
  | childrenHead =>
      rcases stands_childrenHead_iff.mp h with ⟨s, r, rest, rfl, hr⟩
      refine stands_childrenHead_iff.mpr ⟨u ++ '\n' :: s, r, rest, by simp, ?_, hr.parts⟩
      -- A line break is as good as the start of the text.
      rw [passed_append]
      cases s with
      | nil => exact show isWord '\n' = false by decide
      | cons c s => exact hr.apart

/-- Turning line endings does not hide an anchor. -/
theorem Stands.toLf (ha : a.Steady) (h : a.Stands t) : a.Stands t.toLf := by
  -- A literal that holds no line ending stands where it stood; of the others it is the blanks
  -- that may hold line endings.
  cases a with
  | literal l =>
      rw [stands_literal_iff] at h ⊢
      exact (infix_toLf_iff ha.1 ha.2).mpr h
  | arrayHead symbol =>
      rcases (stands_arrayHead_iff ha.1).mp h with ⟨s, r, rest, rfl, hr⟩
      refine (stands_arrayHead_iff ha.1).mpr ⟨Text.toLf s, Text.toLf r, Text.toLf rest,
        toLf_append fun _ => ?_, hr.toLf ha.1 ha.2.1 ha.2.2⟩
      rcases hr.parts with ⟨gap, gap', typed, gap'', rfl, -⟩
      simp
  | childrenHead =>
      rcases stands_childrenHead_iff.mp h with ⟨s, r, rest, rfl, hr⟩
      refine stands_childrenHead_iff.mpr ⟨Text.toLf s, Text.toLf r, Text.toLf rest,
        toLf_append fun _ => ?_, ?_⟩
      · rcases hr.parts with ⟨gap, gap', rfl, -⟩
        simp
      · rw [passed_toLf]
        exact hr.toLf

end Anchor

end RouteScaffold

import RouteScaffold.Proofs.Edit.Statements
import RouteScaffold.Proofs.Edit.Uniform

/-!
# What Editing Preserves of Line Endings

A file is edited in a view of its text: with its CR LF pairs turned into line feeds. What
the edit makes of the view is written with the ending of the file. So two things can get
lost. A line feed that stands alone in a file that uses pairs is written as a pair, and a
carriage return in front of a pair makes another pair in the view, which is turned once
more before it is written.

Nothing else gets lost. The view of a file that uses no pairs is the file, and where every
line feed stands behind exactly one carriage return, the pairs are found again. What is
written of a text is read again as its own view, unless the text holds such a doubled
carriage return.

## Main definitions

* `Text.PairedFrom`: Every line feed stands behind a carriage return.
* `Job.transform`: A file changed by any function of its view.

## Theorems

* `hasCrlf_toLf_iff`: When the view of a text holds pairs.
* `toCrlf_toLf_iff`: When the pairs of a text are found again.
* `editExisting_eq_transform`: An edit is a function of the view.
* `transform_keeps_endings`: When a view is written back as the file, and what is read of a
  file that has been changed.
-/

namespace RouteScaffold

open Cursor

namespace Text

variable {t : Text} {b : Option Char} {c : Char}

/-! ### Turning once and twice -/

/-- A text is its own view exactly if it holds no pair. -/
theorem toLf_eq_self_iff : toLf t = t ↔ t.hasCrlf = false := by
  refine ⟨fun h => ?_, toLf_of_hasCrlf⟩
  induction t using turnInduction with
  | nil => rfl
  | pair t _ =>
      rw [toLf_pair, List.cons.injEq] at h
      exact absurd h.1 (by decide)
  | cons c t hc ih =>
      rw [toLf_cons hc, List.cons.injEq] at h
      rw [hasCrlf_cons hc, ih h.2]

/-- The view of a text begins with a line feed where the text begins with one, or with a
    pair. -/
theorem head?_toLf_eq_break : (toLf t).head? = some '\n' ↔ t.head? = some '\n' ∨ ['\r', '\n'] <+: t := by
  cases t using turnInduction with
  | nil => simp
  | pair t _ => simp [toLf_pair]
  | cons c t hc _ =>
      rw [toLf_cons hc]
      constructor
      · exact fun h => .inl h
      · rintro (h | ⟨r, hr⟩)
        · exact h
        · rw [List.cons_append, List.cons.injEq] at hr
          exact absurd (by rw [← hr.2]; rfl) (hc hr.1.symm)

/-- The view of a text holds a pair where a pair stands behind one more carriage
    return. -/
theorem hasCrlf_toLf_iff : (toLf t).hasCrlf = true ↔ ['\r', '\r', '\n'] <:+: t := by
  induction t using turnInduction with
  | nil => simp [hasCrlf]
  | pair t ih =>
      have hbreak : '\n' = '\r' → (toLf t).head? ≠ some '\n' := fun heq => absurd heq (by decide)
      rw [toLf_pair, hasCrlf_cons hbreak, ih, List.infix_cons_iff, List.infix_cons_iff]
      simp
  | cons c t hc ih =>
      rw [toLf_cons hc, List.infix_cons_iff, ← ih]
      -- The pair behind this return is what its view turns into a pair.
      by_cases hpair : c = '\r' ∧ ['\r', '\n'] <+: t
      · rcases hpair with ⟨rfl, hpre⟩
        have hhead := head?_toLf_eq_break.mpr (.inr hpre)
        refine iff_of_true ?_ (.inl ((List.prefix_cons_inj _).mpr hpre))
        cases hview : toLf t with
        | nil => rw [hview] at hhead; exact absurd hhead (by simp)
        | cons d u =>
            rw [hview, List.head?_cons, Option.some.injEq] at hhead
            rw [hhead]
            rfl
      · have hview : c = '\r' → (toLf t).head? ≠ some '\n' := fun heq hhead =>
          (head?_toLf_eq_break.mp hhead).elim (hc heq) fun hpre => hpair ⟨heq, hpre⟩
        have hnot : ¬ ['\r', '\r', '\n'] <+: c :: t := by
          rintro ⟨r, hr⟩
          rw [List.cons_append, List.cons.injEq] at hr
          exact hpair ⟨hr.1.symm, r, hr.2⟩
        rw [hasCrlf_cons hview, or_iff_right hnot]

/-! ### Pairs -/

/-- Every line feed of a text stands behind a carriage return, the first character behind
    the given one. -/
def PairedFrom (b : Option Char) (t : Text) : Prop :=
  ∀ s r, t = s ++ '\n' :: r → passed b s = some '\r'

theorem pairedFrom_nil (b : Option Char) : PairedFrom b [] := by
  intro s r h
  simp at h

theorem pairedFrom_cons :
    PairedFrom b (c :: t) ↔ (c = '\n' → b = some '\r') ∧ PairedFrom (some c) t := by
  constructor
  · intro h
    exact ⟨fun hc => h [] t (by rw [hc]; rfl), fun s r hs => h (c :: s) r (by rw [hs]; rfl)⟩
  · rintro ⟨hc, ht⟩ s r hs
    cases s with
    | nil => exact hc (List.cons.inj hs).1
    | cons d s =>
        rw [List.cons_append, List.cons.injEq] at hs
        rw [passed, ← hs.1]
        exact ht s r hs.2

theorem PairedFrom.before_head (h : PairedFrom b t) (hhead : t.head? = some '\n') :
    b = some '\r' := by
  cases t with
  | nil => exact absurd hhead (by simp)
  | cons c t => exact (pairedFrom_cons.mp h).1 (Option.some.inj hhead)

/-- Only a line feed that comes first depends on what is in front. -/
theorem pairedFrom_congr {b' : Option Char} (h : t.head? ≠ some '\n') :
    PairedFrom b t ↔ PairedFrom b' t := by
  cases t with
  | nil => exact iff_of_true (pairedFrom_nil b) (pairedFrom_nil b')
  | cons c t =>
      have hc : c ≠ '\n' := fun hc => h (by rw [hc]; rfl)
      rw [pairedFrom_cons, pairedFrom_cons, iff_true_intro fun heq => absurd heq hc,
        iff_true_intro fun heq => absurd heq hc]

theorem toCrlf_cons (h : c ≠ '\n') : toCrlf (c :: t) = c :: toCrlf t := by
  rw [toCrlf]
  exact h

/-- Line feeds are written as pairs. -/
theorem pairedFrom_toCrlf (b : Option Char) (t : Text) : PairedFrom b (toCrlf t) := by
  induction t generalizing b with
  | nil => exact pairedFrom_nil b
  | cons c t ih =>
      by_cases hc : c = '\n'
      · subst hc
        exact pairedFrom_cons.mpr ⟨by simp, pairedFrom_cons.mpr ⟨fun _ => rfl, ih _⟩⟩
      · rw [toCrlf_cons hc]
        exact pairedFrom_cons.mpr ⟨fun heq => absurd heq hc, ih _⟩

/-- The pairs of a text are found again if it has no other line feeds. -/
theorem toCrlf_toLf_iff : toCrlf (toLf t) = t ↔ PairedFrom none t := by
  refine ⟨fun h => h ▸ pairedFrom_toCrlf none (toLf t), fun h => ?_⟩
  induction t using turnInduction with
  | nil => rfl
  | pair t ih =>
      rw [pairedFrom_cons, pairedFrom_cons] at h
      -- A line feed behind the pair would stand behind a line feed.
      have hhead : t.head? ≠ some '\n' := fun hhead =>
        absurd (Option.some.inj (h.2.2.before_head hhead)) (by decide)
      rw [toLf_pair, toCrlf, ih ((pairedFrom_congr hhead).mp h.2.2)]
  | cons c t hc ih =>
      rw [pairedFrom_cons] at h
      have hbreak : c ≠ '\n' := fun heq => absurd (h.1 heq) (by simp)
      have hhead : t.head? ≠ some '\n' := fun hhead =>
        hc (Option.some.inj (h.2.before_head hhead)) hhead
      rw [toLf_cons hc, toCrlf_cons hbreak, ih ((pairedFrom_congr hhead).mp h.2)]

/-- The view of a text written in pairs is the text exactly if every line feed stands
    behind a carriage return, and none behind two. -/
theorem toCrlf_view_iff : toCrlf (toLf (toLf t)) = t
    ↔ PairedFrom none t ∧ ¬ ['\r', '\r', '\n'] <:+: t := by
  rw [← hasCrlf_toLf_iff, Bool.not_eq_true, ← toLf_eq_self_iff]
  constructor
  · intro h
    have hpaired : PairedFrom none t := h ▸ pairedFrom_toCrlf none _
    refine ⟨hpaired, ?_⟩
    rw [← toLf_toCrlf (toLf (toLf t)), h]
  · rintro ⟨hpaired, hview⟩
    rw [hview, toCrlf_toLf_iff.mpr hpaired]

/-! ### Files -/

/-- The view of a file, written with the ending of the file. -/
theorem withEnding_detect_iff : t.toLf.withEnding (.detect t) = t
    ↔ ¬ ['\r', '\n'] <:+: t ∨ PairedFrom none t ∧ ¬ ['\r', '\r', '\n'] <:+: t := by
  rw [← hasCrlf_iff, Bool.not_eq_true, LineEnding.detect]
  cases h : t.hasCrlf with
  | false =>
      refine iff_of_true ?_ (.inl rfl)
      rw [if_neg (by simp), withEnding, toLf_of_hasCrlf h, toLf_of_hasCrlf h]
  | true =>
      rw [if_pos rfl, withEnding, toCrlf_view_iff]
      simp

/-- A text without a doubled carriage return is read again as its view. -/
theorem toLf_withEnding (h : ¬ ['\r', '\r', '\n'] <:+: t) (e : LineEnding) :
    (t.withEnding e).toLf = t.toLf := by
  rw [← hasCrlf_toLf_iff, Bool.not_eq_true, ← toLf_eq_self_iff] at h
  rcases reread_cases t e with heq | heq
  · exact heq
  · rw [heq, h]

end Text

namespace Job

open Disk

/-- Changes a file that exists, by any function of its view. Answers whether the file
    changed. -/
def transform (p : Path) (f : Text → Except Fault Text) : Job Bool := do
  let raw ← readRaw p
  let edited ← ofExcept (f raw.toLf)
  if edited = raw.toLf then return false
  replace p (edited.withEnding (.detect raw))
  return true

variable {p : Path} {f : Text → Except Fault Text} {d : Disk} {loc : Location} {c : Content}
  {raw edited : Text}

/-- An edit is a function of the view. -/
theorem editExisting_eq_transform (p : Path) (e : Edit) : editExisting p e = transform p (e.apply p.text) := by
  refine funext fun d => ?_
  change (editExisting p e).on d = (transform p (e.apply p.text)).on d
  rw [editExisting, transform, on_bind, on_bind]
  rcases (readRaw p).on d with ⟨r, d'⟩
  cases r with
  | error f => rfl
  | ok raw =>
      dsimp only
      rw [on_bind, on_bind, on_ofExcept, on_ofExcept, Edit.written]
      cases e.apply p.text raw.toLf with
      | error f => rfl
      | ok edited =>
          -- The same two outcomes, whether the result is told of as nothing or as the text itself.
          by_cases hsame : edited = raw.toLf
          · simp only [bind, Except.bind, if_pos hsame]
            rfl
          · simp only [bind, Except.bind, if_neg hsame]
            rfl

/-- A function that changes the view of a file that can be exchanged. -/
theorem on_transform (hreplace : d.replaceable p = .ok loc) (hfile : d.tree.get? loc = some (.file c))
    (hread : c.read = .ok raw) (hf : f raw.toLf = .ok edited) (hne : edited ≠ raw.toLf) :
    (transform p f).on d
      = (.ok true, d.made (.put loc (.file (.text (edited.withEnding (.detect raw)))))) := by
  rw [transform, on_bind_ok (on_readRaw_of_file (replaceable_eq hreplace).1 hfile hread), hf,
    on_ofExcept_bind, if_neg hne, on_bind, on_replace, hreplace]
  rfl

/-- The view of a file is written back as the file exactly if the file uses no pairs, or
    pairs only, none of them behind one more carriage return. Whatever function of the view
    a file is changed by, what is read of it afterwards is the view of the result, unless
    that holds a doubled carriage return; and every edit is such a function. -/
theorem transform_keeps_endings (raw : Text) :
    (raw.toLf.withEnding (.detect raw) = raw ↔ ¬ ['\r', '\n'] <:+: raw
      ∨ (∀ s r, raw = s ++ '\n' :: r → s.getLast? = some '\r') ∧ ¬ ['\r', '\r', '\n'] <:+: raw)
    ∧ (∀ edited : Text, ¬ ['\r', '\r', '\n'] <:+: edited →
      (edited.withEnding (.detect raw)).toLf = edited.toLf
      ∧ ∀ p f d loc c, d.replaceable p = .ok loc → d.tree.get? loc = some (.file c) →
        c.read = .ok raw → f raw.toLf = .ok edited → edited ≠ raw.toLf →
        ∃ d', (transform p f).on d = (.ok true, d')
          ∧ d'.tree.get? loc = some (.file (.text (edited.withEnding (.detect raw))))
          ∧ (readSource p).on d' = (.ok edited.toLf, d'))
    ∧ ∀ p e, editExisting p e = transform p (e.apply p.text) := by
  refine ⟨?_, fun edited hsingle => ⟨Text.toLf_withEnding hsingle _, ?_⟩, editExisting_eq_transform⟩
  · rw [Text.withEnding_detect_iff, Text.PairedFrom]
    simp only [passed_none]
  · intro p f d loc c hreplace hfile hread hf hne
    rcases replaceable_made hreplace (edited.withEnding (.detect raw)) with ⟨hagain, hnow⟩
    refine ⟨_, on_transform hreplace hfile hread hf hne, hnow, ?_⟩
    rw [readSource, on_bind_ok (on_readRaw_text (replaceable_eq hagain).1 hnow), on_pure,
      Text.toLf_withEnding hsingle]

/-- A file that uses pairs. -/
def paired : Disk := .fresh ⟨[(["index.ts".toList], .file (.text "a;\r\nb;\r\n".toList))]⟩ []

/-- A line, with a lone carriage return in it, put below the lines of a file that uses
    pairs. -/
theorem transform_keeps_endings_paired :
    Text.withEnding "a;\nb;\n" (.detect "a;\r\nb;\r\n") = "a;\r\nb;\r\n".toList
      ∧ ∃ d', (transform (Path.ofText "index.ts") fun t => .ok (t ++ "c;\r.\r\n")).on paired = (.ok true, d')
        ∧ d'.tree.get? ["index.ts".toList] = some (.file (.text "a;\r\nb;\r\nc;\r.\r\n".toList))
        ∧ (readSource (Path.ofText "index.ts")).on d' = (.ok "a;\nb;\nc;\r.\n".toList, d') := by
  rcases transform_keeps_endings "a;\r\nb;\r\n" with ⟨hback, hchanged, -⟩
  have hpaired : Text.PairedFrom none "a;\r\nb;\r\n" := Text.toCrlf_toLf_iff.mp rfl
  refine ⟨hback.mpr (.inr ⟨fun s r hs => passed_none s ▸ hpaired s r hs, by decide⟩), ?_⟩
  exact (hchanged "a;\nb;\nc;\r.\r\n" (by decide)).2 _ _ paired ["index.ts".toList] _ rfl rfl rfl rfl
    (by decide)

end Job

end RouteScaffold

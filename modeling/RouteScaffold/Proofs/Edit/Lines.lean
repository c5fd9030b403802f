import Mathlib.Data.Option.Basic
import RouteScaffold.Proofs.Text.Words

/-!
# Patterns at Line Starts

All patterns that are erased from a file begin at the start of a line, and
most of them read exactly one line. So what an erasure does can be said line
by line: a line that is not read stays, and a line that is read goes, with its
line break.

Erasing the lines with a word is a filter on the lines of any text. The
imports of a symbol are different, since a statement may run over several
lines; there the lines are those of a text whose statements are one line each.

## Main definitions

* `Text.rows`: The lines of a text, each with its line break.
* `Recogniser.Anchored`: A recogniser that reads only at line starts.

## Theorems

* `eraseFrom_row`: An erasure goes through a text row by row.
* `erase_lineWith`: Erasing the lines with a word keeps the other rows.
* `recognise_importOf`: An import statement of one line is read exactly if it
  mentions the symbol.
-/

namespace RouteScaffold

open Cursor

namespace Text

/-- The lines of a text, each with its line break; the last one may have
    none. -/
def rows : Text → List Text
  | [] => []
  | c :: t =>
    if c = '\n' then ['\n'] :: rows t
    else match rows t with
      | [] => [[c]]
      | row :: rest => (c :: row) :: rest

theorem rows_line_append {u : Text} (hu : '\n' ∉ u) (t : Text) :
    rows (u ++ '\n' :: t) = (u ++ ['\n']) :: rows t := by
  induction u with
  | nil => simp [rows]
  | cons c u ih =>
      have hc : c ≠ '\n' := fun h => hu (by simp [h])
      have hu' : '\n' ∉ u := fun h => hu (by simp [h])
      simp only [List.cons_append, rows, hc, if_false, ih hu']

theorem rows_of_line {u : Text} (hne : u ≠ []) (hu : '\n' ∉ u) : rows u = [u] := by
  induction u with
  | nil => exact absurd rfl hne
  | cons c u ih =>
      have hc : c ≠ '\n' := fun h => hu (by simp [h])
      have hu' : '\n' ∉ u := fun h => hu (by simp [h])
      cases u with
      | nil => simp [rows, hc]
      | cons d u => rw [rows, if_neg hc, ih (by simp) hu']

/-- A text is one line, or a line and what follows its line break. -/
theorem line_or_line_append (t : Text) :
    '\n' ∉ t ∨ ∃ u r, t = u ++ '\n' :: r ∧ '\n' ∉ u := by
  by_cases h : '\n' ∈ t
  · right
    rcases List.append_of_mem h with ⟨u, r, hur⟩
    refine ⟨t.takeWhile (· ≠ '\n'), (t.dropWhile (· ≠ '\n')).tail, ?_, ?_⟩
    · have hsplit := List.takeWhile_append_dropWhile (p := (· ≠ '\n')) (l := t)
      cases hd : t.dropWhile (· ≠ '\n') with
      | nil =>
          have := List.dropWhile_eq_nil_iff.mp hd '\n' h
          exact absurd this (by simp)
      | cons c r =>
          have hc := List.head?_dropWhile_not (· ≠ '\n') t
          rw [hd] at hc hsplit
          have : c = '\n' := by simpa using hc
          subst this
          exact hsplit.symm
    · intro hmem
      have := List.mem_takeWhile_imp hmem
      simp at this
  · exact Or.inl h

/-- Induction along the lines of a text. -/
theorem lineInduction {motive : Text → Prop} (last : ∀ u, '\n' ∉ u → motive u)
    (line : ∀ u r, '\n' ∉ u → motive r → motive (u ++ '\n' :: r)) (t : Text) : motive t := by
  induction ht : t.length using Nat.strong_induction_on generalizing t with
  | _ n ih =>
      rcases line_or_line_append t with h | ⟨u, r, rfl, hu⟩
      · exact last t h
      · exact line u r hu (ih r.length (by simp [← ht]; omega) r rfl)

/-- The rows of a text are its own characters. -/
theorem rows_flatten (t : Text) : (rows t).flatten = t := by
  induction t using lineInduction with
  | last u hu =>
      rcases List.eq_nil_or_concat u with rfl | ⟨v, c, rfl⟩
      · rfl
      · rw [rows_of_line (by simp) hu]
        simp
  | line u r hu ih =>
      rw [rows_line_append hu, List.flatten_cons, ih]
      simp

end Text

namespace Recogniser

/-- A recogniser that reads only at line starts. -/
def Anchored (m : Recogniser) : Prop := ∀ c t, c ≠ '\n' → m ⟨some c, t⟩ = none

theorem Anchored.quiet {m : Recogniser} (hm : Anchored m) {c : Char} (hc : c ≠ '\n') {u : Text}
    (hu : '\n' ∉ u) (r : Text) : Quiet m (some c) (u ++ ['\n']) r := by
  induction u generalizing c with
  | nil => exact ⟨hm c _ hc, trivial⟩
  | cons d u ih =>
      have hd : d ≠ '\n' := fun h => hu (by simp [h])
      exact ⟨hm c _ hc, ih hd fun h => hu (by simp [h])⟩

theorem Anchored.quiet_line {m : Recogniser} (hm : Anchored m) {c : Char} (hc : c ≠ '\n')
    {u : Text} (hu : '\n' ∉ u) (r : Text) : Quiet m (some c) u r := by
  induction u generalizing c with
  | nil => trivial
  | cons d u ih =>
      have hd : d ≠ '\n' := fun h => hu (by simp [h])
      exact ⟨hm c _ hc, ih hd fun h => hu (by simp [h])⟩

/-- A line that is not read stays, and the erasure goes on behind its line
    break. -/
theorem Anchored.eraseFrom_row {m : Recogniser} (hm : Anchored m) {b : Option Char} {u : Text}
    (hu : '\n' ∉ u) (r : Text) (h : m ⟨b, u ++ '\n' :: r⟩ = none) :
    m.eraseFrom 0 b (u ++ '\n' :: r) = u ++ '\n' :: m.eraseFrom 0 (some '\n') r := by
  have hquiet : Quiet m b (u ++ ['\n']) r := by
    cases u with
    | nil => exact ⟨h, trivial⟩
    | cons c u =>
        have hc : c ≠ '\n' := fun h => hu (by simp [h])
        refine ⟨?_, hm.quiet hc (fun h => hu (by simp [h])) r⟩
        simpa using h
  have := eraseFrom_quiet m b (u ++ ['\n']) r hquiet
  rw [passed_concat] at this
  simpa using this

/-- A last line that is not read stays. -/
theorem Anchored.eraseFrom_last {m : Recogniser} (hm : Anchored m) {b : Option Char} {u : Text}
    (hu : '\n' ∉ u) (h : m ⟨b, u⟩ = none) : m.eraseFrom 0 b u = u := by
  cases u with
  | nil => simp [eraseFrom]
  | cons c u =>
      apply eraseFrom_of_quiet
      have hc : c ≠ '\n' := fun h => hu (by simp [h])
      refine ⟨by simpa using h, hm.quiet_line hc (fun h => hu (by simp [h])) []⟩

/-- A line that is read, or not, as a whole goes, or stays, as a whole. -/
theorem Anchored.eraseFrom_line {m : Recogniser} (hm : Anchored m) {b : Option Char} {u : Text}
    (hu : '\n' ∉ u) (r : Text) (read : Bool)
    (h : (m ⟨b, u ++ '\n' :: r⟩).map Cursor.after = if read then some r else none) :
    m.eraseFrom 0 b (u ++ '\n' :: r)
      = (if read then [] else u ++ ['\n']) ++ m.eraseFrom 0 (some '\n') r := by
  cases read with
  | true =>
      rcases Option.map_eq_some_iff.mp h with ⟨k, hk, hkr⟩
      have := eraseFrom_hit m b k (u ++ ['\n']) r (by simp) (by simpa using hk) hkr
      rw [passed_concat] at this
      simpa using this
  | false =>
      rw [if_neg (by simp), Option.map_eq_none_iff] at h
      rw [hm.eraseFrom_row hu r h]
      simp

/-- A line is passed over if nothing is read where its first character
    stands. -/
theorem Anchored.passes_line {m : Recogniser} (hm : Anchored m) {c : Char} {u : Text}
    (hread : ∀ b r, m ⟨b, c :: r⟩ = none) (hc : c ≠ '\n') (hu : '\n' ∉ u) :
    Passes m (c :: u ++ ['\n']) :=
  fun b _ => ⟨hread b _, hm.quiet hc hu _⟩

theorem Anchored.passes_start {m : Recogniser} (hm : Anchored m) {c : Char} {u : Text}
    (hread : ∀ b r, m ⟨b, c :: r⟩ = none) (hc : c ≠ '\n') (hu : '\n' ∉ u) :
    Passes m (c :: u) :=
  fun b _ => ⟨hread b _, hm.quiet_line hc hu _⟩

end Recogniser

namespace Pattern

open Recogniser Text

theorem anchored_importOf (w : Text) : Anchored (recognise (.importOf w)) := by
  intro c t hc
  simp [recognise, importHead?, atLineStart, hc, failure]

theorem anchored_importFrom (w : Text) : Anchored (recognise (.importFrom w)) := by
  intro c t hc
  simp [recognise, importHead?, atLineStart, hc, failure]

theorem anchored_lineWith (w : Text) : Anchored (recognise (.lineWith w)) := by
  intro c t hc
  simp [recognise, atLineStart, hc, failure]

theorem anchored_barrelLine (w : Text) : Anchored (recognise (.barrelLine w)) := by
  intro c t hc
  simp [recognise, atLineStart, hc, failure]

/-! ### Choices within a stretch -/

/-- A run of a class at the start of a stretch of it lies in the stretch. -/
theorem run_in_stretch {p : Char → Bool} {u rest s r : Text} (h : u ++ rest = s ++ r)
    (hs : ∀ c ∈ s, p c = true) (hrest : ∀ c ∈ rest.head?, p c = false) :
    ∃ v, u = s ++ v ∧ r = v ++ rest := by
  rcases List.append_eq_append_iff.mp h with ⟨z, hz, hr⟩ | ⟨z, hz, hr⟩
  · cases z with
    | nil => exact ⟨[], by rw [hz, List.append_nil, List.append_nil], by simpa using hr.symm⟩
    | cons c z =>
        have h1 := hrest c (by rw [hr]; rfl)
        rw [hs c (by rw [hz]; simp)] at h1
        exact absurd h1 (by simp)
  · exact ⟨z, hz, hr⟩

/-- What is read behind a choice of place in a stretch, where the places that
    allow it are those at which a word stands, and all of them end alike. -/
structure WordChoice (w : Text) (next : Cursor → Option Cursor) (b : Option Char)
    (u rest after : Text) : Prop where
  next_eq : ∀ s v, u = s ++ v → (next ⟨passed b s, v ++ rest⟩).map Cursor.after
    = if (wholeWord? w ⟨passed b s, v⟩).isSome then some after else none

/-- The result of such a choice, in whatever order its places are tried. -/
theorem WordChoice.result {p : Char → Bool} {w : Text} {next : Cursor → Option Cursor}
    {b : Option Char} {u rest after : Text} (h : WordChoice w next b u rest after)
    (hu : ∀ c ∈ u, p c = true) (hrest : ∀ c ∈ rest.head?, p c = false) {o : Option Cursor}
    (hsound : ∀ k, o = some k → ∃ s r, u ++ rest = s ++ r ∧ (∀ c ∈ s, p c = true)
      ∧ next ⟨passed b s, r⟩ = some k)
    (hcomplete : ∀ s r, u ++ rest = s ++ r → (∀ c ∈ s, p c = true) →
      (next ⟨passed b s, r⟩).isSome = true → o.isSome = true) :
    o.map Cursor.after = if mentionsFrom w b u then some after else none := by
  -- Wherever the choice ends, a word stands there, and the end is the common one.
  have hend : ∀ k, o = some k → mentionsFrom w b u = true ∧ k.after = after := by
    intro k hk
    rcases hsound k hk with ⟨s, r, hsr, hs, hnext⟩
    rcases run_in_stretch hsr hs hrest with ⟨v, hv, rfl⟩
    have heq := h.next_eq s v hv
    rw [hnext, Option.map_some] at heq
    split at heq
    · next hword =>
        exact ⟨(findFrom_isSome_iff _ b u).mpr ⟨s, v, hv, hword⟩, Option.some.inj heq⟩
    · exact absurd heq (by simp)
  by_cases hm : mentionsFrom w b u = true
  · rcases (findFrom_isSome_iff _ b u).mp hm with ⟨s, v, hsv, hword⟩
    have heq := h.next_eq s v hsv
    rw [hword, if_pos rfl] at heq
    have hsome : o.isSome = true := by
      refine hcomplete s (v ++ rest) (by simp [hsv]) (fun c hc => hu c (by simp [hsv, hc])) ?_
      cases hn : next ⟨passed b s, v ++ rest⟩ with
      | none => rw [hn] at heq; exact absurd heq (by simp)
      | some k => rfl
    rcases Option.isSome_iff_exists.mp hsome with ⟨k, hk⟩
    rw [if_pos hm, hk, Option.map_some, (hend k hk).2]
  · rw [if_neg hm]
    cases hk : o with
    | none => rfl
    | some k => exact absurd (hend k hk).1 hm

theorem WordChoice.greedily {p : Char → Bool} {w : Text} {next : Cursor → Option Cursor}
    {b : Option Char} {u rest after : Text} (h : WordChoice w next b u rest after)
    (hu : ∀ c ∈ u, p c = true) (hrest : ∀ c ∈ rest.head?, p c = false) :
    (Cursor.greedily p next ⟨b, u ++ rest⟩).map Cursor.after
      = if mentionsFrom w b u then some after else none := by
  refine h.result hu hrest (fun k hk => exists_of_greedyFrom hk) (fun s r hsr hs hn => ?_)
  rw [hsr]
  exact greedyFrom_isSome hs hn

theorem WordChoice.lazily {p : Char → Bool} {w : Text} {next : Cursor → Option Cursor}
    {b : Option Char} {u rest after : Text} (h : WordChoice w next b u rest after)
    (hu : ∀ c ∈ u, p c = true) (hrest : ∀ c ∈ rest.head?, p c = false) :
    (Cursor.lazily p next ⟨b, u ++ rest⟩).map Cursor.after
      = if mentionsFrom w b u then some after else none := by
  refine h.result hu hrest (fun k hk => exists_of_lazyFrom hk) (fun s r hsr hs hn => ?_)
  rw [hsr]
  exact lazyFrom_isSome hs hn

/-! ### Lines with a word -/

theorem atLineStart_of {b : Option Char} (hb : ∀ c ∈ b, c = '\n') (t : Text) :
    (⟨b, t⟩ : Cursor).atLineStart = true := by
  cases b with
  | none => rfl
  | some c => simpa [atLineStart] using hb

theorem ne_of_not_mem {d : Char} {u : Text} (hu : d ∉ u) : ∀ c ∈ u, decide (c ≠ d) = true := by
  intro c hc
  rw [decide_eq_true_eq]
  rintro rfl
  exact hu hc

/-- The rest of a line ends with its line break, or with the text. -/
theorem restOfLine_after (x : Option Char) {v rest : Text} (hv : '\n' ∉ v)
    (hrest : ∀ c ∈ rest.head?, c = '\n') :
    (((⟨x, v ++ rest⟩ : Cursor).skipAll (· ≠ '\n')).overBreak).after = rest.tail := by
  rw [skipAll_append _ x v rest (ne_of_not_mem hv) (by simpa using hrest)]
  cases rest with
  | nil => rfl
  | cons c r =>
      have hc : c = '\n' := hrest c rfl
      subst hc
      rfl

/-- At the start of a line, a line with a word is read whole. -/
theorem recognise_lineWith {w : Text} (hw : '\n' ∉ w) {b : Option Char}
    (hb : ∀ c ∈ b, c = '\n') {u : Text} (rest : Text) (hu : '\n' ∉ u)
    (hrest : ∀ c ∈ rest.head?, c = '\n') :
    (recognise (.lineWith w) ⟨b, u ++ rest⟩).map Cursor.after
      = if mentionsFrom w b u then some rest.tail else none := by
  have hchoice : WordChoice w (fun k => do
      let k ← wholeWord? w k
      return (k.skipAll (· ≠ '\n')).overBreak) b u rest rest.tail := by
    constructor
    intro s v hsv
    have hv : '\n' ∉ v := fun h => hu (by simp [hsv, h])
    -- A line break, or the end of the text, delimits the word.
    have hword : wholeWord? w ⟨passed b s, v ++ rest⟩
        = (wholeWord? w ⟨passed b s, v⟩).map fun k => ⟨k.before, k.after ++ rest⟩ := by
      cases rest with
      | nil => simp
      | cons c r =>
          have hc : c = '\n' := hrest c rfl
          subst hc
          exact wholeWord?_delimited (by decide) hw _ _ _
    simp only [hword, bind]
    cases hk : wholeWord? w ⟨passed b s, v⟩ with
    | none => rfl
    | some k =>
        have hkv : '\n' ∉ k.after := by
          rcases wholeWord?_eq_some.mp hk with ⟨hv', -⟩
          exact fun h => hv (by rw [hv']; simp [h])
        have := restOfLine_after k.before hkv hrest
        simp only [Option.map_some, Option.bind_some, Option.isSome_some, if_true]
        exact congrArg some this
  have hstart := atLineStart_of hb (u ++ rest)
  have := hchoice.greedily (p := (· ≠ '\n')) (ne_of_not_mem hu) (by simpa using hrest)
  rw [← this]
  simp [recognise, hstart]

/-- A line break at the end of a row is no part of a word. -/
theorem mentions_row {w : Text} (hne : w ≠ []) (hw : '\n' ∉ w) (u : Text) :
    mentions w (u ++ ['\n']) = mentions w u := by
  rw [mentions_eq, mentions_eq, mentionsFrom_delimited hne (by decide) hw, mentionsFrom_nil hne,
    Bool.or_false]

/-- A line break in front of a text counts no more than its start. -/
theorem mentionsFrom_lineStart {b : Option Char} (hb : ∀ c ∈ b, c = '\n') {w : Text} (hne : w ≠ [])
    (t : Text) : mentionsFrom w b t = mentions w t := by
  have hany : b.any isWord = (none : Option Char).any isWord := by
    cases b with
    | none => rfl
    | some c =>
        rw [hb c rfl]
        decide
  exact mentionsFrom_congr hany hne t

/-- Erasing the lines with a word keeps the other rows. -/
theorem erase_lineWith {w : Text} (hne : w ≠ []) (hw : '\n' ∉ w) (t : Text) :
    erase (.lineWith w) t = ((rows t).filter fun row => !mentions w row).flatten := by
  have hanch := anchored_lineWith w
  -- Behind a line break the search goes on as at the start, so the induction keeps this of what was
  -- read last.
  have main : ∀ b : Option Char, (∀ c ∈ b, c = '\n') →
      (recognise (.lineWith w)).eraseFrom 0 b t
        = ((rows t).filter fun row => !mentions w row).flatten := by
    induction t using lineInduction with
    | last u hu =>
        intro b hb
        have hread := recognise_lineWith hw hb [] hu (by simp)
        rw [List.append_nil, mentionsFrom_lineStart hb hne] at hread
        by_cases hnil : u = []
        · subst hnil
          simp [rows, eraseFrom]
        · rw [rows_of_line hnil hu]
          by_cases hm : mentions w u = true
          · rw [hm, if_pos rfl] at hread
            rcases Option.map_eq_some_iff.mp hread with ⟨k, hk, hkr⟩
            have := eraseFrom_hit (recognise (.lineWith w)) b k u [] hnil
              (by rw [List.append_nil]; exact hk) (by rw [hkr]; rfl)
            rw [List.append_nil] at this
            rw [this]
            simp [hm, eraseFrom]
          · rw [if_neg hm, Option.map_eq_none_iff] at hread
            rw [hanch.eraseFrom_last hu hread]
            simp [hm]
    -- What is read in a line ends within it, so the lines below are searched for themselves.
    | line u r hu ih =>
        intro b hb
        have hread := recognise_lineWith hw hb ('\n' :: r) hu (by simp)
        rw [mentionsFrom_lineStart hb hne] at hread
        rw [hanch.eraseFrom_line hu r (mentions w u) hread, ih (some '\n') (by simp),
          rows_line_append hu, List.filter_cons, mentions_row hne hw]
        cases mentions w u <;> simp
  exact main none (by simp)

/-! ### Import statements -/

/-- An import statement of one line, without its keyword and its end. -/
def statement (s : Text) : Text := "import " ++ s ++ ";\n"

theorem statement_append (s r : Text) :
    statement s ++ r = "import ".toList ++ (s ++ ';' :: '\n' :: r) := by
  rw [show statement s = "import ".toList ++ s ++ ";\n".toList from rfl]
  simp

theorem importHead?_eq (k : Cursor) :
    importHead? k
      = if k.atLineStart then (k.literal? "import".toList).bind (one? isBlank) else none := by
  unfold importHead?
  cases k.atLineStart <;> rfl

theorem importHead?_statement {b : Option Char} (hb : ∀ c ∈ b, c = '\n') (t : Text) :
    importHead? ⟨b, "import ".toList ++ t⟩ = some ⟨some ' ', t⟩ := by
  have hlit : (⟨b, "import ".toList ++ t⟩ : Cursor).literal? "import".toList
      = some ⟨some 't', ' ' :: t⟩ := literal?_append "import".toList b (' ' :: t)
  rw [importHead?_eq, atLineStart_of hb, hlit, if_pos rfl]
  rfl

theorem importHead?_eq_none {b : Option Char} {t : Text} (h : ∀ c ∈ t.head?, c ≠ 'i') :
    importHead? ⟨b, t⟩ = none := by
  have hlit : (⟨b, t⟩ : Cursor).literal? "import".toList = none := by
    rw [literal?_eq_none]
    rintro ⟨r, hr⟩
    exact h 'i' (by rw [← hr]; rfl) rfl
  rw [importHead?_eq, hlit]
  split <;> rfl

/-- A statement ends behind its first semicolon. -/
theorem statementEnd?_eq (x : Option Char) {v : Text} (hv : ';' ∉ v) (r : Text) :
    statementEnd? ⟨x, v ++ ';' :: r⟩ = some (statementTail ⟨some ';', r⟩) := by
  rw [statementEnd?, skipAll_append _ x v (';' :: r) (ne_of_not_mem hv) (by simp)]
  have hlit : (⟨passed x v, ';' :: r⟩ : Cursor).literal? [';'] = some ⟨some ';', r⟩ :=
    literal?_append [';'] _ _
  rw [hlit, Option.map_some]

theorem statementTail_after (x : Option Char) (r : Text) :
    (statementTail ⟨x, '\n' :: r⟩).after = r := by
  have hskip := skipAll_append isIndent x [] ('\n' :: r) (by simp) (by simp [isIndent])
  rw [List.nil_append] at hskip
  rw [statementTail, hskip]
  rfl

/-- Wherever in a statement its symbol is, the statement has the same end. -/
theorem wordChoice_statement {w : Text} (hw : ';' ∉ w) (b : Option Char) {s : Text} (hs : ';' ∉ s)
    (r : Text) : WordChoice w (fun k => do statementEnd? (← wholeWord? w k)) b s (';' :: r)
      (statementTail ⟨some ';', r⟩).after := by
  constructor
  intro s' v hsv
  have hv : ';' ∉ v := fun h => hs (by simp [hsv, h])
  rw [wholeWord?_delimited (by decide) hw]
  cases hk : wholeWord? w ⟨passed b s', v⟩ with
  | none => rfl
  | some k =>
      have hkv : ';' ∉ k.after := by
        rcases wholeWord?_eq_some.mp hk with ⟨hv', -⟩
        exact fun h => hv (by rw [hv']; simp [h])
      exact congrArg (Option.map Cursor.after) (statementEnd?_eq k.before hkv r)

theorem recognise_importOf_eq (w : Text) (k : Cursor) :
    recognise (.importOf w) k = (importHead? k).bind fun k =>
      Cursor.lazily (· ≠ ';') (fun k => do statementEnd? (← wholeWord? w k)) k := rfl

/-- At the start of a line, an import statement of one line is read whole,
    exactly if it mentions the symbol. -/
theorem recognise_importOf {w : Text} (hw : ';' ∉ w) {b : Option Char}
    (hb : ∀ c ∈ b, c = '\n') {s : Text} (hs : ';' ∉ s) (r : Text) :
    (recognise (.importOf w) ⟨b, statement s ++ r⟩).map Cursor.after
      = if mentionsFrom w (some ' ') s then some r else none := by
  have := (wordChoice_statement hw (some ' ') hs ('\n' :: r)).lazily (p := (· ≠ ';'))
    (ne_of_not_mem hs) (by simp)
  rw [statementTail_after] at this
  rw [← this, statement_append, recognise_importOf_eq, importHead?_statement hb, Option.bind_some]

/-! ### Imports from a folder -/

/-- Two texts that agree, each cut at its first character of a class, are cut
    alike. -/
theorem cut_unique {p : Char → Bool} {s s' t t' : Text} {c c' : Char}
    (h : s ++ c :: t = s' ++ c' :: t') (hs : ∀ d ∈ s, p d = false) (hs' : ∀ d ∈ s', p d = false)
    (hc : p c = true) (hc' : p c' = true) : s = s' ∧ c = c' ∧ t = t' := by
  induction s generalizing s' with
  | nil =>
      cases s' with
      | nil => simpa using h
      | cons d s' =>
          rw [List.nil_append, List.cons_append, List.cons.injEq] at h
          rw [h.1, hs' d (by simp)] at hc
          exact absurd hc (by simp)
  | cons d s ih =>
      cases s' with
      | nil =>
          rw [List.nil_append, List.cons_append, List.cons.injEq] at h
          rw [← h.1, hs d (by simp)] at hc'
          exact absurd hc' (by simp)
      | cons d' s' =>
          rw [List.cons_append, List.cons_append, List.cons.injEq] at h
          rcases ih h.2 (fun e he => hs e (by simp [he])) (fun e he => hs' e (by simp [he]))
            with ⟨h1, h2, h3⟩
          exact ⟨by rw [h.1, h1], h2, h3⟩

theorem importSource?_eq (folder : Text) (k : Cursor) :
    importSource? folder k = if k.atWordBoundary then
      (k.literal? "from".toList).bind fun k => (k.skipSome? isBlank).bind fun k =>
        (k.one? isQuote).bind fun k => (k.literal? folder).bind fun k =>
          ((k.skipAll (!isQuote ·)).one? isQuote).bind fun k =>
            (k.literal? [';']).map statementTail
    else none := by
  unfold importSource?
  cases k.atWordBoundary with
  | false => rfl
  | true =>
      unfold guard
      simp only [if_true, bind, pure, Option.bind_some, Option.map_eq_bind]
      rfl

theorem one?_eq_some {p : Char → Bool} {b : Option Char} {t : Text} {k : Cursor} :
    (⟨b, t⟩ : Cursor).one? p = some k ↔ ∃ c, p c = true ∧ t = c :: k.after ∧ k.before = some c := by
  cases t with
  | nil => simp [one?]
  | cons c t =>
      rcases k with ⟨kb, ka⟩
      by_cases hc : p c = true
      · simp only [one?, hc, if_true, Option.some.injEq, Cursor.mk.injEq, List.cons.injEq]
        constructor
        · rintro ⟨rfl, rfl⟩
          exact ⟨c, hc, ⟨rfl, rfl⟩, rfl⟩
        · rintro ⟨d, -, ⟨rfl, rfl⟩, rfl⟩
          exact ⟨rfl, rfl⟩
      · simp only [one?, hc, Bool.false_eq_true, if_false, List.cons.injEq]
        constructor
        · intro h
          exact absurd h (by simp)
        · rintro ⟨d, hd, ⟨rfl, -⟩, -⟩
          exact absurd hd hc

/-- What a quoted source is, from its keyword to its end. -/
theorem importSource?_eq_some {folder : Text} {b : Option Char} {t : Text} {k : Cursor}
    (h : importSource? folder ⟨b, t⟩ = some k) :
    ∃ gap q body q' rest,
      t = "from".toList ++ (gap ++ q :: (folder ++ (body ++ q' :: ';' :: rest)))
        ∧ gap ≠ [] ∧ (∀ c ∈ gap, isBlank c = true) ∧ isQuote q = true
        ∧ (∀ c ∈ body, isQuote c = false) ∧ isQuote q' = true
        ∧ k = statementTail ⟨some ';', rest⟩ := by
  rw [importSource?_eq] at h
  split at h
  · rcases Option.bind_eq_some_iff.mp h with ⟨⟨b1, t1⟩, h1, h⟩
    rcases Option.bind_eq_some_iff.mp h with ⟨⟨b2, t2⟩, h2, h⟩
    rcases Option.bind_eq_some_iff.mp h with ⟨⟨b3, t3⟩, h3, h⟩
    rcases Option.bind_eq_some_iff.mp h with ⟨⟨b4, t4⟩, h4, h⟩
    rcases Option.bind_eq_some_iff.mp h with ⟨⟨b5, t5⟩, h5, h⟩
    rcases Option.map_eq_some_iff.mp h with ⟨⟨b6, t6⟩, h6, h⟩
    rcases Option.map_eq_some_iff.mp h2 with ⟨⟨b2', t2'⟩, h2', h2⟩
    rcases one?_eq_some.mp h2' with ⟨x, hx, e2, -⟩
    rcases one?_eq_some.mp h3 with ⟨q, hq, e3, -⟩
    rw [skipAll_eq] at h2 h5
    rcases one?_eq_some.mp h5 with ⟨q', hq', e5, -⟩
    have e1 := (literal?_eq_some.mp h1).1
    have e4 := (literal?_eq_some.mp h4).1
    rcases literal?_eq_some.mp h6 with ⟨e6, hb6⟩
    rw [Cursor.mk.injEq] at h2
    dsimp only at *
    -- The blanks and the body are what the two greedy steps have passed.
    refine ⟨x :: t2'.takeWhile isBlank, q, t4.takeWhile (!isQuote ·), q', t6, ?_, by simp, ?_, hq,
      ?_, hq', ?_⟩
    · have hbody : t4 = t4.takeWhile (!isQuote ·) ++ q' :: ';' :: t6 := by
        have hsplit := List.takeWhile_append_dropWhile (p := (!isQuote ·)) (l := t4)
        rw [e5, e6] at hsplit
        exact hsplit.symm
      have hgap : t2' = t2'.takeWhile isBlank ++ q :: (folder ++ t4) := by
        have hsplit := List.takeWhile_append_dropWhile (p := isBlank) (l := t2')
        rw [h2.2, e3, e4] at hsplit
        exact hsplit.symm
      rw [e1, e2, ← hbody, List.cons_append, ← hgap]
    · intro c hc
      rcases List.mem_cons.mp hc with rfl | hc
      · exact hx
      · exact List.mem_takeWhile_imp hc
    · intro c hc
      simpa using List.mem_takeWhile_imp hc
    · rw [← h, hb6]
      rfl
  · exact absurd h (by simp)

/-- A list is without members of a class, or it has a first one. -/
theorem all_or_first {α : Type} (p : α → Bool) (s : List α) :
    (∀ c ∈ s, p c = false) ∨ ∃ s₁ c s₂, s = s₁ ++ c :: s₂ ∧ (∀ d ∈ s₁, p d = false) ∧ p c = true := by
  induction s with
  | nil => exact Or.inl (by simp)
  | cons c s ih =>
      by_cases hc : p c = true
      · exact Or.inr ⟨[], c, s, rfl, by simp, hc⟩
      · have hcf : p c = false := by simpa using hc
        rcases ih with h | ⟨s₁, d, s₂, rfl, h₁, hd⟩
        · exact Or.inl (by simpa [hcf] using h)
        · exact Or.inr ⟨c :: s₁, d, s₂, rfl, by simpa [hcf] using h₁, hd⟩

theorem isQuote_of_isBlank {c : Char} (h : isBlank c = true) : isQuote c = false := by
  cases hq : isQuote c with
  | false => rfl
  | true =>
      simp only [isQuote, Bool.or_eq_true, decide_eq_true_eq] at hq
      rcases hq with rfl | rfl <;> exact absurd h (by decide)

/-- What stands between the keyword of an import and its semicolon: a name in
    braces, and a source. -/
def importBody (name source : Text) : Text :=
  "\x7b " ++ name ++ " \x7d from \"" ++ source ++ "\""

theorem importBody_append (name source r : Text) :
    importBody name source ++ r
      = ("\x7b ".toList ++ (name ++ " \x7d from ".toList)) ++ '"' :: (source ++ '"' :: r) := by
  rw [show importBody name source
    = "\x7b ".toList ++ name ++ " \x7d from \"".toList ++ source ++ "\"".toList from rfl]
  simp

/-- Whether a text can stand inside a quoted source, or as a name. -/
def Quotable (t : Text) : Prop := ∀ c ∈ t, isQuote c = false ∧ c ≠ ';'

/-- The keyword of a source stands in front of its first quote, and nowhere
    else. -/
theorem source_of_importSource? {folder name source s t r : Text} {x : Option Char} {k : Cursor}
    (hf : ∀ c ∈ folder, isQuote c = false) (hn : Quotable name) (hs : Quotable source)
    (hlast : ∀ c ∈ source.getLast?, isBlank c = false)
    (hst : importBody name source ++ ';' :: '\n' :: r = s ++ t) (hsemi : ';' ∉ s)
    (hk : importSource? folder ⟨x, t⟩ = some k) : folder <+: source ∧ k.after = r := by
  rcases importSource?_eq_some hk with ⟨gap, q, body, q', rest, rfl, hgap, hblank, hq, hbody, hq', rfl⟩
  have hhead : ∀ c ∈ "\x7b ".toList ++ (name ++ " \x7d from ".toList), isQuote c = false :=
    List.forall_mem_append.mpr
      ⟨by decide, List.forall_mem_append.mpr ⟨fun c hc => (hn c hc).1, by decide⟩⟩
  have hkey : ∀ c ∈ "from".toList ++ gap, isQuote c = false :=
    List.forall_mem_append.mpr ⟨by decide, fun c hc => isQuote_of_isBlank (hblank c hc)⟩
  rw [importBody_append] at hst
  have hsource : ∀ c ∈ source, isQuote c = false := fun c hc => (hs c hc).1
  rcases all_or_first isQuote s with hnone | ⟨s₁, c, s₂, rfl, hs₁, hc⟩
  · have hregroup : s ++ ("from".toList ++ (gap ++ q :: (folder ++ (body ++ q' :: ';' :: rest))))
        = (s ++ ("from".toList ++ gap)) ++ q :: (folder ++ (body ++ q' :: ';' :: rest)) := by
      simp only [List.append_assoc]
    rcases cut_unique (hst.trans hregroup) hhead (List.forall_mem_append.mpr ⟨hnone, hkey⟩) rfl hq with ⟨-, -, htail⟩
    rw [← List.append_assoc] at htail
    rcases cut_unique htail hsource (List.forall_mem_append.mpr ⟨hf, hbody⟩) rfl hq' with ⟨h1, -, h2⟩
    rw [List.cons.injEq] at h2
    refine ⟨⟨body, h1.symm⟩, ?_⟩
    rw [← h2.2, statementTail_after]
  · exfalso
    rw [List.append_assoc s₁, List.cons_append] at hst
    rcases cut_unique hst hhead hs₁ rfl hc with ⟨-, -, hrest⟩
    rcases all_or_first isQuote s₂ with hnone | ⟨s₃, d, s₄, rfl, hs₃, hd⟩
    · -- The keyword would stand inside the source, and the source end in a blank.
      have hregroup : s₂ ++ ("from".toList ++ (gap ++ q :: (folder ++ (body ++ q' :: ';' :: rest))))
          = (s₂ ++ ("from".toList ++ gap)) ++ q :: (folder ++ (body ++ q' :: ';' :: rest)) := by
        simp only [List.append_assoc]
      rcases cut_unique (hrest.trans hregroup) hsource (List.forall_mem_append.mpr ⟨hnone, hkey⟩) rfl hq with ⟨hend, -, -⟩
      rcases List.eq_nil_or_concat gap with rfl | ⟨g, e, rfl⟩
      · exact hgap rfl
      · have he := hlast e (by
          rw [hend, List.concat_eq_append, ← List.append_assoc, ← List.append_assoc,
            List.getLast?_concat]
          rfl)
        rw [hblank e (by simp)] at he
        exact absurd he (by simp)
    · -- The keyword would stand behind the semicolon.
      rw [List.append_assoc, List.cons_append] at hrest
      rcases cut_unique hrest hsource hs₃ rfl hd with ⟨-, -, hlate⟩
      cases s₄ with
      | nil => exact absurd hlate (by simp)
      | cons e s₄ =>
          rw [List.cons_append, List.cons.injEq] at hlate
          exact hsemi (by simp [← hlate.1])

theorem recognise_importFrom_eq (folder : Text) (k : Cursor) :
    recognise (.importFrom folder) k
      = (importHead? k).bind (Cursor.lazily (· ≠ ';') (importSource? folder)) := rfl

theorem importSource?_isSome {folder body r : Text} (hbody : ∀ c ∈ body, isQuote c = false) :
    (importSource? folder
      ⟨some ' ', "from ".toList ++ '"' :: (folder ++ (body ++ '"' :: ';' :: r))⟩).isSome = true := by
  have h1 : (⟨some ' ', "from ".toList ++ '"' :: (folder ++ (body ++ '"' :: ';' :: r))⟩ :
      Cursor).literal? "from".toList
      = some ⟨some 'm', ' ' :: '"' :: (folder ++ (body ++ '"' :: ';' :: r))⟩ :=
    literal?_append "from".toList (some ' ') (' ' :: '"' :: (folder ++ (body ++ '"' :: ';' :: r)))
  have h2 : (⟨some 'm', ' ' :: '"' :: (folder ++ (body ++ '"' :: ';' :: r))⟩ :
      Cursor).skipSome? isBlank = some ⟨some ' ', '"' :: (folder ++ (body ++ '"' :: ';' :: r))⟩ := by
    have hskip := skipAll_append isBlank (some ' ') []
      ('"' :: (folder ++ (body ++ '"' :: ';' :: r))) (by simp) (by simp; decide)
    rw [List.nil_append] at hskip
    exact congrArg some hskip
  have h3 := literal?_append folder (some '"') (body ++ '"' :: ';' :: r)
  have h4 := skipAll_append (!isQuote ·) (passed (some '"') folder) body ('"' :: ';' :: r)
    (fun c hc => by rw [hbody c hc]; rfl) (by simp; decide)
  rw [importSource?_eq, if_pos (by rfl), h1, Option.bind_some, h2, Option.bind_some]
  have hone : (⟨some ' ', '"' :: (folder ++ (body ++ '"' :: ';' :: r))⟩ : Cursor).one? isQuote
      = some ⟨some '"', folder ++ (body ++ '"' :: ';' :: r)⟩ := rfl
  rw [hone, Option.bind_some, h3, Option.bind_some, h4]
  rfl

/-- At the start of a line, an import statement of one line is read whole,
    exactly if its source starts with the given text. -/
theorem recognise_importFrom {folder name source r : Text} {b : Option Char}
    (hb : ∀ c ∈ b, c = '\n') (hf : ∀ c ∈ folder, isQuote c = false) (hn : Quotable name)
    (hs : Quotable source) (hlast : ∀ c ∈ source.getLast?, isBlank c = false) :
    (recognise (.importFrom folder) ⟨b, statement (importBody name source) ++ r⟩).map Cursor.after
      = if folder <+: source then some r else none := by
  rw [statement_append, recognise_importFrom_eq, importHead?_statement hb, Option.bind_some]
  -- Wherever the lazy step stops in front of the semicolon, it has read this source.
  have hread : ∀ k, Cursor.lazily (· ≠ ';') (importSource? folder)
      ⟨some ' ', importBody name source ++ ';' :: '\n' :: r⟩ = some k →
      folder <+: source ∧ k.after = r := by
    intro k hk
    rcases exists_of_lazyFrom hk with ⟨s, t, hst, hs', hk⟩
    refine source_of_importSource? hf hn hs hlast hst ?_ hk
    intro hmem
    have := hs' ';' hmem
    simp at this
  by_cases hpre : folder <+: source
  · rcases hpre with ⟨body, rfl⟩
    rw [if_pos ⟨body, rfl⟩]
    have hbody : ∀ c ∈ body, isQuote c = false := fun c hc => (hs c (by simp [hc])).1
    -- And the place behind the names is one where it can stop.
    have hsome : (Cursor.lazily (· ≠ ';') (importSource? folder)
        ⟨some ' ', importBody name (folder ++ body) ++ ';' :: '\n' :: r⟩).isSome = true := by
      have hsplit : importBody name (folder ++ body) ++ ';' :: '\n' :: r
          = ("\x7b ".toList ++ (name ++ " \x7d ".toList))
            ++ ("from ".toList ++ '"' :: (folder ++ (body ++ '"' :: ';' :: '\n' :: r))) := by
        rw [importBody_append]
        simp
      rw [hsplit]
      apply lazyFrom_isSome
      · refine List.forall_mem_append.mpr ⟨by decide, List.forall_mem_append.mpr ⟨?_, by decide⟩⟩
        intro c hc
        simpa using (hn c hc).2
      · have hpassed : passed (some ' ') ("\x7b ".toList ++ (name ++ " \x7d ".toList)) = some ' ' := by
          rw [passed_append, passed_append]
          rfl
        rw [hpassed]
        exact importSource?_isSome hbody
    rcases Option.isSome_iff_exists.mp hsome with ⟨k, hk⟩
    rw [hk, Option.map_some, (hread k hk).2]
  · rw [if_neg hpre, Option.map_eq_none_iff]
    cases hk : Cursor.lazily (· ≠ ';') (importSource? folder)
        ⟨some ' ', importBody name source ++ ';' :: '\n' :: r⟩ with
    | none => rfl
    | some k => exact absurd (hread k hk).1 hpre

end Pattern

end RouteScaffold

import RouteScaffold.Proofs.Edit.Statements

/-!
# What the Removal of an Import Spares

An import statement is read from its keyword to the next semicolon. Where it has one
on its own row, as all statements have that are written here, the removal of a name
goes row by row: a row that begins with a statement that mentions the name loses the
statement, and every other row stays as it is.

By hand a statement can be written without a semicolon. It is then read on to the one
of a later statement, and if the name is mentioned anywhere on the way, all rows
between are lost, whatever they import. So the removal goes row by row if, and only
if, there is no such statement.

## Main definitions

* `Pattern.Imports`: A text that begins with a statement that mentions a word.
* `Pattern.RunsOn`: A statement that mentions a word behind its own row.
* `Pattern.byRows`: What is left if each row is taken by itself.

## Theorems

* `eraseFrom_line`: The first row of a text is taken by itself.
* `length_eraseFrom_le`: What runs on takes away more.
* `remove_import_by_rows_iff`: When all rows are taken by themselves.
* `remove_import_runs_on`: A removal that takes the import of another name away.
-/

namespace RouteScaffold

open Cursor Pattern

namespace Text

/-- Induction along the lines of a text, each with its line break, if it has one. -/
theorem rowInduction {motive : Text → Prop} (nil : motive [])
    (row : ∀ u rest, '\n' ∉ u → (∀ c ∈ rest.head?, c = '\n') → motive rest.tail → motive (u ++ rest))
    (t : Text) : motive t := by
  induction t using lineInduction with
  | last u hu =>
      have := row u [] hu (by simp) nil
      rwa [List.append_nil] at this
  | line u r hu ih => exact row u ('\n' :: r) hu (by simp) ih

/-- Every text has a first line. -/
theorem exists_line (t : Text) :
    ∃ u rest, t = u ++ rest ∧ '\n' ∉ u ∧ ∀ c ∈ rest.head?, c = '\n' := by
  rcases line_or_line_append t with h | ⟨u, r, rfl, hu⟩
  · exact ⟨t, [], (List.append_nil t).symm, h, by simp⟩
  · exact ⟨u, '\n' :: r, rfl, hu, by simp⟩

variable {u v rest rest' : Text}

theorem rows_append (hu : '\n' ∉ u) (hrest : ∀ c ∈ rest.head?, c = '\n') (hne : u ++ rest ≠ []) :
    rows (u ++ rest) = (u ++ rest.take 1) :: rows rest.tail := by
  cases rest with
  | nil =>
      rw [List.append_nil] at hne
      rw [List.append_nil, rows_of_line hne hu, List.take_nil, List.append_nil]
      rfl
  | cons c r =>
      obtain rfl : c = '\n' := hrest c rfl
      exact rows_line_append hu r

/-- A text has one first line. -/
theorem line_unique (h : u ++ rest = v ++ rest') (hu : '\n' ∉ u) (hv : '\n' ∉ v)
    (hrest : ∀ c ∈ rest.head?, c = '\n') (hrest' : ∀ c ∈ rest'.head?, c = '\n') :
    u = v ∧ rest = rest' := by
  rcases run_in_stretch (p := (· ≠ '\n')) h (ne_of_not_mem hv) (by simpa using hrest)
    with ⟨x, rfl, hx⟩
  rcases run_in_stretch (p := (· ≠ '\n')) h.symm (ne_of_not_mem hu) (by simpa using hrest')
    with ⟨y, hy, rfl⟩
  rw [List.append_assoc, List.self_eq_append_right, List.append_eq_nil_iff] at hy
  rw [hy.1, hy.2]
  exact ⟨List.append_nil v, rfl⟩

end Text

namespace Recogniser

/-- Where nothing is read at the start of a line, the line stays. -/
theorem Anchored.eraseFrom_append {m : Recogniser} (hm : Anchored m) {b : Option Char} {u rest : Text}
    (hu : '\n' ∉ u) (hrest : ∀ c ∈ rest.head?, c = '\n') (h : m ⟨b, u ++ rest⟩ = none) :
    m.eraseFrom 0 b (u ++ rest) = u ++ rest.take 1 ++ m.eraseFrom 0 (some '\n') rest.tail := by
  cases rest with
  | nil =>
      rw [List.append_nil] at h
      rw [List.append_nil, hm.eraseFrom_last hu h]
      simp [eraseFrom]
  | cons c r =>
      obtain rfl : c = '\n' := hrest c rfl
      rw [hm.eraseFrom_row hu r h]
      simp

end Recogniser

namespace Pattern

open Recogniser Text

variable {w t u y rest behind row : Text} {b : Option Char}

/-! ### Statements, and where they end -/

theorem semicolon_unique {s s' : Text} (h : s ++ ';' :: t = s' ++ ';' :: u) (hs : ';' ∉ s)
    (hs' : ';' ∉ s') : s = s' ∧ t = u := by
  have hnone : ∀ {s : Text}, ';' ∉ s → ∀ d ∈ s, decide (d = ';') = false := fun hs d hd =>
    decide_eq_false (ne_of_mem_of_not_mem hd hs)
  rcases cut_unique h (hnone hs) (hnone hs') rfl rfl with ⟨hfirst, -, hlast⟩
  exact ⟨hfirst, hlast⟩

theorem exists_semicolon (h : ';' ∈ t) : ∃ s y, t = s ++ ';' :: y ∧ ';' ∉ s := by
  rcases all_or_first (· = ';') t with hnone | ⟨s, d, y, rfl, hs, hd⟩
  · exact absurd (hnone ';' h) (by simp)
  · obtain rfl : d = ';' := of_decide_eq_true hd
    exact ⟨s, y, rfl, fun hmem => absurd (hs ';' hmem) (by simp)⟩

/-- A text that begins with an import statement that mentions a word, and what is
    behind its semicolon. -/
def Imports (w t behind : Text) : Prop :=
  ∃ c body, isBlank c = true ∧ t = "import".toList ++ c :: (body ++ ';' :: behind) ∧ ';' ∉ body
    ∧ mentionsFrom w (some c) body = true

theorem not_mem_import {c : Char} (hc : isBlank c = true) {body : Text} (h : ';' ∉ body) :
    ';' ∉ "import".toList ++ c :: body := by
  rw [List.mem_append, List.mem_cons, not_or, not_or]
  refine ⟨by decide, ?_, h⟩
  rintro rfl
  exact absurd hc (by decide)

theorem Imports.semicolon (h : Imports w t behind) :
    ∃ head, t = head ++ ';' :: behind ∧ ';' ∉ head := by
  rcases h with ⟨c, body, hc, rfl, hbody, -⟩
  exact ⟨"import".toList ++ c :: body, by simp, not_mem_import hc hbody⟩

/-- A statement is read with the blanks and the line break behind it. -/
theorem Imports.recognise (hw : ';' ∉ w) (hb : ∀ c ∈ b, c = '\n') (h : Imports w t behind) :
    (recognise (.importOf w) ⟨b, t⟩).map Cursor.after
      = some (statementTail ⟨some ';', behind⟩).after := by
  rcases h with ⟨c, body, hc, rfl, hbody, hmention⟩
  have hhead : importHead? ⟨b, "import".toList ++ c :: (body ++ ';' :: behind)⟩
      = some ⟨some c, body ++ ';' :: behind⟩ := importHead?_eq_some.mpr ⟨hb, c, hc, rfl, rfl⟩
  have := (wordChoice_statement hw (some c) hbody behind).lazily (p := (· ≠ ';'))
    (ne_of_not_mem hbody) (by simp)
  rw [hmention, if_pos rfl] at this
  rw [recognise_importOf_eq, hhead, Option.bind_some, this]

/-- Nothing else is read. -/
theorem exists_imports (hw : ';' ∉ w) {k : Cursor} (h : recognise (.importOf w) ⟨b, t⟩ = some k) :
    ∃ behind, Imports w t behind := by
  rw [recognise_importOf_eq] at h
  rcases Option.bind_eq_some_iff.mp h with ⟨k₁, hhead, hread⟩
  rcases importHead?_eq_some.mp hhead with ⟨-, c, hc, ht, hbefore⟩
  -- A semicolon has been read behind the word, so there is a first one behind the keyword.
  have hsemi : ';' ∈ k₁.after := by
    rcases exists_of_lazyFrom hread with ⟨s, r, hafter, -, hnext⟩
    rcases Option.bind_eq_some_iff.mp hnext with ⟨k₂, hword, hend⟩
    rcases Option.map_eq_some_iff.mp hend with ⟨k₃, hlit, -⟩
    rw [skipAll_eq] at hlit
    have hrest : ';' ∈ k₂.after.dropWhile (· ≠ ';') := by
      rw [(literal?_eq_some.mp hlit).1]
      exact List.mem_append_left _ (List.mem_singleton_self _)
    rw [hafter, (wholeWord?_eq_some.mp hword).1]
    exact List.mem_append_right _ (List.mem_append_right _ ((List.dropWhile_suffix _).subset hrest))
  rcases exists_semicolon hsemi with ⟨body, behind, hafter, hbody⟩
  refine ⟨behind, c, body, hc, by rw [ht, hafter], hbody, ?_⟩
  have := (wordChoice_statement hw (some c) hbody behind).lazily (p := (· ≠ ';'))
    (ne_of_not_mem hbody) (by simp)
  rw [← hafter, ← hbefore, hread, hbefore] at this
  by_contra hmention
  rw [if_neg hmention] at this
  exact absurd this (by simp)

/-- The statement of a text is that of a first part of it with a semicolon. -/
theorem imports_append_iff (hsemi : ';' ∈ u) :
    Imports w (u ++ rest) behind ↔ ∃ y, behind = y ++ rest ∧ Imports w u y := by
  constructor
  · rintro ⟨c, body, hc, ht, hbody, hmention⟩
    rcases exists_semicolon hsemi with ⟨x, y, rfl, hx⟩
    have hwhole : x ++ ';' :: (y ++ rest) = ("import".toList ++ c :: body) ++ ';' :: behind := by
      rw [← List.cons_append, ← List.append_assoc, ht]
      simp
    rcases semicolon_unique hwhole hx (not_mem_import hc hbody) with ⟨rfl, rfl⟩
    exact ⟨y, rfl, c, body, hc, by simp, hbody, hmention⟩
  · rintro ⟨y, rfl, c, body, hc, rfl, hbody, hmention⟩
    exact ⟨c, body, hc, by simp, hbody, hmention⟩

/-- A text that begins with a statement that mentions a word mentions it. -/
theorem Imports.mentions (hne : w ≠ []) (hw : ';' ∉ w) (h : Imports w t behind) :
    mentions w t = true := by
  rcases h with ⟨c, body, hc, rfl, hbody, hmention⟩
  rw [List.append_cons, mentions_eq]
  apply mentionsFrom_append
  rw [passed_concat, mentionsFrom_delimited hne (by decide) hw, hmention, Bool.true_or]

/-! ### One row -/

/-- What is left of a row, where a statement ends in front of its last part. -/
def leftover (y lineEnd : Text) : Text :=
  if y.all isIndent then [] else y.dropWhile isIndent ++ lineEnd

theorem leftover_suffix (y lineEnd : Text) : leftover y lineEnd <:+ y ++ lineEnd := by
  rw [leftover]
  split
  · exact List.nil_suffix
  · exact (List.suffix_append_self_iff).mpr (List.dropWhile_suffix isIndent)

/-- What a statement ends in front of, past the blanks and the line break. -/
theorem statementTail_append (hrest : ∀ c ∈ rest.head?, c = '\n') (hy : '\n' ∉ y) :
    (statementTail ⟨some ';', y ++ rest⟩).after
      = if y.all isIndent then rest.tail else y.dropWhile isIndent ++ rest := by
  have hblank : ∀ c ∈ rest.head?, isIndent c = false := fun c hc => by
    rw [hrest c hc]
    decide
  split
  · next hall =>
      rw [statementTail, skipAll_append isIndent _ y rest (List.all_eq_true.mp hall) hblank]
      cases rest with
      | nil => rfl
      | cons c r =>
          obtain rfl : c = '\n' := hrest c rfl
          rfl
  · next hall =>
      rcases all_or_first (fun c => !isIndent c) y with hnone | ⟨s, c, v, rfl, hs, hc⟩
      -- Something that is no blank follows, so the line break is out of reach.
      · exact absurd (List.all_eq_true.mpr fun c hc => by simpa using hnone c hc) hall
      · have hs : ∀ d ∈ s, isIndent d = true := fun d hd => by simpa using hs d hd
        have hc : isIndent c = false := by simpa using hc
        have hne : c ≠ '\n' := fun h => hy (by simp [h])
        rw [statementTail, List.append_assoc, skipAll_append isIndent _ s _ hs (by simpa using hc),
          List.dropWhile_append_of_pos hs, List.dropWhile_cons_of_neg (by simp [hc]), overBreak,
          List.cons_append, literal?, if_neg (Ne.symm hne)]
        rfl

theorem passed_line {s : Text} (hs : '\n' ∉ s) : ∃ c, passed (some ';') s = some c ∧ c ≠ '\n' := by
  rcases List.eq_nil_or_concat s with rfl | ⟨s, c, rfl⟩
  · exact ⟨';', rfl, by decide⟩
  · refine ⟨c, by rw [List.concat_eq_append, passed_concat], ?_⟩
    rintro rfl
    exact hs (by simp)

/-- Erasing a statement leaves the rest of its last row, and goes on below. -/
theorem eraseFrom_imports (hw : ';' ∉ w) (hb : ∀ c ∈ b, c = '\n') (hy : '\n' ∉ y)
    (hrest : ∀ c ∈ rest.head?, c = '\n') (h : Imports w t (y ++ rest)) :
    (recognise (.importOf w)).eraseFrom 0 b t
      = leftover y (rest.take 1) ++ (recognise (.importOf w)).eraseFrom 0 (some '\n') rest.tail := by
  rcases Option.map_eq_some_iff.mp (h.recognise hw hb) with ⟨k, hk, hafter⟩
  rcases h.semicolon with ⟨head, rfl, -⟩
  rw [statementTail_append hrest hy] at hafter
  rw [leftover]
  split at hafter
  · next hall =>
      -- The statement takes its whole last row along.
      have hsplit : head ++ ';' :: (y ++ rest) = (head ++ ';' :: (y ++ rest.take 1)) ++ rest.tail := by
        cases rest <;> simp
      rw [hsplit] at hk ⊢
      rw [eraseFrom_hit _ b k _ _ (by simp) hk hafter, if_pos hall, List.nil_append]
      cases rest with
      | nil => simp [eraseFrom]
      | cons c r =>
          obtain rfl : c = '\n' := hrest c rfl
          rw [List.take_succ_cons, List.take_zero, ← List.cons_append, ← List.append_assoc,
            passed_concat]
  · next hall =>
      -- What is behind it is not at the start of a line, and stays.
      have hsplit : head ++ ';' :: (y ++ rest)
          = (head ++ ';' :: y.takeWhile isIndent) ++ (y.dropWhile isIndent ++ rest) := by
        rw [List.append_assoc, List.cons_append, ← List.append_assoc (y.takeWhile isIndent),
          List.takeWhile_append_dropWhile]
      rw [hsplit] at hk ⊢
      rcases passed_line (s := y.takeWhile isIndent)
        (fun hmem => hy ((List.takeWhile_prefix _).subset hmem)) with ⟨c, hc, hne⟩
      have hpassed : passed b (head ++ ';' :: y.takeWhile isIndent) = some c := by
        rw [passed_append]
        exact hc
      rw [eraseFrom_hit _ b k _ _ (by simp) hk hafter, if_neg hall, hpassed]
      exact (anchored_importOf w).eraseFrom_append
        (fun hmem => hy ((List.dropWhile_suffix _).subset hmem)) hrest (anchored_importOf w c _ hne)

theorem not_imports_of_not_mem (hsemi : ';' ∉ t) : ¬ Imports w t behind := fun h => by
  rcases h.semicolon with ⟨head, rfl, -⟩
  exact hsemi (by simp)

theorem unread (hw : ';' ∉ w) (h : ∀ behind, ¬ Imports w t behind) :
    recognise (.importOf w) ⟨b, t⟩ = none := by
  cases hread : recognise (.importOf w) ⟨b, t⟩ with
  | none => rfl
  | some k =>
      rcases exists_imports hw hread with ⟨behind, hbehind⟩
      exact absurd hbehind (h behind)

/-- The line break behind a row, if there is one. -/
theorem lineEnd_eq (hrest : ∀ c ∈ rest.head?, c = '\n') : rest.take 1 = [] ∨ rest.take 1 = ['\n'] := by
  cases rest with
  | nil => exact .inl rfl
  | cons c r =>
      obtain rfl : c = '\n' := hrest c rfl
      exact .inr rfl

/-- What the erasure makes of one row. -/
theorem erase_row (hw : ';' ∉ w) (hu : '\n' ∉ u) {e : Text} (he : e = [] ∨ e = ['\n']) :
    (∃ y, Imports w u y ∧ erase (.importOf w) (u ++ e) = leftover y e)
      ∨ (∀ behind, ¬ Imports w (u ++ e) behind) ∧ erase (.importOf w) (u ++ e) = u ++ e := by
  -- A row ends in one line break at most, so nothing is searched for behind it.
  have hhead : ∀ c ∈ e.head?, c = '\n' := by
    rcases he with rfl | rfl <;> simp
  have halone : ∀ s, s ++ e.take 1 ++ (recognise (.importOf w)).eraseFrom 0 (some '\n') e.tail
      = s ++ e := by
    rcases he with rfl | rfl <;> simp [eraseFrom]
  by_cases hown : ∃ y, Imports w u y
  · rcases hown with ⟨y, hy⟩
    rcases hy.semicolon with ⟨head, rfl, -⟩
    refine .inl ⟨y, hy, ?_⟩
    rw [erase, Recogniser.erase, eraseFrom_imports hw (by simp) (fun hmem => hu (by simp [hmem])) hhead
      ((imports_append_iff (by simp)).mpr ⟨y, rfl, hy⟩)]
    rcases he with rfl | rfl <;> simp [eraseFrom]
  · have hnone : ∀ behind, ¬ Imports w (u ++ e) behind := fun behind hbehind => by
      -- A statement over the row has its first semicolon in it, or none at all.
      by_cases hsemi : ';' ∈ u
      · rcases (imports_append_iff hsemi).mp hbehind with ⟨y, -, hy⟩
        exact hown ⟨y, hy⟩
      · refine not_imports_of_not_mem ?_ hbehind
        rcases he with rfl | rfl <;> simpa using hsemi
    refine .inr ⟨hnone, ?_⟩
    rw [erase, Recogniser.erase, (anchored_importOf w).eraseFrom_append hu hhead (unread hw hnone), halone]

/-- The first row of a text is taken by itself, unless a statement begins there and
    goes on below. -/
theorem eraseFrom_line (hw : ';' ∉ w) (hb : ∀ c ∈ b, c = '\n') (hu : '\n' ∉ u)
    (hrest : ∀ c ∈ rest.head?, c = '\n') (h : ';' ∈ u ∨ ∀ behind, ¬ Imports w (u ++ rest) behind) :
    (recognise (.importOf w)).eraseFrom 0 b (u ++ rest) = erase (.importOf w) (u ++ rest.take 1)
      ++ (recognise (.importOf w)).eraseFrom 0 (some '\n') rest.tail := by
  rcases erase_row hw hu (lineEnd_eq hrest) with ⟨y, hy, herase⟩ | ⟨hnone, herase⟩
  · rcases hy.semicolon with ⟨head, rfl, -⟩
    rw [herase]
    refine eraseFrom_imports hw hb (fun hmem => hu (by simp [hmem])) hrest ?_
    exact (imports_append_iff (by simp)).mpr ⟨y, rfl, hy⟩
  · rw [herase]
    refine (anchored_importOf w).eraseFrom_append hu hrest (unread hw fun behind hbehind => ?_)
    rcases h with hsemi | h
    · rcases (imports_append_iff hsemi).mp hbehind with ⟨y, -, hy⟩
      exact hnone _ ((imports_append_iff hsemi).mpr ⟨y, rfl, hy⟩)
    · exact h behind hbehind

/-! ### All rows -/

/-- What is left of a text if each of its rows is taken by itself. -/
def byRows (w t : Text) : Text := ((rows t).map (erase (.importOf w))).flatten

/-- Somewhere a statement that mentions a word begins on a row without a semicolon, and
    has its semicolon further below. -/
def RunsOn (w t : Text) : Prop :=
  ∃ row below behind, row :: below <:+ rows t ∧ ';' ∉ row ∧ Imports w (row ++ below.flatten) behind

theorem byRows_append (hu : '\n' ∉ u) (hrest : ∀ c ∈ rest.head?, c = '\n') :
    byRows w (u ++ rest) = erase (.importOf w) (u ++ rest.take 1) ++ byRows w rest.tail := by
  by_cases hne : u ++ rest = []
  · rw [List.append_eq_nil_iff] at hne
    rw [hne.1, hne.2]
    rfl
  · rw [byRows, rows_append hu hrest hne]
    rfl

theorem runsOn_append_iff (hu : '\n' ∉ u) (hrest : ∀ c ∈ rest.head?, c = '\n') :
    RunsOn w (u ++ rest) ↔ (';' ∉ u ∧ ∃ behind, Imports w (u ++ rest) behind) ∨ RunsOn w rest.tail := by
  by_cases hne : u ++ rest = []
  · rw [List.append_eq_nil_iff] at hne
    rw [hne.1, hne.2]
    refine ⟨.inr, ?_⟩
    rintro (⟨-, behind, hbehind⟩ | h)
    · exact absurd hbehind (not_imports_of_not_mem (by simp))
    · exact h
  · have hrow : ';' ∉ u ++ rest.take 1 ↔ ';' ∉ u := by
      rcases lineEnd_eq hrest with he | he <;> rw [he] <;> simp
    -- The rows put together are the text again, which is what a statement is read in.
    have hwhole : u ++ rest.take 1 ++ (rows rest.tail).flatten = u ++ rest := by
      rw [rows_flatten, ← List.drop_one, List.append_assoc, List.take_append_drop]
    rw [RunsOn, rows_append hu hrest hne]
    constructor
    · rintro ⟨row, below, behind, hsuffix, hsemi, h⟩
      rcases List.suffix_cons_iff.mp hsuffix with hfirst | hbelow
      · rcases List.cons.inj hfirst with ⟨rfl, rfl⟩
        rw [hwhole] at h
        exact .inl ⟨hrow.mp hsemi, behind, h⟩
      · exact .inr ⟨row, below, behind, hbelow, hsemi, h⟩
    · rintro (⟨hsemi, behind, h⟩ | ⟨row, below, behind, hsuffix, h⟩)
      · exact ⟨_, _, behind, List.suffix_rfl, hrow.mpr hsemi, by rwa [hwhole]⟩
      · exact ⟨row, below, behind, hsuffix.trans (List.suffix_cons _ _), h⟩

/-- Behind a first line without a semicolon, the first one of a text is further below. -/
theorem below_line {head : Text} (h : u ++ rest = head ++ ';' :: behind) (hsemi : ';' ∉ u)
    (hrest : ∀ c ∈ rest.head?, c = '\n') :
    ∃ lines, head = u ++ '\n' :: lines ∧ rest.tail = lines ++ ';' :: behind := by
  rcases List.append_eq_append_iff.mp h with ⟨a, rfl, rfl⟩ | ⟨a, rfl, ha⟩
  · cases a with
    | nil => exact absurd (hrest ';' rfl) (by decide)
    | cons c a =>
        obtain rfl : c = '\n' := hrest c rfl
        exact ⟨a, rfl, rfl⟩
  · cases a with
    | nil =>
        rw [List.nil_append] at ha
        exact absurd (hrest ';' (by rw [← ha]; rfl)) (by decide)
    | cons c a =>
        rw [(List.cons.inj ha).1] at hsemi
        exact absurd hsemi (by simp)

/-- What a row has behind its first semicolon is not taken from it. -/
theorem length_leftover_le (hw : ';' ∉ w) {head : Text} (hu : '\n' ∉ head ++ ';' :: y)
    (hhead : ';' ∉ head) {e : Text} (he : e = [] ∨ e = ['\n']) :
    (leftover y e).length ≤ (erase (.importOf w) (head ++ ';' :: y ++ e)).length := by
  rcases erase_row hw hu he with ⟨z, hz, herase⟩ | ⟨-, herase⟩
  · rcases hz.semicolon with ⟨head', hsplit, hhead'⟩
    rw [herase, (semicolon_unique hsplit hhead hhead').2]
  · have := (leftover_suffix y e).length_le
    rw [herase]
    simp only [List.length_append, List.length_cons] at this ⊢
    omega

/-- Taken by itself, the row with the first semicolon keeps what is behind it, and the
    rows above keep all that they have. -/
theorem length_byRows (hw : ';' ∉ w) {head : Text} (ht : t = head ++ ';' :: (y ++ rest))
    (hhead : ';' ∉ head) (hy : '\n' ∉ y) (hrest : ∀ c ∈ rest.head?, c = '\n') :
    (leftover y (rest.take 1)).length + (byRows w rest.tail).length
      + (if '\n' ∈ head then 1 else 0) ≤ (byRows w t).length := by
  induction t using rowInduction generalizing head with
  | nil => exact absurd ht (by simp)
  | row u rest' hu hrest' ih =>
      rw [byRows_append hu hrest', List.length_append]
      by_cases hsemi : ';' ∈ u
      · -- The semicolon is on the first row, and what is behind it is the rest of this row.
        rcases exists_semicolon hsemi with ⟨x, z, rfl, hx⟩
        rw [List.append_assoc, List.cons_append] at ht
        rcases semicolon_unique ht hx hhead with ⟨rfl, hbehind⟩
        rcases line_unique hbehind (fun hmem => hu (by simp [hmem])) hy hrest' hrest with ⟨rfl, rfl⟩
        have := length_leftover_le hw hu hx (lineEnd_eq hrest')
        rw [if_neg fun hmem => hu (by simp [hmem])]
        omega
      · -- The first row has none, so by itself it is left as it is.
        rcases below_line ht hsemi hrest' with ⟨lines, rfl, htail⟩
        have hlines : ';' ∉ lines := fun hmem => hhead (by simp [hmem])
        have hrow : erase (.importOf w) (u ++ rest'.take 1) = u ++ rest'.take 1 := by
          rcases erase_row hw hu (lineEnd_eq hrest') with ⟨z, hz, -⟩ | ⟨-, herase⟩
          · exact absurd hz (not_imports_of_not_mem hsemi)
          · exact herase
        have hbreak : (rest'.take 1).length = 1 := by
          cases rest' with
          | nil => exact absurd htail (by simp)
          | cons c r => simp
        have := ih htail hlines
        rw [if_pos (by simp), hrow, List.length_append, hbreak]
        omega

/-- A statement that goes on below its row takes more away than is taken from any row by
    itself. -/
theorem length_eraseFrom_lt (hw : ';' ∉ w) (hb : ∀ c ∈ b, c = '\n')
    (hrest : ∀ c ∈ rest.head?, c = '\n') (hsemi : ';' ∉ u) (h : Imports w (u ++ rest) behind)
    (hbelow : ∀ t, t.length < (u ++ rest).length →
      ((recognise (.importOf w)).eraseFrom 0 (some '\n') t).length ≤ (byRows w t).length) :
    ((recognise (.importOf w)).eraseFrom 0 b (u ++ rest)).length < (byRows w (u ++ rest)).length := by
  rcases exists_line behind with ⟨y, rest', rfl, hy, hrest'⟩
  rcases h.semicolon with ⟨head, hhead, hnone⟩
  rcases below_line hhead hsemi hrest with ⟨lines, rfl, -⟩
  have hshort : rest'.tail.length < (u ++ rest).length := by
    rw [hhead]
    simp
    omega
  have hle := length_byRows hw hhead hnone hy hrest'
  have := hbelow _ hshort
  rw [if_pos (by simp)] at hle
  rw [eraseFrom_imports hw hb hy hrest' h, List.length_append]
  omega

/-- An erasure leaves no more of a text than is left of its rows, taken by themselves. -/
theorem length_eraseFrom_le (hw : ';' ∉ w) (t : Text) (hb : ∀ c ∈ b, c = '\n') :
    ((recognise (.importOf w)).eraseFrom 0 b t).length ≤ (byRows w t).length := by
  induction hlength : t.length using Nat.strong_induction_on generalizing t b with
  | _ n ih =>
      have hbelow : ∀ s : Text, s.length < t.length →
          ((recognise (.importOf w)).eraseFrom 0 (some '\n') s).length ≤ (byRows w s).length :=
        fun s hs => ih s.length (hlength ▸ hs) s (by simp) rfl
      rcases exists_line t with ⟨u, rest, rfl, hu, hrest⟩
      -- A statement that runs on skips whole rows, so the induction is on the length of the text.
      by_cases hover : ';' ∉ u ∧ ∃ behind, Imports w (u ++ rest) behind
      · rcases hover with ⟨hsemi, behind, h⟩
        exact Nat.le_of_lt (length_eraseFrom_lt hw hb hrest hsemi h hbelow)
      · rw [not_and_or, not_not, not_exists] at hover
        rw [eraseFrom_line hw hb hu hrest hover, byRows_append hu hrest, List.length_append,
          List.length_append]
        have : ((recognise (.importOf w)).eraseFrom 0 (some '\n') rest.tail).length
            ≤ (byRows w rest.tail).length := by
          cases rest with
          | nil => simp [eraseFrom]
          | cons c r => exact hbelow _ (by simp; omega)
        omega

/-- The erasure of imports goes row by row, unless a statement runs on. -/
theorem eraseFrom_eq_byRows_iff (hw : ';' ∉ w) (t : Text) (hb : ∀ c ∈ b, c = '\n') :
    (recognise (.importOf w)).eraseFrom 0 b t = byRows w t ↔ ¬ RunsOn w t := by
  induction t using rowInduction generalizing b with
  | nil =>
      refine iff_of_true rfl ?_
      rintro ⟨row, below, behind, hsuffix, -⟩
      exact absurd (List.suffix_nil.mp hsuffix) (by simp)
  | row u rest hu hrest ih =>
      rw [runsOn_append_iff hu hrest, not_or]
      by_cases hover : ';' ∉ u ∧ ∃ behind, Imports w (u ++ rest) behind
      · -- The statement runs on from here, and what is left is too short for all rows.
        refine iff_of_false (fun heq => ?_) fun h => h.1 hover
        rcases hover with ⟨hsemi, behind, h⟩
        have := length_eraseFrom_lt hw hb hrest hsemi h fun t _ => length_eraseFrom_le hw t (by simp)
        rw [heq] at this
        exact absurd this (Nat.lt_irrefl _)
      · have hline := eraseFrom_line hw hb hu hrest (by rwa [not_and_or, not_not, not_exists] at hover)
        rw [hline, byRows_append hu hrest, List.append_cancel_left_eq, ih (by simp)]
        exact (and_iff_right hover).symm

/-- A row is a line with its line break, or the last line. -/
theorem line_of_rows {below : List Text} (h : row :: below <:+ rows t) :
    ∃ u e, row = u ++ e ∧ '\n' ∉ u ∧ ((e = [] ∧ below = []) ∨ e = ['\n']) := by
  induction t using rowInduction with
  | nil => exact absurd (List.suffix_nil.mp h) (by simp)
  | row u rest hu hrest ih =>
      by_cases hne : u ++ rest = []
      · rw [hne] at h
        exact absurd (List.suffix_nil.mp h) (by simp)
      · rw [rows_append hu hrest hne] at h
        rcases List.suffix_cons_iff.mp h with hfirst | hbelow
        · rcases List.cons.inj hfirst with ⟨rfl, rfl⟩
          refine ⟨u, rest.take 1, rfl, hu, ?_⟩
          cases rest with
          | nil => exact .inl ⟨rfl, rfl⟩
          | cons c r =>
              obtain rfl : c = '\n' := hrest c rfl
              exact .inr rfl
        · exact ih hbelow

/-- Nothing runs on if every row that begins with an import has a semicolon. -/
theorem not_runsOn_of_semicolons (h : ∀ row ∈ rows t, "import".toList <+: row → ';' ∈ row) :
    ¬ RunsOn w t := by
  rintro ⟨row, below, behind, hsuffix, hsemi, c, body, hc, hwhole, -⟩
  refine hsemi (h row (hsuffix.subset List.mem_cons_self) ?_)
  rcases line_of_rows hsuffix with ⟨u, e, rfl, -, ⟨rfl, rfl⟩ | rfl⟩
  · rw [List.flatten_nil, List.append_nil] at hwhole
    exact ⟨_, hwhole.symm⟩
  · -- The keyword has no line break, so it ends in front of that of the row.
    rw [List.append_assoc] at hwhole
    rcases run_in_stretch (p := (· ≠ '\n')) hwhole (by decide) (by simp) with ⟨v, rfl, -⟩
    exact ⟨v ++ ['\n'], (List.append_assoc _ _ _).symm⟩

/-- A row is left as it is, or it begins with a statement that mentions the word, and
    what is left of it stands behind the statement. -/
theorem erase_row_of_mem (hne : w ≠ []) (hw : ';' ∉ w) (h : row ∈ rows t) :
    (erase (.importOf w) row = row ∧ ∀ behind, ¬ Imports w row behind)
      ∨ ("import".toList <+: row ∧ mentions w row = true
        ∧ ∃ behind, Imports w row behind ∧ erase (.importOf w) row <:+ behind) := by
  rcases List.append_of_mem h with ⟨above, below, hsplit⟩
  rcases line_of_rows ⟨above, hsplit.symm⟩ with ⟨u, e, rfl, hu, he⟩
  rcases erase_row hw hu (he.imp And.left id) with ⟨y, hy, herase⟩ | ⟨hnone, herase⟩
  · right
    rcases hy.semicolon with ⟨head, rfl, -⟩
    have hin : Imports w (head ++ ';' :: y ++ e) (y ++ e) := (imports_append_iff (by simp)).mpr ⟨y, rfl, hy⟩
    refine ⟨?_, hin.mentions hne hw, y ++ e, hin, herase ▸ leftover_suffix y e⟩
    rcases hin with ⟨c, body, -, hsplit, -⟩
    exact ⟨_, hsplit.symm⟩
  · exact .inl ⟨herase, hnone⟩

end Pattern

namespace Edit

open Pattern Text

/-- The removal of an import takes each row by itself if and only if no statement that
    mentions the name goes on below its row. By itself a row is left as it is, unless it
    begins with an import and mentions the name, and then it loses its statement. -/
theorem remove_import_by_rows_iff {w : Text} (hne : w ≠ []) (hword : ∀ c ∈ w, isWord c = true)
    (file t : Text) :
    ((Edit.erase (.importOf w)).apply file t = .ok (byRows w t) ↔ ¬ RunsOn w t)
      ∧ ∀ row ∈ rows t, (Pattern.erase (.importOf w) row = row ∧ ∀ behind, ¬ Imports w row behind)
        ∨ ("import".toList <+: row ∧ mentions w row = true
          ∧ ∃ behind, Imports w row behind ∧ Pattern.erase (.importOf w) row <:+ behind) := by
  have hw : ';' ∉ w := fun hmem => absurd (hword ';' hmem) (by decide)
  refine ⟨?_, fun row hrow => erase_row_of_mem hne hw hrow⟩
  rw [← eraseFrom_eq_byRows_iff (b := none) hw t (by simp)]
  exact ⟨Except.ok.inj, congrArg Except.ok⟩

/-- Two imports, each with its semicolon. -/
def ended : Text := "import \x7b A \x7d from \"a\";\nimport \x7b B \x7d from \"b\";\nB;\n"

theorem remove_import_by_rows_ended : (Edit.erase (.importOf "B")).apply "index.ts".toList ended
    = .ok "import \x7b A \x7d from \"a\";\nB;\n" ∧ ¬ RunsOn "B".toList ended := by
  have h := remove_import_by_rows_iff (w := "B".toList) (by decide) (by decide) "index.ts".toList ended
  have hclosed : ¬ RunsOn "B".toList ended := not_runsOn_of_semicolons (by decide)
  exact ⟨(h.1.mpr hclosed).trans (congrArg Except.ok (by decide)), hclosed⟩

/-- Two imports, the first without a semicolon. -/
def unended : Text := "import \x7b A \x7d from \"a\"\nimport \x7b B \x7d from \"b\";\n"

/-- A removal that takes the import of another name away. -/
theorem remove_import_runs_on : rows unended
      = ["import \x7b A \x7d from \"a\"\n".toList, "import \x7b B \x7d from \"b\";\n".toList]
    ∧ mentions "B" "import \x7b A \x7d from \"a\"\n" = false
    ∧ (Edit.erase (.importOf "B")).apply "index.ts".toList unended = .ok [] :=
  ⟨by decide, by decide, congrArg Except.ok (by decide)⟩

end Edit

end RouteScaffold

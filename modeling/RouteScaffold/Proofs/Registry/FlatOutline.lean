import RouteScaffold.Proofs.Edit.Leading
import RouteScaffold.Proofs.Project.Places
import RouteScaffold.Proofs.Registry.FlatRoundTrip

/-!
# The Outline of a Flat Registry

A registry of the flat dialect is lines above the head of its array, the head, and
lines below it. Adding a module puts one line on top of each of the two groups, and
removing one keeps those lines of each that do not mention its variable. The head
itself stays, since it mentions no variable of a module: its own words end in other
letters.

There is one exception. A role may be named with a line break at its end, and then
the head takes up two lines, the first of which ends with the name as a word of its
own. Such a role may be named like the variable of a module.

## Main definitions

* `Flat.head`: The head of a role's array.
* `Flat.Outline`: A registry as its lines.
* `Flat.Outline.add`, `Flat.Outline.remove`: What revisions make of it.

## Theorems

* `Outline.Sound.locate`: The head is where it is looked for.
* `Outline.Sound.leads_add`, `Outline.Sound.leads_remove`: The revisions do what is
  said of them.
* `mentions_head`: The head mentions no variable of a module.
-/

namespace RouteScaffold

open Naming Text Recogniser Pattern Cursor

/-- Texts that can be in a file with either ending hold no carriage return. -/
theorem Edit.LeadsIn.leads {file t v : Text} {es : List Edit} (h : Edit.LeadsIn .crlf file es t v) :
    Edit.Leads file es t v := by
  induction h with
  | nil => exact .nil
  | cons _ happly hfits _ ih => exact .cons happly hfits.1 ih

/-- The head of an array ends in one place: behind the first equals sign and the first
    bracket after it. -/
theorem Pattern.ArrayHead.rest_unique {symbol t rest rest' : Text} (h : ArrayHead symbol t rest)
    (hequals : '=' ∉ symbol) (h' : ArrayHead symbol t rest') : rest = rest' := by
  -- The head goes to the first equals sign, and from there to the first bracket.
  have hcut : ∀ {s : Text}, ArrayHead symbol t s → (t.dropWhile (· ≠ '=')).tail.dropWhile isBlank = '[' :: s := by
    rintro s ⟨gap, gap', typed, gap'', rfl, -, hgap, -, hgap', htyped, hgap'', -⟩
    have hblank : ∀ {l : Text}, (∀ c ∈ l, isBlank c = true) → ∀ c ∈ l, decide (c ≠ '=') = true := by
      intro l hl c hc
      rw [decide_eq_true_eq]
      rintro rfl
      exact absurd (hl _ hc) (by decide)
    rw [List.dropWhile_append_of_pos (by decide), List.dropWhile_append_of_pos (hblank hgap),
      List.dropWhile_append_of_pos (by decide), List.dropWhile_append_of_pos (hblank hgap'),
      List.dropWhile_append_of_pos (ne_of_not_mem hequals),
      List.dropWhile_append_of_pos fun c hc => by simpa using (htyped c hc).1,
      List.dropWhile_cons_of_neg (by simp), List.tail_cons, List.dropWhile_append_of_pos hgap'',
      List.dropWhile_cons_of_neg (by decide)]
  exact (List.cons.inj ((hcut h).symm.trans (hcut h'))).2

namespace Flat

/-! ### The head -/

/-- The head of a role's array, up to its opening bracket. -/
def head (role : Text) : Text := "export const " ++ registrySymbol role ++ ": RouteObject[] = ["

theorem head_parts (role : Text) : head role
    = "export const ".toList ++ ((role ++ "Routes".toList) ++ ": RouteObject[] = [".toList) := by
  rw [← List.append_assoc]
  rfl

theorem head_eq (role : Text) : head role = "export".toList ++ ' ' :: ("const".toList
    ++ ' ' :: ((role ++ "Routes".toList) ++ ':' :: " RouteObject[] = [".toList)) := by
  rw [head_parts]
  generalize role ++ "Routes".toList = symbol
  simp

theorem isWord_of_role {role : Text} (h : isRoleName role = true) {c : Char} (hc : c ∈ role)
    (hbreak : c ≠ '\n') : isWord c = true := by
  rw [isWord, Bool.or_eq_true, Bool.or_eq_true, decide_eq_true_eq]
  left
  by_contra hno
  rw [not_or, Bool.not_eq_true] at hno
  exact Naming.not_mem_role h hno.1 hno.2 hbreak hc

/-- A character that is in none of the fixed parts of the head, and in no word, is not
    in the head. -/
theorem not_mem_head {role : Text} (h : isRoleName role = true) {c : Char} (hword : isWord c = false)
    (hfixed : c ∉ "export const\nRoutes: RouteObject[] = [".toList) : c ∉ head role := by
  have hbreak : c ≠ '\n' := by
    rintro rfl
    exact hfixed (by decide)
  have hrole : c ∉ role := fun hmem => by
    rw [isWord_of_role h hmem hbreak] at hword
    exact absurd hword (by simp)
  have hparts : c ∉ "export const ".toList ∧ c ∉ "Routes".toList ∧ c ∉ ": RouteObject[] = [".toList := by
    have hall : ∀ l ∈ ["export const ".toList, "Routes".toList, ": RouteObject[] = [".toList],
        ∀ c ∈ l, c ∈ "export const\nRoutes: RouteObject[] = [".toList := by decide
    exact ⟨fun hc => hfixed (hall _ (by simp) c hc), fun hc => hfixed (hall _ (by simp) c hc),
      fun hc => hfixed (hall _ (by simp) c hc)⟩
  rw [head_parts, List.mem_append, List.mem_append, List.mem_append, not_or, not_or, not_or]
  exact ⟨hparts.1, ⟨hrole, hparts.2.1⟩, hparts.2.2⟩

/-- The words of the head. Those that a role makes up are one, or two if its name ends
    in a line break. -/
theorem mem_tokens_head {role w : Text} (h : isRoleName role = true) (hw : w ∈ tokens (head role)) :
    w ∈ ["export".toList, "const".toList, "Routes".toList, "RouteObject".toList]
      ∨ w = role ++ "Routes".toList ∨ role = w ++ ['\n'] := by
  rw [head_eq, tokens, words_append_sep (by decide), words_append_sep (by decide),
    words_append_sep (by decide), List.mem_append, List.mem_append, List.mem_append] at hw
  rcases hw with hw | hw | hw | hw
  · rw [words_of_run (by decide) (by decide), List.mem_singleton] at hw
    exact Or.inl (by simp [hw])
  · rw [words_of_run (by decide) (by decide), List.mem_singleton] at hw
    exact Or.inl (by simp [hw])
  · -- The name of the role, without a line break at its end or with one.
    rcases Marker.role_cases h with ⟨base, hbase, hrole⟩
    have hbreak : ∀ c ∈ base, c ≠ '\n' := by
      rintro c hc rfl
      exact absurd (hbase _ hc) (by decide)
    have hmem : ∀ c ∈ base, c ∈ role := fun c hc => by
      rcases hrole with hrole | hrole <;> rw [hrole] <;> simp [hc]
    have hword : ∀ c ∈ base, (!isWord c) = false := fun c hc => by
      rw [isWord_of_role h (hmem c hc) (hbreak c hc)]
      rfl
    rcases hrole with rfl | rfl
    · rw [words_of_run (by simp) (List.forall_mem_append.mpr ⟨hword, by decide⟩), List.mem_singleton] at hw
      exact Or.inr (Or.inl hw)
    · have hne : base ≠ [] := by
        rintro rfl
        exact absurd h (by decide)
      rw [List.append_assoc, show ['\n'] ++ "Routes".toList = '\n' :: "Routes".toList from rfl,
        words_append_sep (by decide), words_of_run hne hword, words_of_run (by decide) (by decide)] at hw
      rcases List.mem_append.mp hw with hw | hw
      · rw [List.mem_singleton] at hw
        exact Or.inr (Or.inr (by rw [hw]))
      · rw [List.mem_singleton] at hw
        exact Or.inl (by simp [hw])
  · rw [show words (fun c => !isWord c) " RouteObject[] = [".toList = ["RouteObject".toList] by decide,
      List.mem_singleton] at hw
    exact Or.inl (by simp [hw])

/-- The head mentions no variable of a module, unless the role is named like one,
    with a line break. -/
theorem mentions_head {role : Text} (h : isRoleName role = true) {m : ModuleRef} (hm : m.Accepted)
    (hne : role ≠ m.routeSymbol ++ ['\n']) : mentions m.routeSymbol (head role) = false := by
  rw [Bool.eq_false_iff]
  intro hmentions
  have hlast : m.routeSymbol.getLast? = some 'e' := by
    rw [ModuleRef.routeSymbol, List.getLast?_append]
    rfl
  -- The words of the head are known, so the variable could only be one of them.
  by_cases hword : ∀ c ∈ m.routeSymbol, isWord c = true
  · rw [mentions_iff_mem_tokens (Routed.routeSymbol_ne m) hword] at hmentions
    rcases mem_tokens_head h hmentions with hfixed | hnamed | hbroken
    · revert hlast
      generalize m.routeSymbol = w at hfixed ⊢
      revert w
      decide
    · rw [hnamed, List.getLast?_append] at hlast
      exact absurd (show some 's' = some 'e' from hlast) (by decide)
    · exact hne hbroken
  · -- A variable with another character is not even part of the head.
    simp only [not_forall, Bool.not_eq_true] at hword
    rcases hword with ⟨c, hc, hcword⟩
    rw [mentions_eq, mentionsFrom_iff] at hmentions
    rcases hmentions with ⟨s, r, hsplit, -⟩
    refine not_mem_head h hcword (fun hfixed => ?_) (by rw [hsplit]; simp [hc])
    have htame := Routed.tame_routeSymbol hm c hc
    rw [isTame, hcword, Bool.false_or, Bool.or_eq_true, decide_eq_true_eq, decide_eq_true_eq] at htame
    rcases htame with rfl | rfl <;> exact absurd hfixed (by decide)

/-- The head is read up to its bracket. -/
theorem recognise_head {role : Text} (h : isRoleName role = true) (b : Option Char) (r : Text) :
    ∃ k, recognise (.arrayHead (registrySymbol role)) ⟨b, head role ++ r⟩ = some k ∧ k.after = r := by
  have hsymbol : registrySymbol role ≠ [] := by simp [registrySymbol]
  have hequals : '=' ∉ registrySymbol role := by
    rw [registrySymbol, List.mem_append, not_or]
    exact ⟨Naming.not_mem_role h (by decide) (by decide) (by decide), by decide⟩
  have hhead : ArrayHead (registrySymbol role) (head role ++ r) r := by
    refine ⟨[' '], [' '], ": RouteObject[] ".toList, [' '], ?_, by simp, by decide, by simp, by decide,
      by decide, by decide, ?_⟩
    · rw [head_parts]
      simp [registrySymbol]
    · rw [registrySymbol, Cursor.passed_append]
      rfl
  rcases Option.isSome_iff_exists.mp (hhead.isSome hsymbol b) with ⟨k, hk⟩
  refine ⟨k, hk, ?_⟩
  exact (arrayHead_of_recognise hsymbol hk).rest_unique hequals hhead

/-! ### Lines -/

/-- Lines, each with its break. -/
def rowsOf (lines : List Text) : Text := lines.flatMap (· ++ ['\n'])

theorem rowsOf_cons (u : Text) (lines : List Text) : rowsOf (u :: lines) = u ++ '\n' :: rowsOf lines := by
  simp [rowsOf]

/-- An erasure keeps the lines that do not mention the word. -/
theorem erase_rowsOf {w : Text} (hne : w ≠ []) (hw : '\n' ∉ w) {lines : List Text}
    (hlines : ∀ u ∈ lines, '\n' ∉ u) (t : Text) : erase (.lineWith w) (rowsOf lines ++ t)
      = rowsOf (lines.filter (!mentions w ·)) ++ erase (.lineWith w) t := by
  induction lines with
  | nil => rfl
  | cons u lines ih =>
      -- Whether a line is dropped does not depend on the others.
      have hrest := ih fun v hv => hlines v (by simp [hv])
      rw [rowsOf_cons, List.append_assoc, List.cons_append, List.filter_cons]
      cases hmentions : mentions w u with
      | true =>
          rw [erase_lineWith_line hne hw (hlines u (by simp)) hmentions, hrest]
          rfl
      | false =>
          have hunused : mentions w (u ++ ['\n']) = false := by
            rw [mentions_break hne hw, hmentions, mentions_eq, mentionsFrom_nil hne]
            rfl
          rw [erase_lineWith_append hne hw, erase_lineWith_unused hne hw hunused, hrest]
          simp [rowsOf_cons]

end Flat

/-- A registry of the flat dialect as its lines: those above the head of its array and
    those below it. -/
structure Flat.Outline where
  role : Text
  above : List Text
  below : List Text
  deriving DecidableEq, Repr

namespace Flat

namespace Outline

def text (o : Outline) : Text := rowsOf o.above ++ (head o.role ++ '\n' :: rowsOf o.below)

/-- The registry of a new role. -/
def empty (role : Text) : Outline :=
  ⟨role, ["import type \x7b RouteObject \x7d from \"react-router-dom\";".toList, []], ["];".toList]⟩

/-- The registry with a module on top of its imports and of its array. -/
def add (o : Outline) (m : ModuleRef) : Outline :=
  ⟨o.role, Snippet.importLine m.routeSymbol (Registry.routeSource m.segment) :: o.above,
    ("  " ++ Snippet.moduleEntry m.routeSymbol) :: o.below⟩

/-- The registry without the lines that mention a word. -/
def remove (o : Outline) (w : Text) : Outline :=
  ⟨o.role, o.above.filter (!mentions w ·), o.below.filter (!mentions w ·)⟩

/-- The head of the array. -/
def occurrence (o : Outline) : Occurrence := ⟨rowsOf o.above, head o.role, '\n' :: rowsOf o.below⟩

end Outline

/-- Characters that no line of a registry has: a line has no break of its own, and no
    comment like those of the other dialect. -/
def Plain (u : Text) : Prop := '\n' ∉ u ∧ '\r' ∉ u ∧ '*' ∉ u

/-- The lines of a registry are plain, and no head begins above that of its array. -/
structure Outline.Sound (o : Outline) : Prop where
  role : isRoleName o.role = true
  above : ∀ u ∈ o.above, Plain u ∧ Passes (recognise (.arrayHead (registrySymbol o.role))) (u ++ ['\n'])
  below : ∀ u ∈ o.below, Plain u

variable {o : Outline} {m : ModuleRef} {r : Registry}

theorem roleFiles_flat (role : Text) :
    Project.roleFiles role .flat = [("routes/route.tsx".toList, (Outline.empty role).text)] := by
  have htext : (Outline.empty role).text
      = "import type \x7b RouteObject \x7d from \"react-router-dom\";\n\nexport const ".toList
        ++ (registrySymbol role ++ (": RouteObject[] = [\n];\n".toList ++ [])) := by
    rw [Outline.text, Outline.empty, head_parts]
    simp [rowsOf, registrySymbol]
  rw [htext]
  rfl

theorem not_mem_rowsOf {c : Char} (hc : c ≠ '\n') {lines : List Text} (h : ∀ u ∈ lines, c ∉ u) :
    c ∉ rowsOf lines := by
  intro hmem
  rcases List.mem_flatMap.mp hmem with ⟨u, hu, hmem⟩
  rcases List.mem_append.mp hmem with hmem | hmem
  · exact h u hu hmem
  · exact hc (List.mem_singleton.mp hmem)

theorem Outline.Sound.not_mem (h : o.Sound) {c : Char} (hc : c = '\r' ∨ c = '*') : c ∉ o.text := by
  have hplain : ∀ u, Plain u → c ∉ u := fun u hu => by
    rcases hc with rfl | rfl
    · exact hu.2.1
    · exact hu.2.2
  have hbreak : c ≠ '\n' := by rcases hc with rfl | rfl <;> decide
  rw [text, List.mem_append, List.mem_append, List.mem_cons, not_or, not_or, not_or]
  refine ⟨not_mem_rowsOf hbreak fun u hu => hplain u (h.above u hu).1, ?_, hbreak,
    not_mem_rowsOf hbreak fun u hu => hplain u (h.below u hu)⟩
  rcases hc with rfl | rfl <;> exact not_mem_head h.role (by decide) (by decide)

/-- The head is where it is looked for. -/
theorem Outline.Sound.locate (h : o.Sound) :
    (Anchor.arrayHead (registrySymbol o.role)).locate? o.text = some o.occurrence := by
  have hpasses : Passes (recognise (.arrayHead (registrySymbol o.role))) (rowsOf o.above) :=
    passes_flatMap fun u hu => (h.above u hu).2
  rcases recognise_head h.role (passed none (rowsOf o.above)) ('\n' :: rowsOf o.below) with ⟨k, hk, hafter⟩
  exact find?_of_quiet _ _ _ _ k (hpasses none _) hk hafter

/-- What a new registry has above its head: no head begins there. -/
theorem passes_of_no_export {symbol u : Text} (h : ¬ "export".toList <:+: u) :
    Passes (recognise (.arrayHead symbol)) (u ++ ['\n']) := by
  intro b t
  have hquiet := passes_literal_delimited (d := '\n') (by decide) (by decide) h b t
  rw [quiet_iff] at hquiet ⊢
  intro s c v hs
  have hnone := hquiet s c v hs
  rw [recognise_arrayHead_eq]
  rw [recognise] at hnone
  rw [hnone]
  rfl

theorem sound_empty {role : Text} (h : isRoleName role = true) : (Outline.empty role).Sound := by
  refine ⟨h, fun u hu => ?_, fun u hu => ?_⟩
  · simp only [Outline.empty, List.mem_cons, List.not_mem_nil, or_false] at hu
    rcases hu with rfl | rfl
    · exact ⟨⟨by decide, by decide, by decide⟩, passes_of_no_export (by decide)⟩
    · exact ⟨⟨by decide, by decide, by decide⟩, passes_of_no_export (by decide)⟩
  · rw [List.mem_singleton.mp hu]
    exact ⟨by decide, by decide, by decide⟩

theorem sound_remove (h : o.Sound) (w : Text) : (o.remove w).Sound :=
  ⟨h.role, fun u hu => h.above u (List.mem_of_mem_filter hu), fun u hu => h.below u (List.mem_of_mem_filter hu)⟩

/-- No head begins in the import of a module. -/
theorem passes_import (hm : (Routed.module m).Built) :
    Passes (recognise (.arrayHead (registrySymbol m.role))) ((Routed.module m).importText .flat ++ ['\n']) := by
  intro b t
  have hquiet := (Routed.isHead (.module m)).quiet_line (fun p hp => by
    rw [← Routed.importText_eq .flat (.module m)]
    exact hm.no_head hp) b t
  rw [Routed.importText_eq, List.append_assoc]
  exact hquiet

theorem sound_add (h : o.Sound) (hm : m.Accepted) (hrole : m.role = o.role) : (o.add m).Sound := by
  have hbuilt : (Routed.module m).Built := ⟨hrole ▸ h.role, hm⟩
  -- Neither line has a break, a return, or a bracket.
  have himport : ∀ c, isTame c = false → c ∉ "import \x7b \x7d from \"./;".toList →
      c ∉ (Routed.module m).importText .flat := fun c => hbuilt.not_mem_import
  have hentry : ∀ c, isTame c = false → c ∉ "\x7b path: \", element: < /> \x7d".toList →
      c ∉ "  ".toList ++ (Routed.module m).entryText .flat := fun c htame hc => by
    rw [List.mem_append, not_or]
    refine ⟨fun hmem => hc ?_, hbuilt.not_mem_entry htame hc⟩
    rw [show c = ' ' by simpa using hmem]
    decide
  refine ⟨h.role, List.forall_mem_cons.mpr ⟨⟨⟨himport _ (by decide) (by decide), himport _ (by decide)
      (by decide), himport _ (by decide) (by decide)⟩, ?_⟩, h.above⟩, List.forall_mem_cons.mpr
    ⟨⟨hentry _ (by decide) (by decide), hentry _ (by decide) (by decide), hentry _ (by decide) (by decide)⟩,
      h.below⟩⟩
  have := passes_import hbuilt
  rw [hrole] at this
  exact this

theorem text_add (o : Outline) (m : ModuleRef) :
    (Routed.module m).withEntryBehind o.occurrence = (o.add m).text := by
  have hindent : lastIndent ((Routed.module m).importAbove (rowsOf o.above)) = [] := by
    refine Routed.lastIndent_line fun c hc => ?_
    rw [Routed.importAbove, ← rowsOf_cons] at hc
    rcases List.eq_nil_or_concat ((Routed.module m).importText .flat :: o.above) with hnil | ⟨us, u, hus⟩
    · exact absurd hnil (by simp)
    · rw [hus, List.concat_eq_append, rowsOf, List.flatMap_append] at hc
      simpa [eq_comm] using hc
  rw [Routed.withEntryBehind, Routed.entryIndent, Outline.occurrence, hindent]
  simp [Routed.importAbove, Outline.text, Outline.add, rowsOf_cons, Routed.importText, Routed.importIn,
    Routed.entryText]

/-- Adding a module. -/
theorem Outline.Sound.leads_add (h : o.Sound) (hr : r.dialect = .flat) (hm : m.Accepted)
    (hrole : m.role = o.role) (hadmits : (r.moduleGuard m).admits o.text = .ok ()) (file : Text) :
    Edit.Leads file (r.addModule m).edits o.text (o.add m).text := by
  have hbuilt : Routed.Built (.module m) := ⟨hrole ▸ h.role, hm⟩
  have hfits : o.text.Fits .crlf := ⟨h.not_mem (Or.inl rfl), by simp [Outline.text]⟩
  have hlocate := h.locate
  rw [← hrole] at hlocate
  have hleads := (hbuilt.leadsIn_flat_add hr hadmits hfits hlocate file).2
  rw [text_add] at hleads
  exact hleads.leads

theorem text_remove (h : o.Sound) {w : Text} (hne : w ≠ []) (hw : '\n' ∉ w)
    (hhead : mentions w (head o.role) = false) : erase (.lineWith w) o.text = (o.remove w).text := by
  have hunused : mentions w (head o.role ++ ['\n']) = false := by
    rw [mentions_break hne hw, hhead, mentions_eq, mentionsFrom_nil hne]
    rfl
  have hrows := erase_rowsOf hne hw (fun u hu => (h.below u hu).1) []
  rw [List.append_nil, show erase (.lineWith w) [] = [] from rfl, List.append_nil] at hrows
  rw [Outline.text, erase_rowsOf hne hw fun u hu => (h.above u hu).1.1, erase_lineWith_append hne hw,
    erase_lineWith_unused hne hw hunused, hrows]
  simp [Outline.text, Outline.remove]

/-- Removing a module. -/
theorem Outline.Sound.leads_remove (h : o.Sound) (hr : r.dialect = .flat) (hm : m.Accepted)
    (hrole : o.role ≠ m.routeSymbol ++ ['\n']) (file : Text) :
    Edit.Leads file (r.removeModule m).edits o.text (o.remove m.routeSymbol).text := by
  have hbreak : '\n' ∉ m.routeSymbol := not_mem_of_tame (Routed.tame_routeSymbol hm) (by decide)
  rw [Registry.removeModule, hr]
  refine .cons ?_ ((sound_remove h _).not_mem (Or.inl rfl)) .nil
  rw [Edit.apply, text_remove h (Routed.routeSymbol_ne m) hbreak (mentions_head h.role hm hrole)]

/-- A registry of the flat dialect shows it. -/
theorem Outline.Sound.inferred (h : o.Sound) : Descriptor.inferred? o.role o.text = some .flat := by
  have hcomment : occurs rootSentinel o.text = false := by
    rw [Bool.eq_false_iff]
    intro hoccurs
    exact h.not_mem (Or.inr rfl) (((occurs_iff_part _ _).mp hoccurs).subset (by decide))
  have hhead : (Pattern.arrayHead (registrySymbol o.role)).occursIn o.text = true := by
    have := h.locate
    rw [Anchor.locate?] at this
    rw [occursIn, show find? (recognise (.arrayHead (registrySymbol o.role))) o.text = _ from this]
    rfl
  rw [Descriptor.inferred?, hcomment, if_neg (by simp), if_pos hhead]

end Flat

end RouteScaffold

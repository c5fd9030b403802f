import RouteScaffold.Proofs.Edit.Heads
import RouteScaffold.Proofs.Marker.Revisions
import RouteScaffold.Proofs.Project.Commands

/-!
# Adding What a Guard Has Let Pass

A guard looks at a file once; the revision behind it makes two insertions, the
second into what the first has left. What the guard has seen has to last until
then. Three things could come between. The anchor of the entry could be torn
apart by the import, which is put in front of an anchor of its own. The lines of
the entry could stand in the file already, the import having brought in the name
that the guard missed. And the import could be torn apart in turn, if the anchor
of the entry were found within it.

None of them happens, whatever the file holds besides. The import of a name has
neither an angle bracket nor an opening bracket nor the start of a comment, so
it neither is a line of an entry nor holds an anchor of one; and no anchor of an
entry has the letter at which the anchor of the imports begins.

## Main definitions

* `Registry.guard`, `Registry.add`: The guard and the revision of a module or a
  page.
* `Routed.Built`: What commands build of raw names.

## Theorems

* `add_eq`, `guard_eq`: An import and an entry, in either dialect.
* `insertsAll_add`: A text that the guard lets pass takes both insertions.
* `on_add_of_guard`: What adding does to a file that the guard has let pass.
-/

namespace RouteScaffold

open Naming Text Cursor

/-! ### Imports and entries -/

namespace Routed

/-- What commands build of raw names: a role that follows the convention, and a
    segment and a name that belong together. -/
def Built : Routed → Prop
  | module m => isRoleName m.role = true ∧ m.Accepted
  | page p => isRoleName p.module.role = true ∧ p.Accepted

/-- The import of an artifact. -/
def importIn : Dialect → Routed → Import
  | .marker, module m => Marker.moduleImport m
  | .marker, page p => Marker.pageImport p
  | .flat, module m => ⟨m.routeSymbol, Registry.routeSource m.segment⟩
  | .flat, page p => ⟨p.name, Registry.localPageSource p.name⟩

theorem importIn_name (x : Routed) : (x.importIn .marker).name = x.name := by cases x <;> rfl

/-- The text of an artifact's import. -/
def importText (dialect : Dialect) (x : Routed) : Text :=
  Snippet.importLine (x.importIn dialect).name (x.importIn dialect).source

/-- The text of an artifact's entry. -/
def entryText : Dialect → Routed → Text
  | .marker, module m => Snippet.moduleElement m.segment m.name
  | .marker, page p => Snippet.pageElement p.segment p.name
  | .flat, module m => Snippet.moduleEntry m.routeSymbol
  | .flat, page p => Snippet.pageEntry p.segment p.name

/-- The anchor of an artifact's entry. -/
def anchor : Dialect → Routed → Anchor
  | .marker, module _ => .literal rootSentinel
  | .marker, page p => .literal (Snippet.sentinelOf p.module.segment)
  | .flat, module m => .arrayHead (registrySymbol m.role)
  | .flat, page _ => .childrenHead

/-- The edit that imports an artifact. -/
def importEdit (dialect : Dialect) (x : Routed) : Edit :=
  match dialect with
  | .marker => .before (.literal exportAnchor) (x.importText .marker)
  | .flat => .atHead (x.importText .flat)

/-- The edit that enters an artifact. -/
def entryEdit (dialect : Dialect) (x : Routed) : Edit :=
  match dialect with
  | .marker => .before (x.anchor .marker) (x.entryText .marker)
  | .flat => .behind (x.anchor .flat) (x.entryText .flat)

end Routed

namespace Registry

/-- What has to hold before a module or a page is added. -/
def guard (r : Registry) : Routed → Guard
  | .module m => r.moduleGuard m
  | .page p => r.pageGuard p

/-- The revision that adds a module or a page. -/
def add (r : Registry) : Routed → Revision
  | .module m => r.addModule m
  | .page p => r.addPage p

/-- An import and an entry, in either dialect. -/
theorem add_eq (r : Registry) (x : Routed) : r.add x
    = ⟨(r.guard x).file, [x.importEdit r.dialect, x.entryEdit r.dialect]⟩ := by
  rcases r with ⟨dialect, file, modules⟩
  cases dialect <;> cases x <;> rfl

/-- What every guard asks for: the anchors of the two edits, and a name that is
    not in use. -/
theorem guard_eq (r : Registry) (x : Routed) :
    x.anchor r.dialect ∈ (r.guard x).anchors
      ∧ (r.dialect = .marker → .literal exportAnchor ∈ (r.guard x).anchors)
      ∧ (x.importIn r.dialect).name ∈ (r.guard x).identifiers := by
  rcases r with ⟨dialect, file, modules⟩
  cases dialect <;> cases x <;>
    simp [guard, moduleGuard, pageGuard, Routed.anchor, Routed.importIn, Marker.moduleImport,
      Marker.pageImport]

end Registry

namespace Routed

variable {x : Routed} {dialect : Dialect}

/-! ### Spelling -/

theorem tame_routeSymbol {m : ModuleRef} (h : m.Accepted) : ∀ c ∈ m.routeSymbol, isTame c = true := by
  rcases h with ⟨raw, hraw, hseg, -⟩
  rw [ModuleRef.routeSymbol, hseg]
  exact List.forall_mem_append.mpr ⟨camel_segment_char hraw, by decide⟩

theorem Built.sound_import (h : x.Built) : (x.importIn dialect).Sound := by
  cases dialect with
  | marker =>
      cases x with
      | module m => exact Marker.sound_moduleImport h.2.spelled
      | page p => exact Marker.sound_pageImport h.2.spelled
  | flat =>
      cases x with
      | module m =>
          have hseg := h.2.spelled.segment
          refine ⟨tame_routeSymbol h.2, ?_⟩
          change ∀ c ∈ "../modules/".toList ++ m.segment ++ "/".toList ++ m.segment ++ ".route".toList, _
          simp only [List.forall_mem_append]
          exact ⟨⟨⟨⟨by decide, fun c hc => Or.inl (hseg c hc)⟩, by decide⟩,
            fun c hc => Or.inl (hseg c hc)⟩, by decide⟩
      | page p =>
          refine ⟨h.2.spelled.name, ?_⟩
          change ∀ c ∈ "./pages/".toList ++ p.name, _
          exact List.forall_mem_append.mpr ⟨by decide, fun c hc => Or.inl (h.2.spelled.name c hc)⟩

theorem routeSymbol_ne (m : ModuleRef) : m.routeSymbol ≠ [] := fun hnil =>
  absurd (List.append_eq_nil_iff.mp hnil).2 (by decide)

theorem Built.import_name_ne (h : x.Built) : (x.importIn dialect).name ≠ [] := by
  cases dialect <;> cases x
  · exact accepts_name_ne h.2
  · exact accepts_name_ne h.2.2
  · exact routeSymbol_ne _
  · exact accepts_name_ne h.2.2

/-- What an import is not spelled with. -/
theorem Built.not_mem_import (h : x.Built) {c : Char} (htame : isTame c = false)
    (hc : c ∉ "import \x7b \x7d from \"./;".toList) : c ∉ x.importText dialect := by
  have hsound : (x.importIn dialect).Sound := h.sound_import
  have hout : ∀ l : Text, (∀ d ∈ l, d ∈ "import \x7b \x7d from \"./;".toList) → c ∉ l :=
    fun l hl hmem => hc (hl c hmem)
  rw [importText, Marker.importLine_eq, List.mem_append, List.mem_append, List.mem_append,
    List.mem_append, not_or, not_or, not_or, not_or]
  refine ⟨hout _ (by decide), not_mem_of_tame hsound.name htame, hout _ (by decide),
    hsound.not_mem_source htame ?_ ?_, hout _ (by decide)⟩
  · rintro rfl
    exact hc (by decide)
  · rintro rfl
    exact hc (by decide)

theorem Built.reindent_import (h : x.Built) (indent : Text) :
    reindent (x.importText dialect) indent = x.importText dialect :=
  reindent_line (h.not_mem_import (by decide) (by decide)) indent

/-- Where an import says the name, no word runs into it. -/
theorem import_absent (h : x.Built) {content : Text}
    (hunused : Guard.uses content (x.importIn dialect).name = false) :
    ¬ x.importText dialect <:+: content := by
  rcases Marker.importLine_delimited (x.importIn dialect) with ⟨s, r, hline⟩
  exact not_infix_of_unused hline h.import_name_ne (by decide) (by decide) hunused

/-- The import of a name that is not in use is not there yet. -/
theorem import_new (h : x.Built) {content : Text}
    (hunused : Guard.uses content (x.importIn dialect).name = false) :
    alreadyHolds content (x.importText dialect) = false :=
  alreadyHolds_eq_false (Marker.trimmedLines_importLine h.sound_import) (import_absent h hunused)

/-! ### The line that an entry is known by -/

theorem pageEntry_eq (segment name : Text) : Snippet.pageEntry segment name
    = "\x7b path: \"".toList ++ (segment ++ ("\", element: <".toList
      ++ (name ++ " /> \x7d,".toList))) := rfl

theorem moduleEntry_eq (symbol : Text) : Snippet.moduleEntry symbol = symbol ++ [','] := rfl

/-- The line of an entry that says the name. -/
def entryLine : Dialect → Routed → Text
  | .marker, module m => (Marker.Branch.mk m.segment m.name []).opening
  | .marker, page p => Snippet.pageElement p.segment p.name
  | .flat, module m => Snippet.moduleEntry m.routeSymbol
  | .flat, page p => Snippet.pageEntry p.segment p.name

theorem entryLine_flat (x : Routed) : x.entryLine .flat = x.entryText .flat := by cases x <;> rfl

/-- What an entry of the flat dialect is not spelled with. -/
theorem Built.not_mem_entry (h : x.Built) {c : Char} (htame : isTame c = false)
    (hc : c ∉ "\x7b path: \", element: < /> \x7d".toList) : c ∉ x.entryText .flat := by
  have hout : ∀ l : Text, (∀ d ∈ l, d ∈ "\x7b path: \", element: < /> \x7d".toList) → c ∉ l :=
    fun l hl hmem => hc (hl c hmem)
  cases x with
  | module m =>
      rw [entryText, moduleEntry_eq, List.mem_append, not_or]
      exact ⟨not_mem_of_tame (tame_routeSymbol h.2) htame, hout _ (by decide)⟩
  | page p =>
      rw [entryText, pageEntry_eq, List.mem_append, List.mem_append, List.mem_append, List.mem_append,
        not_or, not_or, not_or, not_or]
      exact ⟨hout _ (by decide), not_mem_of_tame h.2.spelled.segment htame, hout _ (by decide),
        not_mem_of_tame h.2.spelled.name htame, hout _ (by decide)⟩

theorem Built.entryLine_no_break (h : x.Built) : '\n' ∉ x.entryLine dialect := by
  cases dialect with
  | marker =>
      cases x with
      | module m => exact Marker.opening_no_break h.2.spelled.segment h.2.spelled.name
      | page p => exact Marker.pageElement_no_break (l := ⟨p.segment, p.name⟩) ⟨h.2.spelled.segment, h.2.spelled.name⟩
  | flat =>
      rw [entryLine_flat]
      exact h.not_mem_entry (by decide) (by decide)

theorem Built.entryLine_mem (h : x.Built) :
    x.entryLine dialect ∈ trimmedLines (x.entryText dialect) := by
  have hbreak : '\n' ∉ x.entryLine dialect := h.entryLine_no_break
  cases dialect with
  | marker =>
      cases x with
      | module m =>
          rcases Marker.trimmedLines_moduleElement (b := ⟨m.segment, m.name, []⟩) h.2.spelled.segment
            h.2.spelled.name with ⟨wanted, hw⟩
          rw [entryText, hw]
          exact List.mem_cons_self
      | page p =>
          rw [entryText, Marker.trimmedLines_pageElement (l := ⟨p.segment, p.name⟩)
            ⟨h.2.spelled.segment, h.2.spelled.name⟩]
          exact List.mem_singleton.mpr rfl
  | flat =>
      -- The entry is one line, and has no blank at either end.
      have hends : (∀ c ∈ (x.entryText .flat).head?, isBlank c = false)
          ∧ ∀ c ∈ (x.entryText .flat).getLast?, isBlank c = false := by
        cases x with
        | module m =>
            rw [entryText, moduleEntry_eq]
            refine ⟨fun c hc => ?_, by simp; decide⟩
            cases hsym : m.routeSymbol with
            | nil => exact absurd hsym (routeSymbol_ne m)
            | cons d t =>
                rw [hsym, List.cons_append, List.head?_cons, Option.mem_some_iff] at hc
                exact isBlank_of_tame (tame_routeSymbol h.2 c (by rw [hsym, ← hc]; simp))
        | page p =>
            have hend : Snippet.pageEntry p.segment p.name
                = '\x7b' :: (" path: \"".toList ++ (p.segment ++ ("\", element: <".toList
                  ++ (p.name ++ " /> \x7d".toList))) ++ [',']) := by
              rw [pageEntry_eq]
              simp
            rw [entryText, hend]
            refine ⟨by simp; decide, ?_⟩
            rw [← List.cons_append, List.getLast?_concat]
            simp
            decide
      have hne : x.entryText .flat ≠ [] := by
        cases x with
        | module m => simp [entryText, moduleEntry_eq]
        | page p => simp [entryText, pageEntry_eq]
      rw [entryLine_flat] at hbreak ⊢
      rw [trimmedLines_line hbreak hne hends.1 hends.2]
      exact List.mem_singleton.mpr rfl

/-- In front of its anchor, an import does not bring in the line of an element:
    a line that stands there stood in the text before. -/
theorem infix_of_before_import (h : x.Built) {l content edited : Text} (hbreak : '\n' ∉ l)
    (hhead : l.head? = some '<') (hlast : l.getLast? = some '>')
    (hins : (x.importEdit .marker).Inserts content edited) (hl : l <:+: edited) : l <:+: content := by
  rcases hins with ⟨o, ho, rfl⟩
  have hsplit := Recogniser.append_of_findFrom ho
  rw [h.reindent_import] at hl
  have hregroup : o.before ++ x.importText .marker ++ '\n' :: lastIndent o.before ++ o.hit ++ o.after
      = (o.before ++ x.importText .marker) ++ '\n' :: (lastIndent o.before ++ (o.hit ++ o.after)) := by
    simp only [List.append_assoc, List.cons_append]
  rw [hregroup] at hl
  -- A line stands in front of the import or behind it, as it is neither a part of it nor across.
  rcases infix_delimited hbreak hl with hl | hl
  · have hbefore := infix_left hlast (h.not_mem_import (by decide) (by decide)) hl
    rw [← hsplit]
    exact hbefore.trans (List.prefix_append _ _).isInfix
  · have hindent : '<' ∉ lastIndent o.before := fun hmem =>
      absurd (List.mem_takeWhile_imp hmem) (by decide)
    have hafter := infix_right hhead hindent hl
    rw [← hsplit]
    exact hafter.trans (List.suffix_append _ _).isInfix

/-- The import does not make the entry's line one of the text. -/
theorem entryLine_not_aligned (h : x.Built) {content edited : Text}
    (hunused : Guard.uses content (x.importIn dialect).name = false)
    (hins : (x.importEdit dialect).Inserts content edited) :
    ¬ Aligned (x.entryLine dialect) edited := by
  intro hal
  have hbreak : '\n' ∉ x.entryLine dialect := h.entryLine_no_break
  -- The line would stand in the text whose import has just been put in.
  have hinfix : x.entryLine dialect <:+: edited := by
    rcases hal with ⟨s, r, rfl, -⟩
    exact ⟨s, r, by simp⟩
  cases dialect with
  | marker =>
      cases x with
      | module m =>
          rcases Marker.opening_ends ⟨m.segment, m.name, []⟩ with ⟨t, ht⟩
          rcases Marker.opening_delimited ⟨m.segment, m.name, []⟩ with ⟨s, r, hline⟩
          -- It holds the name, which the guard has not found.
          refine not_infix_of_unused hline (accepts_name_ne h.2) (by decide) (by decide) hunused ?_
          exact infix_of_before_import h hbreak (by rw [ht]; rfl)
            (by rw [ht, ← List.cons_append, List.getLast?_concat]) hins hinfix
      | page p =>
          rcases Marker.pageElement_ends p.segment p.name with ⟨t, ht⟩
          rcases Marker.pageElement_delimited p.segment p.name with ⟨s, r, hline⟩
          refine not_infix_of_unused hline (accepts_name_ne h.2.2) (by decide) (by decide) hunused ?_
          exact infix_of_before_import h hbreak (by rw [ht]; rfl)
            (by rw [ht, ← List.cons_append, List.getLast?_concat]) hins hinfix
  | flat =>
      have hedited : edited = x.importText .flat ++ '\n' :: content := by
        rw [← h.reindent_import []]
        exact hins
      rw [hedited] at hal hinfix
      cases x with
      -- It ends in a comma, behind which the name would have been found.
      | module m =>
          have hcomma := aligned_behindLine (c := ',') hbreak (by simp [entryLine, moduleEntry_eq])
            (h.not_mem_import (by decide) (by decide)) hal
          have hused := Guard.uses_of_aligned (routeSymbol_ne m) (by decide) hcomma
          exact absurd (hunused.symm.trans hused) (by simp)
      | page p =>
          have hangle : '<' ∈ Snippet.pageEntry p.segment p.name := by simp [pageEntry_eq]
          rcases infix_delimited hbreak hinfix with hl | hl
          · exact h.not_mem_import (by decide) (by decide) (hl.subset hangle)
          · exact not_infix_of_unused (s := "\x7b path: \"".toList ++ (p.segment
              ++ "\", element: ".toList)) (c := '<') (d := ' ') (r := "/> \x7d,".toList)
              -- What stands in front of the name is the path.
              (by rw [entryLine, pageEntry_eq]; simp) (accepts_name_ne h.2.2) (by decide) (by decide) hunused hl

/-! ### The anchor of an entry -/

/-- No sentinel has a small letter. -/
theorem sentinelOf_no_small {segment name : Text} (h : Accepts segment name) :
    'e' ∉ Snippet.sentinelOf segment := by
  rcases h with ⟨raw, hraw, rfl, -⟩
  rw [Marker.sentinelOf_eq, List.mem_append, List.mem_append, not_or, not_or]
  exact ⟨by decide, fun hmem => absurd (constant_not_lower hraw _ hmem) (by decide), by decide⟩

/-- What a role's registry exports begins with a letter, and has no carriage
    return. -/
theorem steady_registrySymbol {role : Text} (h : isRoleName role = true) :
    (Anchor.arrayHead (registrySymbol role)).Steady := by
  rcases role_head h with ⟨c, t, rfl, hc⟩
  refine ⟨by simp [registrySymbol], ?_, ?_⟩
  · rw [registrySymbol, List.mem_append, not_or]
    exact ⟨Marker.not_mem_role h (by decide), by decide⟩
  · rw [registrySymbol, List.cons_append, List.head?_cons, Ne, Option.some.injEq]
    rintro rfl
    exact absurd hc (by decide)

theorem Built.steady (h : x.Built) : (x.anchor dialect).Steady := by
  cases dialect with
  | marker =>
      cases x with
      | module m => exact show '\n' ∉ rootSentinel ∧ '\r' ∉ rootSentinel by decide
      | page p =>
          have hconstant := h.2.spelled.module.constant
          refine ⟨Marker.sentinel_no_break hconstant, ?_⟩
          rw [Marker.sentinelOf_eq, List.mem_append, List.mem_append, not_or, not_or]
          exact ⟨by decide, not_mem_of_tame hconstant (by decide), by decide⟩
  | flat =>
      cases x with
      | module m => exact steady_registrySymbol h.1
      | page p => trivial

/-- In the flat dialect, entries are made in arrays. -/
theorem isHead (x : Routed) : (x.anchor .flat).IsHead := by
  cases x with
  | module m => exact show registrySymbol m.role ≠ [] by simp [registrySymbol]
  | page p => trivial

/-- What a sentinel begins with, and what it is not spelled with. -/
theorem Built.anchor_marker (h : x.Built) : ∃ t, x.anchor .marker = .literal ('\x7b' :: '/' :: t)
    ∧ 'e' ∉ '\x7b' :: '/' :: t := by
  cases x with
  | module m => exact ⟨"* MODULE_ROUTES */\x7d".toList, rfl, by decide⟩
  | page p =>
      refine ⟨"* PAGE_ROUTES_".toList ++ (asConstant p.module.segment ++ " */\x7d".toList), rfl, ?_⟩
      exact sentinelOf_no_small h.2.1

/-- What follows an occurrence of a literal from its start. -/
theorem literal_at {l t : Text} {o : Occurrence} (h : (Anchor.literal l).locate? t = some o) :
    ∃ r, o.hit ++ o.after = l ++ r := by
  rcases Recogniser.hit_of_findFrom h with ⟨k, hk, -⟩
  exact ⟨k.after, (literal?_eq_some.mp hk).1⟩

/-- The import does not hide the anchor of the entry. -/
theorem anchor_stands (h : x.Built) {content edited : Text}
    (hstands : (x.anchor dialect).Stands content)
    (hins : (x.importEdit dialect).Inserts content edited) : (x.anchor dialect).Stands edited := by
  cases dialect with
  | marker =>
      rcases h.anchor_marker with ⟨t, heq, hsmall⟩
      rcases hins with ⟨o, ho, rfl⟩
      rcases literal_at ho with ⟨r, hr⟩
      have hexport : o.hit ++ o.after = 'e' :: ("xport default".toList ++ r) := hr
      have hcut : content = o.before ++ 'e' :: ("xport default".toList ++ r) := by
        rw [← hexport]
        exact (Recogniser.append_of_findFrom ho).symm
      generalize "xport default".toList ++ r = rest at hexport hcut
      rw [heq, Anchor.stands_literal_iff, hcut] at hstands
      rw [heq, Anchor.stands_literal_iff, List.append_assoc _ o.hit, hexport]
      -- The anchor does not reach over the letter that the other one begins with.
      rcases infix_delimited hsmall hstands with hin | hin
      · exact hin.trans (((List.prefix_append _ _).trans (List.prefix_append _ _)).trans
          (List.prefix_append _ _)).isInfix
      · exact hin.trans ((List.suffix_cons _ _).trans (List.suffix_append _ _)).isInfix
  | flat =>
      have hedited : edited = reindent (x.importText .flat) [] ++ '\n' :: content := hins
      rw [hedited]
      exact hstands.behindLines h.steady _

/-! ### The import stays whole -/

/-- A part of a text is a part of one of two halves, if it neither holds the
    two characters at the cut nor ends in the first. -/
theorem infix_halves {l s t : Text} {c d : Char} (hpair : ¬ [c, d] <:+: l)
    (hlast : l.getLast? ≠ some c) (h : l <:+: s ++ c :: d :: t) : l <:+: s ∨ l <:+: c :: d :: t := by
  rcases h with ⟨a, b, hab⟩
  rcases List.append_eq_append_iff.mp hab with ⟨z, rfl, -⟩ | ⟨z, hz, hr⟩
  · exact Or.inl ⟨a, z, rfl⟩
  · rcases List.append_eq_append_iff.mp hz with ⟨y, rfl, rfl⟩ | ⟨y, rfl, rfl⟩
    · -- The part reaches over the cut.
      cases z with
      | nil => exact Or.inl ⟨a, [], by simp⟩
      | cons e z =>
          rw [List.cons_append, List.cons.injEq] at hr
          rcases hr with ⟨rfl, hr⟩
          cases z with
          | nil => exact absurd (by simp) hlast
          | cons f z =>
              rw [List.cons_append, List.cons.injEq] at hr
              rw [← hr.1] at hpair
              exact absurd ⟨y, z, by simp⟩ hpair
    · exact Or.inr ⟨y, b, by rw [hr]⟩

theorem Built.import_no_comment (h : x.Built) : ¬ ['\x7b', '/'] <:+: x.importText dialect := by
  have hsound : (x.importIn dialect).Sound := h.sound_import
  have hname : '\x7b' ∉ (x.importIn dialect).name := not_mem_of_tame hsound.name (by decide)
  have hsource : '\x7b' ∉ (x.importIn dialect).source :=
    hsound.not_mem_source (by decide) (by decide) (by decide)
  have heq : x.importText dialect = "import".toList ++ ' ' :: ("\x7b".toList ++ ' ' ::
      ((x.importIn dialect).name ++ (" \x7d from \"".toList
        ++ ((x.importIn dialect).source ++ "\";".toList)))) := by
    rw [importText, Marker.importLine_eq]
    rfl
  have hbrace : ∀ l : Text, '\x7b' ∉ l → ¬ ['\x7b', '/'] <:+: l := fun l hl hin =>
    hl (hin.subset (by simp))
  rw [heq]
  intro hin
  -- The only brace that could open a comment has a blank behind it.
  rcases infix_delimited (by decide) hin with hin | hin
  · exact hbrace _ (by decide) hin
  · rcases infix_delimited (by decide) hin with hin | hin
    · exact absurd hin.length_le (by decide)
    · refine hbrace _ ?_ hin
      simp only [List.mem_append, not_or]
      exact ⟨hname, by decide, hsource, by decide⟩

/-- The entry is not put into the import. -/
theorem import_infix_of_entry (h : x.Built) {content edited : Text}
    (himport : x.importText dialect <:+: content)
    (hins : (x.entryEdit dialect).Inserts content edited) : x.importText dialect <:+: edited := by
  cases dialect with
  | marker =>
      rcases h.anchor_marker with ⟨t, heq, -⟩
      rw [entryEdit, heq] at hins
      rcases hins with ⟨o, ho, rfl⟩
      rcases literal_at ho with ⟨r, hr⟩
      rw [← Recogniser.append_of_findFrom ho, hr] at himport
      have hlast : (x.importText .marker).getLast? ≠ some '\x7b' := by
        have hend : x.importText .marker = ("import \x7b ".toList ++ ((x.importIn .marker).name
            ++ (" \x7d from \"".toList ++ ((x.importIn .marker).source ++ ['"'])))) ++ [';'] := by
          rw [importText, Marker.importLine_eq]
          simp
        rw [hend, List.getLast?_concat]
        decide
      -- The import stands in front of the sentinel or behind it, as it ends in no brace.
      rcases infix_halves h.import_no_comment hlast himport with hin | hin
      · exact hin.trans ((((List.prefix_append _ _).trans (List.prefix_append _ _)).trans
          (List.prefix_append _ _)).trans (List.prefix_append _ _)).isInfix
      · rw [List.append_assoc _ o.hit, hr]
        exact hin.trans (List.suffix_append _ _).isInfix
  | flat =>
      rcases hins with ⟨o, ho, rfl⟩
      rcases x.isHead.hit_bracket ho with ⟨s, hs⟩
      rw [← Recogniser.append_of_findFrom ho, hs,
        show o.before ++ (s ++ ['['] ++ o.after) = (o.before ++ s) ++ '[' :: o.after by simp] at himport
      rw [hs]
      -- The import has no bracket, so it stands on one side of it.
      rcases infix_delimited (h.not_mem_import (by decide) (by decide)) himport with hin | hin
      · refine hin.trans ⟨[], '[' :: ('\n' :: (lastIndent o.before ++ "  ".toList)
          ++ reindent (x.entryText .flat) (lastIndent o.before ++ "  ".toList) ++ o.after), ?_⟩
        simp
      · exact hin.trans (List.suffix_append _ _).isInfix

theorem Built.import_inserted (h : x.Built) {content edited : Text}
    (hins : (x.importEdit dialect).Inserts content edited) : x.importText dialect <:+: edited := by
  cases dialect with
  | marker =>
      rcases hins with ⟨o, -, rfl⟩
      rw [h.reindent_import]
      exact ⟨o.before, '\n' :: lastIndent o.before ++ (o.hit ++ o.after), by simp only [List.append_assoc]⟩
  | flat =>
      have hedited : edited = reindent (x.importText .flat) [] ++ '\n' :: content := hins
      rw [hedited, h.reindent_import]
      exact (List.prefix_append _ _).isInfix

end Routed

/-! ### Both insertions -/

namespace Registry

open Edit Routed

variable {r : Registry} {x : Routed}

/-- A text that the guard lets pass takes the import, and what is written then
    takes the entry; the import is whole in the end. -/
theorem insertsAll_add (h : x.Built) {raw : Text} (hadmits : (r.guard x).admits raw.toLf = .ok ())
    (file : Text) : ∃ u v, (x.importEdit r.dialect).Inserts raw.toLf u
      ∧ (x.entryEdit r.dialect).Inserts (u.withEnding (.detect raw)).toLf v
      ∧ x.importText r.dialect <:+: v
      ∧ InsertsAll file (r.add x).edits raw [u.withEnding (.detect raw),
          v.withEnding (.detect (u.withEnding (.detect raw)))] := by
  rcases Guard.admits_iff.mp hadmits with ⟨hanchors, hunused⟩
  rcases guard_eq r x with ⟨hentry, hexport, hname⟩
  have hfree := hunused _ hname
  have hnew := import_new h hfree
  have hfirst : ∃ u, (x.importEdit r.dialect).apply file raw.toLf = .ok u
      ∧ (x.importEdit r.dialect).Inserts raw.toLf u := by
    cases hd : r.dialect with
    | marker =>
        rw [hd] at hnew
        exact inserts_before hnew (hanchors _ (hexport hd)) file
    | flat =>
        rw [hd] at hnew
        exact inserts_atHead hnew file
  rcases hfirst with ⟨u, happly, hins⟩
  -- What the second edit reads has the anchor still, and not the lines of the entry.
  have hstands : (x.anchor r.dialect).Stands (u.withEnding (.detect raw)).toLf :=
    reread (P := (x.anchor r.dialect).Stands) (fun t ht => ht.toLf h.steady)
      (anchor_stands h (hanchors _ hentry) hins) _
  have hold : alreadyHolds (u.withEnding (.detect raw)).toLf (x.entryText r.dialect) = false := by
    rw [Bool.eq_false_iff]
    intro hheld
    have hline := aligned_of_mem_trimmedLines (mem_of_alreadyHolds hheld h.entryLine_mem)
    exact entryLine_not_aligned h hfree hins (aligned_of_reread h.entryLine_no_break hline)
  have hsecond : ∃ v, (x.entryEdit r.dialect).apply file (u.withEnding (.detect raw)).toLf = .ok v
      ∧ (x.entryEdit r.dialect).Inserts (u.withEnding (.detect raw)).toLf v := by
    cases hd : r.dialect with
    | marker =>
        rw [hd] at hold hstands
        exact inserts_before hold hstands file
    | flat =>
        rw [hd] at hold hstands
        exact inserts_behind hold hstands file
  rcases hsecond with ⟨v, happly', hins'⟩
  refine ⟨u, v, hins, hins', import_infix_of_entry h ?_ hins', ?_⟩
  · exact (infix_reread_iff (h.not_mem_import (by decide) (by decide))
      (h.not_mem_import (by decide) (by decide)) _).mpr (h.import_inserted hins)
  · rw [add_eq]
    exact .cons happly hins (.cons happly' hins' .nil)

/-- What adding does to a file that the guard has let pass: it writes the file
    with the import and then with the entry, and answers that the file changed;
    only the file system can refuse that, and refuses it before the first
    write. -/
theorem on_add_of_guard (h : x.Built) {d : Disk} (hguard : (r.guard x).check.on d = (.ok (), d)) :
    ∃ loc c raw u v, d.find (r.add x).file = .ok loc ∧ d.tree.get? loc = some (.file c)
      ∧ c.read = .ok raw ∧ (x.importEdit r.dialect).Inserts raw.toLf u
      ∧ (x.entryEdit r.dialect).Inserts (u.withEnding (.detect raw)).toLf v
      ∧ x.importText r.dialect <:+: v ∧ (r.add x).make.on d = match d.replaceable (r.add x).file with
        | .ok _ => (.ok true, d.after (Job.rewrites loc [u.withEnding (.detect raw),
            v.withEnding (.detect (u.withEnding (.detect raw)))]))
        | .error f => (.error (.system f (r.add x).file.text), d) := by
  rcases Project.guard_ok hguard with ⟨loc, c, raw, hfind, hfile, hread, hadmits⟩
  rcases insertsAll_add h hadmits (r.add x).file.text with ⟨u, v, hins, hins', hwhole, hall⟩
  have hsame : (r.add x).file = (r.guard x).file := by rw [add_eq]
  rw [← hsame] at hfind
  exact ⟨loc, c, raw, u, v, hfind, hfile, hread, hins, hins', hwhole,
    Job.on_make_of_insertsAll hall (by rw [add_eq]; simp) hfind hfile hread⟩

end Registry

end RouteScaffold

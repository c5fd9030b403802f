import RouteScaffold.Project.Role
import RouteScaffold.Proofs.Edit.Insertion
import RouteScaffold.Proofs.Text.Names

/-!
# Outlines of Marker Registries

A registry of the marker dialect is edited as text, but what commands make of
it is always the print of an outline: perhaps the import of the router, then
the imports of what is routed, one line each, then the element of the role
with one block for each module, and in each block one line for each page above
the block's own sentinel.

The conditions under which an outline prints to a text that edits can be
followed through are collected in `Sound`. They are about spelling alone, save
one: no two blocks have the same sentinel.

## Main definitions

* `Outline`: What a registry of the marker dialect says.
* `Outline.text`: Its print.
* `Outline.Sound`: Spelling, and distinct sentinels.

## Theorems

* `text_empty`: A new registry is the print of an outline.
* `passes_export_head`, `passes_root_sentinel_body`: Where anchors are not.
-/

namespace RouteScaffold

open Naming Recogniser

/-- An import of a name from a source. -/
structure Import where
  name : Text
  source : Text
  deriving DecidableEq, Repr

namespace Marker

/-- The element of a page. -/
structure Leaf where
  segment : Text
  name : Text
  deriving DecidableEq, Repr

/-- The element of a module, with those of its pages. -/
structure Branch where
  segment : Text
  name : Text
  leaves : List Leaf
  deriving DecidableEq, Repr

/-- What a registry of the marker dialect says. -/
structure Outline where
  role : Text
  /-- Whether the router is imported. -/
  header : Bool
  imports : List Import
  branches : List Branch
  deriving DecidableEq, Repr

end Marker

/-! ### Printing -/

/-- The line of an import. -/
def Import.text (i : Import) : Text := Snippet.importLine i.name i.source ++ ['\n']

namespace Marker

/-- The line of a page, up to the column of the next one. -/
def Leaf.text (l : Leaf) : Text := Snippet.pageElement l.segment l.name ++ "\n          "

/-- The tag that opens the element of a module. -/
def Branch.opening (b : Branch) : Text :=
  "<Route path=\"" ++ b.segment ++ "\" element=\x7b<" ++ b.name ++ " />\x7d>"

/-- The block of a module, up to the column of the next one. -/
def Branch.text (b : Branch) : Text :=
  b.opening ++ ("\n          " ++ (b.leaves.flatMap Leaf.text
    ++ (Snippet.sentinelOf b.segment ++ "\n        </Route>\n        ")))

namespace Outline

/-- The import of the router, which is the first line. -/
def headerText (o : Outline) : Text :=
  if o.header then (⟨"Route", "react-router-dom"⟩ : Import).text else []

/-- Everything in front of the exported function. -/
def head (o : Outline) : Text := o.headerText ++ ('\n' :: o.imports.flatMap Import.text)

/-- The exported function up to the element of the role. -/
def signature (o : Outline) : Text :=
  "export default function " ++ registrySymbol o.role ++ "() \x7b\n  return (\n    "

/-- The tag that opens the element of the role. -/
def opening (o : Outline) : Text := "<Route path=\"/" ++ Text.lower o.role ++ "\">"

/-- What follows the root sentinel. -/
def tail : Text := "\n    </Route>\n  );\n\x7d\n"

/-- The print of an outline. -/
def text (o : Outline) : Text :=
  o.head ++ (o.signature ++ (o.opening ++ ("\n        " ++ (o.branches.flatMap Branch.text
    ++ (rootSentinel ++ tail)))))

/-- The outline of a registry in which nothing is routed. -/
def empty (role : Text) : Outline := ⟨role, true, [], []⟩

end Outline

/-! ### The snippets -/

theorem importLine_eq (name source : Text) : Snippet.importLine name source
    = "import \x7b ".toList ++ (name ++ (" \x7d from \"".toList ++ (source ++ "\";".toList))) := by
  rfl

theorem sentinelOf_eq (segment : Text) : Snippet.sentinelOf segment
    = "\x7b/* PAGE_ROUTES_".toList ++ (asConstant segment ++ " */\x7d".toList) := by
  rfl

theorem pageElement_eq (segment name : Text) : Snippet.pageElement segment name
    = "<Route path=\"".toList ++ (segment ++ ("\" element=\x7b<".toList
      ++ (name ++ " />\x7d />".toList))) := by
  rfl

theorem moduleElement_eq (segment name : Text) : Snippet.moduleElement segment name
    = (Branch.mk segment name []).opening
      ++ '\n' :: (("  ".toList ++ Snippet.sentinelOf segment) ++ '\n' :: "</Route>".toList) := by
  rw [show Snippet.moduleElement segment name = "<Route path=\"".toList ++ (segment
    ++ ("\" element=\x7b<".toList ++ (name ++ (" />\x7d>\n  ".toList
      ++ (Snippet.sentinelOf segment ++ "\n</Route>".toList))))) from rfl,
    show (Branch.mk segment name []).opening = "<Route path=\"".toList ++ segment
      ++ "\" element=\x7b<".toList ++ name ++ " />\x7d>".toList from rfl]
  simp

/-- A new registry is the print of an outline. -/
theorem roleFiles_marker (role : Text) :
    Project.roleFiles role .marker = [("routes/route.tsx".toList, (Outline.empty role).text)] := by
  have htext : (Outline.empty role).text
      = "import \x7b Route \x7d from \"react-router-dom\";\n\nexport default function ".toList
        ++ (registrySymbol role ++ ("() \x7b\n  return (\n    <Route path=\"/".toList
        ++ (Text.lower role ++ ("\">\n        ".toList ++ (rootSentinel
        ++ ("\n    </Route>\n  );\n\x7d\n".toList ++ [])))))) := by
    rw [show (Outline.empty role).text
        = ("import \x7b Route \x7d from \"react-router-dom\";\n".toList ++ ['\n'])
        ++ (("export default function ".toList ++ registrySymbol role
          ++ "() \x7b\n  return (\n    ".toList)
        ++ (("<Route path=\"/".toList ++ Text.lower role ++ "\">".toList)
        ++ ("\n        ".toList ++ ([] ++ (rootSentinel
          ++ "\n    </Route>\n  );\n\x7d\n".toList))))) from rfl]
    simp
  rw [htext]
  rfl

end Marker

/-! ### Spelling -/

/-- How an import has to be spelled. -/
structure Import.Sound (i : Import) : Prop where
  name : ∀ c ∈ i.name, isTame c = true
  source : ∀ c ∈ i.source, isTame c = true ∨ c = '.' ∨ c = '/'

theorem Import.Sound.not_mem_source {i : Import} (h : i.Sound) {x : Char} (hx : isTame x = false)
    (hdot : x ≠ '.') (hslash : x ≠ '/') : x ∉ i.source := by
  intro hmem
  rcases h.source x hmem with htame | rfl | rfl
  · rw [hx] at htame
    exact absurd htame (by simp)
  · exact hdot rfl
  · exact hslash rfl

theorem Import.text_eq (i : Import) : i.text = "import ".toList
    ++ ('\x7b' :: ' ' :: (i.name ++ (" \x7d from \"".toList ++ (i.source ++ "\";\n".toList)))) := by
  rw [Import.text, Marker.importLine_eq]
  simp

namespace Marker

/-- How the element of a page has to be spelled. -/
structure Leaf.Sound (l : Leaf) : Prop where
  segment : ∀ c ∈ l.segment, isTame c = true
  name : ∀ c ∈ l.name, isTame c = true

/-- How the block of a module has to be spelled. -/
structure Branch.Sound (b : Branch) : Prop where
  segment : ∀ c ∈ b.segment, isTame c = true
  name : ∀ c ∈ b.name, isTame c = true
  constant : ∀ c ∈ asConstant b.segment, isTame c = true
  leaves : ∀ l ∈ b.leaves, l.Sound

/-- How an outline has to be spelled; its blocks have distinct sentinels. -/
structure Outline.Sound (o : Outline) : Prop where
  role : isRoleName o.role = true
  imports : ∀ i ∈ o.imports, i.Sound
  branches : ∀ b ∈ o.branches, b.Sound
  constants : (o.branches.map fun b => asConstant b.segment).Nodup

/-- The import of the router is spelled like the others. -/
theorem sound_header : (⟨"Route", "react-router-dom"⟩ : Import).Sound :=
  ⟨by decide, by decide⟩

/-! ### Where the export is not -/

theorem not_infix_padded {l v : Text} {c : Char} (hmem : c ∈ l) (hhead : l.head? ≠ some c)
    (hlast : l.getLast? ≠ some c) (hv : c ∉ v) : ¬ l <:+: c :: (v ++ [c]) := by
  intro h
  have hne : l ≠ [] := List.ne_nil_of_mem hmem
  rcases List.infix_cons_iff.mp h with ⟨r, hr⟩ | h
  · cases l with
    | nil => exact hne rfl
    | cons d l =>
        rw [List.cons_append, List.cons.injEq] at hr
        exact hhead (by rw [hr.1]; rfl)
  · rcases List.infix_concat_iff.mp h with ⟨r, hr⟩ | h
    · rcases List.eq_nil_or_concat l with rfl | ⟨l, d, rfl⟩
      · exact hne rfl
      · rw [List.concat_eq_append, ← List.append_assoc] at hr
        have := (List.append_inj' hr rfl).2
        rw [List.cons.injEq] at this
        exact hlast (by rw [List.concat_eq_append, List.getLast?_concat, this.1])
    · exact hv (h.subset hmem)

/-- No import holds the anchor of imports. -/
theorem passes_export_import {i : Import} (h : i.Sound) :
    Passes (Pattern.recognise (.literal exportAnchor)) i.text := by
  have hsplit : i.text = ("import ".toList ++ ['\x7b']) ++ ((' ' :: (i.name ++ [' ']) ++ ['\x7d'])
      ++ ((" from ".toList ++ ['"']) ++ ((i.source ++ ['"']) ++ (";".toList ++ ['\n'])))) := by
    rw [Import.text_eq]
    simp
  have hne : exportAnchor ≠ [] := by decide
  rw [hsplit]
  refine (Pattern.passes_literal_delimited hne (by decide) (by decide)).append <|
    (Pattern.passes_literal_delimited hne (by decide) ?_).append <|
    (Pattern.passes_literal_delimited hne (by decide) (by decide)).append <|
    (Pattern.passes_literal_delimited hne (by decide) ?_).append <|
    Pattern.passes_literal_delimited hne (by decide) (by decide)
  · exact not_infix_padded (by decide) (by decide) (by decide)
      (not_mem_of_tame h.name (by decide))
  · intro hin
    exact h.not_mem_source (x := ' ') (by decide) (by decide) (by decide) (hin.subset (by decide))

theorem passes_export_head {o : Outline} (h : o.Sound) :
    Passes (Pattern.recognise (.literal exportAnchor)) o.head := by
  refine Passes.append ?_ ?_
  · rw [Outline.headerText]
    split
    · exact passes_export_import sound_header
    · exact passes_nil _
  · rw [← List.singleton_append]
    refine Passes.append ?_ (passes_flatMap fun i hi => passes_export_import (h.imports i hi))
    exact Pattern.passes_literal_of_not_mem (l := exportAnchor.tail) (by decide)

/-! ### Where sentinels are not -/

/-- What the sentinels begin with. -/
def sentinelHead (rest : Text) : Text := '\x7b' :: '/' :: rest

theorem rootSentinel_eq : rootSentinel = sentinelHead "* MODULE_ROUTES */\x7d".toList := by
  rfl

theorem sentinelOf_eq_head (segment : Text) : Snippet.sentinelOf segment
    = sentinelHead ("* PAGE_ROUTES_".toList ++ (asConstant segment ++ " */\x7d".toList)) := by
  rfl

/-- A brace that no slash follows begins no sentinel. -/
theorem passes_brace {rest : Text} {c : Char} {u : Text} (hc : c ≠ '/') (hbrace : '\x7b' ≠ c)
    (hu : '\x7b' ∉ u) :
    Passes (Pattern.recognise (.literal (sentinelHead rest))) ('\x7b' :: c :: u) := by
  refine Passes.cons (fun b r => ?_) (Pattern.passes_literal_of_not_mem ?_)
  · apply Cursor.literal?_eq_none.mpr
    rintro ⟨x, hx⟩
    simp only [sentinelHead, List.cons_append, List.cons.injEq] at hx
    exact hc hx.2.1.symm
  · rw [List.mem_cons, not_or]
    exact ⟨hbrace, hu⟩

/-- A sentinel is not read where another one stands. -/
theorem passes_other_sentinel {rest other : Text} (h : ∀ r, ¬ rest <+: other ++ r)
    (hother : '\x7b' ∉ other) :
    Passes (Pattern.recognise (.literal (sentinelHead rest))) (sentinelHead other) := by
  refine Passes.cons (fun b r => ?_) (Pattern.passes_literal_of_not_mem ?_)
  · apply Cursor.literal?_eq_none.mpr
    rintro ⟨x, hx⟩
    simp only [sentinelHead, List.cons_append, List.cons.injEq, true_and] at hx
    exact h r ⟨x, hx⟩
  · rw [List.mem_cons, not_or]
    exact ⟨by decide, hother⟩

section Sentinels

variable {rest : Text}

theorem passes_sentinel_import {i : Import} (h : i.Sound) :
    Passes (Pattern.recognise (.literal (sentinelHead rest))) i.text := by
  rw [Import.text_eq]
  refine (Pattern.passes_literal_of_not_mem (by decide)).append (passes_brace (by decide) (by decide) ?_)
  rw [List.mem_append, List.mem_append, List.mem_append, not_or, not_or, not_or]
  exact ⟨not_mem_of_tame h.name (by decide), by decide,
    h.not_mem_source (by decide) (by decide) (by decide), by decide⟩

theorem passes_sentinel_head {o : Outline} (h : o.Sound) :
    Passes (Pattern.recognise (.literal (sentinelHead rest))) o.head := by
  refine Passes.append ?_ ?_
  · rw [Outline.headerText]
    split
    · exact passes_sentinel_import sound_header
    · exact passes_nil _
  · rw [← List.singleton_append]
    refine Passes.append ?_ (passes_flatMap fun i hi => passes_sentinel_import (h.imports i hi))
    exact Pattern.passes_literal_of_not_mem (by decide)

/-- A role is named by a word, which a line break may follow. -/
theorem role_cases {role : Text} (h : isRoleName role = true) :
    ∃ base, (∀ c ∈ base, continuesIdentifier c = true)
      ∧ (role = base ∨ role = base ++ ['\n']) := by
  have hrun : ∀ t : Text, isRun Char.isAlpha (fun c => c.isAlphanum || c = '_') t = true →
      ∀ c ∈ t, continuesIdentifier c = true := by
    intro t ht c hc
    cases t with
    | nil => exact absurd hc (by simp)
    | cons d t =>
        simp only [isRun, Bool.and_eq_true, List.all_eq_true, Bool.or_eq_true,
          decide_eq_true_eq] at ht
        rcases List.mem_cons.mp hc with rfl | hc
        · simp [continuesIdentifier, Char.isAlphanum, ht.1]
        · rcases ht.2 c hc with h | rfl
          · simp [continuesIdentifier, h]
          · decide
  unfold isRoleName withoutFinalBreak at h
  split at h
  · next hlast =>
      refine ⟨role.dropLast, hrun _ h, Or.inr ?_⟩
      exact (List.dropLast_append_getLast? _ hlast).symm
  · exact ⟨role, hrun _ h, Or.inl rfl⟩

theorem continuesName_of_role {role : Text} (h : isRoleName role = true) :
    ∀ c ∈ role, continuesName c = true := by
  rcases role_cases h with ⟨base, hbase, rfl | rfl⟩
  · intro c hc
    simp [continuesName, hbase c hc]
  · refine List.forall_mem_append.mpr ⟨fun c hc => ?_, by decide⟩
    simp [continuesName, hbase c hc]

theorem not_mem_role {role : Text} (h : isRoleName role = true) {x : Char}
    (hx : continuesName x = false) : x ∉ role := by
  intro hmem
  rw [continuesName_of_role h x hmem] at hx
  exact absurd hx (by simp)

/-- The path of a role is spelled like its name. -/
theorem lower_role {t : Text} (h : ∀ c ∈ t, continuesIdentifier c = true) :
    Text.lower t = t.flatMap lowerOf ∧ Text.lower (t ++ ['\n']) = t.flatMap lowerOf ++ ['\n']
      ∧ ∀ c ∈ t.flatMap lowerOf, continuesIdentifier c = true := by
  have hall : ∀ c ∈ CaseMap.ascii, continuesIdentifier c = true →
      (lowerOf c).all continuesIdentifier = true := by decide +kernel
  have hsigma : 'Σ' ∉ t := by
    intro hmem
    exact absurd (h _ hmem) (by decide)
  refine ⟨CaseMap.lowerAfter_of_no_sigma hsigma, ?_, fun c hc => ?_⟩
  · rw [Text.lower, CaseMap.lowerAfter_of_no_sigma, List.flatMap_append]
    · rfl
    · rw [List.mem_append, not_or]
      exact ⟨hsigma, by decide⟩
  · rcases List.mem_flatMap.mp hc with ⟨d, hd, hc⟩
    have hname : continuesName d = true := by simp [continuesName, h d hd]
    exact List.all_eq_true.mp
      (hall d (CaseMap.mem_ascii (toNat_of_continuesName hname)) (h d hd)) c hc

theorem not_mem_lower_role {role : Text} (h : isRoleName role = true) {x : Char}
    (hx : continuesName x = false) : x ∉ Text.lower role := by
  have hne : x ≠ '\n' := by
    rintro rfl
    exact absurd hx (by decide)
  have hident : continuesIdentifier x = false := by
    cases hc : continuesIdentifier x with
    | false => rfl
    | true =>
        simp [continuesName, hc] at hx
  rcases role_cases h with ⟨base, hbase, rfl | rfl⟩
  · rw [(lower_role hbase).1]
    intro hmem
    rw [(lower_role hbase).2.2 x hmem] at hident
    exact absurd hident (by simp)
  · rw [(lower_role hbase).2.1]
    intro hmem
    rcases List.mem_append.mp hmem with hmem | hmem
    · rw [(lower_role hbase).2.2 x hmem] at hident
      exact absurd hident (by simp)
    · exact hne (List.mem_singleton.mp hmem)

theorem passes_sentinel_frame {o : Outline} (h : o.Sound) :
    Passes (Pattern.recognise (.literal (sentinelHead rest)))
      (o.signature ++ (o.opening ++ "\n        ".toList)) := by
  have hsignature : o.signature = ("export default function ".toList ++ (o.role ++ "Routes() ".toList))
      ++ '\x7b' :: '\n' :: "  return (\n    ".toList := by
    rw [show o.signature = "export default function ".toList ++ (o.role ++ "Routes".toList)
      ++ "() \x7b\n  return (\n    ".toList from rfl]
    simp
  have hopening : o.opening = "<Route path=\"/".toList ++ (Text.lower o.role ++ "\">".toList) := by
    rw [show o.opening = "<Route path=\"/".toList ++ Text.lower o.role ++ "\">".toList from rfl]
    simp
  have hlower : '\x7b' ∉ Text.lower o.role := not_mem_lower_role h.role (by decide)
  rw [hsignature, hopening]
  refine Passes.append (Passes.append ?_ ?_) (Passes.append ?_ ?_)
  · apply Pattern.passes_literal_of_not_mem
    rw [List.mem_append, List.mem_append, not_or, not_or]
    exact ⟨by decide, not_mem_role h.role (by decide), by decide⟩
  · exact passes_brace (by decide) (by decide) (by decide)
  · apply Pattern.passes_literal_of_not_mem
    rw [List.mem_append, List.mem_append, not_or, not_or]
    exact ⟨by decide, hlower, by decide⟩
  · exact Pattern.passes_literal_of_not_mem (by decide)

theorem Branch.opening_eq (b : Branch) : b.opening = "<Route path=\"".toList ++ (b.segment
    ++ ("\" element=".toList ++ '\x7b' :: '<' :: (b.name ++ " />\x7d>".toList))) := by
  rw [show b.opening = "<Route path=\"".toList ++ b.segment ++ "\" element=\x7b<".toList ++ b.name
    ++ " />\x7d>".toList from rfl]
  simp

theorem Leaf.text_eq (l : Leaf) : l.text = "<Route path=\"".toList ++ (l.segment
    ++ ("\" element=".toList ++ '\x7b' :: '<' :: (l.name ++ " />\x7d />\n          ".toList))) := by
  rw [Leaf.text, pageElement_eq]
  simp

/-- No element of a module or a page holds a sentinel in its tag. -/
theorem passes_sentinel_tag {segment name close : Text} (hs : ∀ c ∈ segment, isTame c = true)
    (hn : ∀ c ∈ name, isTame c = true) (hclose : '\x7b' ∉ close) :
    Passes (Pattern.recognise (.literal (sentinelHead rest))) ("<Route path=\"".toList ++ (segment
      ++ ("\" element=".toList ++ '\x7b' :: '<' :: (name ++ close)))) := by
  refine Passes.append (Pattern.passes_literal_of_not_mem (by decide)) <|
    Passes.append (Pattern.passes_literal_of_not_mem (not_mem_of_tame hs (by decide))) <|
    Passes.append (Pattern.passes_literal_of_not_mem (by decide)) <|
    passes_brace (by decide) (by decide) ?_
  rw [List.mem_append, not_or]
  exact ⟨not_mem_of_tame hn (by decide), hclose⟩

theorem passes_sentinel_leaf {l : Leaf} (h : l.Sound) :
    Passes (Pattern.recognise (.literal (sentinelHead rest))) l.text := by
  rw [Leaf.text_eq]
  exact passes_sentinel_tag h.segment h.name (by decide)

theorem passes_sentinel_opening {b : Branch} (h : b.Sound) :
    Passes (Pattern.recognise (.literal (sentinelHead rest))) b.opening := by
  rw [Branch.opening_eq]
  exact passes_sentinel_tag h.segment h.name (by decide)

/-- A block holds no sentinel but its own. -/
theorem passes_sentinel_branch {b : Branch} (h : b.Sound) (hother : ∀ r, ¬ rest
    <+: "* PAGE_ROUTES_".toList ++ (asConstant b.segment ++ " */\x7d".toList) ++ r) :
    Passes (Pattern.recognise (.literal (sentinelHead rest))) b.text := by
  refine (passes_sentinel_opening h).append <|
    Passes.append (Pattern.passes_literal_of_not_mem (by decide)) <|
    Passes.append (passes_flatMap fun l hl => passes_sentinel_leaf (h.leaves l hl)) <|
    Passes.append ?_ (Pattern.passes_literal_of_not_mem (by decide))
  rw [sentinelOf_eq_head]
  refine passes_other_sentinel hother ?_
  rw [List.mem_append, List.mem_append, not_or, not_or]
  exact ⟨by decide, not_mem_of_tame h.constant (by decide), by decide⟩

end Sentinels

/-- The root sentinel is none of the blocks' own. -/
theorem passes_root_branch {b : Branch} (h : b.Sound) :
    Passes (Pattern.recognise (.literal rootSentinel)) b.text := by
  rw [rootSentinel_eq]
  apply passes_sentinel_branch h
  rintro r ⟨x, hx⟩
  simp at hx

/-- The sentinel of a block is that of no block with another constant. -/
theorem passes_page_branch {b : Branch} (h : b.Sound) {segment : Text}
    (hs : ∀ c ∈ asConstant segment, isTame c = true) (hne : asConstant segment ≠ asConstant b.segment) :
    Passes (Pattern.recognise (.literal (Snippet.sentinelOf segment))) b.text := by
  rw [sentinelOf_eq_head]
  apply passes_sentinel_branch h
  rintro r ⟨x, hx⟩
  simp only [List.append_assoc] at hx
  have hcut := List.append_cancel_left hx
  -- Both constants end at the first blank.
  have hspace : ∀ t : Text, " */\x7d".toList ++ t = ' ' :: ("*/\x7d".toList ++ t) := fun _ => rfl
  rw [hspace, hspace] at hcut
  refine hne (Pattern.cut_unique (p := (· = ' ')) hcut ?_ ?_ (by simp) (by simp)).1
  · intro c hc
    rw [decide_eq_false_iff_not]
    rintro rfl
    exact not_mem_of_tame hs (x := ' ') (by decide) hc
  · intro c hc
    rw [decide_eq_false_iff_not]
    rintro rfl
    exact not_mem_of_tame h.constant (x := ' ') (by decide) hc

/-! ### Line endings -/

theorem Import.no_return {i : Import} (h : i.Sound) : '\r' ∉ i.text := by
  have hname := not_mem_of_tame h.name (x := '\r') (by decide)
  have hsource := h.not_mem_source (x := '\r') (by decide) (by decide) (by decide)
  rw [Import.text_eq, List.mem_append, List.mem_cons, List.mem_cons, List.mem_append, List.mem_append,
    List.mem_append]
  simp only [not_or]
  exact ⟨by decide, by decide, by decide, hname, by decide, hsource, by decide⟩

theorem Leaf.no_return {l : Leaf} (h : l.Sound) : '\r' ∉ l.text := by
  have hname := not_mem_of_tame h.name (x := '\r') (by decide)
  have hsegment := not_mem_of_tame h.segment (x := '\r') (by decide)
  rw [Leaf.text, pageElement_eq]
  simp only [List.mem_append, not_or]
  exact ⟨⟨by decide, hsegment, by decide, hname, by decide⟩, by decide⟩

theorem Branch.no_return {b : Branch} (h : b.Sound) : '\r' ∉ b.text := by
  have hname := not_mem_of_tame h.name (x := '\r') (by decide)
  have hsegment := not_mem_of_tame h.segment (x := '\r') (by decide)
  have hconstant := not_mem_of_tame h.constant (x := '\r') (by decide)
  have hleaves : '\r' ∉ b.leaves.flatMap Leaf.text := by
    rw [List.mem_flatMap]
    rintro ⟨l, hl, hmem⟩
    exact Leaf.no_return (h.leaves l hl) hmem
  have hopening : '\r' ∉ b.opening := by
    rw [show b.opening = "<Route path=\"".toList ++ b.segment ++ "\" element=\x7b<".toList ++ b.name
      ++ " />\x7d>".toList from rfl]
    simp only [List.mem_append, not_or]
    exact ⟨⟨⟨⟨by decide, hsegment⟩, by decide⟩, hname⟩, by decide⟩
  rw [Branch.text, sentinelOf_eq]
  simp only [List.mem_append, not_or]
  exact ⟨hopening, by decide, hleaves, ⟨by decide, hconstant, by decide⟩, by decide⟩

/-- The lines of a registry end in line feeds only. -/
theorem Outline.Sound.no_return {o : Outline} (h : o.Sound) : '\r' ∉ o.text := by
  have hrole := not_mem_role h.role (x := '\r') (by decide)
  have hlower := not_mem_lower_role h.role (x := '\r') (by decide)
  have hheader : '\r' ∉ o.headerText := by
    rw [Outline.headerText]
    split
    · exact Import.no_return sound_header
    · simp
  have himports : '\r' ∉ o.imports.flatMap Import.text := by
    rw [List.mem_flatMap]
    rintro ⟨i, hi, hmem⟩
    exact Import.no_return (h.imports i hi) hmem
  have hbranches : '\r' ∉ o.branches.flatMap Branch.text := by
    rw [List.mem_flatMap]
    rintro ⟨b, hb, hmem⟩
    exact Branch.no_return (h.branches b hb) hmem
  have hsignature : '\r' ∉ o.signature := by
    rw [show o.signature = "export default function ".toList ++ (o.role ++ "Routes".toList)
      ++ "() \x7b\n  return (\n    ".toList from rfl]
    simp only [List.mem_append, not_or]
    exact ⟨⟨by decide, hrole, by decide⟩, by decide⟩
  have hopening : '\r' ∉ o.opening := by
    rw [show o.opening = "<Route path=\"/".toList ++ Text.lower o.role ++ "\">".toList from rfl]
    simp only [List.mem_append, not_or]
    exact ⟨⟨by decide, hlower⟩, by decide⟩
  -- None of the pieces has a return.
  rw [Outline.text, Outline.head]
  simp only [List.mem_append, List.mem_cons, not_or]
  exact ⟨⟨hheader, by decide, himports⟩, hsignature, hopening, by decide, hbranches, by decide, by decide⟩

end Marker

end RouteScaffold

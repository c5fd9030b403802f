import RouteScaffold.Proofs.Edit.Leading
import RouteScaffold.Proofs.Marker.Blocks
import RouteScaffold.Proofs.Marker.Imports
import RouteScaffold.Proofs.Registry.Routed

/-!
# Revisions of Marker Registries

The revisions of the marker dialect, on prints of outlines. Each of them is a
function on outlines. Those that add something need what their guards have
established: that the name is not used, and where the block of the module is.

## Main definitions

* `Outline.addModule`, `Outline.addPage`, `Outline.removeModule`,
  `Outline.removePage`: The revisions, on outlines.

## Theorems

* `leads_addModule`, `leads_addPage`, `leads_removeModule`, `leads_removePage`:
  The revisions, on prints.
-/

namespace RouteScaffold

open Naming Text

namespace Marker

/-- The import of a module in a registry. -/
def moduleImport (m : ModuleRef) : Import := ⟨m.name, Registry.moduleSource m.segment m.name⟩

/-- The import of a page in a registry. -/
def pageImport (p : PageRef) : Import := ⟨p.name, Registry.pageSource p.module.segment p.name⟩

namespace Outline

/-- An outline with one more module. -/
def addModule (o : Outline) (m : ModuleRef) : Outline :=
  (o.addImport (moduleImport m)).addBranch ⟨m.segment, m.name, []⟩

/-- An outline with one more page. -/
def addPage (o : Outline) (p : PageRef) : Outline :=
  (o.addImport (pageImport p)).addLeaf (asConstant p.module.segment) ⟨p.segment, p.name⟩

/-- An outline without a module. -/
def removeModule (o : Outline) (m : ModuleRef) : Outline :=
  ((o.removeImports fun i => i.mentions m.name).removeImports fun i =>
    (Registry.pageSource m.segment []).isPrefixOf i.source).cutBranch m.segment

/-- An outline without a page. -/
def removePage (o : Outline) (p : PageRef) : Outline :=
  (o.removeImports fun i => i.mentions p.name).cutLeaf p.module.segment p.segment

end Outline

/-! ### Spelling -/

theorem moduleSource_eq (segment name : Text) : Registry.moduleSource segment name
    = "../modules/".toList ++ (segment ++ ('/' :: name)) := by
  rw [show Registry.moduleSource segment name
    = "../modules/".toList ++ segment ++ "/".toList ++ name from rfl]
  simp

theorem pageSource_eq (segment name : Text) : Registry.pageSource segment name
    = "../modules/".toList ++ (segment ++ ("/pages/".toList ++ name)) := by
  rw [show Registry.pageSource segment name
    = "../modules/".toList ++ segment ++ "/pages/".toList ++ name from rfl]
  simp

theorem sound_moduleImport {m : ModuleRef} (h : m.Spelled) : (moduleImport m).Sound := by
  refine ⟨h.name, ?_⟩
  rw [show (moduleImport m).source = Registry.moduleSource m.segment m.name from rfl,
    moduleSource_eq, List.forall_mem_append, List.forall_mem_append, List.forall_mem_cons]
  exact ⟨by decide, fun c hc => Or.inl (h.segment c hc), Or.inr (Or.inr rfl),
    fun c hc => Or.inl (h.name c hc)⟩

theorem sound_pageImport {p : PageRef} (h : p.Spelled) : (pageImport p).Sound := by
  refine ⟨h.name, ?_⟩
  rw [show (pageImport p).source = Registry.pageSource p.module.segment p.name from rfl,
    pageSource_eq, List.forall_mem_append, List.forall_mem_append, List.forall_mem_append]
  exact ⟨by decide, fun c hc => Or.inl (h.module.segment c hc), by decide,
    fun c hc => Or.inl (h.name c hc)⟩

theorem sound_addImport {o : Outline} (h : o.Sound) {i : Import} (hi : i.Sound) :
    (o.addImport i).Sound := by
  refine ⟨h.role, ?_, h.branches, h.constants⟩
  intro j hj
  rcases List.mem_append.mp hj with hj | hj
  · exact h.imports j hj
  · rw [List.mem_singleton.mp hj]
    exact hi

theorem sound_addBranch {o : Outline} (h : o.Sound) {b : Branch} (hb : b.Sound)
    (hnew : ∀ c ∈ o.branches, asConstant c.segment ≠ asConstant b.segment) :
    (o.addBranch b).Sound := by
  refine ⟨h.role, h.imports, ?_, ?_⟩
  · intro c hc
    rcases List.mem_append.mp hc with hc | hc
    · exact h.branches c hc
    · rw [List.mem_singleton.mp hc]
      exact hb
  · rw [show (o.addBranch b).branches = o.branches ++ [b] from rfl, List.map_append,
      List.nodup_append]
    refine ⟨h.constants, by simp, ?_⟩
    intro c hc d hd heq
    rcases List.mem_map.mp hc with ⟨x, hx, rfl⟩
    rw [List.map_singleton, List.mem_singleton] at hd
    exact hnew x hx (heq.trans hd)

theorem sound_addLeaf {o : Outline} (h : o.Sound) (constant : Text) {l : Leaf} (hl : l.Sound) :
    (o.addLeaf constant l).Sound := by
  refine ⟨h.role, h.imports, ?_, ?_⟩
  · intro c hc
    rcases List.mem_map.mp hc with ⟨b, hb, rfl⟩
    have hsound := h.branches b hb
    split
    · refine ⟨hsound.segment, hsound.name, hsound.constant, fun k hk => ?_⟩
      rcases List.mem_append.mp hk with hk | hk
      · exact hsound.leaves k hk
      · rw [List.mem_singleton.mp hk]
        exact hl
    · exact hsound
  -- A leaf more does not change the constants of the blocks.
  · have hmap : (o.addLeaf constant l).branches.map (fun b => asConstant b.segment)
        = o.branches.map fun b => asConstant b.segment := by
      rw [show (o.addLeaf constant l).branches = o.branches.map (fun b =>
        if asConstant b.segment = constant then { b with leaves := b.leaves ++ [l] } else b) from rfl,
        List.map_map]
      apply List.map_congr_left
      intro b hb
      simp only [Function.comp]
      split <;> rfl
    rw [hmap]
    exact h.constants

/-! ### What guards establish -/

/-- A block whose sentinel is not used is a new one. -/
theorem constant_ne_of_unused {o : Outline} {segment : Text}
    (hunused : Guard.uses o.text (Snippet.sentinelOf segment) = false) :
    ∀ b ∈ o.branches, asConstant b.segment ≠ asConstant segment := by
  intro b hb heq
  rcases List.append_of_mem hb with ⟨bs, cs, hsplit⟩
  have hword : (!(Snippet.sentinelOf segment).isEmpty && (Snippet.sentinelOf segment).all isWord)
      = false := by
    rw [sentinelOf_eq_head]
    rfl
  rw [Guard.uses, hword] at hunused
  simp only [Bool.false_eq_true, if_false] at hunused
  have hoccurs : Text.occurs (Snippet.sentinelOf segment) o.text = true := by
    rw [occurs_iff_part, ← sentinelOf_congr heq, text_at_sentinel hsplit]
    exact ⟨_, _, List.append_assoc _ _ _⟩
  rw [hunused] at hoccurs
  exact absurd hoccurs (by simp)

theorem importLine_delimited (i : Import) : ∃ s r, Snippet.importLine i.name i.source
    = s ++ ' ' :: (i.name ++ ' ' :: r) := by
  refine ⟨"import \x7b".toList, "\x7d from \"".toList ++ (i.source ++ "\";".toList), ?_⟩
  rw [importLine_eq]
  simp

theorem opening_delimited (b : Branch) : ∃ s r, b.opening = s ++ '<' :: (b.name ++ ' ' :: r) := by
  refine ⟨"<Route path=\"".toList ++ (b.segment ++ "\" element=\x7b".toList), "/>\x7d>".toList, ?_⟩
  rw [Branch.opening_eq]
  simp

theorem pageElement_delimited (segment name : Text) : ∃ s r, Snippet.pageElement segment name
    = s ++ '<' :: (name ++ ' ' :: r) := by
  refine ⟨"<Route path=\"".toList ++ (segment ++ "\" element=\x7b".toList), "/>\x7d />".toList, ?_⟩
  rw [pageElement_eq]
  simp

/-! ### The revisions -/

section Revisions

variable {o : Outline} {r : Registry}

theorem sound_addModule (h : o.Sound) {m : ModuleRef} (hm : m.Spelled)
    (hunused : Guard.uses o.text (Snippet.sentinelOf m.segment) = false) :
    (o.addModule m).Sound := by
  refine sound_addBranch (sound_addImport h (sound_moduleImport hm))
    ⟨hm.segment, hm.name, hm.constant, by simp⟩ ?_
  intro b hb
  exact constant_ne_of_unused hunused b hb

theorem leads_addModule (h : o.Sound) (hr : r.dialect = .marker) {m : ModuleRef}
    (hm : m.Spelled) (file : Text) (hunused : Guard.uses o.text m.name = false)
    (hsentinel : Guard.uses o.text (Snippet.sentinelOf m.segment) = false) :
    Edit.Leads file (r.addModule m).edits o.text (o.addModule m).text := by
  have hi := sound_moduleImport hm
  -- Both texts put in hold the name, which the guard did not find.
  rcases importLine_delimited (moduleImport m) with ⟨s, t, hline⟩
  rcases opening_delimited ⟨m.segment, m.name, []⟩ with ⟨s', t', hopening⟩
  have hnew := not_infix_of_unused hline hm.name_ne (by decide) (by decide) hunused
  have hfirst := before_export h hi file hnew
  have hopen := not_infix_of_unused hopening hm.name_ne (by decide) (by decide) hunused
  -- The first insertion does not make the second one superfluous.
  have hother : ¬ (Branch.mk m.segment m.name []).opening
      <:+: Snippet.importLine (moduleImport m).name (moduleImport m).source := by
    intro hin
    have hlt : '<' ∉ Snippet.importLine (moduleImport m).name (moduleImport m).source := by
      have := import_no_tag hi
      rw [Import.text, List.mem_append, not_or] at this
      exact this.1
    exact hlt (hin.subset (by rw [hopening]; simp))
  have hsecond := before_root (sound_addImport h hi) hm.segment hm.name hm.constant file
    (not_infix_addImport (opening_no_break hm.segment hm.name) hopen hother)
  have hedits : (r.addModule m).edits = [.before (.literal exportAnchor)
      (Snippet.importLine (moduleImport m).name (moduleImport m).source),
      .before (.literal rootSentinel) (Snippet.moduleElement m.segment m.name)] := by
    rw [Registry.addModule, hr]
    rfl
  rw [hedits]
  exact .cons hfirst (sound_addImport h hi).no_return
    (.cons hsecond (sound_addModule h hm hsentinel).no_return .nil)

theorem sound_addPage (h : o.Sound) {p : PageRef} (hp : p.Spelled) : (o.addPage p).Sound :=
  sound_addLeaf (sound_addImport h (sound_pageImport hp)) _ ⟨hp.segment, hp.name⟩

theorem leads_addPage (h : o.Sound) (hr : r.dialect = .marker) {p : PageRef}
    (hp : p.Spelled) (file : Text) (hunused : Guard.uses o.text p.name = false)
    (hfound : ((Anchor.literal (Snippet.sentinelOf p.module.segment)).locate? o.text).isSome = true) :
    Edit.Leads file (r.addPage p).edits o.text (o.addPage p).text := by
  have hi := sound_pageImport hp
  -- Both texts put in hold the name, which the guard did not find.
  rcases importLine_delimited (pageImport p) with ⟨s, t, hline⟩
  rcases pageElement_delimited p.segment p.name with ⟨s', t', helement⟩
  have hnew := not_infix_of_unused hline hp.name_ne (by decide) (by decide) hunused
  have hfirst := before_export h hi file hnew
  have hleaf : (Leaf.mk p.segment p.name).Sound := ⟨hp.segment, hp.name⟩
  have hopen := not_infix_of_unused helement hp.name_ne (by decide) (by decide) hunused
  -- The first insertion does not make the second one superfluous.
  have hother : ¬ Snippet.pageElement p.segment p.name
      <:+: Snippet.importLine (pageImport p).name (pageImport p).source := by
    intro hin
    have hlt : '<' ∉ Snippet.importLine (pageImport p).name (pageImport p).source := by
      have := import_no_tag hi
      rw [Import.text, List.mem_append, not_or] at this
      exact this.1
    exact hlt (hin.subset (by rw [helement]; simp))
  rcases exists_branch_of_locate h hp.module.constant hfound with ⟨b, hb, hseg⟩
  have hsecond := before_page (sound_addImport h hi) (b := b) hb hseg hleaf file
    (not_infix_addImport (pageElement_no_break hleaf) hopen hother)
  have hedits : (r.addPage p).edits = [.before (.literal exportAnchor)
      (Snippet.importLine (pageImport p).name (pageImport p).source),
      .before (.literal (Snippet.sentinelOf p.module.segment))
        (Snippet.pageElement p.segment p.name)] := by
    rw [Registry.addPage, hr]
    rfl
  rw [hedits]
  exact .cons hfirst (sound_addImport h hi).no_return
    (.cons hsecond (sound_addPage h hp).no_return .nil)

theorem sound_removeModule (h : o.Sound) (m : ModuleRef) : (o.removeModule m).Sound :=
  sound_cutBranch (sound_removeImports (sound_removeImports h _) _) _

theorem leads_removeModule (h : o.Sound) (hr : r.dialect = .marker) {m : ModuleRef}
    (hm : m.Spelled) (file : Text) :
    Edit.Leads file (r.removeModule m).edits o.text (o.removeModule m).text := by
  have hfirst := erase_importOf h (not_mem_of_tame hm.name (x := ';') (by decide))
  have hsound := sound_removeImports h fun i => i.mentions m.name
  have hfolder : ∀ c ∈ Registry.pageSource m.segment [], Pattern.isQuote c = false := by
    rw [pageSource_eq, List.forall_mem_append, List.forall_mem_append]
    refine ⟨by decide, fun c hc => ?_, by decide⟩
    cases hq : Pattern.isQuote c with
    | false => rfl
    | true =>
        have htame := hm.segment c hc
        simp only [Pattern.isQuote, Bool.or_eq_true, decide_eq_true_eq] at hq
        rcases hq with rfl | rfl <;> exact absurd htame (by decide)
  have hsecond := erase_importFrom hsound hfolder
  have hsound' := sound_removeImports hsound fun i =>
    (Registry.pageSource m.segment []).isPrefixOf i.source
  have hthird := remove_branch hsound' m.segment file
  have hedits : (r.removeModule m).edits = [.erase (.importOf m.name),
      .erase (.importFrom (Registry.pageSource m.segment [])), .cutRoute m.segment none] := by
    rw [Registry.removeModule, hr]
  rw [hedits]
  exact .cons (congrArg Except.ok hfirst) hsound.no_return (.cons (congrArg Except.ok hsecond)
    hsound'.no_return (.cons hthird (sound_removeModule h m).no_return .nil))

theorem sound_removePage (h : o.Sound) (p : PageRef) : (o.removePage p).Sound :=
  sound_cutLeaf (sound_removeImports h _) _ _

theorem leads_removePage (h : o.Sound) (hr : r.dialect = .marker) {p : PageRef}
    (hp : p.Spelled) (file : Text) :
    Edit.Leads file (r.removePage p).edits o.text (o.removePage p).text := by
  have hfirst := erase_importOf h (not_mem_of_tame hp.name (x := ';') (by decide))
  have hsecond := remove_leaf (sound_removeImports h fun i => i.mentions p.name)
    p.module.segment p.segment file
  have hedits : (r.removePage p).edits = [.erase (.importOf p.name),
      .cutRoute p.segment (some p.module.segment)] := by
    rw [Registry.removePage, hr]
  rw [hedits]
  exact .cons (congrArg Except.ok hfirst) (sound_removeImports h _).no_return
    (.cons hsecond (sound_removePage h p).no_return .nil)

end Revisions

end Marker

end RouteScaffold

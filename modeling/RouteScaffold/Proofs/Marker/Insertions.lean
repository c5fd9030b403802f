import Mathlib.Data.List.Nodup
import RouteScaffold.Proofs.Marker.Outline
import RouteScaffold.Proofs.Registry.Guards
import RouteScaffold.Registry.Basic

/-!
# Insertions into Marker Registries

What the insertions of the marker dialect make of the print of an outline: the
print of the outline with one more import, one more block, or one more line in
a block.

An insertion only happens if its lines are not there yet. The guards see to
that: they refuse a name that the text uses, and all of those lines hold the
name between two characters that are no part of words.

## Main definitions

* `Outline.addImport`, `Outline.addBranch`, `Outline.addLeaf`: Outlines with
  more in them.

## Theorems

* `before_export`, `before_root`, `before_page`: The three insertions.
-/

namespace RouteScaffold

open Naming Recogniser Text

namespace Marker

namespace Outline

/-- An outline with one more import. -/
def addImport (o : Outline) (i : Import) : Outline := { o with imports := o.imports ++ [i] }

/-- An outline with one more block. -/
def addBranch (o : Outline) (b : Branch) : Outline := { o with branches := o.branches ++ [b] }

/-- An outline with one more line in the blocks that have a sentinel. -/
def addLeaf (o : Outline) (constant : Text) (l : Leaf) : Outline :=
  { o with branches := o.branches.map fun b =>
      if asConstant b.segment = constant then { b with leaves := b.leaves ++ [l] } else b }

end Outline

/-! ### Anchors -/

theorem locate_literal {l s r : Text} (h : Passes (Pattern.recognise (.literal l)) s) :
    (Anchor.literal l).locate? (s ++ (l ++ r)) = some ⟨s, l, r⟩ :=
  find?_of_quiet _ s l r ⟨Cursor.passed (Cursor.passed none s) l, r⟩ (h none (l ++ r))
    (Cursor.literal?_append l _ r) rfl

/-- A text whose parts end in a line break and an indentation ends so too. -/
theorem ends_flatMap {α : Type} (s indent : Text) (f : α → Text) (xs : List α)
    (hf : ∀ x ∈ xs, ∃ t, f x = t ++ '\n' :: indent) :
    ∃ t, s ++ '\n' :: indent ++ xs.flatMap f = t ++ '\n' :: indent := by
  rcases List.eq_nil_or_concat xs with rfl | ⟨ys, x, rfl⟩
  · exact ⟨s, by simp⟩
  · rw [List.concat_eq_append] at hf ⊢
    rcases hf x (by simp) with ⟨t, ht⟩
    exact ⟨s ++ '\n' :: indent ++ (ys.flatMap f ++ t), by simp [ht]⟩

theorem head_ends (o : Outline) : ∃ t, o.head = t ++ ['\n'] := by
  have h := ends_flatMap o.headerText [] Import.text o.imports fun i _ =>
    ⟨Snippet.importLine i.name i.source, rfl⟩
  rcases h with ⟨t, ht⟩
  refine ⟨t, ?_⟩
  rw [← ht, show o.head = o.headerText ++ ('\n' :: o.imports.flatMap Import.text) from rfl]
  simp

/-! ### Imports -/

theorem importLine_no_break {i : Import} (h : i.Sound) :
    '\n' ∉ Snippet.importLine i.name i.source := by
  rw [importLine_eq, List.mem_append, List.mem_append, List.mem_append, List.mem_append, not_or,
    not_or, not_or, not_or]
  exact ⟨by decide, not_mem_of_tame h.name (by decide), by decide,
    h.not_mem_source (by decide) (by decide) (by decide), by decide⟩

theorem trimmedLines_importLine {i : Import} (h : i.Sound) :
    trimmedLines (Snippet.importLine i.name i.source) = [Snippet.importLine i.name i.source] := by
  have hend : ∃ t, Snippet.importLine i.name i.source = 'i' :: (t ++ [';']) := by
    refine ⟨"mport \x7b ".toList ++ (i.name ++ (" \x7d from \"".toList ++ (i.source ++ ['"']))), ?_⟩
    rw [importLine_eq]
    simp
  rcases hend with ⟨t, ht⟩
  apply trimmedLines_line (importLine_no_break h)
  · rw [ht]
    simp
  · rw [ht]
    simp
    decide
  · rw [ht, ← List.cons_append, List.getLast?_concat]
    simp
    decide

theorem head_addImport (o : Outline) (i : Import) : (o.addImport i).head = o.head ++ i.text := by
  rw [show (o.addImport i).head
      = o.headerText ++ ('\n' :: (o.imports ++ [i]).flatMap Import.text) from rfl,
    show o.head = o.headerText ++ ('\n' :: o.imports.flatMap Import.text) from rfl]
  simp

/-- An import is put below the others. -/
theorem before_export {o : Outline} (h : o.Sound) {i : Import} (hi : i.Sound) (file : Text)
    (hnew : ¬ Snippet.importLine i.name i.source <:+: o.text) :
    Insert.before o.text (.literal exportAnchor) (Snippet.importLine i.name i.source) file
      = .ok (o.addImport i).text := by
  have hrest : ∃ r, o.text = o.head ++ (exportAnchor ++ r) ∧
      (o.addImport i).text = (o.addImport i).head ++ (exportAnchor ++ r) :=
    ⟨" function ".toList ++ registrySymbol o.role ++ "() \x7b\n  return (\n    ".toList
      ++ (o.opening ++ ("\n        ".toList ++ (o.branches.flatMap Branch.text
      ++ (rootSentinel ++ Outline.tail)))), rfl, rfl⟩
  rcases hrest with ⟨r, hr, hr'⟩
  rcases head_ends o with ⟨t, ht⟩
  have hindent : lastIndent o.head = [] := by
    rw [ht]
    exact lastIndent_append t (by simp)
  have hholds := alreadyHolds_eq_false (trimmedLines_importLine hi) hnew
  have hlocate := locate_literal (r := r) (passes_export_head h)
  rw [← hr] at hlocate
  rw [Insert.before_eq hholds hlocate, hindent, reindent_line (importLine_no_break hi), hr',
    head_addImport, Import.text]
  simp

/-- A part of a line that is no part of a text or of an import is none of the
    text with the import. -/
theorem not_infix_addImport {o : Outline} {i : Import} {l : Text} (hbreak : '\n' ∉ l)
    (hold : ¬ l <:+: o.text) (hline : ¬ l <:+: Snippet.importLine i.name i.source) :
    ¬ l <:+: (o.addImport i).text := by
  rcases head_ends o with ⟨t, ht⟩
  have hsplit : ∃ r, o.text = t ++ '\n' :: r ∧ (o.addImport i).text
      = t ++ '\n' :: (Snippet.importLine i.name i.source ++ '\n' :: r) := by
    refine ⟨o.signature ++ (o.opening ++ ("\n        ".toList ++ (o.branches.flatMap Branch.text
      ++ (rootSentinel ++ Outline.tail)))), ?_, ?_⟩
    · rw [show o.text = o.head ++ (o.signature ++ (o.opening ++ ("\n        ".toList
        ++ (o.branches.flatMap Branch.text ++ (rootSentinel ++ Outline.tail))))) from rfl, ht]
      simp
    · rw [show (o.addImport i).text = (o.addImport i).head ++ (o.signature ++ (o.opening
        ++ ("\n        ".toList ++ (o.branches.flatMap Branch.text ++ (rootSentinel ++ Outline.tail)))))
        from rfl, head_addImport, ht]
      simp [Import.text]
  rcases hsplit with ⟨r, hr, hr'⟩
  rw [hr] at hold
  rw [hr']
  intro h
  rcases infix_delimited hbreak h with h | h
  · exact hold (h.trans (List.prefix_append t _).isInfix)
  · rcases infix_delimited hbreak h with h | h
    · exact hline h
    · exact hold (h.trans ((List.suffix_cons _ r).trans (List.suffix_append t _)).isInfix)

/-! ### Blocks -/

theorem indent_eight : ∀ c ∈ "        ".toList, isIndent c = true := by decide

theorem indent_ten : ∀ c ∈ "          ".toList, isIndent c = true := by decide

theorem branch_ends (b : Branch) : ∃ t, b.text = t ++ '\n' :: "        ".toList := by
  refine ⟨b.opening ++ ("\n          ".toList ++ (b.leaves.flatMap Leaf.text
    ++ (Snippet.sentinelOf b.segment ++ "\n        </Route>".toList))), ?_⟩
  rw [show b.text = b.opening ++ ("\n          ".toList ++ (b.leaves.flatMap Leaf.text
    ++ (Snippet.sentinelOf b.segment ++ "\n        </Route>\n        ".toList))) from rfl]
  simp

/-- A tag that names have been written into is on one line if the names are. -/
theorem opening_line {b : Branch} (hs : '\n' ∉ b.segment) (hn : '\n' ∉ b.name) :
    '\n' ∉ b.opening := by
  rw [Branch.opening_eq, List.mem_append, List.mem_append, List.mem_append, List.mem_cons,
    List.mem_cons, List.mem_append, not_or, not_or, not_or, not_or, not_or, not_or]
  exact ⟨by decide, hs, by decide, by decide, by decide, hn, by decide⟩

theorem opening_no_break {b : Branch} (hs : ∀ c ∈ b.segment, isTame c = true)
    (hn : ∀ c ∈ b.name, isTame c = true) : '\n' ∉ b.opening :=
  opening_line (not_mem_of_tame hs (by decide)) (not_mem_of_tame hn (by decide))

theorem sentinel_no_break {segment : Text} (h : ∀ c ∈ asConstant segment, isTame c = true) :
    '\n' ∉ Snippet.sentinelOf segment := by
  rw [sentinelOf_eq, List.mem_append, List.mem_append, not_or, not_or]
  exact ⟨by decide, not_mem_of_tame h (by decide), by decide⟩

theorem opening_ends (b : Branch) : ∃ t, b.opening = '<' :: (t ++ ['>']) := by
  refine ⟨"Route path=\"".toList ++ (b.segment ++ ("\" element=".toList
    ++ '\x7b' :: '<' :: (b.name ++ " />\x7d".toList))), ?_⟩
  rw [Branch.opening_eq]
  simp

/-- The lines of a module begin with its tag. -/
theorem trimmedLines_moduleElement {b : Branch} (hs : ∀ c ∈ b.segment, isTame c = true)
    (hn : ∀ c ∈ b.name, isTame c = true) : ∃ wanted,
    trimmedLines (Snippet.moduleElement b.segment b.name) = b.opening :: wanted := by
  rcases opening_ends b with ⟨t, ht⟩
  rw [moduleElement_eq, show (Branch.mk b.segment b.name []).opening = b.opening from rfl,
    trimmedLines_append (opening_no_break hs hn)]
  · exact ⟨_, rfl⟩
  · rw [ht]
    simp
  · rw [ht, List.head?_cons]
    simp
    decide
  · rw [ht, ← List.cons_append, List.getLast?_concat]
    simp
    decide

/-- The text of an outline up to the place of its next block. -/
def Outline.body (o : Outline) : Text :=
  o.head ++ (o.signature ++ (o.opening ++ ("\n        " ++ o.branches.flatMap Branch.text)))

theorem text_eq_body (o : Outline) : o.text = o.body ++ (rootSentinel ++ Outline.tail) := by
  rw [show o.text = o.head ++ (o.signature ++ (o.opening ++ ("\n        ".toList
      ++ (o.branches.flatMap Branch.text ++ (rootSentinel ++ Outline.tail))))) from rfl,
    show o.body = o.head ++ (o.signature ++ (o.opening ++ ("\n        ".toList
      ++ o.branches.flatMap Branch.text))) from rfl]
  simp only [List.append_assoc]

theorem body_ends (o : Outline) : ∃ t, o.body = t ++ '\n' :: "        ".toList := by
  have h := ends_flatMap (o.head ++ (o.signature ++ o.opening)) "        ".toList Branch.text
    o.branches fun b _ => branch_ends b
  rcases h with ⟨t, ht⟩
  refine ⟨t, ?_⟩
  rw [← ht, show o.body = o.head ++ (o.signature ++ (o.opening ++ ("\n        ".toList
    ++ o.branches.flatMap Branch.text))) from rfl]
  simp

theorem passes_root_body {o : Outline} (h : o.Sound) :
    Passes (Pattern.recognise (.literal rootSentinel)) o.body := by
  rw [show o.body = o.head ++ (o.signature ++ (o.opening ++ ("\n        ".toList
    ++ o.branches.flatMap Branch.text))) from rfl, ← List.append_assoc o.opening,
    ← List.append_assoc o.signature]
  have hframe := @passes_sentinel_frame "* MODULE_ROUTES */\x7d".toList _ h
  refine Passes.append ?_ (Passes.append ?_ (passes_flatMap fun b hb =>
    passes_root_branch (h.branches b hb)))
  · rw [rootSentinel_eq]
    exact passes_sentinel_head h
  · rw [rootSentinel_eq]
    exact hframe

/-- A block is put below the others. -/
theorem before_root {o : Outline} (h : o.Sound) {segment name : Text}
    (hs : ∀ c ∈ segment, isTame c = true) (hn : ∀ c ∈ name, isTame c = true)
    (hc : ∀ c ∈ asConstant segment, isTame c = true) (file : Text)
    (hnew : ¬ (Branch.mk segment name []).opening <:+: o.text) :
    Insert.before o.text (.literal rootSentinel) (Snippet.moduleElement segment name) file
      = .ok (o.addBranch ⟨segment, name, []⟩).text := by
  -- The lines to be put in are not there yet, and their place is in front of the sentinel.
  rcases trimmedLines_moduleElement (b := ⟨segment, name, []⟩) hs hn with ⟨wanted, hwanted⟩
  have hholds := alreadyHolds_eq_false hwanted hnew
  have hlocate := locate_literal (r := Outline.tail) (passes_root_body h)
  rw [← text_eq_body] at hlocate
  rcases body_ends o with ⟨t, ht⟩
  -- They are moved in as far as the sentinel is.
  have hindent : lastIndent o.body = "        ".toList := by
    rw [ht]
    exact lastIndent_append t indent_eight
  have hopening : (Branch.mk segment name []).opening ≠ [] := by
    rcases opening_ends ⟨segment, name, []⟩ with ⟨u, hu⟩
    rw [hu]
    simp
  have hsentinel : isBlankLine ("  ".toList ++ Snippet.sentinelOf segment) = false := by
    refine List.all_eq_false.mpr ⟨'\x7b', ?_, by decide⟩
    rw [sentinelOf_eq_head]
    simp [sentinelHead]
  have hbreak : '\n' ∉ "  ".toList ++ Snippet.sentinelOf segment := by
    rw [List.mem_append, not_or]
    exact ⟨by decide, sentinel_no_break hc⟩
  have hbody : (o.addBranch ⟨segment, name, []⟩).body = o.body
      ++ (Branch.mk segment name []).text := by
    rw [show (o.addBranch ⟨segment, name, []⟩).body = o.head ++ (o.signature ++ (o.opening
      ++ ("\n        ".toList ++ (o.branches ++ [Branch.mk segment name []]).flatMap Branch.text))) from rfl,
      show o.body = o.head ++ (o.signature ++ (o.opening ++ ("\n        ".toList
      ++ o.branches.flatMap Branch.text))) from rfl]
    simp only [List.flatMap_append, List.flatMap_cons, List.flatMap_nil, List.append_nil,
      List.append_assoc]
  rw [Insert.before_eq hholds hlocate, hindent, moduleElement_eq,
    reindent_lines (opening_no_break hs hn) hbreak (by decide) hopening hsentinel (by decide),
    text_eq_body, hbody, show (Branch.mk segment name []).text = (Branch.mk segment name []).opening
      ++ ("\n          ".toList ++ ([] ++ (Snippet.sentinelOf segment
      ++ "\n        </Route>\n        ".toList))) from rfl]
  simp

/-! ### Lines of pages -/

/-- An outline with other blocks. -/
def Outline.withBranches (o : Outline) (bs : List Branch) : Outline := { o with branches := bs }

theorem body_withBranches (o : Outline) (bs cs : List Branch) :
    (o.withBranches (bs ++ cs)).body = (o.withBranches bs).body ++ cs.flatMap Branch.text := by
  rw [show (o.withBranches (bs ++ cs)).body = o.head ++ (o.signature ++ (o.opening
      ++ ("\n        ".toList ++ (bs ++ cs).flatMap Branch.text))) from rfl,
    show (o.withBranches bs).body = o.head ++ (o.signature ++ (o.opening
      ++ ("\n        ".toList ++ bs.flatMap Branch.text))) from rfl]
  simp only [List.flatMap_append, List.append_assoc]

theorem sound_withBranches {o : Outline} (h : o.Sound) {bs : List Branch}
    (hbs : List.Sublist bs o.branches) : (o.withBranches bs).Sound :=
  ⟨h.role, h.imports, fun b hb => h.branches b (hbs.subset hb), h.constants.sublist (hbs.map _)⟩

/-- The text of an outline, opened at the sentinel of a block. -/
theorem text_at_sentinel {o : Outline} {bs cs : List Branch} {b : Branch}
    (hsplit : o.branches = bs ++ b :: cs) :
    o.text = ((o.withBranches bs).body ++ (b.opening ++ ("\n          ".toList
      ++ b.leaves.flatMap Leaf.text))) ++ (Snippet.sentinelOf b.segment
      ++ ("\n        </Route>\n        ".toList ++ (cs.flatMap Branch.text
      ++ (rootSentinel ++ Outline.tail)))) := by
  have hbody := body_withBranches o bs (b :: cs)
  rw [← hsplit, show (o.withBranches o.branches).body = o.body from rfl] at hbody
  rw [text_eq_body, hbody, List.flatMap_cons, show b.text = b.opening ++ ("\n          ".toList
    ++ (b.leaves.flatMap Leaf.text ++ (Snippet.sentinelOf b.segment
    ++ "\n        </Route>\n        ".toList))) from rfl]
  simp only [List.append_assoc]

/-- Blocks with distinct sentinels have no other one with the sentinel of a
    given one. -/
theorem constant_ne {o : Outline} (h : o.Sound) {bs cs : List Branch} {b : Branch}
    (hsplit : o.branches = bs ++ b :: cs) :
    ∀ c ∈ bs ++ cs, asConstant c.segment ≠ asConstant b.segment := by
  have hnodup := h.constants
  rw [hsplit, List.map_append, List.map_cons] at hnodup
  have hb := (List.nodup_middle.mp hnodup).notMem
  rw [← List.map_append] at hb
  intro c hc heq
  exact hb (List.mem_map.mpr ⟨c, hc, heq⟩)

theorem addLeaf_split {o : Outline} (h : o.Sound) {bs cs : List Branch} {b : Branch}
    (hsplit : o.branches = bs ++ b :: cs) (l : Leaf) :
    (o.addLeaf (asConstant b.segment) l).branches
      = bs ++ { b with leaves := b.leaves ++ [l] } :: cs := by
  have hne := constant_ne h hsplit
  have hkeep : ∀ xs : List Branch, (∀ c ∈ xs, asConstant c.segment ≠ asConstant b.segment) →
      xs.map (fun c => if asConstant c.segment = asConstant b.segment
        then { c with leaves := c.leaves ++ [l] } else c) = xs := by
    intro xs hxs
    conv_rhs => rw [← List.map_id xs]
    apply List.map_congr_left
    intro c hc
    rw [if_neg (hxs c hc)]
    rfl
  rw [show (o.addLeaf (asConstant b.segment) l).branches = o.branches.map (fun c =>
    if asConstant c.segment = asConstant b.segment then { c with leaves := c.leaves ++ [l] } else c)
    from rfl, hsplit, List.map_append, List.map_cons, if_pos rfl,
    hkeep bs fun c hc => hne c (by simp [hc]), hkeep cs fun c hc => hne c (by simp [hc])]

theorem pageElement_ends (segment name : Text) :
    ∃ t, Snippet.pageElement segment name = '<' :: (t ++ ['>']) := by
  refine ⟨"Route path=\"".toList ++ (segment ++ ("\" element=\x7b<".toList
    ++ (name ++ " />\x7d /".toList))), ?_⟩
  rw [pageElement_eq]
  simp

theorem pageElement_line {segment name : Text} (hs : '\n' ∉ segment) (hn : '\n' ∉ name) :
    '\n' ∉ Snippet.pageElement segment name := by
  rw [pageElement_eq, List.mem_append, List.mem_append, List.mem_append, List.mem_append, not_or,
    not_or, not_or, not_or]
  exact ⟨by decide, hs, by decide, hn, by decide⟩

theorem pageElement_no_break {l : Leaf} (h : l.Sound) :
    '\n' ∉ Snippet.pageElement l.segment l.name :=
  pageElement_line (not_mem_of_tame h.segment (by decide)) (not_mem_of_tame h.name (by decide))

theorem trimmedLines_pageElement {l : Leaf} (h : l.Sound) :
    trimmedLines (Snippet.pageElement l.segment l.name)
      = [Snippet.pageElement l.segment l.name] := by
  rcases pageElement_ends l.segment l.name with ⟨t, ht⟩
  apply trimmedLines_line (pageElement_no_break h)
  · rw [ht]
    simp
  · rw [ht, List.head?_cons]
    simp
    decide
  · rw [ht, ← List.cons_append, List.getLast?_concat]
    simp
    decide

theorem sentinelOf_congr {s t : Text} (h : asConstant s = asConstant t) :
    Snippet.sentinelOf s = Snippet.sentinelOf t := by
  rw [sentinelOf_eq, sentinelOf_eq, h]

/-- The line of a page is put below the others of its block. -/
theorem before_page {o : Outline} (h : o.Sound) {b : Branch} (hb : b ∈ o.branches)
    {segment : Text} (hseg : asConstant b.segment = asConstant segment) {l : Leaf} (hl : l.Sound)
    (file : Text) (hnew : ¬ Snippet.pageElement l.segment l.name <:+: o.text) :
    Insert.before o.text (.literal (Snippet.sentinelOf segment))
        (Snippet.pageElement l.segment l.name) file
      = .ok (o.addLeaf (asConstant segment) l).text := by
  -- The sentinel of this block is the only one of its name, so the search passes everything in front of it.
  rcases List.append_of_mem hb with ⟨bs, cs, hsplit⟩
  have hsound := h.branches b hb
  have htext := text_at_sentinel hsplit
  have hpasses : Passes (Pattern.recognise (.literal (Snippet.sentinelOf b.segment)))
      ((o.withBranches bs).body ++ (b.opening ++ ("\n          ".toList
        ++ b.leaves.flatMap Leaf.text))) := by
    have hne := constant_ne h hsplit
    have hbs : List.Sublist bs o.branches := by
      rw [hsplit]
      exact List.sublist_append_left bs _
    have hout := sound_withBranches h hbs
    refine Passes.append ?_ (Passes.append ?_ (Passes.append ?_ (passes_flatMap fun l hl => ?_)))
    · rw [show (o.withBranches bs).body = o.head ++ (o.signature ++ (o.opening
        ++ ("\n        ".toList ++ bs.flatMap Branch.text))) from rfl, ← List.append_assoc o.opening,
        ← List.append_assoc o.signature]
      refine Passes.append (passes_sentinel_head h) (Passes.append (passes_sentinel_frame h)
        (passes_flatMap fun c hc => ?_))
      exact passes_page_branch (h.branches c (hbs.subset hc)) hsound.constant
        (hne c (by simp [hc])).symm
    · exact passes_sentinel_opening hsound
    · exact Pattern.passes_literal_of_not_mem (by decide)
    · exact passes_sentinel_leaf (hsound.leaves l hl)
  have hlocate := locate_literal (r := "\n        </Route>\n        ".toList
    ++ (cs.flatMap Branch.text ++ (rootSentinel ++ Outline.tail))) hpasses
  rw [← htext] at hlocate
  -- The leaves and the blocks above end in the indentation of the sentinel.
  have hindent : ∃ t, (o.withBranches bs).body ++ (b.opening ++ ("\n          ".toList
      ++ b.leaves.flatMap Leaf.text)) = t ++ '\n' :: "          ".toList := by
    have := ends_flatMap ((o.withBranches bs).body ++ b.opening) "          ".toList Leaf.text
      b.leaves fun l _ => ⟨Snippet.pageElement l.segment l.name, rfl⟩
    rcases this with ⟨t, ht⟩
    refine ⟨t, ?_⟩
    rw [← ht]
    simp
  rcases hindent with ⟨t, ht⟩
  have hlast := lastIndent_append t indent_ten
  rw [← ht] at hlast
  have hafter := text_at_sentinel (addLeaf_split h hsplit l)
  rw [← sentinelOf_congr hseg, ← hseg,
    Insert.before_eq (alreadyHolds_eq_false (trimmedLines_pageElement hl) hnew) hlocate, hlast,
    reindent_line (pageElement_no_break hl), hafter, List.flatMap_append,
    show ((o.addLeaf (asConstant b.segment) l).withBranches bs).body = (o.withBranches bs).body
      from rfl,
    show ({ b with leaves := b.leaves ++ [l] } : Branch).opening = b.opening from rfl]
  simp [Leaf.text]

/-- A sentinel that is found is that of a block. -/
theorem exists_branch_of_locate {o : Outline} (h : o.Sound) {segment : Text}
    (hs : ∀ c ∈ asConstant segment, isTame c = true)
    (hfound : ((Anchor.literal (Snippet.sentinelOf segment)).locate? o.text).isSome = true) :
    ∃ b ∈ o.branches, asConstant b.segment = asConstant segment := by
  by_contra hnone
  have hne : ∀ b ∈ o.branches, asConstant segment ≠ asConstant b.segment :=
    fun b hb heq => hnone ⟨b, hb, heq.symm⟩
  have hpasses : Passes (Pattern.recognise (.literal (Snippet.sentinelOf segment))) o.text := by
    rw [text_eq_body, show o.body = o.head ++ (o.signature ++ (o.opening
      ++ ("\n        ".toList ++ o.branches.flatMap Branch.text))) from rfl,
      ← List.append_assoc o.opening, ← List.append_assoc o.signature]
    refine Passes.append (Passes.append (passes_sentinel_head h) (Passes.append
      (passes_sentinel_frame h) (passes_flatMap fun b hb =>
        passes_page_branch (h.branches b hb) hs (hne b hb)))) (Passes.append ?_ ?_)
    · rw [rootSentinel_eq, sentinelOf_eq_head]
      refine passes_other_sentinel ?_ (by decide)
      rintro r ⟨x, hx⟩
      simp at hx
    · exact Pattern.passes_literal_of_not_mem (by decide)
  have hnothing := find?_eq_none_of_quiet _ o.text (hpasses none []) rfl
  rw [Anchor.locate?] at hfound
  rw [Anchor.pattern, hnothing] at hfound
  exact absurd hfound (by simp)

end Marker

end RouteScaffold

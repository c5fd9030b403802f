import RouteScaffold.Proofs.Marker.Live

/-!
# The Words of a Registry

Which words a registry of the marker dialect holds can be read off its outline: those of
its imports, those of its blocks and their lines, and a few that the registry of the role
has from the start. An accepted name without a dollar sign is one word, begins with a
capital and has no underscore. So it is no part of a segment and none of a sentinel, and
a registry that holds it imports or renders something of this name, or has it from its
template.

## Main definitions

* `Outline.Plain`: The names in the blocks are accepted and have no dollar sign.
* `Outline.Renders`: A block or a line renders a name.

## Theorems

* `mentions_text_iff`: The names that a registry holds.
* `Distinct.mentions_removePage`: What is left of the name of a removed page.
-/

namespace RouteScaffold

open Naming Text

namespace Marker

/-! ### The words of the parts -/

theorem tokens_import (i : Import) :
    tokens i.text = "import".toList :: tokens (Pattern.importBody i.name i.source) := by
  have hend : tokens ";\n".toList = [] := by decide
  rw [Import.text_statement, show Pattern.statement (Pattern.importBody i.name i.source)
    = "import ".toList ++ Pattern.importBody i.name i.source ++ ";\n".toList from rfl,
    tokens_append_of_head _ (by decide), tokens_append (by decide), hend, List.append_nil]
  rfl

/-- The words of an element, in front of what closes it. -/
theorem tokens_element (segment name : Text) {rest : Text} (h : rest.head?.any isWord = false) :
    tokens ("<Route path=\"".toList ++ (segment ++ ("\" element=".toList ++ '\x7b' :: '<' :: (name ++ rest))))
      = "Route".toList :: "path".toList :: (tokens segment ++ "element".toList :: (tokens name ++ tokens rest)) := by
  have hopen : "\" element=".toList ++ '\x7b' :: '<' :: (name ++ rest) = "\" element=\x7b<".toList ++ (name ++ rest) := rfl
  rw [hopen, tokens_append (by decide), tokens_append_of_head _ (by rfl), tokens_append (by decide),
    tokens_append_of_head _ h]
  rfl

theorem tokens_leaf (l : Leaf) : tokens l.text
    = "Route".toList :: "path".toList :: (tokens l.segment ++ "element".toList :: tokens l.name) := by
  have hend : tokens " />\x7d />\n          ".toList = [] := by decide
  rw [Leaf.text_eq, @tokens_element _ _ " />\x7d />\n          ".toList (by decide), hend, List.append_nil]

theorem tokens_opening (b : Branch) : tokens b.opening
    = "Route".toList :: "path".toList :: (tokens b.segment ++ "element".toList :: tokens b.name) := by
  have hend : tokens " />\x7d>".toList = [] := by decide
  rw [Branch.opening_eq, @tokens_element _ _ " />\x7d>".toList (by decide), hend, List.append_nil]

/-- The marker of a sentinel is one word. -/
theorem tokens_sentinelOf {segment : Text} (h : ∀ c ∈ asConstant segment, isWord c = true) :
    tokens (Snippet.sentinelOf segment) = ["PAGE_ROUTES_".toList ++ asConstant segment] := by
  have hmarker : ∀ c ∈ "PAGE_ROUTES_".toList, isWord c = true := by decide
  have hrun : tokens ("PAGE_ROUTES_".toList ++ asConstant segment) = ["PAGE_ROUTES_".toList ++ asConstant segment] := by
    exact tokens_word (by simp) fun c hc => (List.mem_append.mp hc).elim (hmarker c) (h c)
  have hsplit : Snippet.sentinelOf segment
      = "\x7b/* ".toList ++ (("PAGE_ROUTES_".toList ++ asConstant segment) ++ " */\x7d".toList) := by
    rw [sentinelOf_eq]
    simp
  rw [hsplit, tokens_append (by decide), tokens_append_of_head _ (by decide), hrun]
  rfl

theorem tokens_branch {b : Branch} (h : ∀ c ∈ asConstant b.segment, isWord c = true) : tokens b.text
    = tokens b.opening ++ (b.leaves.flatMap (fun l => tokens l.text)
      ++ ["PAGE_ROUTES_".toList ++ asConstant b.segment, "Route".toList]) := by
  have hgap : tokens "\n          ".toList = [] := by decide
  have hend : tokens "\n        </Route>\n        ".toList = ["Route".toList] := by decide
  have hleaf : ∀ l ∈ b.leaves, l.text.getLast?.any isWord = false := fun l _ => by
    rw [Leaf.text, List.getLast?_append_of_ne_nil _ (by decide)]
    decide
  rw [Branch.text, tokens_append_of_head b.opening (by rfl), tokens_append (by decide), hgap, List.nil_append,
    tokens_flatMap_append hleaf, tokens_append_of_head _ (by decide), tokens_sentinelOf h, hend]
  rfl

/-! ### The words of an outline -/

theorem tokens_text (o : Outline) : tokens o.text = tokens o.headerText
    ++ (o.imports.flatMap (fun i => tokens i.text) ++ (tokens o.signature ++ (tokens o.opening
      ++ (o.branches.flatMap (fun b => tokens b.text) ++ tokens (rootSentinel ++ Outline.tail))))) := by
  have hgap : tokens "\n        ".toList = [] := by decide
  have himport : ∀ i ∈ o.imports, i.text.getLast?.any isWord = false := fun i _ => by
    rw [Import.text, List.getLast?_append_of_ne_nil _ (by decide)]
    decide
  have hsignature : o.signature.getLast?.any isWord = false := by
    change ("export default function ".toList ++ registrySymbol o.role
      ++ "() \x7b\n  return (\n    ".toList).getLast?.any isWord = false
    rw [List.getLast?_append_of_ne_nil _ (by decide)]
    decide
  have hopening : o.opening.getLast?.any isWord = false := by
    change ("<Route path=\"/".toList ++ Text.lower o.role ++ "\">".toList).getLast?.any isWord = false
    rw [List.getLast?_append_of_ne_nil _ (by decide)]
    decide
  have hbranch : ∀ b ∈ o.branches, b.text.getLast?.any isWord = false := fun b _ => by
    rw [Branch.text, List.getLast?_append_of_ne_nil _ (by simp), List.getLast?_append_of_ne_nil _ (by simp),
      List.getLast?_append_of_ne_nil _ (by simp), List.getLast?_append_of_ne_nil _ (by decide)]
    decide
  rw [Outline.text, Outline.head, List.append_assoc, List.cons_append, tokens_append_sep (by decide),
    tokens_flatMap_append himport, tokens_append hsignature, tokens_append hopening, tokens_append (by decide), hgap,
    List.nil_append, tokens_flatMap_append hbranch]

/-- An outline without its imports and its blocks is the template of its role, but for the import of the router. -/
theorem tokens_empty (role : Text) : tokens (Outline.empty role).text
    = tokens (Outline.empty role).headerText ++ (tokens (Outline.empty role).signature
      ++ (tokens (Outline.empty role).opening ++ tokens (rootSentinel ++ Outline.tail))) := by
  rw [tokens_text]
  rfl

namespace Outline

/-- The names in the blocks are accepted and have no dollar sign. -/
structure Plain (o : Outline) : Prop where
  branches : ∀ b ∈ o.branches, Accepts b.segment b.name ∧ '$' ∉ b.name
  leaves : ∀ b ∈ o.branches, ∀ l ∈ b.leaves, Accepts l.segment l.name ∧ '$' ∉ l.name

/-- A block or one of its lines renders a name. -/
def Renders (o : Outline) (name : Text) : Prop :=
  ∃ b ∈ o.branches, b.name = name ∨ ∃ l ∈ b.leaves, l.name = name

end Outline

variable {o : Outline} {segment name : Text}

/-- An accepted name is in no element but those of its own, save for the name of the elements. -/
theorem mem_tokens_element (hname : Accepts segment name) (hd : '$' ∉ name) {segment' name' : Text}
    (h : Accepts segment' name') (hd' : '$' ∉ name') :
    (name ∈ "Route".toList :: "path".toList :: (tokens segment' ++ "element".toList :: tokens name'))
      ↔ name = "Route".toList ∨ name' = name := by
  have hupper := upper_name hname hd
  have hsmall : ∀ t : Text, t.head?.any Char.isUpper = false → name ≠ t := by
    rintro t ht rfl
    rw [hupper] at ht
    exact absurd ht (by simp)
  have hrun : tokens name' = [name'] := tokens_word (accepts_name_ne h) (word_name h hd')
  have hsegment : name ∉ tokens segment' := not_mem_words_segment hname hd h
  rw [hrun]
  simp only [List.mem_cons, List.mem_append, List.not_mem_nil, or_false]
  constructor
  · rintro (heq | heq | hmem | heq | heq)
    · exact Or.inl heq
    · exact absurd heq (hsmall _ (by decide))
    · exact absurd hmem hsegment
    · exact absurd heq (hsmall _ (by decide))
    · exact Or.inr heq.symm
  · rintro (heq | heq)
    · exact Or.inl heq
    · exact Or.inr (Or.inr (Or.inr (Or.inr heq.symm)))

theorem mem_tokens_branch (hname : Accepts segment name) (hd : '$' ∉ name) (hrouter : name ≠ "Route".toList)
    (h : o.Plain) {b : Branch} (hb : b ∈ o.branches) :
    name ∈ tokens b.text ↔ b.name = name ∨ ∃ l ∈ b.leaves, l.name = name := by
  rcases h.branches b hb with ⟨hb', hdb⟩
  have hsentinel : name ≠ "PAGE_ROUTES_".toList ++ asConstant b.segment := by
    rintro rfl
    exact not_underscore_name hname (by simp)
  have hleaf : ∀ l ∈ b.leaves, (name ∈ tokens l.text ↔ l.name = name) := fun l hl => by
    rcases h.leaves b hb l hl with ⟨hl', hdl⟩
    rw [tokens_leaf, mem_tokens_element hname hd hl' hdl, or_iff_right hrouter]
  rw [tokens_branch (word_constant hb' hdb), List.mem_append, List.mem_append, tokens_opening,
    mem_tokens_element hname hd hb' hdb, List.mem_flatMap]
  simp only [List.mem_cons, List.not_mem_nil, or_false, hrouter, false_or, hsentinel]
  refine or_congr Iff.rfl ⟨?_, ?_⟩
  · rintro ⟨l, hl, hmem⟩
    exact ⟨l, hl, (hleaf l hl).mp hmem⟩
  · rintro ⟨l, hl, hmem⟩
    exact ⟨l, hl, (hleaf l hl).mpr hmem⟩

theorem not_mem_tokens_header (hname : Accepts segment name) (hd : '$' ∉ name) (hrouter : name ≠ "Route".toList) :
    name ∉ tokens o.headerText := by
  intro hmem
  rw [Outline.headerText] at hmem
  split at hmem
  · rw [tokens_import, List.mem_cons] at hmem
    rcases hmem with rfl | hmem
    · exact absurd (upper_name hname hd) (by decide)
    · rw [← mentions_importBody _ _ _ (accepts_name_ne hname) (word_name hname hd), mentions_router hname hd hrouter] at hmem
      exact absurd hmem (by simp)
  · exact absurd hmem (by simp [tokens, Text.words])

/-- What names a registry holds: those of its template, those that its imports mention
    and those that its blocks and their lines render. -/
theorem mentions_text_iff (hname : Accepts segment name) (hd : '$' ∉ name) (h : o.Plain) :
    mentions name o.text = true ↔ mentions name (Outline.empty o.role).text = true
      ∨ (∃ i ∈ o.imports, i.mentions name = true) ∨ o.Renders name := by
  -- The word of the header is in use in any registry.
  by_cases hrouter : name = "Route".toList
  · have huses : ∀ o : Outline, mentions "Route".toList o.text = true := uses_router
    rw [hrouter]
    exact iff_of_true (huses o) (Or.inl (huses _))
  have hne := accepts_name_ne hname
  have hword := word_name hname hd
  -- Elsewhere a word is mentioned where an import or a block has it, or in the constant lines.
  have himports : name ∈ o.imports.flatMap (fun i => tokens i.text) ↔ ∃ i ∈ o.imports, i.mentions name = true := by
    rw [List.mem_flatMap]
    refine exists_congr fun i => and_congr_right fun _ => ?_
    rw [tokens_import, List.mem_cons, mentions_importBody _ _ _ hne hword, or_iff_right]
    rintro rfl
    exact absurd (upper_name hname hd) (by decide)
  have hbranches : name ∈ o.branches.flatMap (fun b => tokens b.text) ↔ o.Renders name := by
    rw [List.mem_flatMap]
    exact exists_congr fun b => and_congr_right fun hb => mem_tokens_branch hname hd hrouter h hb
  have hheader : ∀ {o : Outline}, name ∉ tokens o.headerText := not_mem_tokens_header hname hd hrouter
  rw [mentions_iff_mem_tokens hne hword, mentions_iff_mem_tokens hne hword, tokens_text, tokens_empty]
  have hsame : (Outline.empty o.role).signature = o.signature ∧ (Outline.empty o.role).opening = o.opening := ⟨rfl, rfl⟩
  rw [hsame.1, hsame.2]
  generalize rootSentinel ++ Outline.tail = last
  simp only [List.mem_append, hheader, false_or, himports, hbranches]
  constructor
  · rintro (himport | hsignature | hopening | hrenders | hlast)
    · exact Or.inr (Or.inl himport)
    · exact Or.inl (Or.inl hsignature)
    · exact Or.inl (Or.inr (Or.inl hopening))
    · exact Or.inr (Or.inr hrenders)
    · exact Or.inl (Or.inr (Or.inr hlast))
  · rintro ((hsignature | hopening | hlast) | himport | hrenders)
    · exact Or.inr (Or.inl hsignature)
    · exact Or.inr (Or.inr (Or.inl hopening))
    · exact Or.inr (Or.inr (Or.inr (Or.inr hlast)))
    · exact Or.inl himport
    · exact Or.inr (Or.inr (Or.inr (Or.inl hrenders)))

/-! ### What is routed -/

variable {live : List Routed}

theorem Distinct.plain (h : Distinct live) (role : Text) : (outline role live).Plain := by
  refine ⟨fun b hb => ?_, fun b hb l hl => ?_⟩
  · rcases mem_branchesOf hb with ⟨m, hm, rfl⟩
    exact h.modules m hm
  · rcases mem_branchesOf hb with ⟨m, -, rfl⟩
    rcases mem_leavesOf hl with ⟨p, hp, -, rfl⟩
    exact ⟨(h.pages p hp).1.2, (h.pages p hp).2.1⟩

/-- Where segments are told apart, a line is cut by filtering. -/
theorem branches_cutLeaf (hbranches : (o.branches.map Branch.segment).Nodup)
    (hleaves : ∀ b ∈ o.branches, (b.leaves.map Leaf.segment).Nodup) (within segment : Text) :
    (o.cutLeaf within segment).branches = o.branches.map fun b => { b with
      leaves := b.leaves.filter fun l => !decide (b.segment = within ∧ l.segment = segment) } := by
  rw [Outline.cutLeaf, onFirst_eq_map Branch.segment within hbranches]
  refine List.map_congr_left fun b hb => ?_
  split
  · next hwithin => simp only [hwithin, true_and, eraseP_eq_filter Leaf.segment segment (hleaves b hb)]
  · next hwithin => simp [hwithin]

theorem Distinct.branches_removePage (h : Distinct live) (role : Text) (p : PageRef) :
    ((outline role live).removePage p).branches = (branchesOf live live).map fun b => { b with
      leaves := b.leaves.filter fun l => !decide (b.segment = p.module.segment ∧ l.segment = p.segment) } := by
  refine @branches_cutLeaf ((outline role live).removeImports _) h.segments_nodup (fun b hb => ?_) _ _
  rcases mem_branchesOf hb with ⟨m, -, rfl⟩
  exact h.leaves_nodup m

/-- A removed page leaves what is routed under its name and is not itself. -/
theorem Distinct.renders_removePage (h : Distinct live) (role : Text) {p : PageRef} (hp : p.Accepted)
    (hrole : ∀ x ∈ live, x.home.role = p.module.role) (name : Text) :
    ((outline role live).removePage p).Renders name ↔ ∃ x ∈ live, x.name = name ∧ x ≠ .page p := by
  rw [Outline.Renders, h.branches_removePage role p]
  constructor
  · rintro ⟨b', hb', hname⟩
    rcases List.mem_map.mp hb' with ⟨b, hb, rfl⟩
    rcases mem_branchesOf hb with ⟨m, hm, rfl⟩
    rcases hname with rfl | ⟨l, hl, rfl⟩
    · exact ⟨.module m, hm, rfl, by simp⟩
    · rcases List.mem_filter.mp hl with ⟨hl, hkept⟩
      rcases mem_leavesOf hl with ⟨q, hq, rfl, rfl⟩
      refine ⟨.page q, hq, rfl, ?_⟩
      rintro ⟨⟩
      simp at hkept
  · rintro ⟨x, hx, rfl, hother⟩
    cases x with
    | module m => exact ⟨_, List.mem_map.mpr ⟨_, List.mem_filterMap.mpr ⟨_, hx, rfl⟩, rfl⟩, Or.inl rfl⟩
    | page q =>
        rcases h.pages q hx with ⟨⟨hqm, hq⟩, -, hhome⟩
        refine ⟨_, List.mem_map.mpr ⟨_, List.mem_filterMap.mpr ⟨_, hhome, rfl⟩, rfl⟩, Or.inr ⟨⟨q.segment, q.name⟩, ?_, rfl⟩⟩
        refine List.mem_filter.mpr ⟨List.mem_filterMap.mpr ⟨.page q, hx, by simp⟩, ?_⟩
        -- The segments give the names, and the role is the same.
        rw [Bool.not_eq_true', decide_eq_false_iff_not]
        rintro ⟨hmodule, hsegment⟩
        dsimp only at hmodule hsegment
        rw [ModuleRef.Accepted, hmodule] at hqm
        rw [hsegment] at hq
        have hmname := accepts_name_eq hqm hp.1
        have hname := accepts_name_eq hq hp.2
        have hr : q.module.role = p.module.role := hrole _ hx
        apply hother
        rcases q with ⟨⟨_, _, _⟩, _, _⟩
        rcases p with ⟨⟨_, _, _⟩, _, _⟩
        simp_all

/-- A registry from which a page is removed holds its name if its template does or if
    something else that is routed has the name. -/
theorem Distinct.mentions_removePage (h : Distinct live) (role : Text) {p : PageRef} (hp : p.Accepted) (hd : '$' ∉ p.name)
    (hrole : ∀ x ∈ live, x.home.role = p.module.role) :
    Text.mentions p.name ((outline role live).removePage p).text = true
      ↔ Text.mentions p.name (Outline.empty role).text = true ∨ ∃ x ∈ live, x.name = p.name ∧ x ≠ .page p := by
  have hbefore := h.plain role
  have hplain : ((outline role live).removePage p).Plain := by
    refine ⟨fun b' hb' => ?_, fun b' hb' l hl => ?_⟩
    · rw [h.branches_removePage role p] at hb'
      rcases List.mem_map.mp hb' with ⟨b, hb, rfl⟩
      exact hbefore.branches b hb
    · rw [h.branches_removePage role p] at hb'
      rcases List.mem_map.mp hb' with ⟨b, hb, rfl⟩
      exact hbefore.leaves b hb l (List.mem_filter.mp hl).1
  have himports : ¬ ∃ i ∈ ((outline role live).removePage p).imports, i.mentions p.name = true := by
    rintro ⟨i, hi, hmentions⟩
    have hkept : (!i.mentions p.name) = true := (List.mem_filter.mp hi).2
    rw [hmentions] at hkept
    exact absurd hkept (by simp)
  rw [mentions_text_iff hp.2 hd hplain, h.renders_removePage role hp hrole, or_iff_right himports]
  rfl

end Marker

end RouteScaffold

import RouteScaffold.Proofs.Marker.Insertions

/-!
# Imports Taken Out of Marker Registries

The imports of a marker registry are statements of one line each, and no other
line begins like one. So taking out imports is a filter on the imports of the
outline, and what the filter keeps depends on the pattern alone: whether a
statement mentions a name, or whether its source starts with a folder.

## Main definitions

* `Import.mentions`: Whether an import mentions a name.
* `Outline.removeImports`: An outline without some of its imports.

## Theorems

* `erase_imports`: A pattern that reads imports is a filter on them.
* `erase_importOf`, `erase_importFrom`: The two patterns.
-/

namespace RouteScaffold

open Naming Recogniser Text Cursor

/-- Whether an import mentions a name as a whole word. -/
def Import.mentions (i : Import) (name : Text) : Bool :=
  mentionsFrom name (some ' ') (Pattern.importBody i.name i.source)

theorem Import.text_statement (i : Import) :
    i.text = Pattern.statement (Pattern.importBody i.name i.source) := by
  rw [Import.text_eq, show Pattern.statement (Pattern.importBody i.name i.source)
    = "import ".toList ++ ("\x7b ".toList ++ i.name ++ " \x7d from \"".toList ++ i.source
      ++ "\"".toList) ++ ";\n".toList from rfl]
  simp

theorem Import.Sound.quotable_name {i : Import} (h : i.Sound) : Pattern.Quotable i.name := by
  intro c hc
  have htame := h.name c hc
  refine ⟨?_, ?_⟩
  · cases hq : Pattern.isQuote c with
    | false => rfl
    | true =>
        simp only [Pattern.isQuote, Bool.or_eq_true, decide_eq_true_eq] at hq
        rcases hq with rfl | rfl <;> exact absurd htame (by decide)
  · rintro rfl
    exact absurd htame (by decide)

theorem Import.Sound.quotable_source {i : Import} (h : i.Sound) : Pattern.Quotable i.source := by
  intro c hc
  refine ⟨?_, ?_⟩
  · cases hq : Pattern.isQuote c with
    | false => rfl
    | true =>
        simp only [Pattern.isQuote, Bool.or_eq_true, decide_eq_true_eq] at hq
        rcases hq with rfl | rfl
        · exact absurd hc (h.not_mem_source (by decide) (by decide) (by decide))
        · exact absurd hc (h.not_mem_source (by decide) (by decide) (by decide))
  · rintro rfl
    exact absurd hc (h.not_mem_source (by decide) (by decide) (by decide))

namespace Marker

namespace Outline

/-- An outline without some of its imports. -/
def removeImports (o : Outline) (out : Import → Bool) : Outline :=
  { o with
    header := o.header && !out ⟨"Route", "react-router-dom"⟩
    imports := o.imports.filter fun i => !out i }

end Outline

/-- A pattern that reads imports: at the start of a line it reads some of the
    statements of imports, each of them whole, and it reads nothing else. -/
structure ReadsImports (m : Recogniser) (out : Import → Bool) : Prop where
  anchored : Anchored m
  other : ∀ c, c ≠ 'i' → ∀ b r, m ⟨b, c :: r⟩ = none
  read : ∀ i : Import, i.Sound → ∀ b : Option Char, (∀ c ∈ b, c = '\n') → ∀ r,
    (m ⟨b, i.text ++ r⟩).map Cursor.after = if out i then some r else none

section Reading

variable {m : Recogniser} {out : Import → Bool}

theorem ReadsImports.line (hm : ReadsImports m out) {c : Char} {u : Text} (hc : c ≠ 'i')
    (hu : '\n' ∉ c :: u) : Passes m (c :: u ++ ['\n']) := by
  rw [List.mem_cons, not_or] at hu
  exact hm.anchored.passes_line (hm.other c hc) (Ne.symm hu.1) hu.2

theorem ReadsImports.start (hm : ReadsImports m out) {c : Char} {u : Text} (hc : c ≠ 'i')
    (hu : '\n' ∉ c :: u) : Passes m (c :: u) := by
  rw [List.mem_cons, not_or] at hu
  exact hm.anchored.passes_start (hm.other c hc) (Ne.symm hu.1) hu.2

/-- The statement of an import goes or stays as a whole. -/
theorem ReadsImports.eraseFrom_import (hm : ReadsImports m out) {i : Import} (hi : i.Sound)
    {b : Option Char} (hb : ∀ c ∈ b, c = '\n') (r : Text) :
    m.eraseFrom 0 b (i.text ++ r)
      = (if out i then [] else i.text) ++ m.eraseFrom 0 (some '\n') r := by
  have hread := hm.read i hi b hb r
  rw [Import.text, List.append_assoc, List.singleton_append] at hread ⊢
  rw [hm.anchored.eraseFrom_line (importLine_no_break hi) r (out i) hread]

theorem ReadsImports.eraseFrom_imports (hm : ReadsImports m out) {is : List Import}
    (his : ∀ i ∈ is, i.Sound) (r : Text) :
    m.eraseFrom 0 (some '\n') (is.flatMap Import.text ++ r)
      = (is.filter fun i => !out i).flatMap Import.text ++ m.eraseFrom 0 (some '\n') r := by
  induction is with
  | nil => rfl
  | cons i is ih =>
      rw [List.flatMap_cons, List.append_assoc, hm.eraseFrom_import (his i (by simp)) (by simp),
        ih fun j hj => his j (by simp [hj])]
      cases h : out i <;> simp [h]

/-- Nothing below the imports begins like one. -/
theorem ReadsImports.passes_signature (hm : ReadsImports m out) {o : Outline} (h : o.Sound) :
    Passes m o.signature := by
  -- The lines behind the name are the same, whether or not it is broken.
  have hend : Passes m ("Routes() \x7b".toList ++ ['\n']) := hm.line (by decide) (by decide)
  have hrest : Passes m (("  return (".toList ++ ['\n']) ++ "    ".toList) :=
    (hm.line (by decide) (by decide)).append (hm.start (by decide) (by decide))
  -- A role name has at most one line break, at its end; there the line is cut in two.
  rcases role_cases h.role with ⟨base, hbase, hrole | hrole⟩
  · have hsplit : o.signature = ('e' :: ("xport default function ".toList ++ (base
        ++ "Routes() \x7b".toList)) ++ ['\n']) ++ (("  return (".toList ++ ['\n'])
        ++ "    ".toList) := by
      rw [show o.signature = "export default function ".toList ++ (o.role ++ "Routes".toList)
        ++ "() \x7b\n  return (\n    ".toList from rfl, hrole]
      simp
    rw [hsplit]
    refine (hm.line (by decide) ?_).append hrest
    rw [List.mem_cons, List.mem_append, List.mem_append, not_or, not_or, not_or]
    exact ⟨by decide, by decide,
      not_mem_of_tame (fun c hc => isTame_of_continuesIdentifier (hbase c hc)) (by decide),
      by decide⟩
  · have hsplit : o.signature = ('e' :: ("xport default function ".toList ++ base) ++ ['\n'])
        ++ (("Routes() \x7b".toList ++ ['\n']) ++ (("  return (".toList ++ ['\n'])
        ++ "    ".toList)) := by
      rw [show o.signature = "export default function ".toList ++ (o.role ++ "Routes".toList)
        ++ "() \x7b\n  return (\n    ".toList from rfl, hrole]
      simp
    rw [hsplit]
    refine (hm.line (by decide) ?_).append (hend.append hrest)
    rw [List.mem_cons, List.mem_append, not_or, not_or]
    exact ⟨by decide, by decide,
      not_mem_of_tame (fun c hc => isTame_of_continuesIdentifier (hbase c hc)) (by decide)⟩

theorem ReadsImports.passes_opening (hm : ReadsImports m out) {o : Outline} (h : o.Sound) :
    Passes m (o.opening ++ "\n        ".toList) := by
  have hindent : Passes m "        ".toList := hm.start (by decide) (by decide)
  have hline : Passes m ("\">".toList ++ ['\n']) := hm.line (by decide) (by decide)
  -- The same two cases for the path.
  rcases role_cases h.role with ⟨base, hbase, hrole | hrole⟩ <;> rcases lower_role hbase with ⟨hplain, hbroken, hlower⟩
  · have hsplit : o.opening ++ "\n        ".toList = ('<' :: ("Route path=\"/".toList
        ++ (base.flatMap lowerOf ++ "\">".toList)) ++ ['\n']) ++ "        ".toList := by
      rw [show o.opening = "<Route path=\"/".toList ++ Text.lower o.role ++ "\">".toList from rfl,
        hrole, hplain]
      simp
    rw [hsplit]
    refine (hm.line (by decide) ?_).append hindent
    rw [List.mem_cons, List.mem_append, List.mem_append, not_or, not_or, not_or]
    exact ⟨by decide, by decide,
      not_mem_of_tame (fun c hc => isTame_of_continuesIdentifier (hlower c hc)) (by decide),
      by decide⟩
  · have hsplit : o.opening ++ "\n        ".toList = ('<' :: ("Route path=\"/".toList
        ++ base.flatMap lowerOf) ++ ['\n']) ++ (("\">".toList ++ ['\n']) ++ "        ".toList) := by
      rw [show o.opening = "<Route path=\"/".toList ++ Text.lower o.role ++ "\">".toList from rfl,
        hrole, hbroken]
      simp
    rw [hsplit]
    refine (hm.line (by decide) ?_).append (hline.append hindent)
    rw [List.mem_cons, List.mem_append, not_or, not_or]
    exact ⟨by decide, by decide,
      not_mem_of_tame (fun c hc => isTame_of_continuesIdentifier (hlower c hc)) (by decide)⟩

theorem ReadsImports.passes_leaf (hm : ReadsImports m out) {l : Leaf} (h : l.Sound) :
    Passes m l.text := by
  rcases pageElement_ends l.segment l.name with ⟨t, ht⟩
  have hbreak := pageElement_no_break h
  rw [ht] at hbreak
  have hsplit : l.text = ('<' :: (t ++ ['>']) ++ ['\n']) ++ "          ".toList := by
    rw [show l.text = Snippet.pageElement l.segment l.name ++ "\n          ".toList from rfl, ht]
    simp
  rw [hsplit]
  exact (hm.line (by decide) hbreak).append (hm.start (by decide) (by decide))

theorem ReadsImports.passes_branch (hm : ReadsImports m out) {b : Branch} (h : b.Sound) :
    Passes m b.text := by
  rcases opening_ends b with ⟨t, ht⟩
  have hopening := opening_no_break h.segment h.name
  rw [ht] at hopening
  have hsentinel := sentinel_no_break h.constant
  rw [sentinelOf_eq_head, sentinelHead] at hsentinel
  have hsplit : b.text = ('<' :: (t ++ ['>']) ++ ['\n']) ++ ("          ".toList
      ++ (b.leaves.flatMap Leaf.text ++ (('\x7b' :: '/' :: ("* PAGE_ROUTES_".toList
      ++ (asConstant b.segment ++ " */\x7d".toList)) ++ ['\n'])
      ++ (("        </Route>".toList ++ ['\n']) ++ "        ".toList)))) := by
    rw [show b.text = b.opening ++ ("\n          ".toList ++ (b.leaves.flatMap Leaf.text
      ++ (Snippet.sentinelOf b.segment ++ "\n        </Route>\n        ".toList))) from rfl, ht,
      sentinelOf_eq_head, sentinelHead]
    simp
  rw [hsplit]
  refine (hm.line (by decide) hopening).append <| (hm.start (by decide) (by decide)).append <|
    (passes_flatMap fun l hl => hm.passes_leaf (h.leaves l hl)).append <|
    (hm.line (by decide) hsentinel).append <| (hm.line (by decide) (by decide)).append <|
    hm.start (by decide) (by decide)

/-- Taking out imports is a filter on those of the outline. -/
theorem ReadsImports.erase (hm : ReadsImports m out) {o : Outline} (h : o.Sound) :
    m.erase o.text = (o.removeImports out).text := by
  have hbelow : Passes m (o.signature ++ (o.opening ++ "\n        ".toList
      ++ (o.branches.flatMap Branch.text ++ (rootSentinel ++ Outline.tail)))) := by
    have hsentinel : Passes m (rootSentinel ++ ['\n']) := hm.line (by decide) (by decide)
    have htail : Passes m (("    </Route>".toList ++ ['\n']) ++ (("  );".toList ++ ['\n'])
        ++ ("\x7d".toList ++ ['\n']))) :=
      (hm.line (by decide) (by decide)).append <| (hm.line (by decide) (by decide)).append <|
        hm.line (by decide) (by decide)
    exact (hm.passes_signature h).append <| (hm.passes_opening h).append <|
      (passes_flatMap fun b hb => hm.passes_branch (h.branches b hb)).append <|
      hsentinel.append htail
  rcases hrest : o.signature ++ (o.opening ++ "\n        ".toList
    ++ (o.branches.flatMap Branch.text ++ (rootSentinel ++ Outline.tail))) with _ | ⟨c, r⟩
  -- Below the imports the text begins with the signature.
  · exact absurd hrest (by
      rw [show o.signature = 'e' :: "xport default function ".toList ++ registrySymbol o.role
        ++ "() \x7b\n  return (\n    ".toList from rfl]
      simp)
  · rw [hrest] at hbelow
    have htext : ∀ o' : Outline, o'.role = o.role → o'.branches = o.branches →
        o'.text = o'.headerText ++ ('\n' :: (o'.imports.flatMap Import.text ++ c :: r)) := by
      intro o' hrole hbranches
      rw [show o'.text = (o'.headerText ++ ('\n' :: o'.imports.flatMap Import.text)) ++ (o'.signature
        ++ (o'.opening ++ ("\n        ".toList ++ (o'.branches.flatMap Branch.text
        ++ (rootSentinel ++ Outline.tail))))) from rfl, ← hrest, hbranches,
        show o'.signature = "export default function ".toList ++ registrySymbol o'.role
          ++ "() \x7b\n  return (\n    ".toList from rfl,
        show o'.opening = "<Route path=\"/".toList ++ Text.lower o'.role ++ "\">".toList from rfl,
        hrole, show o.signature = "export default function ".toList ++ registrySymbol o.role
          ++ "() \x7b\n  return (\n    ".toList from rfl,
        show o.opening = "<Route path=\"/".toList ++ Text.lower o.role ++ "\">".toList from rfl]
      simp
    -- The rows of the imports are read one by one; none begins above them or below.
    have hblank : ∀ (b : Option Char), m.eraseFrom 0 b ('\n' :: (o.imports.flatMap Import.text ++ c :: r))
        = '\n' :: ((o.imports.filter fun i => !out i).flatMap Import.text ++ c :: r) := by
      intro b
      have hrow := hm.anchored.eraseFrom_row (b := b) (u := []) (by simp)
        (o.imports.flatMap Import.text ++ c :: r) (hm.other '\n' (by decide) _ _)
      rw [List.nil_append, List.nil_append] at hrow
      rw [hrow, hm.eraseFrom_imports h.imports, eraseFrom_of_quiet m _ (c :: r) (hbelow _ [])]
    rw [htext o rfl rfl, htext (o.removeImports out) rfl rfl, Recogniser.erase]
    rw [show (o.removeImports out).imports = o.imports.filter fun i => !out i from rfl]
    -- The import of the header is cut or kept like the others.
    by_cases hheader : o.header = true
    · rw [show o.headerText = if o.header then (⟨"Route", "react-router-dom"⟩ : Import).text else []
        from rfl, if_pos hheader, hm.eraseFrom_import sound_header (by simp), hblank,
        show (o.removeImports out).headerText = if (o.header
          && !out ⟨"Route", "react-router-dom"⟩) then (⟨"Route", "react-router-dom"⟩ : Import).text
          else [] from rfl, hheader, Bool.true_and]
      cases out ⟨"Route", "react-router-dom"⟩ <;> rfl
    · have hfalse : o.header = false := by simpa using hheader
      rw [show o.headerText = if o.header then (⟨"Route", "react-router-dom"⟩ : Import).text else []
        from rfl, if_neg hheader, List.nil_append, hblank,
        show (o.removeImports out).headerText = if (o.header
          && !out ⟨"Route", "react-router-dom"⟩) then (⟨"Route", "react-router-dom"⟩ : Import).text
          else [] from rfl, hfalse, Bool.false_and]
      rfl

end Reading

theorem other_importOf {w : Text} (c : Char) (hc : c ≠ 'i') (b : Option Char) (r : Text) :
    Pattern.recognise (.importOf w) ⟨b, c :: r⟩ = none := by
  rw [Pattern.recognise_importOf_eq, Pattern.importHead?_eq_none (by simpa using hc)]
  rfl

theorem other_importFrom {w : Text} (c : Char) (hc : c ≠ 'i') (b : Option Char) (r : Text) :
    Pattern.recognise (.importFrom w) ⟨b, c :: r⟩ = none := by
  rw [Pattern.recognise_importFrom_eq, Pattern.importHead?_eq_none (by simpa using hc)]
  rfl

theorem importBody_no_semicolon {i : Import} (h : i.Sound) :
    ';' ∉ Pattern.importBody i.name i.source := by
  rw [show Pattern.importBody i.name i.source = "\x7b ".toList ++ i.name ++ " \x7d from \"".toList
    ++ i.source ++ "\"".toList from rfl, List.mem_append, List.mem_append, List.mem_append,
    List.mem_append, not_or, not_or, not_or, not_or]
  exact ⟨⟨⟨⟨by decide, fun hc => (h.quotable_name _ hc).2 rfl⟩, by decide⟩,
    fun hc => (h.quotable_source _ hc).2 rfl⟩, by decide⟩

theorem readsImports_importOf {w : Text} (hw : ';' ∉ w) :
    ReadsImports (Pattern.recognise (.importOf w)) fun i => i.mentions w where
  anchored := Pattern.anchored_importOf w
  other := other_importOf
  read := by
    intro i hi b hb r
    rw [Import.text_statement]
    exact Pattern.recognise_importOf hw hb (importBody_no_semicolon hi) r

theorem readsImports_importFrom {folder : Text} (hf : ∀ c ∈ folder, Pattern.isQuote c = false) :
    ReadsImports (Pattern.recognise (.importFrom folder))
      fun i => folder.isPrefixOf i.source where
  anchored := Pattern.anchored_importFrom folder
  other := other_importFrom
  read := by
    intro i hi b hb r
    have hlast : ∀ c ∈ i.source.getLast?, isBlank c = false := by
      intro c hc
      rcases hi.source c (List.mem_of_getLast? hc) with htame | rfl | rfl
      · exact isBlank_of_tame htame
      · decide
      · decide
    rw [Import.text_statement,
      Pattern.recognise_importFrom hb hf hi.quotable_name hi.quotable_source hlast]
    by_cases h : folder <+: i.source
    · rw [if_pos h, if_pos (List.isPrefixOf_iff_prefix.mpr h)]
    · rw [if_neg h, if_neg fun hb => h (List.isPrefixOf_iff_prefix.mp hb)]

/-- Taking out the imports of a name. -/
theorem erase_importOf {o : Outline} (h : o.Sound) {w : Text} (hw : ';' ∉ w) :
    Pattern.erase (.importOf w) o.text = (o.removeImports fun i => i.mentions w).text :=
  (readsImports_importOf hw).erase h

/-- Taking out the imports from a folder. -/
theorem erase_importFrom {o : Outline} (h : o.Sound) {folder : Text}
    (hf : ∀ c ∈ folder, Pattern.isQuote c = false) :
    Pattern.erase (.importFrom folder) o.text
      = (o.removeImports fun i => folder.isPrefixOf i.source).text :=
  (readsImports_importFrom hf).erase h

theorem sound_removeImports {o : Outline} (h : o.Sound) (out : Import → Bool) :
    (o.removeImports out).Sound :=
  ⟨h.role, fun i hi => h.imports i (List.mem_of_mem_filter hi), h.branches, h.constants⟩

end Marker

end RouteScaffold

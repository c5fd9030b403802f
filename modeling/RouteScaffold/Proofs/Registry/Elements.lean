import RouteScaffold.Proofs.Edit.Statements
import RouteScaffold.Proofs.Edit.Uniform
import RouteScaffold.Proofs.Registry.Adding
import RouteScaffold.Proofs.Route.Planting

/-!
# Elements of Artifacts

In the marker dialect the entry of an artifact is an element: that of a module goes
over several lines and holds an anchor for its pages, that of a page is a single
self-closing tag. Wherever such a text is written into a source, in no tag, the
source has one more element of that path, and all others are the same.

The text may be any that has a forest. What stands around the anchor, on its line or
before it, is read as before: the entry begins with the bracket of its own tag, and
the anchor behind it begins with a brace, so that no tag before either goes on.

## Main definitions

* `Routed.Named`: An artifact whose names come from a raw name.
* `Routed.element`: The element of an artifact.
* `Routed.EntryText`: The text of an entry, moved in.
* `Routed.openingText`, `Routed.insideOf`: The parts of the entry of a module.

## Theorems

* `entryText_reindent`: What the text of an entry is.
* `EntryText.planted`: What writing it into a text does to the forest.
* `Insert.forest_before`: What inserting it before an anchor does.
-/

namespace RouteScaffold

open Naming Text Recogniser Pattern Cursor

namespace Routed

/-- The kind of an artifact. -/
def kind : Routed → Kind
  | module _ => .module
  | page _ => .page

/-- The segment of an artifact. -/
def segment : Routed → Text
  | module m => m.segment
  | page p => p.segment

/-- An artifact whose name and segment come from a raw name. -/
structure Named (x : Routed) (raw : Text) : Prop where
  name : x.kind.canonical (some raw) = .ok x.name
  segment : x.segment = Naming.segment raw

/-- A name that is accepted is the capitalised form of the raw name. -/
theorem Named.accepts {x : Routed} {raw : Text} (h : x.Named raw) : Accepts x.segment x.name := by
  have hname : x.kind.canonical (some raw) = identifier x.kind raw (pascal raw)
      ∨ ∃ f, x.kind.canonical (some raw) = .error f := by
    unfold Kind.canonical present
    by_cases hblank : raw.isBlankLine = true
    · exact .inr ⟨_, by simp only [hblank, if_true]; rfl⟩
    · left
      simp only [hblank]
      cases x <;> rfl
  rw [h.name, identifier] at hname
  rcases hname with hname | ⟨f, hf⟩
  · split at hname
    · next hident => exact ⟨raw, hident, h.segment, Except.ok.inj hname⟩
    · exact absurd hname (by simp)
  · exact absurd hf (by simp)

/-- The element of an artifact at a place of a text. -/
def element (offset size : Nat) : Routed → Route
  | module m => ⟨⟨offset, offset + size⟩, some m.segment, false, []⟩
  | page p => ⟨⟨offset, offset + size⟩, some p.segment, true, []⟩

/-- The entry of an artifact, moved in to the column of an anchor. -/
def entryAt (x : Routed) (o : Occurrence) : Text :=
  reindent (x.entryText .marker) (lastIndent o.before)

/-- What is inserted before an anchor: the entry, and the line break and the
    indentation that the anchor gets. -/
def linesAt (x : Routed) (o : Occurrence) : Text := x.entryAt o ++ '\n' :: lastIndent o.before

/-- What the text of an entry does to a registry that it is written into, on a line
    that is indented in some way. -/
structure EntryText (x : Routed) (indent entry : Text) : Prop where
  head : ∃ rest, entry = '<' :: rest
  no_return : '\r' ∉ entry
  no_import : Passes importHead? (entry ++ '\n' :: indent)
  takes : ∀ offset r, Route.Takes entry offset r (r.add (element offset entry.length x))

variable {x : Routed} {indent : Text}

/-! ### The text of an entry -/

theorem passes_import_line {c : Char} {u : Text} (hc : c ≠ 'i') (hbreak : '\n' ∉ c :: u) :
    Passes importHead? (c :: u ++ ['\n']) := by
  rw [List.mem_cons, not_or] at hbreak
  refine anchored_importHead.passes_line (fun b r => importHead?_eq_none fun d hd => ?_)
    (Ne.symm hbreak.1) hbreak.2
  rw [← Option.some.inj hd]
  exact hc

theorem passes_below {s t : Text} (hs : Passes importHead? (s ++ ['\n'])) (ht : Passes importHead? t) :
    Passes importHead? (s ++ '\n' :: t) := by
  rw [List.append_cons s '\n' t]
  exact hs.append ht

theorem not_mem_indent (h : ∀ c ∈ indent, isIndent c = true) {c : Char} (hc : isIndent c = false) :
    c ∉ indent := fun hmem => by
  rw [h c hmem] at hc
  exact absurd hc (by simp)

theorem isIndent_lastIndent (t : Text) : ∀ c ∈ lastIndent t, isIndent c = true :=
  fun _ hc => List.mem_takeWhile_imp hc

theorem entryText_page {p : PageRef} (hp : Accepts p.segment p.name)
    (h : ∀ c ∈ indent, isIndent c = true) :
    (page p).EntryText indent (reindent ((page p).entryText .marker) indent) := by
  have hsound : (Marker.Leaf.mk p.segment p.name).Sound := ⟨tame_segment hp, tame_name hp⟩
  have hbreak := Marker.pageElement_no_break hsound
  have hentry : reindent ((page p).entryText .marker) indent = Snippet.pageElement p.segment p.name :=
    reindent_line hbreak indent
  rcases Marker.pageElement_ends p.segment p.name with ⟨t, ht⟩
  rcases Marker.isOpening_pageElement hsound.legible with ⟨hopening, hpath, hself⟩
  rw [hentry]
  refine ⟨⟨_, ht⟩, ?_, ?_, fun offset r => ?_⟩
  · have := Marker.Leaf.no_return hsound
    rw [Marker.Leaf.text, List.mem_append, not_or] at this
    exact this.1
  · rw [ht] at hbreak ⊢
    exact passes_below (passes_import_line (by decide) hbreak)
      (passes_importHead (not_mem_indent h (by decide)))
  -- The element closes itself, so it is one tag.
  · have := Route.takes_selfClosing hopening hself offset r
    rwa [hpath] at this

section Modules

variable {m : ModuleRef}

/-- The opening tag of a new module. -/
def openingText (m : ModuleRef) : Text := (Marker.Branch.mk m.segment m.name []).opening

/-- What stands between the two tags of a new module: the place of its first page, on a
    line of its own. -/
def insideOf (m : ModuleRef) (indent : Text) : Text :=
  '\n' :: (indent ++ ("  ".toList ++ Snippet.sentinelOf m.segment) ++ '\n' :: indent)

theorem sound_new_module (hm : m.Accepted) : (Marker.Branch.mk m.segment m.name []).Sound :=
  ⟨hm.spelled.segment, hm.spelled.name, hm.spelled.constant, by simp⟩

theorem opening_module_no_break (hm : m.Accepted) : '\n' ∉ openingText m :=
  Marker.opening_no_break (sound_new_module hm).segment (sound_new_module hm).name

theorem sentinel_line_no_break (hm : m.Accepted) : '\n' ∉ "  ".toList ++ Snippet.sentinelOf m.segment := by
  rw [List.mem_append, not_or]
  exact ⟨by decide, Marker.sentinel_no_break hm.spelled.constant⟩

/-- The entry of a module is two tags, and what stands between them. -/
theorem reindent_module (hm : m.Accepted) (indent : Text) : reindent ((module m).entryText .marker) indent
    = openingText m ++ insideOf m indent ++ Tag.closingTag := by
  have hvisible : isBlankLine ("  ".toList ++ Snippet.sentinelOf m.segment) = false := by
    rw [Marker.sentinelOf_eq_head, isBlankLine, List.all_append, Marker.sentinelHead, List.all_cons]
    rfl
  have hclose : '\n' ∉ "</Route>".toList := by decide
  have hcloseVisible : isBlankLine "</Route>".toList = false := by decide
  have hopening : '\n' ∉ (Marker.Branch.mk m.segment m.name []).opening := opening_module_no_break hm
  have hlines := reindent_lines hopening (sentinel_line_no_break hm) hclose
    (by rw [Marker.Branch.opening_eq]; simp) hvisible hcloseVisible indent
  change reindent (Snippet.moduleElement m.segment m.name) indent = _
  rw [Marker.moduleElement_eq, openingText, insideOf, show Tag.closingTag = "</Route>".toList from rfl]
  refine hlines.trans ?_
  simp only [List.append_assoc, List.cons_append]

theorem no_return_module (hm : m.Accepted) (h : ∀ c ∈ indent, isIndent c = true) :
    '\r' ∉ openingText m ++ insideOf m indent ++ Tag.closingTag := by
  have hbranch := Marker.Branch.no_return (sound_new_module hm)
  have hindent := not_mem_indent h (c := '\r') (by decide)
  simp only [Marker.Branch.text, openingText, insideOf, List.mem_append, not_or, List.mem_cons] at hbranch ⊢
  exact ⟨⟨hbranch.1, by decide, ⟨hindent, by decide, hbranch.2.2.2.1⟩, by decide, hindent⟩, by decide⟩

/-- No import begins on any line of the entry of a module, nor on the line that it leaves
    to the anchor. -/
theorem passes_module (hm : m.Accepted) (h : ∀ c ∈ indent, isIndent c = true) :
    Passes importHead? (openingText m ++ insideOf m indent ++ Tag.closingTag ++ '\n' :: indent) := by
  have hindent := passes_importHead (not_mem_indent h (c := 'i') (by decide))
  have hfirst : Passes importHead? (openingText m ++ ['\n']) := by
    rcases Marker.opening_ends ⟨m.segment, m.name, []⟩ with ⟨t, ht⟩
    have hbreak := opening_module_no_break hm
    rw [openingText, ht] at hbreak ⊢
    exact passes_import_line (by decide) hbreak
  have hmiddle := passes_import_line (c := ' ') (u := ' ' :: Snippet.sentinelOf m.segment)
    (by decide) (sentinel_line_no_break hm)
  have hlast := passes_import_line (c := '<') (u := "/Route>".toList) (by decide) (by decide)
  -- No line of the block begins like an import.
  have hwhole := hfirst.append (hindent.append (hmiddle.append (hindent.append (hlast.append hindent))))
  have htext : openingText m ++ insideOf m indent ++ Tag.closingTag ++ '\n' :: indent
      = openingText m ++ ['\n'] ++ (indent ++ (' ' :: ' ' :: Snippet.sentinelOf m.segment ++ ['\n']
        ++ (indent ++ ('<' :: "/Route>".toList ++ ['\n'] ++ indent)))) := by
    rw [insideOf, show Tag.closingTag = '<' :: "/Route>".toList from rfl,
      show "  ".toList ++ Snippet.sentinelOf m.segment = ' ' :: ' ' :: Snippet.sentinelOf m.segment from rfl]
    simp only [List.append_assoc, List.cons_append, List.nil_append]
  rwa [htext]

/-- The two tags of a module are an element without children. -/
theorem takes_module (hm : m.Accepted) (h : ∀ c ∈ indent, isIndent c = true) (offset : Nat)
    (r : Route.Reading) : Route.Takes (openingText m ++ insideOf m indent ++ Tag.closingTag) offset r
      (r.add (element offset (openingText m ++ insideOf m indent ++ Tag.closingTag).length (module m))) := by
  rcases Marker.isOpening_opening (sound_new_module hm).legible with ⟨hopening, hpath, hself⟩
  change Tag.IsOpening (openingText m) at hopening
  change Tag.pathFrom? none (openingText m) = _ at hpath
  change Tag.isSelfClosing (openingText m) = _ at hself
  have hpad : '<' ∉ insideOf m indent := by
    have hindent := not_mem_indent h (c := '<') (by decide)
    simp only [insideOf, List.mem_cons, List.mem_append, not_or]
    exact ⟨by decide, ⟨hindent, by decide, Marker.not_mem_sentinel hm.spelled.constant⟩, by decide, hindent⟩
  -- The element is opened, passed through, and closed.
  have hopen := Route.takes_opening hopening hself offset r
  have hplain := Route.takes_plain hpad (offset + (openingText m).length)
    { r with stack := ⟨Tag.openingOf offset (openingText m), []⟩ :: r.stack }
  have hclose := Route.takes_closing (offset + (openingText m ++ insideOf m indent).length)
    ⟨Tag.openingOf offset (openingText m), []⟩ r.stack r.roots
  have helement : element offset (openingText m ++ insideOf m indent ++ Tag.closingTag).length (module m)
      = Route.Open.close ⟨Tag.openingOf offset (openingText m), []⟩
        (offset + (openingText m ++ insideOf m indent).length + Tag.closingTag.length) := by
    rw [element, Route.Open.close, Tag.openingOf, hpath, @List.length_append _ _ Tag.closingTag, Nat.add_assoc]
    rfl
  rw [helement]
  exact (hopen.append hplain).append hclose

theorem entryText_module (hm : m.Accepted) (h : ∀ c ∈ indent, isIndent c = true) :
    (module m).EntryText indent (reindent ((module m).entryText .marker) indent) := by
  rw [reindent_module hm]
  rcases Marker.opening_ends ⟨m.segment, m.name, []⟩ with ⟨t, ht⟩
  refine ⟨⟨t ++ ['>'] ++ insideOf m indent ++ Tag.closingTag, ?_⟩, no_return_module hm h, passes_module hm h,
    fun offset r => takes_module hm h offset r⟩
  rw [openingText, ht]
  rfl

end Modules

/-- The entry of an artifact whose segment and name belong together. -/
theorem entryText_reindent (h : Accepts x.segment x.name) (hindent : ∀ c ∈ indent, isIndent c = true) :
    x.EntryText indent (reindent (x.entryText .marker) indent) := by
  cases x with
  | module m => exact entryText_module h hindent
  | page p => exact entryText_page h hindent

theorem Built.accepts (h : x.Built) : Accepts x.segment x.name := by
  cases x with
  | module m => exact h.2
  | page p => exact h.2.2

/-- Written into a text, in no tag, the entry is one more element of its forest. -/
theorem EntryText.planted {entry p rest : Text} {roots : List Route} (h : x.EntryText indent entry)
    (hindent : ∀ c ∈ indent, isIndent c = true) (hrest : Tag.Begins rest)
    (hscan : Route.scan (p ++ rest) = .ok roots)
    (hout : ∀ tag ∈ (Tag.read (p ++ rest)).1,
      ¬ (tag.span.start < p.length ∧ p.length < tag.span.stop)) :
    ∃ roots', Route.scan (p ++ ((entry ++ '\n' :: indent) ++ rest)) = .ok roots'
      ∧ Route.Planted p.length (entry ++ '\n' :: indent).length
        (x.element p.length entry.length) roots roots' := by
  have hplain : '<' ∉ '\n' :: indent := by
    rw [List.mem_cons, not_or]
    exact ⟨by decide, not_mem_indent hindent (by decide)⟩
  refine Route.scan_planted hscan (.inl hrest) hout (.inl fun c hc => ?_) fun r =>
    (h.takes _ r).append (Route.takes_plain hplain _ _)
  rcases h.head with ⟨r, hr⟩
  rw [hr] at hc
  rw [← Option.some.inj hc]
  decide

end Routed

/-! ### Inserting an entry -/

section Inserting

variable {x : Routed} {raw t l file : Text} {roots : List Route} {o : Occurrence}

/-- The text of an entry is inserted before an anchor that begins with a brace, in no
    tag: the text still has a forest, the old one with one more element. -/
theorem Insert.forest_before (hx : x.Named raw) (hforest : Route.forest t file = .ok roots)
    (ho : (Anchor.literal ('\x7b' :: l)).locate? t = some o)
    (hout : ∀ tag ∈ (Tag.read t).1,
      ¬ (tag.span.start < o.before.length ∧ o.before.length < tag.span.stop))
    (hnew : alreadyHolds t (x.entryText .marker) = false) :
    ∃ t' roots', Insert.before t (.literal ('\x7b' :: l)) (x.entryText .marker) file = .ok t'
      ∧ t' = o.before ++ (x.linesAt o ++ (o.hit ++ o.after))
      ∧ Route.forest t' file = .ok roots'
      ∧ Route.Planted o.before.length (x.linesAt o).length
        (x.element o.before.length (x.entryAt o).length) roots roots' := by
  have hindent := Routed.isIndent_lastIndent o.before
  have hentry := Routed.entryText_reindent hx.accepts hindent
  have htext : o.before ++ (o.hit ++ o.after) = t := Recogniser.append_of_findFrom ho
  have hscan := Route.forest_eq_ok.mp hforest
  rcases Routed.literal_at ho with ⟨rest, hrest⟩
  -- No tag goes on into a brace.
  have hbegins : Tag.Begins (o.hit ++ o.after) := by
    intro c hc
    rw [hrest] at hc
    rw [← Option.some.inj hc]
    decide
  rw [← htext] at hscan hout
  rcases hentry.planted hindent hbegins hscan hout with ⟨roots', hscan', hplanted⟩
  refine ⟨_, roots', ?_, rfl, Route.forest_eq_ok.mpr hscan', hplanted⟩
  rw [Insert.before_eq hnew ho, Routed.linesAt, Routed.entryAt]
  simp only [List.append_assoc, List.cons_append]

end Inserting

/-- Where an anchor is, told part by part. -/
theorem Anchor.locate?_of_parts {a : Anchor} {t s h r : Text}
    (hparts : (a.locate? t).map (fun o => (o.before, o.hit, o.after)) = some (s, h, r)) :
    a.locate? t = some ⟨s, h, r⟩ := by
  rcases Option.map_eq_some_iff.mp hparts with ⟨o, ho, heq⟩
  rw [Prod.mk.injEq, Prod.mk.injEq] at heq
  rw [ho, ← heq.1, ← heq.2.1, ← heq.2.2]

namespace Elements

/-- The element of a role without modules. -/
def source : Text := "<Route path=\"/inst\">\n  \x7b/* MODULE_ROUTES */\x7d\n</Route>".toList

/-- The place of the anchor. -/
def sentinel : Occurrence :=
  ⟨"<Route path=\"/inst\">\n  ".toList, rootSentinel, "\n</Route>".toList⟩

/-- A module. -/
def moduleA : Routed := .module ⟨"inst".toList, "a".toList, "A".toList⟩

theorem forest_before_first : ∃ t' roots',
    Insert.before source (.literal rootSentinel) (moduleA.entryText .marker) "route.tsx".toList = .ok t'
      ∧ t' = sentinel.before ++ (moduleA.linesAt sentinel ++ (sentinel.hit ++ sentinel.after))
      ∧ Route.forest t' "route.tsx".toList = .ok roots'
      ∧ Route.Planted sentinel.before.length (moduleA.linesAt sentinel).length
        (moduleA.element sentinel.before.length (moduleA.entryAt sentinel).length)
        [⟨⟨0, 53⟩, some "/inst".toList, false, []⟩] roots' := by
  have hread : Tag.read source = ([.opening ⟨⟨0, 20⟩, some "/inst".toList, false⟩,
      .closing ⟨45, 53⟩], none) := by
    decide
  have hforest : Route.forest source "route.tsx".toList
      = .ok [⟨⟨0, 53⟩, some "/inst".toList, false, []⟩] := by
    rw [Route.forest, Route.scan, hread]
    rfl
  refine @Insert.forest_before moduleA "a".toList source rootSentinel.tail _ _ sentinel
    ⟨by decide, by decide⟩ hforest (Anchor.locate?_of_parts (by decide)) ?_
    (by decide)
  rw [hread]
  decide

end Elements

end RouteScaffold

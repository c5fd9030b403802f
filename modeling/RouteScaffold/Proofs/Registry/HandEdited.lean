import RouteScaffold.Proofs.Edit.Statements
import RouteScaffold.Proofs.Edit.Uniform
import RouteScaffold.Proofs.Registry.Elements
import RouteScaffold.Proofs.Registry.Removal

/-!
# Registries Edited by Hand

A registry of the marker dialect is a source file, and what surrounds the two
anchors is left to whoever writes in it. `Routed.Fits` says what that text has to
keep to for an artifact to be added and removed again without a trace: the import
statements are above the default export and closed there, and the anchor of the
entry stands between two tags, directly in the element that is to take the entry.

Then each of the edits that remove the artifact finds what the edits that add it
have written, and nothing else. The first erasure passes over the other imports and
ends with the line of the inserted one; the tags have the forest with one more
element, which is found by its path; and the cut takes back the line break and the
indentation that the entry came with.

## Main definitions

* `Routed.HasRoom`: A place where an element can be added and found again.
* `Routed.Fits`: A text around its anchors.

## Theorems

* `Fits.leadsIn_add`: What adding makes of the text.
* `Fits.leadsIn_remove`: What removing makes of that.
-/

namespace RouteScaffold

open Naming Text Recogniser Pattern Cursor

namespace Route

/-- An element that a place is in, and none of whose children it is in. -/
def Holds (e : Route) (offset : Nat) : Prop :=
  (e.span.start < offset ∧ offset < e.span.stop)
    ∧ ∀ c ∈ e.children, ¬ (c.span.start < offset ∧ offset < c.span.stop)

end Route

namespace Routed

/-- Where a new element is added, and how it is told from the others: a module in a
    root, where no root has an element of that path, and a page in the element of
    its module, where that has none. -/
def HasRoom (roots : List Route) (offset : Nat) : Routed → Prop
  | module m => (∃ root ∈ roots, root.Holds offset)
      ∧ ∀ root ∈ roots, ∀ c ∈ root.children, c.path ≠ some m.segment
  | page p => ∃ e, Route.module? roots p.module.segment = some e ∧ e.Holds offset
      ∧ ∀ c ∈ e.children, c.path ≠ some p.segment

/-- A registry's text with its elements, its default export and the anchor of an
    entry, as it has to be for the artifact to be added and removed again. -/
structure Fits (x : Routed) (t : Text) (roots : List Route) (exported sentinel : Occurrence) :
    Prop where
  scans : Route.scan t = .ok roots
  export_at : (Anchor.literal exportAnchor).locate? t = some exported
  starts_line : ∀ c ∈ exported.before.getLast?, c = '\n'
  imports : ImportsClosed exported.before t
  sentinel_at : (x.anchor .marker).locate? t = some sentinel
  below : exported.before.length < sentinel.before.length
  outside : ∀ tag ∈ (Tag.read t).1,
    ¬ (tag.span.start < sentinel.before.length ∧ sentinel.before.length < tag.span.stop)
  room : x.HasRoom roots sentinel.before.length
  no_pages : ∀ m, x = module m → ¬ Registry.pageSource m.segment [] <:+: t

variable {x : Routed} {indent : Text}

/-! ### The texts between the edits -/

section Texts

variable {t : Text} {roots : List Route} {exported sentinel : Occurrence}

/-- The anchor stands somewhere behind the place of the imports. -/
theorem Fits.split (h : x.Fits t roots exported sentinel) : ∃ between,
    sentinel.before = exported.before ++ between
      ∧ exported.hit ++ exported.after = between ++ (sentinel.hit ++ sentinel.after) := by
  have hexport := append_of_findFrom h.export_at
  have hsentinel := append_of_findFrom h.sentinel_at
  rcases List.append_eq_append_iff.mp (hexport.trans hsentinel.symm) with ⟨z, hz, hrest⟩ | ⟨z, hz, -⟩
  · exact ⟨z, hz, hrest⟩
  · have := h.below
    rw [hz, List.length_append] at this
    omega

/-- The text with the import. -/
def withImport (x : Routed) (head between rest : Text) : Text :=
  head ++ ((x.importIn .marker).text ++ (between ++ rest))

/-- The indentation of the line of the anchor. -/
def indentBelow (x : Routed) (head between : Text) : Text :=
  lastIndent (head ++ ((x.importIn .marker).text ++ between))

/-- The entry, with the line break and the indentation that follow it. -/
def entryLines (x : Routed) (head between : Text) : Text :=
  reindent (x.entryText .marker) (x.indentBelow head between) ++ '\n' :: x.indentBelow head between

/-- The text with the entry. -/
def withEntry (x : Routed) (head between rest : Text) : Text :=
  (head ++ between) ++ (x.entryLines head between ++ rest)

/-- The text with the import and the entry. -/
def withBoth (x : Routed) (head between rest : Text) : Text :=
  (head ++ ((x.importIn .marker).text ++ between)) ++ (x.entryLines head between ++ rest)

theorem isIndent_indentBelow (head between : Text) :
    ∀ c ∈ x.indentBelow head between, isIndent c = true := isIndent_lastIndent _

theorem lastIndent_line {head : Text} (h : ∀ c ∈ head.getLast?, c = '\n') : lastIndent head = [] := by
  rcases List.eq_nil_or_concat head with rfl | ⟨s, c, rfl⟩
  · rfl
  · rw [List.concat_eq_append] at h ⊢
    rw [h c (by simp)]
    exact lastIndent_append s (by simp)

theorem text_importIn (x : Routed) : (x.importIn .marker).text = x.importText .marker ++ ['\n'] := rfl

/-- What the first edit makes of the text. -/
theorem Fits.import_inserted (h : x.Built) (hfits : x.Fits t roots exported sentinel) {u between : Text}
    (hrest : exported.hit ++ exported.after = between ++ (sentinel.hit ++ sentinel.after))
    (hins : (x.importEdit .marker).Inserts t u) :
    u = x.withImport exported.before between (sentinel.hit ++ sentinel.after) := by
  rcases hins with ⟨o, ho, rfl⟩
  rw [hfits.export_at, Option.some.injEq] at ho
  subst ho
  rw [lastIndent_line hfits.starts_line, h.reindent_import, withImport, ← hrest, text_importIn]
  simp only [List.append_assoc, List.cons_append, List.nil_append]

/-- A literal is found in the same place of a stretch whatever stands before it. -/
theorem quiet_literal_congr {l s r : Text} {b : Option Char} (b' : Option Char)
    (h : Quiet (recognise (.literal l)) b s r) : Quiet (recognise (.literal l)) b' s r := by
  rw [quiet_iff] at h ⊢
  intro u c v hs
  exact literal?_eq_none.mpr (literal?_eq_none.mp (h u c v hs))

theorem not_infix_of_quiet {l s r : Text} {b : Option Char} (hne : l ≠ [])
    (h : Quiet (recognise (.literal l)) b s r) : ¬ l <:+: s := by
  rintro ⟨u, v, huv⟩
  rw [quiet_iff] at h
  cases l with
  | nil => exact hne rfl
  | cons c l =>
      refine literal?_eq_none.mp (h u c (l ++ v) (by rw [← huv]; simp)) ⟨v ++ r, by simp⟩

/-- The anchor is found where it was. -/
theorem Fits.sentinel_found (h : x.Built) (hfits : x.Fits t roots exported sentinel) {between : Text}
    (hbefore : sentinel.before = exported.before ++ between) :
    (x.anchor .marker).locate? (x.withImport exported.before between (sentinel.hit ++ sentinel.after))
      = some ⟨exported.before ++ ((x.importIn .marker).text ++ between), sentinel.hit, sentinel.after⟩ := by
  rcases h.anchor_marker with ⟨l, hanchor, -⟩
  have hfound := hfits.sentinel_at
  have hsteady : (x.anchor .marker).Steady := h.steady
  rw [hanchor] at hfound hsteady ⊢
  have hquiet := quiet_of_findFrom hfound
  rcases hit_of_findFrom hfound with ⟨k, hk, hhit⟩
  have htext := (literal?_eq_some.mp hk).1
  have hafter : k.after = sentinel.after := by
    have hlength := congrArg List.length hhit
    rw [List.length_take] at hlength
    have hle := congrArg List.length htext
    simp only [List.length_append] at hlength hle
    exact (List.append_inj' htext.symm (by omega)).2
  -- The search passes over the first part, the import, and what lies between.
  rw [hbefore, quiet_append] at hquiet
  have hhead : Passes (recognise (.literal ('\x7b' :: '/' :: l))) exported.before := by
    rcases List.eq_nil_or_concat exported.before with hnil | ⟨s, c, hconcat⟩
    · rw [hnil]
      exact passes_nil _
    · have habsent := not_infix_of_quiet (by simp) hquiet.1
      have hends := hfits.starts_line
      rw [hconcat, List.concat_eq_append] at habsent hends ⊢
      rw [hends c (by simp)] at habsent ⊢
      exact passes_literal_delimited (by simp) hsteady.1
        fun hin => habsent (hin.trans (List.prefix_append s _).isInfix)
  have himport := @Marker.passes_sentinel_import l _ (@Built.sound_import x .marker h)
  have hall : Quiet (recognise (.literal ('\x7b' :: '/' :: l))) none
      (exported.before ++ ((x.importIn .marker).text ++ between)) (sentinel.hit ++ sentinel.after) := by
    rw [quiet_append, quiet_append]
    exact ⟨hhead _ _, himport _ _, quiet_literal_congr _ hquiet.2⟩
  have hread := literal?_append ('\x7b' :: '/' :: l)
    (passed none (exported.before ++ ((x.importIn .marker).text ++ between))) k.after
  rw [← htext] at hread
  have := find?_of_quiet _ _ _ _ _ hall hread hafter
  rw [withImport, ← this]
  simp only [List.append_assoc]
  rfl

/-- What the second edit makes of that. -/
theorem Fits.entry_inserted (h : x.Built) (hfits : x.Fits t roots exported sentinel)
    {between v : Text} (hbefore : sentinel.before = exported.before ++ between)
    (hins : (x.entryEdit .marker).Inserts
      (x.withImport exported.before between (sentinel.hit ++ sentinel.after)) v) :
    v = x.withBoth exported.before between (sentinel.hit ++ sentinel.after) := by
  rcases hins with ⟨o, ho, rfl⟩
  rw [hfits.sentinel_found h hbefore, Option.some.injEq] at ho
  subst ho
  simp only [withBoth, entryLines, indentBelow, List.append_assoc, List.cons_append]

/-- The text around the place of the entry, and the first character of the anchor. -/
theorem Fits.text_eq (h : x.Built) (hfits : x.Fits t roots exported sentinel) {between : Text}
    (hbefore : sentinel.before = exported.before ++ between) :
    ∃ rest, sentinel.hit ++ sentinel.after = '\x7b' :: rest
      ∧ t = (exported.before ++ between) ++ '\x7b' :: rest := by
  rcases h.anchor_marker with ⟨l, hanchor, -⟩
  have hfound := hfits.sentinel_at
  rw [hanchor] at hfound
  rcases literal_at hfound with ⟨r, hr⟩
  refine ⟨'/' :: l ++ r, hr, ?_⟩
  rw [← hbefore, ← append_of_findFrom hfound, hr]
  rfl

theorem no_return_lines (h : x.Built) (head between : Text) : '\r' ∉ x.entryLines head between := by
  have hindent := isIndent_indentBelow (x := x) head between
  rw [entryLines, List.mem_append, List.mem_cons, not_or, not_or]
  exact ⟨(entryText_reindent h.accepts hindent).no_return, by decide, not_mem_indent hindent (by decide)⟩

theorem lines_head (h : x.Built) (head between : Text) :
    ∃ rest, x.entryLines head between = '<' :: rest := by
  rcases (entryText_reindent h.accepts (isIndent_indentBelow (x := x) head between)).head with ⟨rest, hrest⟩
  exact ⟨_, by rw [entryLines, hrest]; rfl⟩

/-- All these texts can be in the file. -/
theorem fits_all (h : x.Built) {ending : LineEnding} {head between rest : Text}
    (hfits : Text.Fits ending ((head ++ between) ++ rest)) :
    Text.Fits ending (x.withImport head between rest) ∧ Text.Fits ending (x.withBoth head between rest)
      ∧ Text.Fits ending (x.withEntry head between rest) := by
  have himport : Text.Fits ending (x.withImport head between rest) := by
    rw [List.append_assoc] at hfits
    exact hfits.insert (Marker.Import.no_return h.sound_import) (by rw [Import.text_eq]; simp)
  have hlines : ∀ s : Text, Text.Fits ending (s ++ rest) →
      Text.Fits ending (s ++ (x.entryLines head between ++ rest)) := fun s hs =>
    hs.insert (no_return_lines h head between) (by
      rcases lines_head h head between with ⟨r, hr⟩
      rw [hr]
      simp)
  -- The import is put in first, so it is there when the lines are.
  refine ⟨himport, hlines _ ?_, hlines _ hfits⟩
  rw [withImport] at himport
  rwa [List.append_assoc, List.append_assoc]

/-- Adding leads to the text with the import and the entry. -/
theorem Fits.leadsIn_add (h : x.Built) (hfits : x.Fits t roots exported sentinel) {r : Registry}
    (hr : r.dialect = .marker) (hadmits : (r.guard x).admits t = .ok ()) {ending : LineEnding}
    (ht : t.Fits ending) {between : Text} (hbefore : sentinel.before = exported.before ++ between)
    (hrest : exported.hit ++ exported.after = between ++ (sentinel.hit ++ sentinel.after))
    (file : Text) : Edit.LeadsIn ending file (r.add x).edits t
      (x.withBoth exported.before between (sentinel.hit ++ sentinel.after)) := by
  -- What is read of the file is the text itself, as it fits its ending.
  have hreread := ht.reread
  rcases @Registry.insertsAll_add r x h (t.withEnding ending) (by rw [hreread.1]; exact hadmits) file
    with ⟨_, _, _, _, _, hall⟩
  rw [Registry.add_eq, hr] at hall ⊢
  rcases hall.first with ⟨u, _, happly, hins, hall⟩
  rw [hreread.2] at hall
  rw [hreread.1] at happly hins
  have hu := hfits.import_inserted h hrest hins
  rcases hfits.text_eq h hbefore with ⟨rest, hsentinel, htext⟩
  rcases @fits_all x h ending exported.before between (sentinel.hit ++ sentinel.after)
    (by rw [hsentinel, ← htext]; exact ht) with ⟨hfirst, hsecond, -⟩
  rw [← hu] at hfirst
  rcases hall.first with ⟨v, _, happly', hins', -⟩
  rw [hfirst.reread.1] at happly' hins'
  have hv := hfits.entry_inserted h hbefore (hu ▸ hins')
  rw [← hv] at hsecond ⊢
  exact .cons (Job.operation_of_inserts hins) happly hfirst
    (.cons (Job.operation_of_inserts hins') happly' hsecond .nil)

/-! ### The erasures -/

theorem Built.word (h : x.Built) (hd : '$' ∉ x.name) : x.name ≠ [] ∧ ∀ c ∈ x.name, isWord c = true := by
  cases x with
  | module m => exact ⟨accepts_name_ne h.2, word_name h.2 hd⟩
  | page p => exact ⟨accepts_name_ne h.2.2, word_name h.2.2 hd⟩

theorem Built.no_semicolon (h : x.Built) (hd : '$' ∉ x.name) : ';' ∉ x.name := fun hmem =>
  absurd ((h.word hd).2 _ hmem) (by decide)

/-- An import mentions the name that it brings in. -/
theorem Built.mentions_import (h : x.Built) (hd : '$' ∉ x.name) :
    (x.importIn .marker).mentions x.name = true := by
  have hword := h.word hd
  have hsplit : importBody (x.importIn .marker).name (x.importIn .marker).source = "\x7b ".toList
      ++ (x.name ++ (" \x7d from \"".toList ++ ((x.importIn .marker).source ++ "\"".toList))) := by
    rw [importIn_name, importBody]
    simp
  rw [Import.mentions, mentionsFrom_iff]
  refine ⟨_, _, hsplit, ?_⟩
  exact (atBoundary_run hword.1 hword.2).mpr ⟨by decide, by rfl⟩

theorem mentions_of_unused {name : Text} (hne : name ≠ []) (hword : ∀ c ∈ name, isWord c = true)
    (h : Guard.uses t name = false) : mentions name t = false := by
  rw [Guard.uses, if_pos] at h
  · exact h
  · rw [Bool.and_eq_true, List.all_eq_true]
    exact ⟨by cases name with | nil => exact absurd rfl hne | cons c name => rfl, hword⟩

/-- Behind the place of the imports nothing is taken for a statement. -/
theorem Fits.no_import_below (h : x.Built) (hfits : x.Fits t roots exported sentinel) {between : Text}
    (hbefore : sentinel.before = exported.before ++ between) (b : Option Char) :
    Quiet importHead? b (between ++ (x.entryLines exported.before between
      ++ (sentinel.hit ++ sentinel.after))) [] := by
  rcases hfits.text_eq h hbefore with ⟨rest, hsentinel, htext⟩
  rcases lines_head h exported.before between with ⟨lines, hlines⟩
  have himports := hfits.imports
  rw [htext, List.append_assoc] at himports
  rw [hsentinel, quiet_append, quiet_append, List.append_nil]
  refine ⟨?_, ?_, himports.quiet_end (by decide) _⟩
  · rw [hlines]
    exact himports.quiet_behind hfits.starts_line (by decide) (by decide) _ _
  · exact (entryText_reindent h.accepts (isIndent_indentBelow _ _)).no_import _ _

/-- The first erasure takes out the import that was added. -/
theorem Fits.erase_import (h : x.Built) (hd : '$' ∉ x.name)
    (hfits : x.Fits t roots exported sentinel) (hunused : Guard.uses t x.name = false)
    {between : Text} (hbefore : sentinel.before = exported.before ++ between) :
    (Pattern.importOf x.name).erase (x.withBoth exported.before between (sentinel.hit ++ sentinel.after))
      = x.withEntry exported.before between (sentinel.hit ++ sentinel.after) := by
  -- No statement in front of the new import speaks of its name, so the first one read is this one.
  have hword := h.word hd
  have hsemicolon := h.no_semicolon hd
  have hmentions := mentions_of_unused hword.1 hword.2 hunused
  rcases hfits.text_eq h hbefore with ⟨rest, hsentinel, htext⟩
  have himports := hfits.imports
  rw [htext, List.append_assoc] at himports hmentions
  have hhead := himports.quiet_importOf hfits.starts_line hword.1 hsemicolon hmentions
  have hstart : ∀ c ∈ passed none exported.before, c = '\n' := by
    rw [passed_none]
    exact hfits.starts_line
  have hsound : (x.importIn .marker).Sound := h.sound_import
  rw [Pattern.erase, Recogniser.erase, withBoth, withEntry, List.append_assoc, List.append_assoc,
    List.append_assoc, eraseFrom_quiet _ _ _ _ (hhead _),
    (Marker.readsImports_importOf hsemicolon).eraseFrom_import hsound hstart, h.mentions_import hd,
    if_pos rfl, List.nil_append, eraseFrom_of_quiet _ _ _
      (quiet_of_importHead (hfits.no_import_below h hbefore (some '\n')) x.name).1]

/-- Imports of pages of the module are not there, and none is taken for one. -/
theorem Fits.erase_pages {m : ModuleRef} (h : (module m).Built)
    (hfits : (module m).Fits t roots exported sentinel) {between : Text}
    (hbefore : sentinel.before = exported.before ++ between) :
    (Pattern.importFrom (Registry.pageSource m.segment [])).erase
        ((module m).withEntry exported.before between (sentinel.hit ++ sentinel.after))
      = (module m).withEntry exported.before between (sentinel.hit ++ sentinel.after) := by
  rcases hfits.text_eq h hbefore with ⟨rest, hsentinel, htext⟩
  have himports := hfits.imports
  rw [htext, List.append_assoc] at himports
  -- The folder of the pages ends no statement.
  have hfolder : ';' ∉ Registry.pageSource m.segment [] := by
    rw [Marker.pageSource_eq, List.mem_append, List.mem_append, not_or, not_or]
    exact ⟨by decide, not_mem_of_tame h.2.spelled.segment (by decide), by decide⟩
  have habsent : ¬ Registry.pageSource m.segment [] <:+: exported.before := fun hin => by
    refine hfits.no_pages m rfl (hin.trans ?_)
    rw [← append_of_findFrom hfits.export_at]
    exact (List.prefix_append _ _).isInfix
  -- No import of a page is there, above or below.
  rw [Pattern.erase, Recogniser.erase, withEntry, List.append_assoc,
    eraseFrom_of_quiet _ _ _ ((quiet_append _ _ _ _ _).mpr
      ⟨himports.quiet_importFrom hfits.starts_line hfolder habsent _,
        (quiet_of_importHead (hfits.no_import_below h hbefore _) _).2⟩)]

/-! ### The cut -/

/-- The tags of the text with the entry. -/
theorem Fits.planted (h : x.Built) (hfits : x.Fits t roots exported sentinel) {between : Text}
    (hbefore : sentinel.before = exported.before ++ between) : ∃ entry indent roots',
    x.entryLines exported.before between = entry ++ '\n' :: indent
      ∧ (∀ c ∈ indent, isIndent c = true)
      ∧ Route.scan (x.withEntry exported.before between (sentinel.hit ++ sentinel.after)) = .ok roots'
      ∧ Route.Planted sentinel.before.length (entry ++ '\n' :: indent).length
        (element sentinel.before.length entry.length x) roots roots' := by
  have hindent := isIndent_indentBelow (x := x) exported.before between
  have hentry := entryText_reindent h.accepts hindent
  rcases hfits.text_eq h hbefore with ⟨rest, hsentinel, htext⟩
  rw [← hbefore] at htext
  have hscan := hfits.scans
  have houtside := hfits.outside
  rw [htext] at hscan houtside
  have hbegins : Tag.Begins ('\x7b' :: rest) := fun c hc => by
    rw [← Option.some.inj hc]
    decide
  rcases hentry.planted hindent hbegins hscan houtside with ⟨roots', hscan', hplanted⟩
  refine ⟨_, _, roots', rfl, hindent, ?_, hplanted⟩
  rw [withEntry, hsentinel, ← hbefore]
  exact hscan'

theorem remove_of_found {text segment : Text} {within : Option Text} {roots' : List Route} {e : Route}
    (hscan : Route.scan text = .ok roots') (hfind : Route.find? roots' segment within = some e)
    (file : Text) : Route.remove text segment within file = .ok (Route.cut text e) := by
  rw [Route.remove, Route.forest, hscan]
  simp only [bind, Except.bind, hfind]
  rfl

/-- The cut takes out the element that was added. -/
theorem Fits.cut (h : x.Built) (hfits : x.Fits t roots exported sentinel) {between : Text}
    (hbefore : sentinel.before = exported.before ++ between) (file : Text) :
    x.cut.apply file (x.withEntry exported.before between (sentinel.hit ++ sentinel.after))
      = .ok t := by
  rcases hfits.planted h hbefore with ⟨entry, indent, roots', hlines, hindent, hscan, hplanted⟩
  rcases hfits.text_eq h hbefore with ⟨rest, hsentinel, htext⟩
  -- What the removal cuts is what has been put in.
  have hcut : Route.cut (x.withEntry exported.before between (sentinel.hit ++ sentinel.after))
      (element sentinel.before.length entry.length x) = t := by
    rw [withEntry, hlines, hsentinel, htext, ← hbefore, List.append_assoc, List.cons_append]
    exact Marker.cut_eq _ _ _ _ _ (by cases x <;> rfl) hindent
      (by intro c hc; rw [← Option.some.inj hc]; decide)
  have hroom := hfits.room
  cases x with
  | module m =>
      rcases hroom with ⟨⟨root, hroot, haround, hnone⟩, hunique⟩
      -- The new module is the first with its segment, among the routes of the one root.
      have hfind : Route.find? roots' m.segment none
          = some (element sentinel.before.length entry.length (module m)) :=
        Route.module?_planted hplanted hroot haround hnone rfl hunique
      exact (remove_of_found hscan hfind file).trans (congrArg Except.ok hcut)
  | page p =>
      rcases hroom with ⟨e, he, ⟨haround, hnone⟩, hunique⟩
      rcases Route.module?_around (Route.laid_scan hfits.scans) hplanted he haround with
        ⟨children', hinside, hmodule⟩
      -- So is the new page, among those of its module.
      have hfind : Route.find? roots' p.segment (some p.module.segment)
          = some (element sentinel.before.length entry.length (page p)) := by
        rw [Route.find?, hmodule]
        exact hinside.child?_new hnone rfl hunique
      exact (remove_of_found hscan hfind file).trans (congrArg Except.ok hcut)

/-- Removing leads from the text with the import and the entry back. -/
theorem Fits.leadsIn_remove (h : x.Built) (hd : '$' ∉ x.name)
    (hfits : x.Fits t roots exported sentinel) {r : Registry} (hr : r.dialect = .marker)
    (hunused : Guard.uses t x.name = false) {ending : LineEnding} (ht : t.Fits ending)
    {between : Text} (hbefore : sentinel.before = exported.before ++ between) (file : Text) :
    Edit.LeadsIn ending file (r.remove x).edits
      (x.withBoth exported.before between (sentinel.hit ++ sentinel.after)) t := by
  rcases hfits.text_eq h hbefore with ⟨rest, hsentinel, htext⟩
  rcases @fits_all x h ending exported.before between (sentinel.hit ++ sentinel.after)
    (by rw [hsentinel, ← htext]; exact ht) with ⟨-, -, hfits'⟩
  have hfirst : (Edit.erase (.importOf x.name)).apply file
      (x.withBoth exported.before between (sentinel.hit ++ sentinel.after))
      = .ok (x.withEntry exported.before between (sentinel.hit ++ sentinel.after)) :=
    congrArg Except.ok (hfits.erase_import h hd hunused hbefore)
  -- Behind the import the entry goes, and the text is what it was.
  have hcut := hfits.cut h hbefore file
  rw [Registry.remove_eq hr]
  cases x with
  | module m =>
      have hpages : (Edit.erase (.importFrom (Registry.pageSource m.segment []))).apply file
          ((module m).withEntry exported.before between (sentinel.hit ++ sentinel.after))
          = .ok ((module m).withEntry exported.before between (sentinel.hit ++ sentinel.after)) :=
        congrArg Except.ok (hfits.erase_pages h hbefore)
      exact .cons nofun hfirst hfits' (.cons nofun hpages hfits' (.cons nofun hcut ht .nil))
  | page p => exact .cons nofun hfirst hfits' (.cons nofun hcut ht .nil)

end Texts

end Routed

end RouteScaffold

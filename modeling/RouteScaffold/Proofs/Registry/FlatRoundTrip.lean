import RouteScaffold.Proofs.Registry.RoundTrip

/-!
# A Round Trip through an Array Edited by Hand

In the flat dialect an artifact is imported in the first line of the file and entered
behind the bracket of an array, and both lines are taken out again by the name that
they mention. Nothing else in the file mentions it, since the guard has looked. But the
bracket need not end its line, and what follows it there ends up on the line of the
entry: so it is taken out with the entry, be it another element or the bracket that
closes the array.

What is left is the text up to the bracket, a line break, and what stood below the line
of the bracket. That is the text as it was exactly if the bracket ends its line, as it
does in a file that was generated.

## Main definitions

* `Routed.symbol`: What an artifact is known by in the flat dialect.

## Theorems

* `leadsIn_flat_add`, `leadsIn_flat_remove`: What adding makes of the text, and what
  removing makes of that.
* `flat_removal_restores_iff`: What is left of the file, and when that is all of it.
-/

namespace RouteScaffold

open Naming Text Recogniser Pattern Cursor

namespace Routed

variable {x : Routed}

/-- What an artifact is known by in the flat dialect: the variable of its route, or its
    component. -/
def symbol (x : Routed) : Text := (x.importIn .flat).name

theorem Built.symbol_ne (h : x.Built) : x.symbol ≠ [] := h.import_name_ne

/-- A symbol made of word characters is used where it is mentioned. -/
theorem uses_symbol (h : x.Built) (hword : ∀ c ∈ x.symbol, isWord c = true) (t : Text) :
    Guard.uses t x.symbol = mentions x.symbol t := by
  have hne : x.symbol.isEmpty = false := by
    rw [List.isEmpty_eq_false_iff]
    exact h.symbol_ne
  rw [Guard.uses, if_pos]
  rw [hne, List.all_eq_true.mpr hword]
  rfl

/-! ### The import -/

theorem importText_eq (dialect : Dialect) (x : Routed) : x.importText dialect
    = ("import \x7b ".toList ++ ((x.importIn dialect).name ++ (" \x7d from \"".toList
      ++ ((x.importIn dialect).source ++ ['"'])))) ++ [';'] := by
  rw [importText, Marker.importLine_eq]
  simp

/-- No head of an array begins within an import. -/
theorem Built.no_head (h : x.Built) {dialect : Dialect} {p : Text} (hp : HeadStart p) :
    ¬ p <:+: x.importText dialect := by
  have hsound : (x.importIn dialect).Sound := h.sound_import
  rcases hp.first with ⟨c, hhead, hc⟩
  rcases hp.last with ⟨d, hlast, hd⟩
  rcases hp.apart with ⟨e, hmem, he⟩
  -- The characters by which a head is known are none of a name or a source.
  have htame : isTame e = false ∧ e ≠ '.' ∧ e ≠ '/' := by
    rcases he with he | rfl
    · refine ⟨?_, ?_, ?_⟩
      · rw [Bool.eq_false_iff]
        intro htame
        rw [isBlank_of_tame htame] at he
        exact absurd he (by simp)
      · rintro rfl
        exact absurd he (by decide)
      · rintro rfl
        exact absurd he (by decide)
    · decide
  have hshort : ∀ l : Text, l.length ≤ 7 → ¬ p <:+: l := fun l hl hin =>
    absurd (hin.length_le.trans hl) (by have := hp.long; omega)
  have hsplit : x.importText dialect = "import ".toList ++ '\x7b' :: ((' ' :: ((x.importIn dialect).name
      ++ [' '])) ++ '\x7d' :: (" from ".toList ++ '"' :: ((x.importIn dialect).source
      ++ '"' :: ";".toList))) := by
    rw [importText, Marker.importLine_eq]
    simp
  rw [hsplit]
  intro hin
  rcases infix_delimited (hp.plain _ (by decide)) hin with hin | hin
  · exact hshort _ (by decide) hin
  rcases infix_delimited (hp.plain _ (by decide)) hin with hin | hin
  · have hname : p <:+: (x.importIn dialect).name := by
      refine infix_left hlast ?_ (infix_right (s := [' ']) hhead ?_ hin)
      · rw [List.mem_singleton]
        rintro rfl
        exact absurd hd (by decide)
      · rw [List.mem_singleton]
        rintro rfl
        exact absurd hc (by decide)
    exact not_mem_of_tame hsound.name htame.1 (hname.subset hmem)
  rcases infix_delimited (hp.plain _ (by decide)) hin with hin | hin
  · exact hshort _ (by decide) hin
  rcases infix_delimited (hp.plain _ (by decide)) hin with hin | hin
  · exact hsound.not_mem_source htame.1 htame.2.1 htame.2.2 (hin.subset hmem)
  · exact hshort _ (by decide) hin

/-- The import in front of a text. -/
def importAbove (x : Routed) (t : Text) : Text := x.importText .flat ++ '\n' :: t

/-- The head of the array is found where it was. -/
theorem Built.locate_importAbove (h : x.Built) {t : Text} {o : Occurrence}
    (ho : (x.anchor .flat).locate? t = some o) :
    (x.anchor .flat).locate? (x.importAbove t) = some ⟨x.importAbove o.before, o.hit, o.after⟩ := by
  rw [importAbove, importAbove, importText_eq]
  refine x.isHead.locate_behindLine (fun p hp => ?_) ho
  rw [← importText_eq]
  exact h.no_head hp

/-! ### The entry -/

/-- The indentation of an entry behind an occurrence. -/
def entryIndent (x : Routed) (o : Occurrence) : Text := lastIndent (x.importAbove o.before) ++ "  "

/-- The text with the import and the entry. -/
def withEntryBehind (x : Routed) (o : Occurrence) : Text :=
  x.importAbove (o.before ++ (o.hit ++ '\n' :: (x.entryIndent o ++ (x.entryText .flat ++ o.after))))

theorem isIndent_entryIndent (x : Routed) (o : Occurrence) : ∀ c ∈ x.entryIndent o, isIndent c = true :=
  List.forall_mem_append.mpr ⟨fun _ hc => List.mem_takeWhile_imp hc, by decide⟩

/-- An entry says the symbol, with no word on either side of it. -/
theorem entryText_delimited (x : Routed) : ∃ s d r, x.entryText .flat = s ++ (x.symbol ++ d :: r)
    ∧ s.getLast?.any isWord = false ∧ isWord d = false := by
  cases x with
  | module m => exact ⟨[], ',', [], rfl, rfl, by decide⟩
  | page p =>
      refine ⟨"\x7b path: \"".toList ++ (p.segment ++ "\", element: <".toList), ' ', "/> \x7d,".toList,
        ?_, ?_, by decide⟩
      · change Snippet.pageEntry p.segment p.name = _ ++ (p.name ++ _)
        rw [pageEntry_eq]
        simp
      · rw [List.getLast?_append, List.getLast?_append]
        rfl

/-- Whatever follows the entry on its line, the line mentions the symbol. -/
theorem Built.mentions_entry (h : x.Built) (hword : ∀ c ∈ x.symbol, isWord c = true) (o : Occurrence)
    (r : Text) : mentions x.symbol (x.entryIndent o ++ x.entryText .flat ++ r) = true := by
  rcases x.entryText_delimited with ⟨s, d, u, hentry, hs, hd⟩
  rw [mentions_eq, mentionsFrom_iff]
  refine ⟨x.entryIndent o ++ s, d :: (u ++ r), by rw [hentry]; simp,
    (atBoundary_run h.symbol_ne hword).mpr ⟨?_, by simpa using hd⟩⟩
  rw [passed_none_any, List.getLast?_append]
  cases hlast : s.getLast? with
  | none =>
      rw [Option.none_or, entryIndent, List.getLast?_append]
      rfl
  | some c =>
      rw [hlast] at hs
      exact hs

/-! ### The texts between the edits -/

section Texts

variable {t : Text} {o : Occurrence} {r : Registry}

/-- What adding makes of the text. -/
theorem Built.leadsIn_flat_add (h : x.Built) (hr : r.dialect = .flat)
    (hadmits : (r.guard x).admits t = .ok ()) {ending : LineEnding} (ht : t.Fits ending)
    (ho : (x.anchor .flat).locate? t = some o) (file : Text) :
    (x.withEntryBehind o).Fits ending
      ∧ Edit.LeadsIn ending file (r.add x).edits t (x.withEntryBehind o) := by
  have hreread := ht.reread
  have hsplit := append_of_findFrom ho
  rcases x.isHead.hit_bracket ho with ⟨s, hhit⟩
  -- The two texts can be in the file.
  have himport : (x.importAbove t).Fits ending := by
    rw [importAbove, List.append_cons]
    change Text.Fits ending ([] ++ (x.importText .flat ++ ['\n'] ++ t))
    refine Text.Fits.insert ht ?_ ?_
    · rw [List.mem_append, not_or]
      exact ⟨h.not_mem_import (by decide) (by decide), by decide⟩
    · rw [importText_eq]
      simp
  have hentry : (x.withEntryBehind o).Fits ending := by
    have hcut : x.importAbove t = (x.importAbove o.before ++ o.hit) ++ o.after := by
      rw [← hsplit]
      simp [importAbove]
    have hwhole : x.withEntryBehind o = (x.importAbove o.before ++ o.hit)
        ++ ('\n' :: (x.entryIndent o ++ x.entryText .flat) ++ o.after) := by
      simp [withEntryBehind, importAbove]
    rw [hcut] at himport
    rw [hwhole]
    refine himport.insert_behind ?_ fun hlast => ?_
    · rw [List.mem_cons, List.mem_append, not_or, not_or]
      exact ⟨by decide, not_mem_indent (x.isIndent_entryIndent o) (by decide),
        h.not_mem_entry (by decide) (by decide)⟩
    · rw [hhit, ← List.append_assoc, List.getLast?_concat] at hlast
      exact absurd hlast (by decide)
  refine ⟨hentry, ?_⟩
  rcases @Registry.insertsAll_add r x h (t.withEnding ending) (by rw [hreread.1]; exact hadmits) file
    with ⟨_, _, _, _, _, hall⟩
  rw [Registry.add_eq, hr] at hall ⊢
  rcases hall.first with ⟨u, _, happly, hins, hall⟩
  rw [hreread.2] at hall
  rw [hreread.1] at happly hins
  have hu : u = x.importAbove t := by
    rw [importAbove, ← h.reindent_import []]
    exact hins
  subst hu
  rcases hall.first with ⟨v, _, happly', hins', -⟩
  rw [himport.reread.1] at happly' hins'
  have hv : v = x.withEntryBehind o := by
    rcases hins' with ⟨o', ho', rfl⟩
    rw [h.locate_importAbove ho, Option.some.injEq] at ho'
    rw [← ho', reindent_line (h.not_mem_entry (by decide) (by decide))]
    simp [withEntryBehind, importAbove, entryIndent]
  rw [hv] at happly'
  exact .cons nofun happly himport (.cons nofun happly' hentry .nil)

/-- What the erasure leaves of the text with the import and the entry. -/
theorem Built.erase_symbol (h : x.Built) (hword : ∀ c ∈ x.symbol, isWord c = true)
    (ho : (x.anchor .flat).locate? t = some o) (hunused : Guard.uses t x.symbol = false) :
    erase (.lineWith x.symbol) (x.withEntryBehind o) = o.endLine := by
  have hne := h.symbol_ne
  have hbreak : '\n' ∉ x.symbol := fun hmem => absurd (hword _ hmem) (by decide)
  have hbracket : '[' ∉ x.symbol := fun hmem => absurd (hword _ hmem) (by decide)
  rcases x.isHead.hit_bracket ho with ⟨s, hhit⟩
  have hsplit : t = (o.before ++ s) ++ '[' :: o.after := by
    rw [← append_of_findFrom ho, hhit]
    simp
  -- The text mentions the symbol on neither side of the bracket.
  rw [uses_symbol h hword, hsplit, mentions_eq, mentionsFrom_delimited hne (by decide) hbracket,
    Bool.or_eq_false_iff] at hunused
  have hafter : mentions x.symbol o.after = false := by
    rw [mentions_eq, ← hunused.2]
    exact mentionsFrom_congr (by decide) hne _
  have habove : mentions x.symbol ((o.before ++ s) ++ '[' :: ['\n']) = false := by
    rw [mentions_eq, mentionsFrom_delimited hne (by decide) hbracket, hunused.1,
      @mentionsFrom_congr (some '[') none (by decide) _ hne, ← mentions_eq]
    exact (mentions_row hne hbreak []).trans (mentionsFrom_nil hne none)
  have himport : mentions x.symbol (x.importText .flat) = true := by
    rcases Marker.importLine_delimited (x.importIn .flat) with ⟨a, b, hline⟩
    rw [← uses_symbol h hword, importText, hline]
    exact uses_of_delimited hne (by decide) (by decide)
  have hline : '\n' ∉ x.importText .flat := h.not_mem_import (by decide) (by decide)
  have hindent : '\n' ∉ x.entryIndent o ++ x.entryText .flat := by
    rw [List.mem_append, not_or]
    exact ⟨not_mem_indent (x.isIndent_entryIndent o) (by decide), h.not_mem_entry (by decide) (by decide)⟩
  rw [withEntryBehind, importAbove, erase_lineWith_line hne hbreak hline himport,
    ← List.append_assoc o.before, erase_lineWith_append hne hbreak,
    ← List.append_assoc (x.entryIndent o),
    erase_lineWith_entry hne hbreak hindent (h.mentions_entry hword o) hafter,
    erase_lineWith_unused hne hbreak, Occurrence.endLine]
  · simp
  · rw [hhit]
    simpa using habove

theorem length_withEntryBehind (x : Routed) (o : Occurrence) :
    (o.before ++ (o.hit ++ o.after)).length < (x.withEntryBehind o).length
      ∧ o.endLine.length < (x.withEntryBehind o).length := by
  have hbelow := (belowLine_suffix o.after).length_le
  rw [withEntryBehind, importAbove, importText_eq, Occurrence.endLine]
  simp only [List.length_append, List.length_cons, List.length_nil]
  omega

end Texts

end Routed

namespace Registry

open Routed

variable {r : Registry} {x : Routed} {d : Disk} {loc : Location} {raw : Text}

theorem flat_file_eq (hr : r.dialect = .flat) (x : Routed) :
    (r.add x).file = (r.guard x).file ∧ (r.remove x).file = (r.guard x).file
      ∧ (r.remove x).edits = [.erase (.lineWith x.symbol)] := by
  rcases r with ⟨dialect, file, modules⟩
  dsimp only at hr
  subst hr
  cases x <;> exact ⟨rfl, rfl, rfl⟩

/-- The round trip where the file can be exchanged. -/
theorem on_flat_add_remove {o : Occurrence} (hr : r.dialect = .flat) (hx : x.Built)
    (hword : ∀ c ∈ x.symbol, isWord c = true)
    (hfile : d.tree.get? loc = some (.file (.text raw))) (huniform : raw.Uniform)
    (hadmits : (r.guard x).admits raw.toLf = .ok ()) (hunused : Guard.uses raw.toLf x.symbol = false)
    (ho : (x.anchor .flat).locate? raw.toLf = some o)
    (hreplace : d.replaceable (r.guard x).file = .ok loc) :
    ∃ d₁ d₂, (r.add x).make.on d = (.ok true, d₁) ∧ (r.remove x).make.on d₁ = (.ok true, d₂)
      ∧ d₂.tree = d.tree.put loc (.file (.text (o.endLine.withEnding (.detect raw))))
      ∧ (d₂.tree = d.tree ↔ o.after.head? = some '\n') := by
  rcases flat_file_eq hr x with ⟨hadd, hremove, hedits⟩
  rcases huniform.fits with ⟨ht, hraw⟩
  rw [← hraw] at hfile
  have hsplit := append_of_findFrom ho
  rcases x.isHead.hit_bracket ho with ⟨s, hhit⟩
  have hended : o.endLine.Fits (.detect raw) := Text.Fits.endLine (hsplit.symm ▸ ht) hhit
  rcases length_withEntryBehind x o with ⟨hlonger, hshorter⟩
  rw [hsplit] at hlonger
  rcases hx.leadsIn_flat_add hr hadmits ht ho (r.add x).file.text with ⟨hboth, hlead⟩
  rcases Job.on_make_of_leadsIn hlead ht (by rw [hadd]; exact hreplace) hfile
    (fun heq => absurd hlonger (by rw [heq]; exact Nat.lt_irrefl _)) with ⟨d₁, hrun, hagain, htree⟩
  have hnow : d₁.tree.get? loc
      = some (.file (.text ((x.withEntryBehind o).withEnding (.detect raw)))) := by
    rw [htree, Tree.get?_put_of_file hfile]
  have hback : Edit.LeadsIn (.detect raw) (r.remove x).file.text (r.remove x).edits
      (x.withEntryBehind o) o.endLine := by
    rw [hedits]
    exact .cons nofun (congrArg Except.ok (hx.erase_symbol hword ho hunused)) hended .nil
  rcases Job.on_make_of_leadsIn hback hboth (by rw [hremove, ← hadd]; exact hagain) hnow
    (fun heq => absurd hshorter (by rw [heq]; exact Nat.lt_irrefl _)) with ⟨d₂, hrun', -, htree'⟩
  rw [htree, Tree.put_put] at htree'
  refine ⟨d₁, d₂, hrun, hrun', htree', ?_⟩
  rw [← Occurrence.endLine_eq_iff, hsplit]
  constructor
  · intro hsame
    -- What is read of the file says what was written.
    have hheld := Tree.get?_put_of_file hfile (.file (.text (o.endLine.withEnding (.detect raw))))
    rw [← htree', hsame, hfile, Option.some.injEq, Entry.file.injEq, Content.text.injEq] at hheld
    rw [← hended.reread.1, ← hheld, ht.reread.1]
  · intro hsame
    rw [htree', hsame, Tree.put_of_get? hfile]

/-- What is added to an array that was edited by hand and removed again takes with it
    what follows the bracket on its line, so the file is as it was exactly if the bracket
    ends its line. Where the file cannot be exchanged, adding fails and writes nothing. -/
theorem flat_removal_restores_iff (hr : r.dialect = .flat) (hx : x.Built)
    (hword : ∀ c ∈ x.symbol, isWord c = true) (hfind : d.find (r.guard x).file = .ok loc)
    (hfile : d.tree.get? loc = some (.file (.text raw))) (huniform : raw.Uniform)
    (hguard : (r.guard x).check.on d = (.ok (), d)) :
    ∃ o, (x.anchor .flat).locate? raw.toLf = some o ∧ match d.replaceable (r.guard x).file with
      | .ok _ => ∃ d₁ d₂, (r.add x).make.on d = (.ok true, d₁)
          ∧ (r.remove x).make.on d₁ = (.ok true, d₂)
          ∧ d₂.tree = d.tree.put loc (.file (.text (o.endLine.withEnding (.detect raw))))
          ∧ (d₂.tree = d.tree ↔ o.after.head? = some '\n')
      | .error f => (r.add x).make.on d = (.error (.system f (r.guard x).file.text), d) := by
  rcases Project.guard_ok hguard with ⟨loc', c, raw', hfind', hfile', hread, hadmits⟩
  rw [hfind, Except.ok.injEq] at hfind'
  subst hfind'
  rw [hfile, Option.some.injEq, Entry.file.injEq] at hfile'
  subst hfile'
  rw [← Except.ok.inj hread] at hadmits
  -- The guard has found the bracket and no use of the symbol.
  rcases Guard.admits_iff.mp hadmits with ⟨hanchors, hunused⟩
  have hstands := hanchors _ (guard_eq r x).1
  have hfree := hunused _ (guard_eq r x).2.2
  rw [hr] at hstands hfree
  rcases Option.isSome_iff_exists.mp hstands with ⟨o, ho⟩
  refine ⟨o, ho, ?_⟩
  cases hreplace : d.replaceable (r.guard x).file with
  | ok loc' =>
      have hloc := (Disk.replaceable_eq hreplace).1
      rw [hfind, Except.ok.injEq] at hloc
      subst hloc
      exact on_flat_add_remove hr hx hword hfile huniform hadmits hfree ho hreplace
  | error f =>
      rcases on_add_of_guard hx hguard with ⟨_, _, _, _, _, -, -, -, -, -, -, hrun⟩
      rw [(flat_file_eq hr x).1, hreplace] at hrun
      exact hrun

end Registry

namespace FlatRoundTrip

/-- The registry in its file. -/
def registry : Registry := ⟨.flat, .ofText "route.tsx".toList, .ofText "modules".toList⟩

/-- A disk with nothing but the registry. -/
def disk (text : Text) : Disk := .fresh ⟨[(["route.tsx".toList], .file (.text text))]⟩ []

/-- A module. -/
def moduleA : Routed := .module ⟨"inst".toList, "a".toList, "A".toList⟩

/-- An array over some lines that end in pairs, with an element in it. -/
def spread : Text :=
  Text.toCrlf "export const instRoutes : RouteObject[] =\n  [\n\thome,\n  ];\n".toList

/-- An array that is closed on the line of its bracket. -/
def closed : Text := "export const instRoutes = [];\n".toList

/-- The disk with the module in the closed array. -/
def addedDisk : Disk := ((registry.add moduleA).make.on (disk closed)).2

/-- The disk when the module is removed from it. -/
def leftDisk : Disk := ((registry.remove moduleA).make.on addedDisk).2

/-- What becomes of the closed array. -/
theorem runs_closed : ((registry.guard moduleA).check.on (disk closed)).1 = .ok ()
    ∧ ((registry.add moduleA).make.on (disk closed)).1 = .ok true
    ∧ ((registry.remove moduleA).make.on addedDisk).1 = .ok true
    ∧ leftDisk.tree.get? ["route.tsx".toList] = some (.file (.text "export const instRoutes = [\n".toList)) := by
  decide +kernel

theorem on_add : (registry.add moduleA).make.on (disk closed) = (.ok true, addedDisk) := by
  rw [addedDisk, ← runs_closed.2.1]

theorem on_remove : (registry.remove moduleA).make.on addedDisk = (.ok true, leftDisk) := by
  rw [leftDisk, ← runs_closed.2.2.1]

theorem guard_passes {text : Text} (h : ((registry.guard moduleA).check.on (disk text)).1 = .ok ()) :
    (registry.guard moduleA).check.on (disk text) = (.ok (), disk text) :=
  Prod.ext h (Project.looks_guard _ (disk text))

/-- The module is let into the other array, behind its bracket. -/
theorem runs_spread : ((registry.guard moduleA).check.on (disk spread)).1 = .ok ()
    ∧ ((moduleA.anchor .flat).locate? spread.toLf).map Occurrence.after = some "\n\thome,\n  ];\n".toList
    ∧ (∀ c ∈ moduleA.symbol, isWord c = true) ∧ spread.hasCrlf = true := by
  decide +kernel

end FlatRoundTrip

open FlatRoundTrip in
/-- A module that is added to such an array, in a file with pairs, and removed again. -/
theorem Registry.flat_removal_restores_iff_spread :
    ((∀ c ∈ moduleA.symbol, isWord c = true) ∧ spread.Uniform ∧ spread.hasCrlf = true)
      ∧ ∃ d₁ d₂, (registry.add moduleA).make.on (disk spread) = (.ok true, d₁)
        ∧ (registry.remove moduleA).make.on d₁ = (.ok true, d₂)
        ∧ d₂.tree = (disk spread).tree := by
  have hbuilt : moduleA.Built :=
    ⟨by decide, "a".toList, by decide, by decide, by decide⟩
  rcases runs_spread with ⟨hpasses, hafter, hword, hcrlf⟩
  have huniform : spread.Uniform := Or.inr ⟨_, by decide, rfl⟩
  have hguard := guard_passes hpasses
  rcases @flat_removal_restores_iff registry moduleA (disk spread) ["route.tsx".toList] spread rfl
    hbuilt hword rfl rfl huniform hguard with ⟨o, ho, hrestored⟩
  rw [ho, Option.map_some, Option.some.injEq] at hafter
  rw [show (disk spread).replaceable (registry.guard moduleA).file = .ok ["route.tsx".toList] from rfl]
    at hrestored
  rcases hrestored with ⟨d₁, d₂, hadd, hremove, -, hiff⟩
  exact ⟨⟨hword, huniform, hcrlf⟩, d₁, d₂, hadd, hremove,
    hiff.mpr (by rw [hafter]; rfl)⟩

open FlatRoundTrip in
/-- A bracket that closes the array on the line of the first one is taken out with the
    entry. -/
theorem Registry.flat_removal_loses_bracket :
    (registry.guard moduleA).check.on (disk closed) = (.ok (), disk closed)
      ∧ (registry.add moduleA).make.on (disk closed) = (.ok true, addedDisk)
      ∧ (registry.remove moduleA).make.on addedDisk = (.ok true, leftDisk)
      ∧ leftDisk.tree.get? ["route.tsx".toList]
        = some (.file (.text "export const instRoutes = [\n".toList)) :=
  ⟨guard_passes runs_closed.1, on_add, on_remove, runs_closed.2.2.2⟩

end RouteScaffold

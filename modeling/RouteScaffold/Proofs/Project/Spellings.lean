import RouteScaffold.Proofs.Project.Footprint
import RouteScaffold.Proofs.Project.Failures
import RouteScaffold.Proofs.Project.Namesakes

/-!
# Spellings of One Name

A module and a page have their folder, their sentinel and their route by the segment of
their name, and their component by the canonical name. Many raw names have one segment: the
words of a name may be parted in several ways, and their letters be of either case. All of
these that are accepted have one canonical name, since the name can be read off the segment
alone, and the segment is its own segment.

So how a name is spelled shows only in the words in which a command is recorded. Whatever a
command does with files and registries is the same for two spellings of one segment, and
two commands on one folder have names of one segment.

## Main definitions

* `Order.work`: What an order is apart from its words.

## Theorems

* `segment_segment`: A segment is its own segment.
* `canonical_segment`: A segment of an accepted name is accepted, with the same name.
* `canonical_eq_of_segment_eq`: Accepted names with one segment have one canonical name.
* `work_moduleDeletion`, `work_pageDeletion`: Deletions by two spellings do the same.
* `ref_eq_of_place`: Modules with one folder are one.
* `segment_determines_name`: All of this together.
-/

namespace RouteScaffold

open Naming Job Disk

/-! ### Segments -/

namespace Naming

/-- A segment is its own segment, whatever it was made of. -/
theorem segment_segment (raw : Text) : segment (segment raw) = segment raw := by
  have hwords : words (segment raw) = (words raw).map Text.lower := by
    refine words_join fun v hv => ?_
    rcases List.mem_map.mp hv with ⟨w, hw, rfl⟩
    rcases Text.exists_of_mem_words hw with ⟨hne, hsep, -⟩
    exact ⟨CaseMap.lower_ne_nil hne, CaseMap.not_isSeparator_of_lower hsep⟩
  rw [segment, hwords, List.map_map]
  exact congrArg _ (List.map_congr_left fun w _ => CaseMap.lower_lower w)

/-- A segment of an accepted name is not blank. -/
theorem present_segment {raw kind : Text} (h : isIdentifier (pascal raw) = true) :
    present kind (some (segment raw)) = .ok (segment raw) := by
  have hblank : (segment raw).isBlankLine = false := by
    rcases List.exists_cons_of_ne_nil (segment_ne_nil h) with ⟨c, t, heq⟩
    have htame := (segment_char h c (by simp [heq])).1
    simp [heq, Text.isBlankLine, isBlank_of_tame htame]
  rw [present, hblank]
  rfl

end Naming

namespace Kind

/-- The kinds of which names have segments. -/
def Routed (kind : Kind) : Prop := kind = module ∨ kind = page

variable {kind : Kind} {raw raw' name name' : Text}

theorem canonicalOf_routed (hkind : kind.Routed) (raw : Text) :
    kind.canonicalOf raw = identifier kind raw (pascal raw) := by
  rcases hkind with rfl | rfl
  · rfl
  · rfl

theorem accepted_iff (hkind : kind.Routed) (h : kind.canonical (some raw) = .ok name) :
    isIdentifier (pascal raw) = true ∧ name = pascal raw := by
  have hnamed := (named_eq_ok (named_of_canonical h)).2
  rw [canonicalOf_routed hkind] at hnamed
  rcases of_ite_eq_ok hnamed with ⟨hident, heq⟩
  exact ⟨hident, heq.symm⟩

/-- A segment of an accepted name is accepted, with the same name. -/
theorem canonical_segment (hkind : kind.Routed) (h : kind.canonical (some raw) = .ok name) :
    kind.canonical (some (segment raw)) = .ok name := by
  rcases accepted_iff hkind h with ⟨hident, rfl⟩
  unfold canonical
  rw [present_segment hident]
  change kind.canonicalOf (segment raw) = _
  rw [canonicalOf_routed hkind, identifier, pascal_segment hident, if_pos hident]

/-- Two accepted names of one kind with one segment. -/
structure Alike (kind : Kind) (raw raw' : Text) : Prop where
  accepted : ∃ name, kind.canonical (some raw) = .ok name
  accepted' : ∃ name, kind.canonical (some raw') = .ok name
  segment_eq : segment raw' = segment raw

/-- Accepted names with one segment have one canonical name. -/
theorem Alike.exists_name (h : kind.Alike raw raw') (hkind : kind.Routed) :
    ∃ name, kind.canonical (some raw) = .ok name ∧ kind.canonical (some raw') = .ok name := by
  rcases h.accepted with ⟨name, hname⟩
  rcases h.accepted' with ⟨name', hname'⟩
  have heq := canonical_segment hkind hname'
  rw [h.segment_eq, canonical_segment hkind hname] at heq
  exact ⟨name, hname, by rw [hname', heq]⟩

end Kind

/-! ### Commands -/

/-- What an order is apart from the words in which it was given: its verb, its mode, and all
    of its steps. -/
def Order.work (o : Order) : Text × Mode × List Step := (o.verb, o.mode, o.plan)

namespace Project

variable {p : Project} {role : Option Text} {raw raw' name page page' own : Text}

theorem moduleTarget_of_canonical (h : Kind.module.canonical (some raw) = .ok name) :
    p.moduleTarget role (some raw) = do
      let r ← Job.ofExcept (Kind.role.named role)
      let registry ← Registry.load p.layout p.now r.name
      return ⟨r, ⟨raw, name⟩, registry, ⟨r.name, segment raw, name⟩⟩ := by
  rw [moduleTarget, Kind.named_of_canonical h]
  rfl

section

variable (h : Kind.module.Alike raw raw')
include h

/-- What two spellings of a module stand for is one module. -/
theorem ref_moduleTarget :
    ModuleTarget.ref <$> p.moduleTarget role (some raw') = ModuleTarget.ref <$> p.moduleTarget role (some raw) := by
  rcases h.exists_name (Or.inl rfl) with ⟨name, hname, hname'⟩
  rw [moduleTarget_of_canonical hname, moduleTarget_of_canonical hname', h.segment_eq]
  simp only [map_bind, map_pure]

/-- Deletions of a module by two spellings do the same. -/
theorem work_moduleDeletion (missingOk : Bool) : Order.work <$> p.moduleDeletion role (some raw') missingOk
    = Order.work <$> p.moduleDeletion role (some raw) missingOk := by
  rcases h.exists_name (Or.inl rfl) with ⟨name, hname, hname'⟩
  rw [moduleDeletion, moduleDeletion, moduleTarget_of_canonical hname, moduleTarget_of_canonical hname', h.segment_eq]
  simp only [map_bind, bind_assoc, pure_bind, apply_ite (Functor.map Order.work), map_pure, Order.work]

/-- So do its makings. -/
theorem work_moduleCreation : Order.work <$> p.moduleCreation role (some raw')
    = Order.work <$> p.moduleCreation role (some raw) := by
  rcases h.exists_name (Or.inl rfl) with ⟨name, hname, hname'⟩
  rw [moduleCreation, moduleCreation, moduleTarget_of_canonical hname, moduleTarget_of_canonical hname', h.segment_eq]
  simp only [map_bind, bind_assoc, pure_bind, apply_ite (Functor.map Order.work), map_pure, Order.work]

end

/-- The role in which a folder is that of a module, with its registry. -/
def housing (p : Project) (role : Option Text) (segment : Text) : Job (Named × Registry) := do
  let r ← Job.ofExcept (Kind.role.named role)
  let registry ← Registry.load p.layout p.now r.name
  let folder ← Job.ofExcept (p.layout.moduleFolder r.name segment)
  unless ← Job.isFolder folder do Job.fail (.moduleNotFound r.name segment)
  return (r, registry)

/-- A module is found by its segment, whatever the words of the command are. -/
theorem moduleThere_of_canonical (h : Kind.module.canonical (some raw) = .ok name) :
    p.moduleThere role (some raw) = do
      let (r, registry) ← p.housing role (segment raw)
      return ⟨r, ⟨raw, name⟩, registry, ⟨r.name, segment raw, name⟩⟩ := by
  rw [moduleThere, moduleTarget_of_canonical h, housing]
  simp only [bind_assoc, pure_bind]
  refine congrArg _ (funext fun r => congrArg _ (funext fun registry => congrArg _ (funext fun folder =>
    congrArg _ (funext fun there => ?_))))
  -- Without the folder of the module both sides have failed already.
  cases there
  · rfl
  · rfl

theorem pageTarget_of_canonical (hp : Kind.page.canonical (some page) = .ok own) :
    p.pageTarget role (some raw) (some page) = do
      let t ← p.moduleThere role (some raw)
      return ⟨t, ⟨page, own⟩, ⟨t.ref, segment page, own⟩⟩ := by
  have hnamed : pageNamed (some page) = .ok (⟨page, own⟩, segment page) := by
    rw [pageNamed, Kind.named_of_canonical hp]
    rfl
  rw [pageTarget_eq, hnamed]
  rfl

section

variable (h : Kind.module.Alike raw raw') (hp : Kind.page.Alike page page')
include h hp

/-- What two spellings of a page in two of its module stand for is one page. -/
theorem ref_pageTarget : PageTarget.ref <$> p.pageTarget role (some raw') (some page')
    = PageTarget.ref <$> p.pageTarget role (some raw) (some page) := by
  rcases h.exists_name (Or.inl rfl) with ⟨name, hname, hname'⟩
  rcases hp.exists_name (Or.inr rfl) with ⟨own, hown, hown'⟩
  rw [pageTarget_of_canonical hown, pageTarget_of_canonical hown', moduleThere_of_canonical hname,
    moduleThere_of_canonical hname', h.segment_eq, hp.segment_eq]
  simp only [map_bind, bind_assoc, pure_bind, map_pure]

/-- Deletions of a page do the same, however it and its module are spelled. -/
theorem work_pageDeletion (missingOk : Bool) : Order.work <$> p.pageDeletion role (some raw') (some page') missingOk
    = Order.work <$> p.pageDeletion role (some raw) (some page) missingOk := by
  rcases h.exists_name (Or.inl rfl) with ⟨name, hname, hname'⟩
  rcases hp.exists_name (Or.inr rfl) with ⟨own, hown, hown'⟩
  rw [pageDeletion, pageDeletion, pageTarget_of_canonical hown, pageTarget_of_canonical hown',
    moduleThere_of_canonical hname, moduleThere_of_canonical hname', h.segment_eq, hp.segment_eq]
  simp only [map_bind, bind_assoc, pure_bind, apply_ite (Functor.map Order.work), map_pure, Order.work]

/-- So do its makings. -/
theorem work_pageCreation : Order.work <$> p.pageCreation role (some raw') (some page')
    = Order.work <$> p.pageCreation role (some raw) (some page) := by
  rcases h.exists_name (Or.inl rfl) with ⟨name, hname, hname'⟩
  rcases hp.exists_name (Or.inr rfl) with ⟨own, hown, hown'⟩
  rw [pageCreation, pageCreation, pageTarget_of_canonical hown, pageTarget_of_canonical hown',
    moduleThere_of_canonical hname, moduleThere_of_canonical hname', h.segment_eq, hp.segment_eq]
  simp only [map_bind, bind_assoc, pure_bind, map_pure, Order.work]

end

end Project

/-! ### Folders -/

/-- The folder of a module is three steps down from that of all roles. -/
theorem Layout.rolesRoot_of_moduleFolder {l : Layout} {role segment : Text} {own : Path} (hrole : Path.IsName role)
    (hseg : Path.IsName segment) (h : l.moduleFolder role segment = .ok own) :
    ∃ roles, l.rolesRoot = .ok roles ∧ own = roles.below [role, "modules".toList, segment] := by
  cases hfolder : l.roleFolder role with
  | error f =>
      rw [moduleFolder, hfolder] at h
      exact absurd h (by simp [bind, Except.bind])
  | ok folder =>
      rcases rolesRoot_of_roleFolder hrole hfolder with ⟨roles, hroles, rfl⟩
      rw [moduleFolder_eq hfolder hseg, Path.below_below] at h
      exact ⟨roles, hroles, (Except.ok.inj h).symm⟩

/-- Two names by which one folder of a module is found have one segment, and are given for one
    role. -/
theorem alike_of_place {l : Layout} {here : Location} {role role' raw raw' : Text} {own own' : Path}
    (hrole : isRoleName role = true) (hrole' : isRoleName role' = true)
    (h : ∃ name, Kind.module.canonical (some raw) = .ok name) (h' : ∃ name, Kind.module.canonical (some raw') = .ok name)
    (hown : l.moduleFolder role (segment raw) = .ok own) (hown' : l.moduleFolder role' (segment raw') = .ok own')
    (hplace : spot here own' = spot here own) : role' = role ∧ Kind.module.Alike raw raw' := by
  have hnames : ∀ {role raw : Text}, isRoleName role = true → (∃ name, Kind.module.canonical (some raw) = .ok name) →
      Path.IsName role ∧ Path.IsName (segment raw) := fun hr ⟨_, hc⟩ =>
    have haccepted := Kind.accepted_of_canonical hc []
    ⟨isName_role hr, isName_of_tame haccepted.spelled.segment (accepts_segment_ne haccepted)⟩
  rcases hnames hrole h with ⟨hr, hs⟩
  rcases hnames hrole' h' with ⟨hr', hs'⟩
  rcases Layout.rolesRoot_of_moduleFolder hr hs hown with ⟨roles, hroles, rfl⟩
  rcases Layout.rolesRoot_of_moduleFolder hr' hs' hown' with ⟨_, hroles', rfl⟩
  rw [hroles, Except.ok.injEq] at hroles'
  subst hroles'
  -- None of the names leads up, so they can be read off the end of the place.
  rw [spot_below, spot_below, List.append_cancel_left_eq] at hplace
  · rcases List.cons.inj hplace with ⟨rfl, hrest⟩
    exact ⟨rfl, h, h', by simpa using hrest⟩
  · exact Path.not_up_of_names (List.forall_mem_cons.mpr ⟨hr, Project.isName_module hs (by simp)⟩)
  · exact Path.not_up_of_names (List.forall_mem_cons.mpr ⟨hr', Project.isName_module hs' (by simp)⟩)

/-! ### What a segment tells -/

open Project in
/-- A segment tells the name from which it comes: it is its own segment, and accepted with
    the same canonical name as that name is. So two spellings with one segment stand for one
    module, or one page, with one folder, one sentinel and one route. A making or a removal
    takes the same steps for both, on files and registries alike; and two commands that find
    one folder for their modules have been given spellings of one segment. -/
theorem segment_determines_name :
    (∀ raw, segment (segment raw) = segment raw)
    ∧ (∀ kind raw name, Kind.Routed kind → kind.canonical (some raw) = .ok name →
      kind.canonical (some (segment raw)) = .ok name)
    ∧ (∀ kind raw raw', Kind.Routed kind → kind.Alike raw raw' →
      kind.canonical (some raw') = kind.canonical (some raw))
    ∧ (∀ (p : Project) role raw raw', Kind.module.Alike raw raw' →
      ModuleTarget.ref <$> p.moduleTarget role (some raw') = ModuleTarget.ref <$> p.moduleTarget role (some raw)
      ∧ Order.work <$> p.moduleCreation role (some raw') = Order.work <$> p.moduleCreation role (some raw)
      ∧ (∀ missingOk, Order.work <$> p.moduleDeletion role (some raw') missingOk
        = Order.work <$> p.moduleDeletion role (some raw) missingOk)
      ∧ ∀ page page', Kind.page.Alike page page' →
        PageTarget.ref <$> p.pageTarget role (some raw') (some page')
          = PageTarget.ref <$> p.pageTarget role (some raw) (some page)
        ∧ Order.work <$> p.pageCreation role (some raw') (some page')
          = Order.work <$> p.pageCreation role (some raw) (some page)
        ∧ ∀ missingOk, Order.work <$> p.pageDeletion role (some raw') (some page') missingOk
          = Order.work <$> p.pageDeletion role (some raw) (some page) missingOk)
    ∧ ∀ (l : Layout) (here : Location) role role' raw raw' own own', isRoleName role = true → isRoleName role' = true →
      (∃ name, Kind.module.canonical (some raw) = .ok name) → (∃ name, Kind.module.canonical (some raw') = .ok name) →
      l.moduleFolder role (segment raw) = .ok own → l.moduleFolder role' (segment raw') = .ok own' →
      spot here own' = spot here own → role' = role ∧ Kind.module.Alike raw raw' := by
  refine ⟨segment_segment, fun _ _ _ => Kind.canonical_segment, fun _ _ _ hkind h => ?_,
    fun p role raw raw' h => ⟨ref_moduleTarget h, work_moduleCreation h, work_moduleDeletion h, fun page page' hp =>
      ⟨ref_pageTarget h hp, work_pageCreation h hp, work_pageDeletion h hp⟩⟩,
    fun _ _ _ _ _ _ _ _ => alike_of_place⟩
  rcases h.exists_name hkind with ⟨name, hname, hname'⟩
  rw [hname, hname']

namespace Spellings

/-- A name with a long s, and a Kelvin sign. -/
def old : Text := "\u017F\u212A_b".toList

/-- The same name with a small letter for the sign. -/
def plain : Text := " \u017Fk B".toList

/-- The folder of the module, in a role. -/
def own : Path := .ofText "proj/new/../src/Roles/inst/modules/\u017Fk-b".toList

/-- Both spellings are accepted, and have one segment. -/
theorem spelled : (∀ kind ∈ [Kind.module, Kind.page], ∀ raw ∈ [old, plain], kind.canonical (some raw) = .ok "SkB".toList)
    ∧ segment plain = segment old
    ∧ Footprints.hidden.layout.moduleFolder "inst".toList (segment old) = .ok own := by
  decide +kernel

theorem alike {kind : Kind} (h : kind ∈ [Kind.module, Kind.page]) : kind.Alike old plain :=
  ⟨⟨_, spelled.1 kind h old (by simp)⟩, ⟨_, spelled.1 kind h plain (by simp)⟩, spelled.2.1⟩

end Spellings

open Spellings in
theorem segment_determines_name_old :
    Kind.module.canonical (some (segment old)) = .ok "SkB".toList
      ∧ Kind.module.canonical (some plain) = Kind.module.canonical (some old)
      ∧ Order.work <$> Footprints.hidden.moduleDeletion none (some plain) true
        = Order.work <$> Footprints.hidden.moduleDeletion none (some old) true
      ∧ Order.work <$> Footprints.hidden.pageDeletion none (some plain) (some plain) true
        = Order.work <$> Footprints.hidden.pageDeletion none (some old) (some old) true
      ∧ Kind.module.Alike old plain := by
  have hmodule : Kind.module ∈ [Kind.module, Kind.page] := by simp
  have halike := alike hmodule
  rcases segment_determines_name with ⟨-, hcanonical, hname, hwork, hplace⟩
  rcases hwork Footprints.hidden none _ _ halike with ⟨-, -, hremoval, hpage⟩
  rcases hpage _ _ (alike (by simp)) with ⟨-, -, hdeletion⟩
  rcases spelled with ⟨hname', -, hown⟩
  refine ⟨hcanonical _ _ _ (Or.inl rfl) (hname' _ hmodule _ (by simp)), hname _ _ _ (Or.inl rfl) halike,
    hremoval true, hdeletion true, ?_⟩
  exact (hplace _ [] "inst".toList "inst".toList _ _ _ _ (by decide) (by decide) halike.accepted halike.accepted' hown
    (by rw [halike.segment_eq, hown]) rfl).2

end RouteScaffold

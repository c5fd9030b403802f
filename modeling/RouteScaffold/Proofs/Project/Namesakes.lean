import RouteScaffold.Proofs.Journal.Reading
import RouteScaffold.Proofs.Project.Inference

/-!
# Modules of One Name

Two raw names can stand for one canonical name, and a role must not have two modules of
one name: their components would be imported twice under it. What keeps them apart is
the guard of the registry. It looks for the name in the marker dialect and for the
variable in the flat one, and a registry goes on listing the modules of its role until
they are removed.

So a module is refused when there is one of its name, in the flat dialect when there is
one with its variable. A variable is a function of the name wherever the segment begins
with an ASCII character. Beyond ASCII it is not, since there are small letters that share
a capital; and in the flat dialect a role can have two modules of one name.

## Main definitions

* `ModuleRef.ToldApart`: Two modules that are told apart by a guard.
* `Tracked`: A role whose registry lists the modules that it has.
* `Tracked.History`: What such a role has behind it.

## Theorems

* `camel_eq_of_name`: The variables of two modules of one name.
* `Tracked.command`: A command leaves a role as one whose modules are listed.
* `Tracked.History.names_unique`: No two modules of a role have one name, and the making
  of a second one is refused.
-/

namespace RouteScaffold

open Naming Text Job Disk RouteScaffold.Tree Journal Project Marker

variable {role raw : Text} {dialect : Dialect} {m n : ModuleRef} {live live' kept : List ModuleRef}

/-! ### Names -/

namespace CaseMap

/-- The upper case of an ASCII character is one character, and has its lower case. -/
theorem ascii_upper : ∀ c ∈ ascii, (upperOf c).length = 1 ∧ ∀ d ∈ upperOf c, Text.lower [d] = Text.lower [c] := by
  decide +kernel

end CaseMap

namespace Naming

open CaseMap

/-- A text that begins with an ASCII character, or is empty. -/
def BeginsPlain (t : Text) : Prop := ∀ c ∈ t.head?, c.toNat < 128

/-- The words of an accepted name in camel case are the name with a small letter in
    front, if the segment begins with an ASCII character. -/
theorem camel_segment_eq (h : isIdentifier (pascal raw) = true)
    (hplain : BeginsPlain (segment raw)) :
    camel (segment raw) = Text.lower ((pascal raw).take 1) ++ (pascal raw).drop 1 := by
  cases hws : words raw with
  | nil => exact absurd (by rw [pascal, hws]; rfl) (pascal_ne_nil h)
  | cons w ws =>
      have hmem : ∀ v ∈ w :: ws, v ∈ words raw := fun v hv => hws ▸ hv
      rcases isNameWord_of_mem h (hmem w (by simp)) with ⟨c, rest, rfl, hword⟩
      rcases starts_small c hword.start_mem hword.start with ⟨d, hd, hup, -⟩
      -- The first letter of the name is the capital of the first letter of the segment.
      have hlow : Text.lower (c :: rest) = d :: rest.flatMap lowerOf := by
        rw [Text.lower, lowerAfter_of_no_sigma hword.no_sigma, List.flatMap_cons, hd]
        rfl
      -- The later words are capitalised as they are in the name.
      have hlater : (ws.map Text.lower).flatMap capitalized = ws.flatMap capitalized := by
        rw [List.flatMap_map]
        refine List.flatMap_congr fun v hv => ?_
        rcases isNameWord_of_mem h (hmem v (by simp [hv])) with ⟨x, y, rfl, hother⟩
        rcases lower_word hother with ⟨e, t, hlower, hcap, -⟩
        rw [hlower, hcap]
      have hhead : (segment raw).head? = some d := by
        rw [segment, hws, List.map_cons, hlow]
        cases ws <;> rfl
      rcases ascii_upper d (mem_ascii (hplain d (by rw [hhead]; rfl))) with ⟨hone, hlower⟩
      rcases List.length_eq_one_iff.mp hone with ⟨u, hu⟩
      rw [hu] at hlower
      have hname : pascal raw = u :: (rest.flatMap lowerOf ++ ws.flatMap capitalized) := by
        rw [pascal, hws, List.flatMap_cons, hword.capitalized_eq, ← hup, hu]
        rfl
      rw [camel, words_segment h, hws, List.map_cons, hlow, hname]
      dsimp only
      rw [hlater, List.take_succ_cons, List.take_zero, List.drop_succ_cons, List.drop_zero, List.take_succ_cons,
        List.take_zero, List.drop_succ_cons, List.drop_zero, hlower u (by simp), List.append_assoc]

end Naming

/-- The words that the variables of two modules of one name consist of, where the segments
    begin with ASCII characters. -/
theorem ModuleRef.camel_eq_of_name (hm : m.Accepted) (hn : n.Accepted) (hname : n.name = m.name)
    (hplain : BeginsPlain m.segment) (hplain' : BeginsPlain n.segment) :
    camel n.segment = camel m.segment := by
  rcases hm with ⟨s, hs, hsegment, hpascal⟩
  rcases hn with ⟨s', hs', hsegment', hpascal'⟩
  rw [hsegment] at hplain
  rw [hsegment'] at hplain'
  rw [hsegment, hsegment', camel_segment_eq hs hplain, camel_segment_eq hs' hplain', ← hpascal, ← hpascal', hname]

namespace Kind

theorem named_of_canonical {kind : Kind} {name : Text} (h : kind.canonical (some raw) = .ok name) :
    kind.named (some raw) = .ok ⟨raw, name⟩ := by
  unfold canonical at h
  unfold named
  cases hpresent : present kind.name (some raw) with
  | error f =>
      rw [hpresent] at h
      exact absurd h (by simp [bind, Except.bind])
  | ok t =>
      rw [hpresent] at h
      have ht : raw = t := Option.some.inj (present_eq_ok hpresent)
      subst ht
      change kind.canonicalOf raw = .ok name at h
      dsimp only [bind, Except.bind]
      rw [h]
      rfl

/-- A module whose canonical name is one of its raw name. -/
theorem accepted_of_canonical {name : Text} (h : Kind.module.canonical (some raw) = .ok name) (role : Text) :
    (⟨role, segment raw, name⟩ : ModuleRef).Accepted := by
  rcases Kind.module_named (named_of_canonical h) with ⟨-, hpascal, hident⟩
  exact ⟨raw, hident, rfl, hpascal⟩

/-- The name of a role is its own canonical name. -/
theorem canonical_role (h : isRoleName role = true) : Kind.role.canonical (some role) = .ok role := by
  rcases role_head h with ⟨c, t, rfl, halpha⟩
  have hblank : isBlank c = false := isBlank_of_tame (isTame_of_continuesIdentifier (by
    simp [continuesIdentifier, Char.isAlphanum, halpha]))
  have hpresent : present Kind.role.name (some (c :: t)) = .ok (c :: t) := by
    simp [present, isBlankLine, hblank]
  unfold canonical
  rw [hpresent]
  change roleName (c :: t) = _
  rw [roleName, if_pos h]

end Kind

/-! ### Modules that a role has -/

namespace Marker.Command

/-- Which modules a role has when a command has ended: those that have been made, and not
    named by a removal since. -/
def leaves (role : Text) (live : List ModuleRef) (r : Except Fault Artifact) : Marker.Command → List ModuleRef
  | .createModule raw => if r.isOk then live ++ [namedModule role raw] else live
  | .deleteModule raw _ => live.filter fun m => m.segment ≠ segment raw
  | .createPage .. | .deletePage .. => live

/-- A command that spares the modules it does not name: in the flat dialect the variable
    of a module that is removed is no word of another one's. -/
def Spares (role : Text) (dialect : Dialect) (live : List ModuleRef) : Marker.Command → Prop
  | .deleteModule raw _ => dialect = .flat → ∀ m ∈ live, m.segment ≠ segment raw →
      mentions (namedModule role raw).routeSymbol m.routeSymbol = false
  | _ => True

end Marker.Command

/-- Two modules that are told apart by a guard: they have two names, or in the flat
    dialect two variables. -/
def ModuleRef.ToldApart (dialect : Dialect) (m n : ModuleRef) : Prop :=
  n.name = m.name → dialect = .flat ∧ n.routeSymbol ≠ m.routeSymbol

/-- Modules that are named as modules are, and told apart. -/
structure ModuleRef.Distinct (dialect : Dialect) (live : List ModuleRef) : Prop where
  accepted : ∀ m ∈ live, m.Accepted
  apart : live.Pairwise (ModuleRef.ToldApart dialect)

theorem ModuleRef.Distinct.sublist (h : ModuleRef.Distinct dialect live) (hsub : kept.Sublist live) :
    ModuleRef.Distinct dialect kept :=
  ⟨fun m hm => h.accepted m (hsub.subset hm), h.apart.sublist hsub⟩

/-- Where variables begin with ASCII characters, modules that are told apart have
    different names. -/
theorem ModuleRef.Distinct.nodup (h : ModuleRef.Distinct dialect live)
    (hplain : dialect = .flat → ∀ m ∈ live, BeginsPlain m.segment) :
    (live.map ModuleRef.name).Nodup := by
  refine List.pairwise_map.mpr (h.apart.imp_of_mem fun hm hn hapart hname => ?_)
  rcases hapart hname.symm with ⟨hflat, hsymbol⟩
  refine hsymbol ?_
  rw [routeSymbol, routeSymbol, camel_eq_of_name (h.accepted _ hm) (h.accepted _ hn) hname.symm
    (hplain hflat _ hm) (hplain hflat _ hn)]

/-- A role whose registry lists the modules that it has. -/
structure Tracked (folder : Path) (role : Text) (dialect : Dialect) (live : List ModuleRef) (d : Disk) : Prop where
  seen : Seen folder role dialect d
  listed : ∃ t, Lists role live dialect t
    ∧ d.tree.get? (spot d.here folder ++ registryNames) = some (.file (.text t))
  distinct : ModuleRef.Distinct dialect live
  readable : ∃ made : Descriptor, made.dialect = dialect ∧ made.createdAt.isValid = true
    ∧ d.tree.get? (spot d.here folder ++ [".aviators-role.json".toList]) = some (.file (.text made.document))

namespace Tracked

variable {folder root : Path} {d d' : Disk} {q : Project}

/-- What an amendment of the registry leaves, of which as much is kept as is there however
    the command has ended. -/
theorem amended (h : Tracked folder role dialect live d) (hj : q.journal.Set root)
    (hseen : Seen folder role dialect d') {c : Job Order} {r : Except Fault Artifact}
    (hdone : kept.Sublist live') (hfailed : (∃ f, r = .error f) → kept.Sublist live)
    (hdecides : Decides d (fun o => ∃ edits, Amends folder edits o.plan ∧ (∀ e ∈ edits, e.operation ≠ .append)
      ∧ ∀ t, Lists role live dialect t →
        d.tree.get? (spot d.here folder ++ registryNames) = some (.file (.text t)) →
        ∃ t', (Lists role live' dialect t' ∧ ModuleRef.Distinct dialect live')
          ∧ Edit.Leads (folder.below registryNames).text edits t t') c)
    (hrun : (c >>= q.carryOut).on d = (r, d')) : Tracked folder role dialect kept d' := by
  rcases h.readable with ⟨made, hdialect, hvalid, hmade⟩
  rcases registry_amended hj (fun _ ht => ht.no_return) h.listed hmade hdecides hrun with
    ⟨hhere, hdescriptor, hregistry, -⟩
  rw [← hhere] at hdescriptor hregistry
  -- The registry is the new one or still the old one, and lists what is kept in either case.
  rcases hregistry with ⟨t, ⟨hlists, hdistinct⟩, hdone'⟩ | ⟨herror, t, hlists, hkept⟩
  · exact ⟨hseen, ⟨t, hlists.mono fun _ hm => hdone.subset hm, hdone'⟩, hdistinct.sublist hdone,
      made, hdialect, hvalid, hdescriptor⟩
  · exact ⟨hseen, ⟨t, hlists.mono fun _ hm => (hfailed herror).subset hm, hkept⟩,
      h.distinct.sublist (hfailed herror), made, hdialect, hvalid, hdescriptor⟩

/-- A command leaves a role as one whose modules are listed. -/
theorem command {c : Marker.Command} (h : Tracked folder role dialect live d) (hdiscerns : c.Discerns role dialect)
    (hspares : c.Spares role dialect live) (hfolder : q.layout.roleFolder role = .ok folder) (hj : q.journal.Set root)
    {r : Except Fault Artifact} (hrun : (c.run q role).on d = (r, d')) :
    Tracked folder role dialect (c.leaves role live r) d' := by
  have hseen := h.seen.command hdiscerns hfolder hj hrun
  have hown : ∀ t, some role = some t → q.layout.roleFolder t = .ok folder := by
    rintro _ ⟨⟩
    exact hfolder
  cases c with
  | createModule raw =>
      have hdone : (Command.leaves role live r (.createModule raw)).Sublist (live ++ [namedModule role raw]) := by
        unfold Command.leaves
        dsimp only
        by_cases hr : r.isOk = true
        · rw [if_pos hr]
        · rw [if_neg hr]
          exact List.sublist_append_left _ _
      have hfailed : (∃ f, r = .error f) → (Command.leaves role live r (.createModule raw)).Sublist live := by
        rintro ⟨f, rfl⟩
        exact List.Sublist.refl _
      refine h.amended hj hseen hdone hfailed ((moduleCreation_amends hown).imp fun o _ ho => ?_) hrun
      rcases ho with ⟨t, base, hfound, hguard, hamends⟩
      rcases h.seen.dialect_eq hfound with ⟨rfl, hrole⟩
      refine ⟨_, hamends, (operation_add _ _).1, fun u hu hregistry => ?_⟩
      have hadmits := registry_admits hfound.guard_module_file hregistry hu.no_return hguard
      rcases hu.add_module hfound.accepted hrole hadmits (folder.below registryNames).text with ⟨u', hlists, hleads⟩
      rw [ref_eq_named hfound] at hlists
      refine ⟨u', ⟨hlists, List.forall_mem_append.mpr ⟨h.distinct.accepted, ?_⟩, ?_⟩, hleads⟩
      · rw [← ref_eq_named hfound]
        exact List.forall_mem_singleton.mpr hfound.accepted
      -- The guard has let the module in, so none of its name is listed.
      refine List.pairwise_append.mpr ⟨h.distinct.apart, List.pairwise_singleton _ _, fun m hm n hn hname => ?_⟩
      rw [List.mem_singleton.mp hn, ← ref_eq_named hfound] at hname ⊢
      by_contra hsame
      rw [not_and, not_not] at hsame
      rcases hu.refuses hfound.accepted hrole hm hname hsame with ⟨name, hrefused⟩
      rw [hadmits] at hrefused
      exact absurd hrefused (by simp)
  | createPage module raw =>
      refine h.amended hj hseen (List.Sublist.refl live) (fun _ => List.Sublist.refl live)
        ((pageCreation_amends hown).imp fun o _ ho => ?_) hrun
      rcases ho with ⟨t, base, hfound, hguard, hamends⟩
      rcases h.seen.dialect_eq hfound.within with ⟨rfl, -⟩
      refine ⟨_, hamends, fun e he => (operation_add _ _).1 e (mem_sharedEdits he), fun u hu hregistry => ?_⟩
      have hadmits : t.within.registry.dialect = .marker →
          (t.within.registry.guard (.page t.ref)).admits u = .ok () := fun hmarker => by
        refine registry_admits ?_ hregistry hu.no_return hguard
        change (t.within.registry.pageGuard t.ref).file = _
        rw [Registry.pageGuard, hmarker]
        exact congrArg Registry.file hfound.within.registry_eq
      rcases hu.add_page hfound.accepted hadmits (folder.below registryNames).text with ⟨u', hlists, hleads⟩
      exact ⟨u', ⟨hlists, h.distinct⟩, hleads⟩
  | deleteModule raw missingOk =>
      -- A removal that has failed may have got as far as the registry, so what it names counts as gone.
      have hfewer : (Command.leaves role live r (.deleteModule raw missingOk)).Sublist live := List.filter_sublist
      refine h.amended hj hseen (List.Sublist.refl _) (fun _ => hfewer)
        ((moduleDeletion_amends hown missingOk).imp fun o _ ho => ?_) hrun
      rcases ho with ⟨t, base, hfound, hamends⟩
      rcases h.seen.dialect_eq hfound with ⟨rfl, hrole⟩
      refine ⟨_, hamends, (operation_remove _ _).1, fun u hu _ => ?_⟩
      have hne : t.registry.dialect = .flat → role ≠ t.ref.routeSymbol ++ ['\n'] := by
        rw [ref_eq_named hfound]
        exact hdiscerns
      have hapart : t.registry.dialect = .flat → ∀ n ∈ live, n.segment ≠ t.ref.segment →
          mentions t.ref.routeSymbol n.routeSymbol = false := by
        rw [ref_eq_named hfound]
        exact hspares
      rcases hu.remove_module hfound.accepted hne hapart (folder.below registryNames).text with ⟨u', hlists, hleads⟩
      rw [ref_eq_named hfound] at hlists
      exact ⟨u', ⟨hlists, h.distinct.sublist hfewer⟩, hleads⟩
  | deletePage module raw missingOk =>
      refine h.amended hj hseen (List.Sublist.refl live) (fun _ => List.Sublist.refl live)
        ((pageDeletion_amends hown missingOk).imp fun o _ ho => ?_) hrun
      rcases ho with ⟨t, base, hfound, hamends⟩
      rcases h.seen.dialect_eq hfound.within with ⟨rfl, -⟩
      refine ⟨_, hamends, fun e he => (operation_remove _ _).1 e (mem_sharedEdits he), fun u hu _ => ?_⟩
      rcases hu.remove_page hfound.accepted (folder.below registryNames).text with ⟨u', hlists, hleads⟩
      exact ⟨u', ⟨hlists, h.distinct⟩, hleads⟩

/-! ### Refusals -/

/-- The registry of the role is loaded, with the dialect that its descriptor names. -/
theorem loads (h : Tracked folder role dialect live d) {l : Layout} (hfolder : l.roleFolder role = .ok folder)
    (now : Timestamp) : (Registry.load l now role).on d
      = (.ok ⟨dialect, folder.below registryNames, folder.below ["modules".toList]⟩, d) := by
  rcases h.readable with ⟨made, rfl, hvalid, hmade⟩
  have hfind := h.seen.descriptor_found
  have hway : spot d.here folder ∈ way d.here (folder.below registryNames) := by
    rw [way_below]
    simp [registryNames, Location.stations]
  have hload : (Descriptor.load l now role).on d = (.ok made, d) :=
    Descriptor.on_load_of_found hfolder hvalid (find_of_below h.seen.registry_found)
      (way_of_find h.seen.registry_found _ hway) hfind hmade now
  rw [Registry.load, on_bind_ok hload, on_ofExcept, registry_eq hfolder]
  rfl

/-- The module of a raw name that is accepted is found, whether it is there or not. -/
theorem target (h : Tracked folder role dialect live d) (hfolder : q.layout.roleFolder role = .ok folder)
    {name : Text} (hname : Kind.module.canonical (some raw) = .ok name) :
    (q.moduleTarget (some role) (some raw)).on d = (.ok ⟨⟨role, role⟩, ⟨raw, name⟩,
      ⟨dialect, folder.below registryNames, folder.below ["modules".toList]⟩, ⟨role, segment raw, name⟩⟩, d) := by
  rw [moduleTarget, Kind.named_of_canonical (Kind.canonical_role h.seen.roleName), on_ofExcept_bind,
    Kind.named_of_canonical hname, on_ofExcept_bind, on_bind_ok (h.loads hfolder q.now)]
  rfl

/-- A module is not made where there is one of its name, in the flat dialect one with its
    variable: what is raised is a failure of existence, unless the file system refuses to
    look for a folder of so long a name. Nothing is written. -/
theorem refused (h : Tracked folder role dialect live d) (hfolder : q.layout.roleFolder role = .ok folder)
    (hm : m ∈ live) (hname : Kind.module.canonical (some raw) = .ok m.name)
    (hsymbol : dialect = .flat → camel (segment raw) = camel m.segment) :
    ∃ f, (q.createModule (some role) (some raw)).on d = (.error f, d) ∧ (f.category = some .existing
      ∨ ∃ e, d.look (folder.below ["modules".toList, segment raw]) = .error e
        ∧ f = .system e (folder.below ["modules".toList, segment raw]).text) := by
  have haccepted := Kind.accepted_of_canonical hname role
  have hplace := Layout.moduleFolder_eq hfolder
    (isName_of_tame haccepted.spelled.segment (accepts_segment_ne haccepted))
  rw [createModule]
  -- The creation fails before it does anything.
  suffices hcreation : ∃ f, (q.moduleCreation (some role) (some raw)).on d = (.error f, d)
      ∧ (f.category = some .existing ∨ ∃ e, d.look (folder.below ["modules".toList, segment raw]) = .error e
        ∧ f = .system e (folder.below ["modules".toList, segment raw]).text) by
    rcases hcreation with ⟨f, hf, hcases⟩
    exact ⟨f, on_bind_error hf, hcases⟩
  rw [moduleCreation, on_bind_ok (h.target hfolder hname)]
  dsimp only
  rw [hplace, on_ofExcept_bind]
  rcases (looks_isThere (folder.below ["modules".toList, segment raw])).cases d with ⟨f, hf⟩ | ⟨there, hthere⟩
  · -- Looking for the folder can only fail if the file system refuses it.
    refine ⟨f, on_bind_error hf, Or.inr ?_⟩
    rw [on_isThere] at hf
    split at hf
    · exact absurd hf (by simp)
    · next e he => exact ⟨e, he, (Except.error.inj (Prod.mk.inj hf).1).symm⟩
  · rw [on_bind_ok hthere, on_refuse]
    by_cases hfolder' : there = true
    · -- The folder of another spelling with the same segment is in the way.
      rw [if_pos hfolder']
      exact ⟨_, rfl, Or.inl rfl⟩
    · -- There is no such folder, so it is for the guard to refuse.
      rw [if_neg hfolder']
      rcases h.listed with ⟨t, hlists, hregistry⟩
      have hsymbols : dialect = .flat → (⟨role, segment raw, m.name⟩ : ModuleRef).routeSymbol = m.routeSymbol :=
        fun hflat => by rw [ModuleRef.routeSymbol, ModuleRef.routeSymbol, hsymbol hflat]
      rcases hlists.refuses (r := ⟨dialect, folder.below registryNames, folder.below ["modules".toList]⟩)
        haccepted rfl hm rfl hsymbols with ⟨name, hrefused⟩
      have hread : (readSource (folder.below registryNames)).on d = (.ok t, d) := by
        rw [readSource, on_bind_ok (on_readRaw_text h.seen.registry_found hregistry), on_pure,
          toLf_of_no_return hlists.no_return]
      have hguard : (Registry.moduleGuard ⟨dialect, folder.below registryNames, folder.below ["modules".toList]⟩
          ⟨role, segment raw, m.name⟩).file = folder.below registryNames := by
        rw [Registry.moduleGuard]
        cases dialect <;> rfl
      refine ⟨.identifierTaken name (folder.below registryNames).text, on_bind_error ?_, Or.inl rfl⟩
      rw [Guard.check, hguard, on_bind_ok hread, on_ofExcept]
      exact congrArg (·, d) hrefused

/-! ### Histories -/

/-- What a role has behind it: it has been made, and commands have been given about its
    modules and pages, one after the other, whether they succeeded or failed. In between
    anything may have happened that leaves the registry and the descriptor where and as
    they are. -/
inductive History (root folder : Path) (role : Text) (dialect : Dialect) : List ModuleRef → Disk → Prop
  | created {q : Project} {asked : Option Text} {a : Artifact} {d d' : Disk} (hj : q.journal.Set root)
      (hnow : q.now.isValid = true) (hfolder : q.layout.roleFolder role = .ok folder)
      (hasked : q.dialectFor asked = .ok dialect)
      (hapart : ∀ s ∈ way d.here folder, ¬ spot d.here folder ++ ["modules".toList] <+: s)
      (hrun : (q.createRole (some role) asked).on d = (.ok a, d')) : History root folder role dialect [] d'
  | command {q : Project} {c : Marker.Command} {live : List ModuleRef} {r : Except Fault Artifact} {d d' : Disk}
      (h : History root folder role dialect live d) (hj : q.journal.Set root)
      (hfolder : q.layout.roleFolder role = .ok folder) (hdiscerns : c.Discerns role dialect)
      (hspares : c.Spares role dialect live) (hrun : (c.run q role).on d = (r, d')) :
      History root folder role dialect (c.leaves role live r) d'
  | elsewhere {live : List ModuleRef} {d d' : Disk} (h : History root folder role dialect live d)
      (hhere : d'.here = d.here) (hsame : ∀ names, names = registryNames ∨ names = [".aviators-role.json".toList] →
        d'.find (folder.below names) = d.find (folder.below names)
          ∧ d'.tree.get? (spot d.here folder ++ names) = d.tree.get? (spot d.here folder ++ names)) :
      History root folder role dialect live d'

theorem of_createRole {asked : Option Text} {a : Artifact} (hnow : q.now.isValid = true)
    (hasked : q.dialectFor asked = .ok dialect) (hfolder : q.layout.roleFolder role = .ok folder)
    (hj : q.journal.Set root) (hapart : ∀ s ∈ way d.here folder, ¬ spot d.here folder ++ ["modules".toList] <+: s)
    (hrun : (q.createRole (some role) asked).on d = (.ok a, d')) : Tracked folder role dialect [] d' := by
  have hseen := Seen.of_createRole hasked hfolder hj hapart hrun
  rcases hseen.registry with ⟨t, hshows, hregistry⟩
  rcases exists_roleFiles role dialect with ⟨u, hfiles⟩
  rcases createRole_places hasked hfolder hj hfiles hrun with ⟨-, -, -, hdescriptor, -, -⟩
  exact ⟨hseen, ⟨t, Shows.iff_lists.mp hshows, hregistry⟩, ⟨by simp, .nil⟩,
    ⟨role, dialect, q.now⟩, rfl, hnow, hdescriptor⟩

theorem History.tracked (h : History root folder role dialect live d) : Tracked folder role dialect live d := by
  induction h with
  | created hj hnow hfolder hasked hapart hrun => exact of_createRole hnow hasked hfolder hj hapart hrun
  | command _ hj hfolder hdiscerns hspares hrun ih => exact ih.command hdiscerns hspares hfolder hj hrun
  | elsewhere _ hhere hsame ih =>
      refine ⟨ih.seen.of_same hhere hsame, ?_, ih.distinct, ?_⟩
      · rw [hhere, (hsame _ (Or.inl rfl)).2]
        exact ih.listed
      · rw [hhere, (hsame _ (Or.inr rfl)).2]
        exact ih.readable

/-- Canonical names are unique in a role: two of its modules have two names, or in the
    flat dialect two variables, which are two names as well where segments begin with ASCII
    characters. And the making of a module is refused, and writes nothing, where there is
    one of its name; in the flat dialect, one with its variable, which it has by itself
    where both segments begin so. -/
theorem History.names_unique (h : History root folder role dialect live d) :
    (live.Pairwise (ModuleRef.ToldApart dialect)
        ∧ ((dialect = .flat → ∀ m ∈ live, BeginsPlain m.segment) → (live.map ModuleRef.name).Nodup))
      ∧ ∀ {q : Project} {raw : Text} {m : ModuleRef}, q.layout.roleFolder role = .ok folder → m ∈ live →
        Kind.module.canonical (some raw) = .ok m.name →
        (dialect = .flat → camel (segment raw) = camel m.segment ∨ (BeginsPlain (segment raw) ∧ BeginsPlain m.segment)) →
        ∃ f, (q.createModule (some role) (some raw)).on d = (.error f, d) ∧ (f.category = some .existing
          ∨ ∃ e, d.look (folder.below ["modules".toList, segment raw]) = .error e
            ∧ f = .system e (folder.below ["modules".toList, segment raw]).text) := by
  have hdistinct := h.tracked.distinct
  refine ⟨⟨hdistinct.apart, hdistinct.nodup⟩, fun hfolder hm hname hsymbol => ?_⟩
  refine h.tracked.refused hfolder hm hname fun hflat => ?_
  rcases hsymbol hflat with hsame | ⟨hplain, hplain'⟩
  · exact hsame
  · exact ModuleRef.camel_eq_of_name (hdistinct.accepted _ hm) (Kind.accepted_of_canonical hname role) rfl hplain' hplain

end Tracked

namespace Rivals

open Histories Inferences

/-- The role when a module has been made. -/
def first : Except Fault Artifact × Disk := (project.createModule (some "inst".toList) (some "sa".toList)).on flatRole

/-- The role when one more has been made, whose first letter has the same capital. -/
def second : Except Fault Artifact × Disk := (project.createModule (some "inst".toList) (some "ſa".toList)).on first.2

theorem history_flatRole : Tracked.History root folder "inst".toList .flat [] flatRole := by
  have hasked : project.dialectFor (some "flat".toList) = .ok .flat := by decide
  have hapart : ∀ s ∈ way empty.here folder, ¬ spot empty.here folder ++ ["modules".toList] <+: s := by
    decide
  rcases Inferences.role_made with ⟨a, ha⟩
  exact .created (Journal.set_intentsFolder (.ofRoot root) false) (by decide) rfl hasked hapart ha

end Rivals

open Rivals Histories Inferences in
theorem names_unique_moduleA :
    Tracked.History root folder "inst".toList .flat [namedModule "inst".toList "a".toList] flatModule
      ∧ ([namedModule "inst".toList "a".toList].map ModuleRef.name).Nodup
      ∧ ∃ f, (project.createModule (some "inst".toList) (some "A".toList)).on flatModule = (.error f, flatModule)
        ∧ (f.category = some .existing
          ∨ ∃ e, flatModule.look (folder.below ["modules".toList, segment "A".toList]) = .error e
            ∧ f = .system e (folder.below ["modules".toList, segment "A".toList]).text) := by
  rcases module_made with ⟨b, hb⟩
  have hhistory : Tracked.History root folder "inst".toList .flat [namedModule "inst".toList "a".toList] flatModule :=
    .command history_flatRole (Journal.set_intentsFolder (.ofRoot root) false) rfl (c := addA) trivial trivial hb
  have hnames : Kind.module.canonical (some "A".toList) = .ok "A".toList
      ∧ (namedModule "inst".toList "a".toList).segment.head? = some 'a' ∧ (segment "A".toList).head? = some 'a' := by
    decide
  rcases hnames with ⟨hname, hsegment, hsegment'⟩
  -- Both segments begin with a plain letter.
  have hplain : ∀ t : Text, t.head? = some 'a' → BeginsPlain t := fun t ht c hc => by
    rw [ht] at hc
    rw [← Option.some.inj hc]
    decide
  refine ⟨hhistory, hhistory.names_unique.1.2 fun _ m hm => ?_,
    hhistory.names_unique.2 rfl (List.mem_singleton.mpr rfl) hname fun _ => Or.inr ⟨hplain _ hsegment', hplain _ hsegment⟩⟩
  rw [List.mem_singleton.mp hm]
  exact hplain _ hsegment

open Rivals Histories in
/-- In the flat dialect a role can have two modules of one name: the letters that they
    begin with have the same capital, so their variables differ. -/
theorem namesakes_pass : Tracked.History root folder "inst".toList .flat
      [namedModule "inst".toList "sa".toList, namedModule "inst".toList "ſa".toList] second.2
    ∧ (namedModule "inst".toList "sa".toList).name = (namedModule "inst".toList "ſa".toList).name := by
  have hj : project.journal.Set root := Journal.set_intentsFolder (.ofRoot root) false
  have hruns : first.1.isOk = true ∧ second.1.isOk = true
      ∧ (namedModule "inst".toList "sa".toList).name = (namedModule "inst".toList "ſa".toList).name := by
    decide +kernel
  rcases hruns with ⟨hfirst, hsecond, hname⟩
  rcases on_of_isOk hfirst with ⟨a, ha⟩
  rcases on_of_isOk hsecond with ⟨b, hb⟩
  have hhistory := Tracked.History.command history_flatRole hj rfl (c := .createModule "sa".toList) trivial trivial ha
  exact ⟨.command hhistory hj rfl (c := .createModule "ſa".toList) trivial trivial hb, hname⟩

end RouteScaffold

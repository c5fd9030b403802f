import RouteScaffold.Proofs.Journal.Following
import RouteScaffold.Proofs.Registry.Loading

/-!
# What Commands Have Found

Every command that makes or removes a routed artifact first looks at what it
was given and at what is there. What it has found out by the time it begins to
write is what the rest of the theory goes by.

## Main definitions

* `Project.ModuleFound`: What a command knows of its role and its module.

## Theorems

* `moduleTarget_ok`, `pageTarget_ok`: What a command has found.
* `guard_ok`: What a guard has found out.
-/

namespace RouteScaffold

open Naming Job Disk

namespace Naming

theorem present_eq_ok {kind : Text} {raw : Option Text} {t : Text} (h : present kind raw = .ok t) :
    raw = some t := by
  unfold present at h
  split at h
  · split at h
    · exact absurd h (by simp)
    · rw [Except.ok.inj h]
  · exact absurd h (by simp)

end Naming

namespace Kind

theorem named_eq_ok {kind : Kind} {raw : Option Text} {n : Named} (h : kind.named raw = .ok n) :
    raw = some n.raw ∧ kind.canonicalOf n.raw = .ok n.name := by
  rw [named] at h
  simp only [bind, Except.bind] at h
  split at h
  · exact absurd h (by simp)
  · next t ht =>
      split at h
      · exact absurd h (by simp)
      · next name hname =>
          rw [← Except.ok.inj h]
          exact ⟨present_eq_ok ht, hname⟩

theorem role_named {raw : Option Text} {n : Named} (h : role.named raw = .ok n) :
    raw = some n.raw ∧ n.name = n.raw ∧ isRoleName n.name = true := by
  rcases named_eq_ok h with ⟨hraw, hname⟩
  change roleName n.raw = _ at hname
  rw [roleName] at hname
  split at hname
  · next hrole =>
      rw [← Except.ok.inj hname]
      exact ⟨hraw, rfl, hrole⟩
  · exact absurd hname (by simp)

theorem module_named {raw : Option Text} {n : Named} (h : module.named raw = .ok n) :
    raw = some n.raw ∧ n.name = pascal n.raw ∧ isIdentifier (pascal n.raw) = true := by
  rcases named_eq_ok h with ⟨hraw, hname⟩
  change identifier module n.raw (pascal n.raw) = _ at hname
  rw [identifier] at hname
  split at hname
  · next hident => exact ⟨hraw, (Except.ok.inj hname).symm, hident⟩
  · exact absurd hname (by simp)

theorem page_named {raw : Option Text} {n : Named} (h : page.named raw = .ok n) :
    raw = some n.raw ∧ n.name = pascal n.raw ∧ isIdentifier (pascal n.raw) = true := by
  rcases named_eq_ok h with ⟨hraw, hname⟩
  change identifier page n.raw (pascal n.raw) = _ at hname
  rw [identifier] at hname
  split at hname
  · next hident => exact ⟨hraw, (Except.ok.inj hname).symm, hident⟩
  · exact absurd hname (by simp)

theorem of_ite_eq_ok {c : Prop} [Decidable c] {x y : Text} {f : Fault}
    (h : (if c then .ok x else .error f) = (.ok y : Except Fault Text)) : c ∧ x = y := by
  split at h
  · next hc => exact ⟨hc, Except.ok.inj h⟩
  · exact absurd h (by simp)

/-- How packages are named. -/
theorem canonicalOf_package {kind : PackageKind} {raw name : Text}
    (h : (package kind).canonicalOf raw = .ok name) : name ≠ [] ∧ ∀ c ∈ name, continuesName c = true := by
  have hidentifier : ∀ {t : Text}, isIdentifier t = true ∧ t = name →
      name ≠ [] ∧ ∀ c ∈ name, continuesName c = true := by
    rintro t ⟨hident, rfl⟩
    rcases exists_of_isRun hident with ⟨c, s, rfl, -, -⟩
    exact ⟨by simp, continuesName_of_isIdentifier hident⟩
  -- A hook or a utility is spelled in letters and digits.
  have hrun : isRun Char.isLower Char.isAlphanum (withoutFinalBreak name) = true →
      name ≠ [] ∧ ∀ c ∈ name, continuesName c = true := by
    intro hrun
    refine ⟨?_, continuesName_of_isRun (fun c hc => continuesName_of_isAlphanum ?_)
      (fun c hc => continuesName_of_isAlphanum hc) hrun⟩
    · rcases exists_of_isRun hrun with ⟨c, s, rfl, -, -⟩
      simp
    · simp [Char.isAlphanum, isAlpha_eq, hc]
  cases kind with
  | hook =>
      rcases of_ite_eq_ok h with ⟨hhook, rfl⟩
      exact hrun (isRun_of_isHookName hhook)
  | util =>
      rcases of_ite_eq_ok h with ⟨hutil, rfl⟩
      rw [isUtilName, Bool.and_eq_true] at hutil
      exact hrun hutil.1
  | component => exact hidentifier (of_ite_eq_ok h)
  | store => exact hidentifier (of_ite_eq_ok h)
  | context => exact hidentifier (of_ite_eq_ok h)
  | partialView => exact hidentifier (of_ite_eq_ok h)

end Kind

namespace Project

/-- What a command knows of its role and its module when it has found them: the
    folder of the role, and where it is. -/
structure ModuleFound (p : Project) (role module : Option Text) (d : Disk) (t : ModuleTarget)
    (folder : Path) (base : Location) : Prop where
  role_eq : role = some t.ref.role
  roleName : isRoleName t.ref.role = true
  module_eq : module = some t.module.raw
  segment_eq : t.ref.segment = segment t.module.raw
  name_eq : t.ref.name = pascal t.module.raw
  accepted : t.ref.Accepted
  raw_eq : t.role.raw = t.ref.role
  folder_eq : p.layout.roleFolder t.ref.role = .ok folder
  registry_eq : t.registry = ⟨t.registry.dialect, folder.below ["routes".toList, "route.tsx".toList],
    folder.below ["modules".toList]⟩
  found : d.find folder = .ok base
  isFolder : d.tree.get? base = some .folder
  dialect_eq : ∀ made : Descriptor, d.tree.get? (base ++ [".aviators-role.json".toList])
    = some (.file (.text made.document)) → t.registry.dialect = made.dialect

namespace ModuleFound

variable {p : Project} {role module : Option Text} {d : Disk} {t : ModuleTarget} {folder : Path}
  {base : Location}

theorem base_eq (h : ModuleFound p role module d t folder base) : base = spot d.here folder :=
  spot_of_find h.found

theorem isName_segment (h : ModuleFound p role module d t folder base) : Path.IsName t.ref.segment :=
  isName_of_tame h.accepted.spelled.segment (accepts_segment_ne h.accepted)

theorem moduleFolder_eq (h : ModuleFound p role module d t folder base) :
    p.layout.moduleFolder t.ref.role t.ref.segment
      = .ok (folder.below ["modules".toList, t.ref.segment]) :=
  Layout.moduleFolder_eq h.folder_eq h.isName_segment

end ModuleFound

theorem looks_moduleTarget (p : Project) (role module : Option Text) :
    Looks (p.moduleTarget role module) :=
  (looks_ofExcept _).bind fun _ => (looks_ofExcept _).bind fun _ =>
    (Registry.looks_load _ _ _).bind fun _ => looks_pure _

theorem roleFolder_isOk {l : Layout} {now : Timestamp} {role : Text} {d d' : Disk} {r : Registry}
    (h : (Registry.load l now role).on d = (.ok r, d')) : ∃ folder, l.roleFolder role = .ok folder := by
  rcases on_bind_eq_ok.mp h with ⟨desc, d₁, hload, -⟩
  rw [Descriptor.load] at hload
  cases hfolder : l.roleFolder role with
  | ok folder => exact ⟨folder, rfl⟩
  | error f =>
      rw [hfolder] at hload
      rcases on_bind_eq_ok.mp hload with ⟨x, d₂, hx, -⟩
      exact absurd hx (by simp)

/-- What a command knows when it has found its module's role. -/
theorem moduleTarget_ok {p : Project} {role module : Option Text} {d : Disk} {t : ModuleTarget}
    (h : (p.moduleTarget role module).on d = (.ok t, d)) :
    ∃ folder base, ModuleFound p role module d t folder base := by
  rw [moduleTarget] at h
  rcases on_bind_eq_ok.mp h with ⟨r, d₁, hr, h⟩
  rw [on_ofExcept, Prod.mk.injEq] at hr
  rcases hr with ⟨hr, rfl⟩
  rcases on_bind_eq_ok.mp h with ⟨m, d₂, hm, h⟩
  rw [on_ofExcept, Prod.mk.injEq] at hm
  rcases hm with ⟨hm, rfl⟩
  rcases on_bind_eq_ok.mp h with ⟨registry, d₃, hload, h⟩
  have hd₃ := (Registry.looks_load _ _ _).ok hload
  subst hd₃
  rw [on_pure, Prod.mk.injEq, Except.ok.injEq] at h
  rcases h with ⟨rfl, -⟩
  rcases Kind.role_named hr with ⟨hrole, hrname, hisRole⟩
  rcases Kind.module_named hm with ⟨hmodule, hmname, hident⟩
  rcases roleFolder_isOk hload with ⟨folder, hfolder⟩
  rcases Registry.load_ok hfolder hload with ⟨dialect, base, hregistry, hfind, hbase, hdialect⟩
  -- The target is put together from what the looks found.
  refine ⟨folder, base, ⟨?_, hisRole, hmodule, rfl, hmname, ?_, hrname.symm, hfolder, ?_, hfind, hbase, ?_⟩⟩
  · rw [hrole, ← hrname]
  · exact ⟨m.raw, hident, rfl, hmname⟩
  · rw [hregistry]
  · rw [hregistry]
    exact hdialect

theorem looks_pageTarget (p : Project) (role module page : Option Text) :
    Looks (p.pageTarget role module page) :=
  (looks_moduleTarget p role module).bind fun _ => (looks_ofExcept _).bind fun _ =>
    (looks_isFolder _).bind fun _ => .require ((looks_ofExcept _).bind fun _ => looks_pure _)

/-- What a command knows of its page when it has found the page's module. -/
theorem pageTarget_ok {p : Project} {role module page : Option Text} {d : Disk}
    {t : PageTarget}
    (h : (p.pageTarget role module page).on d = (.ok t, d)) : ∃ folder base,
      ModuleFound p role module d t.within folder base ∧ t.ref.module = t.within.ref ∧ t.ref.Accepted
      ∧ page = some t.page.raw ∧ t.ref.segment = segment t.page.raw
      ∧ t.ref.name = pascal t.page.raw := by
  rcases on_bind_eq_ok.mp h with ⟨m, d₁, hm, h⟩
  have hd₁ := (looks_moduleTarget p role module).ok hm
  subst hd₁
  rcases moduleTarget_ok hm with ⟨folder, base, hfound⟩
  rcases on_bind_eq_ok.mp h with ⟨own, d₂, -, h⟩
  rcases on_bind_eq_ok.mp h with ⟨isFolder, d₃, -, h⟩
  rw [on_require] at h
  split at h
  · rcases on_bind_eq_ok.mp h with ⟨⟨named, segment⟩, d₄, hnamed, h⟩
    rw [on_pure, Prod.mk.injEq, Except.ok.injEq] at h
    rcases h with ⟨rfl, -⟩
    rw [on_ofExcept, Prod.mk.injEq] at hnamed
    refine ⟨folder, base, hfound, rfl, ?_⟩
    -- Without a page there is no target.
    cases page with
    | none => exact absurd hnamed.1 (by simp [pageNamed])
    | some raw =>
        rw [pageNamed] at hnamed
        cases hkind : Kind.page.named (some raw) with
        | error f =>
            rw [hkind] at hnamed
            exact absurd hnamed.1 (by simp [bind, Except.bind])
        | ok n =>
            rw [hkind] at hnamed
            have heq := Except.ok.inj hnamed.1
            rw [Prod.mk.injEq] at heq
            rcases Kind.page_named hkind with ⟨hraw, hname, hident⟩
            rw [← heq.1, ← heq.2]
            refine ⟨⟨hfound.accepted, ⟨raw, ?_, rfl, ?_⟩⟩, hraw, ?_, hname⟩
            · rw [Option.some.inj hraw]
              exact hident
            · rw [Option.some.inj hraw]
              exact hname
            · rw [Option.some.inj hraw]
  · exact absurd h (by simp)

/-- A command comes to an order and carries it out, or fails without a write. -/
theorem carryOut_cases {p : Project} {d d' : Disk} {P : Order → Prop} {c : Job Order} (h : Decides d P c)
    {r : Except Fault Artifact} (hrun : (c >>= p.carryOut).on d = (r, d')) :
    (d' = d ∧ ∃ f, r = .error f) ∨ ∃ o q, P o
      ∧ (p.journal.track p.now o.verb o.args o.mode o.plan).on d = (q, d') ∧ r = q.map o.answer := by
  rcases h with ⟨f, hf⟩ | ⟨o, ho, hP⟩
  · rw [on_bind_error hf, Prod.mk.injEq] at hrun
    exact Or.inl ⟨hrun.2.symm, f, hrun.1.symm⟩
  · rw [on_bind_ok ho, carryOut, on_bind] at hrun
    rcases htrack : (p.journal.track p.now o.verb o.args o.mode o.plan).on d with ⟨q, d₁⟩
    rw [htrack] at hrun
    refine Or.inr ⟨o, q, hP, ?_⟩
    cases q with
    -- The answer is the only thing that is still to be given.
    | error f =>
        rw [Prod.mk.injEq] at hrun
        exact ⟨by rw [htrack, hrun.2], hrun.1.symm⟩
    | ok changed =>
        dsimp only at hrun
        rw [on_pure, Prod.mk.injEq] at hrun
        exact ⟨by rw [htrack, hrun.2], hrun.1.symm⟩

/-- What a guard has found out. -/
theorem guard_ok {g : Guard} {d : Disk} (h : g.check.on d = (.ok (), d)) : ∃ loc c t,
    d.find g.file = .ok loc ∧ d.tree.get? loc = some (.file c) ∧ c.read = .ok t
      ∧ g.admits t.toLf = .ok () := by
  rcases on_bind_eq_ok.mp h with ⟨t, d', hread, hadmits⟩
  rcases on_bind_eq_ok.mp hread with ⟨raw, d'', hraw, hlf⟩
  rw [on_pure, Prod.mk.injEq, Except.ok.injEq] at hlf
  rcases hlf with ⟨rfl, rfl⟩
  rw [on_ofExcept, Prod.mk.injEq] at hadmits
  rw [on_readRaw] at hraw
  -- What the guard has read is the text of a file.
  split at hraw
  · next c hlook =>
      split at hraw
      · next raw' hc =>
          rw [Prod.mk.injEq, Except.ok.injEq] at hraw
          rcases hraw with ⟨rfl, -⟩
          rcases look_eq_some.mp hlook with ⟨loc, hfind, hloc⟩
          exact ⟨loc, c, raw', hfind, hloc, hc, hadmits.1⟩
      · exact absurd hraw (by simp)
  · exact absurd hraw (by simp)
  · exact absurd hraw (by simp)

theorem looks_guard (g : Guard) : Looks g.check :=
  ((looks_readRaw _).bind fun _ => looks_pure _).bind fun _ => looks_ofExcept _

end Project

end RouteScaffold

import RouteScaffold.Project.Setup
import RouteScaffold.Proofs.Project.Packages

/-!
# Barrels Mirror the Packages

In a project that has just been set up, every barrel is empty. From then on, whatever
packages are made and removed, and however the commands end, the barrel of a kind is
the list of the packages of that kind that have been made and not removed since, in
the order in which they were made; and these are the packages that have files.

A step either comes to nothing, and then it has changed no file but documents of
intents, or it makes or removes one package and its line. So the packages that are
live are a state that tells everything, and what one step preserves a whole run does.

## Main definitions

* `Call`: The commands about packages, with what they are given.
* `Call.live`: Which packages are live after a command.
* `Project.perform`: What commands lead to, one after the other.
* `Disk.Bare`: A root below which there is nothing.
* `Project.Mirrors`: The files of a project tell which packages are live.

## Theorems

* `mirrors_setUp`: They do once a project has been set up.
* `Mirrors.step`: They do after a command if they did before.
* `barrels_mirror_packages`: They do after any commands.
-/

namespace RouteScaffold

open Job Disk RouteScaffold.Tree Naming Location Journal

/-- A command about packages, with what it is given. -/
inductive Call where
  | create (kind : Text) (raw : Option Text)
  | delete (kind : Text) (raw : Option Text)

namespace Call

/-- The command itself. -/
def run (p : Project) : Call → Job Artifact
  | create kind raw => do p.createPackage (← Job.ofExcept (PackageKind.ofName kind)) raw
  | delete kind raw => do p.deletePackage (← Job.ofExcept (PackageKind.ofName kind)) raw false

/-- The packages that are live after a command, in the order in which they were made:
    one that was made comes last, and one that was removed is live no longer. -/
def live (before : List (Kind × Text)) : Call → Except Fault Artifact → List (Kind × Text)
  | create .., .ok a => before ++ [(a.kind, a.name)]
  | delete .., .ok a => before.filter (· ≠ (a.kind, a.name))
  | _, .error _ => before

end Call

namespace Project

/-- What commands lead to, one after the other, each at its moment. -/
def perform (p : Project) (calls : List (Timestamp × Call)) (live : List (Kind × Text)) (d : Disk) :
    List (Kind × Text) × Disk :=
  calls.foldl (fun s c =>
    let r := (c.2.run { p with now := c.1 }).on s.2
    (c.2.live s.1 r.1, r.2)) (live, d)

/-- The names of the packages of a kind, among some. -/
def namesOf (kind : PackageKind) (live : List (Kind × Text)) : List Text :=
  (live.filter fun x => x.1 = .package kind).map Prod.snd

variable {kind kind' : PackageKind} {name : Text} {live : List (Kind × Text)} {root : Path} {d d' : Disk}
  {now : Timestamp}

theorem mem_namesOf : name ∈ namesOf kind live ↔ (.package kind, name) ∈ live := by
  simp [namesOf]

theorem namesOf_append_own : namesOf kind (live ++ [(.package kind, name)]) = namesOf kind live ++ [name] := by
  simp [namesOf]

theorem namesOf_append_other (h : kind' ≠ kind) :
    namesOf kind' (live ++ [(.package kind, name)]) = namesOf kind' live := by
  simp [namesOf, Ne.symm h]

theorem namesOf_filter_own : namesOf kind (live.filter (· ≠ (.package kind, name)))
    = (namesOf kind live).filter (· ≠ name) := by
  rw [namesOf, namesOf, List.filter_map, List.filter_filter, List.filter_filter]
  refine congrArg _ (List.filter_congr fun x _ => ?_)
  by_cases hkind : x.1 = .package kind
  · simp [Prod.ext_iff, hkind]
  · simp [hkind]

theorem namesOf_filter_other (h : kind' ≠ kind) :
    namesOf kind' (live.filter (· ≠ (.package kind, name))) = namesOf kind' live := by
  rw [namesOf, namesOf, List.filter_filter]
  refine congrArg _ (List.filter_congr fun x _ => ?_)
  by_cases hkind : x.1 = .package kind'
  · simp [Prod.ext_iff, hkind, h]
  · simp [hkind]

/-- The files of a project tell which packages are live. -/
structure Mirrors (root : Path) (live : List (Kind × Text)) (d : Disk) : Prop where
  stands : d.Stands root
  free : ∀ l, Documents d.here root l → d.tree.get? l ≠ some .folder
  barrels : ∀ kind, d.tree.get? (spot d.here root ++ barrelWay kind)
    = some (.file (.text (Barrel.text (namesOf kind live))))
  nodup : live.Nodup
  canonical : ∀ kind name, (.package kind, name) ∈ live → Canonical kind name
  files : ∀ kind name, (.package kind, name) ∈ live → ∀ x ∈ filesOf (packageFiles kind name),
    ∃ c, d.tree.get? (spot d.here root ++ (kindWay kind ++ x.1)) = some (.file c)
  gone : ∀ kind name, Canonical kind name → (.package kind, name) ∉ live →
    ∀ x ∈ filesOf (packageFiles kind name), ∀ c,
      d.tree.get? (spot d.here root ++ (kindWay kind ++ x.1)) ≠ some (.file c)
  reached : ∀ kind name, (.package kind, name) ∈ live → Reached root kind name
  saves : live ≠ [] → d.Saves root

namespace Mirrors

variable (h : Mirrors root live d)
include h

theorem nameable (kind : PackageKind) : ∀ n ∈ namesOf kind live, Barrel.Nameable n := fun n hn =>
  (h.canonical kind n (mem_namesOf.mp hn)).nameable

/-- A command that comes to nothing. -/
theorem within_documents (hin : Within root (Documents d.here root) d d') : Mirrors root live d' := by
  have hfile : ∀ (kind : PackageKind) (xs : List Text) (c : Content),
      d'.tree.get? (spot d'.here root ++ (kindWay kind ++ xs)) = some (.file c)
        ↔ d.tree.get? (spot d.here root ++ (kindWay kind ++ xs)) = some (.file c) := fun kind xs c => by
    rw [hin.here]
    exact hin.files _ (kind_not_document _ _ _ _) c
  refine ⟨h.stands.within hin fun _ => below_of_documents, fun l hl => ?_, fun kind => (hfile kind _ _).mpr (h.barrels kind),
    h.nodup, h.canonical, fun kind name hmem x hx => ?_, fun kind name hname hmem x hx c hc => ?_, h.reached,
    fun hne => (h.saves hne).within_documents hin⟩
  · rw [hin.here] at hl
    exact hin.documents l hl (h.free l hl)
  · rcases h.files kind name hmem x hx with ⟨c, hc⟩
    exact ⟨c, (hfile kind _ c).mpr hc⟩
  · exact h.gone kind name hname hmem x hx c ((hfile kind _ c).mp hc)

/-- A package has been made. -/
theorem added (hname : Canonical kind name) (hnew : name ∉ namesOf kind live)
    (hadded : Added root kind name (namesOf kind live) d d') : Mirrors root (live ++ [(.package kind, name)]) d' := by
  rcases hadded with ⟨hin, hsaves, hbarrel, hfiles, hreached⟩
  -- The files of any other package are beside those of the new one.
  have hother : ∀ {kind' name'}, Canonical kind' name' → (kind', name') ≠ (kind, name) →
      ∀ x ∈ filesOf (packageFiles kind' name'), ∀ c,
        d'.tree.get? (spot d'.here root ++ (kindWay kind' ++ x.1)) = some (.file c)
          ↔ d.tree.get? (spot d.here root ++ (kindWay kind' ++ x.1)) = some (.file c) :=
    fun hname' hne x hx c => by
      rw [hin.here]
      exact hin.files _ (file_not_region hname' hne hx) c
  -- What is live by now was live before, or is the new package.
  have hsplit : ∀ {kind' name'}, (Kind.package kind', name') ∈ live ++ [(Kind.package kind, name)] →
      (Kind.package kind', name') ∈ live ∨ kind' = kind ∧ name' = name := fun hmem => by
    simpa using hmem
  refine ⟨hsaves.stands, hsaves.free, fun kind' => ?_, ?_, fun kind' name' hmem => ?_, fun kind' name' hmem x hx => ?_,
    fun kind' name' hname' hmem x hx c hc => ?_, fun kind' name' hmem => ?_, fun _ => hsaves⟩
  -- Only the barrel of this kind gets a line.
  · by_cases hkind : kind' = kind
    · subst hkind
      rw [namesOf_append_own, hin.here]
      exact hbarrel
    · rw [namesOf_append_other hkind, hin.here]
      exact (hin.files _ (barrel_not_region name hkind) _).mpr (h.barrels kind')
  · rw [List.nodup_append]
    refine ⟨h.nodup, List.nodup_singleton _, fun x hx y hy heq => hnew ?_⟩
    rw [mem_namesOf, ← List.mem_singleton.mp hy, ← heq]
    exact hx
  · rcases hsplit hmem with hmem | ⟨rfl, rfl⟩
    · exact h.canonical kind' name' hmem
    · exact hname
  -- The files of the new package have just been made, those of the others are still there.
  · by_cases hsame : (kind', name') = (kind, name)
    · rw [Prod.mk.injEq] at hsame
      rcases hsame with ⟨rfl, rfl⟩
      rw [hin.here]
      exact hfiles x hx
    · have hold : (Kind.package kind', name') ∈ live := (hsplit hmem).resolve_right fun ⟨hk, hn⟩ => hsame (by rw [hk, hn])
      rcases h.files kind' name' hold x hx with ⟨c, hc⟩
      exact ⟨c, (hother (h.canonical _ _ hold) hsame x hx c).mpr hc⟩
  -- A package that is not live by now was not live before.
  · rw [List.mem_append, List.mem_singleton, not_or] at hmem
    have hne : (kind', name') ≠ (kind, name) := fun heq => hmem.2 (by
      rw [Prod.mk.injEq] at heq
      rw [heq.1, heq.2])
    exact h.gone kind' name' hname' hmem.1 x hx c ((hother hname' hne x hx c).mp hc)
  · rcases hsplit hmem with hmem | ⟨rfl, rfl⟩
    · exact h.reached kind' name' hmem
    · exact hreached

/-- A package has been removed. -/
theorem taken (hname : Canonical kind name) (htaken : Taken root kind name (namesOf kind live) d d') :
    Mirrors root (live.filter (· ≠ (.package kind, name))) d' := by
  rcases htaken with ⟨hin, hsaves, hbarrel, hgone⟩
  -- The files of any other package are beside those that go.
  have hother : ∀ {kind' name'}, Canonical kind' name' → (kind', name') ≠ (kind, name) →
      ∀ x ∈ filesOf (packageFiles kind' name'), ∀ c,
        d'.tree.get? (spot d'.here root ++ (kindWay kind' ++ x.1)) = some (.file c)
          ↔ d.tree.get? (spot d.here root ++ (kindWay kind' ++ x.1)) = some (.file c) :=
    fun hname' hne x hx c => by
      rw [hin.here]
      exact hin.files _ (file_not_region hname' hne hx) c
  have hmem : ∀ {kind' name'}, (Kind.package kind', name') ∈ live.filter (· ≠ (Kind.package kind, name)) ↔
      (Kind.package kind', name') ∈ live ∧ (kind', name') ≠ (kind, name) := fun {kind' name'} => by
    rw [List.mem_filter, decide_eq_true_eq, ne_eq, ne_eq, Prod.mk.injEq, Prod.mk.injEq, Kind.package.injEq]
  refine ⟨hsaves.stands, hsaves.free, fun kind' => ?_, h.nodup.filter _, fun kind' name' hin' => ?_,
    fun kind' name' hin' x hx => ?_, fun kind' name' hname' hout x hx c hc => ?_, fun kind' name' hin' => ?_, fun _ => hsaves⟩
  · by_cases hkind : kind' = kind
    · subst hkind
      rw [namesOf_filter_own, hin.here]
      exact hbarrel
    · rw [namesOf_filter_other hkind, hin.here]
      exact (hin.files _ (barrel_not_region name hkind) _).mpr (h.barrels kind')
  · exact h.canonical kind' name' (hmem.mp hin').1
  · rcases hmem.mp hin' with ⟨hold, hne⟩
    rcases h.files kind' name' hold x hx with ⟨c, hc⟩
    exact ⟨c, (hother (h.canonical _ _ hold) hne x hx c).mpr hc⟩
  -- The files of this package are gone, those of a package not live before still are.
  · by_cases hsame : (kind', name') = (kind, name)
    · rw [Prod.mk.injEq] at hsame
      rcases hsame with ⟨rfl, rfl⟩
      rw [hin.here] at hc
      exact hgone _ (file_below_package hname hx) c hc
    · refine h.gone kind' name' hname' (fun hold => hout (hmem.mpr ⟨hold, hsame⟩)) x hx c ?_
      exact (hother hname' hsame x hx c).mp hc
  · exact h.reached kind' name' (hmem.mp hin').1

/-- A package that is live can be removed. -/
theorem delete_ok {raw : Option Text} {named : Named} (hnamed : (Kind.package kind).named raw = .ok named)
    (hmem : (.package kind, named.name) ∈ live) (now : Timestamp) :
    ∃ a d', ((plain root now).deletePackage kind raw false).on d = (.ok a, d') := by
  have hname := canonical_of_named hnamed
  rcases List.exists_mem_of_ne_nil _ (ne_nil_filesOf hname) with ⟨x, hx⟩
  rcases h.files kind _ hmem x hx with ⟨c, hc⟩
  refine deletePackage_ok (h.barrels kind) (h.nameable kind) (h.saves (List.ne_nil_of_mem hmem)) hnamed
    (h.reached kind _ hmem) ?_
  -- The file of the package lies in what belongs to it.
  intro hnone
  rw [h.stands.closed.get?_below hnone (file_below_package hname hx)] at hc
  exact absurd hc (by simp)

/-- They do after a command if they did before. -/
theorem step (now : Timestamp) (c : Call) {r : Except Fault Artifact} (hrun : (c.run (plain root now)).on d = (r, d')) :
    Mirrors root (c.live live r) d' := by
  have hlisted : ∀ kind : PackageKind, ∀ n ∈ namesOf kind live, ∀ x ∈ filesOf (packageFiles kind n),
      d.tree.get? (spot d.here root ++ (kindWay kind ++ x.1)) ≠ none := fun kind n hn x hx => by
    rcases h.files kind n (mem_namesOf.mp hn) x hx with ⟨c, hc⟩
    rw [hc]
    simp
  have hunknown : ∀ {kind : Text} {f : Fault} (k : PackageKind → Job Artifact), PackageKind.ofName kind = .error f →
      (Job.ofExcept (PackageKind.ofName kind) >>= k).on d = (.error f, d) := fun k hf => by
    rw [hf]
    exact on_bind_error (on_ofExcept _ _)
  cases c with
  -- A kind that is none is refused before anything is done.
  | create kind raw =>
      cases hkind : PackageKind.ofName kind with
      | error f =>
          rw [Call.run, hunknown _ hkind, Prod.mk.injEq] at hrun
          rw [← hrun.1, ← hrun.2]
          exact h
      | ok kind =>
          rw [Call.run, hkind, on_ofExcept_bind] at hrun
          -- A creation that is refused leaves at most documents behind.
          rcases createPackage_cases h.stands h.free (h.barrels kind) (h.nameable kind) (hlisted kind) hrun with
            ⟨⟨f, rfl⟩, hin⟩ | ⟨a, rfl, hown, hnamed, hnew, hadded⟩
          · exact h.within_documents hin
          · rw [Call.live, hown]
            exact h.added (canonical_of_named hnamed) hnew hadded
  | delete kind raw =>
      cases hkind : PackageKind.ofName kind with
      | error f =>
          rw [Call.run, hunknown _ hkind, Prod.mk.injEq] at hrun
          rw [← hrun.1, ← hrun.2]
          exact h
      | ok kind =>
          rw [Call.run, hkind, on_ofExcept_bind] at hrun
          -- So does a deletion.
          rcases deletePackage_cases h.stands h.free (h.barrels kind) (h.nameable kind) hrun with
            ⟨⟨f, rfl⟩, hin⟩ | ⟨a, rfl, hown, hnamed, htaken⟩
          · exact h.within_documents hin
          · rw [Call.live, hown]
            exact h.taken (canonical_of_named hnamed) htaken

/-- They do after any commands. -/
theorem perform (now : Timestamp) (calls : List (Timestamp × Call)) :
    Mirrors root ((plain root now).perform calls live d).1 ((plain root now).perform calls live d).2 := by
  induction calls generalizing live d with
  | nil => exact h
  | cons c calls ih => exact ih (h.step c.1 c.2 (Prod.eta _).symm)

end Mirrors

end Project

/-! ### Setting up -/

namespace Disk

variable {d : Disk} {root : Path} {loc : Location} {xs : List Text}

/-- A root below which there is nothing: an empty folder, or one that can be made
    without a detour. -/
structure Bare (d : Disk) (root : Path) : Prop where
  closed : d.tree.Closed
  here : d.tree.get? d.here = some .folder
  named : ∀ n ∈ d.here, n ≠ ['.', '.'] ∧ '\x00' ∉ n
  level : d.Level root
  empty : d.tree.below (spot d.here root) = []

namespace Bare

variable (h : d.Bare root)
include h

theorem get?_below {zs : List Text} (hzs : zs ≠ []) : d.tree.get? (spot d.here root ++ zs) = none := by
  by_contra hsome
  have hmem := mem_below hsome (List.prefix_append _ zs) fun heq => hzs (List.self_eq_append_right.mp heq)
  rw [h.empty] at hmem
  exact absurd hmem (by simp)

theorem ground : Ground d.here root := by
  refine ⟨h.named, fun zs hzs heq => ?_, fun zs hzs => ?_⟩
  · have hnone := h.get?_below hzs
    rw [← heq, h.here] at hnone
    exact absurd hnone (by simp)
  · have hclear : Clear d.here (root.below []) (spot d.here root ++ zs) :=
      h.level.clear (by simp) (by rw [h.get?_below hzs]; simp) (by simpa using hzs)
    rwa [Path.below, List.append_nil] at hclear

end Bare

end Disk

namespace Project

variable {root : Path} {d₀ d d' : Disk} {kinds : List PackageKind} {kind : PackageKind} {now : Timestamp}

/-- The barrels of some kinds have been made below a bare root. -/
structure Laid (root : Path) (kinds : List PackageKind) (d₀ d : Disk) : Prop where
  within : Within root (fun l => ∃ kind, l = spot d₀.here root ++ barrelWay kind) d₀ d
  there : ∀ kind ∈ kinds, d.tree.get? (spot d₀.here root ++ barrelWay kind) = some (.file (.text []))
  found : ∀ kind ∈ kinds, d.find (root.below (barrelWay kind)) = .ok (spot d₀.here root ++ barrelWay kind)
  absent : ∀ kind ∉ kinds, d.tree.get? (spot d₀.here root ++ barrelWay kind) = none

theorem laid_nil (h : d.Bare root) : Laid root [] d d :=
  ⟨Within.refl _ _ _, by simp, by simp, fun kind _ => h.get?_below (by simp [barrelWay])⟩

variable (hbare : d₀.Bare root)
include hbare

/-- One more barrel is made. -/
theorem Laid.step (h : Laid root kinds d₀ d) (hnew : kind ∉ kinds) {xs : List Path}
    (hrun : ((plain root now).setUpBarrel kind).on d = (.ok xs, d')) : Laid root (kinds ++ [kind]) d₀ d' := by
  have hground := hbare.ground
  have hspot : spot d₀.here (root.below (barrelWay kind)) = spot d₀.here root ++ barrelWay kind :=
    spot_below _ _ (barrelWay_names kind).1
  have hhere := h.within.here
  rw [setUpBarrel, show (plain root now).layout = .ofRoot root from rfl, barrel_plain, on_ofExcept_bind] at hrun
  rcases on_bind_eq_ok.mp hrun with ⟨there, d₁, hthere, hrest⟩
  have hd₁ := (looks_isThere _).ok hthere
  subst hd₁
  cases there with
  | true =>
      -- No barrel was there before, so this one is made now.
      rcases (isThere_iff hthere).mp rfl with ⟨loc, hfind, hloc⟩
      rw [spot_of_find hfind, hhere, hspot] at hloc
      exact absurd (h.absent kind hnew) hloc
  | false =>
      rcases on_bind_eq_ok.mp hrest with ⟨u, d₂, hfile, hpure⟩
      have hd₂ : d₂ = d' := (Prod.mk.inj hpure).2
      subst hd₂
      have hground₁ : Ground d₁.here root := hhere ▸ hground
      have hsource := newFile_source hground₁ (barrelWay_names kind).1 (by simp) hfile
      rcases hsource with ⟨⟨f, hf⟩, -⟩ | ⟨-, hin, htext, hfind⟩
      · exact absurd hf (by simp)
      · rw [hhere, ← barrelWay] at hin htext hfind
        -- The barrels of the others lie in other folders.
        have hother : ∀ kind', kind' ≠ kind → spot d₀.here root ++ barrelWay kind' ≠ spot d₀.here root ++ barrelWay kind :=
          fun kind' hne heq => hne (kindWay_append (List.append_cancel_left heq)).1
        refine ⟨h.within.trans (hin.mono fun l hl => ⟨kind, hl⟩) ?_, fun kind' hmem => ?_, fun kind' hmem => ?_,
          fun kind' hmem => ?_⟩
        · rintro ⟨kind', heq⟩
          exact hground.off _ (by simp [barrelWay]) heq
        · rcases List.mem_append.mp hmem with hmem | hmem
          · refine (hin.files _ (hother kind' fun heq => hnew (heq ▸ hmem)) _).mpr (h.there kind' hmem)
          · rw [List.mem_singleton.mp hmem]
            exact htext
        · rcases List.mem_append.mp hmem with hmem | hmem
          · have hmakes : Does d₁.here Makes (newFile (root.below (barrelWay kind)) []) := makes_newFile _ _
            rcases hmakes d₁ rfl with ⟨ws, hws, hruns⟩
            rw [hfile] at hws
            rw [show d₂ = d₁.after ws from hws]
            exact find_after (h.found kind' hmem) hruns
          · rw [List.mem_singleton.mp hmem]
            exact hfind
        -- What is missing for the other kinds is still missing.
        · rw [List.mem_append, List.mem_singleton, not_or] at hmem
          have hclear : Clear d₁.here (root.below (barrelWay kind)) (spot d₁.here root ++ barrelWay kind') := by
            refine hground₁.clear_below (barrelWay_names kind).1 (by simp [barrelWay]) fun hpre => hmem.2 ?_
            exact (kindWay_append (hpre.eq_of_length rfl)).1
          rcases shuns_newFile (t := []) hclear d₁ rfl with ⟨ws, hws, hruns⟩
          rw [hfile] at hws
          rw [show d₂ = d₁.after ws from hws, after_tree, ← hhere, hruns.shuns, hhere]
          exact h.absent kind' hmem.1

/-- All of some barrels are made. -/
theorem Laid.mapM {more : List PackageKind} (h : Laid root kinds d₀ d) (hnodup : (kinds ++ more).Nodup)
    {xs : List (List Path)} (hrun : (more.mapM (plain root now).setUpBarrel).on d = (.ok xs, d')) :
    Laid root (kinds ++ more) d₀ d' := by
  induction more generalizing kinds d xs with
  | nil =>
      rw [List.mapM_nil, on_pure, Prod.mk.injEq] at hrun
      rw [List.append_nil, ← hrun.2]
      exact h
  | cons kind more ih =>
      rw [List.mapM_cons] at hrun
      rcases on_bind_eq_ok.mp hrun with ⟨x, d₁, hone, hrest⟩
      rcases on_bind_eq_ok.mp hrest with ⟨ys, d₂, hmore, hpure⟩
      have hd₂ : d₂ = d' := (Prod.mk.inj hpure).2
      -- No kind is set up twice.
      have hnew : kind ∉ kinds := fun hmem => by
        exact (List.nodup_append.mp hnodup).2.2 kind hmem kind (by simp) rfl
      rw [List.append_cons] at hnodup ⊢
      exact ih (h.step hbare hnew hone) hnodup (hd₂ ▸ hmore)

omit hbare in
theorem rolesRoot_plain (root : Path) : (Layout.ofRoot root).rolesRoot = .ok (root.below ["src".toList, "Roles".toList]) := by
  change Except.ok (root / "src".toList / "Roles".toList) = _
  rw [Path.div_name ⟨by decide, by decide, by decide, by decide⟩, Path.div_name ⟨by decide, by decide, by decide, by decide⟩,
    Path.below_below]
  rfl

omit hbare in
/-- The folder of roles is made where no document may be. -/
theorem setUpRoles_within (h : Ground d.here root) {r : Except Fault (List Path)}
    (hrun : ((plain root now).setUpRoles).on d = (r, d')) : Within root (fun _ => False) d d' := by
  rw [setUpRoles, show (plain root now).layout = .ofRoot root from rfl, rolesRoot_plain, on_ofExcept_bind] at hrun
  refine Within.of_does hrun ?_ fun l hl => ?_
  · exact does_isFolder.bind fun _ => .ite (fun _ => does_pure _) fun _ =>
      (fills_folders _).bind fun _ => does_pure _
  · refine does_isFolder.bind fun _ => .ite (fun _ => does_pure _) fun _ =>
      Does.bind (makesNoFolder_folders ?_) fun _ => does_pure _
    rcases hl with ⟨name, names, rfl⟩
    exact h.clear_below (by decide) (by simp) fun hpre =>
      absurd (List.cons_prefix_cons.mp hpre).1 (by decide)

/-- The files of a project that has just been set up tell that nothing is live. -/
theorem mirrors_setUp {made : List Path} (hrun : ((plain root now).setUp).on d₀ = (.ok made, d)) : Mirrors root [] d := by
  rcases on_bind_eq_ok.mp hrun with ⟨xs, d₁, hbarrels, hrest⟩
  rcases on_bind_eq_ok.mp hrest with ⟨ys, d₂, hroles, hpure⟩
  have hd₂ : d₂ = d := (Prod.mk.inj hpure).2
  subst hd₂
  have hground := hbare.ground
  have hall : ∀ kind, kind ∈ PackageKind.all := fun kind => by cases kind <;> decide
  have hlaid : Laid root PackageKind.all d₀ d₁ := (laid_nil hbare).mapM hbare (by decide) hbarrels
  have hhere := hlaid.within.here
  have hoff : ¬ ∃ kind, d₀.here = spot d₀.here root ++ barrelWay kind := fun ⟨kind, heq⟩ =>
    hground.off _ (by simp [barrelWay]) heq
  -- The root is there, now that there is something below it.
  have hroot : d₁.tree.get? (spot d₁.here root) = some .folder := by
    rw [hhere]
    have hclosed := hlaid.within.closed hbare.closed hbare.here
    refine hclosed.get?_of_prefix ?_ (List.prefix_append _ (barrelWay .hook)) (by simp [barrelWay])
    rw [hlaid.there _ (hall _)]
    simp
  have hstands₁ : d₁.Stands root := by
    refine ⟨hhere ▸ hground, hlaid.within.closed hbare.closed hbare.here, ?_, ?_, hroot⟩
    · rw [hhere]
      exact hlaid.within.keeps_folder hoff hbare.here
    · exact find_of_below (hlaid.found .hook (hall _))
  have hin₂ := setUpRoles_within hstands₁.ground hroles
  have hin : Within root (fun l => ∃ kind, l = spot d₀.here root ++ barrelWay kind) d₀ d₂ :=
    hlaid.within.trans (hin₂.mono fun _ hl => hl.elim) hoff
  refine ⟨hstands₁.within hin₂ fun _ hl => hl.elim, fun l hl => ?_, fun kind => ?_, List.nodup_nil, by simp, by simp,
    fun kind name hname _ x hx c hc => ?_, by simp, by simp⟩
  · rw [hin.here] at hl
    refine hin.documents l hl ?_
    rcases hl with ⟨name, names, rfl⟩
    rw [hbare.get?_below (by simp)]
    simp
  · rw [hin.here]
    exact (hin₂.files _ id _).mpr (hlaid.there kind (hall kind))
  · rw [hin.here, hin.files] at hc
    · rw [hbare.get?_below (by simp [kindWay])] at hc
      exact absurd hc (by simp)
    · rintro ⟨kind', heq⟩
      rcases kindWay_append (List.append_cancel_left heq) with ⟨rfl, hx'⟩
      refine barrel_ne_file d₀.here root hname ?_
      rw [barrelWay, ← hx']
      exact file_below_package hname hx

omit hbare in
theorem settingsFileOf_eq (root : Path) :
    Layout.settingsFileOf root = root.below [".aviators".toList, "config.json".toList] := by
  change root / ".aviators".toList / "config.json".toList = _
  rw [Path.div_name ⟨by decide, by decide, by decide, by decide⟩, Path.div_name ⟨by decide, by decide, by decide, by decide⟩,
    Path.below_below]
  rfl

omit hbare in
/-- Opening a project changes nothing. -/
theorem looks_open (home root : Path) (now : Timestamp) : Looks (Project.open home root now) := by
  have hoverlay : ∀ (s : Settings) (file : Path), Looks (s.overlayFile file) := fun s file =>
    (looks_isThere file).bind fun _ => .ite (looks_pure _) (looks_get.bind fun d => by
      cases d.opened file with
      | error e => exact looks_fail _
      | ok _ => exact (looks_readText file).bind fun _ => looks_ofExcept _)
  exact ((hoverlay _ _).bind fun s => hoverlay s _).bind fun _ => looks_ofExcept _

/-- Where there are no settings files, the settings say nothing. -/
theorem open_bare {home : Path} {p : Project} (hhome : (isThere (Layout.settingsFileOf home)).on d₀ = (.ok false, d₀))
    (hopen : (Project.open home root now).on d₀ = (.ok p, d)) : p = plain root now := by
  -- A file that is missing adds nothing to the settings.
  have hskip : ∀ {file : Path} (s : Settings), (isThere file).on d₀ = (.ok false, d₀) →
      (s.overlayFile file).on d₀ = (.ok s, d₀) := fun s hno => by
    rw [Settings.overlayFile, on_bind_ok hno]
    rfl
  rcases on_bind_eq_ok.mp hopen with ⟨s, d₁, hload, hsettings⟩
  rw [Settings.load, on_bind_ok (hskip _ hhome)] at hload
  rcases on_bind_eq_ok.mp hload with ⟨there, d₂, hthere, -⟩
  have hd₂ := (looks_isThere _).ok hthere
  subst hd₂
  cases there with
  -- The tree is bare, so there is none at the root either.
  | true =>
      rcases (isThere_iff hthere).mp rfl with ⟨loc, hfind, hloc⟩
      rw [spot_of_find hfind, settingsFileOf_eq, spot_below _ _ (by decide), hbare.get?_below (by simp)] at hloc
      exact absurd rfl hloc
  | false =>
      rw [hskip _ hthere, Prod.mk.injEq, Except.ok.injEq] at hload
      rw [← hload.1, ofSettings_defaults] at hsettings
      exact (Except.ok.inj (Prod.mk.inj hsettings).1).symm

omit hbare in
/-- A project that has been opened and set up below a bare root stays the mirror of
    its packages, whatever commands on packages are run and however they end. After any
    of them, each barrel is the list of the packages of its kind that are live, in the
    order in which they were made; a package has its files just if its barrel lists it;
    and then it can be removed. -/
theorem barrels_mirror_packages {home root : Path} {now : Timestamp} {p : Project} {d d₀ d' : Disk} {made : List Path}
    {live : List (Kind × Text)} (hbare : d.Bare root)
    (hhome : (isThere (Layout.settingsFileOf home)).on d = (.ok false, d))
    (hopen : (Project.open home root now).on d = (.ok p, d)) (hsetUp : p.setUp.on d = (.ok made, d₀))
    (calls : List (Timestamp × Call)) (hperform : p.perform calls [] d₀ = (live, d')) :
    live.Nodup ∧ ∀ kind, ∃ base barrel, p.layout.packageFolder kind = .ok base ∧ p.layout.barrel kind = .ok barrel
      ∧ d'.tree.get? (spot d'.here barrel) = some (.file (.text (Barrel.text (namesOf kind live))))
      ∧ ∀ raw named, (Kind.package kind).named raw = .ok named →
        (∀ file ∈ (filesIn base (packageFiles kind named.name)).map Prod.fst,
          (∃ c, d'.tree.get? (spot d'.here file) = some (.file c))
            ↔ Barrel.Lists (Barrel.text (namesOf kind live)) named.name)
        ∧ (Barrel.Lists (Barrel.text (namesOf kind live)) named.name → ∀ moment, ∃ a e,
          ({ p with now := moment }.deletePackage kind raw false).on d' = (.ok a, e)) := by
  have hplain := open_bare hbare hhome hopen
  subst hplain
  -- The mirror holds of the bare root that was set up, and every call keeps it.
  have hmirrors := (mirrors_setUp hbare hsetUp).perform now calls
  rw [hperform] at hmirrors
  refine ⟨hmirrors.nodup, fun kind => ⟨_, _, packageFolder_plain root kind, barrel_plain root kind, ?_,
    fun raw named hnamed => ?_⟩⟩
  · rw [spot_below _ _ (barrelWay_names kind).1]
    exact hmirrors.barrels kind
  · have hname := canonical_of_named hnamed
    -- A barrel lists a name exactly if the package is live.
    have hlists : Barrel.Lists (Barrel.text (namesOf kind live)) named.name ↔ (.package kind, named.name) ∈ live :=
      (Barrel.lists_text hname.nameable (hmirrors.nameable kind)).trans mem_namesOf
    refine ⟨fun file hfile => ?_, fun hlisted moment => hmirrors.delete_ok hnamed (hlists.mp hlisted) moment⟩
    rw [filesIn_eq (filesOf_package hname.isName kind).1, List.map_map] at hfile
    rcases List.mem_map.mp hfile with ⟨f, hf, rfl⟩
    have hx : ((Path.ofText f.1).names, Made.newFile f.2) ∈ filesOf (packageFiles kind named.name) :=
      List.mem_map.mpr ⟨f, hf, rfl⟩
    have hdots : ['.', '.'] ∉ kindWay kind ++ (Path.ofText f.1).names := by
      rw [List.mem_append, not_or]
      refine ⟨(kindWay_names kind).1, ?_⟩
      rcases mem_filesOf_package hname.isName hx with ⟨ns, file, t, heq, hnames, -⟩
      rw [(Prod.mk.inj heq).1]
      exact Path.not_up_of_names hnames
    rw [hlists, Function.comp_apply, Path.below_below, spot_below _ _ hdots]
    constructor
    · rintro ⟨c, hc⟩
      by_contra hmem
      exact hmirrors.gone kind _ hname hmem _ hx c hc
    · exact fun hmem => hmirrors.files kind _ hmem _ hx

end Project

namespace Barrels

/-- The root of a project. -/
def root : Path := .ofText "proj".toList

/-- The moment of a command. -/
def moment : Timestamp := ⟨2026, 1, 1, 0, 0, 0, 0, true⟩

/-- A disk with an empty project. -/
def start : Disk := .fresh ⟨[(["proj".toList], .folder)]⟩ []

/-- Two hooks are made, and the first is removed, whose name begins the other's. -/
def calls : List (Timestamp × Call) :=
  [(moment, .create "hook".toList (some "useFoo".toList)), (moment, .create "hook".toList (some "useFooBar".toList)),
    (moment, .delete "hook".toList (some "useFoo".toList))]

theorem bare_start : start.Bare root := by
  refine ⟨by decide, by decide, by simp [start, fresh], ?_, by decide⟩
  exact ⟨["proj".toList], [], ["proj".toList], by decide, by decide, by decide, by decide⟩

end Barrels

open Barrels in
theorem Project.barrels_mirror_packages_hooks : ∃ made d₀ live d',
    (Project.open (.ofText "home".toList) root moment).on start = (.ok (plain root moment), start)
      ∧ (plain root moment).setUp.on start = (.ok made, d₀) ∧ (plain root moment).perform calls [] d₀ = (live, d')
      ∧ live.Nodup ∧ ∀ kind, ∃ barrel, (plain root moment).layout.barrel kind = .ok barrel
        ∧ d'.tree.get? (spot d'.here barrel) = some (.file (.text (Barrel.text (namesOf kind live)))) := by
  have hhome : (isThere (Layout.settingsFileOf (.ofText "home".toList))).on start = (.ok false, start) :=
    Prod.ext (by decide +kernel) (looks_isThere _ _)
  have hopen : (Project.open (.ofText "home".toList) root moment).on start = (.ok (plain root moment), start) :=
    Prod.ext (by decide +kernel) (looks_open _ _ _ _)
  have hok : ((plain root moment).setUp.on start).1.isOk = true := by decide +kernel
  rcases hsetUp : (plain root moment).setUp.on start with ⟨r, d₀⟩
  rw [hsetUp] at hok
  cases r with
  | error f => exact absurd hok (by simp [Except.isOk, Except.toBool])
  | ok made =>
      have hmirrors := barrels_mirror_packages bare_start hhome hopen hsetUp calls (Prod.eta _).symm
      refine ⟨made, d₀, _, _, hopen, rfl, rfl, hmirrors.1, fun kind => ?_⟩
      rcases hmirrors.2 kind with ⟨base, barrel, -, hbarrel, htext, -⟩
      exact ⟨barrel, hbarrel, htext⟩

end RouteScaffold

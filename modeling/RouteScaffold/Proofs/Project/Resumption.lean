import RouteScaffold.Proofs.Journal.Remembering
import RouteScaffold.Proofs.Project.Transparency
import RouteScaffold.Project.Recovery

/-!
# Deletions That Are Resumed

Recovery drops the intent of a deletion before it repeats the deletion, and the
repetition has an intent of its own, which is saved when nothing has stood in its way.
Between the two there is no intent. What can be said is where that gap lies: as long as
there is no intent, no file of the project has been touched, and once there is one, it
stays until the deletion is complete. So a deletion is never forgotten half done; but
one that cannot be repeated, because its role can no longer be read for instance, is
forgotten with all that it has left.

That the intent of the repetition stays needs source folders that neither lie in the
tool's own folder nor have the project inside them.

## Main definitions

* `Layout.Settled`: Settings under which no deletion reaches the tool's own folder.
* `Project.deletionAgain`: What is about to be done again.

## Theorems

* `Target.Footprint.below`: What a command is about lies in a source folder.
* `spares_of_within`: A step of a deletion leaves the tool's own folder alone.
* `resumed_deletionAgain`: A deletion is repeated under its own words.
* `recovery_remembers`: A recovery has touched no file yet, is remembered, or is
  complete.
* `recovery_forgets_deletion`: A deletion that is forgotten before it is done.
-/

namespace RouteScaffold

open Job Disk RouteScaffold.Tree Naming Project

namespace Resumable

/-- The kind of what is removed again. -/
def kind : Resumable → Kind
  | package kind => .package kind
  | module => .module
  | page => .page

theorem ofVerb?_deleteVerb (k : Resumable) : ofVerb? (deleteVerb k.kind) = some k := by
  cases k with
  | package kind => cases kind <;> decide
  | module => decide
  | page => decide

end Resumable

/-! ### Where deletions reach -/

/-- Settings that tell no folder of packages or roles in the tool's own folder, or one
    with the project inside it. -/
structure Layout.Settled (l : Layout) (here : Location) : Prop extends l.Apart here where
  inside : ∀ path, l.packagesRoot = .ok path ∨ l.rolesRoot = .ok path →
    ∀ names, names ≠ [] → spot here l.root ≠ spot here path ++ names

variable {p : Project} {d : Disk}

/-- Everything that a command is about lies in the folder of packages or in that of
    roles. -/
theorem Target.Footprint.below {t : Target} {l : Location} (h : t.Footprint p d l) : ∃ path names,
    (p.layout.packagesRoot = .ok path ∨ p.layout.rolesRoot = .ok path) ∧ names ≠ []
      ∧ l = spot d.here path ++ names := by
  -- Each location lies in the folder of the packages, or in that of the roles.
  have hbelow : ∀ {path : Path} {names : List Text}, names ≠ [] →
      (p.layout.packagesRoot = .ok path ∨ p.layout.rolesRoot = .ok path) → spot d.here path ++ names <+: l →
      ∃ path names, (p.layout.packagesRoot = .ok path ∨ p.layout.rolesRoot = .ok path) ∧ names ≠ []
        ∧ l = spot d.here path ++ names := by
    rintro path names hne hpath ⟨rest, rfl⟩
    exact ⟨path, names ++ rest, hpath, fun h => hne (List.append_eq_nil_iff.mp h).1, List.append_assoc ..⟩
  cases t with
  | role raw =>
      rcases h with ⟨named, -, -, roles, hroles, hl⟩
      exact hbelow (List.cons_ne_nil _ _) (Or.inr hroles) hl
  | module ofRole raw =>
      rcases h with ⟨t, -, -, -, roles, hroles, rfl | hl⟩
      · exact hbelow (List.cons_ne_nil _ _) (Or.inr hroles) (List.prefix_refl _)
      · exact hbelow (List.cons_ne_nil _ _) (Or.inr hroles) hl
  | page ofRole ofModule raw =>
      rcases h with ⟨t, -, -, -, -, roles, hroles, rfl | hl⟩
      · refine hbelow ?_ (Or.inr hroles) (List.prefix_refl _)
        cases t.within.registry.dialect <;> exact List.cons_ne_nil _ _
      · exact hbelow (List.cons_ne_nil _ _) (Or.inr hroles) hl
  | package kind raw =>
      rcases h with ⟨named, -, -, base, hbase, hl⟩
      rcases Layout.packagesRoot_of_packageFolder hbase with ⟨packages, hpackages, rfl⟩
      rw [spot_below _ _ (by cases kind <;> decide)] at hl
      rcases hl with rfl | hl
      · exact hbelow (List.cons_ne_nil _ _) (Or.inl hpackages) (List.prefix_append _ _)
      · exact hbelow (List.cons_ne_nil _ _) (Or.inl hpackages) ((List.prefix_append _ _).trans hl)

/-- A step of a command leaves the tool's own folder alone: it works beside that folder,
    and nothing that it removes has the folder inside. -/
theorem spares_of_within (hsettled : p.layout.Settled d.here) {t : Target} {s : Step}
    (hoff : s.Off (ownPlace d.here p.layout.root) d.here) (hwithin : s.Confined d.here (t.Footprint p d))
    {l : Location} (hl : ownPlace d.here p.layout.root <+: l) : s.Spares d.here l := by
  cases s with
  | record path => trivial
  | snapshot path => trivial
  | snapshotIfPresent path => trivial
  | folder path => trivial
  | newFile path text => exact (hoff l hl).spot_ne
  | file path text => exact (hoff l hl).spot_ne
  | edit path e => exact (hoff l hl).spot_ne
  | editIfPresent path e => exact (hoff l hl).spot_ne
  | remove path missingOk =>
      intro hpre
      -- A removal lies in its footprint, so neither around the root nor inside the folder of the tool.
      rcases (hwithin _ (List.prefix_refl _)).below with ⟨folder, names, hfolder, hne, heq⟩
      rcases List.prefix_or_prefix_of_prefix hpre hl with houter | hinner
      · rcases List.prefix_concat_iff.mp houter with hown | ⟨rest, hroot⟩
        · exact hoff.spot (hown ▸ List.prefix_refl _)
        · refine hsettled.inside folder hfolder (names ++ rest)
            (fun h => hne (List.append_eq_nil_iff.mp h).1) ?_
          rw [← hroot, heq, List.append_assoc]
      · exact hoff.spot hinner

/-! ### The repetition -/

namespace Project

/-- What is about to be removed once more. -/
def deletionAgain (p : Project) (kind : Resumable) (args : List Text) : Job Order :=
  match kind, args with
  | .package kind, [name] => p.packageDeletion kind (some name) true
  | .module, [role, module] => p.moduleDeletion (some role) (some module) true
  | .page, [role, module, page] => p.pageDeletion (some role) (some module) (some page) true
  | _, _ => Job.fail .wrongType

theorem repeatDeletion_eq (kind : Resumable) (args : List Text) :
    p.repeatDeletion kind args = p.deletionAgain kind args >>= p.carryOut := by
  unfold repeatDeletion
  split
  · rfl
  · rfl
  · rfl
  · next hpackage hmodule hpage =>
      rw [deletionAgain.eq_4 p kind args hpackage hmodule hpage]
      rfl

/-- An order under the words of some command. -/
def Worded (verb : Text) (names : List (Option Text)) (o : Order) : Prop :=
  o.verb = verb ∧ o.args.map some = names ∧ o.mode = .delete

theorem worded_moduleDeletion (role module : Option Text) (missingOk : Bool) :
    Decides d (Worded (deleteVerb .module) [role, module]) (p.moduleDeletion role module missingOk) := by
  refine decides_bind (looks_moduleTarget p role module) fun t ht => ?_
  rcases moduleTarget_ok ht with ⟨folder, base, hfound⟩
  refine decides_ofExcept fun own _ => decides_bind (looks_isThere _) fun there _ =>
    decides_require fun _ => decides_pure ⟨rfl, ?_, rfl⟩
  rw [hfound.role_eq, hfound.module_eq, ← hfound.raw_eq]
  rfl

theorem worded_pageDeletion (role module page : Option Text) (missingOk : Bool) :
    Decides d (Worded (deleteVerb .page) [role, module, page]) (p.pageDeletion role module page missingOk) := by
  refine decides_bind (looks_pageTarget p role module page) fun t ht => ?_
  rcases pageTarget_ok ht with ⟨folder, base, hfound, -, -, hpage, -⟩
  refine decides_ofExcept fun pages _ => decides_bind (looks_isThere _) fun there _ =>
    decides_require fun _ => decides_pure ⟨rfl, ?_, rfl⟩
  rw [hfound.role_eq, hfound.module_eq, ← hfound.raw_eq, hpage]
  rfl

theorem worded_packageDeletion (kind : PackageKind) (raw : Option Text) (missingOk : Bool) :
    Decides d (Worded (deleteVerb (.package kind)) [raw]) (p.packageDeletion kind raw missingOk) := by
  refine decides_bind (looks_packageTarget p kind raw) fun t ht => ?_
  rcases t with ⟨named, base⟩
  rcases packageTarget_ok ht with ⟨hnamed, -, -⟩
  refine decides_bind (looks_isThere _) fun there _ => decides_require fun _ =>
    decides_ofExcept fun barrel _ => decides_pure ⟨rfl, ?_, rfl⟩
  rw [(Kind.named_eq_ok hnamed).1]
  rfl

/-- A deletion is repeated under its own words, and leaves the tool's own folder alone. -/
theorem resumed_deletionAgain (hsettled : p.layout.Settled d.here) (kind : Resumable) (args : List Text) :
    Decides d (fun o => (o.verb = deleteVerb kind.kind ∧ o.args = args ∧ o.mode = .delete)
      ∧ ∀ s ∈ o.plan, ∀ l, ownPlace d.here p.layout.root <+: l → s.Spares d.here l)
      (p.deletionAgain kind args) := by
  have hwords : ∀ {o : Order} {names : List Text}, o.args.map some = names.map some → o.args = names :=
    fun h => List.map_injective_iff.mpr (fun _ _ => Option.some.inj) h
  unfold deletionAgain
  -- The deletion is planned anew from the words that the intent kept.
  split
  · next kind name =>
      have hoff := off_packageDeletion (d := d) hsettled.toApart kind (some name) true
      have hwithin := packageDeletion_within (p := p) (d := d) kind (some name) true
      refine (worded_packageDeletion kind (some name) true).imp fun o ho h =>
        ⟨⟨h.1, hwords h.2.1, h.2.2⟩, fun s hs l hl => ?_⟩
      exact spares_of_within hsettled (hoff.of_ok ho s hs) (hwithin.of_ok ho s hs) hl
  · next role module =>
      have hoff := off_moduleDeletion (d := d) hsettled.toApart (some role) (some module) true
      have hwithin := moduleDeletion_within (p := p) (d := d) (some role) (some module) true
      refine (worded_moduleDeletion (some role) (some module) true).imp fun o ho h =>
        ⟨⟨h.1, hwords h.2.1, h.2.2⟩, fun s hs l hl => ?_⟩
      exact spares_of_within hsettled (hoff.of_ok ho s hs) (hwithin.of_ok ho s hs) hl
  · next role module page =>
      have hoff := off_pageDeletion (d := d) hsettled.toApart (some role) (some module) (some page) true
      have hwithin := pageDeletion_within (p := p) (d := d) (some role) (some module) (some page) true
      refine (worded_pageDeletion (some role) (some module) (some page) true).imp fun o ho h =>
        ⟨⟨h.1, hwords h.2.1, h.2.2⟩, fun s hs l hl => ?_⟩
      exact spares_of_within hsettled (hoff.of_ok ho s hs) (hwithin.of_ok ho s hs) hl
  · exact Or.inl ⟨_, rfl⟩

/-- Wherever an order is left that is being carried out, no file has been touched but
    the document of its intent, or the order is remembered, or it has been carried out. -/
theorem stays_carryOut {o : Order} (hkeeps : p.journal.keeps = true) (hplan : ∀ s ∈ o.plan,
      s.Spares d.here (spot d.here (p.journal.file (Intent.identifier o.verb o.args o.mode p.now)))) :
    Stays (fun e => (∀ l, l ≠ spot d.here (p.journal.file (Intent.identifier o.verb o.args o.mode p.now)) →
        d.tree.SameFile e.tree l)
      ∨ p.journal.Remembers (Intent.start o.verb o.args o.mode p.now) e
      ∨ ∃ a, (p.carryOut o).on d = (.ok a, e)) (p.carryOut o) d := by
  have hanswer : ∀ {b : Bool} {e : Disk},
      (p.journal.track p.now o.verb o.args o.mode o.plan).on d = (.ok b, e) →
      (p.carryOut o).on d = (.ok (o.answer b), e) := fun htrack => on_bind_ok htrack
  refine stays_bind ((Journal.stays_track hkeeps hplan).mono fun e he => he.imp_right (Or.imp_right ?_))
    fun b e htrack => stays_of_looks (looks_pure _) (Or.inr (Or.inr ⟨_, hanswer htrack⟩))
  rintro ⟨b, htrack⟩
  exact ⟨_, hanswer htrack⟩

/-- The recovery of a deletion, part by part. -/
theorem recover_eq {i : Intent} {kind : Resumable} (hverb : i.verb = deleteVerb kind.kind)
    (hmode : i.mode = .delete) : p.recover i = do
      p.journal.drop i
      let _ ← p.deletionAgain kind i.args >>= p.carryOut
      return ["resumed " ++ commandLine i] := by
  rw [recover, hmode]
  dsimp only
  rw [hverb, Resumable.ofVerb?_deleteVerb]
  dsimp only
  rw [repeatDeletion_eq]

/-- Wherever the recovery of a deletion is left, whether it was cut short or has failed,
    no file outside the tool's own folder has been touched, or an intent of the same
    deletion is there, or the deletion is complete. -/
theorem recovery_remembers {s : Settings} {root : Path} {now : Timestamp} (hp : ofSettings s root now = .ok p)
    (hkeeps : p.journal.keeps = true) (hsettled : p.layout.Settled d.here) {i : Intent} {kind : Resumable}
    (hverb : i.verb = deleteVerb kind.kind) (hmode : i.mode = .delete)
    (hfile : spot d.here p.layout.ownFolder <+: spot d.here (p.journal.file i.id)) :
    Stays (fun e => (∀ l, ¬ spot d.here p.layout.ownFolder <+: l → d.tree.SameFile e.tree l)
      ∨ (∃ k : Intent, Intent.IsIdentifier k.id ∧ k.verb = i.verb ∧ k.args = i.args ∧ k.mode = .delete
        ∧ e.tree.get? (spot e.here (p.journal.file k.id)) = some (.file (.text k.document)))
      ∨ ∃ ls, (p.recover i).on d = (.ok ls, e)) (p.recover i) d := by
  rw [recover_eq hverb hmode]
  have hdrop : Does d.here (Confined (spot d.here p.layout.ownFolder <+: ·)) (p.journal.drop i) :=
    confined_unlinkIfPresent hfile
  -- Dropping the document changes nothing outside the folder of the tool.
  refine stays_bind (hdrop.stays fun ws hws => Or.inl fun l hl => ?_) fun u d₁ hdropped => ?_
  · rw [after_tree]
    exact hws.outside hl
  have hhere : d₁.here = d.here := by
    rcases hdrop d rfl with ⟨ws, hws, -⟩
    rw [hdropped] at hws
    rw [show d₁ = d.after ws from hws, after_here]
  have hsame : ∀ l, ¬ spot d.here p.layout.ownFolder <+: l → d.tree.SameFile d₁.tree l :=
    fun l hl => (hdrop.outside hdropped hl).2
  have hdone : ∀ {a : Artifact} {e : Disk}, (p.deletionAgain kind i.args >>= p.carryOut).on d₁ = (.ok a, e) →
      (do
        p.journal.drop i
        let _ ← p.deletionAgain kind i.args >>= p.carryOut
        return ["resumed " ++ commandLine i]).on d = (.ok ["resumed " ++ commandLine i], e) := by
    intro a e hagain
    rw [on_bind_ok hdropped, on_bind_ok hagain]
    rfl
  -- The command that is carried out again keeps an intent of its own.
  refine stays_bind ?_ fun a d₂ hagain => stays_of_looks (looks_pure _) (Or.inr (Or.inr ⟨_, hdone hagain⟩))
  -- It ends where it looks, with nothing changed, or saves its own intent first.
  · rcases resumed_deletionAgain (d := d₁) (hhere ▸ hsettled) kind i.args with ⟨f, hf⟩ | ⟨o, ho, hwords, hspares⟩
    · exact stays_unchanged (on_bind_error hf) (Or.inl hsame)
    have hown : ownPlace d₁.here p.layout.root
        <+: spot d₁.here (p.journal.file (Intent.identifier o.verb o.args o.mode p.now)) := by
      rw [← ownFolder_eq]
      exact own_of_document (journal_of_settings hp) d₁.here (Intent.identifier_char _ _ _ _)
    refine stays_bind (stays_unchanged ho (Or.inl hsame)) fun o' d₂ ho' => ?_
    rw [ho, Prod.mk.injEq, Except.ok.injEq] at ho'
    rcases ho' with ⟨rfl, rfl⟩
    refine (stays_carryOut hkeeps fun s hs => hspares s hs _ hown).mono fun e he => he.imp (fun houtside l hl => ?_)
      (Or.imp (fun hremembers => ?_) fun hcarried => ?_)
    -- What it changes outside is no document.
    · refine (hsame l hl).trans (houtside l fun heq => hl ?_)
      rw [ownFolder_eq, ← hhere, heq]
      exact hown
    · rcases hremembers with ⟨k, hk, hdocument⟩
      refine ⟨k, ?_, hk.verb.trans (hwords.1.trans hverb.symm), hk.args.trans hwords.2.1,
        hk.mode.trans hwords.2.2, hk.id ▸ hdocument⟩
      rw [hk.id]
      exact Intent.isIdentifier ..
    · rcases hcarried with ⟨a, ha⟩
      exact ⟨_, hdone ((on_bind_ok ho).trans ha)⟩

end Project

namespace Footprints

/-- The intent of a deletion of a module. -/
def unfinished : Intent :=
  ⟨"k".toList, deleteVerb .module, ["inst".toList, "a".toList], .delete, now, [], [], none⟩

/-- A disk with a module whose deletion was cut short, in a role with some
    descriptor. -/
def abandoned (descriptor : Text) : Disk := .fresh ⟨[(["proj".toList], .folder),
  (["proj".toList, ".aviators".toList], .folder), (["proj".toList, ".aviators".toList, "intents".toList], .folder),
  (["proj".toList, ".aviators".toList, "intents".toList, "k.json".toList], .file (.text unfinished.document)),
  (["proj".toList, "src".toList], .folder), (["proj".toList, "src".toList, "Roles".toList], .folder),
  (place, .folder), (place ++ [".aviators-role.json".toList], .file (.text descriptor)),
  (place ++ ["modules".toList], .folder), (place ++ ["modules".toList, "a".toList], .folder)]⟩ []

/-- The same with a descriptor that can be read. -/
def readable : Disk := abandoned (Descriptor.document ⟨"inst".toList, .marker, now⟩)

/-- The project of settings that say nothing. -/
def plain : Project := ⟨.ofRoot root, .marker, ⟨(Layout.ofRoot root).intentsFolder, true⟩, now⟩

end Footprints

open Footprints in
theorem recovery_remembers_module : Project.ofSettings .defaults root now = .ok plain
    ∧ plain.layout.Settled readable.here
    ∧ Stays (fun e => (∀ l, ¬ spot readable.here plain.layout.ownFolder <+: l → readable.tree.SameFile e.tree l)
      ∨ (∃ k : Intent, Intent.IsIdentifier k.id ∧ k.verb = unfinished.verb ∧ k.args = unfinished.args
        ∧ k.mode = .delete ∧ e.tree.get? (spot e.here (plain.journal.file k.id)) = some (.file (.text k.document)))
      ∨ ∃ ls, (plain.recover unfinished).on readable = (.ok ls, e)) (plain.recover unfinished) readable := by
  have hp : Project.ofSettings .defaults root now = .ok plain := by decide
  have hsettled : plain.layout.Settled readable.here := by
    refine ⟨⟨fun path hpath => ?_, fun path hpath => ?_⟩, ?_⟩
    · rw [← Except.ok.inj hpath]
      exact off_iff.mpr (by decide)
    · rw [← Except.ok.inj hpath]
      exact off_iff.mpr (by decide)
    · -- A source folder is a longer way off than the root.
      rintro path (hpath | hpath) names - heq
      all_goals
        have hshort : (spot readable.here plain.layout.root).length < (spot readable.here path).length := by
          rw [← Except.ok.inj hpath]
          decide
        rw [heq, List.length_append] at hshort
        omega
  have hverb : unfinished.verb = deleteVerb Resumable.module.kind := rfl
  exact ⟨hp, hsettled, Project.recovery_remembers hp rfl hsettled hverb rfl (by decide)⟩

open Footprints in
/-- The descriptor of a role can no longer be read, so the deletion of its module cannot
    be repeated; but its intent is dropped, and the module is still there. -/
theorem recovery_forgets_deletion : Project.ofSettings .defaults root now = .ok plain
    ∧ ((plain.journal.pending now).on (abandoned "\x7b\x7d".toList)).1.toOption = some [unfinished]
    ∧ Resumable.ofVerb? unfinished.verb = some .module
    ∧ ((plain.recover unfinished).on (abandoned "\x7b\x7d".toList)).1.isOk = false
    ∧ ((plain.journal.pending now).on
        ((plain.recover unfinished).on (abandoned "\x7b\x7d".toList)).2).1.toOption = some []
    ∧ ((plain.recover unfinished).on (abandoned "\x7b\x7d".toList)).2.tree.get?
        (place ++ ["modules".toList, "a".toList]) = some .folder := by
  refine ⟨by decide +kernel, by decide +kernel, by decide +kernel, by decide +kernel, by decide +kernel,
    by decide +kernel⟩

end RouteScaffold

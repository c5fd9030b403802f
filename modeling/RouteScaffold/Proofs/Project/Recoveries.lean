import RouteScaffold.Proofs.Project.Namesakes
import RouteScaffold.Proofs.Project.Rescue

/-!
# Recoveries in a History

The histories of a role are made of commands, and that an intent is recovered is one more
thing that can happen to the role. It leads to nothing that a history does not know. A
deletion that is resumed is that deletion, behind the write that drops the intent; and a
creation that is undone leaves the files that the role is known by where and as they were
before it. So what holds behind every history holds behind recoveries too.

A creation that was stopped lies between two such states: until it is undone, the registry
may tell of it in part.

## Main definitions

* `Beside`: A disk on which a role is known by the same files as on another.
* `Marker.Command.Resumes`: The deletion that is repeated for an intent.

## Theorems

* `beside_drop`, `beside_undone`: What the parts of a recovery leave.
* `resumes_cases`: To resume a deletion is to drop its intent and to delete.
* `Marker.History.resumed`, `Seen.History.resumed`, `Tracked.History.resumed`: A deletion
  that is resumed goes on with the history.
* `Marker.History.undone`, `Seen.History.undone`, `Tracked.History.undone`: A creation that
  is undone leads back to the history before it.
-/

namespace RouteScaffold

open Naming Text Job Disk RouteScaffold.Tree Journal Project Marker

/-- A disk on which a role is known by the same files as on another, and on which no folder
    is missing. -/
structure Beside (folder : Path) (d d' : Disk) : Prop where
  here : d'.here = d.here
  files : ∀ names, names = registryNames ∨ names = [".aviators-role.json".toList] → ∀ content,
    d.tree.get? (spot d.here folder ++ names) = some (.file content) →
      d'.tree.get? (spot d.here folder ++ names) = some (.file content)
  folders : ∀ l, d.tree.get? l = some .folder → d'.tree.get? l = some .folder

variable {folder root : Path} {role : Text} {dialect : Dialect} {live : List Routed} {listed : List ModuleRef}
  {p : Project} {d d' : Disk} {i : Intent} {c : Marker.Command} {r : Except Fault (List Text)}

/-! ### What leaves a role alone -/

theorem Marker.History.beside (h : Marker.History root folder role live d) (hbeside : Beside folder d d') :
    Marker.History root folder role live d' := by
  rcases h.registered.descriptor with ⟨made, -, hmade⟩
  refine .elsewhere h hbeside.here ?_ ?_
  · rw [h.registered.registry, hbeside.files _ (Or.inl rfl) _ h.registered.registry]
  · rw [hmade, hbeside.files _ (Or.inr rfl) _ hmade]

/-- What is seen of a role is seen where it is known by the same files. -/
theorem Seen.beside (h : Seen folder role dialect d) (hbeside : Beside folder d d') :
    ∀ names, names = registryNames ∨ names = [".aviators-role.json".toList] →
      d'.find (folder.below names) = d.find (folder.below names)
        ∧ d'.tree.get? (spot d.here folder ++ names) = d.tree.get? (spot d.here folder ++ names) := by
  have hkept : ∀ names, (names = registryNames ∨ names = [".aviators-role.json".toList]) → ∀ loc content,
      d.find (folder.below names) = .ok loc →
      d.tree.get? (spot d.here folder ++ names) = some (.file content) →
      d'.find (folder.below names) = d.find (folder.below names)
        ∧ d'.tree.get? (spot d.here folder ++ names) = d.tree.get? (spot d.here folder ++ names) := by
    -- A file and the folders on its way stay, so it is found where it was.
    intro names hnames loc content hfind hfile
    rw [hfile, hbeside.files names hnames content hfile, hfind]
    exact ⟨find_of_folders hfind hbeside.here fun s hs => hbeside.folders s (way_of_find hfind s hs), rfl⟩
  rcases h.registry with ⟨t, -, hregistry⟩
  rcases h.descriptor with ⟨made, -, -, hmade⟩
  rintro names (rfl | rfl)
  · exact hkept _ (Or.inl rfl) _ _ h.registry_found hregistry
  · exact hkept _ (Or.inr rfl) _ _ h.descriptor_found hmade

theorem Seen.History.beside (h : Seen.History root folder role dialect d) (hbeside : Beside folder d d') :
    Seen.History root folder role dialect d' := .elsewhere h hbeside.here (h.seen.beside hbeside)

theorem Tracked.History.beside (h : Tracked.History root folder role dialect listed d) (hbeside : Beside folder d d') :
    Tracked.History root folder role dialect listed d' :=
  .elsewhere h hbeside.here (h.tracked.seen.beside hbeside)

/-- To drop an intent takes no folder away, and no file that a role is known by: none of
    those is a document. -/
theorem beside_drop (hj : p.journal.Set root) (hid : Intent.IsIdentifier i.id) {dropped : Except Fault Unit}
    (hdrop : (p.journal.drop i).on d = (dropped, d')) : Beside folder d d' := by
  have hdisk : ∀ ws, ((p.journal.drop i).on d).2 = d.after ws → d' = d.after ws := fun ws hws => by
    rw [← hws, hdrop]
  refine ⟨?_, fun names hnames content hfile => ?_, fun l hl => ?_⟩
  · rcases retains_unlinkIfPresent (S := fun _ => True) (p := p.journal.file i.id) d rfl with ⟨ws, hws, -⟩
    rw [hdisk ws hws, after_here]
  -- A document is neither the registry nor the descriptor.
  · have hne : spot d.here (p.journal.file i.id) ≠ spot d.here folder ++ names := by
      rcases hnames with rfl | rfl
      · exact avoids_registry hj d.here folder i.id hid.1
      · exact avoids_descriptor hj d.here folder i.id hid.1
    rcases spares_unlinkIfPresent hne d rfl with ⟨ws, hws, hruns⟩
    rw [hdisk ws hws, after_tree]
    exact hruns.spares hfile
  · rcases retains_unlinkIfPresent (S := fun _ => True) (p := p.journal.file i.id) d rfl with ⟨ws, hws, hruns⟩
    rw [hdisk ws hws, after_tree]
    exact hruns.retains trivial hl

/-! ### Deletions that are resumed -/

/-- The deletion that is repeated for an intent. It tolerates that its target is missing. -/
inductive Marker.Command.Resumes (role : Text) (i : Intent) : Marker.Command → Prop
  | module {raw : Text} (verb : i.verb = deleteVerb .module) (args : i.args = [role, raw]) :
      Resumes role i (.deleteModule raw true)
  | page {module raw : Text} (verb : i.verb = deleteVerb .page) (args : i.args = [role, module, raw]) :
      Resumes role i (.deletePage module raw true)

/-- To resume a deletion is to drop its intent and then to delete, and it ends as that does;
    if the intent cannot be dropped, that is all. -/
theorem resumes_cases (hc : c.Resumes role i) (hmode : i.mode = .delete) (hrun : (p.recover i).on d = (r, d')) :
    (∃ f, r = .error f ∧ (p.journal.drop i).on d = (.error f, d'))
      ∨ ∃ d₁ done, (p.journal.drop i).on d = (.ok (), d₁) ∧ (c.run p role).on d₁ = (done, d')
        ∧ ∀ f, done = .error f → r = .error f := by
  -- What the intent tells of is this command, so it is what recovery carries out.
  have hrecover : p.recover i = p.journal.drop i >>= fun _ => c.run p role >>= fun _ =>
      pure ["resumed " ++ commandLine i] := by
    cases hc with
    | module hverb hargs =>
        have hkind : Resumable.ofVerb? i.verb = some .module := hverb ▸ Resumable.ofVerb?_deleteVerb .module
        rw [recover, hmode, hkind, hargs]
        rfl
    | page hverb hargs =>
        have hkind : Resumable.ofVerb? i.verb = some .page := hverb ▸ Resumable.ofVerb?_deleteVerb .page
        rw [recover, hmode, hkind, hargs]
        rfl
  rw [hrecover] at hrun
  -- Where the document cannot be erased, recovery ends.
  rcases hdrop : (p.journal.drop i).on d with ⟨f | _, d₁⟩
  · rw [on_bind_error hdrop, Prod.mk.injEq] at hrun
    rcases hrun with ⟨rfl, rfl⟩
    exact Or.inl ⟨f, rfl, rfl⟩
  · rw [on_bind_ok hdrop] at hrun
    refine Or.inr ⟨d₁, ((c.run p role).on d₁).1, rfl, ?_⟩
    rcases hdone : (c.run p role).on d₁ with ⟨f | a, d₂⟩
    · rw [on_bind_error hdone, Prod.mk.injEq] at hrun
      rcases hrun with ⟨rfl, rfl⟩
      exact ⟨rfl, fun _ heq => congrArg Except.error (Except.error.inj heq)⟩
    · rw [on_bind_ok hdone, on_pure, Prod.mk.injEq] at hrun
      rcases hrun with ⟨-, rfl⟩
      exact ⟨rfl, fun _ heq => absurd heq (by simp)⟩

section Resumed

variable (hj : p.journal.Set root) (hid : Intent.IsIdentifier i.id) (hfolder : p.layout.roleFolder role = .ok folder)
  (hc : c.Resumes role i) (hmode : i.mode = .delete) (hrun : (p.recover i).on d = (r, d'))
include hj hid hfolder hc hmode hrun

/-- A deletion that is resumed takes effect, or fails and leaves the history as it was. -/
theorem Marker.History.resumed (h : Marker.History root folder role live d) (hfair : c.Fair role live) :
    Marker.History root folder role (c.effect role live) d'
      ∨ (∃ f, r = .error f) ∧ Marker.History root folder role live d' := by
  rcases resumes_cases hc hmode hrun with ⟨f, rfl, hdrop⟩ | ⟨d₁, done, hdrop, hdone, hfails⟩
  · exact Or.inr ⟨⟨f, rfl⟩, h.beside (beside_drop hj hid hdrop)⟩
  · have h₁ := h.beside (beside_drop hj hid hdrop)
    -- What counts is whether the registry has changed, also where the deletion has failed.
    by_cases hsame : d'.tree.get? (spot d₁.here folder ++ registryNames)
      = d₁.tree.get? (spot d₁.here folder ++ registryNames)
    · cases done with
      | error f => exact Or.inr ⟨⟨f, hfails f rfl⟩, .refused h₁ hj hfolder hdone hsame⟩
      | ok a => exact Or.inl (.counted h₁ hj hfolder hfair hdone (Or.inl ⟨a, rfl⟩))
    · exact Or.inl (.counted h₁ hj hfolder hfair hdone (Or.inr hsame))

theorem Seen.History.resumed (h : Seen.History root folder role dialect d) (hdiscerns : c.Discerns role dialect) :
    Seen.History root folder role dialect d' := by
  rcases resumes_cases hc hmode hrun with ⟨f, -, hdrop⟩ | ⟨d₁, done, hdrop, hdone, -⟩
  · exact h.beside (beside_drop hj hid hdrop)
  · exact .command (h.beside (beside_drop hj hid hdrop)) hj hfolder hdiscerns hdone

/-- Whether the deletion succeeds or fails, the module that it names is not counted on any
    more, unless the intent could not be dropped. -/
theorem Tracked.History.resumed (h : Tracked.History root folder role dialect listed d)
    (hdiscerns : c.Discerns role dialect) (hspares : c.Spares role dialect listed) :
    (∀ done, Tracked.History root folder role dialect (c.leaves role listed done) d')
      ∨ (∃ f, r = .error f) ∧ Tracked.History root folder role dialect listed d' := by
  rcases resumes_cases hc hmode hrun with ⟨f, rfl, hdrop⟩ | ⟨d₁, done, hdrop, hdone, -⟩
  · exact Or.inr ⟨⟨f, rfl⟩, h.beside (beside_drop hj hid hdrop)⟩
  · have h₂ := Tracked.History.command (h.beside (beside_drop hj hid hdrop)) hj hfolder hdiscerns hspares hdone
    cases hc with
    | module => exact Or.inl fun _ => h₂
    | page => exact Or.inl fun _ => h₂

end Resumed

/-! ### Creations that are undone -/

section Undone

variable {s : Settings} {now : Timestamp} {e : Disk} {base : Location} {made : Creation} {o : Order}
  (hp : ofSettings s root now = .ok p) (hkeeps : p.journal.keeps = true) (hplain : root.Plain)
  (hvalid : p.now.isValid = true) (hsound : d.Sound) (hroot : d.find root = .ok base)
  (hbase : d.tree.get? base = some .folder) (hsight : made.InSight p d) (ho : (made.order p).on d = (.ok o, d))
  (hfree : d.tree.get? (spot d.here (p.journal.file (o.identifier p))) = none) (hleft : made.Leaves p o d e)
  (hget : (p.journal.get p.now (o.identifier p)).on e = (.ok i, e)) (hnew : made.AllNew)
  (hapart : p.layout.Apart d.here) (hfolder : p.layout.roleFolder role = .ok folder)
include hp hkeeps hplain hvalid hsound hroot hbase hsight ho hfree hleft hget hnew hapart hfolder

/-- A creation that is undone leaves the files that a role is known by as they were: none of
    them lies in the tool's own folder. -/
theorem beside_undone (hrole : isRoleName role = true) : p.RecoversTo (o.identifier p) e (Beside folder d) := by
  have hoff := root_of_settings hp ▸ hapart.off_roleFolder hrole hfolder
  refine (creation_reverted hp hkeeps hplain hvalid hsound hroot hbase hsight ho hfree hleft hget hnew).mono
    fun e' he' => ⟨he'.here, fun names hnames content hfile => (he'.files _ ?_ content).mpr hfile, he'.folders⟩
  have hstraight : ['.', '.'] ∉ names ∧ ".aviators".toList ∉ names := by
    rcases hnames with rfl | rfl <;> decide
  rw [← spot_below _ _ hstraight.1]
  exact (hoff.below hstraight.1 hstraight.2).spot

theorem Marker.History.undone (h : Marker.History root folder role live d) :
    p.RecoversTo (o.identifier p) e (Marker.History root folder role live) :=
  (beside_undone hp hkeeps hplain hvalid hsound hroot hbase hsight ho hfree hleft hget hnew hapart hfolder
    h.registered.roleName).mono fun _ hbeside => h.beside hbeside

theorem Seen.History.undone (h : Seen.History root folder role dialect d) :
    p.RecoversTo (o.identifier p) e (Seen.History root folder role dialect) :=
  (beside_undone hp hkeeps hplain hvalid hsound hroot hbase hsight ho hfree hleft hget hnew hapart hfolder
    h.seen.roleName).mono fun _ hbeside => h.beside hbeside

theorem Tracked.History.undone (h : Tracked.History root folder role dialect listed d) :
    p.RecoversTo (o.identifier p) e (Tracked.History root folder role dialect listed) :=
  (beside_undone hp hkeeps hplain hvalid hsound hroot hbase hsight ho hfree hleft hget hnew hapart hfolder
    h.tracked.seen.roleName).mono fun _ hbeside => h.beside hbeside

end Undone

end RouteScaffold

import RouteScaffold.Proofs.Marker.History
import RouteScaffold.Proofs.Marker.Words

/-!
# What a Removed Page Leaves Behind

A page is found by its name, since that is what its file is called, and so is its import.
Its line in the registry is found by its segment. Two spellings can agree in the name and
differ in the segment: a page that was made as `b-1c` is removed as `b1c`, and its line
stays, without the import and the file.

So the name is gone from the registry if and only if the page that has it is named by its
own segment. All else in which the name could stand is excluded, save for the template of
the role and for something else of the same name, whose file the command has found.

## Theorems

* `History.role_eq`: What is routed is of the role.
* `Registered.pageRemoval`: What the removal of a page does to the registry.
* `History.page_removal_traces`: Whether the name of a removed page stays.
-/

namespace RouteScaffold

open Naming Text Job Disk RouteScaffold.Tree Journal Project

namespace Marker

variable {live : List Routed} {role module raw : Text} {folder root : Path} {d d' : Disk} {p : Project}

theorem History.role_eq (h : History root folder role live d) : ∀ x ∈ live, x.home.role = role := by
  induction h with
  | created _ _ _ _ => simp
  | @counted p c live r d d' _ _ _ _ _ _ ih =>
      intro x hx
      have htarget : (c.target role).home.role = role := by
        cases c <;> rfl
      have hcase : x ∈ live ∨ x = c.target role := by
        cases c with
        | createModule raw => simpa using List.mem_append.mp hx
        | createPage module raw => simpa using List.mem_append.mp hx
        | deleteModule raw missingOk => exact Or.inl (List.mem_filter.mp hx).1
        | deletePage module raw missingOk => exact Or.inl (List.mem_filter.mp hx).1
      rcases hcase with hx | rfl
      · exact ih x hx
      · exact htarget
  | refused _ _ _ _ _ ih => exact ih
  | elsewhere _ _ _ _ ih => exact ih

/-- The removal of a page takes the imports that mention its name and the line with its
    segment, whether such a page is routed or not. -/
theorem Registered.pageRemoval (h : Registered folder role live d)
    (hfolder : p.layout.roleFolder role = .ok folder) (missingOk : Bool) :
    Decides d (fun o => (namedPage role module raw).Accepted ∧ ∃ edits, Amends folder edits o.plan
        ∧ (∀ e ∈ edits, e.operation ≠ .append)
        ∧ Edit.Leads (folder.below registryNames).text edits (outline role live).text
          ((outline role live).removePage (namedPage role module raw)).text)
      (p.pageDeletion (some role) (some module) (some raw) missingOk) := by
  refine (pageDeletion_amends (by rintro _ ⟨⟩; exact hfolder) missingOk).imp fun o _ ho => ?_
  rcases ho with ⟨t, base, hfound, hamends⟩
  rcases h.pageFound hfolder hfound with ⟨hmarker, -, hpage⟩
  have haccepted := hfound.accepted
  rw [sharedEdits_marker hmarker] at hamends
  rw [hpage] at hamends haccepted
  exact ⟨haccepted, _, hamends, (operation_remove _ _).1,
    leads_removePage (h.distinct.sound_outline h.roleName) hmarker haccepted.spelled _⟩

/-- When a page has been removed, its name is still in the registry if and only if the
    template of the role has it, or something else that is routed has it: a module, a page
    of another module, or a page of the same module with another segment. -/
theorem History.page_removal_traces (h : History root folder role live d) (hj : p.journal.Set root)
    (hfolder : p.layout.roleFolder role = .ok folder) (hd : '$' ∉ pascal raw) {missingOk : Bool} {a : Artifact}
    (hrun : (p.deletePage (some role) (some module) (some raw) missingOk).on d = (.ok a, d')) :
    ∃ text, d'.tree.get? (spot d.here folder ++ registryNames) = some (.file (.text text))
      ∧ (mentions (pascal raw) text = true ↔ mentions (pascal raw) (Outline.empty role).text = true
        ∨ ∃ x ∈ live, x.name = pascal raw ∧ x ≠ .page (namedPage role module raw)) := by
  have hregistered := h.registered
  rcases carryOut_cases (hregistered.pageRemoval hfolder missingOk) hrun with ⟨-, f, hf⟩ | ⟨o, q, horder, htrack, hq⟩
  · exact absurd hf (by simp)
  rcases horder with ⟨haccepted, edits, hamends, hop, hlead⟩
  -- A command that answers has made all of its edits; only one that fails can have made none.
  rcases hamends.track hj hop hlead (hregistered.distinct.sound_outline hregistered.roleName).no_return
    hregistered.registry htrack with hdone | ⟨⟨f, rfl⟩, -⟩
  · exact ⟨_, hdone, hregistered.distinct.mentions_removePage role haccepted hd h.role_eq⟩
  · cases hq

end Marker

namespace Histories

open Marker

/-- The making of a page whose segment has a hyphen in front of a digit. -/
def hyphenPage : Marker.Command := .createPage "a".toList "b-1c".toList

def moduleA : ModuleRef := ⟨"inst".toList, "a".toList, "A".toList⟩

def pageB1c : PageRef := ⟨moduleA, "b-1c".toList, "B1c".toList⟩

/-- The disk when the page has been made. -/
def withPage : Disk := ((hyphenPage.run project "inst".toList).on withModule).2

/-- The removal of the page, spelled without the hyphen. -/
def removal : Job Artifact :=
  project.deletePage (some "inst".toList) (some "a".toList) (some "b1c".toList) false

/-- The disk when the page has been removed. -/
def withoutPage : Disk := (removal.on withPage).2

theorem runs_succeed : ((addA.run project "inst".toList).on ready).1.isOk = true
    ∧ ((hyphenPage.run project "inst".toList).on withModule).1.isOk = true
    ∧ (removal.on withPage).1.isOk = true := by
  decide +kernel

theorem module_added : ∃ a, (addA.run project "inst".toList).on ready = (.ok a, withModule) := by
  rw [withModule]
  exact on_of_isOk runs_succeed.1

theorem page_added : ∃ a, (hyphenPage.run project "inst".toList).on withModule = (.ok a, withPage) := by
  rw [withPage]
  exact on_of_isOk runs_succeed.2.1

theorem page_removed : ∃ a, removal.on withPage = (.ok a, withoutPage) := by
  rw [withoutPage]
  exact on_of_isOk runs_succeed.2.2

end Histories

open Histories in
theorem Marker.page_removal_traces_b1c :
    Marker.History root folder "inst".toList [.module moduleA, .page pageB1c] withPage
      ∧ (∃ a, removal.on withPage = (.ok a, withoutPage))
      ∧ ∃ text, withoutPage.tree.get? (spot withPage.here folder ++ registryNames) = some (.file (.text text))
        ∧ mentions (pascal "b1c".toList) text = true := by
  have hj : project.journal.Set root := Journal.set_intentsFolder (.ofRoot root) false
  have hfolder : project.layout.roleFolder "inst".toList = .ok folder := rfl
  rcases role_made with ⟨a, ha⟩
  rcases module_added with ⟨b, hb⟩
  rcases page_added with ⟨c, hc⟩
  rcases page_removed with ⟨e, he⟩
  rcases ready_as_made with ⟨-, hhere, hsame⟩
  have hready : Marker.History root folder "inst".toList [] ready :=
    .elsewhere (.created hj hfolder rfl ha) hhere (hsame _ (by simp)).2 (hsame _ (by simp)).2
  have hwith : Marker.History root folder "inst".toList [.module moduleA] withModule :=
    .counted hready hj hfolder (c := addA) ⟨by decide, trivial⟩ hb (Or.inl ⟨b, rfl⟩)
  have hpaged : Marker.History root folder "inst".toList [.module moduleA, .page pageB1c] withPage :=
    .counted hwith hj hfolder (c := hyphenPage) ⟨by decide, List.mem_singleton.mpr rfl⟩ hc (Or.inl ⟨c, rfl⟩)
  have hstays : ∃ x ∈ [.module moduleA, .page pageB1c], Routed.name x = pascal "b1c".toList
      ∧ x ≠ .page (namedPage "inst".toList "a".toList "b1c".toList) :=
    ⟨.page pageB1c, by simp, by decide, by decide⟩
  rcases hpaged.page_removal_traces hj hfolder (by decide) he with ⟨text, htext, hiff⟩
  exact ⟨hpaged, ⟨e, he⟩, text, htext, hiff.mpr (Or.inr hstays)⟩

end RouteScaffold

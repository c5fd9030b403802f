import RouteScaffold.Proofs.Edit.Revising
import RouteScaffold.Proofs.Registry.Routed

/-!
# Removals That Fail

What is routed in a registry of the marker dialect is removed in several
edits: the imports first, then the element. Only the last edit reads the tags
of the registry, so a registry whose tags do not nest is noticed when the
imports are gone already. A removal that fails leaves the registry whole
exactly when there was no import to take out.

## Main definitions

* `Registry.remove`: The removal of what is routed.
* `Routed.imports`: The imports that go with it.

## Theorems

* `erase_fails_unread`: An erasure fails only if its file cannot be read.
* `failed_removal_writes_nothing_iff`: When a failing removal has written
  nothing.
-/

namespace RouteScaffold

open Job Disk RouteScaffold.Tree

/-- The edits that remove what is routed. -/
def Registry.remove (r : Registry) : Routed → Revision
  | .module m => r.removeModule m
  | .page p => r.removePage p

namespace Routed

/-- The imports that are taken out when something is removed from a registry of
    the marker dialect. -/
def imports : Routed → List Pattern
  | module m => [.importOf m.name, .importFrom (Registry.pageSource m.segment [])]
  | page p => [.importOf p.name]

/-- The edit that takes out the element. -/
def cut : Routed → Edit
  | module m => .cutRoute m.segment none
  | page p => .cutRoute p.segment (some p.module.segment)

end Routed

theorem Registry.remove_eq {r : Registry} (hr : r.dialect = .marker) (x : Routed) :
    r.remove x = ⟨r.file, x.imports.map .erase ++ [x.cut]⟩ := by
  cases x with
  | module m =>
      rw [remove, removeModule, hr]
      rfl
  | page p =>
      rw [remove, removePage, hr]
      rfl

namespace Job

variable {p : Path} {q : Pattern} {d d' : Disk} {f : Fault}

theorem written_erase (file raw : Text) (q : Pattern) : (Edit.erase q).written file raw
    = .ok (if q.erase raw.toLf = raw.toLf then none
      else some ((q.erase raw.toLf).withEnding (.detect raw))) := rfl

/-- An erasure fails in a way that a user is meant to see only if its file
    cannot be read. -/
theorem erase_fails_unread (h : (edit p (.erase q)).on d = (.error f, d')) (hf : f.category ≠ none)
    (raw : Text) : (readRaw p).on d ≠ (.ok raw, d) := by
  intro hread
  rw [edit_of_not_append (by simp [Edit.operation]), on_editExisting_of_read hread, written_erase] at h
  by_cases hsame : q.erase raw.toLf = raw.toLf
  · rw [if_pos hsame] at h
    exact absurd h (by simp)
  · rw [if_neg hsame] at h
    dsimp only at h
    split at h
    · exact absurd h (by simp)
    · rw [Prod.mk.injEq, Except.error.injEq] at h
      rw [← h.1] at hf
      exact hf rfl

/-- An erasure that succeeds writes exactly if there is something to erase. -/
theorem erase_writes_iff {b : Bool} (h : (edit p (.erase q)).on d = (.ok b, d')) :
    ∃ raw, (readRaw p).on d = (.ok raw, d) ∧ (b = false ↔ q.erase raw.toLf = raw.toLf) := by
  cases edit_ok (by simp [Edit.operation]) h with
  -- A file that is exchanged has lost something by the erasure.
  | @exchanged loc c raw t hfind hfile hread hwritten hreplace =>
      refine ⟨raw, on_readRaw_of_file hfind hfile hread, ?_⟩
      rw [written_erase, Except.ok.injEq] at hwritten
      simp only [Bool.true_eq_false, false_iff]
      intro hsame
      rw [if_pos hsame] at hwritten
      exact absurd hwritten (by simp)
  -- A file that is left alone has not.
  | @unchanged loc c raw hfind hfile hread hwritten =>
      refine ⟨raw, on_readRaw_of_file hfind hfile hread, ?_⟩
      rw [written_erase, Except.ok.injEq] at hwritten
      simp only [true_iff]
      by_contra hsame
      rw [if_neg hsame] at hwritten
      exact absurd hwritten (by simp)

/-- Erasures and a last edit that fail: nothing is written exactly if there was
    nothing to erase. -/
theorem erasures_write_nothing_iff {e : Edit} (hop : e.operation ≠ .append) (qs : List Pattern)
    (h : ((qs.map Edit.erase ++ [e]).mapM (edit p)).on d = (.error f, d'))
    (hf : f.category ≠ none) :
    d' = d ↔ ∀ raw, (readRaw p).on d = (.ok raw, d) → ∀ q ∈ qs, q.erase raw.toLf = raw.toLf := by
  induction qs generalizing d with
  | nil =>
      rw [List.map_nil, List.nil_append, List.mapM_cons] at h
      rcases on_bind_eq_error.mp h with hedit | ⟨b, d₁, -, hrest⟩
      · simp [edit_error hop hedit]
      · rw [List.mapM_nil] at hrest
        exact absurd hrest (by simp)
  | cons q qs ih =>
      rw [List.map_cons, List.cons_append, List.mapM_cons] at h
      rcases on_bind_eq_error.mp h with hfirst | ⟨b, d₁, hfirst, hgone⟩
      · have hunread := erase_fails_unread hfirst hf
        have hsame := edit_error (by simp [Edit.operation]) hfirst
        exact ⟨fun _ raw hraw => absurd hraw (hunread raw), fun _ => hsame⟩
      · have hrest : ((qs.map Edit.erase ++ [e]).mapM (edit p)).on d₁ = (.error f, d') := by
          rcases on_bind_eq_error.mp hgone with hmap | ⟨bs, d₂, -, hdone⟩
          · exact hmap
          · exact absurd hdone (by simp)
        clear hgone
        rcases erase_writes_iff hfirst with ⟨raw, hraw, hwrites⟩
        have huniq : ∀ raw', (readRaw p).on d = (.ok raw', d) → raw' = raw := fun raw' h' => by
          rw [hraw, Prod.mk.injEq, Except.ok.injEq] at h'
          exact h'.1.symm
        cases edit_ok (by simp [Edit.operation]) hfirst with
        | unchanged =>
            have hq := hwrites.mp rfl
            rw [ih hrest]
            constructor
            · intro hall raw' hraw' k hk
              rcases List.mem_cons.mp hk with rfl | hk
              · rw [huniq raw' hraw']
                exact hq
              · exact hall raw' hraw' k hk
            · exact fun hall raw' hraw' k hk => hall raw' hraw' k (List.mem_cons_of_mem q hk)
        | @exchanged loc c raw' t hfind hfile hread hwritten hreplace =>
            -- The trail has grown, whatever the edits behind this one do.
            have hgrown : ∃ ws, d' = (d.made (.put loc (.file (.text t)))).after ws := by
              have hdoes : Does (d.made (.put loc (.file (.text t)))).here (fun _ _ => True)
                  ((qs.map Edit.erase ++ [e]).mapM (edit p)) :=
                Does.mapM fun e' _ => (makes_edit p e').mono fun _ _ _ => trivial
              rcases hdoes _ rfl with ⟨ws, hws, -⟩
              rw [hrest] at hws
              exact ⟨ws, hws⟩
            rcases hgrown with ⟨ws, rfl⟩
            constructor
            · intro hsame
              have htrail := congrArg (fun d : Disk => d.trail.length) hsame
              simp [Disk.made] at htrail
            · intro hall
              have := hwrites.mpr (hall raw hraw q (by simp))
              exact absurd this (by simp)

end Job

/-- A removal that fails in a way that a user is meant to see has written
    nothing exactly if the registry holds no import that the removal takes
    out. -/
theorem Registry.failed_removal_writes_nothing_iff {r : Registry} (hr : r.dialect = .marker)
    (x : Routed) {d d' : Disk} {f : Fault} (h : (r.remove x).make.on d = (.error f, d'))
    (hf : f.category ≠ none) : d' = d ↔ ∀ raw, (readRaw r.file).on d = (.ok raw, d) →
      ∀ q ∈ x.imports, q.erase raw.toLf = raw.toLf := by
  have hop : x.cut.operation ≠ .append := by
    cases x <;> simp [Routed.cut, Edit.operation]
  rw [remove_eq hr, Revision.make] at h
  rcases on_bind_eq_error.mp h with hedits | ⟨bs, d₁, -, hdone⟩
  · exact erasures_write_nothing_iff hop x.imports hedits hf
  · exact absurd hdone (by simp)

namespace Removal

/-- The import of a module. -/
def importText : Text := "import \x7b A \x7d from \"../modules/a/A\";\n"

/-- The element of the module in that of its role, which is not closed. -/
def elementText : Text := "export default <Route path=\"/inst\">\n<Route path=\"a\" element=\x7b<A />\x7d />\n"

/-- The registry in its file. -/
def registry : Registry := ⟨.marker, .ofText "route.tsx".toList, .ofText "modules".toList⟩

/-- A disk with nothing but the registry. -/
def disk : Disk := .fresh ⟨[(["route.tsx".toList], .file (.text (importText ++ elementText)))]⟩ []

/-- The module. -/
def moduleA : Routed := .module ⟨"inst".toList, "a".toList, "A".toList⟩

/-- What the removal ends with. -/
def fault : Fault :=
  .anchorNotFound "route.tsx".toList "closing </Route> for block at offset 15".toList

/-- The disk that the removal leaves. -/
def leftDisk : Disk := ((registry.remove moduleA).make.on disk).2

theorem on_make : (registry.remove moduleA).make.on disk = (.error fault, leftDisk) := by
  have hfault : ((registry.remove moduleA).make.on disk).1 = .error fault := by
    decide +kernel
  rw [leftDisk, ← hfault]

end Removal

open Removal in
theorem Registry.failed_removal_writes_nothing_iff_moduleA : fault.category ≠ none
    ∧ (registry.remove moduleA).make.on disk = (.error fault, leftDisk)
    ∧ (leftDisk = disk ↔ ∀ raw, (readRaw registry.file).on disk = (.ok raw, disk) →
        ∀ q ∈ moduleA.imports, q.erase raw.toLf = raw.toLf) :=
  ⟨by decide, on_make, failed_removal_writes_nothing_iff rfl moduleA on_make (by decide)⟩

open Removal in
/-- The import is gone and the element is still there, because the removal has
    failed. -/
theorem Registry.failed_removal_loses_import :
    (registry.remove moduleA).make.on disk = (.error fault, leftDisk) ∧ fault.category = some .anchor
      ∧ disk.tree.get? ["route.tsx".toList] = some (.file (.text (importText ++ elementText)))
      ∧ leftDisk.tree.get? ["route.tsx".toList] = some (.file (.text elementText)) := by
  have hleft : leftDisk.tree.get? ["route.tsx".toList] = some (.file (.text elementText)) := by
    decide +kernel
  exact ⟨on_make, rfl, rfl, hleft⟩

end RouteScaffold

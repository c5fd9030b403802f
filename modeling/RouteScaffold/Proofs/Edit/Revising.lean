import RouteScaffold.Proofs.Edit.Leading
import RouteScaffold.Registry.Basic

/-!
# Revisions, Whatever the File Holds

An edit reads its file, and writes it at most once, last of all. So an edit
that fails has written nothing, and one that succeeds has exchanged the file
for what the edit makes of its text, or has found that nothing changes.

A revision is several edits, each of what the one before it has left. If one
of them fails, what the edits before it have written stays written.

## Main definitions

* `Job.Edits`: What an edit that succeeds has found, and what it has done.

## Theorems

* `edit_error`: An edit that fails has written nothing.
* `edit_ok`: What an edit that succeeds has done.
* `on_edit_raw`: What an edit does to a file that can be exchanged.
-/

namespace RouteScaffold

open Job Disk RouteScaffold.Tree

namespace Job

variable {here : Location} {R : Tree → Write → Prop} {p : Path} {e : Edit} {d d' : Disk}

/-- What an edit that succeeds has found, and what it has done: the file has
    been exchanged for another text, or nothing has been written. -/
inductive Edits (p : Path) (e : Edit) (d : Disk) : Bool → Disk → Prop where
  | exchanged {loc : Location} {c : Content} {raw t : Text} (found : d.find p = .ok loc)
      (file : d.tree.get? loc = some (.file c)) (reads : c.read = .ok raw)
      (written : e.written p.text raw = .ok (some t)) (replaceable : d.replaceable p = .ok loc) :
      Edits p e d true (d.made (.put loc (.file (.text t))))
  | unchanged {loc : Location} {c : Content} {raw : Text} (found : d.find p = .ok loc)
      (file : d.tree.get? loc = some (.file c)) (reads : c.read = .ok raw)
      (written : e.written p.text raw = .ok none) : Edits p e d false d

theorem edit_of_not_append (hop : e.operation ≠ .append) : edit p e = editExisting p e := by
  rw [edit, if_neg hop]

/-- What reading a source file has found. -/
theorem readRaw_ok {raw : Text} (h : (readRaw p).on d = (.ok raw, d')) : d' = d
    ∧ ∃ loc c, d.find p = .ok loc ∧ d.tree.get? loc = some (.file c) ∧ c.read = .ok raw := by
  have hd := (looks_readRaw p).ok h
  refine ⟨hd, ?_⟩
  rw [on_readRaw] at h
  split at h
  · next c hlook =>
      split at h
      · next t ht =>
          rw [Prod.mk.injEq, Except.ok.injEq] at h
          rcases look_eq_some.mp hlook with ⟨loc, hfind, hloc⟩
          exact ⟨loc, c, hfind, hloc, h.1 ▸ ht⟩
      · exact absurd h (by simp)
  · exact absurd h (by simp)
  · exact absurd h (by simp)

theorem on_readRaw_of_file {loc : Location} {c : Content} {raw : Text} (hfind : d.find p = .ok loc)
    (hfile : d.tree.get? loc = some (.file c)) (hread : c.read = .ok raw) :
    (readRaw p).on d = (.ok raw, d) := by
  rw [on_readRaw, look_eq_some.mpr ⟨loc, hfind, hfile⟩]
  dsimp only
  rw [hread]

/-- What an edit does once its file has been read. -/
theorem on_editExisting_of_read {raw : Text} (h : (readRaw p).on d = (.ok raw, d)) :
    (editExisting p e).on d = match e.written p.text raw with
      | .error f => (.error f, d)
      | .ok none => (.ok false, d)
      | .ok (some t) => match d.replaceable p with
        | .ok loc => (.ok true, d.made (.put loc (.file (.text t))))
        | .error f => (.error (.system f p.text), d) := by
  rw [editExisting, on_bind_ok h, on_bind, on_ofExcept]
  cases e.written p.text raw with
  | error f => rfl
  | ok r =>
      cases r with
      | none => rfl
      | some t =>
          dsimp only
          rw [on_bind, on_replace]
          cases d.replaceable p <;> rfl

/-- What an edit does to a file that can be exchanged. -/
theorem on_edit_raw {loc : Location} {c : Content} {raw : Text} (hop : e.operation ≠ .append)
    (hreplace : d.replaceable p = .ok loc) (hfile : d.tree.get? loc = some (.file c))
    (hread : c.read = .ok raw) : (edit p e).on d = match e.written p.text raw with
      | .error f => (.error f, d)
      | .ok none => (.ok false, d)
      | .ok (some t) => (.ok true, d.made (.put loc (.file (.text t)))) := by
  rw [edit_of_not_append hop,
    on_editExisting_of_read (on_readRaw_of_file (replaceable_eq hreplace).1 hfile hread), hreplace]

theorem editExisting_cases (p : Path) (e : Edit) (d : Disk) :
    (∃ f, (editExisting p e).on d = (.error f, d))
      ∨ ∃ b d', (editExisting p e).on d = (.ok b, d') ∧ Edits p e d b d' := by
  rcases (looks_readRaw p).cases d with ⟨f, hf⟩ | ⟨raw, hraw⟩
  · exact Or.inl ⟨f, by rw [editExisting, on_bind_error hf]⟩
  · rcases readRaw_ok hraw with ⟨-, loc, c, hfind, hfile, hread⟩
    rw [on_editExisting_of_read hraw]
    cases hw : e.written p.text raw with
    | error f => exact Or.inl ⟨f, rfl⟩
    | ok r =>
        cases r with
        | none => exact Or.inr ⟨false, d, rfl, .unchanged hfind hfile hread hw⟩
        | some t =>
            cases hr : d.replaceable p with
            | error f => exact Or.inl ⟨_, rfl⟩
            | ok loc' =>
                have heq : loc' = loc := by
                  have := (replaceable_eq hr).1
                  rw [hfind, Except.ok.injEq] at this
                  exact this.symm
                subst heq
                exact Or.inr ⟨true, _, rfl, .exchanged hfind hfile hread hw hr⟩

/-- An edit that fails has written nothing. -/
theorem edit_error {f : Fault} (hop : e.operation ≠ .append) (h : (edit p e).on d = (.error f, d')) :
    d' = d := by
  rw [edit_of_not_append hop] at h
  rcases editExisting_cases p e d with ⟨f', hf'⟩ | ⟨b, d'', hd'', -⟩
  · rw [hf', Prod.mk.injEq] at h
    exact h.2.symm
  · rw [hd''] at h
    exact absurd h (by simp)

/-- What an edit that succeeds has done. -/
theorem edit_ok {b : Bool} (hop : e.operation ≠ .append) (h : (edit p e).on d = (.ok b, d')) :
    Edits p e d b d' := by
  rw [edit_of_not_append hop] at h
  rcases editExisting_cases p e d with ⟨f', hf'⟩ | ⟨b', d'', hd'', hedits⟩
  · rw [hf'] at h
    exact absurd h (by simp)
  · rw [hd'', Prod.mk.injEq, Except.ok.injEq] at h
    rcases h with ⟨rfl, rfl⟩
    exact hedits

theorem Does.mapM {α β : Type} {xs : List α} {f : α → Job β} (h : ∀ x ∈ xs, Does here R (f x)) :
    Does here R (xs.mapM f) := by
  induction xs with
  | nil => exact does_pure _
  | cons x xs ih =>
      rw [List.mapM_cons]
      exact (h x (by simp)).bind fun _ =>
        Does.bind (ih fun y hy => h y (by simp [hy])) fun _ => does_pure _

end Job

end RouteScaffold

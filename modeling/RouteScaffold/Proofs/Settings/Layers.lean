import RouteScaffold.Proofs.Disk.Jobs
import RouteScaffold.Proofs.Json.Merging
import RouteScaffold.Settings

/-!
# The Layers of the Settings

Settings are the defaults, the user's layer merged over them, and the project's layer over
both. A layer is what a file holds, if there is one, and otherwise nothing.

Which layer a setting comes from is read off the layers one by one, from the last one. A
layer that holds, under the key of a setting, a value without fields has the last word
over those before it. A layer that holds nothing there leaves the word to those before it,
unless it blocks the key: it may hold a value without fields under a part of it, and then
no layer before it is heard.

## Main definitions

* `Settings.Layer`: What a settings file adds.

## Theorems

* `on_overlayFile`: A settings file over the layers before it.
* `on_load`: The three layers.
* `get?_of_held`, `get?_of_free`: A setting, by the last layer that says something.
* `settings_by_layers`: What a merged object shows along a path, and what that means for
  settings in three layers.
-/

namespace RouteScaffold

open Json Job

namespace Settings

/-- What a settings file adds to the layers before it: the fields of the object that it
    holds, or nothing where there is no such file. -/
def Layer (d : Disk) (file : Path) (fields : Fields) : Prop :=
  ((isThere file).on d = (.ok false, d) ∧ fields = [])
    ∨ ((isThere file).on d = (.ok true, d)
      ∧ ∃ t, (readText file).on d = (.ok t, d) ∧ Json.read rules t = .ok (.record fields))

variable {d d' : Disk} {file : Path} {s s' : Settings} {fields : Fields} {v : Json} {key : Text}

/-- The fields of a layer are keyed. -/
theorem Layer.keyed (h : Layer d file fields) : KeyedFields fields := by
  rcases h with ⟨-, rfl⟩ | ⟨-, t, -, hread⟩
  · exact trivial
  · exact keyed_of_read hread

theorem opened_of_readText {t : Text} (h : (readText file).on d = (.ok t, d')) : ∃ o, d.opened file = .ok o := by
  rw [on_readText] at h
  cases ho : d.opened file with
  | ok o => exact ⟨o, rfl⟩
  | error e =>
      rw [ho] at h
      exact absurd (Prod.mk.inj h).1 (by simp)

theorem overlay_eq_ok {document : Text} {name : Text} : s.overlay name document = .ok s' ↔
    ∃ fields, Json.read rules document = .ok (.record fields) ∧ s' = mergeFields s fields := by
  rw [overlay]
  cases Json.read rules document with
  | error f => simp
  | ok v =>
      cases v with
      | record fields => simp [eq_comm]
      | _ => simp

/-- A settings file over the layers before it: its layer is merged over them. -/
theorem on_overlayFile : (s.overlayFile file).on d = (.ok s', d') ↔
    d' = d ∧ ∃ fields, Layer d file fields ∧ s' = mergeFields s fields := by
  rw [overlayFile, on_bind_eq_ok]
  constructor
  · rintro ⟨there, d₁, hthere, h⟩
    have hd₁ := (looks_isThere file).ok hthere
    subst hd₁
    -- A file that is missing adds nothing.
    cases there with
    | false =>
        rcases Prod.mk.inj h with ⟨hs, hd⟩
        exact ⟨hd.symm, [], Or.inl ⟨hthere, rfl⟩, (Except.ok.inj hs).symm⟩
    | true =>
        rw [Bool.not_true, if_neg (by simp), on_get_bind] at h
        cases ho : d₁.opened file with
        -- One that cannot be opened does not give any settings.
        | error e =>
            rw [ho] at h
            exact absurd (Prod.mk.inj h).1 (by simp)
        | ok o =>
            rw [ho] at h
            rcases on_bind_eq_ok.mp h with ⟨t, d₂, hread, hoverlay⟩
            have hd₂ := (looks_readText file).ok hread
            subst hd₂
            rw [on_ofExcept, Prod.mk.injEq, overlay_eq_ok] at hoverlay
            rcases hoverlay with ⟨⟨fields, hfields, hs⟩, rfl⟩
            exact ⟨rfl, fields, Or.inr ⟨hthere, t, hread, hfields⟩, hs⟩
  · rintro ⟨rfl, fields, ⟨hthere, rfl⟩ | ⟨hthere, t, hread, hfields⟩, rfl⟩
    · exact ⟨false, d', hthere, rfl⟩
    · rcases opened_of_readText hread with ⟨o, ho⟩
      refine ⟨true, d', hthere, ?_⟩
      rw [Bool.not_true, if_neg (by simp), on_get_bind, ho]
      exact on_bind_eq_ok.mpr ⟨t, d', hread, by rw [on_ofExcept, overlay_eq_ok.mpr ⟨fields, hfields, rfl⟩]⟩

/-- The three layers: the defaults, the user's layer and the layer of the project. -/
theorem on_load {home root : Path} : (load home root).on d = (.ok s, d') ↔
    d' = d ∧ ∃ user own, Layer d (Layout.settingsFileOf home) user ∧ Layer d (Layout.settingsFileOf root) own
      ∧ s = mergeFields (mergeFields defaults user) own := by
  rw [load, on_bind_eq_ok]
  constructor
  · rintro ⟨s₁, d₁, hfirst, hsecond⟩
    rcases on_overlayFile.mp hfirst with ⟨rfl, user, huser, rfl⟩
    rcases on_overlayFile.mp hsecond with ⟨rfl, own, hown, rfl⟩
    exact ⟨rfl, user, own, huser, hown, rfl⟩
  · rintro ⟨rfl, user, own, huser, hown, rfl⟩
    exact ⟨_, _, on_overlayFile.mpr ⟨rfl, user, huser, rfl⟩, on_overlayFile.mpr ⟨rfl, own, hown, rfl⟩⟩

/-! ### A setting -/

theorem splitAt_ne_nil (sep : Char) (t : Text) : Text.splitAt sep t ≠ [] := by
  cases t with
  | nil => simp [Text.splitAt]
  | cons c t =>
      rw [Text.splitAt]
      split
      · simp
      · split <;> simp

/-- A layer that holds a value without fields has the last word. -/
theorem get?_of_held (h : KeyedFields fields) (hheld : Settings.get? fields key = some v)
    (hplain : v.asFields? = none) :
    Settings.get? (mergeFields s fields) key = some v := by
  rw [Settings.get?, (at?_mergeFields h (splitAt_ne_nil _ _)).2 (not_blocked_of_at? hheld)]
  rw [Settings.get?] at hheld
  rw [hheld]
  dsimp only
  rw [mergeOver_of_plain hplain]

/-- A layer that neither holds nor blocks a key leaves the word to those before it. -/
theorem get?_of_free (h : KeyedFields fields) (hnone : Settings.get? fields key = none)
    (hfree : ¬ Blocked (Text.splitAt '.' key) fields) :
    Settings.get? (mergeFields s fields) key = Settings.get? s key := by
  rw [Settings.get?, (at?_mergeFields h (splitAt_ne_nil _ _)).2 hfree]
  rw [Settings.get?] at hnone
  rw [hnone]
  rfl

end Settings

/-- What a merged object shows along a path: nothing, if the later object blocks the path;
    what the later object holds there, merged over what the earlier one holds if both hold
    objects; or else what the earlier one shows. Settings are the defaults with the user's
    layer and that of the project merged over them, so a setting has the value without
    fields that the project's layer holds, and where that layer neither holds nor blocks the
    setting, the one that the user's layer holds. Merging a layer again changes nothing. -/
theorem settings_by_layers :
    (∀ (base later : Fields) (path : List Text), KeyedFields later → path ≠ [] →
      (Blocked path later → at? path (.record (mergeFields base later)) = none)
      ∧ (¬ Blocked path later → at? path (.record (mergeFields base later))
        = match at? path (.record later), at? path (.record base) with
          | some (.record outer), some (.record inner) => some (.record (mergeFields inner outer))
          | some v, _ => some v
          | none, earlier => earlier))
    ∧ (∀ (base later : Fields), KeyedFields later → mergeFields (mergeFields base later) later = mergeFields base later)
    ∧ ∀ (home root : Path) (d : Disk),
      (∀ s d', (Settings.load home root).on d = (.ok s, d') ↔ d' = d ∧ ∃ user own,
        Settings.Layer d (Layout.settingsFileOf home) user ∧ Settings.Layer d (Layout.settingsFileOf root) own
          ∧ s = mergeFields (mergeFields Settings.defaults user) own)
      ∧ ∀ user own s, Settings.Layer d (Layout.settingsFileOf home) user →
        Settings.Layer d (Layout.settingsFileOf root) own → s = mergeFields (mergeFields Settings.defaults user) own →
        mergeFields s own = s ∧ ∀ (key : Text) (v : Json), v.asFields? = none →
          (Settings.get? own key = some v → Settings.get? s key = some v)
          ∧ (Settings.get? own key = none → ¬ Blocked (Text.splitAt '.' key) own →
            Settings.get? user key = some v → Settings.get? s key = some v) := by
  refine ⟨fun base later path hlater hpath => ?_, fun base later => mergeFields_again base,
    fun home root d => ⟨fun s d' => Settings.on_load, ?_⟩⟩
  · refine ⟨(at?_mergeFields hlater hpath).1, fun hfree => ?_⟩
    rw [(at?_mergeFields hlater hpath).2 hfree]
    -- What the later layer says decides; two records are laid over each other in turn.
    cases at? path (.record later) with
    | none => rfl
    | some v =>
        cases at? path (.record base) with
        | none => cases v <;> rfl
        | some w => cases w <;> cases v <;> rfl
  · rintro user own s huser hown rfl
    refine ⟨mergeFields_again _ hown.keyed, fun key v hplain => ⟨fun hheld => ?_, fun hnone hfree hheld => ?_⟩⟩
    · exact Settings.get?_of_held hown.keyed hheld hplain
    -- The file of the project says nothing of the key, so that of the user does.
    · rw [Settings.get?_of_free hown.keyed hnone hfree]
      exact Settings.get?_of_held huser.keyed hheld hplain

namespace Layers

/-- The home of a user. -/
def home : Path := .ofText "home".toList

/-- The root of a project. -/
def root : Path := .ofText "proj".toList

/-- The layer of the user. -/
def user : Fields := [("journal".toList, .record [("enabled".toList, .bool false)]),
  ("project".toList, .record [("src_dir".toList, .text "lib".toList)])]

/-- The layer of the project. It has no fields where the user's layer has some. -/
def own : Fields := [("journal".toList, .bool true),
  ("project".toList, .record [("packages_dir".toList, .text "parts".toList)])]

/-- A disk with both settings files. -/
def disk : Disk := .fresh ⟨[(["home".toList], .folder), (["home".toList, ".aviators".toList], .folder),
  (["home".toList, ".aviators".toList, "config.json".toList], .file (.text (Json.record user).document)),
  (["proj".toList], .folder), (["proj".toList, ".aviators".toList], .folder),
  (["proj".toList, ".aviators".toList, "config.json".toList], .file (.text (Json.record own).document))]⟩ []

/-- The settings on that disk. -/
def merged : Settings := mergeFields (mergeFields Settings.defaults user) own

theorem read_document_of_kept {fields : Fields} (h : Kept 985 (.record fields)) :
    Json.read Settings.rules (Json.record fields).document = .ok (.record fields) := by
  have hread : Json.read Settings.rules ((Json.record fields).document ++ []) = .ok (.record fields) :=
    read_document h (by simp)
  rwa [List.append_nil] at hread

theorem layer_user : Settings.Layer disk (Layout.settingsFileOf home) user :=
  Or.inr ⟨Prod.ext (by decide) (looks_isThere _ _), (Json.record user).document,
    Prod.ext (by decide) (looks_readText _ _), read_document_of_kept (by simp [user, Kept, KeptFields])⟩

theorem layer_own : Settings.Layer disk (Layout.settingsFileOf root) own :=
  Or.inr ⟨Prod.ext (by decide) (looks_isThere _ _), (Json.record own).document,
    Prod.ext (by decide) (looks_readText _ _), read_document_of_kept (by simp [own, Kept, KeptFields])⟩

theorem blocked_own : Blocked ["journal".toList, "enabled".toList] own :=
  ⟨["journal".toList], ["enabled".toList], rfl, by simp, by simp, .bool true, rfl, rfl⟩

theorem not_blocked_own : ¬ Blocked (Text.splitAt '.' "project.src_dir".toList) own := by
  have hpath : Text.splitAt '.' "project.src_dir".toList = ["project".toList, "src_dir".toList] := by decide
  rw [hpath, blocked_cons (by simp)]
  rintro ⟨v, hv, hplain | ⟨inner, rfl, hblocked⟩⟩
  · rw [← Option.some.inj hv] at hplain
    exact absurd hplain (by simp [asFields?])
  · exact not_blocked_single _ _ hblocked

end Layers

open Layers in
theorem settings_by_layers_two_files : (Settings.load home root).on disk = (.ok merged, disk)
    ∧ Settings.get? merged "project.packages_dir".toList = some (.text "parts".toList)
    ∧ Settings.get? merged "project.src_dir".toList = some (.text "lib".toList)
    ∧ at? ["journal".toList, "enabled".toList] (.record merged) = none
    ∧ mergeFields merged own = merged := by
  rcases settings_by_layers with ⟨hpaths, hagain, hlayers⟩
  rcases hlayers home root disk with ⟨hload, hsettings⟩
  rcases hsettings user own merged layer_user layer_own rfl with ⟨-, hget⟩
  refine ⟨(hload _ _).mpr ⟨rfl, user, own, layer_user, layer_own, rfl⟩, (hget _ _ rfl).1 rfl,
    (hget _ _ rfl).2 rfl not_blocked_own rfl, ?_, hagain _ own layer_own.keyed⟩
  exact (hpaths _ own _ layer_own.keyed (by simp)).1 blocked_own

end RouteScaffold

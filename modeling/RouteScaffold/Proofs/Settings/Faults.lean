import RouteScaffold.Project.Basic
import RouteScaffold.Proofs.Disk.Level
import RouteScaffold.Proofs.Settings.Layers

/-!
# What Bad Settings Do to a Command

Settings are written by hand, and every command begins by reading them. There is a fault of
its own for settings that are bad, which tells the user what to mend, and a command that
cannot go on because of its settings should end in no other.

This holds of a settings file with the wrong syntax, of one that holds something other than
an object, of a folder in its place, and of a default dialect that does not exist. It does
not hold of bytes that are no text, of lists that are nested too deep or of a number that is
too long: these are faults of the reading, and pass as what they are. And it does not hold
of the names of the source folders, which nobody looks at when the settings are read. A
name that is no text is met by the first path that goes through the folder, and a text that
is no name by the first use of such a path. No name is a text with a null character, nor one
with a surrogate that stands alone.

There are surrogates which a file system may take for bytes, and these may make a name. No
tree here holds such a name, so nothing is said of the use of a path with one.

A disk holds sound settings if none of this is so, and it is on just these disks that no
other fault is met.

## Main definitions

* `Disk.Takes`: A path can be used, whether it leads to something or not.
* `Layout.Place`, `Layout.path`: The places of a project.
* `Settings.Refused`: Why a settings file is refused.
* `Settings.Misnames`: A folder has a name that is no text.
* `Settings.SpellsByte`: A text may be a name of bytes.
* `Settings.Told`: Whatever fails because of the settings says so.
* `Settings.Sound`: The settings files can be read, and the names in them used.

## Theorems

* `takes_iff`: A path that can be used is not refused.
* `on_overlayFile_error`, `on_load_error`, `on_open_error`: How reading fails.
* `legible_iff`: When a settings file is refused in no way but as settings.
* `path_eq_error`: When a place has no path.
* `faults_told_iff`: What settings can do to a command.
-/

namespace RouteScaffold

open Json Job

/-! ### Paths that can be used -/

namespace Tree

variable {t : Tree} {loc : Location} {names : List Text} {e : SystemError}

/-- A walk ends at a name that is too long when it has arrived at a folder to look it up. -/
theorem walk_eq_nameTooLong : t.walk loc names = .error .nameTooLong ↔ ∃ ns n ms l, names = ns ++ n :: ms
    ∧ t.walk loc ns = .ok l ∧ t.get? l = some .folder ∧ nameLimit < Utf8.size n := by
  constructor
  · intro h
    induction names generalizing loc with
    | nil => exact absurd h (by simp [walk])
    | cons name names ih =>
        rw [walk_cons] at h
        split at h
        · next hfolder =>
            split at h
            · next hlong => exact ⟨[], name, names, loc, rfl, rfl, hfolder, hlong⟩
            · next hshort =>
                rcases ih h with ⟨ns, n, ms, l, rfl, hwalk, hl, hn⟩
                refine ⟨name :: ns, n, ms, l, rfl, ?_, hl, hn⟩
                rw [walk_cons, hfolder]
                dsimp only
                rw [if_neg hshort, hwalk]
        · exact absurd h (by simp)
        · exact absurd h (by simp)
  · rintro ⟨ns, n, ms, l, rfl, hwalk, hl, hn⟩
    rw [walk_append, hwalk]
    dsimp only
    rw [walk_cons, hl]
    dsimp only
    rw [if_pos hn]

theorem walk_error (h : t.walk loc names = .error e) : e = .missing ∨ e = .notDirectory ∨ e = .nameTooLong := by
  induction names generalizing loc with
  | nil => exact absurd h (by simp [walk])
  | cons name names ih =>
      rw [walk_cons] at h
      split at h
      · split at h
        · exact Or.inr (Or.inr (Except.error.inj h).symm)
        · exact ih h
      · exact Or.inr (Or.inl (Except.error.inj h).symm)
      · exact Or.inl (Except.error.inj h).symm

end Tree

namespace Disk

variable {d : Disk} {q : Path} {e : SystemError}

/-- A path can be used, whether it leads to something or not: it holds no null character,
    it is not too long, and neither is a name that has to be looked up in a folder. -/
structure Takes (d : Disk) (q : Path) : Prop where
  plain : '\x00' ∉ q.text
  short : Utf8.size q.text < pathLimit
  names : ∀ ns n ms loc, q.names = ns ++ n :: ms → d.tree.walk (d.origin q) ns = .ok loc →
    d.tree.get? loc = some .folder → Utf8.size n ≤ nameLimit

/-- A path that can be used leads somewhere, or through nothing or a file. -/
theorem takes_iff : d.Takes q ↔ ∀ e, d.find q = .error e → e = .missing ∨ e = .notDirectory := by
  constructor
  · rintro ⟨hplain, hshort, hnames⟩ e he
    rw [find, unwalkable?, if_neg hplain, if_neg (by omega)] at he
    rcases Tree.walk_error he with rfl | rfl | rfl
    · exact Or.inl rfl
    · exact Or.inr rfl
    · rcases Tree.walk_eq_nameTooLong.mp he with ⟨ns, n, ms, l, hsplit, hwalk, hl, hn⟩
      exact absurd (hnames ns n ms l hsplit hwalk hl) (by omega)
  · intro h
    -- A path that no tree lets through is refused in one of the other two ways.
    have hwalkable : unwalkable? q = none := by
      cases hu : unwalkable? q with
      | none => rfl
      | some e =>
          have he := h e (by rw [find, hu])
          rw [unwalkable?] at hu
          split at hu
          · rw [← Option.some.inj hu] at he
            exact absurd he (by simp)
          · split at hu
            · rw [← Option.some.inj hu] at he
              exact absurd he (by simp)
            · exact hu.symm
    have hplain : '\x00' ∉ q.text := fun hnull => by
      rw [unwalkable_of_null hnull] at hwalkable
      exact absurd hwalkable (by simp)
    refine ⟨hplain, ?_, fun ns n ms loc hsplit hwalk hloc => ?_⟩
    · by_contra hlong
      rw [unwalkable?, if_neg hplain, if_pos (by omega)] at hwalkable
      exact absurd hwalkable (by simp)
    · by_contra hlong
      have hfind : d.find q = .error .nameTooLong := by
        rw [find, hwalkable]
        exact Tree.walk_eq_nameTooLong.mpr ⟨ns, n, ms, loc, hsplit, hwalk, hloc, by omega⟩
      exact absurd (h _ hfind) (by simp)

instance : Decidable (d.Takes q) :=
  match h : d.find q with
  | .ok _ => isTrue (takes_iff.mpr fun _ he => absurd (h.symm.trans he) (by simp))
  | .error e => decidable_of_iff (e = .missing ∨ e = .notDirectory)
    (Iff.trans ⟨fun he _ he' => Except.error.inj (h.symm.trans he') ▸ he, fun he => he e h⟩ takes_iff.symm)

theorem look_error (h : d.look q = .error e) : e = .nameTooLong := by
  rw [look] at h
  split at h
  · exact absurd h (by simp)
  · exact (Except.error.inj h).symm
  · exact absurd h (by simp)

end Disk

/-! ### The places of a project -/

namespace Layout

/-- The places of a project. -/
inductive Place where
  | root
  /-- The tool's own folder. -/
  | own
  | intents
  | logs
  /-- The settings file. -/
  | settings
  | source
  | packages
  | roles
  /-- A folder below that of all packages. -/
  | folder (name : Text)
  /-- The barrel of such a folder. -/
  | barrel (name : Text)
  | role (role : Text)
  | descriptor (role : Text)
  | registry (role : Text)
  | module (role segment : Text)
  | pages (role segment : Text)

/-- The path of a place, if it has one. -/
def path (l : Layout) : Place → Except Fault Path
  | .root => .ok l.root
  | .own => .ok l.ownFolder
  | .intents => .ok l.intentsFolder
  | .logs => .ok l.logsFolder
  | .settings => .ok l.settingsFile
  | .source => l.sourceRoot
  | .packages => l.packagesRoot
  | .roles => l.rolesRoot
  | .folder name => l.folderIn name
  | .barrel name => l.barrelIn name
  | .role role => l.roleFolder role
  | .descriptor role => l.descriptorFile role
  | .registry role => l.registryFile role
  | .module role segment => l.moduleFolder role segment
  | .pages role segment => l.pagesFolder role segment

namespace Place

/-- The last folder on the way to a place that has its name from the settings, or the root. -/
def base : Place → Place
  | root | own | intents | logs | settings => root
  | source => source
  | packages | folder _ | barrel _ => packages
  | roles | role _ | descriptor _ | registry _ | module .. | pages .. => roles

/-- The settings that name the folders on the way to a place. -/
def keys (place : Place) : List Text :=
  match place.base with
  | source => ["project.src_dir"]
  | packages => ["project.src_dir", "project.packages_dir"]
  | roles => ["project.src_dir", "project.roles_dir"]
  | _ => []

/-- The places that every project has. -/
def fixed : List Place :=
  [root, own, intents, logs, settings, source, packages, roles]
    ++ PackageKind.all.flatMap fun kind => [folder kind.folder, barrel kind.folder]

end Place

variable {l : Layout} {f : Fault} {α β : Type}

/-- What only goes on from a value fails as that value does. -/
theorem map_eq_error {r : Except Fault α} {g : α → β} : (r >>= fun a => pure (g a)) = .error f ↔ r = .error f := by
  cases r with
  | error e =>
      change Except.error e = _ ↔ _
      rw [Except.error.injEq, Except.error.injEq]
  | ok a => exact ⟨fun h => absurd h (by simp [bind, Except.bind, pure, Except.pure]), fun h => absurd h (by simp)⟩

/-- A place has no path if the folder that it lies in has none. -/
theorem path_eq_error_iff_base {place : Place} : l.path place = .error f ↔ l.path place.base = .error f := by
  cases place with
  | root | source | packages | roles => rfl
  | own | intents | logs | settings => simp [path, Place.base]
  | folder | role => exact map_eq_error
  | barrel | descriptor | registry | module => exact map_eq_error.trans map_eq_error
  | pages => exact map_eq_error.trans (map_eq_error.trans map_eq_error)

theorem named_eq_error {base : Path} {name : Option Text} :
    named base name = .error f ↔ f = .wrongType ∧ name = none := by
  cases name with
  | none => simp [named, eq_comm]
  | some t => simp [named]

theorem sourceRoot_eq_error : l.sourceRoot = .error f ↔ f = .wrongType ∧ l.source = none := named_eq_error

/-- A folder in the source folder has no path if one of the two has no name. -/
theorem named_in_source_eq_error {name : Option Text} : (l.sourceRoot >>= (named · name)) = .error f
    ↔ f = .wrongType ∧ (l.source = none ∨ name = none) := by
  cases hsource : l.source with
  | none =>
      have hroot : l.sourceRoot = .error .wrongType := sourceRoot_eq_error.mpr ⟨rfl, hsource⟩
      rw [hroot]
      simp [bind, Except.bind, eq_comm]
  | some t =>
      have hroot : l.sourceRoot = .ok (l.root / t) := by
        rw [sourceRoot, hsource]
        rfl
      rw [hroot]
      change named _ name = _ ↔ _
      rw [named_eq_error]
      simp

end Layout

namespace Settings

variable {s : Settings} {key usual : Text} {f : Fault} {d d' : Disk} {file home root : Path} {now : Timestamp}
  {fields : Fields}

/-- A folder has a name that is no text. -/
def Misnames (s : Settings) (key : Text) : Prop := ∃ v ∈ s.get? key, v.asText? = none

instance : Decidable (s.Misnames key) := inferInstanceAs (Decidable (∃ v ∈ s.get? key, v.asText? = none))

theorem folder_eq_none : s.folder key usual = none ↔ s.Misnames key := by
  rw [folder, Misnames]
  cases s.get? key with
  | none => simp
  | some v => simp

/-- A place has no path if a folder on the way there has a name that is no text. -/
theorem path_eq_error {place : Layout.Place} : (s.layout root).path place = .error f ↔
    f = .wrongType ∧ ∃ key ∈ place.keys, s.Misnames key := by
  have hsource : (s.layout root).sourceRoot = .error f ↔ f = .wrongType ∧ s.Misnames "project.src_dir" :=
    Layout.sourceRoot_eq_error.trans (by simp only [layout, folder_eq_none])
  have hbelow : ∀ key usual : Text, ((s.layout root).sourceRoot >>= (Layout.named · (s.folder key usual))) = .error f ↔
      f = .wrongType ∧ (s.Misnames "project.src_dir" ∨ s.Misnames key) := fun key usual =>
    Layout.named_in_source_eq_error.trans (by simp only [layout, folder_eq_none])
  have hpackages : (s.layout root).packagesRoot = .error f ↔ _ := hbelow "project.packages_dir" "packages"
  have hroles : (s.layout root).rolesRoot = .error f ↔ _ := hbelow "project.roles_dir" "Roles"
  -- The names of the folders further down are not taken from the settings.
  rw [Layout.path_eq_error_iff_base]
  cases place with
  | root | own | intents | logs | settings => simp [Layout.path, Layout.Place.keys, Layout.Place.base]
  | source => simp [Layout.path, Layout.Place.keys, Layout.Place.base, hsource]
  | packages | folder | barrel => simp [Layout.path, Layout.Place.keys, Layout.Place.base, hpackages]
  | roles | role | descriptor | registry | module | pages =>
      simp [Layout.path, Layout.Place.keys, Layout.Place.base, hroles]

/-! ### Reading a settings file -/

/-- Why a settings file is refused, whatever the layers before it hold. -/
inductive Refused (d : Disk) (file : Path) : Fault → Prop
  | unfollowed (hlook : d.look file = .error .nameTooLong) : Refused d file (.system .nameTooLong file.text)
  | folder (hlook : d.look file = .ok (some .folder)) :
    Refused d file (.settingsUnreadable file.text (Fault.system .isDirectory file.text).message)
  | garbled {c : Content} {u : Utf8.Fault} (hlook : d.look file = .ok (some (.file c)))
    (hread : c.read = .error u) : Refused d file (.undecodable u)
  | malformed {c : Content} {t : Text} {flaw : ReadFault} (hlook : d.look file = .ok (some (.file c)))
    (hread : c.read = .ok t) (hjson : Json.read rules t.unifyEndings = .error flaw) :
    Refused d file (unreadable file.text t.unifyEndings flaw)
  | plain {c : Content} {t : Text} {v : Json} (hlook : d.look file = .ok (some (.file c)))
    (hread : c.read = .ok t) (hjson : Json.read rules t.unifyEndings = .ok v) (hplain : v.asFields? = none) :
    Refused d file (.settingsNotObject file.text)

/-- A settings file can be read, or it is bad in a way that is told: where its path leads can be
    told, and a file there holds text that is not too much for a reading. -/
def Legible (d : Disk) (file : Path) : Prop :=
  d.look file ≠ .error .nameTooLong ∧ ∀ c, d.look file = .ok (some (.file c)) → ∃ t, c.read = .ok t
    ∧ ∀ flaw, Json.read rules t.unifyEndings = .error flaw → flaw.flaw ≠ .tooDeep ∧ flaw.flaw ≠ .tooManyDigits

theorem category_unreadable {name document : Text} {flaw : ReadFault} :
    (unreadable name document flaw).category = some .config ↔ flaw.flaw ≠ .tooDeep ∧ flaw.flaw ≠ .tooManyDigits := by
  rw [unreadable]
  cases flaw.flaw <;> simp [Fault.category]

theorem legible_iff : Legible d file ↔ ∀ f, Refused d file f → f.category = some .config := by
  constructor
  -- A file that can be followed and read has the faults of a file that is read.
  · rintro ⟨hlook, hfile⟩ f hrefused
    cases hrefused with
    | unfollowed h => exact absurd h hlook
    | folder h => rfl
    | garbled h hread =>
        rcases hfile _ h with ⟨t, ht, -⟩
        exact absurd (hread.symm.trans ht) (by simp)
    | malformed h hread hjson =>
        rcases hfile _ h with ⟨t, ht, hflaw⟩
        rw [Except.ok.inj (hread.symm.trans ht)] at hjson ⊢
        exact category_unreadable.mpr (hflaw _ hjson)
    | plain h hread hjson hplain => rfl
  · intro h
    -- If a fault were left out, the file would be the reason of one without a category.
    refine ⟨fun hlook => absurd (h _ (.unfollowed hlook)) (by simp [Fault.category]), fun c hlook => ?_⟩
    cases hread : c.read with
    | error u => exact absurd (h _ (.garbled hlook hread)) (by simp [Fault.category])
    | ok t => exact ⟨t, rfl, fun flaw hjson => category_unreadable.mp (h _ (.malformed hlook hread hjson))⟩

theorem overlay_eq_error {name document : Text} : s.overlay name document = .error f ↔
    (∃ flaw, Json.read rules document = .error flaw ∧ f = unreadable name document flaw)
      ∨ ∃ v, Json.read rules document = .ok v ∧ v.asFields? = none ∧ f = .settingsNotObject name := by
  rw [overlay]
  cases Json.read rules document with
  | error flaw => simp [eq_comm]
  | ok v => cases v <;> simp [asFields?, eq_comm]

/-- A settings file over the layers before it, by what is in its place. -/
theorem on_overlayFile_look : (s.overlayFile file).on d = (match d.look file with
    | .error e => .error (.system e file.text)
    | .ok none => .ok s
    | .ok (some .folder) => .error (.settingsUnreadable file.text (Fault.system .isDirectory file.text).message)
    | .ok (some (.file c)) => match c.read with
      | .error u => .error (.undecodable u)
      | .ok t => s.overlay file.text t.unifyEndings, d) := by
  rw [overlayFile, on_bind, on_isThere]
  cases hlook : d.look file with
  | error e => rfl
  | ok entry =>
      cases entry with
      | none => rfl
      | some entry =>
          -- What was seen is opened at the place where it was seen.
          rcases Disk.look_eq_some.mp hlook with ⟨loc, hfind, hentry⟩
          dsimp only
          rw [Option.isSome_some, Bool.not_true, if_neg (by simp), on_get_bind, Disk.opened, hfind]
          dsimp only
          rw [hentry]
          cases entry with
          | folder => rfl
          | file c =>
              dsimp only
              rw [on_bind, on_readText, Disk.opened_of_find hfind hentry]
              dsimp only
              cases c.read with
              | error u => rfl
              | ok t => exact on_ofExcept _ _

/-- A settings file is refused for reasons of its own. -/
theorem on_overlayFile_error : (s.overlayFile file).on d = (.error f, d') ↔ d' = d ∧ Refused d file f := by
  rw [on_overlayFile_look, Prod.mk.injEq, eq_comm (a := d), and_comm]
  refine and_congr_right fun _ => ⟨fun h => ?_, fun h => ?_⟩
  -- One fault for each way in which the file cannot be used.
  · split at h
    · next e he =>
        rw [← Except.error.inj h, Disk.look_error he]
        exact .unfollowed (Disk.look_error he ▸ he)
    · exact absurd h (by simp)
    · next hlook =>
        rw [← Except.error.inj h]
        exact .folder hlook
    · next c hlook =>
        split at h
        · next u hread =>
            rw [← Except.error.inj h]
            exact .garbled hlook hread
        · next t hread =>
            rcases overlay_eq_error.mp h with ⟨flaw, hjson, rfl⟩ | ⟨v, hjson, hplain, rfl⟩
            · exact .malformed hlook hread hjson
            · exact .plain hlook hread hjson hplain
  · cases h with
    | unfollowed hlook => rw [hlook]
    | folder hlook => rw [hlook]
    | garbled hlook hread => simp only [hlook, hread]
    | malformed hlook hread hjson =>
        simp only [hlook, hread]
        exact overlay_eq_error.mpr (Or.inl ⟨_, hjson, rfl⟩)
    | plain hlook hread hjson hplain =>
        simp only [hlook, hread]
        exact overlay_eq_error.mpr (Or.inr ⟨_, hjson, hplain, rfl⟩)

/-- Settings cannot be read if the first file is refused, or the second after the first. -/
theorem on_load_error : (load home root).on d = (.error f, d') ↔ d' = d ∧ (Refused d (Layout.settingsFileOf home) f
    ∨ (∃ fields, Layer d (Layout.settingsFileOf home) fields) ∧ Refused d (Layout.settingsFileOf root) f) := by
  rw [load, on_bind_eq_error]
  constructor
  · rintro (h | ⟨s, d₁, hfirst, hsecond⟩)
    · rcases on_overlayFile_error.mp h with ⟨hd, hrefused⟩
      exact ⟨hd, Or.inl hrefused⟩
    · rcases on_overlayFile.mp hfirst with ⟨rfl, user, huser, -⟩
      rcases on_overlayFile_error.mp hsecond with ⟨hd, hrefused⟩
      exact ⟨hd, Or.inr ⟨⟨user, huser⟩, hrefused⟩⟩
  · rintro ⟨rfl, hrefused | ⟨⟨user, huser⟩, hrefused⟩⟩
    · exact Or.inl (on_overlayFile_error.mpr ⟨rfl, hrefused⟩)
    · exact Or.inr ⟨_, d', on_overlayFile.mpr ⟨rfl, user, huser, rfl⟩, on_overlayFile_error.mpr ⟨rfl, hrefused⟩⟩

/-! ### Opening a project -/

theorem category_of_defaultDialect (h : s.defaultDialect = .error f) : f.category = some .config := by
  rw [defaultDialect] at h
  split at h
  · exact absurd h (by simp)
  · rw [← Except.error.inj h]
    rfl

theorem ofSettings_eq_error : Project.ofSettings s root now = .error f ↔ s.defaultDialect = .error f :=
  Layout.map_eq_error

theorem ofSettings_eq_ok {p : Project} : Project.ofSettings s root now = .ok p ↔ ∃ dialect, s.defaultDialect = .ok dialect
    ∧ p = ⟨s.layout root, dialect, ⟨(s.layout root).intentsFolder, s.journaling⟩, now⟩ := by
  rw [Project.ofSettings]
  cases s.defaultDialect with
  | error f => simp [bind, Except.bind]
  | ok dialect => simp [bind, Except.bind, pure, Except.pure, eq_comm]

theorem on_open_error : (Project.open home root now).on d = (.error f, d') ↔ d' = d
    ∧ ((load home root).on d = (.error f, d) ∨ ∃ s, (load home root).on d = (.ok s, d) ∧ s.defaultDialect = .error f) := by
  rw [Project.open, on_bind_eq_error]
  simp only [on_ofExcept, Prod.mk.injEq, ofSettings_eq_error]
  constructor
  · rintro (hload | ⟨s, d₁, hload, hdialect, rfl⟩)
    · rcases on_load_error.mp hload with ⟨rfl, -⟩
      exact ⟨rfl, Or.inl hload⟩
    · rcases on_load.mp hload with ⟨rfl, -⟩
      exact ⟨rfl, Or.inr ⟨s, hload, hdialect⟩⟩
  · rintro ⟨rfl, hload | ⟨s, hload, hdialect⟩⟩
    · exact Or.inl hload
    · exact Or.inr ⟨s, d', hload, hdialect, rfl⟩

theorem on_open_ok {p : Project} : (Project.open home root now).on d = (.ok p, d') ↔ d' = d
    ∧ ∃ s dialect, (load home root).on d = (.ok s, d) ∧ s.defaultDialect = .ok dialect
      ∧ p = ⟨s.layout root, dialect, ⟨(s.layout root).intentsFolder, s.journaling⟩, now⟩ := by
  rw [Project.open, on_bind_eq_ok]
  simp only [on_ofExcept, Prod.mk.injEq, ofSettings_eq_ok]
  constructor
  · rintro ⟨s, d₁, hload, ⟨dialect, hdialect, rfl⟩, rfl⟩
    rcases on_load.mp hload with ⟨rfl, -⟩
    exact ⟨rfl, s, dialect, hload, hdialect, rfl⟩
  · rintro ⟨rfl, s, dialect, hload, hdialect, rfl⟩
    exact ⟨s, d', hload, ⟨dialect, hdialect, rfl⟩, rfl⟩

/-- A text has a surrogate that stands alone and that a file system may take for a byte. -/
def SpellsByte (t : Text) : Prop := ∃ k < 0x80, Text.occurs (keptUnit (0xDC80 + k)) t = true

instance : DecidablePred SpellsByte := fun t =>
  inferInstanceAs (Decidable (∃ k < 0x80, Text.occurs (keptUnit (0xDC80 + k)) t = true))

/-- Whatever fails because of the settings says so: opening the project, going to a place in
    it, and using the path of a place that every project has. -/
structure Told (home root : Path) (now : Timestamp) (d : Disk) : Prop where
  opening : ∀ f d', (Project.open home root now).on d = (.error f, d') → f.category = some .config
  paths : ∀ p d' place f, (Project.open home root now).on d = (.ok p, d') → p.layout.path place = .error f →
    f.category = some .config
  uses : ∀ p d', (Project.open home root now).on d = (.ok p, d') → ∀ place ∈ Layout.Place.fixed, ∀ q e,
    p.layout.path place = .ok q → ¬ SpellsByte q.text → d.find q = .error e → e = .missing ∨ e = .notDirectory

/-- The settings that name folders. -/
def folderKeys : List Text := ["project.src_dir", "project.packages_dir", "project.roles_dir"]

/-- The settings files can be read, as far as they are; and settings that can be read and
    have a default dialect name the source folders, by names that make paths that can be
    used. -/
structure Sound (home root : Path) (d : Disk) : Prop where
  user : Legible d (Layout.settingsFileOf home)
  own : ∀ fields, Layer d (Layout.settingsFileOf home) fields → Legible d (Layout.settingsFileOf root)
  named : ∀ s dialect, (load home root).on d = (.ok s, d) → s.defaultDialect = .ok dialect →
    ∀ key ∈ folderKeys, ¬ s.Misnames key
  taken : ∀ s dialect, (load home root).on d = (.ok s, d) → s.defaultDialect = .ok dialect →
    ∀ place ∈ Layout.Place.fixed, ∀ q, (s.layout root).path place = .ok q → ¬ SpellsByte q.text → d.Takes q

/-- A setting names a folder on the way to some place if it names a folder at all. -/
theorem exists_place_iff : (∃ place : Layout.Place, key ∈ place.keys) ↔ key ∈ folderKeys := by
  constructor
  · rintro ⟨place, hkey⟩
    have hsub : place.keys ⊆ folderKeys := by
      rw [Layout.Place.keys]
      split <;> decide
    exact hsub hkey
  · intro hkey
    simp only [folderKeys, List.mem_cons, List.not_mem_nil, or_false] at hkey
    rcases hkey with rfl | rfl | rfl
    · exact ⟨.source, by decide⟩
    · exact ⟨.packages, by decide⟩
    · exact ⟨.roles, by decide⟩

/-- It is on the disks with sound settings that whatever fails because of them says so. -/
theorem told_iff_sound : Told home root now d ↔ Sound home root d := by
  constructor
  · rintro ⟨hopening, hpaths, huses⟩
    -- Each way in which settings are not sound is met by opening, by going to a place or by using it.
    refine ⟨legible_iff.mpr fun f hf => ?_, fun user huser => legible_iff.mpr fun f hf => ?_,
      fun s dialect hload hdialect key hkey hmis => ?_, fun s dialect hload hdialect place hplace q hq hbytes => ?_⟩
    · exact hopening f d (on_open_error.mpr ⟨rfl, Or.inl (on_load_error.mpr ⟨rfl, Or.inl hf⟩)⟩)
    · exact hopening f d (on_open_error.mpr ⟨rfl, Or.inl (on_load_error.mpr ⟨rfl, Or.inr ⟨⟨user, huser⟩, hf⟩⟩)⟩)
    · rcases exists_place_iff.mpr hkey with ⟨place, hplace⟩
      have hcategory := hpaths _ d place .wrongType (on_open_ok.mpr ⟨rfl, s, dialect, hload, hdialect, rfl⟩)
        (path_eq_error.mpr ⟨rfl, key, hplace, hmis⟩)
      exact absurd hcategory (by simp [Fault.category])
    · exact Disk.takes_iff.mpr fun e he =>
        huses _ d (on_open_ok.mpr ⟨rfl, s, dialect, hload, hdialect, rfl⟩) place hplace q e hq hbytes he
  · rintro ⟨huser, hown, hnamed, htaken⟩
    refine ⟨fun f d' hopen => ?_, fun p d' place f hopen hpath => ?_,
      fun p d' hopen place hplace q e hq hbytes he => ?_⟩
    · rcases on_open_error.mp hopen with ⟨-, hload | ⟨s, -, hdialect⟩⟩
      · rcases on_load_error.mp hload with ⟨-, hrefused | ⟨⟨user, hlayer⟩, hrefused⟩⟩
        · exact legible_iff.mp huser f hrefused
        · exact legible_iff.mp (hown user hlayer) f hrefused
      · exact category_of_defaultDialect hdialect
    · rcases on_open_ok.mp hopen with ⟨-, s, dialect, hload, hdialect, rfl⟩
      rcases path_eq_error.mp hpath with ⟨-, key, hkey, hmis⟩
      exact absurd hmis (hnamed s dialect hload hdialect key (exists_place_iff.mp ⟨place, hkey⟩))
    · rcases on_open_ok.mp hopen with ⟨-, s, dialect, hload, hdialect, rfl⟩
      exact Disk.takes_iff.mp (htaken s dialect hload hdialect place hplace q hq hbytes) e he

/-- A settings file gives a layer, or it is refused. -/
theorem exists_layer_iff : (∃ fields, Layer d file fields) ↔ ∀ f, ¬ Refused d file f := by
  constructor
  · rintro ⟨fields, hlayer⟩ f hrefused
    have hok : (defaults.overlayFile file).on d = (.ok (mergeFields defaults fields), d) :=
      on_overlayFile.mpr ⟨rfl, fields, hlayer, rfl⟩
    rw [on_overlayFile_error.mpr ⟨rfl, hrefused⟩] at hok
    exact absurd hok (by simp)
  · intro h
    cases hrun : (defaults.overlayFile file).on d with
    | mk r d' =>
        cases r with
        | error f => exact absurd (on_overlayFile_error.mp hrun).2 (h f)
        | ok s =>
            rcases on_overlayFile.mp hrun with ⟨-, fields, hlayer, -⟩
            exact ⟨fields, hlayer⟩

/-- A settings file that gives a layer is refused in no way at all. -/
theorem Layer.legible (h : Layer d file fields) : Legible d file :=
  legible_iff.mpr fun f hf => absurd hf (exists_layer_iff.mp ⟨fields, h⟩ f)

end Settings

namespace Layers

open Settings

/-- A moment. -/
def dawn : Timestamp := ⟨2026, 1, 1, 0, 0, 0, 0, true⟩

/-- The project that settings describe which leave the default dialect as it is. -/
def opened (s : Settings) : Project := ⟨s.layout root, .marker, ⟨(s.layout root).intentsFolder, s.journaling⟩, dawn⟩

theorem open_opened {s : Settings} {d : Disk} (hload : (load home root).on d = (.ok s, d))
    (hdialect : s.defaultDialect = .ok .marker) : (Project.open home root dawn).on d = (.ok (opened s), d) :=
  on_open_ok.mpr ⟨rfl, s, .marker, hload, hdialect, rfl⟩

theorem load_disk : (load home root).on disk = (.ok merged, disk) :=
  on_load.mpr ⟨rfl, user, own, layer_user, layer_own, rfl⟩

theorem dialect_merged : merged.defaultDialect = .ok .marker := by decide

theorem sound_disk : Sound home root disk := by
  have hmerged : ∀ s, (load home root).on disk = (.ok s, disk) → s = merged := fun s hs =>
    Except.ok.inj (Prod.mk.inj (hs.symm.trans load_disk)).1
  refine ⟨layer_user.legible, fun _ _ => layer_own.legible, fun s dialect hload _ => ?_, fun s dialect hload _ => ?_⟩
  · rw [hmerged s hload]
    decide
  · rw [hmerged s hload]
    intro place hplace q hq _
    have htaken : ∀ place ∈ Layout.Place.fixed, ∀ q ∈ ((merged.layout root).path place).toOption, disk.Takes q := by
      decide +kernel
    exact htaken place hplace q (by rw [hq]; rfl)

/-- A disk with nothing but a settings file of the project. -/
def lone (c : Content) : Disk := .fresh ⟨[(["proj".toList], .folder), (["proj".toList, ".aviators".toList], .folder),
  (["proj".toList, ".aviators".toList, "config.json".toList], .file c)]⟩ []

/-- The document of settings with a value for the name of the source folder. -/
def naming (v : Json) : Text := (Json.record [("project".toList, .record [("src_dir".toList, v)])]).document

/-- Those settings over the defaults. -/
def named (v : Json) : Settings := mergeFields defaults [("project".toList, .record [("src_dir".toList, v)])]

theorem load_naming {v : Json} (hkept : Kept 983 v) (hendings : (naming v).unifyEndings = naming v) :
    (load home root).on (lone (.text (naming v))) = (.ok (named v), lone (.text (naming v))) := by
  have hread : Json.read rules (naming v) = .ok (.record [("project".toList, .record [("src_dir".toList, v)])]) :=
    read_document_of_kept (by simp [Kept, KeptFields, hkept])
  have hlayer : Layer (lone (.text (naming v))) (Layout.settingsFileOf root)
      [("project".toList, .record [("src_dir".toList, v)])] := by
    refine Or.inr ⟨rfl, naming v, ?_, hread⟩
    rw [on_readText]
    exact congrArg (fun t => (Except.ok t, lone (.text (naming v)))) hendings
  exact on_load.mpr ⟨rfl, [], _, Or.inl ⟨rfl, rfl⟩, hlayer, rfl⟩

/-- The document of settings whose source folder has a name with a surrogate that stands alone. -/
def torn : Text := "\x7b\"project\": \x7b\"src_dir\": \"a\\ud800\"\x7d\x7d".toList

/-- Whether settings hold nothing but the name of the source folder. -/
def isNaming (t : Text) : Json → Bool
  | .record [(part, .record [(key, .text name)])] =>
    part = "project".toList && key = "src_dir".toList && name = t
  | _ => false

theorem eq_of_isNaming {t : Text} {v : Json} (h : isNaming t v = true) :
    v = .record [("project".toList, .record [("src_dir".toList, .text t)])] := by
  unfold isNaming at h
  split at h
  · simp only [Bool.and_eq_true, decide_eq_true_eq] at h
    rcases h with ⟨⟨rfl, rfl⟩, rfl⟩
    rfl
  · exact absurd h (by simp)

theorem read_torn : Json.read rules torn
    = .ok (.record [("project".toList, .record [("src_dir".toList, .text ('a' :: keptUnit 0xD800))])]) := by
  have htest : (Json.read rules torn).toOption.any (isNaming ('a' :: keptUnit 0xD800)) = true := by decide +kernel
  cases hread : Json.read rules torn with
  | error f =>
      rw [hread] at htest
      exact absurd htest (by simp [Except.toOption])
  | ok v =>
      rw [hread] at htest
      rw [eq_of_isNaming htest]

theorem load_torn : (load home root).on (lone (.text torn)) = (.ok (named (.text ('a' :: keptUnit 0xD800))), lone (.text torn)) := by
  have hlayer : Layer (lone (.text torn)) (Layout.settingsFileOf root)
      [("project".toList, .record [("src_dir".toList, .text ('a' :: keptUnit 0xD800))])] := by
    refine Or.inr ⟨rfl, torn, ?_, read_torn⟩
    rw [on_readText]
    exact congrArg (fun t => (Except.ok t, lone (.text torn))) (by decide +kernel)
  exact on_load.mpr ⟨rfl, [], _, Or.inl ⟨rfl, rfl⟩, hlayer, rfl⟩

end Layers

end RouteScaffold

import Mathlib.Algebra.GroupWithZero.Nat
import RouteScaffold.Proofs.Disk.Exchange
import RouteScaffold.Proofs.Journal.Footprint

/-!
# What a Saved Intent Tells

File systems refuse paths that are too long, and a command that is refused half-way
would leave half an artifact behind. It is the journal that keeps this from
happening. The document of an intent has a long name, and the file that is exchanged
for it an even longer one, so once an intent has been saved, there is room below the
root for everything that is no longer than that.

## Main definitions

* `Path.room`: How much room names take in a path.
* `Disk.Roomy`: There is room for the paths of an intent.
* `Disk.Stands`: A root that is a folder, with a way to it that does not lead through
  what lies below.
* `Disk.Within`: What has happened between two disks lies in certain places.

## Theorems

* `walkable_of_room`: A path that takes no more room can be walked as well.
* `roomy_of_save`: There is room once an intent has been saved.
* `replaceable_of_roomy`, `on_save_of_roomy`: Where there is room, files with short
  names can be exchanged, and intents can be saved.
-/

namespace RouteScaffold

open Job Disk RouteScaffold.Tree Naming Location

/-! ### Room -/

namespace Path

/-- How many bytes names take in a path, each with the slash before it. -/
def room (names : List Text) : Nat := (names.map fun n => Utf8.size n + 1).sum

theorem room_append (xs ys : List Text) : room (xs ++ ys) = room xs + room ys := by
  rw [room, List.map_append, List.sum_append]
  rfl

theorem size_join {names : List Text} (h : names ≠ []) :
    Utf8.size (Text.join ['/'] names) + 1 = room names := by
  induction names with
  | nil => exact absurd rfl h
  | cons n names ih =>
      cases names with
      | nil => rfl
      | cons m names =>
          have hrest := ih (by simp)
          have hslash : ∀ t : Text, Utf8.size ('/' :: t) = 1 + Utf8.size t := fun t =>
            Utf8.size_append ['/'] t
          rw [Text.join_cons, Utf8.size_append, hslash, show n :: m :: names = [n] ++ (m :: names) from rfl,
            room_append, ← hrest]
          change _ = Utf8.size n + 1 + 0 + _
          omega

/-- The size of a path that says something. -/
theorem size_text (p : Path) (h : ∃ n ∈ p.names, n ≠ []) :
    Utf8.size p.text + 1 = Utf8.size p.anchor.text + room p.names := by
  rcases h with ⟨n, hn, hne⟩
  rcases List.exists_mem_of_ne_nil n hne with ⟨c, hc⟩
  have hmem : c ∈ p.anchor.text ++ Text.join ['/'] p.names :=
    List.mem_append_right _ (mem_join_of_mem hn hc)
  have htext : p.text = p.anchor.text ++ Text.join ['/'] p.names := by
    rw [text]
    split
    · next hnil =>
        rw [hnil] at hmem
        exact absurd hmem (by simp)
    · rfl
  rw [htext, Utf8.size_append, Nat.add_assoc, size_join (List.ne_nil_of_mem hn)]

end Path

namespace Disk

theorem unwalkable?_eq_none {p : Path} :
    unwalkable? p = none ↔ (∀ n ∈ p.names, '\x00' ∉ n) ∧ Utf8.size p.text < pathLimit := by
  have hnull : '\x00' ∉ p.text ↔ ∀ n ∈ p.names, '\x00' ∉ n := by
    rw [null_mem_text]
    simp
  rw [unwalkable?, ← hnull]
  split
  · next h => simp [h]
  · next h =>
      split
      · next hsize => simp [h, Nat.not_lt.mpr hsize]
      · next hsize => simp [h, Nat.not_le.mp hsize]

/-- A path that takes no more room than one that can be walked can be walked as
    well. -/
theorem walkable_of_room {a : Path.Anchor} {ns xs ys : List Text} (h : unwalkable? ⟨a, ns ++ xs⟩ = none)
    (hxs : ∃ n ∈ xs, n ≠ []) (hys : ∃ n ∈ ys, n ≠ []) (hnull : ∀ n ∈ ys, '\x00' ∉ n)
    (hroom : Path.room ys ≤ Path.room xs) : unwalkable? ⟨a, ns ++ ys⟩ = none := by
  have hsome : ∀ {zs : List Text}, (∃ n ∈ zs, n ≠ []) → ∃ n ∈ ns ++ zs, n ≠ [] := fun ⟨n, hn, hne⟩ =>
    ⟨n, List.mem_append_right _ hn, hne⟩
  rcases unwalkable?_eq_none.mp h with ⟨hnames, hsize⟩
  have hlong := Path.size_text ⟨a, ns ++ xs⟩ (hsome hxs)
  have hshort := Path.size_text ⟨a, ns ++ ys⟩ (hsome hys)
  rw [Path.room_append] at hlong hshort
  refine unwalkable?_eq_none.mpr ⟨fun n hn => ?_, by dsimp only at *; omega⟩
  rcases List.mem_append.mp hn with hn | hn
  · exact hnames n (List.mem_append_left _ hn)
  · exact hnull n hn

end Disk

namespace Intent

theorem length_hex (width n : Nat) : width ≤ (Utf8.hex width n).length := by
  rw [Utf8.hex, List.length_append, List.length_replicate]
  omega

theorem hexDigit_size : ∀ n < 16, n.digitChar.utf8Size = 1 := by decide

theorem toDigits_size (n : Nat) : ∀ c ∈ Nat.toDigits 16 n, c.utf8Size = 1 := by
  induction n using Nat.strongRecOn with
  | ind n ih =>
      intro c hc
      rw [Nat.toDigits_eq_if (by decide)] at hc
      split at hc
      · next hlt =>
          rw [List.mem_singleton.mp hc]
          exact hexDigit_size n hlt
      · rcases List.mem_append.mp hc with hc | hc
        · exact ih (n / 16) (by omega) c hc
        · rw [List.mem_singleton.mp hc]
          exact hexDigit_size _ (Nat.mod_lt _ (by decide))

/-- All identifiers have the same size. -/
theorem size_identifier (verb : Text) (args : List Text) (mode : Mode) (now : Timestamp) :
    Utf8.size (identifier verb args mode now) = 16 := by
  -- Two words of the digest are long enough.
  have hlong : ∀ m, 16 ≤ (Digest.sha256 m).length := by
    intro m
    rw [Digest.sha256]
    simp only [List.flatMap_cons, List.length_append]
    have := length_hex 8
    have h₁ := this ((Digest.blocks m).foldl Digest.absorb Digest.initial).a.toNat
    have h₂ := this ((Digest.blocks m).foldl Digest.absorb Digest.initial).b.toNat
    omega
  -- All digits are ASCII, so each is one byte.
  have hsingle : ∀ c ∈ identifier verb args mode now, c.utf8Size = 1 := by
    intro c hc
    rcases List.mem_flatMap.mp (List.mem_of_mem_take hc) with ⟨w, -, hc⟩
    rcases List.mem_append.mp hc with hc | hc
    · rw [List.eq_of_mem_replicate hc]
      decide
    · exact toDigits_size _ c hc
  rw [Utf8.size_eq_length hsingle, identifier, List.length_take]
  have := hlong (asciiBytes (Json.list [.text verb, .ofTexts args, .text mode.name, .text now.text]).line)
  omega

end Intent

/-! ### Roots -/

namespace Disk

/-- What does not change about a root: relative paths are not walked from below it,
    and its own path does not lead to any place below it. -/
structure Ground (here : Location) (root : Path) : Prop where
  named : ∀ n ∈ here, n ≠ ['.', '.'] ∧ '\x00' ∉ n
  off : ∀ zs, zs ≠ [] → here ≠ spot here root ++ zs
  clear : ∀ zs, zs ≠ [] → Clear here root (spot here root ++ zs)

/-- A root that is a folder, in a tree in which everything lies in a folder. -/
structure Stands (d : Disk) (root : Path) : Prop where
  ground : Ground d.here root
  closed : d.tree.Closed
  here : d.tree.get? d.here = some .folder
  found : d.find root = .ok (spot d.here root)
  isFolder : d.tree.get? (spot d.here root) = some .folder

variable {here : Location} {root : Path} {d d' d'' : Disk} {xs ys names : List Text} {S T : Location → Prop}

/-- Where a straight way leads on from a path, if nothing stands in the way. -/
theorem find_straight {base : Location} (hroot : d.find root = .ok base) (hdots : ['.', '.'] ∉ xs)
    (hwalk : unwalkable? (root.below xs) = none) (hsize : ∀ n ∈ xs, Utf8.size n ≤ nameLimit)
    (hfolders : ∀ ns n ms, xs = ns ++ n :: ms → d.tree.get? (base ++ ns) = some .folder) :
    d.find (root.below xs) = .ok (base ++ xs) := by
  rcases find_eq hroot with ⟨-, hroot⟩
  rw [find, hwalk]
  dsimp only
  rw [show (root.below xs).names = root.names ++ xs from rfl, Tree.walk_append,
    show d.origin (root.below xs) = d.origin root from rfl, hroot]
  dsimp only
  refine Tree.walk_eq_ok.mpr ⟨fun s hs => ?_, hsize, (place_of_names hdots).symm⟩
  rcases exists_of_mem_stations hs with ⟨ns, n, ms, heq, rfl⟩
  rw [place_of_names fun hmem => hdots (by rw [heq]; simp [hmem])]
  exact hfolders ns n ms heq

/-- A path can be walked if something below it can. -/
theorem walkable_of_below (h : unwalkable? (root.below xs) = none) : unwalkable? root = none := by
  induction xs using List.reverseRecOn with
  | nil => rwa [Path.below, List.append_nil] at h
  | append_singleton xs n ih =>
      have hparent := walkable_parent h
      rw [Path.parent, Path.below, ← List.append_assoc, List.dropLast_concat] at hparent
      exact ih hparent

/-- A path is found if something below it is. -/
theorem find_of_below (h : d.find (root.below xs) = .ok loc) : d.find root = .ok (spot d.here root) := by
  rcases find_eq h with ⟨hwalkable, hwalk⟩
  rw [show (root.below xs).names = root.names ++ xs from rfl, Tree.walk_append,
    show d.origin (root.below xs) = d.origin root from rfl] at hwalk
  have hfind : d.find root = d.tree.walk (d.origin root) root.names := by
    rw [find, walkable_of_below hwalkable]
  cases hroot : d.tree.walk (d.origin root) root.names with
  | error f =>
      rw [hroot] at hwalk
      exact absurd hwalk (by simp)
  | ok l =>
      have hl : d.find root = .ok l := hfind.trans hroot
      rw [hl, spot_of_find hl]

/-- A place that is spelled out is found, if everything before it is a folder. -/
theorem find_rooted {l : Location} (hdots : ['.', '.'] ∉ l) (hwalk : unwalkable? ⟨.root, l⟩ = none)
    (hsize : ∀ n ∈ l, Utf8.size n ≤ nameLimit)
    (hfolders : ∀ ns n ms, l = ns ++ n :: ms → d.tree.get? ns = some .folder) :
    d.find ⟨.root, l⟩ = .ok l := by
  rw [find, hwalk]
  refine Tree.walk_eq_ok.mpr ⟨fun s hs => ?_, hsize, by rw [place_of_names hdots]; rfl⟩
  rcases exists_of_mem_stations hs with ⟨ns, n, ms, heq, rfl⟩
  rw [place_of_names fun hmem => hdots (by dsimp only at heq; rw [heq]; simp [hmem])]
  exact hfolders ns n ms heq

/-- A root that is a folder, with folders all the way above it. -/
structure Firm (d : Disk) (root : Path) : Prop where
  named : ∀ n ∈ d.here, n ≠ ['.', '.'] ∧ '\x00' ∉ n
  found : d.find root = .ok (spot d.here root)
  above : ∀ ys, ys <+: spot d.here root → d.tree.get? ys = some .folder

namespace Firm

theorem isFolder (h : d.Firm root) : d.tree.get? (spot d.here root) = some .folder :=
  h.above _ (List.prefix_refl _)

theorem up_not_mem_spot (h : d.Firm root) : ['.', '.'] ∉ spot d.here root := by
  intro hmem
  rw [spot] at hmem
  rcases mem_place hmem with hmem | ⟨-, hne⟩
  · split at hmem
    · exact (h.named _ hmem).1 rfl
    · exact absurd hmem (by simp)
  · exact hne rfl

/-- What lies below a root, reached without the path of the root. -/
theorem find_absolute (h : d.Firm root) (hdots : ['.', '.'] ∉ xs)
    (hwalk : unwalkable? ⟨.root, spot d.here root ++ xs⟩ = none)
    (hsize : ∀ n ∈ spot d.here root ++ xs, Utf8.size n ≤ nameLimit)
    (hfolders : ∀ ns n ms, xs = ns ++ n :: ms → d.tree.get? (spot d.here root ++ ns) = some .folder) :
    d.find ⟨.root, spot d.here root ++ xs⟩ = .ok (spot d.here root ++ xs) := by
  have hnames : ['.', '.'] ∉ spot d.here root ++ xs := by
    rw [List.mem_append, not_or]
    exact ⟨h.up_not_mem_spot, hdots⟩
  refine find_rooted hnames hwalk hsize fun ns n ms heq => ?_
  rcases List.append_eq_append_iff.mp heq with ⟨zs, rfl, hxs⟩ | ⟨zs, hroot, hxs⟩
  · exact hfolders zs n ms hxs
  · exact h.above ns ⟨zs, hroot.symm⟩

end Firm

/-- A path that goes on straight down does not lead to other places. -/
theorem Ground.clear_below (h : Ground here root) (hdots : ['.', '.'] ∉ xs) (hys : ys ≠ [])
    (hpre : ¬ ys <+: xs) : Clear here (root.below xs) (spot here root ++ ys) := by
  refine Disk.clear_below hdots (h.clear ys hys) fun zs hzs _ heq => hpre ?_
  rw [← List.append_cancel_left heq]
  exact hzs

/-- The way to what lies below a root does not lead below that. -/
theorem Ground.way (h : Ground here root) (hdots : ['.', '.'] ∉ xs) (hne : xs ≠ []) :
    ∀ s ∈ way here (root.below xs), spot here root ++ xs <+: s → s = spot here root ++ xs := by
  intro s hs hpre
  rw [way_below, List.mem_append] at hs
  rcases hs with hs | hs
  · rcases exists_of_mem_stations hs with ⟨ns, n, ms, hnames, hplace⟩
    rcases hpre with ⟨ws, rfl⟩
    rw [List.append_assoc] at hplace ⊢
    exact absurd hplace.symm (h.clear (xs ++ ws) (by simp [hne]) ns ⟨n :: ms, hnames.symm⟩)
  · -- Behind the root, the way is the beginning of what leads down.
    rcases exists_of_mem_stations hs with ⟨ns, n, ms, rfl, rfl⟩
    rw [place_of_names fun hmem => hdots (by simp [hmem])] at hpre
    have := hpre.length_le
    simp only [List.length_append, List.length_cons] at this
    omega

namespace Stands

/-- Where a straight way leads down from a root, if nothing stands in the way. -/
theorem find_below (h : d.Stands root) (hdots : ['.', '.'] ∉ xs) (hwalk : unwalkable? (root.below xs) = none)
    (hsize : ∀ n ∈ xs, Utf8.size n ≤ nameLimit)
    (hfolders : ∀ ns n ms, xs = ns ++ n :: ms → d.tree.get? (spot d.here root ++ ns) = some .folder) :
    d.find (root.below xs) = .ok (spot d.here root ++ xs) :=
  find_straight h.found hdots hwalk hsize hfolders

theorem firm (h : d.Stands root) : d.Firm root := by
  refine ⟨h.ground.named, h.found, fun ys hys => ?_⟩
  by_cases hsame : ys = spot d.here root
  · rw [hsame]
    exact h.isFolder
  · exact h.closed.get?_of_prefix (by rw [h.isFolder]; simp) hys hsame

end Stands

/-! ### What happens below a root -/

/-- The way down from a root to the folder of intents. -/
def intentsWay : List Text := [".aviators".toList, "intents".toList]

/-- The places below the folder of intents of a root. -/
def Documents (here : Location) (root : Path) (l : Location) : Prop :=
  ∃ name names, l = spot here root ++ (intentsWay ++ name :: names)

/-- What has happened between two disks: in some places, anything; elsewhere, folders
    have been made where there was nothing. No folder has been made where a document
    may be. -/
structure Within (root : Path) (S : Location → Prop) (d d' : Disk) : Prop where
  here : d'.here = d.here
  keeps : ∀ l, ¬S l → d.tree.get? l ≠ none → d'.tree.get? l = d.tree.get? l
  files : ∀ l, ¬S l → d.tree.SameFile d'.tree l
  documents : ∀ l, Documents d.here root l → d.tree.get? l ≠ some .folder →
    d'.tree.get? l ≠ some .folder
  closed : d.tree.Closed → d.tree.get? d.here = some .folder → d'.tree.Closed

namespace Within

theorem refl (root : Path) (S : Location → Prop) (d : Disk) : Within root S d d :=
  ⟨rfl, fun _ _ _ => rfl, fun _ _ => SameFile.refl _ _, fun _ _ h => h, fun h _ => h⟩

theorem mono (h : Within root S d d') (himp : ∀ l, S l → T l) : Within root T d d' :=
  ⟨h.here, fun l hl => h.keeps l fun hS => hl (himp l hS), fun l hl => h.files l fun hS => hl (himp l hS),
    h.documents, h.closed⟩

/-- What is kept of a folder that is no place of the others. -/
theorem keeps_folder (h : Within root S d d') {l : Location} (hl : ¬S l)
    (hfolder : d.tree.get? l = some .folder) : d'.tree.get? l = some .folder := by
  rw [h.keeps l hl (by rw [hfolder]; simp), hfolder]

theorem trans (h : Within root S d d') (h' : Within root S d' d'') (hhere : ¬S d.here) :
    Within root S d d'' := by
  refine ⟨h'.here.trans h.here, fun l hl hne => ?_, fun l hl => (h.files l hl).trans (h'.files l hl),
    fun l hl hne => ?_, fun hclosed hfolder => ?_⟩
  · have hkept := h.keeps l hl hne
    rw [h'.keeps l hl (by rw [hkept]; exact hne), hkept]
  · exact h'.documents l (by rw [h.here]; exact hl) (h.documents l hl hne)
  · refine h'.closed (h.closed hclosed hfolder) ?_
    rw [h.here]
    exact h.keeps_folder hhere hfolder

/-- What only makes things, and files in some places only, has happened there. -/
theorem of_does {α : Type} {j : Job α} {r : Except Fault α} (hrun : j.on d = (r, d'))
    (hfills : Does d.here (Fills d.here S) j)
    (hdocs : ∀ l, Documents d.here root l → Does d.here (MakesNoFolder l) j) : Within root S d d' := by
  rcases hfills d rfl with ⟨ws, hws, hruns⟩
  rw [hrun] at hws
  dsimp only at hws
  refine ⟨by rw [hws, after_here], fun l hl hne => ?_, fun l hl => ?_, fun l hl hne => ?_,
    fun hclosed hhere => ?_⟩
  · have hsame := hruns.sameFile hl
    rw [hws, after_tree]
    cases he : d.tree.get? l with
    -- What was there is a folder, which stays one, or a file that is none of those written.
    | none => exact absurd he hne
    | some e =>
        cases e with
        | folder => exact hruns.makes_of_fills.keeps_folder he
        | file c => exact (hsame c).mpr he
  · rw [hws, after_tree]
    exact hruns.sameFile hl
  · rcases hdocs l hl d rfl with ⟨vs, hvs, hruns'⟩
    rw [hrun] at hvs
    dsimp only at hvs
    rw [hvs, after_tree]
    exact hruns'.no_folder hne
  · rw [hws, after_tree]
    exact (hruns.closed hclosed hhere).1

/-- What has been erased from some place on, the deepest first. -/
theorem of_erasures (hclosed : d.tree.Closed) (loc : Location) :
    Within root (loc <+: ·) d (d.after (erasures d.tree loc)) := by
  rcases erasures_leaves hclosed loc with ⟨ls, hls, hbelow, -, hleaves⟩
  rw [hls]
  have hget : ∀ l, ¬ loc <+: l → (d.after (ls.map .erase)).tree.get? l = d.tree.get? l := by
    intro l hl
    rw [after_tree, get?_applyAll_erase, if_neg fun hand => hl (hbelow l hand.1)]
  refine ⟨after_here _ _, fun l hl _ => hget l hl, fun l hl => sameFile_of_eq (hget l hl),
    fun l _ hne => ?_, fun _ _ => ?_⟩
  · rw [after_tree, get?_applyAll_erase]
    split
    · simp
    · exact hne
  · -- What is erased has nothing in it by then.
    have hsteps : ∀ us vs, ls = us ++ vs → (d.tree.applyAll (us.map .erase)).Closed := by
      intro us
      induction us using List.reverseRecOn with
      | nil => exact fun _ _ => hclosed
      | append_singleton us l ih =>
          intro vs hsplit
          rw [List.append_assoc, List.singleton_append] at hsplit
          rw [List.map_append, List.map_singleton, applyAll, List.foldl_append]
          exact (ih _ hsplit).erase (hleaves us l vs hsplit)
    rw [after_tree]
    exact hsteps ls [] (List.append_nil ls).symm

/-- Nothing is left of what has been erased. -/
theorem gone_of_erasures (hclosed : d.tree.Closed) {loc : Location} (hne : loc ≠ []) :
    ∀ l, loc <+: l → (d.after (erasures d.tree loc)).tree.get? l = none := by
  intro l hl
  rcases erasures_leaves hclosed loc with ⟨ls, hls, -, hall, -⟩
  have hroot : l ≠ [] := fun hnil => hne (List.prefix_nil.mp (hnil ▸ hl))
  rw [hls, after_tree, get?_applyAll_erase]
  split
  · rfl
  · next hnot =>
      by_contra hthere
      exact hnot ⟨hall l hl hthere, hroot⟩

/-- A file has been written that was there. -/
theorem of_put {loc : Location} {c : Content} (hfile : d.tree.get? loc = some (.file c)) (c' : Content) :
    Within root (· = loc) d (d.made (.put loc (.file c'))) := by
  have hadmits : d.tree.Admits (.put loc (.file c')) := by
    rw [Admits, hfile]
    simp
  have hget : ∀ l, l ≠ loc → (d.made (.put loc (.file c'))).tree.get? l = d.tree.get? l := fun l hl =>
    get?_apply_of_ne hadmits hl
  refine ⟨rfl, fun l hl _ => hget l hl, fun l hl => sameFile_of_eq (hget l hl), fun l _ hne => ?_,
    fun hclosed _ => hclosed.put hadmits (hclosed loc (by rw [hfile]; simp))⟩
  -- At its place the file is a file again, elsewhere nothing changes.
  by_cases hl : l = loc
  · subst hl
    rw [show (d.made (.put l (.file c'))).tree.get? l = some (.file c') from
      (get?_apply_put hadmits l).trans (if_pos rfl)]
    simp
  · rw [hget l hl]
    exact hne

/-- Folders have been made, and perhaps a file behind them. -/
theorem of_newFile {p : Path} {t : Text} {r : Except Fault Unit}
    (hclear : ∀ l, Documents d.here root l → Clear d.here p.parent l) (hrun : (newFile p t).on d = (r, d')) :
    (∃ f, r = .error f) ∧ Within root (fun _ => False) d d'
      ∨ r = .ok () ∧ Within root (· = spot d.here p) d d'
        ∧ d'.tree.get? (spot d.here p) = some (.file (.text t)) ∧ d'.find p = .ok (spot d.here p) := by
  cases r with
  -- The file was missing, and has been written.
  | ok u =>
      have hin : Within root (· = spot d.here p) d d' := of_does hrun (fills_newFile fun _ => rfl)
        fun l hl => makesNoFolder_newFile (hclear l hl)
      refine Or.inr ⟨rfl, hin, (Journal.newFile_ok hrun).2, ?_⟩
      rcases on_bind_eq_ok.mp hrun with ⟨there, d₁, hthere, hrest⟩
      rw [on_refuse] at hrest
      split at hrest
      · exact absurd hrest (by simp)
      · rcases on_bind_eq_ok.mp hrest with ⟨u, d₂, -, hwrite⟩
        rcases on_bind_eq_ok.mp hwrite with ⟨loc, d₃, hask, hput⟩
        rw [on_ask] at hask
        split at hask
        · next a hwritable =>
            rw [Prod.mk.injEq, Except.ok.injEq] at hask
            rcases hask with ⟨rfl, rfl⟩
            rw [on_write, Prod.mk.injEq] at hput
            have hfind := (writable_eq hwritable).1
            have hfind' : d'.find p = .ok a := by
              rw [← hput.2]
              exact @find_after _ _ _ [.put a (.file (.text t))] hfind
                (.singleton ⟨admits_writable hwritable, _, _, rfl⟩)
            rw [hfind', ← hin.here, ← spot_of_find hfind']
        · exact absurd hask (by simp)
  | error f =>
      refine Or.inl ⟨⟨f, rfl⟩, ?_⟩
      -- Looking for it may fail, it may be there, its folders may be refused, and at last the file.
      rcases on_bind_eq_error.mp hrun with hlook | ⟨there, d₁, hthere, hrest⟩
      · rw [show d' = d by have := looks_isThere p d; rw [hlook] at this; exact this]
        exact refl _ _ _
      · have hd₁ := (looks_isThere p).ok hthere
        subst hd₁
        rw [on_refuse] at hrest
        split at hrest
        · rw [(Prod.mk.inj hrest).2.symm]
          exact refl _ _ _
        · have hfolders : ∀ {r : Except Fault Unit} {e : Disk}, (folders p.parent).on d₁ = (r, e) →
              Within root (fun _ => False) d₁ e := fun h =>
            of_does h (fills_folders _) fun l hl => makesNoFolder_folders (hclear l hl)
          rcases on_bind_eq_error.mp hrest with hfail | ⟨u, d₂, hmade, hwrite⟩
          · exact hfolders hfail
          · -- A file that cannot be written has not been written.
            have hsame : d' = d₂ := by
              rcases on_bind_eq_error.mp hwrite with hask | ⟨loc, d₃, -, hput⟩
              · have := looks_ask Disk.writable p d₂
                rw [hask] at this
                exact this
              · exact absurd hput (by simp)
            rw [hsame]
            exact hfolders hmade

end Within

/-- A root still stands after something has happened strictly below it. -/
theorem Stands.within (h : d.Stands root) (hin : Within root S d d')
    (hS : ∀ l, S l → ∃ zs, zs ≠ [] ∧ l = spot d.here root ++ zs) : d'.Stands root := by
  -- What is written lies below the root, and is neither the working directory nor the root.
  have hhere : ¬S d.here := fun hl => by
    rcases hS _ hl with ⟨zs, hzs, heq⟩
    exact h.ground.off zs hzs heq
  have hroot : ¬S (spot d.here root) := fun hl => by
    rcases hS _ hl with ⟨zs, hzs, heq⟩
    exact hzs (List.self_eq_append_right.mp heq)
  refine ⟨by rw [hin.here]; exact h.ground, hin.closed h.closed h.here, ?_, ?_, ?_⟩
  · rw [hin.here]
    exact hin.keeps_folder hhere h.here
  · rw [hin.here]
    -- The way to the root does not go below it.
    refine find_of_folders h.found hin.here fun s hs => hin.keeps_folder (fun hl => ?_) (way_of_find h.found s hs)
    rcases hS s hl with ⟨zs, hzs, rfl⟩
    rcases exists_of_mem_stations hs with ⟨ns, n, ms, hnames, hplace⟩
    exact h.ground.clear zs hzs ns ⟨n :: ms, hnames.symm⟩ hplace.symm
  · rw [hin.here]
    exact hin.keeps_folder hroot h.isFolder

/-! ### Room below a root -/

/-- There is room for the paths of an intent: for that of its document, and for that
    of the file that is exchanged for it. -/
structure Roomy (here : Location) (root : Path) : Prop where
  near : ∀ xs, (∃ n ∈ xs, n ≠ []) → (∀ n ∈ xs, '\x00' ∉ n) → Path.room xs ≤ 40 →
    unwalkable? (root.below xs) = none
  absolute : ∀ xs, (∃ n ∈ xs, n ≠ []) → (∀ n ∈ xs, '\x00' ∉ n) → Path.room xs ≤ 54 →
    unwalkable? ⟨.root, spot here root ++ xs⟩ = none
  sizes : ∀ n ∈ spot here root, Utf8.size n ≤ nameLimit

theorem size_le_room {n : Text} (h : n ∈ xs) : Utf8.size n < Path.room xs := by
  rcases List.append_of_mem h with ⟨as, bs, rfl⟩
  rw [Path.room_append, Path.room, Path.room, List.map_cons, List.sum_cons]
  omega

theorem prefix_of_concat {n m : Text} {ns ms : List Text} (h : xs ++ [n] = ns ++ m :: ms) : ns <+: xs := by
  refine List.prefix_of_prefix_length_le ⟨m :: ms, h.symm⟩ (List.prefix_append xs [n]) ?_
  have := congrArg List.length h
  simp only [List.length_append, List.length_cons, List.length_nil] at this
  omega

theorem room_aside (n : Text) : Path.room (xs ++ [asideName n]) = Path.room (xs ++ [n]) + 14 := by
  have hsize : Utf8.size (asideName n) = Utf8.size n + 14 := by
    rw [asideName, ← List.singleton_append, Utf8.size_append, Utf8.size_append]
    have : Utf8.size ['.'] = 1 := by decide
    have : Utf8.size ".exchange.tmp".toList = 13 := by decide
    omega
  rw [Path.room_append, Path.room_append]
  simp only [Path.room, List.map_singleton, List.sum_singleton, hsize]
  omega

theorem Stands.folder_of_prefix (h : d.Stands root)
    (hfolder : d.tree.get? (spot d.here root ++ xs) = some .folder) (hys : ys <+: xs) :
    d.tree.get? (spot d.here root ++ ys) = some .folder := by
  by_cases hsame : ys = xs
  · rw [hsame]
    exact hfolder
  · exact h.closed.get?_of_prefix (by rw [hfolder]; simp) ((List.prefix_append_right_inj _).mpr hys)
      fun heq => hsame (List.append_cancel_left heq)

section Files

variable {n : Text} (h : d.Firm root) (hr : Roomy d.here root) (hdots : ['.', '.'] ∉ xs ++ [n]) (hn : n ≠ [])
  (hnull : ∀ m ∈ xs ++ [n], '\x00' ∉ m) (hroom : Path.room (xs ++ [n]) ≤ 40)
  (hfolders : ∀ ys, ys <+: xs → d.tree.get? (spot d.here root ++ ys) = some .folder)
include h hr hdots hn hnull hroom hfolders

/-- Where there is room, a file with a short name is found. -/
theorem Firm.find_of_roomy : d.find (root.below (xs ++ [n])) = .ok (spot d.here root ++ (xs ++ [n])) := by
  refine find_straight h.found hdots (hr.near _ ⟨n, by simp, hn⟩ hnull hroom) (fun m hm => ?_)
    fun ns m ms heq => hfolders ns (prefix_of_concat heq)
  have := size_le_room hm
  have : 40 ≤ nameLimit := by decide
  omega

/-- Where there is room, a file with a short name can be exchanged. -/
theorem Firm.replaceable_of_roomy (hfree : d.tree.get? (spot d.here root ++ (xs ++ [n])) ≠ some .folder) :
    d.replaceable (root.below (xs ++ [n])) = .ok (spot d.here root ++ (xs ++ [n])) := by
  have hxs : ['.', '.'] ∉ xs := fun hmem => hdots (List.mem_append_left _ hmem)
  have hlast : (root.below (xs ++ [n])).names.getLast? = some n := by
    rw [Path.below, ← List.append_assoc, List.getLast?_concat]
  have hparent : (root.below (xs ++ [n])).parent = root.below xs := by
    simp [Path.parent, Path.below, ← List.append_assoc]
  have haside : d.aside (root.below (xs ++ [n])) = ⟨.root, spot d.here root ++ (xs ++ [asideName n])⟩ := by
    rw [aside_eq fun m hm => (h.named m hm).1, hparent, spot_below _ _ hxs, hlast, List.append_assoc]
    rfl
  have hlong : asideName n ≠ ['.', '.'] := by
    -- The name aside is longer than a pair of dots.
    intro heq
    have := congrArg List.length heq
    rw [asideName, List.length_append] at this
    change n.length + 1 + 13 = 2 at this
    omega
  have hfind : d.find (d.aside (root.below (xs ++ [n]))) = .ok (spot d.here root ++ (xs ++ [asideName n])) := by
    -- It is 14 bytes longer than the name itself, which the bound has room for.
    have hroom' : Path.room (xs ++ [asideName n]) ≤ 54 := by
      rw [room_aside]
      omega
    rw [haside]
    refine h.find_absolute ?_ (hr.absolute _ ⟨asideName n, by simp, by simp [asideName]⟩ (fun m hm => ?_) hroom')
      (fun m hm => ?_) fun ns m ms heq => hfolders ns (prefix_of_concat heq)
    · rw [List.mem_append, List.mem_singleton, not_or]
      exact ⟨hxs, Ne.symm hlong⟩
    · rcases List.mem_append.mp hm with hm | hm
      · exact hnull m (List.mem_append_left _ hm)
      · rw [List.mem_singleton.mp hm, asideName, List.mem_append, List.mem_cons, not_or, not_or]
        exact ⟨⟨by decide, hnull n (by simp)⟩, by decide⟩
    · rcases List.mem_append.mp hm with hm | hm
      · exact hr.sizes m hm
      · have := size_le_room hm
        have : 54 ≤ nameLimit := by decide
        omega
  have hup : n ≠ ['.', '.'] := fun heq => hdots (by simp [heq])
  -- So both names are found, and the one can be put in the place of the other.
  rw [replaceable, hfind, h.find_of_roomy hr hdots hn hnull hroom hfolders]
  dsimp only
  rw [hlast, Option.all_some, if_neg (by simpa using hup), if_neg hfree]

end Files

section Files

variable {n : Text} (h : d.Stands root) (hr : Roomy d.here root) (hdots : ['.', '.'] ∉ xs ++ [n]) (hn : n ≠ [])
  (hnull : ∀ m ∈ xs ++ [n], '\x00' ∉ m) (hroom : Path.room (xs ++ [n]) ≤ 40)
  (hfolder : d.tree.get? (spot d.here root ++ xs) = some .folder)
include h hr hdots hn hnull hroom hfolder

theorem find_of_roomy : d.find (root.below (xs ++ [n])) = .ok (spot d.here root ++ (xs ++ [n])) :=
  h.firm.find_of_roomy hr hdots hn hnull hroom fun _ => h.folder_of_prefix hfolder

theorem replaceable_of_roomy (hfree : d.tree.get? (spot d.here root ++ (xs ++ [n])) ≠ some .folder) :
    d.replaceable (root.below (xs ++ [n])) = .ok (spot d.here root ++ (xs ++ [n])) :=
  h.firm.replaceable_of_roomy hr hdots hn hnull hroom (fun _ => h.folder_of_prefix hfolder) hfree

end Files

end Disk

namespace Job

/-- Folders that are there need not be made. -/
theorem on_foldersFrom_of_found {d : Disk} {p : Path} {loc : Location} (hfind : d.find p = .ok loc)
    (hfolder : d.tree.get? loc = some .folder) (depth : Nat) : (foldersFrom depth p).on d = (.ok (), d) := by
  have hvacant : d.vacant p = .error .alreadyExists := by
    rw [vacant, hfind]
    -- Nothing has to be made, at any depth.
    dsimp only
    rw [hfolder]
    rfl
  have hthere : (isFolder p).on d = (.ok true, d) := by
    rw [on_isFolder, look_eq_some.mpr ⟨loc, hfind, hfolder⟩]
    rfl
  have hone : (folder p).on d = (.ok (), d) := by
    rw [folder, on_get_bind, hvacant]
    dsimp only
    rw [on_bind_ok hthere]
    rfl
  cases depth with
  | zero => exact hone
  | succ depth =>
      rw [foldersFrom, on_get_bind, hvacant]
      exact hone

theorem on_folders_of_found {d : Disk} {p : Path} {loc : Location} (hfind : d.find p = .ok loc)
    (hfolder : d.tree.get? loc = some .folder) : (folders p).on d = (.ok (), d) :=
  on_foldersFrom_of_found hfind hfolder _

end Job

/-! ### Intents -/

/-- What an identifier is like: short, and of tame characters. -/
def Intent.IsIdentifier (id : Text) : Prop := (∀ c ∈ id, isTame c = true) ∧ Utf8.size id = 16

theorem Intent.isIdentifier (verb : Text) (args : List Text) (mode : Mode) (now : Timestamp) :
    IsIdentifier (identifier verb args mode now) :=
  ⟨identifier_char verb args mode now, size_identifier verb args mode now⟩

namespace Journal

variable {j : Journal} {i : Intent} {root : Path} {d d' : Disk} {id : Text}

/-- The names on the way to a document. -/
theorem document_names (h : Intent.IsIdentifier id) : ['.', '.'] ∉ intentsWay ++ [id ++ ".json".toList]
    ∧ (∀ n ∈ intentsWay ++ [id ++ ".json".toList], '\x00' ∉ n)
    ∧ Path.room (intentsWay ++ [id ++ ".json".toList]) = 40 := by
  have hnull : '\x00' ∉ id := not_mem_of_tame h.1 (by decide)
  have hway : ∀ n ∈ intentsWay, n ≠ ['.', '.'] ∧ '\x00' ∉ n := by decide
  refine ⟨?_, ?_, ?_⟩
  · rw [List.mem_append, List.mem_singleton, not_or]
    -- The name of the document is longer than a pair of dots.
    refine ⟨fun hmem => (hway _ hmem).1 rfl, fun heq => ?_⟩
    have := congrArg List.length heq
    rw [List.length_append] at this
    change 2 = id.length + 5 at this
    omega
  · intro n hn
    rcases List.mem_append.mp hn with hn | hn
    · exact (hway n hn).2
    · rw [List.mem_singleton.mp hn, List.mem_append, not_or]
      exact ⟨hnull, by decide⟩
  · have hjson : Utf8.size ".json".toList = 5 := by decide
    have hintents : Path.room intentsWay = 18 := by decide
    rw [Path.room_append, hintents]
    simp only [Path.room, List.map_singleton, List.sum_singleton, Utf8.size_append, h.2, hjson]

theorem file_below (hj : j.Set root) (h : Intent.IsIdentifier id) :
    j.file id = root.below (intentsWay ++ [id ++ ".json".toList]) := file_eq hj h.1

theorem spot_file (hj : j.Set root) (h : Intent.IsIdentifier id) (here : Location) :
    spot here (j.file id) = spot here root ++ (intentsWay ++ [id ++ ".json".toList]) := by
  rw [file_below hj h, spot_below _ _ (document_names h).1]

theorem documents_file (hj : j.Set root) (h : Intent.IsIdentifier id) (here : Location) :
    Documents here root (spot here (j.file id)) := ⟨_, [], spot_file hj h here⟩

/-- Where there is room, and a folder for it, an intent can be saved. -/
theorem on_save_of_roomy (hj : j.Set root) (hkeeps : j.keeps = true) (h : d.Stands root)
    (hr : Roomy d.here root) (hid : Intent.IsIdentifier i.id)
    (hfolder : d.tree.get? (spot d.here root ++ intentsWay) = some .folder)
    (hfree : d.tree.get? (spot d.here (j.file i.id)) ≠ some .folder) :
    (j.save i).on d = (.ok (), d.made (.put (spot d.here (j.file i.id)) (.file (.text i.document)))) := by
  rcases document_names hid with ⟨hdots, hnull, hroom⟩
  rw [spot_file hj hid] at hfree ⊢
  have hfind : d.find j.folder = .ok (spot d.here root ++ intentsWay) := by
    rw [hj]
    have hway : [".aviators".toList] <+: intentsWay := ⟨["intents".toList], rfl⟩
    exact find_of_roomy h hr (by decide) (by decide) (by decide) (by decide) (h.folder_of_prefix hfolder hway)
  rw [save, hkeeps, if_pos rfl, on_bind_ok (on_folders_of_found hfind hfolder), on_replace, file_below hj hid,
    replaceable_of_roomy h hr hdots (by simp) hnull (by omega) hfolder hfree]

/-- Once an intent has been saved, there is room. -/
theorem roomy_of_save (hj : j.Set root) (hkeeps : j.keeps = true) (h : d.Stands root)
    (hid : Intent.IsIdentifier i.id) (hsave : (j.save i).on d = (.ok (), d')) : Roomy d.here root := by
  rcases document_names hid with ⟨hdots, -, hroom⟩
  rw [save, hkeeps, if_pos rfl] at hsave
  rcases on_bind_eq_ok.mp hsave with ⟨u, d₁, hfolders, hreplace⟩
  have hhere : d₁.here = d.here := by
    rcases @makes_folders d.here j.folder d rfl with ⟨ws, hws, -⟩
    rw [hfolders] at hws
    rw [show d₁ = d.after ws from hws, after_here]
  rw [on_replace] at hreplace
  split at hreplace
  · next loc hloc =>
      rcases replaceable_eq hloc with ⟨hfind, -, l, haside⟩
      have hxs : ['.', '.'] ∉ intentsWay := by decide
      -- The name aside is an absolute path, and the document one that is relative to the root; both
      -- were walked to.
      have hown : ∀ zs, ∃ n ∈ intentsWay ++ zs, n ≠ [] := fun zs =>
        ⟨".aviators".toList, List.mem_append_left _ (by decide), by decide⟩
      have hparent : (j.file i.id).parent = root.below intentsWay := by
        rw [file_below hj hid]
        simp [Path.parent, Path.below, ← List.append_assoc]
      have hlast : (j.file i.id).names.getLast? = some (i.id ++ ".json".toList) := by
        rw [file_below hj hid, Path.below, ← List.append_assoc, List.getLast?_concat]
      rw [aside_eq fun m hm => (h.ground.named m (hhere ▸ hm)).1, hparent, spot_below _ _ hxs, hlast, hhere,
        List.append_assoc] at haside
      rcases find_eq haside with ⟨hwalkable, hwalk⟩
      have hnear := (find_eq hfind).1
      rw [file_below hj hid] at hnear
      -- What has less room than these two can be walked to as well.
      refine ⟨fun xs hxs hnull hle => ?_, fun xs hxs hnull hle => ?_, fun n hn => ?_⟩
      · exact walkable_of_room hnear (hown _) hxs hnull (by omega)
      · refine walkable_of_room hwalkable (hown _) hxs hnull ?_
        rw [Option.getD_some, room_aside, hroom]
        omega
      · exact (Tree.walk_eq_ok.mp hwalk).2.1 n (List.mem_append_left _ hn)
  · exact absurd hreplace (by simp)

/-- An intent is saved among the documents. -/
theorem within_save (hj : j.Set root) (h : d.Stands root) (hid : Intent.IsIdentifier i.id)
    {r : Except Fault Unit} (hsave : (j.save i).on d = (r, d')) :
    Within root (Documents d.here root) d d' := by
  refine Within.of_does hsave
    (does_save (fills_folders _) fun t => fills_replace fun _ => documents_file hj hid d.here) fun l hl => ?_
  refine does_save (makesNoFolder_folders ?_) fun t => makesNoFolder_replace t
  rcases hl with ⟨name, names, rfl⟩
  rw [hj]
  refine h.ground.clear_below (by decide) (by simp) fun hpre => ?_
  have := hpre.length_le
  simp [intentsWay] at this

/-- An intent is dropped among the documents. -/
theorem within_drop (hj : j.Set root) (h : d.Stands root) (hid : Intent.IsIdentifier i.id)
    {r : Except Fault Unit} (hdrop : (j.drop i).on d = (r, d')) :
    Within root (Documents d.here root) d d' := by
  rw [drop, on_unlinkIfPresent] at hdrop
  split at hdrop
  · next loc c hopened =>
      rcases opened_eq hopened with ⟨hfind, hfile⟩
      have herasures : erasures d.tree loc = [.erase loc] := by
        -- A file is erased alone.
        rw [erasures, hfile, if_neg (by simp)]
      have hin : Within root (loc <+: ·) d (d.after (erasures d.tree loc)) := Within.of_erasures h.closed loc
      rw [herasures] at hin
      rw [Prod.mk.injEq] at hdrop
      rw [← hdrop.2]
      refine hin.mono fun l hl => ?_
      rw [spot_of_find hfind, spot_file hj hid] at hl
      rcases hl with ⟨names, rfl⟩
      exact ⟨i.id ++ ".json".toList, names, by simp⟩
  · rw [Prod.mk.injEq] at hdrop
    rw [← hdrop.2]
    exact Within.refl _ _ _
  · rw [Prod.mk.injEq] at hdrop
    rw [← hdrop.2]
    exact Within.refl _ _ _

end Journal

namespace Disk

/-- A disk on which intents can be saved: there is room, there is a folder for them,
    and no folder in the place of one. -/
structure Saves (d : Disk) (root : Path) : Prop where
  stands : d.Stands root
  roomy : Roomy d.here root
  folder : d.tree.get? (spot d.here root ++ intentsWay) = some .folder
  free : ∀ l, Documents d.here root l → d.tree.get? l ≠ some .folder

variable {d d' : Disk} {root : Path} {S : Location → Prop}

theorem below_of_documents {here l : Location} (h : Documents here root l) :
    ∃ zs, zs ≠ [] ∧ l = spot here root ++ zs := by
  rcases h with ⟨name, names, rfl⟩
  exact ⟨_, by simp, rfl⟩

theorem intents_not_document (here : Location) (root : Path) :
    ¬ Documents here root (spot here root ++ intentsWay) := by
  rintro ⟨name, names, heq⟩
  have := congrArg List.length (List.append_cancel_left heq)
  simp [intentsWay] at this

/-- Intents can still be saved after something has happened below the root. -/
theorem Saves.within (h : d.Saves root) (hin : Within root S d d')
    (hS : ∀ l, S l → ∃ zs, zs ≠ [] ∧ l = spot d.here root ++ zs) (hown : ¬S (spot d.here root ++ intentsWay)) :
    d'.Saves root :=
  ⟨h.stands.within hin hS, by rw [hin.here]; exact h.roomy, by
    rw [hin.here]
    exact hin.keeps_folder hown h.folder, fun l hl => by
    rw [hin.here] at hl
    exact hin.documents l hl (h.free l hl)⟩

theorem Saves.within_documents (h : d.Saves root) (hin : Within root (Documents d.here root) d d') :
    d'.Saves root :=
  h.within hin (fun _ => below_of_documents) (intents_not_document _ _)

end Disk

namespace Journal

variable {j : Journal} {i : Intent} {root : Path} {d d' : Disk}

/-- Once an intent has been saved, others can be. -/
theorem saves_of_save (hj : j.Set root) (hkeeps : j.keeps = true) (h : d.Stands root)
    (hfree : ∀ l, Documents d.here root l → d.tree.get? l ≠ some .folder) (hid : Intent.IsIdentifier i.id)
    (hsave : (j.save i).on d = (.ok (), d')) : d'.Saves root := by
  have hin := within_save hj h hid hsave
  have hstands := h.within hin fun _ => below_of_documents
  refine ⟨hstands, by rw [hin.here]; exact roomy_of_save hj hkeeps h hid hsave, ?_, fun l hl => ?_⟩
  · rcases opened_of_save hkeeps hsave with ⟨loc, hopened⟩
    rcases opened_eq hopened with ⟨hfind, hfile⟩
    rw [spot_of_find hfind, spot_file hj hid, ← List.append_assoc] at hfile
    exact hstands.closed.get?_of_prefix (by rw [hfile]; simp) (List.prefix_append _ _) (by simp)
  · rw [hin.here] at hl
    exact hin.documents l hl (hfree l hl)

section Saves

variable (hj : j.Set root) (h : d.Saves root) (hid : Intent.IsIdentifier i.id)
include hj h hid

theorem save_ok (hkeeps : j.keeps = true) : ∃ d', (j.save i).on d = (.ok (), d')
    ∧ Within root (Documents d.here root) d d'
    ∧ d'.Saves root := by
  have hsave := on_save_of_roomy hj hkeeps h.stands h.roomy hid h.folder (h.free _ (documents_file hj hid _))
  have hin := within_save hj h.stands hid hsave
  exact ⟨_, hsave, hin, h.within_documents hin⟩

/-- A snapshot of a file can be taken. -/
theorem snapshot_ok (hkeeps : j.keeps = true) {p : Path} {loc : Location} {t : Text} (hfind : d.find p = .ok loc)
    (hfile : d.tree.get? loc = some (.file (.text t))) : ∃ k d', (j.learnSnapshot i p).on d = (.ok (k, false), d')
      ∧ k.id = i.id ∧ Within root (Documents d.here root) d d' ∧ d'.Saves root := by
  rw [learnSnapshot]
  split
  -- The path has a snapshot already, or its file is read now.
  · exact ⟨i, d, rfl, rfl, Within.refl _ _ _, h⟩
  · next hnew =>
      have hthere : (isThere p).on d = (.ok true, d) := by
        rw [on_isThere, look_eq_some.mpr ⟨loc, hfind, hfile⟩]
        rfl
      have hsnapshot : (snapshotOf p).on d = (.ok ⟨p.text, some t⟩, d) := by
        rw [snapshotOf, on_bind_ok hthere, if_pos rfl, on_bind_ok (on_readRaw_text hfind hfile)]
        rfl
      have hwith : (withSnapshotOf i p).on d = (.ok (i.withSnapshot ⟨p.text, some t⟩), d) := by
        rw [withSnapshotOf, if_neg hnew, on_bind_ok hsnapshot]
        rfl
      rcases save_ok (i := i.withSnapshot ⟨p.text, some t⟩) hj h hid hkeeps with ⟨d', hsave, hin, hsaves⟩
      exact ⟨i.withSnapshot ⟨p.text, some t⟩, d', by rw [on_bind_ok hwith, learn, on_bind_ok hsave]; rfl, rfl,
        hin, hsaves⟩

theorem drop_ok : ∃ d', (j.drop i).on d = (.ok (), d') ∧ Within root (Documents d.here root) d d'
    ∧ d'.Saves root := by
  rcases document_names hid with ⟨hdots, hnull, hroom⟩
  have hfind : d.find (j.file i.id) = .ok (spot d.here (j.file i.id)) := by
    rw [spot_file hj hid, file_below hj hid]
    exact find_of_roomy h.stands h.roomy hdots (by simp) hnull (by omega) h.folder
  have hok : ((j.drop i).on d).1 = .ok () := by
    have hfree := h.free _ (documents_file hj hid d.here)
    rw [drop, on_unlinkIfPresent, opened, hfind]
    dsimp only
    -- The document is a file or missing, so there is no refusal.
    cases he : d.tree.get? (spot d.here (j.file i.id)) with
    | none => rfl
    | some e =>
        cases e with
        | folder => exact absurd he hfree
        | file c => rfl
  have hin := within_drop hj h.stands hid (Prod.eta ((j.drop i).on d)).symm
  exact ⟨_, Prod.ext hok rfl, hin, h.within_documents hin⟩

end Saves

end Journal

end RouteScaffold

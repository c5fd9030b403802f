import RouteScaffold.Proofs.Edit.Barrels
import RouteScaffold.Proofs.Journal.Saving
import RouteScaffold.Proofs.Project.Creation

/-!
# Packages of a Plain Project

In a project whose settings say nothing, the packages of a kind and their barrel lie
in one folder below the root. A command makes or removes a package as a whole: what
can be refused is refused before the first file of the package is there, or before
the first is gone. For a creation that is the work of the checks and of the journal;
for a deletion, of the journal alone.

## Main definitions

* `Project.plain`: A project whose settings say nothing.
* `Project.kindWay`, `Project.barrelWay`: The ways down to a folder of packages, and
  to its barrel.
* `Project.Region`: The places that a command on one package may touch.

## Theorems

* `track_packageCreation`: A creation that fails has left no file, and one that
  succeeds has made all of them and the line of the barrel.
* `track_packageDeletion`: A deletion whose intent could be saved succeeds.
-/

namespace RouteScaffold

open Job Disk RouteScaffold.Tree Naming Location Journal

namespace Project

/-- A project whose settings say nothing. -/
def plain (root : Path) (now : Timestamp) : Project :=
  ⟨.ofRoot root, .marker, ⟨(Layout.ofRoot root).intentsFolder, true⟩, now⟩

theorem ofSettings_defaults (root : Path) (now : Timestamp) :
    ofSettings .defaults root now = .ok (plain root now) := rfl

/-! ### Places -/

/-- The way down from the root to the folder of a kind. -/
def kindWay (kind : PackageKind) : List Text := ["src".toList, "packages".toList, kind.folder]

/-- The way down from the root to the barrel of a kind. -/
def barrelWay (kind : PackageKind) : List Text := kindWay kind ++ ["index.ts".toList]

variable {root : Path} {kind kind' : PackageKind} {name name' : Text} {now : Timestamp}

theorem packageFolder_plain (root : Path) (kind : PackageKind) :
    (Layout.ofRoot root).packageFolder kind = .ok (root.below (kindWay kind)) := by
  have hdiv : ∀ (p : Path) (t : Text), Path.IsName t → p / t = p.below [t] := fun p t ht => Path.div_name ht p
  have hfolder : Path.IsName kind.folder := by
    cases kind <;> refine ⟨?_, ?_, ?_, ?_⟩ <;> decide
  change Except.ok (root / "src".toList / "packages".toList / kind.folder) = _
  rw [hdiv root _ ⟨by decide, by decide, by decide, by decide⟩, hdiv (root.below _) "packages".toList
    ⟨by decide, by decide, by decide, by decide⟩, hdiv _ _ hfolder, Path.below_below, Path.below_below]
  rfl

theorem barrelWay_names (kind : PackageKind) : ['.', '.'] ∉ barrelWay kind ∧ (∀ n ∈ barrelWay kind, '\x00' ∉ n)
    ∧ Path.room (barrelWay kind) ≤ 40 := by
  cases kind <;> decide

theorem kindWay_names (kind : PackageKind) : ['.', '.'] ∉ kindWay kind ∧ ∀ n ∈ kindWay kind, '\x00' ∉ n := by
  cases kind <;> decide

theorem barrel_plain (root : Path) (kind : PackageKind) :
    (Layout.ofRoot root).barrel kind = .ok (root.below (barrelWay kind)) := by
  rw [barrel_eq (packageFolder_plain root kind), Path.below_below]
  rfl

theorem kindWay_injective (h : kindWay kind = kindWay kind') : kind = kind' := by
  cases kind <;> cases kind' <;> first | rfl | exact absurd h (by decide)

theorem kindWay_append {xs ys : List Text} (h : kindWay kind ++ xs = kindWay kind' ++ ys) :
    kind = kind' ∧ xs = ys := by
  have hsplit := List.append_inj h rfl
  exact ⟨kindWay_injective hsplit.1, hsplit.2⟩

/-- A canonical name of a kind. -/
def Canonical (kind : PackageKind) (name : Text) : Prop :=
  ∃ raw named, (Kind.package kind).named raw = .ok named ∧ named.name = name

namespace Canonical

theorem isName (h : Canonical kind name) : Path.IsName name := by
  rcases h with ⟨raw, named, hnamed, rfl⟩
  exact (named_package hnamed).1

theorem nameable (h : Canonical kind name) : Barrel.Nameable name := by
  rcases h with ⟨raw, named, hnamed, rfl⟩
  exact Barrel.nameable_of_canonical (Kind.named_eq_ok hnamed).2

theorem ne_barrel (h : Canonical kind name) : ¬ packageWay kind name <+: ["index.ts".toList] := by
  rcases h with ⟨raw, named, hnamed, rfl⟩
  exact packageWay_ne_barrel hnamed

theorem null_not_mem (h : Canonical kind name) : '\x00' ∉ name :=
  h.nameable.not_mem (by decide) (by decide)

theorem way_names (h : Canonical kind name) :
    ['.', '.'] ∉ kindWay kind ++ packageWay kind name ∧ ∀ n ∈ kindWay kind ++ packageWay kind name, '\x00' ∉ n := by
  refine ⟨?_, fun n hn => ?_⟩
  · rw [List.mem_append, not_or]
    exact ⟨(kindWay_names kind).1, Path.not_up_of_names (isName_packageWay h.isName kind)⟩
  · rcases List.mem_append.mp hn with hn | hn
    · exact (kindWay_names kind).2 n hn
    · rw [packageWay] at hn
      split at hn
      · rw [List.mem_singleton.mp hn]
        exact h.null_not_mem
      · rw [List.mem_singleton.mp hn, List.mem_append, not_or]
        exact ⟨h.null_not_mem, by cases kind <;> decide⟩

end Canonical

theorem length_packageWay (kind : PackageKind) (name : Text) : (packageWay kind name).length = 1 := by
  rw [packageWay]
  split <;> rfl

theorem packageWay_injective (h : packageWay kind name = packageWay kind name') : name = name' := by
  rw [packageWay, packageWay] at h
  split at h
  · exact (List.cons.inj h).1
  · exact List.append_cancel_right (List.cons.inj h).1

/-- The places that a command on one package may touch: the documents of intents, the
    barrel of the kind, and what belongs to the package. -/
def Region (here : Location) (root : Path) (kind : PackageKind) (name : Text) (l : Location) : Prop :=
  Documents here root l ∨ l = spot here root ++ barrelWay kind
    ∨ spot here root ++ (kindWay kind ++ packageWay kind name) <+: l

section Region

variable {here l : Location}

theorem Region.below (h : Region here root kind name l) : ∃ zs, zs ≠ [] ∧ l = spot here root ++ zs := by
  rcases h with h | rfl | ⟨ys, rfl⟩
  · exact below_of_documents h
  · exact ⟨_, by simp [barrelWay], rfl⟩
  · exact ⟨kindWay kind ++ packageWay kind name ++ ys, by simp [kindWay], by rw [List.append_assoc]⟩

/-- Sources and the tool's own files lie apart. -/
theorem kind_not_document (here : Location) (root : Path) (kind : PackageKind) (xs : List Text) :
    ¬ Documents here root (spot here root ++ (kindWay kind ++ xs)) := by
  rintro ⟨name, names, heq⟩
  have := (List.cons.inj (List.append_cancel_left heq)).1
  exact absurd this (by decide)

theorem intents_not_region (here : Location) (root : Path) (kind : PackageKind) (name : Text) :
    ¬ Region here root kind name (spot here root ++ intentsWay) := by
  have hhead : ∀ xs, kindWay kind ++ xs ≠ intentsWay := fun xs heq =>
    absurd (List.cons.inj heq).1 (by decide)
  rintro (h | h | ⟨ys, h⟩)
  · exact intents_not_document here root h
  · exact hhead _ (List.append_cancel_left h).symm
  · rw [List.append_assoc, List.append_assoc] at h
    exact hhead _ (List.append_cancel_left h)

/-- The barrels of other kinds are none of its places. -/
theorem barrel_not_region (name : Text) (hne : kind' ≠ kind) :
    ¬ Region here root kind name (spot here root ++ barrelWay kind') := by
  rintro (h | h | ⟨ys, h⟩)
  · exact kind_not_document here root kind' _ h
  · exact hne (kindWay_append (List.append_cancel_left h)).1
  · rw [List.append_assoc, List.append_assoc] at h
    exact hne (kindWay_append (List.append_cancel_left h)).1.symm

theorem file_below_package (hname : Canonical kind name) {x : List Text × Made}
    (hx : x ∈ filesOf (packageFiles kind name)) :
    spot here root ++ (kindWay kind ++ packageWay kind name) <+: spot here root ++ (kindWay kind ++ x.1) := by
  rw [List.prefix_append_right_inj, List.prefix_append_right_inj]
  exact packageWay_prefix hname.isName kind x hx

/-- The barrel is none of the files of a package. -/
theorem barrel_ne_file (here : Location) (root : Path) (hname : Canonical kind name) :
    ¬ spot here root ++ (kindWay kind ++ packageWay kind name) <+: spot here root ++ barrelWay kind := by
  rw [barrelWay, List.prefix_append_right_inj, List.prefix_append_right_inj]
  exact hname.ne_barrel

/-- The files of other packages are none of its places. -/
theorem file_not_region (hname' : Canonical kind' name')
    (hne : (kind', name') ≠ (kind, name)) {x : List Text × Made} (hx : x ∈ filesOf (packageFiles kind' name')) :
    ¬ Region here root kind name (spot here root ++ (kindWay kind' ++ x.1)) := by
  rcases packageWay_prefix hname'.isName kind' x hx with ⟨rest, hrest⟩
  rintro (h | h | ⟨ys, h⟩)
  · exact kind_not_document here root kind' _ h
  · rcases kindWay_append (List.append_cancel_left h) with ⟨-, hx'⟩
    exact hname'.ne_barrel ⟨rest, hrest.trans hx'⟩
  · rw [List.append_assoc, List.append_assoc] at h
    rcases kindWay_append (List.append_cancel_left h) with ⟨rfl, hway⟩
    rw [← hrest] at hway
    have hsame := List.append_inj_left hway (by rw [length_packageWay, length_packageWay])
    exact hne (by rw [packageWay_injective hsame])

end Region

/-! ### The files of a package -/

section Making

variable {d d' : Disk} {here : Location} {xs : List Text}

theorem parent_below (hne : xs ≠ []) : (root.below xs).parent = root.below xs.dropLast := by
  rw [Path.parent, Path.below, Path.below, List.dropLast_append_of_ne_nil hne]

/-- What becomes of making a source: where documents are, no folder is made on the way
    to it. -/
theorem newFile_source {t : Text} {r : Except Fault Unit} (h : Ground d.here root)
    (hdots : ['.', '.'] ∉ kindWay kind ++ xs) (hne : xs ≠ [])
    (hrun : (newFile (root.below (kindWay kind ++ xs)) t).on d = (r, d')) :
    (∃ f, r = .error f) ∧ Within root (fun _ => False) d d'
      ∨ r = .ok () ∧ Within root (· = spot d.here root ++ (kindWay kind ++ xs)) d d'
        ∧ d'.tree.get? (spot d.here root ++ (kindWay kind ++ xs)) = some (.file (.text t))
        ∧ d'.find (root.below (kindWay kind ++ xs)) = .ok (spot d.here root ++ (kindWay kind ++ xs)) := by
  rw [← spot_below _ _ hdots]
  refine Within.of_newFile (fun l hl => ?_) hrun
  rw [parent_below (by simp [kindWay]), List.dropLast_append_of_ne_nil hne]
  rcases hl with ⟨name, names, rfl⟩
  refine h.clear_below (fun hmem => hdots ?_) (by simp) fun hpre => ?_
  · rw [← List.dropLast_append_of_ne_nil hne] at hmem
    exact List.mem_of_mem_dropLast hmem
  · exact absurd (List.cons_prefix_cons.mp hpre).1 (by decide)

/-- A file can be made in a folder that is there. -/
theorem newFile_beside {n t : Text} (h : d.Stands root) (hdots : ['.', '.'] ∉ xs ++ [n])
    (hwalk : unwalkable? (root.below (xs ++ [n])) = none) (hsize : ∀ m ∈ xs ++ [n], Utf8.size m ≤ nameLimit)
    (hfolder : d.tree.get? (spot d.here root ++ xs) = some .folder)
    (hnone : d.tree.get? (spot d.here root ++ (xs ++ [n])) = none) :
    ∃ d', (newFile (root.below (xs ++ [n])) t).on d = (.ok (), d') := by
  have hparent : (root.below (xs ++ [n])).parent = root.below xs := by
    rw [parent_below (by simp), List.dropLast_concat]
  have hfind := h.find_below hdots hwalk hsize fun ns m ms heq => h.folder_of_prefix hfolder (prefix_of_concat heq)
  -- The folder is found, so it is not made again.
  have hfound : d.find (root.below xs) = .ok (spot d.here root ++ xs) := by
    refine h.find_below (fun hmem => hdots (List.mem_append_left _ hmem)) ?_
      (fun m hm => hsize m (List.mem_append_left _ hm)) fun ns m ms heq => h.folder_of_prefix hfolder ⟨m :: ms, heq.symm⟩
    rw [← hparent]
    exact walkable_parent hwalk
  have hthere : (isThere (root.below (xs ++ [n]))).on d = (.ok false, d) := by
    rw [on_isThere, look, hfind]
    dsimp only
    rw [hnone]
    rfl
  -- There is nothing where the file is to be, so it can be written.
  have hwritable : d.writable (root.below (xs ++ [n])) = .ok (spot d.here root ++ (xs ++ [n])) := by
    rw [writable, hfind]
    dsimp only
    rw [if_neg (by rw [hnone]; simp)]
  refine ⟨d.made (.put (spot d.here root ++ (xs ++ [n])) (.file (.text t))), ?_⟩
  rw [newFile, on_bind_ok hthere, on_refuse, if_neg (by simp), hparent,
    on_bind_ok (on_folders_of_found hfound hfolder), writeText, on_bind, on_ask, hwritable]
  rfl

/-- What is known of the path to a package once it has been there: it can be walked. -/
def Reached (root : Path) (kind : PackageKind) (name : Text) : Prop :=
  unwalkable? (root.below (kindWay kind ++ packageWay kind name)) = none
    ∧ ∀ n ∈ packageWay kind name, Utf8.size n ≤ nameLimit

theorem sizes_of_find {p : Path} {loc : Location} (h : d.find p = .ok loc) : ∀ n ∈ p.names, Utf8.size n ≤ nameLimit :=
  (Tree.walk_eq_ok.mp (find_eq h).2).2.1

theorem take_newFile {j : Journal} {i : Intent} {p : Path} {t : Text} {r : Except Fault Unit}
    (h : (newFile p t).on d = (r, d')) : (j.take i (.newFile p t)).on d = (r.map fun _ => (i, false), d') := by
  rw [take, on_bind, h]
  cases r <;> rfl

variable (hname : Canonical kind name) (h : d.Stands root)
  (hmakable : Makable d (root.below (kindWay kind)) (filesOf (packageFiles kind name)))
include hname h hmakable

/-- The files of a package are made all, or none of them. -/
theorem followed_packageFiles
    (hwalk : ∀ x ∈ filesOf (packageFiles kind name), unwalkable? (root.below (kindWay kind ++ x.1)) = none)
    (j : Journal) (i : Intent) :
    (∃ f d', j.followed i (making (root.below (kindWay kind)) (filesOf (packageFiles kind name))) d = (i, .error f, d')
      ∧ Within root (fun _ => False) d d')
    ∨ ∃ c d', j.followed i (making (root.below (kindWay kind)) (filesOf (packageFiles kind name))) d = (i, .ok c, d')
      ∧ Within root (spot d.here root ++ (kindWay kind ++ packageWay kind name) <+: ·) d d'
      ∧ (∀ x ∈ filesOf (packageFiles kind name),
        ∃ c, d'.tree.get? (spot d.here root ++ (kindWay kind ++ x.1)) = some (.file c))
      ∧ Reached root kind name := by
  have hdots : ∀ x ∈ filesOf (packageFiles kind name), ['.', '.'] ∉ kindWay kind ++ x.1 := fun x hx => by
    rw [List.mem_append, not_or]
    exact ⟨(kindWay_names kind).1, hmakable.straight x hx⟩
  have hbelow : ∀ x ∈ filesOf (packageFiles kind name), spot d.here root ++ (kindWay kind ++ packageWay kind name)
      <+: spot d.here root ++ (kindWay kind ++ x.1) := fun x hx => file_below_package hname hx
  -- A component is a folder with two files, any other package is one file.
  rcases (filesOf_package hname.isName kind).2 with ⟨rfl, t, u, hthings⟩ | ⟨hkind, t, hthings⟩
  · have hfirst : ([name, name ++ ".tsx".toList], Made.newFile t) ∈ filesOf (packageFiles .component name) := by
      rw [hthings]
      simp
    have hsecond : ([name, "index.ts".toList], Made.newFile u) ∈ filesOf (packageFiles .component name) := by
      rw [hthings]
      simp
    have hplan : making (root.below (kindWay .component)) (filesOf (packageFiles .component name))
        = [.newFile (root.below (kindWay .component ++ [name, name ++ ".tsx".toList])) t,
          .newFile (root.below (kindWay .component ++ [name, "index.ts".toList])) u] := by
      rw [hthings, making, List.map_cons, List.map_singleton, Made.step, Made.step, Path.below_below,
        Path.below_below]
    rcases hrun₁ : (newFile (root.below (kindWay .component ++ [name, name ++ ".tsx".toList])) t).on d with ⟨r₁, d₁⟩
    rw [hplan, followed_cons, take_newFile hrun₁]
    rcases newFile_source h.ground (hdots _ hfirst) (by simp) hrun₁ with
      ⟨⟨f, rfl⟩, hin₁⟩ | ⟨rfl, hin₁, hfile₁, hfind₁⟩
    -- The first file may be refused; then nothing has been made but folders.
    · exact Or.inl ⟨f, d₁, rfl, hin₁⟩
    · -- There is a folder by now in which the other file can be made.
      have hne : [name, "index.ts".toList] ≠ [name, name ++ ".tsx".toList] := fun heq => by
        have hlast := congrArg (fun t : Text => t.reverse.head?) (List.cons.inj (List.cons.inj heq).2).1
        simp at hlast
      have h₁ : d₁.Stands root := h.within hin₁ fun l hl => ⟨_, by simp [kindWay], hl⟩
      -- The first file lies in the folder.
      have hfolder : d₁.tree.get? (spot d₁.here root ++ (kindWay .component ++ [name])) = some .folder := by
        rw [hin₁.here]
        refine h₁.closed.get?_of_prefix (by rw [hfile₁]; simp) ?_ (by simp)
        rw [List.prefix_append_right_inj, List.prefix_append_right_inj]
        exact ⟨[_], rfl⟩
      -- Making it has not made the second one.
      have hnone : d₁.tree.get? (spot d₁.here root ++ (kindWay .component ++ [name, "index.ts".toList])) = none := by
        have habsent := hmakable.absent _ u hsecond (by rw [Path.below_below]; exact hwalk _ hsecond)
        rw [Path.below_below, spot_below _ _ (hdots _ hsecond)] at habsent
        have hother : Clear d.here (root.below (kindWay .component ++ [name, name ++ ".tsx".toList]))
            (spot d.here root ++ (kindWay .component ++ [name, "index.ts".toList])) := by
          refine h.ground.clear_below (hdots _ hfirst) (by simp) fun hpre => hne ?_
          exact (List.append_cancel_left (hpre.eq_of_length (by simp)))
        rcases shuns_newFile (t := t) hother d rfl with ⟨ws, hws, hruns⟩
        rw [hrun₁] at hws
        rw [hin₁.here, show d₁ = d.after ws from hws, after_tree, hruns.shuns]
        exact habsent
      -- The names on the way are short enough, as the first file has been found there.
      have hsizes : ∀ m ∈ (kindWay .component ++ [name]) ++ ["index.ts".toList], Utf8.size m ≤ nameLimit := by
        intro m hm
        rcases List.mem_append.mp hm with hm | hm
        · refine sizes_of_find hfind₁ m (List.mem_append_right _ ?_)
          rcases List.mem_append.mp hm with hm | hm
          · exact List.mem_append_left _ hm
          · exact List.mem_append_right _ (by simp [List.mem_singleton.mp hm])
        · rw [List.mem_singleton.mp hm]
          decide
      have hmade : ∃ d₂, (newFile (root.below (kindWay .component ++ [name, "index.ts".toList])) u).on d₁
          = (.ok (), d₂) := by
        rw [show kindWay .component ++ [name, "index.ts".toList]
          = (kindWay .component ++ [name]) ++ ["index.ts".toList] by simp]
        exact newFile_beside h₁ (hdots _ hsecond) (hwalk _ hsecond) hsizes hfolder hnone
      rcases hmade with ⟨d₂, hrun₂⟩
      have hdone : j.followed i [.newFile (root.below (kindWay .component ++ [name, "index.ts".toList])) u] d₁
          = (i, .ok false, d₂) := by
        rw [followed_cons, take_newFile hrun₂]
        rfl
      dsimp only [Except.map]
      rw [hdone]
      -- So the second file is not refused.
      rcases newFile_source h₁.ground (hdots _ hsecond) (by simp) hrun₂ with ⟨⟨f, hf⟩, -⟩ | ⟨-, hin₂, hfile₂, -⟩
      · exact absurd hf (by simp)
      · rw [hin₁.here] at hfile₂ hin₂
        have hoff : ¬ spot d.here root ++ (kindWay .component ++ packageWay .component name) <+: d.here := by
          rintro ⟨zs, hzs⟩
          exact h.ground.off _ (by simp [kindWay]) (hzs.symm.trans (List.append_assoc _ _ _))
        have hin := (hin₁.mono fun l hl => hl ▸ hbelow _ hfirst).trans
          (hin₂.mono fun l hl => hl ▸ hbelow _ hsecond) hoff
        refine Or.inr ⟨false, d₂, rfl, hin, fun x hx => ?_, ?_, fun n hn => ?_⟩
        · rw [hthings] at hx
          rcases List.mem_cons.mp hx with rfl | hx
          · refine ⟨_, (hin₂.files _ (fun heq => hne ?_) _).mpr hfile₁⟩
            exact (List.append_cancel_left (List.append_cancel_left heq)).symm
          · rw [List.mem_singleton.mp hx]
            exact ⟨_, hfile₂⟩
        · have hparent := walkable_parent (hwalk _ hsecond)
          rw [parent_below (by simp)] at hparent
          exact hparent
        · exact hsizes n (List.mem_append_left _ (List.mem_append_right _ hn))
  · have hx : ([name ++ sourceExtension kind], Made.newFile t) ∈ filesOf (packageFiles kind name) := by
      rw [hthings]
      simp
    have hway : packageWay kind name = [name ++ sourceExtension kind] := by rw [packageWay, if_neg hkind]
    have hplan : making (root.below (kindWay kind)) (filesOf (packageFiles kind name))
        = [.newFile (root.below (kindWay kind ++ [name ++ sourceExtension kind])) t] := by
      rw [hthings, making, List.map_singleton, Made.step, Path.below_below]
    rcases hrun : (newFile (root.below (kindWay kind ++ [name ++ sourceExtension kind])) t).on d with ⟨r, d₁⟩
    rw [hplan, followed_cons, take_newFile hrun]
    -- The one file may be refused, or is there.
    rcases newFile_source h.ground (hdots _ hx) (by simp) hrun with ⟨⟨f, rfl⟩, hin⟩ | ⟨rfl, hin, hfile, hfind⟩
    · exact Or.inl ⟨f, d₁, rfl, hin⟩
    · rw [hway]
      refine Or.inr ⟨false, d₁, rfl, hin.mono fun l hl => hl ▸ ?_, fun x hx' => ?_, ?_, fun n hn => ?_⟩
      · exact List.prefix_refl _
      · rw [hthings, List.mem_singleton] at hx'
        rw [hx']
        exact ⟨_, hfile⟩
      · rw [hway]
        exact hwalk _ hx
      · rw [hway] at hn
        exact sizes_of_find hfind n (List.mem_append_right _ (List.mem_append_right _ hn))

end Making

/-! ### The barrel -/

section Barrel

variable {d : Disk} {j : Journal} {i : Intent} {names : List Text} {e : Edit} {t u : Text}

/-- A barrel lies in the folder of its kind. -/
theorem folder_of_barrel (h : d.Stands root) {c : Content}
    (hfile : d.tree.get? (spot d.here root ++ barrelWay kind) = some (.file c)) :
    d.tree.get? (spot d.here root ++ kindWay kind) = some .folder := by
  refine h.closed.get?_of_prefix (by rw [hfile]; simp) ?_ (by simp [barrelWay])
  rw [List.prefix_append_right_inj]
  exact List.prefix_append _ _

theorem find_barrel (h : d.Saves root) {c : Content}
    (hfile : d.tree.get? (spot d.here root ++ barrelWay kind) = some (.file c)) :
    d.find (root.below (barrelWay kind)) = .ok (spot d.here root ++ barrelWay kind) := by
  rcases barrelWay_names kind with ⟨hdots, hnull, hroom⟩
  exact find_of_roomy h.stands h.roomy hdots (by decide) hnull hroom (folder_of_barrel h.stands hfile)

theorem isThere_of_find {p : Path} {loc : Location} {x : Entry} (hfind : d.find p = .ok loc)
    (hthere : d.tree.get? loc = some x) : (isThere p).on d = (.ok true, d) := by
  rw [on_isThere, look_eq_some.mpr ⟨loc, hfind, hthere⟩]
  rfl

/-- Where intents can be saved, a barrel can be edited. -/
theorem edit_barrel (h : d.Saves root) (ht : '\r' ∉ t) (hu : '\r' ∉ u)
    (hfile : d.tree.get? (spot d.here root ++ barrelWay kind) = some (.file (.text t)))
    (happly : e.apply (root.below (barrelWay kind)).text t = .ok u) :
    ∃ b d', (Job.edit (root.below (barrelWay kind)) e).on d = (.ok b, d')
      ∧ Within root (· = spot d.here root ++ barrelWay kind) d d'
      ∧ d'.tree.get? (spot d.here root ++ barrelWay kind) = some (.file (.text u)) := by
  rcases barrelWay_names kind with ⟨hdots, hnull, hroom⟩
  have hfind := find_barrel h hfile
  have hreplace : d.replaceable (root.below (barrelWay kind)) = .ok (spot d.here root ++ barrelWay kind) :=
    replaceable_of_roomy h.stands h.roomy hdots (by decide) hnull hroom (folder_of_barrel h.stands hfile)
      (by rw [← barrelWay, hfile]; simp)
  have hexisting : (Job.edit (root.below (barrelWay kind)) e).on d
      = (editExisting (root.below (barrelWay kind)) e).on d := by
    -- Nothing need be supplied to a file that is there.
    have hsupply : (supply (root.below (barrelWay kind))).on d = (.ok (), d) := by
      rw [supply, on_bind_ok (isThere_of_find hfind hfile)]
      rfl
    rw [Job.edit]
    split
    · exact on_bind_ok hsupply
    · rfl
  rw [hexisting, on_editExisting_of_read (on_readRaw_text hfind hfile), Edit.written_of_plain ht hu happly]
  by_cases hsame : u = t
  · rw [if_pos hsame, hsame]
    exact ⟨false, d, rfl, Within.refl _ _ _, hfile⟩
  · rw [if_neg hsame]
    dsimp only
    rw [hreplace]
    exact ⟨true, _, rfl, Within.of_put hfile _, (replaceable_made hreplace u).2⟩

/-- Documents of intents are no barrels. -/
theorem barrel_not_document (here : Location) (root : Path) (kind : PackageKind) :
    ¬ Documents here root (spot here root ++ barrelWay kind) := kind_not_document here root kind _

variable (hj : j.Set root) (hkeeps : j.keeps = true) (h : d.Saves root) (hid : Intent.IsIdentifier i.id)
  (ht : '\r' ∉ t) (hu : '\r' ∉ u)
  (hfile : d.tree.get? (spot d.here root ++ barrelWay kind) = some (.file (.text t)))
  (happly : e.apply (root.below (barrelWay kind)).text t = .ok u)
include hj hkeeps h hid ht hu hfile happly

/-- Where intents can be saved, a barrel can be edited behind a snapshot of it. -/
theorem followed_barrel {s s' : Step}
    (hs : s = .snapshot (root.below (barrelWay kind)) ∨ s = .snapshotIfPresent (root.below (barrelWay kind)))
    (hs' : s' = .edit (root.below (barrelWay kind)) e ∨ s' = .editIfPresent (root.below (barrelWay kind)) e) :
    ∃ k c d', j.followed i [s, s'] d = (k, .ok c, d') ∧ k.id = i.id
      ∧ Within root (fun l => Documents d.here root l ∨ l = spot d.here root ++ barrelWay kind) d d'
      ∧ d'.Saves root ∧ d'.tree.get? (spot d.here root ++ barrelWay kind) = some (.file (.text u)) := by
  -- Documents may change as well as the barrel.
  have hdocument : ∀ l, Documents d.here root l → Documents d.here root l ∨ l = spot d.here root ++ barrelWay kind :=
    fun _ => Or.inl
  rcases snapshot_ok hj h hid hkeeps (find_barrel h hfile) hfile with ⟨k, d₁, hsnapshot, hk, hin₁, h₁⟩
  have htake₁ : (j.take i s).on d = (.ok (k, false), d₁) := by
    rcases hs with rfl | rfl
    · exact hsnapshot
    · rw [take, on_bind_ok (isThere_of_find (find_barrel h hfile) hfile)]
      exact hsnapshot
  -- Neither saving the snapshot nor the document changes the barrel.
  have hfile₁ : d₁.tree.get? (spot d₁.here root ++ barrelWay kind) = some (.file (.text t)) := by
    rw [hin₁.here]
    exact (hin₁.files _ (barrel_not_document _ _ _) _).mpr hfile
  rcases edit_barrel h₁ ht hu hfile₁ happly with ⟨b, d₂, hedit, hin₂, hfile₂⟩
  have htake₂ : (j.take k s').on d₁ = (.ok (k, b), d₂) := by
    rcases hs' with rfl | rfl
    · rw [take, on_bind_ok hedit]
      rfl
    · rw [take, on_bind_ok (isThere_of_find (find_barrel h₁ hfile₁) hfile₁)]
      simp only [if_true]
      rw [on_bind_ok hedit]
      rfl
  -- What is written is a barrel, which is no document of the journal.
  have h₂ : d₂.Saves root := h₁.within hin₂ (fun l hl => ⟨_, by simp [barrelWay], hl⟩) fun heq =>
    intents_not_region d₁.here root kind [] (Or.inr (Or.inl heq))
  rw [hin₁.here] at hin₂ hfile₂
  refine ⟨k, b, d₂, ?_, hk, (hin₁.mono hdocument).trans (hin₂.mono fun _ => Or.inr) ?_, h₂, hfile₂⟩
  · rw [followed_cons, htake₁]
    dsimp only
    rw [followed_cons, htake₂]
    cases b <;> rfl
  · rintro (hl | hl)
    · rcases below_of_documents hl with ⟨zs, hzs, heq⟩
      exact h.stands.ground.off zs hzs heq
    · exact h.stands.ground.off _ (by simp [barrelWay]) hl

end Barrel

/-! ### Whole commands -/

section Commands

variable {d d' d'' : Disk} {j : Journal} {i : Intent} {names : List Text} {verb : Text} {args : List Text}
  {mode : Mode}

theorem here_not_region (h : d.Stands root) : ¬ Region d.here root kind name d.here := fun hl => by
  rcases hl.below with ⟨zs, hzs, heq⟩
  exact h.ground.off zs hzs heq

theorem here_not_document (h : d.Stands root) : ¬ Documents d.here root d.here := fun hl => by
  rcases below_of_documents hl with ⟨zs, hzs, heq⟩
  exact h.ground.off zs hzs heq

/-- A package has been made, and its line is the last of the barrel. -/
structure Added (root : Path) (kind : PackageKind) (name : Text) (names : List Text) (d d' : Disk) : Prop where
  within : Within root (Region d.here root kind name) d d'
  saves : d'.Saves root
  barrel : d'.tree.get? (spot d.here root ++ barrelWay kind) = some (.file (.text (Barrel.text (names ++ [name]))))
  files : ∀ x ∈ filesOf (packageFiles kind name),
    ∃ c, d'.tree.get? (spot d.here root ++ (kindWay kind ++ x.1)) = some (.file c)
  reached : Reached root kind name

/-- A package has been removed, and its line from the barrel. -/
structure Taken (root : Path) (kind : PackageKind) (name : Text) (names : List Text) (d d' : Disk) : Prop where
  within : Within root (Region d.here root kind name) d d'
  saves : d'.Saves root
  barrel : d'.tree.get? (spot d.here root ++ barrelWay kind)
    = some (.file (.text (Barrel.text (names.filter (· ≠ name)))))
  gone : ∀ l, spot d.here root ++ (kindWay kind ++ packageWay kind name) <+: l →
    ∀ c, d'.tree.get? l ≠ some (.file c)

/-- What happens among the documents does not matter to a package. -/
theorem Added.between {e e' : Disk} (h : Added root kind name names d d') (hstands : e.Stands root)
    (hbefore : Within root (Documents e.here root) e d) (hafter : Within root (Documents d'.here root) d' e') :
    Added root kind name names e e' := by
  have hhere := h.within.here
  rcases h with ⟨hin, hsaves, hbarrel, hfiles, hreached⟩
  have hend := hsaves.within_documents hafter
  rw [hbefore.here] at hin hbarrel hfiles hhere
  rw [hhere] at hafter
  refine ⟨((hbefore.mono fun _ => Or.inl).trans hin ?_).trans (hafter.mono fun _ => Or.inl) ?_, hend, ?_,
    fun x hx => ?_, hreached⟩
  · exact here_not_region hstands
  · exact here_not_region hstands
  · exact (hafter.files _ (barrel_not_document _ _ _) _).mpr hbarrel
  · rcases hfiles x hx with ⟨c, hc⟩
    exact ⟨c, (hafter.files _ (kind_not_document _ _ _ _) _).mpr hc⟩

theorem Taken.between {e e' : Disk} (h : Taken root kind name names d d') (hstands : e.Stands root)
    (hbefore : Within root (Documents e.here root) e d) (hafter : Within root (Documents d'.here root) d' e') :
    Taken root kind name names e e' := by
  have hhere := h.within.here
  rcases h with ⟨hin, hsaves, hbarrel, hgone⟩
  have hend := hsaves.within_documents hafter
  rw [hbefore.here] at hin hbarrel hgone hhere
  rw [hhere] at hafter
  refine ⟨((hbefore.mono fun _ => Or.inl).trans hin ?_).trans (hafter.mono fun _ => Or.inl) ?_, hend, ?_,
    fun l hl c hc => ?_⟩
  · exact here_not_region hstands
  · exact here_not_region hstands
  · exact (hafter.files _ (barrel_not_document _ _ _) _).mpr hbarrel
  -- Saving and dropping the intent only change documents.
  · refine hgone l hl c ((hafter.files l (fun hdoc => ?_) c).mp hc)
    rcases hl with ⟨ys, rfl⟩
    rw [List.append_assoc, List.append_assoc] at hdoc
    exact kind_not_document _ _ _ _ hdoc

theorem deletePackagePlan_eq (hname : Canonical kind name) : deletePackagePlan kind name (root.below (kindWay kind))
      (root.below (barrelWay kind)) false
    = [.snapshotIfPresent (root.below (barrelWay kind)),
        .editIfPresent (root.below (barrelWay kind)) (.erase (.barrelLine name))]
      ++ [.remove (root.below (kindWay kind ++ packageWay kind name)) false] := by
  rw [deletePackagePlan, packageRoot_eq hname.isName, Path.below_below]
  rfl

/-- Where a package is found. -/
theorem find_package (hname : Canonical kind name) (h : d.Stands root) {c : Content}
    (hfile : d.tree.get? (spot d.here root ++ barrelWay kind) = some (.file c)) (hreached : Reached root kind name) :
    d.find (root.below (kindWay kind ++ packageWay kind name))
      = .ok (spot d.here root ++ (kindWay kind ++ packageWay kind name)) := by
  have hfolder := folder_of_barrel h hfile
  refine h.find_below hname.way_names.1 hreached.1 (fun n hn => ?_) fun ns n ms heq => ?_
  · rcases List.mem_append.mp hn with hn | hn
    · have hshort := size_le_room (List.mem_append_left ["index.ts".toList] hn)
      have hroom := (barrelWay_names kind).2.2
      have : 40 ≤ nameLimit := by decide
      rw [barrelWay] at hroom
      omega
    · exact hreached.2 n hn
  · refine h.folder_of_prefix hfolder ?_
    -- A package is one name in the folder of its kind.
    rcases List.length_eq_one_iff.mp (length_packageWay kind name) with ⟨m, hm⟩
    rw [hm] at heq
    exact prefix_of_concat heq

/-- A package that is there can be removed. -/
theorem remove_package (hname : Canonical kind name) (h : d.Stands root) {c : Content}
    (hfile : d.tree.get? (spot d.here root ++ barrelWay kind) = some (.file c)) (hreached : Reached root kind name)
    (hthere : d.tree.get? (spot d.here root ++ (kindWay kind ++ packageWay kind name)) ≠ none) :
    ∃ d', (remove (root.below (kindWay kind ++ packageWay kind name)) false).on d = (.ok true, d')
      ∧ Within root (spot d.here root ++ (kindWay kind ++ packageWay kind name) <+: ·) d d'
      ∧ ∀ l, spot d.here root ++ (kindWay kind ++ packageWay kind name) <+: l → d'.tree.get? l = none :=
  ⟨_, on_remove_of_present (find_package hname h hfile hreached) hthere (by simp [Path.below, kindWay])
      (h.ground.way hname.way_names.1 (by simp [kindWay])) false,
    Within.of_erasures h.closed _, Within.gone_of_erasures h.closed (by simp [kindWay])⟩

variable (hname : Canonical kind name) (hj : j.Set root) (hkeeps : j.keeps = true) (h : d.Saves root)
  (hid : Intent.IsIdentifier i.id)
  (hfile : d.tree.get? (spot d.here root ++ barrelWay kind) = some (.file (.text (Barrel.text names))))
  (hnames : ∀ n ∈ names, Barrel.Nameable n)
include hname hj hkeeps h hid hfile hnames

/-- The steps of a creation are taken all, or up to a file that cannot be made. -/
theorem followed_packageCreation (hnew : name ∉ names)
    (hmakable : Makable d (root.below (kindWay kind)) (filesOf (packageFiles kind name)))
    (hwalk : ∀ x ∈ filesOf (packageFiles kind name), unwalkable? (root.below (kindWay kind ++ x.1)) = none) :
    (∃ k f d', j.followed i (createPackagePlan kind name (root.below (kindWay kind)) (root.below (barrelWay kind))) d
        = (k, .error f, d') ∧ k.id = i.id ∧ Within root (Documents d.here root) d d' ∧ d'.Saves root)
      ∨ ∃ k c d', j.followed i (createPackagePlan kind name (root.below (kindWay kind))
          (root.below (barrelWay kind))) d = (k, .ok c, d') ∧ k.id = i.id ∧ Added root kind name names d d' := by
  let i' := i.withCreated ((root.below (kindWay kind)).below (packageWay kind name)).text
  -- What is about to be made is recorded.
  rcases save_ok (i := i') hj h hid hkeeps with ⟨d₁, hrecord, hin₁, h₁⟩
  have htake : (j.take i (.record ((root.below (kindWay kind)).below (packageWay kind name)))).on d
      = (.ok (i', false), d₁) := by
    rw [take, learn, on_bind_ok hrecord]
    rfl
  have hmakable₁ := hmakable.after_save (i := i') hj h.stands.found h.stands.isFolder hid.1 hrecord
  rw [createPackagePlan_eq hname.isName, List.cons_append, followed_cons, htake]
  dsimp only
  rw [followed_append]
  rcases followed_packageFiles hname h₁.stands hmakable₁ hwalk j i' with
    ⟨f, d₂, hmaking, hin₂⟩ | ⟨c, d₂, hmaking, hin₂, hthere, hreached⟩
  · rw [hmaking]
    exact Or.inl ⟨i', f, d₂, rfl, rfl, hin₁.trans (hin₂.mono fun _ hl => hl.elim) (here_not_document h.stands),
      h₁.within hin₂ (fun _ hl => hl.elim) id⟩
  · have h₂ := h₁.within hin₂ (fun l hl => Region.below (Or.inr (Or.inr hl))) fun hl =>
      intents_not_region d₁.here root kind name (Or.inr (Or.inr hl))
    rw [hin₁.here] at hin₂ hthere
    have hfile₂ : d₂.tree.get? (spot d₂.here root ++ barrelWay kind) = some (.file (.text (Barrel.text names))) := by
      rw [hin₂.here, hin₁.here]
      exact (hin₂.files _ (barrel_ne_file _ _ hname) _).mpr ((hin₁.files _ (barrel_not_document _ _ _) _).mpr hfile)
    have hall : ∀ n ∈ names ++ [name], Barrel.Nameable n := by
      simpa [or_imp, forall_and, hname.nameable] using hnames
    have happly : (Edit.append (Snippet.barrelEntry name)).apply (root.below (barrelWay kind)).text (Barrel.text names)
        = .ok (Barrel.text (names ++ [name])) := congrArg Except.ok (Barrel.atEnd_text hname.nameable hnames hnew)
    rcases followed_barrel (i := i') hj hkeeps h₂ hid (Barrel.no_return_text hnames) (Barrel.no_return_text hall)
      hfile₂ happly (Or.inl rfl) (Or.inl rfl) with ⟨k, c', d₃, hbarrel, hk, hin₃, h₃, hfile₃⟩
    rw [hin₂.here, hin₁.here] at hin₃ hfile₃
    rw [hmaking]
    dsimp only
    rw [hbarrel]
    refine Or.inr ⟨k, c || c', d₃, rfl, hk, ?_, h₃, hfile₃, fun x hx => ?_, hreached⟩
    · refine ((hin₁.mono fun _ => Or.inl).trans (hin₂.mono fun _ hl => Or.inr (Or.inr hl)) ?_).trans
        (hin₃.mono fun l hl => ?_) ?_
      · exact here_not_region h.stands
      · exact hl.elim Or.inl fun hl => Or.inr (Or.inl hl)
      · exact here_not_region h.stands
    · rcases hthere x hx with ⟨c, hc⟩
      refine ⟨c, (hin₃.files _ (fun hl => ?_) _).mpr hc⟩
      rcases hl with hl | hl
      · exact kind_not_document _ _ _ _ hl
      · refine barrel_ne_file d.here root hname ?_
        rw [← hl]
        exact file_below_package hname hx

/-- The steps of a deletion are all taken. -/
theorem followed_packageDeletion (hreached : Reached root kind name)
    (hthere : d.tree.get? (spot d.here root ++ (kindWay kind ++ packageWay kind name)) ≠ none) :
    ∃ k c d', j.followed i (deletePackagePlan kind name (root.below (kindWay kind)) (root.below (barrelWay kind)) false) d
      = (k, .ok c, d') ∧ k.id = i.id ∧ Taken root kind name names d d' := by
  have hkept : ∀ n ∈ names.filter (· ≠ name), Barrel.Nameable n := fun n hn => hnames n (List.mem_filter.mp hn).1
  have happly : (Edit.erase (.barrelLine name)).apply (root.below (barrelWay kind)).text (Barrel.text names)
      = .ok (Barrel.text (names.filter (· ≠ name))) := congrArg Except.ok (Barrel.erase_text hname.nameable hnames)
  rcases followed_barrel hj hkeeps h hid (Barrel.no_return_text hnames) (Barrel.no_return_text hkept) hfile happly
    (Or.inr rfl) (Or.inr rfl) with ⟨k, c, d₁, hbarrel, hk, hin₁, h₁, hfile₁⟩
  rw [← hin₁.here] at hfile₁
  -- The line is gone, but not yet the package.
  have hother : ¬ (Documents d.here root (spot d.here root ++ (kindWay kind ++ packageWay kind name))
      ∨ spot d.here root ++ (kindWay kind ++ packageWay kind name) = spot d.here root ++ barrelWay kind) := by
    rintro (hl | hl)
    · exact kind_not_document _ _ _ _ hl
    · refine barrel_ne_file d.here root hname ?_
      rw [← hl]
  have hthere₁ : d₁.tree.get? (spot d₁.here root ++ (kindWay kind ++ packageWay kind name)) ≠ none := by
    rw [hin₁.here, hin₁.keeps _ hother hthere]
    exact hthere
  rcases remove_package hname h₁.stands hfile₁ hreached hthere₁ with ⟨d₂, hremove, hin₂, hgone⟩
  have h₂ := h₁.within hin₂ (fun l hl => Region.below (Or.inr (Or.inr hl))) fun hl =>
    intents_not_region d₁.here root kind name (Or.inr (Or.inr hl))
  have hfile₂ := (hin₂.files _ (barrel_ne_file d₁.here root hname) _).mpr hfile₁
  rw [hin₁.here] at hin₂ hgone hfile₂
  rw [deletePackagePlan_eq hname, followed_append, hbarrel]
  dsimp only
  rw [followed_cons, take, on_bind_ok hremove]
  refine ⟨k, c, d₂, ?_, hk, ?_, h₂, hfile₂, fun l hl c => ?_⟩
  · cases c <;> rfl
  · refine (hin₁.mono fun l hl => ?_).trans (hin₂.mono fun l hl => Or.inr (Or.inr hl)) (here_not_region h.stands)
    exact hl.elim Or.inl fun hl => Or.inr (Or.inl hl)
  · rw [hgone l hl]
    simp

end Commands

section Tracked

variable {d d' : Disk} {j : Journal} {names : List Text} {verb : Text} {args : List Text} {mode : Mode}

/-- Where intents can be saved, a failure is noted in its intent. -/
theorem on_settle_error {i : Intent} {f : Fault} (hj : j.Set root) (hkeeps : j.keeps = true) (h : d.Saves root)
    (hid : Intent.IsIdentifier i.id) : ∃ d', (j.settle i (.error f)).on d = (.error f, d')
      ∧ Within root (Documents d.here root) d d' := by
  rcases save_ok (i := i.withError f.message) hj h hid hkeeps with ⟨d', hsave, hin, -⟩
  exact ⟨d', on_bind_ok hsave, hin⟩

variable (hname : Canonical kind name) (hj : j.Set root) (hkeeps : j.keeps = true) (h : d.Stands root)
  (hfree : ∀ l, Documents d.here root l → d.tree.get? l ≠ some .folder)
  (hfile : d.tree.get? (spot d.here root ++ barrelWay kind) = some (.file (.text (Barrel.text names))))
  (hnames : ∀ n ∈ names, Barrel.Nameable n)
include hname hj hkeeps h hfree hfile hnames

/-- A creation that fails has left no file, and one that succeeds has made all of them
    and the line of the barrel. -/
theorem track_packageCreation (hnew : name ∉ names)
    (hmakable : Makable d (root.below (kindWay kind)) (filesOf (packageFiles kind name)))
    (hwalk : ∀ x ∈ filesOf (packageFiles kind name), unwalkable? (root.below (kindWay kind ++ x.1)) = none)
    {r : Except Fault Bool} (hrun : (j.track now verb args mode (createPackagePlan kind name
      (root.below (kindWay kind)) (root.below (barrelWay kind)))).on d = (r, d')) :
    (∃ f, r = .error f) ∧ Within root (Documents d.here root) d d'
      ∨ (∃ b, r = .ok b) ∧ Added root kind name names d d' := by
  have hid := Intent.isIdentifier verb args mode now
  rw [on_track] at hrun
  rcases hsave : (j.save (Intent.start verb args mode now)).on d with ⟨r₁, d₁⟩
  have hin₁ := within_save hj h hid hsave
  rw [hsave] at hrun
  cases r₁ with
  -- An intent that cannot be saved ends the command before it does anything.
  | error f =>
      rw [Prod.mk.injEq] at hrun
      rw [← hrun.1, ← hrun.2]
      exact Or.inl ⟨⟨f, rfl⟩, hin₁⟩
  | ok _ =>
      have h₁ := saves_of_save hj hkeeps h hfree hid hsave
      have hfile₁ : d₁.tree.get? (spot d₁.here root ++ barrelWay kind) = some (.file (.text (Barrel.text names))) := by
        rw [hin₁.here]
        exact (hin₁.files _ (barrel_not_document _ _ _) _).mpr hfile
      dsimp only at hrun
      -- A creation that is refused leaves nothing but documents, and any other adds the package.
      rcases followed_packageCreation (i := Intent.start verb args mode now) hname hj hkeeps h₁ hid hfile₁ hnames hnew
        (hmakable.after_save hj h.found h.isFolder hid.1 hsave) hwalk with
        ⟨k, f, d₂, hfollow, hk, hin₂, h₂⟩ | ⟨k, c, d₂, hfollow, hk, hadded⟩
      · have hid₂ : Intent.IsIdentifier k.id := hk ▸ hid
        rcases on_settle_error (f := f) hj hkeeps h₂ hid₂ with ⟨d₃, hsettle, hin₃⟩
        rw [hfollow] at hrun
        dsimp only at hrun
        rw [hsettle, Prod.mk.injEq] at hrun
        rw [← hrun.1, ← hrun.2]
        rw [hin₂.here, hin₁.here] at hin₃
        rw [hin₁.here] at hin₂
        exact Or.inl ⟨⟨f, rfl⟩, (hin₁.trans hin₂ (here_not_document h)).trans hin₃ (here_not_document h)⟩
      · have hid₂ : Intent.IsIdentifier k.id := hk ▸ hid
        rcases drop_ok hj hadded.saves hid₂ with ⟨d₃, hdrop, hin₃, -⟩
        rw [hfollow] at hrun
        dsimp only at hrun
        rw [settle, on_bind_ok hdrop, on_pure, Prod.mk.injEq] at hrun
        rw [← hrun.1, ← hrun.2]
        exact Or.inr ⟨⟨c, rfl⟩, hadded.between h hin₁ hin₃⟩

/-- A deletion whose intent could be saved succeeds. -/
theorem track_packageDeletion (hreached : Reached root kind name)
    (hthere : d.tree.get? (spot d.here root ++ (kindWay kind ++ packageWay kind name)) ≠ none)
    {r : Except Fault Bool} (hrun : (j.track now verb args mode (deletePackagePlan kind name
      (root.below (kindWay kind)) (root.below (barrelWay kind)) false)).on d = (r, d')) :
    (∃ f, r = .error f ∧ (j.save (Intent.start verb args mode now)).on d = (.error f, d'))
        ∧ Within root (Documents d.here root) d d'
      ∨ (∃ b, r = .ok b) ∧ Taken root kind name names d d' := by
  have hid := Intent.isIdentifier verb args mode now
  rw [on_track] at hrun
  rcases hsave : (j.save (Intent.start verb args mode now)).on d with ⟨r₁, d₁⟩
  have hin₁ := within_save hj h hid hsave
  rw [hsave] at hrun
  cases r₁ with
  | error f =>
      rw [Prod.mk.injEq] at hrun
      rw [← hrun.1, ← hrun.2]
      exact Or.inl ⟨⟨f, rfl, rfl⟩, hin₁⟩
  -- Once its intent is saved, the deletion cannot be refused: its barrel can be written and its
  -- files are there.
  | ok _ =>
      have h₁ := saves_of_save hj hkeeps h hfree hid hsave
      have hfile₁ : d₁.tree.get? (spot d₁.here root ++ barrelWay kind) = some (.file (.text (Barrel.text names))) := by
        rw [hin₁.here]
        exact (hin₁.files _ (barrel_not_document _ _ _) _).mpr hfile
      have hthere₁ : d₁.tree.get? (spot d₁.here root ++ (kindWay kind ++ packageWay kind name)) ≠ none := by
        rw [hin₁.here, hin₁.keeps _ (kind_not_document _ _ _ _) hthere]
        exact hthere
      dsimp only at hrun
      rcases followed_packageDeletion (i := Intent.start verb args mode now) hname hj hkeeps h₁ hid hfile₁ hnames
        hreached hthere₁ with ⟨k, c, d₂, hfollow, hk, htaken⟩
      have hid₂ : Intent.IsIdentifier k.id := hk ▸ hid
      rcases drop_ok hj htaken.saves hid₂ with ⟨d₃, hdrop, hin₃, -⟩
      rw [hfollow] at hrun
      dsimp only at hrun
      rw [settle, on_bind_ok hdrop, on_pure, Prod.mk.injEq] at hrun
      rw [← hrun.1, ← hrun.2]
      exact Or.inr ⟨⟨c, rfl⟩, htaken.between h hin₁ hin₃⟩

end Tracked

/-! ### Looking first -/

section Looking

variable {d d' : Disk} {names : List Text} {raw : Option Text} {r : Except Fault Artifact}

/-- A path that can be looked at can be walked, if no name on it is a null. -/
theorem walkable_of_isThere {p : Path} {b : Bool} (hnull : ∀ n ∈ p.names, '\x00' ∉ n)
    (h : (isThere p).on d = (.ok b, d)) : unwalkable? p = none := by
  cases hwalk : unwalkable? p with
  | none => rfl
  | some f =>
      -- A path without null that cannot be walked is too long, and so it would not have been looked at.
      have hlong : unwalkable? p = some .nameTooLong := by
        have hfar : ¬ Utf8.size p.text < pathLimit := fun hsize => by
          rw [unwalkable?_eq_none.mpr ⟨hnull, hsize⟩] at hwalk
          exact absurd hwalk (by simp)
        have hclean : '\x00' ∉ p.text := by
          rw [null_mem_text]
          rintro ⟨n, hn, hmem⟩
          exact hnull n hn hmem
        rw [unwalkable?, if_neg hclean, if_pos (Nat.le_of_not_lt hfar)]
      rw [isThere_of_too_long hlong] at h
      exact absurd h (by simp)

theorem file_names (hname : Canonical kind name) {x : List Text × Made} (hx : x ∈ filesOf (packageFiles kind name)) :
    ∀ n ∈ x.1, '\x00' ∉ n := by
  have hnull := hname.null_not_mem
  have hsuffix : ∀ {suffix : Text}, '\x00' ∉ suffix → '\x00' ∉ name ++ suffix := fun h => by
    rw [List.mem_append, not_or]
    exact ⟨hnull, h⟩
  intro n hn
  rcases (filesOf_package hname.isName kind).2 with ⟨-, t, u, hthings⟩ | ⟨-, t, hthings⟩
  · rw [hthings] at hx
    simp only [List.mem_cons, List.not_mem_nil, or_false] at hx
    -- The names of a component are its own, that of its file, and that of the barrel.
    rcases hx with rfl | rfl <;> simp only [List.mem_cons, List.not_mem_nil, or_false] at hn
    · rcases hn with rfl | rfl
      · exact hnull
      · exact hsuffix (by decide)
    · rcases hn with rfl | rfl
      · exact hnull
      · decide
  · rw [hthings, List.mem_singleton] at hx
    rw [hx, List.mem_singleton] at hn
    rw [hn]
    exact hsuffix (by cases kind <;> decide)

theorem ne_nil_filesOf (hname : Canonical kind name) : filesOf (packageFiles kind name) ≠ [] := by
  rcases (filesOf_package hname.isName kind).2 with ⟨-, t, u, hthings⟩ | ⟨-, t, hthings⟩ <;> rw [hthings] <;> simp

theorem null_not_mem_root (h : d.Stands root) : ∀ n ∈ root.names, '\x00' ∉ n :=
  (unwalkable?_eq_none.mp (find_eq h.found).1).1

theorem canonical_of_named {named : Named} (h : (Kind.package kind).named raw = .ok named) :
    Canonical kind named.name := ⟨raw, named, h, rfl⟩

/-- Where the files of a package lie. -/
theorem mem_filesIn (hname : Canonical kind name) {x : List Text × Made} (hx : x ∈ filesOf (packageFiles kind name)) :
    root.below (kindWay kind ++ x.1) ∈ (filesIn (root.below (kindWay kind)) (packageFiles kind name)).map Prod.fst := by
  rw [filesIn_eq (filesOf_package hname.isName kind).1, List.map_map]
  rcases List.mem_map.mp hx with ⟨f, hf, rfl⟩
  exact List.mem_map.mpr ⟨f, hf, Path.below_below _ _ _⟩

/-- What a deletion has looked at before its first step. -/
theorem packageDeletion_decides (kind : PackageKind) (raw : Option Text) (root : Path) (now : Timestamp) :
    Decides d (fun o => ∃ named loc, (Kind.package kind).named raw = .ok named
      ∧ o.plan = deletePackagePlan kind named.name (root.below (kindWay kind)) (root.below (barrelWay kind)) false
      ∧ (∀ b, (o.answer b).kind = .package kind ∧ (o.answer b).raw = named.raw ∧ (o.answer b).name = named.name)
      ∧ d.find (root.below (kindWay kind ++ packageWay kind named.name)) = .ok loc ∧ d.tree.get? loc ≠ none)
      ((plain root now).packageDeletion kind raw false) := by
  refine decides_bind (looks_packageTarget _ kind raw) fun t ht => ?_
  rcases t with ⟨named, base⟩
  rcases packageTarget_ok ht with ⟨hnamed, hbase, -⟩
  rw [show (plain root now).layout = .ofRoot root from rfl, packageFolder_plain, Except.ok.injEq] at hbase
  subst hbase
  refine decides_bind (looks_isThere _) fun there hthere => decides_require fun hyes =>
    decides_ofExcept fun barrel hbarrel => decides_pure ?_
  rw [show (plain root now).layout = .ofRoot root from rfl, barrel_plain, Except.ok.injEq] at hbarrel
  subst hbarrel
  rw [packageRoot_eq (canonical_of_named hnamed).isName, Path.below_below] at hthere
  rcases (isThere_iff hthere).mp (by simpa using hyes) with ⟨loc, hfind, hloc⟩
  exact ⟨named, loc, hnamed, rfl, fun _ => ⟨rfl, rfl, rfl⟩, hfind, hloc⟩

/-- What is found at the path to a package has been reached. -/
theorem reached_of_find {loc : Location}
    (hfind : d.find (root.below (kindWay kind ++ packageWay kind name)) = .ok loc) : Reached root kind name :=
  ⟨(find_eq hfind).1, fun n hn => sizes_of_find hfind n (List.mem_append_right _ (List.mem_append_right _ hn))⟩

/-- Where intents can be saved, the folder of a kind is found that has a barrel. -/
theorem find_kind (h : d.Saves root) {c : Content}
    (hfile : d.tree.get? (spot d.here root ++ barrelWay kind) = some (.file c)) :
    d.find (root.below (kindWay kind)) = .ok (spot d.here root ++ kindWay kind) := by
  have hfolder := folder_of_barrel h.stands hfile
  have hroom : Path.room (["src".toList, "packages".toList] ++ [kind.folder]) ≤ 40 := by cases kind <;> decide
  exact find_of_roomy h.stands h.roomy (kindWay_names kind).1 (by cases kind <;> decide) (kindWay_names kind).2 hroom
    (h.stands.folder_of_prefix hfolder ⟨[kind.folder], rfl⟩)

variable (h : d.Stands root) (hfree : ∀ l, Documents d.here root l → d.tree.get? l ≠ some .folder)
  (hfile : d.tree.get? (spot d.here root ++ barrelWay kind) = some (.file (.text (Barrel.text names))))
  (hnames : ∀ n ∈ names, Barrel.Nameable n)
include h hfree hfile hnames

/-- A package is made that was not listed, or nothing happens to any file. -/
theorem createPackage_cases (hlisted : ∀ n ∈ names, ∀ x ∈ filesOf (packageFiles kind n),
      d.tree.get? (spot d.here root ++ (kindWay kind ++ x.1)) ≠ none)
    (hrun : ((plain root now).createPackage kind raw).on d = (r, d')) :
    (∃ f, r = .error f) ∧ Within root (Documents d.here root) d d'
      ∨ ∃ a, r = .ok a ∧ a.kind = .package kind ∧ (Kind.package kind).named raw = .ok ⟨a.raw, a.name⟩
        ∧ a.name ∉ names ∧ Added root kind a.name names d d' := by
  have hdecides : Decides d (fun o => ∃ named, (Kind.package kind).named raw = .ok named
      ∧ o.plan = createPackagePlan kind named.name (root.below (kindWay kind)) (root.below (barrelWay kind))
      ∧ (∀ b, (o.answer b).kind = .package kind ∧ (o.answer b).raw = named.raw ∧ (o.answer b).name = named.name)
      ∧ (∃ loc, d.find (root.below (kindWay kind)) = .ok loc ∧ d.tree.get? loc = some .folder)
      ∧ ∀ file ∈ (filesIn (root.below (kindWay kind)) (packageFiles kind named.name)).map Prod.fst,
        (isThere file).on d = (.ok false, d)) ((plain root now).packageCreation kind raw) := by
    refine decides_bind (looks_packageTarget _ kind raw) fun t ht => ?_
    rcases t with ⟨named, base⟩
    rcases packageTarget_ok ht with ⟨hnamed, hbase, hfound⟩
    rw [show (plain root now).layout = .ofRoot root from rfl, packageFolder_plain, Except.ok.injEq] at hbase
    subst hbase
    refine decides_bind (looks_requireAbsent _) fun _ habsent => decides_ofExcept fun barrel hbarrel => decides_pure ?_
    rw [show (plain root now).layout = .ofRoot root from rfl, barrel_plain, Except.ok.injEq] at hbarrel
    subst hbarrel
    exact ⟨named, hnamed, rfl, fun _ => ⟨rfl, rfl, rfl⟩, hfound, requireAbsent_ok habsent⟩
  rw [createPackage] at hrun
  rcases hdecides with ⟨f, hf⟩ | ⟨o, ho, named, hnamed, hplan, hanswer, ⟨loc, hfind, hfolder⟩, hno⟩
  · rw [on_bind_error hf, Prod.mk.injEq] at hrun
    rw [← hrun.1, ← hrun.2]
    exact Or.inl ⟨⟨f, rfl⟩, Within.refl _ _ _⟩
  · have hname := canonical_of_named hnamed
    have hmakable := makable_package hname.isName kind hfind hfolder h.closed hno
    have hwalk : ∀ x ∈ filesOf (packageFiles kind named.name), unwalkable? (root.below (kindWay kind ++ x.1)) = none := by
      refine fun x hx => walkable_of_isThere (fun n hn => ?_) (hno _ (mem_filesIn hname hx))
      simp only [Path.below, List.mem_append] at hn
      rcases hn with hn | hn | hn
      · exact null_not_mem_root h n hn
      · exact (kindWay_names kind).2 n hn
      · exact file_names hname hx n hn
    -- A package that is listed has files, and these would have been seen.
    have hnew : named.name ∉ names := fun hmem => by
      rcases List.exists_mem_of_ne_nil _ (ne_nil_filesOf hname) with ⟨x, hx⟩
      rcases mem_filesOf_package hname.isName hx with ⟨ns, file, t, heq, -⟩
      have habsent := hmakable.absent x.1 t (by rw [← show x = (x.1, Made.newFile t) by rw [heq]]; exact hx)
      rw [Path.below_below] at habsent
      refine hlisted _ hmem x hx ?_
      rw [← habsent (hwalk x hx), spot_below]
      rw [List.mem_append, not_or]
      exact ⟨(kindWay_names kind).1, hmakable.straight x hx⟩
    rw [on_bind_ok ho, carryOut, hplan] at hrun
    rcases htrack : ((plain root now).journal.track (plain root now).now o.verb o.args o.mode (createPackagePlan kind named.name
      (root.below (kindWay kind)) (root.below (barrelWay kind)))).on d with ⟨q, e⟩
    have hcases := track_packageCreation hname (set_intentsFolder (.ofRoot root) true) rfl h hfree hfile hnames hnew
      hmakable hwalk htrack
    rcases hcases with ⟨⟨f, rfl⟩, hin⟩ | ⟨⟨b, rfl⟩, hadded⟩
    · rw [on_bind_error htrack, Prod.mk.injEq] at hrun
      rw [← hrun.1, ← hrun.2]
      exact Or.inl ⟨⟨f, rfl⟩, hin⟩
    · rw [on_bind_ok htrack, on_pure, Prod.mk.injEq] at hrun
      rcases hanswer b with ⟨hkind, hraw, hname'⟩
      rw [← hrun.1, ← hrun.2]
      refine Or.inr ⟨o.answer b, rfl, hkind, ?_, ?_, ?_⟩
      · rw [hraw, hname']
        exact hnamed
      · rw [hname']
        exact hnew
      · rw [hname']
        exact hadded

/-- A package is removed, or nothing happens to any file. -/
theorem deletePackage_cases (hrun : ((plain root now).deletePackage kind raw false).on d = (r, d')) :
    (∃ f, r = .error f) ∧ Within root (Documents d.here root) d d'
      ∨ ∃ a, r = .ok a ∧ a.kind = .package kind ∧ (Kind.package kind).named raw = .ok ⟨a.raw, a.name⟩
        ∧ Taken root kind a.name names d d' := by
  rw [deletePackage] at hrun
  -- The deletion is refused where it looks, or is carried out as planned.
  rcases packageDeletion_decides kind raw root now with ⟨f, hf⟩ | ⟨o, ho, named, loc, hnamed, hplan, hanswer, hfind, hloc⟩
  · rw [on_bind_error hf, Prod.mk.injEq] at hrun
    rw [← hrun.1, ← hrun.2]
    exact Or.inl ⟨⟨f, rfl⟩, Within.refl _ _ _⟩
  · have hname := canonical_of_named hnamed
    rw [spot_of_find hfind, spot_below _ _ hname.way_names.1] at hloc
    rw [on_bind_ok ho, carryOut, hplan] at hrun
    rcases htrack : ((plain root now).journal.track (plain root now).now o.verb o.args o.mode (deletePackagePlan kind
      named.name (root.below (kindWay kind)) (root.below (barrelWay kind)) false)).on d with ⟨q, e⟩
    have hcases := track_packageDeletion hname (set_intentsFolder (.ofRoot root) true) rfl h hfree hfile hnames
      (reached_of_find hfind) hloc htrack
    rcases hcases with ⟨⟨f, rfl, -⟩, hin⟩ | ⟨⟨b, rfl⟩, htaken⟩
    · rw [on_bind_error htrack, Prod.mk.injEq] at hrun
      rw [← hrun.1, ← hrun.2]
      exact Or.inl ⟨⟨f, rfl⟩, hin⟩
    · rw [on_bind_ok htrack, on_pure, Prod.mk.injEq] at hrun
      rcases hanswer b with ⟨hkind, hraw, hname'⟩
      rw [← hrun.1, ← hrun.2]
      refine Or.inr ⟨o.answer b, rfl, hkind, ?_, ?_⟩
      · rw [hraw, hname']
        exact hnamed
      · rw [hname']
        exact htaken

omit h hfree in
/-- A package that is there can be removed once an intent has been saved. -/
theorem deletePackage_ok (hsaves : d.Saves root) {named : Named} (hnamed : (Kind.package kind).named raw = .ok named)
    (hreached : Reached root kind named.name)
    (hthere : d.tree.get? (spot d.here root ++ (kindWay kind ++ packageWay kind named.name)) ≠ none) :
    ∃ a d', ((plain root now).deletePackage kind raw false).on d = (.ok a, d') := by
  have hname := canonical_of_named hnamed
  have hj : (plain root now).journal.Set root := set_intentsFolder (.ofRoot root) true
  rcases Option.ne_none_iff_exists'.mp hthere with ⟨x, hx⟩
  have hisFolder : (isFolder (root.below (kindWay kind))).on d = (.ok true, d) := by
    rw [on_isFolder, look_eq_some.mpr ⟨_, find_kind hsaves hfile, folder_of_barrel hsaves.stands hfile⟩]
    rfl
  -- The folder that the barrel lies in is found.
  have htarget : ((plain root now).packageTarget kind raw).on d = (.ok (named, root.below (kindWay kind)), d) := by
    rw [packageTarget, hnamed, on_ofExcept_bind, show (plain root now).layout = .ofRoot root from rfl,
      packageFolder_plain, on_ofExcept_bind, on_bind_ok hisFolder]
    rfl
  -- So is the package that it lists.
  have hisThere : (isThere (packageRoot kind named.name (root.below (kindWay kind)))).on d = (.ok true, d) := by
    rw [packageRoot_eq hname.isName, Path.below_below]
    exact isThere_of_find (find_package hname hsaves.stands hfile hreached) hx
  have horder : ∃ o, ((plain root now).packageDeletion kind raw false).on d = (.ok o, d) := by
    rw [packageDeletion, on_bind_ok htarget]
    dsimp only
    rw [on_bind_ok hisThere, show (plain root now).layout = .ofRoot root from rfl, barrel_plain]
    exact ⟨_, rfl⟩
  rcases horder with ⟨o, ho⟩
  rcases packageDeletion_decides kind raw root now with ⟨f, hf⟩ | ⟨o', ho', named', loc, hnamed', hplan, -, -, -⟩
  · exact absurd (ho.symm.trans hf) (by simp)
  · rw [ho, Prod.mk.injEq, Except.ok.injEq] at ho'
    rw [hnamed, Except.ok.injEq] at hnamed'
    rcases ho' with ⟨rfl, -⟩
    subst hnamed'
    rcases htrack : ((plain root now).journal.track (plain root now).now o.verb o.args o.mode (deletePackagePlan kind
      named.name (root.below (kindWay kind)) (root.below (barrelWay kind)) false)).on d with ⟨q, e⟩
    -- Only saving the intent could still fail, and that it does not.
    rcases track_packageDeletion hname hj rfl hsaves.stands hsaves.free hfile hnames hreached hthere htrack with
      ⟨⟨f, -, hsave⟩, -⟩ | ⟨⟨b, rfl⟩, -⟩
    · rcases save_ok (i := Intent.start o.verb o.args o.mode (plain root now).now) hj hsaves
        (Intent.isIdentifier o.verb o.args o.mode (plain root now).now) rfl with ⟨d₁, hsaved, -⟩
      exact absurd (hsave.symm.trans hsaved) (by simp)
    · refine ⟨o.answer b, e, ?_⟩
      rw [deletePackage, on_bind_ok ho, carryOut, hplan, on_bind_ok htrack]
      rfl

end Looking

end Project

end RouteScaffold

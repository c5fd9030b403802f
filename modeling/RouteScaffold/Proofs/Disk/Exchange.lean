import RouteScaffold.Proofs.Disk.Stopping
import RouteScaffold.Proofs.Disk.Level

/-!
# Exchanging Files

A file is exchanged by way of a new one that is made aside, in the folder that
the file lies in. Where a path leads to something that is no folder, or to
nothing, its parent leads to a folder, and the name aside can be looked up in it,
unless that name or the path to it is too long. Nothing else stands in the way of
an exchange.

## Main definitions

* `Disk.Sound`: What disks are like.

## Theorems

* `find_parent`: Where the parent of a path leads.
* `replaceable_cases`: A file can be exchanged, or a name is too long.
-/

namespace RouteScaffold

open Location

namespace Utf8

theorem size_append (s t : Text) : size (s ++ t) = size s + size t := by
  induction s with
  | nil => simp [size]
  | cons c s ih => rw [List.cons_append, size, size, ih, Nat.add_assoc]

/-- A text of characters of one byte has as many bytes as characters. -/
theorem size_eq_length {t : Text} (h : ∀ c ∈ t, c.utf8Size = 1) : size t = t.length := by
  induction t with
  | nil => rfl
  | cons c t ih =>
      rw [size, h c List.mem_cons_self, ih fun d hd => h d (List.mem_cons_of_mem c hd),
        List.length_cons, Nat.add_comm]

end Utf8

namespace Path

theorem join_concat (names : List Text) (n : Text) :
    Text.join ['/'] names <+: Text.join ['/'] (names ++ [n]) := by
  induction names with
  | nil => exact List.nil_prefix
  | cons m names ih =>
      cases names with
      | nil =>
          rw [List.singleton_append, Text.join_cons]
          exact List.prefix_append _ _
      | cons k names =>
          rw [List.cons_append, List.cons_append, Text.join_cons, Text.join_cons,
            List.prefix_append_right_inj, List.cons_prefix_cons]
          exact ⟨rfl, ih⟩

/-- The text of a path starts with that of its parent, unless the parent is
    printed as a dot. -/
theorem text_parent (p : Path) : p.parent.text = ['.'] ∨ p.parent.text <+: p.text := by
  -- The names of the parent are all but the last, so their text is a beginning.
  have hjoin : Text.join ['/'] p.parent.names <+: Text.join ['/'] p.names := by
    rcases List.eq_nil_or_concat p.names with hnil | ⟨xs, n, hnames⟩
    · simp [parent, hnil]
    · rw [parent, hnames, List.concat_eq_append, List.dropLast_concat]
      exact join_concat xs n
  have hpre : p.anchor.text ++ Text.join ['/'] p.parent.names
      <+: p.anchor.text ++ Text.join ['/'] p.names := (List.prefix_append_right_inj _).mpr hjoin
  rw [text, text]
  split
  · exact Or.inl rfl
  · next hne =>
      right
      -- An empty text would have been printed as a dot.
      split
      · next hnil =>
          rw [hnil, List.prefix_nil] at hpre
          exact absurd hpre hne
      · exact hpre

end Path

namespace Disk

/-- A path that can be walked has a parent that can be walked. -/
theorem walkable_parent {p : Path} (h : unwalkable? p = none) : unwalkable? p.parent = none := by
  rw [unwalkable?] at h ⊢
  split at h
  · exact absurd h (by simp)
  · next hnull =>
      split at h
      · exact absurd h (by simp)
      · next hsize =>
          -- Both reasons for refusing a path pass from the parent to the whole.
          have hnull' : '\x00' ∉ p.parent.text := by
            rw [null_mem_text] at hnull ⊢
            rintro ⟨n, hn, hmem⟩
            exact hnull ⟨n, List.mem_of_mem_dropLast hn, hmem⟩
          have hsize' : Utf8.size p.parent.text < pathLimit := by
            rcases Path.text_parent p with hdot | ⟨rest, hrest⟩
            · rw [hdot]
              decide
            · rw [← hrest, Utf8.size_append] at hsize
              omega
          rw [if_neg hnull', if_neg (by omega)]

end Disk

namespace Tree

variable {t : Tree} {loc l : Location} {names : List Text}

/-- A walk through folders arrives, unless a name is too long. -/
theorem walk_of_stations (h : ∀ s ∈ stations loc names, t.get? s = some .folder) :
    t.walk loc names = .ok (place loc names) ∨ t.walk loc names = .error .nameTooLong := by
  induction names generalizing loc with
  | nil => exact Or.inl rfl
  | cons n ns ih =>
      rw [stations, List.forall_mem_cons] at h
      rw [walk_cons, h.1]
      dsimp only
      split
      · exact Or.inr rfl
      · exact ih h.2

/-- What a folder holds is found from the root, unless a name is too long. -/
theorem Closed.walk_within (h : t.Closed) (hfolder : t.get? l = some .folder) (hdots : ['.', '.'] ∉ l)
    {n : Text} (hn : n ≠ ['.', '.']) :
    t.walk [] (l ++ [n]) = .ok (l ++ [n]) ∨ t.walk [] (l ++ [n]) = .error .nameTooLong := by
  have hnames : ['.', '.'] ∉ l ++ [n] := by
    rw [List.mem_append, List.mem_singleton, not_or]
    exact ⟨hdots, Ne.symm hn⟩
  have hstations : ∀ s ∈ stations [] (l ++ [n]), t.get? s = some .folder := by
    intro s hs
    rcases exists_of_mem_stations hs with ⟨xs, m, ys, heq, rfl⟩
    have hxs : ['.', '.'] ∉ xs := fun hmem => hnames (by rw [heq]; simp [hmem])
    rw [place_of_names hxs, List.nil_append]
    -- A station lies on the way to the last name, so in the folder or at it.
    have hpre : xs <+: l := by
      have hlen : xs.length ≤ l.length := by
        have := congrArg List.length heq
        simp only [List.length_append, List.length_cons, List.length_nil] at this
        omega
      exact List.prefix_of_prefix_length_le ⟨m :: ys, heq.symm⟩ (List.prefix_append l [n]) hlen
    by_cases hsame : xs = l
    · rw [hsame]
      exact hfolder
    · exact h.get?_of_prefix (by rw [hfolder]; simp) hpre hsame
  have hwalk := walk_of_stations hstations
  rwa [place_of_names hnames, List.nil_append] at hwalk

/-- What is there is among the entries. -/
theorem mem_of_get? {e : Entry} (h : t.get? l = some e) (hroot : l ≠ []) : (l, e) ∈ t.entries := by
  rw [get?, if_neg hroot] at h
  generalize t.entries = es at h
  induction es with
  | nil => exact absurd h (by simp [entryAt])
  | cons x es ih =>
      rcases x with ⟨k, e'⟩
      by_cases hk : k = l
      · rw [entryAt, if_pos hk, Option.some.injEq] at h
        rw [hk, h]
        exact List.mem_cons_self
      · rw [entryAt, if_neg hk] at h
        exact List.mem_cons_of_mem _ (ih h)

end Tree

namespace Disk

variable {d : Disk} {p : Path} {loc : Location}

/-- What disks are like: everything lies in a folder, there is a folder where
    relative paths are walked, reached by names that there can be, and a file
    whose bytes spell a text holds that text. -/
structure Sound (d : Disk) : Prop where
  closed : d.tree.Closed
  here : d.tree.get? d.here = some .folder
  named : ∀ n ∈ d.here, n ≠ ['.', '.'] ∧ '\x00' ∉ n
  spelled : ∀ l c t, d.tree.get? l = some (.file c) → c.read = .ok t → c = .text t

/-- A disk whose files are texts is one that disks are like. -/
theorem Sound.of_texts (hclosed : d.tree.Closed) (hhere : d.tree.get? d.here = some .folder)
    (hnamed : ∀ n ∈ d.here, n ≠ ['.', '.'] ∧ '\x00' ∉ n)
    (htexts : ∀ x ∈ d.tree.entries, ∀ c, x.2 = .file c → ∃ t, c = .text t) : d.Sound := by
  refine ⟨hclosed, hhere, hnamed, fun l c t hfile hread => ?_⟩
  have hroot : l ≠ [] := by
    rintro rfl
    exact absurd (hfile.symm.trans (Tree.get?_root d.tree)) (by simp)
  rcases htexts _ (Tree.mem_of_get? hfile hroot) c rfl with ⟨u, rfl⟩
  exact congrArg Content.text (Except.ok.inj hread)

/-- Where a path leads to no folder, its parent leads to the folder there. -/
theorem find_parent (h : d.find p = .ok loc) (hloc : d.tree.get? loc ≠ some .folder)
    (hclosed : d.tree.Closed) (hhere : d.tree.get? d.here = some .folder) :
    ∃ n, n ∈ p.names ∧ n ≠ ['.', '.'] ∧ p.names.getLast? = some n ∧ loc = spot d.here p.parent ++ [n]
      ∧ d.find p.parent = .ok (spot d.here p.parent)
      ∧ d.tree.get? (spot d.here p.parent) = some .folder := by
  rcases find_eq h with ⟨hwalkable, hwalk⟩
  -- The way starts at a folder, and so the path has a name.
  have horigin : d.tree.get? (d.origin p) = some .folder := by
    rw [origin]
    split
    · exact hhere
    · exact Tree.get?_root _
  rcases List.eq_nil_or_concat p.names with hnil | ⟨xs, n, hnames⟩
  · rw [hnil, Tree.walk, Except.ok.injEq] at hwalk
    exact absurd (hwalk ▸ horigin) hloc
  · rw [List.concat_eq_append] at hnames
    have hparent : p.parent = ⟨p.anchor, xs⟩ := by
      rw [Path.parent, hnames, List.dropLast_concat]
    rw [hnames, Tree.walk_append] at hwalk
    split at hwalk
    · next loc' hxs =>
        have hfolder : d.tree.get? loc' = some .folder := by
          rw [Tree.walk_cons] at hwalk
          split at hwalk
          · assumption
          · exact absurd hwalk (by simp)
          · exact absurd hwalk (by simp)
        have hlast := Tree.place_of_walk hwalk
        change loc = step loc' n at hlast
        -- A last name that leads up would end at a folder.
        have hn : n ≠ ['.', '.'] := by
          rintro rfl
          rw [hlast] at hloc
          exact hloc (hclosed loc' (by rw [hfolder]; simp))
        have hspot : loc' = spot d.here p.parent := by
          rw [hparent]
          exact Tree.place_of_walk hxs
        have hfind : d.find p.parent = .ok loc' := by
          rw [find, walkable_parent hwalkable, hparent]
          exact hxs
        rw [step, if_neg hn, hspot] at hlast
        rw [hspot] at hfolder hfind
        exact ⟨n, by simp [hnames], hn, by simp [hnames], hlast, hfind, hfolder⟩
    · exact absurd hwalk (by simp)

theorem isFolder_parent (h : d.find p = .ok loc) (hloc : d.tree.get? loc ≠ some .folder)
    (hclosed : d.tree.Closed) (hhere : d.tree.get? d.here = some .folder) :
    (Job.isFolder p.parent).on d = (.ok true, d) := by
  rcases find_parent h hloc hclosed hhere with ⟨n, -, -, -, -, hfind, hfolder⟩
  rw [Job.on_isFolder, look_eq_some.mpr ⟨_, hfind, hfolder⟩]
  rfl

theorem mem_place {loc : Location} {names : List Text} {n : Text} (h : n ∈ place loc names) :
    n ∈ loc ∨ n ∈ names ∧ n ≠ ['.', '.'] := by
  induction names generalizing loc with
  | nil => exact Or.inl h
  | cons m names ih =>
      rcases @ih (step loc m) h with hmem | ⟨hmem, hne⟩
      · rw [step] at hmem
        split at hmem
        · exact Or.inl (List.mem_of_mem_dropLast hmem)
        · next hm =>
            rcases List.mem_append.mp hmem with hmem | hmem
            · exact Or.inl hmem
            · rw [List.mem_singleton.mp hmem]
              exact Or.inr ⟨by simp, hm⟩
      · exact Or.inr ⟨by simp [hmem], hne⟩

/-- The path aside leads into the folder that the parent of a path leads to. -/
theorem aside_eq (hdots : ∀ n ∈ d.here, n ≠ ['.', '.']) : d.aside p
    = ⟨.root, spot d.here p.parent ++ [asideName (p.names.getLast?.getD [])]⟩ := by
  have hhere : place [] d.here = d.here := by
    rw [place_of_names fun hmem => hdots _ hmem rfl, List.nil_append]
  have hplace : ∀ names, Path.withoutDots names = place [] names := fun _ => rfl
  rw [aside, Path.resolved]
  congr 1
  rw [hplace]
  congr 1
  rw [spot, Path.join]
  rcases p with ⟨anchor, names⟩
  cases anchor with
  | here =>
      change place [] (d.here ++ names.dropLast) = place d.here names.dropLast
      rw [place_append, hhere]
  | root => rfl
  | doubled => rfl

/-- What is no folder can be exchanged, unless a name or a path is too long. -/
theorem replaceable_cases (h : d.find p = .ok loc) (hloc : d.tree.get? loc ≠ some .folder)
    (hclosed : d.tree.Closed) (hhere : d.tree.get? d.here = some .folder)
    (hnamed : ∀ n ∈ d.here, n ≠ ['.', '.'] ∧ '\x00' ∉ n) :
    d.replaceable p = .ok loc ∨ d.replaceable p = .error .nameTooLong := by
  rcases find_parent h hloc hclosed hhere with ⟨n, hmem, hn, hlast, -, -, hfolder⟩
  -- The names are those of a path that has been walked, so none has a null character.
  have hnull : ∀ m ∈ p.names, '\x00' ∉ m := by
    intro m hm hchar
    have hwalkable := (find_eq h).1
    rw [unwalkable?, if_pos ((null_mem_text p).mpr ⟨m, hm, hchar⟩)] at hwalkable
    exact absurd hwalkable (by simp)
  have hmem_spot : ∀ m ∈ spot d.here p.parent, m ≠ ['.', '.'] ∧ '\x00' ∉ m := by
    intro m hm
    rcases mem_place hm with hm | ⟨hm, hdots⟩
    · split at hm
      · exact hnamed m hm
      · exact absurd hm (by simp)
    · exact ⟨hdots, hnull m (List.mem_of_mem_dropLast hm)⟩
  -- The path aside leads into the same folder, under a name that may be too long.
  have haside : d.find (d.aside p) = .ok (spot d.here p.parent ++ [asideName n])
      ∨ d.find (d.aside p) = .error .nameTooLong := by
    have hname : asideName n ≠ ['.', '.'] := by
      intro heq
      have := congrArg List.length heq
      rw [asideName, List.length_append] at this
      change n.length + 1 + 13 = 2 at this
      omega
    have hwalk := hclosed.walk_within hfolder (fun hmem => (hmem_spot _ hmem).1 rfl) hname
    rw [aside_eq fun m hm => (hnamed m hm).1, hlast, Option.getD_some, find]
    split
    -- Of the two reasons why a path cannot be walked only its length is left.
    · next e he =>
        right
        rw [unwalkable?] at he
        split at he
        · next hchar =>
            exfalso
            rcases (null_mem_text _).mp hchar with ⟨m, hm, hm'⟩
            rcases List.mem_append.mp hm with hm | hm
            · exact (hmem_spot m hm).2 hm'
            · rw [List.mem_singleton.mp hm, asideName, List.mem_append, List.mem_cons] at hm'
              rcases hm' with (hm' | hm') | hm'
              · exact absurd hm' (by decide)
              · exact hnull n hmem hm'
              · exact absurd hm' (by decide)
        · split at he
          · rw [← Option.some.inj he]
          · exact absurd he (by simp)
    · exact hwalk
  rw [replaceable, h]
  rcases haside with haside | haside
  · left
    rw [haside]
    dsimp only
    rw [hlast, Option.all_some, if_neg (by simpa using hn), if_neg hloc]
  · right
    rw [haside]

end Disk

end RouteScaffold

import RouteScaffold.Proofs.Disk.Jobs
import RouteScaffold.Proofs.Edit.Insertion
import RouteScaffold.Proofs.Text.Names

/-!
# Paths That Lead Further Down

A path goes on from another by names. Names without slashes that are neither
empty nor dots are printed and read back as they are, so a path that is made of
such names leads straight down from where it starts.

## Main definitions

* `Path.below`: A path that leads further down.
* `Path.IsName`: A single name, and none that leads up.
* `Path.Plain`: A path that a text says.

## Theorems

* `div_name`, `div_text`: Going on by a name, or by several.
* `Plain.ofText_text`: A path is read back from its text.
* `spot_below`, `way_below`: Where such a path leads, and through what.
* `null_mem_text`: Where a null character in a path comes from.
* `find_through`, `find_below`: What is found further down, and below a folder.
-/

namespace RouteScaffold

open Location

theorem Text.join_cons (piece next : Text) (pieces : List Text) :
    join ['/'] (piece :: next :: pieces) = piece ++ '/' :: join ['/'] (next :: pieces) := by
  rw [join, List.append_assoc, List.singleton_append]
  simp

namespace Path

/-- A path that leads further down. -/
def below (p : Path) (names : List Text) : Path := ⟨p.anchor, p.names ++ names⟩

/-- Whether a text is a single name, and none that leads up. -/
def IsName (t : Text) : Prop := '/' ∉ t ∧ t ≠ [] ∧ t ≠ ['.'] ∧ t ≠ ['.', '.']

theorem not_up_of_names {names : List Text} (h : ∀ name ∈ names, IsName name) : ['.', '.'] ∉ names :=
  fun hmem => (h _ hmem).2.2.2 rfl

theorem IsName.counts {t : Text} (h : IsName t) : Path.counts t = true := by
  have hempty : t.isEmpty = false := by simp [h.2.1]
  simp [Path.counts, hempty, h.2.2.1]

theorem anchor_of_head {t : Text} (h : t.head? ≠ some '/') : Anchor.ofText t = .here := by
  cases t with
  | nil => rfl
  | cons c t =>
      have hc : c ≠ '/' := fun hc => h (by rw [hc]; rfl)
      unfold Anchor.ofText
      split
      · next heq => exact absurd (List.cons.inj heq).1 hc
      · next heq => exact absurd (List.cons.inj heq).1 hc
      · next heq => exact absurd (List.cons.inj heq).1 hc
      · rfl

theorem anchor_root {t : Text} (h : t.head? ≠ some '/') : Anchor.ofText ('/' :: t) = .root := by
  cases t with
  | nil => rfl
  | cons c t =>
      have hc : c ≠ '/' := fun hc => h (by rw [hc]; rfl)
      unfold Anchor.ofText
      split
      · rfl
      · next heq => exact absurd (List.cons.inj (List.cons.inj heq).2).1 hc
      · rfl
      · next hno => exact absurd rfl (hno _)

theorem anchor_doubled {t : Text} (h : t.head? ≠ some '/') : Anchor.ofText ('/' :: '/' :: t) = .doubled := by
  cases t with
  | nil => rfl
  | cons c t =>
      have hc : c ≠ '/' := fun hc => h (by rw [hc]; rfl)
      unfold Anchor.ofText
      split
      · next heq => exact absurd (List.cons.inj (List.cons.inj (List.cons.inj heq).2).2).1 hc
      · rfl
      · next hno heq => exact (hno (c :: t) (List.cons.inj heq).2.symm).elim
      · next hno => exact absurd rfl (hno _)

theorem IsName.ofText {t : Text} (h : IsName t) : Path.ofText t = ⟨.here, [t]⟩ := by
  have hanchor : Anchor.ofText t = .here := by
    apply anchor_of_head
    intro hhead
    exact h.1 (List.mem_of_mem_head? hhead)
  rw [Path.ofText, hanchor, Text.splitAt_of_not_mem h.1, List.filter_cons_of_pos h.counts,
    List.filter_nil]

/-- A relative text of several names. -/
theorem IsName.ofText_cons {t : Text} (h : IsName t) (r : Text) :
    Path.ofText (t ++ '/' :: r) = ⟨.here, t :: (Path.ofText r).names⟩ := by
  have hanchor : Anchor.ofText (t ++ '/' :: r) = .here := by
    apply anchor_of_head
    intro hhead
    cases t with
    | nil => exact h.2.1 rfl
    | cons c t => exact h.1 (by rw [← Option.some.inj hhead]; simp)
  rw [Path.ofText, hanchor, Text.splitAt_append h.1, List.filter_cons_of_pos h.counts]
  rfl

theorem div_text {t : Text} {names : List Text} (h : Path.ofText t = ⟨.here, names⟩) (p : Path) :
    p / t = p.below names := by
  change p.join (Path.ofText t) = _
  rw [h]
  rfl

theorem div_name {t : Text} (h : IsName t) (p : Path) : p / t = p.below [t] := div_text h.ofText p

/-! ### Printing and reading -/

/-- A path each name of which says something: a path that a text says. -/
def Plain (p : Path) : Prop := ∀ n ∈ p.names, '/' ∉ n ∧ counts n = true

theorem not_mem_of_splitAt {sep : Char} {t piece : Text} (h : piece ∈ Text.splitAt sep t) :
    sep ∉ piece := by
  induction t generalizing piece with
  | nil =>
      rw [Text.splitAt, List.mem_singleton] at h
      simp [h]
  | cons c t ih =>
      rw [Text.splitAt] at h
      split at h
      · rcases List.mem_cons.mp h with rfl | h
        · simp
        · exact ih h
      · next hc =>
          split at h
          -- The separator does not stand here, and what is left is one piece.
          · rw [List.mem_singleton.mp h, List.mem_singleton]
            exact fun heq => hc heq.symm
          · next first rest hsplit =>
              rcases List.mem_cons.mp h with rfl | h
              · rw [List.mem_cons, not_or]
                exact ⟨fun heq => hc heq.symm, ih (by simp [hsplit])⟩
              · exact ih (by simp [hsplit, h])

theorem plain_ofText (t : Text) : (ofText t).Plain := fun n hn => by
  rw [ofText, List.mem_filter] at hn
  exact ⟨not_mem_of_splitAt hn.1, hn.2⟩

theorem Plain.join {p q : Path} (hp : p.Plain) (hq : q.Plain) : (p.join q).Plain := by
  rw [Path.join]
  split
  · intro n hn
    rcases List.mem_append.mp hn with hn | hn
    · exact hp n hn
    · exact hq n hn
  · exact hq

theorem Plain.div {p : Path} (h : p.Plain) (t : Text) : (p / t).Plain := h.join (plain_ofText t)

theorem Plain.below {p : Path} (h : p.Plain) {names : List Text} (hnames : ∀ n ∈ names, IsName n) :
    (p.below names).Plain := fun n hn => by
  rcases List.mem_append.mp hn with hn | hn
  · exact h n hn
  · exact ⟨(hnames n hn).1, (hnames n hn).counts⟩

/-- Joined names come apart again. -/
theorem filter_splitAt_join {names : List Text} (h : ∀ n ∈ names, '/' ∉ n ∧ counts n = true) :
    (Text.splitAt '/' (Text.join ['/'] names)).filter counts = names := by
  induction names with
  | nil => rfl
  | cons n names ih =>
      have hn := h n (by simp)
      cases names with
      | nil => rw [Text.join, Text.splitAt_of_not_mem hn.1, List.filter_cons_of_pos hn.2,
          List.filter_nil]
      | cons m names =>
          rw [Text.join_cons, Text.splitAt_append hn.1, List.filter_cons_of_pos hn.2,
            ih fun k hk => h k (by simp [hk])]

theorem join_head {names : List Text} (h : ∀ n ∈ names, '/' ∉ n ∧ counts n = true) :
    (Text.join ['/'] names).head? ≠ some '/' := by
  match names with
  | [] => simp [Text.join]
  | [n] => exact fun hhead => (h n (by simp)).1 (List.mem_of_mem_head? hhead)
  | n :: m :: names =>
      have hn := h n (by simp)
      cases n with
      | nil => exact absurd hn.2 (by decide)
      | cons c n =>
          intro hhead
          rw [Text.join_cons, List.cons_append, List.head?_cons, Option.some.injEq] at hhead
          exact hn.1 (by simp [hhead])

/-- A path is read back from its text. -/
theorem Plain.ofText_text {p : Path} (h : p.Plain) : ofText p.text = p := by
  have hhead := join_head h
  have hnames := filter_splitAt_join h
  rcases p with ⟨anchor, names⟩
  dsimp only at hhead hnames
  cases anchor with
  | here =>
      -- An empty relative path is printed as a dot.
      cases names with
      | nil => rfl
      | cons n names =>
          have htext : text ⟨.here, n :: names⟩ = Text.join ['/'] (n :: names) := by
            rw [text, Anchor.text, List.nil_append]
            split
            · next hnil =>
                rw [hnil] at hnames
                exact absurd hnames (by simp [Text.splitAt, counts])
            · rfl
          rw [htext, ofText, hnames, anchor_of_head hhead]
  | root =>
      -- The slashes of the anchor make empty pieces, which do not count as names.
      change ofText ('/' :: Text.join ['/'] names) = _
      rw [ofText, Text.splitAt, if_pos rfl, List.filter_cons_of_neg (by decide), hnames,
        anchor_root hhead]
  | doubled =>
      change ofText ('/' :: '/' :: Text.join ['/'] names) = _
      rw [ofText, Text.splitAt, if_pos rfl, Text.splitAt, if_pos rfl, List.filter_cons_of_neg (by decide),
        List.filter_cons_of_neg (by decide), hnames, anchor_doubled hhead]

theorem below_below (p : Path) (xs ys : List Text) : (p.below xs).below ys = p.below (xs ++ ys) := by
  simp [below]

end Path

/-- A walk through folders succeeds if no name is too long. -/
theorem Tree.walk_folders {t : Tree} {loc : Location} {names : List Text}
    (h : ∀ s ∈ stations loc names, t.get? s = some .folder) :
    t.walk loc names = .ok (place loc names) ∨ t.walk loc names = .error .nameTooLong := by
  induction names generalizing loc with
  | nil => exact Or.inl rfl
  | cons n names ih =>
      rw [walk_cons, h loc (by simp [stations])]
      dsimp only
      split
      · exact Or.inr rfl
      · exact ih fun s hs => h s (List.mem_cons_of_mem _ hs)

namespace Disk

/-- Where a path leads that leads further down. -/
theorem spot_below (here : Location) (p : Path) {names : List Text} (h : ['.', '.'] ∉ names) :
    spot here (p.below names) = spot here p ++ names := by
  rw [spot, Path.below, place_append]
  exact place_of_names h

theorem way_below (here : Location) (p : Path) (names : List Text) :
    way here (p.below names) = way here p ++ stations (spot here p) names :=
  stations_append _ _ _

variable {d : Disk} {p : Path} {loc : Location}

theorem mem_join_of_mem {sep : Text} {ws : List Text} {w : Text} {c : Char} (hw : w ∈ ws) (hc : c ∈ w) :
    c ∈ Text.join sep ws := by
  induction ws with
  | nil => exact absurd hw (by simp)
  | cons v ws ih =>
      cases ws with
      | nil =>
          rw [List.mem_singleton.mp hw] at hc
          exact hc
      | cons u ws =>
          rw [Text.join]
          · rcases List.mem_cons.mp hw with rfl | hw
            · simp [hc]
            · exact List.mem_append_right _ (ih hw)
          · simp

/-- Where a null character in a path comes from. -/
theorem null_mem_text (p : Path) : '\x00' ∈ p.text ↔ ∃ name ∈ p.names, '\x00' ∈ name := by
  -- Null characters come neither from the anchor nor from the slashes.
  have hanchor : '\x00' ∉ p.anchor.text := by
    cases p.anchor <;> decide
  have hwhole : '\x00' ∈ p.text ↔ '\x00' ∈ p.anchor.text ++ Text.join ['/'] p.names := by
    rw [Path.text]
    split
    · next heq =>
        rw [heq]
        decide
    · rfl
  rw [hwhole, List.mem_append]
  constructor
  · rintro (h | h)
    · exact absurd h hanchor
    · rcases Naming.mem_join h with h | h
      · exact absurd h (by decide)
      · exact h
  · rintro ⟨name, hname, h⟩
    exact Or.inr (mem_join_of_mem hname h)

/-- What is found further down, through folders, if neither a name nor the path is too
    long. -/
theorem find_through {names : List Text} (h : d.find p = .ok loc)
    (hfolders : ∀ s ∈ stations loc names, d.tree.get? s = some .folder) (hdots : ['.', '.'] ∉ names)
    (hnull : ∀ n ∈ names, '\x00' ∉ n) :
    d.find (p.below names) = .ok (loc ++ names) ∨ d.find (p.below names) = .error .nameTooLong := by
  rw [find]
  cases hwalk : unwalkable? (p.below names) with
  | some e =>
      -- Of the two reasons why a path cannot be walked only its length is left.
      rw [unwalkable?] at hwalk
      split at hwalk
      · next hmem =>
          exfalso
          rcases (null_mem_text _).mp hmem with ⟨n, hn, hc⟩
          rcases List.mem_append.mp hn with hn | hn
          · have hstart := (find_eq h).1
            rw [unwalkable?, if_pos ((null_mem_text p).mpr ⟨n, hn, hc⟩)] at hstart
            exact absurd hstart (by simp)
          · exact hnull n hn hc
      · split at hwalk
        · rw [← Option.some.inj hwalk]
          exact Or.inr rfl
        · exact absurd hwalk (by simp)
  | none =>
      dsimp only
      -- The start of the way is walked as before, and the rest goes through folders.
      have hstart := (find_eq h).2
      rw [show (p.below names).names = p.names ++ names from rfl, Tree.walk_append,
        show d.origin (p.below names) = d.origin p from rfl, hstart]
      dsimp only
      rw [← place_of_names hdots]
      exact Tree.walk_folders hfolders

/-- What is found below a folder, if neither name nor path is too long. -/
theorem find_below (name : Text) (h : d.find p = .ok loc) (hfolder : d.tree.get? loc = some .folder)
    (hname : name ≠ ['.', '.']) (hnull : '\x00' ∉ name) :
    d.find (p.below [name]) = .ok (loc ++ [name]) ∨ d.find (p.below [name]) = .error .nameTooLong :=
  find_through h (by simpa [stations] using hfolder) (by simpa using Ne.symm hname) (by simpa using hnull)

end Disk

end RouteScaffold

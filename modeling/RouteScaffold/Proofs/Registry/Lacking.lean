import RouteScaffold.Proofs.Edit.Statements
import RouteScaffold.Proofs.Registry.FlatRoundTrip

/-!
# What a Registry Lacks

Removing something from a registry takes out what mentions it by name, without asking
what it belongs to. So a removal changes nothing only where the name is not used at
all: what would have to be free for the artifact to be made is free. In the marker
dialect the imports from a module's folder of pages go with the module, so there must
be none of them either.

An element in the marker dialect is found by its path and not by its name. That an
element with the path of a page is the element of that page is a property of
registries that pages are added to by their raw names.

## Main definitions

* `Registry.Lacks`: A registry that has nothing of an artifact.
* `Marker.Outline.Paged`: An outline whose pages have the paths that their names tell.

## Theorems

* `Recogniser.erase_of_unread`: Nothing is erased where nothing is read.
* `Registry.Lacks.apply_flat`, `Registry.Lacks.apply_marker`: Removing what a registry
  lacks leaves its text as it is.
-/

namespace RouteScaffold

open Naming Text Pattern Recogniser Cursor

/-! ### Patterns that stand nowhere -/

namespace Recogniser

theorem quiet_of_findFrom_none {m : Recogniser} {b : Option Char} {t : Text} (h : m.findFrom b t = none) :
    Quiet m b t [] := by
  induction t generalizing b with
  | nil => trivial
  | cons c t ih =>
      rw [findFrom] at h
      split at h
      · exact absurd h (by simp)
      · next hread =>
          rw [length?, Option.map_eq_none_iff] at hread
          rw [quiet_cons, List.append_nil]
          exact ⟨hread, ih (Option.map_eq_none_iff.mp h)⟩

/-- Nothing is erased where nothing is read. -/
theorem erase_of_unread {m : Recogniser} {t : Text} (h : m.find? t = none) : m.erase t = t :=
  eraseFrom_of_quiet m none t (quiet_of_findFrom_none h)

end Recogniser

namespace Pattern

variable {w t : Text}

theorem erase_of_not_occursIn {p : Pattern} (h : ¬ p.occursIn t = true) : p.erase t = t :=
  erase_of_unread (by rwa [occursIn, Bool.not_eq_true, Option.isSome_eq_false_iff, Option.isNone_iff_eq_none] at h)

/-- An import of a symbol mentions the symbol. -/
theorem mentions_of_importOf (h : (importOf w).occursIn t = true) : mentions w t = true := by
  rcases (findFrom_isSome_iff _ _ _).mp h with ⟨s, r, rfl, hread⟩
  rcases Option.isSome_iff_exists.mp hread with ⟨k, hk⟩
  rw [recognise_importOf_eq] at hk
  rcases Option.bind_eq_some_iff.mp hk with ⟨k', hhead, hlazy⟩
  rcases importHead?_eq_some.mp hhead with ⟨-, c, -, rfl, hbefore⟩
  rcases exists_of_lazyFrom hlazy with ⟨v, r', hafter, -, hnext⟩
  rcases Option.bind_eq_some_iff.mp hnext with ⟨k'', hword, -⟩
  rw [mentions_eq, mentionsFrom, findFrom_isSome_iff]
  refine ⟨s ++ ("import".toList ++ c :: v), r', by rw [hafter]; simp, ?_⟩
  rw [passed_append, passed_append, passed, ← hbefore, hword]
  rfl

/-- An import from a folder has the text of the folder. -/
theorem part_of_importFrom (h : (importFrom w).occursIn t = true) : w <:+: t := by
  rcases (findFrom_isSome_iff _ _ _).mp h with ⟨s, r, rfl, hread⟩
  rcases Option.isSome_iff_exists.mp hread with ⟨k, hk⟩
  rw [recognise_importFrom_eq] at hk
  rcases Option.bind_eq_some_iff.mp hk with ⟨k', hhead, hlazy⟩
  rcases importHead?_eq_some.mp hhead with ⟨-, c, -, rfl, -⟩
  rcases exists_of_lazyFrom hlazy with ⟨v, r', hafter, -, hsource⟩
  rcases importSource?_eq_some hsource with ⟨gap, q, body, q', rest, hr', -⟩
  rw [hafter, hr']
  refine ⟨s ++ ("import".toList ++ c :: (v ++ ("from".toList ++ (gap ++ [q])))), body ++ q' :: ';' :: rest, ?_⟩
  simp only [List.append_assoc, List.cons_append, List.nil_append]

end Pattern

/-- What is not used is not mentioned. -/
theorem Guard.not_mentions {w t : Text} (h : uses t w = false) : mentions w t = false := by
  rw [uses] at h
  split at h
  · exact h
  · rw [Bool.eq_false_iff]
    intro hmentions
    rw [mentions_eq, mentionsFrom_iff] at hmentions
    rcases hmentions with ⟨s, r, rfl, -⟩
    rw [(occurs_iff_part _ _).mpr ⟨s, r, List.append_assoc _ _ _⟩] at h
    exact absurd h (by simp)

/-! ### Outlines -/

namespace Marker

theorem onFirst_of_fixed {α : Type} {p : α → Bool} {f : α → α} {xs : List α}
    (h : ∀ x ∈ xs, p x = true → f x = x) : onFirst p f xs = xs := by
  induction xs with
  | nil => rfl
  | cons x xs ih =>
      rw [onFirst]
      split
      · next hp => rw [h x (by simp) hp]
      · rw [ih fun y hy => h y (by simp [hy])]

namespace Outline

variable {o : Outline} {m : ModuleRef} {p : PageRef}

/-- An outline whose pages have the paths that their names tell. -/
def Paged (o : Outline) : Prop := ∀ b ∈ o.branches, ∀ l ∈ b.leaves, Accepts l.segment l.name

theorem Paged.addModule (h : o.Paged) (m : ModuleRef) : (o.addModule m).Paged := by
  intro b hb l hl
  change b ∈ o.branches ++ [_] at hb
  rcases List.mem_append.mp hb with hb | hb
  · exact h b hb l hl
  · rw [List.mem_singleton.mp hb] at hl
    exact absurd hl (by simp)

theorem Paged.addPage (h : o.Paged) (hp : p.Accepted) : (o.addPage p).Paged := by
  intro b hb l hl
  rcases List.mem_map.mp hb with ⟨c, hc, rfl⟩
  split at hl
  · rcases List.mem_append.mp hl with hl | hl
    · exact h c hc l hl
    · rw [List.mem_singleton.mp hl]
      exact hp.2
  · exact h c hc l hl

theorem Paged.removeModule (h : o.Paged) (m : ModuleRef) : (o.removeModule m).Paged :=
  fun b hb => h b (List.mem_of_mem_eraseP hb)

theorem mem_onFirst {α : Type} {q : α → Bool} {f : α → α} {xs : List α} {y : α} (h : y ∈ onFirst q f xs) :
    y ∈ xs ∨ ∃ x ∈ xs, y = f x := by
  induction xs with
  | nil => exact absurd h (by simp [onFirst])
  | cons x xs ih =>
      rw [onFirst] at h
      split at h
      · rcases List.mem_cons.mp h with rfl | h
        · exact Or.inr ⟨x, by simp, rfl⟩
        · exact Or.inl (by simp [h])
      · rcases List.mem_cons.mp h with rfl | h
        · exact Or.inl (by simp)
        · rcases ih h with hy | ⟨z, hz, heq⟩
          · exact Or.inl (by simp [hy])
          · exact Or.inr ⟨z, by simp [hz], heq⟩

theorem Paged.removePage (h : o.Paged) (p : PageRef) : (o.removePage p).Paged := by
  intro b hb l hl
  rcases mem_onFirst hb with hb | ⟨c, hc, rfl⟩
  · exact h b hb l hl
  · exact h c hc l (List.mem_of_mem_eraseP hl)

/-- The element of a page is part of the text. -/
theorem pageElement_part {b : Branch} (hb : b ∈ o.branches) {l : Leaf} (hl : l ∈ b.leaves) :
    Snippet.pageElement l.segment l.name <:+: o.text := by
  rcases List.append_of_mem hb with ⟨bs, cs, hsplit⟩
  rcases List.append_of_mem hl with ⟨ls, ks, hleaves⟩
  rw [text_within hsplit hleaves, List.flatMap_cons, Leaf.text]
  refine ⟨o.upTo bs b ls, "\n          ".toList ++ (ks.flatMap Leaf.text ++ (Snippet.sentinelOf b.segment
    ++ ("\n        </Route>\n        ".toList ++ (cs.flatMap Branch.text ++ (rootSentinel ++ tail))))), ?_⟩
  simp only [List.append_assoc]

theorem cutBranch_of_unused {segment : Text} (h : Guard.uses o.text (Snippet.sentinelOf segment) = false) :
    o.cutBranch segment = o := by
  have hnone : o.branches.eraseP (fun b => b.segment = segment) = o.branches :=
    List.eraseP_of_forall_not fun b hb heq =>
      constant_ne_of_unused h b hb (congrArg asConstant (of_decide_eq_true heq))
  rw [cutBranch, hnone]

theorem cutLeaf_of_unused (h : o.Paged) {within segment name : Text} (hname : Accepts segment name)
    (hunused : Guard.uses o.text name = false) : o.cutLeaf within segment = o := by
  have hnone : onFirst (fun b : Branch => b.segment = within) (fun b =>
      { b with leaves := b.leaves.eraseP fun l => l.segment = segment }) o.branches = o.branches := by
    refine onFirst_of_fixed fun b hb _ => ?_
    have hleaves : b.leaves.eraseP (fun l => l.segment = segment) = b.leaves := by
      refine List.eraseP_of_forall_not fun l hl heq => ?_
      have hsegment : l.segment = segment := of_decide_eq_true heq
      have hsame : l.name = name := accepts_name_eq (hsegment ▸ h b hb l hl) hname
      rcases pageElement_delimited l.segment l.name with ⟨s, r, helement⟩
      rw [← hsame] at hunused
      exact not_infix_of_unused helement (accepts_name_ne (h b hb l hl)) (by decide) (by decide) hunused
        (pageElement_part hb hl)
    rw [hleaves]
  rw [cutLeaf, hnone]

end Outline

end Marker

/-! ### Registries -/

namespace Registry

variable {r : Registry} {x : Routed} {t file : Text} {e : Edit}

/-- A registry that has nothing of an artifact: what would have to be free for it to be
    made is free, and nothing is imported from the pages of a module. -/
structure Lacks (r : Registry) (x : Routed) (t : Text) : Prop where
  unused : ∀ name ∈ (r.guard x).identifiers, Guard.uses t name = false
  pages : ∀ m, x = .module m → r.dialect = .marker → ¬ pageSource m.segment [] <:+: t

namespace Lacks

open Marker

/-- Removing what a registry of the flat dialect lacks leaves its text as it is. -/
theorem apply_flat (h : r.Lacks x t) (hr : r.dialect = .flat) (hx : x.Built) (he : e ∈ (r.remove x).edits)
    (file : Text) : e.apply file t = .ok t := by
  have hunused : Guard.uses t x.symbol = false := by
    have hmem := (guard_eq r x).2.2
    rw [hr] at hmem
    exact h.unused _ hmem
  have hbreak : '\n' ∉ x.symbol := not_mem_of_tame hx.sound_import.name (by decide)
  rw [(flat_file_eq hr x).2.2, List.mem_singleton] at he
  rw [he, Edit.apply, erase_lineWith_unused hx.symbol_ne hbreak (Guard.not_mentions hunused)]

/-- Removing what a registry of the marker dialect lacks leaves its text as it is. -/
theorem apply_marker {o : Outline} (h : r.Lacks x o.text) (hr : r.dialect = .marker) (ho : o.Sound)
    (hpaged : o.Paged) (hx : x.Built) (he : e ∈ (r.remove x).edits) (file : Text) :
    e.apply file o.text = .ok o.text := by
  -- The guard does not find the name.
  have hname : Guard.uses o.text x.name = false := by
    have hmem := (guard_eq r x).2.2
    rw [hr, Routed.importIn_name] at hmem
    exact h.unused _ hmem
  -- So there is no import of it.
  have himport : erase (.importOf x.name) o.text = o.text := by
    refine erase_of_not_occursIn fun hoccurs => ?_
    have hmentions := mentions_of_importOf hoccurs
    rw [Guard.not_mentions hname] at hmentions
    exact absurd hmentions (by simp)
  rw [Registry.remove_eq hr] at he
  cases x with
  | module m =>
      have hpages : erase (.importFrom (pageSource m.segment [])) o.text = o.text :=
        erase_of_not_occursIn fun hoccurs => h.pages m rfl hr (part_of_importFrom hoccurs)
      -- Nor does it find the sentinel, so there is no block with this segment.
      have hsentinel : Guard.uses o.text (Snippet.sentinelOf m.segment) = false := by
        refine h.unused _ ?_
        rw [Registry.guard, moduleGuard, hr]
        simp
      have hcut : (Edit.cutRoute m.segment none).apply file o.text = .ok o.text := by
        rw [Edit.apply, remove_branch ho, Outline.cutBranch_of_unused hsentinel]
      simp only [Routed.imports, Routed.cut, List.map_cons, List.map_nil, List.cons_append, List.nil_append,
        List.mem_cons, List.not_mem_nil, or_false] at he
      rcases he with rfl | rfl | rfl
      · exact congrArg _ himport
      · exact congrArg _ hpages
      · exact hcut
  | page p =>
      -- A page without its name has no leaf either.
      have hcut : (Edit.cutRoute p.segment (some p.module.segment)).apply file o.text = .ok o.text := by
        rw [Edit.apply, remove_leaf ho, Outline.cutLeaf_of_unused hpaged hx.2.2 hname]
      simp only [Routed.imports, Routed.cut, List.map_cons, List.map_nil, List.cons_append, List.nil_append,
        List.mem_cons, List.not_mem_nil, or_false] at he
      rcases he with rfl | rfl
      · exact congrArg _ himport
      · exact hcut

end Lacks

end Registry

end RouteScaffold

import RouteScaffold.Proofs.Project.Amending
import RouteScaffold.Proofs.Registry.FlatOutline
import RouteScaffold.Proofs.Registry.Lacking

/-!
# Registries That List Modules

Whether there is room for a module is asked of the registry: its guard refuses a module
whose name the registry uses. That this refuses a second module with the name of one
that is there rests on what the registry goes on saying of the first. In the marker
dialect a module that has been made has a block, whose opening tag holds its name, until
a block with its segment is cut out. In the flat dialect it has a line of the array that
holds its variable, until a word of that line is removed.

The guard of the flat dialect asks for the variable and not for the name, so what it
refuses are modules with the same variable.

## Main definitions

* `Marker.Outline.blocks`: The segments and the names of the blocks of an outline.
* `Lists`: A text that is a registry of a dialect, and lists some modules.

## Theorems

* `Lists.add_module`, `Lists.remove_module`, `Lists.add_page`, `Lists.remove_page`: The
  revisions of a registry, and what it lists afterwards.
* `Lists.refuses`: The guard of a registry refuses a module like one that is listed.
-/

namespace RouteScaffold

open Naming Text Recogniser

variable {role t : Text} {dialect : Dialect} {r : Registry} {m : ModuleRef} {p : PageRef}
  {live live' : List ModuleRef}

/-! ### Blocks -/

namespace Marker

theorem map_onFirst {α β : Type} {key : α → β} {q : α → Bool} {f : α → α} (hf : ∀ x, key (f x) = key x)
    (xs : List α) : (onFirst q f xs).map key = xs.map key := by
  induction xs with
  | nil => rfl
  | cons x xs ih =>
      unfold onFirst
      by_cases hq : q x = true
      · rw [if_pos hq, List.map_cons, List.map_cons, hf]
      · rw [if_neg hq, List.map_cons, List.map_cons, ih]

namespace Outline

variable {o : Outline}

/-- The segments and the names of the blocks of an outline. -/
def blocks (o : Outline) : List (Text × Text) := o.branches.map fun b => (b.segment, b.name)

theorem blocks_addModule (o : Outline) (m : ModuleRef) :
    (o.addModule m).blocks = o.blocks ++ [(m.segment, m.name)] := List.map_append

theorem blocks_addPage (o : Outline) (p : PageRef) : (o.addPage p).blocks = o.blocks := by
  unfold blocks addPage addLeaf
  rw [List.map_map]
  refine List.map_congr_left fun b _ => ?_
  dsimp only [Function.comp]
  split <;> rfl

theorem blocks_removePage (o : Outline) (p : PageRef) : (o.removePage p).blocks = o.blocks := by
  have hfixed : ∀ b : Branch, (fun b : Branch => (b.segment, b.name))
      { b with leaves := b.leaves.eraseP fun l => l.segment = p.segment } = (b.segment, b.name) := fun _ => rfl
  exact map_onFirst hfixed o.branches

/-- A block with another segment stays. -/
theorem mem_blocks_removeModule {segment name : Text} (h : (segment, name) ∈ o.blocks)
    (hne : segment ≠ m.segment) : (segment, name) ∈ (o.removeModule m).blocks := by
  rcases List.mem_map.mp h with ⟨b, hb, heq⟩
  rw [Prod.mk.injEq] at heq
  refine List.mem_map.mpr ⟨b, ?_, by rw [heq.1, heq.2]⟩
  exact (List.mem_eraseP_of_neg (by simpa [heq.1] using hne)).mpr hb

/-- The name of a block is used. -/
theorem uses_of_mem_blocks {segment name : Text} (h : (segment, name) ∈ o.blocks) (hne : name ≠ []) :
    Guard.uses o.text name = true := by
  rcases List.mem_map.mp h with ⟨b, hb, heq⟩
  rw [Prod.mk.injEq] at heq
  -- The name stands in the opening tag of its block, between delimiters.
  rcases List.append_of_mem hb with ⟨bs, cs, hsplit⟩
  rcases opening_delimited b with ⟨s, u, hopening⟩
  have hpart : b.opening <:+: o.text := by
    rw [text_at_branch hsplit]
    exact ⟨(o.withBranches bs).body, "\n          ".toList ++ (b.leaves.flatMap Leaf.text
      ++ (Snippet.sentinelOf b.segment ++ "\n        </Route>\n        ".toList))
      ++ (cs.flatMap Branch.text ++ (rootSentinel ++ Outline.tail)), by
        rw [show b.text = b.opening ++ ("\n          ".toList ++ (b.leaves.flatMap Leaf.text
          ++ (Snippet.sentinelOf b.segment ++ "\n        </Route>\n        ".toList))) from rfl]
        simp only [List.append_assoc]⟩
  by_contra hunused
  rw [Bool.not_eq_true, ← heq.2] at hunused
  exact not_infix_of_unused hopening (by rw [heq.2]; exact hne) (by decide) (by decide) hunused hpart

/-- The anchors of modules are found. -/
theorem Sound.anchors (h : o.Sound) : (Anchor.literal exportAnchor).Stands o.text
    ∧ (Anchor.literal rootSentinel).Stands o.text := by
  constructor
  · have hrest : ∃ r, o.text = o.head ++ (exportAnchor ++ r) :=
      ⟨" function ".toList ++ registrySymbol o.role ++ "() \x7b\n  return (\n    ".toList
        ++ (o.opening ++ ("\n        ".toList ++ (o.branches.flatMap Branch.text
        ++ (rootSentinel ++ Outline.tail)))), rfl⟩
    rcases hrest with ⟨r, hr⟩
    unfold Anchor.Stands
    rw [hr, locate_literal (passes_export_head h)]
    rfl
  · unfold Anchor.Stands
    rw [text_eq_body, locate_literal (passes_root_body h)]
    rfl

end Outline

end Marker

/-! ### Lines -/

namespace Flat

/-- The line of a module in the array. -/
def entryLine (m : ModuleRef) : Text := "  " ++ Snippet.moduleEntry m.routeSymbol

theorem entryLine_eq (m : ModuleRef) : entryLine m = ' ' :: ' ' :: (m.routeSymbol ++ [',']) := rfl

/-- What the line of a module mentions is what its variable mentions. -/
theorem mentions_entryLine {w : Text} (hne : w ≠ []) (hspace : ' ' ∉ w) (hcomma : ',' ∉ w) (m : ModuleRef) :
    mentions w (entryLine m) = mentions w m.routeSymbol := by
  -- The blanks before the variable and the comma behind it delimit it.
  have hblank : ∀ (b : Option Char) (u : Text), mentionsFrom w b (' ' :: u) = mentionsFrom w (some ' ') u := by
    intro b u
    have hcut := mentionsFrom_delimited hne (d := ' ') (by decide) hspace b [] u
    rwa [List.nil_append, mentionsFrom_nil hne, Bool.false_or] at hcut
  rw [mentions_eq, entryLine_eq, hblank, hblank, mentionsFrom_delimited hne (by decide) hcomma,
    mentionsFrom_nil hne, Bool.or_false, mentions_eq]
  have hside : (some ' ').any isWord = none.any isWord := by decide
  exact mentionsFrom_congr hside hne _

/-- The variable of a module that has a line is used. -/
theorem uses_of_mem_below {o : Outline} (h : entryLine m ∈ o.below) : Guard.uses o.text m.routeSymbol = true := by
  rcases List.append_of_mem h with ⟨us, vs, hsplit⟩
  have hline : entryLine m = [' '] ++ ' ' :: (m.routeSymbol ++ ',' :: []) := rfl
  by_contra hunused
  rw [Bool.not_eq_true] at hunused
  refine not_infix_of_unused hline (Routed.routeSymbol_ne m) (by decide) (by decide) hunused ?_
  refine ⟨rowsOf o.above ++ (head o.role ++ '\n' :: rowsOf us), '\n' :: rowsOf vs, ?_⟩
  unfold Outline.text
  rw [hsplit]
  simp [rowsOf]

end Flat

/-! ### Listings -/

/-- A text that is a registry of a dialect, and lists some modules: each of them has a
    block with its name, or a line with its variable. -/
def Lists (role : Text) (live : List ModuleRef) : Dialect → Text → Prop
  | .marker, t => ∃ o : Marker.Outline, (o.Sound ∧ o.Paged) ∧ (o.role = role ∧ o.text = t)
      ∧ ∀ m ∈ live, (m.segment, m.name) ∈ o.blocks
  | .flat, t => ∃ o : Flat.Outline, o.Sound ∧ (o.role = role ∧ o.text = t)
      ∧ ∀ m ∈ live, Flat.entryLine m ∈ o.below

namespace Lists

/-- A registry goes on listing less. -/
theorem mono (h : Lists role live dialect t) (hsub : ∀ m ∈ live', m ∈ live) : Lists role live' dialect t := by
  cases dialect with
  | marker =>
      rcases h with ⟨o, hsound, htext, hlive⟩
      exact ⟨o, hsound, htext, fun m hm => hlive m (hsub m hm)⟩
  | flat =>
      rcases h with ⟨o, hsound, htext, hlive⟩
      exact ⟨o, hsound, htext, fun m hm => hlive m (hsub m hm)⟩

theorem no_return (h : Lists role live dialect t) : '\r' ∉ t := by
  cases dialect with
  | marker =>
      rcases h with ⟨o, ⟨hsound, -⟩, ⟨-, rfl⟩, -⟩
      exact hsound.no_return
  | flat =>
      rcases h with ⟨o, hsound, ⟨-, rfl⟩, -⟩
      exact hsound.not_mem (Or.inl rfl)

/-- A new registry lists nothing. -/
theorem of_new (h : isRoleName role = true) (dialect : Dialect) :
    ∃ t, Project.roleFiles role dialect = [("routes/route.tsx".toList, t)] ∧ Lists role [] dialect t := by
  cases dialect with
  | marker =>
      have hpaged : (Marker.Outline.empty role).Paged := fun b hb => absurd hb (by simp [Marker.Outline.empty])
      have hsound : (Marker.Outline.empty role).Sound :=
        ⟨h, by simp [Marker.Outline.empty], by simp [Marker.Outline.empty], List.nodup_nil⟩
      exact ⟨_, Marker.roleFiles_marker role, _, ⟨hsound, hpaged⟩, ⟨rfl, rfl⟩, by simp⟩
  | flat => exact ⟨_, Flat.roleFiles_flat role, _, Flat.sound_empty h, ⟨rfl, rfl⟩, by simp⟩

/-- A registry that lets a module in lists it from then on. -/
theorem add_module (h : Lists role live r.dialect t) (hm : m.Accepted) (hrole : m.role = role)
    (hadmits : (r.guard (.module m)).admits t = .ok ()) (file : Text) :
    ∃ t', Lists role (live ++ [m]) r.dialect t' ∧ Edit.Leads file (r.add (.module m)).edits t t' := by
  cases hr : r.dialect with
  | marker =>
      rw [hr] at h
      rcases h with ⟨o, ⟨hsound, hpaged⟩, ⟨rfl, rfl⟩, hlive⟩
      -- The guard has seen that neither the name nor the place of pages is used.
      have hunused := (Guard.admits_iff.mp hadmits).2
      change ∀ name ∈ (r.moduleGuard m).identifiers, _ at hunused
      rw [Registry.moduleGuard, hr] at hunused
      have hsentinel := hunused (Snippet.sentinelOf m.segment) (by simp)
      refine ⟨_, ⟨o.addModule m, ⟨Marker.sound_addModule hsound hm.spelled hsentinel, hpaged.addModule m⟩,
        ⟨rfl, rfl⟩, ?_⟩, Marker.leads_addModule hsound hr hm.spelled file (hunused m.name (by simp)) hsentinel⟩
      rw [Marker.Outline.blocks_addModule]
      refine List.forall_mem_append.mpr ⟨fun n hn => List.mem_append_left _ (hlive n hn), ?_⟩
      exact List.forall_mem_singleton.mpr (by simp)
  | flat =>
      rw [hr] at h
      rcases h with ⟨o, hsound, ⟨rfl, rfl⟩, hlive⟩
      refine ⟨_, ⟨o.add m, Flat.sound_add hsound hm hrole, ⟨rfl, rfl⟩, ?_⟩,
        hsound.leads_add hr hm hrole hadmits file⟩
      refine List.forall_mem_append.mpr ⟨fun n hn => List.mem_cons_of_mem _ (hlive n hn), ?_⟩
      exact List.forall_mem_singleton.mpr List.mem_cons_self

/-- A registry from which a module is taken goes on listing those with other segments.
    In the flat dialect the variable that is removed must be no word of theirs. -/
theorem remove_module (h : Lists role live r.dialect t) (hm : m.Accepted)
    (hne : r.dialect = .flat → role ≠ m.routeSymbol ++ ['\n'])
    (hapart : r.dialect = .flat → ∀ n ∈ live, n.segment ≠ m.segment → mentions m.routeSymbol n.routeSymbol = false)
    (file : Text) : ∃ t', Lists role (live.filter fun n => n.segment ≠ m.segment) r.dialect t'
      ∧ Edit.Leads file (r.remove (.module m)).edits t t' := by
  cases hr : r.dialect with
  | marker =>
      rw [hr] at h
      rcases h with ⟨o, ⟨hsound, hpaged⟩, ⟨rfl, rfl⟩, hlive⟩
      refine ⟨_, ⟨o.removeModule m, ⟨Marker.sound_removeModule hsound m, hpaged.removeModule m⟩, ⟨rfl, rfl⟩, ?_⟩,
        Marker.leads_removeModule hsound hr hm.spelled file⟩
      intro n hn
      rw [List.mem_filter, decide_eq_true_eq] at hn
      exact Marker.Outline.mem_blocks_removeModule (hlive n hn.1) hn.2
  | flat =>
      rw [hr] at h
      rcases h with ⟨o, hsound, ⟨rfl, rfl⟩, hlive⟩
      refine ⟨_, ⟨o.remove m.routeSymbol, Flat.sound_remove hsound _, ⟨rfl, rfl⟩, ?_⟩,
        hsound.leads_remove hr hm (hne hr) file⟩
      intro n hn
      rw [List.mem_filter, decide_eq_true_eq] at hn
      -- The line of a module with another segment does not hold the word that is removed.
      have htame := Routed.tame_routeSymbol hm
      have hkept : mentions m.routeSymbol (Flat.entryLine n) = false := by
        rw [Flat.mentions_entryLine (Routed.routeSymbol_ne m) (not_mem_of_tame htame (by decide))
          (not_mem_of_tame htame (by decide))]
        exact hapart hr n hn.1 hn.2
      exact List.mem_filter.mpr ⟨hlive n hn.1, by rw [hkept]; rfl⟩

/-- A registry goes on listing what it lists when a page is made. -/
theorem add_page (h : Lists role live r.dialect t) (hp : p.Accepted)
    (hadmits : r.dialect = .marker → (r.guard (.page p)).admits t = .ok ()) (file : Text) :
    ∃ t', Lists role live r.dialect t'
      ∧ Edit.Leads file (Project.sharedEdits r (r.add (.page p)).edits) t t' := by
  rw [Project.sharedEdits]
  cases hr : r.dialect with
  | marker =>
      rw [hr] at h
      -- The guard has found the anchor and no name, which is what the two insertions need.
      rcases h with ⟨o, ⟨hsound, hpaged⟩, ⟨rfl, rfl⟩, hlive⟩
      have hadmitted := Guard.admits_iff.mp (hadmits hr)
      change (∀ a ∈ (r.pageGuard p).anchors, _) ∧ ∀ name ∈ (r.pageGuard p).identifiers, _ at hadmitted
      rw [Registry.pageGuard, hr] at hadmitted
      refine ⟨_, ⟨o.addPage p, ⟨Marker.sound_addPage hsound hp.spelled, hpaged.addPage hp⟩, ⟨rfl, rfl⟩, ?_⟩,
        Marker.leads_addPage hsound hr hp.spelled file (hadmitted.2 p.name (by simp)) (hadmitted.1 _ (by simp))⟩
      rw [Marker.Outline.blocks_addPage]
      exact hlive
  | flat =>
      rw [hr] at h
      exact ⟨t, h, .nil⟩

/-- A registry goes on listing what it lists when a page is removed. -/
theorem remove_page (h : Lists role live r.dialect t) (hp : p.Accepted) (file : Text) :
    ∃ t', Lists role live r.dialect t'
      ∧ Edit.Leads file (Project.sharedEdits r (r.remove (.page p)).edits) t t' := by
  rw [Project.sharedEdits]
  cases hr : r.dialect with
  | marker =>
      rw [hr] at h
      rcases h with ⟨o, ⟨hsound, hpaged⟩, ⟨rfl, rfl⟩, hlive⟩
      refine ⟨_, ⟨o.removePage p, ⟨Marker.sound_removePage hsound p, hpaged.removePage p⟩, ⟨rfl, rfl⟩, ?_⟩,
        Marker.leads_removePage hsound hr hp.spelled file⟩
      rw [Marker.Outline.blocks_removePage]
      exact hlive
  | flat =>
      rw [hr] at h
      exact ⟨t, h, .nil⟩

/-- The guard of a registry refuses a module with the name of one that is listed; in the
    flat dialect, one with its variable. -/
theorem refuses (h : Lists role live r.dialect t) {n : ModuleRef} (hn : n.Accepted) (hrole : n.role = role)
    (hm : m ∈ live) (hname : n.name = m.name) (hsymbol : r.dialect = .flat → n.routeSymbol = m.routeSymbol) :
    ∃ name, (r.guard (.module n)).admits t = .error (.identifierTaken name r.file.text) := by
  change ∃ name, (r.moduleGuard n).admits t = _
  rw [Registry.moduleGuard]
  cases hr : r.dialect with
  | marker =>
      rw [hr] at h
      rcases h with ⟨o, ⟨hsound, -⟩, ⟨-, rfl⟩, hlive⟩
      have hanchors : Guard.requireAnchors r.file.text o.text
          [.literal exportAnchor, .literal rootSentinel] = .ok () :=
        Guard.requireAnchors_iff.mpr (by simpa using hsound.anchors)
      -- The anchors are found, so the name is asked for.
      have hused := Marker.Outline.uses_of_mem_blocks (hlive m hm) (hname ▸ accepts_name_ne hn)
      refine ⟨n.name, ?_⟩
      rw [Guard.admits, hanchors]
      dsimp only [bind, Except.bind]
      rw [Guard.requireUnused, hname, if_pos hused]
  | flat =>
      rw [hr] at h
      rcases h with ⟨o, hsound, ⟨rfl, rfl⟩, hlive⟩
      have hanchors : Guard.requireAnchors r.file.text o.text [.arrayHead (registrySymbol n.role)] = .ok () := by
        refine Guard.requireAnchors_iff.mpr (List.forall_mem_singleton.mpr ?_)
        unfold Anchor.Stands
        rw [hrole, hsound.locate]
        rfl
      have hused := Flat.uses_of_mem_below (hlive m hm)
      refine ⟨n.routeSymbol, ?_⟩
      rw [Guard.admits, hanchors]
      dsimp only [bind, Except.bind]
      rw [Guard.requireUnused, hsymbol hr, if_pos hused]

end Lists

end RouteScaffold

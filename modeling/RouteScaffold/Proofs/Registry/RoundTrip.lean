import RouteScaffold.Proofs.Registry.HandEdited

/-!
# A Round Trip through a Registry Edited by Hand

What is added to a registry of the marker dialect and removed again leaves the file
as it was, to the byte, whatever else is written in the file, as long as its lines
all end one way and the text around the two anchors is as `Routed.Fits` says.

The edits are made by way of the file: each of them reads it, and all but one of them
write it. That the file can be written is a question of where it lies and not of what
it holds, so it is decided before the first edit.

## Theorems

* `removal_restores_hand_edited`: Adding and removing restores the tree.
-/

namespace RouteScaffold

open Naming Text

namespace Routed

/-- An artifact with an accepted segment and name. -/
def Accepted : Routed → Prop
  | module m => m.Accepted
  | page p => p.Accepted

/-- An artifact as if it were one of another role. -/
def inRole (role : Text) : Routed → Routed
  | module m => module { m with role := role }
  | page p => page { p with module := { p.module with role := role } }

theorem Accepted.inRole {x : Routed} {role : Text} (h : x.Accepted) (hrole : isRoleName role = true) :
    (x.inRole role).Built := by
  cases x with
  | module m => exact ⟨hrole, h⟩
  | page p => exact ⟨hrole, h⟩

theorem name_inRole (role : Text) (x : Routed) : (x.inRole role).name = x.name := by
  cases x <;> rfl

theorem Fits.inRole {x : Routed} {t : Text} {roots : List Route} {exported sentinel : Occurrence}
    (h : x.Fits t roots exported sentinel) (role : Text) :
    (x.inRole role).Fits t roots exported sentinel := by
  cases x with
  | module m =>
      refine ⟨h.scans, h.export_at, h.starts_line, h.imports, h.sentinel_at, h.below, h.outside,
        h.room, fun m' hm => ?_⟩
      rw [← Routed.module.inj hm]
      exact h.no_pages m rfl
  | page p =>
      exact ⟨h.scans, h.export_at, h.starts_line, h.imports, h.sentinel_at, h.below, h.outside,
        h.room, fun m' hm => absurd hm (by simp [Routed.inRole])⟩

end Routed

namespace Registry

/-- A registry of the marker dialect does not look at the role. -/
theorem inRole_eq {r : Registry} (hr : r.dialect = .marker) (role : Text) (x : Routed) :
    r.guard (x.inRole role) = r.guard x ∧ r.add (x.inRole role) = r.add x
      ∧ r.remove (x.inRole role) = r.remove x := by
  rcases r with ⟨dialect, file, modules⟩
  dsimp only at hr
  subst hr
  cases x <;> exact ⟨rfl, rfl, rfl⟩

theorem file_eq {r : Registry} (hr : r.dialect = .marker) (x : Routed) :
    (r.guard x).file = r.file ∧ (r.add x).file = r.file ∧ (r.remove x).file = r.file := by
  rcases r with ⟨dialect, file, modules⟩
  dsimp only at hr
  subst hr
  cases x <;> exact ⟨rfl, rfl, rfl⟩

section RoundTrip

variable {r : Registry} {x : Routed} {d : Disk} {loc : Location} {raw : Text} {roots : List Route}
  {exported sentinel : Occurrence}

theorem length_withBoth (x : Routed) (head between rest : Text) :
    ((head ++ between) ++ rest).length < (x.withBoth head between rest).length := by
  rw [Routed.withBoth, Routed.entryLines]
  simp only [List.length_append, List.length_cons]
  omega

/-- The round trip where the file can be exchanged. -/
theorem on_add_remove (hr : r.dialect = .marker) (hx : x.Built) (hd : '$' ∉ x.name)
    (hfile : d.tree.get? loc = some (.file (.text raw))) (huniform : raw.Uniform)
    (hfits : x.Fits raw.toLf roots exported sentinel)
    (hadmits : (r.guard x).admits raw.toLf = .ok ()) (hreplace : d.replaceable r.file = .ok loc) :
    ∃ d₁ d₂, (r.add x).make.on d = (.ok true, d₁) ∧ (r.remove x).make.on d₁ = (.ok true, d₂)
      ∧ d₂.tree = d.tree := by
  rcases huniform.fits with ⟨ht, hraw⟩
  rcases hfits.split with ⟨between, hbefore, hrest⟩
  rcases file_eq hr x with ⟨-, hadd, hremove⟩
  rcases hfits.text_eq hx hbefore with ⟨rest, hsentinel, htext⟩
  have hboth := (@Routed.fits_all x hx (.detect raw) exported.before between
    (sentinel.hit ++ sentinel.after) (by rw [hsentinel, ← htext]; exact ht)).2.1
  have hunused : Guard.uses raw.toLf x.name = false := by
    have := (Guard.admits_iff.mp hadmits).2 _ (guard_eq r x).2.2
    rwa [hr, Routed.importIn_name] at this
  have hne : x.withBoth exported.before between (sentinel.hit ++ sentinel.after) ≠ raw.toLf := by
    intro heq
    have := length_withBoth x exported.before between (sentinel.hit ++ sentinel.after)
    rw [heq, hsentinel, ← htext] at this
    exact Nat.lt_irrefl _ this
  rw [← hraw] at hfile
  rcases Job.on_make_of_leadsIn (hfits.leadsIn_add hx hr hadmits ht hbefore hrest _) ht
    (by rw [hadd]; exact hreplace) hfile hne with ⟨d₁, hrun, hagain, htree⟩
  have hnow : d₁.tree.get? loc = some (.file (.text ((x.withBoth exported.before between
      (sentinel.hit ++ sentinel.after)).withEnding (.detect raw)))) := by
    rw [htree, Tree.get?_put_of_file hfile]
  rcases Job.on_make_of_leadsIn (hfits.leadsIn_remove hx hd hr hunused ht hbefore _) hboth
    (by rw [hremove, ← hadd]; exact hagain) hnow (Ne.symm hne) with ⟨d₂, hrun', -, htree'⟩
  refine ⟨d₁, d₂, hrun, hrun', ?_⟩
  rw [htree', htree, Tree.put_put, Tree.put_of_get? hfile]

/-- What is added to a registry that was edited by hand and removed again leaves the
    tree as it was. Where the file cannot be exchanged, adding fails and writes
    nothing. -/
theorem removal_restores_hand_edited (hr : r.dialect = .marker) (hx : x.Accepted)
    (hd : '$' ∉ x.name) (hfind : d.find r.file = .ok loc)
    (hfile : d.tree.get? loc = some (.file (.text raw))) (huniform : raw.Uniform)
    (hfits : x.Fits raw.toLf roots exported sentinel)
    (hguard : (r.guard x).check.on d = (.ok (), d)) :
    match d.replaceable r.file with
    | .ok _ => ∃ d₁ d₂, (r.add x).make.on d = (.ok true, d₁)
        ∧ (r.remove x).make.on d₁ = (.ok true, d₂) ∧ d₂.tree = d.tree
    | .error f => (r.add x).make.on d = (.error (.system f r.file.text), d) := by
  -- The role plays no part, so it may as well be one that has a name.
  have hbuilt : (x.inRole "inst".toList).Built := hx.inRole (by decide)
  rcases inRole_eq hr "inst".toList x with ⟨hg, ha, hrem⟩
  rw [← Routed.name_inRole "inst".toList] at hd
  rw [← hg] at hguard
  rw [← ha, ← hrem]
  have hfits' := hfits.inRole "inst".toList
  generalize x.inRole "inst".toList = y at *
  rcases file_eq hr y with ⟨hgfile, hafile, -⟩
  cases hreplace : d.replaceable r.file with
  | ok loc' =>
      have hloc := (Disk.replaceable_eq hreplace).1
      rw [hfind, Except.ok.injEq] at hloc
      subst hloc
      rcases Project.guard_ok hguard with ⟨l, c, t, hfind', hfile', hread, hadmits⟩
      rw [hgfile, hfind, Except.ok.injEq] at hfind'
      subst hfind'
      rw [hfile, Option.some.injEq, Entry.file.injEq] at hfile'
      subst hfile'
      rw [← Except.ok.inj hread] at hadmits
      exact on_add_remove hr hbuilt hd hfile huniform hfits' hadmits hreplace
  | error f =>
      rcases on_add_of_guard hbuilt hguard with ⟨_, _, _, _, _, -, -, -, -, -, -, hrun⟩
      rw [hafile, hreplace] at hrun
      exact hrun

end RoundTrip

end Registry

namespace RoundTrip

/-- An import over two lines. -/
def importLines : Text := "import \x7b\n  Route \x7d from \"react-router-dom\";\n"

/-- What stands in front of the anchor of the modules. -/
def opening : Text := " <Route path=\"/inst\">\n\t"

/-- What stands behind it. -/
def closing : Text := "\n</Route>;\n"

/-- A registry that was written by hand. -/
def source : Text := importLines ++ (exportAnchor ++ (opening ++ (rootSentinel ++ closing)))

/-- The registry with lines that end in pairs. -/
def fileText : Text := source.toCrlf

/-- The registry in its file. -/
def registry : Registry := ⟨.marker, .ofText "route.tsx".toList, .ofText "modules".toList⟩

/-- A disk with nothing but the registry. -/
def disk : Disk := .fresh ⟨[(["route.tsx".toList], .file (.text fileText))]⟩ []

/-- A module. -/
def moduleA : Routed := .module ⟨"inst".toList, "a".toList, "A".toList⟩

/-- The place of the default export. -/
def exported : Occurrence := ⟨importLines, exportAnchor, opening ++ (rootSentinel ++ closing)⟩

/-- The place of the anchor. -/
def sentinel : Occurrence := ⟨importLines ++ (exportAnchor ++ opening), rootSentinel, closing⟩

/-- The elements of the registry. -/
def roots : List Route := [⟨⟨59, 111⟩, some "/inst".toList, false, []⟩]

/-- What is found in the registry: its tags, its two anchors, one import, and no entry of the
    module. -/
theorem parts : Tag.read source
      = ([.opening ⟨⟨59, 79⟩, some "/inst".toList, false⟩, .closing ⟨103, 111⟩], none)
    ∧ ((Anchor.literal exportAnchor).locate? source).map (fun o => (o.before, o.hit, o.after))
      = some (exported.before, exported.hit, exported.after)
    ∧ ((moduleA.anchor .marker).locate? source).map (fun o => (o.before, o.hit, o.after))
      = some (sentinel.before, sentinel.hit, sentinel.after)
    ∧ exported.before.getLast? = some '\n' ∧ exported.before.length < sentinel.before.length
    ∧ ¬ "import".toList <:+: source.tail ∧ ¬ Registry.pageSource "a".toList [] <:+: source
    ∧ ((registry.guard moduleA).check.on disk).1 = .ok ()
    ∧ '\r' ∉ source ∧ fileText.hasCrlf = true := by
  decide +kernel

theorem imports_closed : Pattern.ImportsClosed importLines source := by
  intro s c r hsplit hstart hblank
  cases s with
  | nil =>
      refine ⟨"\x7b\n  Route \x7d from \"react-router-dom\"".toList,
        "\n".toList, ?_⟩
      have hc : c = ' ' := by
        have := congrArg (fun t : Text => t[6]?) hsplit
        exact (Option.some.inj this).symm
      rw [hc]
      rfl
  | cons d s =>
      -- There is no other import in a text that begins with one.
      have htail : "import".toList <:+: source.tail :=
        ⟨s, c :: r, by rw [hsplit, List.append_assoc]; rfl⟩
      exact absurd htail parts.2.2.2.2.2.1

theorem fits : moduleA.Fits fileText.toLf roots exported sentinel := by
  have hsource : fileText.toLf = source := toLf_toCrlf source
  rw [hsource]
  rcases parts with ⟨hread, hexported, hsentinel, hlast, hbelow, -, hpages, -⟩
  refine ⟨?_, Anchor.locate?_of_parts hexported, fun c hc => Option.some.inj (hc.symm.trans hlast),
    imports_closed, Anchor.locate?_of_parts hsentinel, hbelow, ?_, ?_, ?_⟩
  · rw [Route.scan, hread]
    rfl
  · rw [hread]
    decide
  · exact ⟨⟨_, List.mem_singleton.mpr rfl, by decide, by decide⟩, by decide⟩
  · intro m hm
    rw [← Routed.module.inj hm]
    exact hpages

theorem guard_passes : (registry.guard moduleA).check.on disk = (.ok (), disk) :=
  Prod.ext parts.2.2.2.2.2.2.2.1 (Project.looks_guard _ disk)

end RoundTrip

open RoundTrip in
/-- A module that is added to such a registry, in a file with pairs, and removed
    again. -/
theorem Registry.removal_restores_hand_edited_moduleA :
    (Naming.Accepts "a".toList "A".toList ∧ fileText.Uniform ∧ fileText.hasCrlf = true)
      ∧ ∃ d₁ d₂, (registry.add moduleA).make.on disk = (.ok true, d₁)
        ∧ (registry.remove moduleA).make.on d₁ = (.ok true, d₂) ∧ d₂.tree = disk.tree := by
  have haccepts : Naming.Accepts "a".toList "A".toList :=
    ⟨"a".toList, by decide, by decide, by decide⟩
  rcases parts with ⟨-, -, -, -, -, -, -, -, hreturn, hcrlf⟩
  have huniform : fileText.Uniform := Or.inr ⟨source, hreturn, rfl⟩
  have hrestored := @removal_restores_hand_edited registry moduleA disk ["route.tsx".toList]
    fileText roots exported sentinel rfl haccepts (by decide) rfl rfl huniform fits guard_passes
  rw [show disk.replaceable registry.file = .ok ["route.tsx".toList] from rfl] at hrestored
  exact ⟨⟨haccepts, huniform, hcrlf⟩, hrestored⟩

end RouteScaffold

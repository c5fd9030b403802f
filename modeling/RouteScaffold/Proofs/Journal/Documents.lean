import RouteScaffold.Proofs.Journal.Refusals

/-!
# Documents and Sources

The documents of intents lie in a folder of their own, under names that are
digits of a digest, and everything that a command makes has a name of another
sort. So saving an intent touches nothing that the command is about.

## Main definitions

* `Journal.Set`: A journal that keeps its documents where the tool's own files
  lie.
* `Path.IsSource`: The name of a generated source.

## Theorems

* `identifier_char`: How identifiers are spelled.
* `file_eq`: Where the document of an intent lies.
* `keeps_of_source`: Documents are not put where a source is to be.
-/

namespace RouteScaffold

open Naming Disk Location

namespace Utf8

theorem hexDigit_char : ∀ n < 16, isTame n.digitChar = true := by decide

theorem toDigits_char (n : Nat) : ∀ c ∈ Nat.toDigits 16 n, isTame c = true := by
  induction n using Nat.strongRecOn with
  | ind n ih =>
      intro c hc
      rw [Nat.toDigits_eq_if (by decide)] at hc
      split at hc
      · next hlt =>
          rw [List.mem_singleton.mp hc]
          exact hexDigit_char n hlt
      · rcases List.mem_append.mp hc with hc | hc
        · exact ih (n / 16) (by omega) c hc
        · rw [List.mem_singleton.mp hc]
          exact hexDigit_char _ (Nat.mod_lt _ (by decide))

theorem hex_char (width n : Nat) : ∀ c ∈ hex width n, isTame c = true := by
  intro c hc
  rcases List.mem_append.mp hc with hc | hc
  · rw [List.eq_of_mem_replicate hc]
    decide
  · exact toDigits_char n c hc

end Utf8

/-- Identifiers are spelled with hexadecimal digits. -/
theorem Intent.identifier_char (verb : Text) (args : List Text) (mode : Mode) (now : Timestamp) :
    ∀ c ∈ identifier verb args mode now, isTame c = true := by
  intro c hc
  rcases List.mem_flatMap.mp (List.mem_of_mem_take hc) with ⟨w, -, hc⟩
  exact Utf8.hex_char _ _ c hc

namespace Path

/-- The name of a source: all of them are modules of one language. -/
def IsSource (name : Text) : Prop := ∃ stem, name = stem ++ ".ts".toList ∨ name = stem ++ ".tsx".toList

theorem IsSource.ne {name suffix stem : Text} (h : IsSource name) (hlen : suffix.length = 4)
    (hts : suffix.drop 1 ≠ ".ts".toList) (htsx : suffix ≠ ".tsx".toList) : name ≠ stem ++ suffix := by
  rintro rfl
  rcases h with ⟨s, heq | heq⟩
  · rw [← List.take_append_drop 1 suffix, ← List.append_assoc] at heq
    exact hts (List.append_inj_right' heq (by simp [hlen]))
  · exact htsx (List.append_inj_right' heq (by simp [hlen]))

end Path

namespace Journal

/-- A journal that keeps its documents below a root, among the tool's own
    files. -/
def Set (j : Journal) (root : Path) : Prop :=
  j.folder = root.below [".aviators".toList, "intents".toList]

variable {j : Journal} {root : Path} {id : Text}

theorem set_intentsFolder (l : Layout) (keeps : Bool) : Set ⟨l.intentsFolder, keeps⟩ l.root := by
  have hown : l.root / ".aviators" = l.root.below [".aviators".toList] :=
    Path.div_name ⟨by decide, by decide, by decide, by decide⟩ _
  have hintents : l.root.below [".aviators".toList] / "intents"
      = (l.root.below [".aviators".toList]).below ["intents".toList] :=
    Path.div_name ⟨by decide, by decide, by decide, by decide⟩ _
  change l.root / ".aviators" / "intents" = _
  rw [hown, hintents, Path.below_below]
  rfl

theorem isName_document (hid : ∀ c ∈ id, isTame c = true) : Path.IsName (id ++ ".json".toList) := by
  refine ⟨?_, by simp, ?_, ?_⟩
  · rw [List.mem_append]
    rintro (hmem | hmem)
    · exact not_mem_of_tame hid (by decide) hmem
    · exact absurd hmem (by decide)
  all_goals
    intro heq
    have := congrArg List.length heq
    rw [List.length_append] at this
    change id.length + 5 = _ at this
    simp only [List.length_cons, List.length_nil] at this
    omega

/-- The document of an intent lies in the folder of intents. -/
theorem file_eq_below (hid : ∀ c ∈ id, isTame c = true) (j : Journal) :
    j.file id = j.folder.below [id ++ ".json".toList] := Path.div_name (isName_document hid) _

theorem file_eq (h : j.Set root) (hid : ∀ c ∈ id, isTame c = true) :
    j.file id = root.below [".aviators".toList, "intents".toList, id ++ ".json".toList] := by
  rw [file_eq_below hid, h, Path.below_below]
  rfl

/-- Documents are not put where a source is to be. -/
theorem keeps_of_source (h : j.Set root) (hid : ∀ c ∈ id, isTame c = true) {d : Disk}
    {base l : Location} {name : Text} (hroot : d.find root = .ok base)
    (hfolder : d.tree.get? base = some .folder) (hname : Path.IsSource name)
    (hl : d.tree.get? (l ++ [name]) ≠ some .folder) : j.Keeps id d.here (l ++ [name]) := by
  -- A source ends in neither of these ways, so no folder or document of this kind has its name.
  have hends : ∀ {m : Text} (stem suffix : Text) {ls : Location}, m = stem ++ suffix →
      suffix.length = 4 → suffix.drop 1 ≠ ".ts".toList → suffix ≠ ".tsx".toList →
      ls ++ [m] ≠ l ++ [name] := by
    intro m stem suffix ls hm hlen hts htsx heq
    have hlast := List.append_inj_right' heq rfl
    rw [List.cons.injEq] at hlast
    exact hname.ne hlen hts htsx (hlast.1.symm.trans hm)
  constructor
  · rw [h]
    refine clear_below (by decide) (clear_of_found hroot hfolder hl) fun ys hys hne => ?_
    match ys with
    | [] => exact absurd rfl hne
    | [y] =>
        rcases List.cons_prefix_cons.mp hys with ⟨rfl, -⟩
        exact hends ".avia".toList "tors".toList rfl rfl (by decide) (by decide)
    | [x, y] =>
        rcases List.cons_prefix_cons.mp hys with ⟨rfl, hrest⟩
        rcases List.cons_prefix_cons.mp hrest with ⟨rfl, -⟩
        rw [show spot d.here root ++ [".aviators".toList, "intents".toList]
          = (spot d.here root ++ [".aviators".toList]) ++ ["intents".toList] by simp]
        exact hends "int".toList "ents".toList rfl rfl (by decide) (by decide)
    -- There are only two folders on the way.
    | _ :: _ :: z :: zs =>
        have := hys.length_le
        simp only [List.length_cons, List.length_nil] at this
        omega
  · rw [file_eq h hid, spot_below _ _ ?_]
    · rw [show spot d.here root ++ [".aviators".toList, "intents".toList, id ++ ".json".toList]
        = (spot d.here root ++ [".aviators".toList, "intents".toList]) ++ [id ++ ".json".toList] by simp]
      exact hends (id ++ ['.']) "json".toList (by simp) rfl (by decide) (by decide)
    · intro hmem
      simp only [List.mem_cons, List.not_mem_nil, or_false] at hmem
      -- The name of a document is no pair of dots, as it is longer.
      rcases hmem with hmem | hmem | hmem
      · exact absurd hmem (by decide)
      · exact absurd hmem (by decide)
      · have := congrArg List.length hmem
        rw [List.length_append] at this
        change 2 = id.length + 5 at this
        omega

end Journal

end RouteScaffold

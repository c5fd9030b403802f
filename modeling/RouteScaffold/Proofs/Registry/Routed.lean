import RouteScaffold.Proofs.Text.Names
import RouteScaffold.Registry.Fragment
import RouteScaffold.Registry.Reference

/-!
# Routed Artifacts

What a registry routes, in the order in which it was made: modules, and pages
of modules. Removing a module removes its pages with it.

References come from raw names, and accepted names without a dollar sign are
told apart by any text that uses them: they are words, they begin with a
capital letter, and no segment holds a capital letter.

## Main definitions

* `Routed`: A module or a page.
* `Routed.without`: What is left when a module or a page is removed.
* `Naming.Accepts`: A segment and a name that come from one raw name.
* `ModuleRef.Spelled`, `PageRef.Spelled`: References with accepted names.

## Theorems

* `accepts_name_eq`: One segment, one name.
* `spelled_of_accepts`: How accepted references are spelled.
-/

namespace RouteScaffold

open Naming

/-- What can be routed. -/
inductive Routed where
  | module (m : ModuleRef)
  | page (p : PageRef)
  deriving DecidableEq, Repr

namespace Routed

/-- The canonical name of the component. -/
def name : Routed → Text
  | module m => m.name
  | page p => p.name

/-- The module that something is in: the module itself or that of the page. -/
def home : Routed → ModuleRef
  | module m => m
  | page p => p.module

/-- Whether something belongs to a module: the module itself and its pages. -/
def belongsTo (m : ModuleRef) : Routed → Bool
  | module m' => m' = m
  | page p => p.module = m

/-- What is left when something is removed, a module with its pages. -/
def without (live : List Routed) : Routed → List Routed
  | module m => live.filter fun x => !x.belongsTo m
  | page p => live.filter fun x => x ≠ page p

end Routed

namespace Naming

/-- A segment and a name that come from one raw name, the name being
    accepted. -/
def Accepts (segment name : Text) : Prop :=
  ∃ raw, isIdentifier (pascal raw) = true ∧ segment = Naming.segment raw ∧ name = pascal raw

/-- One segment, one name. -/
theorem accepts_name_eq {segment name name' : Text} (h : Accepts segment name)
    (h' : Accepts segment name') : name = name' := by
  rcases h with ⟨raw, hraw, hseg, rfl⟩
  rcases h' with ⟨raw', hraw', hseg', rfl⟩
  exact pascal_eq_of_segment_eq hraw hraw' (hseg.symm.trans hseg')

section Accepts

variable {segment name : Text} (h : Accepts segment name)
include h

theorem tame_segment : ∀ c ∈ segment, isTame c = true := by
  rcases h with ⟨raw, hraw, rfl, rfl⟩
  exact fun c hc => (segment_char hraw c hc).1

theorem tame_name : ∀ c ∈ name, isTame c = true := by
  rcases h with ⟨raw, hraw, rfl, rfl⟩
  exact fun c hc => isTame_of_continuesIdentifier (pascal_char hraw c hc)

theorem tame_constant : ∀ c ∈ asConstant segment, isTame c = true := by
  rcases h with ⟨raw, hraw, rfl, rfl⟩
  exact fun c hc => isTame_of_continuesIdentifier (constant_char hraw c hc)

theorem accepts_name_ne : name ≠ [] := by
  rcases h with ⟨raw, hraw, rfl, rfl⟩
  exact pascal_ne_nil hraw

theorem accepts_segment_ne : segment ≠ [] := by
  rcases h with ⟨raw, hraw, rfl, rfl⟩
  exact segment_ne_nil hraw

theorem no_upper_segment : ∀ c ∈ segment, c.isUpper = false := by
  rcases h with ⟨raw, hraw, rfl, rfl⟩
  exact fun c hc => (segment_char hraw c hc).2

/-- A name without a dollar sign is one word. -/
theorem word_name (hd : '$' ∉ name) : ∀ c ∈ name, isWord c = true := by
  rcases h with ⟨raw, hraw, rfl, rfl⟩
  intro c hc
  have hident := pascal_char hraw c hc
  simp only [continuesIdentifier, Bool.or_eq_true, decide_eq_true_eq] at hident
  rcases hident with (hident | rfl) | rfl
  · simp [isWord, hident]
  · decide
  · exact absurd hc hd

theorem upper_name (hd : '$' ∉ name) : name.head?.any Char.isUpper = true := by
  rcases h with ⟨raw, hraw, rfl, rfl⟩
  exact isUpper_head_pascal hraw hd

theorem not_underscore_name : '_' ∉ name := by
  rcases h with ⟨raw, hraw, rfl, rfl⟩
  exact not_underscore_pascal hraw

/-- The constant of such a segment is one word. -/
theorem word_constant (hd : '$' ∉ name) : ∀ c ∈ asConstant segment, isWord c = true := by
  rcases h with ⟨raw, hraw, rfl, rfl⟩
  intro c hc
  have hident := constant_char hraw c hc
  simp only [continuesIdentifier, Bool.or_eq_true, decide_eq_true_eq] at hident
  rcases hident with (hident | rfl) | rfl
  · simp [isWord, hident]
  · decide
  · exact absurd hc (constant_plain hraw hd)

/-- A name without a dollar sign is no word of any segment. -/
theorem not_mem_words_segment (hd : '$' ∉ name) {segment' name' : Text}
    (h' : Accepts segment' name') {p : Char → Bool} : name ∉ Text.words p segment' := by
  intro hmem
  rcases Text.exists_of_mem_words hmem with ⟨-, -, s, r, heq, -⟩
  have hupper := upper_name h hd
  cases hn : name with
  | nil => exact accepts_name_ne h hn
  | cons c t =>
      rw [hn] at hupper heq
      have hc := no_upper_segment h' c (by rw [heq]; simp)
      simp only [List.head?_cons, Option.any_some] at hupper
      rw [hc] at hupper
      exact absurd hupper (by simp)

end Accepts

end Naming

/-- A module whose name and segment are spelled like accepted ones. -/
structure ModuleRef.Spelled (m : ModuleRef) : Prop where
  segment : ∀ c ∈ m.segment, isTame c = true
  name : ∀ c ∈ m.name, isTame c = true
  name_ne : m.name ≠ []
  constant : ∀ c ∈ asConstant m.segment, isTame c = true

/-- A page whose name and segment, and those of its module, are spelled like
    accepted ones. -/
structure PageRef.Spelled (p : PageRef) : Prop where
  module : p.module.Spelled
  segment : ∀ c ∈ p.segment, isTame c = true
  name : ∀ c ∈ p.name, isTame c = true
  name_ne : p.name ≠ []

/-- A module that comes from a raw name. -/
def ModuleRef.Accepted (m : ModuleRef) : Prop := Accepts m.segment m.name

/-- A page that comes from raw names. -/
def PageRef.Accepted (p : PageRef) : Prop := p.module.Accepted ∧ Accepts p.segment p.name

theorem ModuleRef.Accepted.spelled {m : ModuleRef} (h : m.Accepted) : m.Spelled :=
  ⟨tame_segment h, tame_name h, accepts_name_ne h, tame_constant h⟩

theorem PageRef.Accepted.spelled {p : PageRef} (h : p.Accepted) : p.Spelled :=
  ⟨h.1.spelled, tame_segment h.2, tame_name h.2, accepts_name_ne h.2⟩

end RouteScaffold

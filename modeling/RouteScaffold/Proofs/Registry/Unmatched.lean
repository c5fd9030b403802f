import RouteScaffold.Proofs.Edit.Barrels
import RouteScaffold.Proofs.Edit.Filtering
import RouteScaffold.Proofs.Registry.Lacking

/-!
# What Is Removed by Its Name Alone

An import, a line and a barrel line are taken out of a file by a pattern that is made from a
name, wherever it stands. This is safe as long as nothing but the artifact itself bears the
name, and it is a guard that sees to this before the artifact is added.

A guard looks for a name in one of two ways, as a whole word or as it is, by what the name
is made of. The patterns look for it in ways of their own: two want a boundary on either
side of it, whatever it is made of, and one wants it in quotation marks. Either way the name
itself has to be there. A name that is no word is free if it is no part of the text; and
where a pattern stands that is made from a word, the word is a whole one.

## Main definitions

* `Guard.Used`: A text uses a name.
* `Pattern.Absent`: A pattern is recognised at no place of a text.
* `Pattern.ofName`: The patterns that are made from a name.

## Theorems

* `uses_iff_used`: What a guard looks for.
* `Pattern.Absent.finds_nothing`: A pattern that is absent is not found.
* `Guard.uses_of_occursIn`: What the patterns that are made from a name are made of.
* `Guard.unmatched_of_free`: A guard that lets a text pass leaves nothing for them.
-/

namespace RouteScaffold

open Text Cursor Recogniser Job

namespace Recogniser

/-- Nothing is found in a text at whose places nothing is read. -/
theorem spansFrom_of_quiet {m : Recogniser} {b : Option Char} {t : Text} (h : Quiet m b t [])
    (hend : m ⟨passed b t, []⟩ = none) (offset : Nat) : spansFrom m offset 0 b t = [] := by
  induction t generalizing b offset with
  | nil => rw [spansFrom, length?_eq_none (by simpa [passed] using hend)]
  | cons c t ih =>
      rw [quiet_cons, List.append_nil] at h
      rw [spansFrom, length?_eq_none h.1]
      exact ih h.2 hend _

end Recogniser

namespace Pattern

variable {p : Pattern} {w t : Text}

/-- A pattern is recognised at no place of a text. -/
def Absent (p : Pattern) (t : Text) : Prop := ∀ s r, t = s ++ r → p.recognise ⟨s.getLast?, r⟩ = none

/-- The patterns that are made from a name, to take out what bears it. -/
def ofName (w : Text) : List Pattern := [.importOf w, .lineWith w, .barrelLine w]

theorem absent_iff_not_occursIn : p.Absent t ↔ p.occursIn t = false := by
  rw [occursIn, find?, Bool.eq_false_iff, Ne, findFrom_isSome_iff]
  simp only [passed_none, not_exists, not_and, Bool.not_eq_true, Option.isSome_eq_false_iff, Option.isNone_iff_eq_none]
  rfl

/-- A pattern that is absent is not found, and nothing is erased. -/
theorem Absent.finds_nothing (h : p.Absent t) : p.spans t = [] ∧ p.erase t = t := by
  have hnone : ¬ p.occursIn t = true := by
    rw [absent_iff_not_occursIn.mp h]
    simp
  have hend : p.recognise ⟨passed none t, []⟩ = none := by
    rw [passed_none]
    exact h t [] (List.append_nil t).symm
  have hquiet : Quiet p.recognise none t [] := by
    refine quiet_iff.mpr fun u c v huv => ?_
    rw [passed_none, List.append_nil]
    exact h u (c :: v) huv
  exact ⟨spansFrom_of_quiet hquiet hend 0, erase_of_not_occursIn hnone⟩

/-- A line with a word mentions the word. -/
theorem mentions_of_lineWith (h : (lineWith w).occursIn t = true) : mentions w t = true := by
  rcases (findFrom_isSome_iff _ _ _).mp h with ⟨s, r, rfl, hread⟩
  rcases Option.isSome_iff_exists.mp hread with ⟨k, hk⟩
  rcases Option.bind_eq_some_iff.mp hk with ⟨-, -, hgreedy⟩
  rcases exists_of_greedyFrom hgreedy with ⟨v, r', hafter, -, hnext⟩
  rcases Option.bind_eq_some_iff.mp hnext with ⟨k', hword, -⟩
  rw [mentions_eq, mentionsFrom, findFrom_isSome_iff]
  dsimp only at hafter hword
  refine ⟨s ++ v, r', by rw [hafter, List.append_assoc], ?_⟩
  rw [passed_append, hword]
  rfl

/-- A barrel line has its name between a slash and a quotation mark. -/
theorem part_of_barrelLine (h : (barrelLine w).occursIn t = true) :
    ∃ s r, t = s ++ '/' :: (w ++ '"' :: r) := by
  rcases (findFrom_isSome_iff _ _ _).mp h with ⟨s, r, rfl, hread⟩
  rcases Option.isSome_iff_exists.mp hread with ⟨k, hk⟩
  rw [Barrel.recognise_barrelLine_eq] at hk
  split at hk
  · rcases Option.bind_eq_some_iff.mp hk with ⟨k₁, hopening, hrest⟩
    rcases Option.bind_eq_some_iff.mp hrest with ⟨k₂, hname, hrest⟩
    rcases Option.bind_eq_some_iff.mp hrest with ⟨k₃, hclosing, -⟩
    have hr := (literal?_eq_some.mp hopening).1
    rw [(literal?_eq_some.mp hname).1, (literal?_eq_some.mp hclosing).1] at hr
    refine ⟨s ++ "export * from \".".toList, ';' :: k₃.after, ?_⟩
    rw [hr, show Barrel.opening = "export * from \".".toList ++ ['/'] from rfl, show Barrel.closing = ['"', ';'] from rfl]
    simp only [List.append_assoc, List.cons_append, List.nil_append]
  · exact absurd hk (by simp)

end Pattern

namespace Guard

variable {w t file : Text} {names : List Text} {p : Pattern} {g : Guard} {d d' : Disk}

/-- A text uses a name: the name is part of the text, and stands there as a whole word if it
    is a word. -/
def Used (t w : Text) : Prop := w <:+: t ∧ (w ≠ [] → (∀ c ∈ w, isWord c = true) → HasWord w t)

theorem part_of_hasWord (h : HasWord w t) : w <:+: t := by
  rcases h with ⟨s, r, rfl, -⟩
  exact ⟨s, r, List.append_assoc _ _ _⟩

/-- What a guard looks for. -/
theorem uses_iff_used : uses t w = true ↔ Used t w := by
  have hclass : (!w.isEmpty && w.all isWord) = true ↔ w ≠ [] ∧ ∀ c ∈ w, isWord c = true := by
    simp
  rw [uses, Used]
  split
  · next hword =>
      rw [hclass] at hword
      rw [mentions_iff_hasWord]
      exact ⟨fun h => ⟨part_of_hasWord h, fun _ _ => h⟩, fun h => h.2 hword.1 hword.2⟩
  · next hword =>
      rw [occurs_iff_part]
      exact ⟨fun h => ⟨h, fun hne hall => absurd (hclass.mpr ⟨hne, hall⟩) hword⟩, fun h => h.1⟩

instance : Decidable (Used t w) := decidable_of_iff _ uses_iff_used

theorem requireUnused_iff_free :
    requireUnused file t names = .ok () ↔ ∀ w ∈ names, ¬ Used t w := by
  simp only [requireUnused_iff, ← uses_iff_used, Bool.not_eq_true]

/-- Where a pattern stands that is made from a name, the name is used. -/
theorem uses_of_occursIn (hp : p ∈ Pattern.ofName w) (h : p.occursIn t = true) : uses t w = true := by
  -- Two of the patterns want a whole word, whatever the name is made of.
  have hmentioned : mentions w t = true → uses t w = true := fun hmentions =>
    uses_iff_used.mpr ⟨part_of_hasWord (mentions_iff_hasWord.mp hmentions),
      fun _ _ => mentions_iff_hasWord.mp hmentions⟩
  simp only [Pattern.ofName, List.mem_cons, List.not_mem_nil, or_false] at hp
  rcases hp with rfl | rfl | rfl
  · exact hmentioned (Pattern.mentions_of_importOf h)
  · exact hmentioned (Pattern.mentions_of_lineWith h)
  · by_cases hne : w = []
    · exact uses_iff_used.mpr ⟨hne ▸ List.nil_infix, fun hne' => absurd hne hne'⟩
    · rcases Pattern.part_of_barrelLine h with ⟨s, r, rfl⟩
      exact uses_of_delimited hne (by decide) (by decide)

theorem absent_of_free (h : ¬ Used t w) (hp : p ∈ Pattern.ofName w) : p.Absent t :=
  Pattern.absent_iff_not_occursIn.mpr (Bool.eq_false_iff.mpr fun hoccurs =>
    h (uses_iff_used.mp (uses_of_occursIn hp hoccurs)))

/-- A guard lets its file pass if the text of the file has the anchors and uses none of the
    names. -/
theorem on_check : g.check.on d = (.ok (), d') ↔ d' = d ∧ ∃ raw, (readRaw g.file).on d = (.ok raw, d)
    ∧ (∀ a ∈ g.anchors, a.Stands raw.toLf) ∧ ∀ w ∈ g.identifiers, ¬ Used raw.toLf w := by
  simp only [← uses_iff_used, Bool.not_eq_true, ← admits_iff]
  rw [check, readSource, on_bind_eq_ok]
  constructor
  · rintro ⟨content, d₁, hsource, hadmits⟩
    rcases on_bind_eq_ok.mp hsource with ⟨raw, d₂, hread, hturned⟩
    have hd₂ := (looks_readRaw g.file).ok hread
    rcases Prod.mk.inj hturned with ⟨hcontent, hd₁⟩
    rw [on_ofExcept, Prod.mk.injEq, ← Except.ok.inj hcontent, ← hd₁] at hadmits
    rw [hd₂] at hread hadmits
    exact ⟨hadmits.2.symm, raw, hread, hadmits.1⟩
  · rintro ⟨rfl, raw, hread, hadmits⟩
    refine ⟨raw.toLf, d', ?_, by rw [on_ofExcept, hadmits]⟩
    rw [on_bind_ok hread]
    rfl

/-- An erasure that reads nothing in a file leaves the file as it is. -/
theorem on_erase_of_absent {path : Path} {raw : Text} (hread : (readRaw path).on d = (.ok raw, d))
    (h : p.Absent raw.toLf) : (edit path (.erase p)).on d = (.ok false, d) := by
  have hwritten : (Edit.erase p).written path.text raw = .ok none := by
    simp only [Edit.written, Edit.apply, bind, Except.bind, pure, Except.pure, h.finds_nothing.2, if_true]
  rw [edit_of_not_append (by simp [Edit.operation]), on_editExisting_of_read hread, hwritten]

/-- A guard lets a text pass exactly if the text uses none of the names. Then none of the
    patterns that are made from one of them is recognised at any place of the text, so none is
    found and erasing it leaves the text as it is. A guard that lets its file pass has found
    this of the text of the file, and none of the erasures writes to the file. -/
theorem unmatched_of_free :
    (∀ file t names, requireUnused file t names = .ok () ↔ ∀ w ∈ names, ¬ Used t w)
    ∧ (∀ file t names, requireUnused file t names = .ok () → ∀ w ∈ names, ∀ p ∈ Pattern.ofName w,
      p.Absent t ∧ p.spans t = [] ∧ p.erase t = t)
    ∧ ∀ (g : Guard) d d', g.check.on d = (.ok (), d') → d' = d ∧ ∀ w ∈ g.identifiers, ∀ p ∈ Pattern.ofName w,
      (edit g.file (.erase p)).on d = (.ok false, d) := by
  refine ⟨fun _ _ _ => requireUnused_iff_free, fun file t names hpassed w hw p hp => ?_, fun g d d' hpassed => ?_⟩
  · have habsent := absent_of_free (requireUnused_iff_free.mp hpassed w hw) hp
    exact ⟨habsent, habsent.finds_nothing⟩
  · rcases on_check.mp hpassed with ⟨hd, raw, hread, -, hfree⟩
    exact ⟨hd, fun w hw p hp => on_erase_of_absent hread (absent_of_free (hfree w hw) hp)⟩

/-- A text with lookalikes of some names: within longer words, cut short, and without the
    line break. -/
def lookalikes : Text :=
  "import \x7b subA \x7d from \"./subA\";\r\nexport * from \"./Étés\";\r\nconst a$ = [$b];\r\nfoo"

/-- A guard against these names: a word, a word with letters beyond ASCII, and two names that
    are no words. -/
def wary : Guard := ⟨.ofText "index.ts".toList, [], ["A".toList, "Été".toList, "a$b".toList, "foo\n".toList]⟩

/-- A disk with that text in the guarded file. -/
def holding : Disk := .fresh ⟨[(["index.ts".toList], .file (.text lookalikes))]⟩ []

theorem unmatched_of_free_lookalikes : wary.check.on holding = (.ok (), holding)
    ∧ (∀ w ∈ wary.identifiers, ∀ p ∈ Pattern.ofName w,
      p.spans lookalikes.toLf = [] ∧ p.erase lookalikes.toLf = lookalikes.toLf)
    ∧ ∀ w ∈ wary.identifiers, ∀ p ∈ Pattern.ofName w, (edit wary.file (.erase p)).on holding = (.ok false, holding) := by
  rcases unmatched_of_free with ⟨hiff, htexts, hfiles⟩
  have hfree : ∀ w ∈ wary.identifiers, ¬ Used lookalikes.toLf w := by decide
  have hpassed : wary.check.on holding = (.ok (), holding) := on_check.mpr ⟨rfl, lookalikes, rfl, by simp [wary], hfree⟩
  exact ⟨hpassed, fun w hw p hp => (htexts wary.file.text _ _ ((hiff _ _ _).mpr hfree) w hw p hp).2,
    (hfiles wary holding holding hpassed).2⟩

end Guard

end RouteScaffold

import Mathlib.Algebra.Group.Nat.Defs
import Mathlib.Data.List.Basic
import RouteScaffold.Naming
import RouteScaffold.Text.Word

/-!
# Case Mappings That End in ASCII

A name is accepted only if its canonical form is spelled in ASCII, and a
canonical form is made by the case mappings. So what counts of the mappings is
which characters they take to ASCII, and these are few: the ASCII characters
themselves, some small letters whose capitals are plain ones, and the Kelvin
sign. The tables are searched once for them, and every fact about the words of
an accepted name is then a fact about a short list of characters.

## Main definitions

* `CaseMap.starts`, `CaseMap.followers`: The characters with an upper and with
  a lower case in ASCII.

## Theorems

* `mem_starts`, `mem_followers`: They are all there are.
* `lowerAfter_of_ascii`: A lower case in ASCII is taken character by character.
-/

namespace RouteScaffold

namespace CaseMap

/-- The ASCII characters. -/
def ascii : List Char := (List.range 128).map Char.ofNat

/-- Small letters beyond ASCII whose upper case is in ASCII. -/
def smallStarts : List Nat :=
  [0xDF, 0x131, 0x17F, 0xFB00, 0xFB01, 0xFB02, 0xFB03, 0xFB04, 0xFB05, 0xFB06]

/-- The characters whose upper case is in ASCII. -/
def starts : List Char := ascii ++ smallStarts.map Char.ofNat

/-- The characters whose lower case is in ASCII. -/
def followers : List Char := ascii ++ [Char.ofNat 0x212A]

theorem mem_ascii {c : Char} (h : c.toNat < 128) : c ∈ ascii :=
  List.mem_map.mpr ⟨c.toNat, List.mem_range.mpr h, Char.ofNat_toNat c⟩

theorem toNat_ofNat {n : Nat} (h : n.isValidChar) : (Char.ofNat n).toNat = n := by
  rw [Char.ofNat, dif_pos h]
  rfl

theorem mem_of_lookup {α β : Type} [BEq α] [LawfulBEq α] {a : α} {b : β} {l : List (α × β)}
    (h : l.lookup a = some b) : (a, b) ∈ l := by
  induction l with
  | nil => simp at h
  | cons p l ih =>
      rcases p with ⟨x, y⟩
      by_cases hx : a = x
      · subst hx
        simp at h
        simp [h]
      · rw [List.lookup_cons, beq_false_of_ne hx] at h
        exact List.mem_cons_of_mem _ (ih h)

/-! ### The tables -/

/-- The capitals of a run, each with its small letter. -/
def pairsOf (r : CaseRun) : List (Nat × Nat) :=
  (List.range ((r.last - r.first) / r.step + 1)).map fun k => (r.first + r.step * k, r.small + r.step * k)

/-- All capitals that have a small letter, with that. -/
def pairs : List (Nat × Nat) := caseRuns.flatMap pairsOf

variable {r : CaseRun} {n : Nat} {c : Char}

/-- A position in a run is counted in steps. -/
theorem exists_steps {first reach step : Nat} (hle : first ≤ n) (hreach : n ≤ first + reach)
    (hmod : (n - first) % step = 0) : ∃ k, k < reach / step + 1 ∧ n = first + step * k := by
  refine ⟨(n - first) / step, Nat.lt_succ_of_le (Nat.div_le_div_right (by omega)), ?_⟩
  have := Nat.div_add_mod (n - first) step
  omega

theorem mem_pairs_of_hasCapital (hr : r ∈ caseRuns) (h : r.hasCapital n = true) : (n, r.smallOf n) ∈ pairs := by
  simp only [CaseRun.hasCapital, Bool.and_eq_true, decide_eq_true_eq] at h
  have hreach : n ≤ r.first + (r.last - r.first) := by omega
  rcases exists_steps h.1.1 hreach h.2 with ⟨k, hk, rfl⟩
  refine List.mem_flatMap.mpr ⟨r, hr, List.mem_map.mpr ⟨k, List.mem_range.mpr hk, ?_⟩⟩
  rw [CaseRun.smallOf, Nat.add_sub_cancel_left]

theorem mem_pairs_of_hasSmall (hr : r ∈ caseRuns) (h : r.hasSmall n = true) : (r.capitalOf n, n) ∈ pairs := by
  simp only [CaseRun.hasSmall, Bool.and_eq_true, decide_eq_true_eq] at h
  rcases exists_steps h.1.1 h.1.2 h.2 with ⟨k, hk, rfl⟩
  refine List.mem_flatMap.mpr ⟨r, hr, List.mem_map.mpr ⟨k, List.mem_range.mpr hk, ?_⟩⟩
  rw [CaseRun.capitalOf, Nat.add_sub_cancel_left]

/-- Where a pair lies in its run. -/
theorem exists_run {p : Nat × Nat} (hp : p ∈ pairs) : ∃ r ∈ caseRuns, ∃ k,
    r.step * k ≤ r.last - r.first ∧ p.1 = r.first + r.step * k ∧ p.2 = r.small + r.step * k := by
  rcases List.mem_flatMap.mp hp with ⟨r, hr, hp⟩
  rcases List.mem_map.mp hp with ⟨k, hk, rfl⟩
  refine ⟨r, hr, k, ?_, rfl, rfl⟩
  have hle : k ≤ (r.last - r.first) / r.step := Nat.le_of_lt_succ (List.mem_range.mp hk)
  exact Nat.le_trans (Nat.mul_le_mul_left _ hle) (Nat.mul_div_le _ _)

/-- Code points of characters beyond ASCII. -/
def Beyond (first last : Nat) : Prop :=
  128 ≤ first ∧ (last < 0xD800 ∨ 0xDFFF < first ∧ last < 0x110000)

instance (first last : Nat) : Decidable (Beyond first last) := inferInstanceAs (Decidable (_ ∧ _))

theorem runs_beyond : ∀ r ∈ caseRuns, r.first ≤ r.last ∧ Beyond r.first r.last
    ∧ Beyond r.small (r.small + (r.last - r.first)) := by
  decide +kernel

/-- Pairs are of characters beyond ASCII. -/
theorem pairs_beyond {p : Nat × Nat} (hp : p ∈ pairs) :
    (128 ≤ p.1 ∧ p.1.isValidChar) ∧ 128 ≤ p.2 ∧ p.2.isValidChar := by
  rcases exists_run hp with ⟨r, hr, k, hk, hcapital, hsmall⟩
  have hbeyond := runs_beyond r hr
  rw [Beyond, Beyond] at hbeyond
  rw [hcapital, hsmall, Nat.isValidChar, Nat.isValidChar]
  omega

/-- What one character becomes in lower case: an ASCII character its own small letter, a
    listed character what is listed, a capital of a pair the small letter of that pair, and
    any other character itself. -/
theorem lowerOf_cases (c : Char) : (c.toNat < 128 ∧ lowerOf c = [c.toLower])
    ∨ (128 ≤ c.toNat ∧ ∃ p ∈ singularLowers, p.1 = c.toNat ∧ lowerOf c = p.2.map Char.ofNat)
    ∨ (128 ≤ c.toNat ∧ ∃ p ∈ pairs, p.1 = c.toNat ∧ lowerOf c = [Char.ofNat p.2])
    ∨ (128 ≤ c.toNat ∧ lowerOf c = [c]) := by
  unfold lowerOf
  split
  -- The ASCII rule first, then the table of letters with several, then that of the pairs.
  · next hascii => exact Or.inl ⟨hascii, rfl⟩
  · next hascii =>
      right
      have hbeyond : 128 ≤ c.toNat := Nat.le_of_not_lt hascii
      split
      · next codes hlookup => exact Or.inl ⟨hbeyond, _, mem_of_lookup hlookup, rfl, rfl⟩
      · right
        split
        · next r hfind =>
            have hin := List.find?_some hfind
            have hpair := mem_pairs_of_hasCapital (List.mem_of_find?_eq_some hfind) hin
            exact Or.inl ⟨hbeyond, _, hpair, rfl, rfl⟩
        · exact Or.inr ⟨hbeyond, rfl⟩

/-- What one character becomes in upper case, in the same way. -/
theorem upperOf_cases (c : Char) : (c.toNat < 128 ∧ upperOf c = [c.toUpper])
    ∨ (128 ≤ c.toNat ∧ ∃ p ∈ singularUppers, p.1 = c.toNat ∧ upperOf c = p.2.map Char.ofNat)
    ∨ (128 ≤ c.toNat ∧ ∃ p ∈ pairs, p.2 = c.toNat ∧ upperOf c = [Char.ofNat p.1])
    ∨ (128 ≤ c.toNat ∧ upperOf c = [c]) := by
  unfold upperOf
  split
  -- In the same order as for lower case.
  · next hascii => exact Or.inl ⟨hascii, rfl⟩
  · next hascii =>
      right
      have hbeyond : 128 ≤ c.toNat := Nat.le_of_not_lt hascii
      split
      · next codes hlookup => exact Or.inl ⟨hbeyond, _, mem_of_lookup hlookup, rfl, rfl⟩
      · right
        split
        · next r hfind =>
            have hin := List.find?_some hfind
            have hpair := mem_pairs_of_hasSmall (List.mem_of_find?_eq_some hfind) hin
            exact Or.inl ⟨hbeyond, _, hpair, rfl, rfl⟩
        · exact Or.inr ⟨hbeyond, rfl⟩

/-! ### Lower case again -/

/-- Code points as the bits of one number, so that two lists of them are compared at once. -/
def bits (l : List Nat) : Nat := l.foldr (fun n m => 2 ^ n ||| m) 0

theorem testBit_bits (l : List Nat) (n : Nat) : (bits l).testBit n = decide (n ∈ l) := by
  induction l with
  | nil => simp [bits]
  | cons m l ih =>
      change (2 ^ m ||| bits l).testBit n = _
      rw [Nat.testBit_or, ih, Nat.testBit_two_pow]
      simp [eq_comm]

/-- Lists without a common bit have no common member. -/
theorem not_mem_of_bits {l l' : List Nat} (h : bits l &&& bits l' = 0) (hn : n ∈ l) : n ∉ l' := by
  intro hn'
  have hbit : (bits l &&& bits l').testBit n = false := by rw [h, Nat.zero_testBit]
  rw [Nat.testBit_and, testBit_bits, testBit_bits, decide_eq_true hn, decide_eq_true hn'] at hbit
  exact absurd hbit (by decide)

/-- What stands in lower cases beyond ASCII: the small letters of the pairs, and what is
    listed. -/
def lowered : List Nat := pairs.map Prod.snd ++ (singularLowers.flatMap Prod.snd).filter (128 ≤ ·)

/-- What has another lower case, or parts words. -/
def unsettled : List Nat :=
  pairs.map Prod.fst ++ singularLowers.map Prod.fst
    ++ blankRanges.flatMap fun b => List.range' b.first (b.last - b.first + 1)

/-- A character that is its own lower case and parts no words. -/
def Settled (d : Char) : Prop := lowerOf d = [d] ∧ Naming.isSeparator d = false

instance (d : Char) : Decidable (Settled d) := inferInstanceAs (Decidable (_ ∧ _))

/-- What one search of the tables finds out: no lower case has another one or parts words, the
    lower cases that are listed are of valid characters, those of ASCII characters are settled,
    and only the characters among the small starts are listed with an upper case in ASCII. -/
theorem tables_search : bits lowered &&& bits unsettled = 0
    ∧ (∀ p ∈ singularLowers, p.2 ≠ []
      ∧ (∀ n ∈ p.2, n.isValidChar ∧ (n < 128 → Settled (Char.ofNat n)))
      ∧ ((∀ n ∈ p.2, n < 128) → p.1 = 0x212A))
    ∧ (∀ c ∈ ascii, c.toLower = c ∨ Settled c.toLower)
    ∧ ∀ p ∈ singularUppers, (∀ d ∈ p.2.map Char.ofNat, d.toNat < 128) → p.1 ∈ smallStarts := by
  decide +kernel

theorem lowered_apart : bits lowered &&& bits unsettled = 0 := tables_search.1

theorem singular_search : ∀ p ∈ singularLowers, p.2 ≠ []
    ∧ (∀ n ∈ p.2, n.isValidChar ∧ (n < 128 → Settled (Char.ofNat n)))
    ∧ ((∀ n ∈ p.2, n < 128) → p.1 = 0x212A) :=
  tables_search.2.1

theorem lowered_beyond (h : n ∈ lowered) : 128 ≤ n ∧ n.isValidChar := by
  rcases List.mem_append.mp h with h | h
  · rcases List.mem_map.mp h with ⟨p, hp, rfl⟩
    exact (pairs_beyond hp).2
  · rcases List.mem_filter.mp h with ⟨h, hle⟩
    rcases List.mem_flatMap.mp h with ⟨p, hp, hn⟩
    exact ⟨of_decide_eq_true hle, ((singular_search p hp).2.1 n hn).1⟩

theorem settled_of_lowered (h : n ∈ lowered) : Settled (Char.ofNat n) := by
  have hbeyond := lowered_beyond h
  have hnot := not_mem_of_bits lowered_apart h
  rw [unsettled, List.mem_append, List.mem_append, not_or, not_or] at hnot
  -- A small letter of the table is not a capital in either, nor a blank.
  rcases hnot with ⟨⟨hcapital, hsingular⟩, hblank⟩
  constructor
  · have hlookup : singularLowers.lookup n = none := List.lookup_eq_none_iff.mpr fun q hq =>
      bne_iff_ne.mpr fun heq => hsingular (List.mem_map.mpr ⟨q, hq, heq.symm⟩)
    have hfind : (caseRuns.find? fun r => r.hasCapital n) = none := List.find?_eq_none.mpr fun r hr hin =>
      hcapital (List.mem_map.mpr ⟨_, mem_pairs_of_hasCapital hr hin, rfl⟩)
    rw [lowerOf, toNat_ofNat hbeyond.2, if_neg (by omega), hlookup]
    dsimp only
    rw [hfind]
  · rw [Naming.isSeparator, Bool.or_eq_false_iff, Bool.or_eq_false_iff]
    refine ⟨⟨?_, ?_⟩, List.any_eq_false.mpr fun b hb hin => hblank ?_⟩
    · exact decide_eq_false fun hd => absurd (hd ▸ toNat_ofNat hbeyond.2) (by simp; omega)
    · exact decide_eq_false fun hd => absurd (hd ▸ toNat_ofNat hbeyond.2) (by simp; omega)
    · simp only [toNat_ofNat hbeyond.2, Bool.and_eq_true, decide_eq_true_eq] at hin
      exact List.mem_flatMap.mpr ⟨b, hb, List.mem_range'_1.mpr (by omega)⟩

/-- What is listed as a lower case is settled. -/
theorem settled_of_singular {p : Nat × List Nat} (hp : p ∈ singularLowers) (hn : n ∈ p.2) :
    Settled (Char.ofNat n) := by
  by_cases hlt : n < 128
  · exact ((singular_search p hp).2.1 n hn).2 hlt
  · refine settled_of_lowered (List.mem_append_right _ (List.mem_filter.mpr ⟨List.mem_flatMap.mpr ⟨p, hp, hn⟩, ?_⟩))
    exact decide_eq_true (Nat.le_of_not_lt hlt)

/-- The small letter of a pair is settled. -/
theorem settled_of_pair {p : Nat × Nat} (hp : p ∈ pairs) : Settled (Char.ofNat p.2) :=
  settled_of_lowered (List.mem_append_left _ (List.mem_map.mpr ⟨p, hp, rfl⟩))

theorem ascii_small : ∀ c ∈ ascii, c.toLower = c ∨ Settled c.toLower := tables_search.2.2.1

/-- A lower case is its own lower case, and the lower case of a character that separates no
    words separates none. -/
theorem lowerOf_settled {d : Char} (h : d ∈ lowerOf c) :
    lowerOf d = [d] ∧ (Naming.isSeparator c = false → Naming.isSeparator d = false) := by
  -- One case for each table, and one for the letters in neither.
  rcases lowerOf_cases c with ⟨hascii, heq⟩ | ⟨-, p, hp, -, heq⟩ | ⟨-, p, hp, -, heq⟩ | ⟨-, heq⟩
  · rw [heq, List.mem_singleton] at h
    subst h
    rcases ascii_small c (mem_ascii hascii) with hsame | hsettled
    · rw [hsame] at heq ⊢
      exact ⟨heq, id⟩
    · exact ⟨hsettled.1, fun _ => hsettled.2⟩
  · rw [heq] at h
    rcases List.mem_map.mp h with ⟨n, hn, rfl⟩
    have hsettled := settled_of_singular hp hn
    exact ⟨hsettled.1, fun _ => hsettled.2⟩
  · rw [heq, List.mem_singleton] at h
    rw [h]
    have hsettled := settled_of_pair hp
    exact ⟨hsettled.1, fun _ => hsettled.2⟩
  · rw [heq, List.mem_singleton] at h
    rw [h]
    exact ⟨heq, id⟩

theorem lowerOf_ne_nil (c : Char) : lowerOf c ≠ [] := by
  rcases lowerOf_cases c with ⟨-, heq⟩ | ⟨-, p, hp, -, heq⟩ | ⟨-, p, hp, -, heq⟩ | ⟨-, heq⟩
  · rw [heq]
    simp
  · rw [heq]
    exact fun hnil => (singular_search p hp).1 (List.map_eq_nil_iff.mp hnil)
  · rw [heq]
    simp
  · rw [heq]
    simp

/-! ### Mappings to ASCII -/

/-- Every character whose upper case is in ASCII is listed. -/
theorem mem_starts (h : ∀ d ∈ upperOf c, d.toNat < 128) : c ∈ starts := by
  rcases upperOf_cases c with ⟨hascii, -⟩ | ⟨-, p, hp, hpc, heq⟩ | ⟨-, p, hp, hpc, heq⟩ | ⟨hbeyond, heq⟩
  · exact List.mem_append_left _ (mem_ascii hascii)
  · rw [heq] at h
    exact List.mem_append_right _ (List.mem_map.mpr ⟨c.toNat, hpc ▸ tables_search.2.2.2 p hp h, Char.ofNat_toNat c⟩)
  · have hp' := (pairs_beyond hp).1
    rw [heq] at h
    have hd := h _ (List.mem_singleton.mpr rfl)
    rw [toNat_ofNat hp'.2] at hd
    omega
  · have hd := h c (heq ▸ List.mem_singleton.mpr rfl)
    omega

/-- Every character whose lower case is in ASCII is listed. -/
theorem mem_followers (h : ∀ d ∈ lowerOf c, d.toNat < 128) : c ∈ followers := by
  rcases lowerOf_cases c with ⟨hascii, -⟩ | ⟨-, p, hp, hpc, heq⟩ | ⟨-, p, hp, hpc, heq⟩ | ⟨hbeyond, heq⟩
  · exact List.mem_append_left _ (mem_ascii hascii)
  · rw [heq] at h
    apply List.mem_append_right
    have hcodes : ∀ n ∈ p.2, n < 128 := fun n hn => by
      have hd := h _ (List.mem_map.mpr ⟨n, hn, rfl⟩)
      rwa [toNat_ofNat ((singular_search p hp).2.1 n hn).1] at hd
    rw [List.mem_singleton, ← (singular_search p hp).2.2 hcodes, hpc, Char.ofNat_toNat]
  · have hp' := (pairs_beyond hp).2
    rw [heq] at h
    have hd := h _ (List.mem_singleton.mpr rfl)
    rw [toNat_ofNat hp'.2] at hd
    omega
  · have hd := h c (heq ▸ List.mem_singleton.mpr rfl)
    omega

/-- A lower case in ASCII is taken character by character: there was no
    sigma. -/
theorem lowerAfter_of_ascii {cased : Bool} {t : Text}
    (h : ∀ d ∈ Text.lowerAfter cased t, d.toNat < 128) :
    Text.lowerAfter cased t = t.flatMap lowerOf ∧ ∀ c ∈ t, ∀ d ∈ lowerOf c, d.toNat < 128 := by
  induction t generalizing cased with
  | nil => exact ⟨rfl, by simp⟩
  | cons c t ih =>
      unfold Text.lowerAfter at h ⊢
      dsimp only at h ⊢
      rcases List.forall_mem_append.mp h with ⟨hhere, hrest⟩
      rcases ih hrest with ⟨heq, hall⟩
      -- Both forms of a sigma lie beyond ASCII.
      by_cases hc : c = 'Σ'
      · exfalso
        rw [if_pos hc] at hhere
        split at hhere
        · exact absurd (hhere 'ς' (by simp)) (by decide)
        · exact absurd (hhere 'σ' (by simp)) (by decide)
      · rw [if_neg hc] at hhere ⊢
        rw [heq, List.flatMap_cons]
        exact ⟨rfl, List.forall_mem_cons.mpr ⟨hhere, hall⟩⟩

theorem lowerAfter_of_no_sigma {cased : Bool} {t : Text} (h : 'Σ' ∉ t) :
    Text.lowerAfter cased t = t.flatMap lowerOf := by
  induction t generalizing cased with
  | nil => rfl
  | cons c t ih =>
      have hc : c ≠ 'Σ' := fun hc => h (by simp [hc])
      unfold Text.lowerAfter
      dsimp only
      rw [if_neg hc, ih (fun ht => h (by simp [ht])), List.flatMap_cons]

/-- The small letters of a capital sigma, inside a word and at its end. -/
theorem lowerOf_sigma : lowerOf 'Σ' = ['σ'] ∧ lowerOf 'ς' = ['ς'] := by decide

/-- What stands in a lower case: the lower case of some character, or a small sigma. -/
theorem mem_lowerAfter {cased : Bool} {t : Text} {d : Char} (h : d ∈ Text.lowerAfter cased t) :
    (∃ c ∈ t, d ∈ lowerOf c) ∨ d = 'ς' := by
  induction t generalizing cased with
  | nil => exact absurd h (by simp [Text.lowerAfter])
  | cons c t ih =>
      unfold Text.lowerAfter at h
      dsimp only at h
      rcases List.mem_append.mp h with h | h
      · by_cases hc : c = 'Σ'
        · rw [if_pos hc] at h
          split at h
          · exact Or.inr (List.mem_singleton.mp h)
          · left
            rw [List.mem_singleton.mp h, hc]
            exact ⟨'Σ', by simp, by simp [lowerOf_sigma.1]⟩
        · rw [if_neg hc] at h
          exact Or.inl ⟨c, by simp, h⟩
      · rcases ih h with ⟨x, hx, hd⟩ | hd
        · exact Or.inl ⟨x, by simp [hx], hd⟩
        · exact Or.inr hd

/-- Characters that stand in a lower case are their own lower case. -/
theorem lowerOf_of_mem {cased : Bool} {t : Text} {d : Char} (h : d ∈ Text.lowerAfter cased t) : lowerOf d = [d] := by
  rcases mem_lowerAfter h with ⟨c, -, hd⟩ | rfl
  · exact (lowerOf_settled hd).1
  · exact lowerOf_sigma.2

/-- A text in lower case is its own lower case. -/
theorem lower_lower (t : Text) : Text.lower (Text.lower t) = Text.lower t := by
  have hsigma : 'Σ' ∉ Text.lower t := fun h => absurd (lowerOf_of_mem h) (by rw [lowerOf_sigma.1]; decide)
  have hself : ∀ d ∈ Text.lower t, lowerOf d = [d] := fun d hd => lowerOf_of_mem hd
  rw [Text.lower, lowerAfter_of_no_sigma hsigma, List.flatMap_congr hself, List.flatMap_singleton']

theorem lower_ne_nil {t : Text} (h : t ≠ []) : Text.lower t ≠ [] := by
  cases t with
  | nil => exact absurd rfl h
  | cons c t =>
      unfold Text.lower Text.lowerAfter
      dsimp only
      split
      · split <;> simp
      · simp [lowerOf_ne_nil]

/-- The lower case of a word is a word. -/
theorem not_isSeparator_of_lower {t : Text} (h : ∀ c ∈ t, Naming.isSeparator c = false) :
    ∀ d ∈ Text.lower t, Naming.isSeparator d = false := by
  intro d hd
  rcases mem_lowerAfter hd with ⟨c, hc, hd⟩ | rfl
  · exact (lowerOf_settled hd).2 (h c hc)
  · decide

end CaseMap

end RouteScaffold

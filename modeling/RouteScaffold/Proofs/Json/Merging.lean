import RouteScaffold.Json.Shape
import RouteScaffold.Proofs.Json.RoundTrip

/-!
# Merging Objects

One object is merged into another field by field. What is found in the result along a path
of keys follows from what is found along that path in the two. The later object decides,
in three ways: it holds something there; it holds, somewhere on the way, a value that has
no fields, and then there is nothing behind it; or it says nothing, and then the earlier
object is what counts. Only where both hold an object does the earlier one still show
through.

All this takes for granted that no object has two fields with one key. Objects that are
read from a document are of this sort, since a field that comes again takes the place of
the one before it.

## Main definitions

* `Json.Keyed`: Values whose objects have no two fields with one key.
* `Json.Blocked`: A path that leads through a value without fields.

## Theorems

* `get?_mergeFields`: A field of a merged object.
* `at?_mergeFields`: What a path leads to in a merged object.
* `mergeFields_again`: Merging the same object again changes nothing.
* `keyed_of_read`: What is read from a document is keyed.
-/

namespace RouteScaffold

namespace Json

mutual

/-- Values whose objects have no two fields with one key. Lists are not looked into, since
    merging does not either. -/
def Keyed : Json → Prop
  | record fields => KeyedFields fields
  | _ => True

/-- The same of the fields of an object. -/
def KeyedFields : Fields → Prop
  | [] => True
  | (key, v) :: rest => key ∉ rest.map Prod.fst ∧ Keyed v ∧ KeyedFields rest

end

/-- A path that leads through a value without fields: nothing is behind it. -/
def Blocked (path : List Text) (fields : Fields) : Prop :=
  ∃ front rest, path = front ++ rest ∧ front ≠ [] ∧ rest ≠ []
    ∧ ∃ v, at? front (record fields) = some v ∧ v.asFields? = none

variable {key k : Text} {v w : Json} {fields base later : Fields} {path : List Text}

/-! ### Fields -/

namespace Fields

/-- A field that has been set has its value, and every other field the one it had. -/
theorem get?_put (key k : Text) (v : Json) (fields : Fields) :
    get? k (put key v fields) = if k = key then some v else get? k fields := by
  induction fields with
  | nil => simp only [put, get?, eq_comm]
  | cons f fields ih =>
      rcases f with ⟨k', w⟩
      by_cases hput : k' = key
      · rw [put, if_pos hput, get?, get?, hput]
        by_cases hk : k = key
        · rw [if_pos hk, if_pos hk.symm]
        · rw [if_neg hk, if_neg (Ne.symm hk), if_neg (Ne.symm hk)]
      · rw [put, if_neg hput, get?, get?, ih]
        by_cases hk : k' = k
        · rw [if_pos hk, if_pos hk, if_neg fun heq => hput (hk.trans heq)]
        · rw [if_neg hk, if_neg hk]

/-- Setting a field to the value that it has changes nothing. -/
theorem put_of_get? (h : get? key fields = some v) : put key v fields = fields := by
  induction fields with
  | nil => exact absurd h (by simp [get?])
  | cons f fields ih =>
      rcases f with ⟨k, w⟩
      rw [get?] at h
      split at h
      · next heq =>
          rw [put, if_pos heq, Option.some.inj h]
      · next hne => rw [put, if_neg hne, ih h]

theorem get?_of_not_mem (h : key ∉ fields.map Prod.fst) : get? key fields = none := by
  induction fields with
  | nil => rfl
  | cons f fields ih =>
      rw [List.map_cons, List.mem_cons, not_or] at h
      rw [get?, if_neg (Ne.symm h.1), ih h.2]

theorem mem_of_get? (h : get? key fields = some v) : (key, v) ∈ fields := by
  induction fields with
  | nil => exact absurd h (by simp [get?])
  | cons f fields ih =>
      rw [get?] at h
      split at h
      · next heq =>
          rw [← heq, ← Option.some.inj h]
          exact List.mem_cons_self
      · exact List.mem_cons_of_mem _ (ih h)

/-- Setting a field gives no other key to an object. -/
theorem mem_keys_put : k ∈ (put key v fields).map Prod.fst ↔ k = key ∨ k ∈ fields.map Prod.fst := by
  induction fields with
  | nil => simp [put]
  | cons f fields ih =>
      rw [put]
      split
      · next heq => simp [← heq]
      · rw [List.map_cons, List.mem_cons, ih, List.map_cons, List.mem_cons]
        exact or_left_comm

end Fields

theorem KeyedFields.mem (h : KeyedFields fields) (hmem : (key, v) ∈ fields) :
    Fields.get? key fields = some v ∧ Keyed v := by
  induction fields with
  | nil => exact absurd hmem (by simp)
  | cons f fields ih =>
      rw [KeyedFields] at h
      rcases List.mem_cons.mp hmem with rfl | hmem
      · exact ⟨by rw [Fields.get?, if_pos rfl], h.2.1⟩
      · rcases ih h.2.2 hmem with ⟨hget, hv⟩
        have hne : f.1 ≠ key := fun heq => h.1 (heq ▸ List.mem_map.mpr ⟨_, hmem, rfl⟩)
        exact ⟨by rw [Fields.get?, if_neg hne, hget], hv⟩

theorem KeyedFields.get? (h : KeyedFields fields) (hget : Fields.get? key fields = some v) : Keyed v :=
  (h.mem (Fields.mem_of_get? hget)).2

/-- Setting a field leaves keys apart. -/
theorem KeyedFields.put (h : KeyedFields fields) (hv : Keyed v) : KeyedFields (Fields.put key v fields) := by
  induction fields with
  | nil => exact ⟨by simp, hv, trivial⟩
  | cons f fields ih =>
      rw [KeyedFields] at h
      rw [Fields.put]
      split
      · next heq => exact ⟨heq ▸ h.1, hv, h.2.2⟩
      · next hne =>
          refine ⟨fun hmem => ?_, h.2.1, ih h.2.2⟩
          rcases Fields.mem_keys_put.mp hmem with heq | hmem
          · exact hne heq
          · exact h.1 hmem

/-! ### Merging -/

/-- Only an object shows what it is merged over. -/
theorem mergeOver_of_plain (hv : v.asFields? = none) (earlier : Option Json) : mergeOver earlier v = v := by
  cases v with
  | record fields => exact absurd hv (by simp [asFields?])
  | _ => rfl

/-- A field of a merged object. -/
theorem get?_mergeFields (h : KeyedFields later) : Fields.get? key (mergeFields base later)
    = match Fields.get? key later with
      | some v => some (mergeOver (Fields.get? key base) v)
      | none => Fields.get? key base := by
  induction later generalizing base with
  | nil => rfl
  | cons f later ih =>
      rcases f with ⟨k, w⟩
      rw [KeyedFields] at h
      rw [mergeFields, ih h.2.2, Fields.get?_put, Fields.get?]
      by_cases hk : k = key
      · -- The field that has just been set is not set again.
        rw [if_pos hk, if_pos hk.symm, hk, Fields.get?_of_not_mem (hk ▸ h.1)]
      · rw [if_neg hk, if_neg (Ne.symm hk)]

/-- Fields with new keys are put behind those that are there. -/
theorem mergeFields_of_new (h : KeyedFields later) (hnew : ∀ k ∈ later.map Prod.fst, k ∉ base.map Prod.fst) :
    mergeFields base later = base ++ later := by
  induction later generalizing base with
  | nil => rw [mergeFields, List.append_nil]
  | cons f later ih =>
      rcases f with ⟨k, w⟩
      rw [KeyedFields] at h
      have hk : k ∉ base.map Prod.fst := hnew k (by simp)
      have hlater : mergeOver (Fields.get? k base) w = w := by
        rw [Fields.get?_of_not_mem hk]
        cases w <;> rfl
      rw [mergeFields, hlater, put_of_not_mem hk, ih h.2.2, List.append_assoc, List.singleton_append]
      -- The key that has just been put in is new to the rest as well.
      intro l hl hmem
      rw [List.map_append, List.mem_append] at hmem
      rcases hmem with hmem | hmem
      · exact hnew l (by simp [hl]) hmem
      · rw [List.map_singleton, List.mem_singleton] at hmem
        rw [hmem] at hl
        exact h.1 hl

theorem mergeFields_nil (h : KeyedFields later) : mergeFields [] later = later :=
  mergeFields_of_new h fun _ _ => by simp

/-- An object that is merged over anything shows the fields of that, if it has any. -/
theorem mergeOver_record (h : KeyedFields later) (earlier : Option Json) : mergeOver earlier (record later)
    = record (mergeFields ((earlier.bind asFields?).getD []) later) := by
  cases earlier with
  | none => exact congrArg record (mergeFields_nil h).symm
  | some v =>
      cases v with
      | record base => rfl
      | _ => exact congrArg record (mergeFields_nil h).symm

/-- Merging an object into one that shows all of it already changes nothing. -/
theorem mergeFields_of_shown
    (h : ∀ kv ∈ later, ∃ w, Fields.get? kv.1 base = some w ∧ mergeOver (some w) kv.2 = w) :
    mergeFields base later = base := by
  induction later with
  | nil => rfl
  | cons f later ih =>
      rcases h f (by simp) with ⟨w, hget, hlater⟩
      rw [mergeFields, hget, hlater, Fields.put_of_get? hget]
      exact ih fun kv hkv => h kv (by simp [hkv])

mutual

/-- Merging the same value again changes nothing. -/
theorem mergeOver_again : ∀ (v : Json), Keyed v → ∀ earlier : Option Json,
    mergeOver (some (mergeOver earlier v)) v = mergeOver earlier v
  | .null, _, _ | .bool _, _, _ | .int _, _, _ | .decimal _, _, _ | .text _, _, _ | .list _, _, _ => rfl
  | .record later, h, earlier => by
      rw [Keyed] at h
      rw [mergeOver_record h earlier]
      refine congrArg record (mergeFields_of_shown fun kv hkv => ⟨_, ?_, mergeOver_again_each later h kv hkv
        (Fields.get? kv.1 ((earlier.bind asFields?).getD []))⟩)
      rw [get?_mergeFields h, (h.mem hkv).1]

/-- The same of the values of fields. -/
theorem mergeOver_again_each : ∀ (later : Fields), KeyedFields later → ∀ kv ∈ later, ∀ earlier : Option Json,
    mergeOver (some (mergeOver earlier kv.2)) kv.2 = mergeOver earlier kv.2
  | [], _, _, hkv => absurd hkv (by simp)
  | (_, v) :: later, h, _, hkv => by
      rw [KeyedFields] at h
      rcases List.mem_cons.mp hkv with rfl | hkv
      · exact mergeOver_again v h.2.1
      · exact mergeOver_again_each later h.2.2 _ hkv

end

/-- Merging the same object again changes nothing. -/
theorem mergeFields_again (base : Fields) (h : KeyedFields later) :
    mergeFields (mergeFields base later) later = mergeFields base later :=
  mergeFields_of_shown fun kv hkv => by
    refine ⟨mergeOver (Fields.get? kv.1 base) kv.2, ?_, mergeOver_again_each later h kv hkv _⟩
    rw [get?_mergeFields h, (h.mem hkv).1]

/-! ### Paths -/

theorem at?_cons (key : Text) (path : List Text) (fields : Fields) :
    at? (key :: path) (record fields) = (Fields.get? key fields).bind (at? path) := by
  rw [at?]
  cases Fields.get? key fields <;> rfl

/-- A path is followed part by part. -/
theorem at?_append (front rest : List Text) (v : Json) : at? (front ++ rest) v = (at? front v).bind (at? rest) := by
  induction front generalizing v with
  | nil => rfl
  | cons key front ih =>
      cases v with
      | record fields =>
          rw [List.cons_append, at?_cons, at?_cons, Option.bind_assoc]
          exact Option.bind_congr fun w _ => ih w
      | _ => rfl

theorem at?_of_plain (hv : v.asFields? = none) (hpath : path ≠ []) : at? path v = none := by
  cases path with
  | nil => exact absurd rfl hpath
  | cons key path =>
      cases v with
      | record fields => exact absurd hv (by simp [asFields?])
      | _ => rfl

/-- A value shows behind its end what the fields that it has show. -/
theorem at?_of_fields (hpath : path ≠ []) (v : Option Json) :
    v.bind (at? path) = at? path (record ((v.bind asFields?).getD [])) := by
  have hempty : at? path (record []) = none := by
    cases path with
    | nil => exact absurd rfl hpath
    | cons key path => rfl
  cases v with
  | none => exact hempty.symm
  | some v =>
      cases v with
      | record fields => rfl
      | _ =>
          rw [Option.bind_some, at?_of_plain rfl hpath]
          exact hempty.symm

theorem not_blocked_single (key : Text) (fields : Fields) : ¬ Blocked [key] fields := by
  rintro ⟨front, rest, heq, hfront, hrest, -⟩
  rcases List.append_eq_singleton_iff.mp heq.symm with ⟨rfl, -⟩ | ⟨-, rfl⟩
  · exact hfront rfl
  · exact hrest rfl

/-- A path is blocked by what its first key leads to, or behind it. -/
theorem blocked_cons (hpath : path ≠ []) : Blocked (key :: path) fields ↔
    ∃ v, Fields.get? key fields = some v
      ∧ (v.asFields? = none ∨ ∃ inner, v = record inner ∧ Blocked path inner) := by
  constructor
  · rintro ⟨front, rest, heq, hfront, hrest, v, hv, hplain⟩
    cases front with
    | nil => exact absurd rfl hfront
    | cons k front =>
        rw [List.cons_append, List.cons.injEq] at heq
        rcases heq with ⟨rfl, rfl⟩
        rw [at?_cons] at hv
        rcases Option.bind_eq_some_iff.mp hv with ⟨w, hw, hwv⟩
        refine ⟨w, hw, ?_⟩
        cases hinner : w.asFields? with
        | none => exact Or.inl rfl
        -- The value on the way is a record, so the part that blocks is further inside.
        | some inner =>
            right
            cases w with
            | record inner' =>
                refine ⟨inner', rfl, front, rest, rfl, ?_, hrest, v, hwv, hplain⟩
                rintro rfl
                rw [at?, Option.some.injEq] at hwv
                rw [← hwv] at hplain
                exact absurd hplain (by simp [asFields?])
            | _ => exact absurd hinner (by simp [asFields?])
  · rintro ⟨v, hget, hplain | ⟨inner, rfl, front, rest, rfl, hfront, hrest, w, hw, hplain⟩⟩
    · refine ⟨[key], path, rfl, by simp, hpath, v, ?_, hplain⟩
      rw [at?_cons, hget]
      rfl
    · refine ⟨key :: front, rest, rfl, by simp, hrest, w, ?_, hplain⟩
      rw [at?_cons, hget]
      exact hw

/-- A path that leads somewhere is not blocked. -/
theorem not_blocked_of_at? (h : at? path (record fields) = some v) : ¬ Blocked path fields := by
  rintro ⟨front, rest, rfl, -, hrest, w, hw, hplain⟩
  rw [at?_append, hw, Option.bind_some, at?_of_plain hplain hrest] at h
  exact absurd h (by simp)

/-- What a path leads to in a merged object. The induction is on the path: behind its first
    key, the later object is again merged over the fields that the earlier one has there. -/
theorem at?_mergeFields (h : KeyedFields later) (hpath : path ≠ []) :
    (Blocked path later → at? path (record (mergeFields base later)) = none)
      ∧ (¬ Blocked path later → at? path (record (mergeFields base later))
        = match at? path (record later) with
          | some v => some (mergeOver (at? path (record base)) v)
          | none => at? path (record base)) := by
  induction path generalizing base later with
  | nil => exact absurd rfl hpath
  | cons key path ih =>
      rw [at?_cons, get?_mergeFields h, at?_cons, at?_cons]
      by_cases hlast : path = []
      · subst hlast
        refine ⟨fun hblocked => absurd hblocked (not_blocked_single key later), fun _ => ?_⟩
        cases Fields.get? key later with
        | none => rfl
        | some v => cases Fields.get? key base <;> rfl
      -- The path goes on behind this key, so what its value is decides.
      · rw [blocked_cons hlast]
        cases hget : Fields.get? key later with
        | none => exact ⟨fun ⟨v, hv, _⟩ => absurd hv (by simp), fun _ => rfl⟩
        | some v =>
            dsimp only
            rw [Option.bind_some, Option.bind_some, at?_of_fields hlast (Fields.get? key base)]
            -- A plain value takes the place of whatever was there, with nothing inside.
            cases hinner : v.asFields? with
            | none =>
                rw [mergeOver_of_plain hinner, at?_of_plain hinner hlast]
                exact ⟨fun _ => rfl, fun hfree => absurd ⟨v, rfl, Or.inl hinner⟩ hfree⟩
            | some inner =>
                have hv : v = record inner := by
                  cases v with
                  | record inner' => rw [← Option.some.inj hinner]
                  | _ => exact absurd hinner (by simp [asFields?])
                subst hv
                have hkeyed : KeyedFields inner := h.get? hget
                rw [mergeOver_record hkeyed]
                rcases @ih (((Fields.get? key base).bind asFields?).getD []) inner hkeyed hlast with ⟨hshut, hopen⟩
                refine ⟨?_, fun hfree => hopen fun hblocked => hfree ⟨_, rfl, Or.inr ⟨inner, rfl, hblocked⟩⟩⟩
                rintro ⟨w, hw, hplain | ⟨inner', heq, hblocked⟩⟩
                · rw [← Option.some.inj hw] at hplain
                  exact absurd hplain (by simp [asFields?])
                · rw [← Option.some.inj hw, record.injEq] at heq
                  exact hshut (heq ▸ hblocked)

/-! ### Reading -/

theorem bind_eq_ok {ε α β : Type} {r : Except ε α} {next : α → Except ε β} {b : β} :
    (r >>= next) = .ok b ↔ ∃ a, r = .ok a ∧ next a = .ok b := by
  cases r with
  | error e => exact ⟨fun h => absurd h (by simp [bind, Except.bind]), fun ⟨a, h, _⟩ => absurd h (by simp)⟩
  | ok a => exact ⟨fun h => ⟨a, rfl, h⟩, fun ⟨_, heq, h⟩ => Except.ok.inj heq ▸ h⟩

theorem keyed_of_readScalar {strict : Bool} {t rest : Text} (h : readScalar strict t = .ok (v, rest)) : Keyed v := by
  -- None of the words stands for a record.
  have hwords : ∀ p ∈ words, p.2.asFields? = none := by decide
  have hplain : v.asFields? = none := by
    rw [readScalar] at h
    split at h
    · next r hr =>
        rcases List.exists_of_findSome?_eq_some hr with ⟨p, hp, hmap⟩
        rcases Option.map_eq_some_iff.mp hmap with ⟨u, -, hu⟩
        rw [← hu, Except.ok.injEq, Prod.mk.injEq] at h
        rw [← h.1]
        exact hwords p hp
    · split at h
      · next n u hn =>
          split at h
          · exact absurd h (by simp [Json.fail])
          · rw [Except.ok.injEq, Prod.mk.injEq] at h
            rw [← h.1, Numeral.value]
            split <;> rfl
      · exact absurd h (by simp [Json.fail])
  cases v with
  | record fields => exact absurd hplain (by simp [asFields?])
  | _ => exact trivial

/-- What the readers of values and of fields answer with is keyed, by induction on their
    steps. A field that comes again takes the place of the one before it. -/
theorem keyed_of_readers (steps : Nat) :
    (∀ rules t v rest, readValue rules steps t = .ok (v, rest) → Keyed v)
      ∧ ∀ rules done t fields rest, KeyedFields done →
        readFields rules steps done t = .ok (fields, rest) → KeyedFields fields := by
  induction steps with
  | zero =>
      refine ⟨fun rules t v rest h => ?_, fun rules done t fields rest _ h => ?_⟩
      · exact absurd h (by simp [readValue, Json.fail])
      · exact absurd h (by simp [readFields, Json.fail])
  | succ steps ih =>
      refine ⟨fun rules t v rest h => ?_, fun rules done t fields rest hdone h => ?_⟩
      · unfold readValue at h
        dsimp only at h
        split at h
        -- Texts, lists and words hold no fields.
        · rcases bind_eq_ok.mp h with ⟨r, -, hr⟩
          rw [← (Prod.mk.inj (Except.ok.inj hr)).1]
          exact trivial
        · split at h
          · rw [← (Prod.mk.inj (Except.ok.inj h)).1]
            exact trivial
          · rcases bind_eq_ok.mp h with ⟨inner, -, h⟩
            rcases bind_eq_ok.mp h with ⟨r, -, hr⟩
            rw [← (Prod.mk.inj (Except.ok.inj hr)).1]
            exact trivial
        · split at h
          · rw [← (Prod.mk.inj (Except.ok.inj h)).1]
            exact trivial
          · rcases bind_eq_ok.mp h with ⟨inner, -, h⟩
            -- The fields of a record are put in one by one.
            rcases bind_eq_ok.mp h with ⟨r, hread, hr⟩
            rw [← (Prod.mk.inj (Except.ok.inj hr)).1]
            exact ih.2 _ [] _ _ _ trivial hread
        · exact keyed_of_readScalar h
      · rw [readFields] at h
        rcases bind_eq_ok.mp h with ⟨key, -, h⟩
        rcases bind_eq_ok.mp h with ⟨colon, -, h⟩
        rcases bind_eq_ok.mp h with ⟨value, hread, h⟩
        have hput : KeyedFields (Fields.put key.1 value.1 _) := hdone.put (ih.1 _ _ _ _ hread)
        dsimp only at h
        split at h
        · rw [← (Prod.mk.inj (Except.ok.inj h)).1]
          exact hput
        · exact ih.2 _ _ _ _ _ hput h
        · exact absurd h (by simp [Json.fail])

/-- What is read from a document is keyed. -/
theorem keyed_of_read {rules : Rules} {t : Text} (h : read rules t = .ok v) : Keyed v := by
  unfold Json.read at h
  split at h
  · exact absurd h (by simp [Json.fail])
  · rcases bind_eq_ok.mp h with ⟨r, hread, h⟩
    dsimp only at h
    split at h
    · rw [← Except.ok.inj h]
      exact (keyed_of_readers _).1 _ _ _ _ hread
    · exact absurd h (by simp [Json.fail])

end Json

end RouteScaffold

import Mathlib.Data.List.Nodup
import RouteScaffold.Json.Reader
import RouteScaffold.Json.Writer
import RouteScaffold.Text.LineEnding

/-!
# Documents Read Back

A document that was written from a value is read as that value, if the value
holds no numbers, no two fields of an object have one key, and it is not
nested deeper than the reading allows. The records of this library are of this
sort: they are texts, lists of texts and records of these.

Texts survive whatever characters they hold: what is escaped in writing is
unescaped in reading, and nothing else is taken for an escape.

## Main definitions

* `Json.Kept`: Values whose documents are read back.

## Theorems

* `readChars_enclosed`: Texts are read back.
* `readValue_writeAt`: Values are read back, whatever follows them.
* `read_document`: Documents are read back.
* `writeAt_ne_return`: Documents hold no carriage returns.
-/

namespace RouteScaffold

namespace Json

/-! ### Texts -/

/-- The escape of a small unit, digit by digit. -/
theorem unitEscape_digits : ∀ n < 0x20, ∃ a b c d, unitEscape n = ['\\', 'u', a, b, c, d]
    ∧ unit? [a, b, c, d] = some n := by
  have hall : ∀ n < 0x20, (unitEscape n).length = 6 ∧ (unitEscape n).take 2 = ['\\', 'u']
      ∧ unit? ((unitEscape n).drop 2) = some n := by decide
  intro n hn
  rcases hall n hn with ⟨hlen, htake, hunit⟩
  generalize unitEscape n = t at *
  rcases t with _ | ⟨x, _ | ⟨y, _ | ⟨a, _ | ⟨b, _ | ⟨c, _ | ⟨d, _ | ⟨e, t⟩⟩⟩⟩⟩⟩⟩ <;> simp at hlen
  simp only [List.take_succ_cons, List.take_zero, List.cons.injEq, and_true] at htake
  rcases htake with ⟨rfl, rfl⟩
  exact ⟨a, b, c, d, rfl, hunit⟩

/-- Letters behind a backslash stand for what they are written for. -/
theorem plainEscape?_of_escapeLetter? {c letter : Char} (h : escapeLetter? c = some letter) :
    plainEscape? letter = some c ∧ letter ≠ 'u' := by
  unfold escapeLetter? at h
  split at h
  all_goals cases h
  all_goals decide

theorem readChars_covered (strict : Bool) (opening s t : Text) :
    readChars strict opening s.length (s ++ t) = readChars strict opening 0 t := by
  induction s with
  | nil => rfl
  | cons c s ih =>
      rw [List.length_cons, List.cons_append, readChars]
      exact ih

/-- A written character is read as it was. -/
theorem readChars_documentChar (strict : Bool) (opening : Text) (c : Char) {t : Text} (ht : t ≠ []) :
    readChars strict opening 0 (documentChar c ++ t)
      = (readChars strict opening 0 t).map fun r => (c :: r.1, r.2) := by
  have hstep : ∀ (size : Nat) (s : Text), s.length = size → escape? strict (s ++ t) = .ok ([c], size) →
      s ≠ [] → readChars strict opening 0 ('\\' :: (s ++ t))
        = (readChars strict opening 0 t).map fun r => (c :: r.1, r.2) := by
    intro size s hlen hescape hne
    have hsome : (s ++ t).isEmpty = false := by simp [hne]
    rw [readChars, if_neg (by decide), if_pos rfl, hsome, if_neg (by simp), hescape, ← hlen]
    simp only [bind, Except.bind, readChars_covered]
    cases readChars strict opening 0 t <;> rfl
  rw [documentChar]
  -- A letter of its own, four digits, or the character itself.
  cases hletter : escapeLetter? c with
  | some letter =>
      have hplain := plainEscape?_of_escapeLetter? hletter
      refine hstep 1 [letter] rfl ?_ (by simp)
      rw [List.singleton_append, escape?]
      · rw [hplain.1]
      · exact hplain.2
  | none =>
      by_cases hsmall : c.toNat < 0x20
      · rcases unitEscape_digits c.toNat hsmall with ⟨x, y, z, w, hesc, hunit⟩
        dsimp only
        rw [if_pos hsmall, hesc]
        refine hstep 5 ['u', x, y, z, w] rfl ?_ (by simp)
        have hlen : ¬ ([x, y, z, w] ++ t).length ≤ 4 := by
          have := List.length_pos_of_ne_nil ht
          simp only [List.length_append, List.length_cons, List.length_nil]
          omega
        have hunit' : unit? ([x, y, z, w] ++ t) = some c.toNat := hunit
        -- A control character is no half of a pair, so it stands for itself.
        have hhigh : isHighSurrogate c.toNat = false := by
          simp [isHighSurrogate]
          omega
        have hlow : isLowSurrogate c.toNat = false := by
          simp [isLowSurrogate]
          omega
        rw [show ['u', x, y, z, w] ++ t = 'u' :: ([x, y, z, w] ++ t) from rfl, escape?, if_neg hlen,
          hunit']
        simp only [hhigh]
        rw [loneUnit, hhigh, hlow]
        simp [Char.ofNat_toNat]
      -- Neither the quote nor the backslash, as both have a letter.
      · have hquote : c ≠ '"' := by
          rintro rfl
          exact absurd hletter (by decide)
        have hback : c ≠ '\\' := by
          rintro rfl
          exact absurd hletter (by decide)
        dsimp only
        rw [if_neg hsmall, List.singleton_append, readChars, if_neg hquote, if_neg hback,
          if_neg hsmall]
        cases readChars strict opening 0 t <;> rfl

/-- Texts are read back. -/
theorem readChars_enclosed (strict : Bool) (opening t rest : Text) :
    readChars strict opening 0 (t.flatMap documentChar ++ '"' :: rest) = .ok (t, rest) := by
  induction t with
  | nil =>
      rw [List.flatMap_nil, List.nil_append, readChars]
      rfl
  | cons c t ih =>
      rw [List.flatMap_cons, List.append_assoc, readChars_documentChar strict opening c (by simp), ih]
      rfl

/-! ### Values -/

mutual

/-- Values whose documents are read back: they hold no numbers and no two
    fields with one key, and are not nested too deep. -/
def Kept : (depth : Nat) → Json → Prop
  | _, null => True
  | _, bool _ => True
  | _, int _ => False
  | _, decimal _ => False
  | _, text _ => True
  | _, list [] => True
  | 0, list (_ :: _) => False
  | depth + 1, list (v :: vs) => Kept depth v ∧ KeptItems depth vs
  | _, record [] => True
  | 0, record (_ :: _) => False
  | depth + 1, record ((key, v) :: fields) =>
    (key :: fields.map Prod.fst).Nodup ∧ Kept depth v ∧ KeptFields depth fields

/-- The same of the items of a list. -/
def KeptItems : (depth : Nat) → List Json → Prop
  | _, [] => True
  | depth, v :: vs => Kept depth v ∧ KeptItems depth vs

/-- The same of the values of fields. -/
def KeptFields : (depth : Nat) → Fields → Prop
  | _, [] => True
  | depth, (_, v) :: fields => Kept depth v ∧ KeptFields depth fields

end

theorem skipGap_lineBreak (depth : Nat) (t : Text) : skipGap (lineBreak depth ++ t) = skipGap t := by
  rw [lineBreak, skipGap, skipGap, List.cons_append, List.dropWhile_cons_of_pos (by decide)]
  generalize 2 * depth = n
  induction n with
  | zero => rfl
  | succ n ih =>
      rw [List.replicate_succ, List.cons_append, List.dropWhile_cons_of_pos (by decide)]
      exact ih

theorem skipGap_cons {c : Char} (hc : isGap c = false) (t : Text) : skipGap (c :: t) = c :: t :=
  List.dropWhile_cons_of_neg (by simp [hc])

/-- How the document of a value begins. -/
theorem writeAt_head {depth : Nat} {v : Json} (h : Kept depth v) (level : Nat) :
    ∃ c t, writeAt level v = c :: t ∧ isGap c = false ∧ c ≠ ']' ∧ c ≠ '\uFEFF' := by
  cases v with
  | null => exact ⟨'n', _, rfl, by decide, by decide, by decide⟩
  | bool b => cases b <;> exact ⟨_, _, rfl, by decide, by decide, by decide⟩
  | int n => exact absurd h (by simp [Kept])
  | decimal x => exact absurd h (by simp [Kept])
  | text t => exact ⟨'"', _, rfl, by decide, by decide, by decide⟩
  | list items => cases items <;> exact ⟨'[', _, rfl, by decide, by decide, by decide⟩
  | record fields => cases fields <;> exact ⟨'\x7b', _, rfl, by decide, by decide, by decide⟩

theorem writeAt_length_pos {depth : Nat} {v : Json} (h : Kept depth v) (level : Nat) :
    0 < (writeAt level v).length := by
  rcases writeAt_head h level with ⟨c, t, hhead, -⟩
  rw [hhead]
  simp

theorem put_of_not_mem {key : Text} {v : Json} {fields : Fields} (h : key ∉ fields.map Prod.fst) :
    Fields.put key v fields = fields ++ [(key, v)] := by
  induction fields with
  | nil => rfl
  | cons f fields ih =>
      rcases f with ⟨k, w⟩
      rw [List.map_cons, List.mem_cons, not_or] at h
      rw [Fields.put, if_neg (Ne.symm h.1), ih h.2, List.cons_append]

theorem enclosed_append (char : Char → Text) (t rest : Text) :
    enclosed char t ++ rest = '"' :: (t.flatMap char ++ '"' :: rest) := by
  simp [enclosed]

theorem readKey_enclosed (strict : Bool) (key rest : Text) :
    readKey strict (enclosed documentChar key ++ rest) = .ok (key, rest) := by
  rw [enclosed_append, readKey, readChars_enclosed]

theorem readColon_gap {c : Char} (hc : isGap c = false) (t : Text) :
    readColon (": ".toList ++ c :: t) = .ok (c :: t) := by
  change (Except.ok (skipGap (' ' :: c :: t)) : Except ReadFault Text) = _
  rw [show skipGap (' ' :: c :: t) = skipGap (c :: t) from
    List.dropWhile_cons_of_pos (by decide), skipGap_cons hc]

theorem lineBreak_length (depth : Nat) : (lineBreak depth).length = 2 * depth + 1 := by
  simp [lineBreak]

/-- The number of steps left is that which is given, less one. -/
theorem exists_steps {n steps : Nat} (h : 2 * n ≤ steps) (hn : 0 < n) : ∃ s, steps = s + 1 :=
  ⟨steps - 1, by omega⟩

theorem readValue_list {strict : Bool} {depth steps : Nat} {r s : Text} {c : Char}
    (hgap : skipGap r = c :: s) (hc : c ≠ ']') :
    readValue ⟨depth + 1, strict⟩ (steps + 1) ('[' :: r)
      = (readItems ⟨depth, strict⟩ steps (c :: s)).map fun x => (list x.1, x.2) := by
  rw [readValue, hgap]
  split
  · next heq => exact absurd (List.cons.inj heq).1 hc
  · change (readItems ⟨depth, strict⟩ steps (c :: s) >>= _) = _
    cases readItems ⟨depth, strict⟩ steps (c :: s) <;> rfl

theorem readValue_record {strict : Bool} {depth steps : Nat} {r s : Text} {c : Char}
    (hgap : skipGap r = c :: s) (hc : c ≠ '\x7d') :
    readValue ⟨depth + 1, strict⟩ (steps + 1) ('\x7b' :: r)
      = (readFields ⟨depth, strict⟩ steps [] (c :: s)).map fun x => (record x.1, x.2) := by
  rw [readValue, hgap]
  split
  · next heq => exact absurd (List.cons.inj heq).1 hc
  · change (readFields ⟨depth, strict⟩ steps [] (c :: s) >>= _) = _
    cases readFields ⟨depth, strict⟩ steps [] (c :: s) <;> rfl

theorem readItems_eq {rules : Rules} {steps : Nat} {t after : Text} {v : Json}
    (h : readValue rules steps t = .ok (v, after)) : readItems rules (steps + 1) t
      = match skipGap after with
        | ']' :: rest => .ok ([v], rest)
        | ',' :: rest => (readItems rules steps (skipGap rest)).map fun x => (v :: x.1, x.2)
        | rest => fail .noComma rest := by
  rw [readItems, h]
  change (match skipGap after with
    | ']' :: rest => .ok ([v], rest)
    | ',' :: rest => readItems rules steps (skipGap rest) >>= fun x => .ok (v :: x.1, x.2)
    | rest => fail .noComma rest : Except ReadFault (List Json × Text)) = _
  split
  · rfl
  · next rest _ => cases readItems rules steps (skipGap rest) <;> rfl
  · rfl

theorem readFields_eq {strict : Bool} {depth steps : Nat} {done : Fields} {key t after : Text}
    {c : Char} {v : Json} (hc : isGap c = false)
    (h : readValue ⟨depth, strict⟩ steps (c :: t) = .ok (v, after)) :
    readFields ⟨depth, strict⟩ (steps + 1) done (enclosed documentChar key ++ (": ".toList ++ c :: t))
      = match skipGap after with
        | '\x7d' :: rest => .ok (Fields.put key v done, rest)
        | ',' :: rest => readFields ⟨depth, strict⟩ steps (Fields.put key v done) (skipGap rest)
        | rest => fail .noComma rest := by
  change (readKey strict (enclosed documentChar key ++ (": ".toList ++ c :: t)) >>= _) = _
  rw [readKey_enclosed]
  simp only [bind, Except.bind]
  rw [readColon_gap hc]
  dsimp only
  rw [h]
  rfl

/-! Each layer of a document spends a bracket, or a comma, and a line break on
its steps. -/

mutual

/-- Values are read back, whatever follows them. -/
theorem readValue_writeAt (strict : Bool) : ∀ (v : Json) (depth level steps : Nat) (rest : Text),
    Kept depth v → 2 * (writeAt level v).length ≤ steps →
      readValue ⟨depth, strict⟩ steps (writeAt level v ++ rest) = .ok (v, rest)
  | null, depth, level, steps, rest, _, hs => by
      rcases exists_steps (n := 4) hs (by decide) with ⟨steps, rfl⟩
      rfl
  | bool true, depth, level, steps, rest, _, hs => by
      rcases exists_steps (n := 4) hs (by decide) with ⟨steps, rfl⟩
      rfl
  | bool false, depth, level, steps, rest, _, hs => by
      rcases exists_steps (n := 5) hs (by decide) with ⟨steps, rfl⟩
      rfl
  | int _, _, _, _, _, h, _ => absurd h (by simp [Kept])
  | decimal _, _, _, _, _, h, _ => absurd h (by simp [Kept])
  | text t, depth, level, steps, rest, _, hs => by
      have hwrite : writeAt level (text t) = enclosed documentChar t := rfl
      rw [hwrite] at hs ⊢
      rcases exists_steps hs (by simp [enclosed]) with ⟨steps, rfl⟩
      rw [enclosed_append]
      change (do
        let (s, after) ← readChars strict _ 0 (t.flatMap documentChar ++ '"' :: rest)
        return (text s, after) : Except ReadFault (Json × Text)) = _
      rw [readChars_enclosed]
      rfl
  | list [], depth, level, steps, rest, _, hs => by
      rcases exists_steps (n := 2) hs (by decide) with ⟨steps, rfl⟩
      rfl
  | list (v :: vs), 0, _, _, _, h, _ => absurd h (by simp [Kept])
  | list (v :: vs), depth + 1, level, steps, rest, h, hs => by
      have hwrite : writeAt level (list (v :: vs)) = '[' :: (lineBreak (level + 1)
          ++ (writeAt (level + 1) v ++ (writeItems (level + 1) vs ++ (lineBreak level ++ [']'])))) := by
        rw [show writeAt level (list (v :: vs)) = '[' :: lineBreak (level + 1)
          ++ writeAt (level + 1) v ++ writeItems (level + 1) vs ++ lineBreak level ++ [']'] from rfl]
        simp only [List.append_assoc, List.cons_append]
      rw [Kept] at h
      rw [hwrite] at hs ⊢
      rcases exists_steps hs (by simp) with ⟨steps, rfl⟩
      have hitems := readItems_writeItems strict v vs depth (level + 1) level steps rest h.1 h.2 (by
        simp only [List.length_cons, List.length_append] at hs
        omega)
      rcases writeAt_head h.1 (level + 1) with ⟨c, s, hhead, hgap, hc, -⟩
      simp only [List.cons_append, List.append_assoc, List.nil_append]
      -- The value begins with no gap, so the gap in front of it is the line break alone.
      rw [hhead] at hitems ⊢
      rw [List.cons_append] at hitems ⊢
      rw [readValue_list (by rw [skipGap_lineBreak, skipGap_cons hgap]) hc, hitems]
      rfl
  | record [], depth, level, steps, rest, _, hs => by
      rcases exists_steps (n := 2) hs (by decide) with ⟨steps, rfl⟩
      rfl
  | record (_ :: _), 0, _, _, _, h, _ => absurd h (by simp [Kept])
  | record ((key, v) :: fields), depth + 1, level, steps, rest, h, hs => by
      have hwrite : writeAt level (record ((key, v) :: fields)) = '\x7b' :: (lineBreak (level + 1)
          ++ (enclosed documentChar key ++ (": ".toList ++ (writeAt (level + 1) v
          ++ (writeFields (level + 1) fields ++ (lineBreak level ++ ['\x7d'])))))) := by
        rw [show writeAt level (record ((key, v) :: fields)) = '\x7b' :: lineBreak (level + 1)
          ++ enclosed documentChar key ++ ": ".toList ++ writeAt (level + 1) v
          ++ writeFields (level + 1) fields ++ lineBreak level ++ ['\x7d'] from rfl]
        simp only [List.append_assoc, List.cons_append]
      rw [Kept] at h
      rw [hwrite] at hs ⊢
      rcases exists_steps hs (by simp) with ⟨steps, rfl⟩
      have hfields := readFields_writeFields strict key v fields depth (level + 1) level steps [] rest
        (by simpa using h.1) h.2.1 h.2.2 (by
          have hcolon : ": ".toList.length = 2 := rfl
          simp only [List.length_cons, List.length_append, lineBreak_length, hcolon] at hs
          omega)
      simp only [List.cons_append, List.append_assoc, List.nil_append] at hfields ⊢
      rw [enclosed_append] at hfields ⊢
      -- The key begins with a quote, so the gap in front of it is the line break alone.
      rw [readValue_record (by rw [skipGap_lineBreak, skipGap_cons (by decide)]) (by decide), hfields]
      rfl
termination_by _ _ _ steps => steps

/-- Items are read back, up to the bracket behind them. -/
theorem readItems_writeItems (strict : Bool) : ∀ (v : Json) (vs : List Json)
    (depth level level' steps : Nat) (rest : Text), Kept depth v → KeptItems depth vs →
      2 * ((writeAt level v).length + (writeItems level vs).length) < steps →
      readItems ⟨depth, strict⟩ steps (writeAt level v ++ (writeItems level vs
        ++ (lineBreak level' ++ ']' :: rest))) = .ok (v :: vs, rest)
  | v, [], depth, level, level', steps, rest, hv, _, hs => by
      have hsteps : 2 * (writeAt level v).length ≤ steps := by omega
      rcases exists_steps hsteps (writeAt_length_pos hv level) with ⟨steps, rfl⟩
      have hvalue := readValue_writeAt strict v depth level steps (lineBreak level' ++ ']' :: rest) hv (by omega)
      rw [show writeItems level [] = [] from rfl, List.nil_append, readItems_eq hvalue,
        skipGap_lineBreak, skipGap_cons (by decide)]
      rfl
  | v, w :: vs, depth, level, level', steps, rest, hv, hvs, hs => by
      have hsteps : 2 * (writeAt level v).length ≤ steps := by omega
      rcases exists_steps hsteps (writeAt_length_pos hv level) with ⟨steps, rfl⟩
      rw [KeptItems] at hvs
      have hwrite : writeItems level (w :: vs)
          = ',' :: (lineBreak level ++ (writeAt level w ++ writeItems level vs)) := by
        rw [show writeItems level (w :: vs)
          = ',' :: lineBreak level ++ writeAt level w ++ writeItems level vs from rfl]
        simp only [List.append_assoc, List.cons_append]
      rw [hwrite] at hs ⊢
      simp only [List.length_cons, List.length_append] at hs
      have hitems := readItems_writeItems strict w vs depth level level' steps rest hvs.1 hvs.2 (by omega)
      have hvalue := readValue_writeAt strict v depth level steps ((',' :: (lineBreak level
        ++ (writeAt level w ++ writeItems level vs))) ++ (lineBreak level' ++ ']' :: rest)) hv (by omega)
      rw [readItems_eq hvalue]
      simp only [List.cons_append, List.append_assoc]
      rw [skipGap_cons (by decide)]
      change Except.map _ (readItems _ _ (skipGap _)) = _
      rcases writeAt_head hvs.1 level with ⟨c, s, hhead, hgap, -⟩
      rw [skipGap_lineBreak]
      rw [hhead] at hitems ⊢
      rw [List.cons_append] at hitems ⊢
      rw [skipGap_cons hgap, hitems]
      rfl
termination_by _ _ _ _ _ steps => steps

/-- Fields are read back, up to the brace behind them. -/
theorem readFields_writeFields (strict : Bool) : ∀ (key : Text) (v : Json) (fields : Fields)
    (depth level level' steps : Nat) (done : Fields) (rest : Text),
      ((done.map Prod.fst) ++ key :: fields.map Prod.fst).Nodup → Kept depth v → KeptFields depth fields →
      2 * ((enclosed documentChar key).length + 2 + (writeAt level v).length
        + (writeFields level fields).length) < steps →
      readFields ⟨depth, strict⟩ steps done (enclosed documentChar key ++ (": ".toList ++ (writeAt level v
        ++ (writeFields level fields ++ (lineBreak level' ++ '\x7d' :: rest)))))
        = .ok (done ++ (key, v) :: fields, rest)
  | key, v, [], depth, level, level', steps, done, rest, hkeys, hv, _, hs => by
      have hsteps : 2 * (writeAt level v).length ≤ steps := by omega
      rcases exists_steps hsteps (writeAt_length_pos hv level) with ⟨steps, rfl⟩
      -- The key is not among those read before, so it is put at the end.
      have hnew : key ∉ done.map Prod.fst := by
        rw [List.map_nil, List.nodup_append] at hkeys
        exact fun hmem => hkeys.2.2 key hmem key (by simp) rfl
      have hvalue := readValue_writeAt strict v depth level steps (lineBreak level' ++ '\x7d' :: rest) hv
        (by omega)
      rcases writeAt_head hv level with ⟨c, s, hhead, hgap, -⟩
      rw [show writeFields level [] = [] from rfl, List.nil_append]
      rw [hhead, List.cons_append] at hvalue ⊢
      rw [readFields_eq hgap hvalue, skipGap_lineBreak, skipGap_cons (by decide), put_of_not_mem hnew]
      rfl
  | key, v, (key', w) :: fields, depth, level, level', steps, done, rest, hkeys, hv, hfields, hs => by
      have hsteps : 2 * (writeAt level v).length ≤ steps := by omega
      rcases exists_steps hsteps (writeAt_length_pos hv level) with ⟨steps, rfl⟩
      rw [KeptFields] at hfields
      have hnew : key ∉ done.map Prod.fst := by
        rw [List.nodup_append] at hkeys
        exact fun hmem => hkeys.2.2 key hmem key (by simp) rfl
      -- The keys read by now and those to come are still different from each other.
      have hkeys' : ((done ++ [(key, v)]).map Prod.fst ++ key' :: fields.map Prod.fst).Nodup := by
        rw [List.map_append, List.append_assoc]
        exact hkeys
      have hwrite : writeFields level ((key', w) :: fields) = ',' :: (lineBreak level
          ++ (enclosed documentChar key' ++ (": ".toList ++ (writeAt level w
          ++ writeFields level fields)))) := by
        rw [show writeFields level ((key', w) :: fields) = ',' :: lineBreak level
          ++ enclosed documentChar key' ++ ": ".toList ++ writeAt level w
          ++ writeFields level fields from rfl]
        simp only [List.append_assoc, List.cons_append]
      rw [hwrite] at hs ⊢
      have hcolon : ": ".toList.length = 2 := rfl
      simp only [List.length_cons, List.length_append, lineBreak_length, hcolon] at hs
      have hrest := readFields_writeFields strict key' w fields depth level level' steps
        (done ++ [(key, v)]) rest hkeys' hfields.1 hfields.2 (by omega)
      have hvalue := readValue_writeAt strict v depth level steps ((',' :: (lineBreak level
        ++ (enclosed documentChar key' ++ (": ".toList ++ (writeAt level w
        ++ writeFields level fields))))) ++ (lineBreak level' ++ '\x7d' :: rest)) hv (by omega)
      rcases writeAt_head hv level with ⟨c, s, hhead, hgap, -⟩
      rw [hhead, List.cons_append] at hvalue ⊢
      rw [readFields_eq hgap hvalue, put_of_not_mem hnew]
      simp only [List.cons_append, List.append_assoc] at hrest ⊢
      rw [skipGap_cons (by decide)]
      change readFields _ _ _ (skipGap _) = _
      rw [skipGap_lineBreak]
      rw [enclosed_append] at hrest ⊢
      rw [skipGap_cons (by decide), hrest]
      rfl
termination_by _ _ _ _ _ _ steps => steps

end

/-- Documents are read back, with any gap behind them. -/
theorem read_document {rules : Rules} {v : Json} (h : Kept rules.depth v) {gap : Text}
    (hgap : ∀ c ∈ gap, isGap c = true) : read rules (v.document ++ gap) = .ok v := by
  rcases rules with ⟨depth, strict⟩
  rcases writeAt_head h 0 with ⟨c, s, hhead, hstart, -, hmark⟩
  have hdoc : v.document ++ gap = c :: (s ++ gap) := by
    rw [show v.document = writeAt 0 v from rfl, hhead, List.cons_append]
  have hlen : (v.document ++ gap).length = (writeAt 0 v).length + gap.length := List.length_append
  have hvalue := readValue_writeAt strict v depth 0 (2 * (v.document ++ gap).length + 2) gap h
    (by omega)
  have hend : skipGap gap = [] := by
    have := @List.dropWhile_append_of_pos _ _ _ [] hgap
    rwa [List.append_nil] at this
  rw [hhead, List.cons_append, hdoc] at hvalue
  rw [hdoc, read, skipGap_cons hstart, hvalue]
  · simp only [bind, Except.bind, hend]
    rfl
  -- A document does not begin with a mark of its encoding.
  · intro r heq
    exact hmark (List.cons.inj heq).1

theorem readRecord?_document {v : Json} (h : Kept 200 v) {gap : Text}
    (hgap : ∀ c ∈ gap, isGap c = true) : readRecord? (v.document ++ gap) = some v := by
  rw [readRecord?, read_document h hgap]
  rfl

/-! ### Line endings -/

theorem documentChar_ne_return (c : Char) : '\r' ∉ documentChar c := by
  rw [documentChar]
  cases hletter : escapeLetter? c with
  | some letter =>
      have hne : letter ≠ '\r' := by
        rintro rfl
        exact absurd (plainEscape?_of_escapeLetter? hletter).1 (by simp [plainEscape?])
      simp [Ne.symm hne]
  | none =>
      -- Control characters are written with digits, so a return stands for none of them.
      have hall : ∀ n < 0x20, '\r' ∉ unitEscape n := by decide
      dsimp only
      split
      · next hsmall => exact hall c.toNat hsmall
      · next hlarge =>
          rw [List.mem_singleton]
          rintro rfl
          exact hlarge (by decide)

theorem enclosed_ne_return (t : Text) : '\r' ∉ enclosed documentChar t := by
  rw [enclosed, List.cons_append, List.mem_cons, List.mem_append, not_or, not_or]
  refine ⟨by decide, ?_, by decide⟩
  rw [List.mem_flatMap]
  rintro ⟨c, -, hc⟩
  exact documentChar_ne_return c hc

theorem lineBreak_ne_return (depth : Nat) : '\r' ∉ lineBreak depth := by
  rw [lineBreak, List.mem_cons, not_or]
  refine ⟨by decide, fun h => ?_⟩
  exact absurd (List.mem_replicate.mp h).2 (by decide)

mutual

/-- A document holds no carriage return, so its line endings are not changed
    when it is read. -/
theorem writeAt_ne_return : ∀ (v : Json) (depth level : Nat), Kept depth v → '\r' ∉ writeAt level v
  | null, _, _, _ => by
      change '\r' ∉ "null".toList
      decide
  | bool true, _, _, _ => by
      change '\r' ∉ "true".toList
      decide
  | bool false, _, _, _ => by
      change '\r' ∉ "false".toList
      decide
  | int _, _, _, h => absurd h (by simp [Kept])
  | decimal _, _, _, h => absurd h (by simp [Kept])
  | text t, _, _, _ => enclosed_ne_return t
  | list [], _, _, _ => by
      change '\r' ∉ "[]".toList
      decide
  | list (_ :: _), 0, _, h => absurd h (by simp [Kept])
  | list (v :: vs), depth + 1, level, h => by
      rw [Kept] at h
      rw [show writeAt level (list (v :: vs)) = '[' :: lineBreak (level + 1)
        ++ writeAt (level + 1) v ++ writeItems (level + 1) vs ++ lineBreak level ++ [']'] from rfl]
      have hv := writeAt_ne_return v depth (level + 1) h.1
      have hvs := writeItems_ne_return vs depth (level + 1) h.2
      simp [hv, hvs, lineBreak_ne_return]
  | record [], _, _, _ => by
      change '\r' ∉ "\x7b\x7d".toList
      decide
  | record (_ :: _), 0, _, h => absurd h (by simp [Kept])
  | record ((key, v) :: fields), depth + 1, level, h => by
      rw [Kept] at h
      rw [show writeAt level (record ((key, v) :: fields)) = '\x7b' :: lineBreak (level + 1)
        ++ enclosed documentChar key ++ ": ".toList ++ writeAt (level + 1) v
        ++ writeFields (level + 1) fields ++ lineBreak level ++ ['\x7d'] from rfl]
      have hv := writeAt_ne_return v depth (level + 1) h.2.1
      have hfields := writeFields_ne_return fields depth (level + 1) h.2.2
      simp [hv, hfields, lineBreak_ne_return, enclosed_ne_return]

theorem writeItems_ne_return : ∀ (vs : List Json) (depth level : Nat), KeptItems depth vs →
    '\r' ∉ writeItems level vs
  | [], _, _, _ => by simp [writeItems]
  | v :: vs, depth, level, h => by
      rw [KeptItems] at h
      have hv := writeAt_ne_return v depth level h.1
      have hvs := writeItems_ne_return vs depth level h.2
      simp [writeItems, hv, hvs, lineBreak_ne_return]

theorem writeFields_ne_return : ∀ (fields : Fields) (depth level : Nat), KeptFields depth fields →
    '\r' ∉ writeFields level fields
  | [], _, _, _ => by simp [writeFields]
  | (key, v) :: fields, depth, level, h => by
      rw [KeptFields] at h
      rw [show writeFields level ((key, v) :: fields) = ',' :: lineBreak level
        ++ enclosed documentChar key ++ ": ".toList ++ writeAt level v
        ++ writeFields level fields from rfl]
      have hv := writeAt_ne_return v depth level h.1
      have hfields := writeFields_ne_return fields depth level h.2
      simp [hv, hfields, lineBreak_ne_return, enclosed_ne_return]

end

end Json

/-- A text without carriage returns has one kind of line ending. -/
theorem Text.unifyEndings_of_no_return {t : Text} (h : '\r' ∉ t) : t.unifyEndings = t := by
  induction t with
  | nil => rfl
  | cons c t ih =>
      have hc : c ≠ '\r' := fun hc => h (by simp [hc])
      have ht := ih fun ht => h (by simp [ht])
      unfold unifyEndings
      split
      · next heq => exact absurd (List.cons.inj heq).1 hc
      · next heq => exact absurd (List.cons.inj heq).1 hc
      · next heq =>
          rcases List.cons.inj heq with ⟨rfl, rfl⟩
          rw [ht]
      · next heq => exact absurd heq (by simp)

end RouteScaffold

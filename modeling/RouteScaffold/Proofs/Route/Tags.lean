import RouteScaffold.Proofs.Edit.Lines
import RouteScaffold.Route.Forest

/-!
# Reading Route Tags

The forest of a text is read in two passes: the text into tags, and the tags
into elements. Both go from left to right and keep nothing back, so what a
stretch of text does to the elements read so far can be said of the stretch
alone: `Takes` says it. Stretches are put together by putting together what
they do.

There are three stretches to begin with: one without tags, which does nothing,
an opening tag, and a closing tag.

## Main definitions

* `Route.Reading.goOn`: Reading on from some elements.
* `Route.Takes`: What a stretch of text does to the elements read so far.
* `Tag.IsOpening`: The text of an opening tag.

## Theorems

* `takes_plain`, `takes_opening`, `takes_closing`: The three stretches.
* `takes_append`: Stretches are put together.
-/

namespace RouteScaffold

namespace Tag

theorem after?_append (l t : Text) : Text.after? l (l ++ t) = some t := by
  induction l with
  | nil => rfl
  | cons c l ih => simpa [Text.after?] using ih

theorem after?_of_ne {c d : Char} (h : c ≠ d) (l t : Text) :
    Text.after? (c :: l) (d :: t) = none := by
  simp [Text.after?, h]

theorem readFrom_covered (offset : Nat) (s t : Text) :
    readFrom offset s.length (s ++ t) = readFrom (offset + s.length) 0 t := by
  induction s generalizing offset with
  | nil => rfl
  | cons c s ih =>
      simp only [List.length_cons, List.cons_append, readFrom]
      rw [ih, Nat.add_right_comm, Nat.add_assoc]

theorem afterHead?_of_ne {c : Char} (h : c ≠ '<') (t : Text) :
    afterHead? openingHead (c :: t) = none ∧ afterHead? closingHead (c :: t) = none := by
  have hopening : Text.after? openingHead (c :: t) = none :=
    after?_of_ne (Ne.symm h) "Route".toList t
  have hclosing : Text.after? closingHead (c :: t) = none :=
    after?_of_ne (Ne.symm h) "/Route".toList t
  exact ⟨by rw [afterHead?, hopening], by rw [afterHead?, hclosing]⟩

/-- A text without tags is passed over. -/
theorem readFrom_plain (offset : Nat) {s : Text} (h : '<' ∉ s) (t : Text) :
    readFrom offset 0 (s ++ t) = readFrom (offset + s.length) 0 t := by
  induction s generalizing offset with
  | nil => rfl
  | cons c s ih =>
      have hc : c ≠ '<' := fun hc => h (by simp [hc])
      rcases afterHead?_of_ne hc (s ++ t) with ⟨h1, h2⟩
      simp only [List.cons_append, readFrom, h1, h2, List.length_cons]
      rw [ih (offset + 1) fun hs => h (by simp [hs]), Nat.add_right_comm, Nat.add_assoc]

/-! ### Opening tags -/

/-- The text of an opening tag: its name ends, and it ends, within it. -/
structure IsOpening (t : Text) : Prop where
  parts : ∃ c u, t = openingHead ++ c :: u ∧ isWord c = false
    ∧ ∀ r, restLength? none 0 (c :: (u ++ r)) = some (u.length + 1)

/-- The tag with a text, at an offset. -/
def openingOf (offset : Nat) (t : Text) : OpeningTag :=
  ⟨⟨offset, offset + t.length⟩, pathFrom? none t, isSelfClosing t⟩

theorem readFrom_opening (offset : Nat) {t : Text} (h : IsOpening t) (r : Text) :
    readFrom offset 0 (t ++ r) = (.opening (openingOf offset t)
      :: (readFrom (offset + t.length) 0 r).1, (readFrom (offset + t.length) 0 r).2) := by
  rcases h.parts with ⟨c, u, rfl, hc, hrest⟩
  have hhead : afterHead? openingHead (openingHead ++ c :: u ++ r) = some (c :: (u ++ r)) := by
    rw [afterHead?, List.append_assoc, after?_append]
    simp [hc]
  have hsize : openingHead.length + (u.length + 1) = (openingHead ++ c :: u).length := by
    simp
  have hcons : openingHead ++ c :: u ++ r = '<' :: ("Route".toList ++ c :: u ++ r) := rfl
  rw [hcons] at hhead ⊢
  rw [readFrom]
  simp only [hhead, hrest r]
  have htake : ('<' :: ("Route".toList ++ c :: u ++ r)).take (openingHead.length + (u.length + 1))
      = openingHead ++ c :: u := by
    rw [← hcons, hsize, List.take_left]
  have hcover : openingHead.length + (u.length + 1) - 1 = ("Route".toList ++ c :: u).length := by
    rw [List.length_append, List.length_cons]
    change 6 + (u.length + 1) - 1 = 5 + (u.length + 1)
    omega
  rw [htake, hcover, readFrom_covered, hsize]
  have hoffset : offset + 1 + ("Route".toList ++ c :: u).length
      = offset + (openingHead ++ c :: u).length := by
    rw [List.length_append, List.length_append, List.length_cons]
    change offset + 1 + (5 + (u.length + 1)) = offset + (6 + (u.length + 1))
    omega
  rw [hoffset]
  rfl

/-- How the rest of an opening tag is measured over a stretch of it: plain
    characters count, and so does a quoted value with its quotes. -/
theorem restLength?_plain {s : Text} (h : ∀ c ∈ s, Pattern.isQuote c = false ∧ c ≠ '\x7b'
    ∧ c ≠ '\x7d') {depth : Int} (hend : '>' ∉ s ∨ depth ≠ 0) (t : Text) :
    restLength? none depth (s ++ t) = (restLength? none depth t).map (· + s.length) := by
  induction s with
  | nil => simp
  | cons c s ih =>
      rcases h c (by simp) with ⟨hq, ho, hc⟩
      -- The character does not end the tag, whatever the depth.
      have hstop : (decide (c = '>') && decide (depth = 0)) = false := by
        rcases hend with hend | hend
        · have : c ≠ '>' := fun hc => hend (by simp [hc])
          simp [this]
        · simp [hend]
      rw [List.cons_append, restLength?]
      simp only [hq, ho, hc, Bool.false_eq_true, if_false]
      rw [ih (fun d hd => h d (by simp [hd])) (hend.imp (fun h hs => h (by simp [hs])) id)]
      simp only [Bool.and_eq_false_iff, decide_eq_false_iff_not] at hstop
      rw [if_neg (by
        rw [Bool.and_eq_true, decide_eq_true_eq, decide_eq_true_eq]
        rintro ⟨h1, h2⟩
        exact hstop.elim (fun h => h h1) fun h => h h2)]
      cases restLength? none depth t with
      | none => rfl
      | some n => simp [Nat.add_assoc]

theorem restLength?_quoted {q : Char} (hq : Pattern.isQuote q = true) {s : Text} (hs : q ∉ s)
    (depth : Int) (t : Text) :
    restLength? none depth (q :: (s ++ q :: t))
      = (restLength? none depth t).map (· + (s.length + 2)) := by
  -- Inside the quotes nothing counts but the quote.
  have hinner : ∀ s : Text, q ∉ s → restLength? (some q) depth (s ++ q :: t)
      = (restLength? none depth t).map (· + (s.length + 1)) := by
    intro s hs
    induction s with
    | nil => simp [restLength?]
    | cons c s ih =>
        have hc : c ≠ q := fun hc => hs (by simp [hc])
        rw [List.cons_append, restLength?, if_neg hc, ih fun h => hs (by simp [h])]
        cases restLength? none depth t with
        | none => rfl
        | some n => simp [Nat.add_assoc]
  rw [restLength?, if_pos hq, hinner s hs]
  cases restLength? none depth t with
  | none => rfl
  | some n => simp [Nat.add_assoc]

/-- An expression in braces counts as a whole. -/
theorem restLength?_braced {s : Text} (h : ∀ c ∈ s, Pattern.isQuote c = false ∧ c ≠ '\x7b'
    ∧ c ≠ '\x7d') (t : Text) :
    restLength? none 0 ('\x7b' :: (s ++ '\x7d' :: t))
      = (restLength? none 0 t).map (· + (s.length + 2)) := by
  have hopen : Pattern.isQuote '\x7b' = false := by decide
  have hclose : Pattern.isQuote '\x7d' = false := by decide
  have hne : ('\x7d' : Char) ≠ '\x7b' := by decide
  rw [restLength?]
  simp only [hopen, Bool.false_eq_true, if_false, if_true]
  rw [restLength?_plain h (Or.inr (by decide)), restLength?]
  simp only [hclose, hne, Bool.false_eq_true, if_false, if_true]
  rw [show (0 + 1 - 1 : Int) = 0 from rfl]
  cases restLength? none 0 t with
  | none => simp
  | some n => simp [Nat.add_assoc, Nat.add_comm 1]

/-! ### What a tag says -/

theorem pathHere?_of_ne {c : Char} (h : c ≠ 'p') (b : Option Char) (t : Text) :
    pathHere? ⟨b, c :: t⟩ = none := by
  have hlit : (⟨b, c :: t⟩ : Cursor).literal? "path".toList = none := by
    rw [Cursor.literal?_eq_none]
    rintro ⟨r, hr⟩
    exact h (List.cons.inj hr).1.symm
  unfold pathHere?
  rw [hlit]
  cases (⟨b, c :: t⟩ : Cursor).atWordBoundary <;> rfl

theorem pathFrom?_plain {s : Text} (h : 'p' ∉ s) (b : Option Char) (t : Text) :
    pathFrom? b (s ++ t) = pathFrom? (Cursor.passed b s) t := by
  induction s generalizing b with
  | nil => rfl
  | cons c s ih =>
      have hc : c ≠ 'p' := fun hc => h (by simp [hc])
      rw [List.cons_append, pathFrom?, pathHere?_of_ne hc, ih (fun hs => h (by simp [hs]))]
      rfl

/-- The path of a tag that begins with its path attribute. -/
theorem pathFrom?_route {value : Text} (h : '"' ∉ value) (t : Text) :
    pathFrom? none ("<Route path=\"".toList ++ (value ++ '"' :: t)) = some value := by
  have hsplit : "<Route path=\"".toList ++ (value ++ '"' :: t)
      = "<Route ".toList ++ ('p' :: ("ath=\"".toList ++ (value ++ '"' :: t))) := rfl
  have hlit : (⟨some ' ', 'p' :: ("ath=\"".toList ++ (value ++ '"' :: t))⟩ : Cursor).literal?
      "path".toList = some ⟨some 'h', '=' :: '"' :: (value ++ '"' :: t)⟩ :=
    Cursor.literal?_append "path".toList (some ' ') ('=' :: '"' :: (value ++ '"' :: t))
  have heq : (⟨some 'h', '=' :: '"' :: (value ++ '"' :: t)⟩ : Cursor).skipAll isBlank
      = ⟨some 'h', '=' :: '"' :: (value ++ '"' :: t)⟩ := rfl
  have hquote : (⟨some '=', '"' :: (value ++ '"' :: t)⟩ : Cursor).skipAll isBlank
      = ⟨some '=', '"' :: (value ++ '"' :: t)⟩ := rfl
  have htake : (value ++ '"' :: t).takeWhile (· ≠ '"') = value := by
    rw [List.takeWhile_append_of_pos]
    · simp
    · intro c hc
      rw [decide_eq_true_eq]
      rintro rfl
      exact h hc
  -- The search stops at the attribute, behind the blank, as nothing in front of it is one.
  have hhere : pathHere? ⟨some ' ', 'p' :: ("ath=\"".toList ++ (value ++ '"' :: t))⟩ = some value := by
    have hmem : '"' ∈ value ++ '"' :: t := by simp
    have hboundary : (⟨some ' ', 'p' :: ("ath=\"".toList ++ (value ++ '"' :: t))⟩ :
        Cursor).atWordBoundary = true := rfl
    unfold pathHere?
    simp only [hboundary, guard, if_true, bind, pure, Option.bind_some]
    rw [hlit]
    simp only [Option.bind_some]
    rw [heq]
    simp only [Cursor.literal?, if_true, Option.bind_some]
    rw [hquote]
    simp only [Cursor.literal?, if_true, Option.bind_some, hmem, htake]
  rw [hsplit, pathFrom?_plain (by decide)]
  rw [show Cursor.passed none "<Route ".toList = some ' ' from rfl, pathFrom?, hhere]

/-- Whether a tag is an element of its own is said in front of its end. -/
theorem isSelfClosing_eq (s : Text) {c : Char} (hc : c ≠ '>') (hblank : isBlank c = false) :
    isSelfClosing (s ++ [c, '>']) = decide (c = '/') := by
  have htrim : ∀ (p : Char → Bool) (s : Text) (c : Char), p c = false →
      Text.trimEnd p (s ++ [c]) = s ++ [c] := by
    intro p s c hp
    rw [Text.trimEnd, List.reverse_append]
    simp [List.dropWhile_cons_of_neg, hp]
  have hend : Text.trimEnd (· = '>') (s ++ [c, '>']) = s ++ [c] := by
    have := htrim (· = '>') s c (by simpa using hc)
    rw [Text.trimEnd, List.reverse_append] at *
    simpa using this
  rw [isSelfClosing, hend, htrim isBlank s c hblank, List.getLast?_concat]
  simp

/-- The closing tag of a route element. -/
def closingTag : Text := "</Route>"

theorem readFrom_closing (offset : Nat) (r : Text) :
    readFrom offset 0 (closingTag ++ r) = (.closing ⟨offset, offset + closingTag.length⟩
      :: (readFrom (offset + closingTag.length) 0 r).1, (readFrom (offset + closingTag.length) 0 r).2) := by
  have hopen : afterHead? openingHead ('<' :: ("/Route>".toList ++ r)) = none := rfl
  have hclose : afterHead? closingHead ('<' :: ("/Route>".toList ++ r)) = some ('>' :: r) := rfl
  have hmem : '>' ∈ '>' :: r := by simp
  have htake : ('>' :: r).takeWhile (· ≠ '>') = [] := by simp
  rw [show closingTag ++ r = '<' :: ("/Route>".toList ++ r) from rfl, readFrom]
  simp only [hopen, hclose, hmem, if_true, htake]
  have hcover : closingHead.length + List.length ([] : Text) + 1 - 1 = "/Route>".toList.length := rfl
  rw [hcover, readFrom_covered, show offset + 1 + "/Route>".toList.length = offset + closingTag.length by
    rw [show closingTag.length = "/Route>".toList.length + 1 from rfl]
    omega]
  rfl

end Tag

namespace Route

/-- The elements at the end of a text, read on from some elements. -/
def Reading.goOn (r : Reading) (offset : Nat) (t : Text) : Except TagFault Reading := do
  let reading ← (Tag.readFrom offset 0 t).1.foldlM Reading.step r
  match (Tag.readFrom offset 0 t).2 with
  | some f => .error f
  | none => .ok reading

theorem scan_eq (t : Text) :
    scan t = (Reading.goOn ⟨[], []⟩ 0 t).bind Reading.finish := by
  unfold scan Reading.goOn Tag.read
  rcases Tag.readFrom 0 0 t with ⟨tags, fault⟩
  dsimp only
  cases List.foldlM Reading.step ⟨[], []⟩ tags with
  | error f => rfl
  | ok reading => cases fault <;> rfl

/-- What a stretch of text at an offset does to the elements read so far. -/
def Takes (s : Text) (offset : Nat) (r r' : Reading) : Prop :=
  ∀ t, r.goOn offset (s ++ t) = r'.goOn (offset + s.length) t

theorem Takes.append {s t : Text} {offset : Nat} {r r' r'' : Reading} (hs : Takes s offset r r')
    (ht : Takes t (offset + s.length) r' r'') : Takes (s ++ t) offset r r'' := by
  intro u
  rw [List.append_assoc, hs, ht, List.length_append, Nat.add_assoc]

theorem takes_plain {s : Text} (h : '<' ∉ s) (offset : Nat) (r : Reading) :
    Takes s offset r r := by
  intro t
  rw [Reading.goOn, Tag.readFrom_plain offset h]
  rfl

/-- A self-closing tag is an element. -/
theorem takes_selfClosing {s : Text} (h : Tag.IsOpening s) (hself : Tag.isSelfClosing s = true)
    (offset : Nat) (r : Reading) :
    Takes s offset r
      (r.add ⟨⟨offset, offset + s.length⟩, Tag.pathFrom? none s, true, []⟩) := by
  intro t
  rw [Reading.goOn, Tag.readFrom_opening offset h]
  simp only [List.foldlM_cons, Reading.step, Tag.openingOf, hself, if_true, bind, Except.bind]
  rfl

/-- Any other opening tag opens an element. -/
theorem takes_opening {s : Text} (h : Tag.IsOpening s) (hself : Tag.isSelfClosing s = false)
    (offset : Nat) (r : Reading) :
    Takes s offset r { r with stack := ⟨Tag.openingOf offset s, []⟩ :: r.stack } := by
  intro t
  rw [Reading.goOn, Tag.readFrom_opening offset h]
  simp only [List.foldlM_cons, Reading.step, Tag.openingOf, hself, Bool.false_eq_true, if_false,
    bind, Except.bind]
  rfl

/-- A closing tag closes the innermost element. -/
theorem takes_closing (offset : Nat) (o : Open) (stack : List Open) (roots : List Route) :
    Takes Tag.closingTag offset ⟨o :: stack, roots⟩
      (Reading.add ⟨stack, roots⟩ (o.close (offset + Tag.closingTag.length))) := by
  intro t
  rw [Reading.goOn, Tag.readFrom_closing]
  simp only [List.foldlM_cons, Reading.step, bind, Except.bind]
  rfl

/-- The forest of a text that has been taken in whole. -/
theorem scan_of_takes {t : Text} {roots : List Route} (h : Takes t 0 ⟨[], []⟩ ⟨[], roots⟩) :
    scan t = .ok roots.reverse := by
  have := h []
  rw [List.append_nil] at this
  rw [scan_eq, this]
  rfl

end Route

end RouteScaffold

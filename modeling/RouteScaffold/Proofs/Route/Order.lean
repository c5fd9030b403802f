import RouteScaffold.Proofs.Route.Tags
import RouteScaffold.Proofs.Text.Names

/-!
# Tags in Order

Tags are read from left to right, so they stand one behind the other.

A text can be read in two parts if the cut between them goes through no tag. What
a tag looks like is decided by its own characters, save for one thing: the name
of a tag must not go on. So either the part behind the cut does not begin with a
character of a word, nor with the slash of a closing tag, or the part before it
does not end with anything that the head of a tag consists of.

## Main definitions

* `Tag.standing`: What stands at a place of a text.
* `Tag.InOrder`: Tags one behind the other.
* `Tag.Begins`: A text that does not go on with a tag from before it.
* `Tag.Ends`: A text that does not go on into a tag.
* `Tag.Parts`: Two texts with a cut through no head of a tag.

## Theorems

* `inOrder_readFrom`: The tags of a text are in order.
* `readFrom_append`: A text is read in two parts.
* `whole_of_outside`: A part that ends in no tag can be read by itself.
* `readFrom_move`: Reading does not depend on the place of a text.
-/

namespace RouteScaffold

/-- A span further on. -/
def Span.move (k : Nat) (s : Span) : Span := ⟨s.start + k, s.stop + k⟩

namespace Tag

variable {t : Text}

/-- Where a tag is. -/
def span : Tag → Span
  | opening tag => tag.span
  | closing span => span

/-! ### Places -/

/-- What stands at a place of a text: a tag, or the beginning of one that has no
    end, or neither. -/
inductive Standing where
  | plain
  | opening (size : Nat) (path : Option Text) (selfClosing : Bool)
  | closing (size : Nat)
  | unended
  | unbalanced
  deriving DecidableEq, Repr

/-- What stands at the start of a text. -/
def standing (t : Text) : Standing :=
  match afterHead? openingHead t with
  | some rest =>
    match restLength? none 0 rest with
    | none => .unended
    | some n =>
      .opening (openingHead.length + n) (pathFrom? none (t.take (openingHead.length + n)))
        (isSelfClosing (t.take (openingHead.length + n)))
  | none =>
    match afterHead? closingHead t with
    | some rest =>
      if '>' ∈ rest then .closing (closingHead.length + (rest.takeWhile (· ≠ '>')).length + 1)
      else .unbalanced
    | none => .plain

/-- How many characters of a text belong to what stands at its start. -/
def Standing.size? : Standing → Option Nat
  | plain => some 1
  | opening size _ _ | closing size => some size
  | unended | unbalanced => none

/-- The tags that stand at a place. -/
def Standing.tags (offset : Nat) : Standing → List Tag
  | plain | unended | unbalanced => []
  | opening size path selfClosing => [.opening ⟨⟨offset, offset + size⟩, path, selfClosing⟩]
  | closing size => [.closing ⟨offset, offset + size⟩]

theorem readFrom_nil (offset covered : Nat) : readFrom offset covered [] = ([], none) := by
  cases covered <;> rfl

theorem readFrom_cons_covered (offset covered : Nat) (c : Char) (t : Text) :
    readFrom offset (covered + 1) (c :: t) = readFrom (offset + 1) covered t := rfl

/-- Reading goes on behind what stands here. -/
theorem readFrom_of_size {c : Char} {t : Text} {size : Nat}
    (h : (standing (c :: t)).size? = some size) (offset : Nat) : readFrom offset 0 (c :: t)
      = ((standing (c :: t)).tags offset ++ (readFrom (offset + 1) (size - 1) t).1,
          (readFrom (offset + 1) (size - 1) t).2) := by
  rw [standing] at h ⊢
  rw [readFrom]
  -- Reading asks for an opening tag first, and then for a closing one.
  cases hopening : afterHead? openingHead (c :: t) with
  | some rest =>
      rw [hopening] at h
      dsimp only at h ⊢
      cases hrest : restLength? none 0 rest with
      | none =>
          rw [hrest] at h
          exact absurd h (by simp [Standing.size?])
      | some n =>
          rw [hrest] at h
          rw [← Option.some.inj h]
          rfl
  | none =>
      rw [hopening] at h
      dsimp only at h ⊢
      cases hclosing : afterHead? closingHead (c :: t) with
      | some rest =>
          rw [hclosing] at h
          dsimp only at h ⊢
          by_cases hend : '>' ∈ rest
          · rw [if_pos hend] at h
            rw [if_pos hend, if_pos hend, ← Option.some.inj h]
            rfl
          · rw [if_neg hend] at h
            exact absurd h (by simp [Standing.size?])
      | none =>
          rw [hclosing] at h
          rw [← Option.some.inj h]
          rfl

/-- Reading ends at a tag that has no end. -/
theorem readFrom_of_no_size {c : Char} {t : Text} (h : (standing (c :: t)).size? = none)
    (offset : Nat) : ∃ f, readFrom offset 0 (c :: t) = ([], some f) := by
  rw [standing] at h
  rw [readFrom]
  -- An opening tag without an end is a fault.
  cases hopening : afterHead? openingHead (c :: t) with
  | some rest =>
      rw [hopening] at h
      dsimp only at h ⊢
      cases hrest : restLength? none 0 rest with
      | none => exact ⟨_, rfl⟩
      | some n =>
          rw [hrest] at h
          exact absurd h (by simp [Standing.size?])
  | none =>
      rw [hopening] at h
      dsimp only at h ⊢
      -- So is a closing one; anything else is passed.
      cases hclosing : afterHead? closingHead (c :: t) with
      | some rest =>
          rw [hclosing] at h
          dsimp only at h ⊢
          by_cases hend : '>' ∈ rest
          · rw [if_pos hend] at h
            exact absurd h (by simp [Standing.size?])
          · rw [if_neg hend]
            exact ⟨_, rfl⟩
      | none =>
          rw [hclosing] at h
          exact absurd h (by simp [Standing.size?])

/-! ### Sizes -/

theorem afterHead?_eq_some {head t rest : Text} :
    afterHead? head t = some rest ↔ t = head ++ rest ∧ rest.head?.any isWord = false := by
  constructor
  · intro h
    rw [afterHead?] at h
    split at h
    · next r hafter =>
        split at h
        · exact absurd h (by simp)
        · next hword =>
            rw [← Option.some.inj h]
            exact ⟨Naming.eq_of_after? hafter, Bool.eq_false_iff.mpr hword⟩
    · exact absurd h (by simp)
  · rintro ⟨rfl, hword⟩
    rw [afterHead?, after?_append]
    dsimp only
    rw [hword]
    rfl

/-- A character of an opening tag is its bracket at the end, or the tag goes on with what
    follows, whatever that is. -/
theorem restLength?_cons (q : Option Char) (depth : Int) (c : Char) :
    (c = '>' ∧ ∀ t, restLength? q depth (c :: t) = some 1)
      ∨ ∃ q' depth', ∀ t, restLength? q depth (c :: t) = (restLength? q' depth' t).map (· + 1) := by
  cases q with
  | some quote => exact Or.inr ⟨_, _, fun t => rfl⟩
  -- Quotes and braces count; the tag ends at an angle bracket outside them.
  | none =>
      by_cases hquote : Pattern.isQuote c
      · exact Or.inr ⟨_, _, fun t => by rw [restLength?, if_pos hquote]⟩
      by_cases hopening : c = '\x7b'
      · exact Or.inr ⟨_, _, fun t => by rw [restLength?, if_neg hquote, if_pos hopening]⟩
      by_cases hclosing : c = '\x7d'
      · exact Or.inr ⟨_, _, fun t => by rw [restLength?, if_neg hquote, if_neg hopening, if_pos hclosing]⟩
      by_cases hend : c = '>' && depth = 0
      · rw [Bool.and_eq_true, decide_eq_true_eq] at hend
        exact Or.inl ⟨hend.1, fun t => by
          rw [restLength?, if_neg hquote, if_neg hopening, if_neg hclosing, if_pos (by simpa using hend)]⟩
      · exact Or.inr ⟨_, _, fun t => by
          rw [restLength?, if_neg hquote, if_neg hopening, if_neg hclosing, if_neg hend]⟩

theorem restLength?_bounds {q : Option Char} {depth : Int} {t : Text} {n : Nat}
    (h : restLength? q depth t = some n) : 0 < n ∧ n ≤ t.length := by
  induction t generalizing q depth n with
  | nil => exact absurd h (by cases q <;> simp [restLength?])
  | cons c t ih =>
      rw [List.length_cons]
      rcases restLength?_cons q depth c with ⟨-, hlast⟩ | ⟨q', depth', hmore⟩
      · rw [hlast] at h
        have := Option.some.inj h
        omega
      · rw [hmore] at h
        rcases Option.map_eq_some_iff.mp h with ⟨m, hm, rfl⟩
        have := ih hm
        omega

theorem length_takeWhile_lt {p : Char → Bool} {c : Char} {t : Text} (h : c ∈ t) (hc : p c = false) :
    (t.takeWhile p).length < t.length := by
  have hsplit := congrArg List.length (@List.takeWhile_append_dropWhile _ p t)
  rw [List.length_append] at hsplit
  have hne : t.dropWhile p ≠ [] := by
    intro hnil
    rw [List.dropWhile_eq_nil_iff] at hnil
    rw [hnil c h] at hc
    exact absurd hc (by simp)
  have := List.length_pos_of_ne_nil hne
  omega

/-- What stands at a place lies in the text, and is not empty. -/
theorem standing_bounds {c : Char} {t : Text} {size : Nat}
    (h : (standing (c :: t)).size? = some size) : 0 < size ∧ size ≤ (c :: t).length := by
  rw [standing] at h
  split at h
  -- An opening tag, a closing tag, or a character.
  · next rest hopening =>
      split at h
      · exact absurd h (by simp [Standing.size?])
      · next n hrest =>
          have hn := restLength?_bounds hrest
          have htext := congrArg List.length (afterHead?_eq_some.mp hopening).1
          rw [List.length_append] at htext
          rw [← Option.some.inj h]
          omega
  · split at h
    · next rest hclosing =>
        split at h
        · next hend =>
            have hlt := @length_takeWhile_lt (· ≠ '>') _ _ hend (by simp)
            have htext := congrArg List.length (afterHead?_eq_some.mp hclosing).1
            rw [List.length_append] at htext
            rw [← Option.some.inj h]
            omega
        · exact absurd h (by simp [Standing.size?])
    · rw [← Option.some.inj h, List.length_cons]
      omega

theorem mem_tags {x : Standing} {offset : Nat} {tag : Tag} (h : tag ∈ x.tags offset) :
    ∃ size, x.size? = some size ∧ tag.span = ⟨offset, offset + size⟩ := by
  cases x with
  | plain | unended | unbalanced => exact absurd h (by simp [Standing.tags])
  | opening size path selfClosing =>
      rw [List.mem_singleton.mp h]
      exact ⟨size, rfl, rfl⟩
  | closing size =>
      rw [List.mem_singleton.mp h]
      exact ⟨size, rfl, rfl⟩

/-- The tags of a text, one behind the other. -/
inductive InOrder : (lo hi : Nat) → List Tag → Prop where
  | nil {lo hi : Nat} (le : lo ≤ hi) : InOrder lo hi []
  | cons {lo hi : Nat} {tag : Tag} {tags : List Tag} (start : lo ≤ tag.span.start)
      (proper : tag.span.start < tag.span.stop) (rest : InOrder tag.span.stop hi tags) :
      InOrder lo hi (tag :: tags)

theorem InOrder.of_le {lo lo' hi : Nat} {tags : List Tag} (h : InOrder lo hi tags) (hlo : lo' ≤ lo) :
    InOrder lo' hi tags := by
  cases h with
  | nil le => exact .nil (hlo.trans le)
  | cons start proper rest => exact .cons (hlo.trans start) proper rest

theorem InOrder.le {lo hi : Nat} {tags : List Tag} (h : InOrder lo hi tags) : lo ≤ hi := by
  induction h with
  | nil le => exact le
  | cons start proper rest ih => omega

theorem InOrder.mem {lo hi : Nat} {tags : List Tag} (h : InOrder lo hi tags) {tag : Tag}
    (hmem : tag ∈ tags) : lo ≤ tag.span.start ∧ tag.span.start < tag.span.stop ∧ tag.span.stop ≤ hi := by
  induction h with
  | nil le => exact absurd hmem (by simp)
  | cons start proper rest ih =>
      rcases List.mem_cons.mp hmem with rfl | hmem
      · exact ⟨start, proper, rest.le⟩
      · have := ih hmem
        omega

theorem inOrder_readFrom (offset covered : Nat) (t : Text) (h : covered ≤ t.length) :
    InOrder (offset + covered) (offset + t.length) (readFrom offset covered t).1 := by
  induction t generalizing offset covered with
  | nil =>
      rw [readFrom_nil]
      exact .nil (by omega)
  | cons c t ih =>
      rw [List.length_cons] at h ⊢
      cases covered with
      | succ covered =>
          rw [readFrom_cons_covered]
          have := ih (offset + 1) covered (by omega)
          rwa [show offset + (covered + 1) = offset + 1 + covered by omega,
            show offset + (t.length + 1) = offset + 1 + t.length by omega]
      | zero =>
          cases hsize : (standing (c :: t)).size? with
          | none =>
              rcases readFrom_of_no_size hsize offset with ⟨f, hf⟩
              rw [hf]
              exact .nil (by omega)
          | some size =>
              have hbounds := standing_bounds hsize
              rw [List.length_cons] at hbounds
              have hrest := ih (offset + 1) (size - 1) (by omega)
              rw [show offset + 1 + (size - 1) = offset + size by omega,
                show offset + 1 + t.length = offset + (t.length + 1) by omega] at hrest
              rw [readFrom_of_size hsize]
              dsimp only
              -- A tag comes before the tags behind it, and anything else adds none.
              cases hx : standing (c :: t) with
              | plain | unended | unbalanced => exact hrest.of_le (by omega)
              | opening n path selfClosing =>
                  rw [hx] at hsize
                  rw [Option.some.inj hsize]
                  exact .cons (Nat.le_refl _) (by change offset < offset + size; omega) hrest
              | closing n =>
                  rw [hx] at hsize
                  rw [Option.some.inj hsize]
                  exact .cons (Nat.le_refl _) (by change offset < offset + size; omega) hrest

/-! ### Places further on -/

/-- A tag further on. -/
def move (k : Nat) : Tag → Tag
  | opening tag => .opening { tag with span := tag.span.move k }
  | closing span => .closing (span.move k)

theorem tags_move (x : Standing) (offset k : Nat) :
    x.tags (offset + k) = (x.tags offset).map (move k) := by
  cases x <;> simp [Standing.tags, move, Span.move, Nat.add_right_comm]

/-- The tags of a text do not depend on where it is. -/
theorem readFrom_move (offset covered k : Nat) (t : Text) :
    (readFrom (offset + k) covered t).1 = (readFrom offset covered t).1.map (move k)
      ∧ ((readFrom (offset + k) covered t).2 = none ↔ (readFrom offset covered t).2 = none) := by
  induction t generalizing offset covered with
  | nil => simp [readFrom_nil]
  | cons c t ih =>
      cases covered with
      | succ covered =>
          rw [readFrom_cons_covered, readFrom_cons_covered, Nat.add_right_comm]
          exact ih (offset + 1) covered
      | zero =>
          -- What the text begins with does not depend on where it stands.
          cases hsize : (standing (c :: t)).size? with
          | none =>
              rcases readFrom_of_no_size hsize offset with ⟨f, hf⟩
              rcases readFrom_of_no_size hsize (offset + k) with ⟨f', hf'⟩
              rw [hf, hf']
              exact ⟨rfl, by simp⟩
          | some size =>
              rcases ih (offset + 1) (size - 1) with ⟨htags, hfault⟩
              rw [readFrom_of_size hsize, readFrom_of_size hsize, Nat.add_right_comm]
              dsimp only
              rw [htags, tags_move, List.map_append]
              exact ⟨rfl, hfault⟩

/-! ### Two parts -/

/-- A text that does not go on with a tag from before it: neither with its name,
    nor with the slash in front of its name. -/
def Begins (t : Text) : Prop := ∀ c ∈ t.head?, isWord c = false ∧ c ≠ '/'

/-- A text that does not go on into a tag: its last character is none of those
    that the head of a tag consists of. -/
def Ends (t : Text) : Prop := ∀ c ∈ t.getLast?, isWord c = false ∧ c ≠ '/' ∧ c ≠ '<'

/-- Two texts with a cut between them that goes through no head of a tag. -/
def Parts (p s : Text) : Prop := Begins s ∨ Ends p

theorem Begins.head (h : Begins t) : t.head?.any isWord = false := by
  cases t with
  | nil => rfl
  | cons c t => exact (h c rfl).1

theorem Ends.tail {c : Char} (h : Ends (c :: t)) : Ends t := by
  cases t with
  | nil => exact fun d hd => absurd hd (by simp)
  | cons d t => exact h

theorem Parts.tail {c : Char} {p s : Text} (h : Parts (c :: p) s) : Parts p s := h.imp id Ends.tail

/-- A text does not end within a head of a tag that it goes on into. -/
theorem Ends.not_head {p : Text} {l : Text} (h : Ends p) (hp : p ≠ []) (hl : ∀ d ∈ l, isWord d = true ∨ d = '/')
    (hpart : p <+: '<' :: l) : False := by
  rcases List.eq_nil_or_concat p with rfl | ⟨q, d, rfl⟩
  · exact hp rfl
  · rcases h d (by simp) with ⟨hword, hslash, hopen⟩
    rcases List.mem_cons.mp (hpart.subset (by simp : d ∈ q.concat d)) with hd | hd
    · exact hopen hd
    · rcases hl d hd with hd | hd
      · rw [hword] at hd
        exact absurd hd (by simp)
      · exact hslash hd

/-- A head of a tag that a text begins with is in its first part. -/
theorem prefix_of_parts {p s r : Text} {l : Text} (hp : p ≠ []) (hs : Parts p s)
    (hl : ∀ d ∈ l, isWord d = true ∨ d = '/') (h : p ++ s = '<' :: l ++ r) :
    ∃ p', p = '<' :: l ++ p' ∧ r = p' ++ s := by
  rcases List.append_eq_append_iff.mp h with ⟨l', hl', hs'⟩ | ⟨p', hp', hr⟩
  · rcases hs with hs | hs
    · cases l' with
      | nil =>
          rw [List.append_nil] at hl'
          exact ⟨[], by rw [List.append_nil, hl'], by rw [List.nil_append, hs', List.nil_append]⟩
      | cons d l' =>
          -- The head would go on into the second part, which does not go on with a tag.
          exfalso
          have hd := hs d (by rw [hs']; rfl)
          cases p with
          | nil => exact hp rfl
          | cons e p =>
              have hmem : d ∈ l := by
                rw [(List.cons.inj hl').2]
                simp
              rcases hl d hmem with hword | hslash
              · rw [hd.1] at hword
                exact absurd hword (by simp)
              · exact hd.2 hslash
    · exact (hs.not_head hp hl (hl' ▸ List.prefix_append p l')).elim
  · exact ⟨p', hp', hr⟩

theorem heads_begin : (∃ l, openingHead = '<' :: l ∧ ∀ d ∈ l, isWord d = true ∨ d = '/')
    ∧ ∃ l, closingHead = '<' :: l ∧ ∀ d ∈ l, isWord d = true ∨ d = '/' :=
  ⟨⟨"Route".toList, rfl, by decide⟩, "/Route".toList, rfl, by decide⟩

theorem afterHead?_append {head p s : Text} (hp : p ≠ []) (hs : Parts p s)
    (hhead : ∃ l, head = '<' :: l ∧ ∀ d ∈ l, isWord d = true ∨ d = '/') :
    afterHead? head (p ++ s) = (afterHead? head p).map (· ++ s) := by
  rcases hhead with ⟨l, rfl, hl⟩
  -- A head is seen in the whole text if and only if it is seen in its first part.
  cases hwhole : afterHead? ('<' :: l) (p ++ s) with
  | some rest =>
      rcases afterHead?_eq_some.mp hwhole with ⟨htext, hword⟩
      rcases prefix_of_parts hp hs hl htext with ⟨p', hp', rfl⟩
      have hpart : afterHead? ('<' :: l) p = some p' := by
        refine afterHead?_eq_some.mpr ⟨hp', ?_⟩
        cases p' with
        | nil => rfl
        | cons d p' => exact hword
      rw [hpart]
      rfl
  | none =>
      cases hpart : afterHead? ('<' :: l) p with
      | none => rfl
      | some p' =>
          rcases afterHead?_eq_some.mp hpart with ⟨htext, hword⟩
          have hsome : afterHead? ('<' :: l) (p ++ s) = some (p' ++ s) := by
            refine afterHead?_eq_some.mpr ⟨by rw [htext, List.append_assoc], ?_⟩
            cases p' with
            | nil =>
                -- The head is all of the first part, so its name could go on behind the cut.
                rcases hs with hs | hs
                · exact hs.head
                · rw [List.append_nil] at htext
                  exact (hs.not_head hp hl (htext ▸ List.prefix_rfl)).elim
            | cons d p' => exact hword
          rw [hsome] at hwhole
          exact absurd hwhole (by simp)

/-- What a tag still has is decided by its own characters. -/
theorem restLength?_append {q : Option Char} {depth : Int} {p : Text} {n : Nat}
    (h : restLength? q depth p = some n) (s : Text) : restLength? q depth (p ++ s) = some n := by
  induction p generalizing q depth n with
  | nil => exact absurd h (by cases q <;> simp [restLength?])
  | cons c p ih =>
      rw [List.cons_append]
      rcases restLength?_cons q depth c with ⟨-, hlast⟩ | ⟨q', depth', hmore⟩
      · rw [hlast] at h ⊢
        exact h
      · rw [hmore] at h ⊢
        rcases Option.map_eq_some_iff.mp h with ⟨m, hm, rfl⟩
        rw [ih hm]
        rfl

theorem restLength?_of_append {q : Option Char} {depth : Int} {p s : Text} {n : Nat}
    (h : restLength? q depth (p ++ s) = some n) (hn : n ≤ p.length) :
    restLength? q depth p = some n := by
  induction p generalizing q depth n with
  | nil =>
      -- The tag would have no character at all.
      have := (restLength?_bounds h).1
      rw [List.length_nil] at hn
      omega
  | cons c p ih =>
      rw [List.length_cons] at hn
      rw [List.cons_append] at h
      rcases restLength?_cons q depth c with ⟨-, hlast⟩ | ⟨q', depth', hmore⟩
      · rw [hlast] at h ⊢
        exact h
      · rw [hmore] at h ⊢
        rcases Option.map_eq_some_iff.mp h with ⟨m, hm, rfl⟩
        rw [ih hm (by omega)]
        rfl

/-- What stands at a place and has an end looks the same whatever follows. -/
theorem standing_append {p s : Text} {size : Nat} (hp : p ≠ []) (hs : Parts p s)
    (h : (standing p).size? = some size) : standing (p ++ s) = standing p := by
  rw [standing] at h
  rw [standing, standing, afterHead?_append hp hs heads_begin.1, afterHead?_append hp hs heads_begin.2]
  cases hopening : afterHead? openingHead p with
  | some rest =>
      rw [hopening] at h
      dsimp only at h
      cases hrest : restLength? none 0 rest with
      | none =>
          rw [hrest] at h
          exact absurd h (by simp [Standing.size?])
      | some n =>
          -- The tag ends within the first part, so the second one is not looked at.
          have htext := congrArg List.length (afterHead?_eq_some.mp hopening).1
          have hn := (restLength?_bounds hrest).2
          rw [List.length_append] at htext
          rw [Option.map_some]
          dsimp only
          rw [restLength?_append hrest, hrest]
          dsimp only
          rw [List.take_append_of_le_length (by omega)]
  | none =>
      rw [hopening] at h
      dsimp only [Option.map_none] at h ⊢
      cases hclosing : afterHead? closingHead p with
      | none => rfl
      | some rest =>
          rw [hclosing] at h
          dsimp only [Option.map_some] at h ⊢
          by_cases hend : '>' ∈ rest
          -- So does the tag that closes.
          · rw [if_pos hend, if_pos (by simp [hend]), List.takeWhile_append,
              if_neg (by have := @length_takeWhile_lt (· ≠ '>') _ _ hend (by simp); omega)]
          · rw [if_neg hend] at h
            exact absurd h (by simp [Standing.size?])

/-- What stands at a place and ends within the first part is seen there. -/
theorem standing_of_append {p s : Text} {size : Nat} (hp : p ≠ []) (hs : Parts p s)
    (h : (standing (p ++ s)).size? = some size) (hsize : size ≤ p.length) :
    (standing p).size? = some size := by
  rw [standing, afterHead?_append hp hs heads_begin.1, afterHead?_append hp hs heads_begin.2] at h
  rw [standing]
  cases hopening : afterHead? openingHead p with
  | some rest =>
      rw [hopening, Option.map_some] at h
      dsimp only at h ⊢
      have htext := congrArg List.length (afterHead?_eq_some.mp hopening).1
      rw [List.length_append] at htext
      cases hrest : restLength? none 0 (rest ++ s) with
      | none =>
          rw [hrest] at h
          exact absurd h (by simp [Standing.size?])
      | some n =>
          rw [hrest] at h
          have hn : openingHead.length + n = size := Option.some.inj h
          rw [restLength?_of_append hrest (by omega), ← hn]
          rfl
  | none =>
      rw [hopening] at h
      dsimp only [Option.map_none] at h ⊢
      cases hclosing : afterHead? closingHead p with
      | none =>
          rw [hclosing] at h
          exact h
      | some rest =>
          rw [hclosing] at h
          dsimp only [Option.map_some] at h ⊢
          have htext := congrArg List.length (afterHead?_eq_some.mp hclosing).1
          rw [List.length_append] at htext
          by_cases hwhole : '>' ∈ rest ++ s
          · rw [if_pos hwhole] at h
            have hn : closingHead.length + ((rest ++ s).takeWhile (· ≠ '>')).length + 1 = size :=
              Option.some.inj h
            -- An end behind the cut would make the tag longer than the first part.
            have hend : '>' ∈ rest := by
              by_contra hnot
              rw [List.takeWhile_append_of_pos (fun c hc => by
                rw [decide_eq_true_eq]
                rintro rfl
                exact hnot hc), List.length_append] at hn
              omega
            rw [if_pos hend, ← hn, List.takeWhile_append,
              if_neg (by have := @length_takeWhile_lt (· ≠ '>') _ _ hend (by simp); omega)]
            rfl
          · rw [if_neg hwhole] at h
            exact absurd h (by simp [Standing.size?])

/-- A text whose first part can be read by itself is read in two parts. -/
theorem readFrom_append {p s : Text} {offset covered : Nat} (hs : Parts p s) (hcover : covered ≤ p.length)
    (h : (readFrom offset covered p).2 = none) : readFrom offset covered (p ++ s)
      = ((readFrom offset covered p).1 ++ (readFrom (offset + p.length) 0 s).1,
          (readFrom (offset + p.length) 0 s).2) := by
  induction p generalizing offset covered with
  | nil =>
      rw [List.length_nil, Nat.le_zero] at hcover
      rw [hcover, readFrom_nil]
      rfl
  | cons c p ih =>
      rw [List.length_cons] at hcover
      have hlength : offset + 1 + p.length = offset + (c :: p).length := by
        rw [List.length_cons]
        omega
      cases covered with
      | succ covered =>
          rw [readFrom_cons_covered] at h
          rw [List.cons_append, readFrom_cons_covered, readFrom_cons_covered,
            ih hs.tail (by omega) h, hlength]
      | zero =>
          cases hsize : (standing (c :: p)).size? with
          | none =>
              rcases readFrom_of_no_size hsize offset with ⟨f, hf⟩
              rw [hf] at h
              exact absurd h (by simp)
          | some size =>
              have hbounds := standing_bounds hsize
              rw [List.length_cons] at hbounds
              rw [readFrom_of_size hsize] at h
              -- What stands here has its end in the first part, so it is the same in both.
              have hsame := standing_append (by simp) hs hsize
              rw [List.cons_append] at hsame ⊢
              rw [readFrom_of_size (by rw [hsame]; exact hsize), hsame, readFrom_of_size hsize,
                ih hs.tail (by omega) h, hlength]
              simp only [List.append_assoc]

/-- A first part in no tag of which the text is cut can be read by itself. -/
theorem whole_of_outside {p s : Text} {offset covered : Nat} (hs : Parts p s) (hcover : covered ≤ p.length)
    (h : (readFrom offset covered (p ++ s)).2 = none)
    (hout : ∀ tag ∈ (readFrom offset covered (p ++ s)).1,
      ¬ (tag.span.start < offset + p.length ∧ offset + p.length < tag.span.stop)) :
    (readFrom offset covered p).2 = none := by
  induction p generalizing offset covered with
  | nil => rw [readFrom_nil]
  | cons c p ih =>
      rw [List.length_cons] at hcover
      have hlength : offset + 1 + p.length = offset + (c :: p).length := by
        rw [List.length_cons]
        omega
      cases covered with
      | succ covered =>
          rw [List.cons_append, readFrom_cons_covered] at h hout
          rw [readFrom_cons_covered]
          exact ih hs.tail (by omega) h (by rw [hlength]; exact hout)
      | zero =>
          rw [List.cons_append] at h hout
          cases hsize : (standing (c :: (p ++ s))).size? with
          | none =>
              rcases readFrom_of_no_size hsize offset with ⟨f, hf⟩
              rw [hf] at h
              exact absurd h (by simp)
          | some size =>
              rw [readFrom_of_size hsize] at h hout
              -- What stands here ends in the first part: a tag that did not would be cut.
              have hle : size ≤ (c :: p).length := by
                rw [List.length_cons]
                by_contra hlong
                rcases hx : standing (c :: (p ++ s)) with _ | ⟨n, path, selfClosing⟩ | n | _ | _
                all_goals rw [hx] at hsize hout
                · exact hlong (by rw [← Option.some.inj hsize]; omega)
                · have hn : n = size := Option.some.inj hsize
                  exact hout _ (List.mem_append_left _ (List.mem_singleton.mpr rfl))
                    ⟨by change offset < _; omega, by change _ < offset + n; rw [List.length_cons]; omega⟩
                · have hn : n = size := Option.some.inj hsize
                  exact hout _ (List.mem_append_left _ (List.mem_singleton.mpr rfl))
                    ⟨by change offset < _; omega, by change _ < offset + n; rw [List.length_cons]; omega⟩
                · exact absurd hsize (by simp [Standing.size?])
                · exact absurd hsize (by simp [Standing.size?])
              have hpart := standing_of_append (by simp) hs hsize hle
              rw [List.length_cons] at hle
              rw [readFrom_of_size hpart]
              refine ih hs.tail (by omega) h fun tag htag => ?_
              rw [hlength]
              exact hout tag (List.mem_append_right _ htag)

end Tag

end RouteScaffold

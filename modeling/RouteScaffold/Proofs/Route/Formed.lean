import RouteScaffold.Proofs.Route.Cutting

/-!
# Well-Formed Forests

What can be relied on in the forest of a text, whatever the text is. Each element
lies in the text, from its opening tag to the end of its last one; what lies in it
lies between the two; elements side by side are in order and do not overlap. And
the elements are all there: a place at which an opening tag begins is the start of
exactly one element, unless the place is within a tag itself.

Reading never goes back, so it comes by every place that lies within no tag
(`readFrom_through`). What stands at such a place is thus what is read there, and
nothing else is. The rest is a question of how the tags nest, and follows along the
way in which they spell the elements (`Spells.formed`).

## Main definitions

* `Route.preorder`: The elements at all depths, in the order of their tags.
* `Route.source`, `Route.openingTag`: The text of an element, and of its first tag.
* `Route.Formed`: What is asked of one element.
* `Route.WellFormed`: What is asked of a forest.

## Theorems

* `readFrom_through`: Reading comes by every place that lies within no tag.
* `Spells.preorder_heads`: The elements of a forest and the opening tags correspond.
* `forest_well_formed`: A text has a well-formed forest, or a fault is reported.
-/

namespace RouteScaffold

/-! ### Places of tags -/

namespace Tag

variable {t u : Text} {offset covered p : Nat} {tag : Tag} {lo hi : Nat} {tags before after : List Tag}

/-- Whether a place lies within a tag, behind its first character. -/
def Covers (tag : Tag) (p : Nat) : Prop := tag.span.start < p ∧ p < tag.span.stop

/-- What belongs together at a place, and is more than one character, is a tag. -/
theorem exists_tag_of_size {x : Standing} {size : Nat} (h : x.size? = some size) (hsize : 1 < size)
    (offset : Nat) : ∃ tag ∈ x.tags offset, tag.span = ⟨offset, offset + size⟩ := by
  cases x with
  | plain =>
      rw [← Option.some.inj h] at hsize
      exact absurd hsize (Nat.lt_irrefl 1)
  | opening n path selfClosing =>
      rw [← Option.some.inj h]
      exact ⟨_, List.mem_singleton.mpr rfl, rfl⟩
  | closing n =>
      rw [← Option.some.inj h]
      exact ⟨_, List.mem_singleton.mpr rfl, rfl⟩
  | unended => exact absurd h (by simp [Standing.size?])
  | unbalanced => exact absurd h (by simp [Standing.size?])

/-- Reading comes by every place that lies within no tag. -/
theorem readFrom_through (hfault : (readFrom offset covered t).2 = none) (hcover : covered ≤ p)
    (hp : p ≤ t.length) (hout : ∀ tag ∈ (readFrom offset covered t).1, ¬ tag.Covers (offset + p)) :
    ∃ before, readFrom offset covered t = (before ++ (readFrom (offset + p) 0 (t.drop p)).1,
      (readFrom (offset + p) 0 (t.drop p)).2) := by
  induction t generalizing offset covered p with
  | nil =>
      rw [List.length_nil, Nat.le_zero] at hp
      subst hp
      rw [Nat.le_zero.mp hcover]
      exact ⟨[], rfl⟩
  | cons c t ih =>
      rw [List.length_cons] at hp
      cases covered with
      | succ covered =>
          obtain ⟨p, rfl⟩ : ∃ q, p = q + 1 := ⟨p - 1, by omega⟩
          rw [readFrom_cons_covered] at hfault hout ⊢
          rw [show offset + (p + 1) = offset + 1 + p by omega] at hout ⊢
          exact ih hfault (by omega) (by omega) hout
      | zero =>
          cases p with
          | zero => exact ⟨[], rfl⟩
          | succ p =>
              cases hsize : (standing (c :: t)).size? with
              | none =>
                  rcases readFrom_of_no_size hsize offset with ⟨f, hf⟩
                  rw [hf] at hfault
                  exact absurd hfault (by simp)
              | some size =>
                  rw [readFrom_of_size hsize] at hfault hout ⊢
                  -- What stands here ends before the place, or else it would cover it.
                  have hle : size ≤ p + 1 := by
                    by_contra hlong
                    rcases exists_tag_of_size hsize (by omega) offset with ⟨tag, htag, hspan⟩
                    refine hout tag (List.mem_append_left _ htag) ?_
                    rw [Covers, hspan]
                    dsimp only
                    omega
                  have hrest := fun tag htag => hout tag (List.mem_append_right _ htag)
                  rw [show offset + (p + 1) = offset + 1 + p by omega] at hrest ⊢
                  rcases ih hfault (by omega) (by omega) hrest with ⟨before, hbefore⟩
                  refine ⟨(standing (c :: t)).tags offset ++ before, ?_⟩
                  rw [List.drop_succ_cons, hbefore, List.append_assoc]

/-- Every tag that is read stands where it begins. -/
theorem standing_of_mem (h : tag ∈ (readFrom offset covered t).1) : ∃ p, covered ≤ p
    ∧ tag ∈ (standing (t.drop p)).tags (offset + p) := by
  induction t generalizing offset covered with
  | nil =>
      rw [readFrom_nil] at h
      exact absurd h (by simp)
  | cons c t ih =>
      have hnext : ∀ covered, tag ∈ (readFrom (offset + 1) covered t).1 →
          ∃ p, covered + 1 ≤ p ∧ tag ∈ (standing ((c :: t).drop p)).tags (offset + p) := by
        intro covered hmem
        rcases ih hmem with ⟨p, hp, htag⟩
        refine ⟨p + 1, by omega, ?_⟩
        rwa [List.drop_succ_cons, show offset + (p + 1) = offset + 1 + p by omega]
      cases covered with
      | succ covered => exact hnext covered h
      | zero =>
          cases hsize : (standing (c :: t)).size? with
          | none =>
              rcases readFrom_of_no_size hsize offset with ⟨f, hf⟩
              rw [hf] at h
              exact absurd h (by simp)
          | some size =>
              rw [readFrom_of_size hsize] at h
              rcases List.mem_append.mp h with h | h
              · exact ⟨0, Nat.le_refl 0, h⟩
              · rcases hnext _ h with ⟨p, -, htag⟩
                exact ⟨p, Nat.zero_le p, htag⟩

/-- The text of the opening tag that begins a text, if one does. -/
def openingText (t : Text) : Text :=
  t.take (openingHead.length + (restLength? none 0 (t.drop openingHead.length)).getD 0)

/-- An opening tag that stands at the start of a text is what its text says. -/
theorem standing_opening {tag : OpeningTag} (h : .opening tag ∈ (standing t).tags offset) :
    IsOpening (openingText t) ∧ tag = openingOf offset (openingText t) := by
  rw [standing] at h
  cases hopening : afterHead? openingHead t with
  | none =>
      rw [hopening] at h
      dsimp only at h
      split at h
      · split at h
        · rw [Standing.tags, List.mem_singleton] at h
          exact absurd h (by simp)
        · exact absurd h (by simp [Standing.tags])
      · exact absurd h (by simp [Standing.tags])
  | some rest =>
      rw [hopening] at h
      dsimp only at h
      rcases afterHead?_eq_some.mp hopening with ⟨rfl, hword⟩
      cases hrest : restLength? none 0 rest with
      | none =>
          rw [hrest] at h
          exact absurd h (by simp [Standing.tags])
      | some n =>
          have hn := restLength?_bounds hrest
          have htext : openingText (openingHead ++ rest) = openingHead ++ rest.take n := by
            rw [openingText, List.drop_left, hrest, Option.getD_some, List.take_length_add_append]
          rw [hrest] at h
          dsimp only at h
          rw [List.take_length_add_append, ← htext] at h
          have hlength : (openingText (openingHead ++ rest)).length = openingHead.length + n := by
            rw [htext, List.length_append, List.length_take, Nat.min_eq_left hn.2]
          refine ⟨⟨?_⟩, ?_⟩
          · cases rest with
            | nil => exact absurd hn.2 (by rw [List.length_nil]; omega)
            | cons c rest =>
                obtain ⟨m, rfl⟩ : ∃ m, n = m + 1 := ⟨n - 1, by omega⟩
                rw [List.length_cons] at hn
                have hlast : (rest.take m).length + 1 = m + 1 := by
                  rw [List.length_take, Nat.min_eq_left (by omega)]
                refine ⟨c, rest.take m, htext, hword, fun r => ?_⟩
                -- The tag is measured by its own characters, so what follows does not count.
                rw [← List.cons_append, ← List.take_succ_cons, hlast]
                refine restLength?_append (restLength?_of_append (s := (c :: rest).drop (m + 1)) ?_ ?_) r
                · rwa [List.take_append_drop]
                · rw [List.length_take, List.length_cons]
                  omega
          · rw [Standing.tags, List.mem_singleton, Tag.opening.injEq] at h
            rw [h, openingOf, hlength]

/-- A tag of a text: it stands where it begins, and ends with its bracket. -/
structure Within (tag : Tag) (t : Text) : Prop where
  stands : tag ∈ (standing (t.drop tag.span.start)).tags tag.span.start
  ends : (t.take tag.span.stop).getLast? = some '>'

theorem within_of_mem_read (h : tag ∈ (read t).1) : tag.Within t := by
  rcases standing_of_mem h with ⟨p, -, htag⟩
  rcases mem_tags htag with ⟨size, -, hspan⟩
  rcases readFrom_last h with ⟨n, hn, hlast⟩
  rw [Nat.zero_add] at htag hspan hn
  have hstart : tag.span.start = p := by rw [hspan]
  exact ⟨hstart ▸ htag, hn ▸ hlast⟩

/-- What begins as an opening tag, and has an end, is one. -/
theorem exists_opening_of_size {size : Nat} (hhead : (afterHead? openingHead u).isSome = true)
    (hsize : (standing u).size? = some size) (offset : Nat) :
    ∃ tag : OpeningTag, .opening tag ∈ (standing u).tags offset ∧ tag.span.start = offset := by
  rw [standing] at hsize ⊢
  rcases Option.isSome_iff_exists.mp hhead with ⟨rest, hrest⟩
  rw [hrest] at hsize ⊢
  dsimp only at hsize ⊢
  cases hn : restLength? none 0 rest with
  | none =>
      rw [hn] at hsize
      exact absurd hsize (by simp [Standing.size?])
  | some n => exact ⟨_, List.mem_singleton.mpr rfl, rfl⟩

/-- An opening tag is read wherever one begins that lies within no other tag. -/
theorem exists_opening_of_head (hfault : (read t).2 = none)
    (hhead : (afterHead? openingHead (t.drop p)).isSome = true)
    (hout : ∀ tag ∈ (read t).1, ¬ tag.Covers p) :
    ∃ tag : OpeningTag, .opening tag ∈ (read t).1 ∧ tag.span.start = p := by
  rcases Option.isSome_iff_exists.mp hhead with ⟨rest, hrest⟩
  have htext : t.drop p = '<' :: ("Route".toList ++ rest) := (afterHead?_eq_some.mp hrest).1
  have hp : p ≤ t.length := by
    by_contra hlong
    rw [List.drop_eq_nil_of_le (by omega)] at htext
    exact absurd htext (by simp)
  rcases readFrom_through hfault (Nat.zero_le p) hp (by rwa [Nat.zero_add]) with ⟨before, hread⟩
  -- The reader comes to this place, as it has not failed before.
  rw [Nat.zero_add] at hread
  have hbehind : (readFrom p 0 (t.drop p)).2 = none := by
    rw [← hfault, Tag.read, hread]
  rw [htext] at hhead hbehind hread
  -- A tag without an end would have been a fault.
  cases hsize : (standing ('<' :: ("Route".toList ++ rest))).size? with
  | none =>
      rcases readFrom_of_no_size hsize p with ⟨f, hf⟩
      rw [hf] at hbehind
      exact absurd hbehind (by simp)
  | some size =>
      rcases exists_opening_of_size hhead hsize p with ⟨tag, htag, hstart⟩
      refine ⟨tag, ?_, hstart⟩
      rw [Tag.read, hread, readFrom_of_size hsize]
      exact List.mem_append_right before (List.mem_append_left _ htag)

/-- The head of an opening tag stands where it begins. -/
theorem head_of_opening {tag : OpeningTag} (h : .opening tag ∈ (standing u).tags offset) :
    (afterHead? openingHead u).isSome = true := by
  rw [standing] at h
  split at h
  · next hopening =>
      rw [hopening]
      rfl
  · split at h
    · split at h
      · rw [Standing.tags, List.mem_singleton] at h
        exact absurd h (by simp)
      · exact absurd h (by simp [Standing.tags])
    · exact absurd h (by simp [Standing.tags])

theorem InOrder.pairwise (h : InOrder lo hi tags) :
    tags.Pairwise fun a b => a.span.stop ≤ b.span.start := by
  induction h with
  | nil le => exact .nil
  | cons start proper rest ih => exact .cons (fun b hb => (rest.mem hb).1) ih

/-- Tags in front of another one end before it begins. -/
theorem InOrder.upTo (h : InOrder lo hi (before ++ tag :: after)) :
    InOrder lo tag.span.start before := by
  induction before generalizing lo with
  | nil =>
      cases h with
      | cons start proper rest => exact .nil start
  | cons a before ih =>
      cases h with
      | cons start proper rest => exact .cons start proper (ih rest)

/-- A tag covers no place at which another one begins. -/
theorem InOrder.not_covers (h : InOrder lo hi tags) {a b : Tag} (ha : a ∈ tags) (hb : b ∈ tags) :
    ¬ a.Covers b.span.start := by
  induction h with
  | nil le => exact absurd ha (by simp)
  | @cons lo hi tag tags start proper rest ih =>
      rw [Covers]
      rcases List.mem_cons.mp ha with rfl | ha <;> rcases List.mem_cons.mp hb with rfl | hb
      · omega
      · have := (rest.mem hb).1
        omega
      · have := (rest.mem ‹a ∈ tags›).1
        omega
      · exact ih ‹a ∈ tags› ‹b ∈ tags›

end Tag

namespace Route

variable {t file : Text} {tags : List Tag} {es roots : List Route} {e : Route} {lo hi : Nat}

/-! ### Elements at all depths -/

mutual

/-- An element, and the elements in it at all depths. -/
def down : Route → List Route
  | ⟨span, path, selfClosing, children⟩ => ⟨span, path, selfClosing, children⟩ :: preorder children

/-- The elements of a forest at all depths, each in front of those in it. -/
def preorder : List Route → List Route
  | [] => []
  | e :: es => down e ++ preorder es

end

theorem preorder_cons (e : Route) (es : List Route) :
    preorder (e :: es) = e :: (preorder e.children ++ preorder es) := by
  cases e
  rfl

/-- What an element has from its opening tag. -/
def head (e : Route) : Nat × Option Text × Bool := (e.span.start, e.path, e.selfClosing)

/-- What an opening tag gives to its element. -/
def headOf (tag : OpeningTag) : Nat × Option Text × Bool := (tag.span.start, tag.path, tag.selfClosing)

/-- The opening tag that a tag is, if it is one. -/
def opening? : Tag → Option OpeningTag
  | .opening tag => some tag
  | .closing _ => none

theorem start_of_opening? {tag : Tag} {o : OpeningTag} (h : opening? tag = some o) :
    tag.span.start = (headOf o).1 := by
  cases tag with
  | opening tag =>
      rw [← Option.some.inj h]
      rfl
  | closing span => exact absurd h (by simp [opening?])

/-- The elements of a forest and the opening tags that spell it correspond. -/
theorem Spells.preorder_heads (h : Spells tags es) :
    (preorder es).map head = (tags.filterMap opening?).map headOf := by
  induction h with
  | nil => rfl
  | leaf self behind ih =>
      rw [preorder_cons, List.map_cons, show preorder [] = [] from rfl, List.nil_append, ih,
        List.filterMap_cons_some (f := opening?) rfl, List.map_cons, headOf, self]
      rfl
  | block self inside behind ihinside ih =>
      rw [preorder_cons, List.map_cons, List.map_append, ihinside, ih,
        List.filterMap_cons_some (f := opening?) rfl, List.filterMap_append,
        List.filterMap_cons_none (f := opening?) rfl, List.map_cons, List.map_append, headOf, self]
      rfl

/-- Elements that are spelled by tags in order are laid out in order. -/
theorem Spells.laid (h : Spells tags es) (horder : Tag.InOrder lo hi tags) : Laid lo hi es := by
  induction h generalizing lo hi with
  | nil => exact .nil horder.le
  | leaf self behind ih =>
      cases horder with
      | cons start proper rest => exact .cons start proper (fun hne => absurd rfl hne) (ih rest)
  | @block tag span inner tags children es self inside behind ihinside ih =>
      -- The tags inside are in order between the two of the block.
      cases horder with
      | cons start proper rest =>
          have hinner := ihinside rest.upTo
          have hle := hinner.le
          cases rest.right with
          | cons start' proper' rest' =>
              change tag.span.start < tag.span.stop at proper
              change tag.span.stop ≤ span.start at hle
              change span.start < span.stop at proper'
              refine .cons start (proper.trans (hle.trans_lt proper')) (fun _ => ?_) (ih rest')
              exact (hinner.of_ge proper).of_le (Nat.le_sub_one_of_lt proper')

theorem Laid.pairwise (h : Laid lo hi es) : es.Pairwise fun a b => a.span.stop ≤ b.span.start := by
  induction h with
  | nil le => exact .nil
  | cons start proper inside behind ihinside ih =>
      exact .cons (fun b hb => (behind.mem hb).1) ih

/-! ### One element -/

/-- The text of an element. -/
def source (t : Text) (e : Route) : Text := (t.drop e.span.start).take (e.span.stop - e.span.start)

/-- The text of the opening tag of an element. -/
def openingTag (t : Text) (e : Route) : Text := Tag.openingText (t.drop e.span.start)

/-- An element that is a stretch of a text, from an opening tag to the end of a tag,
    with its children in order behind the first one. -/
structure Formed (t : Text) (e : Route) : Prop where
  proper : e.span.start < e.span.stop ∧ e.span.stop ≤ t.length
  begins : Tag.openingHead <+: e.source t
  opening : Tag.IsOpening (e.openingTag t) ∧ e.openingTag t <+: e.source t
  ends : (e.source t).getLast? = some '>'
  inside : ∀ c ∈ e.children,
    e.span.start + (e.openingTag t).length ≤ c.span.start ∧ c.span.stop < e.span.stop
  apart : e.children.Pairwise fun a b => a.span.stop ≤ b.span.start
  childless : e.selfClosing = true → e.children = []

/-- What an element has to do with its opening tag, and with the end of its last one. -/
theorem formed_of_tags {tag : OpeningTag} {hi' : Nat} (hfirst : (Tag.opening tag).Within t)
    (hlast : (t.take e.span.stop).getLast? = some '>') (hle : e.span.stop ≤ t.length)
    (hstart : e.span.start = tag.span.start) (hproper : tag.span.start < tag.span.stop)
    (hstop : tag.span.stop ≤ e.span.stop) (hchildren : Laid tag.span.stop hi' e.children)
    (hinside : e.children ≠ [] → hi' < e.span.stop)
    (hchildless : e.selfClosing = true → e.children = []) : Formed t e := by
  rcases Tag.standing_opening hfirst.stands with ⟨hopening, htag⟩
  change Tag.IsOpening (Tag.openingText (t.drop tag.span.start)) at hopening
  change tag = Tag.openingOf tag.span.start (Tag.openingText (t.drop tag.span.start)) at htag
  have htagStop : tag.span.stop
      = tag.span.start + (Tag.openingText (t.drop tag.span.start)).length :=
    congrArg (fun o => o.span.stop) htag
  rw [← hstart] at hopening htagStop
  have hprefix : e.openingTag t <+: e.source t := by
    refine List.prefix_of_prefix_length_le (List.take_prefix _ _) (List.take_prefix _ _) ?_
    change (Tag.openingText (t.drop e.span.start)).length ≤ _
    rw [source, List.length_take, List.length_drop]
    omega
  have hhead : Tag.openingHead <+: e.openingTag t := by
    rcases hopening.parts with ⟨c, u, htext, -⟩
    exact ⟨c :: u, htext.symm⟩
  refine ⟨⟨by omega, hle⟩, hhead.trans hprefix, ⟨hopening, hprefix⟩, ?_, fun c hc => ?_,
    hchildren.pairwise, hchildless⟩
  · rw [source, ← List.drop_take, List.getLast?_drop, if_neg, hlast]
    rw [List.length_take]
    omega
  · have hmem := hchildren.mem hc
    have hlt := hinside (List.ne_nil_of_mem hc)
    change e.span.start + (Tag.openingText (t.drop e.span.start)).length ≤ _ ∧ _
    omega

/-- Every element that the tags of a text spell, at whatever depth, is formed as it
    should be. -/
theorem Spells.formed (h : Spells tags es) (horder : Tag.InOrder lo hi tags) (hhi : hi ≤ t.length)
    (hwithin : ∀ tag ∈ tags, tag.Within t) : ∀ e ∈ preorder es, Formed t e := by
  induction h generalizing lo hi with
  | nil => exact fun e he => absurd he (by simp [preorder])
  | @leaf tag tags es self behind ih =>
      intro e he
      cases horder with
      | cons start proper rest =>
          rw [preorder_cons, show preorder [] = [] from rfl, List.nil_append] at he
          rcases List.mem_cons.mp he with rfl | he
          · have hfirst := hwithin _ List.mem_cons_self
            exact formed_of_tags hfirst hfirst.ends (rest.le.trans hhi) rfl proper (Nat.le_refl _)
              (.nil (Nat.le_refl _)) (fun hne => absurd rfl hne) fun _ => rfl
          · exact ih rest hhi (fun tag htag => hwithin tag (List.mem_cons_of_mem _ htag)) e he
  | @block tag span inner tags children es self inside behind ihinside ih =>
      intro e he
      cases horder with
      | cons start proper rest =>
          -- The children lie between the opening tag and the closing one.
          have hinner := inside.laid rest.upTo
          have hle := hinner.le
          cases rest.right with
          | cons start' proper' rest' =>
              change tag.span.start < tag.span.stop at proper
              change span.start < span.stop at proper'
              have hclosing := hwithin (.closing span) (by simp)
              have hspan : span.stop ≤ hi := rest'.le
              rw [preorder_cons] at he
              rcases List.mem_cons.mp he with rfl | he
              · refine formed_of_tags (hwithin _ List.mem_cons_self) hclosing.ends (hspan.trans hhi) rfl proper
                  (hle.trans proper'.le) hinner (fun _ => proper') fun hself => ?_
                exact absurd hself (by simp)
              · rcases List.mem_append.mp he with he | he
                · exact ihinside rest.upTo (show span.start ≤ t.length by omega)
                    (fun tag htag => hwithin tag (by simp [htag])) e he
                · exact ih rest' hhi (fun tag htag => hwithin tag (by simp [htag])) e he

/-! ### The forest -/

/-- Whether an opening tag begins at a place that lies within no tag of the text. -/
def OpensAt (t : Text) (p : Nat) : Prop :=
  (Tag.afterHead? Tag.openingHead (t.drop p)).isSome = true ∧ ∀ tag ∈ (Tag.read t).1, ¬ tag.Covers p

/-- A forest that is made of all the elements of a text, each formed as it should be. -/
structure WellFormed (t : Text) (roots : List Route) : Prop where
  formed : ∀ e ∈ preorder roots, Formed t e
  apart : roots.Pairwise fun a b => a.span.stop ≤ b.span.start
  /-- The elements come in the order of the text, no two of them at one place. -/
  ordered : (preorder roots).Pairwise fun a b => a.span.start < b.span.start
  /-- There is one at every place where an opening tag begins, and at no other. -/
  complete : ∀ p, (∃ e ∈ preorder roots, e.span.start = p) ↔ OpensAt t p

/-- The tags of a text are one behind the other. -/
theorem inOrder_read (t : Text) : Tag.InOrder 0 t.length (Tag.read t).1 := by
  have := Tag.inOrder_readFrom 0 0 t (Nat.zero_le _)
  rwa [Nat.zero_add, Nat.zero_add] at this

/-- An element at any depth has its opening tag among those of the text. -/
theorem exists_opening_of_mem (h : Spells tags es) (he : e ∈ preorder es) :
    ∃ tag : OpeningTag, .opening tag ∈ tags ∧ headOf tag = head e := by
  have hmem := List.mem_map_of_mem (f := head) he
  rw [h.preorder_heads] at hmem
  rcases List.mem_map.mp hmem with ⟨tag, htag, hhead⟩
  rcases List.mem_filterMap.mp htag with ⟨x, hx, hopening⟩
  cases x with
  | opening tag' =>
      rw [← Option.some.inj hopening] at hhead
      exact ⟨tag', hx, hhead⟩
  | closing span => exact absurd hopening (by simp [opening?])

/-- An opening tag of a text begins an element of its forest. -/
theorem exists_mem_of_opening (h : Spells tags es) {tag : OpeningTag} (htag : .opening tag ∈ tags) :
    ∃ e ∈ preorder es, head e = headOf tag := by
  have hmem := List.mem_map_of_mem (f := headOf) (List.mem_filterMap.mpr ⟨_, htag, show opening? _ = _ from rfl⟩)
  rw [← h.preorder_heads] at hmem
  exact List.mem_map.mp hmem

theorem wellFormed_scan (h : scan t = .ok roots) : WellFormed t roots := by
  have hspells := spells_scan h
  have horder := inOrder_read t
  have hfault := (scan_eq_ok h).1
  refine ⟨hspells.formed horder (Nat.le_refl _) fun tag => Tag.within_of_mem_read,
    (hspells.laid horder).pairwise, ?_, fun p => ⟨?_, ?_⟩⟩
  · -- The elements begin where their tags do, and these are in order.
    have hheads : ((preorder roots).map head).Pairwise fun a b => a.1 < b.1 := by
      rw [hspells.preorder_heads, List.pairwise_map, List.pairwise_filterMap]
      refine horder.pairwise.imp_of_mem fun {a b} ha hb hab o ho o' ho' => ?_
      have hproper := (horder.mem ha).2.1
      rw [← start_of_opening? ho, ← start_of_opening? ho'] at *
      exact hproper.trans_le hab
    have hstarts := List.pairwise_map.mp hheads
    exact hstarts
  · rintro ⟨e, he, rfl⟩
    rcases exists_opening_of_mem hspells he with ⟨tag, htag, hhead⟩
    have hstart : tag.span.start = e.span.start := congrArg Prod.fst hhead
    rw [← hstart]
    exact ⟨Tag.head_of_opening (Tag.within_of_mem_read htag).stands,
      fun a ha => horder.not_covers ha htag⟩
  · rintro ⟨hhead, hout⟩
    rcases Tag.exists_opening_of_head hfault hhead hout with ⟨tag, htag, hstart⟩
    rcases exists_mem_of_opening hspells htag with ⟨e, he, heq⟩
    exact ⟨e, he, (congrArg Prod.fst heq).trans hstart⟩

/-- A text has a well-formed forest, or it is reported what its tags lack. -/
theorem forest_well_formed (t file : Text) :
    (∃ roots, forest t file = .ok roots ∧ WellFormed t roots)
      ∨ ∃ f : TagFault, forest t file = .error (.anchorNotFound file f.label) := by
  cases h : scan t with
  | ok roots => exact .inl ⟨roots, forest_eq_ok.mpr h, wellFormed_scan h⟩
  | error f => exact .inr ⟨f, by rw [forest, h]⟩

end Route

end RouteScaffold

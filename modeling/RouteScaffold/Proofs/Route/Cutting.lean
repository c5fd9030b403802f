import RouteScaffold.Proofs.Edit.Inserting
import RouteScaffold.Proofs.Route.Nesting

/-!
# Cutting an Element

What becomes of the forest of a text when one of its elements is cut out, with the
line break and the indentation behind it: the forest is the same but for that element
and what lies in it. The elements around the cut one have less text than before; all
others have exactly the text that they had.

The element has to begin where no tag can begin before it and go on behind the cut:
at the start of the text, behind a blank, or behind the end of a tag. Behind the
element there is no such concern, since it ends with a tag.

Nothing has to be proved about the tags behind the cut a second time. To cut an
element out is to undo its planting: the text without it can be read, since the
element leaves the stack as it was, and writing it back there gives the first text
and thereby the first forest.

## Main definitions

* `Route.Stretch`: An element whose text can be read apart from what surrounds it.
* `Route.Excerpt`: An element with the text that it stands for.
* `Route.Pruned`: A forest with one element less.

## Theorems

* `stretch_of_at?`: The elements of a text can be read apart.
* `scan_cut`: A text without an element has the forest that it was planted in.
* `forest_cut`: A text without an element has the pruned forest.
-/

namespace RouteScaffold

/-! ### The end of a tag -/

namespace Tag

variable {t : Text}

theorem getLast?_cons_of_some {c d : Char} (h : t.getLast? = some d) : (c :: t).getLast? = some d := by
  rw [List.getLast?_cons, h]
  rfl

/-- A text up to the first of some character, and this character with it. -/
theorem take_past_first {c : Char} (h : c ∈ t) :
    (t.take ((t.takeWhile (· ≠ c)).length + 1)).getLast? = some c := by
  induction t with
  | nil => exact absurd h (by simp)
  | cons d t ih =>
      by_cases hd : d = c
      · rw [hd, List.takeWhile_cons_of_neg (by simp)]
        rfl
      · rw [List.takeWhile_cons_of_pos (by simp [hd]), List.length_cons, List.take_succ_cons]
        exact getLast?_cons_of_some (ih ((List.mem_cons.mp h).resolve_left (Ne.symm hd)))

/-- An opening tag ends with its bracket. -/
theorem restLength?_last {q : Option Char} {depth : Int} {n : Nat} (h : restLength? q depth t = some n) :
    (t.take n).getLast? = some '>' := by
  induction t generalizing q depth n with
  | nil => exact absurd h (by cases q <;> simp [restLength?])
  | cons c t ih =>
      rcases restLength?_cons q depth c with ⟨rfl, hlast⟩ | ⟨q', depth', hmore⟩
      · rw [hlast] at h
        rw [← Option.some.inj h]
        rfl
      · rw [hmore] at h
        rcases Option.map_eq_some_iff.mp h with ⟨m, hm, rfl⟩
        exact getLast?_cons_of_some (ih hm)

/-- A tag that stands at the start of a text ends with its bracket. -/
theorem standing_last {size : Nat} {offset : Nat} {tag : Tag} (h : (standing t).size? = some size)
    (htag : tag ∈ (standing t).tags offset) : (t.take size).getLast? = some '>' := by
  rw [standing] at h htag
  cases hopening : afterHead? openingHead t with
  | some rest =>
      rw [hopening] at h htag
      dsimp only at h htag
      cases hrest : restLength? none 0 rest with
      | none =>
          rw [hrest] at htag
          exact absurd htag (by simp [Standing.tags])
      | some n =>
          rw [hrest] at h
          -- The head of the tag is followed by as much as the rest takes.
          rw [← Option.some.inj h, (afterHead?_eq_some.mp hopening).1, List.take_length_add_append,
            List.getLast?_append, restLength?_last hrest]
          rfl
  | none =>
      rw [hopening] at h htag
      dsimp only at h htag
      cases hclosing : afterHead? closingHead t with
      | none =>
          rw [hclosing] at htag
          exact absurd htag (by simp [Standing.tags])
      | some rest =>
          rw [hclosing] at h htag
          dsimp only at h htag
          by_cases hend : '>' ∈ rest
          · rw [if_pos hend] at h
            have hlast : (rest.take ((rest.takeWhile (· ≠ '>')).length + 1)).getLast? = some '>' :=
              take_past_first hend
            rw [← Option.some.inj h, (afterHead?_eq_some.mp hclosing).1, Nat.add_assoc,
              List.take_length_add_append, List.getLast?_append, hlast]
            rfl
          · rw [if_neg hend] at htag
            exact absurd htag (by simp [Standing.tags])

/-- Every tag of a text ends with its bracket. -/
theorem readFrom_last {offset covered : Nat} {tag : Tag} (h : tag ∈ (readFrom offset covered t).1) :
    ∃ n, tag.span.stop = offset + n ∧ (t.take n).getLast? = some '>' := by
  induction t generalizing offset covered with
  | nil =>
      rw [readFrom_nil] at h
      exact absurd h (by simp)
  | cons c t ih =>
      have hnext : ∀ covered, tag ∈ (readFrom (offset + 1) covered t).1 →
          ∃ n, tag.span.stop = offset + n ∧ ((c :: t).take n).getLast? = some '>' := by
        intro covered hmem
        rcases ih hmem with ⟨n, hn, hlast⟩
        exact ⟨n + 1, by omega, getLast?_cons_of_some hlast⟩
      cases covered with
      | succ covered => exact hnext covered h
      | zero =>
          cases hsize : (standing (c :: t)).size? with
          | none =>
              rcases readFrom_of_no_size hsize offset with ⟨f, hf⟩
              rw [hf] at h
              exact absurd h (by simp)
          | some size =>
              rw [readFrom_of_size hsize] at h
              rcases List.mem_append.mp h with h | h
              · rcases mem_tags h with ⟨size', hsize', hspan⟩
                rw [hsize, Option.some.injEq] at hsize'
                exact ⟨size, by rw [hspan, hsize'], standing_last hsize h⟩
              · exact hnext _ h

/-! ### Tags between others -/

variable {lo hi : Nat} {tags before after : List Tag} {tag : Tag}

theorem InOrder.left (h : InOrder lo hi (before ++ after)) : InOrder lo hi before := by
  induction before generalizing lo with
  | nil => exact .nil h.le
  | cons tag before ih =>
      cases h with
      | cons start proper rest => exact .cons start proper (ih rest)

theorem InOrder.right (h : InOrder lo hi (before ++ after)) : InOrder lo hi after := by
  induction before generalizing lo with
  | nil => exact h
  | cons tag before ih =>
      cases h with
      | cons start proper rest => exact (ih rest).of_le (by omega)

/-- Tags that come first end before the others begin. -/
theorem InOrder.append_le (h : InOrder lo hi (before ++ after)) {a b : Tag} (ha : a ∈ before)
    (hb : b ∈ after) : a.span.stop ≤ b.span.start := by
  induction before generalizing lo with
  | nil => exact absurd ha (by simp)
  | cons tag before ih =>
      cases h with
      | cons start proper rest =>
          rcases List.mem_cons.mp ha with rfl | ha
          · exact (rest.mem (List.mem_append_right before hb)).1
          · exact ih rest ha

theorem InOrder.head_le (h : InOrder lo hi tags) {a b : Tag} (ha : tags.head? = some a) (hb : b ∈ tags) :
    a.span.start ≤ b.span.start := by
  cases h with
  | nil le => exact absurd hb (by simp)
  | @cons lo hi tag tags start proper rest =>
      have hat : tag = a := Option.some.inj ha
      rcases List.mem_cons.mp hb with rfl | hb
      · rw [hat]
      · have := (rest.mem hb).1
        rw [← hat]
        omega

theorem InOrder.le_last (h : InOrder lo hi tags) {a b : Tag} (ha : tags.getLast? = some a)
    (hb : b ∈ tags) : b.span.stop ≤ a.span.stop := by
  rcases List.getLast?_eq_some_iff.mp ha with ⟨front, rfl⟩
  rcases List.mem_append.mp hb with hb | hb
  · have := h.append_le hb (List.mem_singleton.mpr rfl)
    have := (h.mem (List.mem_append_right front (List.mem_singleton.mpr rfl))).2.1
    omega
  · rw [List.mem_singleton.mp hb]

/-- Tags are cut in one way at a place. -/
theorem append_unique {before' after' : List Tag} {n : Nat} (h : before ++ after = before' ++ after')
    (hbefore : ∀ a ∈ before, a.span.start < n) (hbefore' : ∀ a ∈ before', a.span.start < n)
    (hafter : ∀ b ∈ after, n ≤ b.span.start) (hafter' : ∀ b ∈ after', n ≤ b.span.start) :
    before = before' ∧ after = after' := by
  -- A tag that would lie on the wrong side of the cut is in both parts.
  rcases List.append_eq_append_iff.mp h with ⟨z, rfl, rfl⟩ | ⟨z, rfl, rfl⟩
  · cases z with
    | nil => simp
    | cons a z =>
        have := hbefore' a (by simp)
        have := hafter a (by simp)
        omega
  · cases z with
    | nil => simp
    | cons a z =>
        have := hbefore a (by simp)
        have := hafter' a (by simp)
        omega

/-- What is read of a text is read of its parts, if no tag lies across the cut. -/
theorem readFrom_parts {p s : Text} {offset : Nat}
    (h : readFrom offset 0 (p ++ s) = (before ++ after, none)) (hparts : Parts p s)
    (hbefore : ∀ tag ∈ before, tag.span.stop ≤ offset + p.length)
    (hafter : ∀ tag ∈ after, offset + p.length ≤ tag.span.start) :
    readFrom offset 0 p = (before, none) ∧ readFrom (offset + p.length) 0 s = (after, none) := by
  have horder := inOrder_readFrom offset 0 (p ++ s) (Nat.zero_le _)
  have hwhole := whole_of_outside hparts (Nat.zero_le _) (congrArg Prod.snd h) (by
    rw [h]
    intro tag htag
    rcases List.mem_append.mp htag with htag | htag
    · have := hbefore tag htag
      omega
    · have := hafter tag htag
      omega)
  rw [h] at horder
  rw [readFrom_append hparts (Nat.zero_le _) hwhole, Prod.mk.injEq] at h
  -- The tags of the two parts are told apart by their places, as those of the whole are.
  have hsame := append_unique (n := offset + p.length) h.1 (fun tag htag => ?_) (fun tag htag => ?_)
    (fun tag htag => ?_) hafter
  · exact ⟨Prod.ext hsame.1 hwhole, Prod.ext hsame.2 h.2⟩
  · have := (inOrder_readFrom offset 0 p (Nat.zero_le _)).mem htag
    omega
  · have := hbefore tag htag
    have := horder.left.mem htag
    omega
  · exact ((inOrder_readFrom (offset + p.length) 0 s (Nat.zero_le _)).mem htag).1

end Tag

namespace Route

variable {t p own rest file : Text} {roots es es' : List Route} {e new : Route} {way : List Nat}
  {s k lo hi : Nat}

/-! ### Reading an element apart -/

/-- An element whose text can be read apart from what surrounds it. -/
structure Stretch (t : Text) (e : Route) (p own rest : Text) : Prop where
  text : t = p ++ (own ++ rest)
  span : e.span = ⟨p.length, p.length + own.length⟩
  visible : own ≠ []
  whole : (Tag.readFrom 0 0 p).2 = none
  takes : ∀ r, Takes own p.length r (r.add e)

/-- A text cut at two places. -/
theorem exists_parts {a b : Nat} (hle : a ≤ b) (hb : b ≤ t.length) : ∃ p own rest : Text,
    t = p ++ (own ++ rest) ∧ p.length = a ∧ p.length + own.length = b := by
  refine ⟨t.take a, (t.drop a).take (b - a), (t.drop a).drop (b - a), ?_, ?_, ?_⟩
  · rw [List.take_append_drop, List.take_append_drop]
  · rw [List.length_take]
    omega
  · rw [List.length_take, List.length_take, List.length_drop]
    omega

/-- The tags of a text before an element, within it, and behind it. -/
structure Around (e : Route) (before tags after : List Tag) : Prop where
  spells : Spells tags [e]
  before : ∀ tag ∈ before, tag.span.stop ≤ e.span.start
  within : ∀ tag ∈ tags, e.span.start ≤ tag.span.start ∧ tag.span.stop ≤ e.span.stop
  after : ∀ tag ∈ after, e.span.stop ≤ tag.span.start

theorem around_of_at? (hscan : scan t = .ok roots) (he : at? roots way = some e) :
    ∃ before tags after, Tag.read t = (before ++ (tags ++ after), none) ∧ Around e before tags after
      ∧ e.span.start < e.span.stop ∧ e.span.stop ≤ t.length := by
  rcases (spells_scan hscan).split he with ⟨before, tags, after, htags, hspells⟩
  have horder := Tag.inOrder_readFrom 0 0 t (Nat.zero_le _)
  rw [Nat.zero_add, Nat.zero_add] at horder
  change Tag.InOrder 0 t.length (Tag.read t).1 at horder
  rw [htags] at horder
  -- The first and the last tag of an element are where it starts and stops.
  rcases hspells.ends with ⟨⟨first, hfirst, hstart⟩, last, hlast, hstop⟩
  have hfirstMem := List.mem_of_head? hfirst
  have hlastMem := List.mem_of_getLast? hlast
  have hwithin : ∀ tag ∈ tags, e.span.start ≤ tag.span.start ∧ tag.span.stop ≤ e.span.stop := by
    intro tag htag
    rw [← hstart, ← hstop]
    exact ⟨horder.right.left.head_le hfirst htag, horder.right.left.le_last hlast htag⟩
  have hproper := horder.mem (List.mem_append_right before (List.mem_append_left after hlastMem))
  have hle := (hwithin last hlastMem).1
  refine ⟨before, tags, after, Prod.ext htags (scan_eq_ok hscan).1, ⟨hspells, fun tag htag => ?_, hwithin,
    fun tag htag => ?_⟩, by omega, by omega⟩
  · rw [← hstart]
    exact horder.append_le htag (List.mem_append_left _ hfirstMem)
  · rw [← hstop]
    exact horder.right.append_le hlastMem htag

/-- The tags of an element are those that are read from its own text. -/
theorem stretch_of_at? (hscan : scan t = .ok roots) (he : at? roots way = some e)
    (hends : Tag.Ends (t.take e.span.start)) :
    ∃ p own rest, p = t.take e.span.start ∧ Stretch t e p own rest := by
  rcases around_of_at? hscan he with ⟨before, tags, after, hread, haround, hproper, hle⟩
  rcases exists_parts hproper.le hle with ⟨p, own, rest, rfl, hstart, hstop⟩
  have htake : (p ++ (own ++ rest)).take e.span.start = p := by
    rw [← hstart, List.take_left]
  rw [htake] at hends
  have hbefore := haround.before
  have hwithin := haround.within
  have hafter := haround.after
  rw [← hstart] at hbefore hwithin
  rw [← hstop] at hwithin hafter
  -- Nothing goes on from the first part into the element.
  rcases Tag.readFrom_parts hread (.inr hends) (by rwa [Nat.zero_add]) (by
    rw [Nat.zero_add]
    intro tag htag
    rcases List.mem_append.mp htag with htag | htag
    · exact (hwithin tag htag).1
    · exact (Nat.le_add_right _ _).trans (hafter tag htag)) with ⟨hreadFirst, hreadBehind⟩
  rw [Nat.zero_add] at hreadBehind
  -- The element ends with the bracket of its last tag, and nothing goes on from there.
  have hbracket : own.getLast? = some '>' := by
    rcases haround.spells.ends.2 with ⟨last, hlast, hlastStop⟩
    rcases Tag.readFrom_last (by
      rw [hreadBehind]
      exact List.mem_append_left after (List.mem_of_getLast? hlast)) with ⟨n, hn, hlastChar⟩
    have hlength : n = own.length := by omega
    rwa [hlength, List.take_left] at hlastChar
  have hendsOwn : Tag.Ends own := by
    intro c hc
    rw [hbracket] at hc
    rw [← Option.some.inj hc]
    decide
  have hreadOwn := (Tag.readFrom_parts hreadBehind (.inr hendsOwn) (fun tag htag => (hwithin tag htag).2)
    hafter).1
  refine ⟨p, own, rest, htake.symm, rfl, ?_, ?_, congrArg Prod.snd hreadFirst, fun r t => ?_⟩
  · rw [hstop, hstart]
  · rintro rfl
    exact absurd hbracket (by simp)
  · refine goOn_append (.inr hendsOwn) (congrArg Prod.snd hreadOwn) ?_
    rw [hreadOwn]
    exact haround.spells.foldlM r

/-! ### Reading on without it -/

theorem goOn_eq_ok {n : Nat} {r r' : Reading} : r.goOn n t = .ok r' ↔
    (Tag.readFrom n 0 t).2 = none ∧ (Tag.readFrom n 0 t).1.foldlM Reading.step r = .ok r' := by
  unfold Reading.goOn
  cases (Tag.readFrom n 0 t).1.foldlM Reading.step r with
  | error f => simp [bind, Except.bind]
  | ok r₁ => cases (Tag.readFrom n 0 t).2 <;> simp [bind, Except.bind]

theorem scan_eq_ok_iff : scan t = .ok roots ↔ Reading.goOn ⟨[], []⟩ 0 t = .ok ⟨[], roots.reverse⟩ := by
  rw [scan_eq]
  cases Reading.goOn ⟨[], []⟩ 0 t with
  | error f => simp [Except.bind]
  | ok r =>
      rcases r with ⟨stack, found⟩
      cases stack with
      | nil => simp [Except.bind, Reading.finish, List.reverse_eq_iff]
      | cons o stack => simp [Except.bind, Reading.finish]

/-- Reading goes through the first of two parts. -/
theorem goOn_split {n : Nat} {r r' : Reading} (hparts : Tag.Parts p rest)
    (hwhole : (Tag.readFrom n 0 p).2 = none) (h : r.goOn n (p ++ rest) = .ok r') :
    ∃ r₁, r.goOn n p = .ok r₁ ∧ r₁.goOn (n + p.length) rest = .ok r' := by
  have hfold := (goOn_eq_ok.mp h).2
  rw [Tag.readFrom_append hparts (Nat.zero_le _) hwhole] at hfold
  rcases foldlM_append_eq_ok.mp hfold with ⟨r₁, hfirst, -⟩
  rw [goOn_append hparts hwhole hfirst] at h
  exact ⟨r₁, goOn_eq_ok.mpr ⟨hwhole, hfirst⟩, h⟩

theorem length_add (r : Reading) (e : Route) : (r.add e).stack.length = r.stack.length := by
  rcases r with ⟨stack, roots⟩
  cases stack <;> rfl

/-- Whether a tag can be read is a question of how many elements are open. -/
theorem step_of_depth {r r' r₁' : Reading} {tag : Tag} (hdepth : r.stack.length = r'.stack.length)
    (hstep : r'.step (tag.move k) = .ok r₁') :
    ∃ r₁, r.step tag = .ok r₁ ∧ r₁.stack.length = r₁'.stack.length := by
  cases tag with
  | opening tag =>
      rw [Tag.move, Reading.step] at hstep
      rw [Reading.step]
      by_cases hself : tag.selfClosing = true
      · rw [if_pos hself] at hstep ⊢
        refine ⟨_, rfl, ?_⟩
        rw [← Except.ok.inj hstep, length_add, length_add, hdepth]
      · rw [if_neg hself] at hstep ⊢
        refine ⟨_, rfl, ?_⟩
        rw [← Except.ok.inj hstep, List.length_cons, List.length_cons, hdepth]
  | closing span =>
      rcases r with ⟨stack, roots⟩
      rcases r' with ⟨stack', roots'⟩
      cases stack' with
      | nil => exact absurd hstep (by simp [Tag.move, Reading.step])
      | cons o' stack' =>
          cases stack with
          | nil => exact absurd hdepth (by simp)
          | cons o stack =>
              -- The innermost element is closed on both sides, whichever it is.
              refine ⟨_, rfl, ?_⟩
              rw [← Except.ok.inj hstep, length_add, length_add]
              exact Nat.succ.inj hdepth

theorem foldlM_of_depth {r r' r₁' : Reading} {tags : List Tag}
    (hdepth : r.stack.length = r'.stack.length)
    (hfold : (tags.map (Tag.move k)).foldlM Reading.step r' = .ok r₁') :
    ∃ r₁, tags.foldlM Reading.step r = .ok r₁ ∧ r₁.stack.length = r₁'.stack.length := by
  induction tags generalizing r r' with
  | nil => exact ⟨r, rfl, by rw [← Except.ok.inj hfold, hdepth]⟩
  | cons tag tags ih =>
      rcases foldlM_cons_eq_ok.mp hfold with ⟨r₂', hstep, hfold⟩
      rcases step_of_depth hdepth hstep with ⟨r₂, hstep₂, hdepth₂⟩
      rcases ih hdepth₂ hfold with ⟨r₁, hfold₁, hdepth₁⟩
      exact ⟨r₁, foldlM_cons_eq_ok.mpr ⟨r₂, hstep₂, hfold₁⟩, hdepth₁⟩

/-- What can be read at a place can be read further in front, if as many elements are
    open there. -/
theorem goOn_of_depth {n : Nat} {r r' r₁' : Reading} (hdepth : r.stack.length = r'.stack.length)
    (h : r'.goOn (n + k) t = .ok r₁') :
    ∃ r₁, r.goOn n t = .ok r₁ ∧ r₁.stack.length = r₁'.stack.length := by
  rcases goOn_eq_ok.mp h with ⟨hfault, hfold⟩
  rcases Tag.readFrom_move n 0 k t with ⟨htags, hnone⟩
  rw [htags] at hfold
  rcases foldlM_of_depth hdepth hfold with ⟨r₁, hfold₁, hdepth₁⟩
  exact ⟨r₁, goOn_eq_ok.mpr ⟨hnone.mp hfault, hfold₁⟩, hdepth₁⟩

/-- Without an element, and without some text behind it that has no tag, a text has
    the forest that the element was planted in. -/
theorem scan_cut {skipped kept : Text} (h : Stretch t e p own (skipped ++ kept)) (hends : Tag.Ends p)
    (hplain : '<' ∉ skipped) (hscan : scan t = .ok roots) :
    ∃ roots', scan (p ++ kept) = .ok roots'
      ∧ Planted p.length (own ++ skipped).length e roots' roots := by
  have htakes : ∀ r, Takes (own ++ skipped) p.length r (r.add e) := fun r =>
    (h.takes r).append (takes_plain hplain _ _)
  have htext : t = p ++ ((own ++ skipped) ++ kept) := by
    rw [h.text, List.append_assoc]
  rw [htext] at hscan
  rcases goOn_split (.inr hends) h.whole (scan_eq_ok_iff.mp hscan) with ⟨r₁, hfirst, hbehind⟩
  rw [Nat.zero_add, htakes] at hbehind
  -- The element leaves as many others open as there were before it.
  rcases goOn_of_depth (length_add r₁ e).symm hbehind with ⟨⟨stack, found⟩, hkept, hempty⟩
  rw [List.length_nil, List.length_eq_zero_iff] at hempty
  dsimp only at hempty
  subst hempty
  have hscan' : scan (p ++ kept) = .ok found.reverse := by
    rw [scan_eq_ok_iff, goOn_append (.inr hends) h.whole (goOn_eq_ok.mp hfirst).2, Nat.zero_add, hkept,
      List.reverse_reverse]
  refine ⟨found.reverse, hscan', ?_⟩
  -- Planted there again, the element gives the text and the forest there were.
  rcases scan_planted hscan' (.inr hends) (by
    rw [Tag.read, Tag.readFrom_append (.inr hends) (Nat.zero_le _) h.whole, Nat.zero_add]
    intro tag htag
    rcases List.mem_append.mp htag with htag | htag
    · have := (Tag.inOrder_readFrom 0 0 p (Nat.zero_le _)).mem htag
      omega
    · have := (Tag.inOrder_readFrom p.length 0 kept (Nat.zero_le _)).mem htag
      omega) (.inr hends) htakes with ⟨roots'', hscan'', hplanted⟩
  rw [hscan] at hscan''
  rwa [Except.ok.inj hscan'']

/-! ### Excerpts -/

/-- An element with the text that it stands for, wherever that is. -/
inductive Excerpt where
  | mk (path : Option Text) (selfClosing : Bool) (source : Text) (children : List Excerpt)

mutual

/-- An element with its text. -/
def excerpt (t : Text) : Route → Excerpt
  | ⟨span, path, selfClosing, children⟩ =>
    .mk path selfClosing ((t.drop span.start).take (span.stop - span.start)) (excerpts t children)

/-- Elements with their texts. -/
def excerpts (t : Text) : List Route → List Excerpt
  | [] => []
  | e :: es => excerpt t e :: excerpts t es

end

theorem excerpts_eq (t : Text) (es : List Route) : excerpts t es = es.map (excerpt t) := by
  induction es with
  | nil => rfl
  | cons e es ih => rw [excerpts, ih, List.map_cons]

theorem excerpt_eq (t : Text) (e : Route) : excerpt t e = .mk e.path e.selfClosing
    ((t.drop e.span.start).take (e.span.stop - e.span.start)) (e.children.map (excerpt t)) := by
  rw [← excerpts_eq]
  cases e
  rfl

/-- A forest, and the same one without the element at the end of a way. Of the others
    only those that the way leads through have another text. -/
inductive Pruned : (way : List Nat) → List Excerpt → List Excerpt → Prop where
  | here {before after : List Excerpt} {e : Excerpt} :
      Pruned [before.length] (before ++ e :: after) (before ++ after)
  | within {way : List Nat} {before after children children' : List Excerpt} {path : Option Text}
      {selfClosing : Bool} {source source' : Text} (inside : Pruned way children children') :
      Pruned (before.length :: way) (before ++ .mk path selfClosing source children :: after)
        (before ++ .mk path selfClosing source' children' :: after)

/-- Elements before a place have the same text whatever comes behind it. -/
theorem excerpts_before (h : Laid lo hi es) (hle : hi ≤ p.length) (u v : Text) :
    es.map (excerpt (p ++ u)) = es.map (excerpt (p ++ v)) := by
  induction h with
  | nil le => rfl
  | @cons lo hi e es start proper inside behind ihinside ih =>
      -- The source of the element ends before the cut, and that of each child before its end.
      have hbehind := behind.le
      have hchildren : e.children.map (excerpt (p ++ u)) = e.children.map (excerpt (p ++ v)) := by
        by_cases hnone : e.children = []
        · rw [hnone, List.map_nil, List.map_nil]
        · exact ihinside hnone (by omega)
      have hsource : ∀ w : Text, ((p ++ w).drop e.span.start).take (e.span.stop - e.span.start)
          = (p.drop e.span.start).take (e.span.stop - e.span.start) := fun w => by
        rw [List.drop_append_of_le_length (by omega), List.take_append_of_le_length]
        rw [List.length_drop]
        omega
      rw [List.map_cons, List.map_cons, excerpt_eq, excerpt_eq, hchildren, hsource u, hsource v, ih hle]

/-- Elements behind a place have the same text wherever they have moved to. -/
theorem excerpts_behind {mid : Text} (h : Laid lo hi es) (hle : p.length ≤ lo) (v : Text) :
    (es.map (shift mid.length)).map (excerpt (p ++ (mid ++ v))) = es.map (excerpt (p ++ v)) := by
  induction h with
  | nil le => rfl
  | @cons lo hi e es start proper inside behind ihinside ih =>
      have hchildren : (e.children.map (shift mid.length)).map (excerpt (p ++ (mid ++ v)))
          = e.children.map (excerpt (p ++ v)) := by
        by_cases hnone : e.children = []
        · rw [hnone]
          rfl
        · exact ihinside hnone (by omega)
      -- Behind the cut everything has moved by what has been put in.
      have hdrop : (p ++ (mid ++ v)).drop (e.span.start + mid.length) = (p ++ v).drop e.span.start := by
        obtain ⟨n, hn⟩ : ∃ n, e.span.start = p.length + n := ⟨e.span.start - p.length, by omega⟩
        rw [hn, show p.length + n + mid.length = p.length + (mid.length + n) by omega,
          List.drop_length_add_append, List.drop_length_add_append, List.drop_length_add_append]
      have hrest := ih (by omega)
      rw [List.map_cons, List.map_cons, List.map_cons, hrest, excerpt_eq, excerpt_eq, shift_eq]
      dsimp only [Span.move]
      rw [hdrop, hchildren, Nat.add_sub_add_right]

/-! ### The pruned forest -/

theorem Laid.left {before after : List Route} (h : Laid lo hi (before ++ after)) : Laid lo hi before := by
  induction before generalizing lo with
  | nil => exact .nil h.le
  | cons e before ih =>
      cases h with
      | cons start proper inside behind => exact .cons start proper inside (ih behind)

theorem Laid.right {before after : List Route} (h : Laid lo hi (before ++ after)) : Laid lo hi after := by
  induction before generalizing lo with
  | nil => exact h
  | cons e before ih =>
      cases h with
      | cons start proper inside behind => exact (ih behind).of_ge (by omega)

/-- Elements in order that end before a place lie before it. -/
theorem Laid.of_stops (h : Laid lo hi es) (hle : lo ≤ s) (hstops : ∀ e ∈ es, e.span.stop ≤ s) :
    Laid lo s es := by
  induction h with
  | nil le => exact .nil hle
  | @cons lo hi e es start proper inside behind ihinside ih =>
      exact .cons start proper inside (ih (hstops e (by simp)) fun c hc => hstops c (by simp [hc]))

/-- Elements in order that begin behind a place lie behind it. -/
theorem Laid.of_starts (h : Laid lo hi es) (hle : s ≤ hi) (hstarts : ∀ e ∈ es, s ≤ e.span.start) :
    Laid s hi es := by
  cases h with
  | nil le => exact .nil hle
  | cons start proper inside behind => exact .cons (hstarts _ (by simp)) proper inside behind

theorem Laid.at? (h : Laid lo hi es) (he : at? es way = some e) :
    lo ≤ e.span.start ∧ e.span.start < e.span.stop ∧ e.span.stop ≤ hi := by
  induction way generalizing es lo hi with
  | nil => exact absurd he (by simp [Route.at?])
  | cons i rest ih =>
      rcases at?_cons he with ⟨top, htop, ⟨-, rfl⟩ | hbelow⟩
      · have := h.mem (List.mem_of_getElem? htop)
        exact ⟨this.1, this.2.1, this.2.2.1⟩
      · rcases h.mem (List.mem_of_getElem? htop) with ⟨h1, -, h3, hinside⟩
        have := ih (hinside fun hnone => by
          rw [hnone, at?_nil] at hbelow
          exact absurd hbelow (by simp)) hbelow
        omega

/-- The way to an element leads through the one that its start lies in. -/
theorem Laid.way_through {before after : List Route} {top : Route}
    (h : Laid lo hi (before ++ top :: after)) (he : Route.at? (before ++ top :: after) way = some e)
    (hbefore : ∀ c ∈ before, c.span.stop ≤ e.span.start)
    (hafter : ∀ c ∈ after, e.span.start < c.span.start) :
    ∃ rest, way = before.length :: rest
      ∧ ((rest = [] ∧ top = e) ∨ Route.at? top.children rest = some e) := by
  cases way with
  | nil => exact absurd he (by simp [Route.at?])
  | cons i rest =>
      rcases at?_cons he with ⟨x, hx, hbelow⟩
      have hmem := h.mem (List.mem_of_getElem? hx)
      -- The element lies in the one at this place of the way, or is that one itself.
      have hwithin : x.span.start ≤ e.span.start ∧ e.span.start < x.span.stop := by
        rcases hbelow with ⟨-, rfl⟩ | hbelow
        · omega
        · have := (hmem.2.2.2 fun hnone => by
            rw [hnone, at?_nil] at hbelow
            exact absurd hbelow (by simp)).at? hbelow
          omega
      rcases Nat.lt_trichotomy i before.length with hi | rfl | hi
      · rw [List.getElem?_append_left hi] at hx
        have := hbefore x (List.mem_of_getElem? hx)
        omega
      · rw [List.getElem?_append_right (Nat.le_refl _), Nat.sub_self, List.getElem?_cons_zero,
          Option.some.injEq] at hx
        exact ⟨rest, rfl, hx ▸ hbelow⟩
      · rw [List.getElem?_append_right hi.le, show i - before.length = i - before.length - 1 + 1 by omega,
          List.getElem?_cons_succ] at hx
        have := hafter x (List.mem_of_getElem? hx)
        omega

/-- A forest with an element planted, without that element again. -/
theorem Planted.pruned {mid v : Text} {lo' hi' : Nat} (h : Planted p.length mid.length new es es')
    (hlaid : Laid lo hi es) (hlo : lo ≤ p.length) (hhi : p.length ≤ hi) (hlaid' : Laid lo' hi' es')
    (hnew : new.span.start = p.length) (hmid : mid ≠ []) (he : at? es' way = some new) :
    Pruned way (es'.map (excerpt (p ++ (mid ++ v)))) (es.map (excerpt (p ++ v))) := by
  have hpos := List.length_pos_of_ne_nil hmid
  -- What has been moved by the insertion begins further behind.
  have hmoved : ∀ after : List Route, (∀ c ∈ after, p.length ≤ c.span.start) →
      ∀ c ∈ after.map (shift mid.length), new.span.start < c.span.start := by
    intro after hahead c hc
    rcases List.mem_map.mp hc with ⟨d, hd, rfl⟩
    have := hahead d hd
    rw [shift_eq, hnew]
    change p.length < d.span.start + mid.length
    omega
  -- The way to the new element goes through those around it, and ends at its place.
  induction h generalizing lo hi lo' hi' way with
  | @here before after ended ahead =>
      rcases hlaid'.way_through he (by rw [hnew]; exact ended) (hmoved after ahead) with
        ⟨rest, rfl, ⟨rfl, -⟩ | hbelow⟩
      · rw [List.map_append, List.map_append, List.map_cons,
          excerpts_before (hlaid.left.of_stops hlo ended) (Nat.le_refl _) (mid ++ v) v,
          excerpts_behind (hlaid.right.of_starts hhi ahead) (Nat.le_refl _) v]
        have hlength : (before.map (excerpt (p ++ v))).length = before.length := List.length_map _
        rw [← hlength]
        exact .here
      · -- The new element is none of its own descendants.
        have hchildren := (hlaid'.mem (List.mem_append_right before List.mem_cons_self)).2.2.2
        have := (hchildren fun hnone => by
          rw [hnone, at?_nil] at hbelow
          exact absurd hbelow (by simp)).at? hbelow
        omega
  | @within before after children' e ended around ahead inside ih =>
      rcases hlaid'.way_through he (by rw [hnew]; exact ended) (hmoved after ahead) with
        ⟨rest, rfl, ⟨rfl, hsame⟩ | hbelow⟩
      · -- The new element begins at the place, and the one around it before it.
        rw [← hsame] at hnew
        change e.span.start = _ at hnew
        omega
      · have hmem := hlaid.mem (List.mem_append_right before List.mem_cons_self)
        have hmem' := hlaid'.mem (List.mem_append_right before List.mem_cons_self)
        -- Inside an element its children are laid between its two tags.
        have hinside : Laid (e.span.start + 1) (e.span.stop - 1) e.children := by
          by_cases hnone : e.children = []
          · rw [hnone]
            exact .nil (by omega)
          · exact hmem.2.2.2 hnone
        have hpruned := ih hinside (by omega) (by omega) (hmem'.2.2.2 fun hnone => by
          rw [hnone, at?_nil] at hbelow
          exact absurd hbelow (by simp)) hbelow
        have hafter : Laid lo hi after := by
          cases hlaid.right with
          | cons start proper inside behind => exact behind.of_ge (by omega)
        rw [List.map_append, List.map_append, List.map_cons, List.map_cons, excerpt_eq, excerpt_eq,
          excerpts_before (hlaid.left.of_stops hlo ended) (Nat.le_refl _) (mid ++ v) v,
          excerpts_behind (hafter.of_starts hhi ahead) (Nat.le_refl _) v]
        have hlength : (before.map (excerpt (p ++ v))).length = before.length := List.length_map _
        rw [← hlength]
        exact .within hpruned

/-! ### Cutting -/

/-- What is cut out with an element has no tag. -/
theorem cut_parts (t : Text) (e : Route) : ∃ skipped kept, t.drop e.span.stop = skipped ++ kept
    ∧ '<' ∉ skipped ∧ cut t e = t.take e.span.start ++ kept := by
  unfold cut
  -- Behind the element, a line break and the blanks behind it go with it.
  cases hrest : t.drop e.span.stop with
  | nil => exact ⟨[], [], rfl, by simp, rfl⟩
  | cons c more =>
      by_cases hc : c = '\n'
      · subst hc
        refine ⟨'\n' :: more.takeWhile isIndent, more.dropWhile isIndent, ?_, ?_, rfl⟩
        · rw [List.cons_append, List.takeWhile_append_dropWhile]
        · rw [List.mem_cons, not_or]
          refine ⟨by decide, fun hmem => ?_⟩
          exact absurd (List.mem_takeWhile_imp hmem) (by decide)
      · refine ⟨[], c :: more, rfl, by simp, ?_⟩
        dsimp only
        split
        · next heq => exact absurd (List.cons.inj heq).1 hc
        · rfl

/-- Cutting an element out of a text prunes its forest. -/
theorem forest_cut (h : forest t file = .ok roots) (he : at? roots way = some e)
    (hstart : ∀ c ∈ (t.take e.span.start).getLast?, isBlank c = true ∨ c = '>') :
    ∃ roots', forest (cut t e) file = .ok roots'
      ∧ Pruned way (roots.map (excerpt t)) (roots'.map (excerpt (cut t e))) := by
  have hscan := forest_eq_ok.mp h
  -- The text in front of the element ends where no word goes on.
  have hends : Tag.Ends (t.take e.span.start) := by
    intro c hc
    rcases hstart c hc with hblank | rfl
    · refine ⟨Text.not_isWord_of_isBlank hblank, ?_, ?_⟩ <;>
      · rintro rfl
        exact absurd hblank (by decide)
    · decide
  rcases stretch_of_at? hscan he hends with ⟨p, own, rest, hp, hstretch⟩
  rcases cut_parts t e with ⟨skipped, kept, hrest, hplain, hcut⟩
  rw [← hp] at hends hcut
  -- The cut goes from where the element starts to where it stops, with the blanks it leaves behind.
  have hstop : e.span.stop = (p ++ own).length := by
    rw [hstretch.span, List.length_append]
  rw [hstop, hstretch.text, ← List.append_assoc, List.drop_left] at hrest
  subst hrest
  rcases scan_cut hstretch hends hplain hscan with ⟨roots', hscan', hplanted⟩
  refine ⟨roots', forest_eq_ok.mpr (hcut ▸ hscan'), ?_⟩
  have htext : t = p ++ ((own ++ skipped) ++ kept) := by
    rw [hstretch.text, List.append_assoc]
  have hlaid := laid_scan hscan
  rw [hcut, htext]
  refine hplanted.pruned (laid_scan hscan') (Nat.zero_le _) ?_ hlaid ?_ ?_ he
  · rw [List.length_append]
    omega
  · rw [hstretch.span]
  · exact List.append_ne_nil_of_left_ne_nil hstretch.visible _

namespace Cuts

/-- An element with one child. -/
def nested : Text := "<Route path=\"/inst\">\n  <Route path=\"a\" />\n</Route>".toList

/-- The child. -/
def inner : Route := ⟨⟨23, 41⟩, some "a".toList, true, []⟩

/-- The element. -/
def outer : Route := ⟨⟨0, 50⟩, some "/inst".toList, false, [inner]⟩

theorem forest_cut_inner : ∃ roots', forest (cut nested inner) "route.tsx".toList = .ok roots'
    ∧ Pruned [0, 0] ([outer].map (excerpt nested)) (roots'.map (excerpt (cut nested inner))) := by
  have hread : Tag.read nested = ([.opening ⟨⟨0, 20⟩, some "/inst".toList, false⟩,
      .opening ⟨⟨23, 41⟩, some "a".toList, true⟩, .closing ⟨42, 50⟩], none) := by
    decide
  have hforest : forest nested "route.tsx".toList = .ok [outer] := by
    rw [forest, scan, hread]
    rfl
  have hlast : (nested.take inner.span.start).getLast? = some ' ' := by decide
  refine forest_cut hforest rfl fun c hc => ?_
  rw [hlast] at hc
  rw [← Option.some.inj hc]
  decide

end Cuts

end Route

end RouteScaffold

import RouteScaffold.Proofs.Route.Order

/-!
# Planting an Element

What becomes of the forest of a text when the text of one more element is written
into it, outside every tag. The elements that end before the place stay, those
that start behind it move on, those around it grow, and the new one stands among
the children of the innermost of these: `Planted` says it of two forests.

That the tags around the place still match is no question of the text any more.
The same tags are read with the same result whether or not the innermost open
element has one more child, so the relation is kept by one step of the reading
(`Growing.step`), and thereby by all of it.

## Main definitions

* `Route.shift`: An element further on in the text.
* `Route.Laid`: Elements one behind the other, each with its children within it.
* `Route.Planted`: A forest and the same one with a new element.
* `Route.Growing`: The same for elements in the course of reading.

## Theorems

* `laid_scan`: The elements of a text are laid out in order.
* `scan_planted`: A text with an element written into it has the forest with the
  element planted.
* `module?_planted`, `module?_around`: What is found in it.
-/

namespace RouteScaffold

namespace Route

/-! ### Elements in order -/

/-- Elements between two places, one behind the other, each of them with its
    children within it. -/
inductive Laid : (lo hi : Nat) → List Route → Prop where
  | nil {lo hi : Nat} (le : lo ≤ hi) : Laid lo hi []
  | cons {lo hi : Nat} {e : Route} {rest : List Route} (start : lo ≤ e.span.start)
      (proper : e.span.start < e.span.stop)
      (inside : e.children ≠ [] → Laid (e.span.start + 1) (e.span.stop - 1) e.children)
      (behind : Laid e.span.stop hi rest) : Laid lo hi (e :: rest)

variable {lo hi hi' n : Nat} {e : Route} {es : List Route}

theorem Laid.le (h : Laid lo hi es) : lo ≤ hi := by
  induction h with
  | nil le => exact le
  | cons start proper inside behind ihinside ih => omega

theorem Laid.of_le (h : Laid lo hi es) (hle : hi ≤ hi') : Laid lo hi' es := by
  induction h with
  | nil le => exact .nil (le.trans hle)
  | cons start proper inside behind ihinside ih => exact .cons start proper inside (ih hle)

theorem Laid.concat (h : Laid lo hi es) (hstart : hi ≤ e.span.start)
    (hproper : e.span.start < e.span.stop)
    (hinside : e.children ≠ [] → Laid (e.span.start + 1) (e.span.stop - 1) e.children) :
    Laid lo e.span.stop (es ++ [e]) := by
  induction h with
  | nil le => exact .cons (le.trans hstart) hproper hinside (.nil (Nat.le_refl _))
  | cons start proper inside behind ihinside ih => exact .cons start proper inside (ih hstart)

theorem Laid.mem (h : Laid lo hi es) (he : e ∈ es) : lo ≤ e.span.start
    ∧ e.span.start < e.span.stop ∧ e.span.stop ≤ hi
    ∧ (e.children ≠ [] → Laid (e.span.start + 1) (e.span.stop - 1) e.children) := by
  induction h with
  | nil le => exact absurd he (by simp)
  | cons start proper inside behind ihinside ih =>
      rcases List.mem_cons.mp he with rfl | he
      · exact ⟨start, proper, behind.le, inside⟩
      · rcases ih he with ⟨h1, h2, h3, h4⟩
        exact ⟨by omega, h2, h3, h4⟩

/-- A child lies within its element. -/
theorem Laid.child (h : Laid lo hi es) (he : e ∈ es) {c : Route} (hc : c ∈ e.children) :
    e.span.start < c.span.start ∧ c.span.stop < e.span.stop := by
  have := ((h.mem he).2.2.2 (List.ne_nil_of_mem hc)).mem hc
  omega

theorem Laid.of_ge (h : Laid lo hi es) (hle : n ≤ lo) : Laid n hi es := by
  cases h with
  | nil le => exact .nil (hle.trans le)
  | cons start proper inside behind => exact .cons (hle.trans start) proper inside behind

/-- Elements in the course of reading, up to a place: the finished ones are in
    order behind the tag of the open element that they lie in. -/
def LaidOpen : (hi : Nat) → List Open → (roots : List Route) → Prop
  | hi, [], roots => Laid 0 hi roots.reverse
  | hi, o :: stack, roots => o.tag.span.start < o.tag.span.stop
      ∧ Laid o.tag.span.stop hi o.children.reverse ∧ LaidOpen o.tag.span.start stack roots

theorem LaidOpen.of_le {stack : List Open} {roots : List Route} (h : LaidOpen hi stack roots)
    (hle : hi ≤ hi') : LaidOpen hi' stack roots := by
  cases stack with
  | nil => exact Laid.of_le h hle
  | cons o stack => exact ⟨h.1, h.2.1.of_le hle, h.2.2⟩

theorem LaidOpen.add {r : Reading} (h : LaidOpen hi r.stack r.roots) (hstart : hi ≤ e.span.start)
    (hproper : e.span.start < e.span.stop)
    (hinside : e.children ≠ [] → Laid (e.span.start + 1) (e.span.stop - 1) e.children) :
    LaidOpen e.span.stop (r.add e).stack (r.add e).roots := by
  rcases r with ⟨stack, roots⟩
  cases stack with
  | nil =>
      change Laid 0 e.span.stop (e :: roots).reverse
      rw [List.reverse_cons]
      exact Laid.concat h hstart hproper hinside
  | cons o stack =>
      refine ⟨h.1, ?_, h.2.2⟩
      change Laid o.tag.span.stop e.span.stop (e :: o.children).reverse
      rw [List.reverse_cons]
      exact h.2.1.concat hstart hproper hinside

/-- A tag behind everything that has been read keeps the order. -/
theorem LaidOpen.step {r r' : Reading} {tag : Tag} (h : LaidOpen hi r.stack r.roots)
    (hstart : hi ≤ tag.span.start) (hproper : tag.span.start < tag.span.stop)
    (hstep : r.step tag = .ok r') : LaidOpen tag.span.stop r'.stack r'.roots := by
  cases tag with
  | opening tag =>
      rw [Reading.step] at hstep
      split at hstep
      · rw [← Except.ok.inj hstep]
        exact h.add (e := ⟨tag.span, tag.path, true, []⟩) hstart hproper fun hne => absurd rfl hne
      · rw [← Except.ok.inj hstep]
        exact ⟨hproper, .nil (Nat.le_refl _), h.of_le hstart⟩
  | closing span =>
      rcases r with ⟨stack, roots⟩
      cases stack with
      | nil => exact absurd hstep (by simp [Reading.step])
      | cons o stack =>
          -- The children lie between the two tags of their element.
          rw [← Except.ok.inj hstep]
          have hinside := h.2.1.le
          have := h.1
          change hi ≤ span.start at hstart
          change span.start < span.stop at hproper
          refine LaidOpen.add (r := ⟨stack, roots⟩) (e := o.close span.stop) h.2.2 (Nat.le_refl _)
            (by change o.tag.span.start < span.stop; omega) fun _ => ?_
          change Laid (o.tag.span.start + 1) (span.stop - 1) o.children.reverse
          exact (h.2.1.of_ge (by omega)).of_le (by omega)

/-- Tags are taken in one after the other. -/
theorem foldlM_cons_eq_ok {tag : Tag} {tags : List Tag} {r r' : Reading} :
    (tag :: tags).foldlM Reading.step r = .ok r'
      ↔ ∃ r₁, r.step tag = .ok r₁ ∧ tags.foldlM Reading.step r₁ = .ok r' := by
  rw [List.foldlM_cons]
  cases r.step tag <;> simp [bind, Except.bind]

theorem foldlM_append_eq_ok {tags tags' : List Tag} {r r' : Reading} :
    (tags ++ tags').foldlM Reading.step r = .ok r'
      ↔ ∃ r₁, tags.foldlM Reading.step r = .ok r₁ ∧ tags'.foldlM Reading.step r₁ = .ok r' := by
  rw [List.foldlM_append]
  cases tags.foldlM Reading.step r <;> simp [bind, Except.bind]

theorem LaidOpen.foldlM {tags : List Tag} {r r' : Reading} (h : LaidOpen lo r.stack r.roots)
    (horder : Tag.InOrder lo hi tags) (hfold : tags.foldlM Reading.step r = .ok r') :
    LaidOpen hi r'.stack r'.roots := by
  induction horder generalizing r with
  | nil le =>
      rw [← Except.ok.inj hfold]
      exact h.of_le le
  | cons start proper rest ih =>
      rcases foldlM_cons_eq_ok.mp hfold with ⟨r₁, hstep, hfold⟩
      exact ih (h.step start proper hstep) hfold

theorem forest_eq_ok {t file : Text} {roots : List Route} :
    forest t file = .ok roots ↔ scan t = .ok roots := by
  unfold forest
  cases scan t <;> simp

/-- Scanning is reading all tags of a text that has no fault. -/
theorem scan_eq_ok {t : Text} {roots : List Route} (h : scan t = .ok roots) :
    (Tag.read t).2 = none ∧ ∃ r, (Tag.read t).1.foldlM Reading.step ⟨[], []⟩ = .ok r
      ∧ r.stack = [] ∧ r.roots.reverse = roots := by
  unfold scan at h
  rcases hread : Tag.read t with ⟨tags, fault⟩
  rw [hread] at h
  dsimp only at h ⊢
  cases hfold : tags.foldlM Reading.step ⟨[], []⟩ with
  -- A tag that does not fit, a fault behind the tags, or a tag left open ends in no routes.
  | error f =>
      rw [hfold] at h
      exact absurd h (by simp [bind, Except.bind])
  | ok r =>
      rw [hfold] at h
      cases fault with
      | some f => exact absurd h (by simp [bind, Except.bind])
      | none =>
          rcases r with ⟨stack, found⟩
          cases stack with
          | cons o stack => exact absurd h (by simp [bind, Except.bind, Reading.finish])
          | nil => exact ⟨rfl, _, rfl, rfl, Except.ok.inj h⟩

/-- The elements of a text are laid out in order. -/
theorem laid_scan {t : Text} {roots : List Route} (h : scan t = .ok roots) :
    Laid 0 t.length roots := by
  rcases scan_eq_ok h with ⟨-, ⟨stack, found⟩, hfold, hstack, rfl⟩
  have horder := Tag.inOrder_readFrom 0 0 t (Nat.zero_le _)
  rw [Nat.zero_add, Nat.zero_add] at horder
  have hnone : LaidOpen 0 [] [] := Laid.nil (Nat.le_refl 0)
  have := hnone.foldlM (r := ⟨[], []⟩) horder hfold
  dsimp only at hstack
  subst hstack
  exact this

/-! ### Planting -/

mutual

/-- An element further on in the text. -/
def shift (k : Nat) : Route → Route
  | ⟨span, path, selfClosing, children⟩ => ⟨span.move k, path, selfClosing, shiftAll k children⟩

/-- Elements further on in the text. -/
def shiftAll (k : Nat) : List Route → List Route
  | [] => []
  | e :: es => shift k e :: shiftAll k es

end

theorem shiftAll_eq (k : Nat) (es : List Route) : shiftAll k es = es.map (shift k) := by
  induction es with
  | nil => rfl
  | cons e es ih => rw [shiftAll, ih, List.map_cons]

theorem shift_eq (k : Nat) (e : Route) :
    shift k e = ⟨e.span.move k, e.path, e.selfClosing, e.children.map (shift k)⟩ := by
  rw [← shiftAll_eq]
  cases e
  rfl

/-- A forest, and the same one with a new element whose text of some length stands
    at a place that is in no tag. -/
inductive Planted (s k : Nat) (new : Route) : List Route → List Route → Prop where
  /-- The place is in none of the elements. -/
  | here {before after : List Route} (ended : ∀ e ∈ before, e.span.stop ≤ s)
      (ahead : ∀ e ∈ after, s ≤ e.span.start) :
      Planted s k new (before ++ after) (before ++ new :: after.map (shift k))
  /-- The place is in one of the elements. -/
  | within {before after children' : List Route} {e : Route} (ended : ∀ e ∈ before, e.span.stop ≤ s)
      (around : e.span.start < s ∧ s < e.span.stop) (ahead : ∀ e ∈ after, s ≤ e.span.start)
      (inside : Planted s k new e.children children') :
      Planted s k new (before ++ e :: after) (before ++
        ⟨⟨e.span.start, e.span.stop + k⟩, e.path, e.selfClosing, children'⟩ :: after.map (shift k))

section Planting

variable {s k : Nat} {new : Route} {roots roots' es es' : List Route}

/-- An element behind the place moves on. -/
theorem Planted.concat (h : Planted s k new es es') (hstart : s ≤ e.span.start) :
    Planted s k new (es ++ [e]) (es' ++ [shift k e]) := by
  have hahead : ∀ after : List Route, (∀ e ∈ after, s ≤ e.span.start) →
      ∀ c ∈ after ++ [e], s ≤ c.span.start := by
    intro after h c hc
    rcases List.mem_append.mp hc with hc | hc
    · exact h c hc
    · rw [List.mem_singleton.mp hc]
      exact hstart
  cases h with
  | here ended ahead =>
      have := @Planted.here s k new _ _ ended (hahead _ ahead)
      rwa [List.map_append, ← List.append_assoc, ← List.cons_append, ← List.append_assoc] at this
  | within ended around ahead inside =>
      have := Planted.within ended around (hahead _ ahead) inside
      rwa [List.map_append, ← List.cons_append, ← List.append_assoc, ← List.cons_append,
        ← List.append_assoc] at this

/-- What has been read lies before a place, or around it. -/
structure Settled (s : Nat) (stack : List Open) (roots : List Route) : Prop where
  open_before : ∀ o ∈ stack, o.tag.span.start < s ∧ ∀ c ∈ o.children, c.span.stop ≤ s
  ended : ∀ e ∈ roots, e.span.stop ≤ s

/-- Elements in the course of reading behind a place, without and with the new
    element. Those that were opened behind the place stand in front. -/
inductive Growing (s k : Nat) (new : Route) : Reading → Reading → Prop where
  | opened {tag : OpeningTag} {children : List Route} {stack stack' : List Open}
      {roots roots' : List Route} (start : s ≤ tag.span.start)
      (rest : Growing s k new ⟨stack, roots⟩ ⟨stack', roots'⟩) :
      Growing s k new ⟨⟨tag, children⟩ :: stack, roots⟩
        ⟨⟨{ tag with span := tag.span.move k }, children.map (shift k)⟩ :: stack', roots'⟩
  | around {tag : OpeningTag} {children children' : List Route} {stack : List Open}
      {roots : List Route} (start : tag.span.start < s) (settled : Settled s stack roots)
      (inside : Planted s k new children.reverse children'.reverse) :
      Growing s k new ⟨⟨tag, children⟩ :: stack, roots⟩ ⟨⟨tag, children'⟩ :: stack, roots⟩
  | roots {roots roots' : List Route} (inside : Planted s k new roots.reverse roots'.reverse) :
      Growing s k new ⟨[], roots⟩ ⟨[], roots'⟩

/-- Adding the new element where everything lies before it. -/
theorem Growing.start {r : Reading} (h : Settled s r.stack r.roots) :
    Growing s k new r (r.add new) := by
  have hnew : ∀ es : List Route, (∀ e ∈ es, e.span.stop ≤ s) →
      Planted s k new es.reverse (new :: es).reverse := by
    intro es hes
    have := @Planted.here s k new es.reverse []
      (fun e he => hes e (List.mem_reverse.mp he)) fun e he => absurd he (by simp)
    rwa [List.append_nil, List.map_nil, ← List.reverse_cons] at this
  rcases r with ⟨stack, roots⟩
  cases stack with
  | nil => exact .roots (hnew _ h.ended)
  | cons o stack =>
      have ho := h.open_before o (by simp)
      exact .around ho.1 ⟨fun o ho => h.open_before o (by simp [ho]), h.ended⟩ (hnew _ ho.2)

/-- An element behind the place is added on either side. -/
theorem Growing.add {r r' : Reading} (h : Growing s k new r r') (hstart : s ≤ e.span.start) :
    Growing s k new (r.add e) (r'.add (shift k e)) := by
  cases h with
  | opened start rest => exact @Growing.opened s k new _ (e :: _) _ _ _ _ start rest
  | around start settled inside =>
      refine .around start settled ?_
      rw [List.reverse_cons, List.reverse_cons]
      exact inside.concat hstart
  | roots inside =>
      refine .roots ?_
      rw [List.reverse_cons, List.reverse_cons]
      exact inside.concat hstart

/-- The element around the place is added on either side. -/
theorem Growing.close {stack : List Open} {children' : List Route} (h : Settled s stack roots)
    (haround : e.span.start < s ∧ s < e.span.stop) (hinside : Planted s k new e.children children') :
    Growing s k new (Reading.add ⟨stack, roots⟩ e) (Reading.add ⟨stack, roots⟩
      ⟨⟨e.span.start, e.span.stop + k⟩, e.path, e.selfClosing, children'⟩) := by
  have hlast : ∀ es : List Route, (∀ e ∈ es, e.span.stop ≤ s) → Planted s k new (e :: es).reverse
      ((⟨⟨e.span.start, e.span.stop + k⟩, e.path, e.selfClosing, children'⟩ : Route) :: es).reverse := by
    intro es hes
    rw [List.reverse_cons, List.reverse_cons]
    exact @Planted.within s k new _ [] _ _ (fun e he => hes e (List.mem_reverse.mp he)) haround
      (fun e he => absurd he (by simp)) hinside
  cases stack with
  | nil => exact .roots (hlast _ h.ended)
  | cons o stack =>
      have ho := h.open_before o (by simp)
      exact .around ho.1 ⟨fun o ho => h.open_before o (by simp [ho]), h.ended⟩ (hlast _ ho.2)

/-- One tag behind the place does the same to both. -/
theorem Growing.step {r r' r₁ : Reading} {tag : Tag} (h : Growing s k new r r')
    (hstart : s ≤ tag.span.start) (hproper : tag.span.start < tag.span.stop)
    (hstep : r.step tag = .ok r₁) :
    ∃ r₁', r'.step (tag.move k) = .ok r₁' ∧ Growing s k new r₁ r₁' := by
  cases tag with
  | opening tag =>
      rw [Reading.step] at hstep
      split at hstep
      · next hself =>
          refine ⟨_, by rw [Tag.move, Reading.step, if_pos hself], ?_⟩
          rw [← Except.ok.inj hstep]
          have := h.add (e := ⟨tag.span, tag.path, true, []⟩) hstart
          rwa [shift_eq, List.map_nil] at this
      · next hself =>
          refine ⟨_, by rw [Tag.move, Reading.step, if_neg hself], ?_⟩
          rw [← Except.ok.inj hstep]
          exact @Growing.opened s k new _ [] _ _ _ _ hstart h
  | closing span =>
      cases h with
      | @opened tag children stack stack' roots roots' start rest =>
          -- The element that is closed was opened behind the place, so all of it has moved.
          refine ⟨_, rfl, ?_⟩
          rw [← Except.ok.inj hstep]
          have := rest.add (e := Open.close ⟨tag, children⟩ span.stop) start
          rwa [shift_eq, Open.close, List.map_reverse] at this
      | @around tag children children' stack roots start settled inside =>
          -- The element that is closed is around the place, so only its end has moved.
          refine ⟨_, rfl, ?_⟩
          rw [← Except.ok.inj hstep]
          exact Growing.close (e := Open.close ⟨tag, children⟩ span.stop) settled
            ⟨start, hstart.trans_lt hproper⟩ inside
      | roots inside => exact absurd hstep (by simp [Reading.step])

theorem Growing.foldlM {tags : List Tag} {r r' r₁ : Reading} (h : Growing s k new r r')
    (horder : Tag.InOrder lo hi tags) (hlo : s ≤ lo) (hfold : tags.foldlM Reading.step r = .ok r₁) :
    ∃ r₁', (tags.map (Tag.move k)).foldlM Reading.step r' = .ok r₁' ∧ Growing s k new r₁ r₁' := by
  induction horder generalizing r r' with
  | nil le =>
      rw [← Except.ok.inj hfold]
      exact ⟨_, rfl, h⟩
  | @cons lo hi tag tags start proper rest ih =>
      rcases foldlM_cons_eq_ok.mp hfold with ⟨r₂, hstep, hfold⟩
      rcases h.step (hlo.trans start) proper hstep with ⟨r₂', hstep', hgrow⟩
      rcases ih hgrow (by omega) hfold with ⟨r₁', hfold', hgrow⟩
      exact ⟨r₁', foldlM_cons_eq_ok.mpr ⟨r₂', hstep', hfold'⟩, hgrow⟩

/-- Tags that end before a place settle there. -/
theorem Settled.step {r r' : Reading} {tag : Tag} (h : Settled s r.stack r.roots)
    (hproper : tag.span.start < tag.span.stop) (hstop : tag.span.stop ≤ s)
    (hstep : r.step tag = .ok r') : Settled s r'.stack r'.roots := by
  -- A finished element goes to the innermost open one, or to the roots.
  have hadd : ∀ (r : Reading) (e : Route), Settled s r.stack r.roots → e.span.stop ≤ s →
      Settled s (r.add e).stack (r.add e).roots := by
    rintro ⟨stack, roots⟩ e h he
    cases stack with
    | nil => exact ⟨h.open_before, fun c hc => (List.mem_cons.mp hc).elim (· ▸ he) (h.ended c)⟩
    | cons o stack =>
        refine ⟨fun o' ho' => ?_, h.ended⟩
        rcases List.mem_cons.mp ho' with rfl | ho'
        · have ho := h.open_before o (by simp)
          exact ⟨ho.1, fun c hc => (List.mem_cons.mp hc).elim (· ▸ he) (ho.2 c)⟩
        · exact h.open_before o' (by simp [ho'])
  cases tag with
  | opening tag =>
      rw [Reading.step] at hstep
      split at hstep
      · rw [← Except.ok.inj hstep]
        exact hadd _ _ h hstop
      · rw [← Except.ok.inj hstep]
        refine ⟨fun o ho => ?_, h.ended⟩
        rcases List.mem_cons.mp ho with rfl | ho
        · exact ⟨hproper.trans_le hstop, fun c hc => absurd hc (by simp)⟩
        · exact h.open_before o ho
  | closing span =>
      rcases r with ⟨stack, roots⟩
      cases stack with
      | nil => exact absurd hstep (by simp [Reading.step])
      | cons o stack =>
          rw [← Except.ok.inj hstep]
          exact hadd ⟨stack, roots⟩ _ ⟨fun o ho => h.open_before o (by simp [ho]), h.ended⟩ hstop

theorem Settled.foldlM {tags : List Tag} {r r' : Reading} (h : Settled s r.stack r.roots)
    (horder : Tag.InOrder lo s tags) (hfold : tags.foldlM Reading.step r = .ok r') :
    Settled s r'.stack r'.roots := by
  induction horder generalizing r with
  | nil le =>
      rw [← Except.ok.inj hfold]
      exact h
  | @cons lo hi tag tags start proper rest ih =>
      rcases foldlM_cons_eq_ok.mp hfold with ⟨r₁, hstep, hfold⟩
      exact ih (h.step proper rest.le hstep) hfold

/-- Reading a first part that can be read by itself. -/
theorem goOn_append {p t : Text} {r r' : Reading} (ht : Tag.Parts p t)
    (hwhole : (Tag.readFrom n 0 p).2 = none)
    (hfold : (Tag.readFrom n 0 p).1.foldlM Reading.step r = .ok r') :
    r.goOn n (p ++ t) = r'.goOn (n + p.length) t := by
  rw [Reading.goOn, Tag.readFrom_append ht (Nat.zero_le _) hwhole, List.foldlM_append, hfold]
  rfl

/-- A text into which the text of an element is written, in no tag, has the forest
    with that element planted. -/
theorem scan_planted {p t mid : Text} (hscan : scan (p ++ t) = .ok roots) (ht : Tag.Parts p t)
    (hout : ∀ tag ∈ (Tag.read (p ++ t)).1,
      ¬ (tag.span.start < p.length ∧ p.length < tag.span.stop))
    (hmid : Tag.Parts p (mid ++ t)) (htakes : ∀ r, Takes mid p.length r (r.add new)) :
    ∃ roots', scan (p ++ (mid ++ t)) = .ok roots' ∧ Planted p.length mid.length new roots roots' := by
  rcases scan_eq_ok hscan with ⟨hfault, ⟨stack, found⟩, hfold, hstack, rfl⟩
  dsimp only at hstack
  subst hstack
  have hwhole := Tag.whole_of_outside ht (Nat.zero_le _) hfault (by rw [Nat.zero_add]; exact hout)
  rw [Tag.read, Tag.readFrom_append ht (Nat.zero_le _) hwhole, Nat.zero_add] at hfault hfold
  rcases foldlM_append_eq_ok.mp hfold with ⟨r₁, hfirst, hfold⟩
  have horder := Tag.inOrder_readFrom 0 0 p (Nat.zero_le _)
  rw [Nat.zero_add, Nat.zero_add] at horder
  have hsettled : Settled p.length r₁.stack r₁.roots :=
    Settled.foldlM ⟨fun o ho => absurd ho (by simp), fun e he => absurd he (by simp)⟩ horder hfirst
  -- What follows is read at a later offset, onto one more element.
  rcases (@Growing.start p.length mid.length new _ hsettled).foldlM
    (Tag.inOrder_readFrom p.length 0 t (Nat.zero_le _)) (Nat.le_refl _) hfold with
    ⟨r', hfold', hgrow⟩
  rcases Tag.readFrom_move p.length 0 mid.length t with ⟨htags, hnone⟩
  have hread : Reading.goOn ⟨[], []⟩ 0 (p ++ (mid ++ t)) = .ok r' := by
    rw [goOn_append hmid hwhole hfirst, Nat.zero_add, htakes r₁ t, Reading.goOn, htags, hfold',
      hnone.mpr hfault]
    rfl
  cases hgrow with
  | roots inside =>
      refine ⟨_, ?_, inside⟩
      rw [scan_eq, hread]
      rfl

/-! ### Finding the new element -/

/-- The element around the place, in which the new one stands among others. -/
theorem Planted.around (h : Planted s k new es es') (he : e ∈ es)
    (haround : e.span.start < s ∧ s < e.span.stop) :
    ∃ before after children', es = before ++ e :: after ∧ (∀ c ∈ before, c.span.stop ≤ s)
      ∧ (∀ c ∈ after, s ≤ c.span.start) ∧ Planted s k new e.children children'
      ∧ es' = before ++ ⟨⟨e.span.start, e.span.stop + k⟩, e.path, e.selfClosing, children'⟩
        :: after.map (shift k) := by
  cases h with
  | here ended ahead =>
      -- All elements end before the place or begin behind it.
      exfalso
      rcases List.mem_append.mp he with he | he
      · have := ended e he
        omega
      · have := ahead e he
        omega
  | @within before after children' e' ended around ahead inside =>
      rcases List.mem_append.mp he with he | he
      · have := ended e he
        omega
      · rcases List.mem_cons.mp he with rfl | he
        · exact ⟨before, after, children', rfl, ended, ahead, inside, rfl⟩
        · have := ahead e he
          omega

/-- If the place is in none of the elements, the new one stands between them. -/
theorem Planted.between (h : Planted s k new es es')
    (hnone : ∀ e ∈ es, ¬ (e.span.start < s ∧ s < e.span.stop)) :
    ∃ before after, es = before ++ after ∧ es' = before ++ new :: after.map (shift k) := by
  cases h with
  | @here before after ended ahead => exact ⟨before, after, rfl, rfl⟩
  | within ended around ahead inside => exact absurd around (hnone _ (by simp))

/-- A new child is found by its path, if there has been no other with it. -/
theorem Planted.child?_new {path : Text} {span : Span} {own : Option Text} {selfClosing : Bool}
    (h : Planted s k new es es') (hnone : ∀ e ∈ es, ¬ (e.span.start < s ∧ s < e.span.stop))
    (hpath : new.path = some path) (hunique : ∀ e ∈ es, e.path ≠ some path) :
    child? ⟨span, own, selfClosing, es'⟩ path = some new := by
  rcases h.between hnone with ⟨before, after, rfl, rfl⟩
  rw [child?, List.find?_append, List.find?_eq_none.mpr (by
    intro e he
    rw [decide_eq_true_eq]
    exact hunique e (by simp [he]))]
  simp [hpath]

/-- A new child of a root is found as a module. -/
theorem module?_planted {segment : Text} (h : Planted s k new roots roots') (he : e ∈ roots)
    (haround : e.span.start < s ∧ s < e.span.stop)
    (hnone : ∀ c ∈ e.children, ¬ (c.span.start < s ∧ s < c.span.stop))
    (hpath : new.path = some segment)
    (hunique : ∀ root ∈ roots, ∀ c ∈ root.children, c.path ≠ some segment) :
    module? roots' segment = some new := by
  rcases h.around he haround with ⟨before, after, children', rfl, -, -, inside, rfl⟩
  rw [module?, List.findSome?_append, List.findSome?_eq_none_iff.mpr, Option.none_or,
    List.findSome?_cons, inside.child?_new hnone hpath (hunique e (by simp))]
  intro root hroot
  rw [child?, List.find?_eq_none]
  intro c hc
  rw [decide_eq_true_eq]
  exact hunique root (by simp [hroot]) c hc

/-- The element of a module around the place is found again. -/
theorem module?_around {segment : Text} (hlaid : Laid lo hi roots)
    (h : Planted s k new roots roots') (he : module? roots segment = some e)
    (haround : e.span.start < s ∧ s < e.span.stop) :
    ∃ children', Planted s k new e.children children' ∧ module? roots' segment
      = some ⟨⟨e.span.start, e.span.stop + k⟩, e.path, e.selfClosing, children'⟩ := by
  rcases List.exists_of_findSome?_eq_some he with ⟨root, hroot, hchild⟩
  have hmem := List.mem_of_find?_eq_some hchild
  have hwithin := hlaid.child hroot hmem
  rcases h.around hroot (by omega) with ⟨before, after, children', rfl, hended, -, inside, rfl⟩
  -- No earlier root has such a child: the child would be the one around the place.
  have hbefore : before.findSome? (fun root => root.child? segment) = none := by
    cases hearlier : before.findSome? (fun root => root.child? segment) with
    | none => rfl
    | some c =>
        rw [module?, List.findSome?_append, hearlier] at he
        rcases List.exists_of_findSome?_eq_some hearlier with ⟨root', hroot', hchild'⟩
        rw [Option.some.inj he] at hchild'
        have := hlaid.child (List.mem_append_left _ hroot') (List.mem_of_find?_eq_some hchild')
        have := hended root' hroot'
        omega
  rcases inside.around hmem haround with ⟨before', after', grown, hsplit, hended', -, hgrown, rfl⟩
  -- Nor has this root an earlier one, for the same reason.
  have hbefore' : before'.find? (fun c => c.path = some segment) = none := by
    cases hearlier : before'.find? (fun c => c.path = some segment) with
    | none => rfl
    | some c =>
        rw [child?, hsplit, List.find?_append, hearlier] at hchild
        have := hended' c (List.mem_of_find?_eq_some hearlier)
        rw [Option.some.inj hchild] at this
        omega
  refine ⟨grown, hgrown, ?_⟩
  have hpath := List.find?_some hchild
  rw [decide_eq_true_eq] at hpath
  rw [module?, List.findSome?_append, hbefore, Option.none_or, List.findSome?_cons, child?,
    List.find?_append, hbefore', Option.none_or, List.find?_cons_of_pos (by simpa using hpath)]

end Planting

end Route

end RouteScaffold

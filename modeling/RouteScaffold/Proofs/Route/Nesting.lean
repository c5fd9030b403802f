import RouteScaffold.Proofs.Route.Planting

/-!
# Nested Tags

The forest of a text says how its tags nest, and it says no less than the tags do:
an element is its opening tag, the tags of its children and its closing tag. So the
tags of an element, at whatever depth, follow one another without a gap, and to read
them is to add that one element, whatever has been read before.

The stack that elements are read with holds the same for elements that are still
open: the tags read so far are those of the finished ones, with the opening tags of
the others between them.

## Main definitions

* `Route.Spells`: Tags that spell elements.
* `Route.SpellsOpen`: Tags that spell elements in the course of reading.

## Theorems

* `spells_scan`: The tags of a text spell its forest.
* `Spells.foldlM`: Reading tags adds the elements that they spell.
* `Spells.split`: The tags of one element within those of all.
-/

namespace RouteScaffold

namespace Route

/-- Tags that spell elements, one behind the other. -/
inductive Spells : List Tag → List Route → Prop where
  | nil : Spells [] []
  | leaf {tag : OpeningTag} {tags : List Tag} {es : List Route} (self : tag.selfClosing = true)
      (behind : Spells tags es) :
      Spells (.opening tag :: tags) (⟨tag.span, tag.path, true, []⟩ :: es)
  | block {tag : OpeningTag} {span : Span} {inner tags : List Tag} {children es : List Route}
      (self : tag.selfClosing = false) (inside : Spells inner children) (behind : Spells tags es) :
      Spells (.opening tag :: (inner ++ .closing span :: tags))
        (⟨⟨tag.span.start, span.stop⟩, tag.path, false, children⟩ :: es)

variable {tags tags' : List Tag} {es es' roots : List Route} {e : Route} {stack : List Open}

theorem Spells.append (h : Spells tags es) (h' : Spells tags' es') :
    Spells (tags ++ tags') (es ++ es') := by
  induction h with
  | nil => exact h'
  | leaf self behind ih => exact .leaf self ih
  | block self inside behind ihinside ih =>
      rw [List.cons_append, List.append_assoc, List.cons_append]
      exact .block self inside ih

/-- Tags that spell elements in the course of reading: the innermost open element
    comes last, with its children so far behind its tag. -/
def SpellsOpen : List Tag → List Open → List Route → Prop
  | tags, [], roots => Spells tags roots.reverse
  | tags, o :: stack, roots => ∃ outer inner, tags = outer ++ .opening o.tag :: inner
      ∧ o.tag.selfClosing = false ∧ Spells inner o.children.reverse ∧ SpellsOpen outer stack roots

theorem SpellsOpen.add {r : Reading} (h : SpellsOpen tags r.stack r.roots) (h' : Spells tags' [e]) :
    SpellsOpen (tags ++ tags') (r.add e).stack (r.add e).roots := by
  rcases r with ⟨stack, roots⟩
  cases stack with
  | nil =>
      change Spells _ (e :: roots).reverse
      rw [List.reverse_cons]
      exact Spells.append h h'
  | cons o stack =>
      rcases h with ⟨outer, inner, rfl, hself, hinner, houter⟩
      refine ⟨outer, inner ++ tags', by simp, hself, ?_, houter⟩
      change Spells _ (e :: o.children).reverse
      rw [List.reverse_cons]
      exact hinner.append h'

/-- Each tag that is read keeps the spelling. -/
theorem SpellsOpen.step {r r' : Reading} {tag : Tag} (h : SpellsOpen tags r.stack r.roots)
    (hstep : r.step tag = .ok r') : SpellsOpen (tags ++ [tag]) r'.stack r'.roots := by
  cases tag with
  | opening tag =>
      rw [Reading.step] at hstep
      split at hstep
      · next hself =>
          rw [← Except.ok.inj hstep]
          exact h.add (.leaf hself .nil)
      · next hself =>
          rw [← Except.ok.inj hstep]
          exact ⟨tags, [], rfl, Bool.eq_false_iff.mpr hself, .nil, h⟩
  | closing span =>
      rcases r with ⟨stack, roots⟩
      cases stack with
      | nil => exact absurd hstep (by simp [Reading.step])
      | cons o stack =>
          -- The tags behind the opening one are those of the element that ends here.
          rw [← Except.ok.inj hstep]
          rcases h with ⟨outer, inner, rfl, hself, hinner, houter⟩
          have hblock : Spells (.opening o.tag :: (inner ++ [.closing span])) [o.close span.stop] :=
            .block hself hinner .nil
          have := SpellsOpen.add (r := ⟨stack, roots⟩) houter hblock
          rwa [← List.cons_append, ← List.append_assoc] at this

theorem SpellsOpen.foldlM {r r' : Reading} (h : SpellsOpen tags r.stack r.roots)
    (hfold : tags'.foldlM Reading.step r = .ok r') :
    SpellsOpen (tags ++ tags') r'.stack r'.roots := by
  induction tags' generalizing tags r with
  | nil =>
      rw [← Except.ok.inj hfold, List.append_nil]
      exact h
  | cons tag tags' ih =>
      rcases foldlM_cons_eq_ok.mp hfold with ⟨r₁, hstep, hfold⟩
      have := ih (h.step hstep) hfold
      rwa [List.append_assoc] at this

/-- The tags of a text spell its forest. -/
theorem spells_scan {t : Text} (h : scan t = .ok roots) : Spells (Tag.read t).1 roots := by
  rcases scan_eq_ok h with ⟨-, ⟨stack, found⟩, hfold, hstack, rfl⟩
  have hnone : SpellsOpen [] [] [] := Spells.nil
  have := hnone.foldlM (r := ⟨[], []⟩) hfold
  dsimp only at hstack
  subst hstack
  exact this

theorem foldl_add (o : Open) (stack : List Open) (roots es : List Route) :
    es.foldl Reading.add ⟨o :: stack, roots⟩ = ⟨⟨o.tag, es.reverse ++ o.children⟩ :: stack, roots⟩ := by
  induction es generalizing o with
  | nil => rfl
  | cons e es ih =>
      rw [List.foldl_cons, Reading.add, ih]
      simp

/-- Reading tags adds the elements that they spell. -/
theorem Spells.foldlM (h : Spells tags es) (r : Reading) :
    tags.foldlM Reading.step r = .ok (es.foldl Reading.add r) := by
  induction h generalizing r with
  | nil => rfl
  | @leaf tag tags es self behind ih =>
      exact foldlM_cons_eq_ok.mpr ⟨_, by rw [Reading.step, if_pos self], ih _⟩
  | @block tag span inner tags children es self inside behind ihinside ih =>
      have hopen : r.step (.opening tag) = .ok ⟨⟨tag, []⟩ :: r.stack, r.roots⟩ := by
        rw [Reading.step, if_neg (by rw [self]; simp)]
      have hclose : Reading.step ⟨⟨tag, children.reverse ++ []⟩ :: r.stack, r.roots⟩ (.closing span)
          = .ok (r.add ⟨⟨tag.span.start, span.stop⟩, tag.path, false, children⟩) := by
        rw [Reading.step]
        simp [Open.close]
      -- The children are added to the element that is open now, and it is closed behind them.
      have hinner := ihinside ⟨⟨tag, []⟩ :: r.stack, r.roots⟩
      rw [foldl_add] at hinner
      exact foldlM_cons_eq_ok.mpr ⟨_, hopen,
        foldlM_append_eq_ok.mpr ⟨_, hinner, foldlM_cons_eq_ok.mpr ⟨_, hclose, ih _⟩⟩⟩

/-! ### One element among others -/

/-- The tags of an element begin and end where it does. -/
theorem Spells.ends (h : Spells tags [e]) :
    (∃ tag, tags.head? = some tag ∧ tag.span.start = e.span.start)
      ∧ ∃ tag, tags.getLast? = some tag ∧ tag.span.stop = e.span.stop := by
  cases h with
  | leaf self behind =>
      cases behind
      exact ⟨⟨_, rfl, rfl⟩, _, rfl, rfl⟩
  | block self inside behind =>
      cases behind
      exact ⟨⟨_, rfl, rfl⟩, _, by rw [← List.cons_append, List.getLast?_concat], rfl⟩

/-- The tags of an element that stands among others. -/
theorem Spells.getElem? {i : Nat} (h : Spells tags es) (hi : es[i]? = some e) :
    ∃ before own after, tags = before ++ (own ++ after) ∧ Spells own [e] := by
  induction h generalizing i with
  | nil => exact absurd hi (by simp)
  | @leaf tag tags es self behind ih =>
      cases i with
      | zero =>
          rw [List.getElem?_cons_zero] at hi
          rw [← Option.some.inj hi]
          exact ⟨[], [.opening tag], tags, rfl, .leaf self .nil⟩
      -- The tags of the first element stand in front of those of the others.
      | succ i =>
          rw [List.getElem?_cons_succ] at hi
          rcases ih hi with ⟨before, own, after, rfl, hown⟩
          exact ⟨.opening tag :: before, own, after, rfl, hown⟩
  | @block tag span inner tags children es self inside behind ihinside ih =>
      cases i with
      | zero =>
          rw [List.getElem?_cons_zero] at hi
          rw [← Option.some.inj hi]
          exact ⟨[], .opening tag :: (inner ++ [.closing span]), tags, by simp,
            .block self inside .nil⟩
      | succ i =>
          rw [List.getElem?_cons_succ] at hi
          rcases ih hi with ⟨before, own, after, rfl, hown⟩
          exact ⟨.opening tag :: (inner ++ .closing span :: before), own, after, by simp, hown⟩

theorem at?_nil (way : List Nat) : at? [] way = none := by
  cases way with
  | nil => rfl
  | cons i rest => cases rest <;> simp [at?]

/-- The element at the end of a way of indices is a child of the one before it. -/
theorem at?_cons {i : Nat} {rest : List Nat} (h : at? es (i :: rest) = some e) :
    ∃ top, es[i]? = some top ∧ ((rest = [] ∧ top = e) ∨ at? top.children rest = some e) := by
  cases rest with
  | nil => exact ⟨e, h, .inl ⟨rfl, rfl⟩⟩
  | cons j rest =>
      rw [at?] at h
      · cases htop : es[i]? with
        | none =>
            rw [htop] at h
            exact absurd h (by simp)
        | some top =>
            rw [htop] at h
            exact ⟨top, rfl, .inr h⟩
      · simp

/-- The tags of one element, at any depth, within those of all. -/
theorem Spells.split {way : List Nat} (h : Spells tags es) (he : at? es way = some e) :
    ∃ before own after, tags = before ++ (own ++ after) ∧ Spells own [e] := by
  induction way generalizing tags es with
  | nil => exact absurd he (by simp [at?])
  | cons i rest ih =>
      rcases at?_cons he with ⟨top, htop, ⟨-, rfl⟩ | hbelow⟩
      · exact h.getElem? htop
      · rcases h.getElem? htop with ⟨before, own, after, rfl, hown⟩
        -- The tags of the children are those between the first and the last.
        cases hown with
        | leaf self behind =>
            rw [at?_nil] at hbelow
            exact absurd hbelow (by simp)
        | @block tag span inner tags children es self inside behind =>
            cases behind
            rcases ih inside hbelow with ⟨before', own', after', rfl, hown'⟩
            exact ⟨before ++ .opening tag :: before', own', after' ++ .closing span :: after, by simp,
              hown'⟩

end Route

end RouteScaffold

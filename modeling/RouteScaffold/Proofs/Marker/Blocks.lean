import RouteScaffold.Proofs.Marker.Insertions
import RouteScaffold.Proofs.Route.Tags

/-!
# Blocks Taken Out of Marker Registries

The forest of the print of an outline is the outline again: one root for the
role, a child for each block, and a child of that for each page. Each element
knows where it stands, so cutting it out leaves the print of the outline
without it.

## Main definitions

* `Legible`: What an opening tag can be written with.
* `Branch.routes`, `Leaf.routes`: The elements of blocks and of pages, with
  their places.
* `Outline.cutBranch`, `Outline.cutLeaf`: An outline without a block, or
  without the line of a page.

## Theorems

* `forest_text`: The forest of a print.
* `remove_branch`, `remove_leaf`: What is left when an element is cut out.
-/

namespace RouteScaffold

open Naming Text

namespace Marker

/-! ### Tags -/

/-- The text of a tag that begins with its path. -/
def tagText (value rest : Text) : Text := "<Route path=\"".toList ++ (value ++ '"' :: rest)

theorem tagText_eq (value rest : Text) :
    tagText value rest = "<Route path=\"".toList ++ (value ++ '"' :: rest) := rfl

theorem isOpening_tagText {value rest : Text} (hvalue : '"' ∉ value)
    (hrest : ∀ r, Tag.restLength? none 0 (rest ++ r) = some rest.length) :
    Tag.IsOpening (tagText value rest) := by
  refine ⟨' ', "path=\"".toList ++ (value ++ '"' :: rest), rfl, by decide, fun r => ?_⟩
  have hsplit : ' ' :: ("path=\"".toList ++ (value ++ '"' :: rest) ++ r)
      = " path=".toList ++ ('"' :: (value ++ '"' :: (rest ++ r))) := by
    rw [show "path=\"".toList = ['p', 'a', 't', 'h', '=', '"'] from rfl,
      show " path=".toList = [' ', 'p', 'a', 't', 'h', '='] from rfl]
    simp
  rw [hsplit, Tag.restLength?_plain (by decide) (Or.inl (by decide)),
    Tag.restLength?_quoted (by decide) hvalue, hrest, show " path=".toList.length = 6 from rfl]
  simp
  omega

/-- A path, and the name of an element, that an opening tag can be written with: the
    path stays within its quotes, and the element within its braces. -/
structure Legible (path name : Text) : Prop where
  path : '"' ∉ path
  name : ∀ c ∈ name, Pattern.isQuote c = false ∧ c ≠ '\x7b' ∧ c ≠ '\x7d'

theorem legible_of_tame {path name : Text} (hpath : ∀ c ∈ path, isTame c = true)
    (hname : ∀ c ∈ name, isTame c = true) : Legible path name := by
  refine ⟨not_mem_of_tame hpath (by decide), fun c hc => ?_⟩
  have htame := hname c hc
  refine ⟨?_, ?_, ?_⟩
  · cases hq : Pattern.isQuote c with
    | false => rfl
    | true =>
        simp only [Pattern.isQuote, Bool.or_eq_true, decide_eq_true_eq] at hq
        rcases hq with rfl | rfl <;> exact absurd htame (by decide)
  · rintro rfl
    exact absurd htame (by decide)
  · rintro rfl
    exact absurd htame (by decide)

theorem Leaf.Sound.legible {l : Leaf} (h : l.Sound) : Legible l.segment l.name :=
  legible_of_tame h.segment h.name

theorem Branch.Sound.legible {b : Branch} (h : b.Sound) : Legible b.segment b.name :=
  legible_of_tame h.segment h.name

/-- The length of an expression with an element, up to the end of its tag. -/
theorem restLength?_element {path name close : Text} (h : Legible path name)
    (hclose : ∀ r, Tag.restLength? none 0 (close ++ r) = some close.length) (r : Text) :
    Tag.restLength? none 0 ((" element=".toList ++ '\x7b' :: '<' :: (name ++ (" />\x7d".toList
      ++ close))) ++ r) = some (" element=".toList ++ '\x7b' :: '<' :: (name ++ (" />\x7d".toList
      ++ close))).length := by
  have hsplit : (" element=".toList ++ '\x7b' :: '<' :: (name ++ (" />\x7d".toList ++ close))) ++ r
      = " element=".toList ++ ('\x7b' :: (('<' :: (name ++ " />".toList)) ++ '\x7d' :: (close ++ r))) := by
    rw [show " />\x7d".toList = " />".toList ++ ['\x7d'] from rfl]
    simp
  -- Everything inside the braces is taken as it is, up to the closing one.
  have hinner : ∀ c ∈ '<' :: (name ++ " />".toList), Pattern.isQuote c = false ∧ c ≠ '\x7b'
      ∧ c ≠ '\x7d' := by
    rw [List.forall_mem_cons, List.forall_mem_append]
    exact ⟨by decide, h.name, by decide⟩
  rw [hsplit, Tag.restLength?_plain (by decide) (Or.inl (by decide)), Tag.restLength?_braced hinner,
    hclose, show " element=".toList.length = 9 from rfl, show " />\x7d".toList = " />".toList ++ ['\x7d']
    from rfl]
  simp
  omega

theorem opening_tagText (b : Branch) : b.opening
    = tagText b.segment (" element=".toList ++ '\x7b' :: '<' :: (b.name ++ (" />\x7d".toList
      ++ ['>']))) := by
  rw [Branch.opening_eq, tagText_eq, show "\" element=".toList = '"' :: " element=".toList from rfl,
    show " />\x7d>".toList = " />\x7d".toList ++ ['>'] from rfl]
  simp

theorem pageElement_tagText (segment name : Text) : Snippet.pageElement segment name
    = tagText segment (" element=".toList ++ '\x7b' :: '<' :: (name ++ (" />\x7d".toList
      ++ " />".toList))) := by
  rw [pageElement_eq, tagText_eq, show "\" element=\x7b<".toList = '"' :: (" element=".toList
    ++ ['\x7b', '<']) from rfl, show " />\x7d />".toList = " />\x7d".toList ++ " />".toList from rfl]
  simp

theorem isOpening_opening {b : Branch} (h : Legible b.segment b.name) : Tag.IsOpening b.opening
    ∧ Tag.pathFrom? none b.opening = some b.segment ∧ Tag.isSelfClosing b.opening = false := by
  have hclose : ∀ r : Text, Tag.restLength? none 0 (['>'] ++ r) = some ['>'].length := fun r => rfl
  refine ⟨?_, ?_, ?_⟩
  · rw [opening_tagText]
    exact isOpening_tagText h.path (restLength?_element h hclose)
  · rw [opening_tagText]
    exact Tag.pathFrom?_route h.path _
  · have hsplit : b.opening = ("<Route path=\"".toList ++ (b.segment ++ ("\" element=".toList
        ++ '\x7b' :: '<' :: (b.name ++ " />".toList)))) ++ ['\x7d', '>'] := by
      rw [Branch.opening_eq, show " />\x7d>".toList = " />".toList ++ ['\x7d', '>'] from rfl]
      simp
    rw [hsplit, Tag.isSelfClosing_eq _ (by decide) (by decide)]
    decide

theorem isOpening_pageElement {l : Leaf} (h : Legible l.segment l.name) :
    Tag.IsOpening (Snippet.pageElement l.segment l.name)
      ∧ Tag.pathFrom? none (Snippet.pageElement l.segment l.name) = some l.segment
      ∧ Tag.isSelfClosing (Snippet.pageElement l.segment l.name) = true := by
  have hclose : ∀ r : Text, Tag.restLength? none 0 (" />".toList ++ r) = some " />".toList.length :=
    fun r => rfl
  refine ⟨?_, ?_, ?_⟩
  · rw [pageElement_tagText]
    exact isOpening_tagText h.path (restLength?_element h hclose)
  · rw [pageElement_tagText]
    exact Tag.pathFrom?_route h.path _
  · have hsplit : Snippet.pageElement l.segment l.name = ("<Route path=\"".toList ++ (l.segment
        ++ ("\" element=\x7b<".toList ++ (l.name ++ " />\x7d ".toList)))) ++ ['/', '>'] := by
      rw [pageElement_eq, show " />\x7d />".toList = " />\x7d ".toList ++ ['/', '>'] from rfl]
      simp
    rw [hsplit, Tag.isSelfClosing_eq _ (by decide) (by decide)]
    decide

/-! ### Elements -/

/-- The element of a page that stands at an offset. -/
def Leaf.route (offset : Nat) (l : Leaf) : Route :=
  ⟨⟨offset, offset + (Snippet.pageElement l.segment l.name).length⟩, some l.segment, true, []⟩

/-- The elements of pages, from an offset on. -/
def Leaf.routes : Nat → List Leaf → List Route
  | _, [] => []
  | offset, l :: ls => l.route offset :: Leaf.routes (offset + l.text.length) ls

/-- The block of a module without the column of the next one. -/
def Branch.core (b : Branch) : Text :=
  b.opening ++ ("\n          " ++ (b.leaves.flatMap Leaf.text
    ++ (Snippet.sentinelOf b.segment ++ "\n        </Route>")))

theorem Branch.core_eq (b : Branch) : b.core = b.opening ++ ("\n          ".toList
    ++ (b.leaves.flatMap Leaf.text ++ (Snippet.sentinelOf b.segment
    ++ ("\n        ".toList ++ Tag.closingTag)))) := rfl

theorem Branch.text_core (b : Branch) : b.text = b.core ++ "\n        ".toList := by
  rw [Branch.core_eq, show b.text = b.opening ++ ("\n          ".toList
    ++ (b.leaves.flatMap Leaf.text ++ (Snippet.sentinelOf b.segment
    ++ ("\n        ".toList ++ Tag.closingTag ++ "\n        ".toList)))) from rfl]
  simp only [List.append_assoc]

/-- Where the pages of a block begin. -/
def Branch.leavesAt (offset : Nat) (b : Branch) : Nat :=
  offset + (b.opening.length + "\n          ".toList.length)

/-- The element of a module whose block stands at an offset. -/
def Branch.route (offset : Nat) (b : Branch) : Route :=
  ⟨⟨offset, offset + b.core.length⟩, some b.segment, false, Leaf.routes (b.leavesAt offset) b.leaves⟩

theorem Branch.route_eq (offset : Nat) (b : Branch) : b.route offset
    = ⟨⟨offset, offset + b.core.length⟩, some b.segment, false, Leaf.routes
      (offset + (b.opening.length + "\n          ".toList.length)) b.leaves⟩ := rfl

/-- The elements of modules, from an offset on. -/
def Branch.routes : Nat → List Branch → List Route
  | _, [] => []
  | offset, b :: bs => b.route offset :: Branch.routes (offset + b.text.length) bs

section Taking

variable {o : Route.Open} {stack : List Route.Open} {roots : List Route}

theorem takes_leaf {l : Leaf} (h : l.Sound) (offset : Nat) :
    Route.Takes l.text offset ⟨o :: stack, roots⟩
      ⟨⟨o.tag, l.route offset :: o.children⟩ :: stack, roots⟩ := by
  rcases isOpening_pageElement h.legible with ⟨hopening, hpath, hself⟩
  have htake := Route.takes_selfClosing hopening hself offset ⟨o :: stack, roots⟩
  rw [hpath] at htake
  exact htake.append (Route.takes_plain (by decide) _ _)

theorem takes_leaves {ls : List Leaf} (h : ∀ l ∈ ls, l.Sound) (offset : Nat)
    (tag : OpeningTag) (children : List Route) :
    Route.Takes (ls.flatMap Leaf.text) offset ⟨⟨tag, children⟩ :: stack, roots⟩
      ⟨⟨tag, (Leaf.routes offset ls).reverse ++ children⟩ :: stack, roots⟩ := by
  induction ls generalizing offset children with
  | nil => exact Route.takes_plain (by simp) _ _
  | cons l ls ih =>
      rw [List.flatMap_cons, Leaf.routes, List.reverse_cons, List.append_assoc,
        List.singleton_append]
      exact (takes_leaf (h l (by simp)) offset).append
        (ih (fun x hx => h x (by simp [hx])) _ _)

theorem not_mem_sentinel {segment : Text} (h : ∀ c ∈ asConstant segment, isTame c = true) :
    '<' ∉ Snippet.sentinelOf segment := by
  rw [sentinelOf_eq, List.mem_append, List.mem_append, not_or, not_or]
  exact ⟨by decide, not_mem_of_tame h (by decide), by decide⟩

theorem takes_branch {b : Branch} (h : b.Sound) (offset : Nat) (tag : OpeningTag)
    (children : List Route) :
    Route.Takes b.text offset ⟨⟨tag, children⟩ :: stack, roots⟩
      ⟨⟨tag, b.route offset :: children⟩ :: stack, roots⟩ := by
  rcases isOpening_opening h.legible with ⟨hopening, hpath, hself⟩
  rw [Branch.text_core]
  refine Route.Takes.append ?_ (Route.takes_plain (by decide) _ _)
  rw [Branch.core_eq]
  refine (Route.takes_opening hopening hself offset _).append <|
    (Route.takes_plain (by decide) _ _).append <| (takes_leaves h.leaves _ _ _).append <|
    (Route.takes_plain (not_mem_sentinel h.constant) _ _).append <|
    (Route.takes_plain (by decide) _ _).append ?_
  have hclose := Route.takes_closing (offset + b.opening.length + "\n          ".toList.length
    + (b.leaves.flatMap Leaf.text).length + (Snippet.sentinelOf b.segment).length
    + "\n        ".toList.length) ⟨Tag.openingOf offset b.opening,
      (Leaf.routes (offset + b.opening.length + "\n          ".toList.length) b.leaves).reverse ++ []⟩
    -- The tag that closes the block leaves the routes inside it in the order they were read.
    (⟨tag, children⟩ :: stack) roots
  have hroute : Route.Open.close ⟨Tag.openingOf offset b.opening,
      (Leaf.routes (offset + b.opening.length + "\n          ".toList.length) b.leaves).reverse ++ []⟩
      (offset + b.opening.length + "\n          ".toList.length
        + (b.leaves.flatMap Leaf.text).length + (Snippet.sentinelOf b.segment).length
        + "\n        ".toList.length + Tag.closingTag.length) = b.route offset := by
    have hstop : offset + b.opening.length + "\n          ".toList.length
        + (b.leaves.flatMap Leaf.text).length + (Snippet.sentinelOf b.segment).length
        + "\n        ".toList.length + Tag.closingTag.length = offset + b.core.length := by
      rw [Branch.core_eq]
      simp only [List.length_append]
      omega
    rw [Route.Open.close, hstop, List.append_nil, List.reverse_reverse, Tag.openingOf, hpath,
      Branch.route_eq, Nat.add_assoc]
  rw [hroute] at hclose
  exact hclose

theorem takes_branches {bs : List Branch} (h : ∀ b ∈ bs, b.Sound) (offset : Nat)
    (tag : OpeningTag) (children : List Route) :
    Route.Takes (bs.flatMap Branch.text) offset ⟨⟨tag, children⟩ :: stack, roots⟩
      ⟨⟨tag, (Branch.routes offset bs).reverse ++ children⟩ :: stack, roots⟩ := by
  induction bs generalizing offset children with
  | nil => exact Route.takes_plain (by simp) _ _
  | cons b bs ih =>
      rw [List.flatMap_cons, Branch.routes, List.reverse_cons, List.append_assoc,
        List.singleton_append]
      exact (takes_branch (h b (by simp)) offset _ _).append
        (ih (fun x hx => h x (by simp [hx])) _ _)

end Taking

/-! ### The forest -/

theorem import_no_tag {i : Import} (h : i.Sound) : '<' ∉ i.text := by
  rw [Import.text_eq, List.mem_append, List.mem_cons, List.mem_cons, List.mem_append,
    List.mem_append, List.mem_append, not_or, not_or, not_or, not_or, not_or, not_or]
  exact ⟨by decide, by decide, by decide, not_mem_of_tame h.name (by decide), by decide,
    h.not_mem_source (by decide) (by decide) (by decide), by decide⟩

theorem head_no_tag {o : Outline} (h : o.Sound) : '<' ∉ o.head := by
  rw [show o.head = o.headerText ++ ('\n' :: o.imports.flatMap Import.text) from rfl,
    List.mem_append, List.mem_cons, List.mem_flatMap, not_or, not_or]
  refine ⟨?_, by decide, ?_⟩
  · rw [show o.headerText = if o.header then (⟨"Route", "react-router-dom"⟩ : Import).text else []
      from rfl]
    split
    · exact import_no_tag sound_header
    · simp
  · rintro ⟨i, hi, hmem⟩
    exact import_no_tag (h.imports i hi) hmem

theorem signature_no_tag {o : Outline} (h : o.Sound) : '<' ∉ o.signature := by
  rw [show o.signature = "export default function ".toList ++ (o.role ++ "Routes".toList)
    ++ "() \x7b\n  return (\n    ".toList from rfl, List.mem_append, List.mem_append, List.mem_append,
    not_or, not_or, not_or]
  exact ⟨⟨by decide, not_mem_role h.role (by decide), by decide⟩, by decide⟩

theorem isOpening_role {o : Outline} (h : o.Sound) : Tag.IsOpening o.opening
    ∧ Tag.isSelfClosing o.opening = false := by
  have hvalue : '"' ∉ '/' :: Text.lower o.role := by
    rw [List.mem_cons, not_or]
    exact ⟨by decide, not_mem_lower_role h.role (by decide)⟩
  have htext : o.opening = tagText ('/' :: Text.lower o.role) ['>'] := by
    rw [show o.opening = ("<Route path=\"".toList ++ ['/']) ++ Text.lower o.role
      ++ ['"', '>'] from rfl, tagText_eq]
    simp
  refine ⟨?_, ?_⟩
  · rw [htext]
    exact isOpening_tagText hvalue fun r => rfl
  · rw [show o.opening = ("<Route path=\"/".toList ++ Text.lower o.role) ++ ['"', '>'] from rfl,
      Tag.isSelfClosing_eq _ (by decide) (by decide)]
    decide

/-- Where the blocks of an outline begin. -/
def Outline.branchesAt (o : Outline) : Nat := (o.withBranches []).body.length

/-- The forest of a print has one root, whose children are the blocks. -/
theorem forest_text {o : Outline} (h : o.Sound) (file : Text) :
    ∃ root, Route.forest o.text file = .ok [root]
      ∧ root.children = Branch.routes o.branchesAt o.branches := by
  rcases isOpening_role h with ⟨hopening, hself⟩
  have hat : o.head.length + o.signature.length + o.opening.length + "\n        ".toList.length
      = o.branchesAt := by
    rw [Outline.branchesAt, show (o.withBranches []).body = o.head ++ (o.signature ++ (o.opening
      ++ ("\n        ".toList ++ []))) from rfl]
    simp only [List.length_append, List.append_nil]
    omega
  have htake : ∃ root, Route.Takes o.text 0 ⟨[], []⟩ ⟨[], [root]⟩
      ∧ root.children = Branch.routes o.branchesAt o.branches := by
    -- The text is taken piece by piece; only the tags change what is open.
    refine ⟨_, (Route.takes_plain (head_no_tag h) _ _).append <|
      (Route.takes_plain (signature_no_tag h) _ _).append <|
      (Route.takes_opening hopening hself _ _).append <|
      (Route.takes_plain (by decide) _ _).append <|
      (takes_branches h.branches _ _ _).append <|
      (Route.takes_plain (s := rootSentinel) (by decide) _ _).append <|
      (Route.takes_plain (s := "\n    ".toList) (by decide) _ _).append <|
      (Route.takes_closing _ _ _ _).append <|
      Route.takes_plain (s := "\n  );\n\x7d\n".toList) (by decide) _ _, ?_⟩
    rw [Route.Open.close, List.append_nil, List.reverse_reverse, ← hat, Nat.zero_add]
  rcases htake with ⟨root, htake, hchildren⟩
  refine ⟨root, ?_, hchildren⟩
  rw [Route.forest, Route.scan_of_takes htake]
  rfl

/-! ### Cutting -/

/-- What is left when an element is cut out with the column behind it. -/
theorem cut_eq (s core indent r : Text) (e : Route)
    (hspan : e.span = ⟨s.length, s.length + core.length⟩) (hindent : ∀ c ∈ indent, isIndent c = true)
    (hr : ∀ c ∈ r.head?, isIndent c = false) :
    Route.cut (s ++ (core ++ '\n' :: (indent ++ r))) e = s ++ r := by
  have hdrop : (s ++ (core ++ '\n' :: (indent ++ r))).drop (s.length + core.length)
      = '\n' :: (indent ++ r) := by
    rw [← List.append_assoc, ← List.length_append, List.drop_left]
  have hkept : (indent ++ r).dropWhile isIndent = r := by
    rw [List.dropWhile_append_of_pos hindent]
    cases r with
    | nil => rfl
    | cons c r => exact List.dropWhile_cons_of_neg (by simp [hr c rfl])
  rw [Route.cut, hspan]
  simp only [hdrop, hkept, List.take_left]

/-- The first member of a class in a list, changed. -/
def onFirst {α : Type} (p : α → Bool) (f : α → α) : List α → List α
  | [] => []
  | x :: xs => if p x then f x :: xs else x :: onFirst p f xs

theorem onFirst_split {α : Type} {p : α → Bool} {f : α → α} {xs ys : List α} {x : α}
    (hxs : ∀ y ∈ xs, p y = false) (hx : p x = true) :
    onFirst p f (xs ++ x :: ys) = xs ++ f x :: ys := by
  induction xs with
  | nil => simp [onFirst, hx]
  | cons y xs ih =>
      have hy := hxs y (by simp)
      simp [onFirst, hy, ih fun z hz => hxs z (by simp [hz])]

theorem onFirst_of_forall {α : Type} {p : α → Bool} {f : α → α} {xs : List α}
    (hxs : ∀ y ∈ xs, p y = false) : onFirst p f xs = xs := by
  induction xs with
  | nil => rfl
  | cons y xs ih =>
      have hy := hxs y (by simp)
      simp [onFirst, hy, ih fun z hz => hxs z (by simp [hz])]

theorem eraseP_split {α : Type} {p : α → Bool} {xs ys : List α} {x : α}
    (hxs : ∀ y ∈ xs, p y = false) (hx : p x = true) : (xs ++ x :: ys).eraseP p = xs ++ ys := by
  rw [List.eraseP_append_right _ (fun y hy => by simp [hxs y hy]), List.eraseP_cons_of_pos hx]

namespace Outline

/-- An outline without the first block that has a segment. -/
def cutBranch (o : Outline) (segment : Text) : Outline :=
  { o with branches := o.branches.eraseP fun b => b.segment = segment }

/-- An outline without the first line that has a segment, in the first block
    that has another one. -/
def cutLeaf (o : Outline) (within segment : Text) : Outline :=
  { o with
    branches := o.branches |> onFirst (fun b => b.segment = within) fun b =>
      { b with leaves := b.leaves.eraseP fun l => l.segment = segment } }

end Outline

theorem find?_routes_none {bs : List Branch} {segment : Text} (offset : Nat)
    (h : ∀ b ∈ bs, b.segment ≠ segment) :
    (Branch.routes offset bs).find? (fun e => e.path = some segment) = none := by
  induction bs generalizing offset with
  | nil => rfl
  | cons b bs ih =>
      rw [Branch.routes, List.find?_cons_of_neg, ih _ fun c hc => h c (by simp [hc])]
      simpa [Branch.route] using h b (by simp)

theorem find?_routes_split {bs cs : List Branch} {b : Branch} (offset : Nat)
    (h : ∀ c ∈ bs, c.segment ≠ b.segment) :
    (Branch.routes offset (bs ++ b :: cs)).find? (fun e => e.path = some b.segment)
      = some (b.route (offset + (bs.flatMap Branch.text).length)) := by
  induction bs generalizing offset with
  | nil =>
      rw [List.nil_append, Branch.routes, List.find?_cons_of_pos]
      · rfl
      · simp [Branch.route]
  | cons c bs ih =>
      rw [List.cons_append, Branch.routes, List.find?_cons_of_neg, ih _ fun d hd => h d (by simp [hd]),
        List.flatMap_cons, List.length_append, Nat.add_assoc]
      simpa [Branch.route] using h c (by simp)

theorem find?_leaves_none {ls : List Leaf} {segment : Text} (offset : Nat)
    (h : ∀ l ∈ ls, l.segment ≠ segment) :
    (Leaf.routes offset ls).find? (fun e => e.path = some segment) = none := by
  induction ls generalizing offset with
  | nil => rfl
  | cons l ls ih =>
      rw [Leaf.routes, List.find?_cons_of_neg, ih _ fun c hc => h c (by simp [hc])]
      simpa [Leaf.route] using h l (by simp)

theorem find?_leaves_split {ls ks : List Leaf} {l : Leaf} (offset : Nat)
    (h : ∀ k ∈ ls, k.segment ≠ l.segment) :
    (Leaf.routes offset (ls ++ l :: ks)).find? (fun e => e.path = some l.segment)
      = some (l.route (offset + (ls.flatMap Leaf.text).length)) := by
  induction ls generalizing offset with
  | nil =>
      rw [List.nil_append, Leaf.routes, List.find?_cons_of_pos]
      · rfl
      · simp [Leaf.route]
  | cons k ls ih =>
      rw [List.cons_append, Leaf.routes, List.find?_cons_of_neg, ih _ fun d hd => h d (by simp [hd]),
        List.flatMap_cons, List.length_append, Nat.add_assoc]
      simpa [Leaf.route] using h k (by simp)

/-- The block of a module in the forest of a print. -/
theorem module?_text {o : Outline} (h : o.Sound) (file segment : Text) :
    ∃ root, Route.forest o.text file = .ok [root] ∧ Route.module? [root] segment
      = (Branch.routes o.branchesAt o.branches).find? fun e => e.path = some segment := by
  rcases forest_text h file with ⟨root, hforest, hchildren⟩
  refine ⟨root, hforest, ?_⟩
  rw [Route.module?, List.findSome?_cons, Route.child?, hchildren]
  cases (Branch.routes o.branchesAt o.branches).find? (fun e => e.path = some segment) <;> rfl

/-- The text of an outline, opened at a block. -/
theorem text_at_branch {o : Outline} {bs cs : List Branch} {b : Branch}
    (hsplit : o.branches = bs ++ b :: cs) :
    o.text = (o.withBranches bs).body ++ (b.text ++ (cs.flatMap Branch.text
      ++ (rootSentinel ++ Outline.tail))) := by
  have hbody := body_withBranches o bs (b :: cs)
  rw [← hsplit, show (o.withBranches o.branches).body = o.body from rfl] at hbody
  rw [text_eq_body, hbody, List.flatMap_cons]
  simp only [List.append_assoc]

theorem branchesAt_add (o : Outline) (bs : List Branch) :
    o.branchesAt + (bs.flatMap Branch.text).length = (o.withBranches bs).body.length := by
  have := body_withBranches o [] bs
  rw [List.nil_append] at this
  rw [this, List.length_append, Outline.branchesAt]

/-- What stands behind a block is no indentation. -/
theorem below_branch_head (bs : List Branch) :
    ∀ c ∈ (bs.flatMap Branch.text ++ (rootSentinel ++ Outline.tail)).head?, isIndent c = false := by
  intro c hc
  cases bs with
  | nil =>
      rw [show (([] : List Branch).flatMap Branch.text ++ (rootSentinel ++ Outline.tail)).head?
        = some '\x7b' from rfl, Option.mem_some_iff] at hc
      subst hc
      decide
  | cons b bs =>
      rcases opening_ends b with ⟨t, ht⟩
      rw [List.flatMap_cons, show b.text = b.opening ++ ("\n          ".toList
        ++ (b.leaves.flatMap Leaf.text ++ (Snippet.sentinelOf b.segment
        ++ "\n        </Route>\n        ".toList))) from rfl, ht] at hc
      simp only [List.cons_append, List.head?_cons, Option.mem_some_iff] at hc
      subst hc
      decide

/-- Cutting out the block of a module. -/
theorem remove_branch {o : Outline} (h : o.Sound) (segment file : Text) :
    Route.remove o.text segment none file = .ok (o.cutBranch segment).text := by
  rcases module?_text h file segment with ⟨root, hforest, hmodule⟩
  -- The block is the first one with this segment, or there is none.
  rcases Pattern.all_or_first (fun b : Branch => decide (b.segment = segment)) o.branches
    with hnone | ⟨bs, b, cs, hsplit, hbs, hb⟩
  · have hne : ∀ b ∈ o.branches, b.segment ≠ segment := fun b hb => by simpa using hnone b hb
    have hsame : o.cutBranch segment = o := by
      rw [Outline.cutBranch, List.eraseP_of_forall_not fun b hb => by simpa using hne b hb]
    rw [Route.remove, hforest]
    simp only [bind, Except.bind, Route.find?]
    rw [hmodule, find?_routes_none _ hne, hsame]
    rfl
  · have hseg : b.segment = segment := by simpa using hb
    subst hseg
    have hne : ∀ c ∈ bs, c.segment ≠ b.segment := fun c hc => by simpa using hbs c hc
    rw [Route.remove, hforest]
    simp only [bind, Except.bind, Route.find?]
    rw [hmodule, hsplit, find?_routes_split _ hne, branchesAt_add]
    have hcut := cut_eq (o.withBranches bs).body b.core "        ".toList
      (cs.flatMap Branch.text ++ (rootSentinel ++ Outline.tail))
      (b.route (o.withBranches bs).body.length) rfl indent_eight (below_branch_head cs)
    have hcol : b.core ++ '\n' :: ("        ".toList ++ (cs.flatMap Branch.text
        ++ (rootSentinel ++ Outline.tail))) = b.text ++ (cs.flatMap Branch.text
        ++ (rootSentinel ++ Outline.tail)) := by
      rw [Branch.text_core]
      simp
    have hafter : o.cutBranch b.segment = o.withBranches (bs ++ cs) := by
      rw [Outline.cutBranch, hsplit, eraseP_split hbs hb]
      rfl
    -- What is cut leaves the blocks around it as they stand.
    rw [hcol, ← text_at_branch hsplit] at hcut
    rw [hafter]
    have hbody := body_withBranches o bs cs
    have htext := text_eq_body (o.withBranches (bs ++ cs))
    rw [hbody, List.append_assoc] at htext
    rw [htext]
    exact congrArg Except.ok hcut

/-! ### Cutting within a block -/

/-- What stands behind the line of a page is no indentation. -/
theorem below_leaf_head (ks : List Leaf) (segment r : Text) :
    ∀ c ∈ (ks.flatMap Leaf.text ++ (Snippet.sentinelOf segment ++ r)).head?, isIndent c = false := by
  intro c hc
  cases ks with
  | nil =>
      rw [sentinelOf_eq_head] at hc
      simp only [List.flatMap_nil, List.nil_append, sentinelHead, List.cons_append, List.head?_cons,
        Option.mem_some_iff] at hc
      subst hc
      decide
  | cons k ks =>
      rcases pageElement_ends k.segment k.name with ⟨t, ht⟩
      rw [List.flatMap_cons, show k.text = Snippet.pageElement k.segment k.name ++ "\n          ".toList
        from rfl, ht] at hc
      simp only [List.cons_append, List.head?_cons, Option.mem_some_iff] at hc
      subst hc
      decide

/-- The text of an outline up to a line of a block. -/
def Outline.upTo (o : Outline) (bs : List Branch) (b : Branch) (ls : List Leaf) : Text :=
  (o.withBranches bs).body ++ (b.opening ++ ("\n          " ++ ls.flatMap Leaf.text))

/-- The text of an outline, opened within a block. -/
theorem text_within {o : Outline} {bs cs : List Branch} {b : Branch} {ls ks : List Leaf}
    (hsplit : o.branches = bs ++ b :: cs) (hleaves : b.leaves = ls ++ ks) :
    o.text = o.upTo bs b ls ++ (ks.flatMap Leaf.text ++ (Snippet.sentinelOf b.segment
      ++ ("\n        </Route>\n        ".toList ++ (cs.flatMap Branch.text
      ++ (rootSentinel ++ Outline.tail))))) := by
  rw [text_at_sentinel hsplit, hleaves, List.flatMap_append, show o.upTo bs b ls
    = (o.withBranches bs).body ++ (b.opening ++ ("\n          ".toList ++ ls.flatMap Leaf.text)) from rfl]
  simp only [List.append_assoc]

theorem length_upTo (o : Outline) (bs : List Branch) (b : Branch) (ls : List Leaf) :
    (o.upTo bs b ls).length = b.leavesAt (o.withBranches bs).body.length
      + (ls.flatMap Leaf.text).length := by
  rw [show o.upTo bs b ls = (o.withBranches bs).body ++ (b.opening ++ ("\n          ".toList
    ++ ls.flatMap Leaf.text)) from rfl, show b.leavesAt (o.withBranches bs).body.length
    = (o.withBranches bs).body.length + (b.opening.length + "\n          ".toList.length) from rfl]
  simp only [List.length_append, Nat.add_assoc]

/-- Cutting out the line of a page. -/
theorem remove_leaf {o : Outline} (h : o.Sound) (within segment file : Text) :
    Route.remove o.text segment (some within) file = .ok (o.cutLeaf within segment).text := by
  rcases module?_text h file within with ⟨root, hforest, hmodule⟩
  rw [Route.remove, hforest]
  simp only [bind, Except.bind, Route.find?, hmodule]
  rcases Pattern.all_or_first (fun b : Branch => decide (b.segment = within)) o.branches
    with hnone | ⟨bs, b, cs, hsplit, hbs, hb⟩
  · have hne : ∀ b ∈ o.branches, b.segment ≠ within := fun b hb => by simpa using hnone b hb
    have hsame : o.cutLeaf within segment = o := by
      rw [Outline.cutLeaf, onFirst_of_forall hnone]
    rw [find?_routes_none _ hne, hsame]
    rfl
  · have hseg : b.segment = within := by simpa using hb
    subst hseg
    have hne : ∀ c ∈ bs, c.segment ≠ b.segment := fun c hc => by simpa using hbs c hc
    have hafter : o.cutLeaf b.segment segment = o.withBranches (bs
        ++ { b with leaves := b.leaves.eraseP fun l => l.segment = segment } :: cs) := by
      rw [Outline.cutLeaf, hsplit, onFirst_split hbs hb]
      rfl
    rw [hsplit, find?_routes_split _ hne, branchesAt_add, Option.bind_some, Route.child?, hafter,
      Branch.route]
    -- Within the block, the leaf is the first one with its segment, or there is none.
    rcases Pattern.all_or_first (fun l : Leaf => decide (l.segment = segment)) b.leaves
      with hnone | ⟨ls, l, ks, hleaves, hls, hl⟩
    · have hnel : ∀ l ∈ b.leaves, l.segment ≠ segment := fun l hl => by simpa using hnone l hl
      have hsame : o.withBranches (bs ++ { b with leaves := b.leaves } :: cs) = o := by
        rw [show { b with leaves := b.leaves } = b from rfl, ← hsplit]
        rfl
      rw [find?_leaves_none _ hnel, List.eraseP_of_forall_not fun l hl => by simpa using hnel l hl,
        hsame]
      rfl
    · have hsegl : l.segment = segment := by simpa using hl
      subst hsegl
      have hnel : ∀ k ∈ ls, k.segment ≠ l.segment := fun k hk => by simpa using hls k hk
      rw [hleaves, find?_leaves_split _ hnel, ← length_upTo, eraseP_split hls hl]
      have hcut := cut_eq (o.upTo bs b ls) (Snippet.pageElement l.segment l.name) "          ".toList
        (ks.flatMap Leaf.text ++ (Snippet.sentinelOf b.segment ++ ("\n        </Route>\n        ".toList
        ++ (cs.flatMap Branch.text ++ (rootSentinel ++ Outline.tail)))))
        (l.route (o.upTo bs b ls).length) rfl indent_ten (below_leaf_head ks _ _)
      have htext := text_within hsplit hleaves
      rw [List.flatMap_cons, show l.text = Snippet.pageElement l.segment l.name
        ++ '\n' :: "          ".toList from rfl, List.append_assoc, List.append_assoc,
        List.cons_append] at htext
      rw [← htext] at hcut
      have hcutText := @text_within (o.withBranches (bs ++ { b with leaves := ls ++ ks } :: cs)) bs cs
        { b with leaves := ls ++ ks } ls ks rfl rfl
      rw [hcutText]
      exact congrArg Except.ok hcut

theorem sound_cutBranch {o : Outline} (h : o.Sound) (segment : Text) : (o.cutBranch segment).Sound :=
  sound_withBranches h (List.eraseP_sublist)

theorem sound_cutLeaf {o : Outline} (h : o.Sound) (within segment : Text) :
    (o.cutLeaf within segment).Sound := by
  rcases Pattern.all_or_first (fun b : Branch => decide (b.segment = within)) o.branches
    with hnone | ⟨bs, b, cs, hsplit, hbs, hb⟩
  · rw [Outline.cutLeaf, onFirst_of_forall hnone]
    exact h
  · have hafter : o.cutLeaf within segment = o.withBranches (bs
        ++ { b with leaves := b.leaves.eraseP fun l => l.segment = segment } :: cs) := by
      rw [Outline.cutLeaf, hsplit, onFirst_split hbs hb]
      rfl
    rw [hafter]
    have hbsound := h.branches b (by simp [hsplit])
    -- Only the leaves of this one block are fewer.
    refine ⟨h.role, h.imports, ?_, ?_⟩
    · intro c hc
      rcases List.mem_append.mp hc with hc | hc
      · exact h.branches c (by simp [hsplit, hc])
      · rcases List.mem_cons.mp hc with rfl | hc
        · exact ⟨hbsound.segment, hbsound.name, hbsound.constant,
            fun l hl => hbsound.leaves l (List.mem_of_mem_eraseP hl)⟩
        · exact h.branches c (by simp [hsplit, hc])
    · have hnodup := h.constants
      rw [hsplit, List.map_append, List.map_cons] at hnodup
      rw [show (o.withBranches (bs
        ++ { b with leaves := b.leaves.eraseP fun l => l.segment = segment } :: cs)).branches = bs
        ++ { b with leaves := b.leaves.eraseP fun l => l.segment = segment } :: cs from rfl,
        List.map_append, List.map_cons]
      exact hnodup

end Marker

end RouteScaffold

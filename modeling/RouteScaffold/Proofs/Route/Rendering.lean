import RouteScaffold.Proofs.Marker.Blocks
import RouteScaffold.Proofs.Route.Cutting

/-!
# Elements That Are Written with Snippets

Two snippets write route elements: one an element with nothing in it, the other an
element around some text. Written into one another they make up trees of any depth,
and what is read from the text of such a tree is the tree again.

Between the tags there are spaces and line breaks only, and no tag is broken over two
lines. To move a text in changes the spaces and nothing else, so a text keeps its tags
however often it is moved in (`Tagged.reindent`). What a tag says does not depend on
what is around it, since the name of an element, whatever brackets and slashes there
are in it, stays within its braces, and a path within its quotes.

## Main definitions

* `Route.Sketch`: A tree of elements that is to be written.
* `Route.Sketch.text`: Its text.
* `Route.Shape`: A tree of elements, wherever they stand.
* `Route.Tagged`: A text that is made up of tags.

## Theorems

* `Tagged.reindent`: A text that is moved in keeps its tags.
* `Sketch.Sound.tagged`: The tags of the text of a tree.
* `forest_sketch`: The text of a tree is read as the tree.
-/

namespace RouteScaffold

/-- The element of a module around some text. -/
def Snippet.blockAround (segment name inner : Text) : Text :=
  moduleBlock.render fun
    | .segment => segment
    | .name => name
    | .sentinel => inner
    | _ => []

/-! ### Lines that are moved in -/

namespace Text

variable {sep : Char} {indent s t first : Text} {rest : List Text}

theorem splitAt_prepend (hs : sep ∉ s) (ht : splitAt sep t = first :: rest) :
    splitAt sep (s ++ t) = (s ++ first) :: rest := by
  induction s with
  | nil => exact ht
  | cons c s ih =>
      rw [List.mem_cons, not_or] at hs
      rw [List.cons_append, splitAt, if_neg (Ne.symm hs.1), ih hs.2]
      rfl

theorem join_prepend (sep s first : Text) (rest : List Text) :
    join sep ((s ++ first) :: rest) = s ++ join sep (first :: rest) := by
  cases rest with
  | nil => rfl
  | cons line rest => simp [join]

/-- A line behind the first one, when its text is moved in. -/
def movedIn (indent line : Text) : Text := if line.isBlankLine then [] else indent ++ line

theorem reindent_of_lines (hlines : lines t = first :: rest) (hhead : ∀ c ∈ t.head?, c ≠ '\n')
    (hlast : ∀ c ∈ t.getLast?, c ≠ '\n') :
    reindent t indent = join ['\n'] (first :: rest.map (movedIn indent)) := by
  have htrim : trimBoth (· = '\n') t = t :=
    trimBoth_of (fun c hc => decide_eq_false (hhead c hc)) fun c hc => decide_eq_false (hlast c hc)
  rw [reindent, htrim, hlines]
  rfl

end Text

namespace Route

open Text

/-! ### Texts made up of tags -/

/-- What a tag says, wherever it stands. -/
inductive Mark where
  | opening (path : Option Text) (selfClosing : Bool)
  | closing
  deriving DecidableEq, Repr

/-- What a tag says. -/
def markOf : Tag → Mark
  | .opening tag => .opening tag.path tag.selfClosing
  | .closing _ => .closing

/-- A text that is made up of tags, each on one line, with spaces and line breaks
    between them. -/
inductive Tagged : Text → List Mark → Prop where
  | nil : Tagged [] []
  | space {t : Text} {marks : List Mark} (behind : Tagged t marks) : Tagged (' ' :: t) marks
  | lineBreak {t : Text} {marks : List Mark} (behind : Tagged t marks) : Tagged ('\n' :: t) marks
  | opening {s t : Text} {marks : List Mark} (tag : Tag.IsOpening s) (line : '\n' ∉ s)
      (behind : Tagged t marks) :
      Tagged (s ++ t) (.opening (Tag.pathFrom? none s) (Tag.isSelfClosing s) :: marks)
  | closing {t : Text} {marks : List Mark} (behind : Tagged t marks) :
      Tagged (Tag.closingTag ++ t) (.closing :: marks)

variable {s t u : Text} {marks marks' : List Mark}

theorem Tagged.append (h : Tagged t marks) (h' : Tagged u marks') :
    Tagged (t ++ u) (marks ++ marks') := by
  induction h with
  | nil => exact h'
  | space behind ih => exact .space ih
  | lineBreak behind ih => exact .lineBreak ih
  | opening tag line behind ih =>
      rw [List.append_assoc]
      exact .opening tag line ih
  | closing behind ih =>
      rw [List.append_assoc]
      exact .closing ih

/-- Spaces in front of a text are none of its tags. -/
theorem Tagged.spaces (n : Nat) (h : Tagged t marks) : Tagged (List.replicate n ' ' ++ t) marks := by
  induction n with
  | zero => exact h
  | succ n ih => exact .space ih

/-- No tag begins with a blank, so blanks in front of a text can be left out. -/
theorem Tagged.of_blanks (hblank : s.isBlankLine = true) (h : Tagged (s ++ t) marks) :
    Tagged t marks := by
  induction s generalizing marks with
  | nil => exact h
  | cons c s ih =>
      rw [isBlankLine, List.all_cons, Bool.and_eq_true] at hblank
      have hbracket : c ≠ '<' := by
        rintro rfl
        exact absurd hblank.1 (by decide)
      -- The text is generalised first: that of a tag is no pattern that the cases could match.
      generalize htext : c :: s ++ t = text at h
      cases h with
      | nil => exact absurd htext (by simp)
      | space behind =>
          rw [List.cons_append, List.cons.injEq] at htext
          exact ih hblank.2 (htext.2 ▸ behind)
      | lineBreak behind =>
          rw [List.cons_append, List.cons.injEq] at htext
          exact ih hblank.2 (htext.2 ▸ behind)
      | opening tag line behind =>
          rcases tag.parts with ⟨d, u, rfl, -⟩
          exact absurd (List.cons.inj htext).1 hbracket
      | closing behind => exact absurd (List.cons.inj htext).1 hbracket

/-- The tags that are read from a text are those it is made up of. -/
theorem Tagged.readFrom (h : Tagged t marks) (offset : Nat) :
    ∃ tags, Tag.readFrom offset 0 t = (tags, none) ∧ tags.map markOf = marks := by
  induction h generalizing offset with
  | nil => exact ⟨[], rfl, rfl⟩
  | @space t marks behind ih =>
      rcases ih (offset + 1) with ⟨tags, hread, hmarks⟩
      exact ⟨tags, (Tag.readFrom_plain offset (s := [' ']) (by decide) t).trans hread, hmarks⟩
  | @lineBreak t marks behind ih =>
      rcases ih (offset + 1) with ⟨tags, hread, hmarks⟩
      exact ⟨tags, (Tag.readFrom_plain offset (s := ['\n']) (by decide) t).trans hread, hmarks⟩
  | @opening s t marks tag line behind ih =>
      rcases ih (offset + s.length) with ⟨tags, hread, rfl⟩
      refine ⟨.opening (Tag.openingOf offset s) :: tags, ?_, rfl⟩
      -- The text of each tag is read as one tag, whatever is behind it.
      rw [Tag.readFrom_opening offset tag, hread]
  | @closing t marks behind ih =>
      rcases ih (offset + Tag.closingTag.length) with ⟨tags, hread, rfl⟩
      refine ⟨.closing ⟨offset, offset + Tag.closingTag.length⟩ :: tags, ?_, rfl⟩
      rw [Tag.readFrom_closing, hread]

/-- Lines that are moved in have the tags that they had. -/
theorem Tagged.lines (h : Tagged t marks) (n : Nat) : ∃ first rest, Text.lines t = first :: rest
    ∧ Tagged (join ['\n'] (first :: rest.map (movedIn (List.replicate n ' ')))) marks := by
  induction h with
  | nil => exact ⟨[], [], rfl, .nil⟩
  -- Only behind a line break can an indentation change the text.
  | space behind ih =>
      rcases ih with ⟨first, rest, hlines, htags⟩
      refine ⟨' ' :: first, rest, splitAt_prepend (s := [' ']) (by decide) hlines, ?_⟩
      change Tagged (join ['\n'] (([' '] ++ first) :: _)) _
      rw [join_prepend]
      exact .space htags
  | opening tag line behind ih =>
      rcases ih with ⟨first, rest, hlines, htags⟩
      refine ⟨_, rest, splitAt_prepend line hlines, ?_⟩
      rw [join_prepend]
      exact .opening tag line htags
  | closing behind ih =>
      rcases ih with ⟨first, rest, hlines, htags⟩
      refine ⟨_, rest, splitAt_prepend (by decide) hlines, ?_⟩
      rw [join_prepend]
      exact .closing htags
  | @lineBreak t marks behind ih =>
      rcases ih with ⟨first, rest, hlines, htags⟩
      refine ⟨[], first :: rest, ?_, ?_⟩
      · rw [Text.lines, splitAt, if_pos rfl]
        exact congrArg _ hlines
      · -- The first line behind the break is moved in itself, or loses its blanks.
        rw [List.map_cons, join]
        · refine .lineBreak ?_
          rw [movedIn]
          split
          · next hblank =>
              rw [← List.append_nil first, join_prepend] at htags
              exact htags.of_blanks hblank
          · rw [join_prepend]
            exact htags.spaces n
        · simp

/-- A text that is moved in keeps its tags. -/
theorem Tagged.reindent (h : Tagged t marks) (hhead : ∀ c ∈ t.head?, c ≠ '\n')
    (hlast : ∀ c ∈ t.getLast?, c ≠ '\n') (n : Nat) :
    Tagged (t.reindent (List.replicate n ' ')) marks := by
  rcases h.lines n with ⟨first, rest, hlines, htags⟩
  rwa [reindent_of_lines hlines hhead hlast]

/-! ### Trees -/

/-- How an element is placed in the text around it. -/
structure Placing where
  /-- The number of spaces in front of it. -/
  lead : Nat
  /-- The number of spaces that its other lines are moved in by, if they are. -/
  indent : Option Nat
  deriving DecidableEq, Repr

/-- A text that is placed. -/
def Placing.put (p : Placing) (t : Text) : Text :=
  List.replicate p.lead ' ' ++ match p.indent with
    | some n => t.reindent (List.replicate n ' ')
    | none => t

/-- A tree of elements that is to be written, each with its path and the name of what
    it shows. -/
inductive Sketch where
  | leaf (placing : Placing) (path name : Text)
  | block (placing : Placing) (path name : Text) (children : List Sketch)
  deriving Repr

mutual

/-- The text of a tree: its elements by the snippets, those in a block one below the
    other in the place of its sentinel. -/
def Sketch.text : Sketch → Text
  | .leaf placing path name => placing.put (Snippet.pageElement path name)
  | .block placing path name children =>
    placing.put (Snippet.blockAround path name (join ['\n'] (Sketch.texts children)))

/-- The texts of trees. -/
def Sketch.texts : List Sketch → List Text
  | [] => []
  | s :: ss => s.text :: Sketch.texts ss

end

/-- A tree of elements, wherever they stand. -/
inductive Shape where
  | node (path : Option Text) (selfClosing : Bool) (children : List Shape)
  deriving Repr

mutual

/-- The tree of an element. -/
def shape : Route → Shape
  | ⟨_, path, selfClosing, children⟩ => .node path selfClosing (shapes children)

/-- The trees of elements. -/
def shapes : List Route → List Shape
  | [] => []
  | e :: es => e.shape :: shapes es

end

mutual

/-- The tree that is written: a leaf is a tag of its own, a block is not. -/
def Sketch.shape : Sketch → Shape
  | .leaf _ path _ => .node (some path) true []
  | .block _ path _ children => .node (some path) false (Sketch.shapes children)

/-- The trees that are written. -/
def Sketch.shapes : List Sketch → List Shape
  | [] => []
  | s :: ss => s.shape :: Sketch.shapes ss

end

mutual

/-- What the tags of a tree say. -/
def Sketch.tags : Sketch → List Mark
  | .leaf _ path _ => [.opening (some path) true]
  | .block _ path _ children => .opening (some path) false :: (Sketch.allTags children ++ [.closing])

/-- What the tags of trees say, one behind the other. -/
def Sketch.allTags : List Sketch → List Mark
  | [] => []
  | s :: ss => s.tags ++ Sketch.allTags ss

end

/-- A path and a name that fill an opening tag, and keep it on its line. -/
structure Fits (path name : Text) : Prop where
  legible : Marker.Legible path name
  path_line : '\n' ∉ path
  name_line : '\n' ∉ name

/-- A tree in which each path stays within its quotes, each name within its braces, and
    both on their line. -/
inductive Sketch.Sound : Sketch → Prop where
  | leaf {placing : Placing} {path name : Text} (fits : Fits path name) :
      Sound (.leaf placing path name)
  | block {placing : Placing} {path name : Text} {children : List Sketch} (fits : Fits path name)
      (within : ∀ s ∈ children, s.Sound) : Sound (.block placing path name children)

/-! ### The text of a tree -/

variable {path name : Text} {tags : List Tag}

/-- An element that is placed keeps its tags. -/
theorem Tagged.put (h : Tagged t marks) (hends : ∃ u, t = '<' :: (u ++ ['>'])) (p : Placing) :
    Tagged (p.put t) marks := by
  rcases p with ⟨lead, _ | n⟩
  · exact h.spaces lead
  · rcases hends with ⟨u, rfl⟩
    refine (h.reindent (by simp) ?_ n).spaces lead
    rw [← List.cons_append, List.getLast?_concat]
    simp

/-- The tags of trees that stand one below the other. -/
theorem Tagged.join {ss : List Sketch} (h : ∀ s ∈ ss, Tagged s.text s.tags) :
    Tagged (Text.join ['\n'] (Sketch.texts ss)) (Sketch.allTags ss) := by
  induction ss with
  | nil => exact .nil
  | cons s ss ih =>
      rw [List.forall_mem_cons] at h
      cases ss with
      | nil =>
          rw [Sketch.texts, Sketch.texts, Text.join, Sketch.allTags, Sketch.allTags, List.append_nil]
          exact h.1
      | cons s' ss =>
          rw [Sketch.texts, Sketch.texts, Text.join, List.append_assoc, Sketch.allTags]
          · exact h.1.append (.lineBreak (ih h.2))
          · simp

theorem tagged_page (h : Fits path name) :
    Tagged (Snippet.pageElement path name) [.opening (some path) true] := by
  rcases Marker.isOpening_pageElement (l := ⟨path, name⟩) h.legible with ⟨hopening, hpath, hself⟩
  have := Tagged.opening hopening (Marker.pageElement_line h.path_line h.name_line) .nil
  rwa [hpath, hself, List.append_nil] at this

theorem blockAround_eq (path name inner : Text) : Snippet.blockAround path name inner
    = (Marker.Branch.mk path name []).opening ++ '\n' :: ' ' :: ' ' :: (inner ++ '\n' :: Tag.closingTag) := by
  rw [show Snippet.blockAround path name inner = "<Route path=\"".toList ++ (path
    ++ ("\" element=\x7b<".toList ++ (name ++ (" />\x7d>\n  ".toList
      ++ (inner ++ '\n' :: Tag.closingTag))))) from rfl, Marker.Branch.opening_eq]
  simp

theorem blockAround_ends (path name inner : Text) :
    ∃ t, Snippet.blockAround path name inner = '<' :: (t ++ ['>']) := by
  rcases Marker.opening_ends ⟨path, name, []⟩ with ⟨u, hu⟩
  refine ⟨u ++ ">\n  ".toList ++ inner ++ "\n</Route".toList, ?_⟩
  rw [blockAround_eq, hu, show Tag.closingTag = "</Route".toList ++ ['>'] from rfl]
  simp

theorem tagged_block {inner : Text} (h : Fits path name) (hinner : Tagged inner marks) :
    Tagged (Snippet.blockAround path name inner)
      (.opening (some path) false :: (marks ++ [.closing])) := by
  rcases Marker.isOpening_opening (b := ⟨path, name, []⟩) h.legible with ⟨hopening, hpath, hself⟩
  have hclosing : Tagged Tag.closingTag [.closing] := by
    have := Tagged.closing .nil
    rwa [List.append_nil] at this
  have := Tagged.opening hopening (Marker.opening_line h.path_line h.name_line)
    (.lineBreak (.space (.space (hinner.append (.lineBreak hclosing)))))
  rw [hpath, hself] at this
  rwa [blockAround_eq]

/-- The text of a tree is made up of the tags of its elements. -/
theorem Sketch.Sound.tagged {s : Sketch} (h : s.Sound) : Tagged s.text s.tags := by
  induction h with
  | @leaf placing path name fits =>
      rw [Sketch.text, Sketch.tags]
      exact (tagged_page fits).put (Marker.pageElement_ends path name) placing
  | @block placing path name children fits within ih =>
      rw [Sketch.text, Sketch.tags]
      exact (tagged_block fits (Tagged.join ih)).put (blockAround_ends path name _) placing

/-! ### What is read -/

theorem spelled_all {ss : List Sketch} (h : ∀ s ∈ ss, ∀ tags : List Tag, tags.map markOf = s.tags →
      ∃ e, Spells tags [e] ∧ e.shape = s.shape) (htags : tags.map markOf = Sketch.allTags ss) :
    ∃ es, Spells tags es ∧ shapes es = Sketch.shapes ss := by
  induction ss generalizing tags with
  | nil =>
      rw [Sketch.allTags, List.map_eq_nil_iff] at htags
      rw [htags]
      exact ⟨[], .nil, rfl⟩
  | cons s ss ih =>
      rw [List.forall_mem_cons] at h
      rw [Sketch.allTags, List.map_eq_append_iff] at htags
      rcases htags with ⟨own, others, rfl, hown, hothers⟩
      rcases h.1 own hown with ⟨e, hspells, hshape⟩
      rcases ih h.2 hothers with ⟨es, hes, hshapes⟩
      refine ⟨e :: es, hspells.append hes, ?_⟩
      rw [shapes, Sketch.shapes, hshape, hshapes]

/-- Tags that say what those of a tree say spell an element with that tree. -/
theorem Sketch.Sound.spelled {s : Sketch} (h : s.Sound) (htags : tags.map markOf = s.tags) :
    ∃ e, Spells tags [e] ∧ e.shape = s.shape := by
  induction h generalizing tags with
  | @leaf placing path name fits =>
      rw [Sketch.tags, List.map_eq_singleton_iff] at htags
      rcases htags with ⟨tag, rfl, hmark⟩
      -- An opening tag that is closed by itself is an element without children.
      cases tag with
      | closing span => exact absurd hmark (by simp [markOf])
      | opening tag =>
          obtain ⟨hpath, hself⟩ := Mark.opening.inj hmark
          refine ⟨_, .leaf hself .nil, ?_⟩
          rw [Sketch.shape, ← hpath]
          rfl
  | @block placing path name children fits within ih =>
      rw [Sketch.tags, List.map_eq_cons_iff] at htags
      rcases htags with ⟨first, behind, rfl, hfirst, hbehind⟩
      rcases List.map_eq_append_iff.mp hbehind with ⟨inner, last, rfl, hinner, hlast⟩
      rcases List.map_eq_singleton_iff.mp hlast with ⟨last, rfl, hlast⟩
      -- The first tag opens the element, the last one closes it, and its children lie between them.
      cases first with
      | closing span => exact absurd hfirst (by simp [markOf])
      | opening tag =>
          obtain ⟨hpath, hself⟩ := Mark.opening.inj hfirst
          cases last with
          | opening tag => exact absurd hlast (by simp [markOf])
          | closing span =>
              rcases spelled_all (fun s hs tags htags => ih s hs htags) hinner with ⟨es, hes, hshapes⟩
              refine ⟨_, .block hself hes .nil, ?_⟩
              rw [Sketch.shape, ← hshapes, ← hpath]
              rfl

theorem foldl_add_roots (roots es : List Route) :
    es.foldl Reading.add ⟨[], roots⟩ = ⟨[], es.reverse ++ roots⟩ := by
  induction es generalizing roots with
  | nil => rfl
  | cons e es ih =>
      rw [List.foldl_cons, Reading.add, ih]
      simp

/-- A text whose tags spell elements has these as its forest. -/
theorem Spells.scan {es : List Route} (h : Spells tags es) (hread : Tag.read t = (tags, none)) :
    scan t = .ok es := by
  change Tag.readFrom 0 0 t = _ at hread
  rw [scan_eq_ok_iff, goOn_eq_ok, hread, h.foldlM, foldl_add_roots, List.append_nil]
  exact ⟨rfl, rfl⟩

/-- What is read from the text of a tree is the tree: its elements are nested as they
    were written, in their order, with their paths, and the leaves are closed by
    themselves. -/
theorem forest_sketch {s : Sketch} (h : s.Sound) (file : Text) :
    ∃ e, forest s.text file = .ok [e] ∧ e.shape = s.shape := by
  rcases h.tagged.readFrom 0 with ⟨tags, hread, htags⟩
  rcases h.spelled htags with ⟨e, hspells, hshape⟩
  exact ⟨e, forest_eq_ok.mpr (hspells.scan hread), hshape⟩

/-- A page in a module within a module, moved in and with brackets in its name. -/
def nested : Sketch :=
  .block ⟨0, none⟩ "admin" "Layout"
    [.leaf ⟨0, none⟩ "home" "Home", .block ⟨2, some 4⟩ "users" "Users"
      [.leaf ⟨2, some 2⟩ "it's > a \x7b page" "Page wide /><Route /"]]

theorem forest_sketch_nested : nested.Sound ∧ nested.text = join ['\n']
      ["<Route path=\"admin\" element=\x7b<Layout />\x7d>",
        "  <Route path=\"home\" element=\x7b<Home />\x7d />",
        "  <Route path=\"users\" element=\x7b<Users />\x7d>",
        "        <Route path=\"it's > a \x7b page\" element=\x7b<Page wide /><Route / />\x7d />",
        "    </Route>", "</Route>"]
    ∧ ∃ e, forest nested.text "route.tsx".toList = .ok [e] ∧ e.shape = nested.shape := by
  have hpage : (Sketch.leaf ⟨2, some 2⟩ "it's > a \x7b page" "Page wide /><Route /").Sound :=
    .leaf ⟨⟨by decide, by decide⟩, by decide, by decide⟩
  have hhome : (Sketch.leaf ⟨0, none⟩ "home" "Home").Sound :=
    .leaf ⟨⟨by decide, by decide⟩, by decide, by decide⟩
  have hsound : nested.Sound := by
    refine .block ⟨⟨by decide, by decide⟩, by decide, by decide⟩ ?_
    rw [List.forall_mem_cons, List.forall_mem_singleton]
    refine ⟨hhome, .block ⟨⟨by decide, by decide⟩, by decide, by decide⟩ ?_⟩
    rw [List.forall_mem_singleton]
    exact hpage
  exact ⟨hsound, by decide +kernel, forest_sketch hsound _⟩

end Route

end RouteScaffold

import RouteScaffold.Disk.SystemError
import RouteScaffold.Path
import RouteScaffold.Text.Utf8

/-!
# Trees

A tree of folders and files as a list of entries, each with its location: the
names on the way to it from the root. The root itself is a folder and has no
entry. Nothing but a location decides where an entry lies, so what a write
does to one location says nothing about any other.

A write is one thing that happens to a tree at once: an entry is put at a
location, or the entry at a location is erased. Everything a command does to a
tree is a list of writes, and a command that is cut short has done the first
few of them.

A file holds text if its bytes spell one, and its bytes otherwise. So two
files hold the same bytes exactly when they hold the same content.

## Main definitions

* `Content`, `Entry`, `Tree`: Files, folders and trees.
* `Tree.get?`, `Tree.put`, `Tree.erase`: One location.
* `Tree.below`: Everything in a folder, the deepest first.
* `Tree.walk`: Where a sequence of names leads.
* `Write`, `Tree.apply`: What happens to a tree at once.

## Theorems

* `get?_put`: After a put, a location holds what was put there, and every
  other location what it held.
* `get?_erase`: After an erasure, a location holds nothing, and every other
  location what it held.
-/

namespace RouteScaffold

/-- The names on the way from the root to an entry. -/
abbrev Location := List Text

/-- What a file holds. -/
inductive Content where
  | text (t : Text)
  /-- Bytes that spell no text. -/
  | bytes (bs : List UInt8)
  deriving DecidableEq, Repr

namespace Content

/-- The content that bytes are. -/
def ofBytes (bs : List UInt8) : Content :=
  match Utf8.decode bs with
  | .ok t => text t
  | .error _ => bytes bs

/-- The text of a content. -/
def read : Content → Except Utf8.Fault Text
  | text t => .ok t
  | bytes bs => Utf8.decode bs

end Content

/-- A folder, or a file with its content. -/
inductive Entry where
  | folder
  | file (content : Content)
  deriving DecidableEq, Repr

/-- A tree of folders and files. -/
structure Tree where
  entries : List (Location × Entry)
  deriving Repr

namespace Tree

/-- The tree with nothing but its root. -/
def empty : Tree := ⟨[]⟩

/-- The entry at a location, among some entries. -/
def entryAt (loc : Location) : List (Location × Entry) → Option Entry
  | [] => none
  | (l, e) :: rest => if l = loc then some e else entryAt loc rest

/-- The entry at a location. -/
def get? (t : Tree) (loc : Location) : Option Entry :=
  if loc = [] then some .folder else entryAt loc t.entries

/-- Puts an entry at a location, among some entries. One that is there already
    keeps its place. -/
def putAt (loc : Location) (entry : Entry) : List (Location × Entry) → List (Location × Entry)
  | [] => [(loc, entry)]
  | (l, e) :: rest => if l = loc then (l, entry) :: rest else (l, e) :: putAt loc entry rest

/-- Puts an entry at a location. -/
def put (t : Tree) (loc : Location) (entry : Entry) : Tree := ⟨putAt loc entry t.entries⟩

/-- Erases the entry at a location. -/
def erase (t : Tree) (loc : Location) : Tree := ⟨t.entries.filter fun e => e.1 ≠ loc⟩

/-- Whether a location lies in a folder, at any depth. -/
def isBelow (folder loc : Location) : Bool := folder.isPrefixOf loc && folder.length < loc.length

/-- Puts a location before the first one that is not deeper. -/
def placeByDepth (loc : Location) : List Location → List Location
  | [] => [loc]
  | l :: rest => if l.length ≤ loc.length then loc :: l :: rest else l :: placeByDepth loc rest

/-- Everything in a folder, the deepest first, so that a folder stands behind
    everything in it. -/
def below (t : Tree) (folder : Location) : List Location :=
  ((t.entries.map Prod.fst).filter (isBelow folder)).foldr placeByDepth []

/-- The names in a folder. -/
def namesIn (t : Tree) (folder : Location) : List Text :=
  t.entries.filterMap fun e => if e.1.dropLast = folder then e.1.getLast? else none

@[simp] theorem get?_root (t : Tree) : t.get? [] = some .folder := by simp [get?]

theorem entryAt_putAt (loc l : Location) (entry : Entry) (es : List (Location × Entry)) :
    entryAt l (putAt loc entry es) = if l = loc then some entry else entryAt l es := by
  induction es with
  | nil => simp [putAt, entryAt, eq_comm]
  | cons e es ih =>
    obtain ⟨k, x⟩ := e
    by_cases hk : k = loc
    · subst hk
      by_cases hl : k = l
      · simp [putAt, entryAt, hl]
      · simp [putAt, entryAt, hl, Ne.symm hl]
    · by_cases hl : k = l
      · subst hl
        simp [putAt, entryAt, hk]
      · simp [putAt, entryAt, hk, hl, ih]

theorem get?_put (t : Tree) (loc l : Location) (entry : Entry) (h : loc ≠ []) :
    (t.put loc entry).get? l = if l = loc then some entry else t.get? l := by
  by_cases hl : l = []
  · subst hl
    simp [get?, Ne.symm h]
  · simp [get?, put, hl, entryAt_putAt]

theorem entryAt_filter (loc l : Location) (es : List (Location × Entry)) :
    entryAt l (es.filter fun e => e.1 ≠ loc) = if l = loc then none else entryAt l es := by
  induction es with
  | nil => simp [entryAt]
  | cons e es ih =>
    obtain ⟨k, x⟩ := e
    by_cases hk : k = loc
    · subst hk
      by_cases hl : l = k
      · simpa [hl] using ih
      · simpa [entryAt, hl, Ne.symm hl] using ih
    · by_cases hl : k = l
      · subst hl
        simp [entryAt, hk]
      · simpa [entryAt, hk, hl] using ih

theorem get?_erase (t : Tree) (loc l : Location) (h : loc ≠ []) :
    (t.erase loc).get? l = if l = loc then none else t.get? l := by
  by_cases hl : l = []
  · subst hl
    simp [get?, Ne.symm h]
  · simpa [get?, erase, hl] using entryAt_filter loc l t.entries

end Tree

/-- How many bytes a name may take. -/
def nameLimit : Nat := 255

/-- Where names lead from a location. Every name but the last has to lead
    through a folder; the last one may lead to nothing. Double dots lead to
    the folder above. A name that is too long is refused by the folder in which
    it is looked up. -/
def Tree.walk (t : Tree) : Location → List Text → Except SystemError Location
  | loc, [] => .ok loc
  | loc, name :: names =>
    match t.get? loc with
    | some .folder =>
      if nameLimit < Utf8.size name then .error .nameTooLong
      else t.walk (if name = ['.', '.'] then loc.dropLast else loc ++ [name]) names
    | some (.file _) => .error .notDirectory
    | none => .error .missing

/-- One thing that happens to a tree. -/
inductive Write where
  | put (loc : Location) (entry : Entry)
  | erase (loc : Location)
  deriving DecidableEq, Repr

/-- The tree after a write. -/
def Tree.apply (t : Tree) : Write → Tree
  | .put loc entry => t.put loc entry
  | .erase loc => t.erase loc

/-- The tree after some writes. -/
def Tree.applyAll (t : Tree) (ws : List Write) : Tree := ws.foldl Tree.apply t

end RouteScaffold

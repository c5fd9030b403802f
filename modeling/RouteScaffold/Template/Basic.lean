import RouteScaffold.Fault
import RouteScaffold.Text.Case

/-!
# Templates

A template is a sequence of pieces: text that is written as it stands, and
slots for values. One slot form writes its value as a constant: in upper case,
with underscores for hyphens.

Values are written as they are and never read as templates themselves. A
template can be filled only when every slot in it has a value; the first slot
without one is the fault.

## Main definitions

* `Slot`: What a template can ask for.
* `Template.fill`: The text of a template, all slots having values.
* `Template.fill?`: The text of a template, or the first slot without a value.

## Theorems

* `fill?_some`: Where all slots have values, the two agree.
-/

namespace RouteScaffold

/-- What a template can ask for. -/
inductive Slot where
  | name
  | segment
  | source
  | sentinel
  | path
  | registrySymbol
  | routeSymbol
  deriving DecidableEq, Repr

/-- The name under which the value of a slot is given. -/
def Slot.label : Slot → Text
  | .name => "name"
  | .segment => "segment"
  | .source => "source"
  | .sentinel => "sentinel"
  | .path => "path"
  | .registrySymbol => "registry_symbol"
  | .routeSymbol => "route_symbol"

/-- A part of a template. -/
inductive Piece where
  /-- Text written as it stands. -/
  | text (t : Text)
  /-- A value. -/
  | value (slot : Slot)
  /-- A value written as a constant. -/
  | constant (slot : Slot)

instance : Coe String Piece := ⟨fun s => .text s.toList⟩

/-- A sequence of pieces. -/
abbrev Template := List Piece

/-- A value written as a constant: upper case, with underscores for
    hyphens. -/
def asConstant (value : Text) : Text :=
  Text.upper (value.map fun c => if c = '-' then '_' else c)

namespace Piece

/-- A piece with the values of its slots written in. -/
def fill (values : Slot → Text) : Piece → Text
  | text t => t
  | value slot => values slot
  | constant slot => asConstant (values slot)

/-- A piece with the values of its slots written in, some of which may be
    missing. -/
def fill? (values : Slot → Option Text) : Piece → Except Fault Text
  | text t => .ok t
  | value slot =>
    match values slot with
    | some v => .ok v
    | none => .error (.undefinedSlot slot.label)
  | constant slot =>
    match values slot with
    | some v => .ok (asConstant v)
    | none => .error (.undefinedSlot slot.label)

theorem fill?_some (values : Slot → Text) (p : Piece) :
    p.fill? (fun s => some (values s)) = .ok (p.fill values) := by
  cases p <;> rfl

end Piece

namespace Template

/-- The text of a template, all slots having values. -/
def fill (values : Slot → Text) (t : Template) : Text := t.flatMap (Piece.fill values)

/-- The text of a template, or the first slot without a value. -/
def fill? (values : Slot → Option Text) : Template → Except Fault Text
  | [] => .ok []
  | p :: t => do
    let head ← p.fill? values
    let rest ← fill? values t
    return head ++ rest

theorem fill?_some (values : Slot → Text) (t : Template) :
    t.fill? (fun s => some (values s)) = .ok (t.fill values) := by
  induction t with
  | nil => rfl
  | cons p t ih => simp [fill?, Piece.fill?_some, ih, fill, bind, Except.bind, pure, Except.pure]

end Template

end RouteScaffold

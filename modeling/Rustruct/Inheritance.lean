import Rustruct.Lib.OrderedDict

/-!
# Struct classes that inherit

`build_wire_fields` and the metaclass that calls it. A class is the index at which it was created, and `α`
is the objects of the interpreter. `object`, which is last in every order and declares nothing, is left
out.
-/

namespace Rustruct.Inheritance

variable {α : Type}

structure FieldSpec (α : Type) where
  kind : Option α
  opts : α
  default : Option α
  defaultFactory : Option α
  help : Option α

/-- What the class body assigns to a name. -/
inductive Assigned (α : Type) where
  | spec (s : FieldSpec α)
  | plain (value : α)

/-- The raw annotation, or the spec that stands for it. -/
inductive ValueSpec (α : Type) where
  | written (a : α)
  | spec (s : FieldSpec α)

structure FieldDecl (α : Type) where
  name : String
  valueSpec : ValueSpec α
  default : Option α
  defaultFactory : Option α
  help : Option α

structure Annotated (α : Type) where
  name : String
  written : α
  /-- `typing.get_origin(annotation) is typing.ClassVar` -/
  isClassVar : Bool

/-- A `class` statement. -/
structure ClassDef (α : Type) where
  bases : List Nat
  annotations : List (Annotated α)
  body : List (String × Assigned α)

def isDunder (name : String) : Bool := name.startsWith "__" && name.endsWith "__"

/-- The declaration of an annotated name. -/
def declare (body : List (String × Assigned α)) (a : Annotated α) : FieldDecl α :=
  match OrderedDict.find body a.name with
  | some (.spec s) =>
    { name := a.name, valueSpec := if s.kind.isNone then .written a.written else .spec s,
      default := s.default, defaultFactory := s.defaultFactory, help := s.help }
  | some (.plain v) =>
    { name := a.name, valueSpec := .written a.written, default := some v, defaultFactory := none, help := none }
  | none =>
    { name := a.name, valueSpec := .written a.written, default := none, defaultFactory := none, help := none }

abbrev Fields (α : Type) := OrderedDict String (FieldDecl α)

/-- The names this class declares itself. -/
def ClassDef.own (d : ClassDef α) : Fields α :=
  OrderedDict.empty.update
    ((d.annotations.filter fun a => !a.isClassVar && !isDunder a.name).map fun a => (a.name, declare d.body a))

/-- A class that has been created. -/
structure Class (α : Type) where
  bases : List Nat
  own : Fields α
  /-- The method resolution order. -/
  mro : List Nat
  wireFields : List (FieldDecl α)

/-- The classes created so far. -/
abbrev Hierarchy (α : Type) := List (Class α)

/-- A class that heads a list and is in the tail of none. -/
def nextInOrder (orders : List (List Nat)) : Option Nat :=
  (orders.filterMap List.head?).find? fun c => orders.all fun order => !order.tail.contains c

/-- C3 linearization: at most `n` classes are merged. -/
def mergeOrders : Nat → List (List Nat) → Option (List Nat)
  | 0, orders => if orders.all List.isEmpty then some [] else none
  | n + 1, orders =>
    if orders.all List.isEmpty then some []
    else do
      let c ← nextInOrder orders
      let rest ← mergeOrders n (orders.map fun order => if order.head? = some c then order.tail else order)
      some (c :: rest)

/-- The order of a class that is going to be `c`. There is none for a base that is listed twice. -/
def resolutionOrder (h : Hierarchy α) (c : Nat) (bases : List Nat) : Option (List Nat) := do
  let orders ← bases.mapM fun b => (h[b]?).map Class.mro
  if bases.Nodup then
    let rest ← mergeOrders ((orders ++ [bases]).flatten.length) (orders ++ [bases])
    some (c :: rest)
  else none

/-- `for base in bases: for f in base.wire_fields: fields[f.name] = f`, then `fields.update(own)` -/
def buildWireFields (h : Hierarchy α) (own : Fields α) (bases : List Nat) : Fields α :=
  (bases.foldl (fun fields b =>
    fields.update ((((h[b]?).map Class.wireFields).getD []).map fun f => (f.name, f))) OrderedDict.empty).update own.entries

/-- `StructMeta.__new__`. A class without a resolution order is a `TypeError`. -/
def newClass (h : Hierarchy α) (d : ClassDef α) : Option (Hierarchy α) := do
  let mro ← resolutionOrder h h.length d.bases
  some (h ++ [{ bases := d.bases, own := d.own, mro, wireFields := (buildWireFields h d.own d.bases).values }])

/-- The hierarchy of some class statements, one after another. -/
def create (defs : List (ClassDef α)) : Option (Hierarchy α) := defs.foldlM newClass []

end Rustruct.Inheritance

import Rustruct.Schema
import Rustruct.Value

/-!
# The class frontend

What `ensure_resolved` finds out about a `Struct` class: the fields it compiles, and those of
them that `to_mapping` leaves out because pack is supposed to fill them in. Then `to_mapping`
itself, which turns the attributes of an instance into the values that pack takes.
-/

namespace Rustruct

/-- The field has a constant value. -/
def TypeIn.isConst : TypeIn → Bool
  | .int _ _ const => const.isSome
  | .bool const => const.isSome
  | .raw _ const => const.isSome
  | _ => false

def TypeIn.isDigest : TypeIn → Bool
  | .digest .. => true
  | _ => false

/-- How the value of a field is converted. -/
inductive Shape where
  | scalar
  /-- A struct, with the `needs_ctx` of its class. -/
  | struct (needsCtx : Bool)
  | array (elem : Shape)
  /-- A pair of functions of the user. -/
  | convert (codec : Nat)
  /-- The field `on` is a bare reference to, if it is one. The cases are the items of a dictionary. -/
  | switch (onField : Option String) (cases : List (Int × Shape)) (default : Option Shape)

/-- Whether converting a value could need to look past its immediate frame. -/
def Shape.needsCtx : Shape → Bool
  | .switch onField _ _ => onField.isSome
  | .struct needsCtx => needsCtx
  | .array elem => elem.needsCtx
  | _ => false

/-- A field, with its entry of `fields_tuple` and its shape. -/
structure Field where
  name : String
  ty : TypeIn
  /-- The options have a key `const`. It may be there with the value `None`. -/
  constKey : Bool
  keyed : ty.isConst → constKey
  shape : Shape

def Field.toIn (f : Field) : FieldIn := .mk (some f.name) f.ty

/-- Every name an expression refers to. -/
def collectRefs : ExprIn → List String
  | .imm _ | .greedy => []
  | .ref name => [name]
  | .bin _ l r => collectRefs l ++ collectRefs r

/-- What the options of one field refer to. `on` is not collected. -/
def TypeIn.referenced : TypeIn → List String
  | .bytes len _ | .str len _ _ _ => collectRefs len
  | .array _ count _ => (count.map collectRefs).getD []
  | .struct _ _ size => (size.map collectRefs).getD []
  | _ => []

/-- The fields of a class that the caller never has to supply: derived, const or digest. -/
def noInputNames (cls : List Field) : List String :=
  (cls.map Field.name).filter fun n =>
    cls.any (fun f => f.ty.referenced.contains n) ||
      cls.any fun f => f.name == n && (f.constKey || f.ty.isDigest)

/-- Whether the value of the field is `None` where it is absent. -/
def Field.isCond (f : Field) : Bool :=
  match f.ty with
  | .cond .. => true
  | _ => false

structure StructClass where
  fields : List Field
  names : (fields.map Field.name).Nodup

def StructClass.needsCtx (cls : StructClass) : Bool := cls.fields.any fun f => f.shape.needsCtx

/-- What an object is as a key of a dictionary: the integer it equals, if any. -/
inductive DictKey where
  | int (i : Int)
  | other
  | unhashable

/-- A Python object. -/
inductive Obj where
  | none
  /-- What the core reads it as, and what it is as a key. -/
  | plain (wire : Value) (key : DictKey)
  /-- The same for a list, or whatever else there is a `for` loop over. -/
  | iterable (wire : Value) (key : DictKey) (items : List Obj)
  /-- An instance of `Struct`, with what `getattr` finds. -/
  | inst (cls : StructClass) (attrs : String → Option Obj)

/-- The attributes of an instance. -/
abbrev Attrs := String → Option Obj

namespace Obj

def int (i : Int) : Obj := .plain (.int i) (.int i)

def isNone : Obj → Bool
  | .none => true
  | _ => false

/-- `Struct` has no hash. -/
def key : Obj → DictKey
  | .none => .other
  | .plain _ key | .iterable _ key _ => key
  | .inst .. => .unhashable

/-- What the core reads the object as. -/
def wire : Obj → Value
  | .none | .inst .. => .unsupported
  | .plain wire _ | .iterable wire _ _ => wire

end Obj

/-- The innermost frame that has the attribute is the first one. -/
def lookupInChain (ctx : List Attrs) (name : String) : Option Obj := ctx.findSome? fun frame => frame name

mutual

/-- `pick`, until the shape is not a switch. Nothing where a tag cannot be looked up. -/
def Shape.pick (ctx : List Attrs) : Shape → Option Shape
  | .switch onField cases default =>
    match onField.bind (lookupInChain ctx) with
    | none => pickDefault ctx default
    | some tag =>
      match tag.key with
      | .int i => (pickCases ctx i cases).getD (pickDefault ctx default)
      | .other => pickDefault ctx default
      | .unhashable => none
  | shape => some shape

def pickCases (ctx : List Attrs) (tag : Int) : List (Int × Shape) → Option (Option Shape)
  | [] => none
  | (t, shape) :: cases => if t = tag then some (shape.pick ctx) else pickCases ctx tag cases

def pickDefault (ctx : List Attrs) : Option Shape → Option Shape
  | none => some .scalar
  | some shape => shape.pick ctx

end

namespace StructClass

/-- The context that the attributes of an instance are converted in. -/
def pushCtx (cls : StructClass) (attrs : Attrs) (ctx : List Attrs) : List Attrs :=
  if cls.needsCtx then attrs :: ctx else ctx

/-- The mapping has an entry for the field. -/
def keeps (cls : StructClass) (attrs : Attrs) (f : Field) : Bool :=
  !(noInputNames cls.fields).contains f.name && !(f.isCond && (attrs f.name).any Obj.isNone)

def entries (cls : StructClass) (attrs : Attrs) (conv : Field → Option Value) : Option (List (String × Value)) :=
  (cls.fields.filter (cls.keeps attrs)).mapM fun f => (conv f).map (Prod.mk f.name)

end StructClass

section ToWire

-- The `encode` functions of the user, with nothing where they raise.
variable (encode : Nat → Obj → Option Value)

/-- An object that is not taken apart. -/
def Obj.whole (o : Obj) : Shape → Option Value
  | .array _ => Option.none
  | .convert codec => encode codec o
  | _ => some o.wire

mutual

/-- `to_wire`, and nothing where it raises. -/
def Obj.toWire : Obj → List Attrs → Shape → Option Value
  | .inst cls attrs, ctx, shape => do
    match ← shape.pick ctx with
    | .struct _ =>
      let conv (f : Field) := attrToWire (attrs f.name) (cls.pushCtx attrs ctx) f.shape
      return .map (← cls.entries attrs conv)
    | picked => (Obj.inst cls attrs).whole encode picked
  | .iterable wire key items, ctx, shape => do
    match ← shape.pick ctx with
    | .array elem => return .list (← itemsToWire items ctx elem)
    | picked => (Obj.iterable wire key items).whole encode picked
  | .plain wire key, ctx, shape => do (Obj.plain wire key).whole encode (← shape.pick ctx)
  | .none, ctx, shape => do Obj.none.whole encode (← shape.pick ctx)

def itemsToWire : List Obj → List Attrs → Shape → Option (List Value)
  | [], _, _ => some []
  | o :: items, ctx, elem => do return (← o.toWire ctx elem) :: (← itemsToWire items ctx elem)

/-- An attribute that is not there raises as well. -/
def attrToWire : Option Obj → List Attrs → Shape → Option Value
  | none, _, _ => none
  | some o, ctx, shape => o.toWire ctx shape

end

/-- `to_mapping` of an instance of the class. -/
def StructClass.toMapping (cls : StructClass) (attrs : Attrs) (ctx : List Attrs) : Option Value :=
  (Obj.inst cls attrs).toWire encode ctx (.struct cls.needsCtx)

end ToWire

end Rustruct

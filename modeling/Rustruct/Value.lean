import Rustruct.Machine
import Mathlib.Data.List.Dedup

/-! # Values, and how pack reads them -/

namespace Rustruct

/-- Universal core value. A float is its 64-bit pattern. -/
inductive Value where
  | int (i : Int)
  | float (f : UInt64)
  | bool (b : Bool)
  | bytes (b : Bytes)
  | str (s : String)
  /-- Insertion order matches field order. -/
  | map (m : List (String × Value))
  | list (l : List Value)
  /-- A value from the bindings whose type the core does not know. -/
  | unsupported

namespace Value

def get (v : Value) (key : String) : Option Value :=
  match v with
  | .map m => (m.find? (fun entry => entry.1 == key)).map Prod.snd
  | _ => none

def insert (v : Value) (key : String) (value : Value) : Value :=
  match v with
  | .map m => .map (m ++ [(key, value)])
  | v => v

end Value

def hashIndexThreshold : Nat := 16

/-- The field index of one scope: a linear scan for small structs, a hash map for large
ones. Collecting the pairs into the hash map keeps the last value of a repeated key. -/
inductive FieldIndex where
  | small (pairs : List (String × Value))
  | hashed (pairs : List (String × Value))

namespace FieldIndex

def get (view : FieldIndex) (name : String) : Option Value :=
  match view with
  | .small pairs => (pairs.find? (fun entry => entry.1 == name)).map Prod.snd
  | .hashed pairs => (pairs.reverse.find? (fun entry => entry.1 == name)).map Prod.snd

def keys (view : FieldIndex) : List String :=
  match view with
  | .small pairs => pairs.map Prod.fst
  | .hashed pairs => (pairs.map Prod.fst).dedup

end FieldIndex

namespace Value

def mapView (v : Value) : Option FieldIndex :=
  match v with
  | .map pairs => some (if pairs.length > hashIndexThreshold then .hashed pairs else .small pairs)
  | _ => none

def asList (v : Value) : Option (List Value) :=
  match v with
  | .list items => some items
  | _ => none

/-- An int or a bool. -/
def asInt (v : Value) : Option Int :=
  match v with
  | .int i => some i
  | .bool b => some (if b then 1 else 0)
  | _ => none

/-- A float or an int, not a bool. -/
def asFloat (v : Value) : Option UInt64 :=
  match v with
  | .float f => some f
  | .int i => some (Float.ofInt i).toBits
  | _ => none

def asBytes (v : Value) : Option Bytes :=
  match v with
  | .bytes b => some b
  | _ => none

def asStr (v : Value) : Option String :=
  match v with
  | .str s => some s
  | _ => none

/-- Structural truthiness: a non-zero number, a non-empty collection. -/
def truthy (v : Value) : Option Bool :=
  match v with
  | .bool b => some b
  | .int i => some (i != 0)
  -- Both zeros of a float are false.
  | .float f => some (f != 0 && f != 0x8000000000000000)
  | .str s => some (!s.isEmpty)
  | .bytes b => some (!b.isEmpty)
  | .list l => some (!l.isEmpty)
  | .map m => some (!m.isEmpty)
  | .unsupported => none

end Value

end Rustruct

import Rustruct.Program

/-! # Compiler input -/

namespace Rustruct

inductive ByteOrder where
  | big | little
  deriving DecidableEq, Repr

inductive ExprIn where
  | imm (n : Int)
  | greedy
  | ref (name : String)
  | bin (o : BinOp) (l r : ExprIn)
  deriving DecidableEq, Repr

structure CrcOverrides where
  poly : Option U64 := none
  init : Option U64 := none
  xorout : Option U64 := none
  refin : Option Bool := none
  refout : Option Bool := none
  deriving DecidableEq, Repr

def CrcOverrides.any (ov : CrcOverrides) : Bool :=
  ov.poly.isSome || ov.init.isSome || ov.xorout.isSome || ov.refin.isSome || ov.refout.isSome

inductive OverIn where
  | star
  | names (ns : List String)
  deriving DecidableEq, Repr

mutual

inductive TypeIn where
  | int (prim : IntPrim) (byteorder : Option ByteOrder) (const : Option Int)
  | float (is64 : Bool) (byteorder : Option ByteOrder)
  | bool (const : Option Bool)
  | raw (len : Option Nat) (const : Option Bytes)
  | bytes (len : ExprIn) (max : Option Nat)
  | str (len : ExprIn) (max : Option Nat) (encoding errors : String)
  | cstr (max : Option Nat) (encoding errors : String)
  | bits (width : Nat) (signed : Bool)
  | flags (base : IntPrim) (byteorder : Option ByteOrder) (names : List (String × U64))
      (rest : String)
  | digest (algo : String) (overrides : CrcOverrides) (overs : OverIn) (verify : Bool)
  | struct (fields : List FieldIn) (byteorder : Option ByteOrder) (size : Option ExprIn)
  | array (elem : TypeIn) (count : Option ExprIn) (untilEof : Bool)
  | switch (on : ExprIn) (cases : List (Int × TypeIn)) (default : Option TypeIn)
  | cond (pred : ExprIn) (thn : TypeIn)

inductive FieldIn where
  | mk (name : Option String) (ty : TypeIn)

end

namespace FieldIn

def name : FieldIn → Option String
  | .mk name _ => name

def ty : FieldIn → TypeIn
  | .mk _ ty => ty

def named (name : String) (ty : TypeIn) : FieldIn := .mk (some name) ty

def anon (ty : TypeIn) : FieldIn := .mk none ty

@[simp] lemma name_mk (name : Option String) (ty : TypeIn) : (FieldIn.mk name ty).name = name := rfl

@[simp] lemma ty_mk (name : Option String) (ty : TypeIn) : (FieldIn.mk name ty).ty = ty := rfl

end FieldIn

/-! ### Induction over the type tree -/

/-- What has to be shown of each constructor to have `P` of every type. -/
structure TypeCases (P : TypeIn → Prop) : Prop where
  int : ∀ prim byteorder const, P (.int prim byteorder const)
  float : ∀ is64 byteorder, P (.float is64 byteorder)
  bool : ∀ const, P (.bool const)
  raw : ∀ len const, P (.raw len const)
  bytes : ∀ len max, P (.bytes len max)
  str : ∀ len max encoding errors, P (.str len max encoding errors)
  cstr : ∀ max encoding errors, P (.cstr max encoding errors)
  bits : ∀ width signed, P (.bits width signed)
  flags : ∀ base byteorder names rest, P (.flags base byteorder names rest)
  digest : ∀ algo overrides overs verify, P (.digest algo overrides overs verify)
  struct : ∀ fields byteorder size, (∀ f ∈ fields, P f.ty) → P (.struct fields byteorder size)
  array : ∀ elem count untilEof, P elem → P (.array elem count untilEof)
  switch : ∀ on cases default, (∀ branch ∈ cases, P branch.2) → (∀ ty ∈ default, P ty) →
    P (.switch on cases default)
  cond : ∀ pred thn, P thn → P (.cond pred thn)

namespace TypeCases

variable {P : TypeIn → Prop}

mutual

theorem type (h : TypeCases P) : ∀ ty, P ty
  | .int prim byteorder const => h.int prim byteorder const
  | .float is64 byteorder => h.float is64 byteorder
  | .bool const => h.bool const
  | .raw len const => h.raw len const
  | .bytes len max => h.bytes len max
  | .str len max encoding errors => h.str len max encoding errors
  | .cstr max encoding errors => h.cstr max encoding errors
  | .bits width signed => h.bits width signed
  | .flags base byteorder names rest => h.flags base byteorder names rest
  | .digest algo overrides overs verify => h.digest algo overrides overs verify
  | .struct fs byteorder size => h.struct fs byteorder size (fields h fs)
  | .array elem count untilEof => h.array elem count untilEof (type h elem)
  | .switch on cases default => h.switch on cases default (branches h cases) (fallback h default)
  | .cond pred thn => h.cond pred thn (type h thn)

theorem fields (h : TypeCases P) : ∀ (fs : List FieldIn), ∀ f ∈ fs, P f.ty
  | .mk _ ty :: fs, f, hf =>
    match List.mem_cons.mp hf with
    | .inl he => he ▸ type h ty
    | .inr ht => fields h fs f ht

theorem branches (h : TypeCases P) : ∀ (cases : List (Int × TypeIn)), ∀ branch ∈ cases, P branch.2
  | (_, ty) :: cases, branch, hb =>
    match List.mem_cons.mp hb with
    | .inl he => he ▸ type h ty
    | .inr ht => branches h cases branch ht

theorem fallback (h : TypeCases P) : ∀ (default : Option TypeIn), ∀ ty ∈ default, P ty
  | some ty, _, hty => (Option.mem_some_iff.mp hty) ▸ type h ty

end

end TypeCases

end Rustruct

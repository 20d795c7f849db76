import Rustruct.Program
import Rustruct.Schema

/-!
# Compile

The lowering of a schema to a program. A scope is compiled in one pass over its fields;
the registers, spans and derived marks of a field are patched into its op when a later
field, or the end of the scope, asks for them.
-/

namespace Rustruct

structure Options where
  byteorder : ByteOrder := .big
  maxDefault : Nat := 67108864
  maxCount : Nat := 16777216
  deriving DecidableEq, Repr

/-- Where a field physically lives, for deferred patching. -/
inductive Loc where
  | fix (op item : Nat)
  | bit (op item : Nat)
  | op (op : Nat)
  deriving DecidableEq, Repr

structure Sym where
  name : String
  loc : Loc
  refable : Bool
  isFlags : Bool
  isConst : Bool
  spannable : Bool
  reg : Option Nat := none
  span : Option Nat := none
  derived : Bool := false
  lenReferenced : Bool := false
  usedInOn : Bool := false
  deriving DecidableEq, Repr

structure Scope where
  ops : List Op
  syms : List Sym
  nregs : Nat
  nspans : Nat
  /-- Digest op index, `over`, digest field name; resolved at the end of the scope. -/
  digests : List (Nat × OverIn × String)

def Scope.empty : Scope := { ops := [], syms := [], nregs := 0, nspans := 0, digests := [] }

inductive RefCtx where
  /-- `len`, `count` or `size`: a candidate to become derived. -/
  | len
  /-- The discriminant of a switch. -/
  | on
  /-- The predicate of a `when`: a plain read. -/
  | pred
  deriving DecidableEq, Repr

/-- The compiler's state is the stack of open scopes, innermost first. -/
abbrev C := StateT (List Scope) SRes

section Expressions

def shiftMsg : String := "shift amount outside 0..63 in a constant subexpression"

def greedyMsg : String := "\"*\" is only allowed as the whole of len/count, not inside an expression"

/-- `checked_*(..).ok_or_else(ov)` -/
def orOverflow (v : Option Int) : SRes Int :=
  match v with
  | some v => .ok v
  | none => schemaErr "i64 overflow in a constant subexpression"

def applyConst (op : BinOp) (a b : Int) : SRes Int :=
  match op with
  | .add => orOverflow (checkedI64 (a + b))
  | .sub => orOverflow (checkedI64 (a - b))
  | .mul => orOverflow (checkedI64 (a * b))
  | .div =>
    if b = 0 then schemaErr "division by a constant zero" else orOverflow (checkedI64 (a.tdiv b))
  | .shl => if 0 ≤ b ∧ b < 64 then .ok (asI64 (a * 2 ^ b.toNat)) else schemaErr shiftMsg
  | .shr => if 0 ≤ b ∧ b < 64 then .ok (a >>> b.toNat) else schemaErr shiftMsg
  | .and => .ok (BitVec.ofInt 64 a &&& BitVec.ofInt 64 b).toInt
  | .or => .ok (BitVec.ofInt 64 a ||| BitVec.ofInt 64 b).toInt
  | .xor => .ok (BitVec.ofInt 64 a ^^^ BitVec.ofInt 64 b).toInt
  | .eq => .ok (boolI64 (a == b))
  | .ne => .ok (boolI64 (a != b))
  | .lt => .ok (boolI64 (a < b))
  | .le => .ok (boolI64 (a ≤ b))
  | .gt => .ok (boolI64 (a > b))
  | .ge => .ok (boolI64 (a ≥ b))

/-- Two folded operands: two constants become one. -/
def foldBin (op : BinOp) (l r : ExprIn) : SRes ExprIn :=
  match l, r with
  | .imm a, .imm b => do .ok (.imm (← applyConst op a b))
  | l, r => .ok (.bin op l r)

/-- Constant subexpression folding. -/
def fold : ExprIn → SRes ExprIn
  | .imm n => .ok (.imm n)
  | .ref name => .ok (.ref name)
  | .greedy => schemaErr greedyMsg
  | .bin op l r => do
    let l ← fold l
    let r ← fold r
    foldBin op l r

/-- `ref` holds the referenced name and its coefficient. -/
structure Lin where
  ref : Option (String × Int)
  b : Int
  deriving DecidableEq, Repr

/-- A sum with a reference on one side at most. -/
def Lin.add (l r : Lin) : Option Lin :=
  match l.ref, r.ref with
  | some _, some _ => none
  | a, b => (checkedI64 (l.b + r.b)).map fun sum => { ref := a.or b, b := sum }

def Lin.sub (l r : Lin) : Option Lin :=
  match l.ref, r.ref with
  | some _, some _ => none
  | none, some (n, a) => do
    let a ← checkedI64 (-a)
    let diff ← checkedI64 (l.b - r.b)
    some { ref := some (n, a), b := diff }
  | a, none => (checkedI64 (l.b - r.b)).map fun diff => { ref := a, b := diff }

/-- `withRef` times a constant. -/
def Lin.scale (withRef : Lin) (konst : Int) : Option Lin :=
  match withRef.ref with
  | some (n, a) => do
    let a ← checkedI64 (a * konst)
    let prod ← checkedI64 (withRef.b * konst)
    some { ref := some (n, a), b := prod }
  | none => (checkedI64 (withRef.b * konst)).map fun prod => { ref := none, b := prod }

def Lin.mul (l r : Lin) : Option Lin :=
  match l.ref, r.ref with
  | some _, some _ => none
  | some _, none => l.scale r.b
  | none, _ => r.scale l.b

/-- `value = a*ref + b`, the only invertible form. -/
def linear : ExprIn → Option Lin
  | .imm n => some { ref := none, b := n }
  | .ref name => some { ref := some (name, 1), b := 0 }
  | .greedy => none
  | .bin op l r => do
    let l ← linear l
    let r ← linear r
    match op with
    | .add => l.add r
    | .sub => l.sub r
    | .mul => l.mul r
    | _ => none

def postfixDepth (ins : List Ins) : Nat :=
  (ins.foldl (fun (depth, max) i =>
    match i with
    | .imm _ | .reg _ => (depth + 1, Nat.max max (depth + 1))
    | .op _ => (depth - 1, max)) ((0, 0) : Nat × Nat)).2

end Expressions

/-- `&mut ops[i]` -/
def updateOp (ops : List Op) (i : Nat) (f : Op → SRes Op) : SRes (List Op) :=
  match ops[i]? with
  | some op => do .ok (ops.set i (← f op))
  | none => Exec.panic

/-- `&mut items[i]` -/
def updateItem {α : Type} (items : List α) (i : Nat) (f : α → α) : SRes (List α) :=
  match items[i]? with
  | some item => .ok (items.set i (f item))
  | none => Exec.panic

/-- The fixed item at `item` of the op, if that is a run. -/
def Op.updateFixed (item : Nat) (f : FixedItem → FixedItem) (op : Op) : SRes Op :=
  match op with
  | .fixed width items => do .ok (.fixed width (← updateItem items item f))
  | op => .ok op

/-- The bit item at `item` of the op, if that is a bit run. -/
def Op.updateBit (item : Nat) (f : BitItem → BitItem) (op : Op) : SRes Op :=
  match op with
  | .bitRun nbytes items => do .ok (.bitRun nbytes (← updateItem items item f))
  | op => .ok op

/-- `op_common_mut` -/
def Op.withCommon (f : Common → Common) : Op → Op
  | .fixed width items => .fixed width items
  | .bitRun nbytes items => .bitRun nbytes items
  | .bytes len max c => .bytes len max (f c)
  | .str len max enc c => .str len max enc (f c)
  | .cstr max enc c => .cstr max enc (f c)
  | .flags prim be items rest restMask c => .flags prim be items rest restMask (f c)
  | .digest algo overs verify be c => .digest algo overs verify be (f c)
  | .nest prog size c => .nest prog size (f c)
  | .array count maxCount elem elemMin c => .array count maxCount elem elemMin (f c)
  | .switch on cases default c => .switch on cases default (f c)
  | .cond pred thn c => .cond pred thn (f c)

def patchReg (ops : List Op) (loc : Loc) (idx : Nat) : SRes (List Op) :=
  match loc with
  | .fix op item => updateOp ops op (Op.updateFixed item fun i => { i with reg := some idx })
  | .bit op item => updateOp ops op (Op.updateBit item fun i => { i with reg := some idx })
  -- Registers only exist on fixed and bits fields.
  | .op _ => Exec.panic

def FixKind.markDerived : FixKind → FixKind
  | .int prim be expected _ => .int prim be expected true
  | kind => kind

def patchDerived (ops : List Op) (loc : Loc) : SRes (List Op) :=
  match loc with
  | .fix op item => updateOp ops op (Op.updateFixed item fun i => { i with kind := i.kind.markDerived })
  | .bit op item => updateOp ops op (Op.updateBit item fun i => { i with derived := true })
  | .op _ => Exec.panic

def patchSpan (ops : List Op) (loc : Loc) (idx : Nat) : SRes (List Op) :=
  match loc with
  | .fix op item => updateOp ops op (Op.updateFixed item fun i => { i with span := some idx })
  | .op op => updateOp ops op fun o => .ok (o.withCommon fun c => { c with span := some idx })
  -- Excluded by `spannable`.
  | .bit _ _ => Exec.panic

/-- The register of a referenced symbol, allocated on its first reference. -/
def Scope.allocReg (scope : Scope) (pos : Nat) (sym : Sym) : SRes (Nat × Scope) :=
  match sym.reg with
  | some idx => .ok (idx, scope)
  | none =>
    if scope.nregs ≥ maxRegs then schemaErr "exceeded the limit of 16 registers per scope"
    else do
      let idx := scope.nregs
      let ops ← patchReg scope.ops sym.loc idx
      .ok (idx, { scope with
        ops, nregs := scope.nregs + 1,
        syms := scope.syms.modify pos fun s => { s with reg := some idx } })

def Sym.use (ctx : RefCtx) (sym : Sym) : Sym :=
  match ctx with
  | .len => if sym.isConst then sym else { sym with lenReferenced := true }
  | .on => { sym with usedInOn := true }
  | .pred => sym

/-- A reference to a symbol of this scope. -/
def Scope.refer (scope : Scope) (name : String) (pos : Nat) (sym : Sym) (ctx : RefCtx) :
    SRes (Nat × Scope) :=
  if sym.isFlags then
    schemaErr s!"ref to flags field {name.quote} is forbidden; use bits instead"
  else if ¬ sym.refable then
    schemaErr s!"ref {name.quote}: only integer fields can be referenced"
  else do
    let (idx, scope) ← scope.allocReg pos sym
    .ok (idx, { scope with syms := scope.syms.modify pos (Sym.use ctx) })

/-- The innermost scope that has declared the name, `up` scopes out. -/
def resolveIn (name : String) (ctx : RefCtx) : Nat → List Scope → SRes (Reg × List Scope)
  | _, [] => schemaErr s!"unknown name {name.quote} in ref (references are backward-only: a field can only ref an already-decoded sibling or ancestor)"
  | up, scope :: scopes =>
    match scope.syms.findIdx? (fun s => s.name == name) with
    | none => do
      let (reg, scopes) ← resolveIn name ctx (up + 1) scopes
      .ok (reg, scope :: scopes)
    | some pos => do
      let sym ← Exec.expect scope.syms[pos]?
      let (idx, scope) ← scope.refer name pos sym ctx
      .ok ({ up := up % 256, idx }, scope :: scopes)

def resolveRef (name : String) (ctx : RefCtx) : C Reg := fun scopes =>
  resolveIn name ctx 0 scopes

/-- An update of the innermost scope. -/
def onTop {α : Type} (f : Scope → SRes (α × Scope)) : C α := fun scopes =>
  match scopes with
  | scope :: scopes => do
    let (a, scope) ← f scope
    .ok (a, scope :: scopes)
  | [] => Exec.panic

def checkName (name : Option String) : C Unit := onTop fun scope =>
  match name with
  | none => .ok ((), scope)
  | some n =>
    if n.isEmpty then schemaErr "field name must not be empty"
    else if scope.syms.any (fun s => s.name == n) then
      schemaErr s!"duplicate field name {n.quote} in scope"
    else .ok ((), scope)

def addSym (name : Option String) (loc : Loc) (refable isFlags isConst spannable : Bool) : C Unit :=
  onTop fun scope =>
    match name with
    | none => .ok ((), scope)
    | some name =>
      .ok ((), { scope with
        syms := scope.syms ++ [{ name, loc, refable, isFlags, isConst, spannable }] })

/-- A fixed field joins the run it follows. -/
def pushFixedOps (kind : FixKind) (key : Key) (ops : List Op) : Loc × List Op :=
  match ops.getLast? with
  | some (.fixed width items) =>
    (.fix (ops.length - 1) items.length,
      ops.dropLast ++ [.fixed (wrapAdd width kind.width)
        (items ++ [{ off := width, kind, reg := none, span := none, key }])])
  | _ =>
    (.fix ops.length 0,
      ops ++ [.fixed kind.width [{ off := 0, kind, reg := none, span := none, key }]])

/-- A bits field joins the bit run it follows. -/
def pushBitOps (item : BitItem) (ops : List Op) : Loc × List Op :=
  match ops.getLast? with
  | some (.bitRun nbytes items) =>
    (.bit (ops.length - 1) items.length, ops.dropLast ++ [.bitRun nbytes (items ++ [item])])
  | _ => (.bit ops.length 0, ops ++ [.bitRun 0 [item]])

def pushFixed (kind : FixKind) (key : Key) : C Loc := onTop fun scope =>
  let (loc, ops) := pushFixedOps kind key scope.ops
  .ok (loc, { scope with ops })

def pushBit (item : BitItem) : C Loc := onTop fun scope =>
  let (loc, ops) := pushBitOps item scope.ops
  .ok (loc, { scope with ops })

def pushOp (op : Op) : C Loc := onTop fun scope =>
  .ok (.op scope.ops.length, { scope with ops := scope.ops ++ [op] })

/-- Postfix emission. -/
def emitInto (ctx : RefCtx) : ExprIn → C (List Ins)
  | .imm n => pure [.imm n]
  | .greedy => fun _ => schemaErr greedyMsg
  | .ref name => do return [.reg (← resolveRef name ctx)]
  | .bin op l r => do
    let l ← emitInto ctx l
    let r ← emitInto ctx r
    return l ++ r ++ [.op op]

def emitExpr (ctx : RefCtx) (e : ExprIn) : C Expr := do
  let out ← emitInto ctx e
  if postfixDepth out > exprStack then
    fun _ => schemaErr "expression too deep (the expression evaluation stack holds at most 8 values)"
  else return { ins := out }

/-- The length expression of a folded, non-constant tree. -/
def buildLin (what : String) (folded : ExprIn) : C LenSrc :=
  match linear folded with
  | none => fun _ =>
    schemaErr s!"{what}: expression is not invertible (must have the form a*ref + b)"
  | some { ref := none, .. } => fun _ => Exec.panic
  | some { ref := some (refName, a), b } =>
    if a = 0 then fun _ => schemaErr s!"{what}: coefficient on ref is zero"
    else do
      let reg ← resolveRef refName .len
      let expr ← emitExpr .len folded
      return .expr expr (some { reg, a, b })

/-- `len`, `count` or `size`: constant folding, linear analysis, inversion, emission. -/
def buildLen (e : ExprIn) (what : String) : C LenSrc :=
  match e with
  | .greedy => pure .greedy
  | e => do
    match ← (fold e : SRes ExprIn) with
    | .imm n =>
      if n < 0 then fun _ => schemaErr s!"{what}: negative constant length {n}"
      else return .expr (.imm n) none
    | folded => buildLin what folded

/-- `len_const` -/
def lenConst (len : LenSrc) : Option Nat :=
  match len with
  | .expr expr none => expr.asConst.map asU64
  | _ => none

mutual

def opMin : Op → Nat
  | .fixed width _ => width
  | .bytes len _ _ | .str len _ _ _ => (lenConst len).getD 0
  | .cstr .. => 1
  | .bitRun nbytes _ => nbytes
  | .flags prim .. => prim.width
  | .digest algo .. => algo.widthBytes
  | .nest prog size _ =>
    match size with
    | some (.expr expr none) => (expr.asConst.map asU64).getD prog.minSize
    | _ => prog.minSize
  | .array count _ _ elemMin _ =>
    match count with
    | .expr expr none => (expr.asConst.map fun n => satMul (asU64 n) elemMin).getD 0
    | _ => 0
  | .switch _ cases default _ =>
    let m := min (casesMin cases) (defaultMin default)
    if m = usizeMax then 0 else m
  -- An absent field contributes no byte.
  | .cond .. => 0

def casesMin : List (Int × Op) → Nat
  | [] => usizeMax
  | (_, op) :: cases => min (opMin op) (casesMin cases)

def defaultMin : Option Op → Nat
  | none => usizeMax
  | some op => opMin op

end

mutual

def opStatic : Op → Option Nat
  | .fixed width _ => some width
  | .bytes len _ _ | .str len _ _ _ => lenConst len
  | .cstr .. => none
  | .bitRun nbytes _ => some nbytes
  | .flags prim .. => some prim.width
  | .digest algo .. => some algo.widthBytes
  | .nest prog size _ =>
    match size with
    | some (.expr expr none) => expr.asConst.map asU64
    | some _ => none
    | none => prog.staticSize
  | .array count _ elem _ _ =>
    match count with
    | .expr expr none => do checkedMul (asU64 (← expr.asConst)) (← opStatic elem)
    | _ => none
  | .switch _ cases default _ =>
    match cases with
    | [] => none
    | (_, op) :: cases => do
      let first ← opStatic op
      if allStatic cases first && defaultStatic default first then some first else none
  | .cond .. => none

/-- Every branch has this static size. -/
def allStatic : List (Int × Op) → Nat → Bool
  | [], _ => true
  | (_, op) :: cases, first => opStatic op == some first && allStatic cases first

def defaultStatic : Option Op → Nat → Bool
  | none, _ => true
  | some op, first => opStatic op == some first

end

mutual

/-- How many frames unpacking this program needs at its deepest. -/
def frameDepth : Program → Nat
  | .mk ops _ _ _ _ => 1 + opsDepth ops

def opsDepth : List Op → Nat
  | [] => 0
  | op :: ops => max (opDepth op) (opsDepth ops)

/-- Only a nested struct costs a frame. -/
def opDepth : Op → Nat
  | .nest prog _ _ => frameDepth prog
  | .array _ _ elem _ _ => opDepth elem
  | .cond _ thn _ => opDepth thn
  | .switch _ cases default _ => max (casesDepth cases) (defaultDepth default)
  | _ => 0

def casesDepth : List (Int × Op) → Nat
  | [] => 0
  | (_, op) :: cases => max (opDepth op) (casesDepth cases)

def defaultDepth : Option Op → Nat
  | none => 0
  | some op => opDepth op

end

/-- Mark the derived fields: those a length refers to and no switch does. -/
def resolveDerives (scope : Scope) : List Sym → Nat → SRes Scope
  | [], _ => .ok scope
  | sym :: syms, pos =>
    if sym.lenReferenced ∧ ¬ sym.usedInOn ∧ ¬ sym.isConst ∧ ¬ sym.derived then do
      let ops ← patchDerived scope.ops sym.loc
      resolveDerives { scope with
        ops, syms := scope.syms.modify pos fun s => { s with derived := true } } syms (pos + 1)
    else resolveDerives scope syms (pos + 1)

def resolveDeferredDerives (scope : Scope) : SRes Scope := resolveDerives scope scope.syms 0

/-- The `u32` sum of the widths, which wraps without overflow checks. -/
def bitTotal (items : List BitItem) : Nat := bitWidth items % u32Size

lemma bitTotal_of_lt {items : List BitItem} (h : bitWidth items < u32Size) : bitTotal items = bitWidth items :=
  Nat.mod_eq_of_lt h

/-- Bit runs must fill whole bytes. -/
def alignBits : List Op → SRes (List Op)
  | [] => .ok []
  | .bitRun _ items :: ops =>
    if bitTotal items % 8 ≠ 0 then
      schemaErr s!"bit_alignment: bit run occupies {bitTotal items} bits, not a whole number of bytes"
    else do .ok (.bitRun (bitTotal items / 8) items :: (← alignBits ops))
  | op :: ops => do .ok (op :: (← alignBits ops))

/-- The span register of a covered symbol, allocated on its first cover. -/
def Scope.allocSpan (scope : Scope) (pos : Nat) (sym : Sym) : SRes (Nat × Scope) :=
  match sym.span with
  | some idx => .ok (idx, scope)
  | none =>
    if scope.nspans ≥ maxSpans then schemaErr "exceeded the limit of 16 span registers per scope"
    else do
      let idx := scope.nspans
      let ops ← patchSpan scope.ops sym.loc idx
      .ok (idx, { scope with
        ops, nspans := scope.nspans + 1,
        syms := scope.syms.modify pos fun s => { s with span := some idx } })

def resolveOver (dname : String) : List String → Scope → SRes (List Nat × Scope)
  | [], scope => .ok ([], scope)
  | n :: names, scope =>
    match scope.syms.findIdx? (fun s => s.name == n) with
    | none => schemaErr s!"digest {dname.quote}: unknown name {n.quote} in over (only the current scope is visible)"
    | some pos => do
      let sym ← Exec.expect scope.syms[pos]?
      if ¬ sym.spannable then
        schemaErr s!"digest {dname.quote}: field {n.quote} cannot be covered (bits fields cannot)"
      else
        let (idx, scope) ← scope.allocSpan pos sym
        let (spans, scope) ← resolveOver dname names scope
        .ok (idx :: spans, scope)

def Op.setOver (overs : Over) : Op → Op
  | .digest algo _ verify be c => .digest algo overs verify be c
  | op => op

/-- The span registers `over` stands for. -/
def resolveOverIn (dname : String) (overIn : OverIn) (scope : Scope) : SRes (Over × Scope) :=
  match overIn with
  | .star => .ok (.star, scope)
  | .names names => do
    let (spans, scope) ← resolveOver dname names scope
    .ok (.spans spans, scope)

def resolveDigests : List (Nat × OverIn × String) → Scope → SRes Scope
  | [], scope => .ok scope
  | (opIdx, overIn, dname) :: digests, scope => do
    let (overs, scope) ← resolveOverIn dname overIn scope
    let ops ← updateOp scope.ops opIdx fun o => .ok (o.setOver overs)
    resolveDigests digests { scope with ops }

def minSizeOf (ops : List Op) : Nat := ops.foldl (fun acc op => satAdd acc (opMin op)) 0

/-- The sum wraps without overflow checks. -/
def staticSizeOf (ops : List Op) : Option Nat :=
  ops.foldl (fun acc op => do some (wrapAdd (← acc) (← opStatic op))) (some 0)

/-- Bit alignment, digest spans, sizes. -/
def finishScope (scope : Scope) : SRes Program := do
  let ops ← alignBits scope.ops
  let scope ← resolveDigests scope.digests { scope with ops, digests := [] }
  .ok (.mk scope.ops scope.nregs scope.nspans (minSizeOf scope.ops) (staticSizeOf scope.ops))

def namedOnly (name : Option String) (what : String) : SRes String :=
  match name with
  | some n => .ok n
  | none =>
    schemaErr s!"{what} cannot be unnamed (only fixed-width types, bits and raw may be unnamed)"

def parseEnc (encoding errors : String) : SRes Enc :=
  if errors ≠ "strict" then
    schemaErr s!"errors={errors.quote} is not supported by the v1 core (only \"strict\")"
  else
    match encodings.parse encoding with
    | .ok enc => .ok enc
    | .error msg => schemaErr msg

def parseAlgo (name : String) (ov : CrcOverrides) : SRes Algo :=
  match Algo.preset name with
  | none => schemaErr s!"digest: unknown algo {name.quote}"
  | some (.crc spec) =>
    .ok (.crc { spec with
      poly := ov.poly.getD spec.poly, init := ov.init.getD spec.init,
      xorout := ov.xorout.getD spec.xorout, refin := ov.refin.getD spec.refin,
      refout := ov.refout.getD spec.refout })
  | some other =>
    if ov.any then
      schemaErr "digest: poly/init/xorout/refin/refout overrides only apply to a CRC algo, not a hash"
    else .ok other

def checkConst (prim : IntPrim) (const : Option Int) : SRes Unit :=
  match const with
  | some c =>
    if c < prim.min ∨ c > prim.max then
      schemaErr s!"const {c} is out of range for {prim.debug}"
    else .ok ()
  | none => .ok ()

/-- The length of a raw field; `mismatch` is the text for a `len` that is not the const's. -/
def rawLen (len : Option Nat) (const : Option Bytes) (mismatch : Nat → Nat → String) : SRes Nat :=
  match len, const with
  | some l, some c => if l ≠ c.length then schemaErr (mismatch l c.length) else .ok l
  | some l, none => .ok l
  | none, some c => .ok c.length
  | none, none => schemaErr "raw: len or const is required"

def fieldMismatch (l n : Nat) : String :=
  s!"raw: len={l} does not match the length of const ({n})"

def elemMismatch (_l _n : Nat) : String := "raw: len does not match the length of const"

def trailingZeros (m : U64) : Nat := ((List.range 64).find? fun i => m.getLsbD i).getD 64

def countOnes (m : U64) : Nat := (List.range 64).countP fun i => m.getLsbD i

/-- The items of a flags field, and the union of their masks. -/
def flagItems (base : IntPrim) (baseMask : U64) :
    List (String × U64) → List FlagItem → U64 → SRes (List FlagItem × U64)
  | [], items, union => .ok (items, union)
  | (fname, mask) :: names, items, union =>
    if fname.isEmpty ∨ fname = "_rest" then
      schemaErr s!"flags: invalid mask name {fname.quote}"
    else if items.any (fun i => i.key == fname) then
      schemaErr s!"flags: duplicate name {fname.quote}"
    else if mask = 0#64 then schemaErr s!"flags: zero mask {fname.quote}"
    else if mask &&& ~~~baseMask ≠ 0#64 then
      schemaErr s!"flags: mask {fname.quote} does not fit in {base.debug}"
    else if mask &&& union ≠ 0#64 then
      schemaErr s!"flags: mask {fname.quote} overlaps another mask"
    else
      let shift := trailingZeros mask
      let m := mask >>> shift
      -- `m + 1` wraps for the full 64-bit mask without overflow checks.
      if m &&& (m + 1#64) ≠ 0#64 then schemaErr s!"flags: non-contiguous mask {fname.quote}"
      else
        flagItems base baseMask names
          (items ++ [{ key := fname, mask, shift, isBool := countOnes mask == 1 }]) (union ||| mask)

def compileFlags (base : IntPrim) (be : Bool) (names : List (String × U64)) (rest : String)
    (c : Common) : SRes Op :=
  if base.signed then schemaErr "flags: base must be unsigned (u8..u64)"
  else do
    let baseMask := mask (base.width * 8)
    let (items, union) ← flagItems base baseMask names [] 0#64
    match restPolicies.parse rest with
    | .ok rest => .ok (.flags base be items rest (baseMask &&& ~~~union) c)
    | .error msg => schemaErr msg

def checkOver (name : String) : List String → List String → SRes Unit
  | [], _ => .ok ()
  | n :: names, seen =>
    if seen.contains n then schemaErr s!"digest: duplicate {n.quote} in over"
    else if n = name then
      schemaErr "digest: a digest field cannot list itself by name in over"
    else checkOver name names (seen ++ [n])

def checkOverIn (name : String) (overs : OverIn) : SRes Unit :=
  match overs with
  | .star => .ok ()
  | .names [] => schemaErr "digest: empty over"
  | .names names => checkOver name names []

def fixed1 (kind : FixKind) : Op :=
  .fixed kind.width [{ off := 0, kind, reg := none, span := none, key := .skip }]

def ByteOrder.isBig (bo : ByteOrder) : Bool := bo == .big

/-- The byte order of a field, its own or that of its struct. -/
def orderOf (byteorder : Option ByteOrder) (bo : ByteOrder) : Bool := (byteorder.getD bo).isBig

section Lowering

variable (opts : Options)

/-- The size of a struct, which cannot be greedy. -/
def buildSize (size : Option ExprIn) : C (Option LenSrc) :=
  match size with
  | none => pure none
  | some e => do
    match ← buildLen e "struct.size" with
    | .greedy => fun _ => schemaErr "struct.size: \"*\" is not supported"
    | src => return some src

def buildCount (count : Option ExprIn) (untilEof : Bool) : C CountSrc :=
  match count, untilEof with
  | some _, true => fun _ => schemaErr "array: count and until_eof are mutually exclusive"
  | none, false => fun _ => schemaErr "array: count or until_eof is required"
  | none, true => pure .untilEof
  | some .greedy, false => pure .untilEof
  | some e, false => do
    match ← buildLen e "array.count" with
    | .expr expr inv => return .expr expr inv
    | .greedy => return .untilEof

/-- A constant size of a struct field must be that of a body of static size. -/
def checkStaticSize (size : Option LenSrc) (prog : Program) : SRes Unit :=
  match size, prog.staticSize with
  | some (.expr expr none), some st =>
    match expr.asConst with
    | some sz =>
      if sz ≠ (st : Int) then
        schemaErr s!"struct.size={sz} does not match the static body size {st}"
      else .ok ()
    | none => .ok ()
  | _, _ => .ok ()

/-- A scope of its own around `body`. -/
def inScope (body : C Unit) : C Program := fun scopes => do
  match ← body (Scope.empty :: scopes) with
  | ((), scope :: scopes) =>
    let scope ← resolveDeferredDerives scope
    .ok (← finishScope scope, scopes)
  | ((), []) => Exec.panic

/-- A dynamic field: push its op and declare its name. -/
def addOp (name : String) (op : Op) (isFlags spannable : Bool) : C Unit := do
  let loc ← pushOp op
  addSym (some name) loc false isFlags false spannable

mutual

/-- A type in the position of an array element or a switch branch: a single op with a
`Skip` key. -/
def compileElem : TypeIn → ByteOrder → C Op
  | .int prim byteorder const, bo => do
    checkConst prim const
    return fixed1 (.int prim (orderOf byteorder bo) const false)
  | .float is64 byteorder, bo =>
    let be := orderOf byteorder bo
    return fixed1 (if is64 then .f64 be else .f32 be)
  | .bool const, _ => return fixed1 (.bool const)
  | .raw len const, _ => do
    let len ← (rawLen len const elemMismatch : SRes Nat)
    return fixed1 (.raw len const)
  | .bytes len max, _ => do
    let len ← buildLen len "bytes.len"
    return .bytes len (max.getD opts.maxDefault) .skip
  | .str len max encoding errors, _ => do
    let len ← buildLen len "str.len"
    let enc ← (parseEnc encoding errors : SRes Enc)
    return .str len (max.getD opts.maxDefault) enc .skip
  | .cstr max encoding errors, _ => do
    let enc ← (parseEnc encoding errors : SRes Enc)
    return .cstr (max.getD opts.maxDefault) enc .skip
  -- The throwaway scope of the code holds only this op and leaves no trace.
  | .flags base byteorder names rest, bo =>
    (compileFlags base (orderOf byteorder bo) names rest .skip : SRes Op)
  | .struct fields byteorder size, bo => do
    let size ← buildSize size
    let prog ← inScope (compileFields fields (byteorder.getD bo))
    return .nest prog size .skip
  | .array elem count untilEof, bo => do
    let count ← buildCount count untilEof
    let elem ← compileElem elem bo
    return .array count opts.maxCount elem (opMin elem) .skip
  | .switch on cases default, bo => do
    if cases.isEmpty && default.isNone then fun _ => schemaErr "switch: no branches at all"
    else do
      let folded ← (fold on : SRes ExprIn)
      let on ← emitExpr .on folded
      let cases ← compileCases cases bo []
      let default ← compileDefault default bo
      return .switch on cases default .skip
  | .bits .., _ => fun _ => schemaErr "bits is only allowed as a struct field"
  | .digest .., _ => fun _ => schemaErr "digest is only allowed as a struct field"
  | .cond .., _ => fun _ => schemaErr "when is only allowed as a struct field"

/-- The branches of a switch, `tags` being those seen before. -/
def compileCases : List (Int × TypeIn) → ByteOrder → List Int → C (List (Int × Op))
  | [], _, _ => return []
  | (tag, ty) :: cases, bo, tags =>
    if tags.contains tag then fun _ => schemaErr s!"switch: duplicate branch {tag}"
    else do
      let op ← compileElem ty bo
      let rest ← compileCases cases bo (tags ++ [tag])
      return (tag, op) :: rest

def compileDefault : Option TypeIn → ByteOrder → C (Option Op)
  | none, _ => return none
  | some ty, bo => do return some (← compileElem ty bo)

def compileFields : List FieldIn → ByteOrder → C Unit
  | [], _ => return ()
  | .mk name ty :: fields, bo => do
    checkName name
    compileField ty bo name
    compileFields fields bo

/-- A field of a struct, once its name is checked. -/
def compileField : TypeIn → ByteOrder → Option String → C Unit
  | .int prim byteorder const, bo, name => do
    checkConst prim const
    let kind := FixKind.int prim (orderOf byteorder bo) const false
    let loc ← pushFixed kind (keyOf name)
    addSym name loc true false const.isSome true
  | .float is64 byteorder, bo, name => do
    let be := orderOf byteorder bo
    let loc ← pushFixed (if is64 then .f64 be else .f32 be) (keyOf name)
    addSym name loc false false false true
  | .bool const, _, name => do
    let loc ← pushFixed (.bool const) (keyOf name)
    addSym name loc false false const.isSome true
  | .raw len const, _, name => do
    let len ← (rawLen len const fieldMismatch : SRes Nat)
    let loc ← pushFixed (.raw len const) (keyOf name)
    addSym name loc false false const.isSome true
  | .bytes len max, _, name => do
    let name ← (namedOnly name "bytes" : SRes String)
    let len ← buildLen len "bytes.len"
    addOp name (.bytes len (max.getD opts.maxDefault) (.named name)) false true
  | .str len max encoding errors, _, name => do
    let name ← (namedOnly name "str" : SRes String)
    let enc ← (parseEnc encoding errors : SRes Enc)
    let len ← buildLen len "str.len"
    addOp name (.str len (max.getD opts.maxDefault) enc (.named name)) false true
  | .cstr max encoding errors, _, name => do
    let name ← (namedOnly name "cstr" : SRes String)
    let enc ← (parseEnc encoding errors : SRes Enc)
    addOp name (.cstr (max.getD opts.maxDefault) enc (.named name)) false true
  | .bits width signed, _, name =>
    if ¬ (1 ≤ width ∧ width ≤ 64) then fun _ =>
      schemaErr s!"bits: width {width} is outside 1..64"
    else do
      let loc ← pushBit { width, signed, reg := none, derived := false, key := keyOf name }
      addSym name loc true false false false
  | .flags base byteorder names rest, bo, name => do
    let name ← (namedOnly name "flags" : SRes String)
    let op ← (compileFlags base (orderOf byteorder bo) names rest (.named name) : SRes Op)
    addOp name op true true
  | .digest algo overrides overs verify, bo, name => do
    let name ← (namedOnly name "digest" : SRes String)
    let algo ← (parseAlgo algo overrides : SRes Algo)
    checkOverIn name overs
    -- The spans come at the end of the scope.
    let op := Op.digest algo (.spans []) verify bo.isBig (.named name)
    let loc ← pushOp op
    onTop fun scope =>
      .ok ((), { scope with digests := scope.digests ++ [(scope.ops.length - 1, overs, name)] })
    addSym (some name) loc false false false true
  | .struct fields byteorder size, bo, name => do
    let name ← (namedOnly name "struct" : SRes String)
    let size ← buildSize size
    let prog ← inScope (compileFields fields (byteorder.getD bo))
    checkStaticSize size prog
    addOp name (.nest prog size (.named name)) false true
  | .array elem count untilEof, bo, name => do
    let name ← (namedOnly name "array" : SRes String)
    let count ← buildCount count untilEof
    let elem ← compileElem elem bo
    addOp name (.array count opts.maxCount elem (opMin elem) (.named name)) false true
  | .switch on cases default, bo, name => do
    let name ← (namedOnly name "switch" : SRes String)
    if cases.isEmpty && default.isNone then fun _ => schemaErr "switch: no branches at all"
    else do
      let folded ← (fold on : SRes ExprIn)
      let on ← emitExpr .on folded
      let cases ← compileCases cases bo []
      let default ← compileDefault default bo
      addOp name (.switch on cases default (.named name)) false true
  | .cond pred thn, bo, name => do
    let name ← (namedOnly name "when" : SRes String)
    let folded ← (fold pred : SRes ExprIn)
    let pred ← emitExpr .pred folded
    let thn ← compileElem thn bo
    addOp name (.cond pred thn (.named name)) false false

end

-- The equations are made here, once for all modules.
attribute [local simp] compileElem compileCases compileDefault compileFields compileField

end Lowering

def compile (fields : List FieldIn) (opts : Options) : SRes Program := do
  let (prog, _) ← inScope (compileFields opts fields opts.byteorder) []
  let frames := frameDepth prog
  if frames > maxDepth then
    schemaErr s!"schema nests {frames} structs deep, more than the {maxDepth} unpacking allows (the schema itself is the outermost one)"
  else .ok prog

end Rustruct

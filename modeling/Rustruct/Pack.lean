import Rustruct.Program
import Rustruct.Unpack

/-!
# Pack

The interpreter of compiled programs over a value. A derived field is written as zeros and
patched when its consumer has been written.
-/

namespace Rustruct

/-- Top-level pack outcome. -/
inductive PackOutcome where
  | ok (out : Bytes)
  | err (kind : Kind) (path : String)
  | panic
  deriving DecidableEq, Repr

/-- The reserved slot of a derived field. -/
inductive Slot where
  | int (pos : Nat) (prim : IntPrim) (be : Bool)
  | bits (base bitOff width : Nat) (signed : Bool)
  deriving DecidableEq, Repr

structure Resv where
  slot : Slot
  value : Option Int
  deriving DecidableEq, Repr

structure PDigest where
  algo : Algo
  overs : Over
  pos : Nat
  width : Nat
  be : Bool
  deriving DecidableEq, Repr

structure PFrame where
  regs : Fin maxRegs → Int
  known : Fin maxRegs → Bool
  res : Fin maxRegs → Option Resv
  spans : Fin maxSpans → Nat × Nat
  digests : List PDigest

/-- The frame `pack_struct` pushes. -/
def PFrame.new : PFrame :=
  { regs := fun _ => 0, known := fun _ => false, res := fun _ => none, spans := fun _ => (0, 0),
    digests := [] }

/-- What has been written, and the frames, innermost first. -/
structure PCtx where
  out : Bytes
  frames : List PFrame

/-- How a named entry of a mapping is looked up. -/
class Source where
  viewGet (view : FieldIndex) (name : String) : PRes (Option Value)

instance valueSource : Source where
  viewGet view name := .ok (view.get name)

section Writing

/-- `out.resize(n, 0)`, which cannot exceed the largest vector. -/
def resize (out : Bytes) (n : Nat) : PRes Bytes :=
  if n > isizeMax then Exec.panic else .ok (out.take n ++ List.replicate (n - out.length) 0)

/-- `out.extend_from_slice(b)` -/
def extend (out b : Bytes) : PRes Bytes :=
  if out.length + b.length > isizeMax then Exec.panic else .ok (out ++ b)

/-- `out[pos..pos + b.len()].copy_from_slice(b)` -/
def copyAt (out : Bytes) (pos : Nat) (b : Bytes) : PRes Bytes :=
  if pos + b.length ≤ out.length then .ok (out.take pos ++ b ++ out.drop (pos + b.length))
  else Exec.panic

/-- The low `w` bytes of `v`. -/
def uintBytes (w : Nat) (be : Bool) (v : Nat) : Bytes :=
  (List.range w).map fun i => UInt8.ofNat (v / 2 ^ ((if be then w - 1 - i else i) * 8))

def writeUintAt (out : Bytes) (pos w : Nat) (be : Bool) (v : Nat) : PRes Bytes :=
  copyAt out pos (uintBytes w be v)

def writeIntAt (out : Bytes) (pos : Nat) (prim : IntPrim) (be : Bool) (v : Int) : PRes Bytes :=
  if v < prim.min ∨ v > prim.max then refuse .range
  else writeUintAt out pos prim.width be (asU64 v % 2 ^ (prim.width * 8))

/-- The bytes `writeIntAt` writes. -/
def intBytes (prim : IntPrim) (be : Bool) (v : Int) : Bytes :=
  uintBytes prim.width be (asU64 v % 2 ^ (prim.width * 8))

def checkBitsRange (v : Int) (width : Nat) (signed : Bool) : PRes Unit :=
  let ok : Bool :=
    if signed then -(2 ^ (width - 1)) ≤ v ∧ v < 2 ^ (width - 1) else 0 ≤ v ∧ v < 2 ^ width
  if ok then .ok () else refuse .range

/-- OR bit `i` of an MSB-first stream into `out`. -/
def orBit (out : Bytes) (base i : Nat) (bit : Bool) : PRes Bytes :=
  if bit then
    match out[base + i / 8]? with
    | some byte => .ok (out.set (base + i / 8) (byte ||| UInt8.ofNat (2 ^ (7 - i % 8))))
    | none => Exec.panic
  else .ok out

/-- The low `n` bits of `v`, the highest first, from bit `i` on. -/
def orBits (base v : Nat) : Nat → Nat → Bytes → PRes Bytes
  | 0, _, out => .ok out
  | n + 1, i, out => do orBits base v n (wrapAddU32 i 1) (← orBit out base i (v.testBit n))

def encode (s : String) (enc : Enc) : Option Bytes :=
  match enc with
  | .utf8 => some s.toUTF8.data.toList
  | .ascii => if s.toList.all (fun c => c.toNat < 0x80) then some s.toUTF8.data.toList else none
  | .latin1 =>
    if s.toList.all (fun c => c.toNat ≤ 0xFF) then some (s.toList.map fun c => UInt8.ofNat c.toNat)
    else none

end Writing

namespace PCtx

/-- The innermost frame. -/
def updateTop (ctx : PCtx) (f : PFrame → PRes PFrame) : PRes PCtx :=
  match ctx.frames with
  | top :: rest => do .ok { ctx with frames := (← f top) :: rest }
  | [] => Exec.panic

def setReg (ctx : PCtx) (idx : Option Nat) (v : Int) : PRes PCtx :=
  match idx with
  | none => .ok ctx
  | some idx => ctx.updateTop fun f =>
    if h : idx < maxRegs then
      .ok { f with
        regs := Function.update f.regs ⟨idx, h⟩ v
        known := Function.update f.known ⟨idx, h⟩ true }
    else Exec.panic

def setSpan (ctx : PCtx) (idx : Option Nat) (start stop : Nat) : PRes PCtx :=
  match idx with
  | none => .ok ctx
  | some idx => ctx.updateTop fun f =>
    if h : idx < maxSpans then
      .ok { f with spans := Function.update f.spans ⟨idx, h⟩ (start, stop) }
    else Exec.panic

/-- Reserve the slot of a derived field. -/
def reserve (ctx : PCtx) (idx : Option Nat) (slot : Slot) : PRes PCtx := do
  let idx ← Exec.expect idx
  ctx.updateTop fun f =>
    if h : idx < maxRegs then
      .ok { f with res := Function.update f.res ⟨idx, h⟩ (some { slot, value := none }) }
    else Exec.panic

/-- The register value, `missing` while its derived field has not been patched. -/
def getReg (ctx : PCtx) (r : Reg) : Exec Kind Int :=
  match ctx.frames[r.up]? with
  | some f =>
    if h : r.idx < maxRegs then
      if f.known ⟨r.idx, h⟩ then .ok (f.regs ⟨r.idx, h⟩) else Exec.fail .missing
    else Exec.panic
  | none => Exec.panic

def eval (ctx : PCtx) (expr : Expr) : PRes Int :=
  Exec.mapErr (fun k => { kind := k }) (expr.eval ctx.getReg)

/-- Write the value of a derived field into its slot. -/
def writeSlot (out : Bytes) (slot : Slot) (x : Int) : PRes Bytes :=
  match slot with
  | .int pos prim be => writeIntAt out pos prim be x
  | .bits base bitOff width signed => do
    checkBitsRange x width signed
    orBits base (asU64 x % 2 ^ width) width bitOff out

/-- `x = (actual - b) / a`, which must be exact. -/
def invert (inv : Inv) (actual : Int) : PRes Int :=
  match checkedI64 (actual - inv.b) with
  | none => refuse .range
  | some d =>
    -- The remainder by zero, and that of the least value by -1, abort.
    if inv.a = 0 ∨ (d = i64Min ∧ inv.a = -1) then Exec.panic
    else if d.tmod inv.a ≠ 0 then refuse .indivisible
    else .ok (d.tdiv inv.a)

/-- Inversion: the derived register gets `x = (actual - b) / a`. -/
def applyInv (ctx : PCtx) (inv : Inv) (actual : Int) : PRes PCtx := do
  let x ← invert inv actual
  match ctx.frames[inv.reg.up]? with
  | none => Exec.panic
  | some f =>
    if h : inv.reg.idx < maxRegs then
      let idx : Fin maxRegs := ⟨inv.reg.idx, h⟩
      match f.res idx with
      -- A non-derived target: the values must match.
      | none => if f.known idx ∧ f.regs idx = x then .ok ctx else refuse .inconsistent
      | some { value := some prev, .. } =>
        -- Multiple consumers must agree.
        if prev ≠ x then refuse .inconsistent else .ok ctx
      | some { slot, value := none } => do
        let out ← writeSlot ctx.out slot x
        .ok { out, frames := ctx.frames.set inv.reg.up { f with
          regs := Function.update f.regs idx x
          known := Function.update f.known idx true
          res := Function.update f.res idx (some { slot, value := some x }) } }
    else Exec.panic

def finishLen (ctx : PCtx) (len : LenSrc) (actual : Nat) : PRes PCtx :=
  match len with
  | .greedy => .ok ctx
  | .expr _ (some inv) =>
    match checkedI64 actual with
    | some actual => ctx.applyInv inv actual
    | none => refuse .range
  | .expr expr none => do
    let n ← Exec.expect expr.asConst
    if (actual : Int) ≠ n then refuse .length else .ok ctx

end PCtx

def segKey (key : Key) (e : PackFail) : PackFail :=
  match key.name with
  | some n => e.seg (.field n)
  | none => e

/-- The entry of a key, if it has a name. -/
def Source.lookup [Source] (view : FieldIndex) (key : Key) : PRes (Option Value) :=
  match key.name with
  | some n => Source.viewGet view n
  | none => .ok none

/-- What `ValueSource` looks up. -/
def lookup (view : FieldIndex) (key : Key) : Option Value :=
  key.name.bind view.get

@[simp] lemma lookup_value (view : FieldIndex) (key : Key) :
    Source.lookup view key = .ok (Rustruct.lookup view key) := by
  cases key <;> rfl

@[simp] lemma viewGet_value (view : FieldIndex) (name : String) : Source.viewGet view name = .ok (view.get name) := rfl

/-- The input of a fixed or bits field: `zero` for an unnamed one. -/
def inputOf {α : Type} (v : Option Value) (key : Key) (read : Value → Option α) (zero : α) :
    PRes α :=
  match v with
  | some val =>
    match read val with
    | some a => .ok a
    | none => refuse .type
  | none => if key.name.isSome then refuse .missing else .ok zero

/-- `f as f32` -/
def narrow (f : UInt64) : Nat := (Float.ofBits f).toFloat32.toBits.toNat

/-- An integer field: a const is written from the schema, a derived one is reserved. -/
def packInt (pos : Nat) (prim : IntPrim) (be : Bool) (expected : Option Int) (derived : Bool)
    (item : FixedItem) (v : Option Value) (ctx : PCtx) : PRes PCtx :=
  match expected with
  | some exp => do
    let out ← writeIntAt ctx.out pos prim be exp
    { ctx with out }.setReg item.reg (asI64 exp)
  | none =>
    if derived then ctx.reserve item.reg (.int pos prim be)
    else do
      let val ← inputOf v item.key Value.asInt 0
      let out ← writeIntAt ctx.out pos prim be val
      { ctx with out }.setReg item.reg (asI64 val)

def packBool (expected : Option Bool) (item : FixedItem) (v : Option Value) : PRes Bool :=
  match expected with
  | some exp => .ok exp
  | none => inputOf v item.key Value.truthy false

/-- The bytes of a raw field. Those of an unnamed one are there already. -/
def packRaw (pos len : Nat) (expected : Option Bytes) (item : FixedItem) (v : Option Value)
    (out : Bytes) : PRes Bytes :=
  match expected with
  | some exp => if exp.length ≠ len then Exec.panic else copyAt out pos exp
  | none =>
    match v with
    | some val =>
      match val.asBytes with
      | none => refuse .type
      | some b => if b.length ≠ len then refuse .length else copyAt out pos b
    | none => if item.key.name.isSome then refuse .missing else .ok out

def packFixedItem (base : Nat) (item : FixedItem) (v : Option Value) (ctx : PCtx) : PRes PCtx := do
  let pos := wrapAdd base item.off
  match item.kind with
  | .int prim be expected derived =>
    let ctx ← packInt pos prim be expected derived item v ctx
    ctx.setSpan item.span pos (pos + prim.width)
  | .f32 be =>
    let f ← inputOf v item.key Value.asFloat 0
    let out ← writeUintAt ctx.out pos 4 be (narrow f)
    { ctx with out }.setSpan item.span pos (pos + 4)
  | .f64 be =>
    let f ← inputOf v item.key Value.asFloat 0
    let out ← writeUintAt ctx.out pos 8 be f.toNat
    { ctx with out }.setSpan item.span pos (pos + 8)
  | .bool expected =>
    let val ← packBool expected item v
    let out ← copyAt ctx.out pos [if val then 1 else 0]
    { ctx with out }.setSpan item.span pos (pos + 1)
  | .raw len expected =>
    let out ← packRaw pos len expected item v ctx.out
    { ctx with out }.setSpan item.span pos (pos + len)

def packBitItem (base bitOff : Nat) (item : BitItem) (v : Option Value) (ctx : PCtx) :
    PRes PCtx :=
  if item.derived then ctx.reserve item.reg (.bits base bitOff item.width item.signed)
  else do
    let val ← inputOf v item.key Value.asInt 0
    checkBitsRange val item.width item.signed
    let out ← orBits base (asU64 val % 2 ^ item.width) item.width bitOff ctx.out
    { ctx with out }.setReg item.reg (asI64 val)

section Items

variable [Source]

def packFixedItems (base : Nat) (view : FieldIndex) : List FixedItem → PCtx → PRes PCtx
  | [], ctx => .ok ctx
  | item :: items, ctx => do
    let v ← Source.lookup view item.key
    let ctx ← Exec.mapErr (segKey item.key) (packFixedItem base item v ctx)
    packFixedItems base view items ctx

def packBitItems (base : Nat) (view : FieldIndex) : List BitItem → Nat → PCtx → PRes PCtx
  | [], _, ctx => .ok ctx
  | item :: items, bitOff, ctx => do
    let v ← Source.lookup view item.key
    let ctx ← Exec.mapErr (segKey item.key) (packBitItem base bitOff item v ctx)
    packBitItems base view items (wrapAddU32 bitOff item.width) ctx

end Items

/-- Room for `n` more zero bytes. -/
def PCtx.grow (ctx : PCtx) (n : Nat) : PRes PCtx := do
  .ok { ctx with out := ← resize ctx.out (wrapAdd ctx.out.length n) }

def packFixedRun [Source] (width : Nat) (items : List FixedItem) (view : FieldIndex) (ctx : PCtx) :
    PRes PCtx := do
  packFixedItems ctx.out.length view items (← ctx.grow width)

def packBitRun [Source] (nbytes : Nat) (items : List BitItem) (view : FieldIndex) (ctx : PCtx) :
    PRes PCtx := do
  packBitItems ctx.out.length view items 0 (← ctx.grow nbytes)

/-- Input from the mapping is always ignored: reserve with zeros. -/
def packDigest (algo : Algo) (overs : Over) (be : Bool) (c : Common) (ctx : PCtx) : PRes PCtx := do
  let w := algo.widthBytes
  let pos := ctx.out.length
  let ctx ← (← ctx.grow w).setSpan c.span pos (pos + w)
  let _ ← Exec.expect c.key.name
  ctx.updateTop fun f =>
    .ok { f with digests := f.digests ++ [{ algo, overs, pos, width := w, be }] }

/-- The meaning of an op in a value position. -/
abbrev PSem := Value → PCtx → PRes PCtx

/-- A struct field whose value is packed by `sem`. -/
def packField [Source] (c : Common) (sem : PSem) (view : FieldIndex) (ctx : PCtx) : PRes PCtx := do
  let name ← Exec.expect c.key.name
  match ← Source.viewGet view name with
  | none => Exec.fail ({ kind := .missing : PackFail }.seg (.field name))
  | some v =>
    let start := ctx.out.length
    let ctx ← Exec.mapErr (segKey c.key) (sem v ctx)
    ctx.setSpan c.span start ctx.out.length

/-- An absent field writes no bytes and looks nothing up. -/
def packCond [Source] (pred : Expr) (c : Common) (sem : PSem) (view : FieldIndex) (ctx : PCtx) :
    PRes PCtx := do
  if (← ctx.eval pred) ≠ 0 then packField c sem view ctx else .ok ctx

def packFixed1 (width : Nat) (items : List FixedItem) : PSem := fun v ctx => do
  let base := ctx.out.length
  let ctx ← ctx.grow width
  let item ← Exec.expect items.head?
  packFixedItem base item (some v) ctx

/-- Append bytes whose length `len` stands for. -/
def packChunk (len : LenSrc) (max : Nat) (b : Bytes) (ctx : PCtx) : PRes PCtx :=
  if b.length > max then refuse .limit
  else do
    let out ← extend ctx.out b
    { ctx with out }.finishLen len b.length

def packBytes (len : LenSrc) (max : Nat) : PSem := fun v ctx =>
  match v.asBytes with
  | none => refuse .type
  | some b => packChunk len max b ctx

/-- The encoded text of a value. -/
def textOf (v : Value) (enc : Enc) : PRes Bytes :=
  match v.asStr with
  | none => refuse .type
  | some s =>
    match encode s enc with
    | none => refuse .encode
    | some b => .ok b

def packStr (len : LenSrc) (max : Nat) (enc : Enc) : PSem := fun v ctx => do
  packChunk len max (← textOf v enc) ctx

def packCstr (max : Nat) (enc : Enc) : PSem := fun v ctx => do
  let b ← textOf v enc
  if b.contains 0 then refuse .nulInCstr
  else if b.length > max then refuse .limit
  else do .ok { ctx with out := ← extend ctx.out (b ++ [0]) }

/-- An integer of a flags map, 0 when missing. -/
def flagInt (field : Option Value) : PRes Int :=
  match field with
  | none => .ok 0
  | some x =>
    match x.asInt with
    | none => refuse .type
    | some i => .ok i

/-- The bits one name of a flags field contributes. -/
def packFlag (field : Option Value) (item : FlagItem) : PRes U64 :=
  if item.isBool then
    match field with
    | none => .ok 0#64
    | some x =>
      match x.truthy with
      | none => refuse .type
      | some b => .ok (if b then item.mask else 0#64)
  else do
    let val ← flagInt field
    let width := (List.range 64).countP fun i => (item.mask >>> item.shift).getLsbD i
    -- `1u64 << 64` wraps to a shift by 0 without overflow checks.
    if val < 0 ∨ val > (((1#64 <<< (width % 64)) - 1#64).toNat : Int) then refuse .range
    else .ok (BitVec.ofInt 64 val <<< item.shift)

def packFlagItems [Source] (view : FieldIndex) : List FlagItem → U64 → PRes U64
  | [], raw => .ok raw
  | item :: items, raw => do
    let field ← Source.viewGet view item.key
    packFlagItems view items (raw ||| (← packFlag field item))

/-- The bits `_rest` contributes. -/
def packRest [Source] (view : FieldIndex) (rest : RestPolicy) (restMask : U64) : PRes U64 :=
  match rest with
  | .keep => do
    let leftover ← flagInt (← Source.viewGet view "_rest")
    if leftover < 0 ∨ leftover > 2 ^ 64 - 1 ∨ BitVec.ofInt 64 leftover &&& ~~~restMask ≠ 0#64 then
      refuse .range
    else .ok (BitVec.ofInt 64 leftover &&& restMask)
  | _ => .ok 0#64

def packFlags [Source] (prim : IntPrim) (be : Bool) (items : List FlagItem) (rest : RestPolicy)
    (restMask : U64) : PSem := fun v ctx =>
  match v.mapView with
  | none => refuse .type
  | some view => do
    -- A closed key set: the one place all supplied keys matter.
    if view.keys.all fun k => items.any (fun i => i.key == k) || (rest == .keep && k == "_rest") then
      let raw ← packFlagItems view items 0#64
      let raw := raw ||| (← packRest view rest restMask)
      let pos := ctx.out.length
      let ctx ← ctx.grow prim.width
      .ok { ctx with out := ← writeUintAt ctx.out pos prim.width be raw.toNat }
    else refuse .unknownFlag

def packNest (sem : PSem) (size : Option LenSrc) : PSem := fun v ctx => do
  let start := ctx.out.length
  let ctx ← sem v ctx
  match size with
  | none => .ok ctx
  | some len => do
    let sz ← checkedSub ctx.out.length start
    ctx.finishLen len sz

/-- The elements of a list, the first of them with index `i`. -/
def packElems (sem : PSem) : List Value → Nat → PCtx → PRes PCtx
  | [], _, ctx => .ok ctx
  | v :: vs, i, ctx => do
    let ctx ← Exec.mapErr (fun e => e.seg (.index i)) (sem v ctx)
    packElems sem vs (i + 1) ctx

def packArray (count : CountSrc) (sem : PSem) : PSem := fun v ctx =>
  match v.asList with
  | none => refuse .type
  | some list => do
    let ctx ← packElems sem list 0 ctx
    match count with
    | .untilEof => .ok ctx
    | .expr expr inv => ctx.finishLen (.expr expr inv) list.length

def packSwitch (on : Expr) (branch : Int → Option PSem) : PSem := fun v ctx => do
  let tag ← ctx.eval on
  match branch tag with
  | some sem => sem v ctx
  | none => refuse .noCase

section Interpreter

variable [Source] (H : Hashes)

/-- The digest of what the scope wrote. -/
def PDigest.compute (d : PDigest) (out : Bytes) (scopeStart scopeEnd : Nat) (f : PFrame) :
    PRes DigestVal :=
  match d.overs with
  -- The zero reservation gives self-as-zeros for free.
  | .star => do
    let whole ← slice out scopeStart scopeEnd
    .ok (digestOf H d.algo [whole])
  | .spans idxs => do
    let h ← idxs.foldlM (fun h i =>
      if hi : i < maxSpans then do
        let piece ← slice out (f.spans ⟨i, hi⟩).1 (f.spans ⟨i, hi⟩).2
        .ok (h.update piece)
      else Exec.panic) (Hasher.new d.algo)
    .ok (h.finalize H)

def PDigest.write (d : PDigest) (v : DigestVal) (out : Bytes) : PRes Bytes :=
  match v with
  | .int v => writeUintAt out d.pos d.width d.be v.toNat
  | .bytes b => if b.length ≠ d.width then Exec.panic else copyAt out d.pos b

/-- This scope's digests run after all length patches, innermost first. -/
def fillDigests (scopeStart scopeEnd : Nat) (f : PFrame) : List PDigest → Bytes → PRes Bytes
  | [], out => .ok out
  | d :: ds, out => do
    let v ← d.compute H out scopeStart scopeEnd f
    fillDigests scopeStart scopeEnd f ds (← d.write v out)

/-- A struct in its own frame, `body` packing its ops. -/
def withPFrame (body : FieldIndex → PCtx → PRes PCtx) : PSem := fun v ctx =>
  match v.mapView with
  | none => refuse .type
  | some view => do
    let scopeStart := ctx.out.length
    let ctx ← body view { ctx with frames := .new :: ctx.frames }
    match ctx.frames with
    | [] => Exec.panic
    | f :: frames =>
      .ok { out := ← fillDigests H scopeStart ctx.out.length f f.digests ctx.out, frames }

mutual

/-- Value to bytes for a single opcode. -/
def packValue : Op → PSem
  | .fixed width items => packFixed1 width items
  | .bytes len max _ => packBytes len max
  | .str len max enc _ => packStr len max enc
  | .cstr max enc _ => packCstr max enc
  | .flags prim be items rest restMask _ => packFlags prim be items rest restMask
  | .nest prog size _ => packNest (packStruct prog) size
  | .array count _ elem _ _ => packArray count (packValue elem)
  | .switch on cases default _ =>
    packSwitch on (fun tag => (packCase cases tag).or (packDefault default))
  | .bitRun .. | .digest .. | .cond .. => fun _ _ => Exec.panic

def packCase : List (Int × Op) → Int → Option PSem
  | [], _ => none
  | (t, op) :: cases, tag => if t = tag then some (packValue op) else packCase cases tag

def packDefault : Option Op → Option PSem
  | none => none
  | some op => some (packValue op)

def packStruct : Program → PSem
  | .mk ops _ _ _ _ => withPFrame H (packOps ops)

def packOps : List Op → FieldIndex → PCtx → PRes PCtx
  | [] => fun _ ctx => .ok ctx
  | op :: ops => fun view ctx => do packOps ops view (← packOp op view ctx)

def packOp : Op → FieldIndex → PCtx → PRes PCtx
  | .fixed width items => packFixedRun width items
  | .bitRun nbytes items => packBitRun nbytes items
  | .digest algo overs _ be c => fun _ => packDigest algo overs be c
  | .cond pred thn c => packCond pred c (packValue thn)
  | .bytes len max c => packField c (packBytes len max)
  | .str len max enc c => packField c (packStr len max enc)
  | .cstr max enc c => packField c (packCstr max enc)
  | .flags prim be items rest restMask c => packField c (packFlags prim be items rest restMask)
  | .nest prog size c => packField c (packNest (packStruct prog) size)
  | .array count _ elem _ c => packField c (packArray count (packValue elem))
  | .switch on cases default c =>
    packField c (packSwitch on (fun tag => (packCase cases tag).or (packDefault default)))

end

/-- `pack::run`: a value into a buffer of its own. -/
def packRun (prog : Program) (values : Value) : PackOutcome :=
  match packStruct H prog values { out := [], frames := [] } with
  | .ok ctx => .ok ctx.out
  | .error (.err e) => .err e.kind (formatPath e.path)
  | .error .panic => .panic

-- The equations are made here, once for all modules.
attribute [local simp] packValue packCase packDefault packStruct packOps packOp

end Interpreter

lemma packFixedItems_cons (base : Nat) (view : FieldIndex) (item : FixedItem) (items : List FixedItem) (ctx : PCtx) :
    packFixedItems base view (item :: items) ctx =
      Exec.mapErr (segKey item.key) (packFixedItem base item (lookup view item.key) ctx) >>=
        packFixedItems base view items := by
  rw [packFixedItems, lookup_value, Exec.bind_ok]

lemma packBitItems_cons (base : Nat) (view : FieldIndex) (item : BitItem) (items : List BitItem) (bitOff : Nat)
    (ctx : PCtx) :
    packBitItems base view (item :: items) bitOff ctx =
      Exec.mapErr (segKey item.key) (packBitItem base bitOff item (lookup view item.key) ctx) >>=
        packBitItems base view items (wrapAddU32 bitOff item.width) := by
  rw [packBitItems, lookup_value, Exec.bind_ok]

lemma packFlagItems_cons (view : FieldIndex) (item : FlagItem) (items : List FlagItem) (raw : U64) :
    packFlagItems view (item :: items) raw =
      packFlag (view.get item.key) item >>= fun bits => packFlagItems view items (raw ||| bits) := by
  rw [packFlagItems, viewGet_value, Exec.bind_ok]

end Rustruct

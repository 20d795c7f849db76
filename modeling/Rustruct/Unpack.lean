import Rustruct.Program
import Rustruct.Value

/-!
# Unpack

The interpreter of compiled programs over a byte buffer. A failed index, slice,
subtraction or `expect`, and an `unreachable!`, is `Exec.panic`.
-/

namespace Rustruct

/-- A byte slice, which is never longer than `isize::MAX`. -/
structure Buffer where
  bytes : Bytes
  small : bytes.length ≤ isizeMax

/-- Top-level unpack outcome. -/
inductive Outcome where
  | ok (value : Value) (pos : Nat)
  | incomplete (needed : Nat)
  | invalid (kind : Kind) (offset : Nat) (path : String)
  | panic

structure Frame where
  regs : Fin maxRegs → Int
  spans : Fin maxSpans → Nat × Nat

/-- The frame `run_struct` pushes. -/
def Frame.new : Frame := { regs := fun _ => 0, spans := fun _ => (0, 0) }

/-- The frame stack, innermost first. -/
abbrev Frames := List Frame

/-- Where the interpreter stands: the frames and the position in the buffer. -/
structure Cur where
  fs : Frames
  pos : Nat

/-- How the map of a decoded struct takes an entry. -/
class Builder where
  mapSet (map : List (String × Value)) (name : String) (v : Value) : URes (List (String × Value))

instance valueBuilder : Builder where
  mapSet map name v := .ok (map ++ [(name, v)])

section Basics

variable {ε : Type}

/-- `a + b` on `usize`, with overflow checks. -/
def checkedAdd (a b : Nat) : Exec ε Nat :=
  if a + b < usizeSize then .ok (a + b) else Exec.panic

/-- `a - b` on `usize`. -/
def checkedSub (a b : Nat) : Exec ε Nat :=
  if b ≤ a then .ok (a - b) else Exec.panic

/-- `&buf[start..stop]` -/
def slice (buf : Bytes) (start stop : Nat) : Exec ε Bytes :=
  if start ≤ stop ∧ stop ≤ buf.length then .ok ((buf.drop start).take (stop - start))
  else Exec.panic

def getReg (fs : Frames) (r : Reg) : Exec ε Int :=
  match fs[r.up]? with
  | some f => if h : r.idx < maxRegs then .ok (f.regs ⟨r.idx, h⟩) else Exec.panic
  | none => Exec.panic

def setReg (fs : Frames) (idx : Nat) (v : Int) : Exec ε Frames :=
  match fs with
  | f :: rest =>
    if h : idx < maxRegs then .ok ({ f with regs := Function.update f.regs ⟨idx, h⟩ v } :: rest)
    else Exec.panic
  | [] => Exec.panic

def setSpan (fs : Frames) (idx : Option Nat) (start stop : Nat) : Exec ε Frames :=
  match idx with
  | none => .ok fs
  | some idx =>
    match fs with
    | f :: rest =>
      if h : idx < maxSpans then
        .ok ({ f with spans := Function.update f.spans ⟨idx, h⟩ (start, stop) } :: rest)
      else Exec.panic
    | [] => Exec.panic

end Basics

def readUint (raw : Bytes) (be : Bool) : Nat :=
  (if be then raw else raw.reverse).foldl (fun v b => v * 256 + b.toNat) 0

def readSint (raw : Bytes) (be : Bool) : Int :=
  let u := readUint raw be
  let bits := raw.length * 8
  if bits < 64 then
    if u.testBit (bits - 1) then (u : Int) - 2 ^ bits else u
  else if (u : Int) > i64Max then asI64 u else u

/-- The value of an integer field. -/
def readInt (prim : IntPrim) (be : Bool) (raw : Bytes) : Int :=
  if prim.signed then readSint raw be else readUint raw be

def decode (raw : Bytes) (enc : Enc) : Option String :=
  match enc with
  | .utf8 => String.fromUTF8? ⟨raw.toArray⟩
  | .ascii =>
    if raw.all (fun b => b < 0x80) then some (String.ofList (raw.map (fun b => Char.ofNat b.toNat)))
    else none
  | .latin1 => some (String.ofList (raw.map (fun b => Char.ofNat b.toNat)))

/-- Bit `bitIndex` after byte `base`, most significant bit first. -/
def readBit (buf : Bytes) (base bitIndex : Nat) : URes Bool :=
  match buf[base + bitIndex / 8]? with
  | some byte => .ok (byte.toNat.testBit (7 - bitIndex % 8))
  | none => Exec.panic

/-- `width` more bits from `bitIndex` on, after the bits of `v`. -/
def readBitsFrom (buf : Bytes) (base : Nat) : Nat → Nat → Nat → URes Nat
  | 0, _, v => .ok v
  | width + 1, bitIndex, v => do
    let bit ← readBit buf base bitIndex
    readBitsFrom buf base width (wrapAddU32 bitIndex 1) (v * 2 + bit.toNat)

/-- The value of `width` bits that were read as `v`. -/
def signBits (width : Nat) (signed : Bool) (v : Nat) : Int :=
  if signed then
    if width < 64 then
      if v.testBit (width - 1) then (v : Int) - 2 ^ width else v
    else asI64 v
  else v

def readBits (buf : Bytes) (base bitpos : Nat) (item : BitItem) : URes Int := do
  let v ← readBitsFrom buf base item.width bitpos 0
  .ok (signBits item.width item.signed v)

/-- `f64::from` of a 32-bit pattern. -/
def widen (raw : Nat) : UInt64 := (Float32.ofBits (UInt32.ofNat raw)).toFloat.toBits

/-- The meaning of an op in a value position: from a limit and a place to a value and the
place after it. -/
abbrev Sem := Nat → Cur → URes (Value × Cur)

/-- Deferred digest verification. -/
structure Deferred where
  algo : Algo
  overs : Over
  verify : Bool
  read : DigestVal
  /-- Bytes of the digest field itself. -/
  field : Nat × Nat
  key : String

/-- The state of a scope between two of its ops. -/
structure Scan where
  cur : Cur
  map : List (String × Value)
  deferred : List Deferred

def pushKey (key : Key) (e : UFail) : UFail :=
  match key.name with
  | some n => e.seg (.field n)
  | none => e

/-- The value under its key, if it has a name. -/
def Builder.insert [Builder] (map : List (String × Value)) (key : Key) (v : Value) : URes (List (String × Value)) :=
  match key.name with
  | some n => Builder.mapSet map n v
  | none => .ok map

/-- What `ValueBuilder` inserts. -/
def mapSet (map : List (String × Value)) (key : Key) (v : Value) : List (String × Value) :=
  match key.name with
  | some n => map ++ [(n, v)]
  | none => map

@[simp] lemma mapSet_value (map : List (String × Value)) (name : String) (v : Value) :
    Builder.mapSet map name v = .ok (map ++ [(name, v)]) := rfl

@[simp] lemma insert_value (map : List (String × Value)) (key : Key) (v : Value) :
    Builder.insert map key v = .ok (mapSet map key v) := by
  cases key <;> rfl

section Interpreter

variable [Builder] (H : Hashes) (buf : Bytes)

/-- Bounds check: hitting the end of the buffer is `Incomplete`, hitting a window boundary is
`Invalid`. The code saturates the first sum, which changes nothing below `isize::MAX`, but not
the one for `needed`. -/
def need (pos limit n : Nat) : URes Unit :=
  if pos + n ≤ limit then .ok ()
  else if limit = buf.length then do
    let needed ← checkedSub (← checkedAdd pos n) buf.length
    Exec.fail (.incomplete needed)
  else invalid .truncated pos

def eval (fs : Frames) (expr : Expr) (pos : Nat) : URes Int :=
  Exec.mapErr (fun k => .invalid { kind := k, offset := pos }) (expr.eval (getReg fs))

def evalLen (fs : Frames) (expr : Expr) (pos : Nat) : URes Nat := do
  let v ← eval fs expr pos
  if v < 0 then invalid .negativeLen pos else .ok v.toNat

/-- The length before it is checked against `max`. -/
def wantedLen (fs : Frames) (len : LenSrc) (pos limit : Nat) : URes Nat :=
  match len with
  | .greedy => checkedSub limit pos
  | .expr expr _ => evalLen fs expr pos

def resolveLen (fs : Frames) (len : LenSrc) (max pos limit : Nat) : URes Nat := do
  let n ← wantedLen fs len pos limit
  if n > max then invalid .limit pos else .ok n

/-- A decoded value into the register of its field, if it has one. -/
def storeReg (fs : Frames) (reg : Option Nat) (v : Int) (pos : Nat) : URes Frames :=
  match reg with
  | none => .ok fs
  | some reg =>
    match checkedI64 v with
    | some as64 => setReg fs reg as64
    | none => invalid .overflow pos

def readFixedItem (item : FixedItem) (base : Nat) (fs : Frames) : URes (Value × Frames) := do
  let pos := wrapAdd base item.off
  match item.kind with
  | .int prim be expected _ =>
    let w := prim.width
    let raw ← slice buf pos (pos + w)
    let v := readInt prim be raw
    if expected.any (fun exp => exp ≠ v) then invalid .const pos
    else
      let fs ← storeReg fs item.reg v pos
      let fs ← setSpan fs item.span pos (pos + w)
      .ok (.int v, fs)
  | .f32 be =>
    let raw ← slice buf pos (pos + 4)
    let fs ← setSpan fs item.span pos (pos + 4)
    .ok (.float (widen (readUint raw be)), fs)
  | .f64 be =>
    let raw ← slice buf pos (pos + 8)
    let fs ← setSpan fs item.span pos (pos + 8)
    .ok (.float (UInt64.ofNat (readUint raw be)), fs)
  | .bool expected =>
    let byte ← Exec.expect buf[pos]?
    let v := byte != 0
    if expected.any (fun exp => exp ≠ v) then invalid .const pos
    else
      let fs ← setSpan fs item.span pos (pos + 1)
      .ok (.bool v, fs)
  | .raw len expected =>
    let raw ← slice buf pos (pos + len)
    if expected.any (fun exp => exp ≠ raw) then invalid .const pos
    else
      let fs ← setSpan fs item.span pos (pos + len)
      .ok (.bytes raw, fs)

/-- The items of a coalesced run in turn. -/
def readFixedItems (base : Nat) : List FixedItem → Frames → List (String × Value) →
    URes (Frames × List (String × Value))
  | [], fs, map => .ok (fs, map)
  | item :: items, fs, map => do
    let (v, fs) ← Exec.mapErr (pushKey item.key) (readFixedItem buf item base fs)
    let map ← Builder.insert map item.key v
    readFixedItems base items fs map

/-- The items of a bit run in turn. -/
def readBitItems (pos : Nat) : List BitItem → Nat → Frames → List (String × Value) →
    URes (Frames × List (String × Value))
  | [], _, fs, map => .ok (fs, map)
  | item :: items, bitpos, fs, map => do
    let v ← readBits buf pos bitpos item
    let fs ← Exec.mapErr (pushKey item.key) (storeReg fs item.reg v pos)
    let map ← Builder.insert map item.key (.int v)
    readBitItems pos items (wrapAddU32 bitpos item.width) fs map

def runFixed (width : Nat) (items : List FixedItem) (limit : Nat) (s : Scan) : URes Scan := do
  need buf s.cur.pos limit width
  let (fs, map) ← readFixedItems buf s.cur.pos items s.cur.fs s.map
  .ok { s with cur := { fs, pos := s.cur.pos + width }, map }

def runBitRun (nbytes : Nat) (items : List BitItem) (limit : Nat) (s : Scan) : URes Scan := do
  need buf s.cur.pos limit nbytes
  let (fs, map) ← readBitItems buf s.cur.pos items 0 s.cur.fs s.map
  .ok { s with cur := { fs, pos := s.cur.pos + nbytes }, map }

def runDigest (algo : Algo) (overs : Over) (verify be : Bool) (c : Common) (limit : Nat)
    (s : Scan) : URes Scan := do
  let pos := s.cur.pos
  let w := algo.widthBytes
  Exec.mapErr (pushKey c.key) (need buf pos limit w)
  let raw ← slice buf pos (pos + w)
  let u := readUint raw be
  let value := if algo.isInt then Value.int u else Value.bytes raw
  let read := if algo.isInt then DigestVal.int (BitVec.ofNat 64 u) else DigestVal.bytes raw
  let key ← Exec.expect c.key.name
  let fs ← setSpan s.cur.fs c.span pos (pos + w)
  let map ← Builder.insert s.map c.key value
  .ok { cur := { fs, pos := pos + w }, map,
        deferred := s.deferred ++ [{ algo, overs, verify, read, field := (pos, pos + w), key }] }

/-- A struct field whose value is `sem`: key its errors, keep its span and its value. -/
def runField (c : Common) (sem : Sem) (limit : Nat) (s : Scan) : URes Scan := do
  let (v, cur) ← Exec.mapErr (pushKey c.key) (sem limit s.cur)
  let fs ← setSpan cur.fs c.span s.cur.pos cur.pos
  let map ← Builder.insert s.map c.key v
  .ok { s with cur := { fs, pos := cur.pos }, map }

def runCond (pred : Expr) (c : Common) (sem : Sem) (limit : Nat) (s : Scan) : URes Scan := do
  let p ← eval s.cur.fs pred s.cur.pos
  if p ≠ 0 then runField c sem limit s else .ok s

/-- The op of an element or a branch that is a fixed run of exactly one item. -/
def doFixed (width : Nat) (items : List FixedItem) : Sem := fun limit cur => do
  need buf cur.pos limit width
  let item ← Exec.expect items.head?
  let (v, fs) ← readFixedItem buf item cur.pos cur.fs
  .ok (v, { fs, pos := cur.pos + width })

def doBytes (len : LenSrc) (max : Nat) : Sem := fun limit cur => do
  let n ← resolveLen cur.fs len max cur.pos limit
  need buf cur.pos limit n
  let raw ← slice buf cur.pos (cur.pos + n)
  .ok (.bytes raw, { cur with pos := cur.pos + n })

def doStr (len : LenSrc) (max : Nat) (enc : Enc) : Sem := fun limit cur => do
  let n ← resolveLen cur.fs len max cur.pos limit
  need buf cur.pos limit n
  let raw ← slice buf cur.pos (cur.pos + n)
  match decode raw enc with
  | some s => .ok (.str s, { cur with pos := cur.pos + n })
  | none => invalid .decode cur.pos

/-- The text before a terminator at `i`. -/
def cstrAt (enc : Enc) (i : Nat) (cur : Cur) : URes (Value × Cur) := do
  let raw ← slice buf cur.pos (cur.pos + i)
  match decode raw enc with
  | some s => .ok (.str s, { cur with pos := cur.pos + i + 1 })
  | none => invalid .decode cur.pos

/-- What follows from the bytes `seen` of a window of `window` bytes. -/
def cstrEnd (max : Nat) (enc : Enc) (limit window : Nat) (seen : Bytes) (cur : Cur) :
    URes (Value × Cur) :=
  match seen.findIdx? (fun b => b == 0) with
  | some i => cstrAt buf enc i cur
  | none =>
    if window > max then invalid .limit cur.pos
    else if limit = buf.length then Exec.fail (.incomplete 1)
    else invalid .unterminated cur.pos

def doCstr (max : Nat) (enc : Enc) : Sem := fun limit cur => do
  let window ← checkedSub limit cur.pos
  let scan := min window (satAdd max 1)
  let seen ← slice buf cur.pos (cur.pos + scan)
  cstrEnd buf max enc limit window seen cur

def flagValue (raw : U64) (item : FlagItem) : Value :=
  let extracted := (raw &&& item.mask) >>> item.shift
  if item.isBool then .bool (extracted != 0#64) else .int extracted.toNat

/-- The names of a flags field in turn. -/
def setFlags (raw : U64) : List FlagItem → List (String × Value) → URes (List (String × Value))
  | [], map => .ok map
  | item :: items, map => do setFlags raw items (← Builder.mapSet map item.key (flagValue raw item))

def doFlags (prim : IntPrim) (be : Bool) (items : List FlagItem) (rest : RestPolicy)
    (restMask : U64) : Sem := fun limit cur => do
  let w := prim.width
  need buf cur.pos limit w
  let bytes ← slice buf cur.pos (cur.pos + w)
  let raw : U64 := BitVec.ofNat 64 (readUint bytes be)
  let fmap ← setFlags raw items []
  let leftover := raw &&& restMask
  let next := { cur with pos := cur.pos + w }
  match rest with
  | .keep => do
    let fmap ← Builder.mapSet fmap "_rest" (.int leftover.toNat)
    .ok (.map fmap, next)
  | .strict => if leftover != 0#64 then invalid .reservedBits cur.pos else .ok (.map fmap, next)
  | .ignore => .ok (.map fmap, next)

/-- `size` narrows the limit to a window that `sem` must consume exactly. -/
def doNest (sem : Sem) (size : Option LenSrc) : Sem := fun limit cur =>
  match size with
  | none => sem limit cur
  | some .greedy => Exec.panic
  | some (.expr expr _) => do
    let sz ← evalLen cur.fs expr cur.pos
    need buf cur.pos limit sz
    let wlimit := cur.pos + sz
    let (v, next) ← sem wlimit cur
    if next.pos ≠ wlimit then invalid .trailing next.pos else .ok (v, next)

/-- `n` elements, the first of them with index `i`. -/
def countLoop (sem : Sem) (limit : Nat) : Nat → Nat → List Value → Cur → URes (Value × Cur)
  | 0, _, out, cur => .ok (.list out, cur)
  | n + 1, i, out, cur => do
    let (v, cur) ← Exec.mapErr (fun e => e.seg (.index i)) (sem limit cur)
    countLoop sem limit n (i + 1) (out ++ [v]) cur

/-- Elements up to the limit, at most `left` more of them. -/
def eofLoop (sem : Sem) (limit : Nat) : Nat → Nat → List Value → Cur → URes (Value × Cur)
  | 0, _, out, cur =>
    if cur.pos < limit then invalid .limit cur.pos else .ok (.list out, cur)
  | left + 1, i, out, cur =>
    if cur.pos < limit then do
      let (v, cur) ← Exec.mapErr (fun e => e.seg (.index i)) (sem limit cur)
      eofLoop sem limit left (i + 1) (out ++ [v]) cur
    else .ok (.list out, cur)

def doArray (count : CountSrc) (maxCount : Nat) (sem : Sem) : Sem := fun limit cur =>
  match count with
  | .expr expr _ => do
    let n ← eval cur.fs expr cur.pos
    if n < 0 then invalid .negativeLen cur.pos
    else if n.toNat > maxCount then invalid .limit cur.pos
    else
      -- The room left only bounds the preallocation.
      let _room ← checkedSub limit cur.pos
      countLoop sem limit n.toNat 0 [] cur
  | .untilEof => eofLoop sem limit maxCount 0 [] cur

/-- The branch of a tag, if there is one. -/
def doSwitch (on : Expr) (branch : Int → Option Sem) : Sem := fun limit cur => do
  let tag ← eval cur.fs on cur.pos
  match branch tag with
  | some sem => sem limit cur
  | none => invalid .noCase cur.pos

/-- The digest of the bytes `over` covers. -/
def Deferred.compute (d : Deferred) (scopeStart scopeEnd : Nat) (f : Frame) :
    URes DigestVal :=
  match d.overs with
  | .star => do
    let before ← slice buf scopeStart d.field.1
    let width ← checkedSub d.field.2 d.field.1
    let after ← slice buf d.field.2 scopeEnd
    .ok ((((Hasher.new d.algo).update before).updateZeros width).update after |>.finalize H)
  | .spans idxs => do
    let h ← idxs.foldlM (fun h i =>
      if hi : i < maxSpans then do
        let piece ← slice buf (f.spans ⟨i, hi⟩).1 (f.spans ⟨i, hi⟩).2
        .ok (h.update piece)
      else Exec.panic) (Hasher.new d.algo)
    .ok (h.finalize H)

/-- Digests run on scope exit, in declaration order. -/
def verifyDigests (scopeStart scopeEnd : Nat) (f : Frame) : List Deferred → URes Unit
  | [] => .ok ()
  | d :: ds => do
    if d.verify then
      let computed ← d.compute H buf scopeStart scopeEnd f
      if computed ≠ d.read then
        Exec.mapErr (fun e => e.seg (.field d.key)) (invalid .checksum d.field.1)
      else verifyDigests scopeStart scopeEnd f ds
    else verifyDigests scopeStart scopeEnd f ds

/-- A struct in its own frame, `body` running its ops. -/
def withFrame (body : Nat → Scan → URes Scan) : Sem := fun limit cur =>
  if cur.fs.length ≥ maxDepth then invalid .depth cur.pos
  else do
    let s ← body limit { cur := { cur with fs := .new :: cur.fs }, map := [], deferred := [] }
    let f ← Exec.expect s.cur.fs.head?
    verifyDigests H buf cur.pos s.cur.pos f s.deferred
    .ok (.map s.map, { s.cur with fs := s.cur.fs.tail })

mutual

/-- The value of a single opcode, shared between struct fields and the position of an array
element or a switch branch. -/
def opValue : Op → Sem
  | .fixed width items => doFixed buf width items
  | .bytes len max _ => doBytes buf len max
  | .str len max enc _ => doStr buf len max enc
  | .cstr max enc _ => doCstr buf max enc
  | .flags prim be items rest restMask _ => doFlags buf prim be items rest restMask
  | .nest prog size _ => doNest buf (runStruct prog) size
  | .array count maxCount elem _ _ => doArray count maxCount (opValue elem)
  | .switch on cases default _ =>
    doSwitch on (fun tag => (findCase cases tag).or (defaultCase default))
  | .bitRun .. | .digest .. | .cond .. => fun _ _ => Exec.panic

/-- The first case with this tag. -/
def findCase : List (Int × Op) → Int → Option Sem
  | [], _ => none
  | (t, op) :: cases, tag => if t = tag then some (opValue op) else findCase cases tag

def defaultCase : Option Op → Option Sem
  | none => none
  | some op => some (opValue op)

def runStruct : Program → Sem
  | .mk ops _ _ _ _ => withFrame H buf (runOps ops)

def runOps : List Op → Nat → Scan → URes Scan
  | [] => fun _ s => .ok s
  | op :: ops => fun limit s => do runOps ops limit (← runOp op limit s)

/-- A struct field. All ops below `cond` are fields whose value is that of `opValue`. -/
def runOp : Op → Nat → Scan → URes Scan
  | .fixed width items => runFixed buf width items
  | .bitRun nbytes items => runBitRun buf nbytes items
  | .digest algo overs verify be c => runDigest buf algo overs verify be c
  | .cond pred thn c => runCond pred c (opValue thn)
  | .bytes len max c => runField c (doBytes buf len max)
  | .str len max enc c => runField c (doStr buf len max enc)
  | .cstr max enc c => runField c (doCstr buf max enc)
  | .flags prim be items rest restMask c => runField c (doFlags buf prim be items rest restMask)
  | .nest prog size c => runField c (doNest buf (runStruct prog) size)
  | .array count maxCount elem _ c => runField c (doArray count maxCount (opValue elem))
  | .switch on cases default c =>
    runField c (doSwitch on (fun tag => (findCase cases tag).or (defaultCase default)))

end

/-- `unpack::run`. `exact` requires the buffer to be fully consumed; with `stream` a data shortage yields
`Incomplete`, otherwise `Invalid` truncated. -/
def unpackRun (prog : Program) (buf : Buffer) (offset : Nat) (exact stream : Bool) : Outcome :=
  let buf := buf.bytes
  let offset := min offset buf.length
  match runStruct H buf prog buf.length { fs := [], pos := offset } with
  | .ok (value, cur) =>
    if exact ∧ cur.pos ≠ buf.length then .invalid .trailing cur.pos ""
    else .ok value cur.pos
  | .error (.err (.incomplete needed)) =>
    if stream then .incomplete needed else .invalid .truncated buf.length ""
  | .error (.err (.invalid inv)) => .invalid inv.kind inv.offset (formatPath inv.path)
  | .error .panic => .panic

-- The equations are made here, once for all modules.
attribute [local simp] opValue findCase defaultCase runStruct runOps runOp

end Interpreter

lemma need_eq (buf : Bytes) (pos limit n : Nat) :
    need buf pos limit n =
      if pos + n ≤ limit then .ok ()
      else if limit = buf.length then
        if pos + n < usizeSize then Exec.fail (.incomplete (pos + n - buf.length)) else Exec.panic
      else invalid .truncated pos := by
  unfold need checkedAdd checkedSub
  split_ifs with hfit hend hsmall
  · rfl
  · rw [Exec.bind_ok, if_pos (by omega), Exec.bind_ok]
  · rfl
  · rfl

lemma setFlags_value (raw : U64) (items : List FlagItem) (map : List (String × Value)) :
    setFlags raw items map = .ok (map ++ items.map fun item => (item.key, flagValue raw item)) := by
  induction items generalizing map with
  | nil => rw [setFlags, List.map_nil, List.append_nil]
  | cons item items ih =>
    rw [setFlags]
    exact (ih _).trans (by rw [List.append_assoc, List.map_cons, List.singleton_append])

lemma readFixedItems_cons (buf : Bytes) (base : Nat) (item : FixedItem) (items : List FixedItem) (fs : Frames)
    (map : List (String × Value)) :
    readFixedItems buf base (item :: items) fs map =
      Exec.mapErr (pushKey item.key) (readFixedItem buf item base fs) >>= fun r =>
        readFixedItems buf base items r.2 (mapSet map item.key r.1) := by
  simp only [readFixedItems, insert_value, Exec.bind_ok]

lemma readBitItems_cons (buf : Bytes) (pos : Nat) (item : BitItem) (items : List BitItem) (bitpos : Nat) (fs : Frames)
    (map : List (String × Value)) :
    readBitItems buf pos (item :: items) bitpos fs map =
      readBits buf pos bitpos item >>= fun v =>
        Exec.mapErr (pushKey item.key) (storeReg fs item.reg v pos) >>= fun fs =>
          readBitItems buf pos items (wrapAddU32 bitpos item.width) fs (mapSet map item.key (.int v)) := by
  simp only [readBitItems, insert_value, Exec.bind_ok]

lemma slice_eq {ε : Type} {buf : Bytes} {start n : Nat} (h : start + n ≤ buf.length) :
    (slice buf start (start + n) : Exec ε Bytes) = .ok ((buf.drop start).take n) := by
  unfold slice
  rw [if_pos ⟨by omega, h⟩, Nat.add_sub_cancel_left]

lemma slice_eq_ok {ε : Type} {buf : Bytes} {start stop : Nat} {raw : Bytes} :
    (slice buf start stop : Exec ε Bytes) = .ok raw ↔
      start ≤ stop ∧ stop ≤ buf.length ∧ (buf.drop start).take (stop - start) = raw := by
  unfold slice
  split_ifs with h
  · simp [h]
  · simp only [Exec.panic_ne_ok, false_iff]
    tauto

lemma slice_length {ε : Type} {buf : Bytes} {start stop : Nat} {raw : Bytes}
    (h : (slice buf start stop : Exec ε Bytes) = .ok raw) : start + raw.length = stop := by
  obtain ⟨h₁, h₂, rfl⟩ := slice_eq_ok.mp h
  rw [List.length_take, List.length_drop]
  omega

lemma checkedSub_eq_ok {ε : Type} {a b n : Nat} :
    (checkedSub a b : Exec ε Nat) = .ok n ↔ b ≤ a ∧ a - b = n := by
  unfold checkedSub
  split_ifs with h <;> simp [h]

lemma checkedSub_of_le {ε : Type} {a b : Nat} (h : b ≤ a) :
    (checkedSub a b : Exec ε Nat) = .ok (a - b) := if_pos h

lemma checkedSub_of_lt {ε : Type} {a b : Nat} (h : a < b) :
    (checkedSub a b : Exec ε Nat) = Exec.panic := if_neg (by omega)

/-- The scan for a terminator stays inside the window. -/
lemma doCstr_eq {buf : Bytes} {limit : Nat} {cur : Cur} (max : Nat) (enc : Enc)
    (hp : cur.pos ≤ limit) (hl : limit ≤ buf.length) :
    doCstr buf max enc limit cur =
      cstrEnd buf max enc limit (limit - cur.pos)
        ((buf.drop cur.pos).take (min (limit - cur.pos) (satAdd max 1))) cur := by
  unfold doCstr
  rw [checkedSub_of_le hp]
  simp only [Exec.bind_ok]
  rw [slice_eq (by omega)]
  rfl

lemma doCstr_of_lt {buf : Bytes} {limit : Nat} {cur : Cur} (max : Nat) (enc : Enc)
    (hp : limit < cur.pos) : doCstr buf max enc limit cur = Exec.panic := by
  unfold doCstr
  rw [checkedSub_of_lt hp]
  rfl

/-- Below `fixed`, `bitRun`, `digest` and `cond` a field runs the op's own value. -/
lemma runOp_value (H : Hashes) (buf : Bytes) (op : Op) (c : Common) (hc : op.common = some c)
    (hd : ∀ algo overs verify be c, op ≠ .digest algo overs verify be c)
    (hw : ∀ pred thn c, op ≠ .cond pred thn c) :
    runOp H buf op = runField c (opValue H buf op) := by
  cases op with
  | fixed => cases hc
  | bitRun => cases hc
  | digest algo overs verify be c => exact absurd rfl (hd algo overs verify be c)
  | cond pred thn c => exact absurd rfl (hw pred thn c)
  | bytes => cases hc; rw [runOp, opValue]
  | str => cases hc; rw [runOp, opValue]
  | cstr => cases hc; rw [runOp, opValue]
  | flags => cases hc; rw [runOp, opValue]
  | nest => cases hc; rw [runOp, opValue]
  | array => cases hc; rw [runOp, opValue]
  | switch => cases hc; rw [runOp, opValue]

end Rustruct

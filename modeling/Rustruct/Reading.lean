import Rustruct.Unpack
import Rustruct.Lowering
import Rustruct.Lib.BitStream

/-!
# The direct reading of a schema

What a schema says of a buffer: its fields are read one after another, each by its own rule, with no
program, no registers and no runs. A name in an expression is the value of the field of that name in
the innermost scope that has read one.
-/

namespace Rustruct

/-- A field that has been read, and the bytes it takes. -/
structure Got where
  name : String
  value : Value
  start : Nat
  stop : Nat

/-- What has been read so far, scope by scope, innermost first. -/
abbrev Seen := List (List Got)

def findGot (scope : List Got) (name : String) : Option Got := scope.find? fun g => g.name == name

def Value.int? : Value → Option Int
  | .int n => some n
  | _ => none

/-- The integer of this name. -/
def Seen.int : Seen → String → Option Int
  | [], _ => none
  | scope :: outer, name =>
    match findGot scope name with
    | some g => g.value.int?
    | none => Seen.int outer name

def ExprIn.read (seen : Seen) : ExprIn → Option Int
  | .imm n => some n
  | .greedy => none
  | .ref name => seen.int name
  | .bin op l r => do
    let a ← l.read seen
    let b ← r.read seen
    (op.apply a b).toOption

/-- A digest field, which is checked at the end of its scope. -/
structure GotDigest where
  algo : Algo
  overs : OverIn
  verify : Bool
  read : DigestVal
  start : Nat
  stop : Nat

/-- A digest and the bytes that it is over, in pieces. -/
structure Check where
  algo : Algo
  verify : Bool
  read : DigestVal
  pieces : List Bytes

structure Facts where
  /-- The integers of the fields that something refers to. -/
  refs : List Int
  checks : List Check

def Facts.none : Facts := ⟨[], []⟩

def Facts.append (f g : Facts) : Facts := ⟨f.refs ++ g.refs, f.checks ++ g.checks⟩

/-- One type, read from the buffer. -/
structure Part where
  /-- Nothing for a conditional field that is absent. -/
  value : Option Value
  /-- Where it ends, in bits. -/
  bit : Nat
  digest : Option GotDigest
  facts : Facts

/-- A value that ends with this byte. -/
def Part.upTo (stop : Nat) (value : Value) (facts : Facts) : Part :=
  { value := some value, bit := 8 * stop, digest := Option.none, facts }

/-- What it is in its scope, as a field of this name. -/
def Part.got (part : Part) (name : Option String) (start : Nat) : List Got :=
  (name.bind fun n => part.value.map fun v =>
    ({ name := n, value := v, start := start / 8, stop := part.bit / 8 } : Got)).toList

/-- A scope between two of its fields. -/
structure Reading where
  scope : List Got
  bit : Nat
  digests : List GotDigest
  facts : Facts

namespace Reading

def start (bit : Nat) : Reading := { scope := [], bit, digests := [], facts := .none }

def entries (r : Reading) : List (String × Value) := r.scope.map fun g => (g.name, g.value)

/-- The integer of a field that is referred to. -/
def noted (r : Reading) (name : String) : List Int := ((findGot r.scope name).bind fun g => g.value.int?).toList

/-- A field has been read, and these come after it. -/
def add (r : Reading) (name : Option String) (fields : List FieldIn) (part : Part) : Reading :=
  let next : Reading := { scope := r.scope ++ part.got name r.bit, bit := part.bit, digests := r.digests ++ part.digest.toList,
                          facts := r.facts.append part.facts }
  match name with
  | some n =>
    if fieldsMention n fields then { next with facts := next.facts.append ⟨next.noted n, []⟩ } else next
  | Option.none => next

end Reading

section Bytes

variable (buf : Bytes)

/-- The next `n` bytes of the region up to `limit`. -/
def bytesIn (limit pos n : Nat) : Option Bytes :=
  if pos + n ≤ limit then some ((buf.drop pos).take n) else none

/-- All types but bits start with a byte. -/
def byteOf (bit : Nat) : Option Nat := if bit % 8 = 0 then some (bit / 8) else none

/-- `width` more bits, after those of `v`. -/
def bitsAt : Nat → Nat → Nat → Nat
  | 0, _, v => v
  | width + 1, bit, v => bitsAt width (bit + 1) (v * 2 + (BitStream.bitAt buf bit).toNat)

/-- `n` bytes that are a value. -/
def readFlat (n : Nat) (value : Bytes → Option Value) (limit bit : Nat) : Option Part := do
  let pos ← byteOf bit
  let raw ← bytesIn buf limit pos n
  let v ← value raw
  some (.upTo (pos + n) v .none)

/-- What a length says, before its `max`. -/
def ExprIn.length (seen : Seen) (e : ExprIn) (limit pos : Nat) : Option Nat :=
  match e with
  | .greedy => some (limit - pos)
  | e => do
    let n ← e.read seen
    if n < 0 then none else some n.toNat

/-- As many bytes as the length says. -/
def readCounted (seen : Seen) (len : ExprIn) (max : Nat) (value : Bytes → Option Value) (limit bit : Nat) :
    Option Part := do
  let pos ← byteOf bit
  let n ← len.length seen limit pos
  if n > max then none else readFlat buf n value limit bit

/-- Text up to a zero byte. -/
def readTerminated (max : Nat) (value : Bytes → Option Value) (limit bit : Nat) : Option Part := do
  let pos ← byteOf bit
  let n ← ((buf.drop pos).take (limit - pos)).findIdx? fun b => b == 0
  if n > max then none
  else do
    let v ← value ((buf.drop pos).take n)
    some (.upTo (pos + n + 1) v .none)

/-- The value of one name of a flags field. -/
def flagOf (raw mask : U64) : Value :=
  if countOnes mask = 1 then .bool (raw &&& mask != 0#64) else .int ((raw &&& mask) >>> trailingZeros mask).toNat

def flagsOf (base : IntPrim) (be : Bool) (names : List (String × U64)) (rest : RestPolicy) (raw : Bytes) :
    Option Value :=
  let word : U64 := BitVec.ofNat 64 (readUint raw be)
  let known := names.foldl (fun union n => union ||| n.2) 0#64
  let left := word &&& (mask (base.width * 8) &&& ~~~known)
  let flags := names.map fun n => (n.1, flagOf word n.2)
  match rest with
  | .keep => some (.map (flags ++ [("_rest", .int left.toNat)]))
  | .strict => if left != 0#64 then none else some (.map flags)
  | .ignore => some (.map flags)

/-- The bytes that a digest is over: those of the fields it names, or the whole struct with zeros in its
own place. -/
def GotDigest.pieces (d : GotDigest) (scope : List Got) (start stop : Nat) : Option (List Bytes) :=
  let sub (i j : Nat) := (buf.drop i).take (j - i)
  match d.overs with
  | .star => some [sub start d.start, List.replicate (d.stop - d.start) 0, sub d.stop stop]
  | .names names => names.mapM fun n => (findGot scope n).map fun g => sub g.start g.stop

def GotDigest.check (d : GotDigest) (scope : List Got) (start stop : Nat) : Option Check := do
  let pieces ← d.pieces buf scope start stop
  some { algo := d.algo, verify := d.verify, read := d.read, pieces }

/-- The end of a scope that started with byte `start`. -/
def Reading.close (r : Reading) (start : Nat) : Option Part := do
  let stop ← byteOf r.bit
  let checks ← r.digests.mapM fun d => d.check buf r.scope start stop
  some (.upTo stop (.map r.entries) (r.facts.append ⟨[], checks⟩))

end Bytes

/-- `n` elements. -/
def readMany (elem : Nat → Option Part) : Nat → Nat → Option (List Value × Nat × Facts)
  | 0, bit => some ([], bit, .none)
  | n + 1, bit => do
    let part ← elem bit
    let v ← part.value
    let (vs, bit, facts) ← readMany elem n part.bit
    some (v :: vs, bit, part.facts.append facts)

/-- Elements up to the limit, at most `left` of them. -/
def readUntil (elem : Nat → Option Part) (limit : Nat) : Nat → Nat → Option (List Value × Nat × Facts)
  | 0, bit => if bit < 8 * limit then none else some ([], bit, .none)
  | left + 1, bit =>
    if bit < 8 * limit then do
      let part ← elem bit
      let v ← part.value
      let (vs, bit, facts) ← readUntil elem limit left part.bit
      some (v :: vs, bit, part.facts.append facts)
    else some ([], bit, .none)

def listPart (r : List Value × Nat × Facts) : Part :=
  { value := some (.list r.1), bit := r.2.1, digest := none, facts := r.2.2 }

/-- As many elements as there are said to be, or those up to the limit. -/
def readList (elem : Nat → Option Part) (maxCount limit bit : Nat) : Option Nat → Option Part
  | some n => if n > maxCount then none else (readMany elem n bit).map listPart
  | none => (readUntil elem limit maxCount bit).map listPart

/-- The number of elements, or none up to the end of the region. -/
def countOf (seen : Seen) (count : Option ExprIn) : Option (Option Nat) :=
  match count with
  | none | some .greedy => some none
  | some e => do
    let n ← e.read seen
    if n < 0 then none else some (some n.toNat)

/-- The region of a struct. -/
def regionOf (seen : Seen) (size : Option ExprIn) (limit pos : Nat) : Option Nat :=
  match size with
  | none => some limit
  | some e => do
    let n ← e.read seen
    if n < 0 ∨ pos + n.toNat > limit then none else some (pos + n.toNat)

section Types

variable (opts : Options) (buf : Bytes)

mutual

/-- One type from bit `bit` on, in the region up to byte `limit`. -/
def TypeIn.read : TypeIn → ByteOrder → Seen → Nat → Nat → Option Part
  | .int prim byteorder const, bo, _, limit, bit =>
    readFlat buf prim.width (fun raw =>
      let v := readInt prim (orderOf byteorder bo) raw
      if const.all fun c => c = v then some (.int v) else none) limit bit
  | .float is64 byteorder, bo, _, limit, bit =>
    readFlat buf (if is64 then 8 else 4) (fun raw =>
      let u := readUint raw (orderOf byteorder bo)
      some (.float (if is64 then UInt64.ofNat u else widen u))) limit bit
  | .bool const, _, _, limit, bit =>
    readFlat buf 1 (fun raw =>
      let v := raw.any fun b => b != 0
      if const.all fun c => c = v then some (.bool v) else none) limit bit
  | .raw len const, _, _, limit, bit => do
    let n ← len.or (const.map List.length)
    readFlat buf n (fun raw => if const.all fun c => c = raw then some (.bytes raw) else none) limit bit
  | .bytes len max, _, seen, limit, bit =>
    readCounted buf seen len (max.getD opts.maxDefault) (fun raw => some (.bytes raw)) limit bit
  | .str len max encoding errors, _, seen, limit, bit => do
    let enc ← (parseEnc encoding errors).toOption
    readCounted buf seen len (max.getD opts.maxDefault) (fun raw => (decode raw enc).map .str) limit bit
  | .cstr max encoding errors, _, _, limit, bit => do
    let enc ← (parseEnc encoding errors).toOption
    readTerminated buf (max.getD opts.maxDefault) (fun raw => (decode raw enc).map .str) limit bit
  | .bits width signed, _, _, limit, bit =>
    if bit + width ≤ 8 * limit then
      some { value := some (.int (signBits width signed (bitsAt buf width bit 0))), bit := bit + width,
             digest := none, facts := .none }
    else none
  | .flags base byteorder names rest, bo, _, limit, bit => do
    let rest ← (restPolicies.parse rest).toOption
    readFlat buf base.width (flagsOf base (orderOf byteorder bo) names rest) limit bit
  | .digest algo overrides overs verify, bo, _, limit, bit => do
    let algo ← (parseAlgo algo overrides).toOption
    let pos ← byteOf bit
    let raw ← bytesIn buf limit pos algo.widthBytes
    let u := readUint raw bo.isBig
    let stop := pos + algo.widthBytes
    let read := if algo.isInt then DigestVal.int (BitVec.ofNat 64 u) else DigestVal.bytes raw
    some { value := some (if algo.isInt then .int u else .bytes raw), bit := 8 * stop,
           digest := some { algo, overs, verify, read, start := pos, stop }, facts := .none }
  | .struct fields byteorder size, bo, seen, limit, bit => do
    let pos ← byteOf bit
    let region ← regionOf seen size limit pos
    let r ← fieldsRead fields (byteorder.getD bo) seen region (.start bit)
    let part ← r.close buf pos
    if size.isSome ∧ part.bit ≠ 8 * region then none else some part
  | .array elem count _, bo, seen, limit, bit => do
    let _ ← byteOf bit
    let n ← countOf seen count
    readList (fun bit => elem.read bo seen limit bit) opts.maxCount limit bit n
  | .switch on cases default, bo, seen, limit, bit => do
    let _ ← byteOf bit
    let tag ← on.read seen
    (casesRead cases bo seen limit bit tag).getD (defaultRead default bo seen limit bit)
  | .cond pred thn, bo, seen, limit, bit => do
    let _ ← byteOf bit
    let p ← pred.read seen
    if p ≠ 0 then thn.read bo seen limit bit
    else some { value := none, bit, digest := none, facts := .none }

/-- The first case with this tag, if there is one. -/
def casesRead : List (Int × TypeIn) → ByteOrder → Seen → Nat → Nat → Int → Option (Option Part)
  | [], _, _, _, _, _ => none
  | (t, ty) :: cases, bo, seen, limit, bit, tag =>
    if t = tag then some (ty.read bo seen limit bit) else casesRead cases bo seen limit bit tag

def defaultRead : Option TypeIn → ByteOrder → Seen → Nat → Nat → Option Part
  | none, _, _, _, _ => none
  | some ty, bo, seen, limit, bit => ty.read bo seen limit bit

/-- The fields of a scope within those of `outer`. -/
def fieldsRead : List FieldIn → ByteOrder → Seen → Nat → Reading → Option Reading
  | [], _, _, _, r => some r
  | .mk name ty :: fields, bo, outer, limit, r => do
    let part ← ty.read bo (r.scope :: outer) limit r.bit
    fieldsRead fields bo outer limit (r.add name fields part)

end

/-- The reading of a schema from byte `offset` on. -/
def schemaRead (fields : List FieldIn) (offset : Nat) : Option Part := do
  let start := min offset buf.length
  let r ← fieldsRead opts buf fields opts.byteorder [] buf.length (.start (8 * start))
  r.close buf start

end Types

end Rustruct

import Rustruct.Pack

/-!
# MessagePack

`rustruct.formats.msgpack`: one tag at a time through the `Value` struct, the containers
through a work stack. An exception is `none`.
-/

namespace Rustruct.MsgPack

/-- A Python value. A float is its 64-bit pattern, a dict its items in order. -/
inductive Obj where
  | none
  | bool (b : Bool)
  | int (i : Int)
  | float (bits : UInt64)
  | bytes (b : Bytes)
  | str (s : String)
  | list (l : List Obj)
  | dict (d : List (Obj × Obj))

/-- What a number is equal to: the value times `2 ^ 1074`, or an infinity. -/
inductive NumKey where
  | finite (scaled : Int)
  | infinite (negative : Bool)
  deriving DecidableEq

/-- A NaN equals nothing. -/
def floatKey (bits : UInt64) : Option NumKey :=
  let negative := bits.toNat.testBit 63
  let exponent := bits.toNat / 2 ^ 52 % 2 ^ 11
  let fraction := bits.toNat % 2 ^ 52
  if exponent = 2047 then if fraction = 0 then some (.infinite negative) else .none
  else
    let scaled : Nat :=
      if exponent = 0 then fraction else (2 ^ 52 + fraction) * 2 ^ (exponent - 1)
    some (.finite (if negative then -scaled else scaled))

def numKey : Obj → Option NumKey
  | .bool b => some (.finite (b.toInt * 2 ^ 1074))
  | .int i => some (.finite (i * 2 ^ 1074))
  | .float bits => floatKey bits
  | _ => .none

/-- `a == b` on keys. -/
def keyEq (a b : Obj) : Bool :=
  match a, b with
  | .none, .none => true
  | .bytes x, .bytes y => x == y
  | .str x, .str y => x == y
  | a, b => (numKey a).isSome && numKey a == numKey b

def hashable : Obj → Bool
  | .list _ | .dict _ => false
  | _ => true

/-- `d[k] = v`: an equal key keeps its place and its own spelling. -/
def dictSet (d : List (Obj × Obj)) (k v : Obj) : List (Obj × Obj) :=
  match d with
  | [] => [(k, v)]
  | (k', v') :: rest => if keyEq k' k then (k', v) :: rest else (k', v') :: dictSet rest k v

/-- `dict(zip(items[0::2], items[1::2], strict=True))` onto the items of `d`. -/
def dictOf : List Obj → List (Obj × Obj) → Option (List (Obj × Obj))
  | [], d => some d
  | [_], _ => .none
  | k :: v :: rest, d => if hashable k then dictOf rest (dictSet d k v) else .none

/-- What follows a tag byte on the wire. -/
inductive Shape where
  | empty
  | slice (n : Nat)
  /-- `LenPrefixed8`, `16` and `32`, by the width of `n`. -/
  | lenPrefixed (prim : IntPrim)
  | int (prim : IntPrim)
  | f64
  deriving DecidableEq

def blockACases : Nat → Option Shape
  | 0x0 | 0x2 | 0x3 => some .empty
  | 0x4 => some (.lenPrefixed .u8)
  | 0x5 => some (.lenPrefixed .u16)
  | 0x6 => some (.lenPrefixed .u32)
  | 0xB => some .f64
  | 0xC => some (.int .u8)
  | 0xD => some (.int .u16)
  | 0xE => some (.int .u32)
  | 0xF => some (.int .u64)
  | _ => .none

def blockBCases : Nat → Option Shape
  | 0x0 => some (.int .i8)
  | 0x1 => some (.int .i16)
  | 0x2 => some (.int .i32)
  | 0x3 => some (.int .i64)
  | 0x9 => some (.lenPrefixed .u8)
  | 0xA => some (.lenPrefixed .u16)
  | 0xB => some (.lenPrefixed .u32)
  | 0xC => some (.int .u16)
  | 0xD => some (.int .u32)
  | 0xE => some (.int .u16)
  | 0xF => some (.int .u32)
  | _ => .none

def tagCases (hi4 lo4 : Nat) : Option Shape :=
  if hi4 = 10 then some (.slice lo4)
  else if hi4 = 11 then some (.slice (lo4 + 16))
  else if hi4 = 12 then blockACases lo4
  else if hi4 = 13 then blockBCases lo4
  else if hi4 < 16 then some .empty
  else .none

inductive Payload where
  | bytes (b : Bytes)
  | lenPrefixed (data : Bytes)
  | int (i : Int)
  | float (bits : UInt64)
  deriving DecidableEq

/-- `Value`: one tag's worth of wire content. -/
structure Mv where
  hi4 : Nat
  lo4 : Nat
  payload : Payload
  deriving DecidableEq

/-- The default `max` of a slice. -/
def sliceMax : Nat := 67108864

def takeAt (buf : Bytes) (pos n : Nat) : Option Bytes :=
  if pos + n ≤ buf.length then some ((buf.drop pos).take n) else .none

/-- The payload at `pos` and the position after it. -/
def readShape (buf : Bytes) (pos : Nat) : Shape → Option (Payload × Nat)
  | .empty => some (.bytes [], pos)
  | .slice n => do some (.bytes (← takeAt buf pos n), pos + n)
  | .lenPrefixed prim => do
    let n := readUint (← takeAt buf pos prim.width) true
    if n > sliceMax then .none
    else some (.lenPrefixed (← takeAt buf (pos + prim.width) n), pos + prim.width + n)
  | .int prim => do
    some (.int (readInt prim true (← takeAt buf pos prim.width)), pos + prim.width)
  | .f64 => do some (.float (UInt64.ofNat (readUint (← takeAt buf pos 8) true)), pos + 8)

/-- `Value.unpack_from` -/
def Mv.unpackFrom (buf : Bytes) (offset : Nat) : Option (Mv × Nat) := do
  let offset := min offset buf.length
  let tag ← buf[offset]?
  let hi4 := tag.toNat / 16
  let lo4 := tag.toNat % 16
  let (payload, pos) ← readShape buf (offset + 1) (← tagCases hi4 lo4)
  some ({ hi4, lo4, payload }, pos)

/-- The bytes of a payload of this shape. -/
def writeShape : Shape → Payload → Option Bytes
  | .empty, .bytes b => if b = [] then some [] else .none
  | .slice n, .bytes b => if b.length = n then some b else .none
  | .lenPrefixed prim, .lenPrefixed data =>
    if data.length ≤ sliceMax ∧ (data.length : Int) ≤ prim.max then
      some (intBytes prim true data.length ++ data)
    else .none
  | .int prim, .int i => if prim.min ≤ i ∧ i ≤ prim.max then some (intBytes prim true i) else .none
  | .f64, .float bits => some (uintBytes 8 true bits.toNat)
  | _, _ => .none

/-- `Value(hi4=.., lo4=.., payload=..).pack()` -/
def Mv.pack (mv : Mv) : Option Bytes := do
  if mv.hi4 < 16 ∧ mv.lo4 < 16 then
    let body ← writeShape (← tagCases mv.hi4 mv.lo4) mv.payload
    some (UInt8.ofNat (mv.hi4 * 16 + mv.lo4) :: body)
  else .none

inductive Kind where
  | array
  | map
  deriving DecidableEq

/-- What a tag starts: a whole value or a container with some elements or pairs. -/
inductive Head where
  | leaf (v : Obj)
  | container (kind : Kind) (count : Nat)

/-- `p.decode("utf-8")` -/
def decodeText (b : Bytes) : Option Head := (decode b .utf8).map fun s => .leaf (.str s)

def classify (mv : Mv) : Option Head :=
  let h := mv.hi4
  let lo4 := mv.lo4
  if h ≤ 7 then some (.leaf (.int (h * 16 + lo4 : Nat)))
  else if h = 8 then some (.container .map lo4)
  else if h = 9 then some (.container .array lo4)
  else if h = 10 ∨ h = 11 then
    match mv.payload with
    | .bytes p => decodeText p
    | _ => .none
  else if h = 14 then some (.leaf (.int (lo4 - 32)))
  else if h = 15 then some (.leaf (.int (lo4 - 16)))
  else if h = 12 then
    match lo4, mv.payload with
    | 0x0, _ => some (.leaf .none)
    | 0x2, _ => some (.leaf (.bool false))
    | 0x3, _ => some (.leaf (.bool true))
    | 0x4, .lenPrefixed data | 0x5, .lenPrefixed data | 0x6, .lenPrefixed data =>
      some (.leaf (.bytes data))
    | 0xB, .float bits => some (.leaf (.float bits))
    | 0xC, .int i | 0xD, .int i | 0xE, .int i | 0xF, .int i => some (.leaf (.int i))
    | _, _ => .none
  else if h = 13 then
    match lo4, mv.payload with
    | 0x0, .int i | 0x1, .int i | 0x2, .int i | 0x3, .int i => some (.leaf (.int i))
    | 0x9, .lenPrefixed data | 0xA, .lenPrefixed data | 0xB, .lenPrefixed data => decodeText data
    | 0xC, .int i | 0xD, .int i => some (.container .array i.toNat)
    | 0xE, .int i | 0xF, .int i => some (.container .map i.toNat)
    | _, _ => .none
  else .none

/-- The elements a container waits for: those of a map are its keys and values. -/
def Kind.need (kind : Kind) (count : Nat) : Nat :=
  match kind with
  | .array => count
  | .map => count * 2

/-- One in-progress container, or the root of the work stack. -/
structure Frame where
  kind : Option Kind
  need : Nat
  items : List Obj

def Frame.root : Frame := { kind := none, need := 1, items := [] }

/-- `finish_frame` -/
def finishFrame (kind : Kind) (items : List Obj) : Option Obj :=
  match kind with
  | .array => some (.list items)
  | .map => (dictOf items []).map .dict

/-- `items.append(v)` and `need -= 1` -/
def Frame.push (f : Frame) (v : Obj) : Frame :=
  { f with items := f.items ++ [v], need := f.need - 1 }

/-- What one iteration of the loop of `decode_from` comes to. -/
inductive Turn where
  | again (stack : List Frame) (offset : Nat)
  | done (v : Obj) (offset : Nat)
  | raised

/-- A frame that has all its items. -/
def closeFrame (frame : Frame) (below : List Frame) (offset : Nat) : Turn :=
  match frame.kind, below with
  | none, _ =>
    match frame.items.head? with
    | some v => .done v offset
    | none => .raised
  | some kind, parent :: rest =>
    match finishFrame kind frame.items with
    | some v => .again (parent.push v :: rest) offset
    | none => .raised
  | some _, [] => .raised

/-- A frame that waits for an item. -/
def openTag (buf : Bytes) (frame : Frame) (below : List Frame) (offset : Nat) : Turn :=
  match Mv.unpackFrom buf offset with
  | none => .raised
  | some (mv, offset) =>
    match classify mv with
    | none => .raised
    | some (.leaf v) => .again (frame.push v :: below) offset
    | some (.container kind count) =>
      .again ({ kind := some kind, need := kind.need count, items := [] } :: frame :: below) offset

/-- One iteration. -/
def turn (buf : Bytes) (stack : List Frame) (offset : Nat) : Turn :=
  match stack with
  | [] => .raised
  | frame :: below =>
    if frame.need = 0 then closeFrame frame below offset else openTag buf frame below offset

/-- At most `n` iterations: `none` when they are not enough, else what the loop ends with. -/
def turns (buf : Bytes) : Nat → List Frame → Nat → Option (Option (Obj × Nat))
  | 0, _, _ => none
  | n + 1, stack, offset =>
    match turn buf stack offset with
    | .again stack offset => turns buf n stack offset
    | .done v offset => some (some (v, offset))
    | .raised => some none

/-- The iterations that are always enough. -/
def turnBound (buf : Bytes) (offset : Nat) : Nat := 2 * (buf.length - offset) + 2

/-- `decode_from` -/
def decodeFrom (buf : Bytes) (offset : Nat) : Option (Obj × Nat) :=
  (turns buf (turnBound buf offset) [.root] offset).join

/-- The first tag of a table whose payload holds the number. -/
def packFirst (hi4 : Nat) (v : Int) : List (Nat × Int × Int) → Option Bytes
  | [] => .none
  | (lo4, lo, hi) :: rest =>
    if lo ≤ v ∧ v ≤ hi then Mv.pack { hi4, lo4, payload := .int v } else packFirst hi4 v rest

def encodeInt (v : Int) : Option Bytes :=
  if 0 ≤ v ∧ v ≤ 127 then Mv.pack ⟨v.toNat / 16, v.toNat % 16, .bytes []⟩
  else if -32 ≤ v ∧ v < 0 then
    let b := (v % 256).toNat
    Mv.pack ⟨b / 16, b % 16, .bytes []⟩
  else if v > 127 then
    packFirst 12 v [(0xC, 0, 0xFF), (0xD, 0, 0xFFFF), (0xE, 0, 0xFFFFFFFF), (0xF, 0, 2 ^ 64 - 1)]
  else
    packFirst 13 v [(0x0, -128, 127), (0x1, -32768, 32767), (0x2, -2 ^ 31, 2 ^ 31 - 1),
      (0x3, -2 ^ 63, 2 ^ 63 - 1)]

def encodeBin (data : Bytes) : Option Bytes :=
  let n := data.length
  if n ≤ 0xFF then Mv.pack ⟨12, 4, .lenPrefixed data⟩
  else if n ≤ 0xFFFF then Mv.pack ⟨12, 5, .lenPrefixed data⟩
  else if n ≤ 0xFFFFFFFF then Mv.pack ⟨12, 6, .lenPrefixed data⟩
  else .none

def encodeStr (s : String) : Option Bytes :=
  let data := s.toUTF8.data.toList
  let n := data.length
  if n ≤ 15 then Mv.pack ⟨10, n, .bytes data⟩
  else if n ≤ 31 then Mv.pack ⟨11, n - 16, .bytes data⟩
  else if n ≤ 0xFF then Mv.pack ⟨13, 9, .lenPrefixed data⟩
  else if n ≤ 0xFFFF then Mv.pack ⟨13, 0xA, .lenPrefixed data⟩
  else if n ≤ 0xFFFFFFFF then Mv.pack ⟨13, 0xB, .lenPrefixed data⟩
  else .none

def encodeArrayHeader (n : Nat) : Option Bytes :=
  if n ≤ 15 then Mv.pack ⟨9, n, .bytes []⟩
  else if n ≤ 0xFFFF then Mv.pack ⟨13, 0xC, .int n⟩
  else if n ≤ 0xFFFFFFFF then Mv.pack ⟨13, 0xD, .int n⟩
  else .none

def encodeMapHeader (n : Nat) : Option Bytes :=
  if n ≤ 15 then Mv.pack ⟨8, n, .bytes []⟩
  else if n ≤ 0xFFFF then Mv.pack ⟨13, 0xE, .int n⟩
  else if n ≤ 0xFFFFFFFF then Mv.pack ⟨13, 0xF, .int n⟩
  else .none

/-- What a value appends to the output, its elements apart. -/
def encodeHead : Obj → Option Bytes
  | .none => Mv.pack ⟨12, 0, .bytes []⟩
  | .bool false => Mv.pack ⟨12, 2, .bytes []⟩
  | .bool true => Mv.pack ⟨12, 3, .bytes []⟩
  | .int i => encodeInt i
  | .float bits => Mv.pack ⟨12, 0xB, .float bits⟩
  | .bytes b => encodeBin b
  | .str s => encodeStr s
  | .list l => encodeArrayHeader l.length
  | .dict d => encodeMapHeader d.length

/-- The keys and values of a dict in turn. -/
def flatten : List (Obj × Obj) → List Obj
  | [] => []
  | (k, v) :: d => k :: v :: flatten d

/-- What a value puts on the work stack, top first. -/
def children : Obj → List Obj
  | .list l => l
  | .dict d => flatten d
  | _ => []

mutual

/-- The values in a value, itself among them. -/
def Obj.nodes : Obj → Nat
  | .list l => nodesList l + 1
  | .dict d => nodesDict d + 1
  | _ => 1

def nodesList : List Obj → Nat
  | [] => 0
  | v :: vs => v.nodes + nodesList vs

def nodesDict : List (Obj × Obj) → Nat
  | [] => 0
  | (k, v) :: d => k.nodes + v.nodes + nodesDict d

end

lemma nodesList_append (l m : List Obj) : nodesList (l ++ m) = nodesList l + nodesList m := by
  induction l with
  | nil => simp [nodesList]
  | cons v l ih => simp [nodesList, ih, Nat.add_assoc]

lemma nodes_children (v : Obj) : nodesList (children v) < v.nodes := by
  cases v with
  | list l => simp [children, Obj.nodes]
  | dict d =>
    have h : nodesList (flatten d) = nodesDict d := by
      induction d with
      | nil => rfl
      | cons entry d ih => simp [flatten, nodesList, nodesDict, ih, Nat.add_assoc]
    simp [children, Obj.nodes, h]
  | _ => simp [children, nodesList, Obj.nodes]

/-- The loop of `encode`. -/
def encodeLoop (stack : List Obj) (out : Bytes) : Option Bytes :=
  match stack with
  | [] => some out
  | v :: stack => do encodeLoop (children v ++ stack) (out ++ (← encodeHead v))
termination_by nodesList stack
decreasing_by
  rw [nodesList_append, nodesList]
  have := nodes_children v
  omega

def encode (value : Obj) : Option Bytes := encodeLoop [value] []

end Rustruct.MsgPack

import Rustruct.Pack

/-!
# DNS names

`rustruct.protocols.dns`: domain names with compression pointers, read and written at absolute offsets
of a whole message. A struct of fixed-width fields is read and written as it is declared. An
exception is `none`.
-/

namespace Rustruct.DNS

/-- Labels, length bytes and the final zero. -/
def maxNameWire : Nat := 255

def maxLabel : Nat := 63

/-- Compression offsets are 14 bits. -/
def pointerLimit : Nat := 0x3FFF

/-- A big-endian unsigned field of `w` bytes. -/
def packUint (w : Nat) (v : Int) : Option Bytes :=
  if 0 ≤ v ∧ v < 2 ^ (w * 8) then some (uintBytes w true v.toNat) else none

def unpackUint (w : Nat) (buf : Bytes) (off : Nat) : Option (Int × Nat) :=
  if off + w ≤ buf.length then some (readUint ((buf.drop off).take w) true, off + w) else none

/-- Fields of these widths. -/
def packUints : List (Nat × Int) → Option Bytes
  | [] => some []
  | (w, v) :: fields => do some ((← packUint w v) ++ (← packUints fields))

def unpackUints : List Nat → Bytes → Nat → Option (List Int × Nat)
  | [], _, off => some ([], off)
  | w :: ws, buf, off => do
    let (v, off) ← unpackUint w buf off
    let (vs, off) ← unpackUints ws buf off
    some (v :: vs, off)

/-- `buf[a:b]` -/
def pySlice (buf : Bytes) (a b : Nat) : Bytes := (buf.drop a).take (b - a)

/-- `out.append(n)` -/
def appendByte (out : Bytes) (n : Nat) : Option Bytes :=
  if n < 256 then some (out ++ [UInt8.ofNat n]) else none

def pointerTarget (buf : Bytes) (off : Nat) : Option Nat := do
  if off + 1 ≥ buf.length then none
  else
    let target := ((← buf[off]?).toNat &&& 0x3F) * 256 + (← buf[off + 1]?).toNat
    if target ≥ off then none else some target

/-- `label.decode("latin-1")` -/
def decodeLabel (label : Bytes) : List Char := label.map fun b => Char.ofNat b.toNat

def readLabel (buf : Bytes) (off length : Nat) : Option (List Char × Nat) :=
  let stop := off + 1 + length
  let label := pySlice buf (off + 1) stop
  if label.length ≠ length then none else some (decodeLabel label, stop)

/-- The state of the loop of `decode_name`. -/
structure NameState where
  off : Nat
  resume : Option Nat
  labels : List (List Char)
  wireLen : Nat
  deriving DecidableEq

inductive NameTurn where
  | again (s : NameState)
  | done (labels : List (List Char)) (stop : Nat)
  | raised
  deriving DecidableEq

/-- One iteration of the loop. -/
def nameTurn (buf : Bytes) (s : NameState) : NameTurn :=
  match buf[s.off]? with
  | none => .raised
  | some byte =>
    let first := byte.toNat
    if first = 0 then .done s.labels (s.resume.getD (s.off + 1))
    else if first &&& 0xC0 = 0xC0 then
      match pointerTarget buf s.off with
      | none => .raised
      | some target => .again { s with off := target, resume := some (s.resume.getD (s.off + 2)) }
    else if first &&& 0xC0 ≠ 0 then .raised
    else
      match readLabel buf s.off first with
      | none => .raised
      | some (label, off) =>
        let wireLen := s.wireLen + first + 1
        if wireLen > maxNameWire then .raised
        else .again { s with off, labels := s.labels ++ [label], wireLen }

/-- At most `n` iterations: nothing when they do not suffice. -/
def nameTurns (buf : Bytes) : Nat → NameState → Option (Option (List (List Char) × Nat))
  | 0, _ => none
  | n + 1, s =>
    match nameTurn buf s with
    | .again s' => nameTurns buf n s'
    | .done labels stop => some (some (labels, stop))
    | .raised => some none

/-- Between two labels the offset only goes down. -/
def nameBound (buf : Bytes) : Nat := (maxNameWire + 1) * (buf.length + 2)

/-- The labels of a name, and the offset to resume the enclosing record at. -/
def decodeLabels (buf : Bytes) (start : Nat) : Option (List (List Char) × Nat) :=
  (nameTurns buf (nameBound buf) { off := start, resume := none, labels := [], wireLen := 1 }).join

/-- `".".join(labels)` -/
def joinLabels (labels : List (List Char)) : String := String.ofList (['.'].intercalate labels)

def decodeName (buf : Bytes) (start : Nat) : Option (String × Nat) := do
  let (labels, stop) ← decodeLabels buf start
  some (joinLabels labels, stop)

/-- The wire length of labels, less the final zero. -/
def labelsWire (labels : List Bytes) : Nat := (labels.map fun label => label.length + 1).sum

def encodeLabels (value : String) : Option (List Bytes) := do
  let chars := value.toList
  let stripped := if chars.getLast? = some '.' then chars.dropLast else chars
  let labels ← (if stripped = [] then some []
    else (stripped.splitOn '.').mapM fun part => encode (String.ofList part) .latin1)
  if (∀ label ∈ labels, 1 ≤ label.length ∧ label.length ≤ maxLabel) ∧
      1 + labelsWire labels ≤ maxNameWire then some labels
  else none

/-- The compression table of a message, in the order of its entries. -/
abbrev Table := List (List Bytes × Nat)

def Table.get (table : Table) (suffix : List Bytes) : Option Nat :=
  (table.find? fun entry => entry.1 == suffix).map Prod.snd

/-- What has been written, and the table unless compression is off. -/
abbrev Out := Bytes × Option Table

/-- `ctx` is `none` where a name must not be compressed. -/
def writeName (out : Bytes) : List Bytes → Option Table → Out
  | [], ctx => (out ++ [0], ctx)
  | label :: rest, none => writeName (out ++ UInt8.ofNat label.length :: label) rest none
  | label :: rest, some offsets =>
    match offsets.get (label :: rest) with
    | some target => (out ++ [UInt8.ofNat (0xC0 ||| target / 256), UInt8.ofNat (target % 256)], some offsets)
    | none =>
      let offsets := if out.length ≤ pointerLimit then offsets ++ [(label :: rest, out.length)] else offsets
      writeName (out ++ UInt8.ofNat label.length :: label) rest (some offsets)

/-- `write_name(out, encode_labels(value), ctx)` -/
def packName (value : String) (out : Bytes) (ctx : Option Table) : Option Out := do
  some (writeName out (← encodeLabels value) ctx)

/-- The same with `None` for `ctx`. -/
def packPlainName (value : String) (out : Bytes) : Option Bytes := do
  some (writeName out (← encodeLabels value) none).1

end Rustruct.DNS

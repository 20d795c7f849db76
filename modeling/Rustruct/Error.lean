import Rustruct.Lib.Exec
import Rustruct.Machine

/-! # Errors of compile, unpack and pack -/

namespace Rustruct

/-- Machine names for data and value errors. -/
inductive Kind where
  | truncated | trailing | range | negativeLen | overflow | divZero | unterminated | nulInCstr
  | noCase | decode | limit | depth | checksum | const | reservedBits | missing | length
  | indivisible | inconsistent | buffer | unknownFlag | type | encode
  deriving DecidableEq, Repr

def Kind.asStr : Kind → String
  | .truncated => "truncated"
  | .trailing => "trailing"
  | .range => "range"
  | .negativeLen => "negative_len"
  | .overflow => "overflow"
  | .divZero => "div_zero"
  | .unterminated => "unterminated"
  | .nulInCstr => "nul_in_cstr"
  | .noCase => "no_case"
  | .decode => "decode"
  | .limit => "limit"
  | .depth => "depth"
  | .checksum => "checksum"
  | .const => "const"
  | .reservedBits => "reserved_bits"
  | .missing => "missing"
  | .length => "length"
  | .indivisible => "indivisible"
  | .inconsistent => "inconsistent"
  | .buffer => "buffer"
  | .unknownFlag => "unknown_flag"
  | .type => "type"
  | .encode => "encode"

/-- A segment of the path to the field that failed. -/
inductive Seg where
  | field (name : String)
  | index (i : Nat)
  deriving DecidableEq, Repr

/-- Segments are pushed from innermost to outermost; the text runs the other way. -/
def formatPath (path : List Seg) : String :=
  path.reverse.foldl (fun out seg =>
    match seg with
    | .field name => (if out.isEmpty then out else out ++ ".") ++ name
    | .index i => out ++ "[" ++ toString i ++ "]") ""

structure Invalid where
  kind : Kind
  offset : Nat
  path : List Seg := []
  deriving DecidableEq, Repr

/-- A failed unpack. -/
inductive UFail where
  | incomplete (needed : Nat)
  | invalid (inv : Invalid)
  deriving DecidableEq, Repr

def UFail.seg (e : UFail) (seg : Seg) : UFail :=
  match e with
  | .incomplete needed => .incomplete needed
  | .invalid inv => .invalid { inv with path := inv.path ++ [seg] }

abbrev URes := Exec UFail

/-- `Err(UFail::invalid(kind, offset))` -/
def invalid {α : Type} (kind : Kind) (offset : Nat) : URes α :=
  Exec.fail (.invalid { kind, offset })

structure PackFail where
  kind : Kind
  path : List Seg := []
  deriving DecidableEq, Repr

def PackFail.seg (e : PackFail) (seg : Seg) : PackFail :=
  { e with path := e.path ++ [seg] }

abbrev PRes := Exec PackFail

/-- `Err(PackFail::new(kind))` -/
def refuse {α : Type} (kind : Kind) : PRes α := Exec.fail { kind }

/-- An error of `compile`. -/
structure SchemaError where
  msg : String
  deriving DecidableEq, Repr

abbrev SRes := Exec SchemaError

/-- `Err(err(msg))` -/
def schemaErr {α : Type} (msg : String) : SRes α := Exec.fail ⟨msg⟩

@[simp] lemma UFail.seg_incomplete (needed : Nat) (seg : Seg) :
    (UFail.incomplete needed).seg seg = .incomplete needed := rfl

@[simp] lemma UFail.seg_invalid (inv : Invalid) (seg : Seg) :
    (UFail.invalid inv).seg seg = .invalid { inv with path := inv.path ++ [seg] } := rfl

end Rustruct

import Rustruct.Names
import Rustruct.Error

/-!
# Checksums and hashes

The CRC and Internet checksum engines as the code computes them. MD5 and SHA come from
other crates: `Hashes` is what the code relies on of them.
-/

namespace Rustruct

abbrev U64 := BitVec 64

/-- The hash functions of the `md5`, `sha1` and `sha2` crates. -/
structure Hashes where
  md5 : Bytes → Bytes
  sha1 : Bytes → Bytes
  sha256 : Bytes → Bytes
  md5_length : ∀ data, (md5 data).length = 16
  sha1_length : ∀ data, (sha1 data).length = 20
  sha256_length : ∀ data, (sha256 data).length = 32

/-- Hash functions that return zeros. -/
def Hashes.blank : Hashes where
  md5 _ := List.replicate 16 0
  sha1 _ := List.replicate 20 0
  sha256 _ := List.replicate 32 0
  md5_length _ := rfl
  sha1_length _ := rfl
  sha256_length _ := rfl

/-- Rocksoft CRC model. -/
structure CrcSpec where
  width : Nat
  poly : U64
  init : U64
  xorout : U64
  refin : Bool
  refout : Bool
  deriving DecidableEq, Repr

inductive Algo where
  | crc (spec : CrcSpec)
  | ipChecksum
  | md5
  | sha1
  | sha256
  deriving DecidableEq, Repr

/-- A CRC with `refin` and `refout` tied together, as every preset is. -/
def crc (width : Nat) (poly init xorout : U64) (refl : Bool) : Algo :=
  .crc { width, poly, init, xorout, refin := refl, refout := refl }

/-- Every algorithm `digest(algo=...)` accepts. -/
def algos : ClosedSet Algo where
  what := "digest algorithm"
  allowed := "crc16_ccitt/crc16_ibm/crc32/crc32c/crc64_xz/ip/md5/sha1/sha256"
  eq := (· == ·)
  names := [
    ("crc16_ccitt", crc 16 0x1021 0xFFFF 0x0000 false),
    ("crc16_ibm", crc 16 0x8005 0x0000 0x0000 true),
    ("crc32", crc 32 0x04C11DB7 0xFFFFFFFF 0xFFFFFFFF true),
    ("crc32c", crc 32 0x1EDC6F41 0xFFFFFFFF 0xFFFFFFFF true),
    ("crc64_xz", crc 64 0x42F0E1EBA9EA3693 0xFFFFFFFFFFFFFFFF 0xFFFFFFFFFFFFFFFF true),
    ("ip", .ipChecksum),
    ("md5", .md5),
    ("sha1", .sha1),
    ("sha256", .sha256)]
  aliases := []

namespace Algo

def preset (name : String) : Option Algo := (algos.parse name).toOption

def widthBytes : Algo → Nat
  | .crc s => s.width / 8
  | .ipChecksum => 2
  | .md5 => 16
  | .sha1 => 20
  | .sha256 => 32

/-- CRC and `ip` are integers in the byte order of the context, hashes are bytes. -/
def isInt : Algo → Bool
  | .crc _ | .ipChecksum => true
  | _ => false

end Algo

inductive DigestVal where
  | int (v : U64)
  | bytes (b : Bytes)
  deriving DecidableEq, Repr

/-- `mask(width)`: the low `width` bits. -/
def mask (width : Nat) : U64 :=
  if width ≥ 64 then BitVec.allOnes 64 else (1#64 <<< width) - 1#64

lemma toNat_lowOnes {w : Nat} (h : w < 64) : (1#64 <<< w - 1#64).toNat = 2 ^ w - 1 := by
  have hlt : 2 ^ w < 2 ^ 64 := Nat.pow_lt_pow_right (by decide) h
  have hpos : 0 < 2 ^ w := Nat.two_pow_pos w
  rw [BitVec.toNat_sub, BitVec.toNat_shiftLeft, Nat.shiftLeft_eq]
  simp only [BitVec.toNat_ofNat, Nat.one_mod, Nat.one_mul]
  omega

lemma getLsbD_mask (w i : Nat) : (mask w).getLsbD i = decide (i < w ∧ i < 64) := by
  unfold mask
  by_cases hw : w ≥ 64
  · rw [if_pos hw, BitVec.getLsbD_allOnes]
    have hiff : i < 64 ↔ i < w ∧ i < 64 := by omega
    exact decide_eq_decide.mpr hiff
  · rw [if_neg hw, BitVec.getLsbD, toNat_lowOnes (by omega), Nat.testBit_two_pow_sub_one]
    have hiff : i < w ↔ i < w ∧ i < 64 := by omega
    exact decide_eq_decide.mpr hiff

/-- The low `width` bits in reverse order. -/
def reflect (v : U64) (width : Nat) : U64 :=
  (List.range width).foldl (fun out i =>
    if (v >>> i) &&& 1#64 = 1#64 then out ||| (1#64 <<< (width - 1 - i)) else out) 0#64

inductive Hasher where
  | crc (spec : CrcSpec) (state : U64)
  | ip (sum : Nat) (odd : Option Byte)
  | md5 (data : Bytes)
  | sha1 (data : Bytes)
  | sha256 (data : Bytes)
  deriving DecidableEq, Repr

/-- One message bit through the CRC register. -/
def crcBit (spec : CrcSpec) (bitIn : Bool) (state : U64) : U64 :=
  let m := mask spec.width
  let top := (state >>> (spec.width - 1)) &&& 1#64
  let shifted := (state <<< 1) &&& m
  if top ^^^ (if bitIn then 1#64 else 0#64) = 1#64 then shifted ^^^ (spec.poly &&& m) else shifted

/-- The eight bits of a byte, lowest first when `refin`. -/
def crcByte (spec : CrcSpec) (state : U64) (byte : Byte) : U64 :=
  (List.range 8).foldl (fun state i =>
    crcBit spec (byte.toNat.testBit (if spec.refin then i else 7 - i)) state) state

/-- `sum += word` on the `u32` accumulator. -/
def addU32 (sum word : Nat) : Nat := (sum + word) % 2 ^ 32

/-- The 16-bit word of two bytes, big-endian. -/
def word16 (hi lo : Byte) : Nat := hi.toNat * 256 + lo.toNat

/-- `while sum > 0xFFFF`: carries folded back in. Three rounds settle any `u32`. -/
def foldCarry : Nat → Nat → Nat
  | 0, sum => sum
  | rounds + 1, sum =>
    if sum > 0xFFFF then foldCarry rounds (sum % 2 ^ 16 + sum / 2 ^ 16) else sum

/-- `chunks_exact(2)`: whole words into the sum, a last odd byte kept. -/
def ipWords : Nat → Bytes → Nat × Option Byte
  | sum, hi :: lo :: rest => ipWords (addU32 sum (word16 hi lo)) rest
  | sum, [last] => (sum, some last)
  | sum, [] => (sum, none)

/-- One `update` of the Internet checksum. -/
def ipUpdate (sum : Nat) (odd : Option Byte) (data : Bytes) : Nat × Option Byte :=
  match odd, data with
  | some hi, [] => (sum, some hi)
  | some hi, lo :: rest =>
    let (sum, odd) := ipWords (addU32 sum (word16 hi lo)) rest
    (foldCarry 3 sum, odd)
  | none, data =>
    let (sum, odd) := ipWords sum data
    (foldCarry 3 sum, odd)

namespace Hasher

def new : Algo → Hasher
  | .crc spec => .crc spec (spec.init &&& mask spec.width)
  | .ipChecksum => .ip 0 none
  | .md5 => .md5 []
  | .sha1 => .sha1 []
  | .sha256 => .sha256 []

def update (h : Hasher) (data : Bytes) : Hasher :=
  match h with
  | .crc spec state => .crc spec (data.foldl (crcByte spec) state)
  | .ip sum odd => let (sum, odd) := ipUpdate sum odd data; .ip sum odd
  | .md5 seen => .md5 (seen ++ data)
  | .sha1 seen => .sha1 (seen ++ data)
  | .sha256 seen => .sha256 (seen ++ data)

/-- The block of zeros `update_zeros` feeds from. -/
def zeros : Bytes := List.replicate 64 0

/-- `update_zeros`: at most 64 zeros a call. -/
def updateZeros (h : Hasher) (n : Nat) : Hasher :=
  let full := (List.range (n / 64)).foldl (fun h _ => h.update zeros) h
  if n % 64 = 0 then full else full.update (zeros.take (n % 64))

def finalize (H : Hashes) : Hasher → DigestVal
  | .crc spec state =>
    let state := if spec.refout then reflect state spec.width else state
    .int ((state ^^^ spec.xorout) &&& mask spec.width)
  | .ip sum odd =>
    let sum := match odd with
      | some hi => addU32 sum (word16 hi 0)
      | none => sum
    .int (BitVec.ofNat 64 (0xFFFF - foldCarry 3 sum % 2 ^ 16))
  | .md5 data => .bytes (H.md5 data)
  | .sha1 data => .bytes (H.sha1 data)
  | .sha256 data => .bytes (H.sha256 data)

end Hasher

/-- The digest of some pieces of data, hashed one after another. -/
def digestOf (H : Hashes) (algo : Algo) (pieces : List Bytes) : DigestVal :=
  (pieces.foldl Hasher.update (Hasher.new algo)).finalize H

end Rustruct

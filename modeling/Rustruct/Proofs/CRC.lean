import Rustruct.Proofs.Checksum
import Rustruct.Lib.Remainder

/-!
# The CRC

The register after a message is a remainder of polynomials over two elements, for either bit order and
however the message is cut into updates.
-/

namespace Rustruct

open Polynomial Remainder

lemma lowBit_eq (v : U64) (k : Nat) : (v >>> k) &&& 1#64 = if v.getLsbD k then 1#64 else 0#64 := by
  ext i hi
  rw [← BitVec.getLsbD_eq_getElem, ← BitVec.getLsbD_eq_getElem]
  by_cases h0 : i = 0
  · cases hb : v.getLsbD k <;> simp [h0, hb]
  · cases hb : v.getLsbD k <;> simp [BitVec.getLsbD_one, h0]

lemma getLsbD_crcBit {spec : CrcSpec} (hpos : 0 < spec.width) (hle : spec.width ≤ 64) (b : Bool) (state : U64)
    {i : Nat} (hi : i < spec.width) :
    (crcBit spec b state).getLsbD i = shiftIn spec.width spec.poly.getLsbD state.getLsbD b i := by
  have hi' : i < 64 := by omega
  have hcond : ((state >>> (spec.width - 1)) &&& 1#64) ^^^ (if b then 1#64 else 0#64) = 1#64 ↔
      (state.getLsbD (spec.width - 1) ^^ b) = true := by
    rw [lowBit_eq]
    cases state.getLsbD (spec.width - 1) <;> cases b <;> decide
  unfold crcBit shiftIn
  simp only [hcond]
  have hdown : (!decide (i < 1)) = decide (0 < i) := by
    rw [← decide_not]
    exact decide_eq_decide.mpr (by omega)
  cases htop : state.getLsbD (spec.width - 1) ^^ b
  · rw [if_neg Bool.false_ne_true]
    simp only [BitVec.getLsbD_and, BitVec.getLsbD_shiftLeft, getLsbD_mask, hdown, hi, hi', decide_true, and_self,
      Bool.true_and, Bool.and_true, Bool.false_and, Bool.xor_false]
  · rw [if_pos rfl]
    simp only [BitVec.getLsbD_xor, BitVec.getLsbD_and, BitVec.getLsbD_shiftLeft, getLsbD_mask, hdown, hi, hi',
      decide_true, and_self, Bool.true_and, Bool.and_true]

lemma crcBit_masked (spec : CrcSpec) (b : Bool) {state : U64} (i : Nat) (hi : spec.width ≤ i) :
    (crcBit spec b state).getLsbD i = false := by
  unfold crcBit
  have hnot : ¬i < spec.width := by omega
  simp only []
  split_ifs <;> simp [getLsbD_mask, hnot]

/-- The bits of a byte in the order they enter the register. -/
def byteBits (refin : Bool) (byte : Byte) : List Bool :=
  (List.range 8).map fun i => byte.toNat.testBit (if refin then i else 7 - i)

/-- A byte as a polynomial: its bits in order, reversed when `refin`. -/
noncomputable def bytePoly (refin : Bool) (byte : Byte) : (ZMod 2)[X] :=
  ofBits 8 fun j => byte.toNat.testBit (if refin then 7 - j else j)

/-- A message as a polynomial, the first byte the highest. -/
noncomputable def messagePoly (refin : Bool) : Bytes → (ZMod 2)[X]
  | [] => 0
  | byte :: rest => bytePoly refin byte * X ^ (8 * rest.length) + messagePoly refin rest

/-- `x^w + poly(x)`. -/
noncomputable def CrcSpec.modulus (spec : CrcSpec) : (ZMod 2)[X] :=
  X ^ spec.width + ofBits spec.width spec.poly.getLsbD

lemma CrcSpec.modulus_monic (spec : CrcSpec) : spec.modulus.Monic :=
  Remainder.modulus_monic spec.width spec.poly.getLsbD

lemma CrcSpec.modulus_degree (spec : CrcSpec) : spec.modulus.degree = (spec.width : WithBot ℕ) :=
  Remainder.modulus_degree spec.width spec.poly.getLsbD

lemma crcByte_eq (spec : CrcSpec) (state : U64) (byte : Byte) :
    crcByte spec state byte =
      (byteBits spec.refin byte).foldl (fun state b => crcBit spec b state) state := by
  rw [crcByte, byteBits, List.foldl_map]

lemma foldl_crcByte (spec : CrcSpec) (state : U64) (data : Bytes) :
    data.foldl (crcByte spec) state =
      (data.flatMap (byteBits spec.refin)).foldl (fun state b => crcBit spec b state) state := by
  induction data generalizing state with
  | nil => rfl
  | cons byte rest ih => rw [List.foldl_cons, List.flatMap_cons, List.foldl_append, ih, crcByte_eq]

lemma length_messageBits (refin : Bool) (data : Bytes) :
    (data.flatMap (byteBits refin)).length = 8 * data.length := by
  induction data with
  | nil => rfl
  | cons byte rest ih =>
    have hbits : (byteBits refin byte).length = 8 := by simp [byteBits]
    rw [List.flatMap_cons, List.length_append, ih, hbits, List.length_cons]
    omega

lemma digits_byteBits (refin : Bool) (byte : Byte) :
    digits ((byteBits refin byte).map digit) = bytePoly refin byte := by
  have hplaces : (byteBits refin byte).map digit =
      (List.range 8).map fun i => digit (byte.toNat.testBit (if refin then 7 - (8 - 1 - i) else 8 - 1 - i)) := by
    rw [byteBits, List.map_map]
    apply List.map_congr_left
    intro i hi
    have hback : 7 - (8 - 1 - i) = i := by
      have hlt := List.mem_range.mp hi
      omega
    rw [Function.comp_apply, hback]
  rw [hplaces, bytePoly, ofBits_eq_sum]
  exact digits_range (fun j => digit (byte.toNat.testBit (if refin then 7 - j else j))) 8

lemma digits_messageBits (refin : Bool) (data : Bytes) :
    digits ((data.flatMap (byteBits refin)).map digit) = messagePoly refin data := by
  induction data with
  | nil => rfl
  | cons byte rest ih =>
    rw [List.flatMap_cons, List.map_append, digits_append, ih, digits_byteBits, List.length_map, length_messageBits,
      messagePoly]

lemma crcBit_remainder {spec : CrcSpec} (hpos : 0 < spec.width) (hle : spec.width ≤ 64) (b : Bool) (state : U64) :
    ofBits spec.width (crcBit spec b state).getLsbD =
      (ofBits spec.width state.getLsbD * X + C (digit b) * X ^ spec.width) %ₘ spec.modulus := by
  have hbits : ofBits spec.width (crcBit spec b state).getLsbD =
      ofBits spec.width (shiftIn spec.width spec.poly.getLsbD state.getLsbD b) := by
    apply Finset.sum_congr rfl
    intro i hi
    rw [getLsbD_crcBit hpos hle b state (Finset.mem_range.mp hi)]
  rw [hbits, ofBits_shiftIn hpos]
  rfl

lemma foldl_crcBit {spec : CrcSpec} (hpos : 0 < spec.width) (hle : spec.width ≤ 64) (bits : List Bool) (state : U64) :
    ofBits spec.width (bits.foldl (fun state b => crcBit spec b state) state).getLsbD =
      (bits.map digit).foldl (fun p d => (p * X + C d * X ^ spec.width) %ₘ spec.modulus)
        (ofBits spec.width state.getLsbD) := by
  induction bits generalizing state with
  | nil => rfl
  | cons b bits ih => rw [List.foldl_cons, ih, crcBit_remainder hpos hle, List.map_cons, List.foldl_cons]

/-- The register stays within the width. -/
def Masked (w : Nat) (state : U64) : Prop := ∀ i, w ≤ i → state.getLsbD i = false

lemma foldl_crcBit_masked (spec : CrcSpec) (bits : List Bool) {state : U64} (h : Masked spec.width state) :
    Masked spec.width (bits.foldl (fun state b => crcBit spec b state) state) := by
  induction bits generalizing state with
  | nil => exact h
  | cons b bits ih => exact ih (crcBit_masked spec b)

lemma foldl_update_crc (spec : CrcSpec) (pieces : List Bytes) (state : U64) :
    pieces.foldl Hasher.update (.crc spec state) = .crc spec (pieces.flatten.foldl (crcByte spec) state) := by
  induction pieces generalizing state with
  | nil => rfl
  | cons data pieces ih => rw [List.foldl_cons, Hasher.update, ih, List.flatten_cons, List.foldl_append]

lemma flatten_flatMap_updates (fs : List Feed) : (fs.flatMap Feed.updates).flatten = dataOf fs := by
  induction fs with
  | nil => rfl
  | cons f fs ih =>
    have hdata : dataOf (f :: fs) = f.data ++ dataOf fs := rfl
    rw [List.flatMap_cons, List.flatten_append, ih, flatten_updates, hdata]

lemma getLsbD_reflect (v : U64) {w : Nat} (hle : w ≤ 64) (i : Nat) :
    (reflect v w).getLsbD i = (decide (i < w) && v.getLsbD (w - 1 - i)) := by
  have hrounds : ∀ n ≤ w, ((List.range n).foldl (fun out i =>
      if (v >>> i) &&& 1#64 = 1#64 then out ||| (1#64 <<< (w - 1 - i)) else out) 0#64).getLsbD i =
        (decide (i < w ∧ w - 1 - i < n) && v.getLsbD (w - 1 - i)) := by
    intro n
    induction n with
    | zero => simp
    | succ n ih =>
      intro hn
      have hset : (v >>> n) &&& 1#64 = 1#64 ↔ v.getLsbD n = true := by
        rw [lowBit_eq]
        cases v.getLsbD n <;> decide
      have hone : (1#64 <<< (w - 1 - n)).getLsbD i = decide (i = w - 1 - n) := by
        rw [BitVec.getLsbD_shiftLeft, BitVec.getLsbD_one]
        by_cases hi : i = w - 1 - n
        · have h64 : w - 1 - n < 64 := by omega
          simp [hi, h64]
        · by_cases hlt : i < w - 1 - n
          · simp [hi, hlt]
          · have hpos : i - (w - 1 - n) ≠ 0 := by omega
            simp [hi, hlt, hpos]
      rw [List.range_succ, List.foldl_append, List.foldl_cons, List.foldl_nil]
      simp only [hset]
      by_cases hi : i = w - 1 - n
      · have hback : w - 1 - i = n := by omega
        have hlt : i < w := by omega
        rw [hback] at ih ⊢
        by_cases hv : v.getLsbD n = true
        · rw [if_pos hv, BitVec.getLsbD_or, hone]
          simp [hi, hv, show w - 1 - n < w by omega]
        · rw [if_neg hv, ih (by omega)]
          simp [hv]
      · have hiff : (i < w ∧ w - 1 - i < n + 1) ↔ (i < w ∧ w - 1 - i < n) := by omega
        rw [decide_eq_decide.mpr hiff, ← ih (by omega)]
        by_cases hv : v.getLsbD n = true
        · rw [if_pos hv, BitVec.getLsbD_or, hone, decide_eq_false hi, Bool.or_false]
        · rw [if_neg hv]
  have hall : (i < w ∧ w - 1 - i < w) ↔ i < w := by omega
  rw [reflect, hrounds w le_rfl, decide_eq_decide.mpr hall]

/-- What the register holds after a message. -/
structure CrcState (spec : CrcSpec) (data : Bytes) (state : U64) : Prop where
  masked : Masked spec.width state
  remainder : ofBits spec.width state.getLsbD =
    (ofBits spec.width spec.init.getLsbD * X ^ (8 * data.length) + messagePoly spec.refin data * X ^ spec.width) %ₘ
      spec.modulus

lemma crcState_foldl {spec : CrcSpec} (hpos : 0 < spec.width) (hle : spec.width ≤ 64) (data : Bytes) :
    CrcState spec data (data.foldl (crcByte spec) (spec.init &&& mask spec.width)) := by
  have hinit : ofBits spec.width (spec.init &&& mask spec.width).getLsbD = ofBits spec.width spec.init.getLsbD := by
    apply Finset.sum_congr rfl
    intro i hi
    have hlt := Finset.mem_range.mp hi
    have h64 : i < 64 := by omega
    rw [BitVec.getLsbD_and, getLsbD_mask, decide_eq_true ⟨hlt, h64⟩, Bool.and_true]
  have hreduced : ofBits spec.width spec.init.getLsbD %ₘ spec.modulus = ofBits spec.width spec.init.getLsbD := by
    rw [modByMonic_eq_self_iff spec.modulus_monic, spec.modulus_degree]
    exact ofBits_degree_lt _ _
  constructor
  · rw [foldl_crcByte]
    apply foldl_crcBit_masked
    intro i hi
    have hnot : ¬i < spec.width := by omega
    simp [getLsbD_mask, hnot]
  · rw [foldl_crcByte, foldl_crcBit hpos hle, hinit,
      foldl_modByMonic spec.modulus_monic (X ^ spec.width) _ _ hreduced, digits_messageBits, List.length_map,
      length_messageBits]

lemma getLsbD_finalize {spec : CrcSpec} (hle : spec.width ≤ 64) (state : U64) (i : Nat) :
    (((if spec.refout then reflect state spec.width else state) ^^^ spec.xorout) &&& mask spec.width).getLsbD i =
      (decide (i < spec.width) &&
        (state.getLsbD (if spec.refout then spec.width - 1 - i else i) ^^ spec.xorout.getLsbD i)) := by
  rw [BitVec.getLsbD_and, getLsbD_mask, BitVec.getLsbD_xor]
  by_cases hi : i < spec.width
  · have h64 : i < 64 := by omega
    cases spec.refout
    · simp only [hi, h64, decide_true, and_self, Bool.and_true, Bool.true_and, if_neg Bool.false_ne_true]
    · simp only [if_pos, getLsbD_reflect state hle, hi, h64, decide_true, and_self, Bool.and_true, Bool.true_and]
  · simp [hi]

/-- The CRC of a message is the remainder of its polynomial, whatever the calls it is fed through. -/
theorem crc_remainder (H : Hashes) (spec : CrcSpec) (hpos : 0 < spec.width) (hle : spec.width ≤ 64) (fs : List Feed) :
    ∃ state, (Hasher.new (.crc spec)).feeds fs = .crc spec state ∧ CrcState spec (dataOf fs) state ∧
      ∃ v, ((Hasher.new (.crc spec)).feeds fs).finalize H = .int v ∧
        ∀ i, v.getLsbD i = (decide (i < spec.width) &&
          (state.getLsbD (if spec.refout then spec.width - 1 - i else i) ^^ spec.xorout.getLsbD i)) := by
  have hrun : (Hasher.new (.crc spec)).feeds fs =
      .crc spec ((dataOf fs).foldl (crcByte spec) (spec.init &&& mask spec.width)) := by
    rw [Hasher.feeds_eq, Hasher.new, foldl_update_crc, flatten_flatMap_updates]
  refine ⟨_, hrun, crcState_foldl hpos hle _, _, ?_, getLsbD_finalize hle _⟩
  rw [hrun, Hasher.finalize]

/-- CRC-32 of "123456789", fed in three calls. -/
theorem crc_remainder_check :
    ∃ state, CrcState ⟨32, 0x04C11DB7, 0xFFFFFFFF, 0xFFFFFFFF, true, true⟩
        [0x31, 0x32, 0x33, 0x34, 0x35, 0x36, 0x37, 0x38, 0x39] state ∧
      ((Hasher.new (.crc ⟨32, 0x04C11DB7, 0xFFFFFFFF, 0xFFFFFFFF, true, true⟩)).feeds
        [.bytes [0x31, 0x32, 0x33, 0x34], .zeros 0, .bytes [0x35, 0x36, 0x37, 0x38, 0x39]]).finalize Hashes.blank =
          .int 0xCBF43926 := by
  obtain ⟨state, -, hstate, -⟩ := crc_remainder Hashes.blank
    ⟨32, 0x04C11DB7, 0xFFFFFFFF, 0xFFFFFFFF, true, true⟩ (by decide) (by decide)
    [.bytes [0x31, 0x32, 0x33, 0x34], .zeros 0, .bytes [0x35, 0x36, 0x37, 0x38, 0x39]]
  exact ⟨state, hstate, by decide +kernel⟩

end Rustruct

import Rustruct.Proofs.Piecewise
import Rustruct.Proofs.BitRuns
import Rustruct.Proofs.Writers

/-!
# The slots of derived fields

A derived field is written when its consumer is, into bits that were left zero for it. Writing it changes
no other bits, and what is read there is what was written.
-/

namespace Rustruct

open BitStream

section Bytes

variable {out out' b : Bytes} {pos : Nat}

lemma copyAt_bits (h : copyAt out pos b = .ok out') {i : Nat} (hi : i < 8 * pos ∨ 8 * (pos + b.length) ≤ i) :
    bitAt out' i = bitAt out i := by
  obtain ⟨hle, rfl⟩ := copyAt_eq_ok h
  exact bitAt_overwrite hle hi

lemma copyAt_slice (h : copyAt out pos b = .ok out') : (out'.drop pos).take b.length = b := by
  obtain ⟨hle, rfl⟩ := copyAt_eq_ok h
  exact slice_overwrite hle

/-- The bits of `v` are set, from bit `8 * base + off` on. -/
lemma orBits_bits {base v n off : Nat} (hfit : 8 * base + off + n ≤ 8 * out.length) (hcount : off + n ≤ u32Size)
    (h : orBits base v n off out = .ok out') :
    out'.length = out.length ∧ ∀ i, bitAt out' i = (bitAt out i ||
      decide (8 * base + off ≤ i ∧ i < 8 * base + off + n) && v.testBit (8 * base + off + n - 1 - i)) := by
  by_cases hn : n = 0
  · subst hn
    cases h
    refine ⟨rfl, fun i => ?_⟩
    have hno : ¬(8 * base + off ≤ i ∧ i < 8 * base + off + 0) := by omega
    rw [decide_eq_false hno, Bool.false_and, Bool.or_false]
  have hbase : base ≤ out.length := by omega
  have htake : (out.take base).length = base := List.length_take_of_le hbase
  have hdrop : (out.drop base).length = out.length - base := List.length_drop
  obtain ⟨run', hrun, hsets⟩ := @orBits_sets (out.take base) [] v n (out.drop base) off (by omega) hcount
  rw [htake, List.append_nil, List.append_nil, List.take_append_drop, h] at hrun
  obtain rfl := Except.ok.inj hrun
  have hlen := hsets.length
  refine ⟨by rw [List.length_append, hlen, htake, hdrop]; omega, fun i => ?_⟩
  have hout : bitAt out i = bitAt (out.take base ++ out.drop base) i := by rw [List.take_append_drop]
  rw [hout, bitAt_append, bitAt_append, htake]
  by_cases hi : i < 8 * base
  · have hno : ¬(8 * base + off ≤ i ∧ i < 8 * base + off + n) := by omega
    rw [if_pos hi, if_pos hi, decide_eq_false hno, Bool.false_and, Bool.or_false]
  · have hiff : (off ≤ i - 8 * base ∧ i - 8 * base < off + n) ↔ (8 * base + off ≤ i ∧ i < 8 * base + off + n) := by
      omega
    have hsub : off + n - 1 - (i - 8 * base) = 8 * base + off + n - 1 - i := by omega
    rw [if_neg hi, if_neg hi, hsets.bits, hsub, decide_eq_decide.mpr hiff]

lemma bitsAt_congr {a b : Bytes} {width bit : Nat} (h : ∀ i, bit ≤ i → i < bit + width → bitAt a i = bitAt b i)
    (v : Nat) :
    bitsAt a width bit v = bitsAt b width bit v := by
  induction width generalizing bit v with
  | zero => rfl
  | succ width ih =>
    rw [bitsAt, bitsAt, h bit (Nat.le_refl _) (by omega)]
    exact ih (fun i hlo hhi => h i (by omega) (by omega)) _

/-- The number whose bits are there. -/
lemma bitsAt_eq {width bit u : Nat} (hu : u < 2 ^ width)
    (h : ∀ i, bit ≤ i → i < bit + width → bitAt out i = u.testBit (bit + width - 1 - i)) :
    bitsAt out width bit 0 = u := by
  obtain ⟨hhigh, hlow⟩ := bitsAt_spec out width bit 0
  apply Nat.eq_of_testBit_eq
  intro k
  by_cases hk : k < width
  · rw [hlow k hk, h _ (by omega) (by omega)]
    congr 1
    omega
  · have hpow : 2 ^ width ≤ 2 ^ k := Nat.pow_le_pow_right (by decide) (by omega)
    have hlt : bitsAt out width bit 0 < 2 ^ width := (Nat.div_eq_zero_iff_lt (Nat.two_pow_pos _)).mp hhigh
    rw [Nat.testBit_lt_two_pow (Nat.lt_of_lt_of_le hlt hpow), Nat.testBit_lt_two_pow (Nat.lt_of_lt_of_le hu hpow)]

end Bytes

/-! ### The bits of a slot -/

namespace Slot

/-- The first bit. -/
def start : Slot → Nat
  | .int pos _ _ => 8 * pos
  | .bits base bitOff _ _ => 8 * base + bitOff

def width : Slot → Nat
  | .int _ prim _ => 8 * prim.width
  | .bits _ _ width _ => width

/-- The bit after the last one. -/
def stop (s : Slot) : Nat := s.start + s.width

/-- The integer that is read there. -/
def read (buf : Bytes) : Slot → Int
  | .int pos prim be => readInt prim be ((buf.drop pos).take prim.width)
  | .bits base bitOff width signed => signBits width signed (bitsAt buf width (8 * base + bitOff) 0)

/-- A width that a field can have, in a run whose bits are counted. -/
def Ok : Slot → Prop
  | .int .. => True
  | .bits _ bitOff width _ => 0 < width ∧ width ≤ 64 ∧ bitOff + width ≤ u32Size

variable {s : Slot} {a b : Bytes}

lemma read_congr (ha : s.stop ≤ 8 * a.length) (hb : s.stop ≤ 8 * b.length)
    (h : ∀ i, s.start ≤ i → i < s.stop → bitAt a i = bitAt b i) : s.read a = s.read b := by
  cases s with
  | int pos prim be =>
    simp only [stop, start, width] at ha hb h
    rw [read, read, slice_congr (by omega) (by omega) fun i hlo hhi => h i hlo (by omega)]
  | bits base bitOff width signed =>
    have hbits : ∀ v, bitsAt a width (8 * base + bitOff) v = bitsAt b width (8 * base + bitOff) v := bitsAt_congr h
    rw [read, read, hbits]

end Slot

lemma readInt_zeros (prim : IntPrim) (be : Bool) : readInt prim be (List.replicate prim.width 0) = 0 := by
  cases prim <;> cases be <;> decide

lemma signBits_zero (width : Nat) (signed : Bool) : signBits width signed 0 = 0 := by
  unfold signBits
  rw [Nat.zero_testBit]
  split_ifs with _ _ hno
  · cases hno
  · rfl
  · rfl
  · rfl

/-- An untouched slot is read as zero. -/
lemma Slot.read_clear {s : Slot} {out : Bytes} (hin : s.stop ≤ 8 * out.length)
    (h : ∀ i, s.start ≤ i → i < s.stop → bitAt out i = false) : s.read out = 0 := by
  cases s with
  | int pos prim be =>
    simp only [stop, start, width] at hin h
    rw [read, bitAt_zeros (fun i hlo hhi => h i hlo (by omega)) (by omega), readInt_zeros]
  | bits base bitOff width signed =>
    have hu : (0 : Nat) < 2 ^ width := Nat.two_pow_pos _
    have hzero : bitsAt out width (8 * base + bitOff) 0 = 0 :=
      bitsAt_eq hu fun i hlo hhi => by rw [h i hlo hhi, Nat.zero_testBit]
    rw [read, hzero, signBits_zero]

/-- What is written into a slot is read there, and no other bit changes. -/
lemma writeSlot_spec {s : Slot} {out out' : Bytes} {x : Int} (hok : s.Ok) (hin : s.stop ≤ 8 * out.length)
    (hclear : ∀ i, s.start ≤ i → i < s.stop → bitAt out i = false) (h : PCtx.writeSlot out s x = .ok out') :
    out'.length = out.length ∧ s.read out' = x ∧ ∀ i, i < s.start ∨ s.stop ≤ i → bitAt out' i = bitAt out i := by
  have hlen := writeSlot_length h
  cases s with
  | int pos prim be =>
    obtain ⟨⟨hlo, hhi⟩, hcopy⟩ := writeIntAt_eq_ok h
    have hslice := copyAt_slice hcopy
    rw [intBytes_length] at hslice
    refine ⟨hlen, ?_, fun i hi => ?_⟩
    · rw [Slot.read, hslice, readInt_intBytes be hlo hhi]
    · simp only [Slot.stop, Slot.start, Slot.width] at hi
      apply copyAt_bits hcopy
      rw [intBytes_length]
      omega
  | bits base bitOff width signed =>
    obtain ⟨_, hrange, h⟩ := Exec.bind_eq_ok.mp h
    simp only [Slot.stop, Slot.start, Slot.width] at hin hclear
    obtain ⟨-, hbits⟩ := orBits_bits hin hok.2.2 h
    refine ⟨hlen, ?_, fun i hi => ?_⟩
    · let item : BitItem := { width, signed, reg := none, derived := false, key := .skip }
      have hword : asU64 x % 2 ^ width < 2 ^ width := Nat.mod_lt _ (Nat.two_pow_pos _)
      have hread : bitsAt out' width (8 * base + bitOff) 0 = asU64 x % 2 ^ width := by
        apply bitsAt_eq hword
        intro i hlo hhi
        rw [hbits, hclear i hlo hhi, Bool.false_or, decide_eq_true ⟨hlo, hhi⟩, Bool.true_and]
      rw [Slot.read, hread]
      have hsign : signBits item.width item.signed (asU64 x % 2 ^ item.width) = x := signBits_word hok.1 hok.2.1 hrange
      exact hsign
    · simp only [Slot.stop, Slot.start, Slot.width] at hi
      have hno : ¬(8 * base + bitOff ≤ i ∧ i < 8 * base + bitOff + width) := by omega
      rw [hbits, decide_eq_false hno, Bool.false_and, Bool.or_false]

end Rustruct

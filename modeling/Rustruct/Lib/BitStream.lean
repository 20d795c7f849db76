import Mathlib.Tactic.Common
import Mathlib.Data.List.GetD
import Mathlib.Algebra.Ring.Nat

/-!
# Bytes as a stream of bits

The bits of some bytes, the most significant bit of each byte first. What a writer that only sets bits
does is the set of bits it sets, so writes compose by union and their order does not matter.
-/

namespace BitStream

/-- Bit `i`, counted from the most significant bit of the first byte. -/
def bitAt (bytes : List UInt8) (i : ℕ) : Bool := (bytes.getD (i / 8) 0).toNat.testBit (7 - i % 8)

lemma bitAt_ge {bytes : List UInt8} {i : ℕ} (h : 8 * bytes.length ≤ i) : bitAt bytes i = false := by
  have hout : bytes.length ≤ i / 8 := by omega
  rw [bitAt, List.getD_eq_default _ _ hout]
  exact Nat.zero_testBit _

lemma bitAt_replicate_zero (n i : ℕ) : bitAt (List.replicate n 0) i = false := by
  rw [bitAt, List.getD_eq_getElem?_getD, List.getElem?_replicate]
  split_ifs <;> exact Nat.zero_testBit _

/-- Bytes are determined by their bits. -/
lemma ext_bitAt {a b : List UInt8} (hlen : a.length = b.length)
    (h : ∀ i < 8 * a.length, bitAt a i = bitAt b i) : a = b := by
  apply List.ext_getElem hlen
  intro k ha hb
  apply UInt8.toNat_inj.mp
  apply Nat.eq_of_testBit_eq
  intro j
  by_cases hj : j < 8
  · have hdiv : (8 * k + (7 - j)) / 8 = k := by omega
    have hmod : 7 - (8 * k + (7 - j)) % 8 = j := by omega
    have hbit := h (8 * k + (7 - j)) (by omega)
    rw [bitAt, bitAt, hdiv, hmod, List.getD_eq_getElem _ _ ha, List.getD_eq_getElem _ _ hb] at hbit
    exact hbit
  · have hlarge : 2 ^ 8 ≤ 2 ^ j := Nat.pow_le_pow_right (by decide) (by omega)
    rw [Nat.testBit_lt_two_pow (Nat.lt_of_lt_of_le a[k].toNat_lt hlarge),
      Nat.testBit_lt_two_pow (Nat.lt_of_lt_of_le b[k].toNat_lt hlarge)]

/-- Same length, and the bits of `bit` are set. -/
structure Sets (a b : List UInt8) (bit : ℕ → Bool) : Prop where
  length : b.length = a.length
  bits : ∀ i, bitAt b i = (bitAt a i || bit i)

lemma Sets.refl (a : List UInt8) : Sets a a fun _ => false :=
  ⟨rfl, fun _ => (Bool.or_false _).symm⟩

lemma Sets.trans {a b c : List UInt8} {f g : ℕ → Bool} (h₁ : Sets a b f) (h₂ : Sets b c g) :
    Sets a c fun i => f i || g i :=
  ⟨h₂.length.trans h₁.length, fun i => by rw [h₂.bits, h₁.bits, Bool.or_assoc]⟩

lemma Sets.congr {a b : List UInt8} {f g : ℕ → Bool} (h : Sets a b f) (hfg : ∀ i, f i = g i) : Sets a b g :=
  ⟨h.length, fun i => by rw [h.bits, hfg]⟩

/-- What a write of one bit does. -/
lemma Sets.one {bytes : List UInt8} {i : ℕ} (h : i / 8 < bytes.length) :
    Sets bytes (bytes.set (i / 8) (bytes[i / 8] ||| UInt8.ofNat (2 ^ (7 - i % 8)))) (fun j => j == i) := by
  constructor
  · exact List.length_set
  · intro j
    have hpow : (UInt8.ofNat (2 ^ (7 - i % 8))).toNat = 2 ^ (7 - i % 8) := by
      rw [UInt8.toNat_ofNat']
      exact Nat.mod_eq_of_lt (Nat.pow_lt_pow_right (by decide) (by omega))
    unfold bitAt
    rw [List.getD_eq_getElem?_getD, List.getElem?_set]
    by_cases hbyte : i / 8 = j / 8
    · have hj : j / 8 < bytes.length := by omega
      have hsame : (decide (7 - i % 8 = 7 - j % 8)) = (j == i) := by
        rw [Bool.eq_iff_iff, decide_eq_true_iff, beq_iff_eq]
        omega
      rw [if_pos hbyte, if_pos h, Option.getD_some, UInt8.toNat_or, Nat.testBit_or, hpow, Nat.testBit_two_pow, hsame,
        List.getD_eq_getElem _ _ hj]
      simp only [hbyte]
    · have hne : (j == i) = false := by
        rw [beq_eq_false_iff_ne]
        rintro rfl
        exact hbyte rfl
      rw [if_neg hbyte, hne, Bool.or_false, List.getD_eq_getElem?_getD]

/-! ### Slices -/

lemma bitAt_append (a b : List UInt8) (i : ℕ) :
    bitAt (a ++ b) i = if i < 8 * a.length then bitAt a i else bitAt b (i - 8 * a.length) := by
  unfold bitAt
  split_ifs with h
  · have hlt : i / 8 < a.length := by omega
    rw [List.getD_append _ _ _ _ hlt]
  · have hdiv : (i - 8 * a.length) / 8 = i / 8 - a.length := by omega
    have hmod : (i - 8 * a.length) % 8 = i % 8 := by omega
    rw [List.getD_append_right _ _ _ _ (by omega), hdiv, hmod]

lemma bitAt_slice (a : List UInt8) (pos : ℕ) {n i : ℕ} (h : i < 8 * n) :
    bitAt ((a.drop pos).take n) i = bitAt a (8 * pos + i) := by
  have hdiv : (8 * pos + i) / 8 = pos + i / 8 := by omega
  have hmod : (8 * pos + i) % 8 = i % 8 := by omega
  rw [bitAt, bitAt, hdiv, hmod, List.getD_eq_getElem?_getD, List.getD_eq_getElem?_getD, List.getElem?_take,
    if_pos (by omega), List.getElem?_drop]

/-- The same bytes at a place, when the bits there are the same. -/
lemma slice_congr {a b : List UInt8} {pos n : ℕ} (ha : pos + n ≤ a.length) (hb : pos + n ≤ b.length)
    (h : ∀ i, 8 * pos ≤ i → i < 8 * (pos + n) → bitAt a i = bitAt b i) :
    (a.drop pos).take n = (b.drop pos).take n := by
  have hlen : ∀ l : List UInt8, pos + n ≤ l.length → ((l.drop pos).take n).length = n := by
    intro l hl
    rw [List.length_take, List.length_drop]
    omega
  apply ext_bitAt
  · rw [hlen a ha, hlen b hb]
  · intro i hi
    rw [hlen a ha] at hi
    rw [bitAt_slice _ _ hi, bitAt_slice _ _ hi]
    exact h _ (by omega) (by omega)

/-- Other bytes at a place change no other bits. -/
lemma bitAt_overwrite {a b : List UInt8} {pos i : ℕ} (h : pos + b.length ≤ a.length)
    (hi : i < 8 * pos ∨ 8 * (pos + b.length) ≤ i) :
    bitAt (a.take pos ++ b ++ a.drop (pos + b.length)) i = bitAt a i := by
  have htake : (a.take pos).length = pos := List.length_take_of_le (by omega)
  rw [List.append_assoc, bitAt_append, bitAt_append, htake]
  rcases hi with hi | hi
  · have hpre := bitAt_slice a 0 (n := pos) (i := i) hi
    rw [if_pos hi]
    simpa using hpre
  · rw [if_neg (by omega), if_neg (by omega)]
    have hdiv : (i - 8 * pos - 8 * b.length) / 8 = i / 8 - (pos + b.length) := by omega
    have hmod : (i - 8 * pos - 8 * b.length) % 8 = i % 8 := by omega
    have hat : pos + b.length + (i / 8 - (pos + b.length)) = i / 8 := by omega
    rw [bitAt, bitAt, hdiv, hmod, List.getD_eq_getElem?_getD, List.getD_eq_getElem?_getD, List.getElem?_drop, hat]

lemma slice_overwrite {a b : List UInt8} {pos : ℕ} (h : pos + b.length ≤ a.length) :
    ((a.take pos ++ b ++ a.drop (pos + b.length)).drop pos).take b.length = b := by
  have htake : (a.take pos).length = pos := List.length_take_of_le (by omega)
  rw [List.append_assoc, List.drop_append_of_le_length (by omega), List.drop_of_length_le (by omega), List.nil_append,
    List.take_left]

lemma bitAt_zeros {a : List UInt8} {pos n : ℕ} (h : ∀ i, 8 * pos ≤ i → i < 8 * (pos + n) → bitAt a i = false)
    (hn : pos + n ≤ a.length) : (a.drop pos).take n = List.replicate n 0 := by
  have hlen : ((a.drop pos).take n).length = n := by
    rw [List.length_take, List.length_drop]
    omega
  apply ext_bitAt
  · rw [hlen, List.length_replicate]
  · intro i hi
    rw [hlen] at hi
    rw [bitAt_slice _ _ hi, bitAt_replicate_zero]
    exact h _ (by omega) (by omega)

end BitStream

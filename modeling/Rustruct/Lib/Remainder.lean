import Mathlib

/-!
# Remainders of polynomials, one digit at a time

Long division keeps only the remainder so far and takes in one digit of the dividend at a
time. Over two elements the digits are bits and the remainder is a shift register.
-/

namespace Remainder

open Polynomial

section Digits

variable {R : Type*} [CommRing R]

/-- The polynomial with these coefficients, the highest first. -/
noncomputable def digits : List R → R[X]
  | [] => 0
  | d :: ds => C d * X ^ ds.length + digits ds

lemma digits_append (ds es : List R) : digits (ds ++ es) = digits ds * X ^ es.length + digits es := by
  induction ds with
  | nil => simp [digits]
  | cons d ds ih =>
    simp only [List.cons_append, digits, ih, List.length_append]
    ring

/-- Read off at the places `n - 1` down to `0`. -/
lemma digits_range (f : ℕ → R) (n : ℕ) :
    digits ((List.range n).map fun i => f (n - 1 - i)) = ∑ j ∈ Finset.range n, C (f j) * X ^ j := by
  induction n with
  | zero => simp [digits]
  | succ n ih =>
    have hrest : ((List.range n).map Nat.succ).map (fun i => f (n + 1 - 1 - i)) =
        (List.range n).map fun i => f (n - 1 - i) := by
      rw [List.map_map]
      apply List.map_congr_left
      intro i _
      rw [Function.comp_apply]
      congr 1
      omega
    rw [List.range_succ_eq_map, List.map_cons, digits, hrest, ih, Finset.sum_range_succ, List.length_map,
      List.length_range, add_comm]
    rfl

/-- Reducing early does not change the remainder. -/
lemma modByMonic_mul_add {g : R[X]} (hg : g.Monic) (p r q : R[X]) :
    ((p %ₘ g) * r + q) %ₘ g = (p * r + q) %ₘ g := by
  have hdvd : g ∣ (p * r + q) - ((p %ₘ g) * r + q) := by
    have hp : p = p %ₘ g + g * (p /ₘ g) := (modByMonic_add_div p g).symm
    refine ⟨(p /ₘ g) * r, ?_⟩
    linear_combination r * hp
  have hzero := (modByMonic_eq_zero_iff_dvd hg).mpr hdvd
  rw [sub_modByMonic] at hzero
  exact (sub_eq_zero.mp hzero).symm

/-- Taking in one digit at a time, each at the place of `y`. -/
lemma foldl_modByMonic {g : R[X]} (hg : g.Monic) (y : R[X]) (ds : List R) :
    ∀ p, p %ₘ g = p →
      ds.foldl (fun p d => (p * X + C d * y) %ₘ g) p = (p * X ^ ds.length + digits ds * y) %ₘ g := by
  induction ds with
  | nil =>
    intro p hp
    simp [digits, hp]
  | cons d ds ih =>
    intro p hp
    have hstep := ih ((p * X + C d * y) %ₘ g) (by
      have h := modByMonic_mul_add hg (p * X + C d * y) 1 0
      simpa using h)
    rw [List.foldl_cons, hstep, modByMonic_mul_add hg]
    congr 1
    simp only [digits, List.length_cons]
    ring

end Digits

/-! ### Bits -/

/-- The polynomial of the low `w` bits. -/
noncomputable def ofBits (w : ℕ) (bit : ℕ → Bool) : (ZMod 2)[X] :=
  ∑ i ∈ Finset.range w, if bit i then X ^ i else 0

/-- A bit as a coefficient. -/
def digit (b : Bool) : ZMod 2 := if b then 1 else 0

lemma digit_xor (a b : Bool) : digit (a ^^ b) = digit a + digit b := by
  cases a <;> cases b <;> decide

lemma ofBits_eq_sum (w : ℕ) (bit : ℕ → Bool) :
    ofBits w bit = ∑ i ∈ Finset.range w, C (digit (bit i)) * X ^ i := by
  apply Finset.sum_congr rfl
  intro i _
  cases bit i <;> simp [digit]

lemma coeff_ofBits (w : ℕ) (bit : ℕ → Bool) (n : ℕ) :
    (ofBits w bit).coeff n = if n < w then digit (bit n) else 0 := by
  have hterm : ∀ i, (if bit i then X ^ i else 0 : (ZMod 2)[X]).coeff n = if n = i then digit (bit i) else 0 := by
    intro i
    by_cases hb : bit i
    · simp [hb, digit, coeff_X_pow]
    · simp [hb, digit]
  simp only [ofBits, finsetSum_coeff, hterm, Finset.sum_ite_eq, Finset.mem_range]

lemma ofBits_degree_lt (w : ℕ) (bit : ℕ → Bool) : (ofBits w bit).degree < w := by
  rw [degree_lt_iff_coeff_zero]
  intro n hn
  rw [coeff_ofBits, if_neg (by omega)]

lemma ofBits_xor (w : ℕ) (a b : ℕ → Bool) :
    ofBits w (fun i => a i ^^ b i) = ofBits w a + ofBits w b := by
  ext n
  rw [coeff_add, coeff_ofBits, coeff_ofBits, coeff_ofBits]
  split_ifs
  · exact digit_xor _ _
  · simp

/-- One place up, the top bit leaves the register. -/
lemma ofBits_mul_X {w : ℕ} (hw : 0 < w) (bit : ℕ → Bool) :
    ofBits w bit * X = ofBits w (fun i => decide (0 < i) && bit (i - 1)) + C (digit (bit (w - 1))) * X ^ w := by
  ext n
  rw [coeff_add, coeff_C_mul_X_pow, coeff_ofBits]
  cases n with
  | zero =>
    have hne : 0 ≠ w := by omega
    simp [hw, hne, digit]
  | succ n =>
    rw [coeff_mul_X, coeff_ofBits]
    by_cases h : n + 1 < w
    · have hne : n + 1 ≠ w := by omega
      have hlt : n < w := by omega
      simp [h, hne, hlt]
    · by_cases he : n + 1 = w
      · have hlt : n < w := by omega
        have htop : w - 1 = n := by omega
        simp [he, hlt, htop]
      · have hlt : ¬n < w := by omega
        simp [h, he, hlt]

lemma modulus_monic (w : ℕ) (poly : ℕ → Bool) : (X ^ w + ofBits w poly).Monic :=
  monic_X_pow_add (ofBits_degree_lt w poly)

lemma modulus_degree (w : ℕ) (poly : ℕ → Bool) : (X ^ w + ofBits w poly).degree = (w : WithBot ℕ) := by
  have hlt : (ofBits w poly).degree < (X ^ w : (ZMod 2)[X]).degree := by
    rw [degree_X_pow]
    exact ofBits_degree_lt w poly
  rw [degree_add_eq_left_of_degree_lt hlt, degree_X_pow]

/-- One bit into a shift register with feedback. -/
def shiftIn (w : ℕ) (poly : ℕ → Bool) (bit : ℕ → Bool) (b : Bool) : ℕ → Bool :=
  fun i => (decide (0 < i) && bit (i - 1)) ^^ ((bit (w - 1) ^^ b) && poly i)

/-- The register is long division by `X ^ w + poly`, the bit taken in at the place of `X ^ w`. -/
lemma ofBits_shiftIn {w : ℕ} (hw : 0 < w) (poly bit : ℕ → Bool) (b : Bool) :
    ofBits w (shiftIn w poly bit b) =
      (ofBits w bit * X + C (digit b) * X ^ w) %ₘ (X ^ w + ofBits w poly) := by
  have hfeedback : ofBits w (fun i => (bit (w - 1) ^^ b) && poly i) =
      C (digit (bit (w - 1) ^^ b)) * ofBits w poly := by
    ext n
    rw [coeff_C_mul, coeff_ofBits, coeff_ofBits]
    cases bit (w - 1) ^^ b <;> simp [digit]
  have hsum : ofBits w (shiftIn w poly bit b) + (X ^ w + ofBits w poly) * C (digit (bit (w - 1) ^^ b)) =
      ofBits w bit * X + C (digit b) * X ^ w := by
    have htwice : C (digit (bit (w - 1) ^^ b)) * ofBits w poly + ofBits w poly * C (digit (bit (w - 1) ^^ b)) = 0 := by
      rw [mul_comm, CharTwo.add_self_eq_zero]
    unfold shiftIn
    rw [ofBits_xor, hfeedback, ofBits_mul_X hw]
    simp only [digit_xor, map_add] at htwice ⊢
    linear_combination htwice
  have hdegree : (ofBits w (shiftIn w poly bit b)).degree < (X ^ w + ofBits w poly).degree := by
    rw [modulus_degree]
    exact ofBits_degree_lt w _
  exact (div_modByMonic_unique _ _ (modulus_monic w poly) ⟨hsum, hdegree⟩).2.symm

end Remainder

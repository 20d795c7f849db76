import Mathlib.Tactic.Common
import Mathlib.Algebra.Ring.Nat

/-!
# Ones' complement sums

Addition with an end-around carry. In `0..m` it is addition modulo `m`, where 0 and `m` are both zero
and only a sum of zeros is 0.
-/

namespace OnesComplement

/-- Addition in `0..m`, the carry added back at the low end. -/
def add (m a b : Nat) : Nat := if a + b > m then a + b - m else a + b

/-- The sum of some numbers in `0..m`. -/
def sum (m : Nat) (ns : List Nat) : Nat := ns.foldl (add m) 0

/-- The number in `0..m` that stands for `n`. -/
def rep (m n : Nat) : Nat := if n = 0 then 0 else (n - 1) % m + 1

variable {m a b n : Nat}

lemma rep_le (hm : 0 < m) (n : Nat) : rep m n ≤ m := by
  unfold rep
  split_ifs
  · exact Nat.zero_le m
  · exact Nat.mod_lt _ hm

lemma rep_of_le (h : n ≤ m) : rep m n = n := by
  unfold rep
  split_ifs with h0
  · exact h0.symm
  · rw [Nat.mod_eq_of_lt (by omega)]
    omega

lemma rep_eq_zero : rep m n = 0 ↔ n = 0 := by
  unfold rep
  split_ifs with h0
  · simp [h0]
  · simp [h0]

/-- Taking `m` off changes nothing while something is left. -/
lemma rep_sub (h : m < n) : rep m (n - m) = rep m n := by
  unfold rep
  rw [if_neg (by omega), if_neg (by omega), show n - 1 = n - m - 1 + m by omega, Nat.add_mod_right]

lemma rep_add_mul (k : Nat) (h : 0 < a) : rep m (a + k * m) = rep m a := by
  unfold rep
  rw [if_neg (by omega), if_neg (by omega), show a + k * m - 1 = a - 1 + m * k by rw [Nat.mul_comm]; omega,
    Nat.add_mul_mod_self_left]

lemma exists_rep (n : Nat) : ∃ k, n = rep m n + k * m := by
  unfold rep
  split_ifs with h0
  · exact ⟨0, by omega⟩
  · refine ⟨(n - 1) / m, ?_⟩
    have h := Nat.mod_add_div (n - 1) m
    rw [Nat.mul_comm] at h
    omega

/-- A number may be replaced by what stands for it. -/
lemma rep_rep_add (a b : Nat) : rep m (rep m a + b) = rep m (a + b) := by
  by_cases ha : a = 0
  · simp [ha, rep]
  obtain ⟨k, hk⟩ := exists_rep (m := m) a
  have hpos : rep m a ≠ 0 := fun h => ha (rep_eq_zero.mp h)
  have hsplit : a + b = rep m a + b + k * m := by omega
  rw [hsplit, rep_add_mul k (by omega)]

lemma add_eq_rep (ha : a ≤ m) (hb : b ≤ m) : add m a b = rep m (a + b) := by
  unfold add
  split_ifs with h
  · rw [← rep_sub h, rep_of_le (by omega)]
  · exact (rep_of_le (by omega)).symm

lemma foldl_add {ns : List Nat} (hm : 0 < m) (h : ∀ n ∈ ns, n ≤ m) (a : Nat) :
    ns.foldl (add m) (rep m a) = rep m (a + ns.sum) := by
  induction ns generalizing a with
  | nil => rfl
  | cons n ns ih =>
    have hn : n ≤ m := h n List.mem_cons_self
    rw [List.foldl_cons, add_eq_rep (rep_le hm a) hn, rep_rep_add,
      ih (fun k hk => h k (List.mem_cons_of_mem _ hk)), List.sum_cons, Nat.add_assoc]

lemma sum_eq_rep {ns : List Nat} (hm : 0 < m) (h : ∀ n ∈ ns, n ≤ m) : sum m ns = rep m ns.sum := by
  have hfold := foldl_add hm h 0
  rw [Nat.zero_add, rep_of_le (Nat.zero_le m)] at hfold
  exact hfold

/-- Adding the high part to the low part keeps the number that is stood for. -/
lemma rep_fold (n : Nat) : rep m (n % (m + 1) + n / (m + 1)) = rep m n := by
  generalize hlow : n % (m + 1) = low
  generalize hhigh : n / (m + 1) = high
  have hdiv : n = low + high + high * m := by
    have h := Nat.mod_add_div n (m + 1)
    rw [hlow, hhigh, Nat.succ_mul, Nat.mul_comm m high] at h
    omega
  by_cases h : low + high = 0
  · obtain ⟨rfl, rfl⟩ : low = 0 ∧ high = 0 := by omega
    rw [hdiv, Nat.zero_mul]
  · conv_rhs => rw [hdiv]
    exact (rep_add_mul high (by omega)).symm

end OnesComplement

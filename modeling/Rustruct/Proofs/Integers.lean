import Rustruct.Pack
import Mathlib.Tactic.Positivity

/-!
# Integers as bytes

What `uintBytes` writes, `readUint` reads, and the other way round.
-/

namespace Rustruct

/-- The value of bytes, the lowest first. -/
def leValue : Bytes → Nat
  | [] => 0
  | b :: bs => leValue bs * 256 + b.toNat

/-- The `w` low bytes of `v`, the lowest first. -/
def leBytes : Nat → Nat → Bytes
  | 0, _ => []
  | w + 1, v => UInt8.ofNat v :: leBytes w (v / 256)

lemma leBytes_eq_map (w v : Nat) :
    leBytes w v = (List.range w).map fun i => UInt8.ofNat (v / 2 ^ (i * 8)) := by
  induction w generalizing v with
  | zero => rfl
  | succ w ih =>
    rw [leBytes, ih, List.range_succ_eq_map, List.map_cons, List.map_map]
    congr 1
    · simp
    · apply List.map_congr_left
      intro i _
      simp only [Function.comp_apply, Nat.div_div_eq_div_mul]
      rw [show (256 : Nat) = 2 ^ 8 from rfl, ← pow_add]
      congr 3
      omega

lemma leValue_leBytes (w v : Nat) : leValue (leBytes w v) = v % 256 ^ w := by
  induction w generalizing v with
  | zero => simp [leBytes, leValue, Nat.mod_one]
  | succ w ih =>
    have hb : (UInt8.ofNat v).toNat = v % 256 := by simp
    rw [leBytes, leValue, ih, hb, pow_succ', Nat.mod_mul]
    omega

lemma leValue_lt (bs : Bytes) : leValue bs < 256 ^ bs.length := by
  induction bs with
  | nil => simp [leValue]
  | cons b bs ih =>
    have := b.toNat_lt
    rw [leValue, List.length_cons, pow_succ]
    omega

lemma leBytes_leValue (bs : Bytes) : leBytes bs.length (leValue bs) = bs := by
  induction bs with
  | nil => rfl
  | cons b bs ih =>
    have hlt := b.toNat_lt
    have hdiv : (leValue bs * 256 + b.toNat) / 256 = leValue bs := by omega
    rw [List.length_cons, leBytes, leValue, hdiv, ih]
    congr 1
    apply UInt8.toNat_inj.mp
    simp only [UInt8.toNat_ofNat']
    omega

lemma readUint_eq (raw : Bytes) (be : Bool) :
    readUint raw be = leValue (if be then raw.reverse else raw) := by
  have h : ∀ l : Bytes, l.reverse.foldl (fun v b => v * 256 + b.toNat) 0 = leValue l := by
    intro l
    induction l with
    | nil => rfl
    | cons b l ih => rw [List.reverse_cons, List.foldl_append, ih]; rfl
  cases be with
  | true => simpa [readUint] using h raw.reverse
  | false => simpa [readUint] using h raw

lemma uintBytes_eq (w : Nat) (be : Bool) (v : Nat) :
    uintBytes w be v = if be then (leBytes w v).reverse else leBytes w v := by
  cases be with
  | true =>
    rw [if_pos rfl, leBytes_eq_map]
    apply List.ext_getElem
    · simp [uintBytes]
    · intro i h₁ h₂
      simp [uintBytes]
  | false =>
    rw [if_neg (by simp), leBytes_eq_map]
    rfl

@[simp] lemma uintBytes_length (w : Nat) (be : Bool) (v : Nat) : (uintBytes w be v).length = w := by
  cases be <;> simp [uintBytes]

lemma readUint_lt (raw : Bytes) (be : Bool) : readUint raw be < 256 ^ raw.length := by
  rw [readUint_eq]
  cases be with
  | true => simpa using leValue_lt raw.reverse
  | false => exact leValue_lt raw

lemma readUint_uintBytes {w v : Nat} (be : Bool) (h : v < 256 ^ w) :
    readUint (uintBytes w be v) be = v := by
  rw [readUint_eq, uintBytes_eq]
  cases be <;> simp [leValue_leBytes, Nat.mod_eq_of_lt h]

lemma uintBytes_readUint (raw : Bytes) (be : Bool) :
    uintBytes raw.length be (readUint raw be) = raw := by
  rw [readUint_eq, uintBytes_eq]
  cases be with
  | true =>
    have h := leBytes_leValue raw.reverse
    rw [List.length_reverse] at h
    simp [h]
  | false => simpa using leBytes_leValue raw

/-! ### Signed integers -/

lemma testBit_top {n u : Nat} (h : u < 2 ^ (n + 1)) : u.testBit n = decide (2 ^ n ≤ u) := by
  rw [Nat.testBit_eq_decide_div_mod_eq]
  have hpos : 0 < 2 ^ n := Nat.two_pow_pos n
  have hlt : u / 2 ^ n < 2 := by
    rw [Nat.div_lt_iff_lt_mul hpos]
    rwa [pow_succ'] at h
  by_cases hle : 2 ^ n ≤ u
  · have hone : 1 ≤ u / 2 ^ n := (Nat.one_le_div_iff hpos).mpr hle
    rw [decide_eq_decide]
    omega
  · have hzero : u / 2 ^ n = 0 := Nat.div_eq_of_lt (Nat.lt_of_not_le hle)
    rw [decide_eq_decide]
    omega

/-- Two's complement on `n + 1` bits. -/
lemma twosComplement {n : Nat} {v : Int} (hlo : -2 ^ n ≤ v) (hhi : v < 2 ^ n) {u : Nat}
    (hu : (u : Int) = v % 2 ^ (n + 1)) :
    (if u.testBit n then (u : Int) - 2 ^ (n + 1) else (u : Int)) = v := by
  have hpow : (2 : Int) ^ (n + 1) = 2 ^ n * 2 := pow_succ 2 n
  have hpos : (0 : Int) < 2 ^ n := by positivity
  have hult : u < 2 ^ (n + 1) := by
    have hmod := Int.emod_lt_of_pos v (show (0 : Int) < 2 ^ (n + 1) by positivity)
    rw [← hu] at hmod
    exact_mod_cast hmod
  rw [testBit_top hult]
  have hcast : ((2 ^ n : Nat) : Int) = 2 ^ n := by push_cast; rfl
  by_cases hneg : v < 0
  · have hmod : v % 2 ^ (n + 1) = v + 2 ^ (n + 1) := by
      rw [← Int.add_emod_right, Int.emod_eq_of_lt] <;> omega
    have hle : 2 ^ n ≤ u := by
      rw [← Int.ofNat_le, hcast]
      omega
    rw [decide_eq_true hle, if_pos rfl]
    omega
  · have hmod : v % 2 ^ (n + 1) = v := Int.emod_eq_of_lt (by omega) (by omega)
    have hlt : ¬ 2 ^ n ≤ u := by
      rw [← Int.ofNat_le, hcast]
      omega
    rw [decide_eq_false hlt, if_neg (by simp)]
    omega

@[simp] lemma intBytes_length (prim : IntPrim) (be : Bool) (v : Int) :
    (intBytes prim be v).length = prim.width := uintBytes_length _ _ _

lemma readUint_intBytes (prim : IntPrim) (be : Bool) (v : Int) :
    (readUint (intBytes prim be v) be : Int) = v % 2 ^ (prim.width * 8) := by
  have hpow : (256 : Nat) ^ prim.width = 2 ^ (prim.width * 8) := by
    rw [show (256 : Nat) = 2 ^ 8 from rfl, ← pow_mul, Nat.mul_comm]
  have hlt : asU64 v % 2 ^ (prim.width * 8) < 256 ^ prim.width := by
    rw [hpow]
    exact Nat.mod_lt _ (Nat.two_pow_pos _)
  rw [intBytes, readUint_uintBytes be hlt]
  have hnn : 0 ≤ v % 2 ^ 64 := Int.emod_nonneg _ (by decide)
  have hdvd : (2 : Int) ^ (prim.width * 8) ∣ 2 ^ 64 := by
    apply pow_dvd_pow
    cases prim <;> decide
  rw [Int.natCast_mod, asU64, Int.toNat_of_nonneg hnn, Nat.cast_pow]
  exact Int.emod_emod_of_dvd v hdvd

/-- An integer in the range of its type is read as it was written. -/
lemma readInt_intBytes {prim : IntPrim} {v : Int} (be : Bool) (hlo : prim.min ≤ v)
    (hhi : v ≤ prim.max) : readInt prim be (intBytes prim be v) = v := by
  have hu := readUint_intBytes prim be v
  unfold readInt
  cases hs : prim.signed with
  | false =>
    simp only [IntPrim.min, IntPrim.max, hs, Bool.false_eq_true, if_false] at hlo hhi ⊢
    rw [hu]
    apply Int.emod_eq_of_lt hlo
    omega
  | true =>
    simp only [IntPrim.min, IntPrim.max, hs, if_true] at hlo hhi ⊢
    simp only [readSint, intBytes_length]
    have hwide : ∀ n, prim.width * 8 = n + 1 → n + 1 < 64 → -2 ^ n ≤ v → v < 2 ^ n →
        (if prim.width * 8 < 64 then
          if (readUint (intBytes prim be v) be).testBit (prim.width * 8 - 1) then
            (readUint (intBytes prim be v) be : Int) - 2 ^ (prim.width * 8)
          else readUint (intBytes prim be v) be
        else if (readUint (intBytes prim be v) be : Int) > i64Max then
          asI64 (readUint (intBytes prim be v) be) else readUint (intBytes prim be v) be) = v := by
      intro n hn hlt hlo hhi
      rw [hn] at hu ⊢
      rw [if_pos hlt, Nat.add_sub_cancel]
      exact twosComplement hlo hhi hu
    cases prim with
    | i8 => exact hwide 7 rfl (by decide) hlo (Int.lt_of_le_sub_one hhi)
    | i16 => exact hwide 15 rfl (by decide) hlo (Int.lt_of_le_sub_one hhi)
    | i32 => exact hwide 31 rfl (by decide) hlo (Int.lt_of_le_sub_one hhi)
    | i64 =>
      have hbits : ¬ IntPrim.i64.width * 8 < 64 := by decide
      rw [if_neg hbits]
      have hmod : (v % 2 ^ (IntPrim.i64.width * 8)) = v % 2 ^ 64 := rfl
      rw [hu, hmod]
      have hlo' : -2 ^ 63 ≤ v := hlo
      have hhi' : v ≤ 2 ^ 63 - 1 := hhi
      unfold asI64 i64Max
      split_ifs with h
      · have hcast : (2 : Int) ^ 64 = ((2 ^ 64 : Nat) : Int) := by decide
        rw [hcast, Int.emod_bmod]
        apply Int.bmod_eq_of_le <;> omega
      · omega
    | _ => cases hs

end Rustruct

import Mathlib.Tactic.Common
import Mathlib.Data.Int.Basic
import Mathlib.Algebra.Ring.Int.Defs
import Mathlib.Algebra.Ring.Nat

/-!
# Machine integers

`i64` and `i128` values are `Int`, `usize` and `u64` values are `Nat`. Where an operation
of the code can leave its type, the operation is one of those below.
-/

namespace Rustruct

abbrev Byte := UInt8
abbrev Bytes := List Byte

def i64Min : Int := -(2 ^ 63)
def i64Max : Int := 2 ^ 63 - 1

/-- `usize` of a 64-bit target. -/
def usizeSize : Nat := 2 ^ 64

def usizeMax : Nat := usizeSize - 1

/-- The largest length of a slice or a vector. -/
def isizeMax : Nat := 2 ^ 63 - 1

def InI64 (v : Int) : Prop := i64Min ≤ v ∧ v ≤ i64Max

instance (v : Int) : Decidable (InI64 v) := by
  unfold InI64
  infer_instance

/-- `i64::try_from`, and the result of a checked operation. -/
def checkedI64 (v : Int) : Option Int :=
  if InI64 v then some v else none

/-- `v as i64`: the low 64 bits, read as two's complement. -/
def asI64 (v : Int) : Int := Int.bmod v (2 ^ 64)

/-- `v as u64`. -/
def asU64 (v : Int) : Nat := (v % 2 ^ 64).toNat

/-- `a + b` on `usize` without overflow checks. -/
def wrapAdd (a b : Nat) : Nat := (a + b) % usizeSize

def u32Size : Nat := 2 ^ 32

/-- `a + b` on `u32` without overflow checks. -/
def wrapAddU32 (a b : Nat) : Nat := (a + b) % u32Size

/-- `a.saturating_add(b)` -/
def satAdd (a b : Nat) : Nat := min (a + b) usizeMax

/-- `a.saturating_mul(b)` -/
def satMul (a b : Nat) : Nat := min (a * b) usizeMax

/-- `a.checked_mul(b)` -/
def checkedMul (a b : Nat) : Option Nat :=
  if a * b ≤ usizeMax then some (a * b) else none

lemma wrapAddU32_of_lt {a b : Nat} (h : a + b < u32Size) : wrapAddU32 a b = a + b := Nat.mod_eq_of_lt h

lemma wrapAddU32_lt (a b : Nat) : wrapAddU32 a b < u32Size := Nat.mod_lt _ (by decide)

lemma isizeMax_lt_usizeMax : isizeMax < usizeMax := by decide

lemma le_satAdd {a b n : Nat} (h : n ≤ a + b) (hn : n ≤ usizeMax) : n ≤ satAdd a b :=
  Nat.le_min.mpr ⟨h, hn⟩

lemma checkedI64_eq_some {v w : Int} : checkedI64 v = some w ↔ InI64 v ∧ v = w := by
  simp [checkedI64]

lemma asI64_of_inI64 {v : Int} (h : InI64 v) : asI64 v = v := by
  unfold InI64 i64Min i64Max at h
  unfold asI64
  apply Int.bmod_eq_of_le <;> omega

lemma inI64_asI64 (v : Int) : InI64 (asI64 v) := by
  have hlo := Int.le_bmod (x := v) (m := 2 ^ 64) (by decide)
  have hhi := Int.bmod_lt (x := v) (m := 2 ^ 64) (by decide)
  unfold InI64 i64Min i64Max asI64
  omega

end Rustruct

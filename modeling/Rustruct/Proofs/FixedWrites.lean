import Rustruct.Proofs.ReadBack
import Rustruct.Proofs.Items
import Rustruct.Proofs.Patching

/-!
# Fixed fields and bits fields, written

A fixed field that is not derived is its bytes and the integer for its register. From the bytes it is read
as a value, and that value is written as the same bytes.
-/

namespace Rustruct

open BitStream

/-- A field whose integer comes from the content of another one. -/
def FixKind.reserved : FixKind → Bool
  | .int _ _ none derived => derived
  | _ => false

/-- A float of 32 bits is not what was given. -/
def FixKind.narrows : FixKind → Bool
  | .f32 _ => true
  | _ => false

/-- The bytes of a fixed field, and the integer for its register. -/
def FixedItem.write (item : FixedItem) (pos : Nat) (v : Option Value) (out : Bytes) : PRes (Bytes × Option Int) :=
  match item.kind with
  | .int prim be expected _ => do
    let val ← expected.elim (inputOf v item.key Value.asInt 0) .ok
    let out ← writeIntAt out pos prim be val
    .ok (out, some val)
  | .f32 be => do
    let f ← inputOf v item.key Value.asFloat 0
    let out ← writeUintAt out pos 4 be (narrow f)
    .ok (out, none)
  | .f64 be => do
    let f ← inputOf v item.key Value.asFloat 0
    let out ← writeUintAt out pos 8 be f.toNat
    .ok (out, none)
  | .bool expected => do
    let val ← packBool expected item v
    let out ← copyAt out pos [if val then 1 else 0]
    .ok (out, none)
  | .raw len expected => do
    let out ← packRaw pos len expected item v out
    .ok (out, none)

/-- The integer of a field into its register. -/
def PCtx.note (ctx : PCtx) (reg : Option Nat) (n : Option Int) : PRes PCtx :=
  n.elim (.ok ctx) fun n => ctx.setReg reg (asI64 n)

section Items

variable {base : Nat} {item : FixedItem} {v : Option Value} {ctx : PCtx}

lemma packFixedItem_eq (h : item.kind.reserved = false) :
    packFixedItem base item v ctx = (do
      let pos := wrapAdd base item.off
      let w ← item.write pos v ctx.out
      let next ← { ctx with out := w.1 }.note item.reg w.2
      next.setSpan item.span pos (pos + item.kind.width)) := by
  obtain ⟨off, kind, reg, span, key⟩ := item
  have hassoc : ∀ {α β γ : Type} (x : PRes α) (f : α → PRes β) (g : β → PRes γ),
      x >>= f >>= g = x >>= fun a => f a >>= g :=
    fun x f g => bind_assoc x f g
  cases kind with
  | int prim be expected derived =>
    cases expected with
    | some exp =>
      simp only [packFixedItem, packInt, FixedItem.write, PCtx.note, Option.elim_some, hassoc, Exec.bind_ok,
        FixKind.width]
    | none =>
      obtain rfl : derived = false := h
      simp only [packFixedItem, packInt, FixedItem.write, PCtx.note, Option.elim_some, Option.elim_none, hassoc,
        Exec.bind_ok, FixKind.width, Bool.false_eq_true, if_false]
  | f32 | f64 | bool | raw =>
    simp only [packFixedItem, FixedItem.write, PCtx.note, Option.elim_none, hassoc, Exec.bind_ok, FixKind.width]

lemma packFixedItem_reserved (base : Nat) (item : FixedItem) (v : Option Value) (ctx : PCtx)
    (h : item.kind.reserved = true) : ∃ prim be, item.kind.width = prim.width ∧
    (∀ data, item.kind.accepts data = true) ∧ (∀ data, item.kind.value data = .int (readInt prim be data)) ∧
    packFixedItem base item v ctx = (do
      let pos := wrapAdd base item.off
      let next ← ctx.reserve item.reg (.int pos prim be)
      next.setSpan item.span pos (pos + prim.width)) := by
  obtain ⟨off, kind, reg, span, key⟩ := item
  cases kind with
  | int prim be expected derived =>
    cases expected with
    | some exp => cases h
    | none =>
      obtain rfl : derived = true := h
      exact ⟨prim, be, rfl, fun _ => rfl, fun _ => rfl, rfl⟩
  | f32 | f64 | bool | raw => cases h

end Items

section Write

variable {pos : Nat} {item : FixedItem} {v : Option Value} {ctx : PCtx} {out : Bytes} {n : Option Int}

lemma inputOf_some {α : Type} (key : Key) {read : Value → Option α} (zero : α) {a : α} {val : Value}
    (h : read val = some a) :
    inputOf (some val) key read zero = .ok a := by
  rw [inputOf, h]

lemma writeIntAt_of_copy {out out' : Bytes} {pos : Nat} {prim : IntPrim} {be : Bool} {x : Int}
    (h : writeIntAt out pos prim be x = .ok out') :
    prim.min ≤ x ∧ x ≤ prim.max ∧ copyAt out pos (intBytes prim be x) = .ok out' := by
  obtain ⟨⟨hlo, hhi⟩, hcopy⟩ := writeIntAt_eq_ok h
  exact ⟨hlo, hhi, hcopy⟩

/-- What is written of a field is there, it is read as a value, and that value is written the same. -/
structure FixedBack (item : FixedItem) (pos : Nat) (v : Option Value) (out out' : Bytes) (n : Option Int) : Prop where
  accepts : item.kind.accepts ((out'.drop pos).take item.kind.width) = true
  int : item.kind.int? ((out'.drop pos).take item.kind.width) = n
  again : ∀ v', v' = v ∨ item.kind.narrows = false ∧
    v' = some (item.kind.value ((out'.drop pos).take item.kind.width)) ∧
    (v.isSome ∨ item.key.name.isSome) → item.write pos v' out = .ok (out', n)

lemma FixedItem.write_copy (item : FixedItem) {data : Bytes} (hs : ctx.Sound (8 * pos))
    (hdata : data.length = item.kind.width) (hcopy : copyAt ctx.out pos data = .ok out) :
    Moves FrameKept (8 * pos) ctx (8 * (pos + item.kind.width)) { ctx with out } ∧
      (out.drop pos).take item.kind.width = data := by
  rw [← hdata]
  exact ⟨hs.copyAt hcopy, copyAt_slice hcopy⟩

lemma FixedItem.write_spec (hs : ctx.Sound (8 * pos)) (hfit : pos + item.kind.width ≤ ctx.out.length)
    (h : item.write pos v ctx.out = .ok (out, n)) :
    Moves FrameKept (8 * pos) ctx (8 * (pos + item.kind.width)) { ctx with out } ∧
      FixedBack item pos v ctx.out out n := by
  obtain ⟨off, kind, reg, span, key⟩ := item
  cases kind with
  | int prim be expected derived =>
    obtain ⟨x, hx, hw⟩ := Exec.bind_eq_ok.mp h
    obtain ⟨out', hout, hw⟩ := Exec.bind_eq_ok.mp hw
    cases hw
    obtain ⟨hlo, hhi, hcopy⟩ := writeIntAt_of_copy hout
    obtain ⟨hmoves, hslice⟩ := FixedItem.write_copy ⟨off, .int prim be expected derived, reg, span, key⟩ hs
      (intBytes_length prim be x) hcopy
    have hread := readInt_intBytes be hlo hhi
    refine ⟨hmoves, ?_, ?_, ?_⟩
    · rw [hslice]
      cases expected with
      | none => rfl
      | some exp =>
        cases hx
        exact decide_eq_true hread.symm
    · rw [hslice]
      exact congrArg some hread
    · rintro v' (rfl | ⟨-, rfl, -⟩)
      · exact h
      · rw [hslice]
        refine Exec.bind_eq_ok.mpr ⟨x, ?_, Exec.bind_eq_ok.mpr ⟨out, hout, rfl⟩⟩
        cases expected with
        | none =>
          have hint : (Value.int (readInt prim be (intBytes prim be x))).asInt = some x := congrArg some hread
          exact inputOf_some key 0 hint
        | some exp => exact hx
  | f32 be =>
    obtain ⟨x, hx, hw⟩ := Exec.bind_eq_ok.mp h
    obtain ⟨out', hout, hw⟩ := Exec.bind_eq_ok.mp hw
    cases hw
    obtain ⟨hmoves, -⟩ := FixedItem.write_copy ⟨off, .f32 be, reg, span, key⟩ hs (uintBytes_length 4 be (narrow x)) hout
    refine ⟨hmoves, rfl, rfl, ?_⟩
    rintro v' (rfl | ⟨hno, -⟩)
    · exact h
    · cases hno
  | f64 be =>
    obtain ⟨x, hx, hw⟩ := Exec.bind_eq_ok.mp h
    obtain ⟨out', hout, hw⟩ := Exec.bind_eq_ok.mp hw
    cases hw
    obtain ⟨hmoves, hslice⟩ := FixedItem.write_copy ⟨off, .f64 be, reg, span, key⟩ hs
      (uintBytes_length 8 be x.toNat) hout
    have hread : readUint (uintBytes 8 be x.toNat) be = x.toNat := readUint_uintBytes be x.toNat_lt
    refine ⟨hmoves, rfl, rfl, ?_⟩
    rintro v' (rfl | ⟨-, rfl, -⟩)
    · exact h
    · rw [hslice]
      refine Exec.bind_eq_ok.mpr ⟨x, inputOf_some key 0 ?_, Exec.bind_eq_ok.mpr ⟨out, hout, rfl⟩⟩
      rw [FixKind.value, hread, UInt64.ofNat_toNat]
      rfl
  | bool expected =>
    obtain ⟨x, hx, hw⟩ := Exec.bind_eq_ok.mp h
    obtain ⟨out', hout, hw⟩ := Exec.bind_eq_ok.mp hw
    cases hw
    obtain ⟨hmoves, hslice⟩ := FixedItem.write_copy ⟨off, .bool expected, reg, span, key⟩ hs rfl hout
    have hread : ([if x then 1 else 0] : Bytes).any (fun b => b != 0) = x := by cases x <;> rfl
    refine ⟨hmoves, ?_, rfl, ?_⟩
    · rw [hslice]
      cases expected with
      | none => rfl
      | some exp =>
        cases hx
        exact decide_eq_true hread.symm
    · rintro v' (rfl | ⟨-, rfl, -⟩)
      · exact h
      · rw [hslice]
        refine Exec.bind_eq_ok.mpr ⟨x, ?_, Exec.bind_eq_ok.mpr ⟨out, hout, rfl⟩⟩
        cases expected with
        | none =>
          have hbool : (Value.bool (([if x then 1 else 0] : Bytes).any fun b => b != 0)).truthy = some x :=
            congrArg some hread
          exact inputOf_some key false hbool
        | some exp => exact hx
  | raw len expected =>
    obtain ⟨out', hout, hw⟩ := Exec.bind_eq_ok.mp h
    cases hw
    have hback : ∀ data : Bytes, data.length = len → copyAt ctx.out pos data = .ok out →
        Moves FrameKept (8 * pos) ctx (8 * (pos + len)) { ctx with out } ∧ (out.drop pos).take len = data := by
      intro data hdata hcopy
      rw [← hdata]
      exact ⟨hs.copyAt hcopy, copyAt_slice hcopy⟩
    cases expected with
    | some exp =>
      rw [packRaw] at hout
      split_ifs at hout with hlen
      · cases hout
      · obtain ⟨hmoves, hslice⟩ := hback exp (not_not.mp hlen) hout
        refine ⟨hmoves, ?_, rfl, ?_⟩
        · rw [show FixKind.width (.raw len (some exp)) = len from rfl, hslice]
          exact decide_eq_true rfl
        · rintro v' -
          exact h
    | none =>
      cases v with
      | some val =>
        rw [packRaw] at hout
        cases hval : val.asBytes with
        | none =>
          rw [hval] at hout
          cases hout
        | some b =>
          rw [hval] at hout
          dsimp only at hout
          split_ifs at hout with hlen
          · cases hout
          · obtain ⟨hmoves, hslice⟩ := hback b (not_not.mp hlen) hout
            refine ⟨hmoves, rfl, rfl, ?_⟩
            rintro v' (rfl | ⟨-, rfl, -⟩)
            · exact h
            · rw [show FixKind.width (.raw len none) = len from rfl, hslice]
              refine Exec.bind_eq_ok.mpr ⟨out, ?_, rfl⟩
              rw [packRaw]
              dsimp only [FixKind.value, Value.asBytes]
              rw [if_neg hlen, hout]
      | none =>
        rw [packRaw] at hout
        split_ifs at hout with hname
        · cases hout
        · cases hout
          refine ⟨hs.skip (by omega) (by omega), rfl, rfl, ?_⟩
          rintro v' (rfl | ⟨-, -, hno | hyes⟩)
          · exact h
          · cases hno
          · exact absurd hyes hname

end Write

end Rustruct

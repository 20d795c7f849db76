import Rustruct.Digest
import Rustruct.Expr

/-! # Compiled programs -/

namespace Rustruct

inductive IntPrim where
  | u8 | i8 | u16 | i16 | u32 | i32 | u64 | i64
  deriving DecidableEq, Repr

namespace IntPrim

def width : IntPrim → Nat
  | .u8 | .i8 => 1
  | .u16 | .i16 => 2
  | .u32 | .i32 => 4
  | .u64 | .i64 => 8

def signed : IntPrim → Bool
  | .i8 | .i16 | .i32 | .i64 => true
  | _ => false

def min (p : IntPrim) : Int :=
  if p.signed then -(2 ^ (p.width * 8 - 1)) else 0

def max (p : IntPrim) : Int :=
  if p.signed then 2 ^ (p.width * 8 - 1) - 1 else 2 ^ (p.width * 8) - 1

/-- `{:?}` -/
def debug : IntPrim → String
  | .u8 => "U8" | .i8 => "I8" | .u16 => "U16" | .i16 => "I16"
  | .u32 => "U32" | .i32 => "I32" | .u64 => "U64" | .i64 => "I64"

end IntPrim

inductive Key where
  | named (n : String)
  | skip
  deriving DecidableEq, Repr

def Key.name : Key → Option String
  | .named n => some n
  | .skip => none

/-- The key of a field with this name. -/
def keyOf : Option String → Key
  | some n => .named n
  | none => .skip

/-- The common part of dynamic opcodes: the result key and the span register, written
when the field is covered by some digest. -/
structure Common where
  key : Key
  span : Option Nat
  deriving DecidableEq, Repr

def Common.named (n : String) : Common := { key := .named n, span := none }
def Common.skip : Common := { key := .skip, span := none }

inductive Enc where
  | utf8 | ascii | latin1
  deriving DecidableEq, Repr

/-- Text encodings a `str` or `cstr` field can use. -/
def encodings : ClosedSet Enc where
  what := "encoding"
  allowed := "utf-8/ascii/latin-1"
  eq := looseEq
  names := [("utf-8", .utf8), ("ascii", .ascii), ("latin-1", .latin1)]
  aliases := [("us-ascii", .ascii), ("iso-8859-1", .latin1)]

inductive RestPolicy where
  | keep | strict | ignore
  deriving DecidableEq, Repr

/-- What a `flags` field does with bits no name in it covers. -/
def restPolicies : ClosedSet RestPolicy where
  what := "rest policy"
  allowed := "keep/strict/ignore"
  eq := (· == ·)
  names := [("keep", .keep), ("strict", .strict), ("ignore", .ignore)]
  aliases := []

/-- Inversion of the linear expression `value = a*x + b`: during pack the derived
register `reg` receives `x = (value - b) / a`. -/
structure Inv where
  reg : Reg
  a : Int
  b : Int
  deriving DecidableEq, Repr

inductive LenSrc where
  | expr (expr : Expr) (inv : Option Inv)
  | greedy
  deriving DecidableEq, Repr

inductive CountSrc where
  | expr (expr : Expr) (inv : Option Inv)
  | untilEof
  deriving DecidableEq, Repr

inductive FixKind where
  | int (prim : IntPrim) (be : Bool) (expected : Option Int) (derived : Bool)
  | f32 (be : Bool)
  | f64 (be : Bool)
  | bool (expected : Option Bool)
  | raw (len : Nat) (expected : Option Bytes)
  deriving DecidableEq, Repr

def FixKind.width : FixKind → Nat
  | .int prim _ _ _ => prim.width
  | .f32 _ => 4
  | .f64 _ => 8
  | .bool _ => 1
  | .raw len _ => len

structure FixedItem where
  off : Nat
  kind : FixKind
  /-- Index of the value register in the field's own frame. -/
  reg : Option Nat
  span : Option Nat
  key : Key
  deriving DecidableEq, Repr

structure BitItem where
  width : Nat
  signed : Bool
  reg : Option Nat
  derived : Bool
  key : Key
  deriving DecidableEq, Repr

/-- The bits of the items of a run. -/
def bitWidth (items : List BitItem) : Nat := (items.map BitItem.width).sum

lemma bitWidth_cons (item : BitItem) (items : List BitItem) :
    bitWidth (item :: items) = item.width + bitWidth items := rfl

structure FlagItem where
  key : String
  mask : U64
  shift : Nat
  /-- A single-bit mask, whose value is a bool. -/
  isBool : Bool
  deriving DecidableEq, Repr

inductive Over where
  | star
  /-- Span registers in the order they appear in `over`. -/
  | spans (idxs : List Nat)
  deriving DecidableEq, Repr

mutual

inductive Op where
  /-- A coalesced run of fixed fields: a single bounds check. -/
  | fixed (width : Nat) (items : List FixedItem)
  | bytes (len : LenSrc) (max : Nat) (c : Common)
  | str (len : LenSrc) (max : Nat) (enc : Enc) (c : Common)
  | cstr (max : Nat) (enc : Enc) (c : Common)
  /-- Merged bits fields, most significant bit first. -/
  | bitRun (nbytes : Nat) (items : List BitItem)
  | flags (prim : IntPrim) (be : Bool) (items : List FlagItem) (rest : RestPolicy)
      (restMask : U64) (c : Common)
  | digest (algo : Algo) (overs : Over) (verify : Bool) (be : Bool) (c : Common)
  | nest (prog : Program) (size : Option LenSrc) (c : Common)
  | array (count : CountSrc) (maxCount : Nat) (elem : Op) (elemMin : Nat) (c : Common)
  | switch (on : Expr) (cases : List (Int × Op)) (default : Option Op) (c : Common)
  /-- A conditionally-present field: absent when `pred` evaluates to 0. -/
  | cond (pred : Expr) (thn : Op) (c : Common)

inductive Program where
  | mk (ops : List Op) (nregs nspans minSize : Nat) (staticSize : Option Nat)

end

namespace Program

def ops : Program → List Op
  | .mk ops _ _ _ _ => ops

def nregs : Program → Nat
  | .mk _ nregs _ _ _ => nregs

def nspans : Program → Nat
  | .mk _ _ nspans _ _ => nspans

def minSize : Program → Nat
  | .mk _ _ _ minSize _ => minSize

def staticSize : Program → Option Nat
  | .mk _ _ _ _ staticSize => staticSize

end Program

def Op.common : Op → Option Common
  | .fixed .. | .bitRun .. => none
  | .bytes _ _ c | .str _ _ _ c | .cstr _ _ c | .flags _ _ _ _ _ c | .digest _ _ _ _ c
  | .nest _ _ c | .array _ _ _ _ c | .switch _ _ _ c | .cond _ _ c => some c

/-- What has to be shown of each constructor to have `P` of every op and `Q` of every program. -/
structure OpCases (P : Op → Prop) (Q : Program → Prop) : Prop where
  fixed : ∀ width items, P (.fixed width items)
  bytes : ∀ len max c, P (.bytes len max c)
  str : ∀ len max enc c, P (.str len max enc c)
  cstr : ∀ max enc c, P (.cstr max enc c)
  bitRun : ∀ nbytes items, P (.bitRun nbytes items)
  flags : ∀ prim be items rest restMask c, P (.flags prim be items rest restMask c)
  digest : ∀ algo overs verify be c, P (.digest algo overs verify be c)
  nest : ∀ prog size c, Q prog → P (.nest prog size c)
  array : ∀ count maxCount elem elemMin c, P elem → P (.array count maxCount elem elemMin c)
  switch : ∀ on cases default c, (∀ branch ∈ cases, P branch.2) → (∀ op ∈ default, P op) →
    P (.switch on cases default c)
  cond : ∀ pred thn c, P thn → P (.cond pred thn c)
  prog : ∀ ops nregs nspans minSize staticSize, (∀ op ∈ ops, P op) →
    Q (.mk ops nregs nspans minSize staticSize)

namespace OpCases

variable {P : Op → Prop} {Q : Program → Prop}

mutual

theorem op (h : OpCases P Q) : ∀ op, P op
  | .fixed width items => h.fixed width items
  | .bytes len max c => h.bytes len max c
  | .str len max enc c => h.str len max enc c
  | .cstr max enc c => h.cstr max enc c
  | .bitRun nbytes items => h.bitRun nbytes items
  | .flags prim be items rest restMask c => h.flags prim be items rest restMask c
  | .digest algo overs verify be c => h.digest algo overs verify be c
  | .nest p size c => h.nest p size c (program h p)
  | .array count maxCount elem elemMin c => h.array count maxCount elem elemMin c (op h elem)
  | .switch on cases default c =>
    h.switch on cases default c (branches h cases) (fallback h default)
  | .cond pred thn c => h.cond pred thn c (op h thn)

theorem branches (h : OpCases P Q) : ∀ (cases : List (Int × Op)), ∀ branch ∈ cases, P branch.2
  | (_, o) :: cases, branch, hb =>
    match List.mem_cons.mp hb with
    | .inl he => he ▸ op h o
    | .inr ht => branches h cases branch ht

theorem fallback (h : OpCases P Q) : ∀ (default : Option Op), ∀ o ∈ default, P o
  | some o, _, ho => (Option.mem_some_iff.mp ho) ▸ op h o

theorem ops (h : OpCases P Q) : ∀ (os : List Op), ∀ o ∈ os, P o
  | o :: os, o', ho =>
    match List.mem_cons.mp ho with
    | .inl he => he ▸ op h o
    | .inr ht => ops h os o' ht

theorem program (h : OpCases P Q) : ∀ p, Q p
  | .mk os nregs nspans minSize staticSize =>
    h.prog os nregs nspans minSize staticSize (ops h os)

end

end OpCases

mutual

/-- `P` holds of the op and of every op in it. -/
def Op.Every (P : Op → Prop) : Op → Prop
  | .nest prog size c => P (.nest prog size c) ∧ prog.Every P
  | .array count maxCount elem elemMin c => P (.array count maxCount elem elemMin c) ∧ elem.Every P
  | .switch on cases default c =>
    P (.switch on cases default c) ∧ casesEvery P cases ∧ defaultEvery P default
  | .cond pred thn c => P (.cond pred thn c) ∧ thn.Every P
  | op => P op

def casesEvery (P : Op → Prop) : List (Int × Op) → Prop
  | [] => True
  | (_, op) :: cases => op.Every P ∧ casesEvery P cases

def defaultEvery (P : Op → Prop) : Option Op → Prop
  | none => True
  | some op => op.Every P

/-- `P` holds of every op of the program. -/
def Program.Every (P : Op → Prop) : Program → Prop
  | .mk ops _ _ _ _ => opsEvery P ops

def opsEvery (P : Op → Prop) : List Op → Prop
  | [] => True
  | op :: ops => op.Every P ∧ opsEvery P ops

end

section Every

variable {P : Op → Prop}

lemma Op.Every.here {op : Op} (h : op.Every P) : P op := by
  cases op with
  | nest | array | switch | cond => exact h.1
  | _ => exact h

lemma casesEvery_iff {cases : List (Int × Op)} :
    casesEvery P cases ↔ ∀ branch ∈ cases, branch.2.Every P := by
  induction cases with
  | nil => simp [casesEvery]
  | cons branch cases ih => simp [casesEvery, ih]

lemma defaultEvery_iff {default : Option Op} :
    defaultEvery P default ↔ ∀ op ∈ default, op.Every P := by
  cases default <;> simp [defaultEvery]

lemma opsEvery_iff {ops : List Op} : opsEvery P ops ↔ ∀ op ∈ ops, op.Every P := by
  induction ops with
  | nil => simp [opsEvery]
  | cons op ops ih => simp [opsEvery, ih]

mutual

def Op.decEvery (P : Op → Prop) [DecidablePred P] : (op : Op) → Decidable (op.Every P)
  | .nest prog size c => @instDecidableAnd _ _ (inferInstanceAs (Decidable (P (.nest prog size c))))
      (prog.decEvery P)
  | .array count maxCount elem elemMin c => @instDecidableAnd _ _
      (inferInstanceAs (Decidable (P (.array count maxCount elem elemMin c)))) (elem.decEvery P)
  | .switch on cases default c => @instDecidableAnd _ _
      (inferInstanceAs (Decidable (P (.switch on cases default c))))
      (@instDecidableAnd _ _ (decCasesEvery P cases) (decDefaultEvery P default))
  | .cond pred thn c => @instDecidableAnd _ _ (inferInstanceAs (Decidable (P (.cond pred thn c))))
      (thn.decEvery P)
  | .fixed width items => inferInstanceAs (Decidable (P (.fixed width items)))
  | .bytes len max c => inferInstanceAs (Decidable (P (.bytes len max c)))
  | .str len max enc c => inferInstanceAs (Decidable (P (.str len max enc c)))
  | .cstr max enc c => inferInstanceAs (Decidable (P (.cstr max enc c)))
  | .bitRun nbytes items => inferInstanceAs (Decidable (P (.bitRun nbytes items)))
  | .flags prim be items rest restMask c =>
    inferInstanceAs (Decidable (P (.flags prim be items rest restMask c)))
  | .digest algo overs verify be c => inferInstanceAs (Decidable (P (.digest algo overs verify be c)))

def decCasesEvery (P : Op → Prop) [DecidablePred P] :
    (cases : List (Int × Op)) → Decidable (casesEvery P cases)
  | [] => .isTrue trivial
  | (_, op) :: cases => @instDecidableAnd _ _ (op.decEvery P) (decCasesEvery P cases)

def decDefaultEvery (P : Op → Prop) [DecidablePred P] :
    (default : Option Op) → Decidable (defaultEvery P default)
  | none => .isTrue trivial
  | some op => op.decEvery P

def Program.decEvery (P : Op → Prop) [DecidablePred P] : (prog : Program) → Decidable (prog.Every P)
  | .mk ops _ _ _ _ => decOpsEvery P ops

def decOpsEvery (P : Op → Prop) [DecidablePred P] : (ops : List Op) → Decidable (opsEvery P ops)
  | [] => .isTrue trivial
  | op :: ops => @instDecidableAnd _ _ (op.decEvery P) (decOpsEvery P ops)

end

instance (P : Op → Prop) [DecidablePred P] (prog : Program) : Decidable (prog.Every P) :=
  prog.decEvery P

end Every

mutual

def Op.beq : Op → Op → Bool
  | .fixed width items, .fixed width' items' => width == width' && items == items'
  | .bytes len max c, .bytes len' max' c' => len == len' && max == max' && c == c'
  | .str len max enc c, .str len' max' enc' c' =>
    len == len' && max == max' && enc == enc' && c == c'
  | .cstr max enc c, .cstr max' enc' c' => max == max' && enc == enc' && c == c'
  | .bitRun nbytes items, .bitRun nbytes' items' => nbytes == nbytes' && items == items'
  | .flags prim be items rest restMask c, .flags prim' be' items' rest' restMask' c' =>
    prim == prim' && be == be' && items == items' && rest == rest' && restMask == restMask' && c == c'
  | .digest algo overs verify be c, .digest algo' overs' verify' be' c' =>
    algo == algo' && overs == overs' && verify == verify' && be == be' && c == c'
  | .nest prog size c, .nest prog' size' c' => prog.beq prog' && size == size' && c == c'
  | .array count maxCount elem elemMin c, .array count' maxCount' elem' elemMin' c' =>
    count == count' && maxCount == maxCount' && elem.beq elem' && elemMin == elemMin' && c == c'
  | .switch on cases default c, .switch on' cases' default' c' =>
    on == on' && casesBeq cases cases' && defaultBeq default default' && c == c'
  | .cond pred thn c, .cond pred' thn' c' => pred == pred' && thn.beq thn' && c == c'
  | _, _ => false

def casesBeq : List (Int × Op) → List (Int × Op) → Bool
  | [], [] => true
  | (tag, op) :: cases, (tag', op') :: cases' => tag == tag' && op.beq op' && casesBeq cases cases'
  | _, _ => false

def defaultBeq : Option Op → Option Op → Bool
  | none, none => true
  | some op, some op' => op.beq op'
  | _, _ => false

def Program.beq : Program → Program → Bool
  | .mk ops nregs nspans minSize staticSize, .mk ops' nregs' nspans' minSize' staticSize' =>
    opsBeq ops ops' && nregs == nregs' && nspans == nspans' && minSize == minSize' &&
      staticSize == staticSize'

def opsBeq : List Op → List Op → Bool
  | [], [] => true
  | op :: ops, op' :: ops' => op.beq op' && opsBeq ops ops'
  | _, _ => false

end

lemma casesBeq_eq {cases cases' : List (Int × Op)}
    (h : ∀ branch ∈ cases, ∀ op, branch.2.beq op → branch.2 = op) (hb : casesBeq cases cases') :
    cases = cases' := by
  induction cases generalizing cases' with
  | nil =>
    cases cases' with
    | nil => rfl
    | cons => simp [casesBeq] at hb
  | cons branch cases ih =>
    cases cases' with
    | nil => simp [casesBeq] at hb
    | cons branch' cases' =>
      obtain ⟨tag, op⟩ := branch
      obtain ⟨tag', op'⟩ := branch'
      simp only [casesBeq, Bool.and_eq_true, beq_iff_eq] at hb
      have hop : op = op' := h (tag, op) (by simp) _ hb.1.2
      rw [ih (fun b hm => h b (by simp [hm])) hb.2, hb.1.1, hop]

lemma defaultBeq_eq {default default' : Option Op}
    (h : ∀ op ∈ default, ∀ op', op.beq op' → op = op') (hb : defaultBeq default default') :
    default = default' := by
  cases default with
  | none =>
    cases default' with
    | none => rfl
    | some => simp [defaultBeq] at hb
  | some op =>
    cases default' with
    | none => simp [defaultBeq] at hb
    | some op' =>
      simp only [defaultBeq] at hb
      rw [h op rfl op' hb]

lemma opsBeq_eq {ops ops' : List Op} (h : ∀ op ∈ ops, ∀ op', op.beq op' → op = op')
    (hb : opsBeq ops ops') : ops = ops' := by
  induction ops generalizing ops' with
  | nil =>
    cases ops' with
    | nil => rfl
    | cons => simp [opsBeq] at hb
  | cons op ops ih =>
    cases ops' with
    | nil => simp [opsBeq] at hb
    | cons op' ops' =>
      simp only [opsBeq, Bool.and_eq_true] at hb
      rw [ih (fun o hm => h o (by simp [hm])) hb.2, h op (by simp) _ hb.1]

lemma beq_cases : OpCases (fun op => ∀ op', op.beq op' → op = op')
    (fun prog => ∀ prog', prog.beq prog' → prog = prog') where
  fixed _ _ op' h := by
    cases op' <;> simp only [Op.beq, Bool.and_eq_true, beq_iff_eq, Bool.false_eq_true] at h
    rw [h.1, h.2]
  bytes _ _ _ op' h := by
    cases op' <;> simp only [Op.beq, Bool.and_eq_true, beq_iff_eq, Bool.false_eq_true] at h
    rw [h.1.1, h.1.2, h.2]
  str _ _ _ _ op' h := by
    cases op' <;> simp only [Op.beq, Bool.and_eq_true, beq_iff_eq, Bool.false_eq_true] at h
    rw [h.1.1.1, h.1.1.2, h.1.2, h.2]
  cstr _ _ _ op' h := by
    cases op' <;> simp only [Op.beq, Bool.and_eq_true, beq_iff_eq, Bool.false_eq_true] at h
    rw [h.1.1, h.1.2, h.2]
  bitRun _ _ op' h := by
    cases op' <;> simp only [Op.beq, Bool.and_eq_true, beq_iff_eq, Bool.false_eq_true] at h
    rw [h.1, h.2]
  flags _ _ _ _ _ _ op' h := by
    cases op' <;> simp only [Op.beq, Bool.and_eq_true, beq_iff_eq, Bool.false_eq_true] at h
    rw [h.1.1.1.1.1, h.1.1.1.1.2, h.1.1.1.2, h.1.1.2, h.1.2, h.2]
  digest _ _ _ _ _ op' h := by
    cases op' <;> simp only [Op.beq, Bool.and_eq_true, beq_iff_eq, Bool.false_eq_true] at h
    rw [h.1.1.1.1, h.1.1.1.2, h.1.1.2, h.1.2, h.2]
  nest _ _ _ hp op' h := by
    cases op' <;> simp only [Op.beq, Bool.and_eq_true, beq_iff_eq, Bool.false_eq_true] at h
    rw [hp _ h.1.1, h.1.2, h.2]
  array _ _ _ _ _ he op' h := by
    cases op' <;> simp only [Op.beq, Bool.and_eq_true, beq_iff_eq, Bool.false_eq_true] at h
    rw [h.1.1.1.1, h.1.1.1.2, he _ h.1.1.2, h.1.2, h.2]
  switch _ _ _ _ hc hd op' h := by
    cases op' <;> simp only [Op.beq, Bool.and_eq_true, beq_iff_eq, Bool.false_eq_true] at h
    rw [h.1.1.1, casesBeq_eq hc h.1.1.2, defaultBeq_eq hd h.1.2, h.2]
  cond _ _ _ ht op' h := by
    cases op' <;> simp only [Op.beq, Bool.and_eq_true, beq_iff_eq, Bool.false_eq_true] at h
    rw [h.1.1, ht _ h.1.2, h.2]
  prog _ _ _ _ _ ho prog' h := by
    cases prog'
    simp only [Program.beq, Bool.and_eq_true, beq_iff_eq] at h
    rw [opsBeq_eq ho h.1.1.1.1, h.1.1.1.2, h.1.1.2, h.1.2, h.2]

/-- Programs that compare equal are equal. -/
lemma Program.eq_of_beq {prog prog' : Program} (h : prog.beq prog') : prog = prog' :=
  beq_cases.program prog prog' h

end Rustruct

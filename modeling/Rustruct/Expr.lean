import Rustruct.Error
import Mathlib.Data.Int.Bitwise

/-! # Postfix expression programs -/

namespace Rustruct

def maxRegs : Nat := 16
def maxSpans : Nat := 16
def maxDepth : Nat := 64

/-- A register: `up` frames above the current one, `idx` its number. -/
structure Reg where
  up : Nat
  idx : Nat
  deriving DecidableEq, Repr

inductive BinOp where
  | add | sub | mul | div | shl | shr | and | or | xor | eq | ne | lt | le | gt | ge
  deriving DecidableEq, Repr

/-- An instruction of a postfix program. All arithmetic is `i64`. -/
inductive Ins where
  | imm (n : Int)
  | reg (r : Reg)
  | op (o : BinOp)
  deriving DecidableEq, Repr

structure Expr where
  ins : List Ins
  deriving DecidableEq, Repr

def exprStack : Nat := 8

def Expr.imm (n : Int) : Expr := ⟨[.imm n]⟩

/-- The constant value, if the expression is a single `imm`. -/
def Expr.asConst (e : Expr) : Option Int :=
  match e.ins with
  | [.imm n] => some n
  | _ => none

/-- `b as i64` for a comparison. -/
def boolI64 (b : Bool) : Int := if b then 1 else 0

def okOrOverflow (v : Option Int) : Exec Kind Int :=
  match v with
  | some v => .ok v
  | none => Exec.fail .overflow

/-- One operator on two operands. -/
def BinOp.apply (op : BinOp) (a b : Int) : Exec Kind Int :=
  match op with
  | .add => okOrOverflow (checkedI64 (a + b))
  | .sub => okOrOverflow (checkedI64 (a - b))
  | .mul => okOrOverflow (checkedI64 (a * b))
  | .div => if b = 0 then Exec.fail .divZero else okOrOverflow (checkedI64 (a.tdiv b))
  -- `checked_shl` only rejects the amount: bits shifted out are lost without an error.
  | .shl => if 0 ≤ b ∧ b < 64 then .ok (asI64 (a * 2 ^ b.toNat)) else Exec.fail .overflow
  | .shr => if 0 ≤ b ∧ b < 64 then .ok (a >>> b.toNat) else Exec.fail .overflow
  | .and => .ok (BitVec.ofInt 64 a &&& BitVec.ofInt 64 b).toInt
  | .or => .ok (BitVec.ofInt 64 a ||| BitVec.ofInt 64 b).toInt
  | .xor => .ok (BitVec.ofInt 64 a ^^^ BitVec.ofInt 64 b).toInt
  | .eq => .ok (boolI64 (a == b))
  | .ne => .ok (boolI64 (a != b))
  | .lt => .ok (boolI64 (a < b))
  | .le => .ok (boolI64 (a ≤ b))
  | .gt => .ok (boolI64 (a > b))
  | .ge => .ok (boolI64 (a ≥ b))

/-- Push on the fixed-size stack; a full stack is an index out of bounds. -/
def pushStack (v : Int) (stack : List Int) : Exec Kind (List Int) :=
  if stack.length < exprStack then .ok (v :: stack) else Exec.panic

/-- One instruction on the stack, top first. -/
def Ins.step (get : Reg → Exec Kind Int) (ins : Ins) (stack : List Int) :
    Exec Kind (List Int) :=
  match ins with
  | .imm n => pushStack n stack
  | .reg r => if stack.length < exprStack then do pushStack (← get r) stack else Exec.panic
  | .op o =>
    match stack with
    | b :: a :: rest => do pushStack (← o.apply a b) rest
    | _ => Exec.panic

/-- All instructions in turn. -/
def runIns (get : Reg → Exec Kind Int) : List Ins → List Int → Exec Kind (List Int)
  | [], stack => .ok stack
  | ins :: rest, stack => do runIns get rest (← ins.step get stack)

/-- The value left on the stack, which the code asserts to be the only one. -/
def Expr.eval (e : Expr) (get : Reg → Exec Kind Int) : Exec Kind Int := do
  match ← runIns get e.ins [] with
  | [v] => .ok v
  | _ => Exec.panic

end Rustruct

import Rustruct.Proofs.Withheld
import Rustruct.Proofs.Safety

/-!
# Expressions

The postfix program of an expression computes what the expression says, on a stack that always has
room. A length that refers to a field is a linear function of it, and pack inverts that function.
-/

namespace Rustruct

/-- Left to right, in checked `i64` arithmetic. -/
def ExprIn.eval (env : String → Int) : ExprIn → Exec Kind Int
  | .imm n => .ok n
  | .greedy => Exec.panic
  | .ref name => .ok (env name)
  | .bin op l r => do
    let a ← l.eval env
    let b ← r.eval env
    op.apply a b

/-- Folding computes what the machine would. -/
lemma apply_of_applyConst {op : BinOp} {a b c : Int} (h : applyConst op a b = .ok c) : op.apply a b = .ok c := by
  have hover : ∀ v : Option Int, orOverflow v = .ok c → okOrOverflow v = .ok c := by
    intro v hv
    cases v with
    | none => cases hv
    | some v =>
      cases hv
      rfl
  cases op with
  | add | sub | mul => exact hover _ h
  | div =>
    simp only [applyConst, BinOp.apply] at h ⊢
    split_ifs at h ⊢ with hb
    · cases h
    · exact hover _ h
  | shl | shr =>
    simp only [applyConst, BinOp.apply] at h ⊢
    split_ifs at h ⊢ with hb
    · cases h
      rfl
    · cases h
  | and | or | xor | eq | ne | lt | le | gt | ge =>
    cases h
    rfl

lemma foldBin_eval {op : BinOp} {l r e : ExprIn} (h : foldBin op l r = .ok e) (env : String → Int) :
    e.eval env = (ExprIn.bin op l r).eval env := by
  unfold foldBin at h
  split at h
  · obtain ⟨c, hc, h⟩ := Exec.bind_eq_ok.mp h
    cases h
    exact (apply_of_applyConst hc).symm
  · cases h
    rfl

lemma fold_eval {e folded : ExprIn} (h : fold e = .ok folded) (env : String → Int) : folded.eval env = e.eval env := by
  induction e generalizing folded with
  | imm | ref =>
    cases h
    rfl
  | greedy => cases h
  | bin op l r ihl ihr =>
    obtain ⟨fl, hl, h⟩ := Exec.bind_eq_ok.mp h
    obtain ⟨fr, hr, h⟩ := Exec.bind_eq_ok.mp h
    rw [foldBin_eval h, ExprIn.eval, ExprIn.eval, ihl hl, ihr hr]

lemma runIns_append (get : Reg → Exec Kind Int) (a b : List Ins) (stack : List Int) :
    runIns get (a ++ b) stack = runIns get a stack >>= runIns get b := by
  induction a generalizing stack with
  | nil => rfl
  | cons ins a ih =>
    rw [List.cons_append, runIns, runIns]
    cases ins.step get stack with
    | ok next => exact ih next
    | error t => rfl

/-- The register of a name. -/
def regIn (Γ : Env) (name : String) : Reg :=
  match lookupSym Γ name with
  | some (up, s) => ⟨up % 256, s.reg.getD 0⟩
  | none => ⟨0, 0⟩

lemma LowersRef.regIn {Γ : Env} {ctx : RefCtx} {name : String} {reg : Reg} (h : LowersRef Γ ctx name reg) :
    regIn Γ name = reg := by
  obtain ⟨up, s, hs, -, hreg, hup, -⟩ := h
  obtain ⟨rup, ridx⟩ := reg
  simp only at hreg hup
  rw [Rustruct.regIn, hs]
  simp only [hreg, hup, Option.getD_some]

/-- The value goes on top of the stack, or the error is that of the tree. -/
lemma LowersInto.run {Γ : Env} {ctx : RefCtx} {e : ExprIn} {ins : List Ins} (h : LowersInto Γ ctx e ins)
    (get : Reg → Int) {stack : List Int} (hroom : stack.length + e.room ≤ exprStack) :
    runIns (fun r => .ok (get r)) ins stack = (e.eval fun n => get (regIn Γ n)) >>= fun v => .ok (v :: stack) := by
  induction e generalizing ins stack with
  | imm n =>
    obtain rfl : ins = [.imm n] := h
    have hlt : stack.length < exprStack := hroom
    simp only [runIns, Ins.step, pushStack, if_pos hlt, Exec.bind_ok, ExprIn.eval]
  | greedy => exact h.elim
  | ref name =>
    obtain ⟨reg, href, rfl⟩ := h
    have hlt : stack.length < exprStack := hroom
    simp only [runIns, Ins.step, pushStack, if_pos hlt, Exec.bind_ok, ExprIn.eval, href.regIn]
  | bin op l r ihl ihr =>
    obtain ⟨il, ir, hl, hr, rfl⟩ := h
    rw [ExprIn.room] at hroom
    rw [runIns_append, runIns_append, ihl hl (by omega), ExprIn.eval]
    cases l.eval fun n => get (Rustruct.regIn Γ n) with
    | error t => rfl
    | ok a =>
      rw [Exec.bind_ok, Exec.bind_ok, Exec.bind_ok, ihr hr (by rw [List.length_cons]; omega)]
      cases r.eval fun n => get (Rustruct.regIn Γ n) with
      | error t => rfl
      | ok b =>
        have hlt : stack.length < exprStack := by omega
        simp only [Exec.bind_ok, runIns, Ins.step, pushStack, if_pos hlt]
        cases op.apply a b with
        | error t => rfl
        | ok v => rfl

lemma pushStack_length {v : Int} {stack stack' : List Int} (h : pushStack v stack = .ok stack') :
    stack'.length ≤ exprStack := by
  unfold pushStack at h
  split_ifs at h with hlt
  · cases h
    exact hlt
  · cases h

lemma runIns_length {get : Reg → Exec Kind Int} {ins : List Ins} {stack stack' : List Int}
    (hstack : stack.length ≤ exprStack) (h : runIns get ins stack = .ok stack') : stack'.length ≤ exprStack := by
  induction ins generalizing stack with
  | nil =>
    cases h
    exact hstack
  | cons i ins ih =>
    obtain ⟨next, hstep, h⟩ := Exec.bind_eq_ok.mp h
    refine ih ?_ h
    cases i with
    | imm n => exact pushStack_length hstep
    | reg r =>
      simp only [Ins.step] at hstep
      split_ifs at hstep
      · obtain ⟨v, -, hpush⟩ := Exec.bind_eq_ok.mp hstep
        exact pushStack_length hpush
      · cases hstep
    | op o =>
      simp only [Ins.step] at hstep
      split at hstep
      · obtain ⟨v, -, hpush⟩ := Exec.bind_eq_ok.mp hstep
        exact pushStack_length hpush
      · cases hstep

/-- Some instructions of an expression run without an abort and within the stack. -/
lemma LowersInto.sat_run {Γ : Env} {ctx : RefCtx} {e : ExprIn} {ins pre post : List Ins}
    (h : LowersInto Γ ctx e ins) (hroom : e.room ≤ exprStack) (hsplit : ins = pre ++ post) (get : Reg → Int) :
    Exec.Sat (runIns (fun r => .ok (get r)) pre []) (fun stack => stack.length ≤ exprStack) (fun _ => True) := by
  have hdepth := h.stackDepth (n := 0) (by omega)
  rw [hsplit, stackDepth_append] at hdepth
  obtain ⟨m, hpre, -⟩ := Option.bind_eq_some_iff.mp hdepth
  have hsat : Exec.Sat (runIns (fun r => .ok (get r)) pre []) (fun stack => stack.length = m) (fun _ => True) :=
    sat_runIns (fun r _ => trivial) (Nat.zero_le _) hpre
  cases hrun : runIns (fun r => .ok (get r)) pre [] using Exec.cases_on with
  | ok stack => exact runIns_length (Nat.zero_le _) hrun
  | fail k => trivial
  | panic =>
    rw [hrun] at hsat
    exact hsat

/-- What `fold` and `emit_expr` make of a tree: a program with the value, or the error, of the tree. -/
structure Emitted (Γ : Env) (ctx : RefCtx) (e : ExprIn) (expr : Expr) (ρ : String → Reg) : Prop where
  /-- The registers the references resolve to. -/
  refs : ∀ n, e.mentions n → LowersRef Γ ctx n (ρ n)
  eval : ∀ get : Reg → Int, expr.eval (fun r => .ok (get r)) = e.eval fun n => get (ρ n)
  one : ∀ get : Reg → Int,
    Exec.Sat (runIns (fun r => .ok (get r)) expr.ins []) (fun stack => stack.length = 1) (fun _ => True)
  within : ∀ (get : Reg → Int) (pre post : List Ins), expr.ins = pre ++ post →
    Exec.Sat (runIns (fun r => .ok (get r)) pre []) (fun stack => stack.length ≤ exprStack) (fun _ => True)

lemma LowersInto.refs {Γ : Env} {ctx : RefCtx} {e : ExprIn} {ins : List Ins} (h : LowersInto Γ ctx e ins) {n : String}
    (hn : e.mentions n) : LowersRef Γ ctx n (regIn Γ n) := by
  induction e generalizing ins with
  | imm | greedy => cases hn
  | ref name =>
    obtain ⟨reg, href, -⟩ := h
    obtain rfl : name = n := by simpa [ExprIn.mentions] using hn
    rwa [href.regIn]
  | bin op l r ihl ihr =>
    obtain ⟨il, ir, hl, hr, -⟩ := h
    rw [ExprIn.mentions, Bool.or_eq_true] at hn
    rcases hn with hn | hn
    · exact ihl hl hn
    · exact ihr hr hn

lemma LowersExpr.emitted {Γ : Env} {ctx : RefCtx} {e : ExprIn} {expr : Expr} (h : LowersExpr Γ ctx e expr) :
    Emitted Γ ctx e expr (regIn Γ) := by
  obtain ⟨folded, hfold, hl, hd⟩ := h
  have hroom := hl.room_le hd
  constructor
  · intro n hn
    rw [← fold_mentions_eq hfold n] at hn
    exact hl.refs hn
  · intro get
    rw [Expr.eval, hl.run get (by simpa using hroom), fold_eval hfold]
    cases e.eval fun n => get (regIn Γ n) <;> rfl
  · intro get
    have hdepth := hl.stackDepth (n := 0) (by omega)
    exact sat_runIns (fun r _ => trivial) (Nat.zero_le _) hdepth
  · intro get pre post hsplit
    exact hl.sat_run hroom hsplit get

/-- Expressions compile correctly, wherever in a compilation they are. -/
theorem emitExpr_correct {opts : Options} {S S' : List Scope} (hS : Opened opts S) {ctx : RefCtx} {e folded : ExprIn}
    {expr : Expr} (hfold : fold e = .ok folded) (h : emitExpr ctx folded S = .ok (expr, S')) :
    ∃ ρ, Emitted (envOf S') ctx e expr ρ := by
  obtain ⟨-, hlow⟩ := emitExpr_steps hfold hS.ok h
  have hrefl : EnvLe (envOf S') (envOf S') := envLe_of_steps (forall₂_refl (R := ScopeStep) ScopeStep.refl S')
  exact ⟨regIn (envOf S'), (hlow (envOf S') hrefl).emitted⟩

/-- The scope of one field "n". -/
def oneField : Scope where
  ops := [.fixed 1 [{ off := 0, kind := .int .u8 true none false, reg := none, span := none, key := .named "n" }]]
  syms := [{ name := "n", loc := .fix 0 0, refable := true, isFlags := false, isConst := false, spannable := true }]
  nregs := 0
  nspans := 0
  digests := []

lemma opened_oneField (opts : Options) : Opened opts [oneField] := by
  have hfield : compileField opts (.int .u8 none none) .big (some "n") [Scope.empty] = .ok ((), [oneField]) := rfl
  exact .field (.enter .start) rfl hfield

/-- `n * (1 + 1) + 1` -/
def oneFieldLen : ExprIn :=
  .bin .add (.bin .mul (.ref "n") (.bin .add (.imm 1) (.imm 1))) (.imm 1)

/-- The same, after folding. -/
def oneFieldExpr : Expr := { ins := [.reg ⟨0, 0⟩, .imm 2, .op .mul, .imm 1, .op .add] }

theorem emitExpr_correct_check : ∃ (S' : List Scope) (ρ : String → Reg),
    Emitted (envOf S') .len oneFieldLen oneFieldExpr ρ := by
  have hfold : fold oneFieldLen = .ok (.bin .add (.bin .mul (.ref "n") (.imm 2)) (.imm 1)) := rfl
  obtain ⟨ρ, hρ⟩ := emitExpr_correct (opened_oneField {}) hfold rfl
  exact ⟨_, ρ, hρ⟩

end Rustruct

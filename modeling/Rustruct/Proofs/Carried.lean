import Rustruct.Reading
import Rustruct.Proofs.Resolved

/-!
# Names and registers

What has been read of the scopes that are open is in the frames of the machine: the integers of the
fields that something refers to in their registers, the places of fields in their spans. So an
expression has the same value on both sides.
-/

namespace Rustruct

/-- A frame holds what has been read of a scope whose symbols so far are `syms`. -/
structure Carries (size : Nat) (syms : List Sym) (scope : List Got) (f : Frame) : Prop where
  none : ∀ n, findSym syms n = none → findGot scope n = none
  reg : ∀ n s, findSym syms n = some s → s.refable → ∃ g v, findGot scope n = some g ∧ g.value = .int v ∧
    ∀ (i : Nat) (h : i < maxRegs), s.reg = some i → f.regs ⟨i, h⟩ = v
  span : ∀ n s, findSym syms n = some s → s.spannable → ∃ g, findGot scope n = some g ∧ g.start ≤ g.stop ∧
    g.stop ≤ size ∧ ∀ (i : Nat) (h : i < maxSpans), s.span = some i → f.spans ⟨i, h⟩ = (g.start, g.stop)

lemma carries_new (size : Nat) : Carries size [] [] .new := by
  constructor
  · intro n _
    rfl
  · intro n s hs
    cases hs
  · intro n s hs
    cases hs

/-- Every open scope has its frame. -/
def EnvCarries (size : Nat) : Env → Seen → Frames → Prop
  | [], [], [] => True
  | syms :: Γ, scope :: seen, f :: fs => Carries size syms scope f ∧ EnvCarries size Γ seen fs
  | _, _, _ => False

section Lookup

variable {size : Nat} {Γ : Env} {seen : Seen} {fs : Frames}

lemma EnvCarries.length (h : EnvCarries size Γ seen fs) : fs.length = Γ.length := by
  induction Γ generalizing seen fs with
  | nil =>
    cases seen <;> cases fs <;> first | rfl | exact h.elim
  | cons syms Γ ih =>
    cases seen with
    | nil => cases fs <;> exact h.elim
    | cons scope seen =>
      cases fs with
      | nil => exact h.elim
      | cons f fs =>
        rw [List.length_cons, List.length_cons, ih h.2]

lemma EnvCarries.lookup (h : EnvCarries size Γ seen fs) {n : String} {up : Nat} {s : Sym}
    (hs : lookupSym Γ n = some (up, s)) (href : s.refable) {i : Nat} (hi : i < maxRegs) (hreg : s.reg = some i) :
    ∃ v, seen.int n = some v ∧ (getReg fs ⟨up, i⟩ : Exec Kind Int) = .ok v := by
  induction Γ generalizing seen fs up with
  | nil => cases hs
  | cons syms Γ ih =>
    cases seen with
    | nil => cases fs <;> exact h.elim
    | cons scope seen =>
      cases fs with
      | nil => exact h.elim
      | cons f fs =>
        rw [lookupSym] at hs
        cases hf : findSym syms n with
        | some t =>
          rw [hf] at hs
          obtain ⟨rfl, rfl⟩ : 0 = up ∧ t = s := by simpa using hs
          obtain ⟨g, v, hg, hv, hval⟩ := h.1.reg n t hf href
          refine ⟨v, ?_, ?_⟩
          · rw [Seen.int, hg]
            simp only [hv, Value.int?]
          · simp only [getReg, List.getElem?_cons_zero, dif_pos hi, hval i hi hreg]
        | none =>
          rw [hf] at hs
          obtain ⟨⟨up', t⟩, hl, he⟩ := Option.map_eq_some_iff.mp hs
          obtain ⟨rfl, rfl⟩ : up' + 1 = up ∧ t = s := by simpa using he
          obtain ⟨v, hv, hget⟩ := ih h.2 hl
          refine ⟨v, ?_, ?_⟩
          · rw [Seen.int, h.1.none n hf]
            exact hv
          · rw [← hget]
            simp only [getReg, List.getElem?_cons_succ]

end Lookup

/-! ### Expressions -/

/-- Over all the names it mentions, an expression has its value. -/
lemma read_eq_eval {seen : Seen} {env : String → Int} {e : ExprIn}
    (h : ∀ n, e.mentions n → seen.int n = some (env n)) : e.read seen = (e.eval env).toOption := by
  induction e with
  | imm n => rfl
  | greedy => rfl
  | ref name => exact h name (by simp [ExprIn.mentions])
  | bin op l r ihl ihr =>
    have hl := ihl fun n hn => h n (by simp [ExprIn.mentions, hn])
    have hr := ihr fun n hn => h n (by simp [ExprIn.mentions, hn])
    rw [ExprIn.read, ExprIn.eval, hl, hr]
    cases l.eval env with
    | error t => rfl
    | ok a =>
      cases r.eval env with
      | error t => rfl
      | ok b => rfl

lemma mirrors_toOption {ε α : Type} (x : Exec ε α) : Exec.Mirrors (· = ·) (fun _ => True) x x.toOption := by
  cases x with
  | ok a => exact .of_some trivial rfl
  | error t => exact .of_error

/-- The scopes of a compiled program: registers are in range, and there are few enough scopes. -/
structure EnvOk (Γ : Env) : Prop where
  regs : RegsIn Γ
  depth : Γ.length ≤ maxDepth

section Expressions

variable {size : Nat} {Γ : Env} {seen : Seen} {fs : Frames} (hΓ : EnvOk Γ) (hc : EnvCarries size Γ seen fs)

include hΓ hc

lemma LowersRef.carried {ctx : RefCtx} {n : String} {r : Reg} (h : LowersRef Γ ctx n r) :
    ∃ v, seen.int n = some v ∧ (getReg fs r : Exec Kind Int) = .ok v := by
  have hlive := h.live hΓ.regs
  obtain ⟨up, s, hs, href, hreg, hup, -⟩ := h
  have hlt := (lookupSym_mem hs).1
  have hdepth := hΓ.depth
  have hmax : maxDepth < 256 := by decide
  have hsame : r.up = up := by
    rw [hup]
    exact Nat.mod_eq_of_lt (by omega)
  obtain ⟨v, hv, hget⟩ := hc.lookup hs href hlive.2 hreg
  exact ⟨v, hv, by rw [← hget, ← hsame]⟩

lemma LowersExpr.mirrors {ctx : RefCtx} {e : ExprIn} {expr : Expr} (h : LowersExpr Γ ctx e expr) :
    Exec.Mirrors (· = ·) (fun _ => True) (expr.eval (getReg fs)) (e.read seen) := by
  -- The machine reads the registers as if all of them were there.
  let get (r : Reg) : Int := (getReg fs r : Exec Kind Int).toOption.getD 0
  obtain ⟨folded, hfold, hlow, hroom⟩ := id h
  have hlive := h.emitted
  have hregs : ∀ r, .reg r ∈ expr.ins → (getReg fs r : Exec Kind Int) = .ok (get r) := by
    intro r hr
    have hsound := (h.sound hΓ.regs).live _ hr
    obtain ⟨hup, hidx⟩ : r.up < Γ.length ∧ r.idx < maxRegs := hsound
    rw [← hc.length] at hup
    have hok : ∃ v, (getReg fs r : Exec Kind Int) = .ok v := by
      refine ⟨fs[r.up].regs ⟨r.idx, hidx⟩, ?_⟩
      simp only [getReg, List.getElem?_eq_getElem hup, dif_pos hidx]
    obtain ⟨v, hv⟩ := hok
    simp only [get, hv]
    rfl
  have hrun : expr.eval (getReg fs) = e.eval fun n => get (regIn Γ n) := by
    rw [← hlive.eval get, Expr.eval, Expr.eval, runIns_congr hregs]
  have hread : e.read seen = (e.eval fun n => get (regIn Γ n)).toOption := by
    apply read_eq_eval
    intro n hn
    obtain ⟨v, hv, hget⟩ := (hlive.refs n hn).carried hΓ hc
    rw [hv]
    simp only [get, hget]
    rfl
  rw [hrun, hread]
  exact mirrors_toOption _

lemma LowersExpr.mirrors_eval {ctx : RefCtx} {e : ExprIn} {expr : Expr} (h : LowersExpr Γ ctx e expr) (pos : Nat) :
    Exec.Mirrors (· = ·) (fun _ => True) (eval fs expr pos) (e.read seen) :=
  (h.mirrors hΓ hc).mapErr

/-- A length that is not negative. -/
def natural (n : Int) : Option Nat := if n < 0 then none else some n.toNat

lemma LowersLen.mirrors_eval {e : ExprIn} {expr : Expr} {inv : Option Inv} (h : LowersLen Γ e (.expr expr inv)) (pos : Nat) :
    Exec.Mirrors (· = ·) (fun _ => True) (eval fs expr pos) (e.read seen) := by
  have key : ((∃ n, 0 ≤ n ∧ fold e = .ok (.imm n) ∧ LenSrc.expr expr inv = .expr (.imm n) none) ∨
      ∃ expr' inv', LowersLin Γ e expr' inv' ∧ LenSrc.expr expr inv = .expr expr' (some inv')) →
      Exec.Mirrors (· = ·) (fun _ => True) (eval fs expr pos) (e.read seen) := by
    rintro (⟨n, -, hfold, heq⟩ | ⟨expr', inv', ⟨folded, name, -, -, -, -, hexpr⟩, heq⟩)
    · cases heq
      have hread : e.read seen = some n := by
        have heval : e.read seen = (e.eval fun _ => 0).toOption := by
          apply read_eq_eval
          intro m hm
          rw [← fold_mentions_eq hfold] at hm
          cases hm
        rw [heval, ← fold_eval hfold]
        rfl
      rw [hread]
      exact .of_some trivial rfl
    · cases heq
      exact hexpr.mirrors_eval hΓ hc pos
  cases e with
  | greedy => cases h
  | imm | ref | bin => exact key h

lemma LowersLen.mirrors_evalLen {e : ExprIn} {expr : Expr} {inv : Option Inv} (h : LowersLen Γ e (.expr expr inv))
    (pos : Nat) : Exec.Mirrors (· = ·) (fun _ => True) (evalLen fs expr pos) ((e.read seen).bind natural) := by
  refine (h.mirrors_eval hΓ hc pos).bind (fun _ _ _ _ => trivial) ?_
  rintro n - rfl -
  unfold natural
  by_cases hn : n < 0
  · rw [if_pos hn, if_pos hn]
    exact .of_error
  · rw [if_neg hn, if_neg hn]
    exact .of_some trivial rfl

lemma LowersLen.mirrors {e : ExprIn} {len : LenSrc} (h : LowersLen Γ e len) {limit pos : Nat} (hpos : pos ≤ limit) :
    Exec.Mirrors (· = ·) (fun _ => True) (wantedLen fs len pos limit) (e.length seen limit pos) := by
  cases len with
  | greedy =>
    have he : e = .greedy := by
      cases e with
      | greedy => rfl
      | imm | ref | bin =>
        rcases h with ⟨_, -, -, h⟩ | ⟨_, _, -, h⟩ <;> cases h
    rw [he, wantedLen, checkedSub, if_pos hpos]
    exact .of_some trivial rfl
  | expr expr inv =>
    have hlen : e.length seen limit pos = (e.read seen).bind natural := by
      cases e with
      | greedy => cases h
      | imm | ref | bin => rfl
    rw [hlen]
    exact h.mirrors_evalLen hΓ hc pos

end Expressions

end Rustruct

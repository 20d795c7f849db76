import Rustruct.Proofs.Expressions
import Mathlib.Tactic.Ring

/-!
# Inversion

A length that refers to a field is `a * x + b` for the value `x` of the field. From the length that
the content has, pack works out the `x` it needs, exactly.
-/

namespace Rustruct

/-- The value of a linear form, in the integers. -/
def Lin.value (env : String → Int) (l : Lin) : Int :=
  match l.ref with
  | some (n, a) => a * env n + l.b
  | none => l.b

section Forms

variable {l r lin : Lin}

lemma Lin.add_spec (h : l.add r = some lin) :
    InI64 lin.b ∧ ∀ env, lin.value env = l.value env + r.value env := by
  obtain ⟨lr, lb⟩ := l
  obtain ⟨rr, rb⟩ := r
  rcases lr with _ | ⟨n, a⟩ <;> rcases rr with _ | ⟨m, c⟩
  · obtain ⟨s, hs, rfl⟩ := Option.map_eq_some_iff.mp h
    obtain ⟨hfits, rfl⟩ := checkedI64_eq_some.mp hs
    exact ⟨hfits, fun env => rfl⟩
  · obtain ⟨s, hs, rfl⟩ := Option.map_eq_some_iff.mp h
    obtain ⟨hfits, rfl⟩ := checkedI64_eq_some.mp hs
    refine ⟨hfits, fun env => ?_⟩
    show c * env m + (lb + rb) = lb + (c * env m + rb)
    ring
  · obtain ⟨s, hs, rfl⟩ := Option.map_eq_some_iff.mp h
    obtain ⟨hfits, rfl⟩ := checkedI64_eq_some.mp hs
    refine ⟨hfits, fun env => ?_⟩
    show a * env n + (lb + rb) = a * env n + lb + rb
    ring
  · cases h

lemma Lin.sub_spec (h : l.sub r = some lin) :
    InI64 lin.b ∧ ∀ env, lin.value env = l.value env - r.value env := by
  obtain ⟨lr, lb⟩ := l
  obtain ⟨rr, rb⟩ := r
  rcases lr with _ | ⟨n, a⟩ <;> rcases rr with _ | ⟨m, c⟩
  · obtain ⟨s, hs, rfl⟩ := Option.map_eq_some_iff.mp h
    obtain ⟨hfits, rfl⟩ := checkedI64_eq_some.mp hs
    exact ⟨hfits, fun env => rfl⟩
  · obtain ⟨k, hk, h⟩ := Option.bind_eq_some_iff.mp h
    obtain ⟨s, hs, h⟩ := Option.bind_eq_some_iff.mp h
    obtain ⟨-, rfl⟩ := checkedI64_eq_some.mp hk
    obtain ⟨hfits, rfl⟩ := checkedI64_eq_some.mp hs
    cases h
    refine ⟨hfits, fun env => ?_⟩
    show -c * env m + (lb - rb) = lb - (c * env m + rb)
    ring
  · obtain ⟨s, hs, rfl⟩ := Option.map_eq_some_iff.mp h
    obtain ⟨hfits, rfl⟩ := checkedI64_eq_some.mp hs
    refine ⟨hfits, fun env => ?_⟩
    show a * env n + (lb - rb) = a * env n + lb - rb
    ring
  · cases h

lemma Lin.scale_spec {k : Int} (h : l.scale k = some lin) :
    InI64 lin.b ∧ ∀ env, lin.value env = l.value env * k := by
  obtain ⟨lr, lb⟩ := l
  rcases lr with _ | ⟨n, a⟩
  · obtain ⟨s, hs, rfl⟩ := Option.map_eq_some_iff.mp h
    obtain ⟨hfits, rfl⟩ := checkedI64_eq_some.mp hs
    exact ⟨hfits, fun env => rfl⟩
  · obtain ⟨c, hc, h⟩ := Option.bind_eq_some_iff.mp h
    obtain ⟨s, hs, h⟩ := Option.bind_eq_some_iff.mp h
    obtain ⟨-, rfl⟩ := checkedI64_eq_some.mp hc
    obtain ⟨hfits, rfl⟩ := checkedI64_eq_some.mp hs
    cases h
    refine ⟨hfits, fun env => ?_⟩
    show a * k * env n + lb * k = (a * env n + lb) * k
    ring

lemma Lin.mul_spec (h : l.mul r = some lin) :
    InI64 lin.b ∧ ∀ env, lin.value env = l.value env * r.value env := by
  obtain ⟨lr, lb⟩ := l
  obtain ⟨rr, rb⟩ := r
  rcases lr with _ | ⟨n, a⟩
  · obtain ⟨hfits, hval⟩ := Lin.scale_spec (show Lin.scale ⟨rr, rb⟩ lb = some lin from h)
    exact ⟨hfits, fun env => by rw [hval, mul_comm]; rfl⟩
  · rcases rr with _ | ⟨m, c⟩
    · exact Lin.scale_spec (show Lin.scale ⟨some (n, a), lb⟩ rb = some lin from h)
    · cases h

lemma Lin.one_side {s : Lin} (h : l.add r = some s ∨ l.sub r = some s ∨ l.mul r = some s) :
    l.name = none ∨ r.name = none := by
  obtain ⟨lr, lb⟩ := l
  obtain ⟨rr, rb⟩ := r
  rcases lr with _ | p
  · exact .inl rfl
  · rcases rr with _ | q
    · exact .inr rfl
    · simp [Lin.add, Lin.sub, Lin.mul] at h

end Forms

lemma okOrOverflow_checked (v : Int) :
    okOrOverflow (checkedI64 v) = .ok v ∨ okOrOverflow (checkedI64 v) = Exec.fail .overflow := by
  unfold checkedI64
  by_cases hv : InI64 v
  · exact .inl (by rw [if_pos hv, okOrOverflow])
  · exact .inr (by rw [if_neg hv, okOrOverflow])

/-- The checks at run time are not those of the analysis, but all they add is overflows. -/
lemma linear_eval {e : ExprIn} {lin : Lin} (h : linear e = some lin) (env : String → Int) :
    e.eval env = .ok (lin.value env) ∨ e.eval env = Exec.fail .overflow := by
  induction e generalizing lin with
  | imm n =>
    cases h
    exact .inl rfl
  | greedy => cases h
  | ref name =>
    cases h
    left
    simp [ExprIn.eval, Lin.value]
  | bin op l r ihl ihr =>
    obtain ⟨ll, hl, h⟩ := Option.bind_eq_some_iff.mp h
    obtain ⟨lr, hr, h⟩ := Option.bind_eq_some_iff.mp h
    rw [ExprIn.eval]
    rcases ihl hl with hvl | hvl <;> rw [hvl]
    · rcases ihr hr with hvr | hvr <;> rw [hvr]
      · rw [Exec.bind_ok, Exec.bind_ok]
        cases op with
        | add =>
          rw [(Lin.add_spec h).2 env]
          exact okOrOverflow_checked _
        | sub =>
          rw [(Lin.sub_spec h).2 env]
          exact okOrOverflow_checked _
        | mul =>
          rw [(Lin.mul_spec h).2 env]
          exact okOrOverflow_checked _
        | div | shl | shr | and | or | xor | eq | ne | lt | le | gt | ge => cases h
      · exact .inr rfl
    · exact .inr rfl

/-- The offset was checked, whatever the immediates are. -/
lemma linear_fits {e : ExprIn} {lin : Lin} (h : linear e = some lin) (href : lin.ref.isSome) : InI64 lin.b := by
  cases e with
  | imm n =>
    cases h
    cases href
  | greedy => cases h
  | ref name =>
    cases h
    exact (by decide : InI64 0)
  | bin op l r =>
    obtain ⟨ll, hl, h⟩ := Option.bind_eq_some_iff.mp h
    obtain ⟨lr, hr, h⟩ := Option.bind_eq_some_iff.mp h
    cases op with
    | add => exact (Lin.add_spec h).1
    | sub => exact (Lin.sub_spec h).1
    | mul => exact (Lin.mul_spec h).1
    | div | shl | shr | and | or | xor | eq | ne | lt | le | gt | ge => cases h

/-- The form has the name of every reference. -/
lemma linear_name {e : ExprIn} {lin : Lin} (h : linear e = some lin) {n : String} (hn : e.mentions n) :
    lin.name = some n := by
  induction e generalizing lin with
  | imm | greedy => cases hn
  | ref name =>
    cases h
    obtain rfl : name = n := by simpa [ExprIn.mentions] using hn
    rfl
  | bin op x y ihx ihy =>
    obtain ⟨lx, hx, h⟩ := Option.bind_eq_some_iff.mp h
    obtain ⟨ly, hy, h⟩ := Option.bind_eq_some_iff.mp h
    have hops : lin.name = lx.name.or ly.name ∧ (lx.name = none ∨ ly.name = none) := by
      cases op with
      | add => exact ⟨Lin.add_name h, Lin.one_side (.inl h)⟩
      | sub => exact ⟨Lin.sub_name h, Lin.one_side (.inr (.inl h))⟩
      | mul => exact ⟨Lin.mul_name h, Lin.one_side (.inr (.inr h))⟩
      | div | shl | shr | and | or | xor | eq | ne | lt | le | gt | ge => cases h
    obtain ⟨hor, hside⟩ := hops
    rw [ExprIn.mentions, Bool.or_eq_true] at hn
    rcases hn with hn | hn
    · rw [hor, ihx hx hn]
      rfl
    · have hyn := ihy hy hn
      have hxn : lx.name = none := hside.resolve_right (by simp [hyn])
      rw [hor, hxn, hyn]
      rfl

lemma runIns_congr {get get' : Reg → Exec Kind Int} {ins : List Ins} (h : ∀ r, .reg r ∈ ins → get r = get' r)
    (stack : List Int) : runIns get ins stack = runIns get' ins stack := by
  induction ins generalizing stack with
  | nil => rfl
  | cons i ins ih =>
    have hstep : i.step get stack = i.step get' stack := by
      cases i with
      | imm n => rfl
      | reg r => rw [Ins.step, Ins.step, h r List.mem_cons_self]
      | op o => rfl
    rw [runIns, runIns, hstep]
    congr
    funext next
    exact ih (fun r hr => h r (List.mem_cons_of_mem i hr)) next

lemma LowersInto.reg {Γ : Env} {ctx : RefCtx} {e : ExprIn} {ins : List Ins} (h : LowersInto Γ ctx e ins) {r : Reg}
    (hr : .reg r ∈ ins) : ∃ n, e.mentions n ∧ regIn Γ n = r := by
  induction e generalizing ins with
  | imm n =>
    obtain rfl : ins = [.imm n] := h
    simp at hr
  | greedy => exact h.elim
  | ref name =>
    obtain ⟨reg, href, rfl⟩ := h
    obtain rfl : r = reg := by simpa using hr
    exact ⟨name, by simp [ExprIn.mentions], href.regIn⟩
  | bin op x y ihx ihy =>
    obtain ⟨ix, iy, hx, hy, rfl⟩ := h
    have hside : .reg r ∈ ix ∨ .reg r ∈ iy := by simpa using hr
    rcases hside with hside | hside
    · obtain ⟨n, hn, hreg⟩ := ihx hx hside
      exact ⟨n, by simp [ExprIn.mentions, hn], hreg⟩
    · obtain ⟨n, hn, hreg⟩ := ihy hy hside
      exact ⟨n, by simp [ExprIn.mentions, hn], hreg⟩

/-- A length reads the field it is inverted for, and nothing else. -/
lemma LowersLin.eval_eq {Γ : Env} {e : ExprIn} {expr : Expr} {inv : Inv} (h : LowersLin Γ e expr inv)
    {get : Reg → Exec Kind Int} {x : Int} (hx : get inv.reg = .ok x) :
    expr.eval get = .ok (inv.a * x + inv.b) ∨ expr.eval get = Exec.fail .overflow := by
  obtain ⟨folded, name, hfold, hlin, -, href, folded', hfold', hlow, hdepth⟩ := h
  obtain rfl : folded = folded' := by simpa using hfold.symm.trans hfold'
  have hname : ∀ n, folded.mentions n → n = name := by
    intro n hn
    have hsome := linear_name hlin hn
    simpa [Lin.name] using hsome.symm
  have honly : ∀ r, .reg r ∈ expr.ins → get r = .ok x := by
    intro r hr
    obtain ⟨n, hn, rfl⟩ := hlow.reg hr
    rw [hname n hn, href.regIn, hx]
  have hrun : expr.eval get = expr.eval fun _ => .ok x := by
    rw [Expr.eval, Expr.eval, runIns_congr honly]
  rw [hrun]
  have hroom := hlow.room_le hdepth
  have heval : (expr.eval fun _ => .ok x) = folded.eval fun _ => x := by
    rw [Expr.eval, hlow.run (fun _ => x) (by simpa using hroom)]
    cases folded.eval fun _ => x <;> rfl
  rw [heval]
  exact linear_eval hlin fun _ => x

lemma invert_eq {inv : Inv} {actual : Int} (ha : inv.a ≠ 0) (hb : InI64 inv.b) (hactual : 0 ≤ actual) :
    PCtx.invert inv actual =
      if InI64 (actual - inv.b) then
        if inv.a ∣ actual - inv.b then .ok ((actual - inv.b) / inv.a) else refuse .indivisible
      else refuse .range := by
  unfold PCtx.invert checkedI64
  by_cases hd : InI64 (actual - inv.b)
  · have hmin : actual - inv.b ≠ i64Min := by
      unfold InI64 i64Min i64Max at *
      omega
    simp only [if_pos hd]
    rw [if_neg (by simp [ha, hmin])]
    by_cases hdvd : inv.a ∣ actual - inv.b
    · rw [if_pos hdvd, if_neg (by simpa using Int.tmod_eq_zero_of_dvd hdvd), Int.tdiv_eq_ediv_of_dvd hdvd]
    · rw [if_neg hdvd, if_pos fun h => hdvd (Int.dvd_of_tmod_eq_zero h)]
  · simp only [if_neg hd]

lemma invert_ok {inv : Inv} {actual x : Int} (ha : inv.a ≠ 0) (hb : InI64 inv.b) (hactual : 0 ≤ actual)
    (h : PCtx.invert inv actual = .ok x) : InI64 x ∧ inv.a * x + inv.b = actual := by
  rw [invert_eq ha hb hactual] at h
  split_ifs at h with hd hdvd
  · cases h
    constructor
    · have habs := Int.natAbs_ediv_le_natAbs (actual - inv.b) inv.a
      unfold InI64 i64Min i64Max at *
      omega
    · rw [Int.mul_ediv_cancel' hdvd]
      omega
  · cases h
  · cases h

/-- The value that pack has for a field: the one written, or the one a derived field has got. -/
def PCtx.Holds (ctx : PCtx) (r : Reg) (x : Int) : Prop :=
  ∃ f, ctx.frames[r.up]? = some f ∧ ∃ h : r.idx < maxRegs,
    (f.known ⟨r.idx, h⟩ ∧ f.regs ⟨r.idx, h⟩ = x) ∨ ∃ slot, f.res ⟨r.idx, h⟩ = some { slot, value := some x }

lemma applyInv_holds {ctx ctx' : PCtx} {inv : Inv} {actual : Int} (h : ctx.applyInv inv actual = .ok ctx') :
    ∃ x, PCtx.invert inv actual = .ok x ∧ ctx'.Holds inv.reg x := by
  obtain ⟨x, hx, h⟩ := Exec.bind_eq_ok.mp h
  refine ⟨x, hx, ?_⟩
  cases hf : ctx.frames[inv.reg.up]? with
  | none =>
    rw [hf] at h
    cases h
  | some f =>
    rw [hf] at h
    dsimp only at h
    by_cases hidx : inv.reg.idx < maxRegs
    · rw [dif_pos hidx] at h
      cases hres : f.res ⟨inv.reg.idx, hidx⟩ with
      | none =>
        simp only [hres] at h
        split_ifs at h with hknown
        · cases h
          exact ⟨f, hf, hidx, .inl hknown⟩
        · cases h
      | some r =>
        obtain ⟨slot, value⟩ := r
        simp only [hres] at h
        cases value with
        | some prev =>
          dsimp only at h
          split_ifs at h with hprev
          · cases h
          · cases h
            obtain rfl := not_not.mp hprev
            exact ⟨f, hf, hidx, .inr ⟨slot, hres⟩⟩
        | none =>
          obtain ⟨out, -, h⟩ := Exec.bind_eq_ok.mp h
          cases h
          have hup : inv.reg.up < ctx.frames.length := (List.getElem?_eq_some_iff.mp hf).1
          exact ⟨_, List.getElem?_set_self hup, hidx, .inl ⟨Function.update_self .., Function.update_self ..⟩⟩
    · rw [dif_neg hidx] at h
      cases h

/-- A length and the inverse that pack uses for it. -/
structure Inverts (expr : Expr) (inv : Inv) : Prop where
  /-- What unpack computes from the field. -/
  linear : ∀ (get : Reg → Exec Kind Int) (x n : Int), get inv.reg = .ok x → expr.eval get = .ok n →
    n = inv.a * x + inv.b
  nonzero : inv.a ≠ 0
  /-- No step of the checked arithmetic overflows unnoticed, and none aborts. -/
  exact : ∀ actual : Int, 0 ≤ actual → PCtx.invert inv actual =
    if InI64 (actual - inv.b) then
      if inv.a ∣ actual - inv.b then .ok ((actual - inv.b) / inv.a) else refuse .indivisible
    else refuse .range
  /-- The field that pack derives gives the same length again. -/
  derives : ∀ (ctx ctx' : PCtx) (actual : Int), 0 ≤ actual → ctx.applyInv inv actual = .ok ctx' →
    ∃ x, ctx'.Holds inv.reg x ∧ InI64 x ∧ inv.a * x + inv.b = actual ∧
      ∀ get : Reg → Exec Kind Int, get inv.reg = .ok x →
        expr.eval get = .ok actual ∨ expr.eval get = Exec.fail .overflow

lemma LowersLin.inverts {Γ : Env} {e : ExprIn} {expr : Expr} {inv : Inv} (h : LowersLin Γ e expr inv) :
    Inverts expr inv := by
  obtain ⟨folded, name, -, hlin, ha, -, -⟩ := id h
  have hb : InI64 inv.b := linear_fits hlin rfl
  constructor
  · intro get x n hx hn
    rcases h.eval_eq hx with heval | heval
    · rw [heval] at hn
      exact (Except.ok.inj hn).symm
    · rw [heval] at hn
      cases hn
  · exact ha
  · intro actual hactual
    exact invert_eq ha hb hactual
  · intro ctx ctx' actual hactual happly
    obtain ⟨x, hx, hholds⟩ := applyInv_holds happly
    obtain ⟨hfits, hval⟩ := invert_ok ha hb hactual hx
    refine ⟨x, hholds, hfits, hval, fun get hget => ?_⟩
    have heval := h.eval_eq hget
    rwa [hval] at heval

/-- Inversion derives the right length field, wherever in a compilation the length is. -/
theorem buildLen_inverts {opts : Options} {S S' : List Scope} (hS : Opened opts S) {e : ExprIn} {what : String}
    {expr : Expr} {inv : Inv} (h : buildLen e what S = .ok (.expr expr (some inv), S')) : Inverts expr inv := by
  obtain ⟨-, hlow⟩ := buildLen_steps hS.ok h
  have hrefl : EnvLe (envOf S') (envOf S') := envLe_of_steps (forall₂_refl (R := ScopeStep) ScopeStep.refl S')
  have hlen := hlow (envOf S') hrefl
  have hgreedy : e ≠ .greedy := by
    rintro rfl
    cases hlen
  have hor : (∃ n, 0 ≤ n ∧ fold e = .ok (.imm n) ∧ LenSrc.expr expr (some inv) = .expr (.imm n) none) ∨
      ∃ expr' inv', LowersLin (envOf S') e expr' inv' ∧ LenSrc.expr expr (some inv) = .expr expr' (some inv') := by
    cases e with
    | greedy => exact absurd rfl hgreedy
    | imm | ref | bin => exact hlen
  rcases hor with ⟨n, -, -, heq⟩ | ⟨expr', inv', hlin, heq⟩
  · cases heq
  · cases heq
    exact hlin.inverts

/-- `n * (1 + 1) + 1` over the field "n". -/
theorem buildLen_inverts_check : Inverts oneFieldExpr { reg := ⟨0, 0⟩, a := 2, b := 1 } := by
  obtain ⟨S', h⟩ : ∃ S', buildLen oneFieldLen "bytes.len" [oneField] =
      .ok (.expr oneFieldExpr (some { reg := ⟨0, 0⟩, a := 2, b := 1 }), S') := ⟨_, rfl⟩
  exact buildLen_inverts (opened_oneField {}) h

end Rustruct

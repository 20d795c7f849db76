import Rustruct.Proofs.Leaving
import Rustruct.Proofs.ScopeReads
import Rustruct.Proofs.Faithful

/-!
# What will be read back

From the bytes of pack in the end, the frames of unpack are those of pack, with the integers of derived
fields in their registers. What pack computes from its registers, unpack computes from its own.
-/

namespace Rustruct

open BitStream

/-- The frame that a reading of these bytes has, where pack has this one. -/
def PFrame.readBack (buf : Bytes) (f : PFrame) : Frame where
  regs i := ((f.res i).map fun r => r.slot.read buf).getD (f.regs i)
  spans := f.spans

def PCtx.readBack (buf : Bytes) (ctx : PCtx) : Frames := ctx.frames.map (PFrame.readBack buf)

section Frames

variable {buf : Bytes} {f g : PFrame} {i : Fin maxRegs}

lemma readBack_slot {r : Resv} (h : f.res i = some r) : (f.readBack buf).regs i = r.slot.read buf := by
  simp only [PFrame.readBack, h, Option.map_some, Option.getD_some]

lemma readBack_plain (h : f.res i = none) : (f.readBack buf).regs i = f.regs i := by
  simp only [PFrame.readBack, h, Option.map_none, Option.getD_none]

lemma RegKept.readBack (h : RegKept f g i) : (g.readBack buf).regs i = (f.readBack buf).regs i := by
  cases hf : f.res i with
  | none => rw [readBack_plain hf, readBack_plain (h.none.mpr hf), (h.plain hf).2]
  | some r =>
    have hslot := h.slot
    rw [hf] at hslot
    obtain ⟨r', hg, hsame⟩ := Option.map_eq_some_iff.mp hslot
    rw [readBack_slot hf, readBack_slot hg, hsame]

/-- Patching a derived field changes nothing that will be read. -/
lemma FrameKept.readBack (h : FrameKept f g) : g.readBack buf = f.readBack buf := by
  have hregs : (g.readBack buf).regs = (f.readBack buf).regs := funext fun i => (h.regs i).readBack
  have hspans : (g.readBack buf).spans = (f.readBack buf).spans := h.spans
  unfold PFrame.readBack at hregs hspans ⊢
  rw [Frame.mk.injEq]
  exact ⟨hregs, hspans⟩

lemma forall₂_kept_readBack {fs gs : List PFrame} (h : List.Forall₂ FrameKept fs gs) :
    gs.map (PFrame.readBack buf) = fs.map (PFrame.readBack buf) := by
  induction h with
  | nil => rfl
  | cons hk _ ih => rw [List.map_cons, List.map_cons, hk.readBack, ih]

lemma Moves.readBack {p q : Nat} {ctx next : PCtx} (h : Moves FrameKept p ctx q next) :
    next.readBack buf = ctx.readBack buf :=
  forall₂_kept_readBack (FramesStep.iff_forall₂.mp h.frames)

/-- A register in use has the integer it will have. -/
lemma FrameGrows.readBack {p : Nat} (h : FrameGrows p f g) (hused : f.res i = none → f.known i = true) :
    (g.readBack buf).regs i = (f.readBack buf).regs i := by
  rcases h.regs i with hk | ⟨⟨hn, hunknown⟩, -⟩
  · exact hk.readBack
  · rw [hused hn] at hunknown
    cases hunknown

end Frames

section Registers

variable {buf : Bytes} {p : Nat} {ctx : PCtx} {r : Reg} {x : Int}

/-- The slot of a settled field is not open. -/
lemma PCtx.Sound.shut (hs : ctx.Sound p) {k : Nat} {f : PFrame} {i : Fin maxRegs} {s : Resv}
    (hf : ctx.frames[k]? = some f) (hi : f.res i = some s) (hx : s.value = some x) {b : Nat} (hlo : s.slot.start ≤ b)
    (hhi : b < s.slot.stop) :
    ¬ctx.Opens b := by
  rintro ⟨g, hg, a, ha, halo, hahi⟩
  have hsep : Separate s.slot.range a := by
    obtain ⟨j, hj⟩ := List.getElem?_of_mem hg
    by_cases hjk : k = j
    · subst hjk
      obtain rfl : f = g := Option.some.inj (hf.symm.trans hj)
      have hframe := hs.frames f hg
      rcases ha with ⟨i', s', hi', hn, rfl⟩ | ⟨d, hd, rfl⟩
      · refine hframe.slots i i' s s' hi hi' ?_
        rintro rfl
        obtain rfl : s = s' := Option.some.inj (hi.symm.trans hi')
        rw [hx] at hn
        cases hn
      · exact hframe.mixed i s d hd hi
    · exact hs.apart k j f g hjk hf hj _ a (.inl ⟨i, s, hi, rfl⟩) ha.late
  rcases hsep with hsep | hsep
  · dsimp only [Slot.range] at hsep
    omega
  · dsimp only [Slot.range] at hsep
    omega

lemma Completes.slot (hc : Completes buf p ctx) (hs : ctx.Sound p) {k : Nat} {f : PFrame} {i : Fin maxRegs} {s : Resv}
    (hf : ctx.frames[k]? = some f) (hi : f.res i = some s) (hx : s.value = some x) : s.slot.read buf = x := by
  have hframe := hs.frames f (List.mem_of_getElem? hf)
  obtain ⟨-, -, hread⟩ := hframe.valued i s x hi hx
  have hstop := (hframe.slot i s hi).2
  have hroom := hs.room
  have hroom' := hc.room
  rw [← hread]
  exact Slot.read_congr (by omega) (by omega) fun b hlo hhi => hc.bits b (by omega) (hs.shut hf hi hx hlo hhi)

lemma getReg_readBack {f : PFrame} (hf : ctx.frames[r.up]? = some f) (hi : r.idx < maxRegs)
    (hx : (f.readBack buf).regs ⟨r.idx, hi⟩ = x) : (getReg (ctx.readBack buf) r : Exec Kind Int) = .ok x := by
  have hget : (ctx.readBack buf)[r.up]? = some (f.readBack buf) := by
    rw [PCtx.readBack, List.getElem?_map, hf, Option.map_some]
  simp only [getReg, hget, dif_pos hi, hx]

/-- A register that pack reads has what will be read. -/
lemma Completes.getReg (hc : Completes buf p ctx) (hs : ctx.Sound p) (h : ctx.getReg r = .ok x) :
    (Rustruct.getReg (ctx.readBack buf) r : Exec Kind Int) = .ok x := by
  unfold PCtx.getReg at h
  cases hf : ctx.frames[r.up]? with
  | none =>
    rw [hf] at h
    cases h
  | some f =>
    rw [hf] at h
    dsimp only at h
    split_ifs at h with hi hknown
    · cases h
      have hframe := hs.frames f (List.mem_of_getElem? hf)
      refine getReg_readBack hf hi ?_
      cases hres : f.res ⟨r.idx, hi⟩ with
      | none => exact readBack_plain hres
      | some s =>
        rw [readBack_slot hres]
        cases hv : s.value with
        | none =>
          rw [hframe.unknown _ s hres hv] at hknown
          cases hknown
        | some y =>
          rw [hc.slot hs hf hres hv]
          exact (hframe.valued _ s y hres hv).2.1.symm
    · cases h
    · cases h

/-- A register that a consumer has settled has what will be read. -/
lemma Completes.settled (hc : Completes buf p ctx) (hs : ctx.Sound p) {f : PFrame} (hf : ctx.frames[r.up]? = some f)
    (hi : r.idx < maxRegs) (h : f.Settled ⟨r.idx, hi⟩ x) :
    (Rustruct.getReg (ctx.readBack buf) r : Exec Kind Int) = .ok x := by
  refine getReg_readBack hf hi ?_
  rcases h with ⟨hn, -, hreg⟩ | ⟨slot, hslot⟩
  · rw [readBack_plain hn, hreg]
  · rw [readBack_slot hslot]
    exact hc.slot hs hf hslot rfl

end Registers

/-! ### Expressions -/

lemma runIns_mono {get get' : Reg → Exec Kind Int} (h : ∀ r x, get r = .ok x → get' r = .ok x) {ins : List Ins}
    {stack stack' : List Int} (hrun : runIns get ins stack = .ok stack') : runIns get' ins stack = .ok stack' := by
  induction ins generalizing stack with
  | nil => exact hrun
  | cons i ins ih =>
    obtain ⟨next, hstep, hrun⟩ := Exec.bind_eq_ok.mp hrun
    have hstep' : i.step get' stack = .ok next := by
      cases i with
      | imm n => exact hstep
      | reg r =>
        rw [Ins.step] at hstep ⊢
        by_cases hroom : stack.length < exprStack
        · rw [if_pos hroom] at hstep ⊢
          obtain ⟨x, hx, hpush⟩ := Exec.bind_eq_ok.mp hstep
          exact Exec.bind_eq_ok.mpr ⟨x, h r x hx, hpush⟩
        · rw [if_neg hroom] at hstep
          cases hstep
      | op o => exact hstep
    exact Exec.bind_eq_ok.mpr ⟨next, hstep', ih hrun⟩

lemma eval_mono {get get' : Reg → Exec Kind Int} (h : ∀ r x, get r = .ok x → get' r = .ok x) {expr : Expr} {n : Int}
    (heval : expr.eval get = .ok n) : expr.eval get' = .ok n := by
  obtain ⟨stack, hrun, hone⟩ := Exec.bind_eq_ok.mp heval
  exact Exec.bind_eq_ok.mpr ⟨stack, runIns_mono h hrun, hone⟩

section Lengths

variable {buf : Bytes} {p : Nat} {ctx next : PCtx} {Γ : Env} {seen : Seen}

/-- What pack computes is what the direct reading computes. -/
lemma Completes.read (hc : Completes buf p ctx) (hs : ctx.Sound p) (hΓ : EnvOk Γ)
    (henv : EnvCarries buf.length Γ seen (ctx.readBack buf)) {use : RefCtx} {e : ExprIn} {expr : Expr}
    (hlow : LowersExpr Γ use e expr) {n : Int} (h : ctx.eval expr = .ok n) : e.read seen = some n := by
  have heval := eval_mono (fun r x => hc.getReg hs) (Exec.mapErr_eq_ok.mp h)
  obtain ⟨m, hm, -, rfl⟩ := (hlow.mirrors hΓ henv).ok n heval
  exact hm

/-- Where its field has been derived from it, a length is read as it was. -/
lemma LowersLin.read {e : ExprIn} {expr : Expr} {inv : Inv} (hlow : LowersLin Γ e expr inv) {most : Nat}
    (hexact : e.Exact most) (hΓ : EnvOk Γ) (henv : EnvCarries buf.length Γ seen (ctx.readBack buf)) {x actual : Int}
    (hx : InI64 x) (hval : inv.a * x + inv.b = actual) (hactual : 0 ≤ actual) (hmost : actual ≤ most)
    (hmax : actual ≤ i64Max) (hget : (getReg (ctx.readBack buf) inv.reg : Exec Kind Int) = .ok x) :
    e.read seen = some actual := by
  obtain ⟨folded, name, hfold, hlin, -, href, -⟩ := hlow
  have honly : ∀ n, e.mentions n → n = name := by
    intro n hn
    rw [← fold_mentions_eq hfold] at hn
    simpa [Lin.name] using (linear_name hlin hn).symm
  obtain ⟨v, hv, hgetv⟩ := href.carried hΓ henv
  have hvx : v = x := by
    rw [hget] at hgetv
    exact (Except.ok.inj hgetv).symm
  have heval := hexact folded _ hfold hlin x hx
  simp only [Lin.value, hval] at heval
  have hread : e.read seen = (e.eval fun _ => x).toOption := by
    apply read_eq_eval
    intro n hn
    rw [honly n hn, hv, hvx]
  rw [hread, heval hactual hmost hmax]
  rfl

/-- What a length says, other than "*". -/
lemma PCtx.Sound.finishLen {e : ExprIn} {expr : Expr} {inv : Option Inv} (hs : ctx.Sound p)
    (hlow : LowersLen Γ e (.expr expr inv)) {actual : Nat} (h : ctx.finishLen (.expr expr inv) actual = .ok next) :
    Moves FrameKept p ctx p next ∧ ∀ buf seen, EnvOk Γ → EnvCarries buf.length Γ seen (ctx.readBack buf) →
      Completes buf p next → ∀ most, actual ≤ most → e.Exact most → e.read seen = some (actual : Int) := by
  have key : ((∃ n, 0 ≤ n ∧ fold e = .ok (.imm n) ∧ LenSrc.expr expr inv = .expr (.imm n) none) ∨
      ∃ expr' inv', LowersLin Γ e expr' inv' ∧ LenSrc.expr expr inv = .expr expr' (some inv')) →
      Moves FrameKept p ctx p next ∧ ∀ buf seen, EnvOk Γ → EnvCarries buf.length Γ seen (ctx.readBack buf) →
        Completes buf p next → ∀ most, actual ≤ most → e.Exact most → e.read seen = some (actual : Int) := by
    rintro (⟨n, -, hfold, heq⟩ | ⟨expr', inv', hlin, heq⟩)
    · cases heq
      obtain ⟨m, hm, h⟩ := Exec.bind_eq_ok.mp h
      obtain rfl : n = m := Option.some.inj (Exec.expect_eq_ok.mp hm)
      split_ifs at h with hne
      · cases h
      · cases h
        refine ⟨.refl hs, fun buf seen _ _ _ _ _ _ => ?_⟩
        have heval : e.read seen = (e.eval fun _ => 0).toOption := by
          apply read_eq_eval
          intro k hk
          rw [← fold_mentions_eq hfold] at hk
          cases hk
        rw [heval, ← fold_eval hfold, not_not.mp hne]
        rfl
    · cases heq
      obtain ⟨folded, name, -, hl, ha, -, -⟩ := id hlin
      have hb : InI64 inv'.b := linear_fits hl rfl
      have hnat : (0 : Int) ≤ actual := Int.natCast_nonneg actual
      rw [PCtx.finishLen] at h
      cases hck : checkedI64 (actual : Int) with
      | none =>
        rw [hck] at h
        cases h
      | some n =>
        rw [hck] at h
        obtain ⟨hin, rfl⟩ := checkedI64_eq_some.mp hck
        obtain ⟨hmoves, x, hx, g, hg, hi, hset⟩ := hs.applyInv h fun y hy => (invert_ok ha hb hnat hy).1
        obtain ⟨hfits, hval⟩ := invert_ok ha hb hnat hx
        refine ⟨hmoves, fun buf seen hΓ henv hc most hmost hexact => ?_⟩
        have hsame : next.readBack buf = ctx.readBack buf := hmoves.readBack
        rw [← hsame] at henv
        exact hlin.read hexact hΓ henv hfits hval hnat (Int.ofNat_le.mpr hmost) hin.2
          (hc.settled hmoves.sound hg hi hset)
  cases e with
  | greedy => cases hlow
  | imm | ref | bin => exact key hlow

end Lengths

end Rustruct

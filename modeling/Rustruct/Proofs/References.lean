import Rustruct.Proofs.Scopes
import Mathlib.Data.List.Forall2

/-!
# References

What compiling an expression does to the open scopes: a referenced symbol gets its register
and its roles, and nothing else changes.
-/

namespace Rustruct

/-- What compiling below a scope may change in it. -/
structure ScopeStep (sc sc' : Scope) : Prop where
  syms : List.Forall₂ SymStep sc.syms sc'.syms
  bare : (piecesOf sc'.ops).map Piece.bare = (piecesOf sc.ops).map Piece.bare
  digests : sc'.digests = sc.digests

lemma forall₂_refl {α : Type} {R : α → α → Prop} (h : ∀ a, R a a) (l : List α) :
    List.Forall₂ R l l :=
  List.forall₂_same.mpr fun a _ => h a

lemma forall₂_trans {α : Type} {R : α → α → Prop} (h : ∀ a b c, R a b → R b c → R a c)
    {l m n : List α} (hlm : List.Forall₂ R l m) (hmn : List.Forall₂ R m n) : List.Forall₂ R l n := by
  induction hlm generalizing n with
  | nil => exact hmn
  | cons hab _ ih =>
    cases hmn with
    | cons hbc hmn => exact .cons (h _ _ _ hab hbc) (ih hmn)

lemma ScopeStep.refl (sc : Scope) : ScopeStep sc sc :=
  ⟨forall₂_refl SymStep.refl _, rfl, rfl⟩

lemma ScopeStep.trans {a b c : Scope} (h : ScopeStep a b) (h' : ScopeStep b c) : ScopeStep a c :=
  ⟨forall₂_trans (R := SymStep) (fun _ _ _ => SymStep.trans) h.syms h'.syms, h'.bare.trans h.bare,
    h'.digests.trans h.digests⟩

lemma SymStep.names {syms syms' : List Sym} (h : List.Forall₂ SymStep syms syms') :
    syms'.map Sym.name = syms.map Sym.name := by
  induction h with
  | nil => rfl
  | cons hs _ ih => rw [List.map_cons, List.map_cons, hs.name, ih]

/-- Registers only come from references to names `M`, which no scope further in declares. -/
inductive RegsFrom : (String → Prop) → List Scope → List Scope → Prop where
  | nil {M : String → Prop} : RegsFrom M [] []
  | cons {M : String → Prop} {sc sc' : Scope} {S S' : List Scope}
      (top : List.Forall₂ (fun s t => t.reg.isSome → s.reg.isSome ∨ M s.name) sc.syms sc'.syms)
      (rest : RegsFrom (fun n => M n ∧ n ∉ sc.syms.map Sym.name) S S') :
      RegsFrom M (sc :: S) (sc' :: S')

lemma RegsFrom.refl (M : String → Prop) (S : List Scope) : RegsFrom M S S := by
  induction S generalizing M with
  | nil => exact .nil
  | cons sc S ih => exact .cons (forall₂_refl (fun _ h => .inl h) _) (ih _)

lemma RegsFrom.mono {M N : String → Prop} (hMN : ∀ n, M n → N n) {S S' : List Scope}
    (h : RegsFrom M S S') : RegsFrom N S S' := by
  induction h generalizing N with
  | nil => exact .nil
  | cons top _ ih =>
    exact .cons (top.imp fun _ _ h hr => (h hr).imp_right (hMN _)) (ih fun n hn => ⟨hMN n hn.1, hn.2⟩)

lemma RegsFrom.trans {M : String → Prop} {S S' S'' : List Scope}
    (hstep : List.Forall₂ ScopeStep S S') (h : RegsFrom M S S') (h' : RegsFrom M S' S'') :
    RegsFrom M S S'' := by
  induction h generalizing S'' with
  | nil => exact h'
  | @cons M sc sc' S S' top rest ih =>
    cases h' with
    | cons top' rest' =>
      cases hstep with
      | cons hs hss =>
        have hn := SymStep.names hs.syms
        refine .cons ?_ (ih hss (rest'.mono fun n hn' => by rwa [hn] at hn'))
        have hsyms := hs.syms
        revert top' top hsyms
        generalize sc.syms = l
        generalize sc'.syms = m
        generalize (_ : Scope).syms = n
        intro top top' hsyms
        induction top generalizing n with
        | nil => cases top'; exact .nil
        | cons h _ ih =>
          cases top' with
          | cons h' ht' =>
            cases hsyms with
            | cons hs hst =>
              refine .cons (fun hr => ?_) (ih _ ht' hst)
              obtain hr | hm := h' hr
              · exact h hr
              · exact .inr (hs.name ▸ hm)

/-- One step of the compiler on the open scopes. -/
structure Steps (M : String → Prop) (S S' : List Scope) : Prop where
  scopes : List.Forall₂ ScopeStep S S'
  regs : RegsFrom M S S'
  ok : ∀ sc ∈ S', ScopeOk sc

lemma Steps.refl (M : String → Prop) {S : List Scope} (h : ∀ sc ∈ S, ScopeOk sc) : Steps M S S :=
  ⟨forall₂_refl ScopeStep.refl S, .refl M S, h⟩

lemma Steps.mono {M N : String → Prop} (hMN : ∀ n, M n → N n) {S S' : List Scope}
    (h : Steps M S S') : Steps N S S' :=
  ⟨h.scopes, h.regs.mono hMN, h.ok⟩

lemma Steps.trans {M : String → Prop} {S S' S'' : List Scope} (h : Steps M S S')
    (h' : Steps M S' S'') : Steps M S S'' :=
  ⟨forall₂_trans (R := ScopeStep) (fun _ _ _ => ScopeStep.trans) h.scopes h'.scopes,
    h.regs.trans h.scopes h'.regs, h'.ok⟩

/-- What later references may change in a symbol of the environment. -/
structure SymLe (s t : Sym) : Prop where
  name : t.name = s.name
  kind : t.kind = s.kind
  reg : ∀ r ∈ s.reg, t.reg = some r
  lenReferenced : s.lenReferenced → t.lenReferenced
  usedInOn : s.usedInOn → t.usedInOn

abbrev EnvLe (Γ Δ : Env) : Prop := List.Forall₂ (List.Forall₂ SymLe) Γ Δ

lemma SymLe.trans {s t u : Sym} (h : SymLe s t) (h' : SymLe t u) : SymLe s u :=
  ⟨h'.name.trans h.name, h'.kind.trans h.kind, fun r hr => h'.reg r (h.reg r hr),
    h'.lenReferenced ∘ h.lenReferenced, h'.usedInOn ∘ h.usedInOn⟩

lemma SymStep.le {s t : Sym} (h : SymStep s t) : SymLe s t :=
  ⟨h.name, h.kind, h.reg, h.lenReferenced, h.usedInOn⟩

lemma EnvLe.trans {Γ Δ Θ : Env} (h : EnvLe Γ Δ) (h' : EnvLe Δ Θ) : EnvLe Γ Θ :=
  forall₂_trans (R := List.Forall₂ SymLe)
    (fun _ _ _ => forall₂_trans (R := SymLe) fun _ _ _ => SymLe.trans) h h'

/-- The environment of the open scopes. -/
def envOf (S : List Scope) : Env := S.map Scope.syms

lemma envLe_of_steps {S S' : List Scope} (h : List.Forall₂ ScopeStep S S') :
    EnvLe (envOf S) (envOf S') := by
  induction h with
  | nil => exact .nil
  | cons hs _ ih => exact .cons (hs.syms.imp fun _ _ => SymStep.le) ih

lemma Steps.envLe {M : String → Prop} {S S' : List Scope} {Γ : Env} (h : Steps M S S')
    (hΓ : EnvLe (envOf S') Γ) : EnvLe (envOf S) Γ :=
  (envLe_of_steps h.scopes).trans hΓ

lemma findSym_le {syms syms' : List Sym} (h : List.Forall₂ SymLe syms syms') (n : String) :
    Option.Rel SymLe (findSym syms n) (findSym syms' n) := by
  induction h with
  | nil => exact .none
  | @cons s t _ _ hs _ ih =>
    unfold findSym at ih ⊢
    rw [List.find?_cons, List.find?_cons, hs.name]
    split
    · exact .some hs
    · exact ih

lemma lookupSym_le {Γ Δ : Env} (h : EnvLe Γ Δ) {n : String} {up : Nat} {s : Sym}
    (hs : lookupSym Γ n = some (up, s)) : ∃ t, lookupSym Δ n = some (up, t) ∧ SymLe s t := by
  induction h generalizing up s with
  | nil => cases hs
  | @cons syms syms' _ _ hl _ ih =>
    have hf := findSym_le hl n
    rw [lookupSym] at hs ⊢
    cases ha : findSym syms n with
    | some u =>
      rw [ha] at hf hs
      cases hb : findSym syms' n with
      | none => rw [hb] at hf; cases hf
      | some u' =>
        rw [hb] at hf
        obtain ⟨rfl, rfl⟩ : 0 = up ∧ u = s := by simpa using hs
        cases hf with
        | some hu => exact ⟨u', rfl, hu⟩
    | none =>
      rw [ha] at hf hs
      cases hb : findSym syms' n with
      | some u' => rw [hb] at hf; cases hf
      | none =>
        obtain ⟨⟨up', u⟩, hu, he⟩ := Option.map_eq_some_iff.mp hs
        obtain ⟨rfl, rfl⟩ : up' + 1 = up ∧ u = s := by simpa using he
        obtain ⟨t, ht, hle⟩ := ih hu
        exact ⟨t, by simp [ht], hle⟩

lemma RefCtx.allows_le {ctx : RefCtx} {s t : Sym} (h : SymLe s t) (ha : ctx.allows s) :
    ctx.allows t := by
  cases ctx with
  | len => exact ha.imp (fun hc => (congrArg SymKind.isConst h.kind).trans hc) h.lenReferenced
  | on => exact h.usedInOn ha
  | pred => trivial

lemma LowersRef.le {Γ Δ : Env} (h : EnvLe Γ Δ) {ctx : RefCtx} {name : String} {reg : Reg}
    (hr : LowersRef Γ ctx name reg) : LowersRef Δ ctx name reg := by
  obtain ⟨up, s, hs, href, hreg, hup, hal⟩ := hr
  obtain ⟨t, ht, hle⟩ := lookupSym_le h hs
  exact ⟨up, t, ht, (congrArg SymKind.refable hle.kind).trans href, hle.reg _ hreg, hup,
    RefCtx.allows_le hle hal⟩

/-- A referenced symbol with its register. -/
lemma allocReg_ok {sc sc' : Scope} {a b : List Sym} {s : Sym} {idx : Nat} (hok : ScopeOk sc)
    (hsplit : sc.syms = a ++ s :: b) (href : s.refable)
    (h : sc.allocReg a.length s = .ok (idx, sc')) :
    ScopeOk sc' ∧ ∃ s', sc'.syms = a ++ s' :: b ∧ SymStep s s' ∧ s'.reg = some idx ∧
      (piecesOf sc'.ops).map Piece.bare = (piecesOf sc.ops).map Piece.bare ∧
      sc'.digests = sc.digests := by
  obtain ⟨ops, syms, nregs, nspans, digests⟩ := sc
  subst hsplit
  unfold Scope.allocReg at h
  cases hreg : s.reg with
  | some r =>
    simp only [hreg, Except.ok.injEq, Prod.mk.injEq] at h
    obtain ⟨rfl, rfl⟩ := h
    exact ⟨hok, s, rfl, .refl s, hreg, rfl, rfl⟩
  | none =>
    simp only [hreg] at h
    split_ifs at h with hmax
    · simp [schemaErr] at h
    simp only [Exec.bind_eq_ok, Except.ok.injEq, Prod.mk.injEq] at h
    obtain ⟨ops', hops, rfl, rfl⟩ := h
    have hp := patchReg_patched (hok.keys s (by simp)) hops
    have hstep : SymStep s { s with reg := some nregs } :=
      { SymStep.refl s with reg := fun r hr => by rw [hreg] at hr; cases hr }
    rw [modify_split]
    have hsyms := hok.syms
    refine ⟨hok.patch hp (harmless_setReg nregs) rfl rfl rfl ?_ ?_, _, rfl, hstep, rfl, ?_, rfl⟩
    · intro p hpm hk _ hspan hder
      -- Only a field that holds an integer is refable.
      have hint := (hok.fits p hpm s (by simp) hk).1 href
      cases p with
      | fixed | bit => exact ⟨rfl, hspan, hder⟩
      | op => cases hint
    · refine hsyms.replace rfl (hsyms.regs.replace (Nat.le_succ _) (.inr ⟨_, rfl, Nat.le_refl _,
        Nat.lt_succ_self _⟩)) (by omega) (hsyms.spans.replace (Nat.le_refl _) (.inl rfl))
        hsyms.nspans_le (fun _ => href) ?_ fun _ => rfl
      exact hsyms.spannable s (by simp)
    · exact hp.bare hok (harmless_setReg nregs)

/-- The flags of a symbol, whose field stays as it is. -/
lemma use_ok {sc : Scope} {a b : List Sym} {s : Sym} (ctx : RefCtx) (hok : ScopeOk sc)
    (hsplit : sc.syms = a ++ s :: b) (hreg : s.reg.isSome) :
    ScopeOk { sc with syms := a ++ s.use ctx :: b } := by
  obtain ⟨ops, syms, nregs, nspans, digests⟩ := sc
  subst hsplit
  have hstep := symStep_use ctx s
  have hsyms := hok.syms
  have hid : Patched s.name id ops ops :=
    ⟨fun _ => by
      rw [List.map_congr_left (g := id), List.map_id]
      intro p _
      unfold patchNamed
      split_ifs <;> rfl, fun _ => rfl, rfl⟩
  have hr := use_reg ctx s
  refine hok.patch hid ⟨fun _ => rfl, fun _ => rfl, fun _ => rfl, fun _ => rfl⟩ hstep.name hstep.loc
    hstep.kind ?_ ?_
  · intro p _ _ hreg' hspan hder
    exact ⟨hreg'.trans hr.symm, hspan.trans hstep.span.symm, hder.trans hstep.derived.symm⟩
  · refine hsyms.replace hstep.name (hsyms.regs.replace (Nat.le_refl _) (.inl hr)) hsyms.nregs_le
      (hsyms.spans.replace (Nat.le_refl _) (.inl hstep.span)) hsyms.nspans_le ?_ ?_ ?_
    · rw [hr, hstep.refable]
      exact hsyms.refable s (by simp)
    · rw [hstep.span, show (s.use ctx).spannable = s.spannable from
        congrArg SymKind.spannable hstep.kind]
      exact hsyms.spannable s (by simp)
    · rw [hr]
      exact fun _ => hreg

/-- A reference to a symbol of a scope. -/
lemma refer_ok {sc sc' : Scope} {a b : List Sym} {s : Sym} {idx : Nat} {name : String}
    {ctx : RefCtx} (hok : ScopeOk sc) (hsplit : sc.syms = a ++ s :: b)
    (h : sc.refer name a.length s ctx = .ok (idx, sc')) :
    ScopeOk sc' ∧ ScopeStep sc sc' ∧ ∃ s', sc'.syms = a ++ s' :: b ∧ SymStep s s' ∧
      s'.reg = some idx ∧ s'.refable ∧ ctx.allows s' := by
  unfold Scope.refer at h
  by_cases hflags : s.isFlags
  · simp [hflags, schemaErr] at h
  by_cases href : s.refable
  swap
  · simp [hflags, href, schemaErr] at h
  simp only [hflags, href, not_true, if_false, Bool.false_eq_true, Exec.bind_eq_ok, Prod.exists,
    Except.ok.injEq, Prod.mk.injEq] at h
  obtain ⟨idx', sc₁, hal, rfl, rfl⟩ := h
  obtain ⟨hok₁, s₁, hs₁, hstep₁, hreg₁, hbare, hdig⟩ :=
    allocReg_ok hok hsplit href hal
  have hok₂ := use_ok ctx hok₁ hs₁ (by simp [hreg₁])
  have hstep := hstep₁.trans (symStep_use ctx s₁)
  rw [hs₁, modify_split]
  refine ⟨hok₂, ⟨?_, hbare, hdig⟩, _, rfl, hstep, ?_, ?_, use_allows ctx s₁⟩
  · rw [hsplit]
    exact List.rel_append (forall₂_refl SymStep.refl a) (.cons hstep (forall₂_refl SymStep.refl b))
  · rw [use_reg, hreg₁]
  · rw [hstep.refable]
    exact href

/-- A reference resolves to the innermost declaration. -/
lemma resolveIn_steps {name : String} {ctx : RefCtx} {up : Nat} {S S' : List Scope} {reg : Reg}
    (hok : ∀ sc ∈ S, ScopeOk sc) (h : resolveIn name ctx up S = .ok (reg, S')) :
    Steps (fun n => n = name) S S' ∧ ∃ d s, lookupSym (envOf S') name = some (d, s) ∧
      s.refable ∧ s.reg = some reg.idx ∧ reg.up = (up + d) % 256 ∧ ctx.allows s := by
  induction S generalizing up S' with
  | nil => simp [resolveIn, schemaErr] at h
  | cons sc S ih =>
    rw [resolveIn] at h
    cases hpos : sc.syms.findIdx? (fun s => s.name == name) with
    | none =>
      simp only [hpos, Exec.bind_eq_ok, Prod.exists, Except.ok.injEq, Prod.mk.injEq] at h
      obtain ⟨reg', S₁, hS₁, rfl, rfl⟩ := h
      obtain ⟨hsteps, d, s, hs, hrest⟩ := ih (fun sc' h' => hok sc' (by simp [h'])) hS₁
      have hnone := findIdx_name_none hpos
      refine ⟨⟨.cons (.refl sc) hsteps.scopes, ?_, ?_⟩, d + 1, s, ?_, hrest.1, hrest.2.1, ?_, hrest.2.2.2⟩
      · refine .cons (forall₂_refl (fun _ h => .inl h) _) (hsteps.regs.mono ?_)
        rintro n rfl
        exact ⟨rfl, hnone⟩
      · intro sc' h'
        obtain rfl | h' := List.mem_cons.mp h'
        · exact hok _ (by simp)
        · exact hsteps.ok sc' h'
      · rw [envOf, List.map_cons, lookupSym, findSym_eq_none.mpr hnone]
        simp only
        rw [show S₁.map Scope.syms = envOf S₁ from rfl, hs]
        rfl
      · rw [hrest.2.2.1]
        omega
    | some pos =>
      obtain ⟨a, s, b, hsplit, rfl, hname, hget⟩ := findIdx_name hpos
      simp only [hpos, hget, Exec.expect_some, Exec.bind_ok, Exec.bind_eq_ok, Prod.exists,
        Except.ok.injEq, Prod.mk.injEq] at h
      obtain ⟨idx, sc₁, hsc₁, rfl, rfl⟩ := h
      obtain ⟨hok₁, hstep, s', hs', hss, hreg, href, hal⟩ :=
        refer_ok (hok sc (by simp)) hsplit hsc₁
      refine ⟨⟨.cons hstep (forall₂_refl ScopeStep.refl S), ?_, ?_⟩, 0, s', ?_, href, hreg, by simp,
        hal⟩
      · refine .cons ?_ (.refl _ S)
        rw [hsplit, hs']
        exact List.rel_append (forall₂_refl (fun _ h => .inl h) a)
          (.cons (fun _ => .inr hname) (forall₂_refl (fun _ h => .inl h) b))
      · intro sc' h'
        obtain rfl | h' := List.mem_cons.mp h'
        · exact hok₁
        · exact hok sc' (by simp [h'])
      · have hfind : findSym sc₁.syms name = some s' := by
          rw [← hname, ← hss.name]
          exact findSym_of_mem hok₁.syms.names (by simp [hs'])
        rw [envOf, List.map_cons, lookupSym, hfind]

section Monad

variable {α β : Type}

lemma C.bind_eq_ok {x : C α} {f : α → C β} {S S'' : List Scope} {b : β} :
    (x >>= f) S = .ok (b, S'') ↔ ∃ a S', x S = .ok (a, S') ∧ f a S' = .ok (b, S'') := by
  show (x S >>= fun r => f r.1 r.2) = _ ↔ _
  rw [Exec.bind_eq_ok, Prod.exists]

lemma C.pure_eq_ok {a b : α} {S S' : List Scope} :
    (pure a : C α) S = .ok (b, S') ↔ a = b ∧ S = S' := by
  show (Except.ok (a, S) : SRes (α × List Scope)) = _ ↔ _
  simp

lemma C.lift_eq_ok {x : SRes α} {S S' : List Scope} {a : α} :
    (liftM x : C α) S = .ok (a, S') ↔ x = .ok a ∧ S = S' := by
  show (x >>= fun r => (Except.ok (r, S) : SRes (α × List Scope))) = _ ↔ _
  simp [Exec.bind_eq_ok]

end Monad

lemma resolveRef_steps {name : String} {ctx : RefCtx} {S S' : List Scope} {reg : Reg}
    (hok : ∀ sc ∈ S, ScopeOk sc) (h : resolveRef name ctx S = .ok (reg, S')) :
    Steps (fun n => n = name) S S' ∧ ∀ Γ, EnvLe (envOf S') Γ → LowersRef Γ ctx name reg := by
  obtain ⟨hsteps, d, s, hs, href, hreg, hup, hal⟩ := resolveIn_steps hok h
  exact ⟨hsteps, fun Γ hΓ => LowersRef.le hΓ ⟨d, s, hs, href, hreg, by simpa using hup, hal⟩⟩

lemma emitInto_steps {ctx : RefCtx} {e : ExprIn} {S S' : List Scope} {ins : List Ins}
    (hok : ∀ sc ∈ S, ScopeOk sc) (h : emitInto ctx e S = .ok (ins, S')) :
    Steps (fun n => e.mentions n) S S' ∧ ∀ Γ, EnvLe (envOf S') Γ → LowersInto Γ ctx e ins := by
  induction e generalizing S S' ins with
  | imm n =>
    obtain ⟨rfl, rfl⟩ := C.pure_eq_ok.mp h
    exact ⟨.refl _ hok, fun _ _ => rfl⟩
  | greedy => simp [emitInto, schemaErr] at h
  | ref name =>
    obtain ⟨reg, S₁, hr, h⟩ := C.bind_eq_ok.mp h
    obtain ⟨rfl, rfl⟩ := C.pure_eq_ok.mp h
    obtain ⟨hsteps, hlow⟩ := resolveRef_steps hok hr
    refine ⟨hsteps.mono ?_, fun Γ hΓ => ⟨reg, hlow Γ hΓ, rfl⟩⟩
    rintro n rfl
    simp [ExprIn.mentions]
  | bin op l r ihl ihr =>
    obtain ⟨il, S₁, hl, h⟩ := C.bind_eq_ok.mp h
    obtain ⟨ir, S₂, hr, h⟩ := C.bind_eq_ok.mp h
    obtain ⟨rfl, rfl⟩ := C.pure_eq_ok.mp h
    obtain ⟨hs₁, hlow₁⟩ := ihl hok hl
    obtain ⟨hs₂, hlow₂⟩ := ihr hs₁.ok hr
    refine ⟨(hs₁.mono ?_).trans (hs₂.mono ?_), fun Γ hΓ =>
      ⟨il, ir, hlow₁ Γ (hs₂.envLe hΓ), hlow₂ Γ hΓ, rfl⟩⟩
    · intro n hn
      simp [ExprIn.mentions, hn]
    · intro n hn
      simp [ExprIn.mentions, hn]

lemma emitExpr_steps {ctx : RefCtx} {e folded : ExprIn} (hf : fold e = .ok folded)
    {S S' : List Scope} {expr : Expr} (hok : ∀ sc ∈ S, ScopeOk sc)
    (h : emitExpr ctx folded S = .ok (expr, S')) :
    Steps (fun n => folded.mentions n) S S' ∧
      ∀ Γ, EnvLe (envOf S') Γ → LowersExpr Γ ctx e expr := by
  obtain ⟨ins, S₁, hi, h⟩ := C.bind_eq_ok.mp h
  split_ifs at h with hd
  · simp [schemaErr] at h
  · obtain ⟨rfl, rfl⟩ := C.pure_eq_ok.mp h
    obtain ⟨hsteps, hlow⟩ := emitInto_steps hok hi
    exact ⟨hsteps, fun Γ hΓ => ⟨folded, hf, hlow Γ hΓ, Nat.le_of_not_lt hd⟩⟩

lemma foldBin_mentions {op : BinOp} {l r e : ExprIn} (h : foldBin op l r = .ok e) (n : String) :
    e.mentions n → l.mentions n ∨ r.mentions n := by
  unfold foldBin at h
  split at h
  · simp only [Exec.bind_eq_ok, Except.ok.injEq] at h
    obtain ⟨c, -, rfl⟩ := h
    simp [ExprIn.mentions]
  · cases h
    simp [ExprIn.mentions]

lemma fold_mentions {e folded : ExprIn} (h : fold e = .ok folded) (n : String) :
    folded.mentions n → e.mentions n := by
  induction e generalizing folded with
  | imm | ref => cases h; exact id
  | greedy => simp [fold, schemaErr] at h
  | bin op l r ihl ihr =>
    simp only [fold, Exec.bind_eq_ok] at h
    obtain ⟨fl, hl, fr, hr, h⟩ := h
    intro hm
    rw [ExprIn.mentions, Bool.or_eq_true]
    exact (foldBin_mentions h n hm).imp (ihl hl) (ihr hr)

/-- The name a linear form refers to. -/
def Lin.name (l : Lin) : Option String := l.ref.map Prod.fst

lemma Lin.scale_name {l r : Lin} {k : Int} (h : l.scale k = some r) : r.name = l.name := by
  unfold Lin.scale at h
  unfold Lin.name
  cases hl : l.ref with
  | none =>
    simp only [hl, Option.map_eq_some_iff] at h
    obtain ⟨_, -, rfl⟩ := h
    rfl
  | some p =>
    simp only [hl, Option.bind_eq_bind, Option.bind_eq_some_iff, Option.some.injEq] at h
    obtain ⟨_, -, _, -, rfl⟩ := h
    rfl

lemma Lin.add_name {l r s : Lin} (h : l.add r = some s) : s.name = l.name.or r.name := by
  obtain ⟨lr, lb⟩ := l
  obtain ⟨rr, rb⟩ := r
  cases lr <;> cases rr <;> simp only [Lin.add, Option.map_eq_some_iff, reduceCtorEq] at h
  all_goals
    obtain ⟨_, -, rfl⟩ := h
    rfl

lemma Lin.sub_name {l r s : Lin} (h : l.sub r = some s) : s.name = l.name.or r.name := by
  obtain ⟨lr, lb⟩ := l
  obtain ⟨rr, rb⟩ := r
  cases lr <;> cases rr <;> simp only [Lin.sub, Option.map_eq_some_iff, Option.bind_eq_bind,
    Option.bind_eq_some_iff, Option.some.injEq, reduceCtorEq] at h
  · obtain ⟨_, -, rfl⟩ := h
    rfl
  · obtain ⟨_, -, _, -, rfl⟩ := h
    rfl
  · obtain ⟨_, -, rfl⟩ := h
    rfl

lemma Lin.mul_name {l r s : Lin} (h : l.mul r = some s) : s.name = l.name.or r.name := by
  obtain ⟨lr, lb⟩ := l
  obtain ⟨rr, rb⟩ := r
  cases lr <;> cases rr <;> simp only [Lin.mul, reduceCtorEq] at h
  all_goals exact Lin.scale_name h

/-- The referenced name of a linear form occurs in it. -/
lemma linear_mentions {e : ExprIn} {l : Lin} (h : linear e = some l) {n : String}
    (hn : l.name = some n) : e.mentions n := by
  induction e generalizing l n with
  | imm m => cases h; cases hn
  | greedy => cases h
  | ref name =>
    cases h
    obtain rfl : name = n := by simpa [Lin.name] using hn
    simp [ExprIn.mentions]
  | bin op x y ihx ihy =>
    simp only [linear, Option.bind_eq_bind, Option.bind_eq_some_iff] at h
    obtain ⟨lx, hx, ly, hy, h⟩ := h
    have hor : lx.name.or ly.name = some n := by
      cases op <;> simp only [reduceCtorEq] at h
      · rw [← Lin.add_name h, hn]
      · rw [← Lin.sub_name h, hn]
      · rw [← Lin.mul_name h, hn]
    rw [ExprIn.mentions, Bool.or_eq_true]
    cases hxn : lx.name with
    | some m =>
      rw [hxn, Option.some_or] at hor
      exact .inl (ihx hx (hxn.trans hor))
    | none =>
      rw [hxn, Option.none_or] at hor
      exact .inr (ihy hy hor)

lemma buildLin_steps {what : String} {e folded : ExprIn} (hf : fold e = .ok folded)
    {S S' : List Scope} {len : LenSrc} (hok : ∀ sc ∈ S, ScopeOk sc)
    (h : buildLin what folded S = .ok (len, S')) :
    Steps (fun n => e.mentions n) S S' ∧ ∀ Γ, EnvLe (envOf S') Γ →
      ∃ expr inv, LowersLin Γ e expr inv ∧ len = .expr expr (some inv) := by
  unfold buildLin at h
  cases hlin : linear folded with
  | none => simp [hlin, schemaErr] at h
  | some l =>
    obtain ⟨ref, b⟩ := l
    cases ref with
    | none => simp [hlin] at h
    | some r =>
      obtain ⟨name, a⟩ := r
      simp only [hlin] at h
      split_ifs at h with ha
      · simp [schemaErr] at h
      obtain ⟨reg, S₁, hr, h⟩ := C.bind_eq_ok.mp h
      obtain ⟨expr, S₂, he, h⟩ := C.bind_eq_ok.mp h
      obtain ⟨rfl, rfl⟩ := C.pure_eq_ok.mp h
      obtain ⟨hs₁, hlow₁⟩ := resolveRef_steps hok hr
      obtain ⟨hs₂, hlow₂⟩ := emitExpr_steps hf hs₁.ok he
      refine ⟨(hs₁.mono ?_).trans (hs₂.mono fun n => fold_mentions hf n), fun Γ hΓ =>
        ⟨expr, ⟨reg, a, b⟩, ⟨folded, name, hf, hlin, ha, hlow₁ Γ (hs₂.envLe hΓ), hlow₂ Γ hΓ⟩, rfl⟩⟩
      rintro n rfl
      exact fold_mentions hf n (linear_mentions hlin rfl)

lemma buildLen_steps {what : String} {e : ExprIn} {S S' : List Scope} {len : LenSrc}
    (hok : ∀ sc ∈ S, ScopeOk sc) (h : buildLen e what S = .ok (len, S')) :
    Steps (fun n => e.mentions n) S S' ∧ ∀ Γ, EnvLe (envOf S') Γ → LowersLen Γ e len := by
  by_cases hg : e = .greedy
  · subst hg
    obtain ⟨rfl, rfl⟩ := C.pure_eq_ok.mp h
    exact ⟨.refl _ hok, fun _ _ => rfl⟩
  rw [buildLen.eq_2 _ _ hg] at h
  obtain ⟨folded, S₁, hlift, h⟩ := C.bind_eq_ok.mp h
  obtain ⟨hf, rfl⟩ := C.lift_eq_ok.mp hlift
  have goal : Steps (fun n => e.mentions n) S S' ∧ ∀ Γ, EnvLe (envOf S') Γ →
      ((∃ n, 0 ≤ n ∧ fold e = .ok (.imm n) ∧ len = .expr (.imm n) none) ∨
        ∃ expr inv, LowersLin Γ e expr inv ∧ len = .expr expr (some inv)) := by
    split at h
    · split_ifs at h with hn
      · simp [schemaErr] at h
      · obtain ⟨rfl, rfl⟩ := C.pure_eq_ok.mp h
        exact ⟨.refl _ hok, fun _ _ => .inl ⟨_, Int.not_lt.mp hn, hf, rfl⟩⟩
    · obtain ⟨hsteps, hlow⟩ := buildLin_steps hf hok h
      exact ⟨hsteps, fun Γ hΓ => .inr (hlow Γ hΓ)⟩
  refine ⟨goal.1, fun Γ hΓ => ?_⟩
  have := goal.2 Γ hΓ
  cases e <;> first | exact absurd rfl hg | exact this

lemma buildSize_steps {size : Option ExprIn} {S S' : List Scope} {size' : Option LenSrc}
    (hok : ∀ sc ∈ S, ScopeOk sc) (h : buildSize size S = .ok (size', S')) :
    Steps (fun n => size.any (ExprIn.mentions n)) S S' ∧
      ∀ Γ, EnvLe (envOf S') Γ → LowersSize Γ size size' := by
  cases size with
  | none =>
    obtain ⟨rfl, rfl⟩ := C.pure_eq_ok.mp h
    exact ⟨.refl _ hok, fun _ _ => rfl⟩
  | some e =>
    obtain ⟨len, S₁, hl, h⟩ := C.bind_eq_ok.mp h
    obtain ⟨hsteps, hlow⟩ := buildLen_steps hok hl
    cases len with
    | greedy => simp [schemaErr] at h
    | expr expr inv =>
      obtain ⟨rfl, rfl⟩ := C.pure_eq_ok.mp h
      exact ⟨hsteps, fun Γ hΓ => ⟨_, hlow Γ hΓ, by simp, rfl⟩⟩

lemma buildCount_steps {count : Option ExprIn} {untilEof : Bool} {S S' : List Scope}
    {count' : CountSrc} (hok : ∀ sc ∈ S, ScopeOk sc)
    (h : buildCount count untilEof S = .ok (count', S')) :
    Steps (fun n => count.any (ExprIn.mentions n)) S S' ∧
      ∀ Γ, EnvLe (envOf S') Γ → LowersCount Γ count untilEof count' := by
  cases count with
  | none =>
    cases untilEof with
    | false => simp [buildCount, schemaErr] at h
    | true =>
      obtain ⟨rfl, rfl⟩ := C.pure_eq_ok.mp h
      exact ⟨.refl _ hok, fun _ _ => rfl⟩
  | some e =>
    cases untilEof with
    | true => simp [buildCount, schemaErr] at h
    | false =>
      by_cases hg : e = .greedy
      · subst hg
        obtain ⟨rfl, rfl⟩ := C.pure_eq_ok.mp h
        exact ⟨.refl _ hok, fun _ _ => rfl⟩
      rw [buildCount.eq_5 _ hg] at h
      obtain ⟨len, S₁, hl, h⟩ := C.bind_eq_ok.mp h
      obtain ⟨hsteps, hlow⟩ := buildLen_steps hok hl
      cases len with
      | greedy =>
        -- Only a greedy expression has a greedy length.
        exfalso
        have := hlow (envOf S₁) (envLe_of_steps (forall₂_refl ScopeStep.refl S₁))
        cases e <;> simp [LowersLen] at this hg
      | expr expr inv =>
        obtain ⟨rfl, rfl⟩ := C.pure_eq_ok.mp h
        refine ⟨hsteps, fun Γ hΓ => ?_⟩
        have := hlow Γ hΓ
        cases e <;> first | exact absurd rfl hg | exact ⟨expr, inv, this, rfl⟩

end Rustruct

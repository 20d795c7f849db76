import Rustruct.Proofs.Finishing

/-!
# What compile establishes

Every accepted schema is lowered as `LowersScope` says. The induction is on the type; a
field is a step on the open scopes and then one new field at the end of the innermost one.
-/

namespace Rustruct

/-- The field `atom` and its symbol at the end of the scope. -/
structure Added (name : Option String) (atom : Atom) (kind : SymKind) (sc sc' : Scope) : Prop where
  ok : ScopeOk sc'
  syms : ∃ loc, sc'.syms = sc.syms ++ declared name loc kind
  bare : (piecesOf sc'.ops).map Piece.bare = (piecesOf sc.ops).map Piece.bare ++ [atom.bare]
  digests : sc'.digests.map (fun d => (d.2.2, d.2.1)) =
    sc.digests.map (fun d => (d.2.2, d.2.1)) ++ atom.digest?.toList
  proper : atom.Proper

section Added

variable {name : Option String} {n : String} {atom : Atom} {kind : SymKind} {sc : Scope}
  {S S'' : List Scope}

lemma Added.of_pushed {p : Piece} {loc : Loc} {ops' : List Op} (hok : ScopeOk sc)
    (hp : Pushed p loc sc.ops ops') (hb : p.bare = atom.bare) (hkey : p.key = keyOf name)
    (hf : FreshName name sc.syms) (hreg : p.reg = none) (hspan : p.span = none)
    (hder : p.derived = false) (hfits : p.Fits kind) (hd : atom.digest? = none)
    (hproper : atom.Proper) :
    Added name atom kind sc { sc with ops := ops', syms := sc.syms ++ declared name loc kind } where
  ok := hok.push _ hp hkey hf hreg hspan hder hfits
  syms := ⟨loc, rfl⟩
  bare := by simp [hp.pieces, hb]
  digests := by simp [hd]
  proper := hproper

lemma pushFixed_added (kind : SymKind) {k : FixKind} (hok : ScopeOk sc) (hf : FreshName name sc.syms)
    (hk : k.unmark = k) (hder : k.isDerived = false) (hint : kind.refable → k.isInt)
    (h : (do
      let loc ← pushFixed k (keyOf name)
      addSym name loc kind.refable kind.isFlags kind.isConst kind.spannable : C Unit) (sc :: S) =
        .ok ((), S'')) :
    ∃ sc', S'' = sc' :: S ∧ Added name (.fixed k (keyOf name)) kind sc sc' := by
  obtain ⟨loc, S₁, hp, h⟩ := C.bind_eq_ok.mp h
  obtain ⟨rfl, rfl⟩ : (pushFixedOps k (keyOf name) sc.ops).1 = loc ∧
      { sc with ops := (pushFixedOps k (keyOf name) sc.ops).2 } :: S = S₁ := by
    simpa [pushFixed, onTop] using hp
  rw [addSym_eq] at h
  obtain rfl : _ = S'' := by simpa using h
  exact ⟨_, rfl, .of_pushed hok (pushFixedOps_pushed k (keyOf name) sc.ops)
    (by simp [Piece.bare, Atom.bare, hk]) rfl hf rfl rfl hder ⟨hint, fun _ => rfl⟩ rfl hk⟩

lemma pushBit_added (kind : SymKind) {width : Nat} {signed : Bool} (hok : ScopeOk sc)
    (hf : FreshName name sc.syms) (hsp : kind.spannable = false)
    (h : (do
      let loc ← pushBit { width, signed, reg := none, derived := false, key := keyOf name }
      addSym name loc kind.refable kind.isFlags kind.isConst kind.spannable : C Unit) (sc :: S) =
        .ok ((), S'')) :
    ∃ sc', S'' = sc' :: S ∧ Added name (.bit width signed (keyOf name)) kind sc sc' := by
  obtain ⟨loc, S₁, hp, h⟩ := C.bind_eq_ok.mp h
  set item : BitItem := { width, signed, reg := none, derived := false, key := keyOf name }
  obtain ⟨rfl, rfl⟩ : (pushBitOps item sc.ops).1 = loc ∧
      { sc with ops := (pushBitOps item sc.ops).2 } :: S = S₁ := by
    simpa [pushBit, onTop] using hp
  rw [addSym_eq] at h
  obtain rfl : _ = S'' := by simpa using h
  refine ⟨_, rfl, .of_pushed hok (pushBitOps_pushed item sc.ops) rfl rfl hf rfl rfl rfl
    ⟨fun _ => rfl, fun hs => ?_⟩ rfl trivial⟩
  rw [hsp] at hs
  cases hs

/-- A dynamic field. -/
lemma addOp_added {op : Op} {isFlags spannable : Bool} (atom : Atom) (hok : ScopeOk sc)
    (hf : FreshName (some n) sc.syms) (hc : op.common = some (.named n))
    (hb : (Piece.op op).bare = atom.bare) (hd : atom.digest? = none) (hproper : atom.Proper)
    (h : addOp n op isFlags spannable (sc :: S) = .ok ((), S'')) :
    ∃ sc', S'' = sc' :: S ∧ Added (some n) atom { isFlags, spannable } sc sc' := by
  obtain ⟨loc, S₁, hp, h⟩ := C.bind_eq_ok.mp h
  obtain ⟨rfl, rfl⟩ : Loc.op sc.ops.length = loc ∧ { sc with ops := sc.ops ++ [op] } :: S = S₁ := by
    simpa [pushOp, onTop] using hp
  rw [show addSym (some n) (.op sc.ops.length) false isFlags false spannable =
    addSym (some n) (.op sc.ops.length) (SymKind.mk false isFlags false spannable).refable isFlags
      false spannable from rfl, addSym_eq] at h
  obtain rfl : _ = S'' := by simpa using h
  refine ⟨_, rfl, .of_pushed hok (pushOp_pushed _ hc sc.ops) hb ?_ hf rfl ?_ rfl
    ⟨Bool.noConfusion, fun _ => rfl⟩ hd hproper⟩
  · simp [Piece.key, hc, Common.named, keyOf]
  · simp [Piece.span, hc, Common.named]

/-- A dynamic field whose value is that of the element op `o`. -/
lemma addOp_op {o op : Op} {isFlags spannable : Bool} (hok : ScopeOk sc)
    (hf : FreshName (some n) sc.syms) (hc : o.common.isSome) (hnd : o.isDigest = false)
    (hop : op = o.withCommon fun _ => .named n)
    (h : addOp n op isFlags spannable (sc :: S) = .ok ((), S'')) :
    ∃ sc', S'' = sc' :: S ∧ Added (some n) (.op o n) { isFlags, spannable } sc sc' := by
  subst hop
  obtain ⟨c, hc'⟩ := Option.isSome_iff_exists.mp hc
  refine addOp_added _ hok hf (by simp [hc']) ?_ rfl ⟨hc, hnd⟩ h
  simp only [Piece.bare, Atom.bare, setOver_withCommon, withCommon_withCommon,
    setOver_of_not_digest hnd, Piece.op.injEq]
  rfl

end Added

variable {opts : Options}

/-- What compiling a type in a value position establishes. -/
def ElemOk (opts : Options) (ty : TypeIn) : Prop :=
  ∀ {bo : ByteOrder} {S S' : List Scope} {op : Op}, (∀ sc ∈ S, ScopeOk sc) →
    compileElem opts ty bo S = .ok (op, S') →
    Steps (fun n => ty.mentions n) S S' ∧ ∀ Γ, EnvLe (envOf S') Γ → LowersElem opts ty Γ bo op

/-- What compiling a type in a field position establishes. -/
def FieldOk (opts : Options) (ty : TypeIn) : Prop :=
  ∀ {bo : ByteOrder} {name : Option String} {sc : Scope} {S S'' : List Scope},
    (∀ s ∈ sc :: S, ScopeOk s) → FreshName name sc.syms →
    compileField opts ty bo name (sc :: S) = .ok ((), S'') →
    ∃ sc₁ sc' S' atom kind, S'' = sc' :: S' ∧
      Steps (fun n => ty.mentions n) (sc :: S) (sc₁ :: S') ∧ Added name atom kind sc₁ sc' ∧
      ∀ Γ, EnvLe (envOf (sc₁ :: S')) Γ → LowersField opts ty Γ bo name atom kind

/-- A symbol of an open scope and what it is in the end. -/
structure Settled (s t : Sym) : Prop where
  le : SymLe s t
  reg : t.reg.isSome → s.reg.isSome

/-- What the fields after a symbol may change in it. -/
structure SymRun (fields : List FieldIn) (s t : Sym) : Prop where
  step : SymStep s t
  reg : t.reg.isSome → s.reg.isSome ∨ fieldsMention s.name fields

/-- What compiling `fields` does to the innermost scope `sc` and those around it. -/
structure Filled (opts : Options) (fields : List FieldIn) (bo : ByteOrder) (sc : Scope)
    (S : List Scope) (sc' : Scope) (S' : List Scope) (atoms : List Atom) : Prop where
  outer : List.Forall₂ ScopeStep S S'
  regs : RegsFrom (fun n => fieldsMention n fields ∧ n ∉ sc.syms.map Sym.name) S S'
  ok : ∀ s ∈ sc' :: S', ScopeOk s
  syms : ∃ old more, sc'.syms = old ++ more ∧ List.Forall₂ (SymRun fields) sc.syms old
  derived : (∀ s ∈ sc.syms, s.derived = false) → ∀ s ∈ sc'.syms, s.derived = false
  bare : (piecesOf sc'.ops).map Piece.bare =
    (piecesOf sc.ops).map Piece.bare ++ atoms.map Atom.bare
  digests : sc'.digests.map (fun d => (d.2.2, d.2.1)) =
    sc.digests.map (fun d => (d.2.2, d.2.1)) ++ atoms.filterMap Atom.digest?
  proper : ∀ a ∈ atoms, a.Proper
  lowers : ∀ full Γ, List.Forall₂ Settled sc'.syms full → EnvLe (envOf S') Γ →
    LowersFields opts fields Γ bo full sc.syms.length atoms

lemma forall₂_split {α β : Type} {R : α → β → Prop} {a b : List α} {l : List β}
    (h : List.Forall₂ R (a ++ b) l) :
    ∃ l₁ l₂, l = l₁ ++ l₂ ∧ List.Forall₂ R a l₁ ∧ List.Forall₂ R b l₂ := by
  induction a generalizing l with
  | nil => exact ⟨[], l, rfl, .nil, h⟩
  | cons x a ih =>
    cases h with
    | cons hx h =>
      obtain ⟨l₁, l₂, rfl, h₁, h₂⟩ := ih h
      exact ⟨_ :: l₁, l₂, rfl, .cons hx h₁, h₂⟩

lemma forall₂_comp {α β γ : Type} {R : α → β → Prop} {Q : β → γ → Prop} {P : α → γ → Prop}
    (hP : ∀ a b c, R a b → Q b c → P a c) {l : List α} {m : List β} {n : List γ}
    (h : List.Forall₂ R l m) (h' : List.Forall₂ Q m n) : List.Forall₂ P l n := by
  induction h generalizing n with
  | nil => cases h'; exact .nil
  | cons hx _ ih =>
    cases h' with
    | cons hy h' => exact .cons (hP _ _ _ hx hy) (ih h')

lemma Filled.nil {bo : ByteOrder} {sc : Scope} {S : List Scope} (hok : ∀ s ∈ sc :: S, ScopeOk s) :
    Filled opts [] bo sc S sc S [] where
  outer := forall₂_refl ScopeStep.refl S
  regs := .refl _ S
  ok := hok
  syms := ⟨sc.syms, [], by simp, forall₂_refl (fun s => ⟨.refl s, .inl⟩) _⟩
  derived := id
  bare := by simp
  digests := by simp
  proper := by simp
  lowers full Γ hf _ := ⟨hf.length_eq, rfl⟩

lemma mem_declared {name : Option String} {loc : Loc} {kind : SymKind} {n : String} :
    n ∈ (declared name loc kind).map Sym.name ↔ name = some n := by
  cases name <;> simp [declared, Sym.declare, eq_comm]

/-- A field, then the fields after it. -/
lemma Filled.cons {name : Option String} {ty : TypeIn} {fields : List FieldIn} {bo : ByteOrder}
    {sc sc₁ sc₂ sc' : Scope} {S S₂ S' : List Scope} {atom : Atom} {kind : SymKind}
    {atoms : List Atom} (hfresh : FreshName name sc.syms) (hname : ∀ n ∈ name, n ≠ "")
    (hsteps : Steps (fun n => ty.mentions n) (sc :: S) (sc₁ :: S₂))
    (hadd : Added name atom kind sc₁ sc₂)
    (hlow : ∀ Γ, EnvLe (envOf (sc₁ :: S₂)) Γ → LowersField opts ty Γ bo name atom kind)
    (h : Filled opts fields bo sc₂ S₂ sc' S' atoms) :
    Filled opts (.mk name ty :: fields) bo sc S sc' S' (atom :: atoms) := by
  obtain ⟨loc, hsyms₂⟩ := hadd.syms
  obtain ⟨hsc, hS⟩ := List.forall₂_cons.mp hsteps.scopes
  have hnames : sc₁.syms.map Sym.name = sc.syms.map Sym.name := SymStep.names hsc.syms
  obtain ⟨htop, hrest⟩ : List.Forall₂ (fun s t => t.reg.isSome → s.reg.isSome ∨ ty.mentions s.name)
      sc.syms sc₁.syms ∧ RegsFrom (fun n => ty.mentions n ∧ n ∉ sc.syms.map Sym.name) S S₂ := by
    cases hsteps.regs with
    | cons htop hrest => exact ⟨htop, hrest⟩
  obtain ⟨old, more, hold, hrun⟩ := h.syms
  rw [hsyms₂] at hrun
  obtain ⟨old₁, old₂, rfl, hrun₁, hrun₂⟩ := forall₂_split hrun
  have hlen : sc₁.syms.length = sc.syms.length := hsc.syms.length_eq.symm
  refine ⟨forall₂_trans (R := ScopeStep) (fun _ _ _ => ScopeStep.trans) hS h.outer,
    RegsFrom.trans hS (hrest.mono ?_) (h.regs.mono ?_), h.ok, ?_, ?_, ?_, ?_, ?_, ?_⟩
  · rintro n ⟨hm, hn⟩
    exact ⟨by simp [fieldsMention, hm], hn⟩
  · rintro n ⟨hm, hn⟩
    rw [hsyms₂, List.map_append, List.mem_append, not_or, hnames, mem_declared] at hn
    exact ⟨by simp [fieldsMention, hm, hn.2], hn.1⟩
  · refine ⟨old₁, old₂ ++ more, by simpa using hold, ?_⟩
    have hsteps₁ : List.Forall₂ (fun s t => s ∈ sc.syms ∧ SymStep s t ∧
        (t.reg.isSome → s.reg.isSome ∨ ty.mentions s.name)) sc.syms sc₁.syms := by
      refine List.forall₂_iff_get.mpr ⟨htop.length_eq, fun i h₁ h₂ => ⟨List.get_mem _ _, ?_, ?_⟩⟩
      · exact (List.forall₂_iff_get.mp hsc.syms).2 i h₁ h₂
      · exact (List.forall₂_iff_get.mp htop).2 i h₁ h₂
    refine forall₂_comp ?_ hsteps₁ hrun₁
    rintro s t u ⟨hmem, hst, hreg⟩ htu
    refine ⟨hst.trans htu.step, fun hu => ?_⟩
    -- The new name is not that of an older symbol.
    have hne : name ≠ some s.name := fun he => hfresh s.name he (List.mem_map_of_mem hmem)
    obtain ht | hm := htu.reg hu
    · exact (hreg ht).imp_right fun hm => by simp [fieldsMention, hm]
    · rw [hst.name] at hm
      exact .inr (by simp [fieldsMention, hm, hne])
  · intro hder
    refine h.derived fun t ht => ?_
    rw [hsyms₂] at ht
    rcases List.mem_append.mp ht with ht | ht
    · obtain ⟨i, hi, rfl⟩ := List.mem_iff_get.mp ht
      rw [((List.forall₂_iff_get.mp hsc.syms).2 i (by omega) i.2).derived]
      exact hder _ (List.get_mem _ _)
    · cases name with
      | none => simp [declared] at ht
      | some n =>
        obtain rfl : t = .declare n loc kind := by simpa [declared] using ht
        rfl
  · rw [h.bare, hadd.bare, hsc.bare]
    simp
  · rw [h.digests, hadd.digests, hsc.digests, List.append_assoc]
    cases hd : atom.digest? <;> simp [hd]
  · intro a ha
    obtain rfl | ha := List.mem_cons.mp ha
    · exact hadd.proper
    · exact h.proper a ha
  · intro full Γ hfull hΓ
    have hlow₂ := h.lowers full Γ hfull hΓ
    rw [hold] at hfull
    obtain ⟨full₁₂, full₃, rfl, hf₁₂, -⟩ := forall₂_split hfull
    obtain ⟨full₁, full₂, rfl, hf₁, hf₂⟩ := forall₂_split hf₁₂
    have hlen₁ : full₁.length = sc.syms.length := by
      rw [← hf₁.length_eq, ← hrun₁.length_eq, hlen]
    have htake : (full₁ ++ full₂ ++ full₃).take sc.syms.length = full₁ := by
      rw [← hlen₁, List.append_assoc, List.take_left']
      rfl
    have henv : EnvLe (envOf (sc₁ :: S₂)) (full₁ :: Γ) :=
      .cons (forall₂_comp (fun _ _ _ hs ht => hs.step.le.trans ht.le) hrun₁ hf₁)
        ((envLe_of_steps h.outer).trans hΓ)
    cases name with
    | none =>
      simp only [declared, Option.map_none, Option.toList_none] at hsyms₂ hrun₂
      cases hrun₂
      cases hf₂
      rw [hsyms₂, List.length_append, hlen] at hlow₂
      refine ⟨atom, kind, atoms, ?_, hlow₂, rfl⟩
      rw [htake]
      exact hlow _ henv
    | some n =>
      simp only [declared, Option.map_some, Option.toList_some] at hsyms₂ hrun₂
      obtain ⟨s', rfl⟩ : ∃ s', old₂ = [s'] := List.length_eq_one_iff.mp hrun₂.length_eq.symm
      obtain ⟨s, rfl⟩ : ∃ s, full₂ = [s] := List.length_eq_one_iff.mp hf₂.length_eq.symm
      have hs' : SymRun fields (.declare n loc kind) s' := (List.forall₂_cons.mp hrun₂).1
      have hs : Settled s' s := (List.forall₂_cons.mp hf₂).1
      have hkind : s.kind = kind := hs.le.kind.trans hs'.step.kind
      rw [hsyms₂, List.length_append, hlen] at hlow₂
      refine ⟨atom, s, atoms, ?_, ?_, hs.le.name.trans hs'.step.name, hname n rfl, fun hr => ?_,
        hlow₂, rfl⟩
      · rw [htake, hkind]
        exact hlow _ henv
      · rw [← hlen₁]
        simp
      · obtain hr | hm := hs'.reg (hs.reg hr)
        · cases hr
        · exact hm

lemma checkName_ok {name : Option String} {sc : Scope} {S S' : List Scope}
    (h : checkName name (sc :: S) = .ok ((), S')) :
    S' = sc :: S ∧ FreshName name sc.syms ∧ ∀ n ∈ name, n ≠ "" := by
  cases name with
  | none =>
    obtain rfl : _ = S' := by simpa [checkName, onTop] using h
    exact ⟨rfl, by simp [FreshName], by simp⟩
  | some n =>
    by_cases he : n.isEmpty
    · simp [checkName, onTop, he, schemaErr] at h
    by_cases hd : sc.syms.any fun s => s.name == n
    · simp [checkName, onTop, he, hd, schemaErr] at h
    obtain rfl : _ = S' := by simpa [checkName, onTop, he, hd] using h
    refine ⟨rfl, ?_, ?_⟩
    · rintro m hm
      cases hm
      simpa using hd
    · rintro m hm
      cases hm
      rintro rfl
      exact he rfl

lemma compileFields_filled {fields : List FieldIn} (hfs : ∀ f ∈ fields, FieldOk opts f.ty)
    {bo : ByteOrder} {sc : Scope} {S S'' : List Scope} (hok : ∀ s ∈ sc :: S, ScopeOk s)
    (h : compileFields opts fields bo (sc :: S) = .ok ((), S'')) :
    ∃ sc' S' atoms, S'' = sc' :: S' ∧ Filled opts fields bo sc S sc' S' atoms := by
  induction fields generalizing sc S with
  | nil =>
    rw [compileFields] at h
    obtain ⟨-, rfl⟩ := C.pure_eq_ok.mp h
    exact ⟨sc, S, [], rfl, .nil hok⟩
  | cons f fields ih =>
    obtain ⟨name, ty⟩ := f
    rw [compileFields] at h
    obtain ⟨_, S₁, hcheck, h⟩ := C.bind_eq_ok.mp h
    obtain ⟨rfl, hfresh, hname⟩ := checkName_ok hcheck
    obtain ⟨_, S₂, hfield, h⟩ := C.bind_eq_ok.mp h
    obtain ⟨sc₁, sc₂, S₃, atom, kind, rfl, hsteps, hadd, hlow⟩ :=
      hfs (.mk name ty) (by simp) hok hfresh hfield
    have hok₂ : ∀ s ∈ sc₂ :: S₃, ScopeOk s := by
      intro s hs
      obtain rfl | hs := List.mem_cons.mp hs
      · exact hadd.ok
      · exact hsteps.ok s (by simp [hs])
    obtain ⟨sc', S', atoms, rfl, hfill⟩ := ih (fun f hf => hfs f (by simp [hf])) hok₂ h
    exact ⟨sc', S', atom :: atoms, rfl, .cons hfresh hname hsteps hadd hlow hfill⟩

/-- A scope from its start to its program. -/
lemma inScope_filled {fields : List FieldIn} (hfs : ∀ f ∈ fields, FieldOk opts f.ty)
    {bo : ByteOrder} {S S' : List Scope} {prog : Program} (hok : ∀ s ∈ S, ScopeOk s)
    (h : inScope (compileFields opts fields bo) S = .ok (prog, S')) :
    ∃ sc full atoms, compileFields opts fields bo (Scope.empty :: S) = .ok ((), sc :: S') ∧
      Filled opts fields bo Scope.empty S sc S' atoms ∧
      List.Forall₂ SpanStep (sc.syms.map Sym.settle) full ∧ Assembled full atoms prog := by
  simp only [inScope, Exec.bind_eq_ok] at h
  obtain ⟨⟨_, S''⟩, hbody, h⟩ := h
  have hok₀ : ∀ s ∈ Scope.empty :: S, ScopeOk s := by
    intro s hs
    obtain rfl | hs := List.mem_cons.mp hs
    · exact .empty
    · exact hok s hs
  obtain ⟨sc, S₁, atoms, rfl, hfill⟩ := compileFields_filled hfs hok₀ hbody
  simp only [Exec.bind_eq_ok, Except.ok.injEq, Prod.mk.injEq] at h
  obtain ⟨sc₁, hder, prog', hfin, rfl, rfl⟩ := h
  have hnone := hfill.derived (by simp [Scope.empty])
  obtain ⟨hok₁, hsyms₁, hbare₁, hdig₁⟩ :=
    resolveDerives_ok [] rfl (hfill.ok sc (by simp)) hnone hder
  simp only [List.nil_append] at hsyms₁
  obtain ⟨full, hasm, hspan⟩ := finishScope_ok atoms hok₁ (by
      intro s hs
      rw [hsyms₁] at hs
      obtain ⟨t, -, rfl⟩ := List.mem_map.mp hs
      rfl)
    (by rw [hbare₁, hfill.bare]; rfl) hfill.proper
    (by rw [hdig₁, hfill.digests]; rfl) hfin
  exact ⟨sc, full, atoms, hbody, hfill, hsyms₁ ▸ hspan, hasm⟩

/-- A struct in a scope of its own. -/
lemma inScope_steps {fields : List FieldIn} (hfs : ∀ f ∈ fields, FieldOk opts f.ty)
    {bo : ByteOrder} {S S' : List Scope} {prog : Program} (hok : ∀ s ∈ S, ScopeOk s)
    (h : inScope (compileFields opts fields bo) S = .ok (prog, S')) :
    Steps (fun n => fieldsMention n fields) S S' ∧
      ∀ Γ, EnvLe (envOf S') Γ → LowersScope opts fields Γ bo prog := by
  obtain ⟨sc, full, atoms, -, hfill, hspan, hasm⟩ := inScope_filled hfs hok h
  have hsettled : List.Forall₂ Settled sc.syms full := by
    rw [List.forall₂_map_left_iff] at hspan
    refine hspan.imp fun s t hst => ?_
    rw [hst.same]
    exact ⟨⟨rfl, rfl, fun _ h => h, id, id⟩, id⟩
  refine ⟨⟨hfill.outer, hfill.regs.mono fun n hn => hn.1, fun s hs => hfill.ok s (by simp [hs])⟩,
    fun Γ hΓ => ⟨full, atoms, hfill.lowers full Γ hsettled hΓ, hasm⟩⟩

lemma compileCases_steps {cases : List (Int × TypeIn)} (hcs : ∀ branch ∈ cases, ElemOk opts branch.2)
    {bo : ByteOrder} {tags : List Int} {S S' : List Scope} {cases' : List (Int × Op)}
    (hok : ∀ s ∈ S, ScopeOk s) (h : compileCases opts cases bo tags S = .ok (cases', S')) :
    Steps (fun n => casesMention n cases) S S' ∧
      ∀ Γ, EnvLe (envOf S') Γ → LowersCases opts cases Γ bo cases' := by
  induction cases generalizing tags S cases' with
  | nil =>
    rw [compileCases] at h
    obtain ⟨rfl, rfl⟩ := C.pure_eq_ok.mp h
    exact ⟨.refl _ hok, fun _ _ => rfl⟩
  | cons branch cases ih =>
    obtain ⟨tag, ty⟩ := branch
    rw [compileCases] at h
    split_ifs at h with htag
    · simp [schemaErr] at h
    obtain ⟨op, S₁, hop, h⟩ := C.bind_eq_ok.mp h
    obtain ⟨rest, S₂, hrest, h⟩ := C.bind_eq_ok.mp h
    obtain ⟨rfl, rfl⟩ := C.pure_eq_ok.mp h
    obtain ⟨hs₁, hlow₁⟩ := hcs (tag, ty) (by simp) hok hop
    obtain ⟨hs₂, hlow₂⟩ := ih (fun b hb => hcs b (by simp [hb])) hs₁.ok hrest
    refine ⟨(hs₁.mono ?_).trans (hs₂.mono ?_), fun Γ hΓ =>
      ⟨op, rest, hlow₁ Γ (hs₂.envLe hΓ), hlow₂ Γ hΓ, rfl⟩⟩
    · intro n hn
      simp [casesMention, hn]
    · intro n hn
      simp [casesMention, hn]

lemma compileDefault_steps {default : Option TypeIn} (hd : ∀ ty ∈ default, ElemOk opts ty)
    {bo : ByteOrder} {S S' : List Scope} {default' : Option Op} (hok : ∀ s ∈ S, ScopeOk s)
    (h : compileDefault opts default bo S = .ok (default', S')) :
    Steps (fun n => defaultMentions n default) S S' ∧
      ∀ Γ, EnvLe (envOf S') Γ → LowersDefault opts default Γ bo default' := by
  cases default with
  | none =>
    rw [compileDefault] at h
    obtain ⟨rfl, rfl⟩ := C.pure_eq_ok.mp h
    exact ⟨.refl _ hok, fun _ _ => rfl⟩
  | some ty =>
    rw [compileDefault] at h
    obtain ⟨op, S₁, hop, h⟩ := C.bind_eq_ok.mp h
    obtain ⟨rfl, rfl⟩ := C.pure_eq_ok.mp h
    obtain ⟨hs, hlow⟩ := hd ty rfl hok hop
    exact ⟨hs, fun Γ hΓ => ⟨op, hlow Γ hΓ, rfl⟩⟩

section Lift

variable {α β : Type} {S S' : List Scope} {b : β}

lemma lift_bind_ok {x : SRes α} {f : α → C β} (h : ((liftM x : C α) >>= f) S = .ok (b, S')) :
    ∃ a, x = .ok a ∧ f a S = .ok (b, S') := by
  obtain ⟨a, S₁, hx, hf⟩ := C.bind_eq_ok.mp h
  obtain ⟨hx', rfl⟩ := C.lift_eq_ok.mp hx
  exact ⟨a, hx', hf⟩

/-- Fields that need a name have one. -/
lemma named_bind_ok {name : Option String} {what : String} {f : String → C β}
    (h : ((liftM (namedOnly name what) : C String) >>= f) S = .ok (b, S')) :
    ∃ n, name = some n ∧ f n S = .ok (b, S') := by
  obtain ⟨n, hn, hf⟩ := lift_bind_ok h
  cases name with
  | none => simp [namedOnly, schemaErr] at hn
  | some m =>
    obtain rfl : m = n := by simpa [namedOnly] using hn
    exact ⟨m, rfl, hf⟩

end Lift

/-- The tag, the branches and the default of a switch. -/
def switchParts (opts : Options) (on : ExprIn) (cases : List (Int × TypeIn))
    (default : Option TypeIn) (bo : ByteOrder) : C (Expr × List (Int × Op) × Option Op) := do
  let folded ← (fold on : SRes ExprIn)
  let on ← emitExpr .on folded
  let cases ← compileCases opts cases bo []
  let default ← compileDefault opts default bo
  return (on, cases, default)

lemma switchParts_steps {on : ExprIn} {cases : List (Int × TypeIn)} {default : Option TypeIn}
    (hcs : ∀ branch ∈ cases, ElemOk opts branch.2) (hd : ∀ ty ∈ default, ElemOk opts ty)
    {bo : ByteOrder} {S S' : List Scope} {on' : Expr} {cases' : List (Int × Op)}
    {default' : Option Op} (hok : ∀ s ∈ S, ScopeOk s)
    (h : switchParts opts on cases default bo S = .ok ((on', cases', default'), S')) :
    Steps (fun n => on.mentions n || casesMention n cases || defaultMentions n default) S S' ∧
      ∀ Γ, EnvLe (envOf S') Γ → LowersExpr Γ .on on on' ∧ LowersCases opts cases Γ bo cases' ∧
        LowersDefault opts default Γ bo default' := by
  obtain ⟨folded, hfold, h⟩ := lift_bind_ok h
  obtain ⟨e, S₁, he, h⟩ := C.bind_eq_ok.mp h
  obtain ⟨cs, S₂, hcs', h⟩ := C.bind_eq_ok.mp h
  obtain ⟨d, S₃, hd', h⟩ := C.bind_eq_ok.mp h
  obtain ⟨hres, rfl⟩ := C.pure_eq_ok.mp h
  simp only [Prod.mk.injEq] at hres
  obtain ⟨rfl, rfl, rfl⟩ := hres
  obtain ⟨hs₁, hlow₁⟩ := emitExpr_steps hfold hok he
  obtain ⟨hs₂, hlow₂⟩ := compileCases_steps hcs hs₁.ok hcs'
  obtain ⟨hs₃, hlow₃⟩ := compileDefault_steps hd hs₂.ok hd'
  refine ⟨((hs₁.mono ?_).trans (hs₂.mono ?_)).trans (hs₃.mono ?_), fun Γ hΓ =>
    ⟨hlow₁ Γ (hs₂.envLe (hs₃.envLe hΓ)), hlow₂ Γ (hs₃.envLe hΓ), hlow₃ Γ hΓ⟩⟩
  · intro n hn
    simp [fold_mentions hfold n hn]
  · intro n hn
    simp [hn]
  · intro n hn
    simp [hn]

lemma compileElem_switch {on : ExprIn} {cases : List (Int × TypeIn)} {default : Option TypeIn}
    {bo : ByteOrder} {S S' : List Scope} {op : Op}
    (h : compileElem opts (.switch on cases default) bo S = .ok (op, S')) :
    ∃ on' cases' default', switchParts opts on cases default bo S = .ok ((on', cases', default'), S') ∧
      op = .switch on' cases' default' .skip := by
  rw [compileElem] at h
  split_ifs at h with he
  · simp [schemaErr] at h
  obtain ⟨folded, S₀, hfold, h⟩ := C.bind_eq_ok.mp h
  obtain ⟨on', S₁, hon, h⟩ := C.bind_eq_ok.mp h
  obtain ⟨cases', S₂, hcs, h⟩ := C.bind_eq_ok.mp h
  obtain ⟨default', S₃, hd, h⟩ := C.bind_eq_ok.mp h
  obtain ⟨rfl, rfl⟩ := C.pure_eq_ok.mp h
  exact ⟨on', cases', default', C.bind_eq_ok.mpr ⟨_, _, hfold, C.bind_eq_ok.mpr ⟨_, _, hon,
    C.bind_eq_ok.mpr ⟨_, _, hcs, C.bind_eq_ok.mpr ⟨_, _, hd, rfl⟩⟩⟩⟩, rfl⟩

lemma compileField_switch {on : ExprIn} {cases : List (Int × TypeIn)} {default : Option TypeIn}
    {bo : ByteOrder} {name : Option String} {S S' : List Scope}
    (h : compileField opts (.switch on cases default) bo name S = .ok ((), S')) :
    ∃ n on' cases' default' S₁, name = some n ∧
      switchParts opts on cases default bo S = .ok ((on', cases', default'), S₁) ∧
      addOp n (.switch on' cases' default' (.named n)) false true S₁ = .ok ((), S') := by
  rw [compileField] at h
  obtain ⟨n, rfl, hc⟩ := named_bind_ok h
  split_ifs at hc with he
  · simp [schemaErr] at hc
  obtain ⟨folded, S₀, hfold, h⟩ := C.bind_eq_ok.mp hc
  obtain ⟨on', S₁, hon, h⟩ := C.bind_eq_ok.mp h
  obtain ⟨cases', S₂, hcs, h⟩ := C.bind_eq_ok.mp h
  obtain ⟨default', S₃, hd, h⟩ := C.bind_eq_ok.mp h
  exact ⟨n, on', cases', default', S₃, rfl, C.bind_eq_ok.mpr ⟨_, _, hfold,
    C.bind_eq_ok.mpr ⟨_, _, hon, C.bind_eq_ok.mpr ⟨_, _, hcs, C.bind_eq_ok.mpr ⟨_, _, hd, rfl⟩⟩⟩⟩, h⟩

section Cases

variable {ty : TypeIn}

/-- A field that compiles nothing else first. -/
lemma FieldOk.of_added (h : ∀ {bo : ByteOrder} {name : Option String} {sc : Scope}
    {S S'' : List Scope}, ScopeOk sc → FreshName name sc.syms →
    compileField opts ty bo name (sc :: S) = .ok ((), S'') →
    ∃ sc' atom kind, S'' = sc' :: S ∧ Added name atom kind sc sc' ∧
      ∀ Γ, LowersField opts ty Γ bo name atom kind) : FieldOk opts ty := by
  intro bo name sc S S'' hok hf hc
  obtain ⟨sc', atom, kind, rfl, hadd, hlow⟩ := h (hok sc (by simp)) hf hc
  exact ⟨sc, sc', S, atom, kind, rfl, .refl _ hok, hadd, fun Γ _ => hlow Γ⟩

lemma Steps.cons_inv {M : String → Prop} {sc : Scope} {S S' : List Scope}
    (h : Steps M (sc :: S) S') : ∃ sc₁ S₁, S' = sc₁ :: S₁ ∧ ScopeOk sc₁ ∧
      sc₁.syms.map Sym.name = sc.syms.map Sym.name := by
  obtain ⟨hscopes, -, hok⟩ := h
  cases hscopes with
  | @cons _ sc₁ _ S₁ hs _ => exact ⟨sc₁, S₁, rfl, hok sc₁ (by simp), SymStep.names hs.syms⟩

/-- A dynamic field whose value is that of `o`, once the rest is compiled. -/
lemma FieldOk.finish {bo : ByteOrder} {n : String} {sc : Scope} {S S₁ S'' : List Scope} {o : Op}
    {isFlags spannable : Bool} (hf : FreshName (some n) sc.syms)
    (hsteps : Steps (fun n => ty.mentions n) (sc :: S) S₁) (hc : o.common.isSome)
    (hnd : o.isDigest = false)
    (h : addOp n (o.withCommon fun _ => .named n) isFlags spannable S₁ = .ok ((), S''))
    (hlow : ∀ Γ, EnvLe (envOf S₁) Γ →
      LowersField opts ty Γ bo (some n) (.op o n) { isFlags, spannable }) :
    ∃ sc₁ sc' S' atom kind, S'' = sc' :: S' ∧
      Steps (fun n => ty.mentions n) (sc :: S) (sc₁ :: S') ∧ Added (some n) atom kind sc₁ sc' ∧
      ∀ Γ, EnvLe (envOf (sc₁ :: S')) Γ → LowersField opts ty Γ bo (some n) atom kind := by
  obtain ⟨sc₁, S₁, rfl, hok₁, hnames⟩ := hsteps.cons_inv
  have hf₁ : FreshName (some n) sc₁.syms := fun m hm => hnames ▸ hf m hm
  obtain ⟨sc', rfl, hadd⟩ := addOp_op hok₁ hf₁ hc hnd rfl h
  exact ⟨sc₁, sc', S₁, _, _, rfl, hsteps, hadd, hlow⟩

end Cases

lemma ElemOk.of_pure {ty : TypeIn} (h : ∀ {bo : ByteOrder} {S S' : List Scope} {op : Op},
    compileElem opts ty bo S = .ok (op, S') → S = S' ∧ ∀ Γ, LowersElem opts ty Γ bo op) :
    ElemOk opts ty := by
  intro bo S S' op hok hc
  obtain ⟨rfl, hlow⟩ := h hc
  exact ⟨.refl _ hok, fun Γ _ => hlow Γ⟩

lemma ElemOk.struct {fields : List FieldIn} {byteorder : Option ByteOrder} {size : Option ExprIn}
    (hfs : ∀ f ∈ fields, FieldOk opts f.ty) : ElemOk opts (.struct fields byteorder size) := by
  intro bo S S' op hok h
  rw [compileElem] at h
  obtain ⟨size', S₁, hsize, h⟩ := C.bind_eq_ok.mp h
  obtain ⟨prog, S₂, hprog, h⟩ := C.bind_eq_ok.mp h
  obtain ⟨rfl, rfl⟩ := C.pure_eq_ok.mp h
  obtain ⟨hs₁, hlow₁⟩ := buildSize_steps hok hsize
  obtain ⟨hs₂, hlow₂⟩ := inScope_steps hfs hs₁.ok hprog
  refine ⟨(hs₁.mono ?_).trans (hs₂.mono ?_), fun Γ hΓ => ?_⟩
  · intro n hn
    simp [TypeIn.mentions, hn]
  · intro n hn
    simp [TypeIn.mentions, hn]
  · obtain ⟨full, atoms, hf, ha⟩ := hlow₂ Γ hΓ
    exact ⟨size', full, atoms, prog, hlow₁ Γ (hs₂.envLe hΓ), hf, ha, rfl⟩

lemma ElemOk.array {elem : TypeIn} {count : Option ExprIn} {untilEof : Bool}
    (he : ElemOk opts elem) : ElemOk opts (.array elem count untilEof) := by
  intro bo S S' op hok h
  rw [compileElem] at h
  obtain ⟨count', S₁, hcount, h⟩ := C.bind_eq_ok.mp h
  obtain ⟨elem', S₂, helem, h⟩ := C.bind_eq_ok.mp h
  obtain ⟨rfl, rfl⟩ := C.pure_eq_ok.mp h
  obtain ⟨hs₁, hlow₁⟩ := buildCount_steps hok hcount
  obtain ⟨hs₂, hlow₂⟩ := he hs₁.ok helem
  refine ⟨(hs₁.mono ?_).trans (hs₂.mono ?_), fun Γ hΓ =>
    ⟨count', elem', hlow₁ Γ (hs₂.envLe hΓ), hlow₂ Γ hΓ, rfl⟩⟩
  · intro n hn
    simp [TypeIn.mentions, hn]
  · intro n hn
    simp [TypeIn.mentions, hn]

lemma ElemOk.switch {on : ExprIn} {cases : List (Int × TypeIn)} {default : Option TypeIn}
    (hcs : ∀ branch ∈ cases, ElemOk opts branch.2) (hd : ∀ ty ∈ default, ElemOk opts ty) :
    ElemOk opts (.switch on cases default) := by
  intro bo S S' op hok h
  obtain ⟨on', cases', default', hparts, rfl⟩ := compileElem_switch h
  obtain ⟨hs, hlow⟩ := switchParts_steps hcs hd hok hparts
  exact ⟨hs, fun Γ hΓ => ⟨on', cases', default', (hlow Γ hΓ).1, (hlow Γ hΓ).2.1, (hlow Γ hΓ).2.2, rfl⟩⟩

lemma FieldOk.struct {fields : List FieldIn} {byteorder : Option ByteOrder} {size : Option ExprIn}
    (hfs : ∀ f ∈ fields, FieldOk opts f.ty) : FieldOk opts (.struct fields byteorder size) := by
  intro bo name sc S S'' hok hf h
  rw [compileField] at h
  obtain ⟨n, rfl, hc⟩ := named_bind_ok h
  obtain ⟨size', S₁, hsize, h⟩ := C.bind_eq_ok.mp hc
  obtain ⟨prog, S₂, hprog, h⟩ := C.bind_eq_ok.mp h
  obtain ⟨_, hstatic, h⟩ := lift_bind_ok h
  obtain ⟨hs₁, hlow₁⟩ := buildSize_steps hok hsize
  obtain ⟨hs₂, hlow₂⟩ := inScope_steps hfs hs₁.ok hprog
  refine FieldOk.finish (o := .nest prog size' .skip) hf ((hs₁.mono ?_).trans (hs₂.mono ?_)) rfl rfl
    h fun Γ hΓ => ?_
  · intro n hn
    simp [TypeIn.mentions, hn]
  · intro n hn
    simp [TypeIn.mentions, hn]
  · obtain ⟨full, atoms, hfl, ha⟩ := hlow₂ Γ hΓ
    exact ⟨n, size', full, atoms, prog, rfl, hlow₁ Γ (hs₂.envLe hΓ), hfl, ha, hstatic, rfl, rfl⟩

lemma FieldOk.array {elem : TypeIn} {count : Option ExprIn} {untilEof : Bool}
    (he : ElemOk opts elem) : FieldOk opts (.array elem count untilEof) := by
  intro bo name sc S S'' hok hf h
  rw [compileField] at h
  obtain ⟨n, rfl, hc⟩ := named_bind_ok h
  obtain ⟨count', S₁, hcount, h⟩ := C.bind_eq_ok.mp hc
  obtain ⟨elem', S₂, helem, h⟩ := C.bind_eq_ok.mp h
  obtain ⟨hs₁, hlow₁⟩ := buildCount_steps hok hcount
  obtain ⟨hs₂, hlow₂⟩ := he hs₁.ok helem
  refine FieldOk.finish (o := .array count' opts.maxCount elem' (opMin elem') .skip) hf
    ((hs₁.mono ?_).trans (hs₂.mono ?_)) rfl rfl h fun Γ hΓ =>
      ⟨n, count', elem', rfl, hlow₁ Γ (hs₂.envLe hΓ), hlow₂ Γ hΓ, rfl, rfl⟩
  · intro n hn
    simp [TypeIn.mentions, hn]
  · intro n hn
    simp [TypeIn.mentions, hn]

lemma FieldOk.switch {on : ExprIn} {cases : List (Int × TypeIn)} {default : Option TypeIn}
    (hcs : ∀ branch ∈ cases, ElemOk opts branch.2) (hd : ∀ ty ∈ default, ElemOk opts ty) :
    FieldOk opts (.switch on cases default) := by
  intro bo name sc S S'' hok hf h
  obtain ⟨n, on', cases', default', S₁, rfl, hparts, h⟩ := compileField_switch h
  obtain ⟨hs, hlow⟩ := switchParts_steps hcs hd hok hparts
  exact FieldOk.finish (o := .switch on' cases' default' .skip) hf hs rfl rfl h fun Γ hΓ =>
    ⟨n, on', cases', default', rfl, (hlow Γ hΓ).1, (hlow Γ hΓ).2.1, (hlow Γ hΓ).2.2, rfl, rfl⟩

lemma FieldOk.cond {pred : ExprIn} {thn : TypeIn} (ht : ElemOk opts thn) :
    FieldOk opts (.cond pred thn) := by
  intro bo name sc S S'' hok hf h
  rw [compileField] at h
  obtain ⟨n, rfl, hc⟩ := named_bind_ok h
  obtain ⟨folded, hfold, h⟩ := lift_bind_ok hc
  obtain ⟨pred', S₁, hpred, h⟩ := C.bind_eq_ok.mp h
  obtain ⟨thn', S₂, hthn, h⟩ := C.bind_eq_ok.mp h
  obtain ⟨hs₁, hlow₁⟩ := emitExpr_steps hfold hok hpred
  obtain ⟨hs₂, hlow₂⟩ := ht hs₁.ok hthn
  have hsteps : Steps (fun n => (TypeIn.cond pred thn).mentions n) (sc :: S) S₂ := by
    refine (hs₁.mono ?_).trans (hs₂.mono ?_)
    · intro n hn
      simp [TypeIn.mentions, fold_mentions hfold n hn]
    · intro n hn
      simp [TypeIn.mentions, hn]
  obtain ⟨sc₁, S₃, rfl, hok₁, hnames⟩ := hsteps.cons_inv
  have hf₁ : FreshName (some n) sc₁.syms := fun m hm => hnames ▸ hf m hm
  obtain ⟨sc', rfl, hadd⟩ := addOp_added (.cond pred' thn' n) hok₁ hf₁ rfl rfl rfl trivial h
  exact ⟨sc₁, sc', S₃, _, _, rfl, hsteps, hadd, fun Γ hΓ =>
    ⟨n, pred', thn', rfl, hlow₁ Γ (hs₂.envLe hΓ), hlow₂ Γ hΓ, rfl, rfl⟩⟩

lemma FieldOk.digest {algo : String} {overrides : CrcOverrides} {overs : OverIn} {verify : Bool} :
    FieldOk opts (.digest algo overrides overs verify) := by
  refine FieldOk.of_added fun {bo name sc S S''} hok hf h => ?_
  rw [compileField] at h
  obtain ⟨n, rfl, hc⟩ := named_bind_ok h
  obtain ⟨algo', halgo, h⟩ := lift_bind_ok hc
  obtain ⟨_, hover, h⟩ := lift_bind_ok h
  obtain ⟨loc, S₁, hp, h⟩ := C.bind_eq_ok.mp h
  obtain ⟨rfl, rfl⟩ : Loc.op sc.ops.length = loc ∧
      { sc with ops := sc.ops ++ [.digest algo' (.spans []) verify bo.isBig (.named n)] } :: S = S₁ := by
    simpa [pushOp, onTop] using hp
  obtain ⟨_, S₂, htop, h⟩ := C.bind_eq_ok.mp h
  simp only [onTop, Exec.bind_ok, Except.ok.injEq, Prod.mk.injEq, true_and, List.length_append,
    List.length_singleton, Nat.add_sub_cancel] at htop
  subst htop
  rw [show addSym (some n) (.op sc.ops.length) false false false true =
    addSym (some n) (.op sc.ops.length) (SymKind.mk false false false true).refable false false true
    from rfl, addSym_eq] at h
  obtain rfl : _ = S'' := by simpa using h
  have hp := pushOp_pushed (.digest algo' (.spans []) verify bo.isBig (.named n)) rfl sc.ops
  refine ⟨_, .digest algo' overs verify bo.isBig n, {}, rfl, ?_, fun Γ =>
    ⟨n, algo', rfl, halgo, hover, rfl, rfl⟩⟩
  have hpush := hok.push {} hp rfl hf rfl rfl rfl ⟨Bool.noConfusion, fun _ => rfl⟩
  refine ⟨⟨hpush.syms, hpush.names, hpush.keys, hpush.linked, hpush.fits, hpush.runs, ?_⟩, ⟨_, rfl⟩,
    ?_, by simp [Atom.digest?], trivial⟩
  · intro d hd
    rcases List.mem_append.mp hd with hd | hd
    · exact hpush.digests d hd
    · rw [List.mem_singleton.mp hd]
      exact hp.key
  · simp only [hp.pieces, List.map_append]
    rfl

/-- The common part of a flags op is passed through. -/
lemma compileFlags_common {base : IntPrim} {be : Bool} {names : List (String × U64)} {rest : String}
    {c : Common} {op : Op} (h : compileFlags base be names rest c = .ok op) :
    ∃ o, compileFlags base be names rest .skip = .ok o ∧ o.common.isSome ∧ o.isDigest = false ∧
      op = o.withCommon fun _ => c := by
  unfold compileFlags at h ⊢
  split_ifs at h ⊢ with hs
  · simp [schemaErr] at h
  simp only [Exec.bind_eq_ok, Prod.exists] at h
  obtain ⟨items, union, hitems, h⟩ := h
  simp only [hitems, Exec.bind_ok]
  cases hr : restPolicies.parse rest with
  | error msg => simp [hr, schemaErr] at h
  | ok rest' =>
    simp only [hr, Except.ok.injEq] at h
    subst h
    exact ⟨_, rfl, rfl, rfl, rfl⟩

lemma elemOk_and_fieldOk (opts : Options) :
    TypeCases fun ty => ElemOk opts ty ∧ FieldOk opts ty where
  int prim byteorder const := by
    refine ⟨ElemOk.of_pure fun {bo S S' op} h => ?_, FieldOk.of_added fun {bo name sc S S''} hok hf h => ?_⟩
    · rw [compileElem] at h
      obtain ⟨_, hconst, h⟩ := lift_bind_ok h
      obtain ⟨rfl, rfl⟩ := C.pure_eq_ok.mp h
      exact ⟨rfl, fun _ => ⟨hconst, rfl⟩⟩
    · rw [compileField] at h
      obtain ⟨_, hconst, h⟩ := lift_bind_ok h
      obtain ⟨sc', rfl, hadd⟩ := pushFixed_added
        { refable := true, isConst := const.isSome } hok hf rfl rfl (fun _ => rfl) h
      exact ⟨sc', _, _, rfl, hadd, fun _ => ⟨hconst, rfl, rfl⟩⟩
  float is64 byteorder := by
    refine ⟨ElemOk.of_pure fun {bo S S' op} h => ?_, FieldOk.of_added fun {bo name sc S S''} hok hf h => ?_⟩
    · rw [compileElem] at h
      obtain ⟨rfl, rfl⟩ := C.pure_eq_ok.mp h
      exact ⟨rfl, fun _ => rfl⟩
    · rw [compileField] at h
      obtain ⟨sc', rfl, hadd⟩ := pushFixed_added {} hok hf
        (by cases is64 <;> rfl) (by cases is64 <;> rfl) Bool.noConfusion h
      exact ⟨sc', _, _, rfl, hadd, fun _ => ⟨rfl, rfl⟩⟩
  bool const := by
    refine ⟨ElemOk.of_pure fun {bo S S' op} h => ?_, FieldOk.of_added fun {bo name sc S S''} hok hf h => ?_⟩
    · rw [compileElem] at h
      obtain ⟨rfl, rfl⟩ := C.pure_eq_ok.mp h
      exact ⟨rfl, fun _ => rfl⟩
    · rw [compileField] at h
      obtain ⟨sc', rfl, hadd⟩ := pushFixed_added { isConst := const.isSome } hok hf rfl rfl
        Bool.noConfusion h
      exact ⟨sc', _, _, rfl, hadd, fun _ => ⟨rfl, rfl⟩⟩
  raw len const := by
    refine ⟨ElemOk.of_pure fun {bo S S' op} h => ?_, FieldOk.of_added fun {bo name sc S S''} hok hf h => ?_⟩
    · rw [compileElem] at h
      obtain ⟨n, hn, h⟩ := lift_bind_ok h
      obtain ⟨rfl, rfl⟩ := C.pure_eq_ok.mp h
      exact ⟨rfl, fun _ => ⟨n, hn, rfl⟩⟩
    · rw [compileField] at h
      obtain ⟨n, hn, h⟩ := lift_bind_ok h
      obtain ⟨sc', rfl, hadd⟩ := pushFixed_added { isConst := const.isSome } hok hf rfl rfl
        Bool.noConfusion h
      exact ⟨sc', _, _, rfl, hadd, fun _ => ⟨n, hn, rfl, rfl⟩⟩
  bytes len max := by
    constructor
    · intro bo S S' op hok h
      rw [compileElem] at h
      obtain ⟨len', S₁, hlen, h⟩ := C.bind_eq_ok.mp h
      obtain ⟨rfl, rfl⟩ := C.pure_eq_ok.mp h
      obtain ⟨hs, hlow⟩ := buildLen_steps hok hlen
      exact ⟨hs, fun Γ hΓ => ⟨len', hlow Γ hΓ, rfl⟩⟩
    · intro bo name sc S S'' hok hf h
      rw [compileField] at h
      obtain ⟨n, rfl, hc⟩ := named_bind_ok h
      obtain ⟨len', S₁, hlen, h⟩ := C.bind_eq_ok.mp hc
      obtain ⟨hs, hlow⟩ := buildLen_steps hok hlen
      exact FieldOk.finish (o := .bytes len' (max.getD opts.maxDefault) .skip) hf hs rfl rfl h
        fun Γ hΓ => ⟨n, len', rfl, hlow Γ hΓ, rfl, rfl⟩
  str len max encoding errors := by
    constructor
    · intro bo S S' op hok h
      rw [compileElem] at h
      obtain ⟨len', S₁, hlen, h⟩ := C.bind_eq_ok.mp h
      obtain ⟨enc, henc, h⟩ := lift_bind_ok h
      obtain ⟨rfl, rfl⟩ := C.pure_eq_ok.mp h
      obtain ⟨hs, hlow⟩ := buildLen_steps hok hlen
      exact ⟨hs, fun Γ hΓ => ⟨len', enc, hlow Γ hΓ, henc, rfl⟩⟩
    · intro bo name sc S S'' hok hf h
      rw [compileField] at h
      obtain ⟨n, rfl, hc⟩ := named_bind_ok h
      obtain ⟨enc, henc, h⟩ := lift_bind_ok hc
      obtain ⟨len', S₁, hlen, h⟩ := C.bind_eq_ok.mp h
      obtain ⟨hs, hlow⟩ := buildLen_steps hok hlen
      exact FieldOk.finish (o := .str len' (max.getD opts.maxDefault) enc .skip) hf hs rfl rfl h
        fun Γ hΓ => ⟨n, len', enc, rfl, hlow Γ hΓ, henc, rfl, rfl⟩
  cstr max encoding errors := by
    constructor
    · refine ElemOk.of_pure fun {bo S S' op} h => ?_
      rw [compileElem] at h
      obtain ⟨enc, henc, h⟩ := lift_bind_ok h
      obtain ⟨rfl, rfl⟩ := C.pure_eq_ok.mp h
      exact ⟨rfl, fun _ => ⟨enc, henc, rfl⟩⟩
    · intro bo name sc S S'' hok hf h
      rw [compileField] at h
      obtain ⟨n, rfl, hc⟩ := named_bind_ok h
      obtain ⟨enc, henc, h⟩ := lift_bind_ok hc
      exact FieldOk.finish (o := .cstr (max.getD opts.maxDefault) enc .skip) hf (.refl _ hok) rfl rfl
        h fun Γ hΓ => ⟨n, enc, rfl, henc, rfl, rfl⟩
  bits width signed := by
    constructor
    · intro bo S S' op hok h
      rw [compileElem] at h
      simp [schemaErr] at h
    · refine FieldOk.of_added fun {bo name sc S S''} hok hf h => ?_
      rw [compileField] at h
      by_cases hw : 1 ≤ width ∧ width ≤ 64
      · rw [if_neg (by simpa using hw)] at h
        obtain ⟨sc', rfl, hadd⟩ := pushBit_added { refable := true, spannable := false }
          hok hf rfl h
        exact ⟨sc', _, _, rfl, hadd, fun _ => ⟨hw.1, hw.2, rfl, rfl⟩⟩
      · rw [if_pos hw] at h
        simp [schemaErr] at h
  flags base byteorder names rest := by
    constructor
    · refine ElemOk.of_pure fun {bo S S' op} h => ?_
      rw [compileElem] at h
      obtain ⟨hop, rfl⟩ := C.lift_eq_ok.mp h
      exact ⟨rfl, fun _ => hop⟩
    · intro bo name sc S S'' hok hf h
      rw [compileField] at h
      obtain ⟨n, rfl, hc⟩ := named_bind_ok h
      obtain ⟨op, hop, h⟩ := lift_bind_ok hc
      obtain ⟨o, ho, hc, hd, rfl⟩ := compileFlags_common hop
      exact FieldOk.finish hf (.refl _ hok) hc hd h fun Γ hΓ => ⟨n, o, rfl, ho, rfl, rfl⟩
  digest algo overrides overs verify := by
    constructor
    · intro bo S S' op hok h
      rw [compileElem] at h
      simp [schemaErr] at h
    · exact FieldOk.digest
  struct fields byteorder size hfs :=
    ⟨ElemOk.struct fun f hf => (hfs f hf).2, FieldOk.struct fun f hf => (hfs f hf).2⟩
  array elem count untilEof he := ⟨ElemOk.array he.1, FieldOk.array he.1⟩
  switch on cases default hcs hd :=
    ⟨ElemOk.switch (fun b hb => (hcs b hb).1) fun ty hty => (hd ty hty).1,
      FieldOk.switch (fun b hb => (hcs b hb).1) fun ty hty => (hd ty hty).1⟩
  cond pred thn ht := by
    constructor
    · intro bo S S' op hok h
      rw [compileElem] at h
      simp [schemaErr] at h
    · exact FieldOk.cond ht.1

/-- Every accepted schema is lowered as the judgement says, and nests no deeper than unpack does. -/
theorem compile_lowers {fields : List FieldIn} {opts : Options} {prog : Program}
    (h : compile fields opts = .ok prog) :
    LowersScope opts fields [] opts.byteorder prog ∧ frameDepth prog ≤ maxDepth := by
  simp only [compile, Exec.bind_eq_ok] at h
  obtain ⟨⟨prog', S⟩, hs, h⟩ := h
  simp only at h
  split_ifs at h with hd
  · simp [schemaErr] at h
  obtain rfl : prog' = prog := by simpa using h
  obtain ⟨hsteps, hlow⟩ := inScope_steps (S := [])
    (fun f _ => ((elemOk_and_fieldOk opts).type f.ty).2) (by simp) hs
  obtain rfl : S = [] := by simpa using hsteps.scopes
  exact ⟨hlow [] .nil, Nat.le_of_not_lt hd⟩

end Rustruct

import Rustruct.Proofs.Withheld

/-!
# Which fields are derived

A field is derived when some length refers to it and no switch does, wherever in its scope the
references are and in whatever order they come. The marks are settled at the end of a scope; the
scopes within it have theirs by then.
-/

namespace Rustruct

mutual

/-- In the scopes of the op, the right fields are derived. -/
def TypeIn.Derives : TypeIn → Op → Prop
  | .struct fields _ _, op => ∃ prog size c, op = .nest prog size c ∧ fieldsDerive fields (piecesOf prog.ops)
  | .array elem _ _, op => ∃ count maxCount elem' elemMin c,
      op = .array count maxCount elem' elemMin c ∧ elem.Derives elem'
  | .switch _ cases default, op => ∃ on cases' default' c, op = .switch on cases' default' c ∧
      casesDerive cases cases' ∧ defaultDerives default default'
  | .cond _ thn, op => ∃ pred thn' c, op = .cond pred thn' c ∧ thn.Derives thn'
  | _, _ => True

/-- A field is derived exactly when it is not const and, after it in its scope or in a scope within
that, some length refers to it and no switch does. -/
def fieldsDerive : List FieldIn → List Piece → Prop
  | [], pieces => pieces = []
  | .mk name ty :: fields, pieces => ∃ p rest, pieces = p :: rest ∧
      (∀ n, name = some n → p.key = .named n ∧
        p.derived = (!ty.isConst && fieldsRefer .len n fields && !fieldsRefer .on n fields)) ∧
      (∀ op, p = .op op → ty.Derives op) ∧ fieldsDerive fields rest

def casesDerive : List (Int × TypeIn) → List (Int × Op) → Prop
  | [], cases' => cases' = []
  | (tag, ty) :: cases, cases' => ∃ op rest, cases' = (tag, op) :: rest ∧ ty.Derives op ∧ casesDerive cases rest

def defaultDerives : Option TypeIn → Option Op → Prop
  | none, default' => default' = none
  | some ty, default' => ∃ op, default' = some op ∧ ty.Derives op

end

section Shape

variable {opts : Options} {full : List Sym}

/-- The key of a field, and whether it is one that can be referred to. -/
lemma LowersField.shape {ty : TypeIn} {Γ : Env} {bo : ByteOrder} {name : Option String} {atom : Atom} {kind : SymKind}
    (h : LowersField opts ty Γ bo name atom kind) :
    atom.bare.key = keyOf name ∧ atom.bare.isInt = kind.refable ∧ atom.Proper := by
  cases ty with
  | int prim byteorder const =>
    obtain ⟨-, rfl, rfl⟩ := h
    exact ⟨rfl, rfl, rfl⟩
  | bits width signed =>
    obtain ⟨-, -, rfl, rfl⟩ := h
    exact ⟨rfl, rfl, trivial⟩
  | float is64 byteorder =>
    obtain ⟨rfl, rfl⟩ := h
    cases is64 <;> exact ⟨rfl, rfl, rfl⟩
  | bool const =>
    obtain ⟨rfl, rfl⟩ := h
    exact ⟨rfl, rfl, rfl⟩
  | raw len const =>
    obtain ⟨width, -, rfl, rfl⟩ := h
    exact ⟨rfl, rfl, rfl⟩
  | digest algo overrides overs verify =>
    obtain ⟨n, algo', rfl, -, -, rfl, rfl⟩ := h
    exact ⟨rfl, rfl, trivial⟩
  | cond pred thn =>
    obtain ⟨n, pred', thn', rfl, -, -, rfl, rfl⟩ := h
    exact ⟨rfl, rfl, trivial⟩
  | flags base byteorder names rest =>
    obtain ⟨n, op, rfl, hop, rfl, rfl⟩ := h
    obtain ⟨o, -, hc, hd, rfl⟩ := compileFlags_common hop
    obtain ⟨c, hc⟩ := Option.isSome_iff_exists.mp hc
    refine ⟨?_, rfl, ?_⟩
    · simp [Atom.bare, Piece.key, hc, keyOf, Common.named]
    · exact ⟨by simp [hc], by simpa using hd⟩
  | bytes len max =>
    obtain ⟨n, len', rfl, -, rfl, rfl⟩ := h
    exact ⟨rfl, rfl, rfl, rfl⟩
  | str len max encoding errors =>
    obtain ⟨n, len', enc, rfl, -, -, rfl, rfl⟩ := h
    exact ⟨rfl, rfl, rfl, rfl⟩
  | cstr max encoding errors =>
    obtain ⟨n, enc, rfl, -, rfl, rfl⟩ := h
    exact ⟨rfl, rfl, rfl, rfl⟩
  | struct fields byteorder size =>
    obtain ⟨n, size', full', atoms, prog, rfl, -, -, -, -, rfl, rfl⟩ := h
    exact ⟨rfl, rfl, rfl, rfl⟩
  | array elem count untilEof =>
    obtain ⟨n, count', elem', rfl, -, -, rfl, rfl⟩ := h
    exact ⟨rfl, rfl, rfl, rfl⟩
  | switch on cases default =>
    obtain ⟨n, on', cases', default', rfl, -, -, -, rfl, rfl⟩ := h
    exact ⟨rfl, rfl, rfl, rfl⟩

variable {atom : Atom} {p : Piece}

lemma Realizes.key (h : Realizes full atom p) (hp : atom.Proper) : p.key = atom.bare.key := by
  cases atom with
  | fixed kind key | bit width signed key =>
    subst h
    rfl
  | digest algo overs verify be name =>
    obtain ⟨overs', -, rfl⟩ := h
    rfl
  | op o name =>
    obtain ⟨c, hc⟩ := Option.isSome_iff_exists.mp hp.1
    subst h
    simp [Atom.bare, Piece.key, hc, Common.named]
  | cond pred thn name =>
    subst h
    rfl

/-- Only an integer has a mark. -/
lemma Realizes.derived (h : Realizes full atom p) (hp : atom.Proper) :
    p.derived = (atom.bare.isInt && derivedOf full atom.bare.key) := by
  cases atom with
  | fixed kind key =>
    subst h
    have hkind : kind.unmark = kind := hp
    cases kind with
    | int prim be expected derived =>
      obtain rfl : derived = false := by simpa [FixKind.unmark] using hkind
      cases hd : derivedOf full key <;> simp [hd, Atom.bare, Piece.derived, Piece.isInt, Piece.key, FixKind.isDerived,
        FixKind.markDerived, FixKind.isInt]
    | f32 | f64 | bool | raw => cases hd : derivedOf full key <;> rfl
  | bit width signed key =>
    subst h
    rfl
  | digest algo overs verify be name =>
    obtain ⟨overs', -, rfl⟩ := h
    rfl
  | op o name | cond pred thn name =>
    subst h
    rfl

@[simp] lemma derives_withCommon {ty : TypeIn} {op : Op} (f : Common → Common) :
    ty.Derives (op.withCommon f) ↔ ty.Derives op := by
  cases ty with
  | struct | array | switch | cond => cases op <;> simp [TypeIn.Derives, Op.withCommon]
  | _ => rfl

lemma derives_digest {ty : TypeIn} {algo : Algo} {overs overs' : Over} {verify be : Bool} {c c' : Common} :
    ty.Derives (.digest algo overs verify be c) ↔ ty.Derives (.digest algo overs' verify be c') := by
  cases ty with
  | struct | array | switch | cond => simp [TypeIn.Derives]
  | _ => rfl

/-- The op of a field is the one that was pushed. -/
lemma Realizes.derives {ty : TypeIn} (h : Realizes full atom p) (hty : ∀ op, atom.bare = .op op → ty.Derives op) :
    ∀ op, p = .op op → ty.Derives op := by
  rintro op rfl
  cases atom with
  | fixed | bit => cases h
  | digest algo overs verify be name =>
    obtain ⟨overs', -, h⟩ := h
    cases h
    exact derives_digest.mp (hty _ rfl)
  | op o name =>
    cases h
    exact (derives_withCommon _).mpr ((derives_withCommon _).mp (hty _ rfl))
  | cond pred thn name =>
    cases h
    have hpushed := hty _ rfl
    exact (derives_withCommon (fun _ => { key := .named name, span := spanOf full (.named name) })).mpr hpushed

/-- The fields of a scope, with the marks its symbols end with. -/
lemma LowersFields.derive {fields : List FieldIn} {Γ : Env} {bo : ByteOrder} {k : Nat} {atoms : List Atom}
    {pieces : List Piece} (hnames : (full.map Sym.name).Nodup)
    (hder : ∀ s ∈ full, s.derived = (s.lenReferenced && !s.usedInOn && !s.isConst))
    (href : ∀ s ∈ full, s.derived → s.refable) (h : LowersFields opts fields Γ bo full k atoms)
    (hsyms : FieldSyms fields (full.drop k)) (hp : List.Forall₂ (Realizes full) atoms pieces)
    (hops : List.Forall₂ (fun f b => ∀ op, b = .op op → f.ty.Derives op) fields (atoms.map Atom.bare)) :
    fieldsDerive fields pieces := by
  induction fields generalizing k atoms pieces with
  | nil =>
    obtain ⟨-, rfl⟩ := h
    cases hp
    rfl
  | cons f fields ih =>
    obtain ⟨name, ty⟩ := f
    cases name with
    | none =>
      obtain ⟨atom, kind, rest, hfield, hrest, rfl⟩ := h
      cases hp with
      | @cons _ p _ ps hr hps =>
        obtain ⟨hop, hops⟩ := List.forall₂_cons.mp hops
        exact ⟨p, ps, rfl, nofun, hr.derives hop, ih hrest hsyms hps hops⟩
    | some n =>
      obtain ⟨atom, s, rest, hfield, hget, hname, -, -, hrest, rfl⟩ := h
      obtain ⟨t, more, hdrop, -, hconst, hlen, hon, hmore⟩ := hsyms
      obtain ⟨hk, hval⟩ := List.getElem?_eq_some_iff.mp hget
      have htail : full.drop (k + 1) = more := by
        rw [← List.drop_drop, hdrop]
        rfl
      obtain rfl : s = t := by
        rw [← List.getElem_cons_drop hk, hval] at hdrop
        exact (List.cons.inj hdrop).1
      have hmem : s ∈ full := hval ▸ List.getElem_mem hk
      have hfind : findSym full n = some s := hname ▸ findSym_of_mem hnames hmem
      cases hp with
      | @cons _ p _ ps hr hps =>
        obtain ⟨hop, hops⟩ := List.forall₂_cons.mp hops
        obtain ⟨hkey, hint, hproper⟩ := hfield.shape
        refine ⟨p, ps, rfl, ?_, hr.derives hop, ih hrest (htail ▸ hmore) hps hops⟩
        rintro m hm
        obtain rfl : n = m := Option.some.inj hm
        refine ⟨(hr.key hproper).trans hkey, ?_⟩
        have hmark : derivedOf full (keyOf (some n)) = s.derived := by
          simp [derivedOf, symOf, keyOf, Key.name, hfind]
        have hrefable : s.derived = true → s.kind.refable = true := href s hmem
        have hmarks : s.derived = (!ty.isConst && fieldsRefer .len n fields && !fieldsRefer .on n fields) := by
          rw [hder s hmem, hlen, hon, hconst]
          cases ty.isConst <;> simp
        rw [hr.derived hproper, hkey, hint, hmark, ← hmarks]
        cases hd : s.derived with
        | true => rw [hrefable hd, Bool.and_true]
        | false => rw [Bool.and_false]

end Shape

section Runs

variable {opts : Options}

lemma derives_setOver {ty : TypeIn} {op : Op} (overs : Over) : ty.Derives (op.setOver overs) ↔ ty.Derives op := by
  cases op with
  | digest algo overs' verify be c => exact derives_digest
  | _ => rfl

/-- What was pushed is what the bare piece shows. -/
lemma derives_of_bare {ty : TypeIn} {p : Piece} (h : ∀ op, p = .op op → ty.Derives op) :
    ∀ op, p.bare = .op op → ty.Derives op := by
  intro op hb
  cases p with
  | fixed | bit => cases hb
  | op o =>
    obtain rfl := Piece.op.inj hb
    exact (derives_withCommon _).mpr ((derives_setOver _).mpr (h o rfl))

def ElemDerives (opts : Options) (ty : TypeIn) : Prop :=
  ∀ {bo : ByteOrder} {S S' : List Scope} {op : Op}, (∀ sc ∈ S, ScopeOk sc) →
    compileElem opts ty bo S = .ok (op, S') → ty.Derives op

/-- The field is the last in its scope. -/
def FieldDerives (opts : Options) (ty : TypeIn) : Prop :=
  ∀ {bo : ByteOrder} {name : Option String} {sc' : Scope} {S S' : List Scope} {op : Op}, (∀ sc ∈ S, ScopeOk sc) →
    compileField opts ty bo name S = .ok ((), sc' :: S') → (piecesOf sc'.ops).getLast? = some (.op op) → ty.Derives op

lemma compileFields_derives {fields : List FieldIn} (hfs : ∀ f ∈ fields, FieldDerives opts f.ty) {bo : ByteOrder}
    {sc : Scope} {S S'' : List Scope} (hok : ∀ s ∈ sc :: S, ScopeOk s)
    (h : compileFields opts fields bo (sc :: S) = .ok ((), S'')) :
    ∃ sc' S' bares, S'' = sc' :: S' ∧
      (piecesOf sc'.ops).map Piece.bare = (piecesOf sc.ops).map Piece.bare ++ bares ∧
      List.Forall₂ (fun f b => ∀ op, b = .op op → f.ty.Derives op) fields bares := by
  induction fields generalizing sc S with
  | nil =>
    rw [compileFields] at h
    obtain ⟨-, rfl⟩ := C.pure_eq_ok.mp h
    exact ⟨sc, S, [], rfl, by simp, .nil⟩
  | cons f fields ih =>
    obtain ⟨name, ty⟩ := f
    rw [compileFields] at h
    obtain ⟨_, S₁, hcheck, h⟩ := C.bind_eq_ok.mp h
    obtain ⟨rfl, hfresh, -⟩ := checkName_ok hcheck
    obtain ⟨_, S₂, hfield, h⟩ := C.bind_eq_ok.mp h
    obtain ⟨sc₁, sc₂, S₃, atom, kind, rfl, hsteps, hadd, -⟩ :=
      ((elemOk_and_fieldOk opts).type ty).2 hok hfresh hfield
    have hok₂ : ∀ s ∈ sc₂ :: S₃, ScopeOk s := by
      intro s hs
      rcases List.mem_cons.mp hs with rfl | hs
      · exact hadd.ok
      · exact hsteps.ok s (List.mem_cons_of_mem _ hs)
    obtain ⟨sc', S', bares, rfl, hbare, hrest⟩ := ih (fun f hf => hfs f (List.mem_cons_of_mem _ hf)) hok₂ h
    have hsame := (List.forall₂_cons.mp hsteps.scopes).1.bare
    refine ⟨sc', S', atom.bare :: bares, rfl, ?_, .cons ?_ hrest⟩
    · rw [hbare, hadd.bare, hsame, List.append_assoc]
      rfl
    · have hlast : ((piecesOf sc₂.ops).map Piece.bare).getLast? = some atom.bare := by
        rw [hadd.bare, List.getLast?_concat]
      rw [List.getLast?_map] at hlast
      obtain ⟨p, hp, hb⟩ := Option.map_eq_some_iff.mp hlast
      rw [← hb]
      apply derives_of_bare
      rintro op rfl
      exact hfs (.mk name ty) List.mem_cons_self hok hfield hp

lemma inScope_derives {fields : List FieldIn} (hfs : ∀ f ∈ fields, FieldDerives opts f.ty) {bo : ByteOrder}
    {S S' : List Scope} {prog : Program} (hok : ∀ s ∈ S, ScopeOk s)
    (h : inScope (compileFields opts fields bo) S = .ok (prog, S')) : fieldsDerive fields (piecesOf prog.ops) := by
  obtain ⟨sc, full, atoms, hbody, hfill, hlow, hsyms, hasm, href⟩ := inScope_marks hok h
  have hok₀ : ∀ s ∈ Scope.empty :: S, ScopeOk s := by
    intro s hs
    rcases List.mem_cons.mp hs with rfl | hs
    · exact .empty
    · exact hok s hs
  obtain ⟨sc', S₁, bares, heq, hbare, hops⟩ := compileFields_derives hfs hok₀ hbody
  obtain ⟨rfl, -⟩ := List.cons.inj heq
  obtain rfl : atoms.map Atom.bare = bares := List.append_cancel_left (hfill.bare.symm.trans hbare)
  exact hlow.derive hasm.syms.names hasm.derived href hsyms hasm.pieces hops

lemma compileCases_derives {cases : List (Int × TypeIn)} (hcs : ∀ branch ∈ cases, ElemDerives opts branch.2)
    {bo : ByteOrder} {tags : List Int} {S S' : List Scope} {cases' : List (Int × Op)} (hok : ∀ s ∈ S, ScopeOk s)
    (h : compileCases opts cases bo tags S = .ok (cases', S')) : casesDerive cases cases' := by
  induction cases generalizing S tags cases' with
  | nil =>
    rw [compileCases] at h
    exact (C.pure_eq_ok.mp h).1.symm
  | cons branch cases ih =>
    obtain ⟨tag, ty⟩ := branch
    rw [compileCases] at h
    split_ifs at h with htag
    · cases h
    obtain ⟨op, S₁, hop, h⟩ := C.bind_eq_ok.mp h
    obtain ⟨rest, S₂, hrest, h⟩ := C.bind_eq_ok.mp h
    obtain ⟨rfl, rfl⟩ := C.pure_eq_ok.mp h
    have hsteps := (((elemOk_and_fieldOk opts).type ty).1 hok hop).1
    exact ⟨op, rest, rfl, hcs (tag, ty) List.mem_cons_self hok hop,
      ih (fun b hb => hcs b (List.mem_cons_of_mem _ hb)) hsteps.ok hrest⟩

lemma compileDefault_derives {default : Option TypeIn} (hd : ∀ ty ∈ default, ElemDerives opts ty)
    {bo : ByteOrder} {S S' : List Scope} {default' : Option Op} (hok : ∀ s ∈ S, ScopeOk s)
    (h : compileDefault opts default bo S = .ok (default', S')) : defaultDerives default default' := by
  cases default with
  | none =>
    rw [compileDefault] at h
    exact (C.pure_eq_ok.mp h).1.symm
  | some ty =>
    rw [compileDefault] at h
    obtain ⟨op, S₁, hop, h⟩ := C.bind_eq_ok.mp h
    obtain ⟨rfl, -⟩ := C.pure_eq_ok.mp h
    exact ⟨op, rfl, hd ty rfl hok hop⟩

lemma switchParts_derives {on : ExprIn} {cases : List (Int × TypeIn)} {default : Option TypeIn}
    (hcs : ∀ branch ∈ cases, ElemDerives opts branch.2) (hd : ∀ ty ∈ default, ElemDerives opts ty)
    {bo : ByteOrder} {S S' : List Scope} {on' : Expr} {cases' : List (Int × Op)} {default' : Option Op}
    (hok : ∀ s ∈ S, ScopeOk s)
    (h : switchParts opts on cases default bo S = .ok ((on', cases', default'), S')) :
    casesDerive cases cases' ∧ defaultDerives default default' := by
  obtain ⟨folded, hfold, h⟩ := lift_bind_ok h
  obtain ⟨e, S₁, he, h⟩ := C.bind_eq_ok.mp h
  obtain ⟨cs, S₂, hcs', h⟩ := C.bind_eq_ok.mp h
  obtain ⟨d, S₃, hd', h⟩ := C.bind_eq_ok.mp h
  obtain ⟨hres, -⟩ := C.pure_eq_ok.mp h
  simp only [Prod.mk.injEq] at hres
  obtain ⟨-, rfl, rfl⟩ := hres
  have hok₁ := (emitExpr_steps hfold hok he).1.ok
  have hok₂ := (compileCases_steps (fun b _ => ((elemOk_and_fieldOk opts).type b.2).1) hok₁ hcs').1.ok
  exact ⟨compileCases_derives hcs hok₁ hcs', compileDefault_derives hd hok₂ hd'⟩

/-- The op that a field adds is the last in its scope. -/
lemma addOp_last {n : String} {op op' : Op} {isFlags spannable : Bool} {c : Common} {S S' : List Scope} {sc' : Scope}
    (hc : op.common = some c) (h : addOp n op isFlags spannable S = .ok ((), sc' :: S'))
    (hlast : (piecesOf sc'.ops).getLast? = some (.op op')) : op = op' := by
  cases S with
  | nil => cases h
  | cons sc S =>
    cases h
    simp only [piecesOf, List.flatMap_append, List.flatMap_singleton, pieces_of_common hc, List.getLast?_concat,
      Option.some.injEq, Piece.op.injEq] at hlast
    exact hlast

/-- A type without scopes in it. -/
lemma derives_plain {ty : TypeIn} (h : ∀ op, ty.Derives op) : ElemDerives opts ty ∧ FieldDerives opts ty :=
  ⟨fun _ _ => h _, fun _ _ _ => h _⟩

/-- The marks are right in every type that compiles. -/
lemma elemDerives_and_fieldDerives (opts : Options) : TypeCases fun ty => ElemDerives opts ty ∧ FieldDerives opts ty where
  int _ _ _ := derives_plain fun _ => trivial
  float _ _ := derives_plain fun _ => trivial
  bool _ := derives_plain fun _ => trivial
  raw _ _ := derives_plain fun _ => trivial
  bytes _ _ := derives_plain fun _ => trivial
  str _ _ _ _ := derives_plain fun _ => trivial
  cstr _ _ _ := derives_plain fun _ => trivial
  bits _ _ := derives_plain fun _ => trivial
  flags _ _ _ _ := derives_plain fun _ => trivial
  digest _ _ _ _ := derives_plain fun _ => trivial
  struct fields byteorder size hfs := by
    have hfields : ∀ f ∈ fields, FieldDerives opts f.ty := fun f hf => (hfs f hf).2
    constructor
    · intro bo S S' op hok h
      rw [compileElem] at h
      obtain ⟨size', S₁, hsize, h⟩ := C.bind_eq_ok.mp h
      obtain ⟨prog, S₂, hprog, h⟩ := C.bind_eq_ok.mp h
      obtain ⟨rfl, -⟩ := C.pure_eq_ok.mp h
      exact ⟨prog, size', .skip, rfl, inScope_derives hfields (buildSize_steps hok hsize).1.ok hprog⟩
    · intro bo name sc' S S' op hok h hlast
      rw [compileField] at h
      obtain ⟨n, rfl, hc⟩ := named_bind_ok h
      obtain ⟨size', S₁, hsize, h⟩ := C.bind_eq_ok.mp hc
      obtain ⟨prog, S₂, hprog, h⟩ := C.bind_eq_ok.mp h
      obtain ⟨_, -, h⟩ := lift_bind_ok h
      obtain rfl := addOp_last rfl h hlast
      exact ⟨prog, size', _, rfl, inScope_derives hfields (buildSize_steps hok hsize).1.ok hprog⟩
  array elem count untilEof he := by
    constructor
    · intro bo S S' op hok h
      rw [compileElem] at h
      obtain ⟨count', S₁, hcount, h⟩ := C.bind_eq_ok.mp h
      obtain ⟨elem', S₂, helem, h⟩ := C.bind_eq_ok.mp h
      obtain ⟨rfl, -⟩ := C.pure_eq_ok.mp h
      exact ⟨count', _, elem', _, _, rfl, he.1 (buildCount_steps hok hcount).1.ok helem⟩
    · intro bo name sc' S S' op hok h hlast
      rw [compileField] at h
      obtain ⟨n, rfl, hc⟩ := named_bind_ok h
      obtain ⟨count', S₁, hcount, h⟩ := C.bind_eq_ok.mp hc
      obtain ⟨elem', S₂, helem, h⟩ := C.bind_eq_ok.mp h
      obtain rfl := addOp_last rfl h hlast
      exact ⟨count', _, elem', _, _, rfl, he.1 (buildCount_steps hok hcount).1.ok helem⟩
  switch on cases default hcs hd := by
    have hcases : ∀ branch ∈ cases, ElemDerives opts branch.2 := fun b hb => (hcs b hb).1
    have hdefault : ∀ ty ∈ default, ElemDerives opts ty := fun ty hty => (hd ty hty).1
    constructor
    · intro bo S S' op hok h
      obtain ⟨on', cases', default', hparts, rfl⟩ := compileElem_switch h
      obtain ⟨hcs', hd'⟩ := switchParts_derives hcases hdefault hok hparts
      exact ⟨on', cases', default', .skip, rfl, hcs', hd'⟩
    · intro bo name sc' S S' op hok h hlast
      obtain ⟨n, on', cases', default', S₁, rfl, hparts, h⟩ := compileField_switch h
      obtain ⟨hcs', hd'⟩ := switchParts_derives hcases hdefault hok hparts
      obtain rfl := addOp_last rfl h hlast
      exact ⟨on', cases', default', _, rfl, hcs', hd'⟩
  cond pred thn ht := by
    constructor
    · intro bo S S' op hok h
      cases h
    · intro bo name sc' S S' op hok h hlast
      rw [compileField] at h
      obtain ⟨n, rfl, hc⟩ := named_bind_ok h
      obtain ⟨folded, hfold, h⟩ := lift_bind_ok hc
      obtain ⟨pred', S₁, hpred, h⟩ := C.bind_eq_ok.mp h
      obtain ⟨thn', S₂, hthn, h⟩ := C.bind_eq_ok.mp h
      obtain rfl := addOp_last rfl h hlast
      exact ⟨pred', thn', _, rfl, ht.1 (emitExpr_steps hfold hok hpred).1.ok hthn⟩

end Runs

/-- The marks of a compiled schema. -/
lemma compile_derives {fields : List FieldIn} {opts : Options} {prog : Program}
    (h : compile fields opts = .ok prog) : fieldsDerive fields (piecesOf prog.ops) := by
  unfold compile at h
  obtain ⟨⟨prog', S⟩, hscope, h⟩ := Exec.bind_eq_ok.mp h
  dsimp only at h
  split_ifs at h with hd
  · cases h
  · cases h
    exact inScope_derives (fun f _ => ((elemDerives_and_fieldDerives opts).type f.ty).2) (by simp) hscope

end Rustruct

import Rustruct.Proofs.Depth
import Rustruct.Proofs.Derived
import Rustruct.Proofs.Inversion

/-!
# What a reference becomes

A reference is to the innermost field of its name that is declared before it. In the program it is
the register of that field's item, so many frames up as there are scopes between, and only items
that something refers to have a register.
-/

namespace Rustruct

/-- The fields declared so far, scope by scope, innermost first. -/
abbrev PieceEnv := List (List Piece)

def findPiece (pieces : List Piece) (n : String) : Option Piece := pieces.find? fun p => p.key == .named n

/-- The innermost field of a name, with how many scopes out it is. -/
def lookupPiece : PieceEnv → String → Option (Nat × Piece)
  | [], _ => none
  | pieces :: Ψ, n =>
    match findPiece pieces n with
    | some p => some (0, p)
    | none => (lookupPiece Ψ n).map fun (up, p) => (up + 1, p)

/-- The register is that of the field, and the field has it. -/
def Refers (Ψ : PieceEnv) (n : String) (r : Reg) : Prop :=
  ∃ p, lookupPiece Ψ n = some (r.up, p) ∧ p.reg = some r.idx

/-- The references of an expression, from left to right. -/
def ExprIn.refs : ExprIn → List String
  | .imm _ | .greedy => []
  | .ref name => [name]
  | .bin _ l r => l.refs ++ r.refs

def Ins.reg? : Ins → Option Reg
  | .reg r => some r
  | _ => none

def Expr.regs (e : Expr) : List Reg := e.ins.filterMap Ins.reg?

def ExprResolves (Ψ : PieceEnv) (e : ExprIn) (expr : Expr) : Prop := List.Forall₂ (Refers Ψ) e.refs expr.regs

/-- The inverse of a length is for the field that it refers to. -/
def LenResolves (Ψ : PieceEnv) (e : ExprIn) : LenSrc → Prop
  | .greedy => e.refs = []
  | .expr expr inv => ExprResolves Ψ e expr ∧ ∀ i ∈ inv, ∀ n ∈ e.refs, Refers Ψ n i.reg

def SizeResolves (Ψ : PieceEnv) : Option ExprIn → Option LenSrc → Prop
  | none, size => size = none
  | some e, size => ∃ len, size = some len ∧ LenResolves Ψ e len

def CountResolves (Ψ : PieceEnv) (count : Option ExprIn) : CountSrc → Prop
  | .untilEof => ∀ e ∈ count, e.refs = []
  | .expr expr inv => ∃ e, count = some e ∧ LenResolves Ψ e (.expr expr inv)

/-- No two items share a register, and a register is one of those the scope has. -/
structure RegsApart (prog : Program) : Prop where
  apart : (piecesOf prog.ops).Pairwise fun p q => ∀ i ∈ p.reg, i ∉ q.reg
  below : ∀ p ∈ piecesOf prog.ops, ∀ i ∈ p.reg, i < min prog.nregs maxRegs

mutual

/-- The references in the op are to the fields that the names in the type are of. -/
def TypeIn.Resolves : TypeIn → PieceEnv → Op → Prop
  | .bytes len _, Ψ, op => ∃ len' max c, op = .bytes len' max c ∧ LenResolves Ψ len len'
  | .str len _ _ _, Ψ, op => ∃ len' max enc c, op = .str len' max enc c ∧ LenResolves Ψ len len'
  | .struct fields _ size, Ψ, op => ∃ prog size' c, op = .nest prog size' c ∧ SizeResolves Ψ size size' ∧
      RegsApart prog ∧ fieldsResolve fields Ψ [] (piecesOf prog.ops)
  | .array elem count _, Ψ, op => ∃ count' maxCount elem' elemMin c,
      op = .array count' maxCount elem' elemMin c ∧ CountResolves Ψ count count' ∧ elem.Resolves Ψ elem'
  | .switch on cases default, Ψ, op => ∃ on' cases' default' c, op = .switch on' cases' default' c ∧
      ExprResolves Ψ on on' ∧ casesResolve cases Ψ cases' ∧ defaultResolves default Ψ default'
  | .cond pred thn, Ψ, op => ∃ pred' thn' c, op = .cond pred' thn' c ∧ ExprResolves Ψ pred pred' ∧
      thn.Resolves Ψ thn'
  | _, _, _ => True

/-- A field has a register exactly when something after it refers to it. -/
def fieldsResolve : List FieldIn → PieceEnv → List Piece → List Piece → Prop
  | [], _, _, pieces => pieces = []
  | .mk name ty :: fields, Ψ, before, pieces => ∃ p rest, pieces = p :: rest ∧ p.key = keyOf name ∧
      (∀ n, name = some n → (p.reg.isSome ↔ fieldsMention n fields)) ∧
      (∀ op, p = .op op → ty.Resolves (before :: Ψ) op) ∧ fieldsResolve fields Ψ (before ++ [p]) rest

def casesResolve : List (Int × TypeIn) → PieceEnv → List (Int × Op) → Prop
  | [], _, cases' => cases' = []
  | (tag, ty) :: cases, Ψ, cases' => ∃ op rest, cases' = (tag, op) :: rest ∧ ty.Resolves Ψ op ∧
      casesResolve cases Ψ rest

def defaultResolves : Option TypeIn → PieceEnv → Option Op → Prop
  | none, _, default' => default' = none
  | some ty, Ψ, default' => ∃ op, default' = some op ∧ ty.Resolves Ψ op

end

section Expressions

lemma mem_refs {e : ExprIn} {n : String} : n ∈ e.refs ↔ e.mentions n = true := by
  induction e with
  | imm | greedy => simp [ExprIn.refs, ExprIn.mentions]
  | ref name =>
    simp only [ExprIn.refs, ExprIn.mentions, List.mem_singleton, beq_iff_eq]
    exact eq_comm
  | bin op l r ihl ihr => rw [ExprIn.refs, ExprIn.mentions, List.mem_append, Bool.or_eq_true, ihl, ihr]

lemma fold_refs {e folded : ExprIn} (h : fold e = .ok folded) : folded.refs = e.refs := by
  induction e generalizing folded with
  | imm | ref =>
    cases h
    rfl
  | greedy => cases h
  | bin op l r ihl ihr =>
    obtain ⟨fl, hl, h⟩ := Exec.bind_eq_ok.mp h
    obtain ⟨fr, hr, h⟩ := Exec.bind_eq_ok.mp h
    rw [ExprIn.refs, ← ihl hl, ← ihr hr]
    unfold foldBin at h
    split at h
    · obtain ⟨c, -, h⟩ := Exec.bind_eq_ok.mp h
      cases h
      rfl
    · cases h
      rfl

/-- The symbols of the relation and the fields of the program, scope by scope. -/
def ScopeMatch (syms : List Sym) (pieces : List Piece) : Prop :=
  ∀ n, Option.Rel (fun s p => p.reg = s.reg) (findSym syms n) (findPiece pieces n)

abbrev EnvMatch (Γ : Env) (Ψ : PieceEnv) : Prop := List.Forall₂ ScopeMatch Γ Ψ

lemma lookup_match {Γ : Env} {Ψ : PieceEnv} (h : EnvMatch Γ Ψ) {n : String} {up : Nat} {s : Sym}
    (hs : lookupSym Γ n = some (up, s)) : ∃ p, lookupPiece Ψ n = some (up, p) ∧ p.reg = s.reg := by
  induction h generalizing up with
  | nil => cases hs
  | @cons syms pieces Γ Ψ hscope _ ih =>
    have hrel := hscope n
    rw [lookupSym] at hs
    rw [lookupPiece]
    cases hf : findSym syms n with
    | some t =>
      rw [hf] at hrel hs
      cases hp : findPiece pieces n with
      | none =>
        rw [hp] at hrel
        cases hrel
      | some p =>
        rw [hp] at hrel
        cases hs
        cases hrel with
        | some hreg => exact ⟨p, rfl, hreg⟩
    | none =>
      rw [hf] at hrel hs
      cases hp : findPiece pieces n with
      | some p =>
        rw [hp] at hrel
        cases hrel
      | none =>
        obtain ⟨⟨up', t⟩, hl, he⟩ := Option.map_eq_some_iff.mp hs
        obtain ⟨rfl, rfl⟩ : up' + 1 = up ∧ t = s := by simpa using he
        obtain ⟨p, hl', hreg⟩ := ih hl
        exact ⟨p, by rw [hl']; rfl, hreg⟩

variable {Γ : Env} {Ψ : PieceEnv} (hm : EnvMatch Γ Ψ) (hd : Γ.length ≤ maxDepth)

include hm hd

/-- So few scopes that no count of them wraps. -/
lemma LowersRef.refers {ctx : RefCtx} {n : String} {r : Reg} (h : LowersRef Γ ctx n r) : Refers Ψ n r := by
  obtain ⟨up, s, hs, -, hreg, hup, -⟩ := h
  obtain ⟨p, hp, hpr⟩ := lookup_match hm hs
  have hlt := (lookupSym_mem hs).1
  have hsame : r.up = up := by
    have hmax : maxDepth < 256 := by decide
    rw [hup]
    exact Nat.mod_eq_of_lt (by omega)
  exact ⟨p, by rw [hp, hsame], hpr.trans hreg⟩

lemma LowersInto.resolves {ctx : RefCtx} {e : ExprIn} {ins : List Ins} (h : LowersInto Γ ctx e ins) :
    List.Forall₂ (Refers Ψ) e.refs (ins.filterMap Ins.reg?) := by
  induction e generalizing ins with
  | imm n =>
    obtain rfl : ins = [.imm n] := h
    exact .nil
  | greedy => exact h.elim
  | ref name =>
    obtain ⟨reg, href, rfl⟩ := h
    exact .cons (href.refers hm hd) .nil
  | bin op l r ihl ihr =>
    obtain ⟨il, ir, hl, hr, rfl⟩ := h
    rw [List.filterMap_append, List.filterMap_append]
    simp only [List.filterMap_cons, Ins.reg?, List.filterMap_nil, List.append_nil]
    exact List.rel_append (ihl hl) (ihr hr)

lemma LowersExpr.resolves {ctx : RefCtx} {e : ExprIn} {expr : Expr} (h : LowersExpr Γ ctx e expr) :
    ExprResolves Ψ e expr := by
  obtain ⟨folded, hfold, hl, -⟩ := h
  rw [ExprResolves, ← fold_refs hfold]
  exact hl.resolves hm hd

lemma LowersLin.resolves {e : ExprIn} {expr : Expr} {inv : Inv} (h : LowersLin Γ e expr inv) :
    LenResolves Ψ e (.expr expr (some inv)) := by
  obtain ⟨folded, name, hfold, hlin, -, href, hexpr⟩ := h
  refine ⟨hexpr.resolves hm hd, ?_⟩
  intro i hi n hn
  obtain rfl : inv = i := Option.some.inj hi
  rw [← fold_refs hfold] at hn
  have hname := linear_name hlin (mem_refs.mp hn)
  obtain rfl : name = n := by simpa [Lin.name] using hname
  exact href.refers hm hd

lemma LowersLen.resolves {e : ExprIn} {len : LenSrc} (h : LowersLen Γ e len) : LenResolves Ψ e len := by
  have key : ((∃ n, 0 ≤ n ∧ fold e = .ok (.imm n) ∧ len = .expr (.imm n) none) ∨
      ∃ expr inv, LowersLin Γ e expr inv ∧ len = .expr expr (some inv)) → LenResolves Ψ e len := by
    rintro (⟨n, -, hfold, rfl⟩ | ⟨expr, inv, hlin, rfl⟩)
    · refine ⟨?_, nofun⟩
      rw [ExprResolves, ← fold_refs hfold]
      exact .nil
    · exact hlin.resolves hm hd
  cases e with
  | greedy =>
    obtain rfl : len = .greedy := h
    rfl
  | imm | ref | bin => exact key h

lemma LowersSize.resolves {size : Option ExprIn} {size' : Option LenSrc} (h : LowersSize Γ size size') :
    SizeResolves Ψ size size' := by
  cases size with
  | none => exact h
  | some e =>
    obtain ⟨len, hlen, -, rfl⟩ := h
    exact ⟨len, rfl, hlen.resolves hm hd⟩

lemma LowersCount.resolves {count : Option ExprIn} {untilEof : Bool} {count' : CountSrc}
    (h : LowersCount Γ count untilEof count') : CountResolves Ψ count count' := by
  match count, untilEof with
  | none, true =>
    obtain rfl : count' = .untilEof := h
    exact nofun
  | none, false => exact h.elim
  | some e, true => cases e <;> exact h.elim
  | some .greedy, false =>
    obtain rfl : count' = .untilEof := h
    intro e he
    obtain rfl : .greedy = e := Option.some.inj he
    rfl
  | some (.imm _), false | some (.ref _), false | some (.bin _ _ _), false =>
    obtain ⟨expr, inv, hlen, rfl⟩ := h
    exact ⟨_, rfl, hlen.resolves hm hd⟩

end Expressions

section Mentioned

variable {Γ : Env} {n : String} {up : Nat} {s : Sym}

lemma LowersInto.reg_isSome {ctx : RefCtx} {e : ExprIn} {ins : List Ins} (h : LowersInto Γ ctx e ins)
    (hs : lookupSym Γ n = some (up, s)) (hn : e.mentions n) : s.reg.isSome := by
  obtain ⟨up', s', hs', -, hreg, -⟩ := h.refs hn
  rw [hs] at hs'
  cases hs'
  rw [hreg]
  rfl

lemma LowersExpr.reg_isSome {ctx : RefCtx} {e : ExprIn} {expr : Expr} (h : LowersExpr Γ ctx e expr)
    (hs : lookupSym Γ n = some (up, s)) (hn : e.mentions n) : s.reg.isSome := by
  obtain ⟨folded, hfold, hl, -⟩ := h
  exact hl.reg_isSome hs (by rwa [fold_mentions_eq hfold])

lemma LowersLen.reg_isSome {e : ExprIn} {len : LenSrc} (h : LowersLen Γ e len)
    (hs : lookupSym Γ n = some (up, s)) (hn : e.mentions n) : s.reg.isSome := by
  have key : ((∃ m, 0 ≤ m ∧ fold e = .ok (.imm m) ∧ len = .expr (.imm m) none) ∨
      ∃ expr inv, LowersLin Γ e expr inv ∧ len = .expr expr (some inv)) → s.reg.isSome := by
    rintro (⟨m, -, hfold, -⟩ | ⟨expr, inv, hlin, -⟩)
    · rw [← fold_mentions_eq hfold] at hn
      cases hn
    · obtain ⟨folded, name, -, -, -, -, hexpr⟩ := hlin
      exact hexpr.reg_isSome hs hn
  cases e with
  | greedy => cases hn
  | imm | ref | bin => exact key h

lemma LowersSize.reg_isSome {size : Option ExprIn} {size' : Option LenSrc} (h : LowersSize Γ size size')
    (hs : lookupSym Γ n = some (up, s)) (hn : size.any (ExprIn.mentions n)) : s.reg.isSome := by
  cases size with
  | none => cases hn
  | some e =>
    obtain ⟨len, hlen, -, -⟩ := h
    exact hlen.reg_isSome hs hn

lemma LowersCount.reg_isSome {count : Option ExprIn} {untilEof : Bool} {count' : CountSrc}
    (h : LowersCount Γ count untilEof count') (hs : lookupSym Γ n = some (up, s))
    (hn : count.any (ExprIn.mentions n)) : s.reg.isSome := by
  match count, untilEof with
  | none, _ => cases hn
  | some e, true => cases e <;> exact h.elim
  | some .greedy, false => cases hn
  | some (.imm _), false | some (.ref _), false | some (.bin _ _ _), false =>
    obtain ⟨expr, inv, hlen, -⟩ := h
    exact hlen.reg_isSome hs hn

variable {opts : Options}

/-- A reference in the type is one to a symbol with a register. -/
structure TypeRegs (opts : Options) (ty : TypeIn) : Prop where
  elem : ∀ {Γ bo op n up s}, LowersElem opts ty Γ bo op → lookupSym Γ n = some (up, s) → ty.mentions n → s.reg.isSome
  field : ∀ {Γ bo name atom kind n up s}, LowersField opts ty Γ bo name atom kind →
    lookupSym Γ n = some (up, s) → ty.mentions n → s.reg.isSome

lemma findSym_append (l : List Sym) (t : Sym) (n : String) :
    findSym (l ++ [t]) n = (findSym l n).or (if t.name = n then some t else none) := by
  unfold findSym
  rw [List.find?_append, List.find?_singleton]
  simp only [beq_iff_eq]

lemma lookupSym_append {l : List Sym} {t : Sym} (ht : t.name ≠ n) :
    lookupSym ((l ++ [t]) :: Γ) n = lookupSym (l :: Γ) n := by
  rw [lookupSym, lookupSym, findSym_append, if_neg ht, Option.or_none]

lemma LowersFields.reg_isSome {fields : List FieldIn} (hfs : ∀ f ∈ fields, TypeRegs opts f.ty) {bo : ByteOrder}
    {full : List Sym} {k : Nat} {atoms : List Atom} (h : LowersFields opts fields Γ bo full k atoms)
    (hs : lookupSym (full.take k :: Γ) n = some (up, s)) (hn : fieldsMention n fields) : s.reg.isSome := by
  induction fields generalizing k atoms with
  | nil => cases hn
  | cons f fields ih =>
    obtain ⟨name, ty⟩ := f
    have hty := hfs (.mk name ty) List.mem_cons_self
    have hrest := @ih fun f hf => hfs f (List.mem_cons_of_mem _ hf)
    rw [fieldsMention, Bool.or_eq_true, Bool.and_eq_true] at hn
    cases name with
    | none =>
      obtain ⟨atom, kind, rest, hfield, hmore, rfl⟩ := h
      rcases hn with hn | hn
      · exact hty.field hfield hs hn
      · exact hrest hmore hs hn.2
    | some m =>
      obtain ⟨atom, t, rest, hfield, hget, hname, -, -, hmore, rfl⟩ := h
      rcases hn with hn | hn
      · exact hty.field hfield hs hn
      · obtain ⟨hk, hval⟩ := List.getElem?_eq_some_iff.mp hget
        have hne : t.name ≠ n := by
          rw [hname]
          simpa using hn.1
        refine hrest hmore ?_ hn.2
        rw [← List.take_concat_get' _ _ hk, hval, lookupSym_append hne]
        exact hs

lemma LowersCases.reg_isSome {cases : List (Int × TypeIn)} (hcs : ∀ branch ∈ cases, TypeRegs opts branch.2)
    {bo : ByteOrder} {cases' : List (Int × Op)} (h : LowersCases opts cases Γ bo cases')
    (hs : lookupSym Γ n = some (up, s)) (hn : casesMention n cases) : s.reg.isSome := by
  induction cases generalizing cases' with
  | nil => cases hn
  | cons branch cases ih =>
    obtain ⟨tag, ty⟩ := branch
    obtain ⟨op, rest, hop, hrest, -⟩ := h
    rw [casesMention, Bool.or_eq_true] at hn
    rcases hn with hn | hn
    · exact (hcs (tag, ty) List.mem_cons_self).elem hop hs hn
    · exact ih (fun b hb => hcs b (List.mem_cons_of_mem _ hb)) hrest hn

lemma LowersDefault.reg_isSome {default : Option TypeIn} (hd : ∀ ty ∈ default, TypeRegs opts ty)
    {bo : ByteOrder} {default' : Option Op} (h : LowersDefault opts default Γ bo default')
    (hs : lookupSym Γ n = some (up, s)) (hn : defaultMentions n default) : s.reg.isSome := by
  cases default with
  | none => cases hn
  | some ty =>
    obtain ⟨op, hop, -⟩ := h
    exact (hd ty rfl).elem hop hs hn

/-- The size and the fields of a struct. -/
lemma struct_reg_isSome {fields : List FieldIn} {byteorder : Option ByteOrder} {size : Option ExprIn}
    (hfs : ∀ f ∈ fields, TypeRegs opts f.ty) {size' : Option LenSrc} {bo : ByteOrder} {full : List Sym}
    {atoms : List Atom} (hsize : LowersSize Γ size size') (hf : LowersFields opts fields Γ bo full 0 atoms)
    (hs : lookupSym Γ n = some (up, s)) (hn : (TypeIn.struct fields byteorder size).mentions n) : s.reg.isSome := by
  rw [TypeIn.mentions, Bool.or_eq_true] at hn
  rcases hn with hn | hn
  · exact hsize.reg_isSome hs hn
  · have hup : lookupSym (full.take 0 :: Γ) n = some (up + 1, s) := by
      rw [List.take_zero, lookupSym, hs]
      rfl
    exact hf.reg_isSome hfs hup hn

lemma array_reg_isSome {elem : TypeIn} {count : Option ExprIn} {untilEof : Bool} (he : TypeRegs opts elem)
    {count' : CountSrc} {bo : ByteOrder} {elem' : Op} (hcount : LowersCount Γ count untilEof count')
    (helem : LowersElem opts elem Γ bo elem') (hs : lookupSym Γ n = some (up, s))
    (hn : (TypeIn.array elem count untilEof).mentions n) : s.reg.isSome := by
  rw [TypeIn.mentions, Bool.or_eq_true] at hn
  rcases hn with hn | hn
  · exact hcount.reg_isSome hs hn
  · exact he.elem helem hs hn

lemma switch_reg_isSome {on : ExprIn} {cases : List (Int × TypeIn)} {default : Option TypeIn}
    (hcs : ∀ branch ∈ cases, TypeRegs opts branch.2) (hd : ∀ ty ∈ default, TypeRegs opts ty) {on' : Expr}
    {cases' : List (Int × Op)} {default' : Option Op} {bo : ByteOrder} (hon : LowersExpr Γ .on on on')
    (hcases : LowersCases opts cases Γ bo cases') (hdefault : LowersDefault opts default Γ bo default')
    (hs : lookupSym Γ n = some (up, s)) (hn : (TypeIn.switch on cases default).mentions n) : s.reg.isSome := by
  rw [TypeIn.mentions, Bool.or_eq_true, Bool.or_eq_true] at hn
  rcases hn with (hn | hn) | hn
  · exact hon.reg_isSome hs hn
  · exact hcases.reg_isSome hcs hs hn
  · exact hdefault.reg_isSome hd hs hn

lemma typeRegs_plain {ty : TypeIn} (h : ∀ n, ty.mentions n = false) : TypeRegs opts ty := by
  constructor <;> intros <;> simp_all

lemma typeRegs (opts : Options) : TypeCases (TypeRegs opts) where
  int _ _ _ := typeRegs_plain fun _ => rfl
  float _ _ := typeRegs_plain fun _ => rfl
  bool _ := typeRegs_plain fun _ => rfl
  raw _ _ := typeRegs_plain fun _ => rfl
  cstr _ _ _ := typeRegs_plain fun _ => rfl
  bits _ _ := typeRegs_plain fun _ => rfl
  flags _ _ _ _ := typeRegs_plain fun _ => rfl
  digest _ _ _ _ := typeRegs_plain fun _ => rfl
  bytes len max := by
    constructor
    · rintro Γ bo op n up s ⟨len', hlen, -⟩ hs hn
      exact hlen.reg_isSome hs hn
    · rintro Γ bo name atom kind n up s ⟨m, len', -, hlen, -, -⟩ hs hn
      exact hlen.reg_isSome hs hn
  str len max encoding errors := by
    constructor
    · rintro Γ bo op n up s ⟨len', enc, hlen, -, -⟩ hs hn
      exact hlen.reg_isSome hs hn
    · rintro Γ bo name atom kind n up s ⟨m, len', enc, -, hlen, -, -, -⟩ hs hn
      exact hlen.reg_isSome hs hn
  struct fields byteorder size hfs := by
    constructor
    · rintro Γ bo op n up s ⟨size', full, atoms, prog, hsize, hf, -, -⟩ hs hn
      exact struct_reg_isSome hfs hsize hf hs hn
    · rintro Γ bo name atom kind n up s ⟨m, size', full, atoms, prog, -, hsize, hf, -, -, -, -⟩ hs hn
      exact struct_reg_isSome hfs hsize hf hs hn
  array elem count untilEof he := by
    constructor
    · rintro Γ bo op n up s ⟨count', elem', hcount, helem, -⟩ hs hn
      exact array_reg_isSome he hcount helem hs hn
    · rintro Γ bo name atom kind n up s ⟨m, count', elem', -, hcount, helem, -, -⟩ hs hn
      exact array_reg_isSome he hcount helem hs hn
  switch on cases default hcs hd := by
    constructor
    · rintro Γ bo op n up s ⟨on', cases', default', hon, hcases, hdefault, -⟩ hs hn
      exact switch_reg_isSome hcs hd hon hcases hdefault hs hn
    · rintro Γ bo name atom kind n up s ⟨m, on', cases', default', -, hon, hcases, hdefault, -, -⟩ hs hn
      exact switch_reg_isSome hcs hd hon hcases hdefault hs hn
  cond pred thn ht := by
    constructor
    · rintro Γ bo op n up s h
      exact h.elim
    · rintro Γ bo name atom kind n up s ⟨m, pred', thn', -, hpred, hthn, -, -⟩ hs hn
      rw [TypeIn.mentions, Bool.or_eq_true] at hn
      rcases hn with hn | hn
      · exact hpred.reg_isSome hs hn
      · exact ht.elem hthn hs hn

end Mentioned

section Scopes

variable {opts : Options} {full : List Sym}

/-- Only the integers of a scope have registers. -/
lemma Realizes.reg {atom : Atom} {p : Piece} (h : Realizes full atom p) (hp : atom.Proper)
    (hno : atom.bare.isInt = false → regOf full atom.bare.key = none) : p.reg = regOf full p.key := by
  rw [h.key hp]
  cases atom with
  | fixed kind key | bit width signed key =>
    subst h
    rfl
  | digest algo overs verify be name =>
    obtain ⟨overs', -, rfl⟩ := h
    exact (hno rfl).symm
  | op o name | cond pred thn name =>
    subst h
    exact (hno rfl).symm

lemma findPiece_append (l : List Piece) (p : Piece) (n : String) :
    findPiece (l ++ [p]) n = (findPiece l n).or (if p.key = .named n then some p else none) := by
  unfold findPiece
  rw [List.find?_append, List.find?_singleton]
  simp only [beq_iff_eq]

lemma ScopeMatch.append {syms : List Sym} {pieces : List Piece} (h : ScopeMatch syms pieces) {s : Sym} {p : Piece}
    (hkey : p.key = .named s.name) (hreg : p.reg = s.reg) : ScopeMatch (syms ++ [s]) (pieces ++ [p]) := by
  intro n
  have hrel := h n
  rw [findSym_append, findPiece_append, hkey]
  by_cases hn : s.name = n
  · rw [if_pos hn, if_pos (by rw [hn])]
    cases hs : findSym syms n with
    | some t =>
      rw [hs] at hrel
      cases hp : findPiece pieces n with
      | some q => rwa [hp] at hrel
      | none =>
        rw [hp] at hrel
        cases hrel
    | none =>
      rw [hs] at hrel
      cases hp : findPiece pieces n with
      | some q =>
        rw [hp] at hrel
        cases hrel
      | none => exact .some hreg
  · rw [if_neg hn, if_neg (by simpa using hn), Option.or_none, Option.or_none]
    exact hrel

lemma ScopeMatch.skip {syms : List Sym} {pieces : List Piece} (h : ScopeMatch syms pieces) {p : Piece}
    (hkey : p.key = .skip) : ScopeMatch syms (pieces ++ [p]) := by
  intro n
  rw [findPiece_append, hkey, if_neg nofun, Option.or_none]
  exact h n

/-- A register of an item is that of its symbol. -/
lemma Realizes.regOf {atom : Atom} {p : Piece} (h : Realizes full atom p) {i : Nat} (hi : p.reg = some i) :
    Rustruct.regOf full p.key = some i := by
  cases atom with
  | fixed kind key | bit width signed key =>
    subst h
    exact hi
  | digest algo overs verify be name =>
    obtain ⟨overs', -, rfl⟩ := h
    cases hi
  | op o name | cond pred thn name =>
    subst h
    cases hi

/-- No two symbols have the same number. -/
lemma Numbered.unique {num : Sym → Option Nat} {syms : List Sym} {n : Nat} (h : Numbered num syms n) {s t : Sym}
    (hs : s ∈ syms) (ht : t ∈ syms) {i : Nat} (hsi : num s = some i) (hti : num t = some i) : s = t := by
  obtain ⟨k, hk, rfl⟩ := List.getElem_of_mem hs
  obtain ⟨l, hl, rfl⟩ := List.getElem_of_mem ht
  have hinj := List.pairwise_iff_getElem.mp h.inj
  rcases Nat.lt_trichotomy k l with hlt | rfl | hlt
  · exact absurd hti (hinj k l hk hl hlt i hsi)
  · rfl
  · exact absurd hsi (hinj l k hl hk hlt i hti)

lemma Assembled.regsApart {atoms : List Atom} {prog : Program} (h : Assembled full atoms prog)
    (hnames : (namesOf (piecesOf prog.ops)).Nodup) : RegsApart prog := by
  have hsym : ∀ p ∈ piecesOf prog.ops, ∀ i, p.reg = some i →
      ∃ n s, p.key = .named n ∧ s.name = n ∧ s ∈ full ∧ s.reg = some i := by
    intro p hp i hi
    obtain ⟨atom, -, hatom⟩ := forall₂_mem h.pieces.flip p hp
    have hr : Realizes full atom p := hatom
    obtain ⟨s, hs, hreg⟩ := Option.bind_eq_some_iff.mp (hr.regOf hi)
    obtain ⟨n, hn, hfind⟩ := Option.bind_eq_some_iff.mp hs
    obtain ⟨hmem, hname⟩ := findSym_eq_some hfind
    refine ⟨n, s, ?_, hname, hmem, hreg⟩
    cases hk : p.key with
    | skip =>
      rw [hk] at hn
      cases hn
    | named m =>
      rw [hk] at hn
      cases hn
      rfl
  constructor
  · unfold namesOf at hnames
    rw [List.Nodup, List.pairwise_filterMap] at hnames
    refine hnames.imp_of_mem fun {p q} hp hq hne i hi hi' => ?_
    obtain ⟨n, s, hkp, hsn, hsm, hsr⟩ := hsym p hp i hi
    obtain ⟨m, t, hkq, htn, htm, htr⟩ := hsym q hq i hi'
    obtain rfl := h.syms.regs.unique hsm htm hsr htr
    exact hne n (by rw [hkp]; rfl) m (by rw [hkq]; rfl) (hsn.symm.trans htn)
  · intro p hp i hi
    obtain ⟨n, s, -, -, hsm, hsr⟩ := hsym p hp i hi
    have hlt := h.syms.regs.lt s hsm i hsr
    have hle := h.syms.nregs_le
    omega

/-- The op of a field is the one that the type is lowered to. -/
structure TypeResolves (opts : Options) (ty : TypeIn) : Prop where
  elem : ∀ {Γ Ψ bo op}, EnvMatch Γ Ψ → Γ.length + opDepth op ≤ maxDepth → LowersElem opts ty Γ bo op → ty.Resolves Ψ op
  field : ∀ {Γ Ψ bo name atom kind full op}, EnvMatch Γ Ψ → Γ.length + opDepth op ≤ maxDepth →
    LowersField opts ty Γ bo name atom kind → Realizes full atom (.op op) → ty.Resolves Ψ op

lemma LowersFields.resolve {fields : List FieldIn} (hfs : ∀ f ∈ fields, TypeResolves opts f.ty) {Γ : Env}
    {Ψ : PieceEnv} (hm : EnvMatch Γ Ψ) {bo : ByteOrder} {nregs nspans : Nat} (hsyms : SymsOk full nregs nspans) {k : Nat}
    {atoms : List Atom} {before pieces : List Piece} (hbefore : ScopeMatch (full.take k) before)
    (h : LowersFields opts fields Γ bo full k atoms) (hp : List.Forall₂ (Realizes full) atoms pieces)
    (hdepth : ∀ op, .op op ∈ pieces → Γ.length + 1 + opDepth op ≤ maxDepth) :
    fieldsResolve fields Ψ before pieces := by
  induction fields generalizing k atoms before pieces with
  | nil =>
    obtain ⟨-, rfl⟩ := h
    cases hp
    rfl
  | cons f fields ih =>
    obtain ⟨name, ty⟩ := f
    have hty := hfs (.mk name ty) List.mem_cons_self
    have hrest := @ih fun f hf => hfs f (List.mem_cons_of_mem _ hf)
    cases name with
    | none =>
      obtain ⟨atom, kind, rest, hfield, hmore, rfl⟩ := h
      cases hp with
      | @cons _ p _ ps hr hps =>
        obtain ⟨hkey, -, hproper⟩ := hfield.shape
        have hpkey : p.key = .skip := (hr.key hproper).trans hkey
        refine ⟨p, ps, rfl, hpkey, nofun, ?_, ?_⟩
        · rintro op rfl
          have hroom := hdepth op List.mem_cons_self
          exact hty.field (.cons hbefore hm) (by rw [List.length_cons]; exact hroom) hfield hr
        · exact hrest (hbefore.skip hpkey) hmore hps fun op ho => hdepth op (List.mem_cons_of_mem _ ho)
    | some n =>
      obtain ⟨atom, s, rest, hfield, hget, hname, -, hment, hmore, rfl⟩ := h
      obtain ⟨hk, hval⟩ := List.getElem?_eq_some_iff.mp hget
      have hmem : s ∈ full := hval ▸ List.getElem_mem hk
      have hfind : findSym full n = some s := hname ▸ findSym_of_mem hsyms.names hmem
      cases hp with
      | @cons _ p _ ps hr hps =>
        obtain ⟨hkey, hint, hproper⟩ := hfield.shape
        have hpkey : p.key = .named n := (hr.key hproper).trans hkey
        have hregOf : regOf full (.named n) = s.reg := by
          simp [regOf, symOf, Key.name, hfind]
        have hreg : p.reg = s.reg := by
          rw [hr.reg hproper fun hno => ?_, hpkey, hregOf]
          -- What cannot be referred to has no register.
          rw [hkey, keyOf, hregOf]
          by_contra hne
          have hrefable := hsyms.refable s hmem (Option.isSome_iff_ne_none.mpr hne)
          rw [hint] at hno
          exact absurd hrefable (by simpa [Sym.kind] using hno)
        have hnext : full.take (k + 1) = full.take k ++ [s] := by
          rw [← List.take_concat_get' _ _ hk, hval]
        have hbefore' : ScopeMatch (full.take (k + 1)) (before ++ [p]) := by
          rw [hnext]
          exact hbefore.append (by rw [hpkey, hname]) hreg
        have hlookup : lookupSym (full.take (k + 1) :: Γ) n = some (0, s) := by
          have hfresh : findSym (full.take k) n = none := by
            have hnd := hsyms.names
            rw [← List.take_append_drop (k + 1) full, hnext, List.append_assoc, List.map_append] at hnd
            have hdisj := (List.nodup_append.mp hnd).2.2
            rw [findSym, List.find?_eq_none]
            intro t ht htn
            have htn' : t.name = n := by simpa using htn
            exact hdisj n (htn' ▸ List.mem_map_of_mem ht) n (by simp [hname]) rfl
          rw [lookupSym, hnext, findSym_append, hfresh, if_pos hname]
          rfl
        refine ⟨p, ps, rfl, hpkey, ?_, ?_, ?_⟩
        · intro m hmn
          obtain rfl : n = m := Option.some.inj hmn
          rw [hreg]
          refine ⟨hment, fun hmentions => ?_⟩
          exact hmore.reg_isSome (fun f _ => (typeRegs opts).type f.ty) hlookup hmentions
        · rintro op rfl
          have hroom := hdepth op List.mem_cons_self
          exact hty.field (.cons hbefore hm) (by rw [List.length_cons]; exact hroom) hfield hr
        · exact hrest hbefore' hmore hps fun op ho => hdepth op (List.mem_cons_of_mem _ ho)

/-- A derived field is one that a length refers to, so it has a register. -/
lemma Assembled.derived_refable {atoms : List Atom} {prog : Program} (h : Assembled full atoms prog) :
    ∀ s ∈ full, s.derived → s.refable := by
  intro s hs hd
  rw [h.derived s hs] at hd
  simp only [Bool.and_eq_true] at hd
  exact h.syms.refable s hs (h.syms.referenced s hs (.inl hd.1.1))

/-- A scope of its own within the scopes of `Γ`. -/
lemma Assembled.resolves {fields : List FieldIn} (hfs : ∀ f ∈ fields, TypeResolves opts f.ty) {Γ : Env}
    {Ψ : PieceEnv} (hm : EnvMatch Γ Ψ) {bo : ByteOrder} {atoms : List Atom} {prog : Program}
    (hasm : Assembled full atoms prog) (hlow : LowersFields opts fields Γ bo full 0 atoms)
    (hdepth : Γ.length + frameDepth prog ≤ maxDepth) :
    RegsApart prog ∧ fieldsResolve fields Ψ [] (piecesOf prog.ops) := by
  constructor
  · apply hasm.regsApart
    rw [namesOf_pieces hasm.syms.names hasm.derived_refable hlow hasm.pieces]
    exact hasm.syms.names
  · refine hlow.resolve hfs hm hasm.syms ?_ hasm.pieces ?_
    · intro n
      exact .none
    · intro op hop
      obtain ⟨o, ho, hpieces⟩ := List.mem_flatMap.mp hop
      have hsame : o = op := by
        cases o with
        | fixed | bitRun => simp [Op.pieces, FixedItem.piece] at hpieces
        | _ => exact (Piece.op.inj (List.mem_singleton.mp hpieces)).symm
      have hle := opsDepth_le (hsame ▸ ho)
      obtain ⟨ops, nregs, nspans, minSize, staticSize⟩ := prog
      rw [frameDepth] at hdepth
      have hroom : opDepth op ≤ opsDepth ops := hle
      omega

lemma LowersCases.resolve {cases : List (Int × TypeIn)} (hcs : ∀ branch ∈ cases, TypeResolves opts branch.2)
    {Γ : Env} {Ψ : PieceEnv} (hm : EnvMatch Γ Ψ) {bo : ByteOrder} {cases' : List (Int × Op)}
    (hdepth : Γ.length + casesDepth cases' ≤ maxDepth) (h : LowersCases opts cases Γ bo cases') :
    casesResolve cases Ψ cases' := by
  induction cases generalizing cases' with
  | nil => exact h
  | cons branch cases ih =>
    obtain ⟨tag, ty⟩ := branch
    obtain ⟨op, rest, hop, hrest, rfl⟩ := h
    rw [casesDepth] at hdepth
    refine ⟨op, rest, rfl, (hcs (tag, ty) List.mem_cons_self).elem hm (by omega) hop, ?_⟩
    exact ih (fun b hb => hcs b (List.mem_cons_of_mem _ hb)) (by omega) hrest

lemma LowersDefault.resolve {default : Option TypeIn} (hd : ∀ ty ∈ default, TypeResolves opts ty) {Γ : Env}
    {Ψ : PieceEnv} (hm : EnvMatch Γ Ψ) {bo : ByteOrder} {default' : Option Op}
    (hdepth : Γ.length + defaultDepth default' ≤ maxDepth) (h : LowersDefault opts default Γ bo default') :
    defaultResolves default Ψ default' := by
  cases default with
  | none => exact h
  | some ty =>
    obtain ⟨op, hop, rfl⟩ := h
    exact ⟨op, rfl, (hd ty rfl).elem hm hdepth hop⟩

/-- The op of a named field, apart from its place. -/
lemma realizes_op {op op' : Op} {name : String} (h : Realizes full (.op op name) (.op op')) :
    op' = op.withCommon fun _ => { key := .named name, span := spanOf full (.named name) } :=
  Piece.op.inj h

/-- A type without references and scopes. -/
lemma typeResolves_plain {ty : TypeIn} (h : ∀ Ψ op, ty.Resolves Ψ op) : TypeResolves opts ty :=
  ⟨fun _ _ _ => h _ _, fun _ _ _ _ => h _ _⟩

lemma typeResolves (opts : Options) : TypeCases (TypeResolves opts) where
  int _ _ _ := typeResolves_plain fun _ _ => trivial
  float _ _ := typeResolves_plain fun _ _ => trivial
  bool _ := typeResolves_plain fun _ _ => trivial
  raw _ _ := typeResolves_plain fun _ _ => trivial
  cstr _ _ _ := typeResolves_plain fun _ _ => trivial
  bits _ _ := typeResolves_plain fun _ _ => trivial
  flags _ _ _ _ := typeResolves_plain fun _ _ => trivial
  digest _ _ _ _ := typeResolves_plain fun _ _ => trivial
  bytes len max := by
    constructor
    · rintro Γ Ψ bo op hm hdepth ⟨len', hlen, rfl⟩
      exact ⟨len', _, _, rfl, hlen.resolves hm (by omega)⟩
    · rintro Γ Ψ bo name atom kind full op hm hdepth ⟨n, len', -, hlen, rfl, -⟩ hr
      obtain rfl := realizes_op hr
      exact ⟨len', _, _, rfl, hlen.resolves hm (by omega)⟩
  str len max encoding errors := by
    constructor
    · rintro Γ Ψ bo op hm hdepth ⟨len', enc, hlen, -, rfl⟩
      exact ⟨len', _, enc, _, rfl, hlen.resolves hm (by omega)⟩
    · rintro Γ Ψ bo name atom kind full op hm hdepth ⟨n, len', enc, -, hlen, -, rfl, -⟩ hr
      obtain rfl := realizes_op hr
      exact ⟨len', _, enc, _, rfl, hlen.resolves hm (by omega)⟩
  struct fields byteorder size hfs := by
    constructor
    · rintro Γ Ψ bo op hm hdepth ⟨size', full, atoms, prog, hsize, hlow, hasm, rfl⟩
      rw [opDepth] at hdepth
      exact ⟨prog, size', _, rfl, hsize.resolves hm (by omega), hasm.resolves hfs hm hlow hdepth⟩
    · rintro Γ Ψ bo name atom kind full' op hm hdepth ⟨n, size', full, atoms, prog, -, hsize, hlow, hasm, -, rfl, -⟩ hr
      obtain rfl := realizes_op hr
      have hroom : Γ.length + frameDepth prog ≤ maxDepth := by simpa [Op.withCommon, opDepth] using hdepth
      exact ⟨prog, size', _, rfl, hsize.resolves hm (by omega), hasm.resolves hfs hm hlow hroom⟩
  array elem count untilEof he := by
    constructor
    · rintro Γ Ψ bo op hm hdepth ⟨count', elem', hcount, helem, rfl⟩
      rw [opDepth] at hdepth
      exact ⟨count', _, elem', _, _, rfl, hcount.resolves hm (by omega), he.elem hm hdepth helem⟩
    · rintro Γ Ψ bo name atom kind full op hm hdepth ⟨n, count', elem', -, hcount, helem, rfl, -⟩ hr
      obtain rfl := realizes_op hr
      have hroom : Γ.length + opDepth elem' ≤ maxDepth := by simpa [Op.withCommon, opDepth] using hdepth
      exact ⟨count', _, elem', _, _, rfl, hcount.resolves hm (by omega), he.elem hm hroom helem⟩
  switch on cases default hcs hd := by
    constructor
    · rintro Γ Ψ bo op hm hdepth ⟨on', cases', default', hon, hcases, hdefault, rfl⟩
      rw [opDepth] at hdepth
      exact ⟨on', cases', default', _, rfl, hon.resolves hm (by omega), hcases.resolve hcs hm (by omega),
        hdefault.resolve hd hm (by omega)⟩
    · rintro Γ Ψ bo name atom kind full op hm hdepth ⟨n, on', cases', default', -, hon, hcases, hdefault, rfl, -⟩ hr
      obtain rfl := realizes_op hr
      have hroom : Γ.length + max (casesDepth cases') (defaultDepth default') ≤ maxDepth := by
        simpa [Op.withCommon, opDepth] using hdepth
      exact ⟨on', cases', default', _, rfl, hon.resolves hm (by omega), hcases.resolve hcs hm (by omega),
        hdefault.resolve hd hm (by omega)⟩
  cond pred thn ht := by
    constructor
    · rintro Γ Ψ bo op - - h
      exact h.elim
    · rintro Γ Ψ bo name atom kind full op hm hdepth ⟨n, pred', thn', -, hpred, hthn, rfl, -⟩ hr
      obtain rfl : op = _ := Piece.op.inj hr
      rw [opDepth] at hdepth
      exact ⟨pred', thn', _, rfl, hpred.resolves hm (by omega), ht.elem hm hdepth hthn⟩

end Scopes

/-- In every scope of an accepted schema, however its references are ordered: a field is derived exactly
when it is no const, some length after it resolves to it and no switch does; it has a register exactly
when some expression resolves to it; every reference to it carries that register with the number of
scopes between; and no two fields share one. -/
theorem compile_marks {fields : List FieldIn} {opts : Options} {prog : Program}
    (h : compile fields opts = .ok prog) :
    fieldsDerive fields (piecesOf prog.ops) ∧ RegsApart prog ∧
      fieldsResolve fields [] [] (piecesOf prog.ops) := by
  obtain ⟨⟨full, atoms, hlow, hasm⟩, hdepth⟩ := compile_lowers h
  have hroom : ([] : Env).length + frameDepth prog ≤ maxDepth := by simpa using hdepth
  exact ⟨compile_derives h,
    hasm.resolves (fun f _ => (typeResolves opts).type f.ty) .nil hlow hroom⟩

/-- A length that is also a switch's discriminant has a register and is not derived. -/
theorem compile_marks_switched :
    fieldsDerive (switchedClass.map Field.toIn) (piecesOf switched.ops) ∧ RegsApart switched ∧
      fieldsResolve (switchedClass.map Field.toIn) [] [] (piecesOf switched.ops) :=
  compile_marks compile_switchedClass

end Rustruct

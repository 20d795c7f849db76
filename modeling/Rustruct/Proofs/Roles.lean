import Rustruct.Proofs.Lowered
import Rustruct.Frontend

/-!
# What a field is referred to for

Whether a field becomes derived depends on the expressions after it: those of lengths make it a
candidate, those of switches rule it out. Here the marks the compiler leaves are those of the schema.
-/

namespace Rustruct

mutual

/-- Some expression of this kind in the type refers to a field `n` outside it. -/
def TypeIn.refers (ctx : RefCtx) (n : String) : TypeIn → Bool
  | .bytes len _ | .str len _ _ _ => ctx == .len && len.mentions n
  | .struct fields _ size => ctx == .len && size.any (ExprIn.mentions n) || fieldsRefer ctx n fields
  | .array elem count _ => ctx == .len && count.any (ExprIn.mentions n) || elem.refers ctx n
  | .switch on cases default =>
    ctx == .on && on.mentions n || casesRefer ctx n cases || defaultRefers ctx n default
  | .cond pred thn => ctx == .pred && pred.mentions n || thn.refers ctx n
  | _ => false

/-- A field of the same name hides `n` from the fields after it. -/
def fieldsRefer (ctx : RefCtx) (n : String) : List FieldIn → Bool
  | [] => false
  | .mk name ty :: fields => ty.refers ctx n || (name != some n && fieldsRefer ctx n fields)

def casesRefer (ctx : RefCtx) (n : String) : List (Int × TypeIn) → Bool
  | [] => false
  | (_, ty) :: cases => ty.refers ctx n || casesRefer ctx n cases

def defaultRefers (ctx : RefCtx) (n : String) : Option TypeIn → Bool
  | none => false
  | some ty => ty.refers ctx n

end

/-- References by role and name. -/
abbrev Refs := RefCtx → String → Bool

/-- The marks that references leave on a symbol. -/
structure RoleStep (R : Refs) (s t : Sym) : Prop where
  name : t.name = s.name
  isConst : t.isConst = s.isConst
  len : t.lenReferenced = (s.lenReferenced || (R .len s.name && !s.isConst))
  on : t.usedInOn = (s.usedInOn || R .on s.name)

def declares (syms : List Sym) (n : String) : Bool := syms.any fun s => s.name == n

/-- References go to the innermost scope that declares their name. -/
inductive Roles : Refs → List Scope → List Scope → Prop where
  | nil {R : Refs} : Roles R [] []
  | cons {R : Refs} {sc sc' : Scope} {S S' : List Scope}
      (top : List.Forall₂ (RoleStep R) sc.syms sc'.syms)
      (rest : Roles (fun ctx n => R ctx n && !declares sc.syms n) S S') : Roles R (sc :: S) (sc' :: S')

/-- Names are declared once. -/
def NamesOk (S : List Scope) : Prop := ∀ sc ∈ S, (sc.syms.map Sym.name).Nodup

section Marks

variable {R Q : Refs} {S S' S'' : List Scope}

lemma RoleStep.refl (s : Sym) : RoleStep (fun _ _ => false) s s := ⟨rfl, rfl, by simp, by simp⟩

lemma RoleStep.trans {s t u : Sym} (h : RoleStep R s t) (h' : RoleStep Q t u) :
    RoleStep (fun ctx n => R ctx n || Q ctx n) s u where
  name := h'.name.trans h.name
  isConst := h'.isConst.trans h.isConst
  len := by
    rw [h'.len, h.len, h.name, h.isConst, Bool.or_assoc, ← Bool.and_or_distrib_right]
  on := by rw [h'.on, h.on, h.name, Bool.or_assoc]

lemma roleSteps_names {l m : List Sym} (h : List.Forall₂ (RoleStep R) l m) :
    m.map Sym.name = l.map Sym.name := by
  induction h with
  | nil => rfl
  | cons hs _ ih => rw [List.map_cons, List.map_cons, hs.name, ih]

lemma declares_eq (syms : List Sym) (n : String) : declares syms n = decide (n ∈ syms.map Sym.name) := by
  rw [declares, Bool.eq_iff_iff]
  simp

lemma roleSteps_declares {l m : List Sym} (h : List.Forall₂ (RoleStep R) l m) :
    declares m = declares l := by
  funext n
  rw [declares_eq, declares_eq, roleSteps_names h]

lemma roleSteps_trans {l m k : List Sym} (h : List.Forall₂ (RoleStep R) l m)
    (h' : List.Forall₂ (RoleStep Q) m k) :
    List.Forall₂ (RoleStep fun ctx n => R ctx n || Q ctx n) l k := by
  induction h generalizing k with
  | nil =>
    cases h'
    exact .nil
  | cons hs _ ih =>
    cases h' with
    | cons hs' h' => exact .cons (hs.trans hs') (ih h')

lemma Roles.refl (S : List Scope) : Roles (fun _ _ => false) S S := by
  induction S with
  | nil => exact .nil
  | cons sc S ih => exact .cons (forall₂_refl RoleStep.refl _) ih

lemma Roles.congr (h : Roles R S S') (hRQ : ∀ ctx n, R ctx n = Q ctx n) : Roles Q S S' := by
  have heq : R = Q := funext fun ctx => funext fun n => hRQ ctx n
  rwa [← heq]

lemma Roles.trans (h : Roles R S S') (h' : Roles Q S' S'') :
    Roles (fun ctx n => R ctx n || Q ctx n) S S'' := by
  induction h generalizing Q S'' with
  | nil =>
    cases h'
    exact .nil
  | cons top rest ih =>
    cases h' with
    | cons top' rest' =>
      refine .cons (roleSteps_trans top top') ((ih rest').congr fun ctx n => ?_)
      rw [roleSteps_declares top, ← Bool.and_or_distrib_right]

lemma Roles.namesOk (h : Roles R S S') (hn : NamesOk S) : NamesOk S' := by
  induction h with
  | nil => exact hn
  | cons top _ ih =>
    intro sc hsc
    obtain rfl | hsc := List.mem_cons.mp hsc
    · rw [roleSteps_names top]
      exact hn _ List.mem_cons_self
    · exact ih (fun s hs => hn s (List.mem_cons_of_mem _ hs)) sc hsc

/-- One use of one name. -/
def oneRef (ctx : RefCtx) (name : String) : Refs := fun c n => c == ctx && n == name

lemma roleStep_use (ctx : RefCtx) {s t : Sym} (hname : t.name = s.name) (hconst : t.isConst = s.isConst)
    (hlen : t.lenReferenced = s.lenReferenced) (hon : t.usedInOn = s.usedInOn) :
    RoleStep (oneRef ctx s.name) s (t.use ctx) := by
  cases ctx <;> cases hc : s.isConst <;>
    constructor <;> simp [Sym.use, oneRef, hname, hconst, hlen, hon, hc]

lemma roleStep_other {ctx : RefCtx} {name : String} {s : Sym} (h : s.name ≠ name) :
    RoleStep (oneRef ctx name) s s := by
  constructor <;> simp [oneRef, h]

lemma roleSteps_other {ctx : RefCtx} {name : String} {l : List Sym} (h : name ∉ l.map Sym.name) :
    List.Forall₂ (RoleStep (oneRef ctx name)) l l := by
  refine List.forall₂_same.mpr fun s hs => roleStep_other fun hne => h ?_
  rw [← hne]
  exact List.mem_map_of_mem hs

/-- Allocating a register leaves every mark. -/
lemma allocReg_marks {sc sc' : Scope} {a b : List Sym} {s : Sym} {idx : Nat} (hsplit : sc.syms = a ++ s :: b)
    (h : sc.allocReg a.length s = .ok (idx, sc')) :
    ∃ t, sc'.syms = a ++ t :: b ∧ t.name = s.name ∧ t.isConst = s.isConst ∧
      t.lenReferenced = s.lenReferenced ∧ t.usedInOn = s.usedInOn := by
  unfold Scope.allocReg at h
  cases hreg : s.reg with
  | some r =>
    simp only [hreg, Except.ok.injEq, Prod.mk.injEq] at h
    obtain ⟨rfl, rfl⟩ := h
    exact ⟨s, hsplit, rfl, rfl, rfl, rfl⟩
  | none =>
    simp only [hreg] at h
    split_ifs at h with hmax
    · simp [schemaErr] at h
    simp only [Exec.bind_eq_ok, Except.ok.injEq, Prod.mk.injEq] at h
    obtain ⟨ops', -, -, rfl⟩ := h
    refine ⟨{ s with reg := some sc.nregs }, ?_, rfl, rfl, rfl, rfl⟩
    simp only [hsplit, modify_split]

lemma resolveIn_roles {name : String} {ctx : RefCtx} {up : Nat} {reg : Reg} (hn : NamesOk S)
    (h : resolveIn name ctx up S = .ok (reg, S')) : Roles (oneRef ctx name) S S' := by
  induction S generalizing up reg S' with
  | nil => simp [resolveIn, schemaErr] at h
  | cons sc S ih =>
    rw [resolveIn] at h
    have hnames := hn sc List.mem_cons_self
    cases hidx : sc.syms.findIdx? (fun s => s.name == name) with
    | none =>
      simp only [hidx, Exec.bind_eq_ok, Except.ok.injEq, Prod.mk.injEq, Prod.exists] at h
      obtain ⟨reg', S₁, hrest, rfl, rfl⟩ := h
      have hnot : name ∉ sc.syms.map Sym.name := by
        rw [List.findIdx?_eq_none_iff] at hidx
        intro hmem
        obtain ⟨s, hs, rfl⟩ := List.mem_map.mp hmem
        simpa using hidx s hs
      refine .cons (roleSteps_other hnot) ((ih (fun s hs => hn s (List.mem_cons_of_mem _ hs)) hrest).congr ?_)
      intro c n
      by_cases heq : n = name
      · subst heq
        simp [declares_eq, hnot]
      · simp [oneRef, heq]
    | some pos =>
      simp only [hidx, Exec.bind_eq_ok, Except.ok.injEq, Prod.mk.injEq, Prod.exists] at h
      obtain ⟨sym, hsym, idx, sc', hrefer, rfl, rfl⟩ := h
      obtain ⟨hlt, hfound, -⟩ := List.findIdx?_eq_some_iff_getElem.mp hidx
      have hget : sc.syms[pos]? = some sym := Exec.expect_eq_ok.mp hsym
      obtain ⟨a, b, hsplit, hpos⟩ : ∃ a b, sc.syms = a ++ sym :: b ∧ a.length = pos := by
        refine ⟨sc.syms.take pos, sc.syms.drop (pos + 1), ?_, by simp; omega⟩
        obtain ⟨_, hval⟩ := List.getElem?_eq_some_iff.mp hget
        rw [← hval, List.getElem_cons_drop, List.take_append_drop]
      obtain rfl : sym.name = name := by
        obtain ⟨_, hval⟩ := List.getElem?_eq_some_iff.mp hget
        rw [hval] at hfound
        simpa using hfound
      subst hpos
      unfold Scope.refer at hrefer
      split_ifs at hrefer
      · simp [schemaErr] at hrefer
      swap
      · simp [schemaErr] at hrefer
      simp only [Exec.bind_eq_ok, Except.ok.injEq, Prod.mk.injEq, Prod.exists] at hrefer
      obtain ⟨idx', sc₁, halloc, -, rfl⟩ := hrefer
      obtain ⟨t, hsyms, hname, hconst, hlen, hon⟩ := allocReg_marks hsplit halloc
      rw [hsplit, List.map_append, List.map_cons] at hnames
      obtain ⟨ha, hb⟩ : sym.name ∉ a.map Sym.name ∧ sym.name ∉ b.map Sym.name := by
        obtain ⟨-, hb, hdisj⟩ := List.nodup_append.mp hnames
        exact ⟨fun hmem => hdisj _ hmem _ List.mem_cons_self rfl, (List.nodup_cons.mp hb).1⟩
      refine .cons ?_ ((Roles.refl S).congr fun c n => ?_)
      · simp only [hsyms, modify_split, hsplit]
        refine List.rel_append (roleSteps_other ha) (.cons ?_ (roleSteps_other hb))
        exact roleStep_use ctx hname hconst hlen hon
      · by_cases heq : n = sym.name
        · subst heq
          simp [declares_eq, hsplit]
        · simp [oneRef, heq]

lemma resolveRef_roles {name : String} {ctx : RefCtx} {reg : Reg} (hn : NamesOk S)
    (h : resolveRef name ctx S = .ok (reg, S')) : Roles (oneRef ctx name) S S' := resolveIn_roles hn h

lemma emitInto_roles {ctx : RefCtx} {e : ExprIn} {ins : List Ins} (hn : NamesOk S)
    (h : emitInto ctx e S = .ok (ins, S')) : Roles (fun c n => c == ctx && e.mentions n) S S' := by
  induction e generalizing S S' ins with
  | imm n =>
    obtain ⟨-, rfl⟩ := C.pure_eq_ok.mp h
    exact (Roles.refl S).congr fun c n => by simp [ExprIn.mentions]
  | greedy => simp [emitInto, schemaErr] at h
  | ref name =>
    obtain ⟨reg, S₁, hr, h⟩ := C.bind_eq_ok.mp h
    obtain ⟨-, rfl⟩ := C.pure_eq_ok.mp h
    refine (resolveRef_roles hn hr).congr fun c n => ?_
    rw [oneRef, ExprIn.mentions, Bool.beq_comm (a := n)]
  | bin op l r ihl ihr =>
    obtain ⟨il, S₁, hl, h⟩ := C.bind_eq_ok.mp h
    obtain ⟨ir, S₂, hr, h⟩ := C.bind_eq_ok.mp h
    obtain ⟨-, rfl⟩ := C.pure_eq_ok.mp h
    have hleft := ihl hn hl
    refine (hleft.trans (ihr (hleft.namesOk hn) hr)).congr fun c n => ?_
    rw [ExprIn.mentions, Bool.and_or_distrib_left]

lemma emitExpr_roles {ctx : RefCtx} {e : ExprIn} {expr : Expr} (hn : NamesOk S)
    (h : emitExpr ctx e S = .ok (expr, S')) : Roles (fun c n => c == ctx && e.mentions n) S S' := by
  obtain ⟨ins, S₁, hi, h⟩ := C.bind_eq_ok.mp h
  split_ifs at h with hd
  · simp [schemaErr] at h
  · obtain ⟨-, rfl⟩ := C.pure_eq_ok.mp h
    exact emitInto_roles hn hi

end Marks

section Lengths

variable {S S' : List Scope}

lemma fold_mentions_eq {e folded : ExprIn} (h : fold e = .ok folded) (n : String) :
    folded.mentions n = e.mentions n := by
  induction e generalizing folded with
  | imm | ref =>
    cases h
    rfl
  | greedy => simp [fold, schemaErr] at h
  | bin op l r ihl ihr =>
    simp only [fold, Exec.bind_eq_ok] at h
    obtain ⟨fl, hl, fr, hr, h⟩ := h
    rw [ExprIn.mentions, ← ihl hl, ← ihr hr]
    unfold foldBin at h
    split at h
    · simp only [Exec.bind_eq_ok, Except.ok.injEq] at h
      obtain ⟨c, -, rfl⟩ := h
      rfl
    · cases h
      rfl

/-- The marks of an expression in a length. -/
def lenRefs (e : ExprIn) : Refs := fun c n => c == .len && e.mentions n

lemma buildLin_roles {what : String} {e : ExprIn} {len : LenSrc} (hn : NamesOk S)
    (h : buildLin what e S = .ok (len, S')) : Roles (lenRefs e) S S' := by
  unfold buildLin at h
  cases hlin : linear e with
  | none => simp [hlin, schemaErr] at h
  | some l =>
    obtain ⟨ref, b⟩ := l
    cases ref with
    | none => simp [hlin] at h
    | some r =>
      obtain ⟨name, a⟩ := r
      simp only [hlin] at h
      split_ifs at h with ha
      · simp [schemaErr] at h
      obtain ⟨reg, S₁, hr, h⟩ := C.bind_eq_ok.mp h
      obtain ⟨expr, S₂, he, h⟩ := C.bind_eq_ok.mp h
      obtain ⟨-, rfl⟩ := C.pure_eq_ok.mp h
      have hfirst := resolveRef_roles hn hr
      have hmention : e.mentions name := linear_mentions hlin rfl
      refine (hfirst.trans (emitExpr_roles (hfirst.namesOk hn) he)).congr fun c n => ?_
      by_cases heq : n = name
      · subst heq
        simp [oneRef, lenRefs, hmention]
      · simp [oneRef, lenRefs, heq]

lemma buildLen_roles {what : String} {e : ExprIn} {len : LenSrc} (hn : NamesOk S)
    (h : buildLen e what S = .ok (len, S')) : Roles (lenRefs e) S S' := by
  by_cases hg : e = .greedy
  · subst hg
    obtain ⟨-, rfl⟩ := C.pure_eq_ok.mp h
    exact (Roles.refl S).congr fun c n => by simp [lenRefs, ExprIn.mentions]
  rw [buildLen.eq_2 _ _ hg] at h
  obtain ⟨folded, S₁, hlift, h⟩ := C.bind_eq_ok.mp h
  obtain ⟨hf, rfl⟩ := C.lift_eq_ok.mp hlift
  have hrefs : lenRefs e = lenRefs folded :=
    funext fun c => funext fun n => by rw [lenRefs, lenRefs, fold_mentions_eq hf]
  rw [hrefs]
  split at h
  · split_ifs at h with hneg
    · simp [schemaErr] at h
    · obtain ⟨-, rfl⟩ := C.pure_eq_ok.mp h
      exact (Roles.refl S).congr fun c n => by simp [lenRefs, ExprIn.mentions]
  · exact buildLin_roles hn h

/-- The marks of an optional expression in a length. -/
def someLenRefs (e : Option ExprIn) : Refs := fun c n => c == .len && e.any (ExprIn.mentions n)

lemma roles_nothing (e : Option ExprIn) (he : ∀ n, e.any (ExprIn.mentions n) = false) (S : List Scope) :
    Roles (someLenRefs e) S S :=
  (Roles.refl S).congr fun c n => by simp [someLenRefs, he]

lemma buildSize_roles {size : Option ExprIn} {size' : Option LenSrc} (hn : NamesOk S)
    (h : buildSize size S = .ok (size', S')) : Roles (someLenRefs size) S S' := by
  cases size with
  | none =>
    obtain ⟨-, rfl⟩ := C.pure_eq_ok.mp h
    exact roles_nothing none (fun _ => rfl) S
  | some e =>
    obtain ⟨len, S₁, hl, h⟩ := C.bind_eq_ok.mp h
    cases len with
    | greedy => simp [schemaErr] at h
    | expr expr inv =>
      obtain ⟨-, rfl⟩ := C.pure_eq_ok.mp h
      exact buildLen_roles hn hl

lemma buildCount_roles {count : Option ExprIn} {untilEof : Bool} {count' : CountSrc} (hn : NamesOk S)
    (h : buildCount count untilEof S = .ok (count', S')) : Roles (someLenRefs count) S S' := by
  cases count with
  | none =>
    cases untilEof with
    | false => simp [buildCount, schemaErr] at h
    | true =>
      obtain ⟨-, rfl⟩ := C.pure_eq_ok.mp h
      exact roles_nothing none (fun _ => rfl) S
  | some e =>
    cases untilEof with
    | true => simp [buildCount, schemaErr] at h
    | false =>
      by_cases hg : e = .greedy
      · subst hg
        obtain ⟨-, rfl⟩ := C.pure_eq_ok.mp h
        exact roles_nothing _ (fun _ => rfl) S
      rw [buildCount.eq_5 _ hg] at h
      obtain ⟨len, S₁, hl, h⟩ := C.bind_eq_ok.mp h
      obtain rfl : S₁ = S' := by cases len <;> exact (C.pure_eq_ok.mp h).2
      exact buildLen_roles hn hl

end Lengths

/-- A symbol that nothing has referred to yet. -/
structure Unmarked (name : String) (ty : TypeIn) (s : Sym) : Prop where
  name : s.name = name
  isConst : s.isConst = ty.isConst
  len : s.lenReferenced = false
  on : s.usedInOn = false

/-- The symbol of a field. -/
def NewSyms (name : Option String) (ty : TypeIn) (syms : List Sym) : Prop :=
  match name with
  | none => syms = []
  | some n => ∃ s, syms = [s] ∧ Unmarked n ty s

def ElemRoles (opts : Options) (ty : TypeIn) : Prop :=
  ∀ {bo : ByteOrder} {S S' : List Scope} {op : Op}, NamesOk S → compileElem opts ty bo S = .ok (op, S') →
    Roles (fun ctx n => ty.refers ctx n) S S'

def FieldRoles (opts : Options) (ty : TypeIn) : Prop :=
  ∀ {bo : ByteOrder} {name : Option String} {sc : Scope} {S S'' : List Scope}, NamesOk (sc :: S) →
    compileField opts ty bo name (sc :: S) = .ok ((), S'') →
    ∃ sc₁ sc' S' more, S'' = sc' :: S' ∧ Roles (fun ctx n => ty.refers ctx n) (sc :: S) (sc₁ :: S') ∧
      sc'.syms = sc₁.syms ++ more ∧ NewSyms name ty more

/-- The marks at the end of the symbols that fields declare. -/
def FieldSyms : List FieldIn → List Sym → Prop
  | [], syms => syms = []
  | .mk none _ :: fields, syms => FieldSyms fields syms
  | .mk (some n) ty :: fields, syms => ∃ s rest, syms = s :: rest ∧ s.name = n ∧ s.isConst = ty.isConst ∧
      s.lenReferenced = (fieldsRefer .len n fields && !s.isConst) ∧
      s.usedInOn = fieldsRefer .on n fields ∧ FieldSyms fields rest

section Types

variable {opts : Options}

lemma roleSteps_append {R : Refs} {a b l : List Sym} (h : List.Forall₂ (RoleStep R) (a ++ b) l) :
    ∃ l₁ l₂, l = l₁ ++ l₂ ∧ List.Forall₂ (RoleStep R) a l₁ ∧ List.Forall₂ (RoleStep R) b l₂ :=
  forall₂_split h

/-- What compiling fields does to the marks of the innermost scope and of those around it. -/
lemma compileFields_roles {fields : List FieldIn} (hfs : ∀ f ∈ fields, FieldRoles opts f.ty)
    {bo : ByteOrder} {sc : Scope} {S S'' : List Scope} (hn : NamesOk (sc :: S))
    (h : compileFields opts fields bo (sc :: S) = .ok ((), S'')) :
    ∃ sc' S' old more, S'' = sc' :: S' ∧ sc'.syms = old ++ more ∧
      List.Forall₂ (RoleStep fun ctx n => fieldsRefer ctx n fields) sc.syms old ∧
      Roles (fun ctx n => fieldsRefer ctx n fields && !declares sc.syms n) S S' ∧ FieldSyms fields more ∧
      NamesOk S'' := by
  induction fields generalizing sc S with
  | nil =>
    rw [compileFields] at h
    obtain ⟨-, rfl⟩ := C.pure_eq_ok.mp h
    exact ⟨sc, S, sc.syms, [], rfl, by simp, forall₂_refl RoleStep.refl _, Roles.refl S, rfl, hn⟩
  | cons f fields ih =>
    obtain ⟨name, ty⟩ := f
    rw [compileFields] at h
    obtain ⟨_, S₁, hcheck, h⟩ := C.bind_eq_ok.mp h
    obtain ⟨rfl, hfresh, -⟩ := checkName_ok hcheck
    obtain ⟨_, S₂, hfield, h⟩ := C.bind_eq_ok.mp h
    obtain ⟨sc₁, sc₂, S₃, more₁, rfl, hroles, hsyms, hnew⟩ := hfs (.mk name ty) (by simp) hn hfield
    cases hroles with
    | cons htop hrest =>
      have hnames := roleSteps_names htop
      have hn₁ := (Roles.cons htop hrest).namesOk hn
      have hn₂ : NamesOk (sc₂ :: S₃) := by
        intro s hs
        obtain rfl | hs := List.mem_cons.mp hs
        · have hold := hn₁ sc₁ List.mem_cons_self
          rw [hsyms, List.map_append]
          cases name with
          | none =>
            obtain rfl : more₁ = [] := hnew
            simpa using hold
          | some n =>
            obtain ⟨s, rfl, hs⟩ := hnew
            have hnot : n ∉ sc₁.syms.map Sym.name := hnames ▸ hfresh n rfl
            rw [List.nodup_append]
            refine ⟨hold, by simp, fun a ha b hb => ?_⟩
            rintro rfl
            obtain rfl : a = s.name := by simpa using hb
            exact hnot (hs.name ▸ ha)
        · exact hn₁ s (List.mem_cons_of_mem _ hs)
      obtain ⟨sc', S', old, more, rfl, hsyms', hold, houter, hfields, hn'⟩ :=
        ih (fun f hf => hfs f (List.mem_cons_of_mem _ hf)) hn₂ h
      rw [hsyms] at hold
      obtain ⟨old₁, old₂, rfl, hold₁, hold₂⟩ := roleSteps_append hold
      refine ⟨sc', S', old₁, old₂ ++ more, rfl, by rw [hsyms', List.append_assoc], ?_, ?_, ?_, hn'⟩
      · -- Symbols from before have other names than the field.
        have hboth := roleSteps_trans htop hold₁
        refine List.forall₂_iff_get.mpr ⟨hboth.length_eq, fun i h₁ h₂ => ?_⟩
        have hstep := (List.forall₂_iff_get.mp hboth).2 i h₁ h₂
        have hne : (name != some (sc.syms.get ⟨i, h₁⟩).name) = true := by
          simp only [bne_iff_ne, ne_eq]
          intro heq
          exact hfresh _ heq (List.mem_map_of_mem (List.get_mem _ _))
        refine ⟨hstep.name, hstep.isConst, hstep.len.trans ?_, hstep.on.trans ?_⟩ <;>
          simp only [fieldsRefer, hne, Bool.true_and, FieldIn.ty_mk]
      · refine (hrest.trans houter).congr fun ctx n => ?_
        have hdecl : declares sc₂.syms n = (declares sc.syms n || name == some n) := by
          rw [declares_eq, declares_eq, hsyms, List.map_append, hnames]
          cases name with
          | none =>
            obtain rfl : more₁ = [] := hnew
            simp
          | some m =>
            obtain ⟨s, rfl, hs⟩ := hnew
            rw [Bool.eq_iff_iff, List.map_cons, List.map_nil, hs.name]
            simp only [decide_eq_true_eq, List.mem_append, List.mem_singleton, Bool.or_eq_true, beq_iff_eq,
              Option.some.injEq]
            exact or_congr_right eq_comm
        simp only [hdecl, fieldsRefer, FieldIn.ty_mk, show (name != some n) = !(name == some n) from rfl]
        generalize (name == some n) = hides
        cases declares sc.syms n <;> cases ty.refers ctx n <;> cases hides <;> simp
      · cases name with
        | none =>
          obtain rfl : more₁ = [] := hnew
          cases hold₂
          exact hfields
        | some n =>
          obtain ⟨s, rfl, hs⟩ := hnew
          cases hold₂ with
          | cons hstep hnil =>
            cases hnil
            refine ⟨_, more, rfl, hstep.name.trans hs.name, hstep.isConst.trans hs.isConst, ?_, ?_, hfields⟩
            · rw [hstep.len, hs.len, hs.name, hstep.isConst, Bool.false_or]
            · rw [hstep.on, hs.on, hs.name, Bool.false_or]

lemma inScope_roles {fields : List FieldIn} (hfs : ∀ f ∈ fields, FieldRoles opts f.ty) {bo : ByteOrder}
    {S S' : List Scope} {prog : Program} (hn : NamesOk S)
    (h : inScope (compileFields opts fields bo) S = .ok (prog, S')) :
    Roles (fun ctx n => fieldsRefer ctx n fields) S S' := by
  simp only [inScope, Exec.bind_eq_ok] at h
  obtain ⟨⟨_, S''⟩, hbody, h⟩ := h
  have hn₀ : NamesOk (Scope.empty :: S) := by
    intro s hs
    obtain rfl | hs := List.mem_cons.mp hs
    · exact List.nodup_nil
    · exact hn s hs
  obtain ⟨sc, S₁, old, more, rfl, -, -, houter, -, -⟩ := compileFields_roles hfs hn₀ hbody
  simp only [Exec.bind_eq_ok, Except.ok.injEq, Prod.mk.injEq] at h
  obtain ⟨sc₁, -, prog', -, -, rfl⟩ := h
  exact houter.congr fun ctx n => by simp [Scope.empty, declares]

lemma compileCases_roles {cases : List (Int × TypeIn)} (hcs : ∀ branch ∈ cases, ElemRoles opts branch.2)
    {bo : ByteOrder} {tags : List Int} {S S' : List Scope} {cases' : List (Int × Op)} (hn : NamesOk S)
    (h : compileCases opts cases bo tags S = .ok (cases', S')) :
    Roles (fun ctx n => casesRefer ctx n cases) S S' := by
  induction cases generalizing S tags cases' with
  | nil =>
    rw [compileCases] at h
    obtain ⟨-, rfl⟩ := C.pure_eq_ok.mp h
    exact Roles.refl S
  | cons branch cases ih =>
    obtain ⟨tag, ty⟩ := branch
    rw [compileCases] at h
    split_ifs at h with htag
    · simp [schemaErr] at h
    obtain ⟨op, S₁, hop, h⟩ := C.bind_eq_ok.mp h
    obtain ⟨rest, S₂, hrest, h⟩ := C.bind_eq_ok.mp h
    obtain ⟨-, rfl⟩ := C.pure_eq_ok.mp h
    have hfirst := hcs (tag, ty) List.mem_cons_self hn hop
    exact hfirst.trans (ih (fun b hb => hcs b (List.mem_cons_of_mem _ hb)) (hfirst.namesOk hn) hrest)

lemma compileDefault_roles {default : Option TypeIn} (hd : ∀ ty ∈ default, ElemRoles opts ty)
    {bo : ByteOrder} {S S' : List Scope} {default' : Option Op} (hn : NamesOk S)
    (h : compileDefault opts default bo S = .ok (default', S')) :
    Roles (fun ctx n => defaultRefers ctx n default) S S' := by
  cases default with
  | none =>
    rw [compileDefault] at h
    obtain ⟨-, rfl⟩ := C.pure_eq_ok.mp h
    exact Roles.refl S
  | some ty =>
    rw [compileDefault] at h
    obtain ⟨op, S₁, hop, h⟩ := C.bind_eq_ok.mp h
    obtain ⟨-, rfl⟩ := C.pure_eq_ok.mp h
    exact hd ty rfl hn hop

lemma switchParts_roles {on : ExprIn} {cases : List (Int × TypeIn)} {default : Option TypeIn}
    (hcs : ∀ branch ∈ cases, ElemRoles opts branch.2) (hd : ∀ ty ∈ default, ElemRoles opts ty)
    {bo : ByteOrder} {S S' : List Scope} {parts : Expr × List (Int × Op) × Option Op} (hn : NamesOk S)
    (h : switchParts opts on cases default bo S = .ok (parts, S')) :
    Roles (fun ctx n => (TypeIn.switch on cases default).refers ctx n) S S' := by
  obtain ⟨folded, hfold, h⟩ := lift_bind_ok h
  obtain ⟨e, S₁, he, h⟩ := C.bind_eq_ok.mp h
  obtain ⟨cs, S₂, hcs', h⟩ := C.bind_eq_ok.mp h
  obtain ⟨d, S₃, hd', h⟩ := C.bind_eq_ok.mp h
  obtain ⟨-, rfl⟩ := C.pure_eq_ok.mp h
  have h₁ := emitExpr_roles hn he
  have h₂ := compileCases_roles hcs (h₁.namesOk hn) hcs'
  have h₃ := compileDefault_roles hd (h₂.namesOk (h₁.namesOk hn)) hd'
  refine ((h₁.trans h₂).trans h₃).congr fun ctx n => ?_
  rw [TypeIn.refers, fold_mentions_eq hfold]

lemma struct_roles {fields : List FieldIn} {byteorder : Option ByteOrder} {size : Option ExprIn}
    (hfs : ∀ f ∈ fields, FieldRoles opts f.ty) {bo : ByteOrder} {S S₁ S₂ : List Scope}
    {size' : Option LenSrc} {prog : Program} (hn : NamesOk S) (hsize : buildSize size S = .ok (size', S₁))
    (hprog : inScope (compileFields opts fields bo) S₁ = .ok (prog, S₂)) :
    Roles (fun ctx n => (TypeIn.struct fields byteorder size).refers ctx n) S S₂ := by
  have h₁ := buildSize_roles hn hsize
  exact (h₁.trans (inScope_roles hfs (h₁.namesOk hn) hprog)).congr fun ctx n => by
    rw [TypeIn.refers, someLenRefs]

lemma array_roles {elem : TypeIn} {count : Option ExprIn} {untilEof : Bool} (he : ElemRoles opts elem)
    {bo : ByteOrder} {S S₁ S₂ : List Scope} {count' : CountSrc} {op : Op} (hn : NamesOk S)
    (hcount : buildCount count untilEof S = .ok (count', S₁))
    (hop : compileElem opts elem bo S₁ = .ok (op, S₂)) :
    Roles (fun ctx n => (TypeIn.array elem count untilEof).refers ctx n) S S₂ := by
  have h₁ := buildCount_roles hn hcount
  exact (h₁.trans (he (h₁.namesOk hn) hop)).congr fun ctx n => by rw [TypeIn.refers, someLenRefs]

section Fields

variable {sc : Scope} {S S'' : List Scope}

lemma addSym_new (ty : TypeIn) {name : Option String} {loc : Loc}
    {refable isFlags isConst spannable : Bool} {sc₁ : Scope}
    (h : addSym name loc refable isFlags isConst spannable (sc₁ :: S) = .ok ((), S''))
    (hsyms : sc₁.syms = sc.syms) (hty : ty.isConst = isConst) :
    ∃ sc' more, S'' = sc' :: S ∧ sc'.syms = sc.syms ++ more ∧ NewSyms name ty more := by
  rw [← hsyms]
  cases name with
  | none =>
    cases h
    exact ⟨sc₁, [], rfl, by simp, rfl⟩
  | some n =>
    cases h
    exact ⟨_, _, rfl, rfl, _, rfl, rfl, hty.symm, rfl, rfl⟩

lemma pushFixed_new {kind : FixKind} {key : Key} {loc : Loc} {S₁ : List Scope}
    (h : pushFixed kind key (sc :: S) = .ok (loc, S₁)) : ∃ ops, S₁ = { sc with ops } :: S := by
  simp only [pushFixed, onTop, Exec.bind_eq_ok, Except.ok.injEq, Prod.mk.injEq] at h
  obtain ⟨⟨loc', sc'⟩, ⟨-, rfl⟩, -, rfl⟩ := h
  exact ⟨_, rfl⟩

lemma pushBit_new {item : BitItem} {loc : Loc} {S₁ : List Scope}
    (h : pushBit item (sc :: S) = .ok (loc, S₁)) : ∃ ops, S₁ = { sc with ops } :: S := by
  simp only [pushBit, onTop, Exec.bind_eq_ok, Except.ok.injEq, Prod.mk.injEq] at h
  obtain ⟨⟨loc', sc'⟩, ⟨-, rfl⟩, -, rfl⟩ := h
  exact ⟨_, rfl⟩

lemma pushOp_new {op : Op} {loc : Loc} {S₁ : List Scope}
    (h : pushOp op (sc :: S) = .ok (loc, S₁)) : ∃ ops, S₁ = { sc with ops } :: S := by
  cases h
  exact ⟨_, rfl⟩

/-- A field that only adds itself. -/
lemma fieldRoles_pure {ty : TypeIn} (hty : ∀ ctx n, ty.refers ctx n = false)
    (h : ∀ {bo : ByteOrder} {name : Option String} {sc : Scope} {S S'' : List Scope},
      compileField opts ty bo name (sc :: S) = .ok ((), S'') →
        ∃ sc' more, S'' = sc' :: S ∧ sc'.syms = sc.syms ++ more ∧ NewSyms name ty more) :
    FieldRoles opts ty := by
  intro bo name sc S S'' hn hc
  obtain ⟨sc', more, rfl, hsyms, hnew⟩ := h hc
  exact ⟨sc, sc', S, more, rfl, (Roles.refl _).congr fun ctx n => (hty ctx n).symm, hsyms, hnew⟩

lemma elemRoles_pure {ty : TypeIn} (hty : ∀ ctx n, ty.refers ctx n = false)
    (h : ∀ {bo : ByteOrder} {S S' : List Scope} {op : Op},
      compileElem opts ty bo S = .ok (op, S') → S = S') : ElemRoles opts ty := by
  intro bo S S' op _ hc
  rw [← h hc]
  exact (Roles.refl _).congr fun ctx n => (hty ctx n).symm

/-- The end of a field whose op comes after its references. -/
lemma fieldRoles_finish {ty : TypeIn} {n : String} {op : Op} {isFlags spannable : Bool} {S₁ : List Scope}
    (hroles : Roles (fun ctx n => ty.refers ctx n) (sc :: S) S₁) (hty : ty.isConst = false)
    (h : addOp n op isFlags spannable S₁ = .ok ((), S'')) :
    ∃ sc₁ sc' S' more, S'' = sc' :: S' ∧ Roles (fun ctx n => ty.refers ctx n) (sc :: S) (sc₁ :: S') ∧
      sc'.syms = sc₁.syms ++ more ∧ NewSyms (some n) ty more := by
  obtain ⟨loc, S₂, hpush, h⟩ := C.bind_eq_ok.mp h
  cases hroles with
  | @cons _ _ sc₁ _ S₃ top rest =>
    obtain ⟨ops, rfl⟩ := pushOp_new hpush
    obtain ⟨sc', more, rfl, hsyms, hnew⟩ := addSym_new ty h rfl hty
    exact ⟨sc₁, sc', S₃, more, rfl, .cons top rest, hsyms, hnew⟩

end Fields

lemma fieldRoles_digest {algo : String} {overrides : CrcOverrides} {overs : OverIn} {verify : Bool} :
    FieldRoles opts (.digest algo overrides overs verify) := by
  refine fieldRoles_pure (fun _ _ => rfl) fun {bo name sc S S''} h => ?_
  rw [compileField] at h
  obtain ⟨n, rfl, hc⟩ := named_bind_ok h
  obtain ⟨algo', -, h⟩ := lift_bind_ok hc
  obtain ⟨_, -, h⟩ := lift_bind_ok h
  obtain ⟨loc, S₁, hpush, h⟩ := C.bind_eq_ok.mp h
  obtain ⟨ops, rfl⟩ := pushOp_new hpush
  obtain ⟨_, S₂, htop, h⟩ := C.bind_eq_ok.mp h
  simp only [onTop, Exec.bind_eq_ok, Except.ok.injEq, Prod.mk.injEq] at htop
  obtain ⟨⟨_, sc'⟩, ⟨-, rfl⟩, -, rfl⟩ := htop
  exact addSym_new (.digest algo overrides overs verify) h rfl rfl

/-- Compiling a type leaves the marks of its references. -/
lemma elemRoles_and_fieldRoles (opts : Options) : TypeCases fun ty => ElemRoles opts ty ∧ FieldRoles opts ty where
  int prim byteorder const := by
    refine ⟨elemRoles_pure (fun _ _ => rfl) fun {bo S S' op} h => ?_,
      fieldRoles_pure (fun _ _ => rfl) fun {bo name sc S S''} h => ?_⟩
    · rw [compileElem] at h
      obtain ⟨_, -, h⟩ := lift_bind_ok h
      exact (C.pure_eq_ok.mp h).2
    · rw [compileField] at h
      obtain ⟨_, -, h⟩ := lift_bind_ok h
      obtain ⟨loc, S₁, hpush, h⟩ := C.bind_eq_ok.mp h
      obtain ⟨ops, rfl⟩ := pushFixed_new hpush
      exact addSym_new (.int prim byteorder const) h rfl rfl
  float is64 byteorder := by
    refine ⟨elemRoles_pure (fun _ _ => rfl) fun {bo S S' op} h => ?_,
      fieldRoles_pure (fun _ _ => rfl) fun {bo name sc S S''} h => ?_⟩
    · rw [compileElem] at h
      exact (C.pure_eq_ok.mp h).2
    · rw [compileField] at h
      obtain ⟨loc, S₁, hpush, h⟩ := C.bind_eq_ok.mp h
      obtain ⟨ops, rfl⟩ := pushFixed_new hpush
      exact addSym_new (.float is64 byteorder) h rfl rfl
  bool const := by
    refine ⟨elemRoles_pure (fun _ _ => rfl) fun {bo S S' op} h => ?_,
      fieldRoles_pure (fun _ _ => rfl) fun {bo name sc S S''} h => ?_⟩
    · rw [compileElem] at h
      exact (C.pure_eq_ok.mp h).2
    · rw [compileField] at h
      obtain ⟨loc, S₁, hpush, h⟩ := C.bind_eq_ok.mp h
      obtain ⟨ops, rfl⟩ := pushFixed_new hpush
      exact addSym_new (.bool const) h rfl rfl
  raw len const := by
    refine ⟨elemRoles_pure (fun _ _ => rfl) fun {bo S S' op} h => ?_,
      fieldRoles_pure (fun _ _ => rfl) fun {bo name sc S S''} h => ?_⟩
    · rw [compileElem] at h
      obtain ⟨n, -, h⟩ := lift_bind_ok h
      exact (C.pure_eq_ok.mp h).2
    · rw [compileField] at h
      obtain ⟨n, -, h⟩ := lift_bind_ok h
      obtain ⟨loc, S₁, hpush, h⟩ := C.bind_eq_ok.mp h
      obtain ⟨ops, rfl⟩ := pushFixed_new hpush
      exact addSym_new (.raw len const) h rfl rfl
  bytes len max := by
    constructor
    · intro bo S S' op hn h
      rw [compileElem] at h
      obtain ⟨len', S₁, hlen, h⟩ := C.bind_eq_ok.mp h
      obtain ⟨-, rfl⟩ := C.pure_eq_ok.mp h
      exact (buildLen_roles hn hlen).congr fun ctx n => by rw [TypeIn.refers, lenRefs]
    · intro bo name sc S S'' hn h
      rw [compileField] at h
      obtain ⟨n, rfl, hc⟩ := named_bind_ok h
      obtain ⟨len', S₁, hlen, h⟩ := C.bind_eq_ok.mp hc
      exact fieldRoles_finish ((buildLen_roles hn hlen).congr fun ctx n => by rw [TypeIn.refers, lenRefs])
        rfl h
  str len max encoding errors := by
    constructor
    · intro bo S S' op hn h
      rw [compileElem] at h
      obtain ⟨len', S₁, hlen, h⟩ := C.bind_eq_ok.mp h
      obtain ⟨enc, -, h⟩ := lift_bind_ok h
      obtain ⟨-, rfl⟩ := C.pure_eq_ok.mp h
      exact (buildLen_roles hn hlen).congr fun ctx n => by rw [TypeIn.refers, lenRefs]
    · intro bo name sc S S'' hn h
      rw [compileField] at h
      obtain ⟨n, rfl, hc⟩ := named_bind_ok h
      obtain ⟨enc, -, h⟩ := lift_bind_ok hc
      obtain ⟨len', S₁, hlen, h⟩ := C.bind_eq_ok.mp h
      exact fieldRoles_finish ((buildLen_roles hn hlen).congr fun ctx n => by rw [TypeIn.refers, lenRefs])
        rfl h
  cstr max encoding errors := by
    constructor
    · refine elemRoles_pure (fun _ _ => rfl) fun {bo S S' op} h => ?_
      rw [compileElem] at h
      obtain ⟨enc, -, h⟩ := lift_bind_ok h
      exact (C.pure_eq_ok.mp h).2
    · intro bo name sc S S'' hn h
      rw [compileField] at h
      obtain ⟨n, rfl, hc⟩ := named_bind_ok h
      obtain ⟨enc, -, h⟩ := lift_bind_ok hc
      exact fieldRoles_finish ((Roles.refl _).congr fun _ _ => rfl) rfl h
  bits width signed := by
    constructor
    · intro bo S S' op hn h
      rw [compileElem] at h
      simp [schemaErr] at h
    · refine fieldRoles_pure (fun _ _ => rfl) fun {bo name sc S S''} h => ?_
      rw [compileField] at h
      by_cases hw : 1 ≤ width ∧ width ≤ 64
      · rw [if_neg (by simpa using hw)] at h
        obtain ⟨loc, S₁, hpush, h⟩ := C.bind_eq_ok.mp h
        obtain ⟨ops, rfl⟩ := pushBit_new hpush
        exact addSym_new (.bits width signed) h rfl rfl
      · rw [if_pos hw] at h
        simp [schemaErr] at h
  flags base byteorder names rest := by
    constructor
    · refine elemRoles_pure (fun _ _ => rfl) fun {bo S S' op} h => ?_
      rw [compileElem] at h
      exact (C.lift_eq_ok.mp h).2
    · intro bo name sc S S'' hn h
      rw [compileField] at h
      obtain ⟨n, rfl, hc⟩ := named_bind_ok h
      obtain ⟨op, -, h⟩ := lift_bind_ok hc
      exact fieldRoles_finish ((Roles.refl _).congr fun _ _ => rfl) rfl h
  digest algo overrides overs verify := by
    constructor
    · intro bo S S' op hn h
      rw [compileElem] at h
      simp [schemaErr] at h
    · exact fieldRoles_digest
  struct fields byteorder size hfs := by
    constructor
    · intro bo S S' op hn h
      rw [compileElem] at h
      obtain ⟨size', S₁, hsize, h⟩ := C.bind_eq_ok.mp h
      obtain ⟨prog, S₂, hprog, h⟩ := C.bind_eq_ok.mp h
      obtain ⟨-, rfl⟩ := C.pure_eq_ok.mp h
      exact struct_roles (fun f hf => (hfs f hf).2) hn hsize hprog
    · intro bo name sc S S'' hn h
      rw [compileField] at h
      obtain ⟨n, rfl, hc⟩ := named_bind_ok h
      obtain ⟨size', S₁, hsize, h⟩ := C.bind_eq_ok.mp hc
      obtain ⟨prog, S₂, hprog, h⟩ := C.bind_eq_ok.mp h
      obtain ⟨_, -, h⟩ := lift_bind_ok h
      exact fieldRoles_finish (struct_roles (fun f hf => (hfs f hf).2) hn hsize hprog) rfl h
  array elem count untilEof he := by
    constructor
    · intro bo S S' op hn h
      rw [compileElem] at h
      obtain ⟨count', S₁, hcount, h⟩ := C.bind_eq_ok.mp h
      obtain ⟨op', S₂, hop, h⟩ := C.bind_eq_ok.mp h
      obtain ⟨-, rfl⟩ := C.pure_eq_ok.mp h
      exact array_roles he.1 hn hcount hop
    · intro bo name sc S S'' hn h
      rw [compileField] at h
      obtain ⟨n, rfl, hc⟩ := named_bind_ok h
      obtain ⟨count', S₁, hcount, h⟩ := C.bind_eq_ok.mp hc
      obtain ⟨op', S₂, hop, h⟩ := C.bind_eq_ok.mp h
      exact fieldRoles_finish (array_roles he.1 hn hcount hop) rfl h
  switch on cases default hcs hd := by
    constructor
    · intro bo S S' op hn h
      obtain ⟨on', cases', default', hparts, rfl⟩ := compileElem_switch h
      exact switchParts_roles (fun b hb => (hcs b hb).1) (fun ty hty => (hd ty hty).1) hn hparts
    · intro bo name sc S S'' hn h
      obtain ⟨n, on', cases', default', S₁, rfl, hparts, h⟩ := compileField_switch h
      exact fieldRoles_finish
        (switchParts_roles (fun b hb => (hcs b hb).1) (fun ty hty => (hd ty hty).1) hn hparts) rfl h
  cond pred thn ht := by
    constructor
    · intro bo S S' op hn h
      rw [compileElem] at h
      simp [schemaErr] at h
    · intro bo name sc S S'' hn h
      rw [compileField] at h
      obtain ⟨n, rfl, hc⟩ := named_bind_ok h
      obtain ⟨folded, hfold, h⟩ := lift_bind_ok hc
      obtain ⟨pred', S₁, hpred, h⟩ := C.bind_eq_ok.mp h
      obtain ⟨op, S₂, hop, h⟩ := C.bind_eq_ok.mp h
      have h₁ := emitExpr_roles hn hpred
      refine fieldRoles_finish ((h₁.trans (ht.1 (h₁.namesOk hn) hop)).congr fun ctx n => ?_) rfl h
      rw [TypeIn.refers, fold_mentions_eq hfold]

end Types

end Rustruct

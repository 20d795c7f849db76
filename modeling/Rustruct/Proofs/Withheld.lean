import Rustruct.Proofs.Roles
import Rustruct.Proofs.Inputs
import Rustruct.Proofs.Missing

/-!
# What the frontend withholds

The frontend leaves a field out of the mapping when a `len`, `count` or `size` of its class
refers to it; the compiler marks a field as derived when a length after it in its scope does
and no switch does. The two agree exactly on the classes described here. Then pack misses
nothing that the caller set, so long as no expression reads a derived field too early and no
instance in the message leaves out what its struct takes.
-/

namespace Rustruct

/-- A const, a digest or a derived field of this name. -/
def Program.ignores (prog : Program) (n : String) : Bool :=
  (piecesOf prog.ops).any fun p => p.key == .named n && p.ignoresInput

/-- The field `n` is const, or a digest, or some length after it in its scope refers to it and no
switch does. -/
def fieldsIgnore (n : String) : List FieldIn → Bool
  | [] => false
  | .mk name ty :: fields =>
    if name = some n then
      ty.isConst || ty.isDigest || (fieldsRefer .len n fields && !fieldsRefer .on n fields)
    else fieldsIgnore n fields

/-- The scopes that are open somewhere in a compilation. -/
inductive Opened (opts : Options) : List Scope → Prop where
  | start : Opened opts []
  | enter {S : List Scope} (outer : Opened opts S) : Opened opts (Scope.empty :: S)
  | field {name : Option String} {ty : TypeIn} {bo : ByteOrder} {sc : Scope} {S S' S'' : List Scope}
      (before : Opened opts (sc :: S)) (fresh : checkName name (sc :: S) = .ok ((), S'))
      (ran : compileField opts ty bo name S' = .ok ((), S'')) : Opened opts S''
  | len {e : ExprIn} {what : String} {len : LenSrc} {S S' : List Scope} (before : Opened opts S)
      (ran : buildLen e what S = .ok (len, S')) : Opened opts S'
  | expr {ctx : RefCtx} {e folded : ExprIn} {expr : Expr} {S S' : List Scope} (before : Opened opts S)
      (fold : fold e = .ok folded) (ran : emitExpr ctx folded S = .ok (expr, S')) : Opened opts S'
  | elem {ty : TypeIn} {bo : ByteOrder} {op : Op} {S S' : List Scope} (before : Opened opts S)
      (ran : compileElem opts ty bo S = .ok (op, S')) : Opened opts S'

lemma Opened.ok {opts : Options} {S : List Scope} (h : Opened opts S) : ∀ sc ∈ S, ScopeOk sc := by
  induction h with
  | start => simp
  | enter _ ih =>
    intro s hs
    obtain rfl | hs := List.mem_cons.mp hs
    · exact .empty
    · exact ih s hs
  | field _ fresh ran ih =>
    obtain ⟨rfl, hfresh, -⟩ := checkName_ok fresh
    obtain ⟨sc₁, sc', S', atom, kind, rfl, hsteps, hadd, -⟩ :=
      ((elemOk_and_fieldOk opts).type _).2 ih hfresh ran
    intro s hs
    obtain rfl | hs := List.mem_cons.mp hs
    · exact hadd.ok
    · exact hsteps.ok s (List.mem_cons_of_mem _ hs)
  | len _ ran ih => exact (buildLen_steps ih ran).1.ok
  | expr _ fold ran ih => exact (emitExpr_steps fold ih ran).1.ok
  | elem _ ran ih => exact (((elemOk_and_fieldOk opts).type _).1 ih ran).1.ok

lemma Opened.namesOk {opts : Options} {S : List Scope} (h : Opened opts S) : NamesOk S :=
  fun sc hsc => (h.ok sc hsc).syms.names

lemma FieldSyms.settled {fields : List FieldIn} {syms full : List Sym} (h : FieldSyms fields syms)
    (hspan : List.Forall₂ SpanStep (syms.map Sym.settle) full) : FieldSyms fields full := by
  induction fields generalizing syms full with
  | nil =>
    obtain rfl : syms = [] := h
    cases hspan
    rfl
  | cons f fields ih =>
    obtain ⟨name, ty⟩ := f
    cases name with
    | none => exact ih (show FieldSyms fields syms from h) hspan
    | some n =>
      obtain ⟨s, rest, rfl, hname, hconst, hlen, hon, hrest⟩ := h
      rw [List.map_cons] at hspan
      cases hspan with
      | @cons _ t _ more hst hmore =>
        refine ⟨t, more, rfl, hst.name.trans hname, ?_, ?_, ?_, ih hrest hmore⟩ <;> rw [hst.same]
        · exact hconst
        · exact hlen
        · exact hon

section Pieces

variable {opts : Options} {full : List Sym}

/-- Only integer and bits fields are ever derived. -/
lemma ignoresInput_eq {ty : TypeIn} {Γ : Env} {bo : ByteOrder} {n : String} {atom : Atom} {s : Sym} {p : Piece}
    (h : LowersField opts ty Γ bo (some n) atom s.kind) (hr : Realizes full atom p)
    (hs : findSym full n = some s) (hder : s.derived → s.refable) :
    p.key = .named n ∧ p.ignoresInput = (ty.isConst || ty.isDigest || s.derived) := by
  have hmark : derivedOf full (.named n) = s.derived := by simp [derivedOf, symOf, Key.name, hs]
  have hplain (hk : s.kind.refable = false) : s.derived = false := by
    cases hd : s.derived with
    | false => rfl
    | true => exact absurd (hder hd) (by simpa [Sym.kind] using hk)
  cases ty with
  | int prim byteorder const =>
    obtain ⟨-, rfl, -⟩ := h
    rw [Realizes, keyOf, hmark] at hr
    subst hr
    cases s.derived <;> cases const <;> exact ⟨rfl, rfl⟩
  | bits width signed =>
    obtain ⟨-, -, rfl, -⟩ := h
    rw [Realizes, keyOf, hmark] at hr
    subst hr
    exact ⟨rfl, rfl⟩
  | float is64 byteorder =>
    obtain ⟨rfl, hk⟩ := h
    have hd := hplain (by rw [hk])
    rw [Realizes, keyOf, hmark, hd] at hr
    subst hr
    rw [hd]
    cases is64 <;> exact ⟨rfl, rfl⟩
  | bool const =>
    obtain ⟨rfl, hk⟩ := h
    have hd := hplain (by rw [hk])
    rw [Realizes, keyOf, hmark, hd] at hr
    subst hr
    rw [hd]
    cases const <;> exact ⟨rfl, rfl⟩
  | raw len const =>
    obtain ⟨width, -, rfl, hk⟩ := h
    have hd := hplain (by rw [hk])
    rw [Realizes, keyOf, hmark, hd] at hr
    subst hr
    rw [hd]
    cases const <;> exact ⟨rfl, rfl⟩
  | digest algo overrides overs verify =>
    obtain ⟨m, algo', hm, -, -, rfl, hk⟩ := h
    obtain rfl : n = m := by simpa using hm
    obtain ⟨overs', -, rfl⟩ := hr
    exact ⟨rfl, by simp [Piece.ignoresInput, TypeIn.isDigest]⟩
  | cond pred thn =>
    obtain ⟨m, pred', thn', hm, -, -, rfl, hk⟩ := h
    obtain rfl : n = m := by simpa using hm
    subst hr
    rw [hplain (by rw [hk])]
    exact ⟨rfl, rfl⟩
  | flags base byteorder names rest =>
    obtain ⟨m, op, hm, hop, rfl, hk⟩ := h
    obtain rfl : n = m := by simpa using hm
    rw [Realizes] at hr
    subst hr
    rw [hplain (by rw [hk])]
    obtain ⟨o, -, hc, hd, rfl⟩ := compileFlags_common hop
    cases o with
    | fixed | bitRun => cases hc
    | digest => cases hd
    | _ => exact ⟨rfl, rfl⟩
  | bytes len max =>
    obtain ⟨m, len', hm, -, rfl, hk⟩ := h
    obtain rfl : n = m := by simpa using hm
    subst hr
    rw [hplain (by rw [hk])]
    exact ⟨rfl, rfl⟩
  | str len max encoding errors =>
    obtain ⟨m, len', enc, hm, -, -, rfl, hk⟩ := h
    obtain rfl : n = m := by simpa using hm
    subst hr
    rw [hplain (by rw [hk])]
    exact ⟨rfl, rfl⟩
  | cstr max encoding errors =>
    obtain ⟨m, enc, hm, -, rfl, hk⟩ := h
    obtain rfl : n = m := by simpa using hm
    subst hr
    rw [hplain (by rw [hk])]
    exact ⟨rfl, rfl⟩
  | struct fields byteorder size =>
    obtain ⟨m, size', full', atoms, prog, hm, -, -, -, -, rfl, hk⟩ := h
    obtain rfl : n = m := by simpa using hm
    subst hr
    rw [hplain (by rw [hk])]
    exact ⟨rfl, rfl⟩
  | array elem count untilEof =>
    obtain ⟨m, count', elem', hm, -, -, rfl, hk⟩ := h
    obtain rfl : n = m := by simpa using hm
    subst hr
    rw [hplain (by rw [hk])]
    exact ⟨rfl, rfl⟩
  | switch on cases default =>
    obtain ⟨m, on', cases', default', hm, -, -, -, rfl, hk⟩ := h
    obtain rfl : n = m := by simpa using hm
    subst hr
    rw [hplain (by rw [hk])]
    exact ⟨rfl, rfl⟩

lemma unnamed_key {ty : TypeIn} {Γ : Env} {bo : ByteOrder} {atom : Atom} {kind : SymKind} {p : Piece}
    (h : LowersField opts ty Γ bo none atom kind) (hr : Realizes full atom p) : p.key = .skip := by
  cases ty with
  | int prim byteorder const =>
    obtain ⟨-, rfl, -⟩ := h
    subst hr
    rfl
  | float is64 byteorder =>
    obtain ⟨rfl, -⟩ := h
    subst hr
    rfl
  | bool const =>
    obtain ⟨rfl, -⟩ := h
    subst hr
    rfl
  | raw len const =>
    obtain ⟨width, -, rfl, -⟩ := h
    subst hr
    rfl
  | bits width signed =>
    obtain ⟨-, -, rfl, -⟩ := h
    subst hr
    rfl
  | bytes | str | cstr | flags | digest | struct | array | switch | cond =>
    obtain ⟨_, h⟩ := h
    simp at h

lemma fieldsIgnore_of_not_mem {fields : List FieldIn} {syms : List Sym} {n : String} (h : FieldSyms fields syms)
    (hn : n ∉ syms.map Sym.name) : fieldsIgnore n fields = false := by
  induction fields generalizing syms with
  | nil => rfl
  | cons f fields ih =>
    obtain ⟨name, ty⟩ := f
    cases name with
    | none =>
      rw [fieldsIgnore, if_neg (by simp)]
      exact ih (show FieldSyms fields syms from h) hn
    | some m =>
      obtain ⟨s, rest, rfl, hname, -, -, -, hrest⟩ := h
      rw [List.map_cons, List.mem_cons, not_or, hname] at hn
      rw [fieldsIgnore, if_neg (by simpa using Ne.symm hn.1)]
      exact ih hrest hn.2

/-- The pieces of the fields, one by one. -/
lemma any_ignores {fields : List FieldIn} {Γ : Env} {bo : ByteOrder} {k : Nat} {atoms : List Atom}
    {pieces : List Piece} (n : String) (hnames : (full.map Sym.name).Nodup)
    (hder : ∀ s ∈ full, s.derived = (s.lenReferenced && !s.usedInOn && !s.isConst))
    (href : ∀ s ∈ full, s.derived → s.refable)
    (h : LowersFields opts fields Γ bo full k atoms) (hsyms : FieldSyms fields (full.drop k))
    (hp : List.Forall₂ (Realizes full) atoms pieces) :
    (pieces.any fun p => p.key == .named n && p.ignoresInput) = fieldsIgnore n fields := by
  induction fields generalizing k atoms pieces with
  | nil =>
    obtain ⟨-, rfl⟩ := h
    cases hp
    rfl
  | cons f fields ih =>
    obtain ⟨name, ty⟩ := f
    cases name with
    | none =>
      obtain ⟨atom, kind, rest, hfield, hrest, rfl⟩ := h
      cases hp with
      | @cons _ p _ ps hr hps =>
        rw [List.any_cons, unnamed_key hfield hr, fieldsIgnore, if_neg (by simp)]
        exact ih hrest hsyms hps
    | some m =>
      obtain ⟨atom, s, rest, hfield, hget, hname, -, -, hrest, rfl⟩ := h
      obtain ⟨t, more, hdrop, -, hconst, hlen, hon, hmore⟩ := hsyms
      obtain ⟨hk, hval⟩ := List.getElem?_eq_some_iff.mp hget
      have htail : full.drop (k + 1) = more := by
        rw [← List.drop_drop, hdrop]
        rfl
      obtain rfl : s = t := by
        rw [← List.getElem_cons_drop hk, hval] at hdrop
        exact (List.cons.inj hdrop).1
      have hmem : s ∈ full := hval ▸ List.getElem_mem hk
      have hfind : findSym full m = some s := hname ▸ findSym_of_mem hnames hmem
      cases hp with
      | @cons _ p _ ps hr hps =>
        obtain ⟨hkey, hign⟩ := ignoresInput_eq hfield hr hfind (href s hmem)
        have hnext := ih hrest (htail ▸ hmore) hps
        rw [List.any_cons, hkey, hnext, fieldsIgnore]
        by_cases hmn : m = n
        · subst hmn
          have hnot : m ∉ more.map Sym.name := by
            have hsub : (full.drop k).map Sym.name <:+ full.map Sym.name :=
              (List.drop_suffix k full).map Sym.name
            have hnd := hsub.sublist.nodup hnames
            rw [hdrop, List.map_cons, List.nodup_cons, hname] at hnd
            exact hnd.1
          rw [fieldsIgnore_of_not_mem hmore hnot, Bool.or_false, beq_self_eq_true, Bool.true_and, if_pos rfl,
            hign, hder s hmem, hlen, hon, hconst]
          cases ty.isConst <;> cases ty.isDigest <;> simp
        · have hne : (Key.named m == Key.named n) = false := by simpa using hmn
          rw [hne, Bool.false_and, Bool.false_or, if_neg (by simpa using hmn)]

/-- The named pieces are the fields that declare names. -/
lemma namesOf_pieces {fields : List FieldIn} {Γ : Env} {bo : ByteOrder} {k : Nat} {atoms : List Atom}
    {pieces : List Piece} (hnames : (full.map Sym.name).Nodup) (href : ∀ s ∈ full, s.derived → s.refable)
    (h : LowersFields opts fields Γ bo full k atoms) (hp : List.Forall₂ (Realizes full) atoms pieces) :
    namesOf pieces = (full.drop k).map Sym.name := by
  induction fields generalizing k atoms pieces with
  | nil =>
    obtain ⟨rfl, rfl⟩ := h
    cases hp
    simp [namesOf]
  | cons f fields ih =>
    obtain ⟨name, ty⟩ := f
    cases name with
    | none =>
      obtain ⟨atom, kind, rest, hfield, hrest, rfl⟩ := h
      cases hp with
      | @cons _ p _ ps hr hps =>
        have hkey := unnamed_key hfield hr
        rw [← ih hrest hps]
        simp [namesOf, hkey, Key.name]
    | some m =>
      obtain ⟨atom, s, rest, hfield, hget, hname, -, -, hrest, rfl⟩ := h
      obtain ⟨hk, hval⟩ := List.getElem?_eq_some_iff.mp hget
      have hmem : s ∈ full := hval ▸ List.getElem_mem hk
      have hfind : findSym full m = some s := hname ▸ findSym_of_mem hnames hmem
      cases hp with
      | @cons _ p _ ps hr hps =>
        obtain ⟨hkey, -⟩ := ignoresInput_eq hfield hr hfind (href s hmem)
        rw [← List.getElem_cons_drop hk, hval, List.map_cons, ← ih hrest hps, hname]
        simp [namesOf, hkey, Key.name]

/-- No two pieces have the same name. -/
lemma eq_of_same_name {pieces : List Piece} (h : (namesOf pieces).Nodup) {p q : Piece} {n : String}
    (hp : p ∈ pieces) (hq : q ∈ pieces) (hpn : p.key = .named n) (hqn : q.key = .named n) : p = q := by
  induction pieces with
  | nil => cases hp
  | cons r pieces ih =>
    have htail : (namesOf pieces).Nodup := by
      unfold namesOf at h ⊢
      exact ((List.sublist_cons_self r pieces).filterMap _).nodup h
    have hhead : r.key = .named n → n ∉ namesOf pieces := by
      intro hr
      simp only [namesOf, List.filterMap_cons, hr, Key.name] at h
      exact (List.nodup_cons.mp h).1
    obtain hpr | hpt := List.mem_cons.mp hp <;> obtain hqr | hqt := List.mem_cons.mp hq
    · rw [hpr, hqr]
    · exact absurd (mem_namesOf.mpr ⟨q, hqt, hqn⟩) (hhead (hpr ▸ hpn))
    · exact absurd (mem_namesOf.mpr ⟨p, hpt, hpn⟩) (hhead (hqr ▸ hqn))
    · exact ih htail hpt hqt

end Pieces

/-- The entries that `to_mapping` keeps. -/
def withhold (cls : List Field) (m : List (String × Value)) : List (String × Value) :=
  m.filter fun e => !(noInputNames cls).contains e.1

section Withhold

variable {cls : List Field} {H : Hashes}

lemma entry_withhold (m : List (String × Value)) {key : Key}
    (h : ∀ n, key = .named n → n ∉ noInputNames cls) : entry m key = entry (withhold cls m) key := by
  cases key with
  | skip => rfl
  | named n =>
    have hn := h n rfl
    simp only [entry, Key.name, Option.bind_some, Value.get, withhold, List.find?_filter]
    congr 2
    funext e
    by_cases he : e.1 = n
    · simp [he, hn]
    · simp [he]

lemma withhold_nodup {m : List (String × Value)} (h : (m.map Prod.fst).Nodup) :
    ((withhold cls m).map Prod.fst).Nodup :=
  (List.filter_sublist.map Prod.fst).nodup h

lemma agrees_refl : OpCases (fun op => ∀ v ctx, op.Agrees H v v ctx) (fun prog => ∀ v ctx, prog.Agrees H v v ctx) where
  fixed _ _ _ _ := rfl
  bytes _ _ _ _ _ := rfl
  str _ _ _ _ _ _ := rfl
  cstr _ _ _ _ _ := rfl
  bitRun _ _ _ _ := rfl
  flags _ _ _ _ _ _ _ _ := rfl
  digest _ _ _ _ _ _ _ := rfl
  cond _ _ _ _ _ _ := rfl
  nest _ _ _ hp v ctx := hp v ctx
  array _ _ _ _ _ _ _ _ := .inl rfl
  switch on cases default c hcs hd v ctx := by
    intro tag _
    induction cases with
    | nil =>
      cases default with
      | none => trivial
      | some op => exact hd op rfl v ctx
    | cons branch cases ih =>
      obtain ⟨t, op⟩ := branch
      rw [casesAgree]
      split_ifs
      · exact hcs (t, op) List.mem_cons_self v ctx
      · exact ih fun b hb => hcs b (List.mem_cons_of_mem _ hb)
  prog _ _ _ _ _ _ _ _ := .inl rfl

lemma entriesAgree_withhold (agrees : Agreement) (hrefl : ∀ v ctx, agrees v v ctx)
    (m : List (String × Value)) {key : Key} (h : ∀ n, key = .named n → n ∉ noInputNames cls) (ctx : PCtx) :
    entriesAgree key agrees m (withhold cls m) ctx := by
  rw [entriesAgree, ← entry_withhold m h]
  cases entry m key with
  | none => trivial
  | some v => exact hrefl v ctx

/-- The fields of an op that take inputs are not withheld. -/
def KeepsInputs (cls : List Field) (op : Op) : Prop :=
  ∀ p ∈ op.pieces, p.ignoresInput = false → ∀ n, p.key = .named n → n ∉ noInputNames cls

lemma fieldAgrees_withhold {op : Op} (h : KeepsInputs cls op) (m : List (String × Value)) (ctx : PCtx) :
    op.FieldAgrees H m (withhold cls m) ctx := by
  cases op with
  | fixed width items =>
    intro item hi hinput
    refine entry_withhold m (h item.piece (List.mem_map_of_mem hi) ?_)
    revert hinput
    obtain ⟨off, kind, reg, span, key⟩ := item
    cases kind with
    | int prim be expected derived =>
      cases expected <;> cases derived <;> simp [FixKind.isInput, FixedItem.piece, Piece.ignoresInput]
    | bool expected => cases expected <;> simp [FixKind.isInput, FixedItem.piece, Piece.ignoresInput]
    | raw len expected => cases expected <;> simp [FixKind.isInput, FixedItem.piece, Piece.ignoresInput]
    | f32 | f64 => simp [FixedItem.piece, Piece.ignoresInput]
  | bitRun nbytes items =>
    intro item hi hinput
    exact entry_withhold m (h (.bit item) (List.mem_map_of_mem hi) (by simpa [Piece.ignoresInput] using hinput))
  | digest => trivial
  | cond pred thn c =>
    intro _ _ _
    exact entriesAgree_withhold _ (agrees_refl.op thn) m (h _ (List.mem_singleton_self _) rfl) ctx
  | bytes len max c =>
    exact entriesAgree_withhold (fun v v' _ => v = v') (fun _ _ => rfl) m (h _ (List.mem_singleton_self _) rfl) ctx
  | str len max enc c =>
    exact entriesAgree_withhold (fun v v' _ => v = v') (fun _ _ => rfl) m (h _ (List.mem_singleton_self _) rfl) ctx
  | cstr max enc c =>
    exact entriesAgree_withhold (fun v v' _ => v = v') (fun _ _ => rfl) m (h _ (List.mem_singleton_self _) rfl) ctx
  | flags prim be items rest restMask c =>
    exact entriesAgree_withhold (fun v v' _ => v = v') (fun _ _ => rfl) m (h _ (List.mem_singleton_self _) rfl) ctx
  | nest prog size c =>
    exact entriesAgree_withhold _ (agrees_refl.program prog) m (h _ (List.mem_singleton_self _) rfl) ctx
  | array count maxCount elem elemMin c =>
    exact entriesAgree_withhold _ (fun _ _ => .inl rfl) m (h _ (List.mem_singleton_self _) rfl) ctx
  | switch on cases default c =>
    exact entriesAgree_withhold _ (agrees_refl.op (.switch on cases default c)) m
      (h _ (List.mem_singleton_self _) rfl) ctx

lemma opsAgree_withhold {ops : List Op} (h : ∀ op ∈ ops, KeepsInputs cls op) (m : List (String × Value))
    (ctx : PCtx) : opsAgree H ops m (withhold cls m) ctx := by
  induction ops generalizing ctx with
  | nil => trivial
  | cons op ops ih =>
    exact ⟨fieldAgrees_withhold (h op List.mem_cons_self) m ctx, fun next _ =>
      ih (fun o ho => h o (List.mem_cons_of_mem _ ho)) next⟩

end Withhold

section Compiled

variable {opts : Options} {fields : List FieldIn} {bo : ByteOrder} {S S' : List Scope} {prog : Program}

/-- A scope from its start to its program, with the marks of its symbols. -/
lemma inScope_marks (hok : ∀ sc ∈ S, ScopeOk sc) (h : inScope (compileFields opts fields bo) S = .ok (prog, S')) :
    ∃ sc full atoms, compileFields opts fields bo (Scope.empty :: S) = .ok ((), sc :: S') ∧
      Filled opts fields bo Scope.empty S sc S' atoms ∧ LowersFields opts fields (envOf S') bo full 0 atoms ∧
      FieldSyms fields full ∧ Assembled full atoms prog ∧ ∀ s ∈ full, s.derived → s.refable := by
  obtain ⟨sc, full, atoms, hbody, hfill, hspan, hasm⟩ :=
    inScope_filled (fun f _ => ((elemOk_and_fieldOk opts).type f.ty).2) hok h
  have hsettled : List.Forall₂ Settled sc.syms full := by
    rw [List.forall₂_map_left_iff] at hspan
    refine hspan.imp fun s t hst => ?_
    rw [hst.same]
    exact ⟨⟨rfl, rfl, fun _ h => h, id, id⟩, id⟩
  have hlow := hfill.lowers full (envOf S') hsettled (envLe_of_steps (forall₂_refl ScopeStep.refl S'))
  have hnames : NamesOk (Scope.empty :: S) := by
    intro s hs
    rcases List.mem_cons.mp hs with rfl | hs
    · exact List.nodup_nil
    · exact (hok s hs).syms.names
  have hsyms : FieldSyms fields full := by
    obtain ⟨sc', S₁, old, more, heq, hsplit, hold, -, hmore, -⟩ :=
      compileFields_roles (fun f _ => ((elemRoles_and_fieldRoles opts).type f.ty).2) hnames hbody
    obtain ⟨rfl, -⟩ := List.cons.inj heq
    cases hold
    rw [List.nil_append] at hsplit
    exact FieldSyms.settled (hsplit ▸ hmore) hspan
  refine ⟨sc, full, atoms, hbody, hfill, hlow, hsyms, hasm, fun s hs hd => ?_⟩
  -- A derived field is one that a length refers to, so it has a register.
  rw [hasm.derived s hs] at hd
  simp only [Bool.and_eq_true] at hd
  exact hasm.syms.refable s hs (hasm.syms.referenced s hs (.inl hd.1.1))

/-- Which fields of a struct pack ignores, wherever in a schema the struct is. -/
lemma ignores_eq (hS : Opened opts S) (h : inScope (compileFields opts fields bo) S = .ok (prog, S')) :
    (∀ n, prog.ignores n = fieldsIgnore n fields) ∧ (namesOf (piecesOf prog.ops)).Nodup := by
  obtain ⟨sc, full, atoms, -, -, hlow, hsyms, hasm, href⟩ := inScope_marks hS.ok h
  refine ⟨fun n => any_ignores n hasm.syms.names hasm.derived href hlow hsyms hasm.pieces, ?_⟩
  rw [namesOf_pieces hasm.syms.names href hlow hasm.pieces]
  exact hasm.syms.names

/-- Pack takes no input that it ignores. -/
lemma takes_of_ignores (h : (namesOf (piecesOf prog.ops)).Nodup) {n : String} (hn : prog.ignores n) :
    prog.takes n = false := by
  obtain ⟨q, hq, hqn⟩ := List.any_eq_true.mp hn
  rw [Bool.and_eq_true, beq_iff_eq] at hqn
  refine List.any_eq_false.mpr fun p hp hpn => ?_
  rw [Bool.and_eq_true, beq_iff_eq] at hpn
  have heq := eq_of_same_name h hp hq hpn.1 hqn.1
  rw [heq, hqn.2] at hpn
  cases hpn.2

/-- Pack does not miss what it ignores. -/
lemma packStruct_withhold (cls : List Field) (hS : Opened opts S)
    (h : inScope (compileFields opts fields bo) S = .ok (prog, S'))
    (hig : ∀ n ∈ noInputNames cls, prog.ignores n) (H : Hashes) {m : List (String × Value)}
    (hm : (m.map Prod.fst).Nodup) (ctx : PCtx) :
    packStruct H prog (.map (withhold cls m)) ctx = packStruct H prog (.map m) ctx := by
  obtain ⟨-, hnames⟩ := ignores_eq hS h
  have hkeep : ∀ op ∈ prog.ops, KeepsInputs cls op := by
    intro op hop p hp hno n hn hmem
    have htakes := takes_of_ignores hnames (hig n hmem)
    have hfalse := List.any_eq_false.mp htakes p (List.mem_flatMap.mpr ⟨op, hop, hp⟩)
    simp [hn, hno] at hfalse
  obtain ⟨ops, nregs, nspans, minSize, staticSize⟩ := prog
  symm
  apply (alike_cases H).program
  exact .inr ⟨m, withhold cls m, rfl, rfl, hm, withhold_nodup hm, opsAgree_withhold hkeep m _⟩

end Compiled

/-- Converting the object comes to the attributes of an instance of the class, at this path. -/
inductive InstAt : Obj → List Attrs → Shape → List Seg → StructClass → Attrs → List Attrs → Prop where
  | here {cls attrs ctx shape needsCtx} (pick : shape.pick ctx = some (.struct needsCtx)) :
      InstAt (.inst cls attrs) ctx shape [] cls attrs ctx
  | attr {cls attrs ctx shape needsCtx f o path inner attrs' ctx'} (pick : shape.pick ctx = some (.struct needsCtx))
      (mem : f ∈ cls.fields) (attr : attrs f.name = some o)
      (rest : InstAt o (cls.pushCtx attrs ctx) f.shape path inner attrs' ctx') :
      InstAt (.inst cls attrs) ctx shape (.field f.name :: path) inner attrs' ctx'
  | item {wire key items ctx shape elem i o path inner attrs' ctx'} (pick : shape.pick ctx = some (.array elem))
      (item : items[i]? = some o) (rest : InstAt o ctx elem path inner attrs' ctx') :
      InstAt (.iterable wire key items) ctx shape (.index i :: path) inner attrs' ctx'

/-- The path is that of a field whose attribute the caller did set. -/
def Obj.Given (o : Obj) (ctx : List Attrs) (shape : Shape) (path : List Seg) : Prop :=
  ∃ inner f cls attrs ctx' x, path = inner ++ [.field f.name] ∧ InstAt o ctx shape inner cls attrs ctx' ∧
    f ∈ cls.fields ∧ attrs f.name = some x ∧ x.isNone = false

/-- No instance in the object leaves out what the struct takes that is packed from it. -/
def InnerSuit (H : Hashes) (o : Obj) (ctx : List Attrs) (shape : Shape) (s : PSite) : Prop :=
  ∀ path cls attrs ctx' prog v pctx, path ≠ [] → InstAt o ctx shape path cls attrs ctx' →
    PAt H s path (.body prog v pctx) → ∀ n ∈ noInputNames cls.fields, prog.takes n = false

section Mapping

variable {encode : Nat → Obj → Option Value} {cls : StructClass} {attrs : Attrs} {ctx : List Attrs}

lemma mapM_entries {conv : Field → Option Value} {fields : List Field} {out : List (String × Value)}
    (h : (fields.mapM fun f => (conv f).map (Prod.mk f.name)) = some out) :
    List.Forall₂ (fun f e => e.1 = f.name ∧ conv f = some e.2) fields out := by
  induction fields generalizing out with
  | nil =>
    cases h
    exact .nil
  | cons f fields ih =>
    simp only [List.mapM_cons, Option.bind_eq_bind, Option.bind_eq_some_iff, Option.map_eq_some_iff,
      Option.pure_def, Option.some.injEq] at h
    obtain ⟨e, ⟨v, hv, rfl⟩, rest, hrest, rfl⟩ := h
    exact .cons ⟨rfl, hv⟩ (ih hrest)

lemma entries_names {conv : Field → Option Value} {fields : List Field} {out : List (String × Value)}
    (h : List.Forall₂ (fun f e => e.1 = f.name ∧ conv f = some e.2) fields out) :
    out.map Prod.fst = fields.map Field.name := by
  induction h with
  | nil => rfl
  | cons he _ ih => rw [List.map_cons, List.map_cons, he.1, ih]

lemma entries_nodup {conv : Field → Option Value} {out : List (String × Value)}
    (h : cls.entries attrs conv = some out) : (out.map Prod.fst).Nodup := by
  rw [entries_names (mapM_entries h)]
  exact (List.filter_sublist.map Field.name).nodup cls.names

/-- The entry of a field that has one. -/
lemma entries_get {conv : Field → Option Value} {fields : List Field} {out : List (String × Value)}
    (h : List.Forall₂ (fun f e => e.1 = f.name ∧ conv f = some e.2) fields out)
    (hnames : (fields.map Field.name).Nodup) {f : Field} (hf : f ∈ fields) :
    ∃ x, (Value.map out).get f.name = some x ∧ conv f = some x := by
  induction h with
  | nil => cases hf
  | @cons g e fields out he _ ih =>
    rw [List.map_cons, List.nodup_cons] at hnames
    obtain rfl | hf := List.mem_cons.mp hf
    · exact ⟨e.2, by simp [Value.get, he.1], he.2⟩
    · have hne : e.1 ≠ f.name := by
        intro heq
        exact hnames.1 (he.1 ▸ heq ▸ List.mem_map_of_mem hf)
      obtain ⟨x, hget, hconv⟩ := ih hnames.2 hf
      refine ⟨x, ?_, hconv⟩
      rw [← hget]
      simp [Value.get, hne]

lemma entries_get_none {conv : Field → Option Value} {fields : List Field} {out : List (String × Value)}
    (h : List.Forall₂ (fun f e => e.1 = f.name ∧ conv f = some e.2) fields out) {n : String}
    (hn : n ∉ fields.map Field.name) : (Value.map out).get n = none := by
  rw [← entries_names h] at hn
  have hfind : (out.find? fun e => e.1 == n) = none := by
    refine List.find?_eq_none.mpr fun e he heq => hn ?_
    exact List.mem_map.mpr ⟨e, he, beq_iff_eq.mp heq⟩
  rw [Value.get, hfind]
  rfl

lemma pick_struct (needsCtx : Bool) : (Shape.struct needsCtx).pick ctx = some (.struct needsCtx) := by
  simp [Shape.pick]

lemma toMapping_eq : cls.toMapping encode attrs ctx =
    (cls.entries attrs fun f => attrToWire encode (attrs f.name) (cls.pushCtx attrs ctx) f.shape).map Value.map := by
  rw [StructClass.toMapping, Obj.toWire, pick_struct]
  exact Option.map_eq_bind.symm

lemma toWire_struct {shape : Shape} {needsCtx : Bool} (h : shape.pick ctx = some (.struct needsCtx)) :
    (Obj.inst cls attrs).toWire encode ctx shape = cls.toMapping encode attrs ctx := by
  rw [toMapping_eq, Obj.toWire, h]
  exact Option.map_eq_bind.symm

lemma itemsToWire_get {items : List Obj} {elem : Shape} {out : List Value}
    (h : itemsToWire encode items ctx elem = some out) {i : Nat} {o : Obj} (ho : items[i]? = some o) :
    ∃ x, out[i]? = some x ∧ o.toWire encode ctx elem = some x := by
  induction items generalizing i out with
  | nil => cases ho
  | cons first items ih =>
    simp only [itemsToWire, Option.bind_eq_bind, Option.bind_eq_some_iff, Option.pure_def, Option.some.injEq] at h
    obtain ⟨x, hx, rest, hrest, rfl⟩ := h
    cases i with
    | zero =>
      cases ho
      exact ⟨x, rfl, hx⟩
    | succ i => exact ih hrest ho

/-- What pack is given of an instance inside the object is the mapping of that instance. -/
lemma InstAt.toMapping {o : Obj} {shape : Shape} {path : List Seg} {ctx' : List Attrs}
    (h : InstAt o ctx shape path cls attrs ctx') {v inner : Value} (hv : o.toWire encode ctx shape = some v)
    (hinner : v.follow path = some inner) : cls.toMapping encode attrs ctx' = some inner := by
  induction h generalizing v with
  | here pick =>
    rw [toWire_struct pick] at hv
    cases hinner
    exact hv
  | @attr cls attrs ctx shape needsCtx f o path inst attrs' ctx' pick mem attr rest ih =>
    rw [toWire_struct pick, toMapping_eq] at hv
    obtain ⟨out, hout, rfl⟩ := Option.map_eq_some_iff.mp hv
    rw [follow_field (mapView_map out), viewOf_get (entries_nodup hout)] at hinner
    obtain ⟨x, hget, hfollow⟩ := Option.bind_eq_some_iff.mp hinner
    have hentries := mapM_entries hout
    have hkept : f ∈ cls.fields.filter (cls.keeps attrs) := by
      by_contra hnot
      have hnone : (Value.map out).get f.name = none := by
        refine entries_get_none hentries fun hmem => hnot ?_
        obtain ⟨g, hg, hname⟩ := List.mem_map.mp hmem
        obtain rfl := List.inj_on_of_nodup_map cls.names (List.mem_of_mem_filter hg) mem hname
        exact hg
      rw [hnone] at hget
      cases hget
    obtain ⟨y, hy, hconv⟩ := entries_get hentries ((List.filter_sublist.map Field.name).nodup cls.names) hkept
    obtain rfl : x = y := Option.some.inj (hget.symm.trans hy)
    rw [attr] at hconv
    exact ih hconv hfollow
  | @item wire key items ctx shape elem i o path inst attrs' ctx' pick item rest ih =>
    rw [Obj.toWire, pick] at hv
    have hlist : (itemsToWire encode items ctx elem).bind (fun out => some (.list out)) = some v := hv
    obtain ⟨out, hout, hlist⟩ := Option.bind_eq_some_iff.mp hlist
    cases hlist
    obtain ⟨x, hx, hwire⟩ := itemsToWire_get hout item
    rw [Value.follow, List.foldlM_cons] at hinner
    obtain ⟨y, hy, hfollow⟩ := Option.bind_eq_some_iff.mp hinner
    obtain rfl : y = x := by
      have hchild : (Value.list out).child (.index i) = some x := hx
      exact Option.some.inj (hy.symm.trans hchild)
    exact ih hwire hfollow

/-- Where the attribute of a field is set, its entry is missing only if it is withheld. -/
lemma withheld_of_missing {v : Value} {view : FieldIndex} {f : Field} {x : Obj}
    (hv : cls.toMapping encode attrs ctx = some v) (hview : v.mapView = some view) (hf : f ∈ cls.fields)
    (hx : attrs f.name = some x) (hset : x.isNone = false) (hnone : view.get f.name = none) :
    f.name ∈ noInputNames cls.fields := by
  rw [toMapping_eq] at hv
  obtain ⟨out, hout, rfl⟩ := Option.map_eq_some_iff.mp hv
  by_contra hkept
  have hmem : f ∈ cls.fields.filter (cls.keeps attrs) := by
    refine List.mem_filter.mpr ⟨hf, ?_⟩
    simp [StructClass.keeps, hkept, hx, hset]
  obtain ⟨y, hy, -⟩ := entries_get (mapM_entries hout) ((List.filter_sublist.map Field.name).nodup cls.names) hmem
  rw [mapView_map, Option.some.injEq] at hview
  rw [← hview, viewOf_get (entries_nodup hout), hy] at hnone
  cases hnone

/-- Pack misses nothing that the caller set. -/
lemma not_given_of_missing {H : Hashes} {prog : Program} {needsCtx : Bool} {v : Value} {pctx : PCtx}
    (hv : cls.toMapping encode attrs ctx = some v) (hown : ∀ n ∈ noInputNames cls.fields, prog.takes n = false)
    (hsettled : PAlways H PSite.Settled (.body prog v pctx))
    (hinner : InnerSuit H (.inst cls attrs) ctx (.struct needsCtx) (.body prog v pctx)) {e : PackFail}
    (he : packStruct H prog v pctx = Exec.fail e) (hkind : e.kind = .missing) :
    ¬(Obj.inst cls attrs).Given ctx (.struct needsCtx) e.path.reverse := by
  rintro ⟨path, f, cls', attrs', ctx', x, hpath, hinst, hf, hx, hset⟩
  obtain ⟨path', name, prog', v', pctx', view, hpath', hat, hview, hnone, htakes⟩ :=
    misses_cases.program prog v pctx hsettled e he hkind
  obtain ⟨rfl, hname⟩ := List.append_inj' (hpath.symm.trans hpath') rfl
  obtain rfl : f.name = name := by simpa using hname
  have hwire : (Obj.inst cls attrs).toWire encode ctx (.struct needsCtx) = some v :=
    (toWire_struct (pick_struct needsCtx)).trans hv
  have hmem := withheld_of_missing (hinst.toMapping hwire (hat.follow rfl)) hview hf hx hset hnone
  have hfalse : prog'.takes f.name = false := by
    cases path with
    | nil =>
      cases hinst
      rw [hat.program]
      exact hown f.name hmem
    | cons seg path => exact hinner _ cls' attrs' ctx' prog' v' pctx' (List.cons_ne_nil _ _) hinst hat f.name hmem
  rw [hfalse] at htakes
  cases htakes

end Mapping

section Frontend

variable {opts : Options} {bo : ByteOrder} {S S' : List Scope} {prog : Program}

/-- The frontend withholds only what the core ignores, for a class anywhere in a hierarchy, exactly
when every name it withholds is const, a digest, or referred to by a length and by no switch. Then
pack does the same without the entries as with them, and in a run in which no expression comes too
early and no instance inside leaves out what its struct takes it misses nothing that the caller set. -/
theorem withheld_ignored_iff (cls : StructClass) (hS : Opened opts S)
    (h : inScope (compileFields opts (cls.fields.map Field.toIn) bo) S = .ok (prog, S')) :
    ((∀ n ∈ noInputNames cls.fields, prog.ignores n) ↔
      ∀ n ∈ noInputNames cls.fields, fieldsIgnore n (cls.fields.map Field.toIn)) ∧
    ((∀ n ∈ noInputNames cls.fields, fieldsIgnore n (cls.fields.map Field.toIn)) → ∀ (H : Hashes) (pctx : PCtx),
      (∀ m : List (String × Value), (m.map Prod.fst).Nodup →
        packStruct H prog (.map (withhold cls.fields m)) pctx = packStruct H prog (.map m) pctx) ∧
      ∀ (encode : Nat → Obj → Option Value) (attrs : Attrs) (ctx : List Attrs) (v : Value),
        cls.toMapping encode attrs ctx = some v → PAlways H PSite.Settled (.body prog v pctx) →
        InnerSuit H (.inst cls attrs) ctx (.struct cls.needsCtx) (.body prog v pctx) →
        ∀ e, packStruct H prog v pctx = Exec.fail e → e.kind = .missing →
          ¬(Obj.inst cls attrs).Given ctx (.struct cls.needsCtx) e.path.reverse) := by
  obtain ⟨heq, hnames⟩ := ignores_eq hS h
  have hiff : (∀ n ∈ noInputNames cls.fields, prog.ignores n) ↔
      ∀ n ∈ noInputNames cls.fields, fieldsIgnore n (cls.fields.map Field.toIn) :=
    forall₂_congr fun n _ => by rw [heq n]
  refine ⟨hiff, fun hcond H pctx => ⟨fun m hm => ?_, ?_⟩⟩
  · exact packStruct_withhold cls.fields hS h (hiff.mpr hcond) H hm pctx
  · intro encode attrs ctx v hv hsettled hinner e he hkind
    have hown : ∀ n ∈ noInputNames cls.fields, prog.takes n = false :=
      fun n hn => takes_of_ignores hnames (hiff.mpr hcond n hn)
    exact not_given_of_missing hv hown hsettled hinner he hkind

/-- The op evaluates no expression to pack. -/
def Op.branchless : Op → Prop
  | .cond .. | .switch .. => False
  | _ => True

instance : DecidablePred Op.branchless
  | .cond .. | .switch .. => .isFalse id
  | .fixed .. | .bytes .. | .str .. | .cstr .. | .bitRun .. | .flags .. | .digest .. | .nest .. | .array .. =>
    .isTrue trivial

/-- Where there is no expression, none comes too early. -/
lemma settled_of_branchless {H : Hashes} {s : PSite} (hs : s.Every Op.branchless) : PAlways H PSite.Settled s := by
  intro t ht
  have hevery : t.Every Op.branchless := by
    induction ht with
    | refl => exact hs
    | tail _ hst ih => exact hst.every ih
  cases t with
  | value op v ctx =>
    cases op with
    | switch on cases default c => exact absurd hevery.1 id
    | _ => trivial
  | rest ops view ctx =>
    cases ops with
    | nil => trivial
    | cons op ops =>
      cases op with
      | cond pred thn c =>
        have hop : (Op.cond pred thn c).Every Op.branchless := hevery _ (by simp)
        exact absurd hop.1 id
      | _ => trivial
  | _ => trivial

/-- A length that only its bytes refer to. -/
def countedClass : List Field :=
  [{ name := "n", ty := .int .u8 none none, constKey := false, keyed := nofun, shape := .scalar },
    { name := "data", ty := .bytes (.ref "n") none, constKey := false, keyed := nofun, shape := .scalar }]

/-- There is a struct after them. -/
def framedClass : StructClass where
  fields := countedClass ++
    [{ name := "head", ty := .struct [.named "x" (.int .u8 none none)] none none, constKey := false,
       keyed := nofun, shape := .struct false }]
  names := by decide

def framed : Program :=
  .mk [.fixed 1 [{ off := 0, kind := .int .u8 true none true, reg := some 0, span := none,
                   key := .named "n" }],
       .bytes (.expr { ins := [.reg ⟨0, 0⟩] } (some ⟨⟨0, 0⟩, 1, 0⟩)) 67108864 (.named "data"),
       .nest (.mk [.fixed 1 [{ off := 0, kind := .int .u8 true none false, reg := none, span := none,
                               key := .named "x" }]] 0 0 1 (some 1)) none (.named "head")]
    1 0 2 none

/-- An instance with an empty dictionary for its struct. -/
def framedAttrs : Attrs := fun name =>
  if name = "n" then some .none
  else if name = "data" then some (.plain (.bytes [5]) .other)
  else if name = "head" then some (.plain (.map []) .unhashable)
  else none

def framedValue : Value := .map [("data", .bytes [5]), ("head", .map [])]

lemma inScope_framedClass :
    inScope (compileFields {} (framedClass.fields.map Field.toIn) .big) [] = .ok (framed, []) := by
  have h : Exec.returns (inScope (compileFields {} (framedClass.fields.map Field.toIn) .big) [])
      fun r => r.1.beq framed && r.2.isEmpty := by decide +kernel
  obtain ⟨⟨prog, S⟩, hp, hb⟩ := Exec.returns_iff.mp h
  simp only [Bool.and_eq_true, List.isEmpty_iff] at hb
  rw [hp, Program.eq_of_beq hb.1, hb.2]

/-- Only the instance itself is one. -/
lemma framedAttrs_alone {path : List Seg} {cls : StructClass} {attrs : Attrs} {ctx : List Attrs}
    (h : InstAt (.inst framedClass framedAttrs) [] (.struct framedClass.needsCtx) path cls attrs ctx) : path = [] := by
  cases h with
  | here => rfl
  | attr pick mem attr rest =>
    -- No attribute is an instance, nor a list that may hold one.
    unfold framedAttrs at attr
    split_ifs at attr <;> cases attr <;> cases rest

/-- A derived length is withheld, and pack does without it. What it misses in the dictionary nobody set. -/
theorem withheld_ignored_framed : (noInputNames framedClass.fields).all framed.ignores = true ∧
    packStruct .blank framed framedValue { out := [], frames := [] } =
      Exec.fail { kind := .missing, path := [.field "x", .field "head"] } ∧
    ¬(Obj.inst framedClass framedAttrs).Given [] (.struct framedClass.needsCtx) [.field "head", .field "x"] := by
  have h := withheld_ignored_iff framedClass .start inScope_framedClass
  have hcond : ∀ n ∈ noInputNames framedClass.fields, fieldsIgnore n (framedClass.fields.map Field.toIn) := by
    decide
  have hrun : packStruct .blank framed framedValue { out := [], frames := [] } =
      Exec.fail { kind := .missing, path := [.field "x", .field "head"] } := rfl
  refine ⟨List.all_eq_true.mpr (h.1.mpr hcond), hrun, ?_⟩
  have hsettled := settled_of_branchless (H := .blank)
    (s := .body framed framedValue { out := [], frames := [] }) (show framed.Every Op.branchless by decide)
  refine (h.2 hcond .blank _).2 (fun _ _ => none) framedAttrs [] framedValue rfl hsettled ?_ _ hrun rfl
  intro path cls attrs ctx prog v pctx hne hinst
  exact absurd (framedAttrs_alone hinst) hne

/-- The length also chooses a branch. -/
def switchedClass : List Field :=
  countedClass ++
    [{ name := "body", ty := .switch (.ref "n") [(1, .int .u8 none none)] none, constKey := false,
       keyed := nofun, shape := .switch (some "n") [(1, .scalar)] none }]

def switchedStruct : StructClass := ⟨switchedClass, by decide⟩

def switchedAttrs : Attrs := fun name =>
  if name = "n" then some (.int 1)
  else if name = "data" then some (.plain (.bytes [5]) .other)
  else if name = "body" then some (.int 9)
  else none

def switched : Program :=
  .mk [.fixed 1 [{ off := 0, kind := .int .u8 true none false, reg := some 0, span := none,
                   key := .named "n" }],
       .bytes (.expr { ins := [.reg ⟨0, 0⟩] } (some ⟨⟨0, 0⟩, 1, 0⟩)) 67108864 (.named "data"),
       .switch { ins := [.reg ⟨0, 0⟩] } [(1, fixed1 (.int .u8 true none false))] none (.named "body")]
    1 0 2 none

lemma compile_switchedClass : compile (switchedClass.map Field.toIn) {} = .ok switched := by
  have hc : Exec.returns (compile (switchedClass.map Field.toIn) {}) fun prog =>
      prog.beq switched := by decide +kernel
  obtain ⟨prog, hp, hb⟩ := Exec.returns_iff.mp hc
  rw [hp, Program.eq_of_beq hb]

/-- Pack needs the length that a switch refers to, and the frontend withholds it although it is set. -/
theorem switchedClass_missing : ∃ prog v, compile (switchedStruct.fields.map Field.toIn) {} = .ok prog ∧
    "n" ∈ noInputNames switchedStruct.fields ∧ prog.ignores "n" = false ∧
    switchedStruct.toMapping (fun _ _ => none) switchedAttrs [] = some v ∧
    (∀ H, packRun H prog v = .err .missing "n") ∧
    (Obj.inst switchedStruct switchedAttrs).Given [] (.struct switchedStruct.needsCtx) [.field "n"] := by
  refine ⟨switched, .map [("data", .bytes [5]), ("body", .int 9)], compile_switchedClass, by decide, by decide, rfl,
    fun H => rfl, ?_⟩
  exact ⟨[], _, _, _, _, .int 1, rfl, .here (pick_struct _), List.mem_cons_self, rfl, rfl⟩

end Frontend

end Rustruct

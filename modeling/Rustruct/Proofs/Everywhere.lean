import Rustruct.Proofs.Sound

/-!
# Every op of a compiled program

What holds of each op the lowering can build holds of every op of a compiled program.
-/

namespace Rustruct

/-- `P` holds of each op the lowering builds, whatever it is built from. -/
structure Everywhere (opts : Options) (P : Op → Prop) : Prop where
  withCommon : ∀ op c, P op → P (op.withCommon fun _ => c)
  fixed : ∀ width items, P (.fixed width items)
  bitRun : ∀ nbytes items, nbytes < u32Size → P (.bitRun nbytes items)
  digest : ∀ name overrides algo overs verify be c, parseAlgo name overrides = .ok algo →
    P (.digest algo overs verify be c)
  flags : ∀ prim be items rest restMask c, P (.flags prim be items rest restMask c)
  cstr : ∀ max enc c, P (.cstr max enc c)
  bytes : ∀ Γ e len max c, LowersLen Γ e len → P (.bytes len max c)
  str : ∀ Γ e len max enc c, LowersLen Γ e len → P (.str len max enc c)
  nest : ∀ Γ e prog size c, LowersSize Γ e size → prog.minSize = minSizeOf prog.ops →
    prog.staticSize = staticSizeOf prog.ops → P (.nest prog size c)
  array : ∀ Γ e untilEof count elem c, LowersCount Γ e untilEof count →
    P (.array count opts.maxCount elem (opMin elem) c)
  switch : ∀ on cases default c, P (.switch on cases default c)
  cond : ∀ pred thn c, P (.cond pred thn c)

section Every

variable {opts : Options} {P : Op → Prop}

lemma Op.Every.withCommon (hP : Everywhere opts P) {op : Op} (h : op.Every P) (c : Common) :
    (op.withCommon fun _ => c).Every P := by
  have hc := hP.withCommon op c h.here
  cases op with
  | nest | array | cond => exact ⟨hc, h.2⟩
  | switch => exact ⟨hc, h.2.1, h.2.2⟩
  | _ => exact hc

/-- What the fields of a program are made of. -/
def Atom.Every (P : Op → Prop) : Atom → Prop
  | .op o _ => o.Every P
  | .cond _ thn _ => thn.Every P
  | .digest algo _ verify be _ => ∀ overs c, P (.digest algo overs verify be c)
  | .fixed .. | .bit .. => True

lemma Assembled.every {full : List Sym} {atoms : List Atom} {prog : Program} (hP : Everywhere opts P)
    (h : Assembled full atoms prog) (ha : ∀ a ∈ atoms, a.Every P) : prog.Every P := by
  obtain ⟨ops, nregs, nspans, minSize, staticSize⟩ := prog
  rw [Program.Every, opsEvery_iff]
  intro op ho
  have hdyn : ∀ c, op.common = some c → ∃ a ∈ atoms, Realizes full a (.op op) := by
    intro c hc
    exact h.piece ho (by rw [pieces_of_common hc]; exact List.mem_singleton_self _)
  have key : ∀ c, op.common = some c → op.Every P := by
    intro c hc
    obtain ⟨a, hm, hr⟩ := hdyn c hc
    have hs := ha a hm
    cases a with
    | fixed | bit => cases hr
    | digest algo overIn verify be name =>
      obtain ⟨overs, -, hr⟩ := hr
      rw [Piece.op.injEq] at hr
      rw [hr]
      exact hs _ _
    | op o name =>
      simp only [Realizes, Piece.op.injEq] at hr
      rw [hr]
      exact Op.Every.withCommon hP hs _
    | cond pred thn name =>
      simp only [Realizes, Piece.op.injEq] at hr
      rw [hr]
      exact ⟨hP.cond _ _ _, hs⟩
  cases op with
  | fixed width items => exact hP.fixed width items
  | bitRun nbytes items =>
    have htotal := (h.laid _ ho).2
    have hlt : bitTotal items < u32Size := Nat.mod_lt _ (by decide)
    exact hP.bitRun nbytes items (by omega)
  | _ => exact key _ rfl

/-- The ops a type is lowered to. -/
structure TypeEvery (opts : Options) (P : Op → Prop) (ty : TypeIn) : Prop where
  elem : ∀ Γ bo op, LowersElem opts ty Γ bo op → op.Every P
  field : ∀ Γ bo name atom kind, LowersField opts ty Γ bo name atom kind → atom.Every P

lemma LowersFields.every {fields : List FieldIn} (hfs : ∀ f ∈ fields, TypeEvery opts P f.ty)
    {Γ : Env} {bo : ByteOrder} {full : List Sym} {k : Nat} {atoms : List Atom}
    (h : LowersFields opts fields Γ bo full k atoms) : ∀ a ∈ atoms, a.Every P := by
  induction fields generalizing k atoms with
  | nil =>
    obtain ⟨-, rfl⟩ := h
    simp
  | cons f fields ih =>
    obtain ⟨name, ty⟩ := f
    have ht := (hfs (.mk name ty) (by simp)).field
    have hrest := @ih fun f hf => hfs f (by simp [hf])
    cases name with
    | none =>
      obtain ⟨atom, kind, rest, hfield, hmore, rfl⟩ := h
      intro a ha
      obtain rfl | ha := List.mem_cons.mp ha
      · exact ht _ _ _ _ _ hfield
      · exact hrest hmore a ha
    | some n =>
      obtain ⟨atom, s, rest, hfield, -, -, -, -, hmore, rfl⟩ := h
      intro a ha
      obtain rfl | ha := List.mem_cons.mp ha
      · exact ht _ _ _ _ _ hfield
      · exact hrest hmore a ha

lemma LowersCases.every {cases : List (Int × TypeIn)} (hc : ∀ branch ∈ cases, TypeEvery opts P branch.2)
    {Γ : Env} {bo : ByteOrder} {cases' : List (Int × Op)} (h : LowersCases opts cases Γ bo cases') :
    casesEvery P cases' := by
  induction cases generalizing cases' with
  | nil =>
    obtain rfl : cases' = [] := h
    trivial
  | cons branch cases ih =>
    obtain ⟨tag, ty⟩ := branch
    obtain ⟨op, rest, hop, hrest, rfl⟩ := h
    exact ⟨(hc (tag, ty) (by simp)).elem _ _ _ hop, ih (fun b hb => hc b (by simp [hb])) hrest⟩

lemma LowersDefault.every {default : Option TypeIn} (hd : ∀ ty ∈ default, TypeEvery opts P ty)
    {Γ : Env} {bo : ByteOrder} {default' : Option Op} (h : LowersDefault opts default Γ bo default') :
    defaultEvery P default' := by
  cases default with
  | none =>
    obtain rfl : default' = none := h
    trivial
  | some ty =>
    obtain ⟨op, hop, rfl⟩ := h
    exact (hd ty rfl).elem _ _ _ hop

lemma flags_every (hP : Everywhere opts P) {base : IntPrim} {be : Bool} {names : List (String × U64)}
    {rest : String} {op : Op} (h : compileFlags base be names rest .skip = .ok op) : op.Every P := by
  unfold compileFlags at h
  split_ifs at h
  · simp [schemaErr] at h
  simp only [Exec.bind_eq_ok, Prod.exists] at h
  obtain ⟨items, union, -, h⟩ := h
  cases hr : restPolicies.parse rest with
  | error msg => simp [hr, schemaErr] at h
  | ok rest' =>
    simp only [hr, Except.ok.injEq] at h
    subst h
    exact hP.flags _ _ _ _ _ _

lemma typeEvery (hP : Everywhere opts P) : TypeCases (TypeEvery opts P) where
  int prim byteorder const := by
    constructor
    · rintro Γ bo op ⟨-, rfl⟩
      exact hP.fixed _ _
    · rintro Γ bo name atom kind ⟨-, rfl, -⟩
      trivial
  float is64 byteorder := by
    constructor
    · rintro Γ bo op rfl
      exact hP.fixed _ _
    · rintro Γ bo name atom kind ⟨rfl, -⟩
      trivial
  bool const := by
    constructor
    · rintro Γ bo op rfl
      exact hP.fixed _ _
    · rintro Γ bo name atom kind ⟨rfl, -⟩
      trivial
  raw len const := by
    constructor
    · rintro Γ bo op ⟨n, -, rfl⟩
      exact hP.fixed _ _
    · rintro Γ bo name atom kind ⟨n, -, rfl, -⟩
      trivial
  bytes len max := by
    constructor
    · rintro Γ bo op ⟨len', hl, rfl⟩
      exact hP.bytes _ _ _ _ _ hl
    · rintro Γ bo name atom kind ⟨n, len', -, hl, rfl, -⟩
      exact hP.bytes _ _ _ _ _ hl
  str len max encoding errors := by
    constructor
    · rintro Γ bo op ⟨len', enc, hl, -, rfl⟩
      exact hP.str _ _ _ _ _ _ hl
    · rintro Γ bo name atom kind ⟨n, len', enc, -, hl, -, rfl, -⟩
      exact hP.str _ _ _ _ _ _ hl
  cstr max encoding errors := by
    constructor
    · rintro Γ bo op ⟨enc, -, rfl⟩
      exact hP.cstr _ _ _
    · rintro Γ bo name atom kind ⟨n, enc, -, -, rfl, -⟩
      exact hP.cstr _ _ _
  bits width signed := by
    constructor
    · rintro Γ bo op h
      exact h.elim
    · rintro Γ bo name atom kind ⟨-, -, rfl, -⟩
      trivial
  flags base byteorder names rest := by
    constructor
    · rintro Γ bo op h
      exact flags_every hP h
    · rintro Γ bo name atom kind ⟨n, op, -, h, rfl, -⟩
      exact flags_every hP h
  digest algo overrides overs verify := by
    constructor
    · rintro Γ bo op h
      exact h.elim
    · rintro Γ bo name atom kind ⟨n, algo', -, halgo, -, rfl, -⟩
      intro overs' c
      exact hP.digest _ _ _ _ _ _ _ halgo
  struct fields byteorder size hfs := by
    constructor
    · rintro Γ bo op ⟨size', full, atoms, prog, hs, hf, ha, rfl⟩
      exact ⟨hP.nest _ _ _ _ _ hs ha.minSize ha.staticSize, ha.every hP (LowersFields.every hfs hf)⟩
    · rintro Γ bo name atom kind ⟨n, size', full, atoms, prog, -, hs, hf, ha, -, rfl, -⟩
      exact ⟨hP.nest _ _ _ _ _ hs ha.minSize ha.staticSize, ha.every hP (LowersFields.every hfs hf)⟩
  array elem count untilEof he := by
    constructor
    · rintro Γ bo op ⟨count', elem', hc, hl, rfl⟩
      exact ⟨hP.array _ _ _ _ _ _ hc, he.elem _ _ _ hl⟩
    · rintro Γ bo name atom kind ⟨n, count', elem', -, hc, hl, rfl, -⟩
      exact ⟨hP.array _ _ _ _ _ _ hc, he.elem _ _ _ hl⟩
  switch on cases default hcs hd := by
    constructor
    · rintro Γ bo op ⟨on', cases', default', -, hc, hdef, rfl⟩
      exact ⟨hP.switch _ _ _ _, LowersCases.every hcs hc, LowersDefault.every hd hdef⟩
    · rintro Γ bo name atom kind ⟨n, on', cases', default', -, -, hc, hdef, rfl, -⟩
      exact ⟨hP.switch _ _ _ _, LowersCases.every hcs hc, LowersDefault.every hd hdef⟩
  cond pred thn ht := by
    constructor
    · rintro Γ bo op h
      exact h.elim
    · rintro Γ bo name atom kind ⟨n, pred', thn', -, -, hthn, rfl, -⟩
      exact ht.elem _ _ _ hthn

end Every

/-- What holds of each op the lowering builds holds of every op of a compiled program. -/
theorem compile_every {fields : List FieldIn} {opts : Options} {prog : Program} {P : Op → Prop}
    (hP : Everywhere opts P) (h : compile fields opts = .ok prog) : prog.Every P := by
  obtain ⟨full, atoms, hf, ha⟩ := (compile_lowers h).1
  exact ha.every hP (LowersFields.every (fun f _ => (typeEvery hP).type f.ty) hf)

end Rustruct

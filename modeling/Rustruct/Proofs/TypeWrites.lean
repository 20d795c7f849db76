import Rustruct.Proofs.FlagWrites
import Rustruct.Proofs.FieldWrites

/-!
# What comes back

What a schema and a value must be, for what pack writes to be read as a value that is packed the same.
-/

namespace Rustruct

section Conditions

variable {H : Hashes} {Γ : Env} {full : List Sym} {key : Key} {kind : SymKind} {asked : Option (OverIn × Bool)}
  {can can' : Nat → Bool → Prop}

lemma Returns.mono {sem : PSem} {read : Bytes → Seen → Nat → Nat → Option Part} {suits suits' : Value → Prop}
    (h : Returns H Γ sem read can suits) (hcan : ∀ n last, can' n last → can n last)
    (hsuits : ∀ v, suits' v → suits v) :
    Returns H Γ sem read can' suits' := by
  intro ctx v next hs hpack
  obtain ⟨hwrites, hback⟩ := h ctx v next hs hpack
  exact ⟨hwrites, fun buf last seen limit hf hc hv => hback buf last seen limit hf (hcan _ _ hc) (hsuits v hv)⟩

lemma FieldReturns.mono {task : Task} {read : Bytes → Seen → Nat → Nat → Option Part}
    {suits suits' : Option Value → Prop} (h : FieldReturns H Γ full key kind asked read can suits task)
    (hcan : ∀ n last, can' n last → can n last) (hsuits : ∀ v, suits' v → suits v) :
    FieldReturns H Γ full key kind asked read can' suits' task := by
  intro p room view next f fs hframes hs hstart hfresh hpack
  obtain ⟨g, gs, ds, hnext, hmoves, hback⟩ := h p room view next f fs hframes hs hstart hfresh hpack
  exact ⟨g, gs, ds, hnext, hmoves, fun buf last seen limit hf hc hv => hback buf last seen limit hf (hcan _ _ hc)
    (hsuits _ hv)⟩

lemma Returns.congr {sem : PSem} {read read' : Bytes → Seen → Nat → Nat → Option Part} {suits : Value → Prop}
    (h : Returns H Γ sem read can suits)
    (hread : ∀ buf seen limit pos, read' buf seen limit (8 * pos) = read buf seen limit (8 * pos)) :
    Returns H Γ sem read' can suits := by
  intro ctx v next hs hpack
  obtain ⟨hwrites, hback⟩ := h ctx v next hs hpack
  refine ⟨hwrites, fun buf last seen limit hf hc hv => ?_⟩
  rw [hread]
  exact hback buf last seen limit hf hc hv

end Conditions

/-- Values and fields of the type come back. -/
structure TypeWrites (opts : Options) (H : Hashes) (ty : TypeIn) : Prop where
  elem : ∀ {Γ bo op}, Γ.length + opDepth op ≤ maxDepth → op.Every Op.sized → op.Every Op.Roomy →
    LowersElem opts ty Γ bo op →
    Returns H Γ (packValue H op) (fun buf seen limit bit => ty.read opts buf bo seen limit bit) (ty.Faithful opts)
      (ty.Suits opts)
  field : ∀ {Γ bo name atom kind full task},
    (∀ op, task.piece = .op op → Γ.length + opDepth op ≤ maxDepth ∧ op.Every Op.sized ∧ op.Every Op.Roomy) →
    LowersField opts ty Γ bo name atom kind → Realizes full atom task.piece → ScopeNumbers full (keyOf name) kind →
    FieldReturns H Γ full (keyOf name) kind ty.asked (fun buf seen limit bit => ty.read opts buf bo seen limit bit)
      (ty.Faithful opts)
      (ty.SuitsField opts (regOf full (keyOf name)).isSome) task

section Types

variable {opts : Options} {H : Hashes}

lemma markDerived_given (k : FixKind) (v : Option Value) : k.markDerived.given v = k.given v := by
  cases k with
  | int prim be expected derived => cases expected <;> rfl
  | f32 | f64 | bool | raw => rfl

lemma typeWrites_fixed {ty : TypeIn}
    (helem : ∀ {Γ bo op}, LowersElem opts ty Γ bo op → ∃ k, op = fixed1 k ∧ k.reserved = false ∧
      (∀ n last, ty.Faithful opts n last → k.narrows = false) ∧
      ∀ buf seen limit bit, ty.read opts buf bo seen limit bit = fixedRead buf k limit bit)
    (hfield : ∀ {Γ bo name atom kind}, LowersField opts ty Γ bo name atom kind → ∃ k, atom = .fixed k (keyOf name) ∧
      k.isInt = kind.refable ∧ (∀ v, ty.given v = k.given v) ∧ (∀ n last, ty.Faithful opts n last → k.narrows = false) ∧
      ∀ buf seen limit bit, ty.read opts buf bo seen limit bit = fixedRead buf k limit bit) :
    TypeWrites opts H ty := by
  constructor
  · intro Γ bo op _ _ hroomy hop
    obtain ⟨k, rfl, hreserved, hcan, hread⟩ := helem hop
    simp only [hread]
    rw [fixed1, packValue]
    exact returns_fixed hreserved hcan hroomy.here.1
  · intro Γ bo name atom kind full task _ hlow hr hn
    obtain ⟨k, rfl, hint, hgiven, hcan, hread⟩ := hfield hlow
    simp only [hread]
    have hp : task.piece = .fixed (if derivedOf full (keyOf name) then k.markDerived else k) (regOf full (keyOf name))
      (spanOf full (keyOf name)) (keyOf name) := hr
    by_cases hd : derivedOf full (keyOf name) = true
    · rw [if_pos hd] at hp
      have hnarrows : k.markDerived.narrows = k.narrows := by cases k <;> rfl
      have hisInt : k.markDerived.isInt = k.isInt := by cases k <;> rfl
      have hback : FieldReturns H Γ full (keyOf name) kind ty.asked
        (fun buf _ limit bit => fixedRead buf k.markDerived limit bit)
          (ty.Faithful opts) (fun v => (regOf full (keyOf name)).isSome → ∀ i ∈ k.markDerived.given v, InI64 i) task :=
        field_fixed hp hn (fun n last hf => hnarrows ▸ hcan n last hf) (hisInt.trans hint)
      simp only [fixedRead_markDerived, markDerived_given] at hback
      exact hback.mono (fun _ _ h => h) fun v hv hsome => by rw [← hgiven]; exact hv.1 hsome
    · rw [if_neg hd] at hp
      exact (field_fixed hp hn hcan hint).mono (fun _ _ h => h) fun v hv hsome => by rw [← hgiven]; exact hv.1 hsome

lemma typeWrites_int (prim : IntPrim) (byteorder : Option ByteOrder) (const : Option Int) :
    TypeWrites opts H (.int prim byteorder const) := by
  have hread : ∀ bo buf seen limit bit, (TypeIn.int prim byteorder const).read opts buf bo seen limit bit =
      fixedRead buf (.int prim (orderOf byteorder bo) const false) limit bit := by
    intro bo buf seen limit bit
    rw [TypeIn.read]
    rfl
  apply typeWrites_fixed
  · rintro Γ bo op ⟨-, rfl⟩
    refine ⟨_, rfl, ?_, fun _ _ _ => rfl, hread bo⟩
    cases const <;> rfl
  · rintro Γ bo name atom kind ⟨-, rfl, rfl⟩
    refine ⟨_, rfl, rfl, fun v => ?_, fun _ _ _ => rfl, hread bo⟩
    cases const <;> rfl

lemma typeWrites_float (is64 : Bool) (byteorder : Option ByteOrder) : TypeWrites opts H (.float is64 byteorder) := by
  have hread : ∀ bo buf seen limit bit, (TypeIn.float is64 byteorder).read opts buf bo seen limit bit =
      fixedRead buf (if is64 then .f64 (orderOf byteorder bo) else .f32 (orderOf byteorder bo)) limit bit := by
    intro bo buf seen limit bit
    rw [TypeIn.read]
    cases is64 <;> rfl
  have hcan : ∀ be n last, (TypeIn.float is64 byteorder).Faithful opts n last →
      FixKind.narrows (if is64 then .f64 be else .f32 be) = false := by
    intro be n last h
    rw [TypeIn.Faithful] at h
    rw [if_pos h]
    rfl
  apply typeWrites_fixed
  · intro Γ bo op hop
    refine ⟨_, hop, ?_, hcan _, hread bo⟩
    cases is64 <;> rfl
  · rintro Γ bo name atom kind ⟨rfl, rfl⟩
    refine ⟨_, rfl, ?_, fun v => ?_, hcan _, hread bo⟩
    · cases is64 <;> rfl
    · cases is64 <;> rfl

lemma typeWrites_bool (const : Option Bool) : TypeWrites opts H (.bool const) := by
  have hread : ∀ bo buf seen limit bit, (TypeIn.bool const).read opts buf bo seen limit bit =
      fixedRead buf (.bool const) limit bit := by
    intro bo buf seen limit bit
    rw [TypeIn.read]
    rfl
  apply typeWrites_fixed
  · intro Γ bo op hop
    exact ⟨_, hop, rfl, fun _ _ _ => rfl, hread bo⟩
  · rintro Γ bo name atom kind ⟨rfl, rfl⟩
    exact ⟨_, rfl, rfl, fun _ => rfl, fun _ _ _ => rfl, hread bo⟩

lemma typeWrites_raw (len : Option Nat) (const : Option Bytes) : TypeWrites opts H (.raw len const) := by
  have hread : ∀ (mismatch : Nat → Nat → String) (n : Nat), rawLen len const mismatch = .ok n → ∀ bo buf seen limit bit,
      (TypeIn.raw len const).read opts buf bo seen limit bit = fixedRead buf (.raw n const) limit bit := by
    intro mismatch n hn bo buf seen limit bit
    rw [TypeIn.read, rawLen_eq hn]
    rfl
  apply typeWrites_fixed
  · rintro Γ bo op ⟨n, hn, rfl⟩
    exact ⟨_, rfl, rfl, fun _ _ _ => rfl, hread _ n hn bo⟩
  · rintro Γ bo name atom kind ⟨n, hn, rfl, rfl⟩
    exact ⟨_, rfl, rfl, fun _ => rfl, fun _ _ _ => rfl, hread _ n hn bo⟩

lemma typeWrites_bits (width : Nat) (signed : Bool) : TypeWrites opts H (.bits width signed) := by
  constructor
  · intro Γ bo op _ _ _ hop
    exact hop.elim
  · rintro Γ bo name atom kind full task - ⟨hpos, hle, rfl, rfl⟩ hr hn
    have hread : ∀ buf seen limit bit, (TypeIn.bits width signed).read opts buf bo seen limit bit =
        bitsPart width signed buf limit bit := by
      intro buf seen limit bit
      rw [TypeIn.read]
      rfl
    simp only [hread]
    exact (field_bit hr hn rfl hpos hle).mono (fun _ _ h => h) fun v hv => hv.1

lemma every_bare {P : Op → Prop} (hP : ∀ op c, P (op.withCommon c) → P op) {op : Op} {c : Common → Common}
    (h : (op.withCommon c).Every P) : op.Every P := by
  cases op with
  | nest | array | switch | cond => exact ⟨hP _ _ h.1, h.2⟩
  | fixed | bitRun | bytes | str | cstr | flags | digest => exact hP _ _ h

lemma roomy_bare (op : Op) (c : Common → Common) (h : (op.withCommon c).Roomy) : op.Roomy := by
  cases op with
  | array count => cases count <;> exact h
  | _ => exact h

/-- A dynamic field has the value of its type in a value position. -/
lemma typeWrites_value {ty : TypeIn}
    (helem : ∀ {Γ bo op}, Γ.length + opDepth op ≤ maxDepth → op.Every Op.sized → op.Every Op.Roomy →
      LowersElem opts ty Γ bo op →
      Returns H Γ (packValue H op) (fun buf seen limit bit => ty.read opts buf bo seen limit bit) (ty.Faithful opts)
        (ty.Suits opts))
    (hfield : ∀ {Γ bo name atom kind}, LowersField opts ty Γ bo name atom kind → ∃ n op, name = some n ∧
      LowersElem opts ty Γ bo op ∧ atom = .op op n ∧ kind.refable = false ∧ op.isValue) : TypeWrites opts H ty := by
  refine ⟨helem, ?_⟩
  intro Γ bo name atom kind full task hop hlow hr hn
  obtain ⟨n, op, rfl, helem', rfl, href, hval⟩ := hfield hlow
  have hp : task.piece = .op (op.withCommon fun _ => { key := .named n, span := spanOf full (.named n) }) := hr
  obtain ⟨hdepth, hsized, hroomy⟩ := hop _ hp
  rw [opDepth_withCommon] at hdepth
  have hsized' := every_bare (fun op c h => by cases op <;> exact h) hsized
  have hroomy' := every_bare roomy_bare hroomy
  cases task with
  | fixed | bit => cases hp
  | op o =>
    obtain rfl := Piece.op.inj hp
    have hpack : ∀ view, packOp H (op.withCommon fun _ => { key := .named n, span := spanOf full (.named n) }) view =
        packField { key := .named n, span := spanOf full (.named n) } (packValue H op) view := by
      intro view
      cases op with
      | fixed | bitRun | digest | cond => cases hval
      | bytes | str | cstr | flags | nest | array | switch => rw [Op.withCommon, packOp, packValue]
    exact (field_value hpack hn href (helem hdepth hsized' hroomy' helem')).mono (fun _ _ h => h) fun v hv => hv.2

lemma typeWrites_bytes (len : ExprIn) (max : Option Nat) : TypeWrites opts H (.bytes len max) := by
  apply typeWrites_value
  · rintro Γ bo op - - - ⟨len', hlow, rfl⟩
    simp only [TypeIn.read]
    rw [packValue]
    exact (returns_bytes hlow _).mono (fun n last h => by rwa [TypeIn.Faithful] at h) fun _ h => h
  · rintro Γ bo name atom kind ⟨n, len', rfl, hlow, rfl, rfl⟩
    exact ⟨n, _, rfl, ⟨len', hlow, rfl⟩, rfl, rfl, rfl⟩

lemma typeWrites_str (len : ExprIn) (max : Option Nat) (encoding errors : String) :
    TypeWrites opts H (.str len max encoding errors) := by
  apply typeWrites_value
  · rintro Γ bo op - - - ⟨len', enc, hlow, henc, rfl⟩
    simp only [TypeIn.read, henc]
    rw [packValue]
    exact (returns_str hlow _ enc).mono (fun n last h => by rwa [TypeIn.Faithful] at h) fun _ h => h
  · rintro Γ bo name atom kind ⟨n, len', enc, rfl, hlow, henc, rfl, rfl⟩
    exact ⟨n, _, rfl, ⟨len', enc, hlow, henc, rfl⟩, rfl, rfl, rfl⟩

lemma typeWrites_cstr (max : Option Nat) (encoding errors : String) :
    TypeWrites opts H (.cstr max encoding errors) := by
  apply typeWrites_value
  · rintro Γ bo op - - - ⟨enc, henc, rfl⟩
    simp only [TypeIn.read, henc]
    rw [packValue]
    exact returns_cstr _ enc
  · rintro Γ bo name atom kind ⟨n, enc, rfl, henc, rfl, rfl⟩
    exact ⟨n, _, rfl, ⟨enc, henc, rfl⟩, rfl, rfl, rfl⟩

lemma typeWrites_flags (base : IntPrim) (byteorder : Option ByteOrder) (names : List (String × U64)) (rest : String) :
    TypeWrites opts H (.flags base byteorder names rest) := by
  apply typeWrites_value
  · intro Γ bo op _ _ _ hop
    obtain ⟨policy, hpolicy, hreturns⟩ :=
      returns_flags (H := H) (Γ := Γ) ((TypeIn.flags base byteorder names rest).Suits opts) hop
    simp only [TypeIn.read, hpolicy]
    exact hreturns.mono (fun n last h => by rwa [TypeIn.Faithful] at h) fun _ h => h
  · rintro Γ bo name atom kind ⟨n, op, rfl, hop, rfl, rfl⟩
    exact ⟨n, op, rfl, hop, rfl, rfl, compileFlags_isValue hop⟩

/-- The ops of a program that fits take at least their least sizes. -/
lemma every_mono {P Q : Op → Prop} (hPQ : ∀ op, P op → Q op) :
    OpCases (fun op => op.Every P → op.Every Q) (fun prog => prog.Every P → prog.Every Q) where
  fixed _ _ := hPQ _
  bytes _ _ _ := hPQ _
  str _ _ _ _ := hPQ _
  cstr _ _ _ := hPQ _
  bitRun _ _ := hPQ _
  flags _ _ _ _ _ _ := hPQ _
  digest _ _ _ _ _ := hPQ _
  nest _ _ _ hp h := ⟨hPQ _ h.1, hp h.2⟩
  array _ _ _ _ _ he h := ⟨hPQ _ h.1, he h.2⟩
  switch _ _ _ _ hc hd h := by
    refine ⟨hPQ _ h.1, casesEvery_iff.mpr fun branch hb => ?_, defaultEvery_iff.mpr fun op ho => ?_⟩
    · exact hc branch hb (casesEvery_iff.mp h.2.1 branch hb)
    · exact hd op ho (defaultEvery_iff.mp h.2.2 op ho)
  cond _ _ _ ht h := ⟨hPQ _ h.1, ht h.2⟩
  prog _ _ _ _ _ ho h := opsEvery_iff.mpr fun op hm => ho op hm (opsEvery_iff.mp h op hm)

/-- Elements that go on to the end of their region take some bytes. -/
lemma solid_of_roomy {maxCount elemMin : Nat} {elem : Op} {c : Common}
    (hsized : (Op.array .untilEof maxCount elem elemMin c).Every Op.sized)
    (hroomy : (Op.array .untilEof maxCount elem elemMin c).Every Op.Roomy) : Solid (packValue H elem) := by
  intro ctx v next hsmall h
  obtain rfl : elemMin = opMin elem := hsized.1
  have hpos : 0 < opMin elem := hroomy.1
  have hfit : (PSite.value elem v ctx).Every Op.sizeFits := (every_mono fun _ h => h.sizeFits).op elem hroomy.2
  have hadds := (adds_cases.op elem).1 hsized.2 v ctx next hsmall (grows_of_sizeFits hfit hsmall) h
  have := hadds.1.least_le
  omega

lemma typeWrites_array (elem : TypeIn) (count : Option ExprIn) (untilEof : Bool) (he : TypeWrites opts H elem) :
    TypeWrites opts H (.array elem count untilEof) := by
  apply typeWrites_value
  · rintro Γ bo op hdepth hsized hroomy ⟨count', elem', hcount, helem, rfl⟩
    rw [opDepth] at hdepth
    simp only [TypeIn.read]
    rw [packValue]
    have hsolid : count' = .untilEof → Solid (packValue H elem') := by
      rintro rfl
      exact solid_of_roomy hsized hroomy
    refine (returns_array hcount (he.elem hdepth hsized.2 hroomy.2 helem) hsolid opts.maxCount).mono ?_ ?_
    · intro n last h
      rwa [TypeIn.Faithful] at h
    · intro v h
      rwa [TypeIn.Suits] at h
  · rintro Γ bo name atom kind ⟨n, count', elem', rfl, hcount, helem, rfl, rfl⟩
    exact ⟨n, _, rfl, ⟨count', elem', hcount, helem, rfl⟩, rfl, rfl, rfl⟩

/-- The first case of a tag. -/
lemma LowersCases.writes {cases : List (Int × TypeIn)} (hcs : ∀ branch ∈ cases, TypeWrites opts H branch.2) {Γ : Env}
    {bo : ByteOrder} {cases' : List (Int × Op)} (h : LowersCases opts cases Γ bo cases')
    (hdepth : Γ.length + casesDepth cases' ≤ maxDepth) (hsized : casesEvery Op.sized cases')
    (hroomy : casesEvery Op.Roomy cases') (tag : Int) :
    (∃ sem ty, packCase H cases' tag = some sem ∧
        (∀ buf seen limit bit, casesRead opts buf cases bo seen limit bit tag =
          some (ty.read opts buf bo seen limit bit)) ∧
        Returns H Γ sem (fun buf seen limit bit => TypeIn.read opts buf ty bo seen limit bit)
          (fun size last => casesFaithful opts size cases last) (casesSuit opts cases)) ∨
      packCase H cases' tag = none ∧ ∀ buf seen limit bit, casesRead opts buf cases bo seen limit bit tag = none := by
  induction cases generalizing cases' with
  | nil =>
    obtain rfl := h
    exact .inr ⟨by rw [packCase], fun _ _ _ _ => by rw [casesRead]⟩
  | cons branch cases ih =>
    obtain ⟨t, ty⟩ := branch
    obtain ⟨op, rest, hop, hrest, rfl⟩ := h
    rw [casesDepth] at hdepth
    simp only [packCase, casesRead]
    by_cases ht : t = tag
    · simp only [if_pos ht]
      refine .inl ⟨_, ty, rfl, fun _ _ _ _ => rfl, ?_⟩
      refine ((hcs (t, ty) List.mem_cons_self).elem (by omega) hsized.1 hroomy.1 hop).mono (fun n last h => ?_)
        fun v h => ?_
      · rw [casesFaithful] at h
        exact h.1
      · rw [casesSuit] at h
        exact h.1
    · simp only [if_neg ht]
      rcases ih (fun b hb => hcs b (List.mem_cons_of_mem _ hb)) hrest (by omega) hsized.2 hroomy.2 with
        ⟨sem, ty', hsem, hread, hret⟩ | hno
      · refine .inl ⟨sem, ty', hsem, hread, hret.mono (fun n last h => ?_) fun v h => ?_⟩
        · rw [casesFaithful] at h
          exact h.2
        · rw [casesSuit] at h
          exact h.2
      · exact .inr hno

lemma typeWrites_switch (on : ExprIn) (cases : List (Int × TypeIn)) (default : Option TypeIn)
    (hcs : ∀ branch ∈ cases, TypeWrites opts H branch.2) (hd : ∀ ty ∈ default, TypeWrites opts H ty) :
    TypeWrites opts H (.switch on cases default) := by
  apply typeWrites_value
  · rintro Γ bo op hdepth hsized hroomy ⟨on', cases', default', hon, hcases, hdefault, rfl⟩
    rw [opDepth] at hdepth
    simp only [TypeIn.read]
    rw [packValue]
    refine returns_switch hon fun tag sem hsem => ?_
    rcases hcases.writes hcs (by omega) hsized.2.1 hroomy.2.1 tag with ⟨sem', ty, hsem', hread, hret⟩ | ⟨hnone, hread⟩
    · rw [hsem'] at hsem
      obtain rfl := Option.some.inj hsem
      simp only [hread, Option.getD_some]
      refine hret.mono (fun n last h => ?_) fun v h => ?_
      · rw [TypeIn.Faithful] at h
        exact h.1
      · rw [TypeIn.Suits] at h
        exact h.1
    · rw [hnone, Option.none_or] at hsem
      simp only [hread, Option.getD_none]
      cases default with
      | none =>
        obtain rfl : default' = none := hdefault
        rw [packDefault] at hsem
        cases hsem
      | some ty =>
        obtain ⟨op, hop, rfl⟩ := hdefault
        rw [defaultDepth] at hdepth
        rw [packDefault] at hsem
        obtain rfl := Option.some.inj hsem
        simp only [defaultRead]
        refine ((hd ty rfl).elem (by omega) hsized.2.2 hroomy.2.2 hop).mono (fun n last h => ?_) fun v h => ?_
        · rw [TypeIn.Faithful] at h
          exact h.2
        · rw [TypeIn.Suits] at h
          exact h.2
  · rintro Γ bo name atom kind ⟨n, on', cases', default', rfl, hon, hcases, hdefault, rfl, rfl⟩
    exact ⟨n, _, rfl, ⟨on', cases', default', hon, hcases, hdefault, rfl⟩, rfl, rfl, rfl⟩

lemma typeWrites_cond (pred : ExprIn) (thn : TypeIn) (ht : TypeWrites opts H thn) :
    TypeWrites opts H (.cond pred thn) := by
  constructor
  · intro Γ bo op _ _ _ hop
    exact hop.elim
  · rintro Γ bo name atom kind full task hop ⟨n, pred', thn', rfl, hpred, hthn, rfl, rfl⟩ hr hn
    have hp : task.piece = .op (.cond pred' thn' { key := .named n, span := spanOf full (.named n) }) := hr
    obtain ⟨hdepth, hsized, hroomy⟩ := hop _ hp
    rw [opDepth] at hdepth
    cases task with
    | fixed | bit => cases hp
    | op o =>
      obtain rfl := Piece.op.inj hp
      simp only [TypeIn.read]
      refine (field_cond hpred hn rfl (ht.elem hdepth hsized.2 hroomy.2 hthn)).mono (fun size last h => ?_)
        fun v h x hx => ?_
      · rwa [TypeIn.Faithful] at h
      · have hsuits := h.2 x hx
        rwa [TypeIn.Suits] at hsuits

/-- A digest is not over itself. -/
lemma checkOver_self {name : String} {names seen : List String} (h : checkOver name names seen = .ok ()) :
    name ∉ names := by
  induction names generalizing seen with
  | nil => exact List.not_mem_nil
  | cons n names ih =>
    rw [checkOver] at h
    split_ifs at h with _ hne
    · cases h
    · cases h
    · rw [List.mem_cons, not_or]
      exact ⟨fun he => hne he.symm, ih h⟩

lemma checkOverIn_self {name : String} {overs : OverIn} (h : checkOverIn name overs = .ok ()) {names : List String}
    (hnames : overs = .names names) : name ∉ names := by
  subst hnames
  cases names with
  | nil => cases h
  | cons n names => exact checkOver_self h

lemma parseAlgo_whole {name : String} {ov : CrcOverrides} {algo : Algo} (h : parseAlgo name ov = .ok algo) :
    algo.Whole := by
  have hall : ∀ entry ∈ algos.names, entry.2.Whole := by simp [algos, crc, Algo.Whole]
  have hpreset : ∀ preset, Algo.preset name = some preset → preset.Whole := by
    intro preset hp
    unfold Algo.preset ClosedSet.parse at hp
    split at hp
    · rename_i value hv
      obtain rfl := Option.some.inj hp
      have hhit : algos.hit name algos.names = some value := by
        simpa [ClosedSet.hit, algos] using hv
      obtain ⟨entry, he, rfl⟩ := Option.map_eq_some_iff.mp hhit
      exact hall entry (List.mem_of_find?_eq_some he)
    · cases hp
  unfold parseAlgo at h
  split at h
  · cases h
  · rename_i spec hspec
    cases h
    have hwhole : spec.width = 8 * (spec.width / 8) ∧ spec.width ≤ 64 := hpreset _ hspec
    exact hwhole
  · rename_i other hother
    split_ifs at h
    · cases h
    · cases h
      exact hpreset _ hother

lemma typeWrites_digest (algo : String) (overrides : CrcOverrides) (overs : OverIn) (verify : Bool) :
    TypeWrites opts H (.digest algo overrides overs verify) := by
  constructor
  · intro Γ bo op _ _ _ hop
    exact hop.elim
  · rintro Γ bo name atom kind full task hop ⟨n, algo', rfl, halgo, hself, rfl, rfl⟩ ⟨overs', hover, hr⟩ hn
    cases task with
    | fixed | bit => cases hr
    | op o =>
      obtain rfl := Piece.op.inj hr
      have hread : ∀ buf seen limit bit, (TypeIn.digest algo overrides overs verify).read opts buf bo seen limit bit =
          (byteOf bit).bind fun pos => (bytesIn buf limit pos algo'.widthBytes).bind fun raw =>
            let u := readUint raw bo.isBig
            let stop := pos + algo'.widthBytes
            let read := if algo'.isInt then DigestVal.int (BitVec.ofNat 64 u) else DigestVal.bytes raw
            some { value := some (if algo'.isInt then .int u else .bytes raw), bit := 8 * stop,
                   digest := some { algo := algo', overs, verify, read, start := pos, stop }, facts := .none } := by
        intro buf seen limit bit
        rw [TypeIn.read, halgo]
        rfl
      simp only [hread]
      refine field_digest verify bo.isBig (parseAlgo_width halgo) hover (fun names => checkOverIn_self hself)
        (parseAlgo_whole halgo) ?_ hn rfl
      rintro size last hsize hstar hverify rfl
      rw [TypeIn.Faithful] at hsize
      exact hsize hstar hverify halgo

end Types

end Rustruct

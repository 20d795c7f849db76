import Rustruct.Proofs.Lowered
import Mathlib.Data.List.Chain

/-!
# Runs are maximal

No two runs of one kind follow each other in a compiled program: a field joins the run it follows. A patch of
an op leaves it the kind of op it is.
-/

namespace Rustruct

inductive RunKind where
  | fixed
  | bits
  deriving DecidableEq

def Op.runKind : Op → Option RunKind
  | .fixed .. => some .fixed
  | .bitRun .. => some .bits
  | _ => none

/-- Two ops in a row are not runs of one kind. -/
def Apart (ops : List Op) : Prop := (ops.map Op.runKind).IsChain fun a b => a = none ∨ a ≠ b

/-- The runs of a nested program are apart. -/
def Op.apart : Op → Prop
  | .nest prog _ _ => Apart prog.ops
  | _ => True

/-- The runs are apart, here and in all nested programs. -/
structure Tidy (ops : List Op) : Prop where
  apart : Apart ops
  every : ∀ op ∈ ops, op.Every Op.apart

lemma tidy_nil : Tidy [] := ⟨.nil, fun _ h => (List.not_mem_nil h).elim⟩

section Patches

/-- A patch keeps the kind of the op, and what is nested in it. -/
def KeepsKind (f : Op → SRes Op) : Prop :=
  ∀ op op', f op = .ok op' → op'.runKind = op.runKind ∧ (op.Every Op.apart → op'.Every Op.apart)

lemma every_withCommon (f : Common → Common) {op : Op} (h : op.Every Op.apart) :
    (op.withCommon f).Every Op.apart := by
  cases op <;> exact h

lemma keepsKind_withCommon (f : Common → Common) : KeepsKind fun op => .ok (op.withCommon f) := by
  intro op op' h
  cases h
  refine ⟨?_, every_withCommon f⟩
  cases op <;> rfl

lemma keepsKind_setOver (overs : Over) : KeepsKind fun op => .ok (op.setOver overs) := by
  intro op op' h
  cases h
  cases op <;> exact ⟨rfl, id⟩

lemma keepsKind_updateFixed (item : Nat) (f : FixedItem → FixedItem) : KeepsKind (Op.updateFixed item f) := by
  intro op op' h
  cases op with
  | fixed width items =>
    obtain ⟨items', -, h⟩ := Exec.bind_eq_ok.mp h
    cases h
    exact ⟨rfl, id⟩
  | _ =>
    cases h
    exact ⟨rfl, id⟩

lemma keepsKind_updateBit (item : Nat) (f : BitItem → BitItem) : KeepsKind (Op.updateBit item f) := by
  intro op op' h
  cases op with
  | bitRun nbytes items =>
    obtain ⟨items', -, h⟩ := Exec.bind_eq_ok.mp h
    cases h
    exact ⟨rfl, id⟩
  | _ =>
    cases h
    exact ⟨rfl, id⟩

variable {ops ops' : List Op}

lemma Tidy.updateOp {i : Nat} {f : Op → SRes Op} (hf : KeepsKind f) (h : Tidy ops)
    (hup : updateOp ops i f = .ok ops') : Tidy ops' := by
  obtain ⟨pre, op, op', post, rfl, -, hop, rfl⟩ := updateOp_eq_ok hup
  obtain ⟨hrun, hevery⟩ := hf op op' hop
  constructor
  · have hmap : (pre ++ op' :: post).map Op.runKind = (pre ++ op :: post).map Op.runKind := by simp [hrun]
    rw [Apart, hmap]
    exact h.apart
  · intro o ho
    rcases List.mem_append.mp ho with ho | ho
    · exact h.every o (List.mem_append_left _ ho)
    · rcases List.mem_cons.mp ho with rfl | ho
      · exact hevery (h.every op (by simp))
      · exact h.every o (by simp [ho])

lemma Tidy.patchReg {loc : Loc} {idx : Nat} (h : Tidy ops) (hp : patchReg ops loc idx = .ok ops') : Tidy ops' := by
  cases loc with
  | fix op item => exact h.updateOp (keepsKind_updateFixed item _) hp
  | bit op item => exact h.updateOp (keepsKind_updateBit item _) hp
  | op op => cases hp

lemma Tidy.patchDerived {loc : Loc} (h : Tidy ops) (hp : patchDerived ops loc = .ok ops') : Tidy ops' := by
  cases loc with
  | fix op item => exact h.updateOp (keepsKind_updateFixed item _) hp
  | bit op item => exact h.updateOp (keepsKind_updateBit item _) hp
  | op op => cases hp

lemma Tidy.patchSpan {loc : Loc} {idx : Nat} (h : Tidy ops) (hp : patchSpan ops loc idx = .ok ops') : Tidy ops' := by
  cases loc with
  | fix op item => exact h.updateOp (keepsKind_updateFixed item _) hp
  | bit op item => cases hp
  | op op => exact h.updateOp (keepsKind_withCommon _) hp

/-- An op after others, of which the last is not a run of its kind. -/
lemma Tidy.snoc {op : Op} (h : Tidy ops) (hop : op.Every Op.apart)
    (hlast : ∀ last ∈ ops.getLast?, last.runKind = none ∨ last.runKind ≠ op.runKind) : Tidy (ops ++ [op]) := by
  constructor
  · rw [Apart, List.map_append, List.map_singleton, List.isChain_append]
    refine ⟨h.apart, .singleton _, ?_⟩
    intro a ha b hb
    rw [List.getLast?_map] at ha
    obtain ⟨last, hl, rfl⟩ := Option.map_eq_some_iff.mp ha
    obtain rfl : op.runKind = b := by simpa using hb
    exact hlast last hl
  · intro o ho
    rcases List.mem_append.mp ho with ho | ho
    · exact h.every o ho
    · rw [List.mem_singleton.mp ho]
      exact hop

/-- The last op replaced by one of its kind. -/
lemma Tidy.grow {pre : List Op} {op op' : Op} (h : Tidy (pre ++ [op])) (hrun : op'.runKind = op.runKind)
    (hop : op'.Every Op.apart) : Tidy (pre ++ [op']) := by
  constructor
  · have hmap : (pre ++ [op']).map Op.runKind = (pre ++ [op]).map Op.runKind := by simp [hrun]
    rw [Apart, hmap]
    exact h.apart
  · intro o ho
    rcases List.mem_append.mp ho with ho | ho
    · exact h.every o (List.mem_append_left _ ho)
    · rw [List.mem_singleton.mp ho]
      exact hop

lemma Tidy.pushFixedOps (h : Tidy ops) (kind : FixKind) (key : Key) : Tidy (pushFixedOps kind key ops).2 := by
  unfold Rustruct.pushFixedOps
  split
  · rename_i width items hlast
    obtain ⟨pre, rfl⟩ := List.getLast?_eq_some_iff.mp hlast
    rw [List.dropLast_concat]
    exact h.grow rfl trivial
  · rename_i hlast
    refine @Tidy.snoc ops (.fixed kind.width _) h trivial ?_
    intro last hl
    cases last with
    | fixed width items => exact (hlast width items hl).elim
    | bitRun => exact .inr (by simp [Op.runKind])
    | _ => exact .inl rfl

lemma Tidy.pushBitOps (h : Tidy ops) (item : BitItem) : Tidy (pushBitOps item ops).2 := by
  unfold Rustruct.pushBitOps
  split
  · rename_i nbytes items hlast
    obtain ⟨pre, rfl⟩ := List.getLast?_eq_some_iff.mp hlast
    rw [List.dropLast_concat]
    exact h.grow rfl trivial
  · rename_i hlast
    refine @Tidy.snoc ops (.bitRun 0 _) h trivial ?_
    intro last hl
    cases last with
    | bitRun nbytes items => exact (hlast nbytes items hl).elim
    | fixed => exact .inr (by simp [Op.runKind])
    | _ => exact .inl rfl

lemma Tidy.alignBits (h : Tidy ops) (ha : alignBits ops = .ok ops') : Tidy ops' := by
  have key : ops'.map Op.runKind = ops.map Op.runKind ∧ ∀ op ∈ ops', op.Every Op.apart := by
    have hevery := h.every
    clear h
    induction ops generalizing ops' with
    | nil =>
      cases ha
      exact ⟨rfl, hevery⟩
    | cons op ops ih =>
      have hnext {op' : Op} (hrun : op'.runKind = op.runKind) (hop : op'.Every Op.apart)
          (hcons : (do .ok (op' :: (← Rustruct.alignBits ops)) : SRes (List Op)) = .ok ops') :
          ops'.map Op.runKind = (op :: ops).map Op.runKind ∧ ∀ o ∈ ops', o.Every Op.apart := by
        obtain ⟨rest, hrest, hcons⟩ := Exec.bind_eq_ok.mp hcons
        cases hcons
        obtain ⟨hmap, hall⟩ := ih hrest fun o ho => hevery o (List.mem_cons_of_mem _ ho)
        refine ⟨by rw [List.map_cons, List.map_cons, hmap, hrun], fun o ho => ?_⟩
        rcases List.mem_cons.mp ho with rfl | ho
        · exact hop
        · exact hall o ho
      have hhere := hevery op List.mem_cons_self
      cases op with
      | bitRun nbytes items =>
        rw [Rustruct.alignBits] at ha
        split_ifs at ha
        · cases ha
        · exact @hnext (.bitRun (bitTotal items / 8) items) rfl trivial ha
      | _ => exact hnext rfl hhere ha
  exact ⟨by rw [Apart, key.1]; exact h.apart, key.2⟩

end Patches

/-- The step keeps all open scopes tidy, and its result is as `Q` says. -/
def Keeps {α : Type} (Q : α → Prop) (m : C α) : Prop :=
  ∀ S a S', (∀ sc ∈ S, Tidy sc.ops) → m S = .ok (a, S') → (∀ sc ∈ S', Tidy sc.ops) ∧ Q a

section Steps

variable {α β : Type} {Q : α → Prop} {R : β → Prop}

lemma Keeps.bind {m : C α} {f : α → C β} (hm : Keeps Q m) (hf : ∀ a, Q a → Keeps R (f a)) : Keeps R (m >>= f) := by
  intro S b S'' hS h
  obtain ⟨a, S', ha, hb⟩ := C.bind_eq_ok.mp h
  obtain ⟨hS', hQ⟩ := hm S a S' hS ha
  exact hf a hQ S' b S'' hS' hb

lemma keeps_pure {a : α} (ha : Q a) : Keeps Q (pure a : C α) := by
  intro S b S' hS h
  obtain ⟨rfl, rfl⟩ := C.pure_eq_ok.mp h
  exact ⟨hS, ha⟩

lemma keeps_lift {x : SRes α} (hx : ∀ a, x = .ok a → Q a) : Keeps Q (liftM x : C α) := by
  intro S a S' hS h
  obtain ⟨ha, rfl⟩ := C.lift_eq_ok.mp h
  exact ⟨hS, hx a ha⟩

lemma keeps_schemaErr (msg : String) : Keeps Q (fun _ => schemaErr msg : C α) := by
  intro S a S' _ h
  cases h

lemma keeps_panic : Keeps Q (fun _ => Exec.panic : C α) := by
  intro S a S' _ h
  cases h

lemma Keeps.mono {Q' : α → Prop} {m : C α} (h : Keeps Q m) (hQ : ∀ a, Q a → Q' a) : Keeps Q' m := by
  intro S a S' hS hm
  obtain ⟨hS', ha⟩ := h S a S' hS hm
  exact ⟨hS', hQ a ha⟩

lemma keeps_onTop {f : Scope → SRes (α × Scope)}
    (hf : ∀ sc a sc', Tidy sc.ops → f sc = .ok (a, sc') → Tidy sc'.ops ∧ Q a) : Keeps Q (onTop f) := by
  intro S a S' hS h
  cases S with
  | nil => cases h
  | cons sc S =>
    obtain ⟨⟨_, sc'⟩, hsc, h⟩ := Exec.bind_eq_ok.mp h
    cases h
    obtain ⟨htidy, hQ⟩ := hf sc a sc' (hS sc List.mem_cons_self) hsc
    refine ⟨fun s hs => ?_, hQ⟩
    rcases List.mem_cons.mp hs with rfl | hs
    · exact htidy
    · exact hS s (List.mem_cons_of_mem _ hs)

end Steps

/-- Nothing is said of the result. -/
abbrev Any {α : Type} : α → Prop := fun _ => True

lemma keeps_checkName (name : Option String) : Keeps Any (checkName name) := by
  apply keeps_onTop
  intro sc a sc' hsc h
  cases name with
  | none =>
    cases h
    exact ⟨hsc, trivial⟩
  | some n =>
    dsimp only at h
    split_ifs at h
    · cases h
    · cases h
    · cases h
      exact ⟨hsc, trivial⟩

lemma keeps_addSym (name : Option String) (loc : Loc) (refable isFlags isConst spannable : Bool) :
    Keeps Any (addSym name loc refable isFlags isConst spannable) := by
  apply keeps_onTop
  intro sc a sc' hsc h
  cases name with
  | none =>
    cases h
    exact ⟨hsc, trivial⟩
  | some n =>
    cases h
    exact ⟨hsc, trivial⟩

lemma keeps_pushFixed (kind : FixKind) (key : Key) : Keeps Any (pushFixed kind key) := by
  apply keeps_onTop
  intro sc a sc' hsc h
  cases h
  exact ⟨hsc.pushFixedOps kind key, trivial⟩

lemma keeps_pushBit (item : BitItem) : Keeps Any (pushBit item) := by
  apply keeps_onTop
  intro sc a sc' hsc h
  cases h
  exact ⟨hsc.pushBitOps item, trivial⟩

lemma keeps_pushOp {op : Op} (hrun : op.runKind = none) (hop : op.Every Op.apart) : Keeps Any (pushOp op) := by
  apply keeps_onTop
  intro sc a sc' hsc h
  cases h
  exact ⟨hsc.snoc hop fun last _ => by rw [hrun]; exact eq_or_ne _ _, trivial⟩

lemma keeps_addOp {op : Op} (hrun : op.runKind = none) (hop : op.Every Op.apart) (name : String)
    (isFlags spannable : Bool) : Keeps Any (addOp name op isFlags spannable) :=
  (keeps_pushOp hrun hop).bind fun loc _ => keeps_addSym _ loc _ _ _ _

lemma refer_tidy {sc sc' : Scope} {name : String} {pos idx : Nat} {sym : Sym} {ctx : RefCtx} (hsc : Tidy sc.ops)
    (h : sc.refer name pos sym ctx = .ok (idx, sc')) : Tidy sc'.ops := by
  unfold Scope.refer at h
  split_ifs at h
  · cases h
  · obtain ⟨⟨i, sc₁⟩, halloc, h⟩ := Exec.bind_eq_ok.mp h
    cases h
    unfold Scope.allocReg at halloc
    split at halloc
    · cases halloc
      exact hsc
    · split_ifs at halloc
      · cases halloc
      · obtain ⟨ops, hops, halloc⟩ := Exec.bind_eq_ok.mp halloc
        cases halloc
        exact hsc.patchReg hops
  · cases h

lemma keeps_resolveRef (name : String) (ctx : RefCtx) : Keeps Any (resolveRef name ctx) := by
  have key (up : Nat) (S S' : List Scope) (reg : Reg) (hS : ∀ sc ∈ S, Tidy sc.ops)
      (h : resolveIn name ctx up S = .ok (reg, S')) : ∀ sc ∈ S', Tidy sc.ops := by
    induction S generalizing up S' reg with
    | nil => cases h
    | cons sc S ih =>
      rw [resolveIn] at h
      have htail (s : Scope) (hs : s ∈ S) : Tidy s.ops := hS s (List.mem_cons_of_mem _ hs)
      split at h
      · obtain ⟨⟨reg', S₁⟩, hrest, h⟩ := Exec.bind_eq_ok.mp h
        cases h
        intro s hs
        rcases List.mem_cons.mp hs with rfl | hs
        · exact hS s List.mem_cons_self
        · exact ih _ _ _ htail hrest s hs
      · obtain ⟨sym, -, h⟩ := Exec.bind_eq_ok.mp h
        obtain ⟨⟨idx, sc₁⟩, hrefer, h⟩ := Exec.bind_eq_ok.mp h
        cases h
        intro s hs
        rcases List.mem_cons.mp hs with rfl | hs
        · exact refer_tidy (hS sc List.mem_cons_self) hrefer
        · exact htail s hs
  intro S reg S' hS h
  exact ⟨key 0 S S' reg hS h, trivial⟩

lemma keeps_emitInto (ctx : RefCtx) (e : ExprIn) : Keeps Any (emitInto ctx e) := by
  induction e with
  | imm n => exact keeps_pure trivial
  | greedy => exact keeps_schemaErr _
  | ref name => exact (keeps_resolveRef name ctx).bind fun _ _ => keeps_pure trivial
  | bin op l r ihl ihr => exact ihl.bind fun _ _ => ihr.bind fun _ _ => keeps_pure trivial

lemma keeps_emitExpr (ctx : RefCtx) (e : ExprIn) : Keeps Any (emitExpr ctx e) := by
  refine (keeps_emitInto ctx e).bind fun out _ => ?_
  split_ifs
  · exact keeps_schemaErr _
  · exact keeps_pure trivial

lemma keeps_buildLen (e : ExprIn) (what : String) : Keeps Any (buildLen e what) := by
  have hlin (folded : ExprIn) : Keeps Any (buildLin what folded) := by
    unfold buildLin
    split
    · exact keeps_schemaErr _
    · exact keeps_panic
    · split_ifs
      · exact keeps_schemaErr _
      · exact (keeps_resolveRef _ _).bind fun _ _ => (keeps_emitExpr _ _).bind fun _ _ => keeps_pure trivial
  unfold buildLen
  split
  · exact keeps_pure trivial
  · refine (keeps_lift (Q := Any) fun _ _ => trivial).bind fun folded _ => ?_
    split
    · split_ifs
      · exact keeps_schemaErr _
      · exact keeps_pure trivial
    · exact hlin folded

lemma keeps_buildSize (size : Option ExprIn) : Keeps Any (buildSize size) := by
  cases size with
  | none => exact keeps_pure trivial
  | some e =>
    refine (keeps_buildLen e _).bind fun len _ => ?_
    split
    · exact keeps_schemaErr _
    · exact keeps_pure trivial

lemma keeps_buildCount (count : Option ExprIn) (untilEof : Bool) : Keeps Any (buildCount count untilEof) := by
  unfold buildCount
  split
  · exact keeps_schemaErr _
  · exact keeps_schemaErr _
  · exact keeps_pure trivial
  · exact keeps_pure trivial
  · refine (keeps_buildLen _ _).bind fun len _ => ?_
    split
    · exact keeps_pure trivial
    · exact keeps_pure trivial

lemma resolveDerives_tidy {sc sc' : Scope} {syms : List Sym} {pos : Nat} (hsc : Tidy sc.ops)
    (h : resolveDerives sc syms pos = .ok sc') : Tidy sc'.ops := by
  induction syms generalizing sc pos with
  | nil =>
    cases h
    exact hsc
  | cons sym syms ih =>
    rw [resolveDerives] at h
    split_ifs at h
    · obtain ⟨ops, hops, h⟩ := Exec.bind_eq_ok.mp h
      exact ih (hsc.patchDerived hops) h
    · exact ih hsc h

lemma resolveOver_tidy {dname : String} {names : List String} {sc sc' : Scope} {spans : List Nat}
    (hsc : Tidy sc.ops) (h : resolveOver dname names sc = .ok (spans, sc')) : Tidy sc'.ops := by
  induction names generalizing sc spans with
  | nil =>
    cases h
    exact hsc
  | cons n names ih =>
    rw [resolveOver] at h
    split at h
    · cases h
    · obtain ⟨sym, -, h⟩ := Exec.bind_eq_ok.mp h
      split_ifs at h
      · obtain ⟨⟨idx, sc₁⟩, halloc, h⟩ := Exec.bind_eq_ok.mp h
        obtain ⟨⟨rest, sc₂⟩, hrest, h⟩ := Exec.bind_eq_ok.mp h
        cases h
        refine ih ?_ hrest
        unfold Scope.allocSpan at halloc
        split at halloc
        · cases halloc
          exact hsc
        · split_ifs at halloc
          · cases halloc
          · obtain ⟨ops, hops, halloc⟩ := Exec.bind_eq_ok.mp halloc
            cases halloc
            exact hsc.patchSpan hops
      · cases h

lemma resolveDigests_tidy {digests : List (Nat × OverIn × String)} {sc sc' : Scope} (hsc : Tidy sc.ops)
    (h : resolveDigests digests sc = .ok sc') : Tidy sc'.ops := by
  induction digests generalizing sc with
  | nil =>
    cases h
    exact hsc
  | cons digest digests ih =>
    obtain ⟨opIdx, overIn, dname⟩ := digest
    rw [resolveDigests] at h
    obtain ⟨⟨overs, sc₁⟩, hover, h⟩ := Exec.bind_eq_ok.mp h
    obtain ⟨ops, hops, h⟩ := Exec.bind_eq_ok.mp h
    have hsc₁ : Tidy sc₁.ops := by
      cases overIn with
      | star =>
        cases hover
        exact hsc
      | names names =>
        obtain ⟨⟨spans, sc₂⟩, hspans, hover⟩ := Exec.bind_eq_ok.mp hover
        cases hover
        exact resolveOver_tidy hsc hspans
    exact ih (hsc₁.updateOp (keepsKind_setOver overs) hops) h

lemma finishScope_tidy {sc : Scope} {prog : Program} (hsc : Tidy sc.ops) (h : finishScope sc = .ok prog) :
    Tidy prog.ops := by
  unfold finishScope at h
  obtain ⟨ops, hops, h⟩ := Exec.bind_eq_ok.mp h
  obtain ⟨sc₁, hdigests, h⟩ := Exec.bind_eq_ok.mp h
  cases h
  exact resolveDigests_tidy (hsc.alignBits hops) hdigests

lemma keeps_inScope {body : C Unit} (hbody : Keeps Any body) :
    Keeps (fun prog : Program => Tidy prog.ops) (inScope body) := by
  intro S prog S' hS h
  obtain ⟨⟨_, S₁⟩, hrun, h⟩ := Exec.bind_eq_ok.mp h
  have hempty : ∀ sc ∈ Scope.empty :: S, Tidy sc.ops := by
    intro sc hsc
    rcases List.mem_cons.mp hsc with rfl | hsc
    · exact tidy_nil
    · exact hS sc hsc
  obtain ⟨htidy, -⟩ := hbody _ _ _ hempty hrun
  cases S₁ with
  | nil => cases h
  | cons sc S₁ =>
    obtain ⟨sc₁, hderives, h⟩ := Exec.bind_eq_ok.mp h
    obtain ⟨prog', hfinish, h⟩ := Exec.bind_eq_ok.mp h
    cases h
    exact ⟨fun s hs => htidy s (List.mem_cons_of_mem _ hs),
      finishScope_tidy (resolveDerives_tidy (htidy sc List.mem_cons_self) hderives) hfinish⟩

lemma Tidy.nest {prog : Program} (h : Tidy prog.ops) (size : Option LenSrc) (c : Common) :
    (Op.nest prog size c).Every Op.apart := by
  obtain ⟨ops, nregs, nspans, minSize, staticSize⟩ := prog
  exact ⟨h.apart, opsEvery_iff.mpr h.every⟩

section Types

variable (opts : Options)

/-- The type is compiled to tidy ops, as an element and as a field. -/
structure Tidies (ty : TypeIn) : Prop where
  elem : ∀ bo, Keeps (fun op => op.Every Op.apart) (compileElem opts ty bo)
  field : ∀ bo name, Keeps Any (compileField opts ty bo name)

variable {opts}

lemma keeps_cases {cases : List (Int × TypeIn)} (hcases : ∀ branch ∈ cases, Tidies opts branch.2)
    (bo : ByteOrder) (tags : List Int) :
    Keeps (fun cases' => casesEvery Op.apart cases') (compileCases opts cases bo tags) := by
  induction cases generalizing tags with
  | nil =>
    rw [compileCases]
    exact keeps_pure trivial
  | cons branch cases ih =>
    obtain ⟨tag, ty⟩ := branch
    rw [compileCases]
    split_ifs
    · exact keeps_schemaErr _
    · refine ((hcases (tag, ty) List.mem_cons_self).elem bo).bind fun op hop => ?_
      refine (ih (fun b hb => hcases b (List.mem_cons_of_mem _ hb)) _).bind fun rest hrest => ?_
      exact keeps_pure ⟨hop, hrest⟩

lemma keeps_default {default : Option TypeIn} (hdefault : ∀ ty ∈ default, Tidies opts ty) (bo : ByteOrder) :
    Keeps (fun default' => defaultEvery Op.apart default') (compileDefault opts default bo) := by
  cases default with
  | none =>
    rw [compileDefault]
    exact keeps_pure trivial
  | some ty =>
    rw [compileDefault]
    exact ((hdefault ty rfl).elem bo).bind fun op hop => keeps_pure hop

lemma keeps_fields {fields : List FieldIn} (hfields : ∀ f ∈ fields, Tidies opts f.ty) (bo : ByteOrder) :
    Keeps Any (compileFields opts fields bo) := by
  induction fields with
  | nil =>
    rw [compileFields]
    exact keeps_pure trivial
  | cons f fields ih =>
    obtain ⟨name, ty⟩ := f
    rw [compileFields]
    refine (keeps_checkName name).bind fun _ _ => ?_
    refine ((hfields (.mk name ty) List.mem_cons_self).field bo name).bind fun _ _ => ?_
    exact ih fun g hg => hfields g (List.mem_cons_of_mem _ hg)

/-- A lifted check or parse. -/
lemma keeps_lifted {α : Type} (x : SRes α) : Keeps Any (liftM x : C α) := keeps_lift fun _ _ => trivial

lemma compileFlags_flags {base : IntPrim} {be : Bool} {names : List (String × U64)} {rest : String} {c : Common}
    {op : Op} (h : compileFlags base be names rest c = .ok op) :
    ∃ items rest' restMask, op = .flags base be items rest' restMask c := by
  unfold compileFlags at h
  split_ifs at h
  · cases h
  · obtain ⟨⟨items, union⟩, -, h⟩ := Exec.bind_eq_ok.mp h
    dsimp only at h
    split at h
    · cases h
      exact ⟨_, _, _, rfl⟩
    · cases h

lemma keeps_named (name : Option String) (what : String) :
    Keeps Any (liftM (namedOnly name what) : C String) := keeps_lifted _

lemma keeps_fixed1 (kind : FixKind) : Keeps (fun op => op.Every Op.apart) (pure (fixed1 kind) : C Op) :=
  keeps_pure trivial

/-- A fixed or bits field. -/
lemma keeps_pushed {push : C Loc} (hpush : Keeps Any push) (name : Option String)
    (refable isFlags isConst spannable : Bool) : Keeps Any (do
      let loc ← push
      addSym name loc refable isFlags isConst spannable : C Unit) :=
  hpush.bind fun loc _ => keeps_addSym name loc refable isFlags isConst spannable

lemma tidies_cases (opts : Options) : TypeCases (Tidies opts) where
  int prim byteorder const := by
    refine ⟨fun bo => ?_, fun bo name => ?_⟩
    · rw [compileElem]
      exact (keeps_lifted _).bind fun _ _ => keeps_fixed1 _
    · rw [compileField]
      exact (keeps_lifted _).bind fun _ _ => keeps_pushed (keeps_pushFixed _ _) _ _ _ _ _
  float is64 byteorder := by
    refine ⟨fun bo => ?_, fun bo name => ?_⟩
    · rw [compileElem]
      exact keeps_fixed1 _
    · rw [compileField]
      exact keeps_pushed (keeps_pushFixed _ _) _ _ _ _ _
  bool const := by
    refine ⟨fun bo => ?_, fun bo name => ?_⟩
    · rw [compileElem]
      exact keeps_fixed1 _
    · rw [compileField]
      exact keeps_pushed (keeps_pushFixed _ _) _ _ _ _ _
  raw len const := by
    refine ⟨fun bo => ?_, fun bo name => ?_⟩
    · rw [compileElem]
      exact (keeps_lifted _).bind fun _ _ => keeps_fixed1 _
    · rw [compileField]
      exact (keeps_lifted _).bind fun _ _ => keeps_pushed (keeps_pushFixed _ _) _ _ _ _ _
  bytes len max := by
    refine ⟨fun bo => ?_, fun bo name => ?_⟩
    · rw [compileElem]
      exact (keeps_buildLen _ _).bind fun _ _ => keeps_pure trivial
    · rw [compileField]
      exact (keeps_named _ _).bind fun _ _ => (keeps_buildLen _ _).bind fun _ _ => keeps_addOp rfl (by trivial) _ _ _
  str len max encoding errors := by
    refine ⟨fun bo => ?_, fun bo name => ?_⟩
    · rw [compileElem]
      exact (keeps_buildLen _ _).bind fun _ _ => (keeps_lifted _).bind fun _ _ => keeps_pure trivial
    · rw [compileField]
      exact (keeps_named _ _).bind fun _ _ => (keeps_lifted _).bind fun _ _ =>
        (keeps_buildLen _ _).bind fun _ _ => keeps_addOp rfl (by trivial) _ _ _
  cstr max encoding errors := by
    refine ⟨fun bo => ?_, fun bo name => ?_⟩
    · rw [compileElem]
      exact (keeps_lifted _).bind fun _ _ => keeps_pure trivial
    · rw [compileField]
      exact (keeps_named _ _).bind fun _ _ => (keeps_lifted _).bind fun _ _ => keeps_addOp rfl (by trivial) _ _ _
  bits width signed := by
    refine ⟨fun bo => ?_, fun bo name => ?_⟩
    · rw [compileElem]
      exact keeps_schemaErr _
    · rw [compileField]
      split_ifs
      · exact keeps_pushed (keeps_pushBit _) _ _ _ _ _
      · exact keeps_schemaErr _
  flags base byteorder names rest := by
    refine ⟨fun bo => ?_, fun bo name => ?_⟩
    · rw [compileElem]
      refine keeps_lift fun op hop => ?_
      obtain ⟨items, rest', restMask, rfl⟩ := compileFlags_flags hop
      trivial
    · rw [compileField]
      refine (keeps_named _ _).bind fun n _ => ?_
      refine (keeps_lift fun op hop => compileFlags_flags hop).bind fun op hop => ?_
      obtain ⟨items, rest', restMask, rfl⟩ := hop
      exact keeps_addOp rfl (by trivial) _ _ _
  digest algo overrides overs verify := by
    refine ⟨fun bo => ?_, fun bo name => ?_⟩
    · rw [compileElem]
      exact keeps_schemaErr _
    · rw [compileField]
      refine (keeps_named _ _).bind fun n _ => (keeps_lifted _).bind fun algo _ =>
        (keeps_lifted _).bind fun _ _ => (keeps_pushOp rfl (by trivial)).bind fun loc _ => ?_
      refine Keeps.bind (Q := Any) (keeps_onTop fun sc a sc' hsc h => ?_) fun _ _ => keeps_addSym _ _ _ _ _ _
      cases h
      exact ⟨hsc, trivial⟩
  struct fields byteorder size hfields := by
    have hbody (bo : ByteOrder) := keeps_inScope (keeps_fields (fun f hf => hfields f hf) (byteorder.getD bo))
    refine ⟨fun bo => ?_, fun bo name => ?_⟩
    · rw [compileElem]
      exact (keeps_buildSize size).bind fun _ _ => (hbody bo).bind fun _ hprog => keeps_pure (hprog.nest _ _)
    · rw [compileField]
      exact (keeps_named _ _).bind fun _ _ => (keeps_buildSize size).bind fun _ _ =>
        (hbody bo).bind fun _ hprog => (keeps_lifted _).bind fun _ _ => keeps_addOp rfl (hprog.nest _ _) _ _ _
  array elem count untilEof helem := by
    refine ⟨fun bo => ?_, fun bo name => ?_⟩
    · rw [compileElem]
      exact (keeps_buildCount count untilEof).bind fun _ _ => (helem.elem bo).bind fun _ hop =>
        keeps_pure ⟨trivial, hop⟩
    · rw [compileField]
      exact (keeps_named _ _).bind fun _ _ => (keeps_buildCount count untilEof).bind fun _ _ =>
        (helem.elem bo).bind fun _ hop => keeps_addOp rfl (by exact ⟨trivial, hop⟩) _ _ _
  switch on cases default hcases hdefault := by
    refine ⟨fun bo => ?_, fun bo name => ?_⟩
    · rw [compileElem]
      split_ifs
      · exact keeps_schemaErr _
      · exact (keeps_lifted _).bind fun _ _ => (keeps_emitExpr _ _).bind fun _ _ =>
          (keeps_cases hcases bo []).bind fun _ hcs => (keeps_default hdefault bo).bind fun _ hd =>
            keeps_pure ⟨trivial, hcs, hd⟩
    · rw [compileField]
      refine (keeps_named _ _).bind fun n _ => ?_
      split_ifs
      · exact keeps_schemaErr _
      · exact (keeps_lifted _).bind fun _ _ => (keeps_emitExpr _ _).bind fun _ _ =>
          (keeps_cases hcases bo []).bind fun _ hcs => (keeps_default hdefault bo).bind fun _ hd =>
            keeps_addOp rfl (by exact ⟨trivial, hcs, hd⟩) _ _ _
  cond pred thn hthn := by
    refine ⟨fun bo => ?_, fun bo name => ?_⟩
    · rw [compileElem]
      exact keeps_schemaErr _
    · rw [compileField]
      exact (keeps_named _ _).bind fun _ _ => (keeps_lifted _).bind fun _ _ => (keeps_emitExpr _ _).bind fun _ _ =>
        (hthn.elem bo).bind fun _ hop => keeps_addOp rfl (by exact ⟨trivial, hop⟩) _ _ _

/-- In a compiled program, and in all programs nested in it, no run follows another. -/
lemma compile_tidy {fields : List FieldIn} {prog : Program} (h : compile fields opts = .ok prog) : Tidy prog.ops := by
  obtain ⟨⟨prog', S⟩, hscope, h⟩ := Exec.bind_eq_ok.mp h
  dsimp only at h
  split_ifs at h
  · cases h
  · cases h
    have hbody : Keeps Any (compileFields opts fields opts.byteorder) :=
      keeps_fields (fun f _ => (tidies_cases opts).type f.ty) opts.byteorder
    exact (keeps_inScope hbody [] _ S (fun _ hsc => (List.not_mem_nil hsc).elim) hscope).2

end Types

end Rustruct

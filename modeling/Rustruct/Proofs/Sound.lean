import Rustruct.Visits
import Rustruct.Proofs.Items
import Rustruct.Proofs.Lowered

/-!
# What compiled programs never do

The shape of the ops `compile` emits: registers and spans are in range, a frame above is
there, expressions keep the stack in its bounds, and an element is a single value.
-/

namespace Rustruct

/-- The depth of the stack after an instruction. -/
def Ins.depth (ins : Ins) (n : Nat) : Option Nat :=
  match ins with
  | .imm _ | .reg _ => if n < exprStack then some (n + 1) else none
  | .op _ => if 2 ≤ n then some (n - 1) else none

/-- The depth of the stack after some instructions, if it stays in its bounds. -/
def stackDepth : List Ins → Nat → Option Nat
  | [], n => some n
  | ins :: rest, n => (ins.depth n).bind (stackDepth rest)

/-- The register is one of the `d` live frames. -/
def Ins.Live (d : Nat) : Ins → Prop
  | .reg r => r.up < d ∧ r.idx < maxRegs
  | _ => True

structure Expr.Sound (d : Nat) (e : Expr) : Prop where
  live : ∀ ins ∈ e.ins, ins.Live d
  stack : stackDepth e.ins 0 = some 1

def LenSrc.Sound (d : Nat) : LenSrc → Prop
  | .expr e _ => e.Sound d
  | .greedy => True

def CountSrc.Sound (d : Nat) : CountSrc → Prop
  | .expr e _ => e.Sound d
  | .untilEof => True

/-- Where an op stands: a field of a struct, or an array element, a branch or the body of a `when`. -/
inductive Place where
  | field
  | value
  deriving DecidableEq

def Common.Sound (c : Common) : Prop := ∀ i ∈ c.span, i < maxSpans

def FixedItem.Sound (item : FixedItem) : Prop :=
  (∀ i ∈ item.reg, i < maxRegs) ∧ ∀ i ∈ item.span, i < maxSpans

def BitItem.Sound (item : BitItem) : Prop :=
  (1 ≤ item.width ∧ item.width ≤ 64) ∧ ∀ i ∈ item.reg, i < maxRegs

def Over.Sound : Over → Prop
  | .star => True
  | .spans idxs => ∀ i ∈ idxs, i < maxSpans

mutual

/-- The op does nothing that would panic, with `d` live frames. -/
def Op.Sound (d : Nat) (place : Place) : Op → Prop
  | .fixed width items =>
    match place with
    | .field => LaidRun items width ∧ ∀ item ∈ items, item.Sound
    | .value => ∃ kind, width = kind.width ∧
        items = [{ off := 0, kind, reg := none, span := none, key := .skip }]
  | .bitRun nbytes items =>
    place = .field ∧ bitTotal items = 8 * nbytes ∧ ∀ item ∈ items, item.Sound
  | .digest _ overs _ _ c => place = .field ∧ overs.Sound ∧ c.key.name.isSome ∧ c.Sound
  | .cond pred thn c => place = .field ∧ pred.Sound d ∧ thn.Sound d .value ∧ c.Sound
  | .bytes len _ c | .str len _ _ c => len.Sound d ∧ c.Sound
  | .cstr _ _ c | .flags _ _ _ _ _ c => c.Sound
  | .nest prog size c =>
    (∀ len ∈ size, len.Sound d ∧ len ≠ .greedy) ∧ prog.Sound d ∧ c.Sound
  | .array count _ elem _ c => count.Sound d ∧ elem.Sound d .value ∧ c.Sound
  | .switch on cases default c =>
    on.Sound d ∧ casesSound d cases ∧ defaultSound d default ∧ c.Sound

def casesSound (d : Nat) : List (Int × Op) → Prop
  | [] => True
  | (_, op) :: cases => op.Sound d .value ∧ casesSound d cases

def defaultSound (d : Nat) : Option Op → Prop
  | none => True
  | some op => op.Sound d .value

/-- The program does nothing that would panic, in a frame above `d` others. -/
def Program.Sound (d : Nat) : Program → Prop
  | .mk ops _ _ _ _ => opsSound (d + 1) ops

def opsSound (d : Nat) : List Op → Prop
  | [] => True
  | op :: ops => op.Sound d .field ∧ opsSound d ops

end

lemma casesSound_iff {d : Nat} {cases : List (Int × Op)} :
    casesSound d cases ↔ ∀ branch ∈ cases, branch.2.Sound d .value := by
  induction cases with
  | nil => simp [casesSound]
  | cons branch cases ih => simp [casesSound, ih]

lemma defaultSound_iff {d : Nat} {default : Option Op} :
    defaultSound d default ↔ ∀ op ∈ default, op.Sound d .value := by
  cases default <;> simp [defaultSound]

lemma opsSound_iff {d : Nat} {ops : List Op} : opsSound d ops ↔ ∀ op ∈ ops, op.Sound d .field := by
  induction ops with
  | nil => simp [opsSound]
  | cons op ops ih => simp [opsSound, ih]

lemma pickCase_sound {d : Nat} {cases : List (Int × Op)} {default : Option Op} {tag : Int} {op : Op}
    (hc : casesSound d cases) (hd : defaultSound d default)
    (h : pickCase cases default tag = some op) : op.Sound d .value := by
  obtain ⟨branch, hb, rfl⟩ | ho := pickCase_mem h
  · exact casesSound_iff.mp hc branch hb
  · exact defaultSound_iff.mp hd op ho

/-- A dynamic op of a value position is one of a field position. -/
lemma Op.Sound.asField {d : Nat} {op : Op} {c : Common} (h : op.Sound d .value) (hv : op.isValue)
    (hc : c.Sound) : (op.withCommon fun _ => c).Sound d .field := by
  cases op with
  | fixed | bitRun | digest | cond => cases hv
  | bytes | str => exact ⟨h.1, hc⟩
  | cstr | flags => exact hc
  | nest => exact ⟨h.1, h.2.1, hc⟩
  | array => exact ⟨h.1, h.2.1, hc⟩
  | switch => exact ⟨h.1, h.2.1, h.2.2.1, hc⟩

lemma Op.Sound.asValue {d : Nat} {op : Op} (h : op.Sound d .field) (hv : op.isValue) :
    op.Sound d .value := by
  cases op with
  | fixed | bitRun | digest | cond => cases hv
  | _ => exact h

lemma stackDepth_append (a b : List Ins) (n : Nat) :
    stackDepth (a ++ b) n = (stackDepth a n).bind (stackDepth b) := by
  induction a generalizing n with
  | nil => rfl
  | cons ins a ih =>
    simp only [List.cons_append, stackDepth]
    cases ins.depth n with
    | none => rfl
    | some m => exact ih m

/-- The bookkeeping of `postfixDepth`. -/
def depthStep (acc : Nat × Nat) (ins : Ins) : Nat × Nat :=
  match ins with
  | .imm _ | .reg _ => (acc.1 + 1, Nat.max acc.2 (acc.1 + 1))
  | .op _ => (acc.1 - 1, acc.2)

lemma postfixDepth_eq (ins : List Ins) : postfixDepth ins = (ins.foldl depthStep (0, 0)).2 := by
  unfold postfixDepth
  congr 2

/-- The stack an expression takes: its right operand is evaluated on top of the left one's value. -/
def ExprIn.room : ExprIn → Nat
  | .imm _ | .ref _ | .greedy => 1
  | .bin _ l r => max l.room (r.room + 1)

lemma LowersInto.depth {Γ : Env} {ctx : RefCtx} {e : ExprIn} {ins : List Ins} (h : LowersInto Γ ctx e ins)
    (acc : Nat × Nat) : ins.foldl depthStep acc = (acc.1 + 1, max acc.2 (acc.1 + e.room)) := by
  induction e generalizing ins acc with
  | imm v =>
    obtain rfl : ins = [.imm v] := h
    rfl
  | greedy => exact h.elim
  | ref name =>
    obtain ⟨reg, -, rfl⟩ := h
    rfl
  | bin o l r ihl ihr =>
    obtain ⟨il, ir, hl, hr, rfl⟩ := h
    rw [List.foldl_append, List.foldl_append, ihl hl, ihr hr]
    simp only [List.foldl_cons, List.foldl_nil, depthStep, ExprIn.room, Nat.add_sub_cancel, Prod.mk.injEq, true_and]
    omega

/-- An expression has its room and leaves one value. -/
lemma LowersInto.stackDepth {Γ : Env} {ctx : RefCtx} {e : ExprIn} {ins : List Ins} (h : LowersInto Γ ctx e ins)
    {n : Nat} (hn : n + e.room ≤ exprStack) : stackDepth ins n = some (n + 1) := by
  induction e generalizing ins n with
  | imm v =>
    obtain rfl : ins = [.imm v] := h
    simp only [Rustruct.stackDepth, Ins.depth, if_pos (show n < exprStack from hn), Option.bind_some]
  | greedy => exact h.elim
  | ref name =>
    obtain ⟨reg, -, rfl⟩ := h
    simp only [Rustruct.stackDepth, Ins.depth, if_pos (show n < exprStack from hn), Option.bind_some]
  | bin o l r ihl ihr =>
    obtain ⟨il, ir, hl, hr, rfl⟩ := h
    rw [ExprIn.room] at hn
    rw [stackDepth_append, stackDepth_append, ihl hl (by omega), Option.bind_some, ihr hr (by omega)]
    simp [Rustruct.stackDepth, Ins.depth]

lemma LowersInto.room_le {Γ : Env} {ctx : RefCtx} {e : ExprIn} {ins : List Ins} (h : LowersInto Γ ctx e ins)
    (hd : postfixDepth ins ≤ exprStack) : e.room ≤ exprStack := by
  rw [postfixDepth_eq, h.depth] at hd
  simpa using hd

/-- The registers in scope are in range. -/
def RegsIn (Γ : Env) : Prop := ∀ syms ∈ Γ, ∀ s ∈ syms, ∀ i ∈ s.reg, i < maxRegs

lemma lookupSym_mem {Γ : Env} {name : String} {up : Nat} {s : Sym}
    (h : lookupSym Γ name = some (up, s)) : up < Γ.length ∧ ∃ syms, Γ[up]? = some syms ∧ s ∈ syms := by
  induction Γ generalizing up with
  | nil => cases h
  | cons syms Γ ih =>
    rw [lookupSym] at h
    cases hf : findSym syms name with
    | some t =>
      rw [hf] at h
      obtain ⟨rfl, rfl⟩ : 0 = up ∧ t = s := by simpa using h
      exact ⟨by simp, syms, rfl, (findSym_eq_some hf).1⟩
    | none =>
      rw [hf] at h
      obtain ⟨⟨up', t⟩, hl, he⟩ := Option.map_eq_some_iff.mp h
      obtain ⟨rfl, rfl⟩ : up' + 1 = up ∧ t = s := by simpa using he
      obtain ⟨hlt, syms', hg, hm⟩ := ih hl
      exact ⟨by simpa using hlt, syms', by simpa using hg, hm⟩

lemma LowersRef.live {Γ : Env} {ctx : RefCtx} {name : String} {reg : Reg} (hΓ : RegsIn Γ)
    (h : LowersRef Γ ctx name reg) : reg.up < Γ.length ∧ reg.idx < maxRegs := by
  obtain ⟨up, s, hs, -, hreg, hup, -⟩ := h
  obtain ⟨hlt, syms, hg, hm⟩ := lookupSym_mem hs
  refine ⟨?_, hΓ syms (List.mem_of_getElem? hg) s hm _ hreg⟩
  rw [hup]
  exact Nat.lt_of_le_of_lt (Nat.mod_le _ _) hlt

lemma LowersInto.live {Γ : Env} {ctx : RefCtx} {e : ExprIn} {ins : List Ins} (hΓ : RegsIn Γ)
    (h : LowersInto Γ ctx e ins) : ∀ i ∈ ins, i.Live Γ.length := by
  induction e generalizing ins with
  | imm v =>
    obtain rfl : ins = [.imm v] := h
    simp [Ins.Live]
  | greedy => exact h.elim
  | ref name =>
    obtain ⟨reg, hr, rfl⟩ := h
    simpa [Ins.Live] using hr.live hΓ
  | bin o l r ihl ihr =>
    obtain ⟨il, ir, hl, hr, rfl⟩ := h
    simp only [List.mem_append, List.mem_singleton]
    rintro i ((hi | hi) | rfl)
    · exact ihl hl i hi
    · exact ihr hr i hi
    · trivial

lemma LowersExpr.sound {Γ : Env} {ctx : RefCtx} {e : ExprIn} {expr : Expr} (hΓ : RegsIn Γ)
    (h : LowersExpr Γ ctx e expr) : expr.Sound Γ.length := by
  obtain ⟨folded, -, hl, hd⟩ := h
  refine ⟨hl.live hΓ, ?_⟩
  have hroom := hl.room_le hd
  exact hl.stackDepth (by omega)

lemma sound_imm (d : Nat) (n : Int) : (Expr.imm n).Sound d := by
  refine ⟨?_, rfl⟩
  simp [Expr.imm, Ins.Live]

lemma LowersLen.sound {Γ : Env} {e : ExprIn} {len : LenSrc} (hΓ : RegsIn Γ)
    (h : LowersLen Γ e len) : len.Sound Γ.length := by
  have key : ((∃ n, 0 ≤ n ∧ fold e = .ok (.imm n) ∧ len = .expr (.imm n) none) ∨
      ∃ expr inv, LowersLin Γ e expr inv ∧ len = .expr expr (some inv)) → len.Sound Γ.length := by
    rintro (⟨n, -, -, rfl⟩ | ⟨expr, inv, hl, rfl⟩)
    · exact sound_imm _ n
    · obtain ⟨folded, name, -, -, -, -, he⟩ := hl
      exact he.sound hΓ
  cases e with
  | greedy =>
    obtain rfl : len = .greedy := h
    trivial
  | _ => exact key h

lemma LowersSize.sound {Γ : Env} {size : Option ExprIn} {size' : Option LenSrc} (hΓ : RegsIn Γ)
    (h : LowersSize Γ size size') : ∀ len ∈ size', len.Sound Γ.length ∧ len ≠ .greedy := by
  cases size with
  | none =>
    obtain rfl : size' = none := h
    simp
  | some e =>
    obtain ⟨len, hl, hg, rfl⟩ := h
    rintro len' hm
    obtain rfl : len = len' := by simpa using hm
    exact ⟨hl.sound hΓ, hg⟩

lemma LowersCount.sound {Γ : Env} {count : Option ExprIn} {untilEof : Bool} {count' : CountSrc}
    (hΓ : RegsIn Γ) (h : LowersCount Γ count untilEof count') : count'.Sound Γ.length := by
  match count, untilEof with
  | none, true =>
    obtain rfl : count' = .untilEof := h
    trivial
  | none, false => exact h.elim
  | some e, true => cases e <;> exact h.elim
  | some e, false =>
    have key : (∃ expr inv, LowersLen Γ e (.expr expr inv) ∧ count' = .expr expr inv) →
        count'.Sound Γ.length := by
      rintro ⟨expr, inv, hl, rfl⟩
      exact hl.sound hΓ
    cases e with
    | greedy =>
      obtain rfl : count' = .untilEof := h
      trivial
    | _ => exact key h

/-- What the fields of a sound program are made of. -/
def Atom.Sound (d : Nat) : Atom → Prop
  | .fixed .. | .digest .. => True
  | .bit width _ _ => 1 ≤ width ∧ width ≤ 64
  | .op o _ => o.isValue ∧ o.Sound d .value
  | .cond pred thn _ => pred.Sound d ∧ thn.Sound d .value

lemma regOf_lt {full : List Sym} {nregs nspans : Nat} (h : SymsOk full nregs nspans) {key : Key} :
    ∀ i ∈ regOf full key, i < maxRegs := by
  intro i hi
  obtain ⟨s, hs, hr⟩ := Option.bind_eq_some_iff.mp hi
  obtain ⟨n, -, hf⟩ := Option.bind_eq_some_iff.mp hs
  exact Nat.lt_of_lt_of_le (h.regs.lt s (findSym_eq_some hf).1 i hr) h.nregs_le

lemma spanOf_lt {full : List Sym} {nregs nspans : Nat} (h : SymsOk full nregs nspans) {key : Key} :
    ∀ i ∈ spanOf full key, i < maxSpans := by
  intro i hi
  obtain ⟨s, hs, hr⟩ := Option.bind_eq_some_iff.mp hi
  obtain ⟨n, -, hf⟩ := Option.bind_eq_some_iff.mp hs
  exact Nat.lt_of_lt_of_le (h.spans.lt s (findSym_eq_some hf).1 i hr) h.nspans_le

lemma forall₂_mem {α β : Type} {R : α → β → Prop} {l : List α} {m : List β}
    (h : List.Forall₂ R l m) : ∀ a ∈ l, ∃ b ∈ m, R a b := by
  induction h with
  | nil => simp
  | cons hr _ ih =>
    intro a ha
    obtain rfl | ha := List.mem_cons.mp ha
    · exact ⟨_, by simp, hr⟩
    · obtain ⟨b, hb, hab⟩ := ih a ha
      exact ⟨b, by simp [hb], hab⟩

lemma OverIs.sound {full : List Sym} {nregs nspans : Nat} (h : SymsOk full nregs nspans)
    {overIn : OverIn} {overs : Over} (ho : OverIs full overIn overs) : overs.Sound := by
  cases overIn with
  | star =>
    obtain rfl : overs = .star := ho
    trivial
  | names names =>
    obtain ⟨idxs, rfl, hf⟩ := ho
    intro i hi
    obtain ⟨n, -, s, hs, -, hsp⟩ := forall₂_mem hf.flip i hi
    exact Nat.lt_of_lt_of_le (h.spans.lt s (findSym_eq_some hs).1 _ hsp) h.nspans_le

/-- Every field of an assembled program is that of an atom. -/
lemma Assembled.piece {full : List Sym} {atoms : List Atom} {prog : Program}
    (h : Assembled full atoms prog) {op : Op} (ho : op ∈ prog.ops) {p : Piece} (hp : p ∈ op.pieces) :
    ∃ a ∈ atoms, Realizes full a p := by
  have hm : p ∈ piecesOf prog.ops := List.mem_flatMap.mpr ⟨op, ho, hp⟩
  obtain ⟨a, ha, hr⟩ := forall₂_mem h.pieces.flip p hm
  exact ⟨a, ha, hr⟩

lemma Assembled.sound {full : List Sym} {atoms : List Atom} {prog : Program} {d : Nat}
    (h : Assembled full atoms prog) (ha : ∀ a ∈ atoms, a.Sound (d + 1)) : prog.Sound d := by
  obtain ⟨ops, nregs, nspans, minSize, staticSize⟩ := prog
  rw [Program.Sound, opsSound_iff]
  intro op ho
  have hpiece : ∀ p ∈ op.pieces, ∃ a ∈ atoms, Realizes full a p := fun p hp => h.piece ho hp
  have hlaid := h.laid op ho
  have hsyms := h.syms
  -- A dynamic op is its own field.
  have hdyn : ∀ c, op.common = some c → ∃ a ∈ atoms, Realizes full a (.op op) := by
    intro c hc
    exact hpiece (.op op) (by rw [pieces_of_common hc]; exact List.mem_singleton_self _)
  have hcommon : ∀ n : String, Common.Sound { key := .named n, span := spanOf full (.named n) } :=
    fun n => spanOf_lt hsyms
  cases op with
  | fixed width items =>
    refine ⟨hlaid, fun item hi => ?_⟩
    obtain ⟨a, -, hr⟩ := hpiece item.piece (List.mem_map_of_mem hi)
    cases a with
    | fixed kind key =>
      simp only [Realizes, FixedItem.piece, Piece.fixed.injEq] at hr
      obtain ⟨-, hreg, hspan, -⟩ := hr
      exact ⟨hreg ▸ regOf_lt hsyms, hspan ▸ spanOf_lt hsyms⟩
    | digest => obtain ⟨_, -, hr⟩ := hr; cases hr
    | _ => cases hr
  | bitRun nbytes items =>
    refine ⟨rfl, hlaid.2, fun item hi => ?_⟩
    obtain ⟨a, hm, hr⟩ := hpiece (.bit item) (List.mem_map_of_mem hi)
    cases a with
    | bit width signed key =>
      obtain rfl : item = _ := Piece.bit.inj hr
      exact ⟨ha _ hm, regOf_lt hsyms⟩
    | digest => obtain ⟨_, -, hr⟩ := hr; cases hr
    | _ => cases hr
  | _ =>
    obtain ⟨a, hm, hr⟩ := hdyn _ rfl
    have hs := ha a hm
    cases a with
    | fixed | bit => cases hr
    | digest algo overIn verify be name =>
      obtain ⟨overs, hover, hr⟩ := hr
      rw [Piece.op.injEq] at hr
      rw [hr]
      exact ⟨rfl, hover.sound hsyms, rfl, hcommon name⟩
    | op o name =>
      simp only [Realizes, Piece.op.injEq] at hr
      rw [hr]
      exact hs.2.asField hs.1 (hcommon name)
    | cond pred thn name =>
      simp only [Realizes, Piece.op.injEq] at hr
      rw [hr]
      exact ⟨rfl, hs.1, hs.2, hcommon name⟩

section Types

variable (opts : Options)

/-- The ops a type is lowered to are sound. -/
structure TypeSound (opts : Options) (ty : TypeIn) : Prop where
  elem : ∀ Γ bo op, RegsIn Γ → LowersElem opts ty Γ bo op → op.Sound Γ.length .value
  field : ∀ Γ bo name atom kind, RegsIn Γ → LowersField opts ty Γ bo name atom kind →
    atom.Sound Γ.length

variable {opts}

lemma RegsIn.take {Γ : Env} {full : List Sym} (hΓ : RegsIn Γ) (hf : ∀ s ∈ full, ∀ i ∈ s.reg, i < maxRegs)
    (k : Nat) : RegsIn (full.take k :: Γ) := by
  intro syms hs
  obtain rfl | hs := List.mem_cons.mp hs
  · exact fun s h => hf s (List.mem_of_mem_take h)
  · exact hΓ syms hs

lemma LowersFields.atoms_sound {fields : List FieldIn} (hfs : ∀ f ∈ fields, TypeSound opts f.ty)
    {Γ : Env} {bo : ByteOrder} {full : List Sym} {k : Nat} {atoms : List Atom} (hΓ : RegsIn Γ)
    (hf : ∀ s ∈ full, ∀ i ∈ s.reg, i < maxRegs) (h : LowersFields opts fields Γ bo full k atoms) :
    ∀ a ∈ atoms, a.Sound (Γ.length + 1) := by
  induction fields generalizing k atoms with
  | nil =>
    obtain ⟨-, rfl⟩ := h
    simp
  | cons f fields ih =>
    obtain ⟨name, ty⟩ := f
    have ht := (hfs (.mk name ty) (by simp)).field
    have hrest := @ih fun f hf => hfs f (by simp [hf])
    cases name with
    | none =>
      obtain ⟨atom, kind, rest, hfield, hmore, rfl⟩ := h
      intro a ha
      obtain rfl | ha := List.mem_cons.mp ha
      · exact ht _ _ _ _ _ (hΓ.take hf k) hfield
      · exact hrest hmore a ha
    | some n =>
      obtain ⟨atom, s, rest, hfield, -, -, -, -, hmore, rfl⟩ := h
      intro a ha
      obtain rfl | ha := List.mem_cons.mp ha
      · exact ht _ _ _ _ _ (hΓ.take hf k) hfield
      · exact hrest hmore a ha

lemma struct_sound {fields : List FieldIn} (hfs : ∀ f ∈ fields, TypeSound opts f.ty) {Γ : Env}
    {bo : ByteOrder} {full : List Sym} {atoms : List Atom} {prog : Program} (hΓ : RegsIn Γ)
    (h : LowersFields opts fields Γ bo full 0 atoms) (ha : Assembled full atoms prog) :
    prog.Sound Γ.length := by
  refine ha.sound (LowersFields.atoms_sound hfs hΓ (fun s hs i hi => ?_) h)
  exact Nat.lt_of_lt_of_le (ha.syms.regs.lt s hs i hi) ha.syms.nregs_le

lemma LowersCases.sound {cases : List (Int × TypeIn)} (hc : ∀ branch ∈ cases, TypeSound opts branch.2)
    {Γ : Env} {bo : ByteOrder} {cases' : List (Int × Op)} (hΓ : RegsIn Γ)
    (h : LowersCases opts cases Γ bo cases') : casesSound Γ.length cases' := by
  induction cases generalizing cases' with
  | nil =>
    obtain rfl : cases' = [] := h
    trivial
  | cons branch cases ih =>
    obtain ⟨tag, ty⟩ := branch
    obtain ⟨op, rest, hop, hrest, rfl⟩ := h
    exact ⟨(hc (tag, ty) (by simp)).elem _ _ _ hΓ hop, ih (fun b hb => hc b (by simp [hb])) hrest⟩

lemma LowersDefault.sound {default : Option TypeIn} (hd : ∀ ty ∈ default, TypeSound opts ty)
    {Γ : Env} {bo : ByteOrder} {default' : Option Op} (hΓ : RegsIn Γ)
    (h : LowersDefault opts default Γ bo default') : defaultSound Γ.length default' := by
  cases default with
  | none =>
    obtain rfl : default' = none := h
    trivial
  | some ty =>
    obtain ⟨op, hop, rfl⟩ := h
    exact (hd ty rfl).elem _ _ _ hΓ hop

lemma skip_sound : Common.skip.Sound := by simp [Common.Sound, Common.skip]

lemma flags_sound {base : IntPrim} {be : Bool} {names : List (String × U64)} {rest : String} {op : Op}
    (d : Nat) (h : compileFlags base be names rest .skip = .ok op) :
    op.isValue ∧ op.Sound d .value := by
  unfold compileFlags at h
  split_ifs at h
  · simp [schemaErr] at h
  simp only [Exec.bind_eq_ok, Prod.exists] at h
  obtain ⟨items, union, -, h⟩ := h
  cases hr : restPolicies.parse rest with
  | error msg => simp [hr, schemaErr] at h
  | ok rest' =>
    simp only [hr, Except.ok.injEq] at h
    subst h
    exact ⟨rfl, skip_sound⟩

lemma typeSound (opts : Options) : TypeCases (TypeSound opts) where
  int prim byteorder const := by
    constructor
    · rintro Γ bo op - ⟨-, rfl⟩
      exact ⟨_, rfl, rfl⟩
    · rintro Γ bo name atom kind - ⟨-, rfl, -⟩
      trivial
  float is64 byteorder := by
    constructor
    · rintro Γ bo op - rfl
      exact ⟨_, rfl, rfl⟩
    · rintro Γ bo name atom kind - ⟨rfl, -⟩
      trivial
  bool const := by
    constructor
    · rintro Γ bo op - rfl
      exact ⟨_, rfl, rfl⟩
    · rintro Γ bo name atom kind - ⟨rfl, -⟩
      trivial
  raw len const := by
    constructor
    · rintro Γ bo op - ⟨n, -, rfl⟩
      exact ⟨_, rfl, rfl⟩
    · rintro Γ bo name atom kind - ⟨n, -, rfl, -⟩
      trivial
  bytes len max := by
    constructor
    · rintro Γ bo op hΓ ⟨len', hl, rfl⟩
      exact ⟨hl.sound hΓ, skip_sound⟩
    · rintro Γ bo name atom kind hΓ ⟨n, len', -, hl, rfl, -⟩
      exact ⟨rfl, hl.sound hΓ, skip_sound⟩
  str len max encoding errors := by
    constructor
    · rintro Γ bo op hΓ ⟨len', enc, hl, -, rfl⟩
      exact ⟨hl.sound hΓ, skip_sound⟩
    · rintro Γ bo name atom kind hΓ ⟨n, len', enc, -, hl, -, rfl, -⟩
      exact ⟨rfl, hl.sound hΓ, skip_sound⟩
  cstr max encoding errors := by
    constructor
    · rintro Γ bo op - ⟨enc, -, rfl⟩
      exact skip_sound
    · rintro Γ bo name atom kind - ⟨n, enc, -, -, rfl, -⟩
      exact ⟨rfl, skip_sound⟩
  bits width signed := by
    constructor
    · rintro Γ bo op - h
      exact h.elim
    · rintro Γ bo name atom kind - ⟨h₁, h₂, rfl, -⟩
      exact ⟨h₁, h₂⟩
  flags base byteorder names rest := by
    constructor
    · rintro Γ bo op - h
      exact (flags_sound _ h).2
    · rintro Γ bo name atom kind - ⟨n, op, -, h, rfl, -⟩
      exact flags_sound _ h
  digest algo overrides overs verify := by
    constructor
    · rintro Γ bo op - h
      exact h.elim
    · rintro Γ bo name atom kind - ⟨n, algo', -, -, -, rfl, -⟩
      trivial
  struct fields byteorder size hfs := by
    constructor
    · rintro Γ bo op hΓ ⟨size', full, atoms, prog, hs, hf, ha, rfl⟩
      exact ⟨hs.sound hΓ, struct_sound hfs hΓ hf ha, skip_sound⟩
    · rintro Γ bo name atom kind hΓ ⟨n, size', full, atoms, prog, -, hs, hf, ha, -, rfl, -⟩
      exact ⟨rfl, hs.sound hΓ, struct_sound hfs hΓ hf ha, skip_sound⟩
  array elem count untilEof he := by
    constructor
    · rintro Γ bo op hΓ ⟨count', elem', hc, hl, rfl⟩
      exact ⟨hc.sound hΓ, he.elem _ _ _ hΓ hl, skip_sound⟩
    · rintro Γ bo name atom kind hΓ ⟨n, count', elem', -, hc, hl, rfl, -⟩
      exact ⟨rfl, hc.sound hΓ, he.elem _ _ _ hΓ hl, skip_sound⟩
  switch on cases default hcs hd := by
    constructor
    · rintro Γ bo op hΓ ⟨on', cases', default', ho, hc, hdef, rfl⟩
      exact ⟨ho.sound hΓ, LowersCases.sound hcs hΓ hc, LowersDefault.sound hd hΓ hdef, skip_sound⟩
    · rintro Γ bo name atom kind hΓ ⟨n, on', cases', default', -, ho, hc, hdef, rfl, -⟩
      exact ⟨rfl, ho.sound hΓ, LowersCases.sound hcs hΓ hc, LowersDefault.sound hd hΓ hdef, skip_sound⟩
  cond pred thn ht := by
    constructor
    · rintro Γ bo op - h
      exact h.elim
    · rintro Γ bo name atom kind hΓ ⟨n, pred', thn', -, hp, hthn, rfl, -⟩
      exact ⟨hp.sound hΓ, ht.elem _ _ _ hΓ hthn⟩

end Types

/-- Every compiled program is sound. -/
theorem compile_sound {fields : List FieldIn} {opts : Options} {prog : Program}
    (h : compile fields opts = .ok prog) : prog.Sound 0 := by
  obtain ⟨full, atoms, hf, ha⟩ := (compile_lowers h).1
  exact struct_sound (fun f _ => (typeSound opts).type f.ty) (by simp [RegsIn]) hf ha

/-- The op of a site stands where it may, with the frames it needs. -/
def Site.Sound : Site → Prop
  | value op _ cur => op.Sound cur.fs.length .value
  | body prog _ cur => prog.Sound cur.fs.length
  | rest ops _ s => ∀ op ∈ ops, op.Sound s.cur.fs.length .field
  | count elem _ _ _ _ cur | eof elem _ _ _ _ cur => elem.Sound cur.fs.length .value

lemma Step.sound {H : Hashes} {buf : Bytes} {s t : Site} (hs : s.Sound) (h : Step H buf s t) :
    t.Sound := by
  cases h with
  | enter room => exact opsSound_iff.mp hs
  | @next op ops limit s s' ran =>
    have hlen := (runOp_ownFrame H buf op _ _ _ ran).2
    intro o ho
    simp only [Site.Sound] at hs
    rw [hlen]
    exact hs o (by simp [ho])
  | field dynamic => exact (hs _ (by simp)).asValue dynamic
  | @present pred thn c ops limit s p eval holds =>
    have hc : (Op.cond pred thn c).Sound s.cur.fs.length .field := hs _ (by simp)
    exact hc.2.2.1
  | nest => exact hs.2.1
  | window size fits => exact hs.2.1
  | counted => exact hs.2.1
  | «open» => exact hs.2.1
  | element => exact hs
  | @another elem limit n i out cur v cur' ran =>
    have hlen := (opValue_ownFrame H buf elem _ _ _ _ ran).2
    simp only [Site.Sound] at hs ⊢
    rwa [hlen]
  | eofElement => exact hs
  | @eofAnother elem limit left i out cur v cur' more ran =>
    have hlen := (opValue_ownFrame H buf elem _ _ _ _ ran).2
    simp only [Site.Sound] at hs ⊢
    rwa [hlen]
  | branch eval pick => exact pickCase_sound hs.2.1 hs.2.2.1 pick

lemma leaves_cases (H : Hashes) (buf : Bytes) : OpCases
    (fun op => ∀ d, op.Sound d .value → LeavesFrames (opValue H buf op)) (fun _ => True) where
  fixed width items := by
    rintro d ⟨kind, rfl, rfl⟩ limit cur v next h
    simp only [opValue, doFixed, Exec.bind_eq_ok, Prod.exists, List.head?_cons, Exec.expect_some,
      Except.ok.injEq] at h
    obtain ⟨_, -, item, rfl, w, fs, hi, h⟩ := h
    cases h
    obtain ⟨raw, fs₁, -, -, hst, hsp, -⟩ := readFixedItem_eq_ok hi
    have hfs : fs₁ = cur.fs := by
      unfold storeInt storeReg at hst
      split at hst <;> exact (Except.ok.inj hst).symm
    rw [← hfs]
    exact (Except.ok.inj hsp).symm
  bytes len max c := by
    intro d _ limit cur v next h
    simp only [opValue, doBytes, Exec.bind_eq_ok] at h
    obtain ⟨n, -, _, -, raw, -, h⟩ := h
    cases h
    rfl
  str len max enc c := by
    intro d _ limit cur v next h
    simp only [opValue, doStr, Exec.bind_eq_ok] at h
    obtain ⟨n, -, _, -, raw, -, h⟩ := h
    split at h
    · cases h
      rfl
    · simp [invalid] at h
  cstr max enc c := by
    intro d _ limit cur v next h
    simp only [opValue, doCstr, Exec.bind_eq_ok] at h
    obtain ⟨window, -, seen, -, h⟩ := h
    unfold cstrEnd cstrAt at h
    split at h
    · obtain ⟨raw, -, h⟩ := Exec.bind_eq_ok.mp h
      split at h
      · cases h
        rfl
      · simp [invalid] at h
    · split_ifs at h <;> simp [invalid] at h
  bitRun nbytes items := by
    rintro d ⟨h, -⟩
    cases h
  flags prim be items rest restMask c := by
    intro d _ limit cur v next h
    simp only [opValue, doFlags, setFlags_value, mapSet_value, Exec.bind_ok, Exec.bind_eq_ok] at h
    obtain ⟨_, -, bytes, -, h⟩ := h
    cases rest with
    | keep => cases h; rfl
    | ignore => cases h; rfl
    | strict =>
      simp only at h
      split_ifs at h
      · simp [invalid] at h
      · cases h
        rfl
  digest algo overs verify be c := by
    rintro d ⟨h, -⟩
    cases h
  nest prog size c _ := by
    intro d _
    rw [opValue]
    exact doNest_leaves (runStruct_leaves H buf prog) size
  array count maxCount elem elemMin c he := by
    intro d hs limit cur v next h
    have helem := he d hs.2.1
    have hcount : ∀ n i out cur, countLoop (opValue H buf elem) limit n i out cur = .ok (v, next) →
        next.fs = cur.fs := by
      intro n
      induction n with
      | zero =>
        intro i out cur h
        cases h
        rfl
      | succ n ih =>
        intro i out cur h
        simp only [countLoop, Exec.bind_eq_ok, Prod.exists] at h
        obtain ⟨w, cur', hw, h⟩ := h
        rw [ih _ _ _ h, helem _ _ _ _ (Exec.mapErr_eq_ok.mp hw)]
    have heof : ∀ left i out cur, eofLoop (opValue H buf elem) limit left i out cur = .ok (v, next) →
        next.fs = cur.fs := by
      intro left
      induction left with
      | zero =>
        intro i out cur h
        simp only [eofLoop] at h
        split_ifs at h
        · simp [invalid] at h
        · cases h
          rfl
      | succ left ih =>
        intro i out cur h
        simp only [eofLoop] at h
        split_ifs at h
        · simp only [Exec.bind_eq_ok, Prod.exists] at h
          obtain ⟨w, cur', hw, h⟩ := h
          rw [ih _ _ _ h, helem _ _ _ _ (Exec.mapErr_eq_ok.mp hw)]
        · cases h
          rfl
    rw [opValue] at h
    cases count with
    | untilEof => exact heof _ _ _ _ h
    | expr expr inv =>
      simp only [doArray, Exec.bind_eq_ok] at h
      obtain ⟨n, -, h⟩ := h
      split_ifs at h
      · simp [invalid] at h
      · simp [invalid] at h
      · obtain ⟨_, -, h⟩ := Exec.bind_eq_ok.mp h
        exact hcount _ _ _ _ h
  switch on cases default c hc hd := by
    intro d hs limit cur v next h
    rw [opValue_switch] at h
    simp only [doSwitch, Exec.bind_eq_ok] at h
    obtain ⟨tag, -, h⟩ := h
    cases hp : pickCase cases default tag with
    | none => simp [hp, invalid] at h
    | some op =>
      rw [hp] at h
      obtain ⟨branch, hb, rfl⟩ | ho := pickCase_mem hp
      · exact hc branch hb d (casesSound_iff.mp hs.2.1 branch hb) _ _ _ _ h
      · exact hd op ho d (defaultSound_iff.mp hs.2.2.1 op ho) _ _ _ _ h
  cond pred thn c _ := by
    rintro d ⟨h, -⟩
    cases h
  prog _ _ _ _ _ _ := trivial

/-- A value leaves the frames as they are. -/
lemma opValue_leaves (H : Hashes) (buf : Bytes) {op : Op} {d : Nat} (h : op.Sound d .value) :
    LeavesFrames (opValue H buf op) :=
  (leaves_cases H buf).op op d h

end Rustruct

import Rustruct.Proofs.Open

/-!
# The steps of pack

Every step of pack writes from its place on, or into something that was left open, and leaves the rest.
-/

namespace Rustruct

open BitStream

/-- Other bytes where nothing of the frame is late. -/
lemma FrameSound.congr {p q : Nat} {out out' : Bytes} {f : PFrame} (h : FrameSound p out f) (hpq : p ≤ q)
    (hroom : p ≤ 8 * out.length) (hroom' : p ≤ 8 * out'.length)
    (hbits : ∀ a, f.Late a → ∀ b, a.1 ≤ b → b < a.2 → bitAt out' b = bitAt out b) : FrameSound q out' f where
  slot i r hr := ⟨(h.slot i r hr).1, Nat.le_trans (h.slot i r hr).2 hpq⟩
  digest d hd := Nat.le_trans (h.digest d hd) hpq
  clear a ha b hlo hhi := by rw [hbits a ha.late b hlo hhi, h.clear a ha b hlo hhi]
  small := h.small
  unknown := h.unknown
  valued i r x hr hx := by
    obtain ⟨hknown, hreg, hread⟩ := h.valued i r x hr hx
    have hstop := (h.slot i r hr).2
    refine ⟨hknown, hreg, ?_⟩
    rw [← hread]
    exact Slot.read_congr (by omega) (by omega) fun b hlo hhi => hbits _ (.inl ⟨i, r, hr, rfl⟩) b hlo hhi
  slots := h.slots
  mixed := h.mixed
  sorted := h.sorted

/-- All that is late in a frame is below the place of pack. -/
lemma FrameSound.below {p : Nat} {out : Bytes} {f : PFrame} (h : FrameSound p out f) {a : Nat × Nat} (ha : f.Late a) :
    a.2 ≤ p := by
  rcases ha with ⟨i, r, hr, rfl⟩ | ⟨d, hd, rfl⟩
  · exact (h.slot i r hr).2
  · exact h.digest d hd

namespace PCtx.Sound

variable {p q : Nat} {ctx : PCtx} {out : Bytes}

/-- New bytes from bit `p` on. -/
lemma write (hs : ctx.Sound p) (hpq : p ≤ q) (hroom : q ≤ 8 * out.length) (hsmall : out.length ≤ isizeMax)
    (hbits : ∀ b < p, bitAt out b = bitAt ctx.out b) (hclear : ∀ b, q ≤ b → bitAt out b = false) :
    Moves FrameKept p ctx q { ctx with out } where
  le := hpq
  frames := .refl _
  bits b hb _ := hbits b hb
  sound :=
    { room := hroom
      small := hsmall
      clear := hclear
      frames := fun f hf => (hs.frames f hf).congr hpq hs.room (Nat.le_trans hpq hroom) fun _ ha b _ hhi =>
        hbits b (Nat.lt_of_lt_of_le hhi ((hs.frames f hf).below ha))
      apart := hs.apart }

lemma extend {b : Bytes} (hs : ctx.Sound (8 * ctx.out.length)) (h : Rustruct.extend ctx.out b = .ok out) :
    out = ctx.out ++ b ∧ Writes ctx { ctx with out } := by
  obtain ⟨hlen, hle⟩ := extend_length h
  have hout : out = ctx.out ++ b := by
    unfold Rustruct.extend at h
    split_ifs at h
    · simp at h
    · exact (Except.ok.inj h).symm
  refine ⟨hout, hs.write (by dsimp only; omega) (Nat.le_refl _) hle (fun i hi => ?_) fun i hi => bitAt_ge hi⟩
  rw [hout, bitAt_append, if_pos hi]

/-- Room for more bytes. -/
lemma grow {n : Nat} {next : PCtx} (hs : ctx.Sound p) (hn : isizeMax + n < usizeSize) (h : ctx.grow n = .ok next) :
    next.frames = ctx.frames ∧ next.out = ctx.out ++ List.replicate n 0 ∧ Moves FrameKept p ctx p next := by
  have hsmall := hs.small
  have hroom := hs.room
  obtain ⟨hlen, hle⟩ := grow_length (by omega) h
  obtain ⟨out, ho, h⟩ := Exec.bind_eq_ok.mp h
  cases h
  rw [wrapAdd_of_lt (by omega)] at ho
  have hout : out = ctx.out ++ List.replicate n 0 := by
    unfold resize at ho
    split_ifs at ho
    · simp at ho
    · have hadd : ctx.out.length + n - ctx.out.length = n := by omega
      rw [← Except.ok.inj ho, List.take_of_length_le (by omega), hadd]
  refine ⟨rfl, hout, hs.write (Nat.le_refl p) (by dsimp only at hlen; omega) hle (fun b hb => ?_) fun b hb => ?_⟩
  · rw [hout, bitAt_append, if_pos (by omega)]
  · rw [hout, bitAt_append, bitAt_replicate_zero]
    split_ifs
    · exact hs.clear b hb
    · rfl

/-- Bytes in the room that there is. -/
lemma copyAt {pos : Nat} {b : Bytes} (hs : ctx.Sound (8 * pos)) (h : Rustruct.copyAt ctx.out pos b = .ok out) :
    Moves FrameKept (8 * pos) ctx (8 * (pos + b.length)) { ctx with out } := by
  have hlen := copyAt_length h
  have hle := (copyAt_eq_ok h).1
  have hsmall := hs.small
  refine hs.write (by omega) (by omega) (by omega) (fun i hi => copyAt_bits h (.inl hi)) fun i hi => ?_
  rw [copyAt_bits h (.inr hi), hs.clear i (by omega)]

lemma orBits {base off n v : Nat} (hs : ctx.Sound (8 * base + off)) (hfit : 8 * base + off + n ≤ 8 * ctx.out.length)
    (hcount : off + n ≤ u32Size) (h : Rustruct.orBits base v n off ctx.out = .ok out) :
    Moves FrameKept (8 * base + off) ctx (8 * base + off + n) { ctx with out } := by
  obtain ⟨hlen, hbits⟩ := orBits_bits hfit hcount h
  have hsmall := hs.small
  have houtside : ∀ i, i < 8 * base + off ∨ 8 * base + off + n ≤ i → bitAt out i = bitAt ctx.out i := by
    intro i hi
    have hno : ¬(8 * base + off ≤ i ∧ i < 8 * base + off + n) := by omega
    rw [hbits, decide_eq_false hno, Bool.false_and, Bool.or_false]
  refine hs.write (by omega) (by omega) (by omega) (fun i hi => houtside i (.inl hi)) fun i hi => ?_
  rw [houtside i (.inr hi), hs.clear i (by omega)]

/-- Nothing is written, and zeros are left. -/
lemma skip (hs : ctx.Sound p) (hpq : p ≤ q) (hroom : q ≤ 8 * ctx.out.length) : Moves FrameKept p ctx q ctx :=
  hs.write hpq hroom hs.small (fun _ _ => rfl) fun b hb => hs.clear b (Nat.le_trans hpq hb)

end PCtx.Sound

/-- A field of the scope: its register, its span and the digest that it may be. -/
structure FieldStep (p : Nat) (reg span : Option Nat) (range : Nat × Nat) (ds : List PDigest) (f g : PFrame) :
    Prop where
  regs : ∀ i, reg ≠ some i.val → RegKept f g i
  own : ∀ i, reg = some i.val → (f.res i = none ∧ f.known i = false) ∧ ∀ r, g.res i = some r → p ≤ r.slot.start
  used : ∀ i, reg = some i.val → g.res i = none → g.known i = true
  spans : ∀ j, g.spans j = if span = some j.val then range else f.spans j
  digests : g.digests = f.digests ++ ds
  new : ∀ d ∈ ds, p ≤ 8 * d.pos

section FieldStep

variable {p : Nat} {reg span : Option Nat} {range : Nat × Nat} {ds : List PDigest} {f g h : PFrame}

lemma FieldStep.grows (hs : FieldStep p reg span range ds f g) : FrameGrows p f g where
  regs i := by
    by_cases hi : reg = some i.val
    · exact .inr (hs.own i hi)
    · exact .inl (hs.regs i hi)
  digests := ⟨ds, hs.digests, hs.new⟩

/-- What is packed in the course of the field writes none of its own marks. -/
lemma FieldStep.after (hk : FrameKept f g) (hs : FieldStep p reg span range ds g h) :
    FieldStep p reg span range ds f h where
  regs i hi := (hk.regs i).trans (hs.regs i hi)
  own i hi := by
    obtain ⟨⟨hn, hunknown⟩, hnew⟩ := hs.own i hi
    have hnone := (hk.regs i).none.mp hn
    exact ⟨⟨hnone, ((hk.regs i).plain hnone).1 ▸ hunknown⟩, hnew⟩
  used := hs.used
  spans j := by rw [hs.spans, hk.spans]
  digests := by rw [hs.digests, hk.digests]
  new := hs.new

end FieldStep

namespace PFrame

/-- The frame with an integer in a register. -/
def putReg (f : PFrame) (reg : Option Nat) (v : Int) : PFrame :=
  { f with
    regs := fun j => if reg = some j.val then v else f.regs j
    known := fun j => if reg = some j.val then true else f.known j }

def putSpan (f : PFrame) (span : Option Nat) (range : Nat × Nat) : PFrame :=
  { f with spans := fun j => if span = some j.val then range else f.spans j }

/-- The frame with a slot that is reserved for a register. -/
def putSlot (f : PFrame) (reg : Option Nat) (slot : Slot) : PFrame :=
  { f with res := fun j => if reg = some j.val then some { slot, value := none } else f.res j }

end PFrame

section Put

lemma update_ite {α : Type} {n i : Nat} (hi : i < n) (old : Fin n → α) (a : α) :
    Function.update old ⟨i, hi⟩ a = fun j => if some i = some j.val then a else old j := by
  funext j
  by_cases hj : j = ⟨i, hi⟩
  · subst hj
    simp
  · have hne : ¬some i = some j.val := fun h => hj (Fin.ext (Option.some.inj h).symm)
    rw [Function.update_of_ne hj, if_neg hne]

variable {out : Bytes} {f : PFrame} {fs : List PFrame}

lemma setReg_put {reg : Option Nat} (hreg : ∀ i ∈ reg, i < maxRegs) (v : Int) :
    PCtx.setReg { out, frames := f :: fs } reg v = .ok { out, frames := f.putReg reg v :: fs } := by
  cases reg with
  | none => rfl
  | some i =>
    have hi := hreg i rfl
    simp only [PCtx.setReg, PCtx.updateTop, dif_pos hi, Exec.bind_ok, update_ite hi]
    rfl

lemma setSpan_put {span : Option Nat} (hspan : ∀ i ∈ span, i < maxSpans) (start stop : Nat) :
    PCtx.setSpan { out, frames := f :: fs } span start stop =
      .ok { out, frames := f.putSpan span (start, stop) :: fs } := by
  cases span with
  | none => rfl
  | some i =>
    have hi := hspan i rfl
    simp only [PCtx.setSpan, PCtx.updateTop, dif_pos hi, Exec.bind_ok, update_ite hi]
    rfl

lemma reserve_put {reg : Option Nat} (hreg : ∀ i ∈ reg, i < maxRegs) {slot : Slot} {next : PCtx} :
    PCtx.reserve { out, frames := f :: fs } reg slot = .ok next ↔
      reg.isSome ∧ next = { out, frames := f.putSlot reg slot :: fs } := by
  cases reg with
  | none => simp [PCtx.reserve]
  | some i =>
    have hi := hreg i rfl
    simp only [PCtx.reserve, Exec.expect_some, PCtx.updateTop, dif_pos hi, Exec.bind_ok, update_ite hi]
    constructor
    · intro h
      exact ⟨rfl, (Except.ok.inj h).symm⟩
    · rintro ⟨-, rfl⟩
      rfl

end Put

section Head

variable {p q : Nat} {out : Bytes} {f g : PFrame} {fs : List PFrame} {reg span : Option Nat} {range : Nat × Nat}
  {ds : List PDigest}

/-- The frame of the scope changes, and nothing is written. -/
lemma PCtx.Sound.head {R : PFrame → PFrame → Prop} (hs : PCtx.Sound p { out, frames := f :: fs }) (hpq : p ≤ q)
    (hroom : q ≤ 8 * out.length) (hR : R f g) (hg : FrameSound q out g) (hlate : ∀ a, g.Late a → f.Late a ∨ p ≤ a.1) :
    Moves R p { out, frames := f :: fs } q { out, frames := g :: fs } where
  le := hpq
  frames := ⟨hR, forall₂_kept_refl fs⟩
  bits _ _ _ := rfl
  sound :=
    { room := hroom
      small := hs.small
      clear := fun b hb => hs.clear b (Nat.le_trans hpq hb)
      frames := by
        intro f' hf'
        rcases List.mem_cons.mp hf' with rfl | hf'
        · exact hg
        · exact (hs.frames f' (List.mem_cons_of_mem _ hf')).congr hpq hs.room (Nat.le_trans hpq hroom)
            fun _ _ _ _ _ => rfl
      apart := by
        -- What is new in the frame is after all that is late in the others.
        have hnew : ∀ (k : Nat) (h : PFrame), fs[k]? = some h → ∀ a b, g.Late a → h.Late b → Separate a b := by
          intro k h hk a b ha hb
          rcases hlate a ha with hold | hlo
          · exact hs.apart 0 (k + 1) f h (by omega) rfl hk a b hold hb
          · have hbelow := (hs.frames h (List.mem_cons_of_mem _ (List.mem_of_getElem? hk))).below hb
            exact .inr (Nat.le_trans hbelow hlo)
        intro j k f₁ f₂ hne hj hk a b ha hb
        cases j with
        | zero =>
          obtain rfl := Option.some.inj hj
          cases k with
          | zero => exact absurd rfl hne
          | succ k => exact hnew k f₂ hk a b ha hb
        | succ j =>
          cases k with
          | zero =>
            obtain rfl := Option.some.inj hk
            exact (hnew j f₁ hj b a hb ha).symm
          | succ k => exact hs.apart (j + 1) (k + 1) f₁ f₂ hne hj hk a b ha hb }

/-- The register is not in use. -/
def PFrame.Fresh (f : PFrame) (reg : Option Nat) : Prop :=
  ∀ i : Fin maxRegs, reg = some i.val → f.res i = none ∧ f.known i = false

lemma PFrame.Fresh.ne (h : f.Fresh reg) {i : Fin maxRegs} {r : Resv} (hr : f.res i = some r) : ¬reg = some i.val := by
  intro he
  rw [(h i he).1] at hr
  cases hr

lemma FrameSound.putReg (h : FrameSound p out f) (hfresh : f.Fresh reg) {v : Int} (hv : InI64 v) :
    FrameSound p out (f.putReg reg v) where
  slot := h.slot
  digest := h.digest
  clear := h.clear
  small i := by
    simp only [PFrame.putReg]
    split_ifs
    · exact hv
    · exact h.small i
  unknown i r hr hv := by
    have hne := hfresh.ne (show f.res i = some r from hr)
    have hknown := h.unknown i r hr hv
    simp only [PFrame.putReg, if_neg hne, hknown]
  valued i r x hr hx := by
    have hne := hfresh.ne (show f.res i = some r from hr)
    have hval := h.valued i r x hr hx
    simp only [PFrame.putReg, if_neg hne]
    exact hval
  slots := h.slots
  mixed := h.mixed
  sorted := h.sorted

lemma FrameSound.putSpan (h : FrameSound p out f) (span : Option Nat) (range : Nat × Nat) :
    FrameSound p out (f.putSpan span range) :=
  ⟨h.slot, h.digest, h.clear, h.small, h.unknown, h.valued, h.slots, h.mixed, h.sorted⟩

lemma putSlot_eq_some {slot : Slot} {i : Fin maxRegs} {r : Resv} (h : (f.putSlot reg slot).res i = some r) :
    reg = some i.val ∧ r = { slot, value := none } ∨ reg ≠ some i.val ∧ f.res i = some r := by
  by_cases hi : reg = some i.val
  · simp only [PFrame.putSlot, if_pos hi] at h
    exact .inl ⟨hi, (Option.some.inj h).symm⟩
  · simp only [PFrame.putSlot, if_neg hi] at h
    exact .inr ⟨hi, h⟩

lemma FrameSound.putSlot (h : FrameSound p out f) (slot : Slot) (hfresh : f.Fresh reg) (hok : slot.Ok)
    (hstart : slot.start = p) (hstop : slot.stop = q) (hclear : ∀ b, p ≤ b → bitAt out b = false) (hpq : p ≤ q) :
    FrameSound q out (f.putSlot reg slot) where
  slot i r hr := by
    rcases putSlot_eq_some hr with ⟨-, rfl⟩ | ⟨-, hr⟩
    · exact ⟨hok, Nat.le_of_eq hstop⟩
    · exact ⟨(h.slot i r hr).1, Nat.le_trans (h.slot i r hr).2 hpq⟩
  digest d hd := Nat.le_trans (h.digest d hd) hpq
  clear a ha := by
    rcases ha with ⟨i, r, hr, hv, rfl⟩ | hd
    · rcases putSlot_eq_some hr with ⟨-, rfl⟩ | ⟨-, hr⟩
      · intro b hlo _
        exact hclear b (hstart ▸ hlo)
      · exact h.clear _ (.inl ⟨i, r, hr, hv, rfl⟩)
    · exact h.clear a (.inr hd)
  small := h.small
  unknown i r hr hv := by
    rcases putSlot_eq_some hr with ⟨hi, -⟩ | ⟨-, hr⟩
    · exact (hfresh i hi).2
    · exact h.unknown i r hr hv
  valued i r x hr hx := by
    rcases putSlot_eq_some hr with ⟨-, rfl⟩ | ⟨-, hr⟩
    · cases hx
    · exact h.valued i r x hr hx
  slots i j r s hr hs hne := by
    rcases putSlot_eq_some hr with ⟨hi, rfl⟩ | ⟨-, hr⟩
    · rcases putSlot_eq_some hs with ⟨hj, -⟩ | ⟨-, hs⟩
      · exact absurd (Fin.ext (Option.some.inj (hi.symm.trans hj))) hne
      · exact .inr (Nat.le_trans (h.slot j s hs).2 (Nat.le_of_eq hstart.symm))
    · rcases putSlot_eq_some hs with ⟨-, rfl⟩ | ⟨-, hs⟩
      · exact .inl (Nat.le_trans (h.slot i r hr).2 (Nat.le_of_eq hstart.symm))
      · exact h.slots i j r s hr hs hne
  mixed i r d hd hr := by
    rcases putSlot_eq_some hr with ⟨-, rfl⟩ | ⟨-, hr⟩
    · exact .inr (Nat.le_trans (h.digest d hd) (Nat.le_of_eq hstart.symm))
    · exact h.mixed i r d hd hr
  sorted := h.sorted

/-- The frame with one more digest to fill. -/
def PFrame.addDigest (f : PFrame) (d : PDigest) : PFrame := { f with digests := f.digests ++ [d] }

lemma FrameSound.addDigest {d : PDigest} (h : FrameSound (8 * d.pos) out f)
    (hclear : ∀ b, 8 * d.pos ≤ b → bitAt out b = false) : FrameSound (8 * (d.pos + d.width)) out (f.addDigest d) where
  slot i r hr := ⟨(h.slot i r hr).1, Nat.le_trans (h.slot i r hr).2 (by omega)⟩
  digest e he := by
    rcases List.mem_append.mp he with he | he
    · have := h.digest e he
      omega
    · obtain rfl := List.mem_singleton.mp he
      exact Nat.le_refl _
  clear a ha := by
    rcases ha with hr | ⟨e, he, rfl⟩
    · exact h.clear a (.inl hr)
    · rcases List.mem_append.mp he with he | he
      · exact h.clear _ (.inr ⟨e, he, rfl⟩)
      · obtain rfl := List.mem_singleton.mp he
        exact fun b hlo _ => hclear b hlo
  small := h.small
  unknown := h.unknown
  valued := h.valued
  slots := h.slots
  mixed i r e he hr := by
    rcases List.mem_append.mp he with he | he
    · exact h.mixed i r e he hr
    · obtain rfl := List.mem_singleton.mp he
      exact .inl (h.slot i r hr).2
  sorted := by
    refine List.pairwise_append.mpr ⟨h.sorted, List.pairwise_singleton _ _, fun e he e' he' => ?_⟩
    obtain rfl := List.mem_singleton.mp he'
    have := h.digest e he
    omega

lemma FieldStep.putReg (hfresh : f.Fresh reg) (v : Int) :
    FieldStep p reg span range [] f ((f.putReg reg v).putSpan span range) where
  regs i hi := by
    refine ⟨rfl, fun r hr _ => hr, fun _ => ?_⟩
    simp only [PFrame.putReg, PFrame.putSpan, if_neg hi, and_self]
  own i hi := by
    refine ⟨hfresh i hi, fun r hr => ?_⟩
    exact absurd hi (hfresh.ne (show f.res i = some r from hr))
  used i hi _ := by simp only [PFrame.putReg, PFrame.putSpan, if_pos hi]
  spans _ := rfl
  digests := (List.append_nil _).symm
  new _ hd := absurd hd List.not_mem_nil

lemma FieldStep.putSlot (hfresh : f.Fresh reg) {slot : Slot} (hstart : slot.start = p) :
    FieldStep p reg span range [] f ((f.putSlot reg slot).putSpan span range) where
  regs i hi := by
    have hres : ((f.putSlot reg slot).putSpan span range).res i = f.res i := by
      simp only [PFrame.putSlot, PFrame.putSpan, if_neg hi]
    refine ⟨by rw [hres], fun r hr _ => hres.trans hr, fun _ => ⟨rfl, rfl⟩⟩
  own i hi := by
    refine ⟨hfresh i hi, fun r hr => ?_⟩
    rcases putSlot_eq_some (f := f) hr with ⟨-, rfl⟩ | ⟨hne, -⟩
    · exact Nat.le_of_eq hstart.symm
    · exact absurd hi hne
  used i hi hn := by
    have hsome : (f.putSlot reg slot).res i = some { slot, value := none } := by
      simp only [PFrame.putSlot, if_pos hi]
    rw [show ((f.putSlot reg slot).putSpan span range).res i = some { slot, value := none } from hsome] at hn
    cases hn
  spans _ := rfl
  digests := (List.append_nil _).symm
  new _ hd := absurd hd List.not_mem_nil

/-- A field that has no register. -/
lemma FieldStep.putSpan : FieldStep p none span range [] f (f.putSpan span range) :=
  FieldStep.putReg (fun _ hi => by cases hi) 0

end Head

section Patch

variable {p : Nat} {out out' : Bytes} {f : PFrame} {idx : Fin maxRegs} {slot : Slot} {x : Int}

/-- The frame whose derived field has got its value. -/
def PFrame.settle (f : PFrame) (idx : Fin maxRegs) (slot : Slot) (x : Int) : PFrame :=
  { f with
    regs := Function.update f.regs idx x
    known := Function.update f.known idx true
    res := Function.update f.res idx (some { slot, value := some x }) }

lemma settle_self : (f.settle idx slot x).res idx = some { slot, value := some x } ∧
    (f.settle idx slot x).known idx = true ∧ (f.settle idx slot x).regs idx = x :=
  ⟨Function.update_self .., Function.update_self .., Function.update_self ..⟩

lemma settle_other {i : Fin maxRegs} (hi : i ≠ idx) : (f.settle idx slot x).res i = f.res i ∧
    (f.settle idx slot x).known i = f.known i ∧ (f.settle idx slot x).regs i = f.regs i :=
  ⟨Function.update_of_ne hi .., Function.update_of_ne hi .., Function.update_of_ne hi ..⟩

lemma settle_eq_some {i : Fin maxRegs} {r : Resv} (h : (f.settle idx slot x).res i = some r) :
    i = idx ∧ r = { slot, value := some x } ∨ i ≠ idx ∧ f.res i = some r := by
  by_cases hi : i = idx
  · subst hi
    rw [settle_self.1] at h
    exact .inl ⟨rfl, (Option.some.inj h).symm⟩
  · rw [(settle_other hi).1] at h
    exact .inr ⟨hi, h⟩

lemma settle_open {a : Nat × Nat} (h : (f.settle idx slot x).Open a) :
    (∃ i r, f.res i = some r ∧ r.value = none ∧ i ≠ idx ∧ a = r.slot.range) ∨ ∃ d ∈ f.digests, a = d.range := by
  rcases h with ⟨i, r, hr, hv, rfl⟩ | hd
  · rcases settle_eq_some hr with ⟨-, rfl⟩ | ⟨hi, hr⟩
    · cases hv
    · exact .inl ⟨i, r, hr, hv, hi, rfl⟩
  · exact .inr hd

variable (hres : f.res idx = some { slot, value := none })

include hres

lemma FrameKept.settle : FrameKept f (f.settle idx slot x) where
  regs i := by
    by_cases hi : i = idx
    · subst hi
      refine ⟨?_, fun r hr hv => ?_, fun hn => ?_⟩
      · rw [settle_self.1, hres]
        rfl
      · rw [hres] at hr
        obtain rfl := Option.some.inj hr
        cases hv
      · rw [hres] at hn
        cases hn
    · obtain ⟨hsame, hrest⟩ : (f.settle idx slot x).res i = f.res i ∧ (f.settle idx slot x).known i = f.known i ∧
        (f.settle idx slot x).regs i = f.regs i := settle_other hi
      exact ⟨by rw [hsame], fun r hr _ => hsame.trans hr, fun _ => hrest⟩
  spans := rfl
  digests := rfl

/-- What was settled stays late. -/
lemma settle_late {a : Nat × Nat} (h : (f.settle idx slot x).Late a) : f.Late a := by
  rcases h with ⟨i, r, hr, rfl⟩ | hd
  · rcases settle_eq_some hr with ⟨-, rfl⟩ | ⟨-, hr⟩
    · exact .inl ⟨idx, _, hres, rfl⟩
    · exact .inl ⟨i, r, hr, rfl⟩
  · exact .inr hd

/-- Every other stretch of the frame is beside the slot. -/
lemma FrameSound.beside (h : FrameSound p out f) {i : Fin maxRegs} {r : Resv} (hr : f.res i = some r) (hi : i ≠ idx) :
    Separate r.slot.range slot.range :=
  h.slots i idx r _ hr hres hi

lemma FrameSound.settle (h : FrameSound p out f) (hroom : p ≤ 8 * out.length) (hlen : out'.length = out.length)
    (hread : slot.read out' = x) (hx : InI64 x)
    (hbits : ∀ b, b < slot.start ∨ slot.stop ≤ b → bitAt out' b = bitAt out b) :
    FrameSound p out' (f.settle idx slot x) := by
  have hsame : ∀ a : Nat × Nat, Separate a slot.range → ∀ b, a.1 ≤ b → b < a.2 → bitAt out' b = bitAt out b := by
    intro a ha b hlo hhi
    apply hbits
    rcases ha with ha | ha
    · exact .inl (Nat.lt_of_lt_of_le hhi ha)
    · exact .inr (Nat.le_trans ha hlo)
  have hin := h.slot idx _ hres
  constructor
  · intro i r hr
    rcases settle_eq_some hr with ⟨-, rfl⟩ | ⟨-, hr⟩
    · exact hin
    · exact h.slot i r hr
  · exact h.digest
  · intro a ha b hlo hhi
    rcases settle_open ha with ⟨i, r, hr, hv, hi, rfl⟩ | ⟨d, hd, rfl⟩
    · rw [hsame _ (h.beside hres hr hi) b hlo hhi]
      exact h.clear _ (.inl ⟨i, r, hr, hv, rfl⟩) b hlo hhi
    · rw [hsame _ (h.mixed idx _ d hd hres).symm b hlo hhi]
      exact h.clear _ (.inr ⟨d, hd, rfl⟩) b hlo hhi
  · intro i
    by_cases hi : i = idx
    · subst hi
      rw [settle_self.2.2]
      exact hx
    · rw [(settle_other hi).2.2]
      exact h.small i
  · intro i r hr hv
    rcases settle_eq_some hr with ⟨-, rfl⟩ | ⟨hi, hr⟩
    · cases hv
    · exact (settle_other hi).2.1.trans (h.unknown i r hr hv)
  · intro i r y hr hy
    rcases settle_eq_some hr with ⟨rfl, rfl⟩ | ⟨hi, hr⟩
    · obtain rfl := Option.some.inj hy
      exact ⟨settle_self.2.1, settle_self.2.2, hread⟩
    · obtain ⟨hknown, hreg, hold⟩ := h.valued i r y hr hy
      have hstop := (h.slot i r hr).2
      refine ⟨(settle_other hi).2.1.trans hknown, (settle_other hi).2.2.trans hreg, ?_⟩
      rw [← hold]
      exact Slot.read_congr (by omega) (by omega) (hsame _ (h.beside hres hr hi))
  · intro i j r s hr hs hne
    rcases settle_eq_some hr with ⟨rfl, rfl⟩ | ⟨hi, hr'⟩
    · rcases settle_eq_some hs with ⟨rfl, -⟩ | ⟨hj, hs'⟩
      · exact absurd rfl hne
      · exact (h.beside hres hs' hj).symm
    · rcases settle_eq_some hs with ⟨rfl, rfl⟩ | ⟨hj, hs'⟩
      · exact h.beside hres hr' hi
      · exact h.slots i j r s hr' hs' hne
  · intro i r d hd hr
    rcases settle_eq_some hr with ⟨-, rfl⟩ | ⟨-, hr⟩
    · exact h.mixed idx { slot, value := none } d hd hres
    · exact h.mixed i r d hd hr
  · exact h.sorted

end Patch

lemma forall₂_kept_set {fs : List PFrame} {k : Nat} {f g : PFrame} (hf : fs[k]? = some f) (hk : FrameKept f g) :
    List.Forall₂ FrameKept fs (fs.set k g) := by
  induction fs generalizing k with
  | nil => cases hf
  | cons h fs ih =>
    cases k with
    | zero =>
      obtain rfl := Option.some.inj hf
      exact .cons hk (forall₂_kept_refl fs)
    | succ k => exact .cons (.refl h) (ih hf)

/-- The register has this integer for good. -/
def PFrame.Settled (f : PFrame) (i : Fin maxRegs) (x : Int) : Prop :=
  f.res i = none ∧ f.known i = true ∧ f.regs i = x ∨ ∃ slot, f.res i = some { slot, value := some x }

section Consume

variable {p : Nat} {ctx next : PCtx}

/-- A slot is written, and nothing else. -/
lemma PCtx.Sound.settle (hs : ctx.Sound p) {k : Nat} {f : PFrame} {idx : Fin maxRegs} {slot : Slot} {x : Int}
    {out : Bytes} (hf : ctx.frames[k]? = some f) (hres : f.res idx = some { slot, value := none }) (hx : InI64 x)
    (h : writeSlot ctx.out slot x = .ok out) :
    Moves FrameKept p ctx p { out, frames := ctx.frames.set k (f.settle idx slot x) } := by
  have hmem := List.mem_of_getElem? hf
  have hframe := hs.frames f hmem
  obtain ⟨hok, hstop⟩ : slot.Ok ∧ slot.stop ≤ p := hframe.slot idx _ hres
  have hroom := hs.room
  have hopen : f.Open slot.range := .inl ⟨idx, _, hres, rfl, rfl⟩
  obtain ⟨hlen, hread, hbits⟩ := writeSlot_spec hok (by omega) (hframe.clear _ hopen) h
  have hk : k < ctx.frames.length := (List.getElem?_eq_some_iff.mp hf).1
  -- The frames afterwards: that of the slot, and the others as they were.
  have hget : ∀ (j : Nat) (g : PFrame), (ctx.frames.set k (f.settle idx slot x))[j]? = some g →
      j = k ∧ g = f.settle idx slot x ∨ j ≠ k ∧ ctx.frames[j]? = some g := by
    intro j g hg
    by_cases hj : j = k
    · subst hj
      rw [List.getElem?_set_self hk] at hg
      exact .inl ⟨rfl, (Option.some.inj hg).symm⟩
    · rw [List.getElem?_set_ne (fun he => hj he.symm)] at hg
      exact .inr ⟨hj, hg⟩
  constructor
  · exact Nat.le_refl p
  · exact FramesStep.iff_forall₂.mpr (forall₂_kept_set hf (.settle hres))
  · intro b hb ho
    apply hbits
    by_contra hno
    exact ho ⟨f, hmem, slot.range, hopen, by dsimp only [Slot.range]; omega, by dsimp only [Slot.range]; omega⟩
  · constructor
    · dsimp only
      omega
    · have hsmall := hs.small
      dsimp only
      omega
    · intro b hb
      rw [hbits b (.inr (Nat.le_trans hstop hb)), hs.clear b hb]
    · intro g hg
      obtain ⟨j, hj⟩ := List.getElem?_of_mem hg
      rcases hget j g hj with ⟨-, rfl⟩ | ⟨hne, hj⟩
      · exact hframe.settle hres hroom hlen hread hx hbits
      · refine (hs.frames g (List.mem_of_getElem? hj)).congr (Nat.le_refl p) hroom (by dsimp only; omega)
          fun a ha b hlo hhi => ?_
        apply hbits
        rcases hs.apart j k g f hne hj hf a slot.range ha (.inl ⟨idx, _, hres, rfl⟩) with hsep | hsep
        · exact .inl (Nat.lt_of_lt_of_le hhi hsep)
        · exact .inr (Nat.le_trans hsep hlo)
    · intro j l g₁ g₂ hne hj hl a b ha hb
      rcases hget j g₁ hj with ⟨rfl, rfl⟩ | ⟨-, hj'⟩
      · rcases hget l g₂ hl with ⟨rfl, -⟩ | ⟨-, hl'⟩
        · exact absurd rfl hne
        · exact hs.apart j l f g₂ hne hf hl' a b (settle_late hres ha) hb
      · rcases hget l g₂ hl with ⟨rfl, rfl⟩ | ⟨-, hl'⟩
        · exact hs.apart j l g₁ f hne hj' hf a b ha (settle_late hres hb)
        · exact hs.apart j l g₁ g₂ hne hj' hl' a b ha hb

lemma PCtx.Sound.applyInv (hs : ctx.Sound p) {inv : Inv} {actual : Int} (h : ctx.applyInv inv actual = .ok next)
    (hfits : ∀ x, invert inv actual = .ok x → InI64 x) :
    Moves FrameKept p ctx p next ∧ ∃ x, invert inv actual = .ok x ∧ ∃ g, next.frames[inv.reg.up]? = some g ∧
      ∃ hi : inv.reg.idx < maxRegs, g.Settled ⟨inv.reg.idx, hi⟩ x := by
  obtain ⟨x, hx, h⟩ := Exec.bind_eq_ok.mp h
  cases hf : ctx.frames[inv.reg.up]? with
  | none =>
    rw [hf] at h
    cases h
  | some f =>
    rw [hf] at h
    dsimp only at h
    by_cases hidx : inv.reg.idx < maxRegs
    · rw [dif_pos hidx] at h
      cases hres : f.res ⟨inv.reg.idx, hidx⟩ with
      | none =>
        simp only [hres] at h
        split_ifs at h with hknown
        · cases h
          exact ⟨.refl hs, x, hx, f, hf, hidx, .inl ⟨hres, hknown⟩⟩
        · cases h
      | some r =>
        obtain ⟨slot, value⟩ := r
        simp only [hres] at h
        cases value with
        | some prev =>
          dsimp only at h
          split_ifs at h with hprev
          · cases h
          · cases h
            obtain rfl := not_not.mp hprev
            exact ⟨.refl hs, prev, hx, f, hf, hidx, .inr ⟨slot, hres⟩⟩
        | none =>
          obtain ⟨out, ho, h⟩ := Exec.bind_eq_ok.mp h
          cases h
          refine ⟨hs.settle hf hres (hfits x hx) ho, x, hx, f.settle ⟨inv.reg.idx, hidx⟩ slot x, ?_, hidx,
            .inr ⟨slot, settle_self.1⟩⟩
          exact List.getElem?_set_self (List.getElem?_eq_some_iff.mp hf).1
    · rw [dif_neg hidx] at h
      cases h

end Consume

end Rustruct

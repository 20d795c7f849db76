import Rustruct.Proofs.Slots

/-!
# What pack leaves open

While pack goes on, the bits of derived fields that no consumer has written yet, and those of the digests of
the open scopes, are still to come. All other bits are what they will be in the end.
-/

namespace Rustruct

open BitStream

/-- Two stretches of bits that do not overlap. -/
def Separate (a b : Nat × Nat) : Prop := a.2 ≤ b.1 ∨ b.2 ≤ a.1

lemma Separate.symm {a b : Nat × Nat} (h : Separate a b) : Separate b a := Or.symm h

namespace Slot

def range (s : Slot) : Nat × Nat := (s.start, s.stop)

end Slot

def PDigest.range (d : PDigest) : Nat × Nat := (8 * d.pos, 8 * (d.pos + d.width))

/-- These bits are still zero. -/
def Clear (out : Bytes) (range : Nat × Nat) : Prop := ∀ b, range.1 ≤ b → b < range.2 → bitAt out b = false

namespace PFrame

/-- A stretch of bits that is written later than in its turn. -/
def Late (f : PFrame) (range : Nat × Nat) : Prop :=
  (∃ i r, f.res i = some r ∧ range = r.slot.range) ∨ ∃ d ∈ f.digests, range = d.range

/-- A stretch of bits that is still to be written. -/
def Open (f : PFrame) (range : Nat × Nat) : Prop :=
  (∃ i r, f.res i = some r ∧ r.value = none ∧ range = r.slot.range) ∨ ∃ d ∈ f.digests, range = d.range

lemma Open.late {f : PFrame} {range : Nat × Nat} (h : f.Open range) : f.Late range := by
  rcases h with ⟨i, r, hr, -, he⟩ | hd
  · exact .inl ⟨i, r, hr, he⟩
  · exact .inr hd

end PFrame

namespace PCtx

/-- The bit is still to be written. -/
def Opens (ctx : PCtx) (b : Nat) : Prop := ∃ f ∈ ctx.frames, ∃ range, f.Open range ∧ range.1 ≤ b ∧ b < range.2

end PCtx

/-- The bytes are those of pack so far, but for what is still to be written. -/
structure Completes (buf : Bytes) (p : Nat) (ctx : PCtx) : Prop where
  room : p ≤ 8 * buf.length
  bits : ∀ b < p, ¬ctx.Opens b → bitAt buf b = bitAt ctx.out b

/-- The register keeps its place, and its value when it has one. -/
structure RegKept (f g : PFrame) (i : Fin maxRegs) : Prop where
  slot : (g.res i).map Resv.slot = (f.res i).map Resv.slot
  value : ∀ r, f.res i = some r → r.value.isSome → g.res i = some r
  plain : f.res i = none → g.known i = f.known i ∧ g.regs i = f.regs i

lemma RegKept.refl (f : PFrame) (i : Fin maxRegs) : RegKept f f i := ⟨rfl, fun _ h _ => h, fun _ => ⟨rfl, rfl⟩⟩

namespace RegKept

variable {f g h : PFrame} {i : Fin maxRegs}

lemma none (hk : RegKept f g i) : g.res i = none ↔ f.res i = none := by
  rw [← Option.map_eq_none_iff (f := Resv.slot), hk.slot, Option.map_eq_none_iff]

lemma trans (h₁ : RegKept f g i) (h₂ : RegKept g h i) : RegKept f h i where
  slot := h₂.slot.trans h₁.slot
  value r hr hv := h₂.value r (h₁.value r hr hv) hv
  plain hn := by
    obtain ⟨hk₁, hr₁⟩ := h₁.plain hn
    obtain ⟨hk₂, hr₂⟩ := h₂.plain (h₁.none.mpr hn)
    exact ⟨hk₂.trans hk₁, hr₂.trans hr₁⟩

/-- The slot of a register was there before. -/
lemma back (hk : RegKept f g i) {r : Resv} (hr : g.res i = some r) :
    ∃ r', f.res i = some r' ∧ r'.slot = r.slot ∧ (r.value = Option.none → r'.value = Option.none) := by
  have hslot := hk.slot
  rw [hr] at hslot
  cases hf : f.res i with
  | none =>
    rw [hf] at hslot
    cases hslot
  | some r' =>
    rw [hf] at hslot
    refine ⟨r', rfl, (Option.some.inj hslot).symm, fun hv => ?_⟩
    by_contra hne
    have hsame := hk.value r' hf (Option.isSome_iff_ne_none.mpr hne)
    rw [hr] at hsame
    obtain rfl := Option.some.inj hsame
    exact hne hv

end RegKept

/-- The frame of an outer scope: its derived fields may be written. -/
structure FrameKept (f g : PFrame) : Prop where
  regs : ∀ i, RegKept f g i
  spans : g.spans = f.spans
  digests : g.digests = f.digests

lemma FrameKept.refl (f : PFrame) : FrameKept f f := ⟨fun i => .refl f i, rfl, rfl⟩

lemma FrameKept.trans {f g h : PFrame} (h₁ : FrameKept f g) (h₂ : FrameKept g h) : FrameKept f h :=
  ⟨fun i => (h₁.regs i).trans (h₂.regs i), h₂.spans.trans h₁.spans, h₂.digests.trans h₁.digests⟩

/-- The frame of the scope itself: fields are added to it, from bit `p` on. -/
structure FrameGrows (p : Nat) (f g : PFrame) : Prop where
  regs : ∀ i, RegKept f g i ∨ (f.res i = none ∧ f.known i = false) ∧ ∀ r, g.res i = some r → p ≤ r.slot.start
  digests : ∃ ds, g.digests = f.digests ++ ds ∧ ∀ d ∈ ds, p ≤ 8 * d.pos

namespace FrameGrows

variable {p q : Nat} {f g h : PFrame}

lemma of_kept (hk : FrameKept f g) : FrameGrows p f g :=
  ⟨fun i => .inl (hk.regs i), [], by rw [hk.digests, List.append_nil], fun _ hd => absurd hd List.not_mem_nil⟩

lemma trans (h₁ : FrameGrows p f g) (hpq : p ≤ q) (h₂ : FrameGrows q g h) : FrameGrows p f h where
  regs i := by
    rcases h₁.regs i with hk | ⟨hn, hnew⟩
    · rcases h₂.regs i with hk' | ⟨⟨hn', hunknown⟩, hnew'⟩
      · exact .inl (hk.trans hk')
      · have hnone := hk.none.mp hn'
        exact .inr ⟨⟨hnone, (hk.plain hnone).1 ▸ hunknown⟩, fun r hr => Nat.le_trans hpq (hnew' r hr)⟩
    · refine .inr ⟨hn, fun r hr => ?_⟩
      rcases h₂.regs i with hk' | ⟨-, hnew'⟩
      · obtain ⟨r', hr', hslot, -⟩ := hk'.back hr
        rw [← hslot]
        exact hnew r' hr'
      · exact Nat.le_trans hpq (hnew' r hr)
  digests := by
    obtain ⟨ds, hds, hlo⟩ := h₁.digests
    obtain ⟨es, hes, hlo'⟩ := h₂.digests
    refine ⟨ds ++ es, by rw [hes, hds, List.append_assoc], fun d hd => ?_⟩
    rcases List.mem_append.mp hd with hd | hd
    · exact hlo d hd
    · exact Nat.le_trans hpq (hlo' d hd)

/-- What is open afterwards was open before, or is new. -/
lemma back (hg : FrameGrows p f g) {range : Nat × Nat} (ho : g.Open range) : f.Open range ∨ p ≤ range.1 := by
  rcases ho with ⟨i, r, hr, hv, rfl⟩ | ⟨d, hd, rfl⟩
  · rcases hg.regs i with hk | ⟨-, hnew⟩
    · obtain ⟨r', hr', hslot, hval⟩ := hk.back hr
      exact .inl (.inl ⟨i, r', hr', hval hv, by rw [hslot]⟩)
    · exact .inr (hnew r hr)
  · obtain ⟨ds, hds, hlo⟩ := hg.digests
    rw [hds] at hd
    rcases List.mem_append.mp hd with hd | hd
    · exact .inl (.inr ⟨d, hd, rfl⟩)
    · exact .inr (hlo d hd)

end FrameGrows

/-- `R` for the frame of the scope itself. -/
def FramesStep (R : PFrame → PFrame → Prop) : List PFrame → List PFrame → Prop
  | [], [] => True
  | f :: fs, g :: gs => R f g ∧ List.Forall₂ FrameKept fs gs
  | _, _ => False

lemma forall₂_kept_refl (fs : List PFrame) : List.Forall₂ FrameKept fs fs := by
  induction fs with
  | nil => exact .nil
  | cons f fs ih => exact .cons (.refl f) ih

lemma forall₂_kept_trans {fs gs hs : List PFrame} (h₁ : List.Forall₂ FrameKept fs gs)
    (h₂ : List.Forall₂ FrameKept gs hs) :
    List.Forall₂ FrameKept fs hs := by
  induction h₁ generalizing hs with
  | nil => exact h₂
  | cons h _ ih =>
    cases h₂ with
    | cons h' h₂ => exact .cons (h.trans h') (ih h₂)

namespace FramesStep

variable {R S T : PFrame → PFrame → Prop} {fs gs hs : List PFrame}

lemma iff_forall₂ : FramesStep FrameKept fs gs ↔ List.Forall₂ FrameKept fs gs := by
  cases fs <;> cases gs <;> simp [FramesStep]

lemma refl (fs : List PFrame) : FramesStep FrameKept fs fs := iff_forall₂.mpr (forall₂_kept_refl fs)

lemma mono (h : FramesStep R fs gs) (hRS : ∀ f g, R f g → S f g) : FramesStep S fs gs := by
  cases fs with
  | nil =>
    cases gs with
    | nil => trivial
    | cons => exact h.elim
  | cons f fs =>
    cases gs with
    | nil => exact h.elim
    | cons g gs => exact ⟨hRS f g h.1, h.2⟩

lemma trans (h₁ : FramesStep R fs gs) (h₂ : FramesStep S gs hs) (hT : ∀ f g h, R f g → S g h → T f h) :
    FramesStep T fs hs := by
  cases fs with
  | nil =>
    cases gs with
    | nil =>
      cases hs with
      | nil => trivial
      | cons => exact h₂.elim
    | cons => exact h₁.elim
  | cons f fs =>
    cases gs with
    | nil => exact h₁.elim
    | cons g gs =>
      cases hs with
      | nil => exact h₂.elim
      | cons h hs => exact ⟨hT f g h h₁.1 h₂.1, forall₂_kept_trans h₁.2 h₂.2⟩

lemma mem (h : FramesStep (FrameGrows p) fs gs) {g : PFrame} (hg : g ∈ gs) : ∃ f ∈ fs, FrameGrows p f g := by
  cases fs with
  | nil =>
    cases gs with
    | nil => cases hg
    | cons => exact h.elim
  | cons f fs =>
    cases gs with
    | nil => exact h.elim
    | cons g' gs =>
      rcases List.mem_cons.mp hg with rfl | hg
      · exact ⟨f, List.mem_cons_self, h.1⟩
      · obtain ⟨f', hf', hk⟩ := forall₂_mem h.2.flip g hg
        exact ⟨f', List.mem_cons_of_mem _ hf', .of_kept hk⟩

end FramesStep

/-- Within one frame. -/
structure FrameSound (p : Nat) (out : Bytes) (f : PFrame) : Prop where
  slot : ∀ i r, f.res i = some r → r.slot.Ok ∧ r.slot.stop ≤ p
  digest : ∀ d ∈ f.digests, 8 * (d.pos + d.width) ≤ p
  /-- What is open has not been written. -/
  clear : ∀ range, f.Open range → Clear out range
  small : ∀ i, InI64 (f.regs i)
  unknown : ∀ i r, f.res i = some r → r.value = none → f.known i = false
  /-- What a consumer has settled is in the register and in the slot. -/
  valued : ∀ i r x, f.res i = some r → r.value = some x →
    f.known i = true ∧ f.regs i = x ∧ r.slot.read out = x
  slots : ∀ i j r s, f.res i = some r → f.res j = some s → i ≠ j → Separate r.slot.range s.slot.range
  mixed : ∀ i r, ∀ d ∈ f.digests, f.res i = some r → Separate r.slot.range d.range
  sorted : f.digests.Pairwise fun d e => d.pos + d.width ≤ e.pos

/-- What is written up to bit `p`, and nothing after it. -/
structure PCtx.Sound (p : Nat) (ctx : PCtx) : Prop where
  room : p ≤ 8 * ctx.out.length
  small : ctx.out.length ≤ isizeMax
  clear : ∀ b, p ≤ b → bitAt ctx.out b = false
  frames : ∀ f ∈ ctx.frames, FrameSound p ctx.out f
  apart : ∀ (j k : Nat) (f g : PFrame), j ≠ k → ctx.frames[j]? = some f → ctx.frames[k]? = some g →
    ∀ a b, f.Late a → g.Late b → Separate a b

/-- Pack has gone on from bit `p` to bit `q`. -/
structure Moves (R : PFrame → PFrame → Prop) (p : Nat) (ctx : PCtx) (q : Nat) (next : PCtx) : Prop where
  le : p ≤ q
  frames : FramesStep R ctx.frames next.frames
  bits : ∀ b < p, ¬ctx.Opens b → bitAt next.out b = bitAt ctx.out b
  sound : next.Sound q

/-- What pack does to a value. -/
abbrev Writes (ctx next : PCtx) : Prop := Moves FrameKept (8 * ctx.out.length) ctx (8 * next.out.length) next

namespace Moves

variable {R S T : PFrame → PFrame → Prop} {p q r : Nat} {ctx next last : PCtx}

lemma refl (hs : ctx.Sound p) : Moves FrameKept p ctx p ctx :=
  ⟨Nat.le_refl p, .refl _, fun _ _ _ => rfl, hs⟩

lemma mono (h : Moves R p ctx q next) (hRS : ∀ f g, R f g → S f g) : Moves S p ctx q next :=
  ⟨h.le, h.frames.mono hRS, h.bits, h.sound⟩

/-- A bit below `p` that is settled stays settled. -/
lemma opens (h : Moves R p ctx q next) (hR : ∀ f g, R f g → FrameGrows p f g) {b : Nat} (hb : b < p)
    (ho : next.Opens b) : ctx.Opens b := by
  obtain ⟨g, hg, range, hrange, hlo, hhi⟩ := ho
  obtain ⟨f, hf, hgrows⟩ := (h.frames.mono hR).mem hg
  rcases hgrows.back hrange with hopen | hnew
  · exact ⟨f, hf, range, hopen, hlo, hhi⟩
  · omega

lemma completes (h : Moves R p ctx q next) (hR : ∀ f g, R f g → FrameGrows p f g) {buf : Bytes}
    (ha : Completes buf q next) :
    Completes buf p ctx where
  room := Nat.le_trans h.le ha.room
  bits b hb ho := by
    rw [ha.bits b (Nat.lt_of_lt_of_le hb h.le) fun hno => ho (h.opens hR hb hno), h.bits b hb ho]

lemma trans (h₁ : Moves R p ctx q next) (h₂ : Moves S q next r last) (hR : ∀ f g, R f g → FrameGrows p f g)
    (hT : ∀ f g h, R f g → S g h → T f h) : Moves T p ctx r last where
  le := Nat.le_trans h₁.le h₂.le
  frames := h₁.frames.trans h₂.frames hT
  bits b hb ho := by
    rw [h₂.bits b (Nat.lt_of_lt_of_le hb h₁.le) fun hno => ho (h₁.opens hR hb hno), h₁.bits b hb ho]
  sound := h₂.sound

end Moves

lemma Moves.then {p q r : Nat} {ctx next last : PCtx} (h₁ : Moves FrameKept p ctx q next)
    (h₂ : Moves FrameKept q next r last) : Moves FrameKept p ctx r last :=
  h₁.trans h₂ (fun _ _ hk => .of_kept hk) fun _ _ _ => FrameKept.trans

end Rustruct

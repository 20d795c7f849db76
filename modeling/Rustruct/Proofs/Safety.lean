import Rustruct.Proofs.Runs

/-!
# Decoding does not panic

At a sound site every index, slice and subtraction is in range, unless a run strays past the
bytes it checked for or the end of those bytes is not a `usize`. An error is reported between the
position of the site and the end of those bytes.
-/

namespace Rustruct

variable {α : Type}

lemma pushStack_ok {v : Int} {stack : List Int} (h : stack.length < exprStack) :
    pushStack v stack = .ok (v :: stack) := if_pos h

lemma sat_okOrOverflow (v : Option Int) :
    Exec.Sat (okOrOverflow v) (fun _ => True) (fun _ => True) := by
  cases v <;> simp [okOrOverflow]

lemma sat_apply (o : BinOp) (a b : Int) :
    Exec.Sat (o.apply a b) (fun _ => True) (fun _ => True) := by
  cases o <;> simp only [BinOp.apply]
  case add | sub | mul => exact sat_okOrOverflow _
  case div =>
    split_ifs
    · trivial
    · exact sat_okOrOverflow _
  case shl | shr => split_ifs <;> trivial
  all_goals trivial

/-- An instruction that keeps the stack in its bounds. -/
lemma sat_step {get : Reg → Exec Kind Int} {ins : Ins} {stack : List Int} {n : Nat}
    (hget : ∀ r, ins = .reg r → Exec.Sat (get r) (fun _ => True) (fun _ => True))
    (hle : stack.length ≤ exprStack) (h : ins.depth stack.length = some n) :
    Exec.Sat (ins.step get stack) (fun stack' => stack'.length = n ∧ n ≤ exprStack)
      (fun _ => True) := by
  cases ins with
  | imm v =>
    simp only [Ins.depth, Option.ite_none_right_eq_some, Option.some.injEq] at h
    simp only [Ins.step, pushStack_ok h.1, Exec.sat_ok, List.length_cons]
    omega
  | reg r =>
    simp only [Ins.depth, Option.ite_none_right_eq_some, Option.some.injEq] at h
    simp only [Ins.step, if_pos h.1]
    refine (hget r rfl).bind fun v _ _ => ?_
    simp only [pushStack_ok h.1, Exec.sat_ok, List.length_cons]
    omega
  | op o =>
    simp only [Ins.depth, Option.ite_none_right_eq_some, Option.some.injEq] at h
    obtain ⟨b, a, rest, rfl⟩ : ∃ b a rest, stack = b :: a :: rest := by
      obtain ⟨b, l, hl⟩ := List.exists_cons_of_length_pos (l := stack) (by omega)
      rw [hl, List.length_cons] at h
      obtain ⟨a, rest, hrest⟩ := List.exists_cons_of_length_pos (l := l) (by omega)
      exact ⟨b, a, rest, by rw [hl, hrest]⟩
    simp only [List.length_cons] at hle h
    simp only [Ins.step]
    refine (sat_apply o a b).bind fun v _ _ => ?_
    have hroom : rest.length < exprStack := by omega
    simp only [pushStack_ok hroom, Exec.sat_ok, List.length_cons]
    omega

lemma sat_runIns {get : Reg → Exec Kind Int} {ins : List Ins} {stack : List Int} {n : Nat}
    (hget : ∀ r, Ins.reg r ∈ ins → Exec.Sat (get r) (fun _ => True) (fun _ => True))
    (hle : stack.length ≤ exprStack) (h : stackDepth ins stack.length = some n) :
    Exec.Sat (runIns get ins stack) (fun stack' => stack'.length = n) (fun _ => True) := by
  induction ins generalizing stack with
  | nil => exact Option.some.inj h
  | cons i ins ih =>
    obtain ⟨m, hm, hn⟩ := Option.bind_eq_some_iff.mp h
    refine (sat_step (fun r hr => hget r (by simp [hr])) hle hm).bind fun stack' _ hs => ?_
    obtain ⟨rfl, hle'⟩ := hs
    exact ih (fun r hr => hget r (by simp [hr])) hle' hn

lemma sat_getReg {fs : Frames} {r : Reg} (hup : r.up < fs.length) (hidx : r.idx < maxRegs) :
    Exec.Sat (getReg fs r : Exec Kind Int) (fun _ => True) (fun _ => True) := by
  simp [getReg, List.getElem?_eq_getElem hup, dif_pos hidx]

/-- The stack of a sound expression ends with exactly one value. -/
lemma Expr.Sound.sat_eval {e : Expr} {fs : Frames} (h : e.Sound fs.length) :
    Exec.Sat (e.eval (getReg fs)) (fun _ => True) (fun _ => True) := by
  refine (sat_runIns (fun r hr => ?_) (by simp) h.stack).bind fun stack _ hlen => ?_
  · have hlive := h.live _ hr
    exact sat_getReg hlive.1 hlive.2
  · match stack, hlen with
    | [v], _ => trivial

/-- A report is not before `start` and not past `w`. -/
def Within (start w : Nat) : UFail → Prop
  | .incomplete _ => True
  | .invalid inv => start ≤ inv.offset ∧ inv.offset ≤ w

lemma Within.mono {start start' w : Nat} (h : start ≤ start') {e : UFail} (he : Within start' w e) :
    Within start w e := by
  cases e with
  | incomplete => trivial
  | invalid inv => exact ⟨Nat.le_trans h he.1, he.2⟩

@[simp] lemma within_seg {start w : Nat} {e : UFail} {seg : Seg} :
    Within start w (e.seg seg) ↔ Within start w e := by
  cases e <;> rfl

@[simp] lemma within_pushKey {start w : Nat} {e : UFail} {key : Key} :
    Within start w (pushKey key e) ↔ Within start w e := by
  unfold pushKey
  split <;> simp

/-- The computation does not panic, and reports from `start` on and up to `w`. -/
def Fine (start w : Nat) (x : URes α) : Prop := Exec.Sat x (fun _ => True) (Within start w)

section Fine

variable {β : Type} {start w : Nat} {x : URes α}

@[simp] lemma fine_ok (a : α) : Fine start w (.ok a) := trivial

lemma fine_invalid (kind : Kind) {pos : Nat} (hs : start ≤ pos) (hw : pos ≤ w) :
    Fine start w (invalid kind pos : URes α) := ⟨hs, hw⟩

lemma Fine.bind {f : α → URes β} (hx : Fine start w x) (hf : ∀ a, x = .ok a → Fine start w (f a)) :
    Fine start w (x >>= f) :=
  Exec.Sat.bind hx fun a ha _ => hf a ha

lemma Fine.mono {start' : Nat} (h : start ≤ start') (hx : Fine start' w x) : Fine start w x :=
  Exec.Sat.mono hx (fun _ => id) fun _ => Within.mono h

lemma Fine.pushKey (hx : Fine start w x) (key : Key) :
    Fine start w (Exec.mapErr (pushKey key) x) :=
  Exec.Sat.mapErr hx fun _ h => within_pushKey.mpr h

lemma Fine.seg (hx : Fine start w x) (seg : Seg) :
    Fine start w (Exec.mapErr (fun e => e.seg seg) x) :=
  Exec.Sat.mapErr hx fun _ h => within_seg.mpr h

lemma Fine.ne_panic (hx : Fine start w x) : x ≠ Exec.panic := by
  rintro rfl
  exact hx

end Fine

section Primitives

variable {w pos : Nat} {fs : Frames}

lemma fine_need (buf : Bytes) {limit n : Nat} (hw : pos ≤ w) (hsum : limit = buf.length → pos + n < usizeSize) :
    Fine pos w (need buf pos limit n) := by
  rw [need_eq]
  split_ifs with hfit hend hsmall
  · exact fine_ok _
  · trivial
  · exact absurd (hsum hend) hsmall
  · exact fine_invalid _ (Nat.le_refl _) hw

lemma fine_slice {buf : Bytes} {start stop : Nat} (h : start ≤ stop) (hl : stop ≤ buf.length) :
    Fine pos w (slice buf start stop) := by
  unfold slice
  rw [if_pos ⟨h, hl⟩]
  exact fine_ok _

lemma fine_eval {e : Expr} (h : e.Sound fs.length) (hw : pos ≤ w) : Fine pos w (eval fs e pos) :=
  Exec.Sat.mapErr h.sat_eval fun _ _ => ⟨Nat.le_refl _, hw⟩

lemma fine_evalLen {e : Expr} (h : e.Sound fs.length) (hw : pos ≤ w) :
    Fine pos w (evalLen fs e pos) := by
  refine (fine_eval h hw).bind fun v _ => ?_
  split_ifs
  · exact fine_invalid _ (Nat.le_refl _) hw
  · exact fine_ok _

lemma fine_resolveLen {len : LenSrc} {max limit : Nat} (h : len.Sound fs.length) (hpos : pos ≤ limit)
    (hw : pos ≤ w) : Fine pos w (resolveLen fs len max pos limit) := by
  have hwanted : Fine pos w (wantedLen fs len pos limit) := by
    cases len with
    | greedy =>
      simp only [wantedLen, checkedSub_of_le hpos]
      exact fine_ok _
    | expr expr inv => exact fine_evalLen h hw
  refine hwanted.bind fun n _ => ?_
  split_ifs
  · exact fine_invalid _ (Nat.le_refl _) hw
  · exact fine_ok _

lemma fine_storeReg {start : Nat} {reg : Option Nat} {v : Int} (hr : ∀ i ∈ reg, fs ≠ [] ∧ i < maxRegs)
    (hs : start ≤ pos) (hw : pos ≤ w) : Fine start w (storeReg fs reg v pos) := by
  unfold storeReg
  cases reg with
  | none => exact fine_ok _
  | some i =>
    obtain ⟨hne, hi⟩ := hr i rfl
    obtain ⟨f, rest, rfl⟩ := List.exists_cons_of_ne_nil hne
    simp only
    split
    · simp only [setReg, dif_pos hi]
      exact fine_ok _
    · exact fine_invalid _ hs hw

lemma fine_storeInt {start : Nat} {reg : Option Nat} {v : Option Int}
    (hr : ∀ i ∈ reg, fs ≠ [] ∧ i < maxRegs) (hs : start ≤ pos) (hw : pos ≤ w) :
    Fine start w (storeInt fs reg v pos) := by
  cases v with
  | none => exact fine_ok _
  | some v => exact fine_storeReg hr hs hw

lemma fine_setSpan {start stop a : Nat} {idx : Option Nat} (hi : ∀ i ∈ idx, fs ≠ [] ∧ i < maxSpans) :
    Fine a w (setSpan fs idx start stop) := by
  unfold setSpan
  cases idx with
  | none => exact fine_ok _
  | some i =>
    obtain ⟨hne, hlt⟩ := hi i rfl
    obtain ⟨f, rest, rfl⟩ := List.exists_cons_of_ne_nil hne
    simp only
    rw [dif_pos hlt]
    exact fine_ok _

lemma SameBelow.ne_nil {fs' : Frames} (h : SameBelow fs fs') (hne : fs ≠ []) : fs' ≠ [] := by
  intro he
  apply hne
  rw [← List.length_eq_zero_iff, ← h.2, he]
  rfl

lemma fine_readFixedItem {buf : Bytes} {item : FixedItem} {base start : Nat} (hi : item.Sound)
    (hne : (item.reg ≠ none ∨ item.span ≠ none) → fs ≠ []) (hw : w ≤ buf.length)
    (hs : start ≤ wrapAdd base item.off) (he : wrapAdd base item.off + item.kind.width ≤ w) :
    Fine start w (readFixedItem buf item base fs) := by
  rw [readFixedItem_eq]
  refine (fine_slice (Nat.le_add_right _ _) (by omega)).bind fun raw _ => ?_
  split_ifs
  · refine (fine_storeInt (fun i h => ⟨hne (.inl ?_), hi.1 i h⟩) hs (by omega)).bind fun fs' hfs => ?_
    · rw [Option.mem_def.mp h]
      exact Option.some_ne_none _
    refine (fine_setSpan fun i h => ⟨?_, hi.2 i h⟩).bind fun _ _ => fine_ok _
    refine (storeInt_below hfs).ne_nil (hne (.inr ?_))
    rw [Option.mem_def.mp h]
    exact Option.some_ne_none _
  · exact fine_invalid _ hs (by omega)

end Primitives

/-- Some item is reached that does not end by `w`. -/
def strays (buf : Bytes) (w base : Nat) : List FixedItem → Frames → Prop
  | [], _ => False
  | item :: items, fs => w < wrapAdd base item.off + item.kind.width ∨
      ∃ v fs', readFixedItem buf item base fs = .ok (v, fs') ∧ strays buf w base items fs'

/-- All of these bits after byte `base` are before byte `w`. The number of a bit is a `u32`. -/
def BitsBefore (w base bitpos width : Nat) : Prop := ∀ k < width, 8 * base + (bitpos + k) % u32Size < 8 * w

/-- The first bit, and those after it. -/
lemma BitsBefore.head {w base i width : Nat} (h : BitsBefore w base i (width + 1)) (hi : i < u32Size) :
    8 * base + i < 8 * w := by
  have hfirst := h 0 (Nat.succ_pos width)
  rwa [Nat.add_zero, Nat.mod_eq_of_lt hi] at hfirst

lemma BitsBefore.tail {w base i width : Nat} (h : BitsBefore w base i (width + 1)) :
    BitsBefore w base (wrapAddU32 i 1) width := by
  intro k hk
  have hnext := h (k + 1) (by omega)
  rwa [wrapAddU32, Nat.mod_add_mod, Nat.add_assoc, Nat.add_comm 1 k]

lemma BitsBefore.cons {w base i width : Nat} (h : BitsBefore w base (wrapAddU32 i 1) width) (hi : i < u32Size)
    (hfirst : 8 * base + i < 8 * w) : BitsBefore w base i (width + 1) := by
  intro k hk
  cases k with
  | zero => rwa [Nat.add_zero, Nat.mod_eq_of_lt hi]
  | succ k =>
    have hnext := h k (by omega)
    rwa [wrapAddU32, Nat.mod_add_mod, Nat.add_assoc, Nat.add_comm 1 k] at hnext

/-- Some item is reached that has a bit at or after byte `w`. -/
def bitStrays (buf : Bytes) (w base : Nat) : List BitItem → Nat → Frames → Prop
  | [], _, _ => False
  | item :: items, bitpos, fs => ¬BitsBefore w base bitpos item.width ∨
      ∃ v fs', readBits buf base bitpos item = .ok v ∧ storeReg fs item.reg v base = .ok fs' ∧
        bitStrays buf w base items (wrapAddU32 bitpos item.width) fs'

/-- The run reads a byte at or after `w` that its bounds check does not cover. -/
def Op.stray (buf : Bytes) (w limit : Nat) (s : Scan) : Op → Prop
  | .fixed width items => s.cur.pos + width ≤ limit ∧ strays buf w s.cur.pos items s.cur.fs
  | .bitRun nbytes items => s.cur.pos + nbytes ≤ limit ∧ bitStrays buf w s.cur.pos items 0 s.cur.fs
  | _ => False

def Site.stray (buf : Bytes) (w : Nat) : Site → Prop
  | .rest (op :: _) limit s => op.stray buf w limit s
  | _ => False

lemma strays_mem {buf : Bytes} {w base : Nat} {items : List FixedItem} {fs : Frames}
    (h : strays buf w base items fs) :
    ∃ item ∈ items, w < wrapAdd base item.off + item.kind.width := by
  induction items generalizing fs with
  | nil => exact h.elim
  | cons item items ih =>
    obtain h | ⟨v, fs', -, h⟩ := h
    · exact ⟨item, by simp, h⟩
    · obtain ⟨i, hi, hlt⟩ := ih h
      exact ⟨i, by simp [hi], hlt⟩

/-- The items of a run that does not wrap are in the bytes it checks for. -/
lemma laidRun_le {width base limit : Nat} {items : List FixedItem} (h : LaidRun items width)
    (hw : runWidth items < usizeSize) (hfit : base + width ≤ limit) (hl : limit ≤ isizeMax) :
    ∀ item ∈ items, wrapAdd base item.off + item.kind.width ≤ limit := by
  have hmax := isizeMax_lt
  obtain ⟨hc, rfl⟩ := laidRun_consecutive h hw
  intro item hi
  have := hc.le item hi
  rw [wrapAdd_of_lt (by omega)]
  omega

/-- The bits of a run that a `u32` counts are in the bytes it checks for. -/
lemma bits_before {w base bitpos : Nat} {items : List BitItem} (hfit : 8 * base + bitpos + bitWidth items ≤ 8 * w)
    (hcount : bitpos + bitWidth items < u32Size) {buf : Bytes} {fs : Frames} :
    ¬bitStrays buf w base items bitpos fs := by
  induction items generalizing bitpos fs with
  | nil => exact fun h => h
  | cons item items ih =>
    rw [bitWidth_cons] at hfit hcount
    rintro (h | ⟨v, fs', -, -, h⟩)
    · apply h
      intro k hk
      rw [Nat.mod_eq_of_lt (by omega)]
      omega
    · rw [wrapAddU32_of_lt (by omega)] at h
      exact ih (by omega) (by omega) h

lemma stray_op {buf : Bytes} {w : Nat} {s : Site} (h : s.stray buf w) :
    ∃ op ops limit t, s = .rest (op :: ops) limit t ∧ op.stray buf w limit t := by
  unfold Site.stray at h
  split at h
  · exact ⟨_, _, _, _, rfl, h⟩
  · exact h.elim

/-- Only a run whose widths wrap strays. -/
lemma Op.stray.wraps {buf : Bytes} {w d limit : Nat} {s : Scan} {op : Op} (hs : op.Sound d .field) (hl : limit ≤ w)
    (hw : limit ≤ isizeMax) (h : op.stray buf w limit s) :
    (∃ width items, op = .fixed width items ∧ usizeSize ≤ runWidth items) ∨ ¬op.bitsFit := by
  cases op with
  | fixed width items =>
    refine .inl ⟨width, items, rfl, ?_⟩
    by_contra hn
    obtain ⟨item, hi, hlt⟩ := strays_mem h.2
    have := laidRun_le hs.1 (Nat.lt_of_not_le hn) h.1 hw item hi
    omega
  | bitRun nbytes items =>
    right
    intro hcount
    have hfit := h.1
    have htotal := hs.2.1
    rw [bitTotal_of_lt hcount] at htotal
    exact bits_before (by omega) (by rwa [Nat.zero_add]) h.2
  | _ => exact h.elim

/-- The end of the bytes the op checks for is a `usize`. -/
def Op.SumFits (op : Op) (limit : Nat) (cur : Cur) : Prop :=
  match op with
  | .fixed width _ => cur.pos + width < usizeSize
  | .digest algo .. => cur.pos + algo.widthBytes < usizeSize
  | .bytes len max _ | .str len max _ _ =>
    ∀ n, resolveLen cur.fs len max cur.pos limit = .ok n → cur.pos + n < usizeSize
  | .nest _ (some (.expr expr _)) _ => ∀ sz, evalLen cur.fs expr cur.pos = .ok sz → cur.pos + sz < usizeSize
  | _ => True

def Site.SumFits : Site → Prop
  | .value op limit cur => op.SumFits limit cur
  | .rest (op :: _) limit s => op.SumFits limit s.cur
  | _ => True

/-- The bits of the run at hand are not more than a `u32` counts. -/
def Site.BitsFit : Site → Prop
  | .rest (op :: _) _ _ => op.bitsFit
  | _ => True

lemma Site.bitsFit_of_every {s : Site} (h : s.Every Op.bitsFit) : s.BitsFit := by
  cases s with
  | rest ops limit s =>
    cases ops with
    | nil => trivial
    | cons op ops => exact (h op (by simp)).here
  | _ => trivial

/-- The site would panic: it strays, or it comes up short at the end of the buffer for a sum that wraps. -/
def Site.Astray (buf : Bytes) (w : Nat) (s : Site) : Prop := s.stray buf w ∨ (s.limit = buf.length ∧ ¬s.SumFits)

/-- What a scope has noted lies between its start and `w`. -/
structure ScanIn (start w : Nat) (s : Scan) : Prop where
  frame : s.cur.fs ≠ []
  begun : start ≤ s.cur.pos
  spans : SpansIn w s.cur.fs
  deferred : ∀ d ∈ s.deferred,
    (start ≤ d.field.1 ∧ d.field.1 ≤ d.field.2 ∧ d.field.2 ≤ s.cur.pos) ∧ d.overs.Sound

lemma scanIn_enter (w : Nat) (cur : Cur) : ScanIn cur.pos w (.enter cur) where
  frame := by simp [Scan.enter]
  begun := Nat.le_refl _
  spans := spansIn_new w cur.fs
  deferred := by simp [Scan.enter]

/-- A field that only moves on and writes its frame. -/
lemma ScanIn.move {start w : Nat} {s : Scan} {fs : Frames} {pos : Nat} {m : List (String × Value)}
    (h : ScanIn start w s) (hfs : SameBelow s.cur.fs fs) (hsp : SpansIn w fs) (hpos : s.cur.pos ≤ pos) :
    ScanIn start w { s with cur := { fs, pos }, map := m } where
  frame := hfs.ne_nil h.frame
  begun := Nat.le_trans h.begun hpos
  spans := hsp
  deferred d hd := by
    obtain ⟨⟨h₁, h₂, h₃⟩, ho⟩ := h.deferred d hd
    exact ⟨⟨h₁, h₂, Nat.le_trans h₃ hpos⟩, ho⟩

section Digests

variable {H : Hashes} {buf : Bytes} {start w : Nat}

lemma fine_compute {s : Scan} (h : ScanIn start w s) (hp : s.cur.pos ≤ w) (hw : w ≤ buf.length)
    {d : Deferred} (hd : d ∈ s.deferred) {f : Frame} (hf : f ∈ s.cur.fs.head?) :
    Fine start w (d.compute H buf start s.cur.pos f) := by
  obtain ⟨⟨h₁, h₂, h₃⟩, ho⟩ := h.deferred d hd
  have hspans := h.spans f hf
  unfold Deferred.compute
  cases hover : d.overs with
  | star =>
    simp only [checkedSub_of_le h₂]
    refine (fine_slice h₁ (by omega)).bind fun before _ => ?_
    exact (fine_slice h₃ (by omega)).bind fun after _ => fine_ok _
  | spans idxs =>
    rw [hover] at ho
    refine Fine.bind ?_ fun h _ => fine_ok _
    generalize Hasher.new d.algo = hasher
    clear hover
    induction idxs generalizing hasher with
    | nil => exact fine_ok _
    | cons i idxs ih =>
      have hi : i < maxSpans := ho i (by simp)
      rw [List.foldlM_cons, dif_pos hi]
      refine Fine.bind ?_ fun hasher' _ => ih (fun j hj => ho j (by simp [hj])) hasher'
      have := hspans ⟨i, hi⟩
      exact (fine_slice this.1 (by omega)).bind fun _ _ => fine_ok _

lemma fine_verifyDigests {s : Scan} (h : ScanIn start w s) (hp : s.cur.pos ≤ w) (hw : w ≤ buf.length)
    {ds : List Deferred} (hds : ∀ d ∈ ds, d ∈ s.deferred) {f : Frame} (hf : f ∈ s.cur.fs.head?) :
    Fine start w (verifyDigests H buf start s.cur.pos f ds) := by
  induction ds with
  | nil => exact fine_ok _
  | cons d ds ih =>
    have hrest := ih fun d hd => hds d (by simp [hd])
    have hd := hds d (by simp)
    obtain ⟨⟨h₁, h₂, h₃⟩, -⟩ := h.deferred d hd
    rw [verifyDigests]
    split_ifs
    · refine (fine_compute h hp hw hd hf).bind fun computed _ => ?_
      split_ifs
      · exact (fine_invalid _ h₁ (by omega)).seg _
      · exact hrest
    · exact hrest

end Digests

section Ops

variable (H : Hashes) {buf : Bytes} {w : Nat} (hw : w ≤ buf.length) (hlen : buf.length ≤ isizeMax)

/-- Nothing goes astray in the course of a site. -/
abbrev Kept (H : Hashes) (buf : Bytes) (w : Nat) (s : Site) : Prop :=
  ¬ Hits H buf (Site.Astray buf w) s

/-- The value of the op does not panic. -/
def SafeValue (H : Hashes) (buf : Bytes) (w : Nat) (op : Op) : Prop :=
  ∀ limit cur, op.Sound cur.fs.length .value → limit ≤ w → cur.pos ≤ limit →
    Kept H buf w (.value op limit cur) → Fine cur.pos w (opValue H buf op limit cur)

/-- The field does not panic, and what it notes lies in its scope. -/
def SafeField (H : Hashes) (buf : Bytes) (w : Nat) (op : Op) : Prop :=
  ∀ start ops limit s, op.Sound s.cur.fs.length .field → limit ≤ w → s.cur.pos ≤ limit →
    ScanIn start w s → Kept H buf w (.rest (op :: ops) limit s) →
      Exec.Sat (runOp H buf op limit s) (ScanIn start w) (Within s.cur.pos w)

/-- The struct does not panic. -/
def SafeBody (H : Hashes) (buf : Bytes) (w : Nat) (prog : Program) : Prop :=
  ∀ limit cur, prog.Sound cur.fs.length → limit ≤ w → cur.pos ≤ limit →
    Kept H buf w (.body prog limit cur) → Fine cur.pos w (runStruct H buf prog limit cur)

variable {H}

lemma Kept.step {s t : Site} (h : Kept H buf w s) (hst : Step H buf s t) : Kept H buf w t :=
  fun ht => h (.step hst ht)

lemma Kept.sumFits {s : Site} (h : Kept H buf w s) (hend : s.limit = buf.length) : s.SumFits := by
  by_contra hsum
  exact h (.here (.inr ⟨hend, hsum⟩))

lemma Kept.not_stray {s : Site} (h : Kept H buf w s) : ¬s.stray buf w := fun hs => h (.here (.inl hs))

/-- A sequence that first notes something in its scope. -/
lemma sat_bind_ok {β : Type} {start : Nat} {x : URes α} {f : α → URes β} {Q : β → Prop}
    (hx : Fine start w x) (hf : ∀ a, x = .ok a → Exec.Sat (f a) Q (Within start w)) :
    Exec.Sat (x >>= f) Q (Within start w) :=
  Exec.Sat.bind hx fun a ha _ => hf a ha

include hw hlen

lemma safe_readFixedItems {base start width : Nat} {items : List FixedItem} {fs : Frames}
    {map : List (String × Value)} (hne : fs ≠ []) (hi : ∀ item ∈ items, item.Sound)
    (hl : LaidItems start items width) (hfit : base + start ≤ w) (hsp : SpansIn w fs)
    (hs : ¬ strays buf w base items fs) :
    Exec.Sat (readFixedItems buf base items fs map) (fun r => SameBelow fs r.1 ∧ SpansIn w r.1)
      (Within base w) := by
  have hmax := isizeMax_lt
  induction items generalizing start fs map with
  | nil => exact ⟨.refl fs, hsp⟩
  | cons item items ih =>
    obtain ⟨hoff, hl⟩ := hl
    have hend : wrapAdd base item.off + item.kind.width ≤ w := by
      by_contra hlt
      exact hs (.inl (by omega))
    have hbase : wrapAdd base item.off = base + start := by
      rw [hoff, wrapAdd_of_lt (by omega)]
    rw [readFixedItems_cons]
    refine sat_bind_ok ((fine_readFixedItem (hi item (by simp)) (fun _ => hne) hw (by omega)
      hend).pushKey _) ?_
    rintro ⟨v, fs'⟩ hv
    have hv := Exec.mapErr_eq_ok.mp hv
    have hbelow := readFixedItem_below hv
    rw [wrapAdd_of_lt (by omega)] at hl
    refine (ih (hbelow.ne_nil hne) (fun i h => hi i (by simp [h])) hl (by omega)
      (hsp.readFixedItem hend hv) fun h => hs (.inr ⟨v, fs', hv, h⟩)).mono ?_ fun _ => id
    rintro r ⟨hr, hsp'⟩
    exact ⟨hbelow.trans hr, hsp'⟩

lemma safe_runFixed (width : Nat) (items : List FixedItem) : SafeField H buf w (.fixed width items) := by
  intro start ops limit s hs hl hpos hin hk
  have hmax := isizeMax_lt
  simp only [runOp, runFixed]
  refine sat_bind_ok (fine_need _ (by omega) hk.sumFits) fun _ hn => ?_
  have hfit := need_eq_ok.mp hn
  have hstray : ¬ strays buf w s.cur.pos items s.cur.fs := fun h => hk.not_stray ⟨hfit, h⟩
  obtain ⟨hlaid, hitems⟩ := hs
  have hread : Exec.Sat (readFixedItems buf s.cur.pos items s.cur.fs s.map)
      (fun r => SameBelow s.cur.fs r.1 ∧ SpansIn w r.1) (Within s.cur.pos w) := by
    cases items with
    | nil => exact hlaid.elim
    | cons item items =>
      have h : LaidItems 0 (item :: items) width := by
        obtain ⟨hoff, h⟩ := hlaid
        refine ⟨hoff, ?_⟩
        rw [wrapAdd_of_lt]
        · rwa [Nat.zero_add]
        · by_contra hlt
          exact hstray (.inl (by rw [hoff, wrapAdd_of_lt (by omega)]; omega))
      exact safe_readFixedItems hw hlen hin.frame hitems h (by omega) hin.spans hstray
  refine hread.bind ?_
  rintro ⟨fs, map⟩ - ⟨hbelow, hsp⟩
  exact hin.move hbelow hsp (Nat.le_add_right _ _)

omit hlen in
lemma safe_readBitsFrom {base width i v : Nat} (hi : i < u32Size) (h : BitsBefore w base i width) {start : Nat} :
    Fine start w (readBitsFrom buf base width i v) := by
  induction width generalizing i v with
  | zero => exact fine_ok _
  | succ width ih =>
    have hfirst := h.head hi
    have hlt : base + i / 8 < buf.length := by omega
    simp only [readBitsFrom, readBit, List.getElem?_eq_getElem hlt, Exec.bind_ok]
    exact ih (wrapAddU32_lt i 1) h.tail

omit hlen in
lemma safe_readBitItems {base bitpos : Nat} {items : List BitItem} {fs : Frames}
    {map : List (String × Value)} (hne : fs ≠ []) (hi : ∀ item ∈ items, item.Sound) (hpos : bitpos < u32Size)
    (hb : base ≤ w) (hsp : SpansIn w fs) (hs : ¬bitStrays buf w base items bitpos fs) :
    Exec.Sat (readBitItems buf base items bitpos fs map)
      (fun r => SameBelow fs r.1 ∧ SpansIn w r.1) (Within base w) := by
  induction items generalizing bitpos fs map with
  | nil => exact ⟨.refl fs, hsp⟩
  | cons item items ih =>
    have hbits : BitsBefore w base bitpos item.width := by
      by_contra hn
      exact hs (.inl hn)
    rw [readBitItems_cons]
    refine sat_bind_ok ((safe_readBitsFrom hw hpos hbits).bind fun v _ => fine_ok _) fun v hv => ?_
    refine sat_bind_ok ((fine_storeReg (fun i h => ⟨hne, (hi item (by simp)).2 i h⟩) (Nat.le_refl _)
      hb).pushKey _) fun fs' hst => ?_
    have hst := Exec.mapErr_eq_ok.mp hst
    have hbelow := storeReg_below hst
    refine (ih (hbelow.ne_nil hne) (fun i h => hi i (by simp [h])) (wrapAddU32_lt _ _)
      (hsp.storeReg hst) fun h => hs (.inr ⟨v, fs', hv, hst, h⟩)).mono ?_ fun _ => id
    rintro r ⟨hr, hsp'⟩
    exact ⟨hbelow.trans hr, hsp'⟩

lemma safe_runBitRun (nbytes : Nat) (items : List BitItem) :
    SafeField H buf w (.bitRun nbytes items) := by
  rintro start ops limit s ⟨-, htotal, hitems⟩ hl hpos hin hk
  have hbytes : bitTotal items < u32Size := Nat.mod_lt _ (by decide)
  have hu32 : isizeMax + u32Size < usizeSize := by decide
  simp only [runOp, runBitRun]
  refine sat_bind_ok (fine_need _ (by omega) fun _ => by omega) fun _ hn => ?_
  have hfit := need_eq_ok.mp hn
  have hstray : ¬ bitStrays buf w s.cur.pos items 0 s.cur.fs := fun h => hk.not_stray ⟨hfit, h⟩
  refine (safe_readBitItems hw hin.frame hitems (by decide) (by omega) hin.spans hstray).bind ?_
  rintro ⟨fs, map⟩ - ⟨hbelow, hsp⟩
  exact hin.move hbelow hsp (Nat.le_add_right _ _)

omit hlen in
lemma safe_runDigest (algo : Algo) (overs : Over) (verify be : Bool) (c : Common) :
    SafeField H buf w (.digest algo overs verify be c) := by
  rintro start ops limit s ⟨-, hover, hkey, hc⟩ hl hpos hin hk
  simp only [runOp, runDigest]
  refine sat_bind_ok ((fine_need _ (by omega) hk.sumFits).pushKey _) fun _ hn => ?_
  have hfit := need_eq_ok.mp (Exec.mapErr_eq_ok.mp hn)
  refine sat_bind_ok (fine_slice (Nat.le_add_right _ _) (by omega)) fun raw _ => ?_
  obtain ⟨key, hkey⟩ := Option.isSome_iff_exists.mp hkey
  simp only [hkey, Exec.expect_some, Exec.bind_ok]
  refine sat_bind_ok (fine_setSpan fun i h => ⟨hin.frame, hc i h⟩) fun fs hsp => ?_
  rw [insert_value, Exec.bind_ok]
  have hspans := hin.spans.setSpan (Nat.le_add_right _ _) (by omega) hsp
  have hmoved := hin.move (m := mapSet s.map c.key (.int 0)) (setSpan_below hsp) hspans
    (Nat.le_add_right s.cur.pos algo.widthBytes)
  refine ⟨hmoved.frame, hmoved.begun, hmoved.spans, fun d hd => ?_⟩
  rcases List.mem_append.mp hd with hd | hd
  · exact hmoved.deferred d hd
  · rw [List.mem_singleton.mp hd]
    exact ⟨⟨hin.begun, Nat.le_add_right _ _, Nat.le_refl _⟩, hover⟩

omit hw hlen in
/-- A field whose value does not panic. -/
lemma safe_runField {sem : Sem} {c : Common} {limit start : Nat} {s : Scan} (hl : limit ≤ w)
    (hpos : s.cur.pos ≤ limit) (hin : ScanIn start w s) (hc : c.Sound) (hadv : Advances sem)
    (hfs : LeavesFrames sem) (h : Fine s.cur.pos w (sem limit s.cur)) :
    Exec.Sat (runField c sem limit s) (ScanIn start w) (Within s.cur.pos w) := by
  refine sat_bind_ok (h.pushKey _) ?_
  rintro ⟨v, cur⟩ hv
  have hv := Exec.mapErr_eq_ok.mp hv
  have hon := hadv _ _ _ _ hv
  have hne := hin.frame
  rw [← hfs _ _ _ _ hv] at hne
  refine sat_bind_ok (fine_setSpan fun i h => ⟨hne, hc i h⟩) fun fs hsp => ?_
  rw [hfs _ _ _ _ hv] at hsp
  rw [insert_value, Exec.bind_ok]
  exact hin.move (setSpan_below hsp) (hin.spans.setSpan hon.1 (Nat.le_trans (hon.2 hpos) hl) hsp) hon.1

omit hw hlen in
lemma safeField_of_value {op : Op} {c : Common} (hv : op.isValue) (hc : op.common = some c)
    (hsound : ∀ d, op.Sound d .field → c.Sound) (h : SafeValue H buf w op) : SafeField H buf w op := by
  intro start ops limit s hs hl hpos hin hk
  obtain ⟨c', hc', hrun⟩ := runOp_of_isValue H buf hv
  obtain rfl : c = c' := Option.some.inj (hc.symm.trans hc')
  have hval := hs.asValue hv
  rw [hrun]
  exact safe_runField hl hpos hin (hsound _ hs) (opValue_advances H buf op)
    (opValue_leaves H buf hval) (h limit s.cur hval hl hpos (hk.step (.field hv)))

omit hw hlen in
lemma safe_runCond {pred : Expr} {thn : Op} {c : Common} (h : SafeValue H buf w thn) :
    SafeField H buf w (.cond pred thn c) := by
  rintro start ops limit s ⟨-, hpred, hthn, hc⟩ hl hpos hin hk
  simp only [runOp, runCond]
  refine sat_bind_ok (fine_eval hpred (by omega)) fun p hp => ?_
  split_ifs with h₀
  · exact safe_runField hl hpos hin hc (opValue_advances H buf thn) (opValue_leaves H buf hthn)
      (h limit s.cur hthn hl hpos (hk.step (.present hp h₀)))
  · exact hin

omit hlen in
/-- A value whose length is known before its bytes are checked for. -/
lemma fine_sized {len : LenSrc} {max limit : Nat} {cur : Cur} (h : len.Sound cur.fs.length)
    (hpos : cur.pos ≤ limit) (hl : limit ≤ w)
    (hsum : limit = buf.length → ∀ n, resolveLen cur.fs len max cur.pos limit = .ok n → cur.pos + n < usizeSize)
    {f : Nat → Bytes → URes α} (hf : ∀ n raw, Fine cur.pos w (f n raw)) :
    Fine cur.pos w (do
      let n ← resolveLen cur.fs len max cur.pos limit
      need buf cur.pos limit n
      let raw ← slice buf cur.pos (cur.pos + n)
      f n raw) := by
  refine (fine_resolveLen h hpos (by omega)).bind fun n hlen => ?_
  refine (fine_need _ (by omega) fun hend => hsum hend n hlen).bind fun _ hn => ?_
  have hfit := need_eq_ok.mp hn
  exact (fine_slice (Nat.le_add_right _ _) (by omega)).bind fun raw _ => hf n raw

omit hlen in
lemma safe_cstr (max : Nat) (enc : Enc) (c : Common) : SafeValue H buf w (.cstr max enc c) := by
  intro limit cur hs hl hpos _
  rw [opValue, doCstr_eq max enc hpos (by omega)]
  unfold cstrEnd
  split
  · rename_i i hi
    have hlt := (List.findIdx?_eq_some_iff_findIdx_eq.mp hi).1
    rw [List.length_take, List.length_drop] at hlt
    refine (fine_slice (Nat.le_add_right _ _) (by omega)).bind fun raw _ => ?_
    split
    · exact fine_ok _
    · exact fine_invalid _ (Nat.le_refl _) (by omega)
  · split_ifs
    · exact fine_invalid _ (Nat.le_refl _) (by omega)
    · trivial
    · exact fine_invalid _ (Nat.le_refl _) (by omega)

lemma safe_flags (prim : IntPrim) (be : Bool) (items : List FlagItem) (rest : RestPolicy)
    (restMask : U64) (c : Common) : SafeValue H buf w (.flags prim be items rest restMask c) := by
  intro limit cur hs hl hpos _
  have hwidth : isizeMax + prim.width < usizeSize := by cases prim <;> decide
  simp only [opValue, doFlags, setFlags_value, mapSet_value, Exec.bind_ok]
  refine (fine_need _ (by omega) fun _ => by omega).bind fun _ hn => ?_
  have hfit := need_eq_ok.mp hn
  refine (fine_slice (Nat.le_add_right _ _) (by omega)).bind fun raw _ => ?_
  cases rest with
  | keep => exact fine_ok _
  | ignore => exact fine_ok _
  | strict =>
    simp only
    split_ifs
    · exact fine_invalid _ (Nat.le_refl _) (by omega)
    · exact fine_ok _

omit hw hlen in
lemma safe_nest {prog : Program} (size : Option LenSrc) (c : Common) (hp : SafeBody H buf w prog) :
    SafeValue H buf w (.nest prog size c) := by
  intro limit cur hs hl hpos hk
  rw [opValue]
  match size, hs with
  | none, hs => exact hp limit cur hs.2.1 hl hpos (hk.step .nest)
  | some .greedy, hs => exact absurd rfl (hs.1 .greedy rfl).2
  | some (.expr expr inv), hs =>
    have hsize : expr.Sound cur.fs.length := (hs.1 _ rfl).1
    simp only [doNest]
    refine (fine_evalLen hsize (by omega)).bind fun sz hsz => ?_
    refine (fine_need _ (by omega) fun hend => hk.sumFits hend sz hsz).bind fun _ hn => ?_
    have hfit : cur.pos + sz ≤ limit := need_eq_ok.mp hn
    refine (hp (cur.pos + sz) cur hs.2.1 (by omega) (by omega)
      (hk.step (.window hsz hfit))).bind ?_
    rintro ⟨v, next⟩ hv
    have hon := runStruct_advances H buf prog _ _ _ _ hv
    have hnext : next.pos ≤ cur.pos + sz := hon.2 (Nat.le_add_right _ _)
    have hend : next.pos ≤ w := by omega
    split_ifs
    · exact fine_invalid _ hon.1 hend
    · exact fine_ok _

omit hw hlen in
lemma safe_countLoop {elem : Op} (he : SafeValue H buf w elem) {limit n i : Nat} {out : List Value}
    {cur : Cur} (hs : elem.Sound cur.fs.length .value) (hl : limit ≤ w) (hpos : cur.pos ≤ limit)
    (hk : Kept H buf w (.count elem limit n i out cur)) :
    Fine cur.pos w (countLoop (opValue H buf elem) limit n i out cur) := by
  induction n generalizing i out cur with
  | zero => exact fine_ok _
  | succ n ih =>
    simp only [countLoop]
    refine ((he limit cur hs hl hpos (hk.step .element)).seg _).bind ?_
    rintro ⟨v, cur'⟩ hv
    have hv := Exec.mapErr_eq_ok.mp hv
    have hon := opValue_advances H buf elem _ _ _ _ hv
    have hfs := opValue_leaves H buf hs _ _ _ _ hv
    exact (ih (by rwa [hfs]) (hon.2 hpos) (hk.step (.another hv))).mono hon.1

omit hw hlen in
lemma safe_eofLoop {elem : Op} (he : SafeValue H buf w elem) {limit left i : Nat} {out : List Value}
    {cur : Cur} (hs : elem.Sound cur.fs.length .value) (hl : limit ≤ w)
    (hk : Kept H buf w (.eof elem limit left i out cur)) :
    Fine cur.pos w (eofLoop (opValue H buf elem) limit left i out cur) := by
  induction left generalizing i out cur with
  | zero =>
    simp only [eofLoop]
    split_ifs
    · exact fine_invalid _ (Nat.le_refl _) (by omega)
    · exact fine_ok _
  | succ left ih =>
    simp only [eofLoop]
    split_ifs with hm
    · refine ((he limit cur hs hl (Nat.le_of_lt hm) (hk.step (.eofElement hm))).seg _).bind ?_
      rintro ⟨v, cur'⟩ hv
      have hv := Exec.mapErr_eq_ok.mp hv
      have hon := opValue_advances H buf elem _ _ _ _ hv
      have hfs := opValue_leaves H buf hs _ _ _ _ hv
      exact (ih (by rwa [hfs]) (hk.step (.eofAnother hm hv))).mono hon.1
    · exact fine_ok _

omit hw hlen in
lemma safe_array {elem : Op} (he : SafeValue H buf w elem) (count : CountSrc)
    (maxCount elemMin : Nat) (c : Common) :
    SafeValue H buf w (.array count maxCount elem elemMin c) := by
  intro limit cur hs hl hpos hk
  rw [opValue]
  cases count with
  | untilEof => exact safe_eofLoop he hs.2.1 hl (hk.step .open)
  | expr expr inv =>
    simp only [doArray]
    refine (fine_eval hs.1 (by omega)).bind fun n hn => ?_
    split_ifs with h₁ h₂
    · exact fine_invalid _ (Nat.le_refl _) (by omega)
    · exact fine_invalid _ (Nat.le_refl _) (by omega)
    · rw [checkedSub_of_le hpos]
      exact safe_countLoop he hs.2.1 hl hpos
        (hk.step (.counted hn (Int.not_lt.mp h₁) (Nat.le_of_not_lt h₂) hpos))

omit hw hlen in
lemma safe_switch (on : Expr) {cases : List (Int × Op)} {default : Option Op} (c : Common)
    (hc : ∀ branch ∈ cases, SafeValue H buf w branch.2) (hd : ∀ op ∈ default, SafeValue H buf w op) :
    SafeValue H buf w (.switch on cases default c) := by
  intro limit cur hs hl hpos hk
  rw [opValue_switch]
  refine (fine_eval hs.1 (by omega)).bind fun tag htag => ?_
  cases hp : pickCase cases default tag with
  | none =>
    simp only [hp, Option.map_none]
    exact fine_invalid _ (Nat.le_refl _) (by omega)
  | some op =>
    simp only [hp, Option.map_some]
    have hop : SafeValue H buf w op := by
      obtain ⟨branch, hm, rfl⟩ | ho := pickCase_mem hp
      · exact hc branch hm
      · exact hd op ho
    exact hop limit cur (pickCase_sound hs.2.1 hs.2.2.1 hp) hl hpos (hk.step (.branch htag hp))

omit hw hlen in
lemma safe_runOps {ops : List Op} (hop : ∀ op ∈ ops, SafeField H buf w op) {start limit : Nat}
    {s : Scan} (hs : ∀ op ∈ ops, op.Sound s.cur.fs.length .field) (hl : limit ≤ w)
    (hpos : s.cur.pos ≤ limit) (hin : ScanIn start w s) (hk : Kept H buf w (.rest ops limit s)) :
    Exec.Sat (runOps H buf ops limit s) (ScanIn start w) (Within s.cur.pos w) := by
  induction ops generalizing s with
  | nil => exact hin
  | cons op ops ih =>
    simp only [runOps]
    refine (hop op (by simp) start ops limit s (hs op (by simp)) hl hpos hin hk).bind
      fun t ht hin' => ?_
    have hon := runOp_advances H buf op _ _ _ ht
    have hlength := (runOp_ownFrame H buf op _ _ _ ht).2
    refine (ih (fun o ho => hop o (by simp [ho])) (fun o ho => ?_) (hon.2 hpos) hin'
      (hk.step (.next ht))).mono (fun _ => id) fun _ => Within.mono hon.1
    rw [hlength]
    exact hs o (by simp [ho])

omit hlen in
lemma safe_struct {ops : List Op} {nregs nspans minSize : Nat} {staticSize : Option Nat}
    (hop : ∀ op ∈ ops, SafeField H buf w op) :
    SafeBody H buf w (.mk ops nregs nspans minSize staticSize) := by
  intro limit cur hs hl hpos hk
  rw [runStruct]
  unfold withFrame
  split_ifs with hroom
  · exact fine_invalid _ (Nat.le_refl _) (by omega)
  · have hstep : Step H buf (.body (.mk ops nregs nspans minSize staticSize) limit cur)
        (.rest ops limit (.enter cur)) := .enter (Nat.lt_of_not_le hroom)
    refine Exec.Sat.bind (safe_runOps hop (s := .enter cur) (opsSound_iff.mp hs) hl hpos
      (scanIn_enter w cur) (hk.step hstep)) fun t ht hin => ?_
    have hend := (runOps_advances H buf (fun op _ => runOp_advances H buf op) _ _ _ ht).2 hpos
    obtain ⟨f, rest, hfs⟩ := List.exists_cons_of_ne_nil hin.frame
    have hf : t.cur.fs.head? = some f := by rw [hfs]; rfl
    simp only [hf, Exec.expect_some, Exec.bind_ok]
    exact (fine_verifyDigests hin (by omega) hw (fun d hd => hd) hf).bind fun _ _ => fine_ok _

lemma safe_cases : OpCases (fun op => SafeValue H buf w op ∧ SafeField H buf w op)
    (SafeBody H buf w) where
  fixed width items := by
    refine ⟨?_, safe_runFixed hw hlen width items⟩
    rintro limit cur ⟨kind, rfl, rfl⟩ hl hpos hk
    have hmax := isizeMax_lt
    simp only [opValue, doFixed, List.head?_cons, Exec.expect_some, Exec.bind_ok]
    refine (fine_need _ (by omega) hk.sumFits).bind fun _ hn => ?_
    have hfit : cur.pos + kind.width ≤ limit := need_eq_ok.mp hn
    have hbase : wrapAdd cur.pos 0 = cur.pos := wrapAdd_of_lt (by omega)
    refine (fine_readFixedItem ⟨by simp, by simp⟩ (by simp) hw (by simp [hbase])
      (by simp only [hbase]; omega)).bind fun _ _ => fine_ok _
  bytes len max c := by
    have h : SafeValue H buf w (.bytes len max c) := by
      intro limit cur hs hl hpos hk
      exact fine_sized hw hs.1 hpos hl hk.sumFits fun n raw => fine_ok _
    exact ⟨h, safeField_of_value rfl rfl (fun _ hs => hs.2) h⟩
  str len max enc c := by
    have h : SafeValue H buf w (.str len max enc c) := by
      intro limit cur hs hl hpos hk
      refine fine_sized hw hs.1 hpos hl hk.sumFits fun n raw => ?_
      split
      · exact fine_ok _
      · exact fine_invalid _ (Nat.le_refl _) (by omega)
    exact ⟨h, safeField_of_value rfl rfl (fun _ hs => hs.2) h⟩
  cstr max enc c := by
    have h := safe_cstr (H := H) hw max enc c
    exact ⟨h, safeField_of_value rfl rfl (fun _ hs => hs) h⟩
  bitRun nbytes items := ⟨fun _ _ hs => (by cases hs.1), safe_runBitRun hw hlen nbytes items⟩
  flags prim be items rest restMask c := by
    have h := safe_flags (H := H) hw hlen prim be items rest restMask c
    exact ⟨h, safeField_of_value rfl rfl (fun _ hs => hs) h⟩
  digest algo overs verify be c :=
    ⟨fun _ _ hs => (by cases hs.1), safe_runDigest hw algo overs verify be c⟩
  nest prog size c hp := by
    have h := safe_nest size c hp
    exact ⟨h, safeField_of_value rfl rfl (fun _ hs => hs.2.2) h⟩
  array count maxCount elem elemMin c he := by
    have h := safe_array he.1 count maxCount elemMin c
    exact ⟨h, safeField_of_value rfl rfl (fun _ hs => hs.2.2) h⟩
  switch on cases default c hc hd := by
    have h := safe_switch on c (fun br hm => (hc br hm).1) fun o ho => (hd o ho).1
    exact ⟨h, safeField_of_value rfl rfl (fun _ hs => hs.2.2.2) h⟩
  cond pred thn c ht := ⟨fun _ _ hs => (by cases hs.1), safe_runCond ht.1⟩
  prog ops nregs nspans minSize staticSize ho := safe_struct hw fun op h => (ho op h).2

/-- What a field notes lies in its scope. -/
lemma safeField (op : Op) : SafeField H buf w op := ((safe_cases hw hlen).op op).2

lemma safeBody (prog : Program) : SafeBody H buf w prog := (safe_cases hw hlen).program prog

end Ops

/-- The widths of a run of fixed items sum without wrapping. -/
def Op.widthsFit : Op → Prop
  | .fixed _ items => runWidth items < usizeSize
  | _ => True

instance : DecidablePred Op.widthsFit
  | .fixed _ items => inferInstanceAs (Decidable (runWidth items < usizeSize))
  | .bytes .. | .str .. | .cstr .. | .bitRun .. | .flags .. | .digest .. | .nest .. | .array ..
  | .switch .. | .cond .. => .isTrue trivial

/-- What a scope has noted lies in the buffer. -/
def Site.noted (w : Nat) : Site → Prop
  | .rest _ _ s => ∃ start, ScanIn start w s
  | _ => True

/-- The position is inside the limit and the limit inside the buffer, the op is where it may be
with the frames it needs, and the spans are ranges of the buffer. -/
structure Site.Safe (buf : Bytes) (s : Site) : Prop where
  pos_le : s.cur.pos ≤ s.limit
  limit_le : s.limit ≤ buf.length
  sound : s.Sound
  fits : s.Every Op.widthsFit
  noted : s.noted buf.length

section Reached

variable {H : Hashes} {buf : Bytes}

lemma Step.pos_le {s t : Site} (h : Step H buf s t) (hs : s.cur.pos ≤ s.limit) :
    t.cur.pos ≤ t.limit ∧ t.limit ≤ s.limit := by
  cases h with
  | enter | field | present | nest | counted | «open» | element | eofElement | branch =>
    exact ⟨hs, Nat.le_refl _⟩
  | next ran => exact ⟨(runOp_advances H buf _ _ _ _ ran).2 hs, Nat.le_refl _⟩
  | window size fits => exact ⟨Nat.le_add_right _ _, fits⟩
  | another ran => exact ⟨(opValue_advances H buf _ _ _ _ _ ran).2 hs, Nat.le_refl _⟩
  | eofAnother more ran => exact ⟨(opValue_advances H buf _ _ _ _ _ ran).2 hs, Nat.le_refl _⟩

/-- Where no width wraps, no run strays. -/
lemma not_stray_of_fits {w : Nat} (hw : w ≤ isizeMax) {s : Site} (hs : s.Sound) (hfit : s.Every Op.widthsFit)
    (hbits : ∀ t, Reaches H buf s t → t.BitsFit) (hpos : s.cur.pos ≤ s.limit) (hl : s.limit ≤ w) :
    ¬Hits H buf (Site.stray buf w) s := by
  rintro ⟨t, ht, hstray⟩
  have hall : t.Sound ∧ t.Every Op.widthsFit ∧ t.cur.pos ≤ t.limit ∧ t.limit ≤ w := by
    refine ht.induct (I := fun t => t.Sound ∧ t.Every Op.widthsFit ∧ t.cur.pos ≤ t.limit ∧
      t.limit ≤ w) (fun s t h hst => ?_) ⟨hs, hfit, hpos, hl⟩
    obtain ⟨h₁, h₂, h₃, h₄⟩ := h
    have hle := hst.pos_le h₃
    exact ⟨hst.sound h₁, hst.every h₂, hle.1, Nat.le_trans hle.2 h₄⟩
  obtain ⟨hsound, hfits, -, hle⟩ := hall
  have hcount := hbits t ht
  obtain ⟨op, ops, limit, s', rfl, hst⟩ := stray_op hstray
  obtain ⟨width, items, rfl, hwraps⟩ | hmany := hst.wraps (hsound op (by simp)) hle (Nat.le_trans hle hw)
  · have h : (Op.fixed width items).Every Op.widthsFit := hfits _ (by simp)
    exact absurd (Nat.lt_of_lt_of_le h.here hwraps) (Nat.lt_irrefl _)
  · exact hmany hcount

/-- Where no sum wraps either, nothing goes astray. -/
lemma kept_of_fits (hlen : buf.length ≤ isizeMax) {s : Site} (hs : s.Safe buf)
    (hrun : ∀ t, Reaches H buf s t → t.SumFits ∧ t.BitsFit) : Kept H buf buf.length s := by
  rintro ⟨t, ht, hstray | ⟨-, hsum⟩⟩
  · exact not_stray_of_fits hlen hs.sound hs.fits (fun u hu => (hrun u hu).2) hs.pos_le hs.limit_le ⟨t, ht, hstray⟩
  · exact hsum (hrun t ht).1

lemma Step.safe (hlen : buf.length ≤ isizeMax) {s t : Site} (hs : s.Safe buf) (hk : Kept H buf buf.length s)
    (h : Step H buf s t) : t.Safe buf := by
  have hle := h.pos_le hs.pos_le
  refine ⟨hle.1, Nat.le_trans hle.2 hs.limit_le, h.sound hs.sound, h.every hs.fits, ?_⟩
  cases h with
  | enter => exact ⟨_, scanIn_enter _ _⟩
  | next ran =>
    obtain ⟨start, hin⟩ := hs.noted
    exact ⟨start, (safeField (Nat.le_refl _) hlen _ start _ _ _ (hs.sound _ (by simp)) hs.limit_le
      hs.pos_le hin hk).of_ok ran⟩
  | _ => trivial

end Reached

/-- The position or the offset that is returned is between the two. -/
def Outcome.Between (lo hi : Nat) : Outcome → Prop
  | .ok _ pos => lo ≤ pos ∧ pos ≤ hi
  | .invalid _ offset _ => lo ≤ offset ∧ offset ≤ hi
  | .incomplete _ | .panic => True

section Decoding

variable {fields : List FieldIn} {opts : Options} {prog : Program}

lemma rootSite_safe (h : compile fields opts = .ok prog) (hfit : prog.Every Op.widthsFit)
    (buf : Buffer) (offset : Nat) : (rootSite buf.bytes prog offset).Safe buf.bytes where
  pos_le := Nat.min_le_right _ _
  limit_le := Nat.le_refl _
  sound := compile_sound h
  fits := hfit
  noted := trivial

lemma Reaches.safe {H : Hashes} {buf : Buffer} {s t : Site} (hs : s.Safe buf.bytes)
    (hrun : ∀ u, Reaches H buf.bytes s u → u.SumFits ∧ u.BitsFit) (h : Reaches H buf.bytes s t) :
    t.Safe buf.bytes := by
  induction h with
  | refl => exact hs
  | tail hr hst ih => exact hst.safe buf.small ih (kept_of_fits buf.small ih fun u hu => hrun u (hr.trans hu))

/-- Decoding a compiled program whose fixed widths do not wrap does not panic in a run in which the end of all bytes
that are checked for is a `usize`, and the bits of a run are no more than a `u32` counts: every site it reaches is
safe, and what it returns points into the buffer. -/
theorem unpackRun_safe (h : compile fields opts = .ok prog) (hfit : prog.Every Op.widthsFit)
    (H : Hashes) (buf : Buffer) (offset : Nat)
    (hrun : ∀ s, Reaches H buf.bytes (rootSite buf.bytes prog offset) s → s.SumFits ∧ s.BitsFit)
    (exact stream : Bool) :
    (∀ s, Reaches H buf.bytes (rootSite buf.bytes prog offset) s → s.Safe buf.bytes) ∧
      unpackRun H prog buf offset exact stream ≠ .panic ∧
      (unpackRun H prog buf offset exact stream).Between (min offset buf.bytes.length)
        buf.bytes.length := by
  have hroot := rootSite_safe h hfit buf offset
  have hmin := Nat.min_le_right offset buf.bytes.length
  refine ⟨fun s hs => hs.safe hroot hrun, ?_⟩
  have hfine := safeBody (H := H) (Nat.le_refl _) buf.small prog buf.bytes.length
    { fs := [], pos := min offset buf.bytes.length } hroot.sound (Nat.le_refl _) hmin
    (kept_of_fits buf.small hroot hrun)
  unfold unpackRun
  simp only
  cases hr : runStruct H buf.bytes prog buf.bytes.length
      { fs := [], pos := min offset buf.bytes.length } using Exec.cases_on with
  | ok r =>
    obtain ⟨value, cur⟩ := r
    have hon := runStruct_advances H buf.bytes prog _ _ _ _ hr
    simp only
    split_ifs
    · exact ⟨by simp, hon.1, hon.2 hmin⟩
    · exact ⟨by simp, hon.1, hon.2 hmin⟩
  | fail e =>
    rw [hr] at hfine
    cases e with
    | incomplete needed =>
      simp only [Exec.fail]
      split_ifs
      · exact ⟨by simp, trivial⟩
      · exact ⟨by simp, hmin, Nat.le_refl _⟩
    | invalid inv => exact ⟨by simp [Exec.fail], hfine⟩
  | panic =>
    rw [hr] at hfine
    exact hfine.elim

/-- No run that reaches the op checks for bytes whose end is not a `usize`. Of a sized struct nothing is known. -/
def Op.checksFit : Op → Prop
  | .fixed width _ => isizeMax + width < usizeSize
  | .digest algo .. => isizeMax + algo.widthBytes < usizeSize
  | .bytes _ max _ | .str _ max _ _ => isizeMax + max < usizeSize
  | .nest _ size _ => size = none
  | _ => True

instance : DecidablePred Op.checksFit
  | .fixed width _ => Nat.decLt (isizeMax + width) usizeSize
  | .digest algo .. => Nat.decLt (isizeMax + algo.widthBytes) usizeSize
  | .bytes _ max _ | .str _ max _ _ => Nat.decLt (isizeMax + max) usizeSize
  | .nest _ none _ => .isTrue rfl
  | .nest _ (some _) _ => .isFalse (Option.some_ne_none _)
  | .cstr .. | .bitRun .. | .flags .. | .array .. | .switch .. | .cond .. => .isTrue trivial

lemma resolveLen_le {fs : Frames} {len : LenSrc} {max pos limit n : Nat}
    (h : resolveLen fs len max pos limit = .ok n) : n ≤ max := by
  obtain ⟨m, -, h⟩ := Exec.bind_eq_ok.mp h
  split_ifs at h with hmax
  · cases h
  · cases h
    omega

lemma Op.checksFit.sumFits {op : Op} (h : op.checksFit) {limit : Nat} {cur : Cur} (hpos : cur.pos ≤ isizeMax) :
    op.SumFits limit cur := by
  cases op with
  | fixed width items => exact Nat.lt_of_le_of_lt (Nat.add_le_add_right hpos width) h
  | digest algo overs verify be c => exact Nat.lt_of_le_of_lt (Nat.add_le_add_right hpos _) h
  | bytes len max c => exact fun n hn => Nat.lt_of_le_of_lt (Nat.add_le_add hpos (resolveLen_le hn)) h
  | str len max enc c => exact fun n hn => Nat.lt_of_le_of_lt (Nat.add_le_add hpos (resolveLen_le hn)) h
  | nest prog size c =>
    obtain rfl : size = none := h
    trivial
  | _ => trivial

/-- What is known of the ops of a program holds in every run of it. -/
lemma reaches_fit {H : Hashes} {buf : Buffer} {offset : Nat} (hsums : prog.Every Op.checksFit)
    (hbits : prog.Every Op.bitsFit) {s : Site} (h : Reaches H buf.bytes (rootSite buf.bytes prog offset) s) :
    s.SumFits ∧ s.BitsFit := by
  have hpos : s.cur.pos ≤ s.limit ∧ s.limit ≤ buf.bytes.length := by
    refine h.induct (I := fun t => t.cur.pos ≤ t.limit ∧ t.limit ≤ buf.bytes.length) (fun s t h hst => ?_)
      ⟨Nat.min_le_right _ _, Nat.le_refl _⟩
    have hle := hst.pos_le h.1
    exact ⟨hle.1, Nat.le_trans hle.2 h.2⟩
  have hle : s.cur.pos ≤ isizeMax := Nat.le_trans hpos.1 (Nat.le_trans hpos.2 buf.small)
  have hevery {P : Op → Prop} (hp : prog.Every P) : s.Every P := by
    have hroot : (rootSite buf.bytes prog offset).Every P := hp
    exact h.induct (fun _ _ h hst => hst.every h) hroot
  refine ⟨?_, Site.bitsFit_of_every (hevery hbits)⟩
  cases s with
  | value op limit cur => exact (hevery hsums).here.sumFits hle
  | rest ops limit s =>
    cases ops with
    | nil => trivial
    | cons op ops => exact (hevery hsums op (by simp)).here.sumFits hle
  | _ => trivial

/-- A length byte and as many bytes of data. -/
def countedFields : List FieldIn :=
  [.named "n" (.int .u8 none none), .named "data" (.bytes (.ref "n") none)]

/-- The length byte announces more than there is, at the end of the buffer and past it. -/
theorem unpackRun_safe_counted : ∃ prog, compile countedFields {} = .ok prog ∧
    unpackRun .blank prog ⟨[3, 7, 8], by decide⟩ 0 true false ≠ .panic ∧
    unpackRun .blank prog ⟨[3, 7, 8], by decide⟩ 9 true false ≠ .panic := by
  have hc : Exec.returns (compile countedFields {}) fun prog =>
      decide (prog.Every Op.widthsFit ∧ prog.Every Op.checksFit ∧ prog.Every Op.bitsFit) := by
    decide +kernel
  obtain ⟨prog, hp, hfits⟩ := Exec.returns_iff.mp hc
  obtain ⟨hfit, hsums, hbits⟩ := of_decide_eq_true hfits
  exact ⟨prog, hp,
    (unpackRun_safe hp hfit .blank ⟨[3, 7, 8], by decide⟩ 0 (fun s => reaches_fit hsums hbits) true false).2.1,
    (unpackRun_safe hp hfit .blank ⟨[3, 7, 8], by decide⟩ 9 (fun s => reaches_fit hsums hbits) true false).2.1⟩

/-- A text and as many bytes as a `usize` counts. -/
def hugeFields : List FieldIn :=
  [.named "c" (.cstr none "utf-8" "strict"), .named "r" (.raw (some (2 ^ 64 - 1)) none)]

/-- After a text of one byte the end of the other field is not a `usize`. -/
theorem hugeFields_panic : ∃ prog, compile hugeFields {} = .ok prog ∧ prog.Every Op.widthsFit ∧
    ∀ exact stream, unpackRun .blank prog ⟨[0], by decide⟩ 0 exact stream = .panic := by
  have hc : Exec.returns (compile hugeFields {}) fun prog =>
      decide (prog.Every Op.widthsFit) && prog.beq (.mk
        [.cstr 67108864 .utf8 (.named "c"), .fixed (2 ^ 64 - 1) [⟨0, .raw (2 ^ 64 - 1) none, none, none, .named "r"⟩]]
        0 0 (2 ^ 64 - 1) none) := by
    decide +kernel
  obtain ⟨prog, hp, hfit⟩ := Exec.returns_iff.mp hc
  rw [Bool.and_eq_true] at hfit
  refine ⟨prog, hp, of_decide_eq_true hfit.1, ?_⟩
  rw [Program.eq_of_beq hfit.2]
  intro exact stream
  rfl

end Decoding

end Rustruct

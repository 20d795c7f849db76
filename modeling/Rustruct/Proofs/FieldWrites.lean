import Rustruct.Proofs.Compound

/-!
# Fields that come back

A field is packed in its place in its scope, and later it is read there. Its register and its span are
then those that a reading has.
-/

namespace Rustruct

open BitStream

/-- A CRC of whole bytes. -/
def Algo.Whole : Algo → Prop
  | .crc spec => spec.width = 8 * (spec.width / 8) ∧ spec.width ≤ 64
  | _ => True

/-- A digest to be filled, and the one that will be read. -/
structure Fills (buf : Bytes) (full : List Sym) (key : Key) (asked : Option (OverIn × Bool)) (d : PDigest)
    (g : GotDigest) : Prop where
  asked : asked = some (g.overs, g.verify)
  named : key.name.isSome
  others : ∀ names, g.overs = .names names → ∀ n ∈ key.name, n ∉ names
  algo : d.algo = g.algo
  overs : OverIs full g.overs d.overs
  start : d.pos = g.start
  stop : d.pos + d.width = g.stop
  width : d.width = d.algo.widthBytes
  whole : d.algo.Whole
  short : g.overs = .star → g.verify = true → d.algo = .ipChecksum → buf.length ≤ 131072
  read : g.read = if d.algo.isInt then .int (BitVec.ofNat 64 (readUint ((buf.drop d.pos).take d.width) d.be))
    else .bytes ((buf.drop d.pos).take d.width)

/-- What is read of a field, and what it leaves in its frame. -/
structure FieldBack (H : Hashes) (full : List Sym) (key : Key) (kind : SymKind) (asked : Option (OverIn × Bool))
    (buf : Bytes) (pack : FieldIndex → PRes PCtx) (q : Nat) (g : PFrame) (ds : List PDigest) (next : PCtx)
    (part : Part) : Prop where
  bit : part.bit = q
  facts : part.facts.Ok H
  reg : ∀ i : Fin maxRegs, regOf full key = some i.val → part.int? = some ((g.readBack buf).regs i)
  int : kind.refable → part.int?.isSome
  value : kind.spannable → part.value.isSome
  digests : List.Forall₂ (Fills buf full key asked) ds part.digest.toList
  again : ∀ view, (∀ n, key.name = some n → view.get n = part.value) → pack view = .ok next

/-- A field of the scope has been packed from bit `p` to bit `q`, and it comes back by `read`. -/
abbrev FieldDone (H : Hashes) (Γ : Env) (full : List Sym) (key : Key) (kind : SymKind)
    (asked : Option (OverIn × Bool)) (read : Bytes → Seen → Nat → Nat → Option Part) (can : Nat → Bool → Prop)
    (suits : Prop) (pack : FieldIndex → PRes PCtx) (p q : Nat) (room next : PCtx) : Prop :=
  ∃ g gs ds, next.frames = g :: gs ∧
    Moves (FieldStep p (regOf full key) (spanOf full key) (p / 8, q / 8) ds) p room q next ∧
      ∀ buf last seen limit, Finally buf last Γ seen limit room q next → can buf.length last → suits →
        ∃ part, read buf seen limit p = some part ∧ FieldBack H full key kind asked buf pack q g ds next part

/-- The field is packed by `task`, and it comes back by `read`. -/
def FieldReturns (H : Hashes) (Γ : Env) (full : List Sym) (key : Key) (kind : SymKind)
    (asked : Option (OverIn × Bool)) (read : Bytes → Seen → Nat → Nat → Option Part) (can : Nat → Bool → Prop)
    (suits : Option Value → Prop) (task : Task) : Prop :=
  ∀ p room view next f fs, room.frames = f :: fs → room.Sound p → task.StartsAt p room.out.length →
    f.Fresh (regOf full key) → task.pack H view room = .ok next →
      FieldDone H Γ full key kind asked read can (suits (lookup view key)) (fun view => task.pack H view room) p
        (task.stop p next.out.length) room next

section Fields

variable {H : Hashes} {Γ : Env} {full : List Sym} {key : Key} {kind : SymKind} {asked : Option (OverIn × Bool)}
  {can : Nat → Bool → Prop}

/-- The integer that pack writes for a field, when it is not derived. -/
def FixKind.given (k : FixKind) (v : Option Value) : Option Int :=
  match k with
  | .int _ _ (some exp) _ => some exp
  | .int _ _ none _ => v.bind Value.asInt
  | _ => none

lemma inputOf_eq {α : Type} {v : Option Value} {key : Key} {read : Value → Option α} {zero a : α}
    (h : inputOf v key read zero = .ok a) :
    v.bind read = some a ∨ v = none ∧ a = zero := by
  unfold inputOf at h
  cases v with
  | none =>
    dsimp only at h
    split_ifs at h
    · cases h
    · cases h
      exact .inr ⟨rfl, rfl⟩
  | some val =>
    dsimp only at h
    cases hval : read val with
    | none =>
      rw [hval] at h
      cases h
    | some b =>
      rw [hval] at h
      cases h
      exact .inl hval

/-- The integer for the register is the one that was given. -/
lemma FixedItem.write_given {item : FixedItem} {pos : Nat} {v : Option Value} {out out' : Bytes} {n : Int}
    (h : item.write pos v out = .ok (out', some n)) : item.kind.given v = some n ∨ n = 0 := by
  obtain ⟨off, k, reg, span, key⟩ := item
  cases k with
  | int prim be expected derived =>
    obtain ⟨x, hx, h⟩ := Exec.bind_eq_ok.mp h
    obtain ⟨w, -, h⟩ := Exec.bind_eq_ok.mp h
    cases h
    cases expected with
    | some exp =>
      cases hx
      exact .inl rfl
    | none =>
      rcases inputOf_eq hx with hx | ⟨-, hx⟩
      · exact .inl hx
      · exact .inr hx
  | f32 | f64 | bool =>
    obtain ⟨x, -, h⟩ := Exec.bind_eq_ok.mp h
    obtain ⟨w, -, h⟩ := Exec.bind_eq_ok.mp h
    cases h
  | raw =>
    obtain ⟨w, -, h⟩ := Exec.bind_eq_ok.mp h
    cases h

lemma note_put {out : Bytes} {f : PFrame} {fs : List PFrame} {reg : Option Nat} (hreg : ∀ i ∈ reg, i < maxRegs)
    (v : Int) :
    PCtx.note { out, frames := f :: fs } reg (some v) = .ok { out, frames := f.putReg reg (asI64 v) :: fs } :=
  setReg_put hreg (asI64 v)

/-- The frame after a field that has no register, or has this integer in it. -/
def PFrame.noted (f : PFrame) (reg : Option Nat) (n : Option Int) : PFrame := n.elim f fun n => f.putReg reg (asI64 n)

lemma noted_put {out : Bytes} {f : PFrame} {fs : List PFrame} {reg : Option Nat} (hreg : ∀ i ∈ reg, i < maxRegs)
    (n : Option Int) :
    PCtx.note { out, frames := f :: fs } reg n = .ok { out, frames := f.noted reg n :: fs } := by
  cases n with
  | none => rfl
  | some v => exact note_put hreg v

/-- The frame of the scope, after a field that is not derived. -/
lemma PCtx.Sound.noted {q : Nat} {out : Bytes} {f : PFrame} {fs : List PFrame} {reg : Option Nat} {n : Option Int}
    (hs : PCtx.Sound q { out, frames := f :: fs }) (span : Option Nat) (range : Nat × Nat) (hfresh : f.Fresh reg)
    (hnone : n = none → reg = none) {p : Nat} :
    Moves (FieldStep p reg span range []) q { out, frames := f :: fs } q
      { out, frames := (f.noted reg n).putSpan span range :: fs } := by
  have hframe := hs.frames f List.mem_cons_self
  cases n with
  | none =>
    obtain rfl := hnone rfl
    exact hs.head (Nat.le_refl q) hs.room .putSpan (hframe.putSpan span range) fun a ha => .inl ha
  | some v =>
    exact hs.head (Nat.le_refl q) hs.room (.putReg hfresh _) ((hframe.putReg hfresh (inI64_asI64 v)).putSpan span range)
      fun a ha => .inl ha

lemma noted_readBack (buf : Bytes) {f : PFrame} {reg : Option Nat} (span : Option Nat) (range : Nat × Nat) {v : Int}
    (hfresh : f.Fresh reg) (hv : reg.isSome → InI64 v) {i : Fin maxRegs} (hi : reg = some i.val) :
    (((f.noted reg (some v)).putSpan span range).readBack buf).regs i = v := by
  have hres : ((f.noted reg (some v)).putSpan span range).res i = none := (hfresh i hi).1
  rw [readBack_plain hres]
  have hput : ((f.noted reg (some v)).putSpan span range).regs i = if reg = some i.val then asI64 v else f.regs i := rfl
  rw [hput, if_pos hi, asI64_of_inI64 (hv (by rw [hi]; rfl))]

lemma FieldStep.kept_after {p : Nat} {reg span : Option Nat} {range : Nat × Nat} {ds : List PDigest} (f g h : PFrame)
    (hk : FrameKept f g) (hs : FieldStep p reg span range ds g h) : FieldStep p reg span range ds f h :=
  .after hk hs

/-- The input of a field with this key. -/
lemma lookup_again (view : FieldIndex) {view' : FieldIndex} {key : Key} {v : Option Value}
    (h : ∀ n, key.name = some n → view'.get n = v) :
    lookup view' key = lookup view key ∨ lookup view' key = v ∧ key.name.isSome := by
  unfold lookup
  cases hname : key.name with
  | none => exact .inl rfl
  | some n => exact .inr ⟨h n hname, rfl⟩

lemma int?_isSome (k : FixKind) (raw : Bytes) : (k.int? raw).isSome = k.isInt := by
  cases k <;> rfl

/-- What a fixed field is read as. -/
lemma fixedRead_eq {k : FixKind} {buf : Bytes} {pos limit : Nat} (hfit : pos + k.width ≤ limit)
    (hacc : k.accepts ((buf.drop pos).take k.width) = true) : fixedRead buf k limit (8 * pos) =
      some (.upTo (pos + k.width) (k.value ((buf.drop pos).take k.width)) .none) :=
  readFlat_eq_some hfit (if_pos hacc)

lemma field_fixed {k : FixKind} {task : Task} (htask : task.piece = .fixed k (regOf full key) (spanOf full key) key)
    (hn : ScopeNumbers full key kind) (hcan : ∀ n last, can n last → k.narrows = false)
    (hint : k.isInt = kind.refable) :
    FieldReturns H Γ full key kind asked (fun buf _ limit bit => fixedRead buf k limit bit) can
      (fun v => (regOf full key).isSome → ∀ i ∈ k.given v, InI64 i) task := by
  cases task with
  | bit | op => cases htask
  | fixed base item =>
    obtain ⟨off, k', reg, span, key'⟩ := item
    obtain ⟨rfl, rfl, rfl, rfl⟩ : k' = k ∧ reg = regOf full key ∧ span = spanOf full key ∧ key' = key := by
      simpa [Task.piece, FixedItem.piece] using htask
    rintro p ⟨out₀, frames⟩ view next f fs rfl hs ⟨hp, hfit⟩ hfresh hpack
    dsimp only at hp hfit
    have hmax := isizeMax_lt
    have hsmall : out₀.length ≤ isizeMax := hs.small
    obtain rfl : p = 8 * (base + off) := hp
    have hwrap : wrapAdd base off = base + off := wrapAdd_of_lt (by omega)
    have hstop : Task.stop (8 * (base + off)) next.out.length
        (.fixed base ⟨off, k', regOf full key', spanOf full key', key'⟩) = 8 * (base + off + k'.width) := by
      rw [Task.stop]
      dsimp only
      omega
    have hdiv : ∀ n, 8 * n / 8 = n := fun n => Nat.mul_div_cancel_left n (by decide)
    rw [hstop]
    unfold FieldDone
    rw [hdiv, hdiv]
    have hitem := Exec.mapErr_eq_ok.mp hpack
    cases hres : k'.reserved with
    | false =>
      have hwhole : ∀ v, packFixedItem base ⟨off, k', regOf full key', spanOf full key', key'⟩ v ⟨out₀, f :: fs⟩ =
          FixedItem.write ⟨off, k', regOf full key', spanOf full key', key'⟩ (base + off) v out₀ >>= fun w =>
            .ok ⟨w.1, (f.noted (regOf full key') w.2).putSpan (spanOf full key')
              (base + off, base + off + k'.width) :: fs⟩ := by
        intro v
        rw [packFixedItem_eq hres]
        dsimp only
        rw [hwrap]
        congr 1
        funext w
        rw [noted_put hn.reg, Exec.bind_ok, setSpan_put hn.span]
      rw [hwhole] at hitem
      obtain ⟨⟨out, n⟩, hw, hitem⟩ := Exec.bind_eq_ok.mp hitem
      cases hitem
      obtain ⟨hmoves, hback⟩ := FixedItem.write_spec hs hfit hw
      have hnone : n = none → regOf full key' = none := by
        intro hnn
        apply hn.noReg
        rw [← hint, ← int?_isSome k' ((out.drop (base + off)).take k'.width), show k'.int? _ = n from hback.int, hnn]
        rfl
      have hhead := fun p => hmoves.sound.noted (spanOf full key') (base + off, base + off + k'.width) hfresh
        hnone (p := p)
      refine ⟨_, fs, [], rfl, ?_, ?_⟩
      · exact hmoves.trans (hhead _) (fun _ _ hk => .of_kept hk) FieldStep.kept_after
      · intro buf last seen limit hf hcan' hsuits
        have hc := (hhead (8 * (base + off + k'.width))).completes (fun _ _ hstep => hstep.grows) hf.completes
        have hslice : (buf.drop (base + off)).take k'.width = (out.drop (base + off)).take k'.width :=
          hmoves.slice hs hc (Nat.le_refl _)
        have hfits := hf.fits
        have hint' : k'.int? ((buf.drop (base + off)).take k'.width) = n := by
          rw [hslice]
          exact hback.int
        have hpart : Part.int? (.upTo (base + off + k'.width)
            (k'.value ((buf.drop (base + off)).take k'.width)) .none) = n := by
          rw [← hint', FixKind.int?_eq]
          rfl
        refine ⟨_, fixedRead_eq (by omega) (by rw [hslice]; exact hback.accepts), rfl, facts_none_ok, ?_, ?_,
          fun _ => rfl, .nil, ?_⟩
        · intro i hi
          rw [hpart]
          cases n with
          | none =>
            rw [hnone rfl] at hi
            cases hi
          | some v =>
            rw [noted_readBack buf _ _ hfresh ?_ hi]
            intro hsome
            rcases FixedItem.write_given hw with hg | rfl
            · exact hsuits hsome v hg
            · decide
        · intro href
          rw [hpart, ← hint', int?_isSome, hint, href]
        · intro view' hview
          refine Exec.mapErr_eq_ok.mpr ?_
          rw [hwhole]
          refine Exec.bind_eq_ok.mpr ⟨(out, n), hback.again _ ?_, rfl⟩
          rcases lookup_again view hview with hsame | ⟨hnew, hname⟩
          · exact .inl hsame
          · rw [hnew, hslice]
            exact .inr ⟨hcan _ _ hcan', rfl, .inr hname⟩
    | true =>
      obtain ⟨prim, be, hwidth, hacc, hvalue, hwhole⟩ := packFixedItem_reserved base
        ⟨off, k', regOf full key', spanOf full key', key'⟩ (lookup view key') ⟨out₀, f :: fs⟩ hres
      have hsame : ∀ v, packFixedItem base ⟨off, k', regOf full key', spanOf full key', key'⟩ v ⟨out₀, f :: fs⟩ =
          packFixedItem base ⟨off, k', regOf full key', spanOf full key', key'⟩ (lookup view key') ⟨out₀, f :: fs⟩ := by
        intro v
        cases k' with
        | int prim be expected derived =>
          cases expected with
          | some exp => cases hres
          | none =>
            obtain rfl : derived = true := hres
            rfl
        | f32 | f64 | bool | raw => cases hres
      have hlater := hitem
      rw [hwhole] at hitem
      dsimp only at hitem hwidth
      rw [hwrap] at hitem
      obtain ⟨mid, hmid, hitem⟩ := Exec.bind_eq_ok.mp hitem
      obtain ⟨-, rfl⟩ := (reserve_put hn.reg).mp hmid
      rw [setSpan_put hn.span] at hitem
      cases hitem
      have hstart : (Slot.int (base + off) prim be).start = 8 * (base + off) := rfl
      have hend : (Slot.int (base + off) prim be).stop = 8 * (base + off + k'.width) := by
        rw [hwidth, Slot.stop, Slot.start, Slot.width]
        omega
      have hframe := (hs.frames f List.mem_cons_self).putSlot (.int (base + off) prim be) hfresh trivial hstart
        hend hs.clear
        (by omega)
      rw [← hwidth] at hlater ⊢
      refine ⟨_, fs, [], rfl, hs.head (by omega) (by omega) (.putSlot hfresh hstart) (hframe.putSpan _ _) ?_, ?_⟩
      · intro a ha
        rcases ha with ⟨i, r, hr, rfl⟩ | hd
        · rcases putSlot_eq_some (f := f) hr with ⟨-, rfl⟩ | ⟨-, hr⟩
          · exact .inr (Nat.le_of_eq hstart.symm)
          · exact .inl (.inl ⟨i, r, hr, rfl⟩)
        · exact .inl (.inr hd)
      · intro buf last seen limit hf _ _
        have hfits := hf.fits
        refine ⟨_, fixedRead_eq (by omega) (hacc _), rfl, facts_none_ok, ?_, ?_, fun _ => rfl, .nil, fun view' _ => ?_⟩
        · intro i hi
          have hslot : (f.putSlot (regOf full key') (.int (base + off) prim be)).res i =
              some { slot := .int (base + off) prim be, value := none } := by
            simp only [PFrame.putSlot, if_pos hi]
          rw [show ((f.putSlot (regOf full key') (.int (base + off) prim be)).putSpan (spanOf full key')
            (base + off, base + off + k'.width)).readBack buf =
              ((f.putSlot (regOf full key') (.int (base + off) prim be)).readBack buf).putSpan (spanOf full key')
                (base + off, base + off + k'.width) from rfl]
          show Part.int? _ = some (((f.putSlot (regOf full key') (.int (base + off) prim be)).readBack buf).regs i)
          rw [readBack_slot hslot, Slot.read, ← hwidth]
          show Option.bind (some (k'.value _)) Value.int? = _
          rw [hvalue]
          rfl
        · intro _
          show (Option.bind (some (k'.value _)) Value.int?).isSome = true
          rw [hvalue]
          rfl
        · refine Exec.mapErr_eq_ok.mpr ?_
          rw [hsame]
          exact hlater

/-- What bits are read as. -/
def bitsPart (width : Nat) (signed : Bool) (buf : Bytes) (limit bit : Nat) : Option Part :=
  if bit + width ≤ 8 * limit then
    some { value := some (.int (signBits width signed (bitsAt buf width bit 0))), bit := bit + width,
           digest := none, facts := .none }
  else none

/-- Bits that were written over zeros. -/
lemma bitsAt_written {base off width u : Nat} {out out' buf : Bytes} (hu : u < 2 ^ width)
    (hfit : 8 * base + off + width ≤ 8 * out.length) (hcount : off + width ≤ u32Size)
    (hclear : ∀ b, 8 * base + off ≤ b → bitAt out b = false) (h : orBits base u width off out = .ok out')
    (hsame : ∀ b, 8 * base + off ≤ b → b < 8 * base + off + width → bitAt buf b = bitAt out' b) :
    bitsAt buf width (8 * base + off) 0 = u := by
  obtain ⟨-, hbits⟩ := orBits_bits hfit hcount h
  apply bitsAt_eq hu
  intro b hlo hhi
  rw [hsame b hlo hhi, hbits, hclear b hlo, Bool.false_or, decide_eq_true ⟨hlo, hhi⟩, Bool.true_and]

lemma field_bit_written {width : Nat} {signed : Bool} (hn : ScopeNumbers full key kind) (hspan : kind.spannable = false)
    (hpos : 0 < width) (hle : width ≤ 64) (base off : Nat) :
    FieldReturns H Γ full key kind asked (fun buf _ limit bit => bitsPart width signed buf limit bit) can
      (fun v => (regOf full key).isSome → ∀ i ∈ v.bind Value.asInt, InI64 i)
      (.bit base off { width, signed, reg := regOf full key, derived := false, key }) := by
  rintro p ⟨out₀, frames⟩ view next f fs rfl hs ⟨rfl, hfit, hcount⟩ hfresh hpack
  let item : BitItem := { width, signed, reg := regOf full key, derived := false, key }
  have hwhole : ∀ v, packBitItem base off item v ⟨out₀, f :: fs⟩ = inputOf v key Value.asInt 0 >>= fun val =>
      checkBitsRange val width signed >>= fun _ => orBits base (asU64 val % 2 ^ width) width off out₀ >>= fun out =>
        .ok ⟨out, f.noted (regOf full key) (some val) :: fs⟩ := by
    intro v
    rw [packBitItem, if_neg Bool.false_ne_true]
    congr 1
    funext val
    congr 1
    funext _
    congr 1
    funext out
    exact setReg_put hn.reg (asI64 val)
  have hone := Exec.mapErr_eq_ok.mp hpack
  rw [hwhole] at hone
  obtain ⟨val, hval, hone⟩ := Exec.bind_eq_ok.mp hone
  obtain ⟨_, hrange, hone⟩ := Exec.bind_eq_ok.mp hone
  obtain ⟨out, hout, hone⟩ := Exec.bind_eq_ok.mp hone
  cases hone
  have hmoves := hs.orBits hfit (Nat.le_of_lt hcount) hout
  have hhead : ∀ p', Moves (FieldStep p' (regOf full key) none ((8 * base + off) / 8, (8 * base + off + width) / 8) [])
      (8 * base + off + width) ⟨out, f :: fs⟩ (8 * base + off + width)
        ⟨out, f.noted (regOf full key) (some val) :: fs⟩ :=
    fun p' => hmoves.sound.noted none _ (n := some val) hfresh (fun h => by cases h)
  refine ⟨f.noted (regOf full key) (some val), fs, [], rfl, ?_, ?_⟩
  · rw [hn.noSpan hspan]
    exact hmoves.trans (hhead _) (fun _ _ hk => .of_kept hk) FieldStep.kept_after
  · intro buf last seen limit hf _ hsuits
    have hfits : 8 * base + off + width ≤ 8 * limit := hf.fits
    have hwithin := hf.within
    have hc := (hhead (8 * base + off + width)).completes (fun _ _ hstep => hstep.grows) hf.completes
    have hword : asU64 val % 2 ^ width < 2 ^ width := Nat.mod_lt _ (Nat.two_pow_pos _)
    have hread : bitsAt buf width (8 * base + off) 0 = asU64 val % 2 ^ width :=
      bitsAt_written hword hfit (Nat.le_of_lt hcount) hs.clear hout fun b hlo hhi => hc.bits b hhi (hmoves.shut hs hlo)
    have hval' : signBits width signed (bitsAt buf width (8 * base + off) 0) = val := by
      rw [hread]
      have hsign : signBits item.width item.signed (asU64 val % 2 ^ item.width) = val := signBits_word hpos hle hrange
      exact hsign
    refine ⟨_, if_pos hfits, rfl, facts_none_ok, ?_, fun _ => rfl, fun _ => rfl, .nil, ?_⟩
    · intro i hi
      have hback := noted_readBack (v := val) buf none (0, 0) hfresh ?_ hi
      · rw [hval']
        exact congrArg some hback.symm
      · intro hsome
        rcases inputOf_eq hval with hg | ⟨-, rfl⟩
        · exact hsuits hsome val hg
        · decide
    · intro view' hview
      refine Exec.mapErr_eq_ok.mpr ?_
      rw [hwhole]
      refine Exec.bind_eq_ok.mpr ⟨val, ?_, Exec.bind_eq_ok.mpr ⟨(), hrange, Exec.bind_eq_ok.mpr ⟨out, hout, rfl⟩⟩⟩
      rcases lookup_again view hview with hsame | ⟨hnew, hname⟩
      · rw [hsame]
        exact hval
      · rw [hnew, hval']
        rfl

lemma field_bit_reserved {width : Nat} {signed : Bool} (hn : ScopeNumbers full key kind)
    (hspan : kind.spannable = false) (hpos : 0 < width) (hle : width ≤ 64) (base off : Nat)
    {suits : Option Value → Prop} :
    FieldReturns H Γ full key kind asked (fun buf _ limit bit => bitsPart width signed buf limit bit) can suits
      (.bit base off { width, signed, reg := regOf full key, derived := true, key }) := by
  rintro p ⟨out₀, frames⟩ view next f fs rfl hs ⟨rfl, hfit, hcount⟩ hfresh hpack
  have hone := Exec.mapErr_eq_ok.mp hpack
  rw [packBitItem, if_pos rfl] at hone
  obtain ⟨-, rfl⟩ := (reserve_put hn.reg).mp hone
  have hframe := (hs.frames f List.mem_cons_self).putSlot (.bits base off width signed) hfresh
    ⟨hpos, hle, Nat.le_of_lt hcount⟩ rfl rfl
    hs.clear (Nat.le_add_right _ _)
  have hstep : FieldStep (8 * base + off) (regOf full key) none
      ((8 * base + off) / 8, (8 * base + off + width) / 8) []
      f (f.putSlot (regOf full key) (.bits base off width signed)) := FieldStep.putSlot hfresh rfl
  refine ⟨f.putSlot (regOf full key) (.bits base off width signed), fs, [], rfl, ?_, ?_⟩
  · rw [hn.noSpan hspan]
    refine hs.head (Nat.le_add_right _ _) hfit hstep hframe ?_
    intro a ha
    rcases ha with ⟨i, r, hr, rfl⟩ | hd
    · rcases putSlot_eq_some (f := f) hr with ⟨-, rfl⟩ | ⟨-, hr⟩
      · exact .inr (Nat.le_refl _)
      · exact .inl (.inl ⟨i, r, hr, rfl⟩)
    · exact .inl (.inr hd)
  · intro buf last seen limit hf _ _
    have hfits : 8 * base + off + width ≤ 8 * limit := hf.fits
    refine ⟨_, if_pos hfits, rfl, facts_none_ok, ?_, fun _ => rfl, fun _ => rfl, .nil, fun view' _ => hpack⟩
    intro i hi
    have hslot : (f.putSlot (regOf full key) (.bits base off width signed)).res i =
        some { slot := .bits base off width signed, value := none } := by
      simp only [PFrame.putSlot, if_pos hi]
    rw [readBack_slot hslot]
    rfl

lemma field_bit {width : Nat} {signed derived : Bool} {task : Task}
    (htask : task.piece = .bit { width, signed, reg := regOf full key, derived, key }) (hn : ScopeNumbers full key kind)
    (hspan : kind.spannable = false) (hpos : 0 < width) (hle : width ≤ 64) :
    FieldReturns H Γ full key kind asked (fun buf _ limit bit => bitsPart width signed buf limit bit) can
      (fun v => (regOf full key).isSome → ∀ i ∈ v.bind Value.asInt, InI64 i) task := by
  cases task with
  | fixed | op => cases htask
  | bit base off item =>
    obtain rfl := Piece.bit.inj htask
    cases derived with
    | false => exact field_bit_written hn hspan hpos hle base off
    | true => exact field_bit_reserved hn hspan hpos hle base off

section Values

variable {n : String} {sem : PSem} {read : Bytes → Seen → Nat → Nat → Option Part} {suits : Value → Prop}
  {view : FieldIndex}
  {ctx next : PCtx} {f : PFrame} {fs : List PFrame}

/-- A field whose value is packed by `sem`. -/
lemma packField_returns (hn : ScopeNumbers full (.named n) kind) (href : kind.refable = false)
    (h : Returns H Γ sem read can suits) (hframes : ctx.frames = f :: fs) (hs : ctx.Sound (8 * ctx.out.length))
    (hpack : packField { key := .named n, span := spanOf full (.named n) } sem view ctx = .ok next) :
    FieldDone H Γ full (.named n) kind asked read can (∀ v ∈ lookup view (.named n), suits v)
      (fun view => packField { key := .named n, span := spanOf full (.named n) } sem view ctx)
      (8 * ctx.out.length) (8 * next.out.length) ctx next := by
  have hreg := hn.noReg href
  have hwhole : ∀ view' v, view'.get n = some v →
      packField { key := .named n, span := spanOf full (.named n) } sem view' ctx =
        Exec.mapErr (segKey (.named n)) (sem v ctx) >>= fun mid =>
          mid.setSpan (spanOf full (.named n)) ctx.out.length mid.out.length := by
    intro view' v hv
    rw [packField]
    dsimp only [Key.name]
    rw [Exec.expect_some, Exec.bind_ok, viewGet_value, Exec.bind_ok, hv]
  cases hv : view.get n with
  | none =>
    rw [packField] at hpack
    dsimp only [Key.name] at hpack
    rw [Exec.expect_some, Exec.bind_ok, viewGet_value, Exec.bind_ok, hv] at hpack
    cases hpack
  | some v =>
    rw [hwhole view v hv] at hpack
    obtain ⟨mid, hmid, hset⟩ := Exec.bind_eq_ok.mp hpack
    obtain ⟨hwrites, hback⟩ := h ctx v mid hs (Exec.mapErr_eq_ok.mp hmid)
    have hstep := FramesStep.iff_forall₂.mp hwrites.frames
    rw [hframes] at hstep
    obtain ⟨out, mframes⟩ := mid
    obtain ⟨f', fs', hkept, hrest, rfl⟩ : ∃ f' fs', FrameKept f f' ∧ List.Forall₂ FrameKept fs fs' ∧
      mframes = f' :: fs' := by
      dsimp only at hstep
      cases hstep with
      | cons hk hrest => exact ⟨_, _, hk, hrest, rfl⟩
    have hnext := hset
    rw [setSpan_put hn.span] at hnext
    cases hnext
    have hfresh' : f'.Fresh (regOf full (.named n)) := by
      intro i hi
      rw [hreg] at hi
      cases hi
    have hhead : ∀ p,
        Moves (FieldStep p (regOf full (.named n)) (spanOf full (.named n)) (ctx.out.length, out.length) [])
          (8 * out.length) ⟨out, f' :: fs'⟩ (8 * out.length)
          ⟨out, f'.putSpan (spanOf full (.named n)) (ctx.out.length, out.length) :: fs'⟩ :=
      fun p => hwrites.sound.noted _ _ (n := none) hfresh' fun _ => hreg
    have hdiv : ∀ k, 8 * k / 8 = k := fun k => Nat.mul_div_cancel_left k (by decide)
    unfold FieldDone
    dsimp only
    rw [hdiv, hdiv]
    refine ⟨_, fs', [], rfl, hwrites.trans (hhead _) (fun _ _ hk => .of_kept hk) FieldStep.kept_after, ?_⟩
    intro buf last seen limit hf hcan hsuits
    have hc := (hhead (8 * out.length)).completes (fun _ _ hs => hs.grows) hf.completes
    obtain ⟨w, facts, hread, hok, hagain⟩ :=
      hback buf last seen limit ⟨hf.env, hf.carries, hc, hf.fits, hf.within, hf.last⟩ hcan
      (hsuits v hv)
    refine ⟨_, hread, rfl, hok, ?_, ?_, fun _ => rfl, .nil, ?_⟩
    · intro i hi
      rw [hreg] at hi
      cases hi
    · intro hyes
      rw [href] at hyes
      cases hyes
    · intro view' hview
      rw [hwhole view' w (hview n rfl), hagain, Exec.mapErr_ok, Exec.bind_ok]
      exact hset

lemma field_value {o : Op}
    (hop : ∀ view, packOp H o view = packField { key := .named n, span := spanOf full (.named n) } sem view)
    (hn : ScopeNumbers full (.named n) kind) (href : kind.refable = false) (h : Returns H Γ sem read can suits) :
    FieldReturns H Γ full (.named n) kind asked read can (fun v => ∀ x ∈ v, suits x) (.op o) := by
  intro p room view next f fs hframes hs hstart hfresh hpack
  obtain rfl : p = 8 * room.out.length := hstart
  simp only [Task.pack, hop] at hpack ⊢
  exact packField_returns hn href h hframes hs hpack

lemma FieldStep.of_kept {p : Nat} {range : Nat × Nat} {f g : PFrame} (hk : FrameKept f g) :
    FieldStep p none none range [] f g where
  regs i _ := hk.regs i
  own i hi := by cases hi
  used i hi := by cases hi
  spans j := by
    rw [hk.spans]
    rfl
  digests := by rw [hk.digests, List.append_nil]
  new _ hd := absurd hd List.not_mem_nil

/-- A field that is absent writes nothing, and it is absent again. -/
lemma field_cond {pred : ExprIn} {pred' : Expr} {thn : Op} (hpred : LowersExpr Γ .pred pred pred')
    (hn : ScopeNumbers full (.named n) kind) (hkind : kind = { spannable := false })
    (h : Returns H Γ (packValue H thn) read can suits) :
    FieldReturns H Γ full (.named n) kind asked
      (fun buf seen limit bit => (byteOf bit).bind fun _ => (pred.read seen).bind fun p =>
        if p ≠ 0 then read buf seen limit bit else some { value := none, bit, digest := none, facts := .none })
      can (fun v => ∀ x ∈ v, suits x) (.op (.cond pred' thn { key := .named n, span := spanOf full (.named n) })) := by
  intro p room view next f fs hframes hs hstart hfresh hpack
  obtain rfl : p = 8 * room.out.length := hstart
  have href : kind.refable = false := by rw [hkind]
  have hreg := hn.noReg href
  have hspan := hn.noSpan (by rw [hkind])
  have hop : ∀ view, Task.pack H view (.op (.cond pred' thn { key := .named n, span := spanOf full (.named n) })) room =
      packCond pred' { key := .named n, span := spanOf full (.named n) } (packValue H thn) view room := by
    intro view
    rw [Task.pack, packOp]
  simp only [hop] at hpack ⊢
  obtain ⟨tag, htag, hpack⟩ := Exec.bind_eq_ok.mp hpack
  by_cases hzero : tag ≠ 0
  · rw [if_pos hzero] at hpack
    obtain ⟨g, gs, ds, hg, hmoves, hback⟩ := packField_returns hn href h hframes hs hpack
    refine ⟨g, gs, ds, hg, hmoves, fun buf last seen limit hf hcan hsuits => ?_⟩
    obtain ⟨part, hread, hfb⟩ := hback buf last seen limit hf hcan hsuits
    have hc := hmoves.completes (fun _ _ hs => hs.grows) hf.completes
    have hp := hc.read hs hf.env hf.carries hpred htag
    refine ⟨part, ?_, hfb.bit, hfb.facts, hfb.reg, hfb.int, hfb.value, hfb.digests, fun view' hview => ?_⟩
    · dsimp only
      rw [byteOf_mul, Option.bind_some, hp, Option.bind_some, if_pos hzero]
      exact hread
    · refine Exec.bind_eq_ok.mpr ⟨tag, htag, ?_⟩
      rw [if_pos hzero]
      exact hfb.again view' hview
  · rw [if_neg hzero] at hpack
    cases hpack
    refine ⟨f, fs, [], hframes, ?_, fun buf last seen limit hf _ _ => ?_⟩
    · rw [hreg, hspan]
      exact (Moves.refl hs).mono fun _ _ => .of_kept
    · have hp := hf.completes.read hs hf.env hf.carries hpred htag
      refine ⟨{ value := none, bit := 8 * room.out.length, digest := none, facts := .none }, ?_, rfl,
        facts_none_ok, ?_, ?_, ?_, .nil,
        fun view' _ => ?_⟩
      · dsimp only
        rw [byteOf_mul, Option.bind_some, hp, Option.bind_some, if_neg hzero]
      · intro i hi
        rw [hreg] at hi
        cases hi
      · intro hyes
        rw [href] at hyes
        cases hyes
      · intro hyes
        rw [hkind] at hyes
        cases hyes
      · refine Exec.bind_eq_ok.mpr ⟨tag, htag, ?_⟩
        rw [if_neg hzero]

end Values

section Digests

lemma FieldStep.addDigest {p : Nat} {span : Option Nat} {range : Nat × Nat} {f : PFrame} {d : PDigest}
    (hp : p ≤ 8 * d.pos) :
    FieldStep p none span range [d] f ((f.putSpan span range).addDigest d) where
  regs i _ := ⟨rfl, fun _ h _ => h, fun _ => ⟨rfl, rfl⟩⟩
  own i hi := by cases hi
  used i hi := by cases hi
  spans _ := rfl
  digests := rfl
  new e he := by
    obtain rfl := List.mem_singleton.mp he
    exact hp

lemma late_addDigest {f : PFrame} {span : Option Nat} {range a : Nat × Nat} {d : PDigest}
    (h : ((f.putSpan span range).addDigest d).Late a) : f.Late a ∨ a = d.range := by
  rcases h with hr | ⟨e, he, rfl⟩
  · exact .inl (.inl hr)
  · rcases List.mem_append.mp he with he | he
    · exact .inl (.inr ⟨e, he, rfl⟩)
    · obtain rfl := List.mem_singleton.mp he
      exact .inr rfl

/-- A digest is zeros until the end of its scope. -/
lemma field_digest {n : String} {algo : Algo} {overs : OverIn} {overs' : Over} (verify be : Bool)
    (hwidth : algo.widthBytes ≤ 32) (hover : OverIs full overs overs')
    (hothers : ∀ names, overs = .names names → n ∉ names) (hwhole : algo.Whole)
    (hshort : ∀ size last, can size last → overs = .star → verify = true → algo = .ipChecksum → size ≤ 131072)
    (hn : ScopeNumbers full (.named n) kind) (href : kind.refable = false) {suits : Option Value → Prop} :
    FieldReturns H Γ full (.named n) kind (some (overs, verify))
      (fun buf _ limit bit => (byteOf bit).bind fun pos => (bytesIn buf limit pos algo.widthBytes).bind fun raw =>
        let u := readUint raw be
        let stop := pos + algo.widthBytes
        let read := if algo.isInt then DigestVal.int (BitVec.ofNat 64 u) else DigestVal.bytes raw
        some { value := some (if algo.isInt then .int u else .bytes raw), bit := 8 * stop,
               digest := some { algo, overs, verify, read, start := pos, stop }, facts := .none })
      can suits (.op (.digest algo overs' verify be { key := .named n, span := spanOf full (.named n) })) := by
  rintro p ⟨out₀, frames⟩ view next f fs rfl hs hstart hfresh hpack
  obtain rfl : p = 8 * out₀.length := hstart
  have hmax : isizeMax + algo.widthBytes < usizeSize := by
    have : isizeMax + 32 < usizeSize := by decide
    omega
  have hreg := hn.noReg href
  have hop : ∀ view, Task.pack H view
    (.op (.digest algo overs' verify be { key := .named n, span := spanOf full (.named n) })) ⟨out₀, f :: fs⟩ =
      packDigest algo overs' be { key := .named n, span := spanOf full (.named n) } ⟨out₀, f :: fs⟩ := by
    intro view
    rw [Task.pack, packOp]
  simp only [hop] at hpack ⊢
  have hagain := hpack
  obtain ⟨⟨out, frames⟩, hgrow, hpack⟩ := Exec.bind_eq_ok.mp hpack
  obtain ⟨hframes, hout, hgrown⟩ := hs.grow hmax hgrow
  dsimp only at hframes hout
  subst hframes
  obtain ⟨mid, hmid, hpack⟩ := Exec.bind_eq_ok.mp hpack
  rw [setSpan_put hn.span] at hmid
  cases hmid
  cases hpack
  have hlen : out.length = out₀.length + algo.widthBytes := by rw [hout, List.length_append, List.length_replicate]
  have hdiv : ∀ k, 8 * k / 8 = k := fun k => Nat.mul_div_cancel_left k (by decide)
  let d : PDigest := { algo, overs := overs', pos := out₀.length, width := algo.widthBytes, be }
  have hframe := hgrown.sound.frames f List.mem_cons_self
  have hsound : FrameSound (8 * (out₀.length + algo.widthBytes)) out
      ((f.putSpan (spanOf full (.named n)) (out₀.length, out₀.length + algo.widthBytes)).addDigest d) :=
    FrameSound.addDigest (d := d) (hframe.putSpan _ _) hgrown.sound.clear
  have hhead := hgrown.sound.head (q := 8 * (out₀.length + algo.widthBytes)) (by omega) (by omega)
    (R := FieldStep (8 * out₀.length) none (spanOf full (.named n)) (out₀.length, out₀.length + algo.widthBytes) [d])
    (.addDigest (Nat.le_refl _)) hsound fun a ha => by
      rcases late_addDigest ha with hold | rfl
      · exact .inl hold
      · exact .inr (Nat.le_refl _)
  have hstop : Task.stop (8 * out₀.length) out.length
      (.op (.digest algo overs' verify be { key := .named n, span := spanOf full (.named n) })) =
        8 * (out₀.length + algo.widthBytes) := by
    rw [Task.stop, hlen]
  rw [hstop]
  unfold FieldDone
  rw [hdiv, hdiv, hreg]
  refine ⟨_, fs, [d], rfl, hgrown.trans hhead (fun _ _ hk => .of_kept hk) FieldStep.kept_after, ?_⟩
  intro buf last seen limit hf hcan _
  have hfits := hf.fits
  have hfit : out₀.length + algo.widthBytes ≤ limit := by omega
  let raw := (buf.drop out₀.length).take algo.widthBytes
  let got : GotDigest := { algo, overs, verify, read :=
    if algo.isInt then .int (BitVec.ofNat 64 (readUint raw be)) else .bytes raw,
                           start := out₀.length, stop := out₀.length + algo.widthBytes }
  have hfills : Fills buf full (.named n) (some (overs, verify)) d got := by
    refine ⟨rfl, rfl, ?_, rfl, hover, rfl, rfl, rfl, hwhole, hshort _ _ hcan, rfl⟩
    rintro names hnames m hm
    obtain rfl := Option.some.inj hm
    exact hothers names hnames
  refine ⟨{ value := some (if algo.isInt then .int (readUint raw be) else .bytes raw), bit :=
    8 * (out₀.length + algo.widthBytes),
            digest := some got, facts := .none }, ?_, rfl, facts_none_ok, ?_, ?_, fun _ => rfl, .cons hfills .nil,
              fun view' _ => hagain⟩
  · dsimp only
    rw [byteOf_mul, Option.bind_some, bytesIn, if_pos hfit, Option.bind_some]
  · intro i hi
    rw [hreg] at hi
    cases hi
  · intro hyes
    rw [href] at hyes
    cases hyes

end Digests

end Fields

end Rustruct

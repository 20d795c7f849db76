import Rustruct.Proofs.FixedWrites
import Rustruct.Proofs.Tasks
import Rustruct.Proofs.Meaning
import Rustruct.Proofs.Texts

/-!
# Values that come back

A value is packed, and later the bytes are read. What is read is packed as the same bytes again.
-/

namespace Rustruct

open BitStream

lemma Moves.completed {p q : Nat} {ctx next : PCtx} {buf : Bytes} (h : Moves FrameKept p ctx q next)
    (hc : Completes buf q next) :
    Completes buf p ctx :=
  h.completes (fun _ _ hk => .of_kept hk) hc

/-- What was written on the way is settled. -/
lemma Moves.shut {p q : Nat} {ctx next : PCtx} (h : Moves FrameKept p ctx q next) (hs : ctx.Sound p) {b : Nat}
    (hb : p ≤ b) :
    ¬next.Opens b := by
  rintro ⟨g, hg, a, ha, hlo, hhi⟩
  have hgrows : FramesStep (FrameGrows (b + 1)) ctx.frames next.frames := h.frames.mono fun _ _ hk => .of_kept hk
  obtain ⟨f, hf, hfg⟩ := hgrows.mem hg
  rcases hfg.back ha with hopen | hnew
  · have := (hs.frames f hf).below hopen.late
    omega
  · omega

lemma Moves.slice {pos n q : Nat} {ctx next : PCtx} {buf : Bytes} (h : Moves FrameKept (8 * pos) ctx q next)
    (hs : ctx.Sound (8 * pos)) (hc : Completes buf q next) (hq : 8 * (pos + n) ≤ q) :
    (buf.drop pos).take n = (next.out.drop pos).take n := by
  have hroom := hc.room
  have hroom' := h.sound.room
  exact slice_congr (by omega) (by omega) fun b hlo hhi => hc.bits b (by omega) (h.shut hs hlo)

/-- What is known in the end of what was written up to bit `q`: the bytes are complete, in a region up to
`limit`, and what was read before it is in the frames. -/
structure Finally (buf : Bytes) (last : Bool) (Γ : Env) (seen : Seen) (limit : Nat) (ctx : PCtx) (q : Nat)
    (next : PCtx) : Prop where
  env : EnvOk Γ
  carries : EnvCarries buf.length Γ seen (ctx.readBack buf)
  completes : Completes buf q next
  fits : q ≤ 8 * limit
  within : limit ≤ buf.length
  /-- What is last in its region fills it. -/
  last : last = true → q = 8 * limit

/-- The reading ends with this byte, and its value is fit for `again`. -/
def ComesBack (H : Hashes) (y : Option Part) (stop : Nat) (again : Value → Prop) : Prop :=
  ∃ v facts, y = some (.upTo stop v facts) ∧ facts.Ok H ∧ again v

/-- Values that `sem` packs come back by `read`, where the type can and the value suits. -/
def Returns (H : Hashes) (Γ : Env) (sem : PSem) (read : Bytes → Seen → Nat → Nat → Option Part)
    (can : Nat → Bool → Prop) (suits : Value → Prop) : Prop :=
  ∀ ctx v next, ctx.Sound (8 * ctx.out.length) → sem v ctx = .ok next → Writes ctx next ∧
    ∀ buf last seen limit, Finally buf last Γ seen limit ctx (8 * next.out.length) next →
      can buf.length last → suits v →
      ComesBack H (read buf seen limit (8 * ctx.out.length)) next.out.length fun v => sem v ctx = .ok next

section Leaves

variable {H : Hashes} {Γ : Env} {can : Nat → Bool → Prop} {suits : Value → Prop}

lemma readFlat_eq_some {buf : Bytes} {n pos limit : Nat} {value : Bytes → Option Value} {v : Value}
    (hfit : pos + n ≤ limit) (hv : value ((buf.drop pos).take n) = some v) :
    readFlat buf n value limit (8 * pos) = some (.upTo (pos + n) v .none) := by
  rw [readFlat, byteOf_mul, Option.bind_eq_bind, Option.bind_some, bytesIn, if_pos hfit, Option.bind_eq_bind,
    Option.bind_some, hv]
  rfl

/-- The item of an element that is fixed. -/
def FixKind.alone (k : FixKind) : FixedItem := { off := 0, kind := k, reg := none, span := none, key := .skip }

lemma returns_fixed {k : FixKind} (hreserved : k.reserved = false) (hcan : ∀ n last, can n last → k.narrows = false)
    (hroomy : isizeMax + k.width < usizeSize) :
    Returns H Γ (packFixed1 k.width [k.alone]) (fun buf _ limit bit => fixedRead buf k limit bit) can suits := by
  intro ctx v next hs h
  have hmax := isizeMax_lt
  have hsmall := hs.small
  obtain ⟨room, hgrow, hitem⟩ := Exec.bind_eq_ok.mp h
  obtain ⟨hframes, hout, hmoves⟩ := hs.grow hroomy hgrow
  have hlen : room.out.length = ctx.out.length + k.width := by
    rw [hout, List.length_append, List.length_replicate]
  have hsame : next.out.length = room.out.length := packFixedItem_length hitem
  have hwrap : wrapAdd ctx.out.length 0 = ctx.out.length := wrapAdd_of_lt (by omega)
  have hnote : ∀ (c : PCtx) (n : Option Int), c.note none n = .ok c := by
    intro c n
    cases n <;> rfl
  have hpack : ∀ v, packFixed1 k.width [k.alone] v ctx =
      k.alone.write ctx.out.length (some v) room.out >>= fun w => .ok { room with out := w.1 } := by
    intro v
    have hone : packFixedItem ctx.out.length k.alone (some v) room =
        k.alone.write ctx.out.length (some v) room.out >>= fun w => .ok { room with out := w.1 } := by
      rw [packFixedItem_eq hreserved]
      dsimp only
      rw [show wrapAdd ctx.out.length k.alone.off = ctx.out.length from hwrap]
      congr 1
      funext w
      exact Eq.trans (Exec.bind_ok_self _) (hnote _ _)
    rw [packFixed1, hgrow, Exec.bind_ok]
    exact hone
  rw [hpack] at h
  obtain ⟨⟨out, n⟩, hw, h⟩ := Exec.bind_eq_ok.mp h
  cases h
  obtain ⟨hwrite, hback⟩ := FixedItem.write_spec hmoves.sound (Nat.le_of_eq hlen.symm) hw
  have hstop : 8 * (ctx.out.length + k.width) = 8 * out.length := by
    dsimp only at hsame
    omega
  have hall : Writes ctx { room with out } := by
    have hthen := hmoves.then hwrite
    rwa [show k.alone.kind = k from rfl, hstop] at hthen
  refine ⟨hall, ?_⟩
  intro buf last seen limit hf hc _
  have hslice : (buf.drop ctx.out.length).take k.width = (out.drop ctx.out.length).take k.width :=
    hall.slice hs hf.completes (Nat.le_of_eq hstop)
  have hfits : 8 * out.length ≤ 8 * limit := hf.fits
  refine ⟨k.value ((out.drop ctx.out.length).take k.width), .none, ?_, facts_none_ok, ?_⟩
  · have hend : out.length = ctx.out.length + k.width := by omega
    show _ = some (Part.upTo out.length _ _)
    rw [hend]
    refine readFlat_eq_some (by omega) ?_
    rw [hslice]
    exact if_pos hback.accepts
  · have hagain : k.alone.write ctx.out.length (some (k.value ((out.drop ctx.out.length).take k.width))) room.out =
        .ok (out, n) :=
      hback.again _ (.inr ⟨hcan _ _ hc, rfl, .inl rfl⟩)
    show packFixed1 k.width [k.alone] _ ctx = _
    rw [hpack, hagain, Exec.bind_ok]

lemma length_of_read {e : ExprIn} {seen : Seen} {n limit pos : Nat} (hne : e ≠ .greedy)
    (h : e.read seen = some (n : Int)) :
    e.length seen limit pos = some n := by
  have hlen : e.length seen limit pos = (e.read seen).bind fun n => if n < 0 then none else some n.toNat := by
    cases e with
    | greedy => exact absurd rfl hne
    | imm | ref | bin => rfl
  have hnat : ¬(n : Int) < 0 := by omega
  rw [hlen, h, Option.bind_some, if_neg hnat, Int.toNat_natCast]

/-- After the content of a length has been written, the length is known. -/
lemma finishLen_spec {e : ExprIn} {len : LenSrc} {ctx mid next : PCtx} {actual : Nat} (hlow : LowersLen Γ e len)
    (hmid : Writes ctx mid) (h : mid.finishLen len actual = .ok next) : Writes ctx next ∧ Writes mid next ∧
      next.out.length = mid.out.length ∧ ∀ buf last seen limit,
        Finally buf last Γ seen limit ctx (8 * next.out.length) next →
        ∀ most, actual ≤ most → e.Exact most → e ≠ .greedy →
        e.read seen = some (actual : Int) := by
  have hlen := finishLen_length h
  cases len with
  | greedy =>
    cases h
    refine ⟨hmid, .refl hmid.sound, rfl, fun buf last seen limit hf _ _ _ hne => ?_⟩
    cases e with
    | greedy => exact absurd rfl hne
    | imm | ref | bin =>
      rcases hlow with ⟨_, -, -, hno⟩ | ⟨_, _, -, hno⟩ <;> cases hno
  | expr expr inv =>
    obtain ⟨hmoves, hread⟩ := hmid.sound.finishLen hlow h
    have hwrites : Writes mid next := by
      have hstop : 8 * mid.out.length = 8 * next.out.length := by omega
      rw [Writes, ← hstop]
      exact hmoves
    refine ⟨hmid.then hwrites, hwrites, hlen, fun buf last seen limit hf most hmost hexact _ => ?_⟩
    have hcarries := hf.carries
    rw [← hmid.readBack] at hcarries
    refine hread buf seen hf.env hcarries ?_ most hmost hexact
    rw [← hlen]
    exact hf.completes

lemma packChunk_spec {e : ExprIn} {len : LenSrc} {max : Nat} {b : Bytes} {ctx next : PCtx} (hlow : LowersLen Γ e len)
    (hs : ctx.Sound (8 * ctx.out.length)) (h : packChunk len max b ctx = .ok next) : Writes ctx next ∧ b.length ≤ max ∧
      next.out.length = ctx.out.length + b.length ∧ ∀ buf last seen limit,
        Finally buf last Γ seen limit ctx (8 * next.out.length) next →
        e.Recovers buf.length last → e.length seen limit ctx.out.length = some b.length ∧
          (buf.drop ctx.out.length).take b.length = b := by
  unfold packChunk at h
  split_ifs at h with hmax
  · cases h
  obtain ⟨out, hout, h⟩ := Exec.bind_eq_ok.mp h
  obtain ⟨rfl, hmid⟩ := hs.extend hout
  obtain ⟨hall, hlast, hlen, hread⟩ := finishLen_spec hlow hmid h
  have hstop : next.out.length = ctx.out.length + b.length := by
    rw [hlen, List.length_append]
  refine ⟨hall, Nat.not_lt.mp hmax, hstop, fun buf last seen limit hf hrec => ⟨?_, ?_⟩⟩
  · by_cases hgreedy : e = .greedy
    · have hlimit := hf.last (hrec.greedy hgreedy)
      rw [hgreedy, ExprIn.length]
      congr 1
      omega
    · have hfits := hf.fits
      have hwithin := hf.within
      exact length_of_read hgreedy (hread buf last seen limit hf _ (by omega) hrec.exact hgreedy)
  · have hslice := hmid.slice (n := b.length) hs (hlast.completed hf.completes) (by rw [List.length_append])
    rw [hslice, List.drop_left, List.take_length]

lemma returns_bytes {e : ExprIn} {len : LenSrc} (hlow : LowersLen Γ e len) (max : Nat) :
    Returns H Γ (packBytes len max)
      (fun buf seen limit bit => readCounted buf seen e max (fun raw => some (.bytes raw)) limit bit)
      (fun n last => e.Recovers n last) suits := by
  intro ctx v next hs h
  have hpack := h
  unfold packBytes at h
  cases hv : v.asBytes with
  | none =>
    rw [hv] at h
    cases h
  | some b =>
    rw [hv] at h
    obtain ⟨hall, hmax, hstop, hback⟩ := packChunk_spec hlow hs h
    refine ⟨hall, fun buf last seen limit hf hrec _ => ?_⟩
    obtain ⟨hlen, hslice⟩ := hback buf last seen limit hf hrec
    have hfits := hf.fits
    refine ⟨.bytes b, .none, ?_, facts_none_ok, h⟩
    dsimp only
    rw [readCounted, byteOf_mul, Option.bind_eq_bind, Option.bind_some, hlen, Option.bind_some,
      if_neg (by omega), hstop]
    exact readFlat_eq_some (by omega) (by rw [hslice])

lemma textOf_spec {v : Value} {enc : Enc} {b : Bytes} (h : textOf v enc = .ok b) :
    ∃ s, encode s enc = some b ∧ textOf (.str s) enc = .ok b := by
  unfold textOf at h
  cases hv : v.asStr with
  | none =>
    rw [hv] at h
    cases h
  | some s =>
    rw [hv] at h
    dsimp only at h
    cases henc : encode s enc with
    | none =>
      rw [henc] at h
      cases h
    | some b' =>
      rw [henc] at h
      cases h
      refine ⟨s, henc, ?_⟩
      unfold textOf
      dsimp only [Value.asStr]
      rw [henc]

lemma returns_str {e : ExprIn} {len : LenSrc} (hlow : LowersLen Γ e len) (max : Nat) (enc : Enc) :
    Returns H Γ (packStr len max enc)
      (fun buf seen limit bit => readCounted buf seen e max (fun raw => (decode raw enc).map .str) limit bit)
      (fun n last => e.Recovers n last) suits := by
  intro ctx v next hs h
  obtain ⟨b, hb, h⟩ := Exec.bind_eq_ok.mp h
  obtain ⟨hall, hmax, hstop, hback⟩ := packChunk_spec hlow hs h
  refine ⟨hall, fun buf last seen limit hf hrec _ => ?_⟩
  obtain ⟨hlen, hslice⟩ := hback buf last seen limit hf hrec
  have hfits := hf.fits
  obtain ⟨s, henc, hagain⟩ := textOf_spec hb
  refine ⟨.str s, .none, ?_, facts_none_ok, Exec.bind_eq_ok.mpr ⟨b, hagain, h⟩⟩
  dsimp only
  rw [readCounted, byteOf_mul, Option.bind_eq_bind, Option.bind_some, hlen, Option.bind_some,
    if_neg (by omega), hstop]
  exact readFlat_eq_some (by omega) (by rw [hslice, decode_encode henc]; rfl)

lemma returns_cstr (max : Nat) (enc : Enc) :
    Returns H Γ (packCstr max enc)
      (fun buf _ limit bit => readTerminated buf max (fun raw => (decode raw enc).map .str) limit bit) can suits := by
  intro ctx v next hs h
  obtain ⟨b, hb, h'⟩ := Exec.bind_eq_ok.mp h
  have hpack := h'
  split_ifs at h' with hnul hmax
  · cases h'
  · cases h'
  obtain ⟨out, hout, h'⟩ := Exec.bind_eq_ok.mp h'
  obtain ⟨rfl, hall⟩ := hs.extend hout
  cases h'
  refine ⟨hall, fun buf last seen limit hf _ _ => ?_⟩
  obtain ⟨s, henc, hagain⟩ := textOf_spec hb
  have hstop : (ctx.out ++ (b ++ [0])).length = ctx.out.length + b.length + 1 := by
    rw [List.length_append, List.length_append, List.length_singleton, Nat.add_assoc]
  have hfits : 8 * (ctx.out ++ (b ++ [0])).length ≤ 8 * limit := hf.fits
  have hslice := hall.slice (n := b.length + 1) hs hf.completes (by dsimp only; omega)
  have hbytes : (buf.drop ctx.out.length).take (b.length + 1) = b ++ [0] := by
    rw [hslice, List.drop_left, List.take_of_length_le (by simp)]
  have hwindow : (buf.drop ctx.out.length).take (limit - ctx.out.length) =
      b ++ 0 :: ((buf.drop ctx.out.length).take (limit - ctx.out.length)).drop (b.length + 1) := by
    have htake : ((buf.drop ctx.out.length).take (limit - ctx.out.length)).take (b.length + 1) = b ++ [0] := by
      rw [List.take_take, Nat.min_eq_left (by omega), hbytes]
    conv_lhs => rw [← List.take_append_drop (b.length + 1) ((buf.drop ctx.out.length).take (limit - ctx.out.length)),
      htake]
    rw [List.append_assoc, List.singleton_append]
  have hnone : b.findIdx? (fun b => b == 0) = none := by
    rw [List.findIdx?_eq_none_iff]
    intro x hx
    by_contra hzero
    rw [Bool.not_eq_false, beq_iff_eq] at hzero
    exact hnul (by rw [List.contains_iff_mem]; exact hzero ▸ hx)
  have hfound : ((buf.drop ctx.out.length).take (limit - ctx.out.length)).findIdx? (fun b => b == 0) =
      some b.length := by
    rw [hwindow, List.findIdx?_append, hnone, List.findIdx?_cons]
    simp
  have htext : (buf.drop ctx.out.length).take b.length = b := by
    have := congrArg (List.take b.length) hbytes
    rwa [List.take_take, Nat.min_eq_left (by omega), List.take_left] at this
  refine ⟨.str s, .none, ?_, facts_none_ok, Exec.bind_eq_ok.mpr ⟨b, hagain, hpack⟩⟩
  show readTerminated buf max _ limit (8 * ctx.out.length) = some (Part.upTo (ctx.out ++ (b ++ [0])).length _ _)
  rw [readTerminated, byteOf_mul, Option.bind_eq_bind, Option.bind_some, hfound, Option.bind_some,
    if_neg (by omega), htext, decode_encode henc, hstop]
  rfl

end Leaves

end Rustruct

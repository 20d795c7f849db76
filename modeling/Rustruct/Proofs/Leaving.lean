import Rustruct.Proofs.Advancing

/-!
# The end of a scope

At the end of a scope pack fills its digests, one after another. What a digest is of is what is there in
the end, but for the digests that are filled after it and for its own bytes, which are zero.
-/

namespace Rustruct

open BitStream

section Enter

variable {p : Nat} {ctx : PCtx}

lemma frameSound_new (out : Bytes) : FrameSound p out .new where
  slot i r hr := by cases hr
  digest d hd := absurd hd List.not_mem_nil
  clear a ha := by
    rcases ha with ⟨i, r, hr, -⟩ | ⟨d, hd, -⟩
    · cases hr
    · exact absurd hd List.not_mem_nil
  small i := by
    show InI64 0
    decide
  unknown i r hr := by cases hr
  valued i r x hr := by cases hr
  slots i j r s hr := by cases hr
  mixed i r d hd := absurd hd List.not_mem_nil
  sorted := .nil

lemma late_new {a : Nat × Nat} (h : PFrame.new.Late a) : False := by
  rcases h with ⟨i, r, hr, -⟩ | ⟨d, hd, -⟩
  · cases hr
  · exact absurd hd List.not_mem_nil

lemma PCtx.Sound.enter (hs : ctx.Sound p) : PCtx.Sound p { ctx with frames := .new :: ctx.frames } where
  room := hs.room
  small := hs.small
  clear := hs.clear
  frames := by
    intro f hf
    rcases List.mem_cons.mp hf with rfl | hf
    · exact frameSound_new _
    · exact hs.frames f hf
  apart := by
    intro j k f g hne hj hk a b ha hb
    cases j with
    | zero =>
      obtain rfl := Option.some.inj hj
      exact (late_new ha).elim
    | succ j =>
      cases k with
      | zero =>
        obtain rfl := Option.some.inj hk
        exact (late_new hb).elim
      | succ k => exact hs.apart j k f g (by omega) hj hk a b ha hb

end Enter

section Fill

variable {H : Hashes} {start stop : Nat} {f : PFrame} {out out' : Bytes}

/-- The bytes of a digest value. -/
def DigestVal.bytesOf (v : DigestVal) (width : Nat) (be : Bool) : Bytes :=
  match v with
  | .int v => uintBytes width be v.toNat
  | .bytes b => b

lemma write_spec {d : PDigest} {v : DigestVal} (h : d.write v out = .ok out') :
    out'.length = out.length ∧ (out'.drop d.pos).take d.width = v.bytesOf d.width d.be ∧
      ∀ b, b < d.range.1 ∨ d.range.2 ≤ b → bitAt out' b = bitAt out b := by
  have hlen := write_length h
  unfold PDigest.write at h
  cases v with
  | int v =>
    have hslice := copyAt_slice h
    rw [uintBytes_length] at hslice
    refine ⟨hlen, hslice, fun b hb => copyAt_bits h ?_⟩
    rw [uintBytes_length]
    exact hb
  | bytes bs =>
    dsimp only at h
    split_ifs at h with hw
    · simp at h
    · have hw := not_not.mp hw
      have hslice := copyAt_slice h
      rw [hw] at hslice
      refine ⟨hlen, hslice, fun b hb => copyAt_bits h ?_⟩
      rw [hw]
      exact hb

/-- Nothing but the digests is filled. -/
lemma fillDigests_bits {ds : List PDigest} (h : fillDigests H start stop f ds out = .ok out') {b : Nat}
    (hb : ∀ d ∈ ds, b < d.range.1 ∨ d.range.2 ≤ b) : bitAt out' b = bitAt out b := by
  induction ds generalizing out with
  | nil =>
    cases h
    rfl
  | cons d ds ih =>
    obtain ⟨v, -, h⟩ := Exec.bind_eq_ok.mp h
    obtain ⟨mid, hmid, h⟩ := Exec.bind_eq_ok.mp h
    rw [ih h fun e he => hb e (List.mem_cons_of_mem _ he), (write_spec hmid).2.2 b (hb d List.mem_cons_self)]

/-- The digest, over bytes that are those in the end but for those of the digest itself and of later ones. -/
def Digested (H : Hashes) (start stop : Nat) (f : PFrame) (out : Bytes) (d : PDigest) (later : List PDigest) : Prop :=
  ∃ v before, d.compute H before start stop f = .ok v ∧ before.length = out.length ∧ Clear before d.range ∧
    (out.drop d.pos).take d.width = v.bytesOf d.width d.be ∧
    ∀ b, (∀ e ∈ d :: later, b < e.range.1 ∨ e.range.2 ≤ b) → bitAt before b = bitAt out b

lemma fillDigests_filled {ds : List PDigest} (h : fillDigests H start stop f ds out = .ok out')
    (hsorted : ds.Pairwise fun d e => d.pos + d.width ≤ e.pos) (hclear : ∀ d ∈ ds, Clear out d.range)
    (hroom : ∀ d ∈ ds, d.pos + d.width ≤ out.length) {before : List PDigest} {d : PDigest} {later : List PDigest}
    (hd : ds = before ++ d :: later) : Digested H start stop f out' d later := by
  induction before generalizing out ds with
  | nil =>
    subst hd
    obtain ⟨v, hv, h⟩ := Exec.bind_eq_ok.mp h
    obtain ⟨mid, hmid, h⟩ := Exec.bind_eq_ok.mp h
    obtain ⟨hlen, hslice, hbits⟩ := write_spec hmid
    have hlen' := fillDigests_length h
    have hin := hroom d List.mem_cons_self
    have hapart := (List.pairwise_cons.mp hsorted).1
    refine ⟨v, out, hv, by omega, hclear d List.mem_cons_self, ?_, fun b hb => ?_⟩
    · rw [← hslice]
      apply slice_congr (by omega) (by omega)
      intro i _ hhi
      apply fillDigests_bits h
      intro e he
      have := hapart e he
      exact .inl (by dsimp only [PDigest.range]; omega)
    · rw [fillDigests_bits h fun e he => hb e (List.mem_cons_of_mem _ he), hbits b (hb d List.mem_cons_self)]
  | cons e before ih =>
    subst hd
    obtain ⟨v, hv, h⟩ := Exec.bind_eq_ok.mp h
    obtain ⟨mid, hmid, h⟩ := Exec.bind_eq_ok.mp h
    obtain ⟨hlen, -, hbits⟩ := write_spec hmid
    obtain ⟨hapart, hsorted⟩ := List.pairwise_cons.mp hsorted
    refine ih h hsorted (fun d' hd' b hlo hhi => ?_) (fun d' hd' => ?_) rfl
    · have := hapart d' hd'
      rw [hbits b (.inr (by dsimp only [PDigest.range] at hlo ⊢; omega)),
        hclear d' (List.mem_cons_of_mem _ hd') b hlo hhi]
    · rw [hlen]
      exact hroom d' (List.mem_cons_of_mem _ hd')

end Fill

section Leave

variable {H : Hashes} {p q : Nat} {out out' : Bytes} {f : PFrame} {fs gs : List PFrame}

/-- The frame of a scope goes, and its digests are filled. -/
lemma leave_sound (hs : PCtx.Sound q { out, frames := f :: fs })
    (h : fillDigests H start stop f f.digests out = .ok out') : PCtx.Sound q { out := out', frames := fs } := by
  have hlen := fillDigests_length h
  have hroom : q ≤ 8 * out.length := hs.room
  have hframe := hs.frames f List.mem_cons_self
  constructor
  · dsimp only
    omega
  · have hsmall : out.length ≤ isizeMax := hs.small
    dsimp only
    omega
  · intro b hb
    rw [fillDigests_bits h fun d hd => .inr ?_, hs.clear b hb]
    have := hframe.digest d hd
    dsimp only [PDigest.range]
    omega
  · intro g hg
    refine (hs.frames g (List.mem_cons_of_mem _ hg)).congr (Nat.le_refl q) hroom (by dsimp only; omega)
      fun a ha b hlo hhi => ?_
    apply fillDigests_bits h
    intro d hd
    obtain ⟨k, hk⟩ := List.getElem?_of_mem hg
    rcases hs.apart 0 (k + 1) f g (by omega) rfl hk d.range a (.inr ⟨d, hd, rfl⟩) ha with hsep | hsep
    · exact .inr (Nat.le_trans hsep hlo)
    · exact .inl (Nat.lt_of_lt_of_le hhi hsep)
  · intro j k g₁ g₂ hne hj hk
    exact hs.apart (j + 1) (k + 1) g₁ g₂ (by omega) hj hk

lemma leave_moves {ctx : PCtx}
    (hbody : Moves (FrameGrows p) p { ctx with frames := .new :: ctx.frames } q { out, frames := f :: fs })
    (h : fillDigests H start stop f f.digests out = .ok out') :
    Moves FrameKept p ctx q { out := out', frames := fs } where
  le := hbody.le
  frames := FramesStep.iff_forall₂.mpr hbody.frames.2
  bits b hb ho := by
    have hnew : ∀ d ∈ f.digests, p ≤ 8 * d.pos := by
      obtain ⟨ds, hds, hlo⟩ := hbody.frames.1.digests
      intro d hd
      rw [hds] at hd
      exact hlo d hd
    have hout : bitAt out' b = bitAt out b := fillDigests_bits h fun d hd => .inl (Nat.lt_of_lt_of_le hb (hnew d hd))
    have hbits := hbody.bits b hb
    rw [← hbits]
    · exact hout
    · rintro ⟨g, hg, a, ha, hlo, hhi⟩
      rcases List.mem_cons.mp hg with rfl | hg
      · exact late_new ha.late
      · exact ho ⟨g, hg, a, ha, hlo, hhi⟩
  sound := leave_sound hbody.sound h

/-- Bytes that complete what is there after the scope complete what was there in it. -/
lemma Completes.enter {buf : Bytes} (h : fillDigests H start stop f f.digests out = .ok out')
    (hc : Completes buf q { out := out', frames := fs }) : Completes buf q { out, frames := f :: fs } := by
  refine ⟨hc.room, fun b hb ho => ?_⟩
  rw [hc.bits b hb fun hno => ?_]
  · apply fillDigests_bits h
    intro d hd
    by_contra hno
    exact ho ⟨f, List.mem_cons_self, d.range, .inr ⟨d, hd, rfl⟩, by omega, by omega⟩
  · obtain ⟨g, hg, a, ha⟩ := hno
    exact ho ⟨g, List.mem_cons_of_mem _ hg, a, ha⟩

end Leave

end Rustruct

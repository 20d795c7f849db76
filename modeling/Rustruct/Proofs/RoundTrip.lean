import Rustruct.Proofs.Verified

/-!
# Round trips

What pack writes is read again, and what is read is packed as the same bytes.
-/

namespace Rustruct

open BitStream

section Struct

variable {opts : Options} {H : Hashes} {Γ : Env} {full : List Sym}

lemma AllFill.checks {buf out : Bytes} {scope : List Got} {f : PFrame} {start stop : Nat} {ds : List PDigest}
    {gots : List GotDigest} (h : AllFill buf full scope ds gots) (hc : Carries buf.length full scope (f.readBack buf))
    (hfilled : ∀ before d later, ds = before ++ d :: later → Digested H start stop f out d later)
    (hplace : ∀ d ∈ ds, start ≤ d.pos ∧ d.pos + d.width ≤ stop)
    (hin : ∀ got ∈ scope, start ≤ got.start ∧ got.stop ≤ stop) (hout : stop ≤ out.length) (hbuf : stop ≤ buf.length)
    (hbits : ∀ b, 8 * start ≤ b → b < 8 * stop → bitAt buf b = bitAt out b) :
    ∃ checks, gots.mapM (fun d => d.check buf scope start stop) = some checks ∧ ∀ c ∈ checks, c.verify → c.Holds H := by
  induction ds generalizing gots with
  | nil =>
    obtain rfl := h
    exact ⟨[], rfl, fun _ hc => absurd hc List.not_mem_nil⟩
  | cons d ds ih =>
    obtain ⟨key, asked, g, gots, rfl, hfills, hclears, hrest⟩ := h
    obtain ⟨hstart, hstop⟩ := hplace d List.mem_cons_self
    obtain ⟨c, hcheck, hholds⟩ := hfills.holds (hfilled [] d ds rfl) hc hclears hin hstart hstop hout hbuf hbits
    obtain ⟨checks, hchecks, hall⟩ :=
      ih hrest (fun before e later he => hfilled (d :: before) e later (by rw [he]; rfl))
      fun e he => hplace e (List.mem_cons_of_mem _ he)
    refine ⟨c :: checks, ?_, fun c' hc' => ?_⟩
    · rw [List.mapM_cons, hcheck, hchecks]
      rfl
    · rcases List.mem_cons.mp hc' with rfl | hc'
      · exact hholds
      · exact hall c' hc'

/-- A register holds what a consumer has settled, or the zeros that no consumer has written over. -/
lemma readBack_small {p q start stop : Nat} {buf out out' : Bytes} {f : PFrame} {fs : List PFrame}
    (hs : PCtx.Sound q { out, frames := f :: fs }) (hgrows : FrameGrows p .new f)
    (hfill : fillDigests H start stop f f.digests out = .ok out') (hc : Completes buf q { out, frames := f :: fs })
    (hbits : ∀ b, p ≤ b → b < q → bitAt buf b = bitAt out' b) (i : Fin maxRegs) : InI64 ((f.readBack buf).regs i) := by
  have hframe := hs.frames f List.mem_cons_self
  cases hr : f.res i with
  | none =>
    rw [readBack_plain hr]
    exact hframe.small i
  | some r =>
    rw [readBack_slot hr]
    cases hv : r.value with
    | some x =>
      obtain ⟨-, hreg, -⟩ := hframe.valued i r x hr hv
      rw [hc.slot hs (k := 0) rfl hr hv, ← hreg]
      exact hframe.small i
    | none =>
      have hstart : p ≤ r.slot.start := by
        rcases hgrows.regs i with hk | ⟨-, hnew⟩
        · obtain ⟨r', hr', -⟩ := hk.back hr
          cases hr'
        · exact hnew r hr
      obtain ⟨-, hstop⟩ := hframe.slot i r hr
      have hroom := hc.room
      rw [Slot.read_clear (by omega) fun b hlo hhi => ?_]
      · decide
      · rw [hbits b (by omega) (by omega), fillDigests_bits hfill fun d hd => ?_]
        · exact hframe.clear _ (.inl ⟨i, r, hr, hv, rfl⟩) b hlo hhi
        · rcases hframe.mixed i r d hd hr with hsep | hsep
          · exact .inl (Nat.lt_of_lt_of_le hhi hsep)
          · exact .inr (Nat.le_trans hsep hlo)

/-- The digests of the scope hold at its end. -/
lemma FieldsBack.close {fields : List FieldIn} {pack : FieldIndex → PRes PCtx} {start : Nat} {buf out out' : Bytes}
    {g : PFrame} {fs : List PFrame} {r' : Reading}
    (h : FieldsBack H buf full 0 fields pack g g.digests { out, frames := g :: fs } (.start (8 * start)) r')
    (hs : PCtx.Sound (8 * out.length) { out, frames := g :: fs }) (hgrows : FrameGrows (8 * start) .new g)
    (hfill : fillDigests H start out.length g g.digests out = .ok out') (hbuf : out.length ≤ buf.length)
    (hbits : ∀ b, 8 * start ≤ b → b < 8 * out.length → bitAt buf b = bitAt out' b) :
    ∃ facts, r'.close buf start = some (.upTo out.length (.map r'.entries) facts) ∧ facts.Ok H := by
  have hframe := hs.frames g List.mem_cons_self
  have hbit : r'.bit = 8 * out.length := h.resumes.bit
  have hcarries := h.resumes.carries
  rw [List.take_length] at hcarries
  obtain ⟨added, hadded, hstart⟩ := h.added
  have hin : ∀ got ∈ r'.scope, start ≤ got.start ∧ got.stop ≤ out.length := by
    intro got hgot
    have hbelow := h.resumes.below got hgot
    rw [hadded] at hgot
    have hlo : 8 * start / 8 ≤ got.start := hstart got hgot
    omega
  have hnew : ∀ d ∈ g.digests, start ≤ d.pos ∧ d.pos + d.width ≤ out.length := by
    obtain ⟨ds, hds, hlo⟩ := hgrows.digests
    intro d hd
    have hhi := hframe.digest d hd
    rw [hds] at hd
    have := hlo d hd
    omega
  have hlen := fillDigests_length hfill
  obtain ⟨gots, hgots, hall⟩ := h.digests
  obtain ⟨checks, hchecks, hholds⟩ := hall.checks hcarries
    (fun before d later he => fillDigests_filled hfill hframe.sorted (fun d hd => hframe.clear _ (.inr ⟨d, hd, rfl⟩))
      (fun d hd => (hnew d hd).2) he) hnew hin (by omega) hbuf hbits
  have hdigests : r'.digests = gots := hgots
  refine ⟨r'.facts.append ⟨[], checks⟩, ?_, facts_append_ok.mpr ⟨h.resumes.facts, facts_checks_ok hholds⟩⟩
  rw [Reading.close, hbit, byteOf_mul, Option.bind_eq_bind, Option.bind_some, hdigests, hchecks]
  rfl

lemma findGot_entries (r : Reading) (n : String) : (Value.map r.entries).get n = (findGot r.scope n).map Got.value := by
  rw [Value.get, Reading.entries, List.find?_map, Option.map_map]
  rfl

lemma Assembled.writes {fields : List FieldIn} (hfs : ∀ f ∈ fields, TypeWrites opts H f.ty) {bo : ByteOrder}
    {atoms : List Atom} {prog : Program} (hasm : Assembled full atoms prog)
    (hlow : LowersFields opts fields Γ bo full 0 atoms) (hdepth : Γ.length + frameDepth prog ≤ maxDepth)
    (hsized : prog.Every Op.sized) (hroomy : prog.Every Op.Roomy) :
    Returns H Γ (packStruct H prog)
      (fun buf seen limit bit => (byteOf bit).bind fun pos =>
        (fieldsRead opts buf fields bo seen limit (.start bit)).bind fun r => r.close buf pos)
      (fun size last => fieldsFaithful opts size fields last)
      (fun v => ∀ view ∈ v.mapView, fieldsSuit opts fields view) := by
  obtain ⟨ops, nregs, nspans, minSize, staticSize⟩ := prog
  rw [frameDepth] at hdepth
  have hops : ∀ op ∈ ops, Γ.length + 1 + opDepth op ≤ maxDepth ∧ op.Every Op.sized ∧ op.Every Op.Roomy := by
    intro op ho
    have hle := opsDepth_le ho
    exact ⟨by omega, opsEvery_iff.mp hsized op ho, opsEvery_iff.mp hroomy op ho⟩
  rw [packStruct]
  intro ctx v next hs hpack
  unfold withPFrame at hpack ⊢
  cases hview : v.mapView with
  | none =>
    rw [hview] at hpack
    cases hpack
  | some view =>
    rw [hview] at hpack
    dsimp only at hpack
    obtain ⟨⟨out, frames⟩, hbody, hpack⟩ := Exec.bind_eq_ok.mp hpack
    obtain ⟨g, fs, ds, hg, hds, hmoves, hback⟩ :=
      hlow.writes ⟨.idle, ops⟩ hfs (by omega) hasm.syms hasm.pieces hasm.laid hops
      rfl hs.enter rfl (fun j s _ _ => by intro i hi; exact ⟨rfl, rfl⟩) hbody
    obtain rfl : frames = g :: fs := hg
    dsimp only at hpack hmoves hback
    have hagain := hpack
    obtain ⟨out', hfill, hpack⟩ := Exec.bind_eq_ok.mp hpack
    obtain rfl := Except.ok.inj hpack
    have hlen : out'.length = out.length := fillDigests_length hfill
    have hleave := leave_moves hmoves hfill
    have hwrites : Writes ctx { out := out', frames := fs } := by
      show Moves FrameKept (8 * ctx.out.length) ctx (8 * out'.length) _
      rw [hlen]
      exact hleave
    refine ⟨hwrites, fun buf last seen limit hf hcan hsuits => ?_⟩
    have hstop := hf.fits
    have hwithin := hf.within
    dsimp only at hstop
    -- The scope is settled: nothing of it is open in the frames around it.
    have hbits : ∀ b, 8 * ctx.out.length ≤ b → b < 8 * out'.length → bitAt buf b = bitAt out' b :=
      fun b hlo hhi => hf.completes.bits b hhi (hwrites.shut hs hlo)
    have hcompletes : Completes buf (8 * out.length) { out, frames := g :: fs } := by
      rw [← hlen]
      exact Completes.enter hfill hf.completes
    have hfin : Finally buf last Γ seen limit ctx (8 * out.length) { out, frames := g :: fs } :=
      ⟨hf.env, hf.carries, hcompletes, by omega, hwithin, fun hl => by rw [← hlen]; exact hf.last hl⟩
    have hgrows : FrameGrows (8 * ctx.out.length) .new g := hmoves.frames.1
    have hsmall : ∀ i, InI64 ((g.readBack buf).regs i) :=
      readBack_small hmoves.sound hgrows hfill hcompletes (fun b hlo hhi => hbits b hlo (by omega))
    have hresume : Resumes H buf full 0 (8 * ctx.out.length) .new (.start (8 * ctx.out.length)) :=
      ⟨rfl, facts_none_ok, carries_new _, List.nodup_nil, fun _ hg => absurd hg List.not_mem_nil⟩
    obtain ⟨r', hread, hdone⟩ := hback buf last seen limit _ hfin hresume hcan (hsuits view hview) hsmall
    obtain rfl : ds = g.digests := hds.symm
    obtain ⟨facts, hclose, hok⟩ := hdone.close hmoves.sound hgrows hfill (by omega) fun b hlo hhi =>
      hbits b hlo (by omega)
    have hnames : (r'.entries.map Prod.fst).Nodup := by
      rw [Reading.entries, List.map_map]
      exact hdone.resumes.names
    refine ⟨.map r'.entries, facts, ?_, hok, ?_⟩
    · dsimp only
      rw [byteOf_mul, Option.bind_some, hread, Option.bind_some, hclose, hlen]
    · have hbody' : packOps H ops (viewOf r'.entries) { ctx with frames := .new :: ctx.frames } =
          .ok { out, frames := g :: fs } :=
        hdone.again _ fun n => by rw [viewOf_get hnames, findGot_entries]
      dsimp only
      rw [mapView_map]
      exact Exec.bind_eq_ok.mpr ⟨_, hbody', hagain⟩

end Struct

section Types

variable {opts : Options} {H : Hashes}

lemma typeWrites_struct (fields : List FieldIn) (byteorder : Option ByteOrder) (size : Option ExprIn)
    (hfs : ∀ f ∈ fields, TypeWrites opts H f.ty) : TypeWrites opts H (.struct fields byteorder size) := by
  apply typeWrites_value
  · rintro Γ bo op hdepth hsized hroomy ⟨size', full, atoms, prog, hsize, hlow, hasm, rfl⟩
    rw [opDepth] at hdepth
    rw [packValue]
    have hbody := hasm.writes hfs hlow hdepth hsized.2 hroomy.2
    refine ((returns_nest hsize hbody).congr fun buf seen limit pos => ?_).mono (fun n last h => ?_) fun v h => ?_
    · rw [TypeIn.read, byteOf_mul]
      simp only [Option.bind_eq_bind, Option.bind_some, Option.bind_assoc]
    · rwa [TypeIn.Faithful] at h
    · rwa [TypeIn.Suits] at h
  · rintro Γ bo name atom kind ⟨n, size', full, atoms, prog, rfl, hsize, hlow, hasm, -, rfl, rfl⟩
    exact ⟨n, _, rfl, ⟨size', full, atoms, prog, hsize, hlow, hasm, rfl⟩, rfl, rfl, rfl⟩

lemma typeWrites (opts : Options) (H : Hashes) : TypeCases (TypeWrites opts H) where
  int := typeWrites_int
  float := typeWrites_float
  bool := typeWrites_bool
  raw := typeWrites_raw
  bytes := typeWrites_bytes
  str := typeWrites_str
  cstr := typeWrites_cstr
  bits := typeWrites_bits
  flags := typeWrites_flags
  digest := typeWrites_digest
  struct := typeWrites_struct
  array := typeWrites_array
  switch := typeWrites_switch
  cond := typeWrites_cond

end Types

lemma sound_empty : PCtx.Sound (8 * 0) { out := [], frames := [] } where
  room := Nat.zero_le _
  small := Nat.zero_le _
  clear b _ := BitStream.bitAt_ge (Nat.zero_le _)
  frames f hf := absurd hf List.not_mem_nil
  apart j k f g _ hj := by cases hj

/-- What pack writes, unpack reads to the last byte, and what it has read is packed as the same bytes: the
lengths, counts and digests that pack has filled in are those of what was read. -/
theorem pack_unpack {fields : List FieldIn} {opts : Options} {prog : Program} (h : compile fields opts = .ok prog)
    (hroomy : prog.Every Op.Roomy) (H : Hashes) {v : Value} {bytes : Bytes} (hpack : packRun H prog v = .ok bytes)
    (hfaithful : fieldsFaithful opts bytes.length fields true)
    (hsuits : ∀ view ∈ v.mapView, fieldsSuit opts fields view) :
    ∃ (buf : Buffer) (v' : Value), buf.bytes = bytes ∧ unpackRun H prog buf 0 true false = .ok v' bytes.length ∧
      packRun H prog v' = .ok bytes := by
  obtain ⟨⟨full, atoms, hlow, hasm⟩, hdepth⟩ := compile_lowers h
  have hΓ : EnvOk [] := ⟨fun _ hs => absurd hs List.not_mem_nil, Nat.zero_le _⟩
  have hroom : ([] : Env).length + frameDepth prog ≤ maxDepth := by simpa using hdepth
  have hrun : ∀ v, packRun H prog v = .ok bytes ↔ ∃ frames, packStruct H prog v { out := [], frames := [] } =
      .ok ⟨bytes, frames⟩ := by
    intro v
    unfold packRun
    generalize packStruct H prog v { out := [], frames := [] } = x
    cases x with
    | ok ctx =>
      obtain ⟨out, frames⟩ := ctx
      simp
    | error t => cases t <;> simp
  obtain ⟨frames, hpack⟩ := (hrun v).mp hpack
  obtain ⟨hwrites, hback⟩ := hasm.writes (fun f _ => (typeWrites opts H).type f.ty) hlow hroom
    (compile_sized h).every hroomy
    { out := [], frames := [] } v _ sound_empty hpack
  have hframes : frames = [] := by
    have hkept := FramesStep.iff_forall₂.mp hwrites.frames
    cases hkept
    rfl
  subst hframes
  have hsmall : bytes.length ≤ isizeMax := hwrites.sound.small
  -- Nothing is open at the end of the message.
  have hcompletes : Completes bytes (8 * bytes.length) { out := bytes, frames := [] } :=
    ⟨Nat.le_refl _, fun _ _ _ => rfl⟩
  obtain ⟨v', facts, hread, hok, hagain⟩ := hback bytes true [] bytes.length
    ⟨hΓ, trivial, hcompletes, Nat.le_refl _, Nat.le_refl _, fun _ => rfl⟩ hfaithful hsuits
  have hc : EnvCarries bytes.length [] [] [] := trivial
  have hbits : prog.Every Op.bitsFit := (every_mono fun _ h => h.bitsFit).program prog hroomy
  have hreads : Reads H [] (runStruct H bytes prog bytes.length { fs := [], pos := 0 })
      ((fieldsRead opts bytes fields opts.byteorder [] bytes.length (.start (8 * 0))).bind fun r => r.close bytes 0) :=
    hasm.reads hsmall (fun f _ => (typeReads opts H hsmall).type f.ty) hΓ hc hlow hroom hbits (Nat.zero_le _)
      (Nat.le_refl _)
  dsimp only [List.length_nil] at hread
  rw [byteOf_mul, Option.bind_some] at hread
  obtain ⟨⟨w, ⟨fs, p⟩⟩, hstruct, his⟩ := hreads.some _ hread hok
  refine ⟨⟨bytes, hsmall⟩, v', rfl, ?_, (hrun v').mpr ⟨[], hagain⟩⟩
  have hval : some v' = some w := his.value
  have hbit : 8 * bytes.length = 8 * p := his.bit
  obtain rfl := Option.some.inj hval
  obtain rfl : bytes.length = p := by omega
  unfold unpackRun
  dsimp only
  rw [Nat.zero_min, hstruct]
  simp

/-- A window, a text and a list whose lengths are derived, bits, and a checksum over all of it. -/
def messageFields : List FieldIn :=
  [.named "kind" (.int .u8 none none),
    .named "size" (.int .u16 none none),
    .named "count" (.bits 4 false),
    .named "mark" (.bits 4 false),
    .named "body" (.struct [.named "n" (.int .u8 none none), .named "text" (.str (.ref "n") none "utf-8" "strict"),
      .named "rest" (.bytes .greedy none)] none (some (.ref "size"))),
    .named "items" (.array (.int .u16 none none) (some (.ref "count")) false),
    .named "sum" (.digest "crc32" {} .star true)]

def message : Value :=
  .map [("kind", .int 7), ("mark", .int 5), ("body", .map [("text", .str "ab"), ("rest", .bytes [9])]),
    ("items", .list [.int 258, .int 3])]

def messageBytes : Bytes := [7, 0, 4, 37, 2, 97, 98, 9, 1, 2, 0, 3, 190, 250, 26, 203]

lemma message_faithful : fieldsFaithful {} messageBytes.length messageFields true := by
  simp [messageFields, FieldIn.named, fieldsFaithful, TypeIn.Faithful, digestSettled, TypeIn.asked, exact_ref,
    recovers_ref,
    recovers_greedy, untilEnd, messageBytes]

lemma message_suits : ∀ view ∈ message.mapView, fieldsSuit {} messageFields view := by
  intro view hview
  obtain rfl := Option.some.inj hview
  simp [messageFields, FieldIn.named, fieldsSuit, TypeIn.Suits, FieldIndex.get, hashIndexThreshold, fieldsMention,
    TypeIn.mentions,
    ExprIn.mentions, TypeIn.given, Value.mapView, Value.asList, Value.asInt]

theorem pack_unpack_message :
    ∃ prog, compile messageFields {} = .ok prog ∧ ∃ (buf : Buffer) (v' : Value), buf.bytes = messageBytes ∧
    unpackRun .blank prog buf 0 true false = .ok v' 16 ∧ packRun .blank prog v' = .ok messageBytes := by
  have hc : Exec.returns (compile messageFields {}) fun prog =>
      decide (prog.Every Op.Roomy ∧ packRun .blank prog message = .ok messageBytes) := by decide +kernel
  obtain ⟨prog, hp, hholds⟩ := Exec.returns_iff.mp hc
  obtain ⟨hroomy, hpack⟩ := of_decide_eq_true hholds
  exact ⟨prog, hp, pack_unpack hp hroomy .blank hpack message_faithful message_suits⟩

end Rustruct

import Rustruct.Proofs.DNSClasses

/-!
# Headers, questions and records

What is read back of each part of a message, and what of a part that was cut.
-/

namespace Rustruct.DNS

section Parts

variable {α β : Type} {read : Bytes → Nat → Option (α × Nat)} {f : α → Option β}

/-- A reader of what another one reads. -/
def readAs (read : Bytes → Nat → Option (α × Nat)) (f : α → Option β) (b : Bytes) (off : Nat) :
    Option (β × Nat) :=
  (read b off).bind fun r => (f r.1).map fun y => (y, r.2)

lemma Strict.as (hr : Strict read) (f : α → Option β) : Strict (readAs read f) where
  mono hb h := by
    obtain ⟨r, hread, h⟩ := Option.bind_eq_some_iff.mp h
    rw [readAs, hr.mono hb hread, Option.bind_some, h]
  inside hoff h := by
    obtain ⟨r, hread, h⟩ := Option.bind_eq_some_iff.mp h
    obtain ⟨y, -, h⟩ := Option.map_eq_some_iff.mp h
    cases h
    exact hr.inside hoff hread

lemma ReadsAt.as {out out' : Bytes} {x : α} {y : β} (hx : ReadsAt read out out' x) (hf : f x = some y) :
    ReadsAt (readAs read f) out out' y := by
  intro w hw
  rw [readAs, hx w hw, Option.bind_some, hf, Option.map_some]

lemma strict_readN (hr : Strict read) (n : Nat) : Strict fun b off => readN read b n off where
  mono {b b' off r} hb h := by
    induction n generalizing off r with
    | zero => exact h
    | succ n ih =>
      simp only [readN, Option.bind_eq_bind, Option.bind_eq_some_iff] at h ⊢
      obtain ⟨x, hx, xs, hxs, h⟩ := h
      exact ⟨x, hr.mono hb hx, xs, ih hxs, h⟩
  inside {b off stop xs} hoff h := by
    induction n generalizing off xs with
    | zero =>
      cases h
      exact hoff
    | succ n ih =>
      simp only [readN, Option.bind_eq_bind, Option.bind_eq_some_iff, Option.some.injEq, Prod.mk.injEq,
        Prod.exists] at h
      obtain ⟨x, mid, hx, ys, stop', hys, -, rfl⟩ := h
      exact ih (hr.inside hoff hx) hys

lemma readN_add (read : Bytes → Nat → Option (α × Nat)) (b : Bytes) (n m off : Nat) :
    readN read b (n + m) off =
      (readN read b n off).bind fun r => (readN read b m r.2).map fun r' => (r.1 ++ r'.1, r'.2) := by
  induction n generalizing off with
  | zero => simp [readN]
  | succ n ih =>
    rw [Nat.succ_add, readN, readN]
    simp only [ih, Option.bind_eq_bind, Option.bind_assoc]
    congr 1
    funext x
    cases readN read b n x.2 with
    | none => rfl
    | some r => cases hm : readN read b m r.2 <;> simp [hm]

lemma packEach_append (packInto : α → Bytes → Option Table → Option Out) (xs ys : List α) (out : Bytes)
    (ctx : Option Table) : packEach packInto (xs ++ ys) out ctx =
      (packEach packInto xs out ctx).bind fun r => packEach packInto ys r.1 r.2 := by
  induction xs generalizing out ctx with
  | nil => rfl
  | cons x xs ih =>
    simp only [List.cons_append, packEach, ih, Option.bind_eq_bind, Option.bind_assoc]

lemma packEach_wrote {packInto : α → Bytes → Option Table → Option Out}
    (hone : ∀ {x out ctx r}, packInto x out ctx = some r → Wrote out ctx r) {xs : List α} {out : Bytes}
    {ctx : Option Table} {r : Out} (h : packEach packInto xs out ctx = some r) : Wrote out ctx r := by
  induction xs generalizing out ctx with
  | nil =>
    cases h
    exact ⟨List.prefix_refl _, .refl _, fun h => h⟩
  | cons x xs ih =>
    simp only [packEach, Option.bind_eq_bind, Option.bind_eq_some_iff] at h
    obtain ⟨mid, hmid, h⟩ := h
    exact (hone hmid).trans (ih h)

end Parts

lemma unpackBits_packBits {fields : List (Nat × Int)} {acc n : Nat} (h : packBits fields acc = some n) :
    n / 2 ^ (fields.map Prod.fst).sum = acc ∧ unpackBits (fields.map Prod.fst) n = fields.map Prod.snd := by
  induction fields generalizing acc with
  | nil =>
    cases h
    simp [unpackBits]
  | cons field fields ih =>
    obtain ⟨w, v⟩ := field
    rw [packBits] at h
    split_ifs at h with hv
    obtain ⟨hdiv, hbits⟩ := ih h
    have hlt : v.toNat < 2 ^ w := by
      have hpow : (2 : Int) ^ w = ((2 ^ w : Nat) : Int) := by norm_cast
      omega
    rw [List.map_cons, List.map_cons, List.sum_cons, unpackBits, hbits, hdiv]
    refine ⟨?_, ?_⟩
    · rw [Nat.add_comm w, pow_add, ← Nat.div_div_eq_div_mul, hdiv, Nat.add_comm, Nat.add_mul_div_right _ _
        (Nat.two_pow_pos w), Nat.div_eq_of_lt hlt, Nat.zero_add]
    · rw [Nat.add_comm, Nat.add_mul_mod_self_right, Nat.mod_eq_of_lt hlt, Int.toNat_of_nonneg hv.1]

section Header

variable {out : Bytes}

/-- The flags of a word. -/
def flagsOf (word : Int) : Option DNSFlags :=
  match unpackBits [1, 4, 1, 1, 1, 1, 3, 4] word.toNat with
  | [qr, opcode, aa, tc, rd, ra, z, rcode] => some { qr, opcode, aa, tc, rd, ra, z, rcode }
  | _ => none

lemma flags_unpackFrom : DNSFlags.unpackFrom = readAs (unpackUint 2) flagsOf := by
  funext b off
  obtain h | ⟨word, stop, h⟩ := pair_cases (unpackUint 2 b off)
  · simp [DNSFlags.unpackFrom, readAs, h]
  · simp [DNSFlags.unpackFrom, readAs, h, flagsOf, unpackBits]

lemma readsAt_flags {f : DNSFlags} {b : Bytes} (h : f.pack = some b) :
    ReadsAt DNSFlags.unpackFrom out (out ++ b) f := by
  simp only [DNSFlags.pack, Option.bind_eq_bind, Option.bind_eq_some_iff, Option.some.injEq] at h
  obtain ⟨word, hword, rfl⟩ := h
  obtain ⟨hdiv, hbits⟩ := unpackBits_packBits hword
  simp only [List.map_cons, List.map_nil, List.sum_cons, List.sum_nil] at hdiv hbits
  rw [flags_unpackFrom]
  have hpack : packUint 2 (word : Int) = some (uintBytes 2 true word) := by
    rw [packUint, if_pos ⟨by omega, by omega⟩, Int.toNat_natCast]
  refine (readsAt_uint _ hpack).as ?_
  rw [flagsOf, Int.toNat_natCast, hbits]

/-- The fields of a header. -/
def headerOf (x : (Int × DNSFlags) × List Int) : Option MessageHeader :=
  match x with
  | ((id, flags), [qdcount, ancount, nscount, arcount]) =>
    some { id, flags, qdcount, ancount, nscount, arcount }
  | _ => none

lemma header_unpackFrom : MessageHeader.unpackFrom =
    readAs (readBoth (readBoth (unpackUint 2) DNSFlags.unpackFrom) (unpackUints [2, 2, 2, 2])) headerOf := by
  funext b off
  obtain h | ⟨v, pos, h⟩ := pair_cases (unpackUint 2 b off)
  · simp [MessageHeader.unpackFrom, readAs, readBoth, h]
  obtain h' | ⟨flags, pos', h'⟩ := pair_cases (DNSFlags.unpackFrom b pos)
  · simp [MessageHeader.unpackFrom, readAs, readBoth, h, h']
  obtain hn | ⟨vs, stop, hn⟩ := pair_cases (unpackUints [2, 2, 2, 2] b pos')
  · simp [MessageHeader.unpackFrom, readAs, readBoth, h, h', hn]
  obtain ⟨_, _, _, _, rfl⟩ := values_four (unpackUints_values hn)
  simp [MessageHeader.unpackFrom, readAs, readBoth, h, h', hn, headerOf]

lemma strict_header : Strict MessageHeader.unpackFrom := by
  rw [header_unpackFrom, flags_unpackFrom]
  exact (((strict_uint 2).both ((strict_uint 2).as _)).both (strict_uints _)).as _

lemma readsAt_header {h : MessageHeader} {b : Bytes} (hb : h.pack = some b) :
    ReadsAt MessageHeader.unpackFrom [] b h := by
  simp only [MessageHeader.pack, Option.bind_eq_bind, Option.bind_eq_some_iff, Option.some.injEq] at hb
  obtain ⟨b₁, h₁, b₂, h₂, b₃, h₃, rfl⟩ := hb
  rw [header_unpackFrom]
  have hid : ReadsAt (unpackUint 2) [] b₁ h.id := readsAt_uint [] h₁
  exact ((hid.both (readsAt_flags h₂) (List.prefix_append _ _)).both (readsAt_uints _ h₃)
    (List.prefix_append _ _)).as rfl

end Header

section Questions

variable {q : Question} {out : Bytes} {ctx : Option Table} {r : Out}

/-- The fields of a question. -/
def questionOf (x : String × List Int) : Option Question :=
  match x with
  | (name, [qtype, qclass]) => some { name, qtype, qclass }
  | _ => none

lemma question_unpack : Question.unpack = readAs (readBoth decodeName (unpackUints [2, 2])) questionOf := by
  funext b off
  obtain h | ⟨name, pos, h⟩ := pair_cases (decodeName b off)
  · simp [Question.unpack, readAs, readBoth, h]
  obtain hn | ⟨vs, stop, hn⟩ := pair_cases (unpackUints [2, 2] b pos)
  · simp [Question.unpack, readAs, readBoth, h, hn]
  obtain ⟨_, _, rfl⟩ := List.length_eq_two.mp (unpackUints_values hn)
  simp [Question.unpack, readAs, readBoth, h, hn, questionOf]

lemma strict_question : Strict Question.unpack := by
  rw [question_unpack]
  exact (strict_name.both (strict_uints _)).as _

lemma question_packInto (h : q.packInto out ctx = some r) :
    Wrote out ctx r ∧
      (CtxOk out ctx → ReadsAt Question.unpack out r.1 { q with name := nameOf q.name }) := by
  simp only [Question.packInto, Option.bind_eq_bind, Option.bind_eq_some_iff, Option.some.injEq] at h
  obtain ⟨mid, hmid, b, hb, rfl⟩ := h
  refine ⟨(packName_wrote hmid).1.trans (wrote_bytes _ _ _), fun hok => ?_⟩
  rw [question_unpack]
  exact ((readsAt_name hmid hok).both (readsAt_uints _ hb) (List.prefix_append _ _)).as rfl

lemma questions_packInto {questions : List Question}
    (h : packEach Question.packInto questions out ctx = some r) (hok : CtxOk out ctx) :
    ReadsAt (fun b off => readN Question.unpack b questions.length off) out r.1
      (questions.map fun q => { q with name := nameOf q.name }) := by
  induction questions generalizing out ctx with
  | nil =>
    cases h
    exact fun w _ => rfl
  | cons q questions ih =>
    simp only [packEach, Option.bind_eq_bind, Option.bind_eq_some_iff] at h
    obtain ⟨mid, hmid, h⟩ := h
    obtain ⟨hwrote, hread⟩ := question_packInto hmid
    have hrest := packEach_wrote (fun h => (question_packInto h).1) h
    intro w hw
    have htail := ih h (hwrote.ok hok) w hw
    simp only [List.length_cons, readN, hread hok w (hrest.longer.trans hw), Option.bind_eq_bind,
      Option.bind_some, htail, List.map_cons]

end Questions

section Records

variable {rec : ResourceRecord} {out : Bytes} {ctx : Option Table} {r : Out}

/-- The name and the header of a record. -/
def readRecordHead : Bytes → Nat → Option ((String × List Int) × Nat) :=
  readBoth decodeName (unpackUints [2, 2, 4, 2])

lemma strict_recordHead : Strict readRecordHead := strict_name.both (strict_uints _)

lemma record_unpack {b : Bytes} {off pos : Nat} {name : String} {rtype rclass ttl rdlength : Int}
    (h : readRecordHead b off = some ((name, [rtype, rclass, ttl, rdlength]), pos)) :
    ResourceRecord.unpack b off = (unpackRData rtype b pos rdlength.toNat).map fun data =>
      ({ name, rclass, ttl, data }, pos + rdlength.toNat) := by
  simp only [readRecordHead, readBoth, Option.bind_eq_some_iff, Option.map_eq_some_iff, Prod.mk.injEq] at h
  obtain ⟨⟨name', mid⟩, hname, ⟨vs, stop⟩, hvs, ⟨rfl, rfl⟩, rfl⟩ := h
  simp only [ResourceRecord.unpack, hname, hvs, Option.bind_eq_bind, Option.bind_some]
  cases unpackRData rtype b stop rdlength.toNat <;> rfl

lemma record_unpack_none {b : Bytes} {off : Nat} (h : readRecordHead b off = none) :
    ResourceRecord.unpack b off = none := by
  obtain hn | ⟨name, mid, hn⟩ := pair_cases (decodeName b off)
  · simp [ResourceRecord.unpack, hn]
  · have hvs : unpackUints [2, 2, 4, 2] b mid = none := by simpa [readRecordHead, readBoth, hn] using h
    simp [ResourceRecord.unpack, hn, hvs]

/-- The header as it is in the end comes before the RDATA. -/
lemma record_packInto (h : rec.packInto out ctx = some r) :
    ∃ mid ctx' header, packName rec.name out ctx = some (mid, ctx') ∧
      packRecordHeader rec.data.rtype rec.rclass rec.ttl ((r.1.length - (mid ++ header).length : Nat) : Int) =
        some header ∧
      packRData rec.data (mid ++ header) ctx' = some r := by
  simp only [ResourceRecord.packInto, Option.bind_eq_bind, Option.bind_eq_some_iff, Option.some.injEq] at h
  obtain ⟨⟨mid, ctx'⟩, hmid, first, hfirst, ⟨out', ctx''⟩, hout, header, hheader, rfl⟩ := h
  simp only at hfirst hout hheader ⊢
  obtain ⟨body, hbody, hagain⟩ := (writer_rdata rec.data).body hout
  simp only at hbody
  have hlen : header.length = first.length := (packUints_length hheader).trans (packUints_length hfirst).symm
  have hfinal : out'.take mid.length ++ header ++ out'.drop (mid ++ first).length = mid ++ header ++ body := by
    rw [hbody, List.drop_left' rfl, List.append_assoc mid, List.take_left' rfl]
  refine ⟨mid, ctx', header, hmid, ?_, ?_⟩
  · rw [hfinal]
    rw [hbody] at hheader
    simpa [hlen] using hheader
  · rw [hfinal, hagain _ (by simp [hlen])]

lemma record_wrote (h : rec.packInto out ctx = some r) : Wrote out ctx r := by
  obtain ⟨mid, ctx', header, hmid, -, hdata⟩ := record_packInto h
  exact ((packName_wrote hmid).1.trans (wrote_bytes _ _ _)).trans ((writer_rdata rec.data).wrote hdata)

/-- What is read of a record written between `out` and `out'`. -/
structure RecordRead (rec : ResourceRecord) (out out' : Bytes) : Prop where
  whole : ∀ w, out' <+: w → ∃ rec', ResourceRecord.unpack w out.length = some (rec', out'.length) ∧
    (Normal rec.name ∧ rec.data.Plain → rec' = rec)
  cut : ∀ i x, out.length ≤ i → i < out'.length → ResourceRecord.unpack (out'.take i) out.length = some x →
    rec.data.Open ∧ x.2 = out'.length
  opened : rec.data.Open → ∃ i, out.length ≤ i ∧ i < out'.length ∧
    ∃ rec', ResourceRecord.unpack (out'.take i) out.length = some (rec', out'.length)

lemma record_read (h : rec.packInto out ctx = some r) (hok : CtxOk out ctx) : RecordRead rec out r.1 := by
  obtain ⟨mid, ctx', header, hmid, hheader, hdata⟩ := record_packInto h
  have hname := packName_wrote hmid
  have hbody := (writer_rdata rec.data).wrote hdata
  have hpre : mid ++ header <+: r.1 := hbody.longer
  have hlen := hpre.length_le
  have hlen' : out.length ≤ (mid ++ header).length :=
    (hname.1.longer.trans (List.prefix_append _ _)).length_le
  have hrec := recovered_rdata hdata ((hname.1.trans (wrote_bytes _ header _)).ok hok)
  set length := r.1.length - (mid ++ header).length
  have hhead : ReadsAt readRecordHead out (mid ++ header)
      (nameOf rec.name, [rec.data.rtype, rec.rclass, rec.ttl, (length : Int)]) :=
    (readsAt_name hmid hok).both (readsAt_uints _ hheader) (List.prefix_append _ _)
  have hread : ∀ w, mid ++ header <+: w → ResourceRecord.unpack w out.length =
      (unpackRData rec.data.rtype w (mid ++ header).length length).map fun data =>
        ({ name := nameOf rec.name, rclass := rec.rclass, ttl := rec.ttl, data }, r.1.length) := by
    intro w hw
    rw [record_unpack (hhead w hw), Int.toNat_natCast, Nat.add_sub_cancel' hlen]
  refine ⟨fun w hw => ?_, fun i x hi hi' hx => ?_, fun hopen => ?_⟩
  · obtain ⟨data', hdata', hplain⟩ := hrec.whole w hw
    refine ⟨_, by rw [hread w (hpre.trans hw), hdata', Option.map_some], fun hp => ?_⟩
    rw [hplain hp.2, nameOf_normal hp.1]
  · by_cases hcut : i < (mid ++ header).length
    · rw [record_unpack_none (strict_recordHead.cut hhead hpre hi hcut)] at hx
      cases hx
    · have hin : mid ++ header <+: r.1.take i := List.prefix_take_iff.mpr ⟨hpre, by omega⟩
      rw [hread _ hin] at hx
      obtain ⟨data', hdata', rfl⟩ := Option.map_eq_some_iff.mp hx
      refine ⟨?_, rfl⟩
      by_contra hclosed
      rw [hrec.closed hclosed i (by omega) hi'] at hdata'
      cases hdata'
  · obtain ⟨i, hi, hi', data', hdata'⟩ := hrec.opened hopen
    have hin : mid ++ header <+: r.1.take i := List.prefix_take_iff.mpr ⟨hpre, hi⟩
    exact ⟨i, by omega, hi', _, by rw [hread _ hin, hdata', Option.map_some]⟩

variable {recs : List ResourceRecord}

lemma records_wrote (h : packEach ResourceRecord.packInto recs out ctx = some r) : Wrote out ctx r :=
  packEach_wrote record_wrote h

lemma records_whole (h : packEach ResourceRecord.packInto recs out ctx = some r) (hok : CtxOk out ctx)
    {w : Bytes} (hw : r.1 <+: w) :
    ∃ recs', readN ResourceRecord.unpack w recs.length out.length = some (recs', r.1.length) ∧
      ((∀ rec ∈ recs, Normal rec.name ∧ rec.data.Plain) → recs' = recs) := by
  induction recs generalizing out ctx with
  | nil =>
    cases h
    exact ⟨[], rfl, fun _ => rfl⟩
  | cons rec recs ih =>
    simp only [packEach, Option.bind_eq_bind, Option.bind_eq_some_iff] at h
    obtain ⟨mid, hmid, h⟩ := h
    obtain ⟨rec', hrec, hplain⟩ := (record_read hmid hok).whole w ((records_wrote h).longer.trans hw)
    obtain ⟨recs', hrecs, hplains⟩ := ih h ((record_wrote hmid).ok hok)
    refine ⟨rec' :: recs', by simp [readN, hrec, hrecs], fun hall => ?_⟩
    rw [hplain (hall rec List.mem_cons_self), hplains fun x hx => hall x (List.mem_cons_of_mem _ hx)]

/-- Records that stop short are read only if the last of them is open. -/
lemma records_cut (h : packEach ResourceRecord.packInto recs out ctx = some r) (hok : CtxOk out ctx) {i : Nat}
    (hi : out.length ≤ i) (hi' : i < r.1.length) {x : List ResourceRecord × Nat}
    (hx : readN ResourceRecord.unpack (r.1.take i) recs.length out.length = some x) :
    ∃ rec ∈ recs.getLast?, rec.data.Open := by
  induction recs generalizing out ctx x with
  | nil =>
    cases h
    exact absurd (Nat.lt_of_le_of_lt hi hi') (Nat.lt_irrefl _)
  | cons rec recs ih =>
    simp only [packEach, Option.bind_eq_bind, Option.bind_eq_some_iff] at h
    obtain ⟨mid, hmid, h⟩ := h
    have hpre := (records_wrote h).longer
    have hlen := hpre.length_le
    simp only [List.length_cons, readN, Option.bind_eq_bind, Option.bind_eq_some_iff, Prod.exists] at hx
    obtain ⟨rec', stop, hrec, recs', stop', hrecs, -⟩ := hx
    by_cases hin : mid.1.length ≤ i
    · have hwhole : mid.1 <+: r.1.take i := List.prefix_take_iff.mpr ⟨hpre, hin⟩
      obtain ⟨rec₁, hrec₁, -⟩ := (record_read hmid hok).whole _ hwhole
      rw [hrec₁] at hrec
      cases hrec
      obtain ⟨last, hlast, hopen⟩ := ih h ((record_wrote hmid).ok hok) hin hrecs
      refine ⟨last, ?_, hopen⟩
      cases recs with
      | nil => cases hlast
      | cons => exact hlast
    · have hsame : r.1.take i = mid.1.take i := by
        obtain ⟨t, ht⟩ := hpre
        rw [← ht, List.take_append_of_le_length (by omega)]
      rw [hsame] at hrec hrecs
      obtain ⟨hopen, hstop⟩ := (record_read hmid hok).cut i _ hi (by omega) hrec
      cases recs with
      | nil => exact ⟨rec, rfl, hopen⟩
      | cons next recs =>
        -- The next record would have to begin past the end.
        simp only [List.length_cons, readN, Option.bind_eq_bind, Option.bind_eq_some_iff,
          ResourceRecord.unpack] at hrecs
        obtain ⟨_, ⟨name, hname, -⟩, -⟩ := hrecs
        have hlt := decodeName_lt hname
        simp only at hstop
        rw [List.length_take] at hlt
        omega

lemma records_opened (h : packEach ResourceRecord.packInto recs out ctx = some r) (hok : CtxOk out ctx)
    {rec : ResourceRecord} (hlast : rec ∈ recs.getLast?) (hopen : rec.data.Open) :
    ∃ i, out.length ≤ i ∧ i < r.1.length ∧
      ∃ x, readN ResourceRecord.unpack (r.1.take i) recs.length out.length = some x := by
  induction recs generalizing out ctx with
  | nil => cases hlast
  | cons first recs ih =>
    simp only [packEach, Option.bind_eq_bind, Option.bind_eq_some_iff] at h
    obtain ⟨mid, hmid, h⟩ := h
    cases recs with
    | nil =>
      cases h
      obtain rfl : first = rec := by simpa using hlast
      obtain ⟨i, hi, hi', rec', hrec⟩ := (record_read hmid hok).opened hopen
      exact ⟨i, hi, hi', by simp [readN, hrec]⟩
    | cons next recs =>
      have hwrote := record_wrote hmid
      obtain ⟨i, hi, hi', x, hx⟩ := ih h (hwrote.ok hok) (by simpa using hlast)
      have hin : mid.1 <+: r.1.take i := List.prefix_take_iff.mpr ⟨(records_wrote h).longer, hi⟩
      obtain ⟨rec', hrec, -⟩ := (record_read hmid hok).whole _ hin
      have hle := hwrote.longer.length_le
      refine ⟨i, by omega, hi', (rec' :: x.1, x.2), ?_⟩
      rw [List.length_cons, readN, hrec]
      simp only [Option.bind_eq_bind, Option.bind_some, hx]

end Records

end Rustruct.DNS

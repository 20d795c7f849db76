import Rustruct.Proofs.DNSRData

/-!
# The RDATA classes

Each class of the registry: what it reads back, and whether it notices that its record was cut.
-/

namespace Rustruct.DNS

/-- What a reader returns. -/
lemma pair_cases {α β : Type} (o : Option (α × β)) : o = none ∨ ∃ x y, o = some (x, y) := by
  cases o with
  | none => exact .inl rfl
  | some r => exact .inr ⟨r.1, r.2, rfl⟩

lemma packUints_single {w : Nat} {v : Int} {b : Bytes} (h : packUint w v = some b) :
    packUints [(w, v)] = some b := by
  simp [packUints, h]

section Recover

variable {out : Bytes} {ctx : Option Table} {r : Out}

/-- One name. -/
lemma recovered_name {data : RData} (kind : RDataKind) (mk : String → RData) {target : String}
    (hkind : data.rtype = kind.rtype)
    (hunpack : ∀ b off length, kind.unpack b off length = (decodeName b off).map fun r => mk r.1)
    (h : packName target out ctx = some r) (hok : CtxOk out ctx) (hplain : data.Plain → Normal target)
    (hmk : mk target = data) (hopen : ¬data.Open) : Recovered data out r.1 := by
  refine recovered_strict kind mk hkind hunpack strict_name (readsAt_name h hok) (fun hp => ?_) hopen
  rw [nameOf_normal (hplain hp), hmk]

lemma recovered_mx {preference : Int} {exchange : String}
    (h : packRData (.mx preference exchange) out ctx = some r) (hok : CtxOk out ctx) :
    Recovered (.mx preference exchange) out r.1 := by
  simp only [packRData, Option.bind_eq_bind, Option.bind_eq_some_iff] at h
  obtain ⟨b, hb, h⟩ := h
  have hname := readsAt_name h (hok.mono (List.prefix_append _ b))
  refine recovered_strict .mx (fun x => .mx x.1 x.2) rfl (fun b off _ => ?_)
    ((strict_uint 2).both strict_name) ((readsAt_uint _ hb).both hname (packName_wrote h).1.longer)
    (fun hp => ?_) (fun h => h)
  · obtain hv | ⟨v, pos, hv⟩ := pair_cases (unpackUint 2 b off)
    · simp [RDataKind.unpack, readBoth, hv]
    · cases hn : decodeName b pos <;> simp [RDataKind.unpack, readBoth, hv, hn]
  · simp only [nameOf_normal (show Normal exchange from hp)]

lemma recovered_rp {mbox text : String} (h : packRData (.rp mbox text) out ctx = some r)
    (hok : CtxOk out ctx) : Recovered (.rp mbox text) out r.1 := by
  simp only [packRData, Option.bind_eq_bind, Option.bind_eq_some_iff] at h
  obtain ⟨mid, hmid, h⟩ := h
  have hwrote := packName_wrote hmid
  refine recovered_strict .rp (fun x => .rp x.1 x.2) rfl (fun b off _ => ?_)
    (strict_name.both strict_name)
    ((readsAt_name hmid hok).both (readsAt_name h (hwrote.1.ok hok)) (packName_wrote h).1.longer)
    (fun hp => ?_) (fun h => h)
  · obtain hv | ⟨name, pos, hv⟩ := pair_cases (decodeName b off)
    · simp [RDataKind.unpack, readBoth, hv]
    · cases hn : decodeName b pos <;> simp [RDataKind.unpack, readBoth, hv, hn]
  · simp only [nameOf_normal hp.1, nameOf_normal hp.2]

lemma recovered_soa {mname rname : String} {serial refresh retry expire minimum : Int}
    (h : packRData (.soa mname rname serial refresh retry expire minimum) out ctx = some r)
    (hok : CtxOk out ctx) : Recovered (.soa mname rname serial refresh retry expire minimum) out r.1 := by
  simp only [packRData, Option.bind_eq_bind, Option.bind_eq_some_iff, Option.some.injEq] at h
  obtain ⟨first, hfirst, second, hsecond, b, hb, rfl⟩ := h
  have hok' := (packName_wrote hfirst).1.ok hok
  have hnums := readsAt_uints second.1 hb
  refine recovered_strict .soa
    (fun x => .soa x.1 x.2.1 (x.2.2.getD 0 0) (x.2.2.getD 1 0) (x.2.2.getD 2 0) (x.2.2.getD 3 0)
      (x.2.2.getD 4 0)) rfl (fun b off _ => ?_)
    (strict_name.both (strict_name.both (strict_uints [4, 4, 4, 4, 4])))
    ((readsAt_name hfirst hok).both ((readsAt_name hsecond hok').both hnums (List.prefix_append _ _))
      ((packName_wrote hsecond).1.longer.trans (List.prefix_append _ _))) (fun hp => ?_) (fun h => h)
  · obtain hv | ⟨mname, pos, hv⟩ := pair_cases (decodeName b off)
    · simp [RDataKind.unpack, readBoth, hv]
    obtain hv' | ⟨rname, pos', hv'⟩ := pair_cases (decodeName b pos)
    · simp [RDataKind.unpack, readBoth, hv, hv']
    obtain hn | ⟨vs, pos, hn⟩ := pair_cases (unpackUints [4, 4, 4, 4, 4] b pos')
    · simp [RDataKind.unpack, readBoth, hv, hv', hn]
    obtain ⟨_, _, _, _, _, rfl⟩ := values_five (unpackUints_values hn)
    simp [RDataKind.unpack, readBoth, hv, hv', hn]
  · simp [nameOf_normal hp.1, nameOf_normal hp.2]

lemma recovered_srv {priority weight port : Int} {target : String}
    (h : packRData (.srv priority weight port target) out ctx = some r) :
    Recovered (.srv priority weight port target) out r.1 := by
  simp only [packRData, Option.bind_eq_bind, Option.bind_eq_some_iff, Option.some.injEq] at h
  obtain ⟨b, hb, out', hout, rfl⟩ := h
  have hnums := readsAt_uints out hb
  refine recovered_strict .srv
    (fun x => .srv (x.1.getD 0 0) (x.1.getD 1 0) (x.1.getD 2 0) x.2) rfl (fun b off _ => ?_)
    ((strict_uints [2, 2, 2]).both strict_name)
    (hnums.both (readsAt_plainName hout) (packPlainName_reads hout).1) (fun hp => ?_) (fun h => h)
  · obtain hn | ⟨vs, pos, hn⟩ := pair_cases (unpackUints [2, 2, 2] b off)
    · simp [RDataKind.unpack, readBoth, hn]
    obtain ⟨_, _, _, rfl⟩ := List.length_eq_three.mp (unpackUints_values hn)
    cases hv : decodeName b pos <;> simp [RDataKind.unpack, readBoth, hn, hv]
  · simp [nameOf_normal (show Normal target from hp)]

lemma recovered_a {address : Int} (h : packRData (.a address) out ctx = some r) :
    Recovered (.a address) out r.1 := by
  simp only [packRData, Option.bind_eq_bind, Option.bind_eq_some_iff, Option.some.injEq] at h
  obtain ⟨b, hb, rfl⟩ := h
  refine recovered_exact .a (fun vs => some (.a (vs.getD 0 0))) rfl (fun b off length => ?_) (packUints_single hb)
    ⟨_, rfl⟩ (fun h => h) (fun h => h)
  obtain hn | ⟨vs, pos, hn⟩ := pair_cases (unpackUints [4] (pySlice b off (off + length)) 0)
  · simp [RDataKind.unpack, hn]
  obtain ⟨_, rfl⟩ := List.length_eq_one_iff.mp (unpackUints_values hn)
  simp [RDataKind.unpack, hn]

lemma recovered_loc {version size hPrecision vPrecision latitude longitude altitude : Int}
    (h : packRData (.loc version size hPrecision vPrecision latitude longitude altitude) out ctx = some r) :
    Recovered (.loc version size hPrecision vPrecision latitude longitude altitude) out r.1 := by
  simp only [packRData, Option.bind_eq_bind, Option.bind_eq_some_iff, Option.some.injEq] at h
  obtain ⟨b, hb, rfl⟩ := h
  refine recovered_exact .loc (fun vs => some (.loc (vs.getD 0 0) (vs.getD 1 0) (vs.getD 2 0) (vs.getD 3 0)
    (vs.getD 4 0) (vs.getD 5 0) (vs.getD 6 0))) rfl (fun b off length => ?_) hb ⟨_, rfl⟩ (fun h => h) (fun h => h)
  obtain hn | ⟨vs, pos, hn⟩ := pair_cases (unpackUints [1, 1, 1, 1, 4, 4, 4] (pySlice b off (off + length)) 0)
  · simp [RDataKind.unpack, hn]
  obtain ⟨_, _, _, _, _, _, _, rfl⟩ := values_seven (unpackUints_values hn)
  simp [RDataKind.unpack, hn]

lemma recovered_aaaa {address : Bytes} (h : packRData (.aaaa address) out ctx = some r) :
    Recovered (.aaaa address) out r.1 := by
  simp only [packRData] at h
  split_ifs at h with hlen
  cases h
  refine recovered_raw .aaaa (fun raw => if raw.length = 16 then some (.aaaa raw) else none)
    rfl (fun _ _ _ => rfl) (fun h => h) ⟨_, if_pos hlen⟩ (fun _ k hk => if_neg ?_) (fun h => absurd h fun h => h)
  rw [List.length_take]
  omega

lemma recovered_ds {keyTag algorithm digestType : Int} {digest : Bytes}
    (h : packRData (.ds keyTag algorithm digestType digest) out ctx = some r) :
    Recovered (.ds keyTag algorithm digestType digest) out r.1 := by
  simp only [packRData, Option.bind_eq_bind, Option.bind_eq_some_iff, Option.some.injEq] at h
  obtain ⟨b, hb, rfl⟩ := h
  rw [List.append_assoc]
  refine recovered_greedy .ds (fun vs rest => some (.ds (vs.getD 0 0) (vs.getD 1 0) (vs.getD 2 0) rest)) rfl
    (fun b off length => ?_) hb (fun rest => ⟨_, rfl⟩) (fun h => h) Iff.rfl
  obtain hn | ⟨vs, rest, hn⟩ := pair_cases (unpackGreedy [2, 1, 1] (pySlice b off (off + length)))
  · simp [RDataKind.unpack, hn]
  obtain ⟨_, _, _, rfl⟩ := List.length_eq_three.mp (unpackGreedy_values hn)
  simp [RDataKind.unpack, hn]

lemma recovered_dnskey {flags protocol algorithm : Int} {key : Bytes}
    (h : packRData (.dnskey flags protocol algorithm key) out ctx = some r) :
    Recovered (.dnskey flags protocol algorithm key) out r.1 := by
  simp only [packRData, Option.bind_eq_bind, Option.bind_eq_some_iff, Option.some.injEq] at h
  obtain ⟨b, hb, rfl⟩ := h
  rw [List.append_assoc]
  refine recovered_greedy .dnskey (fun vs rest => some (.dnskey (vs.getD 0 0) (vs.getD 1 0) (vs.getD 2 0) rest)) rfl
    (fun b off length => ?_) hb (fun rest => ⟨_, rfl⟩) (fun h => h) Iff.rfl
  obtain hn | ⟨vs, rest, hn⟩ := pair_cases (unpackGreedy [2, 1, 1] (pySlice b off (off + length)))
  · simp [RDataKind.unpack, hn]
  obtain ⟨_, _, _, rfl⟩ := List.length_eq_three.mp (unpackGreedy_values hn)
  simp [RDataKind.unpack, hn]

lemma recovered_tlsa {usage selector matchingType : Int} {certData : Bytes}
    (h : packRData (.tlsa usage selector matchingType certData) out ctx = some r) :
    Recovered (.tlsa usage selector matchingType certData) out r.1 := by
  simp only [packRData, Option.bind_eq_bind, Option.bind_eq_some_iff, Option.some.injEq] at h
  obtain ⟨b, hb, rfl⟩ := h
  rw [List.append_assoc]
  refine recovered_greedy .tlsa (fun vs rest => some (.tlsa (vs.getD 0 0) (vs.getD 1 0) (vs.getD 2 0) rest)) rfl
    (fun b off length => ?_) hb (fun rest => ⟨_, rfl⟩) (fun h => h) Iff.rfl
  obtain hn | ⟨vs, rest, hn⟩ := pair_cases (unpackGreedy [1, 1, 1] (pySlice b off (off + length)))
  · simp [RDataKind.unpack, hn]
  obtain ⟨_, _, _, rfl⟩ := List.length_eq_three.mp (unpackGreedy_values hn)
  simp [RDataKind.unpack, hn]

lemma recovered_sshfp {algorithm fpType : Int} {fingerprint : Bytes}
    (h : packRData (.sshfp algorithm fpType fingerprint) out ctx = some r) :
    Recovered (.sshfp algorithm fpType fingerprint) out r.1 := by
  simp only [packRData, Option.bind_eq_bind, Option.bind_eq_some_iff, Option.some.injEq] at h
  obtain ⟨b, hb, rfl⟩ := h
  rw [List.append_assoc]
  refine recovered_greedy .sshfp (fun vs rest => some (.sshfp (vs.getD 0 0) (vs.getD 1 0) rest)) rfl
    (fun b off length => ?_) hb (fun rest => ⟨_, rfl⟩) (fun h => h) Iff.rfl
  obtain hn | ⟨vs, rest, hn⟩ := pair_cases (unpackGreedy [1, 1] (pySlice b off (off + length)))
  · simp [RDataKind.unpack, hn]
  obtain ⟨_, _, rfl⟩ := List.length_eq_two.mp (unpackGreedy_values hn)
  simp [RDataKind.unpack, hn]

lemma recovered_unknown {d : UnknownRData} (h : packRData (.unknown d) out ctx = some r) :
    Recovered (.unknown d) out r.1 := by
  cases h
  have hlength : (out ++ d.data).length - out.length = d.data.length := by simp
  refine ⟨fun w hw => ⟨.unknown d, ?_, fun _ => rfl⟩, fun hclosed i hi hi' => ?_, fun hopen => ?_⟩
  · obtain ⟨t, rfl⟩ := hw
    have hslice : pySlice (out ++ d.data ++ t) out.length (out.length + d.data.length) = d.data := by
      rw [pySlice_add, List.append_assoc, List.drop_left' rfl, List.take_left' rfl]
    exact (unpackRData_unknown d _ _ _).trans (by rw [hlength, hslice])
  · have hempty : d.data = [] := not_not.mp hclosed
    simp only [hempty, List.append_nil] at hi'
    omega
  · have hpos := List.length_pos_of_ne_nil (show d.data ≠ [] from hopen)
    exact ⟨out.length, Nat.le_refl _, by rw [List.length_append]; omega, _, unpackRData_unknown d _ _ _⟩

/-- What is read from the bytes of a `CAA` record. -/
def caaOf (raw : Bytes) : Option RData := do
  match ← unpackUints [1, 1] raw 0 with
  | ([flags, tagLength], pos) =>
    if pos + tagLength.toNat ≤ raw.length then
      let tag ← decode (pySlice raw pos (pos + tagLength.toNat)) .ascii
      some (.caa flags tag (← decode (raw.drop (pos + tagLength.toNat)) .utf8))
    else none
  | _ => none

lemma recovered_caa {flags : Int} {tag value : String} (h : packRData (.caa flags tag value) out ctx = some r) :
    Recovered (.caa flags tag value) out r.1 := by
  simp only [packRData, Option.bind_eq_bind, Option.bind_eq_some_iff, Option.some.injEq] at h
  obtain ⟨t, ht, b, hb, v, hv, rfl⟩ := h
  have hlen : b.length = 2 := packUints_length hb
  have hread : ∀ rest, unpackUints [1, 1] (b ++ rest) 0 = some ([flags, (t.length : Int)], 2) := by
    intro rest
    rw [show [1, 1] = [(1, flags), (1, (t.length : Int))].map Prod.fst from rfl, unpackUints_exact _ hb, hlen]
    rfl
  have hslice : ∀ rest, pySlice (b ++ (t ++ rest)) 2 (2 + t.length) = t := by
    intro rest
    rw [pySlice_add, List.drop_left' hlen, List.take_left' rfl]
  have hdrop : ∀ rest, (b ++ (t ++ rest)).drop (2 + t.length) = rest := by
    intro rest
    rw [← List.append_assoc, List.drop_left' (by rw [List.length_append, hlen])]
  rw [List.append_assoc, List.append_assoc]
  refine recovered_raw .caa caaOf rfl (fun _ _ _ => rfl) (fun h => h) ?_ (fun hclosed k hk => ?_) (fun hopen => ?_)
  · refine ⟨.caa flags tag value, ?_⟩
    simp [caaOf, hread, hlen, hslice, hdrop, decode_encode ht, decode_encode hv]
  · -- Without a value the tag is cut, or what stands before it.
    have hempty : value = "" := not_not.mp hclosed
    obtain rfl : [] = v := by
      rw [hempty] at hv
      exact Option.some.inj hv
    rw [List.append_nil] at hk ⊢
    by_cases hshort : k < 2
    · simp only [caaOf, unpackUints_take [1, 1] hshort, Option.bind_eq_bind, Option.bind_none]
    · obtain ⟨j, rfl⟩ := Nat.exists_eq_add_of_le (Nat.not_lt.mp hshort)
      rw [List.length_append, hlen] at hk
      rw [show 2 + j = b.length + j by omega, List.take_length_add_append]
      simp [caaOf, hread, hlen]
      omega
  · have hpos : 0 < v.length := by
      refine List.length_pos_of_ne_nil fun hnil => hopen ?_
      have hd := decode_encode hv
      rw [hnil] at hd
      exact (Option.some.inj hd).symm
    refine ⟨(b ++ t).length, by simp; omega, .caa flags tag "", ?_⟩
    rw [← List.append_assoc, List.take_left' rfl]
    have hslice' := hslice []
    have hdrop' := hdrop []
    rw [List.append_nil] at hslice' hdrop'
    have hnone : decode [] .utf8 = some "" := rfl
    simp [caaOf, hread, hlen, hslice', hdrop', decode_encode ht, hnone]

lemma recovered_rrsig {typeCovered algorithm labels originalTtl expiration inception keyTag : Int}
    {signer : String} {signature : Bytes}
    (h : packRData (.rrsig typeCovered algorithm labels originalTtl expiration inception keyTag signer
      signature) out ctx = some r) :
    Recovered (.rrsig typeCovered algorithm labels originalTtl expiration inception keyTag signer
      signature) out r.1 := by
  simp only [packRData, Option.bind_eq_bind, Option.bind_eq_some_iff, Option.some.injEq] at h
  obtain ⟨b, hb, mid, hmid, rfl⟩ := h
  have hnums := readsAt_uints out hb
  refine recovered_tail .rrsig mid (fun b stop pos => some (pySlice b pos stop))
    (fun x rest => .rrsig (x.1.getD 0 0) (x.1.getD 1 0) (x.1.getD 2 0) (x.1.getD 3 0) (x.1.getD 4 0)
      (x.1.getD 5 0) (x.1.getD 6 0) x.2 rest) rfl (fun b off length => ?_)
    ((strict_uints [2, 1, 1, 4, 4, 4, 2]).both strict_name)
    (hnums.both (readsAt_plainName hmid) (packPlainName_reads hmid).1)
    ((List.prefix_append _ _).trans (packPlainName_reads hmid).1) (List.prefix_append _ _) (fun h => h)
    (fun _ _ => ⟨_, rfl⟩) (fun hclosed i hi hi' => ?_) (fun hopen => ⟨?_, _, rfl⟩)
  · obtain hn | ⟨vs, pos, hn⟩ := pair_cases (unpackUints [2, 1, 1, 4, 4, 4, 2] b off)
    · simp [RDataKind.unpack, readBoth, hn]
    obtain ⟨_, _, _, _, _, _, _, rfl⟩ := values_seven (unpackUints_values hn)
    obtain hv | ⟨name, stop, hv⟩ := pair_cases (decodeName b pos) <;>
      simp [RDataKind.unpack, readBoth, hn, hv]
  · have hempty : signature = [] := not_not.mp hclosed
    simp only [hempty, List.append_nil] at hi'
    omega
  · have hpos := List.length_pos_of_ne_nil (show signature ≠ [] from hopen)
    simp only [List.length_append]
    omega

/-- The classes that end in chunks. -/
lemma recovered_chunks {data : RData} {α β : Type} (kind : RDataKind) (mk : α → List β → RData)
    {mid : Bytes} {read : Bytes → Nat → Option (α × Nat)} {x : α} {head : Nat}
    {header : Bytes → Nat → Option (Nat × (Bytes → β))} {chunks : List (Bytes × Bytes)} {xs : List β}
    (hkind : data.rtype = kind.rtype)
    (hunpack : ∀ b off length, kind.unpack b off length =
      (read b off).bind fun r => (readChunks head header b (off + length) r.2).map (mk r.1))
    (hr : Strict read) (hx : ReadsAt read out mid x) (hout : out <+: mid) (hplain : ¬data.Plain)
    (hshort : ∀ w pos, w.length < pos + (head + 1) → header w pos = none)
    (hc : List.Forall₂ (Chunk head header) chunks xs)
    (hopen : data.Open ↔ ∃ c ∈ chunks.getLast?, c.2 ≠ []) :
    Recovered data out (mid ++ chunksWire chunks) := by
  refine recovered_tail kind mid (readChunks head header) mk hkind hunpack hr hx hout (List.prefix_append _ _)
    hplain (fun w hw => ⟨xs, readChunks_chunks hc hw⟩) (fun hclosed i hi hi' => ?_) (fun hopened => ?_)
  · refine readChunks_cut hshort hc (fun c hmem => ?_) hi hi'
    by_contra hne
    exact hclosed (hopen.mpr ⟨c, hmem, hne⟩)
  · obtain ⟨c, hmem, hne⟩ := hopen.mp hopened
    have hpos : 0 < (chunksWire chunks).length := by
      refine List.length_pos_of_ne_nil fun hnil => hne ?_
      rw [chunksWire, List.flatMap_eq_nil_iff] at hnil
      exact (List.append_eq_nil_iff.mp (hnil c (List.mem_of_getLast? hmem))).2
    exact ⟨by rw [List.length_append]; omega, readChunks_open hc hmem hne⟩

lemma recovered_nsec {nextDomain : String} {rrtypes : List Int}
    (h : packRData (.nsec nextDomain rrtypes) out ctx = some r) :
    Recovered (.nsec nextDomain rrtypes) out r.1 := by
  simp only [packRData, Option.bind_eq_bind, Option.bind_eq_some_iff, Option.some.injEq] at h
  obtain ⟨mid, hmid, b, hb, rfl⟩ := h
  obtain ⟨chunks, xs, rfl, hread, hclosed, hopened⟩ := encodeTypeBitmap_chunks hb
  refine recovered_chunks .nsec (fun name windows => .nsec name windows.flatten) rfl
    (fun b off length => ?_) strict_name (readsAt_plainName hmid) (packPlainName_reads hmid).1
    (fun h => h) windowHeader_short hread ⟨hopened, ?_⟩
  · obtain hv | ⟨name, pos, hv⟩ := pair_cases (decodeName b off)
    · simp [RDataKind.unpack, hv]
    · cases ht : readChunks 1 windowHeader b (off + length) pos <;>
        simp [RDataKind.unpack, decodeTypeBitmap, hv, ht]
  · rintro ⟨c, hc, -⟩ hempty
    rw [hclosed hempty] at hc
    cases hc

lemma recovered_https {priority : Int} {target : String} {params : List (Int × Bytes)}
    (h : packRData (.https priority target params) out ctx = some r) :
    Recovered (.https priority target params) out r.1 := by
  simp only [packRData, Option.bind_eq_bind, Option.bind_eq_some_iff, Option.some.injEq] at h
  obtain ⟨b, hb, mid, hmid, out', hout, rfl⟩ := h
  obtain ⟨chunks, happend, hread, hsnd⟩ := appendParams_chunks hout
  obtain rfl := Option.some.inj ((happend mid).symm.trans hout)
  refine recovered_chunks .https (fun x params => .https x.1 x.2 params) rfl
    (fun b off length => ?_) ((strict_uint 2).both strict_name)
    ((readsAt_uint _ hb).both (readsAt_plainName hmid) (packPlainName_reads hmid).1)
    ((List.prefix_append _ _).trans (packPlainName_reads hmid).1) (fun h => h) paramHeader_short hread ?_
  · obtain hv | ⟨priority, pos, hv⟩ := pair_cases (unpackUint 2 b off)
    · simp [RDataKind.unpack, readBoth, hv]
    obtain hn | ⟨name, pos', hn⟩ := pair_cases (decodeName b pos)
    · simp [RDataKind.unpack, readBoth, hv, hn]
    · cases ht : readChunks 3 paramHeader b (off + length) pos' <;>
        simp [RDataKind.unpack, readParams, readBoth, hv, hn, ht]
  · exact lastContent_iff Prod.snd hsnd

lemma recovered_txt {strings : List Bytes} (h : packRData (.txt strings) out ctx = some r) :
    Recovered (.txt strings) out r.1 := by
  simp only [packRData, Option.bind_eq_bind, Option.bind_eq_some_iff, Option.some.injEq] at h
  obtain ⟨out', hout, rfl⟩ := h
  obtain ⟨chunks, happend, hread, hsnd⟩ := appendStrings_chunks hout
  obtain rfl := Option.some.inj ((happend out).symm.trans hout)
  have hnothing : Strict fun (_ : Bytes) off => some ((), off) :=
    ⟨fun _ h => h, fun hoff h => by cases h; exact hoff⟩
  refine recovered_chunks .txt (fun _ strings => .txt strings) rfl (fun b off length => ?_) hnothing
    (fun _ _ => rfl) (List.prefix_refl _) (fun h => h)
    stringHeader_short hread ?_
  · cases ht : readChunks 0 stringHeader b (off + length) off <;> simp [RDataKind.unpack, readStrings, ht]
  · exact lastContent_iff (fun s => s) (by rw [hsnd, List.map_id'])

/-- Where a counted string ends is said by its first byte. -/
lemma readCharString_cut {w : Bytes} {i off stop stop' : Nat} {s s' : String}
    (h : readCharString w off = some (s, stop)) (h' : readCharString (w.take i) off = some (s', stop')) :
    stop' = stop := by
  obtain ⟨n, hn, rfl⟩ := readCharString_eq_some h
  obtain ⟨n', hn', rfl⟩ := readCharString_eq_some h'
  have hsame := getElem?_longer (List.take_prefix i w) hn'
  rw [hn] at hsame
  rw [Option.some.inj hsame]

lemma recovered_naptr {order preference : Int} {flags service regexp replacement : String}
    (h : packRData (.naptr order preference flags service regexp replacement) out ctx = some r)
    (hok : CtxOk out ctx) :
    Recovered (.naptr order preference flags service regexp replacement) out r.1 := by
  simp only [packRData, Option.bind_eq_bind, Option.bind_eq_some_iff] at h
  obtain ⟨b, hb, out₁, h₁, out₂, h₂, out₃, h₃, h⟩ := h
  obtain ⟨b₁, hb₁, -, hread₁, -⟩ := writeCharString_eq_some h₁
  obtain ⟨b₂, hb₂, -, hread₂, -⟩ := writeCharString_eq_some h₂
  obtain ⟨b₃, hb₃, -, hread₃, -⟩ := writeCharString_eq_some h₃
  obtain rfl := Option.some.inj ((hb₁ _).symm.trans h₁)
  obtain rfl := Option.some.inj ((hb₂ _).symm.trans h₂)
  obtain rfl := Option.some.inj ((hb₃ _).symm.trans h₃)
  have hwrote := packName_wrote h
  have hpre : out ++ b ++ b₁ ++ b₂ ++ b₃ <+: r.1 := hwrote.1.longer
  have hpre₂ := (List.prefix_append (out ++ b ++ b₁ ++ b₂) b₃).trans hpre
  have hpre₁ := (List.prefix_append (out ++ b ++ b₁) b₂).trans hpre₂
  have hpre₀ := (List.prefix_append (out ++ b) b₁).trans hpre₁
  have hname := readsAt_name h (hok.mono (by simp [List.append_assoc]))
  have hnums := readsAt_uints out hb
  have hread : ∀ w, r.1 <+: w → RDataKind.naptr.unpack w out.length (r.1.length - out.length) =
      some (.naptr order preference flags service regexp (nameOf replacement)) := by
    intro w hw
    have hn : unpackUints [2, 2] w out.length = some ([order, preference], (out ++ b).length) :=
      hnums w (hpre₀.trans hw)
    simp only [RDataKind.unpack, hn, hread₁ _ _ (hpre₁.trans hw), hread₂ _ _ (hpre₂.trans hw),
      hread₃ _ _ (hpre.trans hw), hname w hw, Option.bind_eq_bind, Option.bind_some]
  refine ⟨fun w hw => ⟨_, (unpackRData_kind .naptr _ _ _).trans (hread w hw), fun h => h.elim⟩,
    fun _ i hi hi' => ?_, fun h => h.elim⟩
  refine (unpackRData_kind .naptr _ _ _).trans ?_
  -- The strings may be cut, but the name after them has to be there.
  by_contra hne
  obtain ⟨d, hd⟩ := Option.ne_none_iff_exists'.mp hne
  simp only [RDataKind.unpack, Option.bind_eq_bind, Option.bind_eq_some_iff] at hd
  obtain ⟨⟨vs, pos⟩, hvs, hd⟩ := hd
  have hfull := (strict_uints [2, 2]).mono (List.take_prefix i r.1) hvs
  rw [show unpackUints [2, 2] r.1 out.length = some ([order, preference], (out ++ b).length) from
    hnums r.1 hpre₀] at hfull
  cases hfull
  simp only [Option.bind_eq_some_iff] at hd
  obtain ⟨⟨s₁, p₁⟩, hs₁, ⟨s₂, p₂⟩, hs₂, ⟨s₃, p₃⟩, hs₃, x, hx, -⟩ := hd
  obtain rfl := readCharString_cut (hread₁ _ _ hpre₁) hs₁
  obtain rfl := readCharString_cut (hread₂ _ _ hpre₂) hs₂
  obtain rfl := readCharString_cut (hread₃ _ _ hpre) hs₃
  rw [decodeName_cut (hname r.1 (List.prefix_refl _)) hi'] at hx
  cases hx

/-- Every class. -/
theorem recovered_rdata {data : RData} (h : packRData data out ctx = some r) (hok : CtxOk out ctx) :
    Recovered data out r.1 := by
  cases data with
  | a => exact recovered_a h
  | aaaa => exact recovered_aaaa h
  | ns target =>
    exact recovered_name .ns .ns rfl (fun b off _ => by
      cases hn : decodeName b off <;> simp [RDataKind.unpack, hn]) h hok (fun h => h) rfl (fun h => h)
  | cname target =>
    exact recovered_name .cname .cname rfl (fun b off _ => by
      cases hn : decodeName b off <;> simp [RDataKind.unpack, hn]) h hok (fun h => h) rfl (fun h => h)
  | ptr target =>
    exact recovered_name .ptr .ptr rfl (fun b off _ => by
      cases hn : decodeName b off <;> simp [RDataKind.unpack, hn]) h hok (fun h => h) rfl (fun h => h)
  | dname target =>
    exact recovered_name .dname .dname rfl (fun b off _ => by
      cases hn : decodeName b off <;> simp [RDataKind.unpack, hn]) h hok (fun h => h) rfl (fun h => h)
  | mx => exact recovered_mx h hok
  | soa => exact recovered_soa h hok
  | srv => exact recovered_srv h
  | naptr => exact recovered_naptr h hok
  | ds => exact recovered_ds h
  | dnskey => exact recovered_dnskey h
  | rrsig => exact recovered_rrsig h
  | nsec => exact recovered_nsec h
  | caa => exact recovered_caa h
  | https => exact recovered_https h
  | loc => exact recovered_loc h
  | rp => exact recovered_rp h hok
  | tlsa => exact recovered_tlsa h
  | sshfp => exact recovered_sshfp h
  | txt => exact recovered_txt h
  | unknown => exact recovered_unknown h

end Recover

end Rustruct.DNS

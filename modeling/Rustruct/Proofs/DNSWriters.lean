import Rustruct.Proofs.DNSFields

/-!
# What the writers append

What a writer of a message appends depends on how much has been written before, not on what: a header
can be written again once the body is there.
-/

namespace Rustruct.DNS

lemma writeName_body (labels : List Bytes) (out : Bytes) (ctx : Option Table) :
    ∃ body, (writeName out labels ctx).1 = out ++ body ∧ ∀ out', out'.length = out.length →
      writeName out' labels ctx = (out' ++ body, (writeName out labels ctx).2) := by
  induction labels generalizing out ctx with
  | nil => exact ⟨[0], rfl, fun out' _ => rfl⟩
  | cons label rest ih =>
    have hnext : ∀ ctx, ∃ body,
        (writeName (out ++ UInt8.ofNat label.length :: label) rest ctx).1 = out ++ body ∧
          ∀ out', out'.length = out.length →
            writeName (out' ++ UInt8.ofNat label.length :: label) rest ctx =
              (out' ++ body, (writeName (out ++ UInt8.ofNat label.length :: label) rest ctx).2) := by
      intro ctx
      obtain ⟨body, heq, hbody⟩ := ih (out ++ UInt8.ofNat label.length :: label) ctx
      refine ⟨UInt8.ofNat label.length :: label ++ body, by rw [heq, List.append_assoc], fun out' hlen => ?_⟩
      rw [hbody _ (by simp [hlen]), List.append_assoc]
    cases ctx with
    | none => exact hnext none
    | some offsets =>
      simp only [writeName]
      cases hget : Table.get offsets (label :: rest) with
      | some target => exact ⟨_, rfl, fun out' _ => rfl⟩
      | none =>
        simp only
        obtain ⟨body, heq, hbody⟩ := hnext
          (some (if out.length ≤ pointerLimit then offsets ++ [(label :: rest, out.length)] else offsets))
        refine ⟨body, heq, fun out' hlen => ?_⟩
        rw [hlen]
        exact hbody out' hlen

/-! ### Writers -/

/-- A part of a message as it is written. -/
structure Writer (f : Bytes → Option Table → Option Out) : Prop where
  wrote : ∀ {out ctx r}, f out ctx = some r → Wrote out ctx r
  body : ∀ {out ctx r}, f out ctx = some r → ∃ body, r.1 = out ++ body ∧
    ∀ out', out'.length = out.length → f out' ctx = some (out' ++ body, r.2)

/-- The same bytes whatever is there already. -/
def Appends (f : Bytes → Option Bytes) : Prop :=
  ∀ {out out'}, f out = some out' → ∃ b, ∀ out, f out = some (out ++ b)

namespace Writer

variable {f g : Bytes → Option Table → Option Out}

lemma of_eq (hg : Writer g) (h : ∀ out ctx, f out ctx = g out ctx) : Writer f := by
  have hfg : f = g := funext fun out => funext fun ctx => h out ctx
  rwa [hfg]

lemma bytes (b : Bytes) : Writer fun out ctx => some (out ++ b, ctx) where
  wrote h := by
    cases h
    exact wrote_bytes _ _ _
  body h := by
    cases h
    exact ⟨b, rfl, fun out' _ => rfl⟩

lemma bind (hf : Writer f) (hg : Writer g) : Writer fun out ctx => (f out ctx).bind fun r => g r.1 r.2 where
  wrote h := by
    obtain ⟨r, hr, h⟩ := Option.bind_eq_some_iff.mp h
    exact (hf.wrote hr).trans (hg.wrote h)
  body h := by
    obtain ⟨r, hr, h⟩ := Option.bind_eq_some_iff.mp h
    obtain ⟨first, heq, hfirst⟩ := hf.body hr
    obtain ⟨second, heq', hsecond⟩ := hg.body h
    refine ⟨first ++ second, by rw [heq', heq, List.append_assoc], fun out' hlen => ?_⟩
    rw [hfirst out' hlen, Option.bind_some, hsecond _ (by rw [heq]; simp [hlen]), List.append_assoc]

lemma option {α : Type} (o : Option α) {f : α → Bytes → Option Table → Option Out}
    (hf : ∀ a, Writer (f a)) : Writer fun out ctx => o.bind fun a => f a out ctx where
  wrote h := by
    obtain ⟨a, -, h⟩ := Option.bind_eq_some_iff.mp h
    exact (hf a).wrote h
  body h := by
    obtain ⟨a, rfl, h⟩ := Option.bind_eq_some_iff.mp h
    exact (hf a).body h

lemma name (value : String) : Writer (packName value) where
  wrote h := (packName_wrote h).1
  body h := by
    simp only [packName, Option.bind_eq_bind, Option.bind_eq_some_iff, Option.some.injEq] at h
    obtain ⟨labels, hlabels, rfl⟩ := h
    obtain ⟨body, heq, hbody⟩ := writeName_body labels _ _
    refine ⟨body, heq, fun out' hlen => ?_⟩
    simp [packName, hlabels, hbody out' hlen]

lemma appends {f : Bytes → Option Bytes} (hf : Appends f) :
    Writer fun out ctx => (f out).bind fun out => some (out, ctx) where
  wrote h := by
    obtain ⟨out', hout, h⟩ := Option.bind_eq_some_iff.mp h
    cases h
    obtain ⟨b, hb⟩ := hf hout
    obtain rfl := Option.some.inj ((hb _).symm.trans hout)
    exact wrote_bytes _ _ _
  body h := by
    obtain ⟨out', hout, h⟩ := Option.bind_eq_some_iff.mp h
    cases h
    obtain ⟨b, hb⟩ := hf hout
    obtain rfl := Option.some.inj ((hb _).symm.trans hout)
    exact ⟨b, rfl, fun out' _ => by rw [hb, Option.bind_some]⟩

end Writer

lemma appends_plainName (value : String) : Appends (packPlainName value) := by
  intro out out' h
  simp only [packPlainName, Option.bind_eq_bind, Option.bind_eq_some_iff] at h ⊢
  obtain ⟨labels, hlabels, -⟩ := h
  have hsame : ∀ (labels : List Bytes) (out : Bytes),
      (writeName out labels none).1 = out ++ (writeName [] labels none).1 := by
    intro labels
    induction labels with
    | nil => exact fun out => rfl
    | cons label rest ih =>
      intro out
      rw [writeName, writeName, ih, ih ([] ++ _)]
      simp
  exact ⟨(writeName [] labels none).1, fun out => ⟨labels, hlabels, by rw [hsame]⟩⟩

lemma appends_charString (value : String) : Appends fun out => writeCharString out value := by
  intro out out' h
  obtain ⟨b, hb, -⟩ := writeCharString_eq_some h
  exact ⟨b, hb⟩

lemma appends_strings (strings : List Bytes) : Appends (appendStrings strings) := by
  intro out out' h
  obtain ⟨chunks, hchunks, -⟩ := appendStrings_chunks h
  exact ⟨_, hchunks⟩

lemma appends_params (params : List (Int × Bytes)) : Appends (appendParams params) := by
  intro out out' h
  obtain ⟨chunks, hchunks, -⟩ := appendParams_chunks h
  exact ⟨_, hchunks⟩

lemma writer_plainName (value : String) :
    Writer fun out ctx => (packPlainName value out).bind fun out => some (out, ctx) :=
  .appends (appends_plainName value)

lemma writer_charString (value : String) :
    Writer fun out ctx => (writeCharString out value).bind fun out => some (out, ctx) :=
  .appends (appends_charString value)

/-- Each RDATA class writes so. -/
lemma writer_rdata (data : RData) : Writer (packRData data) := by
  cases data with
  | a address => exact Writer.option (packUint 4 address) fun b => .bytes b
  | aaaa address =>
    by_cases h : address.length = 16
    · exact (Writer.bytes address).of_eq fun out ctx => if_pos h
    · exact (Writer.option none fun b => .bytes b).of_eq fun out ctx => if_neg h
  | ns target | cname target | ptr target | dname target => exact .name target
  | mx preference exchange =>
    exact Writer.option (packUint 2 preference) fun b => (Writer.bytes b).bind (.name exchange)
  | soa mname rname serial refresh retry expire minimum =>
    exact (Writer.name mname).bind <| (Writer.name rname).bind <|
      Writer.option (packUints [(4, serial), (4, refresh), (4, retry), (4, expire), (4, minimum)])
        fun b => .bytes b
  | srv priority weight port target =>
    exact Writer.option (packUints [(2, priority), (2, weight), (2, port)]) fun b =>
      (Writer.bytes b).bind (writer_plainName target)
  | naptr order preference flags service regexp replacement =>
    refine (Writer.option (packUints [(2, order), (2, preference)]) fun b => (Writer.bytes b).bind <|
      (writer_charString flags).bind <| (writer_charString service).bind <|
        (writer_charString regexp).bind (.name replacement)).of_eq fun out ctx => ?_
    simp only [packRData, Option.bind_eq_bind, Option.bind_some, Option.bind_assoc]
  | ds keyTag algorithm digestType digest =>
    refine (Writer.option (packUints [(2, keyTag), (1, algorithm), (1, digestType)]) fun b =>
      .bytes (b ++ digest)).of_eq fun out ctx => ?_
    simp only [packRData, Option.bind_eq_bind, List.append_assoc]
  | dnskey flags protocol algorithm key =>
    refine (Writer.option (packUints [(2, flags), (1, protocol), (1, algorithm)]) fun b =>
      .bytes (b ++ key)).of_eq fun out ctx => ?_
    simp only [packRData, Option.bind_eq_bind, List.append_assoc]
  | rrsig typeCovered algorithm labels originalTtl expiration inception keyTag signer signature =>
    refine (Writer.option (packUints [(2, typeCovered), (1, algorithm), (1, labels), (4, originalTtl),
      (4, expiration), (4, inception), (2, keyTag)]) fun b => (Writer.bytes b).bind <|
        (writer_plainName signer).bind (.bytes signature)).of_eq fun out ctx => ?_
    simp only [packRData, Option.bind_eq_bind, Option.bind_some, Option.bind_assoc]
  | nsec nextDomain rrtypes =>
    refine ((writer_plainName nextDomain).bind <| Writer.option (encodeTypeBitmap rrtypes) fun b =>
      .bytes b).of_eq fun out ctx => ?_
    simp only [packRData, Option.bind_eq_bind, Option.bind_some, Option.bind_assoc]
  | caa flags tag value =>
    refine (Writer.option (encode tag .ascii) fun tag =>
      Writer.option (packUints [(1, flags), (1, (tag.length : Int))]) fun b =>
        Writer.option (encode value .utf8) fun value => .bytes (b ++ tag ++ value)).of_eq fun out ctx => ?_
    simp only [packRData, Option.bind_eq_bind, List.append_assoc]
  | https priority target params =>
    refine (Writer.option (packUint 2 priority) fun b => (Writer.bytes b).bind <|
      (writer_plainName target).bind (.appends (appends_params params))).of_eq fun out ctx => ?_
    simp only [packRData, Option.bind_eq_bind, Option.bind_some, Option.bind_assoc]
  | loc version size hPrecision vPrecision latitude longitude altitude =>
    exact Writer.option (packUints [(1, version), (1, size), (1, hPrecision), (1, vPrecision),
      (4, latitude), (4, longitude), (4, altitude)]) fun b => .bytes b
  | rp mbox txt => exact (Writer.name mbox).bind (.name txt)
  | tlsa usage selector matchingType certData =>
    refine (Writer.option (packUints [(1, usage), (1, selector), (1, matchingType)]) fun b =>
      .bytes (b ++ certData)).of_eq fun out ctx => ?_
    simp only [packRData, Option.bind_eq_bind, List.append_assoc]
  | sshfp algorithm fpType fingerprint =>
    refine (Writer.option (packUints [(1, algorithm), (1, fpType)]) fun b =>
      .bytes (b ++ fingerprint)).of_eq fun out ctx => ?_
    simp only [packRData, Option.bind_eq_bind, List.append_assoc]
  | txt strings => exact .appends (appends_strings strings)
  | unknown d => exact .bytes d.data

end Rustruct.DNS

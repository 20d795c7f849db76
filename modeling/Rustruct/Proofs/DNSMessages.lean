import Rustruct.Proofs.DNSRecords

/-!
# Whole messages

A message of names, numbers and raw data survives `pack` and `unpack`, compressed or not. A message
that was cut is noticed, unless its last record ends in a slice up to the end of the record.
-/

namespace Rustruct

open DNS

namespace DNS

variable {m : DNS} {compress : Bool} {r : Out}

/-- The records of all three sections. -/
def records (m : DNS) : List ResourceRecord := m.answers ++ m.authorities ++ m.additionals

/-- All names in normal form, and RDATA that comes back as it was. -/
structure Ordinary (m : DNS) : Prop where
  questions : ∀ q ∈ m.questions, Normal q.name
  records : ∀ rec ∈ m.records, Normal rec.name ∧ rec.data.Plain

/-- The header, the questions, then the records one after the other. -/
lemma packInto_eq_some (h : m.packInto compress = some r) :
    ∃ head q, MessageHeader.pack ⟨m.id, m.flags, m.questions.length, m.answers.length, m.authorities.length,
        m.additionals.length⟩ = some head ∧
      packEach Question.packInto m.questions head (if compress then some [] else none) = some q ∧
      packEach ResourceRecord.packInto m.records q.1 q.2 = some r := by
  simp only [packInto, Option.bind_eq_bind, Option.bind_eq_some_iff] at h
  obtain ⟨head, hhead, q, hq, a, ha, b, hb, h⟩ := h
  refine ⟨head, q, hhead, hq, ?_⟩
  rw [records, packEach_append, packEach_append, ha, Option.bind_some, hb, Option.bind_some, h]

/-- Before the first entry the table is empty. -/
lemma ctxOk_start (out : Bytes) (compress : Bool) : CtxOk out (if compress then some [] else none) := by
  intro table ht entry he
  cases compress with
  | false => cases ht
  | true =>
    cases ht
    cases he

lemma packInto_wrote (h : m.packInto compress = some r) : CtxOk r.1 r.2 := by
  obtain ⟨head, q, -, hq, hr⟩ := packInto_eq_some h
  exact (records_wrote hr).ok
    ((packEach_wrote (fun h => (question_packInto h).1) hq).ok (ctxOk_start head compress))

/-- `unpack` as far as the questions. -/
lemma unpack_questions {head : Bytes} {q : Out} {w : Bytes}
    (hhead : MessageHeader.pack ⟨m.id, m.flags, m.questions.length, m.answers.length, m.authorities.length,
      m.additionals.length⟩ = some head)
    (hq : packEach Question.packInto m.questions head (if compress then some [] else none) = some q)
    (hw : q.1 <+: w) :
    DNS.unpack w = (do
      let (answers, off) ← readN ResourceRecord.unpack w m.answers.length q.1.length
      let (authorities, off) ← readN ResourceRecord.unpack w m.authorities.length off
      let (additionals, _) ← readN ResourceRecord.unpack w m.additionals.length off
      some { m with questions := m.questions.map fun q => { q with name := nameOf q.name }, answers,
                    authorities, additionals }) := by
  have hwrote := packEach_wrote (fun h => (question_packInto h).1) hq
  have hheader : MessageHeader.unpackFrom w 0 = _ := readsAt_header hhead w (hwrote.longer.trans hw)
  have hquestions : readN Question.unpack w m.questions.length head.length = _ :=
    questions_packInto hq (ctxOk_start head compress) w hw
  simp only [DNS.unpack, hheader, hquestions, Option.bind_eq_bind, Option.bind_some, Int.toNat_natCast]

/-- Nothing is read of a message cut inside its header or its questions. -/
lemma unpack_cut_early {head : Bytes} {q : Out} {w : Bytes}
    (hhead : MessageHeader.pack ⟨m.id, m.flags, m.questions.length, m.answers.length, m.authorities.length,
      m.additionals.length⟩ = some head)
    (hq : packEach Question.packInto m.questions head (if compress then some [] else none) = some q)
    (hw : q.1 <+: w) {i : Nat} (hi : i < q.1.length) : DNS.unpack (w.take i) = none := by
  have hwrote := packEach_wrote (fun h => (question_packInto h).1) hq
  have hheader := readsAt_header hhead
  by_cases hcut : i < head.length
  · have hnone : MessageHeader.unpackFrom (w.take i) 0 = none :=
      strict_header.cut hheader (hwrote.longer.trans hw) (Nat.zero_le i) hcut
    simp only [DNS.unpack, hnone, Option.bind_eq_bind, Option.bind_none]
  · have hin : head <+: w.take i :=
      List.prefix_take_iff.mpr ⟨hwrote.longer.trans hw, Nat.le_of_not_lt hcut⟩
    have hread : MessageHeader.unpackFrom (w.take i) 0 = _ := hheader _ hin
    have hnone : readN Question.unpack (w.take i) m.questions.length head.length = none :=
      (strict_readN strict_question m.questions.length).cut
        (questions_packInto hq (ctxOk_start head compress)) hw (Nat.le_of_not_lt hcut) hi
    simp only [DNS.unpack, hread, Option.bind_eq_bind, Option.bind_some, Int.toNat_natCast, hnone,
      Option.bind_none]

/-- Messages survive `pack` and `unpack`. The tables of a write are the initial segments of the last one:
entries are only ever added at the end. -/
theorem unpack_packInto {w : Bytes} {ctx : Option Table} (h : m.packInto compress = some (w, ctx))
    (hm : m.Ordinary) :
    DNS.unpack w = some m ∧
      ∀ table ∈ ctx, ∀ earlier, earlier <+: table →
        ∀ suffix off, Table.get earlier suffix = some off →
          off ≤ pointerLimit ∧ ∃ stop, decodeLabels w off = some (suffix.map decodeLabel, stop) ∧
            decodeName w off = some (joinLabels (suffix.map decodeLabel), stop) := by
  have hok := packInto_wrote h
  refine ⟨?_, fun table ht earlier hearlier suffix off hget => ?_⟩
  · obtain ⟨head, q, hhead, hq, hr⟩ := packInto_eq_some h
    have hq' := packEach_wrote (fun h => (question_packInto h).1) hq
    have hokq := hq'.ok (ctxOk_start head compress)
    rw [records, packEach_append, packEach_append, Option.bind_assoc] at hr
    obtain ⟨a, ha, hr⟩ := Option.bind_eq_some_iff.mp hr
    obtain ⟨b, hb, hr⟩ := Option.bind_eq_some_iff.mp hr
    have hwa := records_wrote ha
    have hwb := records_wrote hb
    have hwr := records_wrote hr
    have hplain : ∀ rec ∈ m.answers ++ m.authorities ++ m.additionals, Normal rec.name ∧ rec.data.Plain :=
      hm.records
    obtain ⟨answers, hanswers, heqa⟩ := records_whole ha hokq (hwb.longer.trans hwr.longer)
    obtain ⟨authorities, hauthorities, heqb⟩ := records_whole hb (hwa.ok hokq) hwr.longer
    obtain ⟨additionals, hadditionals, heqr⟩ :=
      records_whole hr (hwb.ok (hwa.ok hokq)) (List.prefix_refl _)
    have hnames : m.questions.map (fun q => { q with name := nameOf q.name }) = m.questions := by
      refine (List.map_congr_left fun q hq => ?_).trans (List.map_id' _)
      rw [nameOf_normal (hm.questions q hq)]
    rw [unpack_questions hhead hq (hwa.longer.trans (hwb.longer.trans hwr.longer)), hanswers, hnames]
    simp only [Option.bind_eq_bind, Option.bind_some, hauthorities, hadditionals]
    rw [heqa fun rec hrec => hplain rec (by simp [hrec]), heqb fun rec hrec => hplain rec (by simp [hrec]),
      heqr fun rec hrec => hplain rec (by simp [hrec])]
  · have hr := hok table ht _ (hearlier.subset (Table.get_eq_some hget))
    obtain ⟨stop, hname⟩ := hr.reads w (List.prefix_refl _)
    exact ⟨hr.limit, stop, decodeLabels_nameAt hr.legal hname, decodeName_nameAt hr.legal hname⟩

/-- An answer about mail, and the name server of its zone. -/
def mailAnswer : DNS where
  id := 7
  flags := { qr := 1, opcode := 0, aa := 1, tc := 0, rd := 1, ra := 0, z := 0, rcode := 0 }
  questions := [{ name := "mail.example", qtype := 15, qclass := 1 }]
  answers := [{ name := "mail.example", rclass := 1, ttl := 60, data := .mx 10 "a.mail.example" }]
  authorities := []
  additionals := [{ name := "a.mail.example", rclass := 1, ttl := 60, data := .ns "example" }]

lemma mailAnswer_ordinary : mailAnswer.Ordinary where
  questions q hq := by
    obtain rfl := List.mem_singleton.mp hq
    unfold Normal
    decide +kernel
  records rec hrec := by
    simp only [records, mailAnswer, List.append_nil, List.cons_append, List.nil_append, List.mem_cons,
      List.not_mem_nil, or_false] at hrec
    obtain rfl | rfl := hrec <;>
    · simp only [RData.Plain, Normal]
      decide +kernel

theorem unpack_packInto_mail : ∃ w, mailAnswer.pack true = some w ∧ DNS.unpack w = some mailAnswer := by
  have hsome : (mailAnswer.packInto true).isSome := by decide +kernel
  obtain ⟨⟨w, ctx⟩, h⟩ := Option.isSome_iff_exists.mp hsome
  exact ⟨w, by simp [pack, h], (unpack_packInto h mailAnswer_ordinary).1⟩

/-- A message that was cut is never accepted, if and only if its last record is not open. -/
theorem unpack_take_iff {w : Bytes} (h : m.pack compress = some w) :
    (∀ i < w.length, DNS.unpack (w.take i) = none) ↔ ∀ rec ∈ m.records.getLast?, ¬rec.data.Open := by
  obtain ⟨⟨w, ctx⟩, hpack, rfl⟩ := Option.map_eq_some_iff.mp h
  obtain ⟨head, q, hhead, hq, hr⟩ := packInto_eq_some hpack
  have hokq := (packEach_wrote (fun h => (question_packInto h).1) hq).ok (ctxOk_start head compress)
  have hpre : q.1 <+: w := (records_wrote hr).longer
  -- Past the questions `unpack` reads the records of all sections as one list.
  have hone : ∀ i, q.1.length ≤ i → (DNS.unpack (w.take i) = none ↔
      readN ResourceRecord.unpack (w.take i) m.records.length q.1.length = none) := by
    intro i hi
    rw [unpack_questions hhead hq (List.prefix_take_iff.mpr ⟨hpre, hi⟩), records, List.length_append,
      List.length_append, readN_add, readN_add]
    cases readN ResourceRecord.unpack (w.take i) m.answers.length q.1.length with
    | none => simp
    | some x =>
      simp only [Option.bind_eq_bind, Option.bind_some]
      cases readN ResourceRecord.unpack (w.take i) m.authorities.length x.2 with
      | none => simp
      | some y =>
        cases hz : readN ResourceRecord.unpack (w.take i) m.additionals.length y.2 <;> simp [hz]
  constructor
  · intro hall rec hlast hopen
    obtain ⟨i, hi, hi', x, hx⟩ := records_opened hr hokq hlast hopen
    rw [(hone i hi).mp (hall i hi')] at hx
    cases hx
  · intro hclosed i hi
    by_cases hearly : i < q.1.length
    · exact unpack_cut_early hhead hq hpre hearly
    · rw [hone i (Nat.le_of_not_lt hearly)]
      by_contra hne
      obtain ⟨x, hx⟩ := Option.ne_none_iff_exists'.mp hne
      obtain ⟨rec, hlast, hopen⟩ := records_cut hr hokq (Nat.le_of_not_lt hearly) hi hx
      exact hclosed rec hlast hopen

theorem unpack_take_mail : ∃ w, mailAnswer.pack true = some w ∧ ∀ i < w.length, DNS.unpack (w.take i) = none := by
  have hsome : (mailAnswer.pack true).isSome := by decide +kernel
  obtain ⟨w, h⟩ := Option.isSome_iff_exists.mp hsome
  refine ⟨w, h, (unpack_take_iff h).mpr fun rec hlast => ?_⟩
  obtain rfl : _ = rec := by simpa [records, mailAnswer] using hlast
  exact fun hopen => hopen

/-- An answer whose one record is a text. -/
def textAnswer (text : String) : DNS where
  id := 7
  flags := { qr := 1, opcode := 0, aa := 1, tc := 0, rd := 1, ra := 0, z := 0, rcode := 0 }
  questions := []
  answers := [{ name := "example", rclass := 1, ttl := 60, data := .txt [text.toUTF8.toList] }]
  authorities := []
  additionals := []

/-- Without its last byte the message is read as one with a shorter text. -/
theorem textAnswer_cut : ∃ w, (textAnswer "hi").pack true = some w ∧
    DNS.unpack (w.take (w.length - 1)) = some (textAnswer "h") := by
  have hcut : (((textAnswer "hi").pack true).bind fun w => DNS.unpack (w.take (w.length - 1))) =
      some (textAnswer "h") := by decide +kernel
  exact Option.bind_eq_some_iff.mp hcut

end DNS

end Rustruct

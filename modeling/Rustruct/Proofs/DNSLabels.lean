import Rustruct.Proofs.DNSWriting

/-!
# Names on the wire and as strings

Reading a name always ends, within the limits of names. The string of a name gives its labels back
unless a label has a dot in it.
-/

namespace Rustruct.DNS

/-- Whatever the buffer, the loop of `decode_name` ends, and a name it returns is within the limits. -/
theorem decodeName_ends (buf : Bytes) (start : Nat) :
    (∃ r, ∀ n ≥ nameBound buf,
      nameTurns buf n { off := start, resume := none, labels := [], wireLen := 1 } = some r) ∧
    ∀ name resume, decodeName buf start = some (name, resume) →
      (∃ labels, NameAt buf start labels resume ∧ name = joinLabels (labels.map decodeLabel) ∧
        1 + labelsWire labels ≤ maxNameWire ∧ ∀ label ∈ labels, 1 ≤ label.length ∧ label.length ≤ maxLabel) ∧
      start < resume ∧ resume ≤ buf.length := by
  constructor
  · obtain ⟨r, hr⟩ := nameTurns_start buf start
    exact ⟨r, fun n hn => nameTurns_mono hn hr⟩
  · intro name resume h
    obtain ⟨labels, hat, hlegal, hname⟩ := nameAt_of_decodeName h
    obtain ⟨hlt, hle, hall⟩ := hat.bounds
    exact ⟨⟨labels, hat, hname, hlegal.wire, hall⟩, hlt, hle⟩

/-- A label, then a pointer back to the name "b" at the start. -/
theorem decodeName_ends_pointer : decodeName [1, 0x62, 0, 1, 0x61, 0xC0, 0] 3 = some ("a.b", 7) ∧
    ∃ labels, NameAt [1, 0x62, 0, 1, 0x61, 0xC0, 0] 3 labels 7 ∧ labelsWire labels ≤ 254 := by
  have hread : decodeName [1, 0x62, 0, 1, 0x61, 0xC0, 0] 3 = some ("a.b", 7) := by decide +kernel
  obtain ⟨⟨labels, hat, -, hwire, -⟩, -⟩ := (decodeName_ends _ 3).2 _ _ hread
  unfold maxNameWire at hwire
  exact ⟨hread, labels, hat, by omega⟩

/-- A dot inside a label looks like the end of one. -/
def dot : Byte := 0x2E

lemma not_mem_of_mem_splitOn {α : Type} [BEq α] [LawfulBEq α] {x : α} {xs part : List α} (h : part ∈ xs.splitOn x) :
    x ∉ part := by
  induction xs generalizing part with
  | nil =>
    rw [List.splitOn_nil, List.mem_singleton] at h
    rw [h]
    exact List.not_mem_nil
  | cons y ys ih =>
    rw [List.splitOn, List.splitOnP_cons_eq_if_modifyHead] at h
    split_ifs at h with hy
    · rcases List.mem_cons.mp h with hhead | htail
      · rw [hhead]
        exact List.not_mem_nil
      · exact ih htail
    · obtain ⟨first, rest, hsplit⟩ := List.exists_cons_of_ne_nil (List.splitOnP_ne_nil (· == x) ys)
      rw [hsplit, List.modifyHead_cons] at h
      have hall : ∀ p ∈ first :: rest, x ∉ p := fun p hp => ih (by rw [List.splitOn, hsplit]; exact hp)
      rcases List.mem_cons.mp h with hhead | htail
      · rw [hhead, List.mem_cons, not_or]
        exact ⟨fun he => hy (by simp [he]), hall first List.mem_cons_self⟩
      · exact hall part (List.mem_cons_of_mem _ htail)

lemma latin1_toNat (b : Byte) : (Char.ofNat b.toNat).toNat = b.toNat := by
  have hall : ∀ n < 256, (Char.ofNat n).toNat = n := by decide +kernel
  exact hall b.toNat b.toNat_lt

lemma dot_mem_decodeLabel {label : Bytes} : '.' ∈ decodeLabel label ↔ dot ∈ label := by
  have hchar : ∀ b : Byte, Char.ofNat b.toNat = '.' ↔ b = dot := by
    intro b
    constructor
    · intro he
      have hnat := latin1_toNat b
      rw [he] at hnat
      exact UInt8.toNat_inj.mp hnat.symm
    · rintro rfl
      rfl
  simp only [decodeLabel, List.mem_map, hchar]
  constructor
  · rintro ⟨b, hb, rfl⟩
    exact hb
  · intro h
    exact ⟨dot, h, rfl⟩

lemma encode_decodeLabel (label : Bytes) : encode (String.ofList (decodeLabel label)) .latin1 = some label := by
  have hall : (decodeLabel label).all (fun c => c.toNat ≤ 0xFF) = true := by
    rw [List.all_eq_true]
    intro c hc
    obtain ⟨b, -, rfl⟩ := List.mem_map.mp hc
    have hlt := b.toNat_lt
    rw [latin1_toNat, decide_eq_true_eq]
    omega
  rw [encode, String.toList_ofList, if_pos hall, decodeLabel, List.map_map]
  have hid : label.map ((fun c : Char => UInt8.ofNat c.toNat) ∘ fun b : Byte => Char.ofNat b.toNat) = label := by
    conv_rhs => rw [← List.map_id label]
    apply List.map_congr_left
    intro b _
    rw [Function.comp_apply, latin1_toNat, UInt8.ofNat_toNat]
    rfl
  rw [hid]

lemma mapM_encode (labels : List Bytes) :
    ((labels.map decodeLabel).mapM fun part => encode (String.ofList part) .latin1) = some labels := by
  induction labels with
  | nil => rfl
  | cons label labels ih =>
    rw [List.map_cons, List.mapM_cons, encode_decodeLabel, ih]
    rfl

lemma toList_joinLabels (labels : List Bytes) :
    (joinLabels (labels.map decodeLabel)).toList = ['.'].intercalate (labels.map decodeLabel) := by
  rw [joinLabels, String.toList_ofList]

/-- The last character of a name is that of its last label. -/
lemma getLast?_joinLabels {labels : List Bytes} (hne : labels ≠ []) (hpos : ∀ label ∈ labels, 1 ≤ label.length)
    (h : ∀ label ∈ labels, dot ∉ label) :
    ∃ c, (['.'].intercalate (labels.map decodeLabel)).getLast? = some c ∧ c ≠ '.' := by
  induction labels with
  | nil => exact absurd rfl hne
  | cons label rest ih =>
    cases rest with
    | nil =>
      have hlen : (decodeLabel label).length = label.length := List.length_map _
      have hlabel : decodeLabel label ≠ [] := by
        have hpos := hpos label List.mem_cons_self
        rw [← hlen] at hpos
        exact List.ne_nil_of_length_pos hpos
      refine ⟨(decodeLabel label).getLast hlabel, ?_, ?_⟩
      · rw [List.map_singleton, List.intercalate_singleton, List.getLast?_eq_some_getLast hlabel]
      · intro he
        have hmem := List.getLast_mem hlabel
        rw [he] at hmem
        exact h label List.mem_cons_self (dot_mem_decodeLabel.mp hmem)
    | cons next rest =>
      obtain ⟨c, hlast, hc⟩ := ih (List.cons_ne_nil _ _) (fun l hl => hpos l (List.mem_cons_of_mem _ hl))
        (fun l hl => h l (List.mem_cons_of_mem _ hl))
      rw [List.map_cons] at hlast
      refine ⟨c, ?_, hc⟩
      rw [List.map_cons, List.map_cons, List.intercalate_cons_cons, List.getLast?_append, hlast, Option.some_or]

/-- Labels without a dot come back from their string. -/
lemma encodeLabels_joinLabels {labels : List Bytes} (hl : Legal labels) (h : ∀ label ∈ labels, dot ∉ label) :
    encodeLabels (joinLabels (labels.map decodeLabel)) = some labels := by
  have hlegal : (∀ label ∈ labels, 1 ≤ label.length ∧ label.length ≤ maxLabel) ∧
      1 + labelsWire labels ≤ maxNameWire := ⟨fun label hlabel => ⟨hl.pos label hlabel, hl.short label hlabel⟩, hl.wire⟩
  unfold encodeLabels
  rw [toList_joinLabels]
  by_cases hne : labels = []
  · subst hne
    rfl
  · obtain ⟨c, hlast, hc⟩ := getLast?_joinLabels hne hl.pos h
    have hchars : ['.'].intercalate (labels.map decodeLabel) ≠ [] := by
      intro he
      rw [he] at hlast
      cases hlast
    have hparts : (['.'].intercalate (labels.map decodeLabel)).splitOn '.' = labels.map decodeLabel := by
      apply List.splitOn_intercalate
      · intro part hpart
        obtain ⟨label, hlabel, rfl⟩ := List.mem_map.mp hpart
        exact fun hmem => h label hlabel (dot_mem_decodeLabel.mp hmem)
      · simpa using hne
    have hkeep : ¬(['.'].intercalate (labels.map decodeLabel)).getLast? = some '.' := by
      rw [hlast]
      exact fun he => hc (Option.some.inj he)
    dsimp only
    rw [if_neg hkeep, if_neg hchars, hparts, mapM_encode]
    exact if_pos hlegal

/-- No label has a dot in it when labels come from a string. -/
lemma dot_not_mem_of_encodeLabels {value : String} {labels : List Bytes} (h : encodeLabels value = some labels) :
    ∀ label ∈ labels, dot ∉ label := by
  simp only [encodeLabels, Option.bind_eq_bind, Option.bind_eq_some_iff] at h
  obtain ⟨labels', hlabels, h⟩ := h
  split_ifs at h with hlegal
  cases h
  intro label hlabel hdot
  generalize (if value.toList.getLast? = some '.' then value.toList.dropLast else value.toList) = stripped at hlabels
  split_ifs at hlabels with hempty
  · cases hlabels
    cases hlabel
  · have hparts := decodeLabel_mapM hlabels
    have hmem : decodeLabel label ∈ stripped.splitOn '.' := by
      rw [← hparts]
      exact List.mem_map_of_mem hlabel
    exact not_mem_of_mem_splitOn hmem (dot_mem_decodeLabel.mpr hdot)

/-- Names without dots in their labels have different strings. -/
lemma joinLabels_injective {labels labels' : List Bytes} (hl : Legal labels) (hl' : Legal labels')
    (h : ∀ label ∈ labels, dot ∉ label) (h' : ∀ label ∈ labels', dot ∉ label)
    (he : joinLabels (labels.map decodeLabel) = joinLabels (labels'.map decodeLabel)) : labels = labels' := by
  have hback := encodeLabels_joinLabels hl h
  rw [he, encodeLabels_joinLabels hl' h'] at hback
  exact (Option.some.inj hback).symm

/-- A name that was written uncompressed is read as its labels. -/
lemma decodeName_written {labels : List Bytes} (hl : Legal labels) (before after : Bytes) :
    decodeName ((writeName before labels none).1 ++ after) before.length =
      some (joinLabels (labels.map decodeLabel), (writeName before labels none).1.length) := by
  obtain ⟨-, -, hreads⟩ := writeName_none before hl
  exact decodeName_nameAt hl (hreads ((writeName before labels none).1 ++ after) (List.prefix_append _ _))

/-- Reading a name that was written uncompressed and taking its string apart again gives the labels back
exactly when none of them has a dot in it. Two such names that read the same are the same. -/
theorem decodeName_lossless_iff {labels : List Bytes} (hl : Legal labels) (before after : Bytes) :
    (∃ s stop, decodeName ((writeName before labels none).1 ++ after) before.length = some (s, stop)) ∧
    ((∀ s stop, decodeName ((writeName before labels none).1 ++ after) before.length = some (s, stop) →
        encodeLabels s = some labels) ↔
      ∀ label ∈ labels, dot ∉ label) ∧
    ((∀ label ∈ labels, dot ∉ label) → ∀ labels', Legal labels' → (∀ label ∈ labels', dot ∉ label) →
      ∀ before' after' s stop stop',
        decodeName ((writeName before labels none).1 ++ after) before.length = some (s, stop) →
        decodeName ((writeName before' labels' none).1 ++ after') before'.length = some (s, stop') →
        labels = labels') := by
  have hread := decodeName_written hl before after
  refine ⟨⟨_, _, hread⟩, ⟨?_, ?_⟩, ?_⟩
  · intro hall
    exact dot_not_mem_of_encodeLabels (hall _ _ hread)
  · intro hdots s stop hs
    rw [hread] at hs
    cases hs
    exact encodeLabels_joinLabels hl hdots
  · intro hdots labels' hl' hdots' before' after' s stop stop' hs hs'
    rw [hread] at hs
    rw [decodeName_written hl' before' after'] at hs'
    cases hs
    exact joinLabels_injective hl hl' hdots hdots' (Prod.mk.inj (Option.some.inj hs')).1.symm

/-- The name of the labels 0xFF and "a". -/
theorem decodeName_lossless_latin1 :
    decodeName [1, 0xFF, 1, 0x61, 0] 0 = some ("\u00ff.a", 5) ∧
      encodeLabels "\u00ff.a" = some [[0xFF], [0x61]] := by
  have hlegal : Legal [[0xFF], [0x61]] := ⟨by decide, by decide, by decide⟩
  have hread : decodeName [1, 0xFF, 1, 0x61, 0] 0 = some ("\u00ff.a", 5) := by decide +kernel
  exact ⟨hread, (decodeName_lossless_iff hlegal [] []).2.1.mpr (by decide) _ _ hread⟩

/-- The label "a.b" reads as the labels "a" and "b". -/
theorem decodeName_dotted : Legal [[0x61, 0x2E, 0x62]] ∧
    decodeName [3, 0x61, 0x2E, 0x62, 0] 0 = some ("a.b", 5) ∧ decodeName [1, 0x61, 1, 0x62, 0] 0 = some ("a.b", 5) ∧
    encodeLabels "a.b" = some [[0x61], [0x62]] ∧
    ¬∀ s stop, decodeName ((writeName [] [[0x61, 0x2E, 0x62]] none).1 ++ []) 0 = some (s, stop) →
      encodeLabels s = some [[0x61, 0x2E, 0x62]] := by
  have hread : decodeName [3, 0x61, 0x2E, 0x62, 0] 0 = some ("a.b", 5) := by decide +kernel
  have hsplit : encodeLabels "a.b" = some [[0x61], [0x62]] := by decide +kernel
  refine ⟨⟨by decide, by decide, by decide⟩, hread, by decide +kernel, hsplit, ?_⟩
  intro h
  have hback := h "a.b" 5 hread
  rw [hsplit] at hback
  exact absurd hback (by decide)

end Rustruct.DNS

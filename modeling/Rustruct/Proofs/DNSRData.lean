import Rustruct.Proofs.DNSWriters

/-!
# Reading RDATA back

What each RDATA class reads from a message that goes on after its record, and from one that is cut
inside it. Most classes notice a cut: those that end in a slice up to the end of the record do not.
-/

namespace Rustruct.DNS

section Strict

variable {α β : Type}

/-- What it reads it reads from every longer buffer too, and it ends inside the buffer. -/
structure Strict (read : Bytes → Nat → Option (α × Nat)) : Prop where
  mono : ∀ {b b' : Bytes} {off : Nat} {r : α × Nat}, b <+: b' → read b off = some r → read b' off = some r
  inside : ∀ {b : Bytes} {off stop : Nat} {x : α}, off ≤ b.length → read b off = some (x, stop) →
    stop ≤ b.length

/-- From every continuation of `out'`, `x` is read at the end of `out`. -/
def ReadsAt (read : Bytes → Nat → Option (α × Nat)) (out out' : Bytes) (x : α) : Prop :=
  ∀ w, out' <+: w → read w out.length = some (x, out'.length)

/-- One reader after the other. -/
def readBoth (read : Bytes → Nat → Option (α × Nat)) (next : Bytes → Nat → Option (β × Nat)) (b : Bytes)
    (off : Nat) : Option ((α × β) × Nat) :=
  (read b off).bind fun r => (next b r.2).map fun r' => ((r.1, r'.1), r'.2)

variable {read : Bytes → Nat → Option (α × Nat)} {next : Bytes → Nat → Option (β × Nat)}

lemma Strict.both (hr : Strict read) (hn : Strict next) : Strict (readBoth read next) where
  mono hb h := by
    obtain ⟨r, hread, h⟩ := Option.bind_eq_some_iff.mp h
    obtain ⟨r', hnext, rfl⟩ := Option.map_eq_some_iff.mp h
    rw [readBoth, hr.mono hb hread, Option.bind_some, hn.mono hb hnext, Option.map_some]
  inside hoff h := by
    obtain ⟨r, hread, h⟩ := Option.bind_eq_some_iff.mp h
    obtain ⟨r', hnext, h⟩ := Option.map_eq_some_iff.mp h
    cases h
    exact hn.inside (hr.inside hoff hread) hnext

lemma ReadsAt.both {out mid out' : Bytes} {x : α} {y : β} (hr : ReadsAt read out mid x)
    (hn : ReadsAt next mid out' y) (hpre : mid <+: out') : ReadsAt (readBoth read next) out out' (x, y) := by
  intro w hw
  rw [readBoth, hr w (hpre.trans hw), Option.bind_some, hn w hw, Option.map_some]

/-- Cut short it raises. -/
lemma Strict.cut (hr : Strict read) {out out' : Bytes} {x : α} (hread : ReadsAt read out out' x) {w : Bytes}
    (hw : out' <+: w) {i : Nat} (hi : out.length ≤ i) (hi' : i < out'.length) :
    read (w.take i) out.length = none := by
  have hlen := hw.length_le
  cases h : read (w.take i) out.length with
  | none => rfl
  | some r =>
    obtain ⟨y, stop⟩ := r
    have hin := hr.inside (by rw [List.length_take]; omega) h
    have hfull := hr.mono (List.take_prefix i w) h
    rw [hread w hw] at hfull
    cases hfull
    rw [List.length_take] at hin
    omega

lemma strict_name : Strict decodeName where
  mono hb h := decodeName_longer hb h
  inside _ h := decodeName_le h

lemma strict_uint (w : Nat) : Strict (unpackUint w) where
  mono {b b' off r} hb h := by
    obtain ⟨v, stop⟩ := r
    obtain ⟨hle, rfl⟩ := unpackUint_eq_some h
    have hslice := pySlice_longer hb hle
    rw [pySlice_add, pySlice_add] at hslice
    rw [unpackUint, if_pos hle] at h
    rw [unpackUint, if_pos (Nat.le_trans hle hb.length_le), hslice, h]
  inside _ h := by
    obtain ⟨hle, rfl⟩ := unpackUint_eq_some h
    exact hle

lemma strict_uints (ws : List Nat) : Strict (unpackUints ws) where
  mono {b b' off r} hb h := by
    induction ws generalizing off r with
    | nil => exact h
    | cons w ws ih =>
      simp only [unpackUints, Option.bind_eq_bind, Option.bind_eq_some_iff] at h ⊢
      obtain ⟨x, hx, y, hy, h⟩ := h
      exact ⟨x, (strict_uint w).mono hb hx, y, ih hy, h⟩
  inside hoff h := (unpackUints_eq_some h).2 hoff

lemma readsAt_uint (out : Bytes) {w : Nat} {v : Int} {b : Bytes} (h : packUint w v = some b) :
    ReadsAt (unpackUint w) out (out ++ b) v := by
  intro buf hb
  rw [unpackUint_packUint h hb, List.length_append, packUint_length h]

lemma readsAt_uints (out : Bytes) {fields : List (Nat × Int)} {b : Bytes} (h : packUints fields = some b) :
    ReadsAt (unpackUints (fields.map Prod.fst)) out (out ++ b) (fields.map Prod.snd) :=
  fun _ hb => unpackUints_packUints out h hb

lemma readsAt_name {value : String} {out : Bytes} {ctx : Option Table} {r : Out}
    (h : packName value out ctx = some r) (hok : CtxOk out ctx) :
    ReadsAt decodeName out r.1 (nameOf value) := (packName_wrote h).2 hok

lemma readsAt_plainName {value : String} {out out' : Bytes} (h : packPlainName value out = some out') :
    ReadsAt decodeName out out' (nameOf value) := (packPlainName_reads h).2

end Strict

/-- RDATA that `unpack` gives back as it was: the classes of names and numbers with names in normal
form, and raw data. -/
def RData.Plain : RData → Prop
  | .ns target | .cname target | .ptr target | .dname target => Normal target
  | .mx _ exchange => Normal exchange
  | .soa mname rname .. => Normal mname ∧ Normal rname
  | .srv _ _ _ target => Normal target
  | .rp mbox text => Normal mbox ∧ Normal text
  | .unknown _ => True
  | _ => False

/-- RDATA whose class ends in a slice up to the end of the record, and the slice is not empty. -/
def RData.Open : RData → Prop
  | .ds _ _ _ rest | .dnskey _ _ _ rest | .tlsa _ _ _ rest | .sshfp _ _ rest
  | .rrsig _ _ _ _ _ _ _ _ rest => rest ≠ []
  | .caa _ _ value => value ≠ ""
  | .nsec _ rrtypes => rrtypes ≠ []
  | .https _ _ params => ∃ param ∈ params.getLast?, param.2 ≠ []
  | .txt strings => ∃ s ∈ strings.getLast?, s ≠ []
  | .unknown d => d.data ≠ []
  | _ => False

/-- What `unpack_rdata` makes of data written between `out` and `out'`, whole and cut short. -/
structure Recovered (data : RData) (out out' : Bytes) : Prop where
  whole : ∀ w, out' <+: w → ∃ data', unpackRData data.rtype w out.length (out'.length - out.length) = some data' ∧
    (data.Plain → data' = data)
  closed : ¬data.Open → ∀ i, out.length ≤ i → i < out'.length →
    unpackRData data.rtype (out'.take i) out.length (out'.length - out.length) = none
  opened : data.Open → ∃ i, out.length ≤ i ∧ i < out'.length ∧
    ∃ data', unpackRData data.rtype (out'.take i) out.length (out'.length - out.length) = some data'

/-- The registry finds the class of a type. -/
lemma ofRType_rtype (kind : RDataKind) : RDataKind.ofRType kind.rtype = some kind := by
  cases kind <;> decide

lemma unpackRData_kind (kind : RDataKind) (buf : Bytes) (off length : Nat) :
    unpackRData kind.rtype buf off length = kind.unpack buf off length := by
  unfold unpackRData
  split
  · rename_i h
    rw [ofRType_rtype] at h
    cases h
  · rename_i kind' h
    rw [ofRType_rtype] at h
    cases h
    rfl

lemma unpackRData_unknown (d : UnknownRData) (buf : Bytes) (off length : Nat) :
    unpackRData d.rtype buf off length = some (.unknown { d with data := pySlice buf off (off + length) }) := by
  unfold unpackRData
  split
  · rfl
  · rename_i kind h
    rw [d.unregistered] at h
    cases h

section Classes

variable {data : RData} {out out' : Bytes}

/-- A class that is one strict reader. -/
lemma recovered_strict {α : Type} (kind : RDataKind) (mk : α → RData)
    {read : Bytes → Nat → Option (α × Nat)} {x : α} (hkind : data.rtype = kind.rtype)
    (hunpack : ∀ b off length, kind.unpack b off length = (read b off).map fun r => mk r.1)
    (hr : Strict read) (hx : ReadsAt read out out' x) (hplain : data.Plain → mk x = data)
    (hopen : ¬data.Open) : Recovered data out out' where
  whole w hw := by
    refine ⟨mk x, ?_, hplain⟩
    rw [hkind, unpackRData_kind, hunpack, hx w hw, Option.map_some]
  closed _ i hi hi' := by
    rw [hkind, unpackRData_kind, hunpack, hr.cut hx (List.prefix_refl _) hi hi', Option.map_none]
  opened h := absurd h hopen

/-- A strict reader, then a slice up to the end of the record. -/
lemma recovered_tail {α β : Type} (kind : RDataKind) (mid : Bytes) (tail : Bytes → Nat → Nat → Option β)
    (mk : α → β → RData) {read : Bytes → Nat → Option (α × Nat)} {x : α}
    (hkind : data.rtype = kind.rtype)
    (hunpack : ∀ b off length, kind.unpack b off length =
      (read b off).bind fun r => (tail b (off + length) r.2).map (mk r.1))
    (hr : Strict read) (hx : ReadsAt read out mid x) (hout : out <+: mid) (hmid : mid <+: out')
    (hplain : ¬data.Plain)
    (hwhole : ∀ w, out' <+: w → ∃ y, tail w out'.length mid.length = some y)
    (hclosed : ¬data.Open → ∀ i, mid.length ≤ i → i < out'.length →
      tail (out'.take i) out'.length mid.length = none)
    (hopened : data.Open → mid.length < out'.length ∧
      ∃ y, tail (out'.take (out'.length - 1)) out'.length mid.length = some y) :
    Recovered data out out' := by
  have hlen := hmid.length_le
  have hlen' := hout.length_le
  have hstop : out.length + (out'.length - out.length) = out'.length := by omega
  refine ⟨fun w hw => ?_, fun hopen i hi hi' => ?_, fun hopen => ?_⟩
  · obtain ⟨y, hy⟩ := hwhole w hw
    refine ⟨mk x y, ?_, fun h => absurd h hplain⟩
    rw [hkind, unpackRData_kind, hunpack, hx w (hmid.trans hw), Option.bind_some, hstop, hy, Option.map_some]
  · rw [hkind, unpackRData_kind, hunpack]
    by_cases hcut : i < mid.length
    · rw [hr.cut hx hmid hi hcut]
      rfl
    · have hin : mid <+: out'.take i := List.prefix_take_iff.mpr ⟨hmid, by omega⟩
      rw [hx _ hin, Option.bind_some, hstop, hclosed hopen i (by omega) hi']
      rfl
  · obtain ⟨hlt, y, hy⟩ := hopened hopen
    have hin : mid <+: out'.take (out'.length - 1) := List.prefix_take_iff.mpr ⟨hmid, by omega⟩
    refine ⟨out'.length - 1, by omega, by omega, mk x y, ?_⟩
    rw [hkind, unpackRData_kind, hunpack, hx _ hin, Option.bind_some, hstop, hy, Option.map_some]

/-- A class that reads its own bytes only. -/
lemma recovered_raw (kind : RDataKind) (parse : Bytes → Option RData) {body : Bytes} (hkind : data.rtype = kind.rtype)
    (hunpack : ∀ b off length, kind.unpack b off length = parse (pySlice b off (off + length)))
    (hplain : ¬data.Plain) (hwhole : ∃ y, parse body = some y)
    (hclosed : ¬data.Open → ∀ k < body.length, parse (body.take k) = none)
    (hopened : data.Open → ∃ k < body.length, ∃ y, parse (body.take k) = some y) :
    Recovered data out (out ++ body) := by
  have hlength : (out ++ body).length - out.length = body.length := by simp
  have hslice : ∀ w, out ++ body <+: w → pySlice w out.length (out.length + body.length) = body := by
    rintro w ⟨t, rfl⟩
    rw [pySlice_add, List.append_assoc, List.drop_left' rfl, List.take_left' rfl]
  have hcut : ∀ k, pySlice ((out ++ body).take (out.length + k)) out.length (out.length + body.length) =
      body.take k := by
    intro k
    rw [List.take_length_add_append, pySlice_add, List.drop_left' rfl, List.take_take]
    rw [List.take_eq_take_iff]
    omega
  refine ⟨fun w hw => ?_, fun hopen i hi hi' => ?_, fun hopen => ?_⟩
  · obtain ⟨y, hy⟩ := hwhole
    refine ⟨y, ?_, fun h => absurd h hplain⟩
    rw [hkind, unpackRData_kind, hunpack, hlength, hslice w hw, hy]
  · obtain ⟨k, rfl⟩ := Nat.exists_eq_add_of_le hi
    rw [List.length_append] at hi'
    rw [hkind, unpackRData_kind, hunpack, hlength, hcut, hclosed hopen k (by omega)]
  · obtain ⟨k, hk, y, hy⟩ := hopened hopen
    refine ⟨out.length + k, Nat.le_add_right _ _, by rw [List.length_append]; omega, y, ?_⟩
    rw [hkind, unpackRData_kind, hunpack, hlength, hcut, hy]

end Classes

lemma unpackUints_exact {fields : List (Nat × Int)} {b : Bytes} (rest : Bytes) (h : packUints fields = some b) :
    unpackUints (fields.map Prod.fst) (b ++ rest) 0 = some (fields.map Prod.snd, b.length) := by
  simpa using unpackUints_packUints [] h (List.prefix_append b rest)

lemma unpackUints_take (ws : List Nat) {b : Bytes} {k : Nat} (h : k < ws.sum) :
    unpackUints ws (b.take k) 0 = none := by
  refine unpackUints_short (Nat.zero_le _) ?_
  rw [List.length_take]
  omega

section Greedy

variable {fields : List (Nat × Int)} {b rest : Bytes}

lemma unpackGreedy_whole (h : packUints fields = some b) :
    unpackGreedy (fields.map Prod.fst) (b ++ rest) = some (fields.map Prod.snd, rest) := by
  rw [unpackGreedy, unpackUints_exact _ h]
  simp

lemma unpackGreedy_values {ws : List Nat} {raw : Bytes} {vs : List Int}
    (h : unpackGreedy ws raw = some (vs, rest)) : vs.length = ws.length := by
  simp only [unpackGreedy, Option.bind_eq_bind, Option.bind_eq_some_iff, Option.some.injEq,
    Prod.mk.injEq] at h
  obtain ⟨x, hx, rfl, -⟩ := h
  exact unpackUints_values hx

lemma unpackGreedy_closed {ws : List Nat} {k : Nat} (hk : k < ws.sum) : unpackGreedy ws (b.take k) = none := by
  rw [unpackGreedy, unpackUints_take _ hk]
  rfl

lemma unpackGreedy_opened (h : packUints fields = some b) (k : Nat) :
    unpackGreedy (fields.map Prod.fst) ((b ++ rest).take (b.length + k)) =
      some (fields.map Prod.snd, rest.take k) := by
  rw [List.take_length_add_append, unpackGreedy_whole h]

/-- The classes that are a `Struct` of numbers and greedy bytes. -/
lemma recovered_greedy {data : RData} {out : Bytes} (kind : RDataKind)
    (mk : List Int → Bytes → Option RData) (hkind : data.rtype = kind.rtype)
    (hunpack : ∀ b off length, kind.unpack b off length =
      (unpackGreedy (fields.map Prod.fst) (pySlice b off (off + length))).bind fun r => mk r.1 r.2)
    (h : packUints fields = some b) (hmk : ∀ rest, ∃ y, mk (fields.map Prod.snd) rest = some y)
    (hplain : ¬data.Plain) (hopen : data.Open ↔ rest ≠ []) : Recovered data out (out ++ (b ++ rest)) := by
  refine recovered_raw kind (fun raw =>
    (unpackGreedy (fields.map Prod.fst) raw).bind fun r => mk r.1 r.2) hkind hunpack hplain ?_ ?_ ?_
  · simp only [unpackGreedy_whole h, Option.bind_some]
    exact hmk rest
  · intro hclosed k hk
    have hrest : rest = [] := not_not.mp fun hne => hclosed (hopen.mpr hne)
    rw [hrest, List.append_nil, packUints_length h] at hk
    simp only [unpackGreedy_closed hk, Option.bind_none]
  · intro hopened
    have hpos := List.length_pos_of_ne_nil (hopen.mp hopened)
    refine ⟨b.length + (rest.length - 1), by rw [List.length_append]; omega, ?_⟩
    simp only [unpackGreedy_opened h, Option.bind_some]
    exact hmk _

/-- The classes that are a `Struct` of numbers. -/
lemma recovered_exact {data : RData} {out : Bytes} (kind : RDataKind) (mk : List Int → Option RData)
    (hkind : data.rtype = kind.rtype)
    (hunpack : ∀ b off length, kind.unpack b off length =
      (unpackUints (fields.map Prod.fst) (pySlice b off (off + length)) 0).bind fun r =>
        if r.2 = (pySlice b off (off + length)).length then mk r.1 else none)
    (h : packUints fields = some b) (hmk : ∃ y, mk (fields.map Prod.snd) = some y)
    (hplain : ¬data.Plain) (hopen : ¬data.Open) : Recovered data out (out ++ b) := by
  refine recovered_raw kind (fun raw => (unpackUints (fields.map Prod.fst) raw 0).bind fun r =>
    if r.2 = raw.length then mk r.1 else none) hkind hunpack hplain ?_ ?_ fun h => absurd h hopen
  · have hread := unpackUints_exact [] h
    rw [List.append_nil] at hread
    simp only [hread, Option.bind_some, if_pos]
    exact hmk
  · intro _ k hk
    rw [packUints_length h] at hk
    simp only [unpackUints_take _ hk, Option.bind_none]

end Greedy

end Rustruct.DNS

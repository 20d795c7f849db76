import Rustruct.Protocols.DNS
import Rustruct.Proofs.DNSWriting

/-!
# The parts of RDATA

What each part of a record leaves in the output, and what is read there: fixed-width fields, counted
strings, bitmaps and parameters.
-/

namespace Rustruct.DNS

section Uints

variable {w : Nat} {v : Int} {b buf out : Bytes}

lemma packUint_eq_some (h : packUint w v = some b) :
    0 ≤ v ∧ v < 2 ^ (w * 8) ∧ b = uintBytes w true v.toNat := by
  unfold packUint at h
  split_ifs at h with hv
  exact ⟨hv.1, hv.2, (Option.some.inj h).symm⟩

lemma packUint_length (h : packUint w v = some b) : b.length = w := by
  obtain ⟨-, -, rfl⟩ := packUint_eq_some h
  exact uintBytes_length w true _

lemma unpackUint_packUint (h : packUint w v = some b) (hb : out ++ b <+: buf) :
    unpackUint w buf out.length = some (v, out.length + w) := by
  have hlen := packUint_length h
  have hle := hb.length_le
  rw [List.length_append, hlen] at hle
  obtain ⟨hv, hlt, rfl⟩ := packUint_eq_some h
  obtain ⟨t, rfl⟩ := hb
  have htake : ((out ++ uintBytes w true v.toNat ++ t).drop out.length).take w =
      uintBytes w true v.toNat := by
    rw [List.append_assoc, List.drop_left' rfl, List.take_left' hlen]
  have hnat : v.toNat < 256 ^ w := by
    have hpow : (2 : Int) ^ (w * 8) = ((256 ^ w : Nat) : Int) := by
      rw [show 256 = 2 ^ 8 from rfl, ← pow_mul, Nat.mul_comm 8 w]
      norm_cast
    omega
  rw [unpackUint, if_pos hle, htake, readUint_uintBytes true hnat, Int.toNat_of_nonneg hv]

lemma unpackUint_eq_some {off stop : Nat} (h : unpackUint w buf off = some (v, stop)) :
    off + w ≤ buf.length ∧ stop = off + w := by
  unfold unpackUint at h
  split_ifs at h with hle
  cases h
  exact ⟨hle, rfl⟩

lemma packUints_length {fields : List (Nat × Int)} (h : packUints fields = some b) :
    b.length = (fields.map Prod.fst).sum := by
  induction fields generalizing b with
  | nil =>
    cases h
    rfl
  | cons field fields ih =>
    obtain ⟨w, v⟩ := field
    simp only [packUints, Option.bind_eq_bind, Option.bind_eq_some_iff, Option.some.injEq] at h
    obtain ⟨first, hfirst, rest, hrest, rfl⟩ := h
    simp [packUint_length hfirst, ih hrest]

/-- What `packUints` wrote, `unpackUints` reads. -/
lemma unpackUints_packUints (out : Bytes) {fields : List (Nat × Int)} (h : packUints fields = some b)
    (hb : out ++ b <+: buf) :
    unpackUints (fields.map Prod.fst) buf out.length = some (fields.map Prod.snd, (out ++ b).length) := by
  induction fields generalizing b out with
  | nil =>
    cases h
    simp [unpackUints]
  | cons field fields ih =>
    obtain ⟨w, v⟩ := field
    simp only [packUints, Option.bind_eq_bind, Option.bind_eq_some_iff, Option.some.injEq] at h
    obtain ⟨first, hfirst, rest, hrest, rfl⟩ := h
    rw [← List.append_assoc] at hb ⊢
    have hread := unpackUint_packUint hfirst ((List.prefix_append _ _).trans hb)
    have hmore := ih _ hrest hb
    rw [List.length_append, packUint_length hfirst] at hmore
    simp [unpackUints, hread, hmore, packUint_length hfirst]

lemma unpackUints_eq_some {ws : List Nat} {off stop : Nat} {vs : List Int}
    (h : unpackUints ws buf off = some (vs, stop)) :
    stop = off + ws.sum ∧ (off ≤ buf.length → stop ≤ buf.length) := by
  induction ws generalizing off vs with
  | nil =>
    cases h
    exact ⟨rfl, fun h => h⟩
  | cons w ws ih =>
    simp only [unpackUints, Option.bind_eq_bind, Option.bind_eq_some_iff, Option.some.injEq,
      Prod.mk.injEq, Prod.exists] at h
    obtain ⟨v, mid, hv, vs', stop', hvs, -, rfl⟩ := h
    obtain ⟨hle, rfl⟩ := unpackUint_eq_some hv
    obtain ⟨hstop, hin⟩ := ih hvs
    refine ⟨?_, fun _ => hin hle⟩
    rw [hstop, List.sum_cons, Nat.add_assoc]

lemma unpackUints_values {ws : List Nat} {off stop : Nat} {vs : List Int}
    (h : unpackUints ws buf off = some (vs, stop)) : vs.length = ws.length := by
  induction ws generalizing off vs with
  | nil =>
    cases h
    rfl
  | cons w ws ih =>
    simp only [unpackUints, Option.bind_eq_bind, Option.bind_eq_some_iff, Option.some.injEq,
      Prod.mk.injEq, Prod.exists] at h
    obtain ⟨v, mid, -, vs', stop', hvs, rfl, rfl⟩ := h
    rw [List.length_cons, List.length_cons, ih hvs]

lemma values_succ {vs : List Int} {n : Nat} (h : vs.length = n + 1) :
    ∃ v rest, rest.length = n ∧ vs = v :: rest := by
  obtain ⟨v, rest, rfl⟩ := List.exists_of_length_succ vs h
  exact ⟨v, rest, Nat.succ.inj h, rfl⟩

lemma values_four {vs : List Int} (h : vs.length = 4) : ∃ a b c d, vs = [a, b, c, d] := by
  obtain ⟨a, rest, hrest, rfl⟩ := values_succ h
  obtain ⟨b, c, d, rfl⟩ := List.length_eq_three.mp hrest
  exact ⟨a, b, c, d, rfl⟩

lemma values_five {vs : List Int} (h : vs.length = 5) : ∃ a b c d e, vs = [a, b, c, d, e] := by
  obtain ⟨a, rest, hrest, rfl⟩ := values_succ h
  obtain ⟨b, c, d, e, rfl⟩ := values_four hrest
  exact ⟨a, b, c, d, e, rfl⟩

lemma values_seven {vs : List Int} (h : vs.length = 7) :
    ∃ a b c d e f g, vs = [a, b, c, d, e, f, g] := by
  obtain ⟨a, rest, hrest, rfl⟩ := values_succ h
  obtain ⟨b, rest', hrest', rfl⟩ := values_succ hrest
  obtain ⟨c, d, e, f, g, rfl⟩ := values_five hrest'
  exact ⟨a, b, c, d, e, f, g, rfl⟩

lemma unpackUints_short {ws : List Nat} {off : Nat} (hoff : off ≤ buf.length)
    (h : buf.length < off + ws.sum) : unpackUints ws buf off = none := by
  cases hr : unpackUints ws buf off with
  | none => rfl
  | some r =>
    obtain ⟨vs, stop⟩ := r
    obtain ⟨hstop, hin⟩ := unpackUints_eq_some hr
    have := hin hoff
    omega

end Uints

/-- Headers and what follows them. -/
def chunksWire (chunks : List (Bytes × Bytes)) : Bytes := chunks.flatMap fun c => c.1 ++ c.2

lemma length_chunks (out : Bytes) (chunks : List (Bytes × Bytes)) :
    (out ++ chunksWire chunks).length = out.length + (chunksWire chunks).length := List.length_append

section Chunks

variable {α : Type} {head : Nat} {header : Bytes → Nat → Option (Nat × (Bytes → α))}

/-- From the header of the chunk its length is read, and from its content `x`. -/
structure Chunk (head : Nat) (header : Bytes → Nat → Option (Nat × (Bytes → α))) (c : Bytes × Bytes)
    (x : α) : Prop where
  length : c.1.length = head + 1
  reads : ∀ out w, out ++ c.1 <+: w → ∃ item, header w out.length = some (c.2.length, item) ∧ item c.2 = x

lemma readChunks_stop (w : Bytes) (stop : Nat) : readChunks head header w stop stop = some [] := by
  rw [readChunks, if_neg (by omega)]

lemma readChunks_header {w : Bytes} {stop pos : Nat} (hpos : pos < stop) (h : header w pos = none) :
    readChunks head header w stop pos = none := by
  rw [readChunks, if_pos hpos, h]

/-- One chunk whose header is there. -/
lemma readChunks_step {out w : Bytes} {c : Bytes × Bytes} {x : α} {stop : Nat}
    (hc : Chunk head header c x) (hw : out ++ c.1 <+: w) (hstop : (out ++ c.1 ++ c.2).length ≤ stop) :
    ∃ item : Bytes → α, item c.2 = x ∧ readChunks head header w stop out.length =
      (readChunks head header w stop (out ++ c.1 ++ c.2).length).map
        (item (pySlice w (out ++ c.1).length (out ++ c.1 ++ c.2).length) :: ·) := by
  obtain ⟨item, hitem, hx⟩ := hc.reads out w hw
  have hlen := hc.length
  simp only [List.length_append] at hstop
  refine ⟨item, hx, ?_⟩
  rw [readChunks, if_pos (by omega), hitem]
  simp only [List.length_append, hlen]
  cases readChunks head header w stop (out.length + (head + 1) + c.2.length) <;> rfl

lemma readChunks_whole {out w : Bytes} {c : Bytes × Bytes} {x : α} {stop : Nat}
    (hc : Chunk head header c x) (hw : out ++ c.1 ++ c.2 <+: w) (hstop : (out ++ c.1 ++ c.2).length ≤ stop) :
    readChunks head header w stop out.length =
      (readChunks head header w stop (out ++ c.1 ++ c.2).length).map (x :: ·) := by
  obtain ⟨item, rfl, heq⟩ := readChunks_step hc ((List.prefix_append _ _).trans hw) hstop
  have hslice : pySlice w (out ++ c.1).length (out ++ c.1 ++ c.2).length = c.2 := by
    obtain ⟨t, rfl⟩ := hw
    rw [show (out ++ c.1 ++ c.2).length = (out ++ c.1).length + c.2.length from List.length_append,
      pySlice_add, List.append_assoc, List.append_assoc,
      ← List.append_assoc out, List.drop_left' rfl, List.take_left' rfl]
  rw [heq, hslice]

lemma readChunks_chunks {out w : Bytes} {chunks : List (Bytes × Bytes)} {xs : List α}
    (hc : List.Forall₂ (Chunk head header) chunks xs) (hw : out ++ chunksWire chunks <+: w) :
    readChunks head header w (out ++ chunksWire chunks).length out.length = some xs := by
  induction hc generalizing out with
  | nil => simp [chunksWire, readChunks_stop]
  | @cons c x chunks xs hfirst hrest ih =>
    have heq : out ++ chunksWire (c :: chunks) = (out ++ c.1 ++ c.2) ++ chunksWire chunks := by
      simp [chunksWire]
    rw [heq] at hw ⊢
    rw [readChunks_whole hfirst ((List.prefix_append _ _).trans hw) (by simp), ih hw]
    rfl

/-- Cut inside a chunk that is followed by another, or inside a header. -/
lemma readChunks_cut (hshort : ∀ w pos, w.length < pos + (head + 1) → header w pos = none)
    {out : Bytes} {chunks : List (Bytes × Bytes)} {xs : List α}
    (hc : List.Forall₂ (Chunk head header) chunks xs) (hlast : ∀ c ∈ chunks.getLast?, c.2 = []) {i : Nat}
    (hi : out.length ≤ i) (hi' : i < (out ++ chunksWire chunks).length) :
    readChunks head header ((out ++ chunksWire chunks).take i) (out ++ chunksWire chunks).length
      out.length = none := by
  induction hc generalizing out with
  | nil =>
    simp [chunksWire] at hi'
    omega
  | @cons c x chunks xs hfirst hrest ih =>
    have heq : out ++ chunksWire (c :: chunks) = (out ++ c.1 ++ c.2) ++ chunksWire chunks := by
      simp [chunksWire]
    have hlen := hfirst.length
    rw [heq] at hi' ⊢
    have hwlen : (((out ++ c.1 ++ c.2) ++ chunksWire chunks).take i).length = i := by
      rw [List.length_take]
      omega
    by_cases hhead : i < out.length + (head + 1)
    · refine readChunks_header ?_ (hshort _ _ (by rw [hwlen]; exact hhead))
      simp only [List.length_append, hlen]
      omega
    · have hpre : out ++ c.1 <+: ((out ++ c.1 ++ c.2) ++ chunksWire chunks).take i := by
        rw [List.prefix_take_iff]
        refine ⟨by simp, ?_⟩
        simp only [List.length_append, hlen]
        omega
      obtain ⟨item, -, hstep⟩ := readChunks_step hfirst hpre
        (show (out ++ c.1 ++ c.2).length ≤ (out ++ c.1 ++ c.2 ++ chunksWire chunks).length by simp)
      rw [hstep]
      by_cases hin : (out ++ c.1 ++ c.2).length ≤ i
      · rw [ih (fun d hd => hlast d (by cases chunks with | nil => cases hd | cons => exact hd)) hin hi']
        rfl
      · -- The content is cut, so there is another header, which is missing.
        have hmore : 0 < (chunksWire chunks).length := by
          cases hrest with
          | nil =>
            have hempty := hlast c rfl
            simp only [hempty, List.append_nil, List.length_append, hlen] at hin
            omega
          | cons hnext _ =>
            simp only [chunksWire, List.flatMap_cons, List.length_append, hnext.length]
            omega
        rw [readChunks_header (by rw [length_chunks]; omega)
          (hshort _ _ (by rw [hwlen]; omega))]
        rfl

/-- Cut inside the content of the last chunk. -/
lemma readChunks_open {out : Bytes} {chunks : List (Bytes × Bytes)} {xs : List α}
    (hc : List.Forall₂ (Chunk head header) chunks xs) {c : Bytes × Bytes} (hlast : c ∈ chunks.getLast?)
    (hne : c.2 ≠ []) :
    ∃ ys, readChunks head header
      ((out ++ chunksWire chunks).take ((out ++ chunksWire chunks).length - 1))
      (out ++ chunksWire chunks).length out.length = some ys := by
  induction hc generalizing out with
  | nil => cases hlast
  | @cons d x chunks xs hfirst hrest ih =>
    have heq : out ++ chunksWire (d :: chunks) = (out ++ d.1 ++ d.2) ++ chunksWire chunks := by
      simp [chunksWire]
    rw [heq]
    cases hrest with
    | nil =>
      obtain rfl : d = c := by simpa using hlast
      have hpos := List.length_pos_of_ne_nil hne
      have hpre : out ++ d.1 <+: ((out ++ d.1 ++ d.2) ++ chunksWire []).take
          (((out ++ d.1 ++ d.2) ++ chunksWire []).length - 1) := by
        rw [List.prefix_take_iff]
        refine ⟨by simp, ?_⟩
        simp [chunksWire]
        omega
      obtain ⟨item, -, hstep⟩ := readChunks_step hfirst hpre
        (show (out ++ d.1 ++ d.2).length ≤ (out ++ d.1 ++ d.2 ++ chunksWire []).length by simp)
      rw [hstep]
      simp [chunksWire, readChunks_stop]
    | @cons e _ chunks _ hnext hrest =>
      have hmore : 0 < (chunksWire (e :: chunks)).length := by
        simp only [chunksWire, List.flatMap_cons, List.length_append, hnext.length]
        omega
      obtain ⟨ys, hys⟩ := @ih (out ++ d.1 ++ d.2) (by simpa using hlast)
      refine ⟨x :: ys, ?_⟩
      rw [readChunks_whole hfirst, hys]
      · rfl
      · rw [List.prefix_take_iff]
        refine ⟨List.prefix_append _ _, ?_⟩
        rw [length_chunks]
        omega
      · rw [length_chunks]
        omega

end Chunks

lemma appendCounted_eq_some {out data out' : Bytes} (h : appendCounted out data = some out') :
    data.length < 256 ∧ out' = out ++ ([UInt8.ofNat data.length] ++ data) := by
  simp only [appendCounted, appendByte, Option.bind_eq_bind, Option.bind_eq_some_iff] at h
  obtain ⟨mid, hmid, h⟩ := h
  split_ifs at hmid with hlt
  cases hmid
  cases h
  exact ⟨hlt, by simp⟩

lemma appendCounted_of_lt {data : Bytes} (h : data.length < 256) (out : Bytes) :
    appendCounted out data = some (out ++ ([UInt8.ofNat data.length] ++ data)) := by
  simp [appendCounted, appendByte, h]

lemma byte_toNat {n : Nat} (h : n < 256) : (UInt8.ofNat n).toNat = n := by
  rw [UInt8.toNat_ofNat', Nat.mod_eq_of_lt h]

lemma getElem?_of_wire {out b w : Bytes} {n : Byte} (hw : out ++ (n :: b) <+: w) : w[out.length]? = some n :=
  getElem?_longer hw (by simp)

lemma string_chunk {data : Bytes} (h : data.length < 256) :
    Chunk 0 stringHeader ([UInt8.ofNat data.length], data) data where
  length := rfl
  reads out w hw := by
    refine ⟨fun data => data, ?_, rfl⟩
    simp only [stringHeader, getElem?_of_wire hw, Option.bind_eq_bind, Option.bind_some, byte_toNat h]
    rfl

lemma stringHeader_short (w : Bytes) (pos : Nat) (h : w.length < pos + (0 + 1)) :
    stringHeader w pos = none := by
  rw [stringHeader, List.getElem?_eq_none (by omega)]
  rfl

lemma appendStrings_chunks {strings : List Bytes} {out out' : Bytes}
    (h : appendStrings strings out = some out') :
    ∃ chunks, (∀ out, appendStrings strings out = some (out ++ chunksWire chunks)) ∧
      List.Forall₂ (Chunk 0 stringHeader) chunks strings ∧ chunks.map Prod.snd = strings := by
  induction strings generalizing out with
  | nil => exact ⟨[], fun out => by simp [appendStrings, chunksWire], .nil, rfl⟩
  | cons s strings ih =>
    simp only [appendStrings, Option.bind_eq_bind, Option.bind_eq_some_iff] at h
    obtain ⟨mid, hmid, h⟩ := h
    obtain ⟨hlt, rfl⟩ := appendCounted_eq_some hmid
    obtain ⟨chunks, happend, hread, hsnd⟩ := ih h
    refine ⟨([UInt8.ofNat s.length], s) :: chunks, fun out => ?_, .cons (string_chunk hlt) hread,
      by simp [hsnd]⟩
    simp [appendStrings, appendCounted_of_lt hlt, happend, chunksWire]

/-- The last chunk has the content of the last item. -/
lemma lastContent_iff {β : Type} {chunks : List (Bytes × Bytes)} {items : List β} (content : β → Bytes)
    (h : chunks.map Prod.snd = items.map content) :
    (∃ item ∈ items.getLast?, content item ≠ []) ↔ ∃ c ∈ chunks.getLast?, c.2 ≠ [] := by
  have hlast := congrArg List.getLast? h
  rw [List.getLast?_map, List.getLast?_map] at hlast
  cases hc : chunks.getLast? <;> cases hi : items.getLast? <;> simp_all

lemma writeCharString_eq_some {value : String} {out out' : Bytes}
    (h : writeCharString out value = some out') :
    ∃ b, (∀ out, writeCharString out value = some (out ++ b)) ∧ b ≠ [] ∧
      (∀ out w, out ++ b <+: w → readCharString w out.length = some (value, (out ++ b).length)) ∧
      ∃ n : Byte, b.head? = some n ∧ b.length = 1 + n.toNat := by
  simp only [writeCharString, Option.bind_eq_bind, Option.bind_eq_some_iff] at h
  obtain ⟨data, hdata, h⟩ := h
  obtain ⟨hlt, rfl⟩ := appendCounted_eq_some h
  refine ⟨[UInt8.ofNat data.length] ++ data, fun out => ?_, by simp, fun out w hw => ?_,
    UInt8.ofNat data.length, rfl, ?_⟩
  · simp [writeCharString, hdata, appendCounted_of_lt hlt]
  · have hslice : pySlice w (out.length + 1) (out.length + 1 + data.length) = data := by
      obtain ⟨t, rfl⟩ := hw
      rw [pySlice_add, show out ++ ([UInt8.ofNat data.length] ++ data) ++ t =
        (out ++ [UInt8.ofNat data.length]) ++ (data ++ t) by simp]
      rw [List.drop_left' (by simp), List.take_left' rfl]
    simp only [readCharString, getElem?_of_wire hw, Option.bind_eq_bind, Option.bind_some, byte_toNat hlt,
      hslice, decode_encode hdata]
    simp [Nat.add_assoc, Nat.add_comm 1]
  · simp [byte_toNat hlt, Nat.add_comm]

lemma readCharString_eq_some {w : Bytes} {off stop : Nat} {s : String}
    (h : readCharString w off = some (s, stop)) : ∃ n, w[off]? = some n ∧ stop = off + 1 + n.toNat := by
  simp only [readCharString, Option.bind_eq_bind, Option.bind_eq_some_iff, Option.some.injEq,
    Prod.mk.injEq] at h
  obtain ⟨n, hn, _, -, -, rfl⟩ := h
  exact ⟨n, hn, rfl⟩

lemma param_chunk {key : Int} {value header : Bytes}
    (h : packUints [(2, key), (2, (value.length : Int))] = some header) :
    Chunk 3 paramHeader (header, value) (key, value) where
  length := packUints_length h
  reads out w hw := by
    refine ⟨fun value => (key, value), ?_, rfl⟩
    have hread := unpackUints_packUints out h hw
    simp only [List.map_cons, List.map_nil] at hread
    simp [paramHeader, hread]

lemma paramHeader_short (w : Bytes) (pos : Nat) (h : w.length < pos + (3 + 1)) : paramHeader w pos = none := by
  cases hr : unpackUints [2, 2] w pos with
  | none => simp [paramHeader, hr]
  | some r =>
    simp only [unpackUints, Option.bind_eq_bind, Option.bind_eq_some_iff, Prod.exists] at hr
    obtain ⟨v, mid, hv, vs, stop, ⟨v', mid', hv', -⟩, -⟩ := hr
    obtain ⟨hle, rfl⟩ := unpackUint_eq_some hv
    obtain ⟨hle', -⟩ := unpackUint_eq_some hv'
    omega

lemma appendParams_chunks {params : List (Int × Bytes)} {out out' : Bytes}
    (h : appendParams params out = some out') :
    ∃ chunks, (∀ out, appendParams params out = some (out ++ chunksWire chunks)) ∧
      List.Forall₂ (Chunk 3 paramHeader) chunks params ∧
      chunks.map Prod.snd = params.map Prod.snd := by
  induction params generalizing out with
  | nil => exact ⟨[], fun out => by simp [appendParams, chunksWire], .nil, rfl⟩
  | cons param params ih =>
    obtain ⟨key, value⟩ := param
    simp only [appendParams, Option.bind_eq_bind, Option.bind_eq_some_iff] at h
    obtain ⟨header, hheader, h⟩ := h
    obtain ⟨chunks, happend, hread, hsnd⟩ := ih h
    refine ⟨(header, value) :: chunks, fun out => ?_, .cons (param_chunk hheader) hread, by simp [hsnd]⟩
    simp [appendParams, hheader, happend, chunksWire]

/-- Every bitmap has all its bytes, and some type in it. -/
def Marked (windows : List (Int × Bytes)) : Prop :=
  ∀ entry ∈ windows, entry.2.length = 32 ∧ ∃ b ∈ entry.2, b ≠ 0

lemma mark_ne_zero {x : Nat} (bit : Nat) (hx : x < 256) : UInt8.ofNat (x ||| 0x80 / 2 ^ (bit % 8)) ≠ 0 := by
  have hall : ∀ x < 256, ∀ k < 8, UInt8.ofNat (x ||| 0x80 / 2 ^ k) ≠ 0 := by decide +kernel
  exact hall x hx _ (Nat.mod_lt _ (by decide))

lemma setBit_marked {windows : List (Int × Bytes)} (h : Marked windows) (window : Int) {bit : Nat}
    (hbit : bit < 256) : Marked (setBit windows window bit) := by
  have hidx : bit / 8 < 32 := by omega
  induction windows with
  | nil =>
    intro entry he
    obtain rfl := List.mem_singleton.mp he
    refine ⟨by simp, _, List.mem_set (by simpa using hidx) _, ?_⟩
    have := mark_ne_zero bit (show 0 < 256 by decide)
    simpa using this
  | cons first windows ih =>
    obtain ⟨w, bitmap⟩ := first
    have hlen : bitmap.length = 32 := (h _ List.mem_cons_self).1
    have hrest : Marked windows := fun entry he => h entry (List.mem_cons_of_mem _ he)
    intro entry he
    rw [setBit] at he
    split_ifs at he with heq
    · obtain rfl | he := List.mem_cons.mp he
      · exact ⟨by simpa using hlen, _, List.mem_set (by simpa [hlen] using hidx) _, mark_ne_zero bit (UInt8.toNat_lt _)⟩
      · exact hrest entry he
    · obtain rfl | he := List.mem_cons.mp he
      · exact h _ List.mem_cons_self
      · exact ih hrest entry he

lemma setBit_ne_nil (windows : List (Int × Bytes)) (window : Int) (bit : Nat) :
    setBit windows window bit ≠ [] := by
  cases windows with
  | nil => simp [setBit]
  | cons first windows =>
    obtain ⟨w, bitmap⟩ := first
    rw [setBit]
    split_ifs <;> simp

lemma trimBitmap_ne_nil {bitmap : Bytes} (h : ∃ b ∈ bitmap, b ≠ 0) : trimBitmap bitmap ≠ [] := by
  obtain ⟨b, hb, hne⟩ := h
  intro hnil
  have hall := List.takeWhile_append_dropWhile (p := fun b : Byte => b == 0) (l := bitmap.reverse)
  rw [List.reverse_eq_nil_iff.mp hnil, List.append_nil] at hall
  have hmem : b ∈ bitmap.reverse.takeWhile fun b => b == 0 := by
    rw [hall]
    exact List.mem_reverse.mpr hb
  exact hne (by simpa using List.all_eq_true.mp List.all_takeWhile b hmem)

lemma window_chunk {window : Nat} {bitmap : Bytes} (hw : window < 256) (hb : bitmap.length < 256) :
    Chunk 1 windowHeader ([UInt8.ofNat window, UInt8.ofNat bitmap.length], bitmap)
      (bitmapTypes window bitmap) where
  length := rfl
  reads out w hpre := by
    refine ⟨bitmapTypes window, ?_, rfl⟩
    have h₁ : w[out.length]? = some (UInt8.ofNat window) := getElem?_longer hpre (by simp)
    have h₂ : w[out.length + 1]? = some (UInt8.ofNat bitmap.length) := getElem?_longer hpre (by simp)
    simp [windowHeader, h₁, h₂, byte_toNat hw, byte_toNat hb]

lemma windowHeader_short (w : Bytes) (pos : Nat) (h : w.length < pos + (1 + 1)) :
    windowHeader w pos = none := by
  have hnone : w[pos + 1]? = none := List.getElem?_eq_none (by omega)
  cases hb : w[pos]? <;> simp [windowHeader, hnone, hb]

lemma appendWindows_chunks {windows : List (Int × Bytes)} {out out' : Bytes}
    (h : appendWindows windows out = some out') :
    ∃ chunks xs, (∀ out, appendWindows windows out = some (out ++ chunksWire chunks)) ∧
      List.Forall₂ (Chunk 1 windowHeader) chunks xs ∧
      chunks.map Prod.snd = windows.map fun entry => trimBitmap entry.2 := by
  induction windows generalizing out with
  | nil => exact ⟨[], [], fun out => by simp [appendWindows, chunksWire], .nil, rfl⟩
  | cons first windows ih =>
    obtain ⟨window, bitmap⟩ := first
    rw [appendWindows] at h
    split_ifs at h with hpos
    simp only [Option.bind_eq_bind, Option.bind_eq_some_iff] at h
    obtain ⟨mid, hmid, mid', hmid', h⟩ := h
    simp only [appendByte] at hmid
    split_ifs at hmid with hlt
    obtain ⟨hblt, rfl⟩ := appendCounted_eq_some hmid'
    obtain ⟨chunks, xs, happend, hread, hsnd⟩ := ih h
    refine ⟨([UInt8.ofNat window.toNat, UInt8.ofNat (trimBitmap bitmap).length], trimBitmap bitmap) :: chunks,
      _ :: xs, fun out => ?_, .cons (window_chunk hlt hblt) hread, by simp [hsnd]⟩
    simp [appendWindows, hpos, appendByte, hlt, appendCounted_of_lt hblt, happend, chunksWire]

lemma encodeTypeBitmap_chunks {rrtypes : List Int} {b : Bytes} (h : encodeTypeBitmap rrtypes = some b) :
    ∃ chunks xs, b = chunksWire chunks ∧ List.Forall₂ (Chunk 1 windowHeader) chunks xs ∧
      (rrtypes = [] → chunks = []) ∧ (rrtypes ≠ [] → ∃ c ∈ chunks.getLast?, c.2 ≠ []) := by
  have hmarked : ∀ (l : List Int) (windows : List (Int × Bytes)), Marked windows →
      Marked (l.foldl (fun windows rrtype =>
        setBit windows (rrtype.fdiv 256) (rrtype.fmod 256).toNat) windows) := by
    intro l
    induction l with
    | nil => exact fun _ h => h
    | cons t l ih =>
      intro windows hw
      have hmod := Int.fmod_lt_of_pos t (show (0 : Int) < 256 by decide)
      exact ih _ (setBit_marked hw _ (by omega))
  have hkept : ∀ (l : List Int) (windows : List (Int × Bytes)), windows ≠ [] →
      l.foldl (fun windows rrtype => setBit windows (rrtype.fdiv 256) (rrtype.fmod 256).toNat) windows ≠
        [] := by
    intro l
    induction l with
    | nil => exact fun _ h => h
    | cons t l ih => exact fun windows _ => ih _ (setBit_ne_nil _ _ _)
  obtain ⟨chunks, xs, happend, hread, hsnd⟩ := appendWindows_chunks h
  have hb : b = chunksWire chunks := by
    have := happend []
    unfold encodeTypeBitmap at h
    simp only at h
    rw [this] at h
    simpa using h.symm
  refine ⟨chunks, xs, hb, hread, ?_, fun hne => ?_⟩
  · rintro rfl
    simpa using hsnd
  · have hwindows := hmarked rrtypes [] (fun _ he => absurd he (by simp))
    have hlast : chunks ≠ [] := by
      rintro rfl
      cases rrtypes with
      | nil => exact hne rfl
      | cons t l =>
        have hnil := congrArg List.length hsnd
        simp only [List.map_nil, List.length_nil, List.length_map, List.length_mergeSort] at hnil
        exact hkept l _ (setBit_ne_nil [] _ _) (List.length_eq_zero_iff.mp hnil.symm)
    obtain ⟨c, hc⟩ := Option.isSome_iff_exists.mp (by simpa using hlast : chunks.getLast?.isSome)
    refine ⟨c, hc, ?_⟩
    have hmem : c.2 ∈ chunks.map Prod.snd := List.mem_map_of_mem (List.mem_of_getLast? hc)
    rw [hsnd] at hmem
    obtain ⟨entry, hentry, heq⟩ := List.mem_map.mp hmem
    rw [← heq]
    exact trimBitmap_ne_nil (hwindows entry (List.mem_mergeSort.mp hentry)).2

end Rustruct.DNS

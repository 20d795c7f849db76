import Rustruct.Lib.SharedBuffer
import Rustruct.Proofs.DNSBitmaps
import Rustruct.Proofs.DNSRData

/-!
# Records and what follows them

RDATA is read at its place in the message. The classes that are a `Struct` read a copy of their bytes; the
others walk on in the message, and only what their parts say keeps them from the bytes after the record: that
each part ends in the record, or that the record has a fault where the reader comes to.
-/

namespace Rustruct.DNS

open BitStream

section Names

/-- What no name has is where `decode_name` comes to from `off`, after `wire` bytes of labels. -/
inductive NameFault (buf : Bytes) : Nat → Nat → Prop where
  | reserved {off wire : Nat} {first : Byte} (head : buf[off]? = some first) (kind : first.toNat &&& 0xC0 ≠ 0)
      (label : first.toNat &&& 0xC0 ≠ 0xC0) : NameFault buf off wire
  | forward {off wire : Nat} {first second : Byte} (head : buf[off]? = some first) (kind : first.toNat &&& 0xC0 = 0xC0)
      (next : buf[off + 1]? = some second) (ahead : off ≤ (first.toNat &&& 0x3F) * 256 + second.toNat) :
      NameFault buf off wire
  | long {off wire : Nat} {first : Byte} (head : buf[off]? = some first) (pos : 0 < first.toNat)
      (kind : first.toNat &&& 0xC0 = 0) (excess : maxNameWire < wire + first.toNat + 1) : NameFault buf off wire
  | label {off wire : Nat} {label : Bytes} (pos : 1 ≤ label.length) (short : label.length ≤ maxLabel)
      (first : buf[off]? = some (UInt8.ofNat label.length))
      (slice : pySlice buf (off + 1) (off + 1 + label.length) = label)
      (within : wire + label.length + 1 ≤ maxNameWire)
      (tail : NameFault buf (off + 1 + label.length) (wire + label.length + 1)) : NameFault buf off wire
  | pointer {off wire target : Nat} {first : Byte} (head : buf[off]? = some first)
      (kind : first.toNat &&& 0xC0 = 0xC0) (target_eq : pointerTarget buf off = some target)
      (tail : NameFault buf target wire) : NameFault buf off wire

section Turns

variable {buf : Bytes} {s : NameState} {first second : Byte}

lemma nameTurn_reserved (head : buf[s.off]? = some first) (kind : first.toNat &&& 0xC0 ≠ 0)
    (label : first.toNat &&& 0xC0 ≠ 0xC0) : nameTurn buf s = .raised := by
  have hne : first.toNat ≠ 0 := by
    intro hzero
    rw [hzero] at kind
    exact kind rfl
  simp only [nameTurn, head, if_neg hne, if_neg label, if_pos kind]

lemma nameTurn_forward (head : buf[s.off]? = some first) (kind : first.toNat &&& 0xC0 = 0xC0)
    (next : buf[s.off + 1]? = some second) (ahead : s.off ≤ (first.toNat &&& 0x3F) * 256 + second.toNat) :
    nameTurn buf s = .raised := by
  have hne : first.toNat ≠ 0 := by
    intro hzero
    rw [hzero] at kind
    cases kind
  have htarget : pointerTarget buf s.off = none := by
    unfold pointerTarget
    split_ifs
    · rfl
    · simp only [head, next, Option.bind_eq_bind, Option.bind_some]
      rw [if_pos ahead]
  simp only [nameTurn, head, htarget, if_neg hne, if_pos kind]

lemma nameTurn_long (head : buf[s.off]? = some first) (pos : 0 < first.toNat) (kind : first.toNat &&& 0xC0 = 0)
    (excess : maxNameWire < s.wireLen + first.toNat + 1) : nameTurn buf s = .raised := by
  have hptr : first.toNat &&& 0xC0 ≠ 0xC0 := by
    rw [kind]
    decide
  simp only [nameTurn, head, if_neg (Nat.ne_of_gt pos), if_neg hptr, if_neg (not_not.mpr kind)]
  split
  · rfl
  · rw [if_pos excess]

lemma nameTurns_raised {n : Nat} {r : Option (List (List Char) × Nat)} (h : nameTurn buf s = .raised)
    (hr : nameTurns buf n s = some r) : r = none := by
  cases n with
  | zero => cases hr
  | succ n =>
    rw [nameTurns, h] at hr
    exact (Option.some.inj hr).symm

end Turns

variable {b b' : Bytes} {off wire : Nat}

/-- A fault is not read over, whatever follows it. -/
lemma nameTurns_fault (h : NameFault b off wire) (hb : b <+: b') {s : NameState} (hoff : s.off = off)
    (hwire : s.wireLen = wire) {n : Nat} {r : Option (List (List Char) × Nat)} (hr : nameTurns b' n s = some r) :
    r = none := by
  induction h generalizing s n with
  | reserved head kind label =>
    subst hoff
    exact nameTurns_raised (nameTurn_reserved (getElem?_longer hb head) kind label) hr
  | forward head kind next ahead =>
    subst hoff
    exact nameTurns_raised (nameTurn_forward (getElem?_longer hb head) kind (getElem?_longer hb next) ahead) hr
  | long head pos kind excess =>
    subst hoff hwire
    exact nameTurns_raised (nameTurn_long (getElem?_longer hb head) pos kind excess) hr
  | label pos short first slice within tail ih =>
    subst hoff hwire
    have hslice := (pySlice_longer hb (pySlice_full (congrArg List.length slice) pos)).trans slice
    cases n with
    | zero => cases hr
    | succ n =>
      rw [nameTurns, nameTurn_label pos short (getElem?_longer hb first) hslice within] at hr
      exact ih rfl rfl hr
  | @pointer off wire target first head kind target_eq tail ih =>
    subst hoff
    cases n with
    | zero => cases hr
    | succ n =>
      rw [nameTurns, nameTurn_pointer (getElem?_longer hb head) kind (pointerTarget_longer hb target_eq)] at hr
      exact @ih { s with off := target, resume := some (s.resume.getD (s.off + 2)) } rfl hwire n hr

lemma decodeName_fault (h : NameFault b off 1) (hb : b <+: b') : decodeName b' off = none := by
  obtain ⟨r, hr⟩ := nameTurns_start b' off
  rw [decodeName, decodeLabels, hr, nameTurns_fault h hb rfl rfl hr]
  rfl

end Names

section Parts

def uintPart (w : Nat) : PartReader Byte Int where
  read _ := unpackUint w
  Ends record pos stop := stop = pos + w ∧ stop ≤ record.length
  Faulty _ _ := False
  ends {record pos stop} h := by
    obtain ⟨rfl, hle⟩ := h
    exact ⟨_, fun t => (strict_uint w).mono (List.prefix_append record t) (if_pos hle)⟩
  faulty h := h.elim
  tight {record pos a} h := by
    obtain ⟨next, h⟩ := h []
    rw [List.append_nil] at h
    obtain ⟨hle, -⟩ := unpackUint_eq_some h
    exact ⟨_, rfl, hle⟩

def namePart : PartReader Byte String where
  read _ := decodeName
  Ends record pos stop := ∃ labels, NameAt record pos labels stop ∧ Legal labels
  Faulty record pos := NameFault record pos 1
  ends {record pos stop} h := by
    obtain ⟨labels, hat, hlegal⟩ := h
    exact ⟨_, fun t => decodeName_longer (List.prefix_append record t) (decodeName_nameAt hlegal hat)⟩
  faulty {record pos} h t := decodeName_fault h (List.prefix_append record t)
  tight {record pos a} h := by
    obtain ⟨next, h⟩ := h []
    rw [List.append_nil] at h
    obtain ⟨labels, hat, hlegal, -⟩ := nameAt_of_decodeName h
    exact ⟨next, labels, hat, hlegal⟩

/-- `raw.decode("ascii")` does not raise. -/
def Ascii (raw : Bytes) : Prop := ∀ b ∈ raw, b < 0x80

lemma decode_ascii {raw : Bytes} (h : Ascii raw) :
    decode raw .ascii = some (String.ofList (raw.map fun b => Char.ofNat b.toNat)) :=
  if_pos (List.all_eq_true.mpr fun b hb => decide_eq_true (h b hb))

lemma ascii_of_decode {raw : Bytes} {s : String} (h : decode raw .ascii = some s) :
    Ascii raw ∧ s.length = raw.length := by
  rw [decode] at h
  split_ifs at h with hall
  refine ⟨fun b hb => of_decide_eq_true (List.all_eq_true.mp hall b hb), ?_⟩
  rw [← Option.some.inj h, String.length_ofList, List.length_map]

lemma pySlice_beyond {record : Bytes} {a n : Nat} (hle : a ≤ record.length) (hlt : record.length < a + n) (x : Byte) :
    pySlice (record ++ [x]) a (a + n) = pySlice record a (a + n) ++ [x] := by
  have hlen : (record.drop a).length < n := by
    rw [List.length_drop]
    omega
  rw [pySlice_add, pySlice_add, List.drop_append_of_le_length hle, List.take_of_length_le (Nat.le_of_lt hlen),
    List.take_of_length_le]
  rw [List.length_append]
  exact hlen

/-- A longer buffer has what the slice has. -/
lemma pySlice_initial (record t : Bytes) (a n : Nat) :
    pySlice record a (a + n) <+: pySlice (record ++ t) a (a + n) := by
  rw [pySlice_add, pySlice_add]
  exact (List.prefix_append record t).drop a |>.take n

lemma readCharString_eq (buf : Bytes) (pos : Nat) : readCharString buf pos = buf[pos]?.bind fun n =>
    (decode (pySlice buf (pos + 1) (pos + 1 + n.toNat)) .ascii).map fun s => (s, pos + 1 + n.toNat) := by
  simp [readCharString, Option.map_eq_bind]

def textPart : PartReader Byte String where
  read _ := readCharString
  Ends record pos stop := ∃ n ∈ record[pos]?, stop = pos + 1 + n.toNat ∧ stop ≤ record.length ∧
    Ascii (pySlice record (pos + 1) stop)
  Faulty record pos := ∃ n ∈ record[pos]?, ¬Ascii (pySlice record (pos + 1) (pos + 1 + n.toNat))
  ends {record pos stop} h := by
    obtain ⟨n, hn, rfl, hle, hascii⟩ := h
    refine ⟨String.ofList ((pySlice record (pos + 1) (pos + 1 + n.toNat)).map fun b => Char.ofNat b.toNat), fun t => ?_⟩
    have hpre := List.prefix_append record t
    rw [readCharString_eq, getElem?_longer hpre hn, Option.bind_some, pySlice_longer hpre hle, decode_ascii hascii]
    rfl
  faulty {record pos} h t := by
    obtain ⟨n, hn, hascii⟩ := h
    rw [readCharString_eq, getElem?_longer (List.prefix_append record t) hn, Option.bind_some, Option.map_eq_none_iff,
      Option.eq_none_iff_forall_not_mem]
    intro s hs
    exact hascii fun b hb => (ascii_of_decode hs).1 b ((pySlice_initial record t _ _).subset hb)
  tight {record pos s} h := by
    have hread (t : Bytes) : ∃ n ∈ (record ++ t)[pos]?,
        decode (pySlice (record ++ t) (pos + 1) (pos + 1 + n.toNat)) .ascii = some s := by
      obtain ⟨next, h⟩ := h t
      rw [readCharString_eq] at h
      obtain ⟨n, hn, h⟩ := Option.bind_eq_some_iff.mp h
      obtain ⟨s', hs, h⟩ := Option.map_eq_some_iff.mp h
      cases h
      exact ⟨n, hn, hs⟩
    obtain ⟨n, hn, hshort⟩ := hread []
    rw [List.append_nil] at hn hshort
    obtain ⟨hascii, hlen⟩ := ascii_of_decode hshort
    by_cases hle : pos + 1 + n.toNat ≤ record.length
    · exact ⟨_, n, hn, rfl, hle, hascii⟩
    · -- With one more byte after the record the text is longer.
      obtain ⟨m, hm, hlong⟩ := hread [0x41]
      rw [getElem?_longer (List.prefix_append _ _) hn] at hm
      cases hm
      obtain ⟨hpos, -⟩ := List.getElem?_eq_some_iff.mp hn
      rw [pySlice_beyond hpos (Nat.lt_of_not_le hle)] at hlong
      have hmore := hlen.symm.trans (ascii_of_decode hlong).2
      rw [List.length_append, List.length_singleton] at hmore
      exact absurd hmore.symm (Nat.succ_ne_self _)

end Parts

/-- What is in the chunks of a record, and how it is collected. -/
structure ChunkFormat (α γ : Type) where
  head : Nat
  header : Bytes → Nat → Option (Nat × (Bytes → α))
  collect : List α → γ
  short : ∀ w pos, w.length < pos + (head + 1) → header w pos = none
  mono : ∀ {b b' pos x}, b <+: b' → header b pos = some x → header b' pos = some x
  cancel : ∀ {x xs ys}, collect (x :: xs) = collect (x :: ys) → collect xs = collect ys
  grows : ∀ {w pos n item} s, header w pos = some (n, item) → collect [item s] ≠ collect [item (s ++ [0xFF])]

namespace ChunkFormat

variable {α γ : Type}

/-- Each chunk ends inside the record. -/
inductive Inside (f : ChunkFormat α γ) (record : Bytes) : Nat → Prop
  | stop {pos} : record.length ≤ pos → Inside f record pos
  | chunk {pos n item} : pos < record.length → f.header record pos = some (n, item) →
      pos + (f.head + 1) + n ≤ record.length → Inside f record (pos + (f.head + 1) + n) → Inside f record pos

variable {f : ChunkFormat α γ} {record : Bytes} {pos : Nat}

lemma Inside.readChunks_append (h : f.Inside record pos) (t : Bytes) :
    readChunks f.head f.header (record ++ t) record.length pos =
      readChunks f.head f.header record record.length pos := by
  induction h with
  | stop hle =>
    rw [readChunks, readChunks, if_neg (Nat.not_lt.mpr hle), if_neg (Nat.not_lt.mpr hle)]
  | chunk hlt hheader hend _ ih =>
    have hpre := List.prefix_append record t
    rw [readChunks, if_pos hlt, f.mono hpre hheader]
    conv_rhs => rw [readChunks, if_pos hlt, hheader]
    simp only [ih, pySlice_longer hpre hend]

lemma Inside.readChunks (h : f.Inside record pos) :
    ∃ items, Rustruct.DNS.readChunks f.head f.header record record.length pos = some items := by
  induction h with
  | stop hle =>
    rw [Rustruct.DNS.readChunks, if_neg (Nat.not_lt.mpr hle)]
    exact ⟨_, rfl⟩
  | chunk hlt hheader hend _ ih =>
    obtain ⟨items, hitems⟩ := ih
    rw [Rustruct.DNS.readChunks, if_pos hlt, hheader]
    simp only [hitems]
    exact ⟨_, rfl⟩

/-- The first chunk and the others. -/
lemma readChunks_cons {buf : Bytes} {stop : Nat} {items : List α}
    (h : readChunks f.head f.header buf stop pos = some items) (hlt : pos < stop) :
    ∃ n item rest, f.header buf pos = some (n, item) ∧
      readChunks f.head f.header buf stop (pos + (f.head + 1) + n) = some rest ∧
      items = item (pySlice buf (pos + (f.head + 1)) (pos + (f.head + 1) + n)) :: rest := by
  rw [readChunks, if_pos hlt] at h
  split at h
  · cases h
  · rename_i n item hheader
    obtain ⟨rest, hrest, h⟩ := Option.bind_eq_some_iff.mp h
    exact ⟨n, item, rest, hheader, hrest, (Option.some.inj h).symm⟩

lemma inside_of_same {v : γ} (h : ∀ t, ∃ items,
    readChunks f.head f.header (record ++ t) record.length pos = some items ∧ f.collect items = v) :
    f.Inside record pos := by
  induction hleft : record.length - pos using Nat.strongRecOn generalizing pos v with
  | ind left ih =>
    by_cases hlt : pos < record.length
    · obtain ⟨items, hitems, hv⟩ := h []
      rw [List.append_nil] at hitems
      obtain ⟨n, item, rest, hheader, hrest, rfl⟩ := readChunks_cons hitems hlt
      have hhead : pos + (f.head + 1) ≤ record.length := by
        by_contra hshort
        rw [f.short record pos (Nat.lt_of_not_le hshort)] at hheader
        cases hheader
      have hmore (t : Bytes) : ∃ rest', readChunks f.head f.header (record ++ t) record.length
          (pos + (f.head + 1) + n) = some rest' ∧
          f.collect (item (pySlice (record ++ t) (pos + (f.head + 1)) (pos + (f.head + 1) + n)) :: rest') = v := by
        obtain ⟨items', hitems', hv'⟩ := h t
        obtain ⟨n', item', rest', hheader', hrest', rfl⟩ := readChunks_cons hitems' hlt
        rw [f.mono (List.prefix_append record t) hheader] at hheader'
        cases hheader'
        exact ⟨rest', hrest', hv'⟩
      by_cases hend : pos + (f.head + 1) + n ≤ record.length
      · refine .chunk hlt hheader hend (ih _ ?_ (v := f.collect rest) (fun t => ?_) rfl)
        · omega
        · obtain ⟨rest', hrest', hv'⟩ := hmore t
          rw [pySlice_longer (List.prefix_append record t) hend, ← hv] at hv'
          exact ⟨rest', hrest', f.cancel hv'⟩
      · -- The chunk is the last one, and with one more byte after the record it is longer.
        obtain ⟨rest', hrest', hv'⟩ := hmore [0xFF]
        have hstop : ¬pos + (f.head + 1) + n < record.length := by omega
        rw [readChunks, if_neg hstop] at hrest hrest'
        cases hrest
        cases hrest'
        rw [pySlice_beyond hhead (Nat.lt_of_not_le hend), ← hv] at hv'
        exact absurd hv'.symm (f.grows _ hheader)
    · exact .stop (Nat.not_lt.mp hlt)

/-- The loop over the chunks. -/
def part (f : ChunkFormat α γ) : PartReader Byte γ where
  read stop buf pos := (readChunks f.head f.header buf stop pos).map fun items => (f.collect items, stop)
  Ends record pos stop := stop = record.length ∧ f.Inside record pos
  Faulty _ _ := False
  ends {record pos stop} h := by
    obtain ⟨rfl, h⟩ := h
    obtain ⟨items, hitems⟩ := h.readChunks
    exact ⟨f.collect items, fun t => by rw [h.readChunks_append t, hitems]; rfl⟩
  faulty h := h.elim
  tight {record pos v} h := by
    refine ⟨_, rfl, inside_of_same (v := v) fun t => ?_⟩
    obtain ⟨next, h⟩ := h t
    obtain ⟨items, hitems, h⟩ := Option.map_eq_some_iff.mp h
    exact ⟨items, hitems, congrArg Prod.fst h⟩

end ChunkFormat

section Formats

variable {b b' w : Bytes} {pos n : Nat}

lemma stringHeader_mono {x : Nat × (Bytes → Bytes)} (hb : b <+: b') (h : stringHeader b pos = some x) :
    stringHeader b' pos = some x := by
  obtain ⟨n, hn, h⟩ := Option.bind_eq_some_iff.mp h
  exact Option.bind_eq_some_iff.mpr ⟨n, getElem?_longer hb hn, h⟩

lemma windowHeader_mono {x : Nat × (Bytes → List Int)} (hb : b <+: b') (h : windowHeader b pos = some x) :
    windowHeader b' pos = some x := by
  obtain ⟨window, hw, h⟩ := Option.bind_eq_some_iff.mp h
  obtain ⟨length, hl, h⟩ := Option.bind_eq_some_iff.mp h
  exact Option.bind_eq_some_iff.mpr ⟨window, getElem?_longer hb hw,
    Option.bind_eq_some_iff.mpr ⟨length, getElem?_longer hb hl, h⟩⟩

lemma paramHeader_mono {x : Nat × (Bytes → Int × Bytes)} (hb : b <+: b') (h : paramHeader b pos = some x) :
    paramHeader b' pos = some x := by
  obtain ⟨r, hr, h⟩ := Option.bind_eq_some_iff.mp h
  exact Option.bind_eq_some_iff.mpr ⟨r, (strict_uints [2, 2]).mono hb hr, h⟩

lemma stringHeader_grows {item : Bytes → Bytes} (s : Bytes) (h : stringHeader w pos = some (n, item)) :
    [item s] ≠ [item (s ++ [0xFF])] := by
  obtain ⟨_, -, h⟩ := Option.bind_eq_some_iff.mp h
  cases h
  simp

/-- The first type of a new byte is not among those of the others. -/
lemma windowHeader_grows {item : Bytes → List Int} (s : Bytes) (h : windowHeader w pos = some (n, item)) :
    [item s].flatten ≠ [item (s ++ [0xFF])].flatten := by
  obtain ⟨window, -, h⟩ := Option.bind_eq_some_iff.mp h
  obtain ⟨length, -, h⟩ := Option.bind_eq_some_iff.mp h
  cases h
  have hnew : ((window.toNat * 256 + 8 * s.length : Nat) : Int) ∈ bitmapTypes window.toNat (s ++ [0xFF]) := by
    refine mem_bitmapTypes.mpr ⟨8 * s.length, by simp, ?_, rfl⟩
    have hdiv : 8 * s.length / 8 = s.length := Nat.mul_div_cancel_left _ (by decide)
    have hmod : 8 * s.length % 8 = 0 := Nat.mul_mod_right 8 _
    rw [bitAt, hdiv, hmod, List.getD_append_right _ _ _ _ (Nat.le_refl _), Nat.sub_self]
    rfl
  have hold : ((window.toNat * 256 + 8 * s.length : Nat) : Int) ∉ bitmapTypes window.toNat s := by
    intro hmem
    obtain ⟨k, hk, -, hnum⟩ := mem_bitmapTypes.mp hmem
    omega
  intro heq
  rw [List.flatten_singleton, List.flatten_singleton] at heq
  rw [heq] at hold
  exact hold hnew

lemma paramHeader_grows {item : Bytes → Int × Bytes} (s : Bytes) (h : paramHeader w pos = some (n, item)) :
    [item s] ≠ [item (s ++ [0xFF])] := by
  obtain ⟨r, -, h⟩ := Option.bind_eq_some_iff.mp h
  split at h
  · cases h
    simp
  · cases h

end Formats

/-- `TXT`. -/
def stringsFormat : ChunkFormat Bytes (List Bytes) where
  head := 0
  header := stringHeader
  collect items := items
  short := stringHeader_short
  mono := stringHeader_mono
  cancel h := (List.cons.inj h).2
  grows := stringHeader_grows

/-- `NSEC`. -/
def windowsFormat : ChunkFormat (List Int) (List Int) where
  head := 1
  header := windowHeader
  collect := List.flatten
  short := windowHeader_short
  mono := windowHeader_mono
  cancel := List.append_cancel_left
  grows := windowHeader_grows

/-- `HTTPS`. -/
def paramsFormat : ChunkFormat (Int × Bytes) (List (Int × Bytes)) where
  head := 3
  header := paramHeader
  collect items := items
  short := paramHeader_short
  mono := paramHeader_mono
  cancel h := (List.cons.inj h).2
  grows := paramHeader_grows

/-- The parts of a record, and what they make. -/
structure Layout where
  {α : Type}
  part : PartReader Byte α
  make : α → RData
  make_injective : Function.Injective make

/-- The classes that walk on in the message. -/
def RDataKind.layout : RDataKind → Option Layout
  | .ns => some ⟨namePart, .ns, fun x y h => by simpa using h⟩
  | .cname => some ⟨namePart, .cname, fun x y h => by simpa using h⟩
  | .ptr => some ⟨namePart, .ptr, fun x y h => by simpa using h⟩
  | .dname => some ⟨namePart, .dname, fun x y h => by simpa using h⟩
  | .mx => some ⟨(uintPart 2).both namePart, fun x => .mx x.1 x.2, fun x y h => by simpa [Prod.ext_iff] using h⟩
  | .soa => some ⟨namePart.both (namePart.both ((uintPart 4).both ((uintPart 4).both ((uintPart 4).both
      ((uintPart 4).both (uintPart 4)))))),
      fun x => .soa x.1 x.2.1 x.2.2.1 x.2.2.2.1 x.2.2.2.2.1 x.2.2.2.2.2.1 x.2.2.2.2.2.2,
      fun x y h => by simpa [Prod.ext_iff] using h⟩
  | .srv => some ⟨(uintPart 2).both ((uintPart 2).both ((uintPart 2).both namePart)),
      fun x => .srv x.1 x.2.1 x.2.2.1 x.2.2.2, fun x y h => by simpa [Prod.ext_iff] using h⟩
  | .naptr => some ⟨(uintPart 2).both ((uintPart 2).both (textPart.both (textPart.both (textPart.both namePart)))),
      fun x => .naptr x.1 x.2.1 x.2.2.1 x.2.2.2.1 x.2.2.2.2.1 x.2.2.2.2.2,
      fun x y h => by simpa [Prod.ext_iff] using h⟩
  | .rrsig => some ⟨(uintPart 2).both ((uintPart 1).both ((uintPart 1).both ((uintPart 4).both ((uintPart 4).both
      ((uintPart 4).both ((uintPart 2).both (namePart.both .rest))))))),
      fun x => .rrsig x.1 x.2.1 x.2.2.1 x.2.2.2.1 x.2.2.2.2.1 x.2.2.2.2.2.1 x.2.2.2.2.2.2.1 x.2.2.2.2.2.2.2.1
        x.2.2.2.2.2.2.2.2, fun x y h => by simpa [Prod.ext_iff] using h⟩
  | .nsec => some ⟨namePart.both windowsFormat.part, fun x => .nsec x.1 x.2,
      fun x y h => by simpa [Prod.ext_iff] using h⟩
  | .https => some ⟨(uintPart 2).both (namePart.both paramsFormat.part), fun x => .https x.1 x.2.1 x.2.2,
      fun x y h => by simpa [Prod.ext_iff] using h⟩
  | .rp => some ⟨namePart.both namePart, fun x => .rp x.1 x.2, fun x y h => by simpa [Prod.ext_iff] using h⟩
  | .txt => some ⟨stringsFormat.part, .txt, fun x y h => by simpa using h⟩
  | .a | .aaaa | .ds | .dnskey | .caa | .loc | .tlsa | .sshfp => none

section Layouts

variable (stop : Nat) (buf : Bytes) (pos : Nat)

lemma uintPart_read (w : Nat) : (uintPart w).read stop buf pos = unpackUint w buf pos := rfl

lemma namePart_read : namePart.read stop buf pos = decodeName buf pos := rfl

lemma textPart_read : textPart.read stop buf pos = readCharString buf pos := rfl

lemma namePart_value : namePart.value stop buf pos = (decodeName buf pos).map Prod.fst := rfl

lemma uintPart_value (w : Nat) : (uintPart w).value stop buf pos = (unpackUint w buf pos).map Prod.fst := rfl

lemma rest_value : PartReader.rest.value stop buf pos = some (pySlice buf pos stop) := rfl

lemma value_both {α γ : Type} (r : PartReader Byte α) (r' : PartReader Byte γ) :
    (r.both r').value stop buf pos =
      (r.read stop buf pos).bind fun x => (r'.value stop buf x.2).map fun y => (x.1, y) := by
  simp [PartReader.both, PartReader.value, Option.map_bind, Function.comp_def]

lemma format_value {α γ : Type} (f : ChunkFormat α γ) :
    f.part.value stop buf pos = (readChunks f.head f.header buf stop pos).map f.collect := by
  simp [PartReader.value, ChunkFormat.part, Function.comp_def]

lemma stringsFormat_value : stringsFormat.part.value stop buf pos = readStrings buf stop pos :=
  (format_value stop buf pos stringsFormat).trans Option.map_id'

lemma paramsFormat_value : paramsFormat.part.value stop buf pos = readParams buf stop pos :=
  (format_value stop buf pos paramsFormat).trans Option.map_id'

lemma windowsFormat_value : windowsFormat.part.value stop buf pos = decodeTypeBitmap buf stop pos :=
  (format_value stop buf pos windowsFormat).trans Option.map_eq_bind

end Layouts

/-- What a class makes of its parts. -/
lemma unpack_layout {kind : RDataKind} {layout : Layout} (h : kind.layout = some layout) (buf : Bytes)
    (off length : Nat) :
    kind.unpack buf off length = (layout.part.value (off + length) buf off).map layout.make := by
  cases kind <;> cases h
  all_goals
    simp only [RDataKind.unpack, unpackUints, value_both, uintPart_read, namePart_read, textPart_read, uintPart_value,
      namePart_value, rest_value, stringsFormat_value, paramsFormat_value, windowsFormat_value, Option.bind_eq_bind,
      Option.bind_assoc, Option.bind_some, Option.map_eq_bind, Function.comp_def]

/-- The other classes read a copy of their bytes. -/
lemma unpack_copy {kind : RDataKind} (h : kind.layout = none) {buf buf' : Bytes} {off length : Nat}
    (hcopy : pySlice buf' off (off + length) = pySlice buf off (off + length)) :
    kind.unpack buf' off length = kind.unpack buf off length := by
  cases kind with
  | a | aaaa | ds | dnskey | caa | loc | tlsa | sshfp => simp only [RDataKind.unpack, hcopy]
  | _ => cases h

/-- The parts of the record end inside it. -/
def RDataEnds (rtype : Int) (record : Bytes) (off : Nat) : Prop :=
  ∀ kind ∈ RDataKind.ofRType rtype, ∀ layout ∈ kind.layout, ∃ stop, layout.part.Ends record off stop

/-- The record has a fault where its parts are read. -/
def RDataFaulty (rtype : Int) (record : Bytes) (off : Nat) : Prop :=
  ∃ kind ∈ RDataKind.ofRType rtype, ∃ layout ∈ kind.layout, layout.part.Faulty record off

/-- What is unpacked does not depend on the bytes after the record. -/
def RDataAgrees (rtype : Int) (buf : Bytes) (off length : Nat) : Prop :=
  ∀ buf', buf'.take (off + length) = buf.take (off + length) →
    unpackRData rtype buf' off length = unpackRData rtype buf off length

/-- The record is the same in buffers that agree on it. -/
lemma pySlice_agree {buf buf' : Bytes} {off length : Nat} (h : buf'.take (off + length) = buf.take (off + length)) :
    pySlice buf' off (off + length) = pySlice buf off (off + length) := by
  rw [pySlice, pySlice, ← List.drop_take, ← List.drop_take, h]

lemma unpackRData_registered {rtype : Int} {kind : RDataKind} (h : RDataKind.ofRType rtype = some kind) (buf : Bytes)
    (off length : Nat) : unpackRData rtype buf off length = kind.unpack buf off length := by
  unfold unpackRData
  split
  · rename_i hnone
    rw [h] at hnone
    cases hnone
  · rename_i kind' hkind
    rw [h] at hkind
    cases hkind
    rfl

lemma unpackRData_unregistered {rtype : Int} (h : RDataKind.ofRType rtype = none) {buf buf' : Bytes}
    {off length : Nat} (hcopy : pySlice buf' off (off + length) = pySlice buf off (off + length)) :
    unpackRData rtype buf' off length = unpackRData rtype buf off length := by
  have hunknown := unpackRData_unknown { rtype, data := [], unregistered := h }
  rw [hunknown, hunknown]
  simp only [hcopy]

/-- A buffer that ends before the record does is the only one that agrees with it. -/
lemma rdataAgrees_short {rtype : Int} {buf : Bytes} {off length : Nat} (h : buf.length < off + length) :
    RDataAgrees rtype buf off length := by
  intro buf' hagree
  have hbuf : buf.take (off + length) = buf := List.take_of_length_le (Nat.le_of_lt h)
  have hbuf' : buf'.take (off + length) = buf' := by
    apply List.take_of_length_le
    have hcount := congrArg List.length hagree
    rw [List.length_take, List.length_take] at hcount
    omega
  rw [hbuf, hbuf'] at hagree
  rw [hagree]

/-- What is unpacked does not depend on the bytes after the record when its parts end inside it, or when it has a
fault; and where something is unpacked, only then. -/
theorem unpackRData_agrees (rtype : Int) (buf : Bytes) (off length : Nat) :
    ((off + length ≤ buf.length → RDataEnds rtype (buf.take (off + length)) off ∨
        RDataFaulty rtype (buf.take (off + length)) off) → RDataAgrees rtype buf off length) ∧
      (RDataAgrees rtype buf off length → (unpackRData rtype buf off length).isSome → off + length ≤ buf.length →
        RDataEnds rtype (buf.take (off + length)) off) := by
  constructor
  · intro h
    rcases Nat.lt_or_ge buf.length (off + length) with hshort | hlen
    · exact rdataAgrees_short hshort
    intro buf' hagree
    cases hkind : RDataKind.ofRType rtype with
    | none => exact unpackRData_unregistered hkind (pySlice_agree hagree)
    | some kind =>
      rw [unpackRData_registered hkind, unpackRData_registered hkind]
      cases hlayout : kind.layout with
      | none => exact unpack_copy hlayout (pySlice_agree hagree)
      | some layout =>
        have hsettled : layout.part.Settled (buf.take (off + length)) off := by
          refine (h hlen).imp (fun hends => hends kind hkind layout hlayout) ?_
          rintro ⟨kind', hkind', layout', hlayout', hfault⟩
          rw [hkind] at hkind'
          cases hkind'
          rw [hlayout] at hlayout'
          cases hlayout'
          exact hfault
        rw [unpack_layout hlayout, unpack_layout hlayout, hsettled.value_take hlen hagree]
  · intro hagrees hsome hlen kind hkind layout hlayout
    rw [unpackRData_registered hkind, unpack_layout hlayout, Option.isSome_map] at hsome
    refine PartReader.ends_of_value_take hlen (fun buf' hagree => ?_) hsome
    have hsame := hagrees buf' hagree
    rw [unpackRData_registered hkind, unpackRData_registered hkind, unpack_layout hlayout, unpack_layout hlayout] at hsame
    exact Option.map_injective layout.make_injective hsame

/-- A text that counts more bytes than its record has takes them from what follows. -/
theorem unpackRData_txt_beyond : ¬∀ (rtype : Int) (buf buf' : Bytes) (off length : Nat),
    buf'.take (off + length) = buf.take (off + length) →
      unpackRData rtype buf' off length = unpackRData rtype buf off length := by
  intro h
  have hdiffer : unpackRData 16 [2, 0x61, 0x63] 0 2 ≠ unpackRData 16 [2, 0x61, 0x62] 0 2 := by decide +kernel
  exact hdiffer (h 16 [2, 0x61, 0x62] [2, 0x61, 0x63] 0 2 rfl)

end Rustruct.DNS

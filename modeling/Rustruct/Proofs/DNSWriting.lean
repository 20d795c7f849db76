import Rustruct.Proofs.DNSNames
import Rustruct.Proofs.Texts

/-!
# Writing DNS names

The table of a message in progress: every entry reads back its suffix from whatever the message is
going to be.
-/

namespace Rustruct.DNS

/-- From every continuation of `p`, the name at `off` reads as `suffix`. -/
structure Readable (p : Bytes) (suffix : List Bytes) (off : Nat) : Prop where
  legal : Legal suffix
  limit : off ≤ pointerLimit
  before : off < p.length
  reads : ∀ w, p <+: w → ∃ stop, NameAt w off suffix stop

lemma Readable.mono {p p' : Bytes} {suffix : List Bytes} {off : Nat} (h : Readable p suffix off)
    (hp : p <+: p') : Readable p' suffix off where
  legal := h.legal
  limit := h.limit
  before := Nat.lt_of_lt_of_le h.before hp.length_le
  reads w hw := h.reads w (hp.trans hw)

/-- Every entry of the table, where there is one. -/
def CtxOk (p : Bytes) (ctx : Option Table) : Prop :=
  ∀ table ∈ ctx, ∀ entry ∈ table, Readable p entry.1 entry.2

lemma CtxOk.mono {p p' : Bytes} {ctx : Option Table} (h : CtxOk p ctx) (hp : p <+: p') : CtxOk p' ctx :=
  fun table ht entry he => (h table ht entry he).mono hp

lemma ctxOk_none (p : Bytes) : CtxOk p none := fun _ ht => absurd ht (by simp)

/-- Entries are only ever added at the end. -/
def Grows (ctx ctx' : Option Table) : Prop :=
  match ctx, ctx' with
  | none, none => True
  | some table, some table' => table <+: table'
  | _, _ => False

lemma Grows.refl (ctx : Option Table) : Grows ctx ctx := by
  cases ctx with
  | none => trivial
  | some table => exact List.prefix_refl table

lemma Grows.trans {a b c : Option Table} (h : Grows a b) (h' : Grows b c) : Grows a c := by
  match a, b, c, h, h' with
  | none, none, none, _, _ => trivial
  | some _, some _, some _, h, h' => exact List.IsPrefix.trans h h'

/-- What a writer leaves behind. -/
structure Wrote (out : Bytes) (ctx : Option Table) (r : Out) : Prop where
  longer : out <+: r.1
  grows : Grows ctx r.2
  ok : CtxOk out ctx → CtxOk r.1 r.2

lemma Wrote.trans {out : Bytes} {ctx : Option Table} {r r' : Out} (h : Wrote out ctx r)
    (h' : Wrote r.1 r.2 r') : Wrote out ctx r' where
  longer := h.longer.trans h'.longer
  grows := h.grows.trans h'.grows
  ok hok := h'.ok (h.ok hok)

/-- Bytes that are no name. -/
lemma wrote_bytes (out b : Bytes) (ctx : Option Table) : Wrote out ctx (out ++ b, ctx) where
  longer := List.prefix_append _ _
  grows := .refl ctx
  ok h := h.mono (List.prefix_append _ _)

lemma Wrote.of_eq {out out' : Bytes} {ctx : Option Table} {r : Out} (h : Wrote out' ctx r)
    (hp : out <+: out') : Wrote out ctx r where
  longer := hp.trans h.longer
  grows := h.grows
  ok hok := h.ok (hok.mono hp)

lemma nameAt_label {out w label : Bytes} {rest : List Bytes} {stop : Nat} (pos : 1 ≤ label.length)
    (short : label.length ≤ maxLabel) (hw : out ++ UInt8.ofNat label.length :: label <+: w)
    (tail : NameAt w (out ++ UInt8.ofNat label.length :: label).length rest stop) :
    NameAt w out.length (label :: rest) stop := by
  obtain ⟨t, rfl⟩ := hw
  refine .label pos short ?_ ?_ ?_
  · simp
  · rw [pySlice_add, show out ++ UInt8.ofNat label.length :: label ++ t =
      (out ++ [UInt8.ofNat label.length]) ++ (label ++ t) by simp]
    rw [List.drop_left' (by simp), List.take_left' rfl]
  · rw [show out.length + 1 + label.length = (out ++ UInt8.ofNat label.length :: label).length by
      simp [Nat.add_assoc, Nat.add_comm label.length]]
    exact tail

lemma nameAt_root {out w : Bytes} (hw : out ++ [0] <+: w) : NameAt w out.length [] (out ++ [0]).length := by
  obtain ⟨t, rfl⟩ := hw
  rw [List.length_append]
  exact .root (by simp)

lemma pointer_kind : ∀ n < 64, (0xC0 ||| n) < 256 ∧ (0xC0 ||| n) &&& 0xC0 = 0xC0 ∧
    (0xC0 ||| n) &&& 0x3F = n := by decide

lemma nameAt_pointer {out w : Bytes} {target stop : Nat} {labels : List Bytes}
    (hlimit : target ≤ pointerLimit) (hbefore : target < out.length)
    (hw : out ++ [UInt8.ofNat (0xC0 ||| target / 256), UInt8.ofNat (target % 256)] <+: w)
    (tail : NameAt w target labels stop) : NameAt w out.length labels (out.length + 2) := by
  obtain ⟨t, rfl⟩ := hw
  have hhi : target / 256 < 64 := by
    unfold pointerLimit at hlimit
    omega
  obtain ⟨hlt, hkind, hlow⟩ := pointer_kind _ hhi
  have hnat : (UInt8.ofNat (0xC0 ||| target / 256)).toNat = 0xC0 ||| target / 256 := by
    rw [UInt8.toNat_ofNat', Nat.mod_eq_of_lt hlt]
  have hnat' : (UInt8.ofNat (target % 256)).toNat = target % 256 := by
    rw [UInt8.toNat_ofNat']
    omega
  have hhead : (out ++ [UInt8.ofNat (0xC0 ||| target / 256), UInt8.ofNat (target % 256)] ++ t)[out.length]? =
      some (UInt8.ofNat (0xC0 ||| target / 256)) := by simp
  refine .pointer hhead ?_ ?_ tail
  · rw [hnat, hkind]
  · have h₂ : (out ++ [UInt8.ofNat (0xC0 ||| target / 256), UInt8.ofNat (target % 256)] ++ t)[out.length + 1]? =
        some (UInt8.ofNat (target % 256)) := by simp
    unfold pointerTarget
    rw [if_neg (by simp), hhead, h₂]
    simp only [Option.bind_eq_bind, Option.bind_some, hnat, hnat', hlow]
    rw [if_neg (by omega)]
    congr 1
    omega

lemma writeName_none (out : Bytes) {labels : List Bytes} (hl : Legal labels) :
    (writeName out labels none).2 = none ∧ out <+: (writeName out labels none).1 ∧
      ∀ w, (writeName out labels none).1 <+: w →
        NameAt w out.length labels (writeName out labels none).1.length := by
  induction labels generalizing out with
  | nil => exact ⟨rfl, List.prefix_append _ _, fun w hw => nameAt_root hw⟩
  | cons label rest ih =>
    obtain ⟨hctx, hpre, hreads⟩ := ih (out ++ UInt8.ofNat label.length :: label) hl.tail
    refine ⟨hctx, (List.prefix_append _ _).trans hpre, fun w hw => ?_⟩
    exact nameAt_label (hl.pos _ (by simp)) (hl.short _ (by simp)) (hpre.trans hw) (hreads w hw)

lemma Table.get_eq_some {table : Table} {suffix : List Bytes} {off : Nat}
    (h : table.get suffix = some off) : (suffix, off) ∈ table := by
  obtain ⟨⟨s, o⟩, hfind, rfl⟩ := Option.map_eq_some_iff.mp h
  have hs := List.find?_some hfind
  obtain rfl : s = suffix := by simpa using hs
  exact List.mem_of_find?_eq_some hfind

/-- A name written with a table: pointers go to entries of its own length, and those it makes on the
way are complete once it is. -/
lemma writeName_some (out : Bytes) {labels : List Bytes} (hl : Legal labels) (table : Table) :
    ∃ out' table', writeName out labels (some table) = (out', some table') ∧ out <+: out' ∧
      table <+: table' ∧
      ((∀ entry ∈ table, entry.1.length ≤ labels.length → Readable out entry.1 entry.2) →
        (∀ w, out' <+: w → NameAt w out.length labels out'.length) ∧
        ∀ entry ∈ table', entry ∈ table ∨ Readable out' entry.1 entry.2) := by
  induction labels generalizing out table with
  | nil =>
    exact ⟨_, table, rfl, List.prefix_append _ _, List.prefix_refl _, fun _ =>
      ⟨fun w hw => nameAt_root hw, fun entry he => .inl he⟩⟩
  | cons label rest ih =>
    rw [writeName]
    cases hget : Table.get table (label :: rest) with
    | some target =>
      refine ⟨_, table, rfl, List.prefix_append _ _, List.prefix_refl _, fun ht =>
        ⟨fun w hw => ?_, fun entry he => .inl he⟩⟩
      have hr := ht _ (Table.get_eq_some hget) (Nat.le_refl _)
      obtain ⟨stop, hname⟩ := hr.reads w ((List.prefix_append _ _).trans hw)
      rw [List.length_append]
      exact nameAt_pointer hr.limit hr.before hw hname
    | none =>
      simp only
      set out₁ := out ++ UInt8.ofNat label.length :: label
      set table₁ := if out.length ≤ pointerLimit then table ++ [(label :: rest, out.length)] else table
      have hout₁ : out <+: out₁ := List.prefix_append _ _
      have htable : table <+: table₁ := by
        simp only [table₁]
        split_ifs
        · exact List.prefix_append _ _
        · exact List.prefix_refl _
      have hnew : ∀ entry ∈ table₁, entry ∈ table ∨
          out.length ≤ pointerLimit ∧ entry = (label :: rest, out.length) := by
        intro entry he
        simp only [table₁] at he
        split_ifs at he with hlim
        · obtain he | he := List.mem_append.mp he
          · exact .inl he
          · exact .inr ⟨hlim, List.mem_singleton.mp he⟩
        · exact .inl he
      obtain ⟨out', table', heq, hpre, htab, hrest⟩ := ih out₁ hl.tail table₁
      refine ⟨out', table', heq, hout₁.trans hpre, htable.trans htab, fun ht => ?_⟩
      obtain ⟨hreads, hentries⟩ := hrest (by
        intro entry he hlen
        obtain he | ⟨-, rfl⟩ := hnew entry he
        · exact (ht entry he (Nat.le_trans hlen (Nat.le_succ _))).mono hout₁
        · exact absurd hlen (by simp))
      have hwhole : ∀ w, out' <+: w → NameAt w out.length (label :: rest) out'.length := fun w hw =>
        nameAt_label (hl.pos _ (by simp)) (hl.short _ (by simp)) (hpre.trans hw) (hreads w hw)
      refine ⟨hwhole, fun entry he => ?_⟩
      obtain he | he := hentries entry he
      · obtain he | ⟨hlim, rfl⟩ := hnew entry he
        · exact .inl he
        · refine .inr ⟨hl, hlim, ?_, fun w hw => ⟨_, hwhole w hw⟩⟩
          have := hpre.length_le
          simp only [out₁, List.length_append, List.length_cons] at this
          omega
      · exact .inr he

/-- A name as `decode_name` returns it: without its trailing dot. -/
def nameOf (value : String) : String :=
  String.ofList (if value.toList.getLast? = some '.' then value.toList.dropLast else value.toList)

/-- No trailing dot. -/
def Normal (value : String) : Prop := value.toList.getLast? ≠ some '.'

lemma nameOf_normal {value : String} (h : Normal value) : nameOf value = value := by
  rw [nameOf, if_neg h, String.ofList_toList]

lemma decodeLabel_encode {part : List Char} {label : Bytes}
    (h : encode (String.ofList part) .latin1 = some label) : decodeLabel label = part := by
  have hd := decode_encode h
  simp only [decode, Option.some.injEq] at hd
  exact String.ofList_injective hd

lemma decodeLabel_mapM {parts : List (List Char)} {labels : List Bytes}
    (h : (parts.mapM fun part => encode (String.ofList part) .latin1) = some labels) :
    labels.map decodeLabel = parts := by
  induction parts generalizing labels with
  | nil =>
    obtain rfl : [] = labels := by simpa using h
    rfl
  | cons part parts ih =>
    simp only [List.mapM_cons, Option.bind_eq_bind, Option.bind_eq_some_iff, Option.pure_def,
      Option.some.injEq] at h
    obtain ⟨label, hlabel, rest, hrest, rfl⟩ := h
    rw [List.map_cons, decodeLabel_encode hlabel, ih hrest]

lemma encodeLabels_eq_some {value : String} {labels : List Bytes} (h : encodeLabels value = some labels) :
    Legal labels ∧ joinLabels (labels.map decodeLabel) = nameOf value := by
  simp only [encodeLabels, Option.bind_eq_bind, Option.bind_eq_some_iff] at h
  obtain ⟨labels', hlabels, h⟩ := h
  split_ifs at h with hlegal
  cases h
  refine ⟨⟨fun l hl => (hlegal.1 l hl).1, fun l hl => (hlegal.1 l hl).2, hlegal.2⟩, ?_⟩
  rw [nameOf, joinLabels]
  congr 1
  generalize (if value.toList.getLast? = some '.' then value.toList.dropLast else value.toList) = stripped
    at hlabels ⊢
  split_ifs at hlabels with hempty
  · cases hlabels
    rw [hempty]
    rfl
  · rw [decodeLabel_mapM hlabels, List.intercalate_splitOn]

section Names

variable {value : String} {out : Bytes} {ctx : Option Table}

/-- `write_name` with or without a table, and what `decode_name` reads there. -/
lemma packName_wrote {r : Out} (h : packName value out ctx = some r) :
    Wrote out ctx r ∧ (CtxOk out ctx → ∀ w, r.1 <+: w →
      decodeName w out.length = some (nameOf value, r.1.length)) := by
  simp only [packName, Option.bind_eq_bind, Option.bind_eq_some_iff, Option.some.injEq] at h
  obtain ⟨labels, hlabels, rfl⟩ := h
  obtain ⟨hl, hname⟩ := encodeLabels_eq_some hlabels
  rw [← hname]
  cases ctx with
  | none =>
    obtain ⟨hctx, hpre, hreads⟩ := writeName_none out hl
    refine ⟨⟨hpre, ?_, fun _ => ?_⟩, fun _ w hw => decodeName_nameAt hl (hreads w hw)⟩
    · rw [hctx]
      trivial
    · rw [hctx]
      exact ctxOk_none _
  | some table =>
    obtain ⟨out', table', heq, hpre, htab, hrest⟩ := writeName_some out hl table
    rw [heq]
    refine ⟨⟨hpre, htab, fun hok table₁ ht entry he => ?_⟩, fun hok w hw => ?_⟩
    · obtain rfl := Option.some.inj ht
      obtain he | he := (hrest fun entry he _ => hok table rfl entry he).2 entry he
      · exact (hok table rfl entry he).mono hpre
      · exact he
    · exact decodeName_nameAt hl ((hrest fun entry he _ => hok table rfl entry he).1 w hw)

lemma packPlainName_eq_some {out' : Bytes} (h : packPlainName value out = some out') :
    packName value out none = some (out', none) := by
  simp only [packPlainName, packName, Option.bind_eq_bind, Option.bind_eq_some_iff,
    Option.some.injEq] at h ⊢
  obtain ⟨labels, hlabels, rfl⟩ := h
  refine ⟨labels, hlabels, Prod.ext rfl ?_⟩
  exact (writeName_none out (encodeLabels_eq_some hlabels).1).1

/-- A name written without a table. -/
lemma packPlainName_reads {out' : Bytes} (h : packPlainName value out = some out') :
    out <+: out' ∧ ∀ w, out' <+: w → decodeName w out.length = some (nameOf value, out'.length) := by
  obtain ⟨hwrote, hreads⟩ := packName_wrote (packPlainName_eq_some h)
  exact ⟨hwrote.longer, hreads (ctxOk_none out)⟩

end Names

end Rustruct.DNS

import Rustruct.Reading
import Rustruct.Proofs.Runs

/-!
# One field after another

A run of fixed items checks for the bytes of all its items at once, and a run of bits fields for its
bytes. Where a run returns, so do its items one by one, each with its own check.
-/

namespace Rustruct

/-- A scope between two of its fields, which may be within a byte. -/
structure BitScan where
  fs : Frames
  bit : Nat
  map : List (String × Value)
  deferred : List Deferred

/-- A scope between two of its ops. -/
def Scan.bits (s : Scan) : BitScan :=
  { fs := s.cur.fs, bit := 8 * s.cur.pos, map := s.map, deferred := s.deferred }

section Pieces

variable (H : Hashes) (buf : Bytes) (limit : Nat)

/-- One field, with a check of its own. -/
def Piece.run : Piece → BitScan → URes BitScan
  | .fixed kind reg span key, s =>
    if s.bit % 8 = 0 ∧ s.bit / 8 + kind.width ≤ limit then do
      let (v, fs) ← readFixedItem buf { off := 0, kind, reg, span, key } (s.bit / 8) s.fs
      .ok { s with fs, bit := s.bit + 8 * kind.width, map := mapSet s.map key v }
    else Exec.panic
  | .bit item, s =>
    if s.bit + item.width ≤ 8 * limit then do
      let v := signBits item.width item.signed (bitsAt buf item.width s.bit 0)
      let fs ← storeReg s.fs item.reg v (s.bit / 8)
      .ok { s with fs, bit := s.bit + item.width, map := mapSet s.map item.key (.int v) }
    else Exec.panic
  | .op o, s =>
    if s.bit % 8 = 0 then do
      let t ← runOp H buf o limit { cur := { fs := s.fs, pos := s.bit / 8 }, map := s.map, deferred := s.deferred }
      .ok t.bits
    else Exec.panic

def runPieces : List Piece → BitScan → URes BitScan
  | [], s => .ok s
  | p :: pieces, s => do runPieces pieces (← p.run H buf limit s)

lemma runPieces_append (a b : List Piece) (s : BitScan) :
    runPieces H buf limit (a ++ b) s = runPieces H buf limit a s >>= runPieces H buf limit b := by
  induction a generalizing s with
  | nil => rfl
  | cons p a ih =>
    rw [List.cons_append, runPieces, runPieces]
    cases p.run H buf limit s with
    | error t => rfl
    | ok s' => exact ih s'

end Pieces

section Runs

variable {H : Hashes} {buf : Bytes} {limit : Nat}

lemma readFixedItem_off {item : FixedItem} {base : Nat} (h : base + item.off < usizeSize) (fs : Frames) :
    readFixedItem buf item base fs = readFixedItem buf { item with off := 0 } (base + item.off) fs := by
  have hpos : wrapAdd base item.off = wrapAdd (base + item.off) 0 := by
    rw [wrapAdd_of_lt h, wrapAdd_of_lt (by rwa [Nat.add_zero]), Nat.add_zero]
  rw [readFixedItem_eq, readFixedItem_eq]
  simp only [hpos]

/-- The items take their widths, and all of them fit. -/
lemma fixedPieces_bit {items : List FixedItem} {s r : BitScan}
    (h : runPieces H buf limit (items.map FixedItem.piece) s = .ok r) (hne : items ≠ []) :
    r.bit = s.bit + 8 * runWidth items ∧ s.bit / 8 + runWidth items ≤ limit := by
  induction items generalizing s with
  | nil => exact absurd rfl hne
  | cons item items ih =>
    obtain ⟨t, ht, h⟩ := Exec.bind_eq_ok.mp h
    rw [FixedItem.piece, Piece.run] at ht
    split_ifs at ht with hfit
    · obtain ⟨⟨v, fs⟩, -, ht⟩ := Exec.bind_eq_ok.mp ht
      cases ht
      rw [runWidth_cons]
      cases items with
      | nil =>
        cases h
        have hzero : runWidth [] = 0 := rfl
        simp only
        exact ⟨by omega, by omega⟩
      | cons item' items =>
        obtain ⟨hbit, hle⟩ := ih h (List.cons_ne_nil _ _)
        simp only at hbit hle
        exact ⟨by omega, by omega⟩
    · cases ht

/-- Where the items do not wrap, they are read one by one as the run reads them. -/
lemma fixedPieces_iff {b start : Nat} {items : List FixedItem} (hc : Consecutive start items)
    (hfit : b + start + runWidth items ≤ limit) (hl : limit < usizeSize) {fs : Frames}
    {map : List (String × Value)} {deferred : List Deferred} {r : BitScan} :
    runPieces H buf limit (items.map FixedItem.piece) ⟨fs, 8 * (b + start), map, deferred⟩ = .ok r ↔
      ∃ fs' map', readFixedItems buf b items fs map = .ok (fs', map') ∧
        r = ⟨fs', 8 * (b + start + runWidth items), map', deferred⟩ := by
  induction items generalizing start fs map with
  | nil =>
    constructor
    · intro h
      cases h
      exact ⟨fs, map, rfl, rfl⟩
    · rintro ⟨fs', map', h, rfl⟩
      cases h
      rfl
  | cons item items ih =>
    obtain ⟨hoff, hc⟩ := hc
    rw [runWidth_cons] at hfit
    have hitem : readFixedItem buf item b fs = readFixedItem buf { item with off := 0 } (b + start) fs := by
      rw [← hoff]
      exact readFixedItem_off (by omega) fs
    have hbit : 8 * (b + start) % 8 = 0 ∧ 8 * (b + start) / 8 + item.kind.width ≤ limit := by omega
    have hdiv : 8 * (b + start) / 8 = b + start := by omega
    have hnext : 8 * (b + start) + 8 * item.kind.width = 8 * (b + (start + item.kind.width)) := by omega
    have hstop : b + start + runWidth (item :: items) = b + (start + item.kind.width) + runWidth items := by
      rw [runWidth_cons]
      omega
    have hrest := @ih (start + item.kind.width) hc (by omega)
    rw [List.map_cons, runPieces, FixedItem.piece, Piece.run, if_pos hbit, hdiv, readFixedItems_cons,
      hitem, hnext, hstop]
    constructor
    · intro h
      obtain ⟨t, ht, h⟩ := Exec.bind_eq_ok.mp h
      obtain ⟨⟨v, fs'⟩, hv, ht⟩ := Exec.bind_eq_ok.mp ht
      cases ht
      obtain ⟨fs'', map'', hread, rfl⟩ := hrest.mp h
      exact ⟨fs'', map'', Exec.bind_eq_ok.mpr ⟨(v, fs'), Exec.mapErr_eq_ok.mpr hv, hread⟩, rfl⟩
    · rintro ⟨fs'', map'', h, rfl⟩
      obtain ⟨⟨v, fs'⟩, hv, h⟩ := Exec.bind_eq_ok.mp h
      refine Exec.bind_eq_ok.mpr ⟨_, Exec.bind_eq_ok.mpr ⟨(v, fs'), Exec.mapErr_eq_ok.mp hv, rfl⟩, ?_⟩
      exact hrest.mpr ⟨fs'', map'', h, rfl⟩

lemma readBit_bitAt {base i : Nat} (h : 8 * base + i < 8 * buf.length) :
    readBit buf base i = .ok (BitStream.bitAt buf (8 * base + i)) := by
  have hdiv : (8 * base + i) / 8 = base + i / 8 := by omega
  have hmod : (8 * base + i) % 8 = i % 8 := by omega
  have hlt : base + i / 8 < buf.length := by omega
  rw [readBit, List.getElem?_eq_getElem hlt, BitStream.bitAt, hdiv, hmod, List.getD_eq_getElem _ _ hlt]

lemma readBitsFrom_bitsAt {base width i v : Nat} (h : 8 * base + i + width ≤ 8 * buf.length)
    (hcount : i + width < u32Size) : readBitsFrom buf base width i v = .ok (bitsAt buf width (8 * base + i) v) := by
  induction width generalizing i v with
  | zero => rfl
  | succ width ih =>
    rw [readBitsFrom, readBit_bitAt (by omega), Exec.bind_ok, wrapAddU32_of_lt (by omega), ih (by omega) (by omega),
      bitsAt]
    rfl

/-- The place of a failure is all that the position matters for. -/
lemma storeReg_pos {fs fs' : Frames} {reg : Option Nat} {v : Int} {pos : Nat} (pos' : Nat)
    (h : storeReg fs reg v pos = .ok fs') : storeReg fs reg v pos' = .ok fs' := by
  cases reg with
  | none => exact h
  | some i =>
    unfold storeReg at h ⊢
    dsimp only at h ⊢
    cases hv : checkedI64 v with
    | some w =>
      rw [hv] at h
      exact h
    | none =>
      rw [hv] at h
      cases h

lemma bitPieces_bit {items : List BitItem} {s r : BitScan}
    (h : runPieces H buf limit (items.map .bit) s = .ok r) (hne : items ≠ []) :
    r.bit = s.bit + bitWidth items ∧ s.bit + bitWidth items ≤ 8 * limit := by
  induction items generalizing s with
  | nil => exact absurd rfl hne
  | cons item items ih =>
    obtain ⟨t, ht, h⟩ := Exec.bind_eq_ok.mp h
    rw [Piece.run] at ht
    have hsum : bitWidth (item :: items) = item.width + bitWidth items := rfl
    split_ifs at ht with hfit
    · obtain ⟨fs, -, ht⟩ := Exec.bind_eq_ok.mp ht
      cases ht
      cases items with
      | nil =>
        cases h
        have hzero : bitWidth [] = 0 := rfl
        simp only
        exact ⟨by omega, by omega⟩
      | cons item' items =>
        obtain ⟨hbit, hle⟩ := ih h (List.cons_ne_nil _ _)
        simp only at hbit hle
        exact ⟨by omega, by omega⟩
    · cases ht

lemma bitPieces_iff {b o : Nat} {items : List BitItem} (hfit : 8 * b + o + bitWidth items ≤ 8 * limit)
    (hcount : o + bitWidth items < u32Size) (hl : limit ≤ buf.length)
    {fs : Frames} {map : List (String × Value)} {deferred : List Deferred} {r : BitScan} :
    runPieces H buf limit (items.map .bit) ⟨fs, 8 * b + o, map, deferred⟩ = .ok r ↔
      ∃ fs' map', readBitItems buf b items o fs map = .ok (fs', map') ∧
        r = ⟨fs', 8 * b + o + bitWidth items, map', deferred⟩ := by
  induction items generalizing o fs map with
  | nil =>
    constructor
    · intro h
      cases h
      exact ⟨fs, map, rfl, rfl⟩
    · rintro ⟨fs', map', h, rfl⟩
      cases h
      rfl
  | cons item items ih =>
    have hsum : bitWidth (item :: items) = item.width + bitWidth items := rfl
    rw [hsum] at hfit hcount
    have hread : readBits buf b o item =
        .ok (signBits item.width item.signed (bitsAt buf item.width (8 * b + o) 0)) := by
      rw [readBits, readBitsFrom_bitsAt (by omega) (by omega)]
      rfl
    have hstop : 8 * b + o + bitWidth (item :: items) = 8 * b + (o + item.width) + bitWidth items := by
      rw [hsum]
      omega
    have hnext : 8 * b + o + item.width = 8 * b + (o + item.width) := Nat.add_assoc _ _ _
    have hrest := @ih (o + item.width) (by omega) (by omega)
    rw [List.map_cons, runPieces, Piece.run, if_pos (by simp only; omega), readBitItems_cons, hread, Exec.bind_ok, hstop,
      wrapAddU32_of_lt (by omega)]
    simp only [hnext]
    constructor
    · intro h
      obtain ⟨t, ht, h⟩ := Exec.bind_eq_ok.mp h
      obtain ⟨fs', hst, ht⟩ := Exec.bind_eq_ok.mp ht
      cases ht
      obtain ⟨fs'', map'', hread, rfl⟩ := hrest.mp h
      exact ⟨fs'', map'', Exec.bind_eq_ok.mpr ⟨fs', Exec.mapErr_eq_ok.mpr (storeReg_pos b hst), hread⟩, rfl⟩
    · rintro ⟨fs'', map'', h, rfl⟩
      obtain ⟨fs', hst, h⟩ := Exec.bind_eq_ok.mp h
      refine Exec.bind_eq_ok.mpr ⟨_, Exec.bind_eq_ok.mpr ⟨fs', storeReg_pos _ (Exec.mapErr_eq_ok.mp hst), rfl⟩, ?_⟩
      exact hrest.mpr ⟨fs'', map'', h, rfl⟩

/-- An op returns exactly when its fields do. -/
lemma opPieces_iff {op : Op} (hop : op.Laid) (hbits : op.bitsFit) (hl : limit ≤ buf.length)
    (hlen : buf.length ≤ isizeMax) {s : Scan}
    (hpos : s.cur.pos ≤ limit) {r : BitScan} :
    runPieces H buf limit op.pieces s.bits = .ok r ↔ ∃ t, runOp H buf op limit s = .ok t ∧ t.bits = r := by
  have hmax := isizeMax_lt
  obtain ⟨⟨fs, pos⟩, map, deferred⟩ := s
  cases op with
  | fixed width items =>
    have hne : items ≠ [] := by
      rintro rfl
      exact hop
    rw [runOp]
    constructor
    · intro h
      obtain ⟨-, hle⟩ := fixedPieces_bit h hne
      have hle' : pos + runWidth items ≤ limit := by simpa [Scan.bits] using hle
      obtain ⟨hc, rfl⟩ := laidRun_consecutive hop (by omega)
      obtain ⟨fs', map', hread, rfl⟩ := (fixedPieces_iff (b := pos) hc (by omega) (by omega)).mp h
      refine ⟨⟨⟨fs', pos + runWidth items⟩, map', deferred⟩, ?_, rfl⟩
      exact Exec.bind_eq_ok.mpr ⟨(), need_eq_ok.mpr hle', Exec.bind_eq_ok.mpr ⟨(fs', map'), hread, rfl⟩⟩
    · rintro ⟨t, h, rfl⟩
      obtain ⟨_, hneed, h⟩ := Exec.bind_eq_ok.mp h
      obtain ⟨⟨fs', map'⟩, hread, h⟩ := Exec.bind_eq_ok.mp h
      have hend := laidRun_read hlen hop (by omega) hread
      obtain ⟨hc, rfl⟩ := laidRun_consecutive hop (by omega)
      have hle : pos + runWidth items ≤ limit := need_eq_ok.mp hneed
      cases h
      exact (fixedPieces_iff (b := pos) hc (by omega) (by omega)).mpr ⟨fs', map', hread, rfl⟩
  | bitRun nbytes items =>
    obtain ⟨hne, htotal⟩ := hop
    rw [bitTotal_of_lt hbits] at htotal
    have hcount : 0 + bitWidth items < u32Size := by rwa [Nat.zero_add]
    rw [runOp]
    constructor
    · intro h
      obtain ⟨-, hle⟩ := bitPieces_bit h hne
      have hle' : 8 * pos + 8 * nbytes ≤ 8 * limit := by simpa [Scan.bits, htotal] using hle
      obtain ⟨fs', map', hread, rfl⟩ := (bitPieces_iff (b := pos) (o := 0) (by omega) hcount hl).mp h
      refine ⟨⟨⟨fs', pos + nbytes⟩, map', deferred⟩, ?_, ?_⟩
      · exact Exec.bind_eq_ok.mpr ⟨(), need_eq_ok.mpr (by simp only; omega), Exec.bind_eq_ok.mpr ⟨(fs', map'), hread, rfl⟩⟩
      · simp only [Scan.bits, BitScan.mk.injEq, true_and, and_true]
        omega
    · rintro ⟨t, h, rfl⟩
      obtain ⟨_, hneed, h⟩ := Exec.bind_eq_ok.mp h
      obtain ⟨⟨fs', map'⟩, hread, h⟩ := Exec.bind_eq_ok.mp h
      have hle : pos + nbytes ≤ limit := need_eq_ok.mp hneed
      cases h
      refine (bitPieces_iff (b := pos) (o := 0) (by omega) hcount hl).mpr ⟨fs', map', hread, ?_⟩
      simp only [Scan.bits, BitScan.mk.injEq, true_and, and_true]
      omega
  | _ =>
    have haligned : 8 * pos % 8 = 0 := by omega
    have hdiv : 8 * pos / 8 = pos := by omega
    simp only [Op.pieces, runPieces, Piece.run, Scan.bits, if_pos haligned, hdiv, Exec.bind_ok_self]
    constructor
    · intro h
      obtain ⟨t, ht, h⟩ := Exec.bind_eq_ok.mp h
      cases h
      exact ⟨t, ht, rfl⟩
    · rintro ⟨t, ht, rfl⟩
      exact Exec.bind_eq_ok.mpr ⟨t, ht, rfl⟩

/-- The ops of a scope return exactly when its fields do, one after another. -/
lemma opsPieces_iff {ops : List Op} (hops : ∀ op ∈ ops, op.Laid ∧ op.bitsFit) (hl : limit ≤ buf.length)
    (hlen : buf.length ≤ isizeMax) {s : Scan} (hpos : s.cur.pos ≤ limit) {r : BitScan} :
    runPieces H buf limit (piecesOf ops) s.bits = .ok r ↔ ∃ t, runOps H buf ops limit s = .ok t ∧ t.bits = r := by
  induction ops generalizing s with
  | nil =>
    constructor
    · intro h
      cases h
      exact ⟨s, rfl, rfl⟩
    · rintro ⟨t, h, rfl⟩
      cases h
      rfl
  | cons op ops ih =>
    have hop := @opPieces_iff H buf limit op (hops op List.mem_cons_self).1 (hops op List.mem_cons_self).2 hl hlen s hpos
    have hrest := @ih fun o ho => hops o (List.mem_cons_of_mem _ ho)
    have hnext {t : Scan} (ht : runOp H buf op limit s = .ok t) : t.cur.pos ≤ limit :=
      (runOp_advances H buf op limit s t ht).2 hpos
    rw [piecesOf_cons, runPieces_append, runOps]
    constructor
    · intro h
      obtain ⟨m, hm, h⟩ := Exec.bind_eq_ok.mp h
      obtain ⟨t, ht, rfl⟩ := hop.mp hm
      obtain ⟨u, hu, rfl⟩ := (hrest (hnext ht)).mp h
      exact ⟨u, Exec.bind_eq_ok.mpr ⟨t, ht, hu⟩, rfl⟩
    · rintro ⟨u, h, rfl⟩
      obtain ⟨t, ht, hu⟩ := Exec.bind_eq_ok.mp h
      exact Exec.bind_eq_ok.mpr ⟨t.bits, hop.mpr ⟨t, ht, rfl⟩, (hrest (hnext ht)).mpr ⟨u, hu, rfl⟩⟩

end Runs

end Rustruct

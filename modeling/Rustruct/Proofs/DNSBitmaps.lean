import Rustruct.Lib.BitStream
import Rustruct.Proofs.DNSFields
import Mathlib.Data.List.Sort

/-!
# Type bitmaps

The windows of a type bitmap are a set of types: a type is in it when its bit is set in the bitmap of its
window. Encoding lists a set of windows in order, and decoding lists the types of them in order.
-/

namespace Rustruct.DNS

open BitStream

/-- The mask of a bit of a byte. -/
lemma mark_eq {bit : Nat} (h : bit < 8) : 0x80 / 2 ^ bit = 2 ^ (7 - bit) := by
  have hall : ∀ bit < 8, 0x80 / 2 ^ bit = 2 ^ (7 - bit) := by decide
  exact hall bit h

lemma marked_iff {bitmap : Bytes} {i bit : Nat} (h : bit < 8) :
    (bitmap.getD i 0).toNat &&& 0x80 / 2 ^ bit ≠ 0 ↔ bitAt bitmap (8 * i + bit) := by
  have hdiv : (8 * i + bit) / 8 = i := by omega
  have hmod : (8 * i + bit) % 8 = bit := by omega
  have hpow : 0 < 2 ^ (7 - bit) := Nat.two_pow_pos _
  rw [bitAt, hdiv, hmod, mark_eq h, Nat.and_two_pow]
  cases (bitmap.getD i 0).toNat.testBit (7 - bit) <;> simp

lemma mem_bitmapTypes {window : Nat} {bitmap : Bytes} {t : Int} :
    t ∈ bitmapTypes window bitmap ↔ ∃ k < 8 * bitmap.length, bitAt bitmap k ∧ t = (window * 256 + k : Nat) := by
  simp only [bitmapTypes, List.mem_flatMap, List.mem_filterMap, List.mem_range, Option.ite_none_right_eq_some]
  constructor
  · rintro ⟨i, hi, bit, hbit, hmark, heq⟩
    have hnum : window * 256 + i * 8 + bit = window * 256 + (8 * i + bit) := by omega
    exact ⟨8 * i + bit, by omega, (marked_iff hbit).mp hmark, by rw [← Option.some.inj heq, hnum]⟩
  · rintro ⟨k, hk, hbit, rfl⟩
    have hsplit : 8 * (k / 8) + k % 8 = k := Nat.div_add_mod k 8
    have hmod : k % 8 < 8 := Nat.mod_lt _ (by decide)
    have hnum : window * 256 + k / 8 * 8 + k % 8 = window * 256 + k := by omega
    exact ⟨k / 8, by omega, k % 8, hmod, (marked_iff hmod).mpr (by rwa [hsplit]), by rw [hnum]⟩

lemma bitmapTypes_sorted (window : Nat) (bitmap : Bytes) : (bitmapTypes window bitmap).Pairwise (· < ·) := by
  rw [bitmapTypes, List.pairwise_flatMap]
  constructor
  · intro i hi
    rw [List.pairwise_filterMap]
    refine List.pairwise_lt_range.imp ?_
    intro bit bit' hlt t ht t' ht'
    obtain ⟨-, h⟩ := Option.ite_none_right_eq_some.mp ht
    obtain ⟨-, h'⟩ := Option.ite_none_right_eq_some.mp ht'
    rw [← Option.some.inj h, ← Option.some.inj h']
    omega
  · refine List.pairwise_lt_range.imp ?_
    intro i i' hlt t ht t' ht'
    obtain ⟨bit, hbit, ht⟩ := List.mem_filterMap.mp ht
    obtain ⟨bit', -, ht'⟩ := List.mem_filterMap.mp ht'
    obtain ⟨-, h⟩ := Option.ite_none_right_eq_some.mp ht
    obtain ⟨-, h'⟩ := Option.ite_none_right_eq_some.mp ht'
    have hlow := List.mem_range.mp hbit
    rw [← Option.some.inj h, ← Option.some.inj h']
    omega

/-- What is trimmed off is zeros, and what is left does not end with one. -/
lemma trimBitmap_spec (bitmap : Bytes) :
    (∃ n, bitmap = trimBitmap bitmap ++ List.replicate n 0) ∧ (trimBitmap bitmap).getLast? ≠ some 0 := by
  have hsplit := List.takeWhile_append_dropWhile (p := fun b : Byte => b == 0) (l := bitmap.reverse)
  constructor
  · refine ⟨(bitmap.reverse.takeWhile fun b => b == 0).length, ?_⟩
    have hzeros : bitmap.reverse.takeWhile (fun b => b == 0) =
        List.replicate (bitmap.reverse.takeWhile fun b => b == 0).length 0 := by
      rw [List.eq_replicate_iff]
      exact ⟨rfl, fun b hb => by simpa using List.all_eq_true.mp List.all_takeWhile b hb⟩
    conv_lhs => rw [← List.reverse_reverse bitmap, ← hsplit, List.reverse_append, hzeros, List.reverse_replicate]
    rfl
  · rw [trimBitmap, List.getLast?_reverse]
    intro h
    have hdrop := List.head?_dropWhile_not (fun b : Byte => b == 0) bitmap.reverse
    rw [h] at hdrop
    simp at hdrop

lemma bitAt_append_zeros (bitmap : Bytes) (n k : Nat) : bitAt (bitmap ++ List.replicate n 0) k = bitAt bitmap k := by
  have hget : (bitmap ++ List.replicate n 0).getD (k / 8) 0 = bitmap.getD (k / 8) 0 := by
    by_cases hk : k / 8 < bitmap.length
    · rw [List.getD_append _ _ _ _ hk]
    · rw [List.getD_append_right _ _ _ _ (by omega), List.getD_eq_default bitmap _ (by omega),
        List.getD_eq_getElem?_getD, List.getElem?_replicate]
      split_ifs <;> rfl
  rw [bitAt, bitAt, hget]

lemma bitAt_trimBitmap (bitmap : Bytes) (k : Nat) : bitAt (trimBitmap bitmap) k = bitAt bitmap k := by
  obtain ⟨n, hn⟩ := (trimBitmap_spec bitmap).1
  conv_rhs => rw [hn]
  rw [bitAt_append_zeros]

lemma trimBitmap_le (bitmap : Bytes) : (trimBitmap bitmap).length ≤ bitmap.length := by
  obtain ⟨n, hn⟩ := (trimBitmap_spec bitmap).1
  have hlen := congrArg List.length hn
  rw [List.length_append] at hlen
  omega

/-- Setting one bit of a bitmap. -/
lemma sets_mark {bitmap : Bytes} {bit : Nat} (h : bit / 8 < bitmap.length) :
    Sets bitmap (bitmap.set (bit / 8) (UInt8.ofNat ((bitmap.getD (bit / 8) 0).toNat ||| 0x80 / 2 ^ (bit % 8))))
      (fun j => j == bit) := by
  have hbyte : UInt8.ofNat ((bitmap.getD (bit / 8) 0).toNat ||| 0x80 / 2 ^ (bit % 8)) =
      bitmap[bit / 8] ||| UInt8.ofNat (2 ^ (7 - bit % 8)) := by
    apply UInt8.toNat_inj.mp
    rw [mark_eq (Nat.mod_lt _ (by decide)), UInt8.toNat_or, UInt8.toNat_ofNat', UInt8.toNat_ofNat', Nat.or_mod_two_pow,
      List.getD_eq_getElem _ _ h, Nat.mod_eq_of_lt bitmap[bit / 8].toNat_lt]
  rw [hbyte]
  exact Sets.one h

/-- The bit is set in the window. -/
def Marks (windows : List (Int × Bytes)) (window : Int) (bit : Nat) : Prop :=
  ∃ entry ∈ windows, entry.1 = window ∧ bitAt entry.2 bit

lemma marks_cons {entry : Int × Bytes} {windows : List (Int × Bytes)} {window : Int} {bit : Nat} :
    Marks (entry :: windows) window bit ↔ entry.1 = window ∧ bitAt entry.2 bit ∨ Marks windows window bit := by
  simp only [Marks, List.exists_mem_cons_iff]

lemma marks_setBit {windows : List (Int × Bytes)} (h : Marked windows) {w window : Int} {k bit : Nat} (hk : k < 256) :
    Marks (setBit windows w k) window bit ↔ Marks windows window bit ∨ window = w ∧ bit = k := by
  induction windows with
  | nil =>
    have hsets : Sets (List.replicate 32 0) ((List.replicate 32 0).set (k / 8) (UInt8.ofNat (0x80 / 2 ^ (k % 8))))
        (fun j => j == k) := by
      have hget : (List.replicate 32 (0 : Byte)).getD (k / 8) 0 = 0 := by
        rw [List.getD_eq_getElem?_getD, List.getElem?_replicate]
        split_ifs <;> rfl
      have hmark := @sets_mark (List.replicate 32 0) k (by rw [List.length_replicate]; omega)
      rwa [hget, UInt8.toNat_zero, Nat.zero_or] at hmark
    rw [setBit, marks_cons, hsets.bits, bitAt_replicate_zero, Bool.false_or, beq_iff_eq]
    simp only [Marks, List.not_mem_nil, false_and, exists_false, or_false, false_or]
    exact and_congr_left fun _ => eq_comm
  | cons first windows ih =>
    obtain ⟨v, bitmap⟩ := first
    have hlen : bitmap.length = 32 := (h _ List.mem_cons_self).1
    have hrest := ih fun entry he => h entry (List.mem_cons_of_mem _ he)
    rw [setBit]
    split_ifs with heq
    · subst heq
      rw [marks_cons, marks_cons, (sets_mark (by omega)).bits, Bool.or_eq_true, beq_iff_eq, eq_comm (a := window)]
      tauto
    · rw [marks_cons, marks_cons, hrest, or_assoc]

lemma setBit_keys (windows : List (Int × Bytes)) (w : Int) (k : Nat) :
    (setBit windows w k).map Prod.fst =
      if w ∈ windows.map Prod.fst then windows.map Prod.fst else windows.map Prod.fst ++ [w] := by
  induction windows with
  | nil => rfl
  | cons first windows ih =>
    obtain ⟨v, bitmap⟩ := first
    rw [setBit]
    by_cases heq : v = w
    · rw [if_pos heq, List.map_cons, List.map_cons, if_pos (by rw [heq]; exact List.mem_cons_self)]
    · have hmem : w ∈ v :: windows.map Prod.fst ↔ w ∈ windows.map Prod.fst := by
        rw [List.mem_cons, or_iff_right (Ne.symm heq)]
      rw [if_neg heq, List.map_cons, List.map_cons, ih]
      simp only [hmem]
      split_ifs <;> rfl

/-- Windows of this order, all of them in use. -/
structure Windows (windows : List (Int × Bytes)) : Prop where
  order : windows.Pairwise fun a b => a.1 < b.1
  marked : Marked windows

/-- The windows that are encoded. -/
def windowsOf (rrtypes : List Int) : List (Int × Bytes) :=
  (rrtypes.foldl (fun windows rrtype => setBit windows (rrtype.fdiv 256) (rrtype.fmod 256).toNat) []).mergeSort
    fun a b => a.1 ≤ b.1

lemma encodeTypeBitmap_eq (rrtypes : List Int) :
    encodeTypeBitmap rrtypes = appendWindows (windowsOf rrtypes) [] := rfl

/-- Each type sets its bit. -/
lemma windowsOf_spec (rrtypes : List Int) : Windows (windowsOf rrtypes) ∧
    ∀ window bit, Marks (windowsOf rrtypes) window bit ↔
      ∃ t ∈ rrtypes, t.fdiv 256 = window ∧ (t.fmod 256).toNat = bit := by
  have hfold : ∀ (l : List Int) (windows : List (Int × Bytes)), Marked windows → (windows.map Prod.fst).Nodup →
      let all := l.foldl (fun windows t => setBit windows (t.fdiv 256) (t.fmod 256).toNat) windows
      Marked all ∧ (all.map Prod.fst).Nodup ∧ ∀ window bit, Marks all window bit ↔
        Marks windows window bit ∨ ∃ t ∈ l, t.fdiv 256 = window ∧ (t.fmod 256).toNat = bit := by
    intro l
    induction l with
    | nil =>
      intro windows hm hn
      exact ⟨hm, hn, fun window bit => by simp⟩
    | cons t l ih =>
      intro windows hm hn
      have hbit : (t.fmod 256).toNat < 256 := by
        have hmod := Int.fmod_lt_of_pos t (show (0 : Int) < 256 by decide)
        omega
      have hkeys : ((setBit windows (t.fdiv 256) (t.fmod 256).toNat).map Prod.fst).Nodup := by
        rw [setBit_keys]
        split_ifs with hmem
        · exact hn
        · exact List.nodup_append.mpr ⟨hn, List.nodup_singleton _, fun a ha b hb => by
            rw [List.mem_singleton.mp hb]
            rintro rfl
            exact hmem ha⟩
      obtain ⟨hm', hn', hmarks⟩ := ih _ (setBit_marked hm _ hbit) hkeys
      refine ⟨hm', hn', fun window bit => ?_⟩
      rw [List.foldl_cons, hmarks, marks_setBit hm hbit, List.exists_mem_cons_iff, or_assoc,
        eq_comm (a := window), eq_comm (a := bit)]
  obtain ⟨hm, hn, hmarks⟩ := hfold rrtypes [] (fun _ he => absurd he List.not_mem_nil) List.nodup_nil
  have hperm := List.mergeSort_perm
    (rrtypes.foldl (fun windows t => setBit windows (t.fdiv 256) (t.fmod 256).toNat) []) fun a b => a.1 ≤ b.1
  refine ⟨⟨?_, ?_⟩, ?_⟩
  · have hle : (windowsOf rrtypes).Pairwise fun a b => a.1 ≤ b.1 := by
      have hsorted := @List.pairwise_mergeSort (Int × Bytes) (fun a b => decide (a.1 ≤ b.1))
        (fun a b c hab hbc => by
          rw [decide_eq_true_iff] at hab hbc ⊢
          exact Int.le_trans hab hbc)
        (fun a b => by
          rw [Bool.or_eq_true, decide_eq_true_iff, decide_eq_true_iff]
          exact Int.le_total _ _)
        (rrtypes.foldl (fun windows t => setBit windows (t.fdiv 256) (t.fmod 256).toNat) [])
      exact hsorted.imp fun h => of_decide_eq_true h
    have hne : (windowsOf rrtypes).Pairwise fun a b => a.1 ≠ b.1 :=
      List.pairwise_map.mp ((hperm.map Prod.fst).nodup_iff.mpr hn)
    exact (hle.and hne).imp fun h => lt_of_le_of_ne h.1 h.2
  · exact fun entry he => hm entry (hperm.mem_iff.mp he)
  · intro window bit
    have hiff : Marks (windowsOf rrtypes) window bit ↔ Marks (rrtypes.foldl (fun windows t =>
        setBit windows (t.fdiv 256) (t.fmod 256).toNat) []) window bit :=
      exists_congr fun entry => and_congr_left fun _ => hperm.mem_iff
    rw [hiff, hmarks]
    simp [Marks]

lemma Windows.unique {ws : List (Int × Bytes)} (h : Windows ws) {a b : Int × Bytes} (ha : a ∈ ws) (hb : b ∈ ws)
    (heq : a.1 = b.1) : a = b := by
  have hkeys : (ws.map Prod.fst).Nodup := List.pairwise_map.mpr (h.order.imp fun hlt => ne_of_lt hlt)
  exact List.inj_on_of_nodup_map hkeys ha hb heq

lemma Windows.marks {ws : List (Int × Bytes)} (h : Windows ws) {entry : Int × Bytes} (he : entry ∈ ws) (bit : Nat) :
    Marks ws entry.1 bit ↔ bitAt entry.2 bit := by
  constructor
  · rintro ⟨other, ho, hfst, hbit⟩
    rwa [h.unique he ho hfst.symm]
  · exact fun hbit => ⟨entry, he, rfl, hbit⟩

/-- A window is in use, so some bit of it is set. -/
lemma Marked.exists_bit {ws : List (Int × Bytes)} (h : Marked ws) {entry : Int × Bytes} (he : entry ∈ ws) :
    ∃ k < 256, bitAt entry.2 k := by
  obtain ⟨hlen, b, hb, hne⟩ := h entry he
  by_contra hnone
  apply hne
  have hzeros : entry.2 = List.replicate 32 0 := by
    apply ext_bitAt (by rw [hlen, List.length_replicate])
    intro k hk
    rw [bitAt_replicate_zero]
    exact Bool.eq_false_iff.mpr fun hbit => hnone ⟨k, by omega, hbit⟩
  rw [hzeros] at hb
  exact List.eq_of_mem_replicate hb

/-- The order and the marks say what the windows are. -/
lemma Windows.eq_of_marks {ws ws' : List (Int × Bytes)} (h : Windows ws) (h' : Windows ws')
    (hmarks : ∀ window bit, Marks ws window bit ↔ Marks ws' window bit) : ws = ws' := by
  -- A window is found again through one of its types, and then bit by bit.
  have hsub : ∀ {ws ws' : List (Int × Bytes)}, Windows ws → Windows ws' →
      (∀ window bit, Marks ws window bit ↔ Marks ws' window bit) → ∀ entry ∈ ws, entry ∈ ws' := by
    intro ws ws' h h' hmarks entry he
    obtain ⟨k, -, hk⟩ := h.marked.exists_bit he
    obtain ⟨other, ho, hfst, -⟩ := (hmarks entry.1 k).mp ⟨entry, he, rfl, hk⟩
    have hsnd : other.2 = entry.2 := by
      apply ext_bitAt
      · rw [(h.marked entry he).1, (h'.marked other ho).1]
      · intro bit _
        rw [Bool.eq_iff_iff, ← h'.marks ho, hfst, ← hmarks, h.marks he]
    rwa [← Prod.ext hfst hsnd]
  have hirrefl : Std.Irrefl fun a b : Int × Bytes => a.1 < b.1 := ⟨fun a => Int.lt_irrefl a.1⟩
  have hantisymm : Std.Antisymm fun a b : Int × Bytes => a.1 < b.1 :=
    ⟨fun a b hab hba => absurd (Int.lt_trans hab hba) (Int.lt_irrefl _)⟩
  exact h.order.eq_of_mem_iff h'.order fun entry =>
    ⟨hsub h h' hmarks entry, hsub h' h (fun window bit => (hmarks window bit).symm) entry⟩

/-- Windows one after another: number, length and bitmap. -/
def windowsWire (windows : List (Nat × Bytes)) : Bytes :=
  windows.flatMap fun w => UInt8.ofNat w.1 :: UInt8.ofNat w.2.length :: w.2

/-- The window numbers increase, and no bitmap is empty, longer than its window or ends with a zero. -/
structure Canonical (windows : List (Nat × Bytes)) : Prop where
  order : windows.Pairwise fun a b => a.1 < b.1
  number : ∀ w ∈ windows, w.1 < 256
  length : ∀ w ∈ windows, 1 ≤ w.2.length ∧ w.2.length ≤ 32
  last : ∀ w ∈ windows, w.2.getLast? ≠ some 0

def trimmed (windows : List (Int × Bytes)) : List (Nat × Bytes) :=
  windows.map fun entry => (entry.1.toNat, trimBitmap entry.2)

lemma appendWindows_trimmed {windows : List (Int × Bytes)} (hm : Marked windows)
    (hw : ∀ entry ∈ windows, 0 ≤ entry.1 ∧ entry.1 < 256) (out : Bytes) :
    appendWindows windows out = some (out ++ windowsWire (trimmed windows)) := by
  induction windows generalizing out with
  | nil => simp [appendWindows, trimmed, windowsWire]
  | cons first windows ih =>
    obtain ⟨window, bitmap⟩ := first
    obtain ⟨hpos, hlt⟩ := hw _ List.mem_cons_self
    have hrest := ih (fun entry he => hm entry (List.mem_cons_of_mem _ he))
      (fun entry he => hw entry (List.mem_cons_of_mem _ he))
    have hnum : window.toNat < 256 := by
      dsimp only at hpos hlt
      omega
    have hlen : (trimBitmap bitmap).length < 256 := by
      have hle := trimBitmap_le bitmap
      have hfull : bitmap.length = 32 := (hm _ List.mem_cons_self).1
      omega
    rw [appendWindows, if_pos hpos, appendByte, if_pos hnum]
    simp [appendCounted_of_lt hlen, hrest, trimmed, windowsWire]

lemma Windows.canonical {windows : List (Int × Bytes)} (h : Windows windows)
    (hw : ∀ entry ∈ windows, 0 ≤ entry.1 ∧ entry.1 < 256) : Canonical (trimmed windows) where
  order := by
    rw [trimmed, List.pairwise_map]
    refine h.order.imp_of_mem fun {a b} ha hb hlt => ?_
    have hpos := (hw a ha).1
    simp only
    omega
  number w hmem := by
    obtain ⟨entry, he, rfl⟩ := List.mem_map.mp hmem
    have hrange := hw entry he
    simp only
    omega
  length w hmem := by
    obtain ⟨entry, he, rfl⟩ := List.mem_map.mp hmem
    obtain ⟨hlen, hset⟩ := h.marked entry he
    have hle := trimBitmap_le entry.2
    have hpos := List.length_pos_of_ne_nil (trimBitmap_ne_nil hset)
    simp only
    omega
  last w hmem := by
    obtain ⟨entry, he, rfl⟩ := List.mem_map.mp hmem
    exact (trimBitmap_spec entry.2).2

/-- Whatever is around them, windows are read back one by one. -/
lemma decodeTypeBitmap_windowsWire {windows : List (Nat × Bytes)} (h : Canonical windows) (before after : Bytes) :
    decodeTypeBitmap (before ++ windowsWire windows ++ after) (before ++ windowsWire windows).length before.length =
      some (windows.flatMap fun w => bitmapTypes w.1 w.2) := by
  have hwire : windowsWire windows =
      chunksWire (windows.map fun w => ([UInt8.ofNat w.1, UInt8.ofNat w.2.length], w.2)) := by
    simp [windowsWire, chunksWire, List.flatMap_map]
  have hchunks : List.Forall₂ (Chunk 1 windowHeader)
      (windows.map fun w => ([UInt8.ofNat w.1, UInt8.ofNat w.2.length], w.2))
      (windows.map fun w => bitmapTypes w.1 w.2) := by
    rw [List.forall₂_map_left_iff, List.forall₂_map_right_iff, List.forall₂_same]
    intro w hw
    have hlen := h.length w hw
    exact window_chunk (h.number w hw) (by omega)
  rw [decodeTypeBitmap, hwire, readChunks_chunks hchunks (List.prefix_append _ _)]
  rfl

/-- The types of windows are listed in order. -/
lemma Canonical.types_sorted {windows : List (Nat × Bytes)} (h : Canonical windows) :
    (windows.flatMap fun w => bitmapTypes w.1 w.2).Pairwise (· < ·) := by
  rw [List.pairwise_flatMap]
  refine ⟨fun w _ => bitmapTypes_sorted w.1 w.2, ?_⟩
  refine h.order.imp_of_mem fun {a b} ha hb hlt t ht t' ht' => ?_
  obtain ⟨k, hk, -, rfl⟩ := mem_bitmapTypes.mp ht
  obtain ⟨k', -, -, rfl⟩ := mem_bitmapTypes.mp ht'
  have hlen := h.length a ha
  omega

lemma mem_types {windows : List (Int × Bytes)} (hm : Marked windows)
    (hw : ∀ entry ∈ windows, 0 ≤ entry.1 ∧ entry.1 < 256) {t : Int} :
    t ∈ (trimmed windows).flatMap (fun w => bitmapTypes w.1 w.2) ↔
      Marks windows (t.fdiv 256) (t.fmod 256).toNat := by
  have hsplit := Int.mul_fdiv_add_fmod t 256
  have hmod := Int.fmod_lt_of_pos t (show (0 : Int) < 256 by decide)
  have hnonneg := Int.fmod_nonneg_of_pos t (show (0 : Int) < 256 by decide)
  rw [List.mem_flatMap]
  constructor
  · rintro ⟨w, hmem, ht⟩
    obtain ⟨entry, he, rfl⟩ := List.mem_map.mp hmem
    obtain ⟨k, hk, hbit, heq⟩ := mem_bitmapTypes.mp ht
    have hle := trimBitmap_le entry.2
    have hlen := (hm entry he).1
    have hpos := (hw entry he).1
    simp only at hk heq hbit
    rw [bitAt_trimBitmap] at hbit
    have hdiv : entry.1 = t.fdiv 256 := by omega
    have hk' : k = (t.fmod 256).toNat := by omega
    exact ⟨entry, he, hdiv, hk' ▸ hbit⟩
  · rintro ⟨entry, he, hdiv, hbit⟩
    have hpos := (hw entry he).1
    rw [← bitAt_trimBitmap] at hbit
    refine ⟨_, List.mem_map.mpr ⟨entry, he, rfl⟩, mem_bitmapTypes.mpr ⟨(t.fmod 256).toNat, ?_, hbit, ?_⟩⟩
    · by_contra hge
      have hout : bitAt (trimBitmap entry.2) (t.fmod 256).toNat = false := bitAt_ge (Nat.le_of_not_lt hge)
      rw [hout] at hbit
      cases hbit
    · simp only
      omega

/-- A list of types in any order, with any repetitions: the encoding is in canonical form and that of every
list of the same types, and decoding it from between any other bytes gives the distinct types in order. -/
theorem decodeTypeBitmap_encodeTypeBitmap (rrtypes : List Int) (h : ∀ t ∈ rrtypes, 0 ≤ t ∧ t ≤ 65535) :
    ∃ windows, encodeTypeBitmap rrtypes = some (windowsWire windows) ∧ Canonical windows ∧
      (∀ before after, decodeTypeBitmap (before ++ windowsWire windows ++ after)
        (before ++ windowsWire windows).length before.length = some (rrtypes.dedup.mergeSort (· ≤ ·))) ∧
      ∀ others : List Int, (∀ t, t ∈ others ↔ t ∈ rrtypes) → encodeTypeBitmap others = some (windowsWire windows) := by
  obtain ⟨hws, hmarks⟩ := windowsOf_spec rrtypes
  have hrange : ∀ entry ∈ windowsOf rrtypes, 0 ≤ entry.1 ∧ entry.1 < 256 := by
    intro entry he
    obtain ⟨k, -, hk⟩ := hws.marked.exists_bit he
    obtain ⟨t, ht, hdiv, -⟩ := (hmarks entry.1 k).mp ⟨entry, he, rfl, hk⟩
    have hsplit := Int.mul_fdiv_add_fmod t 256
    have hmod := Int.fmod_lt_of_pos t (show (0 : Int) < 256 by decide)
    have hnonneg := Int.fmod_nonneg_of_pos t (show (0 : Int) < 256 by decide)
    have hbound := h t ht
    omega
  have hencode : encodeTypeBitmap rrtypes = some (windowsWire (trimmed (windowsOf rrtypes))) := by
    rw [encodeTypeBitmap_eq, appendWindows_trimmed hws.marked hrange, List.nil_append]
  have hcanon := hws.canonical hrange
  refine ⟨_, hencode, hcanon, ?_, ?_⟩
  · intro before after
    rw [decodeTypeBitmap_windowsWire hcanon]
    congr 1
    have hsorted : (rrtypes.dedup.mergeSort (· ≤ ·)).Pairwise (· < ·) := by
      have hnodup := (List.mergeSort_perm rrtypes.dedup (· ≤ ·)).nodup_iff.mpr (List.nodup_dedup rrtypes)
      exact ((List.pairwise_mergeSort' (· ≤ ·) rrtypes.dedup).and hnodup).imp fun h => lt_of_le_of_ne h.1 h.2
    refine hcanon.types_sorted.eq_of_mem_iff hsorted fun t => ?_
    rw [mem_types hws.marked hrange, hmarks, List.mem_mergeSort, List.mem_dedup]
    constructor
    · rintro ⟨u, hu, hdiv, hmod⟩
      have hu₁ := Int.mul_fdiv_add_fmod u 256
      have ht₁ := Int.mul_fdiv_add_fmod t 256
      have hu₂ := Int.fmod_nonneg_of_pos u (show (0 : Int) < 256 by decide)
      have ht₂ := Int.fmod_nonneg_of_pos t (show (0 : Int) < 256 by decide)
      obtain rfl : u = t := by omega
      exact hu
    · exact fun ht => ⟨t, ht, rfl, rfl⟩
  · intro others hsame
    obtain ⟨hws', hmarks'⟩ := windowsOf_spec others
    have heq : windowsOf others = windowsOf rrtypes := by
      refine hws'.eq_of_marks hws fun window bit => ?_
      rw [hmarks, hmarks']
      exact exists_congr fun t => and_congr_left fun _ => hsame t
    rw [encodeTypeBitmap_eq, heq, ← encodeTypeBitmap_eq, hencode]

/-- Both sides of a window's edge and of a byte's, out of order and repeated. -/
theorem decodeTypeBitmap_encodeTypeBitmap_edges :
    ∃ windows, encodeTypeBitmap [256, 7, 255, 8, 7] = some (windowsWire windows) ∧ Canonical windows ∧
      (∀ before after, decodeTypeBitmap (before ++ windowsWire windows ++ after)
        (before ++ windowsWire windows).length before.length =
          some (([256, 7, 255, 8, 7] : List Int).dedup.mergeSort (· ≤ ·))) ∧
      ∀ others : List Int, (∀ t, t ∈ others ↔ t ∈ ([256, 7, 255, 8, 7] : List Int)) →
        encodeTypeBitmap others = some (windowsWire windows) :=
  decodeTypeBitmap_encodeTypeBitmap [256, 7, 255, 8, 7] (by decide)

end Rustruct.DNS

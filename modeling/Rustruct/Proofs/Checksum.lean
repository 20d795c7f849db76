import Rustruct.Digest
import Rustruct.Lib.OnesComplement

/-!
# The Internet checksum

What the accumulator holds after any sequence of updates. The carries are folded in once an update, so
an update that completes too many words overflows the accumulator before it gets there.
-/

namespace Rustruct

/-- One call that feeds data to a hasher. -/
inductive Feed where
  | bytes (data : Bytes)
  | zeros (n : Nat)
  deriving DecidableEq, Repr

namespace Feed

def data : Feed → Bytes
  | bytes data => data
  | zeros n => List.replicate n 0

/-- The updates of a call: zeros come in blocks. -/
def updates : Feed → List Bytes
  | bytes data => [data]
  | zeros n => List.replicate (n / 64) Hasher.zeros ++
      if n % 64 = 0 then [] else [Hasher.zeros.take (n % 64)]

end Feed

def Hasher.feed (h : Hasher) : Feed → Hasher
  | .bytes data => h.update data
  | .zeros n => h.updateZeros n

lemma Hasher.feed_eq (h : Hasher) (f : Feed) : h.feed f = f.updates.foldl Hasher.update h := by
  cases f with
  | bytes data => rfl
  | zeros n =>
    have hblocks : (List.range (n / 64)).foldl (fun h _ => h.update Hasher.zeros) h =
        (List.replicate (n / 64) Hasher.zeros).foldl Hasher.update h := by
      generalize n / 64 = k
      induction k with
      | zero => rfl
      | succ k ih =>
        simp only [List.range_succ, List.replicate_succ', List.foldl_append, List.foldl_cons, List.foldl_nil, ih]
    simp only [Hasher.feed, Hasher.updateZeros, Feed.updates, hblocks, List.foldl_append]
    split_ifs <;> rfl

lemma flatten_updates (f : Feed) : f.updates.flatten = f.data := by
  cases f with
  | bytes data => simp [Feed.updates, Feed.data]
  | zeros n =>
    have hlast : (if n % 64 = 0 then [] else [Hasher.zeros.take (n % 64)]).flatten =
        List.replicate (n % 64) (0 : Byte) := by
      split_ifs with h
      · simp [h]
      · have hle : n % 64 ≤ 64 := by omega
        rw [List.flatten_singleton, Hasher.zeros, List.take_replicate, Nat.min_eq_left hle]
    have hblocks : ∀ k, (List.replicate k Hasher.zeros).flatten = List.replicate (k * 64) (0 : Byte) := by
      intro k
      rw [Hasher.zeros, List.flatten_replicate_replicate]
    rw [Feed.updates, Feed.data, List.flatten_append, hlast, hblocks, List.replicate_append_replicate]
    congr 1
    omega

/-- The hasher after some calls. -/
def Hasher.feeds (h : Hasher) (fs : List Feed) : Hasher := fs.foldl Hasher.feed h

lemma Hasher.feeds_eq (h : Hasher) (fs : List Feed) :
    h.feeds fs = (fs.flatMap Feed.updates).foldl Hasher.update h := by
  induction fs generalizing h with
  | nil => rfl
  | cons f fs ih =>
    rw [List.flatMap_cons, List.foldl_append, ← Hasher.feed_eq]
    exact ih (h.feed f)

/-- The data of some calls. -/
def dataOf (fs : List Feed) : Bytes := fs.flatMap Feed.data

/-- The whole words of some data. -/
def wholeWords : Bytes → List Nat
  | hi :: lo :: rest => word16 hi lo :: wholeWords rest
  | _ => []

/-- The byte after the last whole word. -/
def oddByte : Bytes → Option Byte
  | _ :: _ :: rest => oddByte rest
  | [last] => some last
  | [] => none

/-- The words of some data, an odd last byte padded with zero. -/
def paddedWords (data : Bytes) : List Nat :=
  wholeWords data ++ ((oddByte data).map fun hi => word16 hi 0).toList

/-- The checksum of RFC 1071. -/
def internetChecksum (data : Bytes) : Nat := 0xFFFF - OnesComplement.sum 0xFFFF (paddedWords data)

lemma word16_le (hi lo : Byte) : word16 hi lo ≤ 0xFFFF := by
  have h₁ := hi.toNat_lt
  have h₂ := lo.toNat_lt
  unfold word16
  omega

lemma wholeWords_le (data : Bytes) : ∀ w ∈ wholeWords data, w ≤ 0xFFFF := by
  induction data using wholeWords.induct with
  | case1 hi lo rest ih =>
    intro w hw
    obtain rfl | hw := List.mem_cons.mp hw
    · exact word16_le hi lo
    · exact ih w hw
  | case2 data h =>
    rw [wholeWords]
    · simp
    · exact h

lemma wholeWords_append (a b : Bytes) :
    wholeWords (a ++ b) = wholeWords a ++ wholeWords ((oddByte a).toList ++ b) ∧
      oddByte (a ++ b) = oddByte ((oddByte a).toList ++ b) := by
  induction a using oddByte.induct with
  | case1 hi lo rest ih =>
    simp only [List.cons_append, wholeWords, oddByte]
    exact ⟨by rw [ih.1], ih.2⟩
  | case2 last => exact ⟨rfl, rfl⟩
  | case3 => exact ⟨rfl, rfl⟩

lemma ipWords_eq {sum : Nat} (h : sum < 2 ^ 32) (data : Bytes) :
    ipWords sum data = ((sum + (wholeWords data).sum) % 2 ^ 32, oddByte data) := by
  induction data using oddByte.induct generalizing sum with
  | case1 hi lo rest ih =>
    rw [ipWords, addU32, ih (Nat.mod_lt _ (by decide)), wholeWords, List.sum_cons, oddByte, Nat.mod_add_mod,
      Nat.add_assoc]
  | case2 last =>
    have hwords : wholeWords [last] = [] := rfl
    rw [hwords, List.sum_nil, Nat.add_zero, Nat.mod_eq_of_lt h]
    rfl
  | case3 =>
    have hwords : wholeWords [] = [] := rfl
    rw [hwords, List.sum_nil, Nat.add_zero, Nat.mod_eq_of_lt h]
    rfl

lemma foldCarry_small (rounds : Nat) {sum : Nat} (h : sum ≤ 0xFFFF) : foldCarry rounds sum = sum := by
  cases rounds with
  | zero => rfl
  | succ rounds => rw [foldCarry, if_neg (by omega)]

/-- Three rounds settle any `u32`. -/
lemma foldCarry_eq {sum : Nat} (h : sum < 2 ^ 32) : foldCarry 3 sum = OnesComplement.rep 0xFFFF sum := by
  have hround (rounds n : Nat) (hn : 0xFFFF < n) :
      foldCarry (rounds + 1) n = foldCarry rounds (n % 2 ^ 16 + n / 2 ^ 16) := by rw [foldCarry, if_pos hn]
  have hsettled (rounds n : Nat) (hn : n ≤ 0xFFFF) : foldCarry rounds n = OnesComplement.rep 0xFFFF n := by
    rw [foldCarry_small rounds hn, OnesComplement.rep_of_le hn]
  have hrep (n : Nat) : OnesComplement.rep 0xFFFF (n % 2 ^ 16 + n / 2 ^ 16) = OnesComplement.rep 0xFFFF n :=
    OnesComplement.rep_fold n
  by_cases h₁ : sum ≤ 0xFFFF
  · exact hsettled 3 sum h₁
  rw [hround 2 sum (by omega), ← hrep sum]
  generalize hs : sum % 2 ^ 16 + sum / 2 ^ 16 = s₁
  by_cases h₂ : s₁ ≤ 0xFFFF
  · exact hsettled 2 s₁ h₂
  rw [hround 1 s₁ (by omega), ← hrep s₁]
  generalize hs' : s₁ % 2 ^ 16 + s₁ / 2 ^ 16 = s₂
  by_cases h₃ : s₂ ≤ 0xFFFF
  · exact hsettled 1 s₂ h₃
  rw [hround 0 s₂ (by omega), ← hrep s₂]
  exact hsettled 0 _ (by omega)

/-- Each `sum += word` over the whole words stays in the `u32`. -/
def wordsFit : Nat → Bytes → Prop
  | sum, hi :: lo :: rest => sum + word16 hi lo < 2 ^ 32 ∧ wordsFit (addU32 sum (word16 hi lo)) rest
  | _, _ => True

/-- The additions of one `update` of the Internet checksum stay in the `u32`. -/
def ipUpdateFits (sum : Nat) (odd : Option Byte) (data : Bytes) : Prop :=
  match odd, data with
  | some _, [] => True
  | some hi, lo :: rest => sum + word16 hi lo < 2 ^ 32 ∧ wordsFit (addU32 sum (word16 hi lo)) rest
  | none, data => wordsFit sum data

def Hasher.updateFits : Hasher → Bytes → Prop
  | .ip sum odd, data => ipUpdateFits sum odd data
  | _, _ => True

def Hasher.finalizeFits : Hasher → Prop
  | .ip sum (some hi) => sum + word16 hi 0 < 2 ^ 32
  | _ => True

/-- No addition to the accumulator overflows in these updates and the `finalize` after them. -/
def Hasher.neverOverflows : Hasher → List Bytes → Prop
  | h, [] => h.finalizeFits
  | h, data :: updates => h.updateFits data ∧ (h.update data).neverOverflows updates

/-- The words that `data` completes after `before` fit on top of the sum of the words before. -/
def Fits (before data : Bytes) : Prop :=
  OnesComplement.sum 0xFFFF (wholeWords before) +
    (wholeWords ((oddByte before).toList ++ data)).sum < 2 ^ 32

/-- Every `update` fits. -/
def feedsFit : Bytes → List Feed → Prop
  | _, [] => True
  | before, .bytes data :: fs => Fits before data ∧ feedsFit (before ++ data) fs
  | before, .zeros n :: fs => feedsFit (before ++ List.replicate n 0) fs

lemma wordsFit_iff {sum : Nat} (h : sum < 2 ^ 32) (data : Bytes) :
    wordsFit sum data ↔ sum + (wholeWords data).sum < 2 ^ 32 := by
  induction data using oddByte.induct generalizing sum with
  | case1 hi lo rest ih =>
    rw [wordsFit, wholeWords, List.sum_cons]
    constructor
    · rintro ⟨hfirst, hrest⟩
      rw [addU32, Nat.mod_eq_of_lt hfirst, ih hfirst] at hrest
      omega
    · intro hall
      have hfirst : sum + word16 hi lo < 2 ^ 32 := by omega
      refine ⟨hfirst, ?_⟩
      rw [addU32, Nat.mod_eq_of_lt hfirst, ih hfirst]
      omega
  | case2 last => exact ⟨fun _ => h, fun _ => trivial⟩
  | case3 => exact ⟨fun _ => h, fun _ => trivial⟩

section Accumulator

variable {sum : Nat} (h : sum ≤ 0xFFFF) (odd : Option Byte) (data : Bytes)

include h

lemma ipUpdateFits_iff :
    ipUpdateFits sum odd data ↔ sum + (wholeWords (odd.toList ++ data)).sum < 2 ^ 32 := by
  have hsum : sum < 2 ^ 32 := by omega
  unfold ipUpdateFits
  split
  · simpa [wholeWords] using hsum
  · rename_i hi lo rest
    exact wordsFit_iff hsum (hi :: lo :: rest)
  · exact wordsFit_iff hsum _

lemma ipUpdate_eq : ipUpdate sum odd data =
    (OnesComplement.rep 0xFFFF ((sum + (wholeWords (odd.toList ++ data)).sum) % 2 ^ 32),
      oddByte (odd.toList ++ data)) := by
  have hsum : sum < 2 ^ 32 := by omega
  have hfold (n : Nat) : foldCarry 3 (n % 2 ^ 32) = OnesComplement.rep 0xFFFF (n % 2 ^ 32) :=
    foldCarry_eq (Nat.mod_lt n (by decide))
  unfold ipUpdate
  split
  · rename_i hi
    have hwords : sum + (wholeWords [hi]).sum = sum := Nat.add_zero sum
    rw [Option.toList_some, List.append_nil, hwords, Nat.mod_eq_of_lt hsum, OnesComplement.rep_of_le h]
    rfl
  · rename_i hi lo rest
    have hwords : ipWords (addU32 sum (word16 hi lo)) rest = ipWords sum (hi :: lo :: rest) := rfl
    rw [hwords, ipWords_eq hsum]
    simp only [hfold]
    rfl
  · rw [ipWords_eq hsum]
    simp only [hfold]
    rfl

end Accumulator

/-- The state once some data has been seen without an overflow. -/
def ipState (seen : Bytes) : Hasher := .ip (OnesComplement.sum 0xFFFF (wholeWords seen)) (oddByte seen)

lemma ipSum_eq (seen : Bytes) :
    OnesComplement.sum 0xFFFF (wholeWords seen) = OnesComplement.rep 0xFFFF (wholeWords seen).sum :=
  OnesComplement.sum_eq_rep (by decide) (wholeWords_le seen)

lemma ipSum_le (seen : Bytes) : OnesComplement.sum 0xFFFF (wholeWords seen) ≤ 0xFFFF := by
  rw [ipSum_eq]
  exact OnesComplement.rep_le (by decide) _

lemma updateFits_iff (seen data : Bytes) : (ipState seen).updateFits data ↔ Fits seen data :=
  ipUpdateFits_iff (ipSum_le seen) _ _

/-- An update that fits takes its data in. -/
lemma update_ipState {seen data : Bytes} (h : Fits seen data) :
    (ipState seen).update data = ipState (seen ++ data) := by
  obtain ⟨hwords, hodd⟩ := wholeWords_append seen data
  have hrep : OnesComplement.rep 0xFFFF
      (OnesComplement.sum 0xFFFF (wholeWords seen) + (wholeWords ((oddByte seen).toList ++ data)).sum) =
        OnesComplement.sum 0xFFFF (wholeWords (seen ++ data)) := by
    rw [ipSum_eq, ipSum_eq, OnesComplement.rep_rep_add, hwords, List.sum_append]
  rw [ipState, Hasher.update, ipUpdate_eq (ipSum_le seen), Nat.mod_eq_of_lt h, hrep, ← hodd]
  rfl

lemma zeros_sum_le (odd : Option Byte) (n : Nat) :
    (wholeWords (odd.toList ++ List.replicate n 0)).sum ≤ 0xFFFF := by
  have hzeros (n : Nat) : (wholeWords (List.replicate n 0)).sum = 0 := by
    induction n using Nat.twoStepInduction with
    | zero => rfl
    | one => rfl
    | more n ih _ =>
      rw [List.replicate_succ, List.replicate_succ, wholeWords, List.sum_cons, ih]
      rfl
  cases odd with
  | none =>
    rw [Option.toList_none, List.nil_append, hzeros]
    exact Nat.zero_le _
  | some hi =>
    cases n with
    | zero => exact Nat.zero_le _
    | succ n =>
      rw [Option.toList_some, List.singleton_append, List.replicate_succ, wholeWords, List.sum_cons, hzeros,
        Nat.add_zero]
      exact word16_le hi 0

/-- Zeros always fit. -/
lemma fits_zeros (seen : Bytes) (n : Nat) : Fits seen (List.replicate n 0) := by
  have h₁ := ipSum_le seen
  have h₂ := zeros_sum_le (oddByte seen) n
  unfold Fits
  omega

/-- Zeros fed in blocks neither overflow nor get lost. -/
lemma zeros_ipState (seen : Bytes) (n : Nat) (rest : List Bytes) :
    ((ipState seen).neverOverflows ((Feed.zeros n).updates ++ rest) ↔
      (ipState (seen ++ List.replicate n 0)).neverOverflows rest) ∧
    (ipState seen).feed (.zeros n) = ipState (seen ++ List.replicate n 0) := by
  have hall (updates : List Bytes) (hzero : ∀ data ∈ updates, ∃ k, data = List.replicate k 0) (seen : Bytes) :
      ((ipState seen).neverOverflows (updates ++ rest) ↔
        (ipState (seen ++ updates.flatten)).neverOverflows rest) ∧
      updates.foldl Hasher.update (ipState seen) = ipState (seen ++ updates.flatten) := by
    induction updates generalizing seen with
    | nil => simp
    | cons data updates ih =>
      obtain ⟨k, rfl⟩ := hzero data List.mem_cons_self
      have hfits := fits_zeros seen k
      obtain ⟨hiff, hfold⟩ := ih (fun d hd => hzero d (List.mem_cons_of_mem _ hd)) (seen ++ List.replicate k 0)
      rw [List.append_assoc] at hiff hfold
      rw [List.cons_append, Hasher.neverOverflows, updateFits_iff, update_ipState hfits, List.flatten_cons,
        List.foldl_cons, update_ipState hfits]
      exact ⟨⟨fun h => hiff.mp h.2, fun h => ⟨hfits, hiff.mpr h⟩⟩, hfold⟩
  have hzero : ∀ data ∈ (Feed.zeros n).updates, ∃ k, data = List.replicate k 0 := by
    intro data hd
    rcases List.mem_append.mp hd with hd | hd
    · exact ⟨64, List.eq_of_mem_replicate hd⟩
    · split_ifs at hd
      · cases hd
      · rw [List.mem_singleton.mp hd, Hasher.zeros, List.take_replicate]
        exact ⟨_, rfl⟩
  have hdata : (Feed.zeros n).updates.flatten = List.replicate n 0 := flatten_updates (.zeros n)
  obtain ⟨hiff, hfold⟩ := hall _ hzero seen
  rw [hdata] at hiff hfold
  exact ⟨hiff, by rw [Hasher.feed_eq, hfold]⟩

lemma neverOverflows_iff (seen : Bytes) (fs : List Feed) :
    (ipState seen).neverOverflows (fs.flatMap Feed.updates) ↔ feedsFit seen fs := by
  induction fs generalizing seen with
  | nil =>
    have hsum := ipSum_le seen
    simp only [List.flatMap_nil, Hasher.neverOverflows, feedsFit, iff_true, ipState]
    cases oddByte seen with
    | none => trivial
    | some hi =>
      have hword := word16_le hi 0
      simp only [Hasher.finalizeFits]
      omega
  | cons f fs ih =>
    rw [List.flatMap_cons]
    cases f with
    | bytes data =>
      rw [feedsFit, Feed.updates, List.singleton_append, Hasher.neverOverflows, updateFits_iff]
      exact and_congr_right fun hfits => by rw [update_ipState hfits, ih]
    | zeros n => rw [feedsFit, (zeros_ipState seen n _).1, ih]

lemma feeds_ipState {seen : Bytes} {fs : List Feed} (h : feedsFit seen fs) :
    (ipState seen).feeds fs = ipState (seen ++ dataOf fs) := by
  induction fs generalizing seen with
  | nil => simp [Hasher.feeds, dataOf]
  | cons f fs ih =>
    have hcons (h : Hasher) : h.feeds (f :: fs) = (h.feed f).feeds fs := rfl
    have hdata : dataOf (f :: fs) = f.data ++ dataOf fs := rfl
    rw [hcons, hdata, ← List.append_assoc]
    cases f with
    | bytes data =>
      obtain ⟨hfits, hrest⟩ := h
      rw [Hasher.feed, update_ipState hfits]
      exact ih hrest
    | zeros n =>
      rw [(zeros_ipState seen n []).2]
      exact ih h

/-- What the state stands for at the end. -/
lemma finalize_ipState (H : Hashes) (seen : Bytes) :
    (ipState seen).finalize H = .int (BitVec.ofNat 64 (internetChecksum seen)) := by
  have hsum := ipSum_le seen
  have hlow (n : Nat) : OnesComplement.rep 0xFFFF n % 2 ^ 16 = OnesComplement.rep 0xFFFF n :=
    Nat.mod_eq_of_lt (Nat.lt_succ_of_le (OnesComplement.rep_le (by decide) n))
  have hwords : ∀ w ∈ paddedWords seen, w ≤ 0xFFFF := by
    intro w hw
    rcases List.mem_append.mp hw with hw | hw
    · exact wholeWords_le seen w hw
    · obtain ⟨hi, -, rfl⟩ := Option.map_eq_some_iff.mp (Option.mem_toList.mp hw)
      exact word16_le hi 0
  rw [internetChecksum, OnesComplement.sum_eq_rep (by decide) hwords, paddedWords, List.sum_append]
  simp only [ipState, Hasher.finalize, DigestVal.int.injEq]
  cases oddByte seen with
  | none =>
    have hfold : foldCarry 3 (OnesComplement.sum 0xFFFF (wholeWords seen)) =
        OnesComplement.rep 0xFFFF (wholeWords seen).sum := by rw [foldCarry_small 3 hsum, ipSum_eq]
    rw [hfold, hlow]
    rfl
  | some hi =>
    have hword := word16_le hi 0
    have hfold : foldCarry 3 (addU32 (OnesComplement.sum 0xFFFF (wholeWords seen)) (word16 hi 0)) =
        OnesComplement.rep 0xFFFF ((wholeWords seen).sum + word16 hi 0) := by
      rw [addU32, Nat.mod_eq_of_lt (by omega), foldCarry_eq (by omega), ipSum_eq, OnesComplement.rep_rep_add]
    simp only [hfold, hlow, Option.map_some, Option.toList_some, List.sum_singleton]

/-- For every split into calls, the accumulator never overflows and the checksum is that of RFC 1071
exactly when every update fits. -/
theorem ipChecksum_iff (H : Hashes) (fs : List Feed) :
    ((Hasher.new .ipChecksum).neverOverflows (fs.flatMap Feed.updates) ∧
      ((Hasher.new .ipChecksum).feeds fs).finalize H =
        .int (BitVec.ofNat 64 (internetChecksum (dataOf fs)))) ↔ feedsFit [] fs := by
  have hnew : Hasher.new .ipChecksum = ipState [] := rfl
  rw [hnew, neverOverflows_iff]
  constructor
  · exact fun h => h.1
  · intro h
    refine ⟨h, ?_⟩
    rw [feeds_ipState h, List.nil_append, finalize_ipState]

/-- Updates of up to 128 KiB always fit. -/
lemma feedsFit_of_short {fs : List Feed} (h : ∀ data, .bytes data ∈ fs → data.length ≤ 131072) (seen : Bytes) :
    feedsFit seen fs := by
  have hwords (data : Bytes) : 2 * (wholeWords data).length ≤ data.length := by
    induction data using oddByte.induct with
    | case1 hi lo rest ih =>
      simp only [wholeWords, List.length_cons]
      omega
    | case2 last => simp [wholeWords]
    | case3 => simp [wholeWords]
  have hsum (data : Bytes) : (wholeWords data).sum ≤ (wholeWords data).length * 0xFFFF := by
    induction data using oddByte.induct with
    | case1 hi lo rest ih =>
      have hword := word16_le hi lo
      simp only [wholeWords, List.sum_cons, List.length_cons]
      omega
    | case2 last => simp [wholeWords]
    | case3 => simp [wholeWords]
  induction fs generalizing seen with
  | nil => trivial
  | cons f fs ih =>
    have hrest (seen : Bytes) : feedsFit seen fs := ih (fun data hd => h data (List.mem_cons_of_mem _ hd)) seen
    cases f with
    | zeros n => exact hrest _
    | bytes data =>
      refine ⟨?_, hrest _⟩
      have hlen := h data List.mem_cons_self
      have h₁ := ipSum_le seen
      have h₂ := hwords ((oddByte seen).toList ++ data)
      have h₃ := hsum ((oddByte seen).toList ++ data)
      have hodd : (oddByte seen).toList.length ≤ 1 := by cases oddByte seen <;> simp
      rw [List.length_append] at h₂
      unfold Fits
      omega

lemma fits_nil (data : Bytes) : Fits [] data ↔ (wholeWords data).sum < 2 ^ 32 := by
  rw [Fits, oddByte, Option.toList_none, List.nil_append, wholeWords, OnesComplement.sum, List.foldl_nil,
    Nat.zero_add]
  nofun

lemma wholeWords_replicate (b : Byte) (n : Nat) :
    wholeWords (List.replicate (2 * n) b) = List.replicate n (word16 b b) ∧
      oddByte (List.replicate (2 * n) b) = none := by
  induction n with
  | zero => exact ⟨rfl, rfl⟩
  | succ n ih =>
    rw [Nat.mul_succ, List.replicate_succ, List.replicate_succ, wholeWords, oddByte, ih.1, ih.2]
    exact ⟨rfl, rfl⟩

/-- Two more words of ones than fit: the accumulator overflows and the checksum comes out as 1. -/
theorem ipChecksum_overflow :
    ¬ (Hasher.new .ipChecksum).neverOverflows [List.replicate (2 * 65538) 0xFF] ∧
    ((Hasher.new .ipChecksum).update (List.replicate (2 * 65538) 0xFF)).finalize .blank = .int 1 ∧
    internetChecksum (List.replicate (2 * 65538) 0xFF) = 0 := by
  obtain ⟨hwords, hodd⟩ := wholeWords_replicate 0xFF 65538
  have hsum : (wholeWords (List.replicate (2 * 65538) 0xFF)).sum = 65538 * 65535 := by
    rw [hwords, List.sum_replicate_nat]
    rfl
  refine ⟨?_, ?_, ?_⟩
  · intro h
    have hfits := (fits_nil _).mp ((updateFits_iff [] _).mp h.1)
    rw [hsum] at hfits
    exact absurd hfits (by decide)
  · rw [Hasher.new, Hasher.update, ipUpdate_eq (Nat.zero_le _)]
    rw [Option.toList_none, List.nil_append, hsum, hodd]
    decide
  · have hpadded : (paddedWords (List.replicate (2 * 65538) 0xFF)).sum = 65538 * 65535 := by
      rw [paddedWords, hodd, List.sum_append, hsum]
      rfl
    have hle : ∀ w ∈ paddedWords (List.replicate (2 * 65538) 0xFF), w ≤ 0xFFFF := by
      rw [paddedWords, hodd, Option.map_none, Option.toList_none, List.append_nil]
      exact wholeWords_le _
    rw [internetChecksum, OnesComplement.sum_eq_rep (by decide) hle, hpadded]
    decide

end Rustruct

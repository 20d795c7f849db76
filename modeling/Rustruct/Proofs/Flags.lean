import Rustruct.Compile
import Rustruct.Proofs.Inputs
import Rustruct.Proofs.Integers

/-!
# Flags

A mask that passes the checks of `compile` is one run of ones, and the values a decoded map holds under
the masks and under `_rest` put the integer together again. The exception is the mask of all 64 bits, for
which the width of a value leaves the word.
-/

namespace Rustruct

lemma trailingZeros_spec {m : U64} (h : m ≠ 0#64) :
    trailingZeros m < 64 ∧ m.getLsbD (trailingZeros m) = true ∧ ∀ i < trailingZeros m, m.getLsbD i = false := by
  unfold trailingZeros
  cases hfind : (List.range 64).find? fun i => m.getLsbD i with
  | none =>
    exfalso
    apply h
    ext i hi
    have hnone := List.find?_eq_none.mp hfind i (List.mem_range.mpr hi)
    have hfalse : m.getLsbD i = false := by simpa using hnone
    rw [← BitVec.getLsbD_eq_getElem, hfalse]
    simp
  | some i =>
    obtain ⟨hbit, hmem, hbelow⟩ := List.find?_range_eq_some.mp hfind
    refine ⟨List.mem_range.mp hmem, hbit, ?_⟩
    intro j hj
    simpa using hbelow j hj

/-- A number without a zero below its highest bit. -/
lemma eq_two_pow_sub_one {n : Nat} (h : n &&& (n + 1) = 0) : ∃ k, n = 2 ^ k - 1 := by
  have hpow : (n + 1).isPowerOfTwo := by
    rw [← Nat.and_sub_one_eq_zero_iff_isPowerOfTwo (Nat.succ_ne_zero n), Nat.and_comm]
    exact h
  obtain ⟨k, hk⟩ := hpow
  exact ⟨k, by omega⟩

lemma countP_run (a w n : Nat) :
    (List.range n).countP (fun i => decide (a ≤ i ∧ i < a + w)) = min n (a + w) - min n a := by
  induction n with
  | zero => simp
  | succ n ih =>
    rw [List.range_succ, List.countP_append, ih, List.countP_singleton]
    by_cases h : a ≤ n ∧ n < a + w
    · rw [decide_eq_true h, if_pos rfl]
      omega
    · rw [decide_eq_false h, if_neg Bool.false_ne_true]
      omega

/-- The ones of a mask are the bits from `shift` up to `shift + width`. -/
structure IsRun (m : U64) (shift width : Nat) : Prop where
  pos : 0 < width
  fits : shift + width ≤ 64
  bits : ∀ i, m.getLsbD i = decide (shift ≤ i ∧ i < shift + width)

lemma IsRun.shifted {m : U64} {shift width : Nat} (h : IsRun m shift width) : IsRun (m >>> shift) 0 width where
  pos := h.pos
  fits := by have := h.fits; omega
  bits i := by
    have hiff : shift ≤ shift + i ∧ shift + i < shift + width ↔ 0 ≤ i ∧ i < 0 + width := by omega
    rw [BitVec.getLsbD_ushiftRight, h.bits, decide_eq_decide.mpr hiff]

lemma IsRun.countOnes {m : U64} {shift width : Nat} (h : IsRun m shift width) : countOnes m = width := by
  have hfits := h.fits
  simp only [Rustruct.countOnes, h.bits, countP_run]
  omega

lemma IsRun.eq_allOnes {m : U64} {shift width : Nat} (h : IsRun m shift width) : m = BitVec.allOnes 64 ↔ width = 64 := by
  have hfits := h.fits
  constructor
  · intro he
    have hlow := h.bits 0
    have hhigh := h.bits 63
    rw [he] at hlow hhigh
    have hlow : shift ≤ 0 ∧ 0 < shift + width := by simpa using hlow
    have hhigh : shift ≤ 63 ∧ 63 < shift + width := by simpa using hhigh
    omega
  · intro hw
    ext i hi
    have hin : shift ≤ i ∧ i < shift + width := by omega
    rw [← BitVec.getLsbD_eq_getElem, h.bits, decide_eq_true hin, BitVec.getElem_allOnes]

/-- The contiguity test accepts runs only. -/
lemma isRun_of_contiguous {m : U64} (h : m ≠ 0#64)
    (hc : (m >>> trailingZeros m) &&& (m >>> trailingZeros m + 1#64) = 0#64) :
    ∃ width, IsRun m (trailingZeros m) width := by
  obtain ⟨hlt, hone, hbelow⟩ := trailingZeros_spec h
  generalize trailingZeros m = shift at *
  have hlow : ∀ i, (m >>> shift).getLsbD i = m.getLsbD (shift + i) := BitVec.getLsbD_ushiftRight m shift
  by_cases hfull : m >>> shift = BitVec.allOnes 64
  · have htop := hlow 63
    rw [hfull] at htop
    have hzero : shift = 0 := by
      by_contra hne
      rw [BitVec.getLsbD_of_ge m (shift + 63) (by omega)] at htop
      simp at htop
    subst hzero
    have hm : m = BitVec.allOnes 64 := by simpa using hfull
    refine ⟨64, by decide, by decide, ?_⟩
    intro i
    rw [hm, BitVec.getLsbD_allOnes]
    exact decide_eq_decide.mpr (by omega)
  · have hne : (m >>> shift).toNat ≠ 2 ^ 64 - 1 := by
      intro he
      exact hfull (BitVec.eq_of_toNat_eq (he.trans (BitVec.toNat_allOnes).symm))
    have hsmall := (m >>> shift).isLt
    have hnat : (m >>> shift).toNat &&& ((m >>> shift).toNat + 1) = 0 := by
      have hand := congrArg BitVec.toNat hc
      rw [BitVec.toNat_and, BitVec.toNat_add] at hand
      have hone : (1#64).toNat = 1 := rfl
      rwa [hone, Nat.mod_eq_of_lt (by omega)] at hand
    obtain ⟨width, hw⟩ := eq_two_pow_sub_one hnat
    have hbits : ∀ i, m.getLsbD (shift + i) = decide (i < width) := by
      intro i
      rw [← hlow, BitVec.getLsbD, hw, Nat.testBit_two_pow_sub_one]
    have hpos : 0 < width := by
      have h0 := hbits 0
      rw [Nat.add_zero, hone] at h0
      simpa using h0.symm
    have hfits : shift + width ≤ 64 := by
      by_contra hgt
      have htop := hbits (64 - shift)
      rw [BitVec.getLsbD_of_ge m _ (by omega), decide_eq_true (by omega)] at htop
      cases htop
    refine ⟨width, hpos, hfits, ?_⟩
    intro i
    by_cases hi : shift ≤ i
    · obtain ⟨j, rfl⟩ := Nat.exists_eq_add_of_le hi
      rw [hbits]
      exact decide_eq_decide.mpr (by omega)
    · rw [hbelow i (by omega), decide_eq_false (by omega)]

/-- What `compile` lets into a flags field. -/
structure FlagItem.Fine (item : FlagItem) (width : Nat) : Prop where
  run : IsRun item.mask item.shift width
  isBool : item.isBool = (width == 1)

lemma getLsbD_extracted {item : FlagItem} {width : Nat} (h : item.Fine width) (raw : U64) (i : Nat) :
    ((raw &&& item.mask) >>> item.shift).getLsbD i = (raw.getLsbD (item.shift + i) && decide (i < width)) := by
  have hiff : (item.shift ≤ item.shift + i ∧ item.shift + i < item.shift + width) ↔ i < width := by omega
  rw [BitVec.getLsbD_ushiftRight, BitVec.getLsbD_and, h.run.bits, decide_eq_decide.mpr hiff]

lemma shiftBack {item : FlagItem} {width : Nat} (h : item.Fine width) (raw : U64) :
    ((raw &&& item.mask) >>> item.shift) <<< item.shift = raw &&& item.mask := by
  ext i hi
  rw [← BitVec.getLsbD_eq_getElem, ← BitVec.getLsbD_eq_getElem, BitVec.getLsbD_shiftLeft, getLsbD_extracted h,
    BitVec.getLsbD_and, h.run.bits]
  by_cases hlow : i < item.shift
  · have hout : ¬(item.shift ≤ i ∧ i < item.shift + width) := by omega
    simp [hlow, hout]
  · have hback : item.shift + (i - item.shift) = i := by omega
    have hiff : i - item.shift < width ↔ item.shift ≤ i ∧ i < item.shift + width := by omega
    simp only [hback, decide_eq_decide.mpr hiff, hi, hlow, decide_true, decide_false, Bool.not_false, Bool.true_and]

lemma packFlag_bool {item : FlagItem} {raw : U64} (h : item.Fine 1) :
    packFlag (some (flagValue raw item)) item = .ok (raw &&& item.mask) := by
  have hbool : item.isBool = true := h.isBool
  have hset : ((raw &&& item.mask) >>> item.shift != 0#64) = raw.getLsbD item.shift := by
    have hlow := getLsbD_extracted h raw 0
    rw [Nat.add_zero, decide_eq_true Nat.one_pos, Bool.and_true] at hlow
    rw [← hlow, Bool.eq_iff_iff, bne_iff_ne]
    constructor
    · intro hne
      by_contra hzero
      apply hne
      ext i hi
      rw [← BitVec.getLsbD_eq_getElem, getLsbD_extracted h]
      by_cases hi0 : i = 0
      · have hfalse : raw.getLsbD item.shift = false := by
          rw [Bool.not_eq_true] at hzero
          rwa [hlow] at hzero
        simp [hi0, hfalse]
      · have hout : ¬i < 1 := by omega
        simp [hout]
    · intro hbit he
      rw [he] at hbit
      simp at hbit
  unfold packFlag
  simp only [flagValue, hbool, if_true, Value.truthy, hset]
  congr 1
  ext i hi
  rw [← BitVec.getLsbD_eq_getElem, ← BitVec.getLsbD_eq_getElem, BitVec.getLsbD_and, h.run.bits]
  by_cases hin : item.shift ≤ i ∧ i < item.shift + 1
  · have hi' : i = item.shift := by omega
    subst hi'
    cases hb : raw.getLsbD item.shift
    · simp
    · rw [if_pos rfl, h.run.bits, decide_eq_true hin, Bool.and_true]
  · rw [decide_eq_false hin, Bool.and_false]
    cases raw.getLsbD item.shift
    · simp
    · rw [if_pos rfl, h.run.bits, decide_eq_false hin]

lemma packFlag_int {item : FlagItem} {raw : U64} {width : Nat} (h : item.Fine width) (hone : width ≠ 1) :
    packFlag (some (flagValue raw item)) item =
      if width = 64 ∧ raw ≠ 0#64 then refuse .range else .ok (raw &&& item.mask) := by
  have hbool : item.isBool = false := by
    rw [h.isBool]
    exact beq_eq_false_iff_ne.mpr hone
  have hcount : (List.range 64).countP (fun i => (item.mask >>> item.shift).getLsbD i) = width :=
    h.run.shifted.countOnes
  have hnn : ¬((((raw &&& item.mask) >>> item.shift).toNat : Int) < 0) := by omega
  have hback : BitVec.ofInt 64 (((raw &&& item.mask) >>> item.shift).toNat : Int) <<< item.shift = raw &&& item.mask := by
    rw [BitVec.ofInt_natCast, BitVec.ofNat_toNat, BitVec.setWidth_eq, shiftBack h]
  unfold packFlag
  simp only [flagValue, hbool, if_false, Bool.false_eq_true, flagInt, Value.asInt, Exec.bind_ok, hcount, hback,
    hnn, false_or]
  have hfits := h.run.fits
  by_cases hfull : width = 64
  · -- The largest value that fits comes out as 0.
    have hmask : item.mask = BitVec.allOnes 64 := h.run.eq_allOnes.mpr hfull
    have hshift : item.shift = 0 := by omega
    have hraw : raw &&& item.mask = raw := by rw [hmask, BitVec.and_allOnes]
    have hmax : (1#64 <<< (width % 64) - 1#64).toNat = 0 := by
      rw [hfull]
      rfl
    have hiff : raw ≠ 0#64 ↔ ((raw.toNat : Int) > ((0 : Nat) : Int)) := by
      rw [← BitVec.toNat_inj.ne]
      simp
    rw [hmax, hraw, hshift, BitVec.ushiftRight_zero]
    simp only [hfull, true_and, hiff]
  · have hlt : ((raw &&& item.mask) >>> item.shift).toNat < 2 ^ width := by
      apply Nat.lt_pow_two_of_testBit
      intro i hi
      have hbit := getLsbD_extracted h raw i
      rw [decide_eq_false (by omega), Bool.and_false] at hbit
      exact hbit
    have hmax : (1#64 <<< (width % 64) - 1#64).toNat = 2 ^ width - 1 := by
      rw [Nat.mod_eq_of_lt (by omega), toNat_lowOnes (by omega)]
    rw [hmax, if_neg (by omega), if_neg (by tauto)]

lemma packFlag_eq {item : FlagItem} {raw : U64} {width : Nat} (h : item.Fine width) :
    packFlag (some (flagValue raw item)) item =
      if item.mask = BitVec.allOnes 64 ∧ raw ≠ 0#64 then refuse .range else .ok (raw &&& item.mask) := by
  simp only [h.run.eq_allOnes]
  by_cases hone : width = 1
  · subst hone
    rw [if_neg (by omega)]
    exact packFlag_bool h
  · exact packFlag_int h hone

/-- The bits some item names. -/
def named (items : List FlagItem) (i : Nat) : Bool := items.any (·.mask.getLsbD i)

/-- What `compile` has checked of the items so far. -/
structure ItemsOk (items : List FlagItem) (union : U64) : Prop where
  fine : ∀ item ∈ items, ∃ width, item.Fine width
  keys : (items.map FlagItem.key).Nodup
  noRest : ∀ item ∈ items, item.key ≠ "_rest"
  union : ∀ i, union.getLsbD i = named items i

lemma ItemsOk.nil : ItemsOk [] 0#64 where
  fine item h := absurd h List.not_mem_nil
  keys := List.nodup_nil
  noRest item h := absurd h List.not_mem_nil
  union i := by simp [named]

lemma ItemsOk.snoc {items : List FlagItem} {union : U64} (h : ItemsOk items union) (item : FlagItem) {width : Nat}
    (hfine : item.Fine width) (hkey : ∀ i ∈ items, i.key ≠ item.key) (hrest : item.key ≠ "_rest") :
    ItemsOk (items ++ [item]) (union ||| item.mask) where
  fine i hi := by
    rcases List.mem_append.mp hi with hi | hi
    · exact h.fine i hi
    · rw [List.mem_singleton.mp hi]
      exact ⟨width, hfine⟩
  keys := by
    rw [List.map_append, List.map_singleton, List.nodup_append]
    refine ⟨h.keys, List.nodup_singleton _, ?_⟩
    intro k hk k' hk'
    obtain ⟨i, hi, rfl⟩ := List.mem_map.mp hk
    rw [List.mem_singleton.mp hk']
    exact hkey i hi
  noRest i hi := by
    rcases List.mem_append.mp hi with hi | hi
    · exact h.noRest i hi
    · rw [List.mem_singleton.mp hi]
      exact hrest
  union i := by
    rw [BitVec.getLsbD_or, h.union, named, named, List.any_append]
    simp

lemma flagItems_ok {base : IntPrim} {baseMask : U64} {names : List (String × U64)} :
    ∀ {items items' : List FlagItem} {union union' : U64},
      flagItems base baseMask names items union = .ok (items', union') → ItemsOk items union →
        ItemsOk items' union' ∧ items'.map FlagItem.mask = items.map FlagItem.mask ++ names.map Prod.snd := by
  induction names with
  | nil =>
    intro items items' union union' h hok
    cases h
    exact ⟨hok, by simp⟩
  | cons entry names ih =>
    intro items items' union union' h hok
    obtain ⟨fname, m⟩ := entry
    rw [flagItems] at h
    dsimp only at h
    split_ifs at h with hname hdup hzero hbase hover hrun
    · cases h
    · cases h
    · cases h
    · cases h
    · cases h
    · cases h
    obtain ⟨width, hfine⟩ := isRun_of_contiguous hzero (not_not.mp hrun)
    have hbool : (countOnes m == 1) = (width == 1) := by rw [hfine.countOnes]
    have hkey : ∀ i ∈ items, i.key ≠ fname := by
      intro i hi he
      apply hdup
      rw [List.any_eq_true]
      exact ⟨i, hi, by simp [he]⟩
    obtain ⟨hok', hmasks⟩ := ih h (hok.snoc ⟨fname, m, trailingZeros m, countOnes m == 1⟩ ⟨hfine, hbool⟩ hkey
      (fun he => hname (.inr he)))
    refine ⟨hok', ?_⟩
    rw [hmasks, List.map_append, List.append_assoc]
    rfl

/-- No name, or one whose mask is not the whole word. -/
lemma packFlagItems_eq {view : FieldIndex} {raw : U64} {items : List FlagItem} :
    ∀ (acc : U64), (∀ item ∈ items, packFlag (view.get item.key) item = .ok (raw &&& item.mask)) →
      ∃ r, packFlagItems view items acc = .ok r ∧
        ∀ i, r.getLsbD i = (acc.getLsbD i || (raw.getLsbD i && named items i)) := by
  induction items with
  | nil =>
    intro acc _
    exact ⟨acc, rfl, fun i => by simp [named]⟩
  | cons item items ih =>
    intro acc h
    obtain ⟨r, hr, hbits⟩ := ih (acc ||| raw &&& item.mask) fun i hi => h i (List.mem_cons_of_mem item hi)
    refine ⟨r, ?_, ?_⟩
    · rw [packFlagItems_cons, h item List.mem_cons_self]
      exact hr
    · intro i
      rw [hbits, BitVec.getLsbD_or, BitVec.getLsbD_and, named, named, List.any_cons, Bool.and_or_distrib_left,
        Bool.or_assoc]

lemma packFlagItems_each {view : FieldIndex} {items : List FlagItem} :
    ∀ {acc r : U64}, packFlagItems view items acc = .ok r →
      ∀ item ∈ items, ∃ x, packFlag (view.get item.key) item = .ok x := by
  induction items with
  | nil =>
    intro acc r _ item hitem
    cases hitem
  | cons first items ih =>
    intro acc r h item hitem
    rw [packFlagItems_cons] at h
    obtain ⟨x, hx, hrest⟩ := Exec.bind_eq_ok.mp h
    rcases List.mem_cons.mp hitem with hhead | htail
    · rw [hhead]
      exact ⟨x, hx⟩
    · exact ih hrest item htail

/-- The map `do_flags` returns: the names, and what is left over unless it has no place. -/
def flagMap (items : List FlagItem) (rest : RestPolicy) (restMask raw : U64) : List (String × Value) :=
  items.map (fun item => (item.key, flagValue raw item)) ++
    if rest = .keep then [("_rest", .int (raw &&& restMask).toNat)] else []

lemma doFlags_ok {buf : Bytes} {prim : IntPrim} {be : Bool} {items : List FlagItem} {rest : RestPolicy} {restMask : U64}
    (hrest : rest ≠ .ignore) {limit : Nat} {cur next : Cur} {v : Value}
    (h : doFlags buf prim be items rest restMask limit cur = .ok (v, next)) :
    cur.pos + prim.width ≤ buf.length ∧
      v = .map (flagMap items rest restMask
        (BitVec.ofNat 64 (readUint ((buf.drop cur.pos).take prim.width) be))) ∧
      (rest = .strict → BitVec.ofNat 64 (readUint ((buf.drop cur.pos).take prim.width) be) &&& restMask = 0#64) := by
  unfold doFlags at h
  obtain ⟨-, -, h⟩ := Exec.bind_eq_ok.mp h
  obtain ⟨bytes, hslice, h⟩ := Exec.bind_eq_ok.mp h
  unfold slice at hslice
  split_ifs at hslice with hfits
  swap
  · cases hslice
  have hwidth : cur.pos + prim.width - cur.pos = prim.width := Nat.add_sub_cancel_left _ _
  rw [hwidth] at hslice
  obtain rfl : (buf.drop cur.pos).take prim.width = bytes := Except.ok.inj hslice
  refine ⟨hfits.2, ?_⟩
  simp only [setFlags_value, Exec.bind_ok] at h
  cases rest with
  | keep =>
    cases h
    exact ⟨rfl, by simp⟩
  | strict =>
    simp only [] at h
    split_ifs at h with hleft
    · cases h
    · cases h
      refine ⟨by simp [flagMap], fun _ => ?_⟩
      simpa using hleft
  | ignore => exact absurd rfl hrest

lemma get_of_mem {m : List (String × Value)} (h : (m.map Prod.fst).Nodup) {k : String} {v : Value} (hmem : (k, v) ∈ m) :
    (viewOf m).get k = some v := by
  rw [viewOf_get h]
  induction m with
  | nil => cases hmem
  | cons entry m ih =>
    obtain ⟨hnot, hrest⟩ := List.nodup_cons.mp h
    rcases List.mem_cons.mp hmem with hhead | htail
    · simp [Value.get, ← hhead]
    · have hne : (entry.1 == k) = false := by
        rw [beq_eq_false_iff_ne]
        intro he
        rw [he] at hnot
        exact hnot (List.mem_map_of_mem (f := Prod.fst) htail)
      have hget := ih hrest htail
      simpa [Value.get, List.find?_cons, hne] using hget

lemma keys_viewOf (m : List (String × Value)) (p : String → Bool) :
    (viewOf m).keys.all p = (m.map Prod.fst).all p := by
  unfold viewOf
  split_ifs
  · rw [Bool.eq_iff_iff, List.all_eq_true, List.all_eq_true]
    simp only [FieldIndex.keys, List.mem_dedup]
  · rfl

section Decoded

variable {items : List FlagItem} {union : U64} (hok : ItemsOk items union) (rest : RestPolicy) (restMask raw : U64)

lemma flagMap_keys : (flagMap items rest restMask raw).map Prod.fst =
    items.map FlagItem.key ++ if rest = .keep then ["_rest"] else [] := by
  rw [flagMap, List.map_append, List.map_map]
  split_ifs <;> rfl

lemma flagMap_known : (viewOf (flagMap items rest restMask raw)).keys.all
    (fun k => items.any (fun i => i.key == k) || (rest == .keep && k == "_rest")) = true := by
  rw [keys_viewOf, flagMap_keys, List.all_append, Bool.and_eq_true, List.all_eq_true]
  constructor
  · intro k hk
    obtain ⟨item, hitem, rfl⟩ := List.mem_map.mp hk
    have hany : items.any (fun i => i.key == item.key) = true := List.any_eq_true.mpr ⟨item, hitem, by simp⟩
    rw [hany, Bool.true_or]
  · split_ifs with hkeep
    · simp [hkeep]
    · rfl

include hok

lemma flagMap_nodup : ((flagMap items rest restMask raw).map Prod.fst).Nodup := by
  rw [flagMap_keys, List.nodup_append]
  refine ⟨hok.keys, by split_ifs <;> simp, ?_⟩
  intro k hk k' hk'
  obtain ⟨item, hitem, rfl⟩ := List.mem_map.mp hk
  split_ifs at hk' with hkeep
  · rw [List.mem_singleton.mp hk']
    exact hok.noRest item hitem
  · cases hk'

lemma flagMap_get {item : FlagItem} (h : item ∈ items) :
    (viewOf (flagMap items rest restMask raw)).get item.key = some (flagValue raw item) := by
  apply get_of_mem (flagMap_nodup hok rest restMask raw)
  exact List.mem_append_left _ (List.mem_map_of_mem (f := fun item => (item.key, flagValue raw item)) h)

lemma packRest_flagMap (hrest : rest ≠ .ignore) (hstrict : rest = .strict → raw &&& restMask = 0#64) :
    packRest (viewOf (flagMap items rest restMask raw)) rest restMask = .ok (raw &&& restMask) := by
  cases rest with
  | keep =>
    have hget : (viewOf (flagMap items .keep restMask raw)).get "_rest" =
        some (.int (raw &&& restMask).toNat) := by
      apply get_of_mem (flagMap_nodup hok .keep restMask raw)
      simp [flagMap]
    have hlt := (raw &&& restMask).isLt
    have hinside : (raw &&& restMask) &&& ~~~restMask = 0#64 := by
      rw [BitVec.and_assoc, BitVec.and_not_self]
      exact BitVec.and_zero
    have hback : BitVec.ofInt 64 ((raw &&& restMask).toNat : Int) = raw &&& restMask := by
      rw [BitVec.ofInt_natCast, BitVec.ofNat_toNat, BitVec.setWidth_eq]
    unfold packRest
    simp only [viewGet_value, hget, flagInt, Value.asInt, Exec.bind_ok, hback, hinside]
    rw [if_neg, BitVec.and_assoc, BitVec.and_self]
    rintro (h | h | h)
    · omega
    · omega
    · exact h rfl
  | strict =>
    rw [hstrict rfl]
    rfl
  | ignore => exact absurd rfl hrest

end Decoded

/-- `pack_flags` writes back the bytes `do_flags` read. -/
def FlagsRoundTrip (prim : IntPrim) (be : Bool) (items : List FlagItem) (rest : RestPolicy) (restMask : U64) : Prop :=
  ∀ buf limit cur v next, doFlags buf prim be items rest restMask limit cur = .ok (v, next) →
    ∀ ctx : PCtx, ctx.out.length + prim.width ≤ isizeMax →
      packFlags prim be items rest restMask v ctx =
        .ok { ctx with out := ctx.out ++ (buf.drop cur.pos).take prim.width }

/-- The additions and shifts of `compile` and of `pack_flags` stay within their types. -/
structure FlagsNoOverflow (prim : IntPrim) (items : List FlagItem) : Prop where
  /-- `1u64 << (base.width() * 8)` -/
  base : prim.width ≠ 8 → prim.width * 8 < 64
  /-- `mask >> shift` and `val << shift` -/
  shift : ∀ item ∈ items, item.shift < 64
  /-- `m + 1` -/
  succ : ∀ item ∈ items, (item.mask >>> item.shift).toNat + 1 < 2 ^ 64
  /-- `1u64 << width` -/
  width : ∀ item ∈ items, item.isBool = false → countOnes (item.mask >>> item.shift) < 64
  /-- `pos + w`, at the end of the bytes written or read -/
  room : ∀ bytes : Buffer, bytes.bytes.length + prim.width < usizeSize

lemma appendUint {ctx : PCtx} {w : Nat} (h : ctx.out.length + w ≤ isizeMax) (be : Bool) (v : Nat) :
    (do
      let next ← ctx.grow w
      .ok { next with out := ← writeUintAt next.out ctx.out.length w be v } : PRes PCtx) =
      .ok { ctx with out := ctx.out ++ uintBytes w be v } := by
  have hwrap : wrapAdd ctx.out.length w = ctx.out.length + w := by
    apply Nat.mod_eq_of_lt
    exact Nat.lt_of_le_of_lt h (by decide)
  have hgrow : ctx.grow w = .ok { ctx with out := ctx.out ++ List.replicate w 0 } := by
    unfold PCtx.grow resize
    rw [hwrap, if_neg (Nat.not_lt.mpr h), List.take_of_length_le (Nat.le_add_right _ _), Nat.add_sub_cancel_left]
    rfl
  have hcopy : writeUintAt (ctx.out ++ List.replicate w 0) ctx.out.length w be v = .ok (ctx.out ++ uintBytes w be v) := by
    have hlen : (uintBytes w be v).length = w := uintBytes_length w be v
    unfold writeUintAt copyAt
    rw [hlen, if_pos (by simp), List.take_left, List.drop_eq_nil_of_le (by simp), List.append_nil]
  rw [hgrow, Exec.bind_ok]
  simp only [hcopy, Exec.bind_ok]

section Compiled

variable {prim : IntPrim} {be : Bool} {items : List FlagItem} {union : U64} {rest : RestPolicy}

lemma flagsRoundTrip_of_fits (hok : ItemsOk items union) (hrest : rest ≠ .ignore)
    (hfits : ∀ item ∈ items, item.mask ≠ BitVec.allOnes 64) :
    FlagsRoundTrip prim be items rest (mask (prim.width * 8) &&& ~~~union) := by
  intro buf limit cur v next h ctx hctx
  obtain ⟨hlen, rfl, hstrict⟩ := doFlags_ok hrest h
  generalize hbytes : (buf.drop cur.pos).take prim.width = bytes at *
  have hbl : bytes.length = prim.width := by
    rw [← hbytes, List.length_take, List.length_drop]
    omega
  have hlt : readUint bytes be < 2 ^ (prim.width * 8) := by
    have hlt := readUint_lt bytes be
    rwa [hbl, show (256 : Nat) = 2 ^ 8 from rfl, ← pow_mul, Nat.mul_comm] at hlt
  have hw : prim.width * 8 ≤ 64 := by cases prim <;> decide
  have hlt64 : readUint bytes be < 2 ^ 64 := Nat.lt_of_lt_of_le hlt (Nat.pow_le_pow_right (by decide) hw)
  generalize hraw : BitVec.ofNat 64 (readUint bytes be) = raw at *
  have hnat : raw.toNat = readUint bytes be := by
    rw [← hraw, BitVec.toNat_ofNat, Nat.mod_eq_of_lt hlt64]
  have heach : ∀ item ∈ items,
      packFlag ((viewOf (flagMap items rest (mask (prim.width * 8) &&& ~~~union) raw)).get item.key) item =
        .ok (raw &&& item.mask) := by
    intro item hitem
    obtain ⟨width, hfine⟩ := hok.fine item hitem
    rw [flagMap_get hok rest _ raw hitem, packFlag_eq hfine, if_neg (fun hfull => hfits item hitem hfull.1)]
  obtain ⟨r, hr, hbits⟩ := packFlagItems_eq 0#64 heach
  have hwhole : r ||| (raw &&& (mask (prim.width * 8) &&& ~~~union)) = raw := by
    ext i hi
    have hinside : raw.getLsbD i = true → i < prim.width * 8 := by
      intro hbit
      by_contra hge
      rw [BitVec.getLsbD, hnat, Nat.testBit_lt_two_pow
        (Nat.lt_of_lt_of_le hlt (Nat.pow_le_pow_right (by decide) (Nat.not_lt.mp hge)))] at hbit
      cases hbit
    rw [← BitVec.getLsbD_eq_getElem, ← BitVec.getLsbD_eq_getElem, BitVec.getLsbD_or, hbits, BitVec.getLsbD_and,
      BitVec.getLsbD_and, BitVec.getLsbD_not, hok.union, getLsbD_mask, BitVec.getLsbD_zero]
    cases hbit : raw.getLsbD i with
    | false => simp
    | true =>
      have hlow := hinside hbit
      simp [hlow, hi]
  unfold packFlags
  rw [mapView_map]
  simp only [flagMap_known, if_true, hr, Exec.bind_ok, packRest_flagMap hok rest _ raw hrest hstrict, hwhole, hnat]
  rw [appendUint hctx, ← hbl, uintBytes_readUint]

lemma not_roundTrip_of_full (hok : ItemsOk items union) (hrest : rest ≠ .ignore) {item : FlagItem} (hitem : item ∈ items)
    (hfull : item.mask = BitVec.allOnes 64) :
    ¬FlagsRoundTrip prim be items rest (mask (prim.width * 8) &&& ~~~union) := by
  intro h
  have hread : readUint (uintBytes prim.width be 1) be = 1 := by
    apply readUint_uintBytes
    cases prim <;> decide
  have hunion : ~~~union = 0#64 := by
    ext i hi
    have hnamed : named items i = true :=
      List.any_eq_true.mpr ⟨item, hitem, by rw [hfull, BitVec.getLsbD_allOnes, decide_eq_true hi]⟩
    rw [← BitVec.getLsbD_eq_getElem, BitVec.getLsbD_not, hok.union, hnamed]
    simp
  have hlen : (uintBytes prim.width be 1).length = prim.width := uintBytes_length _ _ _
  obtain ⟨next, hdecode⟩ : ∃ next, doFlags (uintBytes prim.width be 1) prim be items rest
      (mask (prim.width * 8) &&& ~~~union) prim.width { fs := [], pos := 0 } =
        .ok (.map (flagMap items rest (mask (prim.width * 8) &&& ~~~union) 1#64), next) := by
    refine ⟨{ fs := [], pos := 0 + prim.width }, ?_⟩
    unfold doFlags need slice
    simp only [setFlags_value, mapSet_value, Nat.zero_add, le_refl, if_true, Exec.bind_ok,
      Nat.zero_le, hlen, and_self, Nat.sub_zero, List.drop_zero,
      List.take_of_length_le (Nat.le_of_eq hlen), hread, hunion]
    cases rest with
    | keep => rfl
    | strict => simp [flagMap]
    | ignore => exact absurd rfl hrest
  have hpack := h _ _ _ _ _ hdecode { out := [], frames := [] } (by cases prim <;> decide)
  unfold packFlags at hpack
  rw [mapView_map] at hpack
  simp only [flagMap_known, if_true] at hpack
  obtain ⟨r, hr, -⟩ := Exec.bind_eq_ok.mp hpack
  obtain ⟨x, hx⟩ := packFlagItems_each hr item hitem
  obtain ⟨width, hfine⟩ := hok.fine item hitem
  rw [flagMap_get hok rest _ _ hitem, packFlag_eq hfine, if_pos ⟨hfull, by decide⟩] at hx
  cases hx

lemma flagsNoOverflow_iff (hok : ItemsOk items union) :
    FlagsNoOverflow prim items ↔ ∀ item ∈ items, item.mask ≠ BitVec.allOnes 64 := by
  constructor
  · intro h item hitem hfull
    obtain ⟨width, hfine⟩ := hok.fine item hitem
    have hwidth := hfine.run.eq_allOnes.mp hfull
    have hfits := hfine.run.fits
    have hshift : item.shift = 0 := by omega
    have hsucc := h.succ item hitem
    rw [hfull, hshift] at hsucc
    exact absurd hsucc (by decide)
  · intro h
    refine ⟨by cases prim <;> decide, ?_, ?_, ?_, ?_⟩
    · intro item hitem
      obtain ⟨width, hfine⟩ := hok.fine item hitem
      have hfits := hfine.run.fits
      have hpos := hfine.run.pos
      omega
    · intro item hitem
      obtain ⟨width, hfine⟩ := hok.fine item hitem
      have hne : item.mask >>> item.shift ≠ BitVec.allOnes 64 := by
        intro he
        exact h item hitem (hfine.run.eq_allOnes.mpr (hfine.run.shifted.eq_allOnes.mp he))
      have hlt := (item.mask >>> item.shift).isLt
      by_contra hge
      apply hne
      apply BitVec.eq_of_toNat_eq
      rw [BitVec.toNat_allOnes]
      omega
    · intro item hitem _
      obtain ⟨width, hfine⟩ := hok.fine item hitem
      have hfits := hfine.run.fits
      have hne : width ≠ 64 := fun he => h item hitem (hfine.run.eq_allOnes.mpr he)
      rw [hfine.run.shifted.countOnes]
      omega
    · intro bytes
      have hsmall := bytes.small
      have hwidth : prim.width ≤ 8 := by cases prim <;> decide
      unfold isizeMax at hsmall
      unfold usizeSize
      omega

end Compiled

/-- A flags field round-trips, without overflow, exactly when no mask is the whole 64-bit word. -/
theorem flags_iff {base prim : IntPrim} {be be' : Bool} {names : List (String × U64)} {restName : String}
    {c c' : Common} {items : List FlagItem} {rest : RestPolicy} {restMask : U64}
    (h : compileFlags base be names restName c = .ok (.flags prim be' items rest restMask c')) (hrest : rest ≠ .ignore) :
    ((FlagsRoundTrip prim be' items rest restMask ∧ FlagsNoOverflow prim items) ↔
        ∀ entry ∈ names, entry.2 ≠ BitVec.allOnes 64) ∧
      (FlagsRoundTrip prim be' items rest restMask ↔ ∀ entry ∈ names, entry.2 ≠ BitVec.allOnes 64) := by
  unfold compileFlags at h
  split_ifs at h with hsigned
  · cases h
  obtain ⟨⟨items', union⟩, hitems, h⟩ := Exec.bind_eq_ok.mp h
  obtain ⟨hok, hmasks⟩ := flagItems_ok hitems .nil
  cases hparse : restPolicies.parse restName with
  | error msg =>
    simp only [hparse] at h
    cases h
  | ok policy =>
    simp only [hparse] at h
    cases h
    have hnames : (∀ item ∈ items, item.mask ≠ BitVec.allOnes 64) ↔ ∀ entry ∈ names, entry.2 ≠ BitVec.allOnes 64 := by
      have hmem : ∀ m, m ∈ items.map FlagItem.mask ↔ m ∈ names.map Prod.snd := by
        intro m
        rw [hmasks, List.map_nil, List.nil_append]
      constructor
      · intro hall entry hentry he
        obtain ⟨item, hitem, hmask⟩ := List.mem_map.mp ((hmem entry.2).mpr (List.mem_map_of_mem hentry))
        exact hall item hitem (hmask.trans he)
      · intro hall item hitem he
        obtain ⟨entry, hentry, hmask⟩ := List.mem_map.mp ((hmem item.mask).mp (List.mem_map_of_mem hitem))
        exact hall entry hentry (hmask.trans he)
    have htrip : FlagsRoundTrip base be items rest (mask (base.width * 8) &&& ~~~union) ↔
        ∀ item ∈ items, item.mask ≠ BitVec.allOnes 64 := by
      constructor
      · intro h item hitem hfull
        exact not_roundTrip_of_full hok hrest hitem hfull h
      · exact flagsRoundTrip_of_fits hok hrest
    rw [← hnames, htrip, flagsNoOverflow_iff hok, and_self]
    exact ⟨Iff.rfl, Iff.rfl⟩

lemma compileFlags_of_beq {base : IntPrim} {be : Bool} {names : List (String × U64)} {restName : String} {c : Common}
    {op : Op} (h : Exec.returns (compileFlags base be names restName c) fun op' => op'.beq op) :
    compileFlags base be names restName c = .ok op := by
  obtain ⟨op', hop, hbeq⟩ := Exec.returns_iff.mp h
  rw [hop, beq_cases.op op' op hbeq]

/-- A flags field with one bit, a run and bits left over. -/
theorem flags_iff_u16 : FlagsRoundTrip .u16 false
    [⟨"ack", 0x0001, 0, true⟩, ⟨"kind", 0x00F0, 4, false⟩] .keep 0xFF0E := by
  have hcompiled : compileFlags .u16 false [("ack", 0x0001), ("kind", 0x00F0)] "keep" .skip =
      .ok (.flags .u16 false [⟨"ack", 0x0001, 0, true⟩, ⟨"kind", 0x00F0, 4, false⟩] .keep 0xFF0E .skip) :=
    compileFlags_of_beq (by decide +kernel)
  exact (flags_iff hcompiled (by decide)).2.mpr (by decide)

/-- A mask of 64 bits compiles, the integer is decoded, and the decoded map is refused. -/
theorem flags_full_mask :
    compileFlags .u64 true [("all", BitVec.allOnes 64)] "strict" .skip =
        .ok (.flags .u64 true [⟨"all", BitVec.allOnes 64, 0, false⟩] .strict 0#64 .skip) ∧
      (doFlags [0, 0, 0, 0, 0, 0, 0, 1] .u64 true [⟨"all", BitVec.allOnes 64, 0, false⟩] .strict 0#64 8
        { fs := [], pos := 0 } = .ok (.map [("all", .int 1)], { fs := [], pos := 8 })) ∧
      (packFlags .u64 true [⟨"all", BitVec.allOnes 64, 0, false⟩] .strict 0#64 (.map [("all", .int 1)])
        { out := [], frames := [] } = refuse .range) ∧
      ¬FlagsRoundTrip .u64 true [⟨"all", BitVec.allOnes 64, 0, false⟩] .strict 0#64 ∧
      ¬FlagsNoOverflow .u64 [⟨"all", BitVec.allOnes 64, 0, false⟩] := by
  have hdecode : doFlags [0, 0, 0, 0, 0, 0, 0, 1] .u64 true [⟨"all", BitVec.allOnes 64, 0, false⟩] .strict 0#64 8
      { fs := [], pos := 0 } = .ok (.map [("all", .int 1)], { fs := [], pos := 8 }) := by
    rfl
  have hpack : packFlags .u64 true [⟨"all", BitVec.allOnes 64, 0, false⟩] .strict 0#64 (.map [("all", .int 1)])
      { out := [], frames := [] } = refuse .range := by
    rfl
  refine ⟨compileFlags_of_beq (by decide +kernel), hdecode, hpack, ?_, ?_⟩
  · intro h
    have hback := h _ _ _ _ _ hdecode { out := [], frames := [] } (by decide)
    rw [hpack] at hback
    cases hback
  · intro h
    exact absurd (h.succ _ List.mem_cons_self) (by decide)

end Rustruct

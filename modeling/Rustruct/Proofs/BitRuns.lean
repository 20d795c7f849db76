import Rustruct.Proofs.Integers
import Rustruct.Reading

/-!
# Bit runs

The fields of a bit run cover every bit of its bytes exactly once, so writing them and reading them are
inverse to each other, in whatever order they are written. This is so up to the last bit that a `u32` counts:
in a longer run the count starts again, and the bits past it are never read.
-/

namespace Rustruct

open BitStream

/-- A field of a bit run: where it starts, its item and its value. -/
structure BitField where
  off : Nat
  item : BitItem
  value : Int
  deriving DecidableEq, Repr

namespace BitField

/-- The masked value that goes into the stream. -/
def word (f : BitField) : Nat := asU64 f.value % 2 ^ f.item.width

/-- Bit `i` of the run belongs to the field. -/
def Covers (f : BitField) (i : Nat) : Prop := f.off ≤ i ∧ i < f.off + f.item.width

instance (f : BitField) (i : Nat) : Decidable (f.Covers i) := by
  unfold Covers
  infer_instance

/-- Bit `i` of the run, as far as this field sets it. -/
def bit (f : BitField) (i : Nat) : Bool :=
  decide (f.Covers i) && f.word.testBit (f.off + f.item.width - 1 - i)

/-- The write of a bit item: that of the slot a derived one reserved. -/
def write (base : Nat) (f : BitField) (out : Bytes) : PRes Bytes :=
  PCtx.writeSlot out (.bits base f.off f.item.width f.item.signed) f.value

end BitField

/-- The fields of a run from bit `off` on. -/
def layout : Nat → List BitItem → List Int → List BitField
  | off, item :: items, v :: vs => ⟨off, item, v⟩ :: layout (wrapAddU32 off item.width) items vs
  | _, _, _ => []

/-- Writes in turn. -/
def writeFields (base : Nat) : List BitField → Bytes → PRes Bytes
  | [], out => .ok out
  | f :: fs, out => do writeFields base fs (← f.write base out)

/-- The items of a run, read in turn from bit `off` on. -/
def readRun (buf : Bytes) (base : Nat) : List BitItem → Nat → URes (List Int)
  | [], _ => .ok []
  | item :: items, off => do
    let v ← readBits buf base off item
    .ok (v :: (← readRun buf base items (wrapAddU32 off item.width)))

section Frame

variable (before after : Bytes)

lemma orBit_sets {run : Bytes} {i : Nat} (hi : i < 8 * run.length) (b : Bool) :
    ∃ run', orBit (before ++ run ++ after) before.length i b = .ok (before ++ run' ++ after) ∧
      Sets run run' fun j => b && j == i := by
  cases b with
  | false => exact ⟨run, by simp [orBit], Sets.refl run⟩
  | true =>
    have hlt : i / 8 < run.length := by omega
    have hat : (before ++ run ++ after)[before.length + i / 8]? = some run[i / 8] := by
      rw [List.append_assoc, List.getElem?_append_right (Nat.le_add_right _ _), Nat.add_sub_cancel_left,
        List.getElem?_append_left hlt, List.getElem?_eq_getElem hlt]
    have hset : ∀ x, (before ++ run ++ after).set (before.length + i / 8) x = before ++ run.set (i / 8) x ++ after := by
      intro x
      rw [List.append_assoc, List.set_append_right _ _ (Nat.le_add_right _ _), Nat.add_sub_cancel_left,
        List.set_append_left _ _ hlt, List.append_assoc]
    refine ⟨_, ?_, (Sets.one hlt).congr fun j => (Bool.true_and _).symm⟩
    rw [orBit, if_pos rfl, hat, ← hset]

/-- The count does not start again before the last bit. -/
lemma orBits_next {v n i : Nat} (h : i + 1 + n ≤ u32Size) (base : Nat) (out : Bytes) :
    orBits base v n (wrapAddU32 i 1) out = orBits base v n (i + 1) out := by
  cases n with
  | zero => rfl
  | succ n => rw [wrapAddU32_of_lt (by omega)]

lemma orBits_sets (v n : Nat) :
    ∀ {run : Bytes} {i : Nat}, i + n ≤ 8 * run.length → i + n ≤ u32Size →
      ∃ run', orBits before.length v n i (before ++ run ++ after) = .ok (before ++ run' ++ after) ∧
        Sets run run' fun j => decide (i ≤ j ∧ j < i + n) && v.testBit (i + n - 1 - j) := by
  induction n with
  | zero =>
    intro run i _ _
    refine ⟨run, rfl, (Sets.refl run).congr fun j => ?_⟩
    have hnone : ¬(i ≤ j ∧ j < i + 0) := by omega
    rw [decide_eq_false hnone, Bool.false_and]
  | succ n ih =>
    intro run i hi hcount
    obtain ⟨run₁, hone, hset₁⟩ := orBit_sets before after (show i < 8 * run.length by omega) (v.testBit n)
    obtain ⟨run₂, hrest, hset₂⟩ := ih (show i + 1 + n ≤ 8 * run₁.length by rw [hset₁.length]; omega) (by omega)
    refine ⟨run₂, ?_, (hset₁.trans hset₂).congr fun j => ?_⟩
    · rw [orBits, hone, Exec.bind_ok, orBits_next (by omega)]
      exact hrest
    · by_cases hj : j = i
      · have hnot : ¬(i + 1 ≤ j ∧ j < i + 1 + n) := by omega
        have hin : i ≤ j ∧ j < i + (n + 1) := by omega
        have hplace : i + (n + 1) - 1 - j = n := by omega
        rw [decide_eq_false hnot, decide_eq_true hin, hplace, hj]
        simp
      · have hiff : (i + 1 ≤ j ∧ j < i + 1 + n) ↔ (i ≤ j ∧ j < i + (n + 1)) := by omega
        have hplace : i + 1 + n - 1 - j = i + (n + 1) - 1 - j := by omega
        rw [decide_eq_decide.mpr hiff, hplace, beq_eq_false_iff_ne.mpr hj, Bool.and_false, Bool.false_or]

lemma readBit_eq {run : Bytes} {i : Nat} (hi : i < 8 * run.length) :
    readBit (before ++ run ++ after) before.length i = .ok (bitAt run i) := by
  have hlt : i / 8 < run.length := by omega
  have hat : (before ++ run ++ after)[before.length + i / 8]? = some run[i / 8] := by
    rw [List.append_assoc, List.getElem?_append_right (Nat.le_add_right _ _), Nat.add_sub_cancel_left,
      List.getElem?_append_left hlt, List.getElem?_eq_getElem hlt]
  rw [readBit, hat, bitAt, List.getD_eq_getElem _ _ hlt]

lemma readBitsFrom_next {w i : Nat} (h : i + 1 + w ≤ u32Size) (buf : Bytes) (base v : Nat) :
    readBitsFrom buf base w (wrapAddU32 i 1) v = readBitsFrom buf base w (i + 1) v := by
  cases w with
  | zero => rfl
  | succ w => rw [wrapAddU32_of_lt (by omega)]

lemma readBitsFrom_eq {run : Bytes} {w i v : Nat} (hfit : i + w ≤ 8 * run.length) (hcount : i + w ≤ u32Size) :
    readBitsFrom (before ++ run ++ after) before.length w i v = .ok (bitsAt run w i v) := by
  induction w generalizing i v with
  | zero => rfl
  | succ w ih =>
    rw [readBitsFrom, readBit_eq before after (by omega), Exec.bind_ok, readBitsFrom_next (by omega)]
    exact ih (by omega) (by omega)

end Frame

/-- The bits of the number, below those that were read before. -/
lemma bitsAt_spec (run : Bytes) (w i v : Nat) :
    bitsAt run w i v / 2 ^ w = v ∧ ∀ k < w, (bitsAt run w i v).testBit k = bitAt run (i + w - 1 - k) := by
  induction w generalizing i v with
  | zero => exact ⟨Nat.div_one v, fun k hk => absurd hk (Nat.not_lt_zero k)⟩
  | succ w ih =>
    obtain ⟨hhigh, hlow⟩ := ih (i + 1) (v * 2 + (bitAt run i).toNat)
    rw [bitsAt]
    constructor
    · have hbit : (bitAt run i).toNat < 2 := Bool.toNat_lt _
      rw [Nat.pow_succ, ← Nat.div_div_eq_div_mul, hhigh]
      omega
    · intro k hk
      by_cases hkw : k < w
      · have hplace : i + 1 + w - 1 - k = i + (w + 1) - 1 - k := by omega
        rw [hlow k hkw, hplace]
      · have hk' : k = w := by omega
        have hplace : i + (w + 1) - 1 - w = i := by omega
        have htop := Nat.testBit_div_two_pow (n := w) (bitsAt run w (i + 1) (v * 2 + (bitAt run i).toNat)) 0
        rw [hhigh, Nat.zero_add] at htop
        rw [hk', hplace, ← htop]
        cases bitAt run i <;> simp [Nat.testBit_zero, Nat.add_mod]

/-- The value passes `check_bits_range`. -/
def InBits (v : Int) (item : BitItem) : Prop := checkBitsRange v item.width item.signed = .ok ()

lemma inBits_iff {v : Int} {item : BitItem} :
    InBits v item ↔
      if item.signed then -(2 ^ (item.width - 1)) ≤ v ∧ v < 2 ^ (item.width - 1) else 0 ≤ v ∧ v < 2 ^ item.width := by
  have hguard : ∀ ok : Bool, (if ok then .ok () else refuse .range : PRes Unit) = .ok () ↔ ok = true := by
    intro ok
    cases ok <;> simp [refuse]
  unfold InBits checkBitsRange
  rw [hguard]
  split_ifs
  · exact decide_eq_true_iff
  · exact decide_eq_true_iff

lemma asU64_mod {w : Nat} (hw : w ≤ 64) (v : Int) : ((asU64 v % 2 ^ w : Nat) : Int) = v % 2 ^ w := by
  have hnn : 0 ≤ v % 2 ^ 64 := Int.emod_nonneg v (by decide)
  have hdvd : (2 : Int) ^ w ∣ 2 ^ 64 := pow_dvd_pow 2 hw
  rw [Int.natCast_mod, asU64, Int.toNat_of_nonneg hnn, Nat.cast_pow]
  exact Int.emod_emod_of_dvd v hdvd

lemma two_pow_pred {w : Nat} (hpos : 0 < w) : (2 : Int) ^ w = 2 * 2 ^ (w - 1) := by
  have hw : w = w - 1 + 1 := by omega
  conv_lhs => rw [hw, pow_succ]
  exact mul_comm _ _

/-- Two's complement at any width. -/
lemma signBits_word {item : BitItem} (hpos : 0 < item.width) (hle : item.width ≤ 64) {v : Int} (h : InBits v item) :
    signBits item.width item.signed (asU64 v % 2 ^ item.width) = v := by
  have hword := asU64_mod hle v
  rw [inBits_iff] at h
  unfold signBits
  by_cases hsigned : item.signed
  · rw [if_pos hsigned] at h ⊢
    by_cases hw : item.width < 64
    · obtain ⟨n, hn⟩ : ∃ n, item.width = n + 1 := ⟨item.width - 1, by omega⟩
      rw [if_pos hw]
      rw [hn] at h hword ⊢
      exact twosComplement h.1 h.2 hword
    · have h64 : item.width = 64 := by omega
      have hbmod : asI64 (v % 2 ^ 64) = asI64 v := Int.emod_bmod v (2 ^ 64)
      rw [if_neg hw]
      rw [h64] at h hword ⊢
      rw [hword, hbmod]
      exact asI64_of_inI64 ⟨h.1, by unfold i64Max; omega⟩
  · rw [if_neg hsigned] at h ⊢
    rw [hword, Int.emod_eq_of_lt h.1 h.2]

lemma word_signBits {item : BitItem} (hpos : 0 < item.width) (hle : item.width ≤ 64) {u : Nat}
    (hu : u < 2 ^ item.width) :
    InBits (signBits item.width item.signed u) item ∧
      asU64 (signBits item.width item.signed u) % 2 ^ item.width = u := by
  have hcast : (u : Int) < 2 ^ item.width := by exact_mod_cast hu
  have hhalf := two_pow_pred hpos
  have hnn : (0 : Int) ≤ u := Int.natCast_nonneg u
  have hback : ∀ v : Int, v % 2 ^ item.width = u → asU64 v % 2 ^ item.width = u := by
    intro v hv
    have hword := asU64_mod hle v
    rw [hv] at hword
    exact_mod_cast hword
  have hself : (u : Int) % 2 ^ item.width = u := Int.emod_eq_of_lt hnn hcast
  have htopIff : u.testBit (item.width - 1) = true ↔ (2 : Int) ^ (item.width - 1) ≤ u := by
    have hw : item.width - 1 + 1 = item.width := by omega
    rw [testBit_top (by rwa [hw]), decide_eq_true_iff]
    exact_mod_cast Iff.rfl
  unfold signBits
  split_ifs with hsigned hw htop
  · rw [htopIff] at htop
    have hmod : ((u : Int) - 2 ^ item.width) % 2 ^ item.width = u := by
      rw [Int.sub_emod_right, hself]
    refine ⟨?_, hback _ hmod⟩
    rw [inBits_iff, if_pos hsigned]
    omega
  · rw [htopIff] at htop
    refine ⟨?_, hback _ hself⟩
    rw [inBits_iff, if_pos hsigned]
    omega
  · have h64 : item.width = 64 := by omega
    obtain ⟨hlo, hhi⟩ := inI64_asI64 (u : Int)
    have hmod : asI64 (u : Int) % 2 ^ item.width = u := by
      rw [h64] at hself ⊢
      have hemod : asI64 (u : Int) % 2 ^ 64 = (u : Int) % 2 ^ 64 := Int.bmod_emod
      rw [hemod, hself]
    refine ⟨?_, hback _ hmod⟩
    rw [inBits_iff, if_pos hsigned, h64]
    unfold i64Min i64Max at *
    omega
  · refine ⟨?_, hback _ hself⟩
    rw [inBits_iff, if_neg hsigned]
    exact ⟨hnn, hcast⟩

/-- The widths `compile` lets into a bit run. -/
def WidthsOk (items : List BitItem) : Prop := ∀ item ∈ items, 0 < item.width ∧ item.width ≤ 64

/-- The count of a run that is not too long goes on from one item to the next. -/
lemma next_off {item : BitItem} {items : List BitItem} {off : Nat} (hwidths : WidthsOk (item :: items))
    (h : off + bitWidth (item :: items) ≤ u32Size) : wrapAddU32 off item.width = off + item.width ∨ items = [] := by
  rw [bitWidth_cons] at h
  cases items with
  | nil => exact .inr rfl
  | cons next items =>
    have hpos := (hwidths next (by simp)).1
    rw [bitWidth_cons] at h
    exact .inl (wrapAddU32_of_lt (by omega))

lemma layout_cons {item : BitItem} {items : List BitItem} {off : Nat} (hwidths : WidthsOk (item :: items))
    (h : off + bitWidth (item :: items) ≤ u32Size) (v : Int) (vs : List Int) :
    layout off (item :: items) (v :: vs) = ⟨off, item, v⟩ :: layout (off + item.width) items vs := by
  rw [layout]
  rcases next_off hwidths h with hnext | rfl
  · rw [hnext]
  · rw [layout, layout]
    · exact fun _ _ _ _ h _ => by cases h
    · exact fun _ _ _ _ h _ => by cases h

lemma readRun_cons {item : BitItem} {items : List BitItem} {off : Nat} (hwidths : WidthsOk (item :: items))
    (h : off + bitWidth (item :: items) ≤ u32Size) (buf : Bytes) (base : Nat) :
    readRun buf base (item :: items) off =
      (do
        let v ← readBits buf base off item
        .ok (v :: (← readRun buf base items (off + item.width)))) := by
  rw [readRun]
  rcases next_off hwidths h with hnext | rfl
  · rw [hnext]
  · rfl

lemma layout_bounds {f : BitField} {off : Nat} {items : List BitItem} {vs : List Int} (hwidths : WidthsOk items)
    (hcount : off + bitWidth items ≤ u32Size) (hf : f ∈ layout off items vs) :
    off ≤ f.off ∧ f.off + f.item.width ≤ off + bitWidth items := by
  induction items generalizing off vs with
  | nil => cases hf
  | cons item items ih =>
    cases vs with
    | nil => cases hf
    | cons v vs =>
      rw [layout_cons hwidths hcount] at hf
      rw [bitWidth_cons] at hcount ⊢
      rcases List.mem_cons.mp hf with hhead | htail
      · rw [hhead]
        exact ⟨le_rfl, by simp only []; omega⟩
      · have hbounds := ih (fun g hg => hwidths g (List.mem_cons_of_mem item hg)) (by omega) htail
        omega

/-- Every bit belongs to exactly one field. -/
lemma layout_covers {off : Nat} {items : List BitItem} {vs : List Int} (hwidths : WidthsOk items)
    (hcount : off + bitWidth items ≤ u32Size) (hlen : vs.length = items.length) {i : Nat} (hlo : off ≤ i)
    (hhi : i < off + bitWidth items) : ∃! f, f ∈ layout off items vs ∧ f.Covers i := by
  induction items generalizing off vs with
  | nil =>
    have hzero : bitWidth [] = 0 := rfl
    omega
  | cons item items ih =>
    cases vs with
    | nil => cases hlen
    | cons v vs =>
      have hrest : WidthsOk items := fun g hg => hwidths g (List.mem_cons_of_mem item hg)
      rw [layout_cons hwidths hcount]
      rw [bitWidth_cons] at hhi hcount
      by_cases hin : i < off + item.width
      · refine ⟨⟨off, item, v⟩, ⟨List.mem_cons_self, hlo, hin⟩, ?_⟩
        rintro g ⟨hg, hcovers⟩
        rcases List.mem_cons.mp hg with hhead | htail
        · exact hhead
        · have hbounds := layout_bounds hrest (by omega) htail
          unfold BitField.Covers at hcovers
          omega
      · obtain ⟨f, ⟨hf, hcovers⟩, huniq⟩ := ih hrest (show off + item.width + bitWidth items ≤ u32Size by omega)
          (Nat.succ.inj hlen) (by omega) (by omega)
        refine ⟨f, ⟨List.mem_cons_of_mem _ hf, hcovers⟩, ?_⟩
        rintro g ⟨hg, hgcovers⟩
        rcases List.mem_cons.mp hg with hhead | htail
        · rw [hhead] at hgcovers
          unfold BitField.Covers at hgcovers
          simp only [] at hgcovers
          omega
        · exact huniq g ⟨htail, hgcovers⟩

lemma bit_of_not_covers {f : BitField} {i : Nat} (h : ¬f.Covers i) : f.bit i = false := by
  rw [BitField.bit, decide_eq_false h, Bool.false_and]

/-- A bit of a run is the bit of the field it belongs to. -/
lemma any_bit_eq {off : Nat} {items : List BitItem} {vs : List Int} (hwidths : WidthsOk items)
    (hcount : off + bitWidth items ≤ u32Size) (hlen : vs.length = items.length) {f : BitField}
    (hf : f ∈ layout off items vs) {i : Nat} (hcovers : f.Covers i) :
    (layout off items vs).any (·.bit i) = f.bit i := by
  have hbounds := layout_bounds hwidths hcount hf
  obtain ⟨g, -, huniq⟩ := layout_covers hwidths hcount hlen (Nat.le_trans hbounds.1 hcovers.1)
    (Nat.lt_of_lt_of_le hcovers.2 hbounds.2)
  rw [Bool.eq_iff_iff, List.any_eq_true]
  constructor
  · rintro ⟨h, hmem, hbit⟩
    have hcov : h.Covers i := by
      by_contra hnot
      rw [bit_of_not_covers hnot] at hbit
      cases hbit
    rw [huniq f ⟨hf, hcovers⟩, ← huniq h ⟨hmem, hcov⟩]
    exact hbit
  · intro hbit
    exact ⟨f, hf, hbit⟩

section Frame

variable (before after : Bytes)

lemma write_eq {f : BitField} (h : InBits f.value f.item) (base : Nat) (out : Bytes) :
    f.write base out = orBits base f.word f.item.width f.off out := by
  rw [BitField.write, PCtx.writeSlot, show checkBitsRange _ _ _ = _ from h, Exec.bind_ok]
  rfl

lemma writeFields_sets (fs : List BitField) (hin : ∀ f ∈ fs, InBits f.value f.item) :
    ∀ run : Bytes, (∀ f ∈ fs, f.off + f.item.width ≤ 8 * run.length ∧ f.off + f.item.width ≤ u32Size) →
      ∃ run', writeFields before.length fs (before ++ run ++ after) = .ok (before ++ run' ++ after) ∧
        Sets run run' fun j => fs.any (·.bit j) := by
  induction fs with
  | nil =>
    intro run _
    exact ⟨run, rfl, Sets.refl run⟩
  | cons f fs ih =>
    intro run h
    obtain ⟨hfit, hcount⟩ := h f List.mem_cons_self
    obtain ⟨run₁, hone, hset₁⟩ := orBits_sets before after f.word f.item.width hfit hcount
    obtain ⟨run₂, hrest, hset₂⟩ := ih (fun g hg => hin g (List.mem_cons_of_mem f hg)) run₁ (fun g hg => by
      rw [hset₁.length]
      exact h g (List.mem_cons_of_mem f hg))
    refine ⟨run₂, ?_, hset₁.trans hset₂⟩
    rw [writeFields, write_eq (hin f List.mem_cons_self), hone]
    exact hrest

lemma readBits_eq {run : Bytes} {off : Nat} (item : BitItem) (h : off + item.width ≤ 8 * run.length)
    (hcount : off + item.width ≤ u32Size) :
    ∃ u, readBits (before ++ run ++ after) before.length off item = .ok (signBits item.width item.signed u) ∧
      u < 2 ^ item.width ∧ ∀ k < item.width, u.testBit k = bitAt run (off + item.width - 1 - k) := by
  obtain ⟨hhigh, hlow⟩ := bitsAt_spec run item.width off 0
  refine ⟨_, ?_, ?_, hlow⟩
  · rw [readBits, readBitsFrom_eq before after h hcount]
    rfl
  · rwa [Nat.div_eq_zero_iff_lt (Nat.two_pow_pos _)] at hhigh

/-- What the fields set is what they read. -/
lemma readRun_of_bits {items : List BitItem} {run : Bytes} (hwidths : WidthsOk items) :
    ∀ (off : Nat) {vs : List Int}, vs.length = items.length → off + bitWidth items ≤ 8 * run.length →
      off + bitWidth items ≤ u32Size → (∀ f ∈ layout off items vs, InBits f.value f.item) →
      (∀ f ∈ layout off items vs, ∀ i, f.Covers i → bitAt run i = f.bit i) →
        readRun (before ++ run ++ after) before.length items off = .ok vs := by
  induction items with
  | nil =>
    intro off vs hlen _ _ _ _
    rw [List.length_eq_zero_iff.mp hlen]
    rfl
  | cons item items ih =>
    intro off vs hlen hfit hcount hin hbits
    cases vs with
    | nil => cases hlen
    | cons v vs =>
      rw [layout_cons hwidths hcount] at hin hbits
      rw [readRun_cons hwidths hcount]
      rw [bitWidth_cons] at hfit hcount
      obtain ⟨hpos, hle⟩ := hwidths item List.mem_cons_self
      obtain ⟨u, hread, hlt, hlow⟩ := readBits_eq before after item
        (show off + item.width ≤ 8 * run.length by omega) (by omega)
      have hword : u = asU64 v % 2 ^ item.width := by
        apply Nat.eq_of_testBit_eq
        intro k
        by_cases hk : k < item.width
        · have hcovers : BitField.Covers ⟨off, item, v⟩ (off + item.width - 1 - k) := by
            unfold BitField.Covers
            simp only []
            omega
          have hplace : off + item.width - 1 - (off + item.width - 1 - k) = k := by omega
          rw [hlow k hk, hbits ⟨off, item, v⟩ List.mem_cons_self _ hcovers, BitField.bit, decide_eq_true hcovers,
            Bool.true_and, hplace]
          rfl
        · have hlarge : 2 ^ item.width ≤ 2 ^ k := Nat.pow_le_pow_right (by decide) (by omega)
          have hlt' : asU64 v % 2 ^ item.width < 2 ^ item.width := Nat.mod_lt _ (Nat.two_pow_pos _)
          rw [Nat.testBit_lt_two_pow (Nat.lt_of_lt_of_le hlt hlarge),
            Nat.testBit_lt_two_pow (Nat.lt_of_lt_of_le hlt' hlarge)]
      have hvalue : signBits item.width item.signed u = v := by
        rw [hword]
        exact signBits_word hpos hle (hin ⟨off, item, v⟩ List.mem_cons_self)
      have hrest := ih (fun g hg => hwidths g (List.mem_cons_of_mem item hg)) (off + item.width)
        (Nat.succ.inj hlen) (by omega) (by omega) (fun g hg => hin g (List.mem_cons_of_mem _ hg))
        (fun g hg => hbits g (List.mem_cons_of_mem _ hg))
      rw [hread, hvalue, Exec.bind_ok, hrest]
      rfl

/-- Every bit pattern can be read, and the values give the bits back. -/
lemma readRun_total {items : List BitItem} {run : Bytes} (hwidths : WidthsOk items) :
    ∀ off, off + bitWidth items ≤ 8 * run.length → off + bitWidth items ≤ u32Size →
      ∃ vs, readRun (before ++ run ++ after) before.length items off = .ok vs ∧ vs.length = items.length ∧
        (∀ f ∈ layout off items vs, InBits f.value f.item) ∧
          ∀ f ∈ layout off items vs, ∀ i, f.Covers i → bitAt run i = f.bit i := by
  induction items with
  | nil =>
    intro off _ _
    exact ⟨[], rfl, rfl, fun f hf => absurd hf List.not_mem_nil, fun f hf => absurd hf List.not_mem_nil⟩
  | cons item items ih =>
    intro off hfit hcount
    have hlayout := layout_cons hwidths hcount
    rw [readRun_cons hwidths hcount]
    rw [bitWidth_cons] at hfit hcount
    obtain ⟨hpos, hle⟩ := hwidths item List.mem_cons_self
    obtain ⟨u, hread, hlt, hlow⟩ := readBits_eq before after item
        (show off + item.width ≤ 8 * run.length by omega) (by omega)
    obtain ⟨vs, hrest, hlen, hin, hbits⟩ := ih (fun g hg => hwidths g (List.mem_cons_of_mem item hg))
      (off + item.width) (by omega) (by omega)
    obtain ⟨hok, hword⟩ := word_signBits hpos hle hlt
    refine ⟨signBits item.width item.signed u :: vs, ?_, by simp [hlen], ?_, ?_⟩
    · rw [hread, Exec.bind_ok, hrest]
      rfl
    · intro f hf
      rw [hlayout] at hf
      rcases List.mem_cons.mp hf with hhead | htail
      · rw [hhead]
        exact hok
      · exact hin f htail
    · intro f hf i hcovers
      rw [hlayout] at hf
      rcases List.mem_cons.mp hf with hhead | htail
      · rw [hhead] at hcovers ⊢
        have hcov := hcovers
        unfold BitField.Covers at hcov
        simp only [] at hcov
        have hk : off + item.width - 1 - i < item.width := by omega
        have hplace : off + item.width - 1 - (off + item.width - 1 - i) = i := by omega
        have hbit := hlow _ hk
        rw [hplace] at hbit
        rw [BitField.bit, decide_eq_true hcovers, Bool.true_and, BitField.word, hword]
        exact hbit.symm
      · exact hbits f htail i hcovers

/-- No bit past those a `u32` counts is read. -/
lemma readRun_congr {run run' : Bytes} (hlong : u32Size ≤ 8 * run.length) (hlong' : u32Size ≤ 8 * run'.length)
    (hsame : ∀ i < u32Size, bitAt run i = bitAt run' i) (items : List BitItem) {off : Nat} (hoff : off < u32Size) :
    readRun (before ++ run ++ after) before.length items off =
      readRun (before ++ run' ++ after) before.length items off := by
  have hbits : ∀ (w i v : Nat), i < u32Size → readBitsFrom (before ++ run ++ after) before.length w i v =
      readBitsFrom (before ++ run' ++ after) before.length w i v := by
    intro w
    induction w with
    | zero => exact fun i v _ => rfl
    | succ w ih =>
      intro i v hi
      rw [readBitsFrom, readBitsFrom, readBit_eq before after (by omega), readBit_eq before after (by omega),
        hsame i hi, Exec.bind_ok, Exec.bind_ok, ih _ _ (wrapAddU32_lt i 1)]
  induction items generalizing off with
  | nil => rfl
  | cons item items ih =>
    rw [readRun, readRun, readBits, readBits, hbits _ _ _ hoff, ih (wrapAddU32_lt off item.width)]

end Frame

/-- Writing and reading a run of `nbytes` bytes between others are inverse to each other. -/
structure Bijective (items : List BitItem) (nbytes : Nat) (before after : Bytes) : Prop where
  /-- In any order of the writes, values are read as they were written, and every bit is that of its field. -/
  written : ∀ vs order, vs.length = items.length → (∀ f ∈ layout 0 items vs, InBits f.value f.item) →
    order.Perm (layout 0 items vs) →
      ∃ run, run.length = nbytes ∧
        writeFields before.length order (before ++ List.replicate nbytes 0 ++ after) = .ok (before ++ run ++ after) ∧
        readRun (before ++ run ++ after) before.length items 0 = .ok vs ∧
        ∀ i < 8 * nbytes, ∃! f, f ∈ layout 0 items vs ∧ f.Covers i ∧ bitAt run i = f.bit i
  /-- What is read from any bytes is written as these bytes. -/
  read : ∀ run, run.length = nbytes →
    ∃ vs, readRun (before ++ run ++ after) before.length items 0 = .ok vs ∧ vs.length = items.length ∧
      (∀ f ∈ layout 0 items vs, InBits f.value f.item) ∧
      ∀ order, order.Perm (layout 0 items vs) →
        writeFields before.length order (before ++ List.replicate nbytes 0 ++ after) = .ok (before ++ run ++ after)

lemma bijective_of_le {items : List BitItem} {nbytes : Nat} (hwidths : WidthsOk items)
    (htotal : bitWidth items = 8 * nbytes) (hcount : bitWidth items ≤ u32Size) (before after : Bytes) :
    Bijective items nbytes before after := by
  have hzeros : (List.replicate nbytes (0 : Byte)).length = nbytes := List.length_replicate
  have hcount : 0 + bitWidth items ≤ u32Size := by omega
  -- What any order of the writes leaves.
  have hwrite : ∀ vs order, (∀ f ∈ layout 0 items vs, InBits f.value f.item) → order.Perm (layout 0 items vs) →
      ∃ run, writeFields before.length order (before ++ List.replicate nbytes 0 ++ after) = .ok (before ++ run ++ after) ∧
        run.length = nbytes ∧ ∀ i, bitAt run i = (layout 0 items vs).any (·.bit i) := by
    intro vs order hin horder
    have hin : ∀ f ∈ order, InBits f.value f.item := fun f hf => hin f (horder.mem_iff.mp hf)
    obtain ⟨run, hrun, hsets⟩ := writeFields_sets before after order hin (List.replicate nbytes 0) (by
      intro f hf
      have hbounds := layout_bounds hwidths hcount (horder.mem_iff.mp hf)
      rw [hzeros]
      omega)
    refine ⟨run, hrun, hsets.length.trans hzeros, ?_⟩
    intro i
    rw [hsets.bits, bitAt_replicate_zero, Bool.false_or, horder.any_eq]
  constructor
  · intro vs order hlen hin horder
    obtain ⟨run, hrun, hnbytes, hbits⟩ := hwrite vs order hin horder
    have hown : ∀ f ∈ layout 0 items vs, ∀ i, f.Covers i → bitAt run i = f.bit i := by
      intro f hf i hcovers
      rw [hbits, any_bit_eq hwidths hcount hlen hf hcovers]
    refine ⟨run, hnbytes, hrun, readRun_of_bits before after hwidths 0 hlen (by omega) hcount hin hown, ?_⟩
    intro i hi
    obtain ⟨f, ⟨hf, hcovers⟩, huniq⟩ := layout_covers hwidths hcount hlen (Nat.zero_le i) (by omega)
    exact ⟨f, ⟨hf, hcovers, hown f hf i hcovers⟩, fun g hg => huniq g ⟨hg.1, hg.2.1⟩⟩
  · intro run hnbytes
    obtain ⟨vs, hread, hlen, hin, hbits⟩ := readRun_total before after hwidths 0
      (show 0 + bitWidth items ≤ 8 * run.length by omega) hcount
    refine ⟨vs, hread, hlen, hin, ?_⟩
    intro order horder
    obtain ⟨run', hrun, hnbytes', hbits'⟩ := hwrite vs order hin horder
    have hsame : run' = run := by
      apply ext_bitAt (hnbytes'.trans hnbytes.symm)
      intro i hi
      obtain ⟨f, ⟨hf, hcovers⟩, -⟩ := layout_covers hwidths hcount hlen (Nat.zero_le i) (by omega)
      rw [hbits', any_bit_eq hwidths hcount hlen hf hcovers, hbits f hf i hcovers]
    rw [hrun, hsame]

/-- Bytes of zeros and such with their last bit set are read alike where a `u32` does not count up to it. -/
lemma not_bijective {items : List BitItem} {nbytes : Nat} (htotal : bitWidth items = 8 * nbytes)
    (hcount : u32Size < bitWidth items) (before after : Bytes) : ¬Bijective items nbytes before after := by
  intro h
  have hsize : u32Size = 8 * 2 ^ 29 := rfl
  obtain ⟨n, rfl⟩ : ∃ n, nbytes = n + 1 := ⟨nbytes - 1, by omega⟩
  have hzero : (List.replicate n (0 : Byte) ++ [0]).length = n + 1 := by simp
  have hone : (List.replicate n (0 : Byte) ++ [1]).length = n + 1 := by simp
  have hsame : ∀ i < u32Size, bitAt (List.replicate n (0 : Byte) ++ [0]) i = bitAt (List.replicate n 0 ++ [1]) i := by
    intro i hi
    rw [bitAt_append, bitAt_append, List.length_replicate, if_pos (by omega), if_pos (by omega)]
  have hreads := readRun_congr before after (by omega) (by omega) hsame items (show 0 < u32Size by decide)
  obtain ⟨vs, hread, -, -, hback⟩ := h.read _ hzero
  obtain ⟨vs', hread', -, -, hback'⟩ := h.read _ hone
  rw [hreads, hread'] at hread
  cases hread
  have hrun := (hback _ (List.Perm.refl _)).symm.trans (hback' _ (List.Perm.refl _))
  simp at hrun

/-- Writing and reading a bit run are inverse to each other, in any order of the writes, exactly when its bits are no
more than a `u32` counts. -/
theorem bitRun_bijective_iff {items : List BitItem} {nbytes : Nat} (hwidths : WidthsOk items)
    (htotal : bitWidth items = 8 * nbytes) (before after : Bytes) :
    Bijective items nbytes before after ↔ bitWidth items ≤ u32Size := by
  constructor
  · intro h
    by_contra hlong
    exact not_bijective htotal (by omega) before after h
  · intro hcount
    exact bijective_of_le hwidths htotal hcount before after

/-- A signed field across a byte boundary, the fields written last to first. -/
theorem bitRun_straddling :
    ∃ run, run.length = 2 ∧
      writeFields 0 [⟨12, ⟨4, false, none, false, .named "c"⟩, 9⟩, ⟨3, ⟨9, true, none, false, .named "b"⟩, -100⟩,
        ⟨0, ⟨3, false, none, false, .named "a"⟩, 5⟩] [0, 0] = .ok run ∧
      readRun run 0 [⟨3, false, none, false, .named "a"⟩, ⟨9, true, none, false, .named "b"⟩,
        ⟨4, false, none, false, .named "c"⟩] 0 = .ok [5, -100, 9] := by
  have hwidths : WidthsOk [⟨3, false, none, false, .named "a"⟩, ⟨9, true, none, false, .named "b"⟩,
      ⟨4, false, none, false, .named "c"⟩] := by
    unfold WidthsOk
    decide
  have hbijective := (bitRun_bijective_iff hwidths (show _ = 8 * 2 by decide) [] []).mpr (by decide)
  obtain ⟨run, hlen, hrun, hread, -⟩ := hbijective.written [5, -100, 9] (layout 0 _ [5, -100, 9]).reverse rfl
    (by unfold InBits; decide) (List.reverse_perm _)
  simp only [List.append_nil, List.nil_append] at hrun hread
  exact ⟨run, hlen, hrun, hread⟩

/-- One field of 64 bits more than a `u32` counts: the bits of the last one are those of the first. -/
def longRun : List BitItem := List.replicate (2 ^ 26 + 1) ⟨64, false, none, false, .skip⟩

theorem longRun_not_bijective : ¬Bijective longRun (2 ^ 29 + 8) [] [] := by
  have htotal : bitWidth longRun = 8 * (2 ^ 29 + 8) := by
    rw [longRun, bitWidth, List.map_replicate, List.sum_replicate]
    rfl
  exact not_bijective htotal (by rw [htotal]; decide) [] []

end Rustruct

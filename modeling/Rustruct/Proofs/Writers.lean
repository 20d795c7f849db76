import Rustruct.Proofs.Integers
import Rustruct.Visits

/-!
# What pack writes where

Only `grow`, `extend` and the terminator of a text make the output longer; everything else
writes in place.
-/

namespace Rustruct

section Bytes

variable {out out' b : Bytes}

lemma copyAt_eq_ok {pos : Nat} (h : copyAt out pos b = .ok out') :
    pos + b.length ≤ out.length ∧ out' = out.take pos ++ b ++ out.drop (pos + b.length) := by
  unfold copyAt at h
  split_ifs at h with hle
  · exact ⟨hle, (Except.ok.inj h).symm⟩
  · simp at h

lemma copyAt_length {pos : Nat} (h : copyAt out pos b = .ok out') : out'.length = out.length := by
  obtain ⟨hle, rfl⟩ := copyAt_eq_ok h
  simp only [List.length_append, List.length_take, List.length_drop]
  omega

lemma writeIntAt_eq_ok {pos : Nat} {prim : IntPrim} {be : Bool} {v : Int}
    (h : writeIntAt out pos prim be v = .ok out') :
    (prim.min ≤ v ∧ v ≤ prim.max) ∧ copyAt out pos (intBytes prim be v) = .ok out' := by
  unfold writeIntAt at h
  split_ifs at h with hr
  · simp [refuse] at h
  · exact ⟨by omega, h⟩

lemma orBit_length {base i : Nat} {bit : Bool} (h : orBit out base i bit = .ok out') :
    out'.length = out.length := by
  unfold orBit at h
  split_ifs at h
  · split at h
    · cases h
      exact List.length_set
    · simp at h
  · cases h
    rfl

lemma orBits_length {base v n i : Nat} (h : orBits base v n i out = .ok out') :
    out'.length = out.length := by
  induction n generalizing i out with
  | zero =>
    cases h
    rfl
  | succ n ih =>
    obtain ⟨mid, hm, h⟩ := Exec.bind_eq_ok.mp h
    rw [ih h, orBit_length hm]

lemma resize_length {n : Nat} (h : resize out n = .ok out') : out'.length = n ∧ n ≤ isizeMax := by
  unfold resize at h
  split_ifs at h with hn
  · simp at h
  · cases h
    simp only [List.length_append, List.length_take, List.length_replicate]
    omega

lemma extend_length (h : extend out b = .ok out') :
    out'.length = out.length + b.length ∧ out'.length ≤ isizeMax := by
  unfold extend at h
  split_ifs at h with hn
  · simp at h
  · cases h
    refine ⟨List.length_append, ?_⟩
    rw [List.length_append]
    exact Nat.le_of_not_lt hn

end Bytes

section Context

variable {ctx next : PCtx}

lemma updateTop_out {f : PFrame → PRes PFrame} (h : ctx.updateTop f = .ok next) : next.out = ctx.out := by
  unfold PCtx.updateTop at h
  split at h
  · obtain ⟨g, -, h⟩ := Exec.bind_eq_ok.mp h
    cases h
    rfl
  · simp at h

lemma setReg_out {idx : Option Nat} {v : Int} (h : ctx.setReg idx v = .ok next) : next.out = ctx.out := by
  unfold PCtx.setReg at h
  split at h
  · cases h
    rfl
  · exact updateTop_out h

lemma setSpan_out {idx : Option Nat} {start stop : Nat} (h : ctx.setSpan idx start stop = .ok next) :
    next.out = ctx.out := by
  unfold PCtx.setSpan at h
  split at h
  · cases h
    rfl
  · exact updateTop_out h

lemma reserve_out {idx : Option Nat} {slot : Slot} (h : ctx.reserve idx slot = .ok next) :
    next.out = ctx.out := by
  obtain ⟨i, -, h⟩ := Exec.bind_eq_ok.mp h
  exact updateTop_out h

lemma writeSlot_length {out out' : Bytes} {slot : Slot} {x : Int}
    (h : PCtx.writeSlot out slot x = .ok out') : out'.length = out.length := by
  cases slot with
  | int pos prim be => exact copyAt_length (writeIntAt_eq_ok h).2
  | bits base bitOff width signed =>
    obtain ⟨_, -, h⟩ := Exec.bind_eq_ok.mp h
    exact orBits_length h

lemma applyInv_length {inv : Inv} {actual : Int} (h : ctx.applyInv inv actual = .ok next) :
    next.out.length = ctx.out.length := by
  obtain ⟨x, -, h⟩ := Exec.bind_eq_ok.mp h
  split at h
  · simp at h
  · split_ifs at h
    · simp only at h
      split at h
      · split_ifs at h
        · cases h
          rfl
        · simp [refuse] at h
      · split_ifs at h
        · simp [refuse] at h
        · cases h
          rfl
      · obtain ⟨out, ho, h⟩ := Exec.bind_eq_ok.mp h
        cases h
        exact writeSlot_length ho
    · simp at h

lemma finishLen_length {len : LenSrc} {actual : Nat} (h : ctx.finishLen len actual = .ok next) :
    next.out.length = ctx.out.length := by
  unfold PCtx.finishLen at h
  split at h
  · cases h
    rfl
  · split at h
    · exact applyInv_length h
    · simp [refuse] at h
  · obtain ⟨n, -, h⟩ := Exec.bind_eq_ok.mp h
    split_ifs at h
    · simp [refuse] at h
    · cases h
      rfl

/-- A constant length is that of what was written. -/
lemma finishLen_const {expr : Expr} {n : Int} {actual : Nat} (hc : expr.asConst = some n)
    (h : ctx.finishLen (.expr expr none) actual = .ok next) : (actual : Int) = n := by
  simp only [PCtx.finishLen, hc, Exec.expect_some, Exec.bind_ok] at h
  split_ifs at h with hne
  · simp [refuse] at h
  · exact not_not.mp hne

lemma packInt_length {pos : Nat} {prim : IntPrim} {be : Bool} {expected : Option Int} {derived : Bool}
    {item : FixedItem} {v : Option Value}
    (h : packInt pos prim be expected derived item v ctx = .ok next) :
    next.out.length = ctx.out.length := by
  unfold packInt at h
  split at h
  · obtain ⟨out, ho, h⟩ := Exec.bind_eq_ok.mp h
    rw [setReg_out h]
    exact copyAt_length (writeIntAt_eq_ok ho).2
  · split_ifs at h
    · rw [reserve_out h]
    · obtain ⟨val, -, h⟩ := Exec.bind_eq_ok.mp h
      obtain ⟨out, ho, h⟩ := Exec.bind_eq_ok.mp h
      rw [setReg_out h]
      exact copyAt_length (writeIntAt_eq_ok ho).2

lemma packRaw_length {pos len : Nat} {expected : Option Bytes} {item : FixedItem} {v : Option Value}
    {out out' : Bytes} (h : packRaw pos len expected item v out = .ok out') :
    out'.length = out.length := by
  unfold packRaw at h
  split at h
  · split_ifs at h
    · simp at h
    · exact copyAt_length h
  · split at h
    · split at h
      · simp [refuse] at h
      · split_ifs at h
        · simp [refuse] at h
        · exact copyAt_length h
    · split_ifs at h
      · simp [refuse] at h
      · cases h
        rfl

lemma packFixedItem_length {base : Nat} {item : FixedItem} {v : Option Value}
    (h : packFixedItem base item v ctx = .ok next) : next.out.length = ctx.out.length := by
  unfold packFixedItem at h
  simp only at h
  split at h
  · obtain ⟨mid, hm, h⟩ := Exec.bind_eq_ok.mp h
    rw [setSpan_out h, packInt_length hm]
  · obtain ⟨f, -, h⟩ := Exec.bind_eq_ok.mp h
    obtain ⟨out, ho, h⟩ := Exec.bind_eq_ok.mp h
    rw [setSpan_out h]
    exact copyAt_length ho
  · obtain ⟨f, -, h⟩ := Exec.bind_eq_ok.mp h
    obtain ⟨out, ho, h⟩ := Exec.bind_eq_ok.mp h
    rw [setSpan_out h]
    exact copyAt_length ho
  · obtain ⟨val, -, h⟩ := Exec.bind_eq_ok.mp h
    obtain ⟨out, ho, h⟩ := Exec.bind_eq_ok.mp h
    rw [setSpan_out h]
    exact copyAt_length ho
  · obtain ⟨out, ho, h⟩ := Exec.bind_eq_ok.mp h
    rw [setSpan_out h]
    exact packRaw_length ho

lemma packFixedItems_length {base : Nat} {view : FieldIndex} {items : List FixedItem}
    (h : packFixedItems base view items ctx = .ok next) : next.out.length = ctx.out.length := by
  induction items generalizing ctx with
  | nil =>
    cases h
    rfl
  | cons item items ih =>
    rw [packFixedItems_cons] at h
    obtain ⟨mid, hm, h⟩ := Exec.bind_eq_ok.mp h
    rw [ih h, packFixedItem_length (Exec.mapErr_eq_ok.mp hm)]

lemma packBitItem_length {base bitOff : Nat} {item : BitItem} {v : Option Value}
    (h : packBitItem base bitOff item v ctx = .ok next) : next.out.length = ctx.out.length := by
  unfold packBitItem at h
  split_ifs at h
  · rw [reserve_out h]
  · obtain ⟨val, -, h⟩ := Exec.bind_eq_ok.mp h
    obtain ⟨_, -, h⟩ := Exec.bind_eq_ok.mp h
    obtain ⟨out, ho, h⟩ := Exec.bind_eq_ok.mp h
    rw [setReg_out h]
    exact orBits_length ho

lemma packBitItems_length {base bitOff : Nat} {view : FieldIndex} {items : List BitItem}
    (h : packBitItems base view items bitOff ctx = .ok next) : next.out.length = ctx.out.length := by
  induction items generalizing bitOff ctx with
  | nil =>
    cases h
    rfl
  | cons item items ih =>
    rw [packBitItems_cons] at h
    obtain ⟨mid, hm, h⟩ := Exec.bind_eq_ok.mp h
    rw [ih h, packBitItem_length (Exec.mapErr_eq_ok.mp hm)]

/-- A field is packed by what its entry is. -/
lemma packField_ok {c : Common} {sem : PSem} {view : FieldIndex} (h : packField c sem view ctx = .ok next) :
    ∃ v mid, lookup view c.key = some v ∧ sem v ctx = .ok mid ∧
      mid.setSpan c.span ctx.out.length mid.out.length = .ok next := by
  obtain ⟨name, hname, h⟩ := Exec.bind_eq_ok.mp h
  rw [viewGet_value, Exec.bind_ok] at h
  have hlook : lookup view c.key = view.get name := by rw [lookup, Exec.expect_eq_ok.mp hname, Option.bind_some]
  split at h
  · simp at h
  · rename_i v hv
    obtain ⟨mid, hm, h⟩ := Exec.bind_eq_ok.mp h
    exact ⟨v, mid, hlook.trans hv, Exec.mapErr_eq_ok.mp hm, h⟩

/-- The output of `grow`, where the sum of the lengths does not wrap. -/
lemma grow_length {n : Nat} (hfit : ctx.out.length + n < usizeSize) (h : ctx.grow n = .ok next) :
    next.out.length = ctx.out.length + n ∧ next.out.length ≤ isizeMax := by
  obtain ⟨out, ho, h⟩ := Exec.bind_eq_ok.mp h
  cases h
  rw [show wrapAdd ctx.out.length n = ctx.out.length + n from Nat.mod_eq_of_lt hfit] at ho
  obtain ⟨hlen, hle⟩ := resize_length ho
  exact ⟨hlen, hlen ▸ hle⟩

end Context

section Digests

variable {H : Hashes}

lemma write_length {d : PDigest} {v : DigestVal} {out out' : Bytes} (h : d.write v out = .ok out') :
    out'.length = out.length := by
  unfold PDigest.write at h
  split at h
  · exact copyAt_length h
  · split_ifs at h
    · simp at h
    · exact copyAt_length h

lemma fillDigests_length {start stop : Nat} {f : PFrame} {ds : List PDigest} {out out' : Bytes}
    (h : fillDigests H start stop f ds out = .ok out') : out'.length = out.length := by
  induction ds generalizing out with
  | nil =>
    cases h
    rfl
  | cons d ds ih =>
    simp only [fillDigests, Exec.bind_eq_ok] at h
    obtain ⟨v, -, mid, hm, h⟩ := h
    rw [ih h, write_length hm]

end Digests

section Ops

variable (H : Hashes)

lemma packOp_of_isValue {op : Op} (h : op.isValue) :
    ∃ c, op.common = some c ∧ packOp H op = packField c (packValue H op) := by
  cases op with
  | fixed | bitRun | digest | cond => cases h
  | _ => exact ⟨_, rfl, by rw [packOp, packValue]⟩

lemma packPick_eq (cases : List (Int × Op)) (default : Option Op) (tag : Int) :
    (packCase H cases tag).or (packDefault H default) =
      (pickCase cases default tag).map (packValue H) := by
  have hd : packDefault H default = default.map (packValue H) := by
    cases default <;> simp [packDefault]
  have hf : packCase H cases tag =
      ((cases.find? fun branch => branch.1 = tag).map Prod.snd).map (packValue H) := by
    induction cases with
    | nil => simp [packCase]
    | cons branch cases ih =>
      obtain ⟨t, op⟩ := branch
      rw [packCase, List.find?_cons]
      by_cases ht : t = tag
      · simp [ht]
      · simp [ht, ih]
  rw [hd, hf, pickCase, Option.map_or]

lemma packValue_switch (on : Expr) (cases : List (Int × Op)) (default : Option Op) (c : Common) :
    packValue H (.switch on cases default c) =
      packSwitch on (fun tag => (pickCase cases default tag).map (packValue H)) := by
  rw [packValue]
  simp only [packPick_eq]

end Ops

section Small

variable {H : Hashes} {ctx next : PCtx}

/-- `sem` does not grow the output past the largest vector. -/
def PSmall (sem : PSem) : Prop :=
  ∀ v ctx next, ctx.out.length ≤ isizeMax → sem v ctx = .ok next → next.out.length ≤ isizeMax

def PSmallField (body : FieldIndex → PCtx → PRes PCtx) : Prop :=
  ∀ view ctx next, ctx.out.length ≤ isizeMax → body view ctx = .ok next → next.out.length ≤ isizeMax

lemma grow_small {n : Nat} (h : ctx.grow n = .ok next) : next.out.length ≤ isizeMax := by
  obtain ⟨out, ho, h⟩ := Exec.bind_eq_ok.mp h
  cases h
  obtain ⟨hlen, hle⟩ := resize_length ho
  exact hlen ▸ hle

lemma packField_small {sem : PSem} (hs : PSmall sem) (c : Common) : PSmallField (packField c sem) := by
  intro view ctx next hlen h
  obtain ⟨v, mid, -, hm, h⟩ := packField_ok h
  rw [setSpan_out h]
  exact hs v ctx mid hlen hm

lemma smallField_of_value {op : Op} (hv : op.isValue) (h : PSmall (packValue H op)) : PSmallField (packOp H op) := by
  obtain ⟨c, -, hrun⟩ := packOp_of_isValue H hv
  rw [hrun]
  exact packField_small h c

lemma packChunk_small {len : LenSrc} {max : Nat} {b : Bytes} (h : packChunk len max b ctx = .ok next) :
    next.out.length ≤ isizeMax := by
  unfold packChunk at h
  split_ifs at h
  · simp [refuse] at h
  · obtain ⟨out, ho, h⟩ := Exec.bind_eq_ok.mp h
    rw [finishLen_length h]
    exact (extend_length ho).2

lemma packFlags_small (prim : IntPrim) (be : Bool) (items : List FlagItem) (rest : RestPolicy) (restMask : U64) :
    PSmall (packFlags prim be items rest restMask) := by
  intro v ctx next _ h
  rw [packFlags] at h
  split at h
  · simp [refuse] at h
  · split_ifs at h
    · simp only [Exec.bind_eq_ok] at h
      obtain ⟨raw, -, restBits, -, mid, hm, out, ho, h⟩ := h
      cases h
      exact (copyAt_length ho).trans_le (grow_small hm)
    · simp [refuse] at h

lemma packNest_small {sem : PSem} (hs : PSmall sem) (size : Option LenSrc) : PSmall (packNest sem size) := by
  intro v ctx next hlen h
  obtain ⟨mid, hm, h⟩ := Exec.bind_eq_ok.mp h
  have hmid := hs v ctx mid hlen hm
  cases size with
  | none =>
    cases h
    exact hmid
  | some len =>
    obtain ⟨sz, -, h⟩ := Exec.bind_eq_ok.mp h
    rwa [finishLen_length h]

lemma packElems_small {sem : PSem} (hs : PSmall sem) {l : List Value} {i : Nat} (hlen : ctx.out.length ≤ isizeMax)
    (h : packElems sem l i ctx = .ok next) : next.out.length ≤ isizeMax := by
  induction l generalizing i ctx with
  | nil =>
    cases h
    exact hlen
  | cons v l ih =>
    obtain ⟨mid, hm, h⟩ := Exec.bind_eq_ok.mp h
    exact ih (hs v ctx mid hlen (Exec.mapErr_eq_ok.mp hm)) h

lemma packArray_small {sem : PSem} (hs : PSmall sem) (count : CountSrc) : PSmall (packArray count sem) := by
  intro v ctx next hlen h
  rw [packArray] at h
  split at h
  · simp [refuse] at h
  · obtain ⟨mid, hm, h⟩ := Exec.bind_eq_ok.mp h
    have hmid := packElems_small hs hlen hm
    cases count with
    | untilEof =>
      cases h
      exact hmid
    | expr expr inv => rwa [finishLen_length h]

lemma withPFrame_small {body : FieldIndex → PCtx → PRes PCtx} (hs : PSmallField body) : PSmall (withPFrame H body) := by
  intro v ctx next hlen h
  unfold withPFrame at h
  split at h
  · simp [refuse] at h
  · obtain ⟨mid, hm, h⟩ := Exec.bind_eq_ok.mp h
    have hmid := hs _ { ctx with frames := .new :: ctx.frames } mid hlen hm
    split at h
    · simp at h
    · obtain ⟨out, ho, h⟩ := Exec.bind_eq_ok.mp h
      cases h
      exact (fillDigests_length ho).trans_le hmid

/-- No op grows the output past the largest vector. -/
lemma small_cases : OpCases (fun op => PSmall (packValue H op) ∧ PSmallField (packOp H op))
    (fun prog => PSmall (packStruct H prog)) where
  fixed width items := by
    constructor
    · intro v ctx next _ h
      simp only [packValue, packFixed1, Exec.bind_eq_ok] at h
      obtain ⟨mid, hm, item, -, h⟩ := h
      rw [packFixedItem_length h]
      exact grow_small hm
    · intro view ctx next _ h
      simp only [packOp, packFixedRun, Exec.bind_eq_ok] at h
      obtain ⟨mid, hm, h⟩ := h
      rw [packFixedItems_length h]
      exact grow_small hm
  bytes len max c := by
    have h : PSmall (packValue H (.bytes len max c)) := by
      intro v ctx next _ h
      rw [packValue, packBytes] at h
      split at h
      · simp [refuse] at h
      · exact packChunk_small h
    exact ⟨h, smallField_of_value rfl h⟩
  str len max enc c := by
    have h : PSmall (packValue H (.str len max enc c)) := by
      intro v ctx next _ h
      rw [packValue, packStr] at h
      obtain ⟨b, -, h⟩ := Exec.bind_eq_ok.mp h
      exact packChunk_small h
    exact ⟨h, smallField_of_value rfl h⟩
  cstr max enc c := by
    have h : PSmall (packValue H (.cstr max enc c)) := by
      intro v ctx next _ h
      rw [packValue, packCstr] at h
      obtain ⟨b, -, h⟩ := Exec.bind_eq_ok.mp h
      split_ifs at h
      · simp [refuse] at h
      · simp [refuse] at h
      · obtain ⟨out, ho, h⟩ := Exec.bind_eq_ok.mp h
        cases h
        exact (extend_length ho).2
    exact ⟨h, smallField_of_value rfl h⟩
  bitRun nbytes items := by
    refine ⟨fun _ _ _ _ h => by simp [packValue] at h, ?_⟩
    intro view ctx next _ h
    simp only [packOp, packBitRun, Exec.bind_eq_ok] at h
    obtain ⟨mid, hm, h⟩ := h
    rw [packBitItems_length h]
    exact grow_small hm
  flags prim be items rest restMask c := by
    have h : PSmall (packValue H (.flags prim be items rest restMask c)) := by
      rw [packValue]
      exact packFlags_small prim be items rest restMask
    exact ⟨h, smallField_of_value rfl h⟩
  digest algo overs verify be c := by
    refine ⟨fun _ _ _ _ h => by simp [packValue] at h, ?_⟩
    intro view ctx next _ h
    simp only [packOp, packDigest, Exec.bind_eq_ok] at h
    obtain ⟨mid, hm, grown, hg, key, -, h⟩ := h
    rw [updateTop_out h, setSpan_out hg]
    exact grow_small hm
  nest prog size c hp := by
    have h : PSmall (packValue H (.nest prog size c)) := by
      rw [packValue]
      exact packNest_small hp size
    exact ⟨h, smallField_of_value rfl h⟩
  array count maxCount elem elemMin c he := by
    have h : PSmall (packValue H (.array count maxCount elem elemMin c)) := by
      rw [packValue]
      exact packArray_small he.1 count
    exact ⟨h, smallField_of_value rfl h⟩
  switch on cases default c hc hd := by
    have h : PSmall (packValue H (.switch on cases default c)) := by
      intro v ctx next hlen h
      rw [packValue_switch] at h
      obtain ⟨tag, -, h⟩ := Exec.bind_eq_ok.mp h
      cases hp : pickCase cases default tag with
      | none => simp [hp, refuse] at h
      | some op =>
        simp only [hp, Option.map_some] at h
        obtain ⟨branch, hm, rfl⟩ | ho := pickCase_mem hp
        · exact (hc branch hm).1 v ctx next hlen h
        · exact (hd op ho).1 v ctx next hlen h
    exact ⟨h, smallField_of_value rfl h⟩
  cond pred thn c ht := by
    refine ⟨fun _ _ _ _ h => by simp [packValue] at h, ?_⟩
    intro view ctx next hlen h
    rw [packOp, packCond] at h
    obtain ⟨p, -, h⟩ := Exec.bind_eq_ok.mp h
    split_ifs at h
    · exact packField_small ht.1 c view ctx next hlen h
    · cases h
      exact hlen
  prog ops nregs nspans minSize staticSize ho := by
    rw [packStruct]
    refine withPFrame_small ?_
    induction ops with
    | nil =>
      intro view ctx next hlen h
      cases h
      exact hlen
    | cons op ops ih =>
      intro view ctx next hlen h
      obtain ⟨mid, hm, h⟩ := Exec.bind_eq_ok.mp h
      exact ih (fun o hm => ho o (by simp [hm])) view mid next ((ho op (by simp)).2 view ctx mid hlen hm) h

lemma PStep.small {s t : PSite} (h : PStep H s t) (hs : s.ctx.out.length ≤ isizeMax) :
    t.ctx.out.length ≤ isizeMax := by
  cases h with
  | next ran => exact (small_cases.op _).2 _ _ _ hs ran
  | another ran => exact (small_cases.op _).1 _ _ _ hs ran
  | _ => exact hs

end Small

end Rustruct

import Rustruct.Proofs.Compound

namespace Rustruct

/-! ### Flags -/

section Flags

variable {view : FieldIndex} {items : List FlagItem} {union : U64}

/-- What one name sets is within its mask. -/
lemma packFlag_within {item : FlagItem} {width : Nat} (h : item.Fine width) {field : Option Value} {x : U64}
    (hp : packFlag field item = .ok x) {i : Nat} (hi : x.getLsbD i = true) : item.mask.getLsbD i = true := by
  unfold packFlag at hp
  dsimp only at hp
  by_cases hbool : item.isBool = true
  · rw [if_pos hbool] at hp
    cases field with
    | none =>
      cases hp
      rw [BitVec.getLsbD_zero] at hi
      cases hi
    | some v =>
      dsimp only at hp
      cases hv : v.truthy with
      | none =>
        rw [hv] at hp
        cases hp
      | some b =>
        rw [hv] at hp
        cases hp
        cases b with
        | true => exact hi
        | false =>
          rw [if_neg Bool.false_ne_true, BitVec.getLsbD_zero] at hi
          cases hi
  · rw [if_neg hbool] at hp
    obtain ⟨val, -, hp⟩ := Exec.bind_eq_ok.mp hp
    have hcount : (List.range 64).countP (fun i => (item.mask >>> item.shift).getLsbD i) = width :=
      h.run.shifted.countOnes
    have hfits := h.run.fits
    rw [hcount] at hp
    split_ifs at hp with hrange
    · cases hp
    cases hp
    rw [BitVec.getLsbD_shiftLeft] at hi
    have hlow : i < 64 ∧ item.shift ≤ i ∧ (BitVec.ofInt 64 val).getLsbD (i - item.shift) = true := by
      simpa [and_assoc] using hi
    obtain ⟨hword, hshift, hbit⟩ := hlow
    rw [h.run.bits, decide_eq_true_eq]
    refine ⟨hshift, ?_⟩
    by_contra hhigh
    have hmax : (1#64 <<< (width % 64) - 1#64).toNat = 2 ^ width - 1 := by
      rw [Nat.mod_eq_of_lt (by omega), toNat_lowOnes (by omega)]
    rw [hmax] at hrange
    obtain ⟨n, rfl⟩ := Int.eq_ofNat_of_zero_le (show 0 ≤ val by omega)
    have hn : n < 2 ^ (i - item.shift) := by
      have hpow : 2 ^ width ≤ 2 ^ (i - item.shift) := Nat.pow_le_pow_right (by decide) (by omega)
      have hpos : 0 < 2 ^ width := Nat.two_pow_pos width
      omega
    rw [BitVec.ofInt_natCast, BitVec.getLsbD_ofNat, Nat.testBit_lt_two_pow hn, Bool.and_false] at hbit
    cases hbit

lemma packFlagItems_within (hfine : ∀ item ∈ items, ∃ width, item.Fine width) {acc r : U64}
    (h : packFlagItems view items acc = .ok r) {i : Nat} (hi : r.getLsbD i = true) :
    acc.getLsbD i = true ∨ named items i = true := by
  induction items generalizing acc with
  | nil =>
    cases h
    exact .inl hi
  | cons item items ih =>
    rw [packFlagItems_cons] at h
    obtain ⟨x, hx, h⟩ := Exec.bind_eq_ok.mp h
    obtain ⟨width, hitem⟩ := hfine item List.mem_cons_self
    have hcons : named (item :: items) i = (item.mask.getLsbD i || named items i) := List.any_cons
    rw [hcons, Bool.or_eq_true]
    rcases ih (fun j hj => hfine j (List.mem_cons_of_mem _ hj)) h with hacc | hnamed
    · rw [BitVec.getLsbD_or, Bool.or_eq_true] at hacc
      rcases hacc with hacc | hx'
      · exact .inl hacc
      · exact .inr (.inl (packFlag_within hitem hx hx'))
    · exact .inr (.inr hnamed)

/-- Bits that no name covers are set by `_rest` only. -/
lemma packRest_zero {rest : RestPolicy} {restMask q : U64} (hrest : rest ≠ .keep)
    (h : packRest view rest restMask = .ok q) :
    q = 0#64 := by
  cases rest with
  | keep => exact absurd rfl hrest
  | strict | ignore =>
    cases h
    rfl

lemma readUint_low (w : Nat) (be : Bool) (v : Nat) : readUint (uintBytes w be v) be = v % 256 ^ w := by
  rw [readUint_eq, uintBytes_eq]
  cases be <;> simp [leValue_leBytes]

/-- The integer that is there sets no other bits. -/
lemma getLsbD_read (w : Nat) (be : Bool) (raw : U64) {i : Nat}
    (hi : (BitVec.ofNat 64 (readUint (uintBytes w be raw.toNat) be)).getLsbD i = true) : raw.getLsbD i = true := by
  have hpow : (256 : Nat) ^ w = 2 ^ (8 * w) := by
    rw [Nat.pow_mul]
  rw [readUint_low, hpow, BitVec.getLsbD_ofNat, Nat.testBit_mod_two_pow] at hi
  simp only [Bool.and_eq_true] at hi
  exact hi.2.2

lemma doFlags_eq {buf : Bytes} {prim : IntPrim} {be : Bool} {rest : RestPolicy} {restMask : U64} {limit : Nat}
    {cur : Cur} (hfit : cur.pos + prim.width ≤ limit) (hl : limit ≤ buf.length)
    (hzero : rest ≠ .keep → BitVec.ofNat 64 (readUint ((buf.drop cur.pos).take prim.width) be) &&& restMask = 0#64) :
    doFlags buf prim be items rest restMask limit cur =
      .ok (.map (flagMap items rest restMask (BitVec.ofNat 64 (readUint ((buf.drop cur.pos).take prim.width) be))),
        { cur with pos := cur.pos + prim.width }) := by
  have hneed : need buf cur.pos limit prim.width = .ok () := need_eq_ok.mpr hfit
  unfold doFlags
  dsimp only
  rw [hneed, Exec.bind_ok, slice_eq (by omega), Exec.bind_ok, setFlags_value, Exec.bind_ok]
  cases rest with
  | keep => rw [mapSet_value, Exec.bind_ok]; rfl
  | strict => simp [flagMap, hzero]
  | ignore => simp [flagMap]

/-- A flags field is an integer, which sets the bits of its names and those of `_rest`. -/
lemma packFlags_spec {prim : IntPrim} {be : Bool} {rest : RestPolicy} {restMask : U64} {v : Value} {ctx next : PCtx}
    (hok : ItemsOk items union) (hsmall : ctx.out.length ≤ isizeMax)
    (h : packFlags prim be items rest restMask v ctx = .ok next) :
    ∃ raw : U64, ctx.out.length + prim.width ≤ isizeMax ∧
      next = { ctx with out := ctx.out ++ uintBytes prim.width be raw.toNat } ∧
      (rest ≠ .keep → ∀ i, raw.getLsbD i = true → named items i = true) := by
  unfold packFlags at h
  cases hv : v.mapView with
  | none =>
    rw [hv] at h
    cases h
  | some view =>
    rw [hv] at h
    dsimp only at h
    split_ifs at h with hkeys
    · obtain ⟨r, hr, h⟩ := Exec.bind_eq_ok.mp h
      obtain ⟨q, hq, h⟩ := Exec.bind_eq_ok.mp h
      have hroom : ctx.out.length + prim.width ≤ isizeMax := by
        obtain ⟨mid, hmid, -⟩ := Exec.bind_eq_ok.mp h
        have hword : isizeMax + prim.width < usizeSize := by cases prim <;> decide
        obtain ⟨hlen, hle⟩ := grow_length (by omega) hmid
        omega
      rw [appendUint hroom] at h
      cases h
      refine ⟨r ||| q, hroom, rfl, fun hrest i hi => ?_⟩
      rw [packRest_zero hrest hq, BitVec.or_zero] at hi
      rcases packFlagItems_within hok.fine hr hi with hzero | hnamed
      · rw [BitVec.getLsbD_zero] at hzero
        cases hzero
      · exact hnamed
    · cases h

/-- Where nothing is left over, it is as if that had been asked for. -/
lemma packFlags_ignore (prim : IntPrim) (be : Bool) (items : List FlagItem) (restMask : U64) :
    packFlags prim be items .ignore restMask = packFlags prim be items .strict restMask := rfl

variable {H : Hashes} {Γ : Env} {suits : Value → Prop}

lemma returns_flags (suits : Value → Prop) {base : IntPrim} {be : Bool} {names : List (String × U64)} {rest : String}
    {c : Common} {op : Op} (h : compileFlags base be names rest c = .ok op) :
    ∃ policy, restPolicies.parse rest = .ok policy ∧
      Returns H Γ (packValue H op)
        (fun buf _ limit bit => readFlat buf base.width (flagsOf base be names policy) limit bit)
        (fun _ _ => ∀ n ∈ names, n.2 ≠ BitVec.allOnes 64) suits := by
  have hflags : ∀ (buf : Bytes) (limit pos : Nat), limit ≤ buf.length → ∃ policy',
    restPolicies.parse rest = .ok policy' ∧
      Reads H [] (opValue H buf op limit { fs := [], pos })
        (readFlat buf base.width (flagsOf base be names policy') limit (8 * pos)) :=
    fun buf limit pos hl => reads_flags hl h
  unfold compileFlags at h
  split_ifs at h
  · cases h
  obtain ⟨⟨items, union⟩, hitems, h⟩ := Exec.bind_eq_ok.mp h
  dsimp only at h
  cases hpolicy : restPolicies.parse rest with
  | error msg =>
    rw [hpolicy] at h
    cases h
  | ok policy =>
    rw [hpolicy] at h
    cases h
    refine ⟨policy, rfl, ?_⟩
    obtain ⟨hok, hmasks⟩ := flagItems_ok hitems .nil
    intro ctx v next hs hpack
    rw [packValue] at hpack ⊢
    obtain ⟨raw, hroom, rfl, hwithin⟩ := packFlags_spec hok hs.small hpack
    have hext : extend ctx.out (uintBytes base.width be raw.toNat) =
        .ok (ctx.out ++ uintBytes base.width be raw.toNat) := by
      rw [extend, uintBytes_length, if_neg (Nat.not_lt.mpr hroom)]
    obtain ⟨-, hwrites⟩ := hs.extend hext
    refine ⟨hwrites, fun buf last seen limit hf hfull _ => ?_⟩
    have hfits := hf.fits
    have hwithin' := hf.within
    have hlen : (ctx.out ++ uintBytes base.width be raw.toNat).length = ctx.out.length + base.width := by
      rw [List.length_append, uintBytes_length]
    dsimp only at hfits
    rw [hlen] at hfits
    have hslice : (buf.drop ctx.out.length).take base.width = uintBytes base.width be raw.toNat := by
      rw [hwrites.slice (n := base.width) hs hf.completes (by dsimp only; omega), List.drop_left,
        List.take_of_length_le (Nat.le_of_eq (uintBytes_length _ _ _))]
    -- Without `_rest` nothing is left over.
    have hzero : policy ≠ .keep →
        BitVec.ofNat 64 (readUint ((buf.drop ctx.out.length).take base.width) be) &&&
          (mask (base.width * 8) &&& ~~~union) = 0#64 := by
      intro hkeep
      ext i hi
      rw [← BitVec.getLsbD_eq_getElem, ← BitVec.getLsbD_eq_getElem, BitVec.getLsbD_and, BitVec.getLsbD_and,
        BitVec.getLsbD_not,
        hok.union, BitVec.getLsbD_zero, hslice]
      cases hbit : (BitVec.ofNat 64 (readUint (uintBytes base.width be raw.toNat) be)).getLsbD i with
      | false => rfl
      | true => rw [hwithin hkeep i (getLsbD_read _ _ _ hbit), Bool.not_true, Bool.and_false, Bool.and_false,
        Bool.and_false]
    have hmasks' : ∀ item ∈ items, item.mask ≠ BitVec.allOnes 64 := by
      intro item hitem
      have hmem := List.mem_map_of_mem (f := FlagItem.mask) hitem
      rw [hmasks, List.map_nil, List.nil_append] at hmem
      obtain ⟨n, hn, hmask⟩ := List.mem_map.mp hmem
      rw [← hmask]
      exact hfull n hn
    have hread : ∀ rest : RestPolicy, (rest ≠ .keep → policy ≠ .keep) →
        doFlags buf base be items rest (mask (base.width * 8) &&& ~~~union) limit { fs := [], pos := ctx.out.length } =
          .ok (.map (flagMap items rest (mask (base.width * 8) &&& ~~~union)
            (BitVec.ofNat 64 (readUint ((buf.drop ctx.out.length).take base.width) be))),
              { fs := [], pos := ctx.out.length + base.width }) :=
      fun rest hrest => doFlags_eq (by dsimp only; omega) hf.within fun hno => hzero (hrest hno)
    have hagain : ∀ rest : RestPolicy, rest ≠ .ignore → (rest ≠ .keep → policy ≠ .keep) →
        packFlags base be items rest (mask (base.width * 8) &&& ~~~union)
          (.map (flagMap items rest (mask (base.width * 8) &&& ~~~union)
          (BitVec.ofNat 64 (readUint ((buf.drop ctx.out.length).take base.width) be)))) ctx =
          .ok { ctx with out := ctx.out ++ uintBytes base.width be raw.toNat } := by
      intro rest hrest hkeep
      have hback := flagsRoundTrip_of_fits hok hrest hmasks' _ _ _ _ _ (hread rest hkeep) ctx hroom
      rw [hslice] at hback ⊢
      exact hback
    obtain ⟨policy', hpolicy', hreads⟩ := hflags buf limit ctx.out.length hf.within
    obtain rfl : policy = policy' := Except.ok.inj (hpolicy.symm.trans hpolicy')
    rw [opValue] at hreads
    obtain ⟨part, hpart, hfacts, his⟩ := hreads.ok _ (hread policy fun hno => hno)
    have hvalue := his.value
    have hbit := his.bit
    have hdigest := his.digest
    obtain ⟨value, bit, digest, facts⟩ := part
    dsimp only at hvalue hbit hdigest
    subst hvalue hbit hdigest
    refine ⟨.map (flagMap items policy (mask (base.width * 8) &&& ~~~union)
      (BitVec.ofNat 64 (readUint ((buf.drop ctx.out.length).take base.width) be))), facts, ?_, hfacts, ?_⟩
    · rw [hlen]
      exact hpart
    · cases policy with
      | keep => exact hagain .keep (by decide) fun hno => hno
      | strict => exact hagain .strict (by decide) fun hno => hno
      | ignore =>
        rw [packFlags_ignore]
        exact hagain .strict (by decide) fun _ => by decide

end Flags

end Rustruct

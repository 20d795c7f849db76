import Rustruct.Unpack

/-!
# Reading the bytes of an op

Once an op has its bytes, reading them neither runs short nor depends on what follows the
buffer: on a longer buffer it returns and reports the same, unless it panics.
-/

namespace Rustruct

variable {α β : Type}

/-- `x` does not ask for more data. -/
def Steady (x : URes α) : Prop := ∀ needed, x ≠ Exec.fail (.incomplete needed)

@[simp] lemma steady_ok (a : α) : Steady (.ok a) := by simp [Steady, Exec.fail]

@[simp] lemma steady_panic : Steady (Exec.panic : URes α) := by simp [Steady, Exec.fail, Exec.panic]

@[simp] lemma steady_invalid (kind : Kind) (offset : Nat) : Steady (invalid kind offset : URes α) := by
  simp [Steady, invalid]

lemma Steady.bind {x : URes α} {f : α → URes β} (hx : Steady x) (hf : ∀ a, Steady (f a)) :
    Steady (x >>= f) := by
  cases x using Exec.cases_on with
  | ok a => exact hf a
  | fail e =>
    intro needed h
    apply hx needed
    simpa using h
  | panic => exact steady_panic

@[simp] lemma seg_ne_incomplete (e : UFail) (seg : Seg) (needed : Nat) :
    e.seg seg = .incomplete needed ↔ e = .incomplete needed := by
  cases e <;> simp

@[simp] lemma pushKey_eq_incomplete (key : Key) (e : UFail) (needed : Nat) :
    pushKey key e = .incomplete needed ↔ e = .incomplete needed := by
  unfold pushKey
  split <;> simp

lemma Steady.mapErr {x : URes α} (hx : Steady x) {f : UFail → UFail}
    (hf : ∀ e needed, f e = .incomplete needed → e = .incomplete needed) :
    Steady (Exec.mapErr f x) := by
  cases x using Exec.cases_on with
  | ok a => exact steady_ok a
  | fail e =>
    intro needed h
    apply hx needed
    simpa using hf e needed (by simpa using h)
  | panic => exact steady_panic

lemma Steady.pushKey {x : URes α} (hx : Steady x) (key : Key) :
    Steady (Exec.mapErr (pushKey key) x) :=
  hx.mapErr fun _ _ h => (pushKey_eq_incomplete key _ _).mp h

/-- `x` does not fail with an error in `E`. -/
def Avoids (E : UFail → Prop) (x : URes α) : Prop := ∀ e, E e → x ≠ Exec.fail e

/-- The readers report none of these errors, and keying an error makes none. -/
structure Foreign (E : UFail → Prop) : Prop where
  invalid : ∀ inv, inv.kind ≠ .depth → ¬ E (.invalid inv)
  seg : ∀ e s, E (e.seg s) → E e

lemma steady_iff {x : URes α} : Steady x ↔ Avoids (fun e => ∃ needed, e = .incomplete needed) x := by
  constructor
  · rintro h e ⟨needed, rfl⟩
    exact h needed
  · intro h needed
    exact h _ ⟨needed, rfl⟩

lemma foreign_incomplete : Foreign fun e => ∃ needed, e = .incomplete needed where
  invalid inv _ := by simp
  seg e s := by
    rintro ⟨needed, h⟩
    exact ⟨needed, (seg_ne_incomplete e s needed).mp h⟩

lemma apply_ne_depth (op : BinOp) (a b : Int) : op.apply a b ≠ Exec.fail .depth := by
  have hover : ∀ v : Option Int, okOrOverflow v ≠ Exec.fail .depth := by
    intro v
    cases v <;> simp [okOrOverflow, Exec.fail]
  cases op with
  | add | sub | mul => exact hover _
  | div =>
    simp only [BinOp.apply]
    split_ifs
    · simp
    · exact hover _
  | shl | shr =>
    simp only [BinOp.apply]
    split_ifs <;> simp [Exec.fail]
  | and | or | xor | eq | ne | lt | le | gt | ge => simp [BinOp.apply, Exec.fail]

lemma pushStack_ne_depth (v : Int) (stack : List Int) : pushStack v stack ≠ Exec.fail .depth := by
  unfold pushStack
  split_ifs <;> simp [Exec.fail, Exec.panic]

lemma getReg_ne_fail (fs : Frames) (r : Reg) (k : Kind) : getReg fs r ≠ Exec.fail k := by
  unfold getReg
  split
  · split_ifs <;> simp [Exec.fail, Exec.panic]
  · simp [Exec.fail, Exec.panic]

lemma bind_ne_fail {x : Exec Kind α} {f : α → Exec Kind β} {k : Kind} (hx : x ≠ Exec.fail k)
    (hf : ∀ a, f a ≠ Exec.fail k) : (x >>= f) ≠ Exec.fail k := by
  cases x using Exec.cases_on with
  | ok a => exact hf a
  | fail e =>
    intro h
    apply hx
    simpa using h
  | panic => simp [Exec.fail, Exec.panic]

/-- Evaluation reports arithmetic errors only. -/
lemma exprEval_ne_depth (fs : Frames) (expr : Expr) : expr.eval (getReg fs) ≠ Exec.fail .depth := by
  have hrun : ∀ ins stack, runIns (getReg fs) ins stack ≠ Exec.fail .depth := by
    intro ins
    induction ins with
    | nil => simp [runIns, Exec.fail]
    | cons i ins ih =>
      intro stack
      refine bind_ne_fail ?_ ih
      cases i with
      | imm n => exact pushStack_ne_depth n stack
      | reg r =>
        simp only [Ins.step]
        split_ifs
        · exact bind_ne_fail (getReg_ne_fail fs r _) fun v => pushStack_ne_depth v stack
        · simp [Exec.fail, Exec.panic]
      | op o =>
        simp only [Ins.step]
        split
        · exact bind_ne_fail (apply_ne_depth o _ _) fun v => pushStack_ne_depth v _
        · simp [Exec.fail, Exec.panic]
  refine bind_ne_fail (hrun expr.ins []) fun stack => ?_
  split <;> simp [Exec.fail, Exec.panic]

section Avoids

variable {E : UFail → Prop} {x : URes α}

@[simp] lemma avoids_ok (a : α) : Avoids E (.ok a) := by simp [Avoids, Exec.fail]

@[simp] lemma avoids_panic : Avoids E (Exec.panic : URes α) := by simp [Avoids, Exec.fail, Exec.panic]

lemma Avoids.bind {f : α → URes β} (hx : Avoids E x) (hf : ∀ a, Avoids E (f a)) : Avoids E (x >>= f) := by
  cases x using Exec.cases_on with
  | ok a => exact hf a
  | fail e =>
    intro e' he h
    apply hx e' he
    simpa using h
  | panic => exact avoids_panic

lemma Avoids.mapErr {f : UFail → UFail} (hx : Avoids E x) (hf : ∀ e, E (f e) → E e) :
    Avoids E (Exec.mapErr f x) := by
  cases x using Exec.cases_on with
  | ok a => exact avoids_ok a
  | fail e =>
    intro e' he h
    rw [Exec.mapErr_fail, Exec.fail_inj] at h
    subst h
    exact hx e (hf e he) rfl
  | panic => exact avoids_panic

variable (hE : Foreign E)

include hE

lemma avoids_invalid {kind : Kind} (h : kind ≠ .depth) (offset : Nat) : Avoids E (invalid kind offset : URes α) := by
  intro e he hf
  rw [invalid, Exec.fail_inj] at hf
  subst hf
  exact hE.invalid _ h he

lemma Avoids.seg (hx : Avoids E x) (s : Seg) : Avoids E (Exec.mapErr (fun e => e.seg s) x) :=
  hx.mapErr fun e => hE.seg e s

lemma Avoids.pushKey (hx : Avoids E x) (key : Key) : Avoids E (Exec.mapErr (pushKey key) x) := by
  refine hx.mapErr fun e he => ?_
  unfold Rustruct.pushKey at he
  split at he
  · exact hE.seg e _ he
  · exact he

omit hE in
lemma avoids_expect (o : Option α) : Avoids E (Exec.expect o : URes α) := by
  cases o <;> simp

omit hE in
lemma avoids_slice (buf : Bytes) (start stop : Nat) : Avoids E (slice buf start stop : URes Bytes) := by
  unfold slice
  split_ifs <;> simp

omit hE in
lemma avoids_checkedSub (a b : Nat) : Avoids E (checkedSub a b : URes Nat) := by
  unfold checkedSub
  split_ifs <;> simp

omit hE in
lemma avoids_setReg (fs : Frames) (idx : Nat) (v : Int) : Avoids E (setReg fs idx v : URes Frames) := by
  unfold setReg
  split
  · split_ifs <;> simp
  · simp

omit hE in
lemma avoids_insert (map : List (String × Value)) (key : Key) (v : Value) : Avoids E (Builder.insert map key v) := by
  rw [insert_value]
  exact avoids_ok _

omit hE in
lemma avoids_setSpan (fs : Frames) (idx : Option Nat) (start stop : Nat) :
    Avoids E (setSpan fs idx start stop : URes Frames) := by
  unfold setSpan
  split
  · simp
  · split
    · split_ifs <;> simp
    · simp

lemma avoids_eval (fs : Frames) (expr : Expr) (pos : Nat) : Avoids E (eval fs expr pos) := by
  have hne := exprEval_ne_depth fs expr
  unfold eval
  cases h : expr.eval (getReg fs) using Exec.cases_on with
  | ok v => simp
  | fail k =>
    rw [h] at hne
    exact avoids_invalid hE (fun hk => hne (by rw [hk])) pos
  | panic => simp

lemma avoids_evalLen (fs : Frames) (expr : Expr) (pos : Nat) : Avoids E (evalLen fs expr pos) := by
  apply (avoids_eval hE fs expr pos).bind
  intro v
  split_ifs
  · exact avoids_invalid hE (by decide) pos
  · simp

lemma avoids_resolveLen (fs : Frames) (len : LenSrc) (max pos limit : Nat) :
    Avoids E (resolveLen fs len max pos limit) := by
  have hwanted : Avoids E (wantedLen fs len pos limit) := by
    cases len with
    | greedy => exact avoids_checkedSub _ _
    | expr expr inv => exact avoids_evalLen hE _ _ _
  apply hwanted.bind
  intro n
  split_ifs
  · exact avoids_invalid hE (by decide) pos
  · simp

lemma avoids_storeReg (fs : Frames) (reg : Option Nat) (v : Int) (pos : Nat) :
    Avoids E (storeReg fs reg v pos) := by
  unfold storeReg
  split
  · simp
  · split
    · exact avoids_setReg _ _ _
    · exact avoids_invalid hE (by decide) pos

lemma avoids_readFixedItem (buf : Bytes) (item : FixedItem) (base : Nat) (fs : Frames) :
    Avoids E (readFixedItem buf item base fs) := by
  unfold readFixedItem
  simp only
  split
  · refine (avoids_slice _ _ _).bind fun raw => ?_
    split_ifs
    · exact avoids_invalid hE (by decide) _
    · refine (avoids_storeReg hE _ _ _ _).bind fun fs' => ?_
      exact (avoids_setSpan _ _ _ _).bind fun _ => by simp
  · exact (avoids_slice _ _ _).bind fun raw => (avoids_setSpan _ _ _ _).bind fun _ => by simp
  · exact (avoids_slice _ _ _).bind fun raw => (avoids_setSpan _ _ _ _).bind fun _ => by simp
  · refine (avoids_expect _).bind fun byte => ?_
    split_ifs
    · exact avoids_invalid hE (by decide) _
    · exact (avoids_setSpan _ _ _ _).bind fun _ => by simp
  · refine (avoids_slice _ _ _).bind fun raw => ?_
    split_ifs
    · exact avoids_invalid hE (by decide) _
    · exact (avoids_setSpan _ _ _ _).bind fun _ => by simp

lemma avoids_readFixedItems (buf : Bytes) (base : Nat) (items : List FixedItem) (fs : Frames)
    (map : List (String × Value)) : Avoids E (readFixedItems buf base items fs map) := by
  induction items generalizing fs map with
  | nil => simp [readFixedItems]
  | cons item items ih =>
    rw [readFixedItems_cons]
    exact ((avoids_readFixedItem hE buf item base fs).pushKey hE item.key).bind fun r => ih _ _

omit hE in
lemma avoids_readBitsFrom (buf : Bytes) (base width i v : Nat) :
    Avoids E (readBitsFrom buf base width i v) := by
  induction width generalizing i v with
  | zero => simp [readBitsFrom]
  | succ width ih =>
    refine Avoids.bind ?_ fun bit => ih _ _
    unfold readBit
    split <;> simp

lemma avoids_readBitItems (buf : Bytes) (pos : Nat) (items : List BitItem) (bitpos : Nat)
    (fs : Frames) (map : List (String × Value)) :
    Avoids E (readBitItems buf pos items bitpos fs map) := by
  induction items generalizing bitpos fs map with
  | nil => simp [readBitItems]
  | cons item items ih =>
    rw [readBitItems_cons]
    refine ((avoids_readBitsFrom buf pos item.width bitpos 0).bind fun v => by simp).bind fun v => ?_
    exact ((avoids_storeReg hE _ _ _ _).pushKey hE item.key).bind fun fs' => ih _ _ _

omit hE in
lemma avoids_compute (H : Hashes) (buf : Bytes) (d : Deferred) (scopeStart scopeEnd : Nat) (f : Frame) :
    Avoids E (d.compute H buf scopeStart scopeEnd f) := by
  unfold Deferred.compute
  split
  · exact (avoids_slice _ _ _).bind fun _ => (avoids_checkedSub _ _).bind fun _ =>
      (avoids_slice _ _ _).bind fun _ => by simp
  · rename_i idxs _
    refine Avoids.bind ?_ fun h => by simp
    generalize Hasher.new d.algo = h
    clear * -
    induction idxs generalizing h with
    | nil => simp
    | cons i idxs ih =>
      rw [List.foldlM_cons]
      refine Avoids.bind ?_ fun h' => ih h'
      split_ifs
      · exact (avoids_slice _ _ _).bind fun _ => by simp
      · simp

lemma avoids_verifyDigests (H : Hashes) (buf : Bytes) (scopeStart scopeEnd : Nat) (f : Frame)
    (ds : List Deferred) : Avoids E (verifyDigests H buf scopeStart scopeEnd f ds) := by
  induction ds with
  | nil => simp [verifyDigests]
  | cons d ds ih =>
    rw [verifyDigests]
    split_ifs
    · refine (avoids_compute H buf d scopeStart scopeEnd f).bind fun computed => ?_
      split_ifs
      · exact (avoids_invalid hE (by decide) _).seg hE _
      · exact ih
    · exact ih

end Avoids

lemma steady_expect (o : Option α) : Steady (Exec.expect o) := steady_iff.mpr (avoids_expect o)

lemma steady_slice (buf : Bytes) (start stop : Nat) : Steady (slice buf start stop : URes Bytes) :=
  steady_iff.mpr (avoids_slice buf start stop)

lemma steady_setSpan (fs : Frames) (idx : Option Nat) (start stop : Nat) :
    Steady (setSpan fs idx start stop : URes Frames) :=
  steady_iff.mpr (avoids_setSpan fs idx start stop)

lemma steady_insert (map : List (String × Value)) (key : Key) (v : Value) : Steady (Builder.insert map key v) :=
  steady_iff.mpr (avoids_insert map key v)

lemma steady_storeReg (fs : Frames) (reg : Option Nat) (v : Int) (pos : Nat) : Steady (storeReg fs reg v pos) :=
  steady_iff.mpr (avoids_storeReg foreign_incomplete fs reg v pos)

lemma steady_readBitsFrom (buf : Bytes) (base width i v : Nat) : Steady (readBitsFrom buf base width i v) :=
  steady_iff.mpr (avoids_readBitsFrom buf base width i v)

lemma steady_eval (fs : Frames) (expr : Expr) (pos : Nat) : Steady (eval fs expr pos) :=
  steady_iff.mpr (avoids_eval foreign_incomplete fs expr pos)

lemma steady_evalLen (fs : Frames) (expr : Expr) (pos : Nat) : Steady (evalLen fs expr pos) :=
  steady_iff.mpr (avoids_evalLen foreign_incomplete fs expr pos)

lemma steady_resolveLen (fs : Frames) (len : LenSrc) (max pos limit : Nat) :
    Steady (resolveLen fs len max pos limit) :=
  steady_iff.mpr (avoids_resolveLen foreign_incomplete fs len max pos limit)

lemma steady_readFixedItem (buf : Bytes) (item : FixedItem) (base : Nat) (fs : Frames) :
    Steady (readFixedItem buf item base fs) :=
  steady_iff.mpr (avoids_readFixedItem foreign_incomplete buf item base fs)

lemma steady_readFixedItems (buf : Bytes) (base : Nat) (items : List FixedItem) (fs : Frames)
    (map : List (String × Value)) : Steady (readFixedItems buf base items fs map) :=
  steady_iff.mpr (avoids_readFixedItems foreign_incomplete buf base items fs map)

lemma steady_readBitItems (buf : Bytes) (pos : Nat) (items : List BitItem) (bitpos : Nat)
    (fs : Frames) (map : List (String × Value)) : Steady (readBitItems buf pos items bitpos fs map) :=
  steady_iff.mpr (avoids_readBitItems foreign_incomplete buf pos items bitpos fs map)

lemma steady_verifyDigests (H : Hashes) (buf : Bytes) (scopeStart scopeEnd : Nat) (f : Frame)
    (ds : List Deferred) : Steady (verifyDigests H buf scopeStart scopeEnd f ds) :=
  steady_iff.mpr (avoids_verifyDigests foreign_incomplete H buf scopeStart scopeEnd f ds)

/-- `y` ends as `x` does, unless `x` panics. -/
def OrPanic (x y : URes α) : Prop := x = Exec.panic ∨ y = x

lemma OrPanic.refl (x : URes α) : OrPanic x x := .inr rfl

lemma OrPanic.bind {x y : URes α} {f g : α → URes β} (hxy : OrPanic x y)
    (hfg : ∀ a, OrPanic (f a) (g a)) : OrPanic (x >>= f) (y >>= g) := by
  obtain rfl | rfl := hxy
  · exact .inl rfl
  · cases y using Exec.cases_on with
    | ok a => exact hfg a
    | fail e => exact .refl _
    | panic => exact .refl _

lemma OrPanic.mapErr {x y : URes α} (hxy : OrPanic x y) (f : UFail → UFail) :
    OrPanic (Exec.mapErr f x) (Exec.mapErr f y) := by
  obtain rfl | rfl := hxy
  · exact .inl rfl
  · exact .refl _

section Longer

variable {b x : Bytes} (hx : b <+: x)

include hx

lemma slice_orPanic (start stop : Nat) :
    OrPanic (slice b start stop : URes Bytes) (slice x start stop) := by
  obtain ⟨e, rfl⟩ := hx
  unfold slice
  by_cases h : start ≤ stop ∧ stop ≤ b.length
  · have h' : start ≤ stop ∧ stop ≤ (b ++ e).length := by
      rw [List.length_append]
      omega
    rw [if_pos h, if_pos h', List.drop_append_of_le_length (by omega),
      List.take_append_of_le_length (by rw [List.length_drop]; omega)]
    exact .refl _
  · rw [if_neg h]
    exact .inl rfl

lemma getElem_orPanic (i : Nat) : OrPanic (Exec.expect b[i]? : URes Byte) (Exec.expect x[i]?) := by
  obtain ⟨e, rfl⟩ := hx
  by_cases h : i < b.length
  · rw [List.getElem?_append_left h]
    exact .refl _
  · rw [List.getElem?_eq_none (by omega)]
    exact .inl rfl

lemma readFixedItem_orPanic (item : FixedItem) (base : Nat) (fs : Frames) :
    OrPanic (readFixedItem b item base fs) (readFixedItem x item base fs) := by
  unfold readFixedItem
  simp only
  split
  · exact (slice_orPanic hx _ _).bind fun _ => .refl _
  · exact (slice_orPanic hx _ _).bind fun _ => .refl _
  · exact (slice_orPanic hx _ _).bind fun _ => .refl _
  · exact (getElem_orPanic hx _).bind fun _ => .refl _
  · exact (slice_orPanic hx _ _).bind fun _ => .refl _

lemma readFixedItems_orPanic (base : Nat) (items : List FixedItem) (fs : Frames)
    (map : List (String × Value)) :
    OrPanic (readFixedItems b base items fs map) (readFixedItems x base items fs map) := by
  induction items generalizing fs map with
  | nil => exact .refl _
  | cons item items ih =>
    rw [readFixedItems_cons, readFixedItems_cons]
    exact ((readFixedItem_orPanic hx item base fs).mapErr _).bind fun _ => ih _ _

lemma readBit_orPanic (base i : Nat) : OrPanic (readBit b base i) (readBit x base i) := by
  obtain ⟨e, rfl⟩ := hx
  unfold readBit
  by_cases h : base + i / 8 < b.length
  · rw [List.getElem?_append_left h]
    exact .refl _
  · rw [List.getElem?_eq_none (by omega)]
    exact .inl rfl

lemma readBits_orPanic (base bitpos : Nat) (item : BitItem) :
    OrPanic (readBits b base bitpos item) (readBits x base bitpos item) := by
  refine OrPanic.bind ?_ fun _ => .refl _
  generalize item.width = width
  generalize 0 = v
  induction width generalizing bitpos v with
  | zero => exact .refl _
  | succ width ih => exact (readBit_orPanic hx base bitpos).bind fun _ => ih _ _

lemma readBitItems_orPanic (pos : Nat) (items : List BitItem) (bitpos : Nat) (fs : Frames)
    (map : List (String × Value)) :
    OrPanic (readBitItems b pos items bitpos fs map) (readBitItems x pos items bitpos fs map) := by
  induction items generalizing bitpos fs map with
  | nil => exact .refl _
  | cons item items ih =>
    rw [readBitItems_cons, readBitItems_cons]
    exact (readBits_orPanic hx pos bitpos item).bind fun _ => (OrPanic.refl _).bind fun _ => ih _ _ _

lemma compute_orPanic (H : Hashes) (d : Deferred) (scopeStart scopeEnd : Nat) (f : Frame) :
    OrPanic (d.compute H b scopeStart scopeEnd f) (d.compute H x scopeStart scopeEnd f) := by
  unfold Deferred.compute
  split
  · exact (slice_orPanic hx _ _).bind fun _ => (OrPanic.refl _).bind fun _ =>
      (slice_orPanic hx _ _).bind fun _ => .refl _
  · rename_i idxs _
    refine OrPanic.bind ?_ fun _ => .refl _
    generalize Hasher.new d.algo = h
    clear * - hx
    induction idxs generalizing h with
    | nil => exact .refl _
    | cons i idxs ih =>
      rw [List.foldlM_cons, List.foldlM_cons]
      refine OrPanic.bind ?_ fun h' => ih h'
      split_ifs
      · exact (slice_orPanic hx _ _).bind fun _ => .refl _
      · exact .refl _

lemma verifyDigests_orPanic (H : Hashes) (scopeStart scopeEnd : Nat) (f : Frame)
    (ds : List Deferred) :
    OrPanic (verifyDigests H b scopeStart scopeEnd f ds)
      (verifyDigests H x scopeStart scopeEnd f ds) := by
  induction ds with
  | nil => exact .refl _
  | cons d ds ih =>
    rw [verifyDigests, verifyDigests]
    split_ifs
    · refine (compute_orPanic hx H d scopeStart scopeEnd f).bind fun computed => ?_
      split_ifs
      · exact .refl _
      · exact ih
    · exact ih

end Longer

end Rustruct

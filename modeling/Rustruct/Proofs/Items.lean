import Rustruct.Proofs.Position

/-!
# Fixed items and frames

Reading a fixed item is: take its bytes, check them against the constant, store the
register, keep the span. An op only writes the innermost frame, and a struct leaves the
stack as it was.
-/

namespace Rustruct

namespace FixKind

/-- The value of the bytes of an item. -/
def value : FixKind → Bytes → Value
  | .int prim be _ _, data => .int (readInt prim be data)
  | .f32 be, data => .float (widen (readUint data be))
  | .f64 be, data => .float (UInt64.ofNat (readUint data be))
  | .bool _, data => .bool (data.any fun b => b != 0)
  | .raw _ _, data => .bytes data

/-- The bytes are those of the constant, if there is one. -/
def accepts : FixKind → Bytes → Bool
  | .int prim be expected _, data => expected.all fun exp => exp = readInt prim be data
  | .bool expected, data => expected.all fun exp => exp = data.any fun b => b != 0
  | .raw _ expected, data => expected.all fun exp => exp = data
  | _, _ => true

/-- The integer for the register. -/
def int? : FixKind → Bytes → Option Int
  | .int prim be _ _, data => some (readInt prim be data)
  | _, _ => none

end FixKind

/-- The register of an item that holds an integer. -/
def storeInt (fs : Frames) (reg : Option Nat) (v : Option Int) (pos : Nat) : URes Frames :=
  match v with
  | some v => storeReg fs reg v pos
  | none => .ok fs

lemma expect_getElem (buf : Bytes) (pos : Nat) (f : Bool → URes (Value × Frames)) :
    ((Exec.expect buf[pos]? : URes Byte) >>= fun byte => f (byte != 0)) =
      (slice buf pos (pos + 1) >>= fun raw => f (raw.any fun b => b != 0)) := by
  unfold slice
  by_cases h : pos < buf.length
  · rw [if_pos ⟨by omega, h⟩, List.getElem?_eq_getElem h, Nat.add_sub_cancel_left,
      List.drop_eq_getElem_cons h, List.take_succ_cons, List.take_zero]
    simp
  · rw [if_neg (by omega), List.getElem?_eq_none (by omega)]
    rfl

lemma any_ne {α : Type} [DecidableEq α] (o : Option α) (a : α) :
    (o.any fun exp => decide (exp ≠ a)) = !(o.all fun exp => decide (exp = a)) := by
  cases o <;> simp

lemma readFixedItem_eq (buf : Bytes) (item : FixedItem) (base : Nat) (fs : Frames) :
    readFixedItem buf item base fs = (do
      let pos := wrapAdd base item.off
      let raw ← slice buf pos (pos + item.kind.width)
      if item.kind.accepts raw then
        let fs ← storeInt fs item.reg (item.kind.int? raw) pos
        let fs ← setSpan fs item.span pos (pos + item.kind.width)
        .ok (item.kind.value raw, fs)
      else invalid .const pos) := by
  obtain ⟨off, kind, reg, span, key⟩ := item
  have hswap : ∀ {α : Type} (c : Bool) (x y : URes α),
      (if (!c) = true then x else y) = if c = true then y else x := by
    intro α c x y
    cases c <;> rfl
  cases kind with
  | int prim be expected derived =>
    simp only [readFixedItem, FixKind.width, FixKind.accepts, FixKind.int?, FixKind.value, storeInt,
      any_ne, hswap]
    rfl
  | f32 be => simp [readFixedItem, FixKind.width, FixKind.accepts, FixKind.int?, FixKind.value, storeInt]
  | f64 be => simp [readFixedItem, FixKind.width, FixKind.accepts, FixKind.int?, FixKind.value, storeInt]
  | bool expected =>
    simp only [readFixedItem, FixKind.width, FixKind.accepts, FixKind.int?, FixKind.value, storeInt,
      any_ne, hswap, Exec.bind_ok]
    exact expect_getElem buf (wrapAdd base off) fun v =>
      if (expected.all fun exp => decide (exp = v)) = true then do
        let fs ← setSpan fs span (wrapAdd base off) (wrapAdd base off + 1)
        .ok (.bool v, fs)
      else invalid .const (wrapAdd base off)
  | raw len expected =>
    simp only [readFixedItem, FixKind.width, FixKind.accepts, FixKind.int?, FixKind.value, storeInt,
      any_ne, hswap, Exec.bind_ok]
    rfl

/-- Only the innermost frame may differ. -/
def SameBelow (fs fs' : Frames) : Prop := fs'.tail = fs.tail ∧ fs'.length = fs.length

lemma SameBelow.refl (fs : Frames) : SameBelow fs fs := ⟨rfl, rfl⟩

lemma SameBelow.trans {fs gs hs : Frames} (h : SameBelow fs gs) (h' : SameBelow gs hs) :
    SameBelow fs hs :=
  ⟨h'.1.trans h.1, h'.2.trans h.2⟩

/-- `sem` writes no frame but the innermost. -/
def OwnFrame (sem : Sem) : Prop :=
  ∀ limit cur v next, sem limit cur = .ok (v, next) → SameBelow cur.fs next.fs

def OwnFrameScan (body : Nat → Scan → URes Scan) : Prop :=
  ∀ limit s t, body limit s = .ok t → SameBelow s.cur.fs t.cur.fs

/-- `sem` leaves the frames as they are. -/
def LeavesFrames (sem : Sem) : Prop :=
  ∀ limit cur v next, sem limit cur = .ok (v, next) → next.fs = cur.fs

lemma LeavesFrames.ownFrame {sem : Sem} (h : LeavesFrames sem) : OwnFrame sem := by
  intro limit cur v next hv
  rw [h _ _ _ _ hv]
  exact .refl _

section Writes

variable {ε : Type} {fs fs' : Frames}

lemma setReg_below {idx : Nat} {v : Int} (h : (setReg fs idx v : Exec ε Frames) = .ok fs') :
    SameBelow fs fs' := by
  unfold setReg at h
  split at h
  · split_ifs at h
    · cases h
      exact ⟨rfl, rfl⟩
    · simp at h
  · simp at h

lemma setSpan_below {idx : Option Nat} {start stop : Nat}
    (h : (setSpan fs idx start stop : Exec ε Frames) = .ok fs') : SameBelow fs fs' := by
  unfold setSpan at h
  split at h
  · cases h
    exact .refl _
  · split at h
    · split_ifs at h
      · cases h
        exact ⟨rfl, rfl⟩
      · simp at h
    · simp at h

lemma storeReg_below {reg : Option Nat} {v : Int} {pos : Nat}
    (h : storeReg fs reg v pos = .ok fs') : SameBelow fs fs' := by
  unfold storeReg at h
  split at h
  · cases h
    exact .refl _
  · split at h
    · exact setReg_below h
    · simp [invalid] at h

lemma storeInt_below {reg : Option Nat} {v : Option Int} {pos : Nat}
    (h : storeInt fs reg v pos = .ok fs') : SameBelow fs fs' := by
  cases v with
  | some v => exact storeReg_below h
  | none =>
    cases h
    exact .refl _

end Writes

/-- What reading an item found and did. -/
lemma readFixedItem_eq_ok {buf : Bytes} {item : FixedItem} {base : Nat} {fs fs' : Frames} {v : Value}
    (h : readFixedItem buf item base fs = .ok (v, fs')) :
    ∃ raw fs₁, (slice buf (wrapAdd base item.off) (wrapAdd base item.off + item.kind.width) :
        URes Bytes) = .ok raw ∧ item.kind.accepts raw ∧
      storeInt fs item.reg (item.kind.int? raw) (wrapAdd base item.off) = .ok fs₁ ∧
      (setSpan fs₁ item.span (wrapAdd base item.off) (wrapAdd base item.off + item.kind.width) :
        URes Frames) = .ok fs' ∧ v = item.kind.value raw := by
  rw [readFixedItem_eq] at h
  simp only [Exec.bind_eq_ok] at h
  obtain ⟨raw, hraw, h⟩ := h
  split_ifs at h with ha
  · simp only [Exec.bind_eq_ok, Except.ok.injEq, Prod.mk.injEq] at h
    obtain ⟨fs₁, hst, fs₂, hsp, rfl, rfl⟩ := h
    exact ⟨raw, fs₁, hraw, ha, hst, hsp, rfl⟩
  · simp [invalid] at h

section Own

variable {buf : Bytes} {sem : Sem}

lemma readFixedItem_below {item : FixedItem} {base : Nat} {fs fs' : Frames} {v : Value}
    (h : readFixedItem buf item base fs = .ok (v, fs')) : SameBelow fs fs' := by
  obtain ⟨raw, fs₁, -, -, hst, hsp, -⟩ := readFixedItem_eq_ok h
  exact (storeInt_below hst).trans (setSpan_below hsp)

lemma readFixedItems_below {base : Nat} {items : List FixedItem} {fs fs' : Frames}
    {map map' : List (String × Value)}
    (h : readFixedItems buf base items fs map = .ok (fs', map')) : SameBelow fs fs' := by
  induction items generalizing fs map with
  | nil =>
    cases h
    exact .refl _
  | cons item items ih =>
    simp only [readFixedItems, insert_value, Exec.bind_ok, Exec.bind_eq_ok, Prod.exists] at h
    obtain ⟨v, fs₁, hi, h⟩ := h
    exact (readFixedItem_below (Exec.mapErr_eq_ok.mp hi)).trans (ih h)

lemma readBitItems_below {pos : Nat} {items : List BitItem} {bitpos : Nat} {fs fs' : Frames}
    {map map' : List (String × Value)}
    (h : readBitItems buf pos items bitpos fs map = .ok (fs', map')) : SameBelow fs fs' := by
  induction items generalizing bitpos fs map with
  | nil =>
    cases h
    exact .refl _
  | cons item items ih =>
    simp only [readBitItems, insert_value, Exec.bind_ok, Exec.bind_eq_ok] at h
    obtain ⟨v, -, fs₁, hst, h⟩ := h
    exact (storeReg_below (Exec.mapErr_eq_ok.mp hst)).trans (ih h)

lemma runField_ownFrame (h : OwnFrame sem) (c : Common) : OwnFrameScan (runField c sem) := by
  intro limit s t ht
  simp only [runField, insert_value, Exec.bind_ok, Exec.bind_eq_ok, Prod.exists] at ht
  obtain ⟨v, cur, hv, fs, hsp, ht⟩ := ht
  cases ht
  exact (h _ _ _ _ (Exec.mapErr_eq_ok.mp hv)).trans (setSpan_below hsp)

lemma runCond_ownFrame (h : OwnFrame sem) (pred : Expr) (c : Common) :
    OwnFrameScan (runCond pred c sem) := by
  intro limit s t ht
  simp only [runCond, Exec.bind_eq_ok] at ht
  obtain ⟨p, -, ht⟩ := ht
  split_ifs at ht
  · exact runField_ownFrame h c _ _ _ ht
  · cases ht
    exact .refl _

lemma countLoop_ownFrame (h : OwnFrame sem) {limit n i : Nat} {out : List Value} {cur next : Cur}
    {v : Value} (hv : countLoop sem limit n i out cur = .ok (v, next)) : SameBelow cur.fs next.fs := by
  induction n generalizing i out cur with
  | zero =>
    cases hv
    exact .refl _
  | succ n ih =>
    simp only [countLoop, Exec.bind_eq_ok, Prod.exists] at hv
    obtain ⟨w, cur', hw, hv⟩ := hv
    exact (h _ _ _ _ (Exec.mapErr_eq_ok.mp hw)).trans (ih hv)

lemma eofLoop_ownFrame (h : OwnFrame sem) {limit left i : Nat} {out : List Value} {cur next : Cur}
    {v : Value} (hv : eofLoop sem limit left i out cur = .ok (v, next)) : SameBelow cur.fs next.fs := by
  induction left generalizing i out cur with
  | zero =>
    simp only [eofLoop] at hv
    split_ifs at hv
    · simp [invalid] at hv
    · cases hv
      exact .refl _
  | succ left ih =>
    simp only [eofLoop] at hv
    split_ifs at hv
    · simp only [Exec.bind_eq_ok, Prod.exists] at hv
      obtain ⟨w, cur', hw, hv⟩ := hv
      exact (h _ _ _ _ (Exec.mapErr_eq_ok.mp hw)).trans (ih hv)
    · cases hv
      exact .refl _

lemma doArray_ownFrame (h : OwnFrame sem) (count : CountSrc) (maxCount : Nat) :
    OwnFrame (doArray count maxCount sem) := by
  intro limit cur v next hv
  cases count with
  | untilEof => exact eofLoop_ownFrame h hv
  | expr expr inv =>
    simp only [doArray, Exec.bind_eq_ok] at hv
    obtain ⟨n, -, hv⟩ := hv
    split_ifs at hv
    · simp [invalid] at hv
    · simp [invalid] at hv
    · simp only [Exec.bind_eq_ok] at hv
      obtain ⟨_, -, hv⟩ := hv
      exact countLoop_ownFrame h hv

lemma doSwitch_ownFrame (on : Expr) (branch : Int → Option Sem)
    (h : ∀ tag, ∀ sem ∈ branch tag, OwnFrame sem) : OwnFrame (doSwitch on branch) := by
  intro limit cur v next hv
  simp only [doSwitch, Exec.bind_eq_ok] at hv
  obtain ⟨tag, -, hv⟩ := hv
  split at hv
  · rename_i sem hs
    exact h tag sem hs _ _ _ _ hv
  · simp [invalid] at hv

lemma doNest_leaves (h : LeavesFrames sem) (size : Option LenSrc) :
    LeavesFrames (doNest buf sem size) := by
  intro limit cur v next hv
  match size with
  | none => exact h _ _ _ _ hv
  | some .greedy => simp [doNest] at hv
  | some (.expr expr inv) =>
    simp only [doNest, Exec.bind_eq_ok, Prod.exists] at hv
    obtain ⟨sz, -, _, -, w, cur', hw, hv⟩ := hv
    split_ifs at hv
    · simp [invalid] at hv
    · cases hv
      exact h _ _ _ _ hw

lemma withFrame_leaves {H : Hashes} {body : Nat → Scan → URes Scan} (h : OwnFrameScan body) :
    LeavesFrames (withFrame H buf body) := by
  intro limit cur v next hv
  unfold withFrame at hv
  split_ifs at hv
  · simp [invalid] at hv
  · simp only [Exec.bind_eq_ok] at hv
    obtain ⟨s, hs, f, -, _, -, hv⟩ := hv
    cases hv
    exact (h _ _ _ hs).1

variable (H : Hashes) (buf : Bytes)

lemma runOps_ownFrame {ops : List Op} (h : ∀ op ∈ ops, OwnFrameScan (runOp H buf op)) :
    OwnFrameScan (runOps H buf ops) := by
  intro limit s t ht
  induction ops generalizing s with
  | nil =>
    cases ht
    exact .refl _
  | cons op ops ih =>
    simp only [runOps, Exec.bind_eq_ok] at ht
    obtain ⟨s', hs, ht⟩ := ht
    exact (h op (by simp) _ _ _ hs).trans (ih (fun o ho => h o (by simp [ho])) _ ht)

lemma frame_cases : OpCases
    (fun op => OwnFrame (opValue H buf op) ∧ OwnFrameScan (runOp H buf op))
    (fun prog => LeavesFrames (runStruct H buf prog)) where
  fixed width items := by
    rw [opValue, runOp]
    constructor
    · intro limit cur v next h
      simp only [doFixed, Exec.bind_eq_ok, Prod.exists] at h
      obtain ⟨_, -, item, -, w, fs, hi, h⟩ := h
      cases h
      exact readFixedItem_below hi
    · intro limit s t h
      simp only [runFixed, Exec.bind_eq_ok, Prod.exists] at h
      obtain ⟨_, -, fs, map, hi, h⟩ := h
      cases h
      exact readFixedItems_below hi
  bytes len max c := by
    rw [opValue, runOp]
    have h : OwnFrame (doBytes buf len max) := by
      intro limit cur v next h
      simp only [doBytes, Exec.bind_eq_ok] at h
      obtain ⟨n, -, _, -, raw, -, h⟩ := h
      cases h
      exact .refl _
    exact ⟨h, runField_ownFrame h c⟩
  str len max enc c := by
    rw [opValue, runOp]
    have h : OwnFrame (doStr buf len max enc) := by
      intro limit cur v next h
      simp only [doStr, Exec.bind_eq_ok] at h
      obtain ⟨n, -, _, -, raw, -, h⟩ := h
      split at h
      · cases h
        exact .refl _
      · simp [invalid] at h
    exact ⟨h, runField_ownFrame h c⟩
  cstr max enc c := by
    rw [opValue, runOp]
    have h : OwnFrame (doCstr buf max enc) := by
      intro limit cur v next h
      simp only [doCstr, Exec.bind_eq_ok] at h
      obtain ⟨window, -, seen, -, h⟩ := h
      unfold cstrEnd cstrAt at h
      split at h
      · obtain ⟨raw, -, h⟩ := Exec.bind_eq_ok.mp h
        split at h
        · cases h
          exact .refl _
        · simp [invalid] at h
      · split_ifs at h <;> simp [invalid] at h
    exact ⟨h, runField_ownFrame h c⟩
  bitRun nbytes items := by
    rw [opValue, runOp]
    refine ⟨fun _ _ _ _ h => by simp at h, ?_⟩
    intro limit s t h
    simp only [runBitRun, Exec.bind_eq_ok, Prod.exists] at h
    obtain ⟨_, -, fs, map, hi, h⟩ := h
    cases h
    exact readBitItems_below hi
  flags prim be items rest restMask c := by
    rw [opValue, runOp]
    have h : OwnFrame (doFlags buf prim be items rest restMask) := by
      intro limit cur v next h
      simp only [doFlags, setFlags_value, mapSet_value, Exec.bind_ok, Exec.bind_eq_ok] at h
      obtain ⟨_, -, bytes, -, h⟩ := h
      cases rest with
      | keep => cases h; exact .refl _
      | ignore => cases h; exact .refl _
      | strict =>
        simp only at h
        split_ifs at h
        · simp [invalid] at h
        · cases h
          exact .refl _
    exact ⟨h, runField_ownFrame h c⟩
  digest algo overs verify be c := by
    rw [opValue, runOp]
    refine ⟨fun _ _ _ _ h => by simp at h, ?_⟩
    intro limit s t h
    simp only [runDigest, insert_value, Exec.bind_ok, Exec.bind_eq_ok] at h
    obtain ⟨_, -, raw, -, key, -, fs, hsp, h⟩ := h
    cases h
    exact setSpan_below hsp
  nest prog size c hp := by
    rw [opValue, runOp]
    have h : OwnFrame (doNest buf (runStruct H buf prog) size) := (doNest_leaves hp size).ownFrame
    exact ⟨h, runField_ownFrame h c⟩
  array count maxCount elem elemMin c he := by
    rw [opValue, runOp]
    have h := doArray_ownFrame he.1 count maxCount
    exact ⟨h, runField_ownFrame h c⟩
  switch on cases default c hc hd := by
    rw [opValue, runOp]
    have h := doSwitch_ownFrame on _
      (branch_of H buf OwnFrame (fun b hb => (hc b hb).1) (fun o ho => (hd o ho).1))
    exact ⟨h, runField_ownFrame h c⟩
  cond pred thn c ht := by
    rw [opValue, runOp]
    exact ⟨fun _ _ _ _ h => by simp at h, runCond_ownFrame ht.1 pred c⟩
  prog ops nregs nspans minSize staticSize ho := by
    rw [runStruct]
    exact withFrame_leaves (runOps_ownFrame H buf fun op h => (ho op h).2)

lemma opValue_ownFrame (op : Op) : OwnFrame (opValue H buf op) := ((frame_cases H buf).op op).1

lemma runOp_ownFrame (op : Op) : OwnFrameScan (runOp H buf op) := ((frame_cases H buf).op op).2

/-- A struct pops the frame it pushes. -/
lemma runStruct_leaves (prog : Program) : LeavesFrames (runStruct H buf prog) :=
  (frame_cases H buf).program prog

end Own

end Rustruct

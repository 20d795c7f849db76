import Rustruct.Unpack

/-!
# The position only advances

Whatever a program is, an op that returns leaves the position where it was or further on,
and inside the limit if it was there.
-/

namespace Rustruct

/-- `stop` is at or after `start`, and not past `limit` if `start` is not. -/
def Onward (limit start stop : Nat) : Prop := start ≤ stop ∧ (start ≤ limit → stop ≤ limit)

lemma Onward.refl (limit pos : Nat) : Onward limit pos pos := ⟨Nat.le_refl _, id⟩

lemma Onward.trans {limit i j k : Nat} (hij : Onward limit i j) (hjk : Onward limit j k) :
    Onward limit i k :=
  ⟨Nat.le_trans hij.1 hjk.1, fun h => hjk.2 (hij.2 h)⟩

lemma onward_add {limit pos n : Nat} (h : pos + n ≤ limit) : Onward limit pos (pos + n) :=
  ⟨Nat.le_add_right _ _, fun _ => h⟩

/-- `sem` never goes back. -/
def Advances (sem : Sem) : Prop :=
  ∀ limit cur v next, sem limit cur = .ok (v, next) → Onward limit cur.pos next.pos

/-- `body` never goes back between two ops of a scope. -/
def ScanAdvances (body : Nat → Scan → URes Scan) : Prop :=
  ∀ limit s t, body limit s = .ok t → Onward limit s.cur.pos t.cur.pos

lemma need_eq_ok {buf : Bytes} {pos limit n : Nat} {u : Unit} :
    need buf pos limit n = .ok u ↔ pos + n ≤ limit := by
  rw [need_eq]
  split_ifs with h
  · simp [h]
  · simp [h]
  · simp [h]
  · simp [h, invalid]

section Leaves

variable (buf : Bytes)

lemma doFixed_advances (width : Nat) (items : List FixedItem) : Advances (doFixed buf width items) := by
  intro limit cur v next h
  simp only [doFixed, Exec.bind_eq_ok, Prod.exists] at h
  obtain ⟨_, hn, _, -, _, _, -, h⟩ := h
  cases h
  exact onward_add (need_eq_ok.mp hn)

lemma doBytes_advances (len : LenSrc) (max : Nat) : Advances (doBytes buf len max) := by
  intro limit cur v next h
  simp only [doBytes, Exec.bind_eq_ok] at h
  obtain ⟨n, -, _, hn, raw, -, h⟩ := h
  cases h
  exact onward_add (need_eq_ok.mp hn)

lemma doStr_advances (len : LenSrc) (max : Nat) (enc : Enc) : Advances (doStr buf len max enc) := by
  intro limit cur v next h
  simp only [doStr, Exec.bind_eq_ok] at h
  obtain ⟨n, -, _, hn, raw, -, h⟩ := h
  split at h
  · cases h
    exact onward_add (need_eq_ok.mp hn)
  · simp [invalid] at h

lemma cstrAt_pos {enc : Enc} {i : Nat} {cur next : Cur} {v : Value}
    (h : cstrAt buf enc i cur = .ok (v, next)) : next.pos = cur.pos + i + 1 := by
  simp only [cstrAt, Exec.bind_eq_ok] at h
  obtain ⟨raw, -, h⟩ := h
  split at h
  · cases h
    rfl
  · simp [invalid] at h

lemma doCstr_advances (max : Nat) (enc : Enc) : Advances (doCstr buf max enc) := by
  intro limit cur v next h
  simp only [doCstr, Exec.bind_eq_ok] at h
  obtain ⟨window, hw, seen, hs, h⟩ := h
  unfold cstrEnd at h
  split at h
  · rename_i i hi
    have hpos := cstrAt_pos buf h
    have hlt := (List.findIdx?_eq_some_iff_findIdx_eq.mp hi).1
    have hlen := slice_length hs
    have hwin := checkedSub_eq_ok.mp hw
    constructor <;> omega
  · split_ifs at h <;> simp [invalid] at h

lemma doFlags_advances (prim : IntPrim) (be : Bool) (items : List FlagItem) (rest : RestPolicy)
    (restMask : U64) : Advances (doFlags buf prim be items rest restMask) := by
  intro limit cur v next h
  simp only [doFlags, setFlags_value, mapSet_value, Exec.bind_ok, Exec.bind_eq_ok] at h
  obtain ⟨_, hn, bytes, -, h⟩ := h
  have hpos := onward_add (need_eq_ok.mp hn)
  cases rest with
  | keep => cases h; exact hpos
  | ignore => cases h; exact hpos
  | strict =>
    simp only at h
    split_ifs at h
    · simp [invalid] at h
    · cases h
      exact hpos

lemma runFixed_advances (width : Nat) (items : List FixedItem) :
    ScanAdvances (runFixed buf width items) := by
  intro limit s t h
  simp only [runFixed, Exec.bind_eq_ok, Prod.exists] at h
  obtain ⟨_, hn, fs, map, -, h⟩ := h
  cases h
  exact onward_add (need_eq_ok.mp hn)

lemma runBitRun_advances (nbytes : Nat) (items : List BitItem) :
    ScanAdvances (runBitRun buf nbytes items) := by
  intro limit s t h
  simp only [runBitRun, Exec.bind_eq_ok, Prod.exists] at h
  obtain ⟨_, hn, fs, map, -, h⟩ := h
  cases h
  exact onward_add (need_eq_ok.mp hn)

lemma runDigest_advances (algo : Algo) (overs : Over) (verify be : Bool) (c : Common) :
    ScanAdvances (runDigest buf algo overs verify be c) := by
  intro limit s t h
  simp only [runDigest, insert_value, Exec.bind_ok, Exec.bind_eq_ok] at h
  obtain ⟨_, hn, raw, -, key, -, fs, -, h⟩ := h
  cases h
  exact onward_add (need_eq_ok.mp (Exec.mapErr_eq_ok.mp hn))

end Leaves

section Combinators

variable (buf : Bytes) {sem : Sem}

lemma runField_advances (h : Advances sem) (c : Common) : ScanAdvances (runField c sem) := by
  intro limit s t ht
  simp only [runField, insert_value, Exec.bind_ok, Exec.bind_eq_ok, Prod.exists] at ht
  obtain ⟨v, cur, hv, fs, -, ht⟩ := ht
  cases ht
  exact h limit s.cur v cur (Exec.mapErr_eq_ok.mp hv)

lemma runCond_advances (h : Advances sem) (pred : Expr) (c : Common) :
    ScanAdvances (runCond pred c sem) := by
  intro limit s t ht
  simp only [runCond, Exec.bind_eq_ok] at ht
  obtain ⟨p, -, ht⟩ := ht
  split_ifs at ht
  · exact runField_advances h c _ _ _ ht
  · cases ht
    exact .refl _ _

lemma doNest_advances (h : Advances sem) (size : Option LenSrc) : Advances (doNest buf sem size) := by
  intro limit cur v next hv
  match size with
  | none => exact h _ _ _ _ hv
  | some .greedy => simp [doNest] at hv
  | some (.expr expr inv) =>
    simp only [doNest, Exec.bind_eq_ok, Prod.exists] at hv
    obtain ⟨sz, -, _, hn, w, cur', hw, hv⟩ := hv
    split_ifs at hv with he
    · simp [invalid] at hv
    · cases hv
      have := (h _ _ _ _ hw).1
      have := need_eq_ok.mp hn
      constructor <;> omega

lemma countLoop_advances (h : Advances sem) (limit n i : Nat) (out : List Value) (cur : Cur)
    (v : Value) (next : Cur) (hv : countLoop sem limit n i out cur = .ok (v, next)) :
    Onward limit cur.pos next.pos := by
  induction n generalizing i out cur with
  | zero =>
    cases hv
    exact .refl _ _
  | succ n ih =>
    simp only [countLoop, Exec.bind_eq_ok, Prod.exists] at hv
    obtain ⟨w, cur', hw, hv⟩ := hv
    exact (h _ _ _ _ (Exec.mapErr_eq_ok.mp hw)).trans (ih _ _ _ hv)

lemma eofLoop_advances (h : Advances sem) (limit left i : Nat) (out : List Value) (cur : Cur)
    (v : Value) (next : Cur) (hv : eofLoop sem limit left i out cur = .ok (v, next)) :
    Onward limit cur.pos next.pos := by
  induction left generalizing i out cur with
  | zero =>
    simp only [eofLoop] at hv
    split_ifs at hv
    · simp [invalid] at hv
    · cases hv
      exact .refl _ _
  | succ left ih =>
    simp only [eofLoop] at hv
    split_ifs at hv
    · simp only [Exec.bind_eq_ok, Prod.exists] at hv
      obtain ⟨w, cur', hw, hv⟩ := hv
      exact (h _ _ _ _ (Exec.mapErr_eq_ok.mp hw)).trans (ih _ _ _ hv)
    · cases hv
      exact .refl _ _

lemma doArray_advances (h : Advances sem) (count : CountSrc) (maxCount : Nat) :
    Advances (doArray count maxCount sem) := by
  intro limit cur v next hv
  cases count with
  | untilEof => exact eofLoop_advances h _ _ _ _ _ _ _ hv
  | expr expr inv =>
    simp only [doArray, Exec.bind_eq_ok] at hv
    obtain ⟨n, -, hv⟩ := hv
    split_ifs at hv
    · simp [invalid] at hv
    · simp [invalid] at hv
    · simp only [Exec.bind_eq_ok] at hv
      obtain ⟨_, -, hv⟩ := hv
      exact countLoop_advances h _ _ _ _ _ _ _ hv

lemma doSwitch_advances (on : Expr) (branch : Int → Option Sem)
    (h : ∀ tag, ∀ sem ∈ branch tag, Advances sem) : Advances (doSwitch on branch) := by
  intro limit cur v next hv
  simp only [doSwitch, Exec.bind_eq_ok] at hv
  obtain ⟨tag, -, hv⟩ := hv
  split at hv
  · rename_i sem hs
    exact h tag sem hs _ _ _ _ hv
  · simp [invalid] at hv

lemma withFrame_advances (H : Hashes) {body : Nat → Scan → URes Scan}
    (h : ScanAdvances body) : Advances (withFrame H buf body) := by
  intro limit cur v next hv
  unfold withFrame at hv
  split_ifs at hv
  · simp [invalid] at hv
  · simp only [Exec.bind_eq_ok] at hv
    obtain ⟨s, hs, f, -, _, -, hv⟩ := hv
    cases hv
    exact h _ _ _ hs

end Combinators

section Branches

variable (H : Hashes) (buf : Bytes)

/-- A found branch is that of some case. -/
lemma findCase_mem {cases : List (Int × Op)} {tag : Int} {sem : Sem}
    (h : sem ∈ findCase H buf cases tag) : ∃ branch ∈ cases, sem = opValue H buf branch.2 := by
  induction cases with
  | nil => simp [findCase] at h
  | cons branch cases ih =>
    obtain ⟨t, op⟩ := branch
    rw [findCase] at h
    split_ifs at h
    · exact ⟨(t, op), by simp, by simpa using h.symm⟩
    · obtain ⟨b, hb, hs⟩ := ih h
      exact ⟨b, by simp [hb], hs⟩

lemma defaultCase_mem {default : Option Op} {sem : Sem} (h : sem ∈ defaultCase H buf default) :
    ∃ op ∈ default, sem = opValue H buf op := by
  cases default with
  | none => simp [defaultCase] at h
  | some op => exact ⟨op, by simp, by simpa [defaultCase] using h.symm⟩

/-- What holds of every branch holds of the branch of a tag. -/
lemma branch_of (P : Sem → Prop) {cases : List (Int × Op)} {default : Option Op}
    (hc : ∀ branch ∈ cases, P (opValue H buf branch.2)) (hd : ∀ op ∈ default, P (opValue H buf op))
    (tag : Int) (sem : Sem)
    (h : sem ∈ (findCase H buf cases tag).or (defaultCase H buf default)) : P sem := by
  cases hf : findCase H buf cases tag with
  | some found =>
    rw [hf] at h
    obtain rfl : found = sem := by simpa using h
    obtain ⟨b, hb, rfl⟩ := findCase_mem H buf (hf : found ∈ findCase H buf cases tag)
    exact hc b hb
  | none =>
    rw [hf, Option.none_or] at h
    obtain ⟨op, ho, rfl⟩ := defaultCase_mem H buf h
    exact hd op ho

end Branches

section Programs

variable (H : Hashes) (buf : Bytes)

lemma runOps_advances {ops : List Op} (h : ∀ op ∈ ops, ScanAdvances (runOp H buf op)) :
    ScanAdvances (runOps H buf ops) := by
  intro limit s t ht
  induction ops generalizing s with
  | nil =>
    cases ht
    exact .refl _ _
  | cons op ops ih =>
    simp only [runOps, Exec.bind_eq_ok] at ht
    obtain ⟨s', hs, ht⟩ := ht
    exact (h op (by simp) _ _ _ hs).trans (ih (fun o ho => h o (by simp [ho])) _ ht)

/-- A nested value that panics in a value position still advances as a field. -/
lemma advance_cases : OpCases
    (fun op => Advances (opValue H buf op) ∧ ScanAdvances (runOp H buf op))
    (fun prog => Advances (runStruct H buf prog)) where
  fixed width items := by
    rw [opValue, runOp]
    exact ⟨doFixed_advances buf width items, runFixed_advances buf width items⟩
  bytes len max c := by
    rw [opValue, runOp]
    exact ⟨doBytes_advances buf len max, runField_advances (doBytes_advances buf len max) c⟩
  str len max enc c := by
    rw [opValue, runOp]
    exact ⟨doStr_advances buf len max enc, runField_advances (doStr_advances buf len max enc) c⟩
  cstr max enc c := by
    rw [opValue, runOp]
    exact ⟨doCstr_advances buf max enc, runField_advances (doCstr_advances buf max enc) c⟩
  bitRun nbytes items := by
    rw [opValue, runOp]
    exact ⟨fun _ _ _ _ h => by simp at h, runBitRun_advances buf nbytes items⟩
  flags prim be items rest restMask c := by
    rw [opValue, runOp]
    have h := doFlags_advances buf prim be items rest restMask
    exact ⟨h, runField_advances h c⟩
  digest algo overs verify be c := by
    rw [opValue, runOp]
    exact ⟨fun _ _ _ _ h => by simp at h, runDigest_advances buf algo overs verify be c⟩
  nest prog size c hp := by
    rw [opValue, runOp]
    exact ⟨doNest_advances buf hp size, runField_advances (doNest_advances buf hp size) c⟩
  array count maxCount elem elemMin c he := by
    rw [opValue, runOp]
    have h := doArray_advances he.1 count maxCount
    exact ⟨h, runField_advances h c⟩
  switch on cases default c hc hd := by
    rw [opValue, runOp]
    have h := doSwitch_advances on _
      (branch_of H buf Advances (fun b hb => (hc b hb).1) (fun o ho => (hd o ho).1))
    exact ⟨h, runField_advances h c⟩
  cond pred thn c ht := by
    rw [opValue, runOp]
    exact ⟨fun _ _ _ _ h => by simp at h, runCond_advances ht.1 pred c⟩
  prog ops nregs nspans minSize staticSize ho := by
    rw [runStruct]
    exact withFrame_advances buf H (runOps_advances H buf fun op h => (ho op h).2)

lemma opValue_advances (op : Op) : Advances (opValue H buf op) := ((advance_cases H buf).op op).1

lemma runOp_advances (op : Op) : ScanAdvances (runOp H buf op) := ((advance_cases H buf).op op).2

lemma runStruct_advances (prog : Program) : Advances (runStruct H buf prog) :=
  (advance_cases H buf).program prog

end Programs

end Rustruct

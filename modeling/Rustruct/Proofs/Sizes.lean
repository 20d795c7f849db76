import Rustruct.Proofs.Everywhere
import Rustruct.Proofs.Position
import Rustruct.Proofs.Runs
import Rustruct.Proofs.Writers

/-!
# The published sizes

`opMin` and `opStatic` against both interpreters: an op takes at least its minimum, and
exactly its static size where it has one.
-/

namespace Rustruct

/-- From `start` to `stop` it is at least `least`, and exactly the static size if there is one. -/
structure Takes (least : Nat) (static : Option Nat) (start stop : Nat) : Prop where
  least_le : start + least ≤ stop
  exact : ∀ s ∈ static, stop = start + s

/-- The static size of a sum. -/
def staticNext (acc : Option Nat) (op : Op) : Option Nat := do some (wrapAdd (← acc) (← opStatic op))

/-- Sums do not wrap while they are lengths of a buffer. -/
lemma Takes.next {least : Nat} {acc : Option Nat} {op : Op} {start mid stop : Nat}
    (h : Takes least acc start mid) (hop : Takes (opMin op) (opStatic op) mid stop)
    (hstop : stop ≤ isizeMax) : Takes (satAdd least (opMin op)) (staticNext acc op) start stop where
  least_le := by
    have h₁ := h.least_le
    have h₂ := hop.least_le
    have hle : satAdd least (opMin op) ≤ least + opMin op := Nat.min_le_left _ _
    omega
  exact s hs := by
    have hmax := isizeMax_lt
    simp only [staticNext, Option.bind_eq_bind, Option.bind_eq_some_iff, Option.mem_def,
      Option.some.injEq] at hs
    obtain ⟨a, ha, b, hb, rfl⟩ := hs
    have h₁ := h.exact a ha
    have h₂ := hop.exact b hb
    rw [wrapAdd_of_lt (by omega)]
    omega

lemma takes_zero (start : Nat) : Takes 0 (some 0) start start where
  least_le := Nat.le_refl _
  exact s hs := by
    obtain rfl := Option.some.inj hs
    rfl

lemma takes_add (start n : Nat) : Takes n (some n) start (start + n) where
  least_le := Nat.le_refl _
  exact s hs := by rw [Option.some.inj hs]

/-- A number of parts, each of the same size. -/
lemma takes_mul {least : Nat} {static : Option Nat} {start mid stop n : Nat}
    (hfirst : Takes least static start mid)
    (hrest : Takes (n * least) (static.map (n * ·)) mid stop) :
    Takes ((n + 1) * least) (static.map ((n + 1) * ·)) start stop where
  least_le := by
    have h₁ := hfirst.least_le
    have h₂ := hrest.least_le
    rw [Nat.succ_mul]
    omega
  exact s hs := by
    obtain ⟨a, ha, rfl⟩ := Option.map_eq_some_iff.mp hs
    have h₁ := hfirst.exact a ha
    have h₂ := hrest.exact (n * a) (Option.map_eq_some_iff.mpr ⟨a, ha, rfl⟩)
    rw [Nat.succ_mul]
    omega

/-- The sizes an op stores are those of what it holds. -/
def Op.sized : Op → Prop
  | .nest prog _ _ => prog.minSize = minSizeOf prog.ops ∧ prog.staticSize = staticSizeOf prog.ops
  | .array _ _ elem elemMin _ => elemMin = opMin elem
  | .digest algo .. => algo.widthBytes ≤ 32
  | .bitRun nbytes _ => nbytes < u32Size
  | _ => True

structure Program.Sized (prog : Program) : Prop where
  minSize : prog.minSize = minSizeOf prog.ops
  staticSize : prog.staticSize = staticSizeOf prog.ops
  every : prog.Every Op.sized

lemma parseAlgo_width {name : String} {ov : CrcOverrides} {algo : Algo}
    (h : parseAlgo name ov = .ok algo) : algo.widthBytes ≤ 32 := by
  have hall : ∀ entry ∈ algos.names, entry.2.widthBytes ≤ 32 := by decide
  have hpreset : ∀ preset, Algo.preset name = some preset → preset.widthBytes ≤ 32 := by
    intro preset hp
    unfold Algo.preset ClosedSet.parse at hp
    split at hp
    · rename_i value hv
      obtain rfl := Option.some.inj hp
      have hhit : algos.hit name algos.names = some value := by
        simpa [ClosedSet.hit, algos] using hv
      obtain ⟨entry, he, rfl⟩ := Option.map_eq_some_iff.mp hhit
      exact hall entry (List.mem_of_find?_eq_some he)
    · cases hp
  unfold parseAlgo at h
  split at h
  · cases h
  · rename_i spec hp
    cases h
    exact hpreset (.crc spec) hp
  · rename_i hp
    split_ifs at h
    · simp [schemaErr] at h
    · cases h
      exact hpreset _ hp

lemma sized_everywhere (opts : Options) : Everywhere opts Op.sized where
  withCommon op c h := by cases op <;> exact h
  fixed _ _ := trivial
  bitRun _ _ h := h
  digest _ _ _ _ _ _ _ h := parseAlgo_width h
  flags _ _ _ _ _ _ := trivial
  cstr _ _ _ := trivial
  bytes _ _ _ _ _ _ := trivial
  str _ _ _ _ _ _ _ := trivial
  nest _ _ _ _ _ _ hm hs := ⟨hm, hs⟩
  array _ _ _ _ _ _ _ := rfl
  switch _ _ _ _ := trivial
  cond _ _ _ := trivial

lemma compile_sized {fields : List FieldIn} {opts : Options} {prog : Program}
    (h : compile fields opts = .ok prog) : prog.Sized := by
  obtain ⟨full, atoms, -, ha⟩ := (compile_lowers h).1
  exact ⟨ha.minSize, ha.staticSize, compile_every (sized_everywhere opts) h⟩

lemma nest_sized {prog : Program} {size : Option LenSrc} {c : Common}
    (h : (Op.nest prog size c).Every Op.sized) : prog.Sized :=
  ⟨h.1.1, h.1.2, h.2⟩

lemma asU64_toNat_le (n : Int) (hn : 0 ≤ n) : asU64 n ≤ n.toNat := by
  unfold asU64
  omega

lemma asU64_toNat {n : Int} (hn : 0 ≤ n) (hle : n.toNat ≤ isizeMax) : asU64 n = n.toNat := by
  have h : (isizeMax : Int) = 2 ^ 63 - 1 := by decide
  unfold asU64
  omega

lemma eval_const {expr : Expr} {n : Int} (h : expr.asConst = some n) (get : Reg → Exec Kind Int) :
    expr.eval get = .ok n := by
  obtain ⟨ins⟩ := expr
  unfold Expr.asConst at h
  split at h
  · rename_i m hm
    simp only at hm
    subst hm
    obtain rfl := Option.some.inj h
    rfl
  · cases h

lemma evalLen_const {expr : Expr} {n : Int} (h : expr.asConst = some n) {fs : Frames} {pos sz : Nat}
    (he : evalLen fs expr pos = .ok sz) : 0 ≤ n ∧ sz = n.toNat := by
  simp only [evalLen, eval, eval_const h, Exec.mapErr_ok, Exec.bind_ok] at he
  split_ifs at he with hn
  · simp [invalid] at he
  · exact ⟨by omega, (Except.ok.inj he).symm⟩

/-- What `lenConst` says of a length. -/
lemma lenConst_eq_some {len : LenSrc} {s : Nat} (h : lenConst len = some s) :
    ∃ expr n, len = .expr expr none ∧ expr.asConst = some n ∧ s = asU64 n := by
  unfold lenConst at h
  split at h
  · obtain ⟨n, hn, rfl⟩ := Option.map_eq_some_iff.mp h
    exact ⟨_, n, rfl, hn, rfl⟩
  · cases h

section Unpack

variable (H : Hashes) (buf : Bytes)

/-- The value takes the sizes of its op. -/
def ValueTakes (op : Op) : Prop :=
  op.Every Op.sized → ∀ limit cur v next, limit ≤ isizeMax → cur.pos ≤ limit →
    opValue H buf op limit cur = .ok (v, next) → Takes (opMin op) (opStatic op) cur.pos next.pos

def FieldTakes (op : Op) : Prop :=
  op.Every Op.sized → ∀ limit s t, limit ≤ isizeMax → s.cur.pos ≤ limit →
    runOp H buf op limit s = .ok t → Takes (opMin op) (opStatic op) s.cur.pos t.cur.pos

def BodyTakes (prog : Program) : Prop :=
  prog.Sized → ∀ limit cur v next, limit ≤ isizeMax → cur.pos ≤ limit →
    runStruct H buf prog limit cur = .ok (v, next) →
      Takes prog.minSize prog.staticSize cur.pos next.pos

variable {H buf}

lemma fieldTakes_of_value {op : Op} (hv : op.isValue) (h : ValueTakes H buf op) :
    FieldTakes H buf op := by
  intro hs limit s t hl hpos ht
  obtain ⟨c, -, hrun⟩ := runOp_of_isValue H buf hv
  simp only [hrun, runField, insert_value, Exec.bind_ok, Exec.bind_eq_ok, Prod.exists] at ht
  obtain ⟨v, cur, hval, fs, -, ht⟩ := ht
  cases ht
  exact h hs limit s.cur v cur hl hpos (Exec.mapErr_eq_ok.mp hval)

/-- A length is the constant of its op. -/
lemma resolveLen_const {len : LenSrc} {fs : Frames} {max pos limit n s : Nat} (hn : n ≤ isizeMax)
    (h : lenConst len = some s) (hr : resolveLen fs len max pos limit = .ok n) : n = s := by
  obtain ⟨expr, k, rfl, hk, rfl⟩ := lenConst_eq_some h
  obtain ⟨m, hm, hr⟩ := Exec.bind_eq_ok.mp hr
  split_ifs at hr
  · simp [invalid] at hr
  · obtain rfl := Except.ok.inj hr
    obtain ⟨hnn, rfl⟩ := evalLen_const hk hm
    exact (asU64_toNat hnn hn).symm

lemma takes_len {len : LenSrc} {fs : Frames} {max pos limit n : Nat} (hl : limit ≤ isizeMax)
    (hfit : pos + n ≤ limit) (hr : resolveLen fs len max pos limit = .ok n) :
    Takes ((lenConst len).getD 0) (lenConst len) pos (pos + n) := by
  cases hc : lenConst len with
  | none => exact ⟨by simp, by simp⟩
  | some s =>
    obtain rfl := resolveLen_const (by omega) hc hr
    exact takes_add pos n

lemma takes_nest {prog : Program} {size : Option LenSrc} {c : Common} (hp : BodyTakes H buf prog) :
    ValueTakes H buf (.nest prog size c) := by
  intro hs limit cur v next hl hpos hv
  have hsized := nest_sized hs
  rw [opValue] at hv
  match size with
  | none => exact hp hsized limit cur v next hl hpos hv
  | some .greedy => simp [doNest] at hv
  | some (.expr expr inv) =>
    simp only [doNest, Exec.bind_eq_ok, Prod.exists] at hv
    obtain ⟨sz, hsz, _, hn, w, cur', hw, hv⟩ := hv
    have hfit := need_eq_ok.mp hn
    split_ifs at hv with hend
    · simp [invalid] at hv
    · cases hv
      have hend := not_not.mp hend
      have hbody := hp hsized _ _ _ _ (by omega) (Nat.le_add_right _ _) hw
      cases inv with
      | some inv => exact ⟨hbody.least_le, by simp [opStatic]⟩
      | none =>
        cases hk : expr.asConst with
        | none => exact ⟨by simpa [opMin, hk] using hbody.least_le, by simp [opStatic, hk]⟩
        | some k =>
          obtain ⟨hnn, rfl⟩ := evalLen_const hk hsz
          have heq := asU64_toNat hnn (by omega)
          simp only [opMin, opStatic, hk, Option.map_some, Option.getD_some, heq, hend]
          exact takes_add _ _

lemma takes_countLoop {sem : Sem} {least : Nat} {static : Option Nat} {limit : Nat}
    (hadv : Advances sem)
    (he : ∀ cur v next, cur.pos ≤ limit → sem limit cur = .ok (v, next) →
      Takes least static cur.pos next.pos)
    {n i : Nat} {out : List Value} {cur next : Cur} {v : Value} (hpos : cur.pos ≤ limit)
    (h : countLoop sem limit n i out cur = .ok (v, next)) :
    Takes (n * least) (static.map (n * ·)) cur.pos next.pos := by
  induction n generalizing i out cur with
  | zero =>
    cases h
    exact ⟨by simp, by simp⟩
  | succ n ih =>
    simp only [countLoop, Exec.bind_eq_ok, Prod.exists] at h
    obtain ⟨w, mid, hw, h⟩ := h
    have hw := Exec.mapErr_eq_ok.mp hw
    exact takes_mul (he _ _ _ hpos hw) (ih ((hadv _ _ _ _ hw).2 hpos) h)

/-- So many elements, where the number is a constant of the op. -/
lemma takes_count {count : CountSrc} {elem : Op} {maxCount : Nat} {c : Common} {n start stop : Nat}
    {expr : Expr} {inv : Option Inv} (hcount : count = .expr expr inv) (hstop : stop ≤ isizeMax)
    (hconst : inv = none → ∀ k, expr.asConst = some k → 0 ≤ k ∧ n = k.toNat)
    (h : Takes (n * opMin elem) ((opStatic elem).map (n * ·)) start stop) :
    Takes (opMin (.array count maxCount elem (opMin elem) c))
      (opStatic (.array count maxCount elem (opMin elem) c)) start stop := by
  subst hcount
  have hge := h.least_le
  have hstart : start ≤ stop := by omega
  cases inv with
  | some inv => exact ⟨by simpa [opMin] using hstart, by simp [opStatic]⟩
  | none =>
    cases hk : expr.asConst with
    | none => exact ⟨by simpa [opMin, hk] using hstart, by simp [opStatic, hk]⟩
    | some k =>
      obtain ⟨hnn, rfl⟩ := hconst rfl k hk
      constructor
      · have hle : satMul (asU64 k) (opMin elem) ≤ k.toNat * opMin elem :=
          Nat.le_trans (Nat.min_le_left _ _) (Nat.mul_le_mul_right _ (asU64_toNat_le k hnn))
        simp only [opMin, hk, Option.map_some, Option.getD_some]
        omega
      · intro s hs
        simp only [opStatic, hk, Option.bind_eq_bind, Option.bind_some, Option.mem_def,
          Option.bind_eq_some_iff] at hs
        obtain ⟨e, he, hs⟩ := hs
        have hexact := h.exact (k.toNat * e) (Option.map_eq_some_iff.mpr ⟨e, he, rfl⟩)
        have hmul : asU64 k * e = k.toNat * e := by
          cases e with
          | zero => rfl
          | succ e =>
            have hle : k.toNat ≤ k.toNat * (e + 1) := Nat.le_mul_of_pos_right _ (Nat.succ_pos e)
            rw [asU64_toNat hnn (by omega)]
        unfold checkedMul at hs
        split_ifs at hs
        rw [← Option.some.inj hs, hmul]
        exact hexact

lemma takes_array {elem : Op} {count : CountSrc} {maxCount elemMin : Nat} {c : Common}
    (he : ValueTakes H buf elem) : ValueTakes H buf (.array count maxCount elem elemMin c) := by
  intro hs limit cur v next hl hpos hv
  obtain rfl : elemMin = opMin elem := hs.1
  have hon := opValue_advances H buf _ _ _ _ _ hv
  rw [opValue] at hv
  cases count with
  | untilEof => exact ⟨by simpa [opMin] using hon.1, by simp [opStatic]⟩
  | expr expr inv =>
    simp only [doArray, Exec.bind_eq_ok] at hv
    obtain ⟨n, hn, hv⟩ := hv
    split_ifs at hv with hneg hmax
    · simp [invalid] at hv
    · simp [invalid] at hv
    · obtain ⟨_, -, hv⟩ := Exec.bind_eq_ok.mp hv
      have hloop := takes_countLoop (opValue_advances H buf elem)
        (fun cur v next hp => he hs.2 limit cur v next hl hp) hpos hv
      refine takes_count rfl (Nat.le_trans (hon.2 hpos) hl) (fun _ k hk => ?_) hloop
      simp only [eval, eval_const hk, Exec.mapErr_ok, Except.ok.injEq] at hn
      subst hn
      exact ⟨by omega, rfl⟩

lemma casesMin_le {cases : List (Int × Op)} {branch : Int × Op} (h : branch ∈ cases) :
    casesMin cases ≤ opMin branch.2 := by
  induction cases with
  | nil => cases h
  | cons b cases ih =>
    rw [casesMin]
    obtain rfl | h := List.mem_cons.mp h
    · exact Nat.min_le_left _ _
    · exact Nat.le_trans (Nat.min_le_right _ _) (ih h)

lemma allStatic_mem {cases : List (Int × Op)} {first : Nat} (h : allStatic cases first)
    {branch : Int × Op} (hb : branch ∈ cases) : opStatic branch.2 = some first := by
  induction cases with
  | nil => cases hb
  | cons b cases ih =>
    simp only [allStatic, Bool.and_eq_true, beq_iff_eq] at h
    obtain rfl | hb := List.mem_cons.mp hb
    · exact h.1
    · exact ih h.2 hb

/-- A branch is at least as large as the smallest, and all branches of a static switch are alike. -/
lemma takes_branch {on : Expr} {cases : List (Int × Op)} {default : Option Op} {c : Common} {op : Op}
    {start stop : Nat} (hb : (∃ branch ∈ cases, branch.2 = op) ∨ default = some op)
    (h : Takes (opMin op) (opStatic op) start stop) :
    Takes (opMin (.switch on cases default c)) (opStatic (.switch on cases default c)) start stop := by
  constructor
  · have hmin : min (casesMin cases) (defaultMin default) ≤ opMin op := by
      obtain ⟨branch, hm, rfl⟩ | rfl := hb
      · exact Nat.le_trans (Nat.min_le_left _ _) (casesMin_le hm)
      · exact Nat.min_le_right _ _
    have hge := h.least_le
    simp only [opMin]
    split_ifs <;> omega
  · intro s hs
    cases cases with
    | nil => cases hs
    | cons first cases =>
      obtain ⟨tag, o⟩ := first
      simp only [opStatic, Option.bind_eq_bind, Option.mem_def, Option.bind_eq_some_iff] at hs
      obtain ⟨a, ha, hs⟩ := hs
      split_ifs at hs with hall
      obtain rfl := Option.some.inj hs
      obtain ⟨hcases, hdef⟩ := Bool.and_eq_true_iff.mp hall
      apply h.exact
      obtain ⟨branch, hm, rfl⟩ | rfl := hb
      · obtain rfl | hm := List.mem_cons.mp hm
        · exact ha
        · exact allStatic_mem hcases hm
      · simpa [defaultStatic] using hdef

lemma takes_switch (on : Expr) {cases : List (Int × Op)} {default : Option Op} (c : Common)
    (hc : ∀ branch ∈ cases, ValueTakes H buf branch.2) (hd : ∀ op ∈ default, ValueTakes H buf op) :
    ValueTakes H buf (.switch on cases default c) := by
  intro hs limit cur v next hl hpos hv
  rw [opValue_switch] at hv
  simp only [doSwitch, Exec.bind_eq_ok] at hv
  obtain ⟨tag, -, hv⟩ := hv
  cases hp : pickCase cases default tag with
  | none => simp [hp, invalid] at hv
  | some op =>
    rw [hp] at hv
    have hmem := pickCase_mem hp
    refine takes_branch hmem ?_
    obtain ⟨branch, hm, rfl⟩ | ho := hmem
    · exact hc branch hm (casesEvery_iff.mp hs.2.1 branch hm) limit cur v next hl hpos hv
    · exact hd op ho (defaultEvery_iff.mp hs.2.2 op ho) limit cur v next hl hpos hv

lemma takes_runOps {ops : List Op} (hop : ∀ op ∈ ops, FieldTakes H buf op)
    (hs : ∀ op ∈ ops, op.Every Op.sized) {limit start least : Nat} {acc : Option Nat} {s t : Scan}
    (hl : limit ≤ isizeMax) (hpos : s.cur.pos ≤ limit) (hacc : Takes least acc start s.cur.pos)
    (h : runOps H buf ops limit s = .ok t) :
    Takes (ops.foldl (fun acc op => satAdd acc (opMin op)) least) (ops.foldl staticNext acc) start
      t.cur.pos := by
  induction ops generalizing s least acc with
  | nil =>
    cases h
    exact hacc
  | cons op ops ih =>
    simp only [runOps, Exec.bind_eq_ok] at h
    obtain ⟨s', hs', h⟩ := h
    have hle := (runOp_advances H buf op _ _ _ hs').2 hpos
    have hfirst := hop op (by simp) (hs op (by simp)) limit s s' hl hpos hs'
    exact ih (fun o ho => hop o (by simp [ho])) (fun o ho => hs o (by simp [ho])) hle
      (hacc.next hfirst (by omega)) h

lemma takes_body {ops : List Op} {nregs nspans minSize : Nat} {staticSize : Option Nat}
    (hop : ∀ op ∈ ops, FieldTakes H buf op) :
    BodyTakes H buf (.mk ops nregs nspans minSize staticSize) := by
  intro hs limit cur v next hl hpos hv
  rw [runStruct] at hv
  unfold withFrame at hv
  split_ifs at hv
  · simp [invalid] at hv
  · simp only [Exec.bind_eq_ok] at hv
    obtain ⟨t, ht, f, -, _, -, hv⟩ := hv
    cases hv
    rw [hs.minSize, hs.staticSize]
    exact takes_runOps hop (opsEvery_iff.mp hs.every) hl hpos (takes_zero cur.pos) ht

lemma takes_cases : OpCases (fun op => ValueTakes H buf op ∧ FieldTakes H buf op)
    (BodyTakes H buf) where
  fixed width items := by
    constructor
    · intro _ limit cur v next hl hpos h
      simp only [opValue, doFixed, Exec.bind_eq_ok, Prod.exists] at h
      obtain ⟨_, -, _, -, _, _, -, h⟩ := h
      cases h
      exact takes_add _ _
    · intro _ limit s t hl hpos h
      simp only [runOp, runFixed, Exec.bind_eq_ok, Prod.exists] at h
      obtain ⟨_, -, fs, map, -, h⟩ := h
      cases h
      exact takes_add _ _
  bytes len max c := by
    have h : ValueTakes H buf (.bytes len max c) := by
      intro _ limit cur v next hl hpos h
      simp only [opValue, doBytes, Exec.bind_eq_ok] at h
      obtain ⟨n, hr, _, hn, raw, -, h⟩ := h
      cases h
      exact takes_len hl (need_eq_ok.mp hn) hr
    exact ⟨h, fieldTakes_of_value rfl h⟩
  str len max enc c := by
    have h : ValueTakes H buf (.str len max enc c) := by
      intro _ limit cur v next hl hpos h
      simp only [opValue, doStr, Exec.bind_eq_ok] at h
      obtain ⟨n, hr, _, hn, raw, -, h⟩ := h
      split at h
      · cases h
        exact takes_len hl (need_eq_ok.mp hn) hr
      · simp [invalid] at h
    exact ⟨h, fieldTakes_of_value rfl h⟩
  cstr max enc c := by
    have h : ValueTakes H buf (.cstr max enc c) := by
      intro _ limit cur v next hl hpos h
      simp only [opValue, doCstr, Exec.bind_eq_ok] at h
      obtain ⟨window, -, seen, -, h⟩ := h
      unfold cstrEnd at h
      split at h
      · have hend := cstrAt_pos buf h
        exact ⟨by simp only [opMin]; omega, by simp [opStatic]⟩
      · split_ifs at h <;> simp [invalid] at h
    exact ⟨h, fieldTakes_of_value rfl h⟩
  bitRun nbytes items := by
    refine ⟨fun _ _ _ _ _ _ _ h => by simp [opValue] at h, ?_⟩
    intro _ limit s t hl hpos h
    simp only [runOp, runBitRun, Exec.bind_eq_ok, Prod.exists] at h
    obtain ⟨_, -, fs, map, -, h⟩ := h
    cases h
    exact takes_add _ _
  flags prim be items rest restMask c := by
    have h : ValueTakes H buf (.flags prim be items rest restMask c) := by
      intro _ limit cur v next hl hpos h
      simp only [opValue, doFlags, setFlags_value, mapSet_value, Exec.bind_ok, Exec.bind_eq_ok] at h
      obtain ⟨_, -, bytes, -, h⟩ := h
      cases rest with
      | keep => cases h; exact takes_add _ _
      | ignore => cases h; exact takes_add _ _
      | strict =>
        simp only at h
        split_ifs at h
        · simp [invalid] at h
        · cases h
          exact takes_add _ _
    exact ⟨h, fieldTakes_of_value rfl h⟩
  digest algo overs verify be c := by
    refine ⟨fun _ _ _ _ _ _ _ h => by simp [opValue] at h, ?_⟩
    intro _ limit s t hl hpos h
    simp only [runOp, runDigest, insert_value, Exec.bind_ok, Exec.bind_eq_ok] at h
    obtain ⟨_, -, raw, -, key, -, fs, -, h⟩ := h
    cases h
    exact takes_add _ _
  nest prog size c hp := ⟨takes_nest hp, fieldTakes_of_value rfl (takes_nest hp)⟩
  array count maxCount elem elemMin c he :=
    ⟨takes_array he.1, fieldTakes_of_value rfl (takes_array he.1)⟩
  switch on cases default c hc hd := by
    have h := takes_switch on c (fun b hb => (hc b hb).1) fun o ho => (hd o ho).1
    exact ⟨h, fieldTakes_of_value rfl h⟩
  cond pred thn c ht := by
    refine ⟨fun _ _ _ _ _ _ _ h => by simp [opValue] at h, ?_⟩
    intro _ limit s t hl hpos h
    have hon := runOp_advances H buf _ _ _ _ h
    exact ⟨by simpa [opMin] using hon.1, by simp [opStatic]⟩
  prog ops nregs nspans minSize staticSize ho := takes_body fun op h => (ho op h).2

end Unpack

/-- The vector grown by the fixed run at hand has a length. Those that a bit run, a flags field and a digest grow by are
small. -/
def PSite.GrowFits : PSite → Prop
  | .value (.fixed width _) _ ctx | .rest (.fixed width _ :: _) _ ctx => ctx.out.length + width < usizeSize
  | _ => True

section Pack

variable (H : Hashes)

/-- What `sem` appends takes these sizes, and the output stays a vector. -/
def Adds (least : Nat) (static : Option Nat) (ctx next : PCtx) : Prop :=
  Takes least static ctx.out.length next.out.length ∧ next.out.length ≤ isizeMax

def ValueAdds (op : Op) : Prop :=
  op.Every Op.sized → ∀ v ctx next, ctx.out.length ≤ isizeMax → PAlways H PSite.GrowFits (.value op v ctx) →
    packValue H op v ctx = .ok next → Adds (opMin op) (opStatic op) ctx next

def FieldAdds (op : Op) : Prop :=
  op.Every Op.sized → ∀ ops view ctx next, ctx.out.length ≤ isizeMax →
    PAlways H PSite.GrowFits (.rest (op :: ops) view ctx) → packOp H op view ctx = .ok next →
      Adds (opMin op) (opStatic op) ctx next

def BodyAdds (prog : Program) : Prop :=
  prog.Sized → ∀ v ctx next, ctx.out.length ≤ isizeMax → PAlways H PSite.GrowFits (.body prog v ctx) →
    packStruct H prog v ctx = .ok next → Adds prog.minSize prog.staticSize ctx next

variable {H}

lemma Adds.of_length {n : Nat} {ctx next : PCtx} (h : next.out.length = ctx.out.length + n)
    (hle : next.out.length ≤ isizeMax) : Adds n (some n) ctx next :=
  ⟨h ▸ takes_add _ n, hle⟩

lemma packField_adds {c : Common} {sem : PSem} {view : FieldIndex} {ctx next : PCtx} {least : Nat}
    {static : Option Nat} (hs : ∀ v mid, lookup view c.key = some v → sem v ctx = .ok mid → Adds least static ctx mid)
    (h : packField c sem view ctx = .ok next) : Adds least static ctx next := by
  obtain ⟨v, mid, hv, hm, h⟩ := packField_ok h
  have hadds := hs v mid hv hm
  unfold Adds at hadds ⊢
  rwa [setSpan_out h]

lemma fieldAdds_of_value {op : Op} (hv : op.isValue) (h : ValueAdds H op) : FieldAdds H op := by
  intro hs ops view ctx next hlen hk hp
  obtain ⟨c, hc, hrun⟩ := packOp_of_isValue H hv
  rw [hrun] at hp
  exact packField_adds (fun v mid hentry => h hs v ctx mid hlen (hk.step (.field hv hc hentry))) hp

/-- Growing a vector by the width of the op does not wrap. -/
def Op.sizeFits : Op → Prop
  | .fixed width _ => isizeMax + width < usizeSize
  | _ => True

instance : DecidablePred Op.sizeFits
  | .fixed width _ => Nat.decLt (isizeMax + width) usizeSize
  | .bytes .. | .str .. | .cstr .. | .bitRun .. | .flags .. | .digest .. | .nest .. | .array ..
  | .switch .. | .cond .. => .isTrue trivial

/-- Where it does not for any op, it does not in any run. -/
lemma grows_of_sizeFits {s : PSite} (hs : s.Every Op.sizeFits) (hlen : s.ctx.out.length ≤ isizeMax) :
    PAlways H PSite.GrowFits s := by
  intro t ht
  obtain ⟨hfit, hlen⟩ : t.Every Op.sizeFits ∧ t.ctx.out.length ≤ isizeMax := by
    induction ht with
    | refl => exact ⟨hs, hlen⟩
    | tail _ hst ih => exact ⟨hst.every ih.1, hst.small ih.2⟩
  cases t with
  | value op v ctx =>
    cases op with
    | fixed width items => exact Nat.lt_of_le_of_lt (Nat.add_le_add_right hlen width) hfit
    | _ => trivial
  | rest ops view ctx =>
    cases ops with
    | nil => trivial
    | cons op ops =>
      cases op with
      | fixed width items =>
        have hop : (Op.fixed width items).Every Op.sizeFits := hfit _ (by simp)
        exact Nat.lt_of_le_of_lt (Nat.add_le_add_right hlen width) hop
      | _ => trivial
  | _ => trivial

/-- The length of a part that is written by its length. -/
lemma adds_len {len : LenSrc} {ctx mid next : PCtx} {n : Nat}
    (hmid : mid.out.length = ctx.out.length + n) (hle : mid.out.length ≤ isizeMax)
    (h : mid.finishLen len n = .ok next) : Adds ((lenConst len).getD 0) (lenConst len) ctx next := by
  have hout := finishLen_length h
  refine ⟨?_, hout ▸ hle⟩
  rw [hout, hmid]
  cases hc : lenConst len with
  | none => exact ⟨by simp, by simp⟩
  | some s =>
    obtain ⟨expr, k, rfl, hk, rfl⟩ := lenConst_eq_some hc
    have hn := finishLen_const hk h
    have hs : asU64 k = n := by
      rw [asU64_toNat (by omega) (by omega)]
      omega
    rw [hs]
    exact takes_add _ n

lemma packChunk_adds {len : LenSrc} {max : Nat} {b : Bytes} {ctx next : PCtx}
    (h : packChunk len max b ctx = .ok next) : Adds ((lenConst len).getD 0) (lenConst len) ctx next := by
  unfold packChunk at h
  split_ifs at h
  · simp [refuse] at h
  · obtain ⟨out, ho, h⟩ := Exec.bind_eq_ok.mp h
    obtain ⟨hlen, hle⟩ := extend_length ho
    exact adds_len (show ({ ctx with out } : PCtx).out.length = _ from hlen) hle h

lemma packNest_adds {prog : Program} {size : Option LenSrc} {c : Common} (hp : BodyAdds H prog) :
    ValueAdds H (.nest prog size c) := by
  intro hs v ctx next hlen hk h
  have hsized := nest_sized hs
  rw [packValue] at h
  obtain ⟨mid, hm, h⟩ := Exec.bind_eq_ok.mp h
  have hbody := hp hsized v ctx mid hlen (hk.step .nest) hm
  have hge := hbody.1.least_le
  match size with
  | none =>
    cases h
    exact hbody
  | some .greedy =>
    obtain ⟨sz, -, h⟩ := Exec.bind_eq_ok.mp h
    cases h
    exact ⟨⟨hge, by simp [opStatic]⟩, hbody.2⟩
  | some (.expr expr inv) =>
    obtain ⟨sz, hsz, h⟩ := Exec.bind_eq_ok.mp h
    obtain ⟨-, rfl⟩ := checkedSub_eq_ok.mp hsz
    have hout := finishLen_length h
    refine ⟨?_, hout ▸ hbody.2⟩
    rw [hout]
    cases inv with
    | some inv => exact ⟨hge, by simp [opStatic]⟩
    | none =>
      cases hk : expr.asConst with
      | none => exact ⟨by simpa [opMin, hk] using hge, by simp [opStatic, hk]⟩
      | some k =>
        have hn := finishLen_const hk h
        have hle := hbody.2
        have hsize : asU64 k = mid.out.length - ctx.out.length := by
          rw [asU64_toNat (by omega) (by omega)]
          omega
        have hmid : mid.out.length = ctx.out.length + asU64 k := by omega
        simp only [opMin, opStatic, hk, Option.map_some, Option.getD_some]
        rw [hmid]
        exact takes_add _ _

lemma packElems_adds {elem : Op} (he : ValueAdds H elem) (hs : elem.Every Op.sized) {l : List Value} {i : Nat}
    {ctx next : PCtx} (hlen : ctx.out.length ≤ isizeMax) (hk : PAlways H PSite.GrowFits (.elems elem l ctx))
    (h : packElems (packValue H elem) l i ctx = .ok next) :
    Adds (l.length * opMin elem) ((opStatic elem).map (l.length * ·)) ctx next := by
  induction l generalizing i ctx with
  | nil =>
    cases h
    exact ⟨⟨by simp, by simp⟩, hlen⟩
  | cons v l ih =>
    obtain ⟨mid, hm, h⟩ := Exec.bind_eq_ok.mp h
    have hm := Exec.mapErr_eq_ok.mp hm
    have hfirst := he hs v ctx mid hlen (hk.step .element) hm
    have hrest := ih hfirst.2 (hk.step (.another hm)) h
    exact ⟨takes_mul hfirst.1 hrest.1, hrest.2⟩

lemma packArray_adds {elem : Op} {count : CountSrc} {maxCount elemMin : Nat} {c : Common}
    (he : ValueAdds H elem) : ValueAdds H (.array count maxCount elem elemMin c) := by
  intro hs v ctx next hlen hk h
  obtain rfl : elemMin = opMin elem := hs.1
  rw [packValue, packArray] at h
  split at h
  · simp [refuse] at h
  · rename_i list hlist
    obtain ⟨mid, hm, h⟩ := Exec.bind_eq_ok.mp h
    have hloop := packElems_adds he hs.2 hlen (hk.step (.list hlist)) hm
    have hge := hloop.1.least_le
    cases count with
    | untilEof =>
      cases h
      refine ⟨⟨?_, by simp [opStatic]⟩, hloop.2⟩
      simp only [opMin]
      omega
    | expr expr inv =>
      have hout := finishLen_length h
      refine ⟨?_, hout ▸ hloop.2⟩
      rw [hout]
      refine takes_count rfl hloop.2 (fun hinv k hconst => ?_) hloop.1
      subst hinv
      have hn := finishLen_const hconst h
      omega

lemma packSwitch_adds (on : Expr) {cases : List (Int × Op)} {default : Option Op} (c : Common)
    (hc : ∀ branch ∈ cases, ValueAdds H branch.2) (hd : ∀ op ∈ default, ValueAdds H op) :
    ValueAdds H (.switch on cases default c) := by
  intro hs v ctx next hlen hk h
  rw [packValue_switch] at h
  obtain ⟨tag, htag, h⟩ := Exec.bind_eq_ok.mp h
  cases hp : pickCase cases default tag with
  | none => simp [hp, refuse] at h
  | some op =>
    simp only [hp, Option.map_some] at h
    have hmem := pickCase_mem hp
    have hk := hk.step (.branch htag hp)
    suffices hop : Adds (opMin op) (opStatic op) ctx next from ⟨takes_branch hmem hop.1, hop.2⟩
    obtain ⟨branch, hm, rfl⟩ | ho := hmem
    · exact hc branch hm (casesEvery_iff.mp hs.2.1 branch hm) v ctx next hlen hk h
    · exact hd op ho (defaultEvery_iff.mp hs.2.2 op ho) v ctx next hlen hk h

lemma packOps_adds {ops : List Op} (hop : ∀ op ∈ ops, FieldAdds H op)
    (hs : ∀ op ∈ ops, op.Every Op.sized) {start least : Nat} {acc : Option Nat} {view : FieldIndex} {ctx next : PCtx}
    (hlen : ctx.out.length ≤ isizeMax) (hk : PAlways H PSite.GrowFits (.rest ops view ctx))
    (hacc : Takes least acc start ctx.out.length) (h : packOps H ops view ctx = .ok next) :
    Takes (ops.foldl (fun acc op => satAdd acc (opMin op)) least) (ops.foldl staticNext acc) start
      next.out.length ∧ next.out.length ≤ isizeMax := by
  induction ops generalizing ctx least acc with
  | nil =>
    cases h
    exact ⟨hacc, hlen⟩
  | cons op ops ih =>
    obtain ⟨mid, hm, h⟩ := Exec.bind_eq_ok.mp h
    obtain ⟨hfirst, hmid⟩ := hop op (by simp) (hs op (by simp)) ops view ctx mid hlen hk hm
    exact ih (fun o ho => hop o (by simp [ho])) (fun o ho => hs o (by simp [ho])) hmid (hk.step (.next hm))
      (hacc.next hfirst hmid) h

lemma packBody_adds {ops : List Op} {nregs nspans minSize : Nat} {staticSize : Option Nat}
    (hop : ∀ op ∈ ops, FieldAdds H op) : BodyAdds H (.mk ops nregs nspans minSize staticSize) := by
  intro hs v ctx next hlen hk h
  rw [packStruct] at h
  unfold withPFrame at h
  split at h
  · simp [refuse] at h
  · rename_i view hview
    obtain ⟨mid, hm, h⟩ := Exec.bind_eq_ok.mp h
    have hinner : ({ ctx with frames := .new :: ctx.frames } : PCtx).out.length ≤ isizeMax := hlen
    have hops := packOps_adds hop (opsEvery_iff.mp hs.every) hinner (hk.step (.enter hview))
      (takes_zero ctx.out.length) hm
    split at h
    · simp at h
    · obtain ⟨out, ho, h⟩ := Exec.bind_eq_ok.mp h
      cases h
      unfold Adds
      rw [fillDigests_length ho, hs.minSize, hs.staticSize]
      exact hops

lemma adds_cases : OpCases (fun op => ValueAdds H op ∧ FieldAdds H op) (BodyAdds H) where
  fixed width items := by
    constructor
    · intro _ v ctx next _ hk h
      simp only [packValue, packFixed1, Exec.bind_eq_ok] at h
      obtain ⟨mid, hm, item, -, h⟩ := h
      obtain ⟨hgrow, hle⟩ := grow_length hk.here hm
      rw [← packFixedItem_length h] at hgrow hle
      exact .of_length hgrow hle
    · intro _ ops view ctx next _ hk h
      simp only [packOp, packFixedRun, Exec.bind_eq_ok] at h
      obtain ⟨mid, hm, h⟩ := h
      obtain ⟨hgrow, hle⟩ := grow_length hk.here hm
      rw [← packFixedItems_length h] at hgrow hle
      exact .of_length hgrow hle
  bytes len max c := by
    have h : ValueAdds H (.bytes len max c) := by
      intro _ v ctx next _ _ h
      rw [packValue, packBytes] at h
      split at h
      · simp [refuse] at h
      · exact packChunk_adds h
    exact ⟨h, fieldAdds_of_value rfl h⟩
  str len max enc c := by
    have h : ValueAdds H (.str len max enc c) := by
      intro _ v ctx next _ _ h
      rw [packValue, packStr] at h
      obtain ⟨b, -, h⟩ := Exec.bind_eq_ok.mp h
      exact packChunk_adds h
    exact ⟨h, fieldAdds_of_value rfl h⟩
  cstr max enc c := by
    have h : ValueAdds H (.cstr max enc c) := by
      intro _ v ctx next _ _ h
      rw [packValue, packCstr] at h
      obtain ⟨b, -, h⟩ := Exec.bind_eq_ok.mp h
      split_ifs at h
      · simp [refuse] at h
      · simp [refuse] at h
      · obtain ⟨out, ho, h⟩ := Exec.bind_eq_ok.mp h
        cases h
        obtain ⟨hlen, hle⟩ := extend_length ho
        simp only [List.length_append, List.length_singleton] at hlen
        exact ⟨⟨by simp only [opMin]; omega, by simp [opStatic]⟩, hle⟩
    exact ⟨h, fieldAdds_of_value rfl h⟩
  bitRun nbytes items := by
    refine ⟨fun _ _ _ _ _ _ h => by simp [packValue] at h, ?_⟩
    intro hs ops view ctx next hlen _ h
    simp only [packOp, packBitRun, Exec.bind_eq_ok] at h
    obtain ⟨mid, hm, h⟩ := h
    have hfit : ctx.out.length + nbytes < usizeSize := by
      have hmax : isizeMax + u32Size < usizeSize := by decide
      have hbytes : nbytes < u32Size := hs
      omega
    obtain ⟨hgrow, hle⟩ := grow_length hfit hm
    rw [← packBitItems_length h] at hgrow hle
    exact .of_length hgrow hle
  flags prim be items rest restMask c := by
    have h : ValueAdds H (.flags prim be items rest restMask c) := by
      intro _ v ctx next hlen _ h
      rw [packValue, packFlags] at h
      split at h
      · simp [refuse] at h
      · split_ifs at h
        · simp only [Exec.bind_eq_ok] at h
          obtain ⟨raw, -, restBits, -, mid, hm, out, ho, h⟩ := h
          cases h
          have hfit : ctx.out.length + prim.width < usizeSize := by
            have hmax : isizeMax + 8 < usizeSize := by decide
            have hwidth : prim.width ≤ 8 := by cases prim <;> decide
            omega
          obtain ⟨hgrow, hle⟩ := grow_length hfit hm
          rw [← copyAt_length ho] at hgrow hle
          exact .of_length (show ({ mid with out } : PCtx).out.length = _ from hgrow) hle
        · simp [refuse] at h
    exact ⟨h, fieldAdds_of_value rfl h⟩
  digest algo overs verify be c := by
    refine ⟨fun _ _ _ _ _ _ h => by simp [packValue] at h, ?_⟩
    intro hs ops view ctx next hlen _ h
    simp only [packOp, packDigest, Exec.bind_eq_ok] at h
    obtain ⟨mid, hm, grown, hg, key, -, h⟩ := h
    have hfit : ctx.out.length + algo.widthBytes < usizeSize := by
      have hmax : isizeMax + 32 < usizeSize := by decide
      have hwidth : algo.widthBytes ≤ 32 := hs
      omega
    obtain ⟨hgrow, hle⟩ := grow_length hfit hm
    rw [← setSpan_out hg, ← updateTop_out h] at hgrow hle
    exact .of_length hgrow hle
  nest prog size c hp := ⟨packNest_adds hp, fieldAdds_of_value rfl (packNest_adds hp)⟩
  array count maxCount elem elemMin c he :=
    ⟨packArray_adds he.1, fieldAdds_of_value rfl (packArray_adds he.1)⟩
  switch on cases default c hc hd := by
    have h := packSwitch_adds on c (fun b hb => (hc b hb).1) fun o ho => (hd o ho).1
    exact ⟨h, fieldAdds_of_value rfl h⟩
  cond pred thn c ht := by
    refine ⟨fun _ _ _ _ _ _ h => by simp [packValue] at h, ?_⟩
    intro hs ops view ctx next hlen hk h
    rw [packOp, packCond] at h
    obtain ⟨p, hp, h⟩ := Exec.bind_eq_ok.mp h
    have hsome : Adds 0 none ctx next := by
      split_ifs at h with h₀
      · refine packField_adds (fun v mid hentry hm => ?_) h
        have hthn := ht.1 hs.2 v ctx mid hlen (hk.step (.present hp h₀ hentry)) hm
        exact ⟨⟨by have := hthn.1.least_le; omega, by simp⟩, hthn.2⟩
      · cases h
        exact ⟨⟨by simp, by simp⟩, hlen⟩
    exact ⟨⟨by simpa [opMin] using hsome.1.least_le, by simp [opStatic]⟩, hsome.2⟩
  prog ops nregs nspans minSize staticSize ho := packBody_adds fun op h => (ho op h).2

end Pack

section Elements

variable (H : Hashes)

/-- A decoded element of the array takes at least the stored minimum. -/
def Op.elemsTake : Op → Prop
  | .array _ _ elem elemMin _ => ∀ (buf : Buffer) (limit : Nat) (cur next : Cur) (v : Value),
      cur.pos ≤ limit → limit ≤ buf.bytes.length → opValue H buf.bytes elem limit cur = .ok (v, next) →
        cur.pos + elemMin ≤ next.pos
  | _ => True

variable {H}

lemma elems_cases : OpCases (fun op => op.Every Op.sized → op.Every (Op.elemsTake H))
    (fun prog => prog.Every Op.sized → prog.Every (Op.elemsTake H)) where
  fixed _ _ _ := trivial
  bytes _ _ _ _ := trivial
  str _ _ _ _ _ := trivial
  cstr _ _ _ _ := trivial
  bitRun _ _ _ := trivial
  flags _ _ _ _ _ _ _ := trivial
  digest _ _ _ _ _ _ := trivial
  nest prog size c hp hs := ⟨trivial, hp hs.2⟩
  array count maxCount elem elemMin c he hs := by
    refine ⟨fun buf limit cur next v hpos hl hv => ?_, he hs.2⟩
    obtain rfl : elemMin = opMin elem := hs.1
    exact ((takes_cases.op elem).1 hs.2 limit cur v next (Nat.le_trans hl buf.small) hpos hv).least_le
  switch on cases default c hc hd hs := by
    refine ⟨trivial, casesEvery_iff.mpr fun branch hm => ?_, defaultEvery_iff.mpr fun op ho => ?_⟩
    · exact hc branch hm (casesEvery_iff.mp hs.2.1 branch hm)
    · exact hd op ho (defaultEvery_iff.mp hs.2.2 op ho)
  cond pred thn c ht hs := ⟨trivial, ht hs.2⟩
  prog ops nregs nspans minSize staticSize ho hs :=
    opsEvery_iff.mpr fun op hm => ho op hm (opsEvery_iff.mp hs op hm)

/-- The published sizes are those of every run: what unpack consumes, what pack writes where growing its output does
not wrap, and the elements of every array. -/
theorem compile_sizes {fields : List FieldIn} {opts : Options} {prog : Program}
    (h : compile fields opts = .ok prog) (H : Hashes) :
    (∀ buf offset exact stream v pos, unpackRun H prog buf offset exact stream = .ok v pos →
      Takes prog.minSize prog.staticSize (min offset buf.bytes.length) pos) ∧
    (∀ v out, PAlways H PSite.GrowFits (rootPSite prog v) → packRun H prog v = .ok out →
      Takes prog.minSize prog.staticSize 0 out.length) ∧
    prog.Every (Op.elemsTake H) := by
  have hs := compile_sized h
  refine ⟨fun buf offset exact stream v pos hrun => ?_, fun v out hk hrun => ?_,
    elems_cases.program prog hs.every⟩
  · unfold unpackRun at hrun
    simp only at hrun
    split at hrun
    · rename_i value cur hbody
      split_ifs at hrun
      cases hrun
      exact takes_cases.program prog hs _ _ _ _ buf.small (Nat.min_le_right _ _) hbody
    · split_ifs at hrun
    · cases hrun
    · cases hrun
  · unfold packRun at hrun
    split at hrun
    · rename_i ctx hbody
      cases hrun
      exact (adds_cases.program prog hs v _ ctx (Nat.zero_le _) hk hbody).1
    · cases hrun
    · cases hrun

/-- A byte and two numbers of two bytes. -/
def pairFields : List FieldIn :=
  [.named "kind" (.int .u8 none none), .named "pair" (.array (.int .u16 none none) (some (.imm 2)) false)]

/-- The array takes four bytes, so the program takes five. -/
theorem compile_sizes_pair : ∃ prog, compile pairFields {} = .ok prog ∧ prog.staticSize = some 5 ∧
    (∀ buf v pos, unpackRun .blank prog buf 0 false false = .ok v pos → pos = 5) ∧
    ∀ v out, packRun .blank prog v = .ok out → out.length = 5 := by
  have hc : Exec.returns (compile pairFields {}) fun prog =>
      prog.Every Op.sizeFits ∧ prog.staticSize = some 5 := by decide +kernel
  obtain ⟨prog, hp, hfit⟩ := Exec.returns_iff.mp hc
  obtain ⟨hfit, hstatic⟩ := of_decide_eq_true hfit
  have h := compile_sizes hp .blank
  refine ⟨prog, hp, hstatic, fun buf v pos hrun => ?_, fun v out hrun => ?_⟩
  · simpa using (h.1 buf 0 false false v pos hrun).exact 5 hstatic
  · simpa using (h.2.1 v out (grows_of_sizeFits (s := rootPSite prog v) hfit (Nat.zero_le _)) hrun).exact 5 hstatic

/-- A byte, and a struct with nothing but as many bytes as a `usize` counts if it is not zero. -/
def gapFields : List FieldIn :=
  [.named "k" (.int .u8 none none),
    .named "c" (.cond (.ref "k") (.struct [.anon (.raw (some (2 ^ 64 - 1)) none)] none none))]

/-- The output grows by `2 ^ 64 - 1` bytes to none. -/
theorem gapFields_short : ∃ prog, compile gapFields {} = .ok prog ∧ prog.minSize = 1 ∧
    packRun .blank prog (.map [("k", .int 1), ("c", .map [])]) = .ok [] := by
  have hc : Exec.returns (compile gapFields {}) fun prog =>
      decide (prog.minSize = 1) && decide (packRun .blank prog (.map [("k", .int 1), ("c", .map [])]) = .ok []) := by
    decide +kernel
  obtain ⟨prog, hp, h⟩ := Exec.returns_iff.mp hc
  rw [Bool.and_eq_true] at h
  exact ⟨prog, hp, of_decide_eq_true h.1, of_decide_eq_true h.2⟩

end Elements

end Rustruct

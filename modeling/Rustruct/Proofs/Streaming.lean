import Rustruct.Proofs.Position
import Rustruct.Proofs.Readers
import Mathlib.Data.List.Infix

/-!
# Streaming verdicts

A run on a buffer and a run on a longer one that starts with it. What the first run
returns or refuses is final, and what it asks for is at least one byte and no more than any
accepted extension takes.
-/

namespace Rustruct

def LenSrc.sealed : LenSrc → Prop
  | .greedy => False
  | .expr _ _ => True

def CountSrc.sealed : CountSrc → Prop
  | .untilEof => False
  | .expr _ _ => True

mutual

/-- Every greedy length and every `until_eof` array lies inside some sized struct. -/
def Op.sealed : Op → Prop
  | .bytes len _ _ | .str len _ _ _ => len.sealed
  | .nest prog size _ => size.isSome ∨ prog.sealed
  | .array count _ elem _ _ => count.sealed ∧ elem.sealed
  | .switch _ cases default _ => casesSealed cases ∧ defaultSealed default
  | .cond _ thn _ => thn.sealed
  | _ => True

def casesSealed : List (Int × Op) → Prop
  | [] => True
  | (_, op) :: cases => op.sealed ∧ casesSealed cases

def defaultSealed : Option Op → Prop
  | none => True
  | some op => op.sealed

def Program.sealed : Program → Prop
  | .mk ops _ _ _ _ => opsSealed ops

def opsSealed : List Op → Prop
  | [] => True
  | op :: ops => op.sealed ∧ opsSealed ops

end

variable {α β : Type}

/-- The first run, on a buffer of `m` bytes, settles the second: what it returns or refuses
stands, and when it runs short the second can only end past what was asked for. -/
def Settles (m : Nat) (pos : α → Nat) (x y : URes α) : Prop :=
  match x with
  | .ok a => y = .ok a
  | .error (.err (.invalid inv)) => y = Exec.fail (.invalid inv)
  | .error (.err (.incomplete needed)) => 0 < needed ∧ ∀ a, y = .ok a → m + needed ≤ pos a
  | .error .panic => True

section Rules

variable {m : Nat} {pos : α → Nat} {pos' : β → Nat} {x y : URes α}

@[simp] lemma settles_ok (a : α) : Settles m pos (.ok a) y ↔ y = .ok a := Iff.rfl

@[simp] lemma settles_panic : Settles m pos Exec.panic y := trivial

@[simp] lemma settles_invalid (inv : Invalid) :
    Settles m pos (Exec.fail (.invalid inv)) y ↔ y = Exec.fail (.invalid inv) := Iff.rfl

@[simp] lemma settles_incomplete (needed : Nat) :
    Settles m pos (Exec.fail (.incomplete needed)) y ↔
      0 < needed ∧ ∀ a, y = .ok a → m + needed ≤ pos a := Iff.rfl

lemma OrPanic.settles (h : OrPanic x y) (hx : Steady x) : Settles m pos x y := by
  obtain rfl | rfl := h
  · exact settles_panic
  · cases y using Exec.cases_on with
    | ok a => simp
    | panic => simp
    | fail e =>
      cases e with
      | incomplete needed => exact absurd rfl (hx needed)
      | invalid inv => simp

/-- `g` may only go forward from where the second run stands. -/
lemma Settles.bind {f g : α → URes β} {p : α → Nat} (hxy : Settles m p x y)
    (hfg : ∀ a, x = .ok a → Settles m pos' (f a) (g a))
    (hg : ∀ a b, g a = .ok b → p a ≤ pos' b) : Settles m pos' (x >>= f) (y >>= g) := by
  cases x using Exec.cases_on with
  | ok a =>
    rw [settles_ok] at hxy
    subst hxy
    exact hfg a rfl
  | panic => simp
  | fail e =>
    cases e with
    | invalid inv =>
      rw [settles_invalid] at hxy
      subst hxy
      simp
    | incomplete needed =>
      obtain ⟨hn, hlate⟩ := hxy
      refine ⟨hn, fun b hb => ?_⟩
      obtain ⟨a, ha, hab⟩ := Exec.bind_eq_ok.mp hb
      exact Nat.le_trans (hlate a ha) (hg a b hab)

lemma Settles.mapErr {f : UFail → UFail} (hxy : Settles m pos x y)
    (hinc : ∀ needed, f (.incomplete needed) = .incomplete needed)
    (hinv : ∀ inv, ∃ inv', f (.invalid inv) = .invalid inv') :
    Settles m pos (Exec.mapErr f x) (Exec.mapErr f y) := by
  cases x using Exec.cases_on with
  | ok a =>
    rw [settles_ok] at hxy
    subst hxy
    simp
  | panic => simp
  | fail e =>
    cases e with
    | invalid inv =>
      rw [settles_invalid] at hxy
      subst hxy
      obtain ⟨inv', h⟩ := hinv inv
      simp [h]
    | incomplete needed =>
      obtain ⟨hn, hlate⟩ := hxy
      rw [Exec.mapErr_fail, hinc]
      exact ⟨hn, fun a ha => hlate a (Exec.mapErr_eq_ok.mp ha)⟩

lemma Settles.pushKey (hxy : Settles m pos x y) (key : Key) :
    Settles m pos (Exec.mapErr (pushKey key) x) (Exec.mapErr (pushKey key) y) := by
  apply hxy.mapErr
  · intro needed
    unfold Rustruct.pushKey
    split <;> rfl
  · intro inv
    unfold Rustruct.pushKey
    split
    · exact ⟨_, rfl⟩
    · exact ⟨inv, rfl⟩

lemma Settles.seg (hxy : Settles m pos x y) (seg : Seg) :
    Settles m pos (Exec.mapErr (fun e => e.seg seg) x) (Exec.mapErr (fun e => e.seg seg) y) :=
  hxy.mapErr (fun _ => rfl) fun _ => ⟨_, rfl⟩

end Rules

/-- Where a value ends. -/
def valuePos (r : Value × Cur) : Nat := r.2.pos

/-- Where a scope stands. -/
def scanPos (s : Scan) : Nat := s.cur.pos

section TwoRuns

variable {b x : Bytes}

/-- The limits of the two runs: the ends of the buffers, for what is sealed, or the end of
one window. -/
def Limits (b x : Bytes) (closed : Prop) (l l' : Nat) : Prop :=
  (l = b.length ∧ l' = x.length ∧ closed) ∨ (l = l' ∧ l ≤ b.length)

lemma Limits.mono {p q : Prop} (hpq : p → q) {l l' : Nat} (h : Limits b x p l l') :
    Limits b x q l l' := by
  obtain ⟨hl, hl', hp⟩ | h := h
  · exact .inl ⟨hl, hl', hpq hp⟩
  · exact .inr h

lemma Limits.le {p : Prop} {l l' : Nat} (hx : b <+: x) (h : Limits b x p l l') : l ≤ l' := by
  have := hx.length_le
  unfold Limits at h
  omega

/-- A window inside the first run's limit. -/
lemma Limits.window {p : Prop} {l l' w : Nat} (h : Limits b x p l l') (hw : w ≤ l) (q : Prop) :
    Limits b x q w w := by
  unfold Limits at h ⊢
  omega

def SettledSem (b x : Bytes) (closed : Prop) (sem sem' : Sem) : Prop :=
  ∀ l l', Limits b x closed l l' → ∀ cur, Settles b.length valuePos (sem l cur) (sem' l' cur)

def SettledScan (b x : Bytes) (closed : Prop) (body body' : Nat → Scan → URes Scan) : Prop :=
  ∀ l l', Limits b x closed l l' → ∀ s, Settles b.length scanPos (body l s) (body' l' s)

variable (hx : b <+: x)

include hx

/-- A bounds check that runs short asks for no more than it needs. -/
lemma need_settles {p : Prop} {l l' : Nat} (hl : Limits b x p l l') (pos n : Nat) :
    Settles b.length (fun _ => pos + n) (need b pos l n) (need x pos l' n) := by
  have hlen := hx.length_le
  have hle := hl.le hx
  rw [need_eq, need_eq]
  by_cases h : pos + n ≤ l
  · rw [if_pos h, if_pos (by omega)]
    simp
  · rw [if_neg h]
    by_cases hb : l = b.length
    · rw [if_pos hb]
      by_cases hsmall : pos + n < usizeSize
      · rw [if_pos hsmall]
        exact ⟨by omega, fun _ _ => by show _ ≤ pos + n; omega⟩
      · rw [if_neg hsmall]
        trivial
    · have h' : ¬ pos + n ≤ l' := by
        unfold Limits at hl
        omega
      have hx' : l' ≠ x.length := by
        unfold Limits at hl
        omega
      rw [if_neg hb, if_neg h', if_neg hx']
      simp [invalid]

/-- A bounds check and what is done with the bytes it finds. -/
lemma settles_need {pos' : β → Nat} {p : Prop} {l l' : Nat} (hl : Limits b x p l l') (pos n : Nat)
    {f g : Unit → URes β} (hfg : OrPanic (f ()) (g ())) (hf : Steady (f ()))
    (hg : ∀ a, g () = .ok a → pos + n ≤ pos' a) :
    Settles b.length pos' (need b pos l n >>= f) (need x pos l' n >>= g) :=
  (need_settles hx hl pos n).bind (fun _ _ => hfg.settles hf) fun _ => hg

omit hx in
/-- The length of a sealed field, or of one in a window, is the same in both runs. -/
lemma resolveLen_eq {len : LenSrc} {l l' : Nat} (hl : Limits b x len.sealed l l') (fs : Frames)
    (max pos : Nat) : resolveLen fs len max pos l' = resolveLen fs len max pos l := by
  cases len with
  | expr expr inv => rfl
  | greedy =>
    obtain ⟨-, -, h⟩ | ⟨rfl, -⟩ := hl
    · exact h.elim
    · rfl

/-- A value whose length is known before its bytes are checked for. -/
lemma settles_sized {len : LenSrc} {l l' : Nat} (hl : Limits b x len.sealed l l') (fs : Frames)
    (max pos : Nat) (f g : Nat → URes (Value × Cur)) (hfg : ∀ n, OrPanic (f n) (g n))
    (hf : ∀ n, Steady (f n)) (hg : ∀ n r, g n = .ok r → pos + n ≤ valuePos r) :
    Settles b.length valuePos
      (resolveLen fs len max pos l >>= fun n => need b pos l n >>= fun _ => f n)
      (resolveLen fs len max pos l' >>= fun n => need x pos l' n >>= fun _ => g n) := by
  rw [resolveLen_eq hl]
  refine Settles.bind (p := fun _ => 0)
    ((OrPanic.refl _).settles (steady_resolveLen _ _ _ _ _)) ?_ fun _ _ _ => Nat.zero_le _
  exact fun n _ => settles_need hx hl pos n (hfg n) (hf n) (hg n)

lemma doFixed_settles (width : Nat) (items : List FixedItem) (p : Prop) :
    SettledSem b x p (doFixed b width items) (doFixed x width items) := by
  intro l l' hl cur
  refine settles_need hx hl cur.pos width ?_ ?_ ?_
  · exact (OrPanic.refl _).bind fun item => (readFixedItem_orPanic hx item _ _).bind fun _ => .refl _
  · exact (steady_expect _).bind fun item =>
      (steady_readFixedItem _ item _ _).bind fun _ => by simp
  · intro r hr
    simp only [Exec.bind_eq_ok, Prod.exists] at hr
    obtain ⟨_, -, _, _, -, hr⟩ := hr
    cases hr
    exact Nat.le_refl _

lemma doBytes_settles (len : LenSrc) (max : Nat) :
    SettledSem b x len.sealed (doBytes b len max) (doBytes x len max) := by
  intro l l' hl cur
  refine settles_sized hx hl cur.fs max cur.pos _ _ ?_ ?_ ?_
  · exact fun n => (slice_orPanic hx _ _).bind fun _ => .refl _
  · exact fun n => (steady_slice _ _ _).bind fun _ => by simp
  · intro n r hr
    obtain ⟨raw, -, hr⟩ := Exec.bind_eq_ok.mp hr
    cases hr
    exact Nat.le_refl _

lemma doStr_settles (len : LenSrc) (max : Nat) (enc : Enc) :
    SettledSem b x len.sealed (doStr b len max enc) (doStr x len max enc) := by
  intro l l' hl cur
  refine settles_sized hx hl cur.fs max cur.pos _ _ ?_ ?_ ?_
  · exact fun n => (slice_orPanic hx _ _).bind fun _ => .refl _
  · refine fun n => (steady_slice _ _ _).bind fun raw => ?_
    split <;> simp
  · intro n r hr
    obtain ⟨raw, -, hr⟩ := Exec.bind_eq_ok.mp hr
    split at hr
    · cases hr
      exact Nat.le_refl _
    · simp [invalid] at hr

lemma doFlags_settles (prim : IntPrim) (be : Bool) (items : List FlagItem) (rest : RestPolicy)
    (restMask : U64) (p : Prop) :
    SettledSem b x p (doFlags b prim be items rest restMask)
      (doFlags x prim be items rest restMask) := by
  intro l l' hl cur
  refine settles_need hx hl cur.pos prim.width ?_ ?_ ?_
  · exact (slice_orPanic hx _ _).bind fun _ => .refl _
  · refine (steady_slice _ _ _).bind fun raw => ?_
    simp only [setFlags_value, Exec.bind_ok]
    cases rest with
    | keep => simp
    | ignore => simp
    | strict => simp only; split_ifs <;> simp
  · intro r hr
    obtain ⟨raw, -, hr⟩ := Exec.bind_eq_ok.mp hr
    simp only [setFlags_value, Exec.bind_ok] at hr
    cases rest with
    | keep => cases hr; exact Nat.le_refl _
    | ignore => cases hr; exact Nat.le_refl _
    | strict =>
      simp only at hr
      split_ifs at hr
      · simp [invalid] at hr
      · cases hr
        exact Nat.le_refl _

lemma runFixed_settles (width : Nat) (items : List FixedItem) (p : Prop) :
    SettledScan b x p (runFixed b width items) (runFixed x width items) := by
  intro l l' hl s
  refine settles_need hx hl s.cur.pos width ?_ ?_ ?_
  · exact (readFixedItems_orPanic hx _ _ _ _).bind fun _ => .refl _
  · exact (steady_readFixedItems _ _ _ _ _).bind fun _ => by simp
  · intro t ht
    simp only [Exec.bind_eq_ok, Prod.exists] at ht
    obtain ⟨_, _, -, ht⟩ := ht
    cases ht
    exact Nat.le_refl _

lemma runBitRun_settles (nbytes : Nat) (items : List BitItem) (p : Prop) :
    SettledScan b x p (runBitRun b nbytes items) (runBitRun x nbytes items) := by
  intro l l' hl s
  refine settles_need hx hl s.cur.pos nbytes ?_ ?_ ?_
  · exact (readBitItems_orPanic hx _ _ _ _ _).bind fun _ => .refl _
  · exact (steady_readBitItems _ _ _ _ _ _).bind fun _ => by simp
  · intro t ht
    simp only [Exec.bind_eq_ok, Prod.exists] at ht
    obtain ⟨_, _, -, ht⟩ := ht
    cases ht
    exact Nat.le_refl _

lemma runDigest_settles (algo : Algo) (overs : Over) (verify be : Bool) (c : Common) (p : Prop) :
    SettledScan b x p (runDigest b algo overs verify be c) (runDigest x algo overs verify be c) := by
  intro l l' hl s
  refine ((need_settles hx hl s.cur.pos algo.widthBytes).pushKey c.key).bind
    (fun _ _ => OrPanic.settles ?_ ?_) ?_
  · exact (slice_orPanic hx _ _).bind fun _ => .refl _
  · exact (steady_slice _ _ _).bind fun _ => (steady_expect _).bind fun _ =>
      (steady_setSpan _ _ _ _).bind fun _ => by simp
  · intro _ t ht
    simp only [insert_value, Exec.bind_ok, Exec.bind_eq_ok] at ht
    obtain ⟨raw, -, key, -, fs, -, ht⟩ := ht
    cases ht
    exact Nat.le_refl _

lemma cstrAt_settles (enc : Enc) (i : Nat) (cur : Cur) :
    Settles b.length valuePos (cstrAt b enc i cur) (cstrAt x enc i cur) := by
  apply OrPanic.settles
  · exact (slice_orPanic hx _ _).bind fun _ => .refl _
  · refine (steady_slice _ _ _).bind fun raw => ?_
    split <;> simp

/-- The scan for the terminator sees the same bytes as far as the first buffer goes. -/
lemma doCstr_settles (hsmall : x.length ≤ isizeMax) (max : Nat) (enc : Enc) (p : Prop) :
    SettledSem b x p (doCstr b max enc) (doCstr x max enc) := by
  intro l l' hl cur
  have hle := hl.le hx
  have hlen := hx.length_le
  have hlb : l ≤ b.length := by unfold Limits at hl; omega
  have hlx : l' ≤ x.length := by unfold Limits at hl; omega
  rcases Nat.lt_or_ge l cur.pos with hp | hp
  · rw [doCstr_of_lt max enc hp]
    simp
  rw [doCstr_eq max enc hp hlb, doCstr_eq max enc (by omega) hlx]
  set scan := min (l - cur.pos) (satAdd max 1) with hscan
  set scan' := min (l' - cur.pos) (satAdd max 1) with hscan'
  set seen := (b.drop cur.pos).take scan with hseen
  have hseenlen : seen.length = scan := by
    rw [hseen, List.length_take, List.length_drop]
    omega
  have hmorelen : ((x.drop cur.pos).take scan').length = scan' := by
    rw [List.length_take, List.length_drop]
    omega
  -- What the second run sees starts with what the first one sees.
  obtain ⟨more, hmore⟩ : seen <+: (x.drop cur.pos).take scan' :=
    ((List.IsPrefix.drop hx cur.pos).take scan).trans (List.take_prefix_take_left (by omega))
  rw [← hmore, List.length_append, hseenlen] at hmorelen
  rw [← hmore]
  unfold cstrEnd
  rw [List.findIdx?_append]
  cases hi : seen.findIdx? (fun c => c == 0) with
  | some i => exact cstrAt_settles hx enc i cur
  | none =>
    simp only [Option.none_or]
    have hsat : satAdd max 1 ≤ max + 1 := Nat.min_le_left _ _
    by_cases hw : l - cur.pos > max
    · -- Both scans stop at the same byte.
      obtain rfl : more = [] := List.length_eq_zero_iff.mp (by omega)
      rw [if_pos hw, if_pos (by omega)]
      simp [invalid]
    · rw [if_neg hw]
      by_cases hb : l = b.length
      · rw [if_pos hb]
        refine ⟨Nat.zero_lt_one, fun r hr => ?_⟩
        have hscanl : scan = l - cur.pos := by
          have := isizeMax_lt_usizeMax
          have := le_satAdd (a := max) (b := 1) (n := l - cur.pos) (by omega) (by omega)
          omega
        split at hr
        · rename_i j hj
          obtain ⟨k, -, rfl⟩ := Option.map_eq_some_iff.mp hj
          obtain ⟨v, next⟩ := r
          have := cstrAt_pos x hr
          simp only [valuePos]
          omega
        · split_ifs at hr <;> simp [invalid] at hr
      · have hll : l = l' := by unfold Limits at hl; omega
        obtain rfl : more = [] := List.length_eq_zero_iff.mp (by omega)
        rw [if_neg hb, if_neg (by omega), if_neg (by omega)]
        simp [invalid]

omit hx in
lemma SettledSem.mono {p q : Prop} {sem sem' : Sem} (h : SettledSem b x p sem sem') (hpq : q → p) :
    SettledSem b x q sem sem' :=
  fun l l' hl => h l l' (hl.mono hpq)

omit hx in
lemma runField_settles {p : Prop} {sem sem' : Sem} (h : SettledSem b x p sem sem') (c : Common) :
    SettledScan b x p (runField c sem) (runField c sem') := by
  intro l l' hl s
  refine ((h l l' hl s.cur).pushKey c.key).bind (fun r _ => ?_) ?_
  · exact (OrPanic.refl _).settles ((steady_setSpan _ _ _ _).bind fun _ => by simp)
  · intro r t ht
    obtain ⟨fs, -, ht⟩ := Exec.bind_eq_ok.mp ht
    rw [insert_value, Exec.bind_ok] at ht
    cases ht
    exact Nat.le_refl _

omit hx in
lemma runCond_settles {p : Prop} {sem sem' : Sem} (h : SettledSem b x p sem sem') (pred : Expr)
    (c : Common) : SettledScan b x p (runCond pred c sem) (runCond pred c sem') := by
  intro l l' hl s
  refine Settles.bind (p := fun _ => 0) ((OrPanic.refl _).settles (steady_eval _ _ _)) ?_
    fun _ _ _ => Nat.zero_le _
  intro v _
  split_ifs
  · exact runField_settles h c l l' hl s
  · simp

/-- `need` in both runs, for a window of the same size. -/
lemma settles_window {p : Prop} {l l' : Nat} (hl : Limits b x p l l') (pos n : Nat)
    {f g : URes (Value × Cur)} (hfg : pos + n ≤ l → Settles b.length valuePos f g)
    (hg : ∀ r, g = .ok r → pos + n ≤ valuePos r) :
    Settles b.length valuePos (need b pos l n >>= fun _ => f) (need x pos l' n >>= fun _ => g) := by
  refine (need_settles hx hl pos n).bind (fun _ hok => hfg ?_) fun _ => hg
  rw [need_eq] at hok
  split_ifs at hok with h
  · exact h
  · simp at hok
  · simp at hok
  · simp [invalid] at hok

/-- A sized struct is sealed whatever its body is. -/
lemma doNest_settles {p : Prop} {sem sem' : Sem} (h : SettledSem b x p sem sem')
    (size : Option LenSrc) :
    SettledSem b x (size.isSome ∨ p) (doNest b sem size) (doNest x sem' size) := by
  intro l l' hl cur
  cases size with
  | none => exact h l l' (hl.mono fun hp => hp.resolve_left (by simp)) cur
  | some len =>
    cases len with
    | greedy => simp [doNest]
    | expr expr inv =>
      refine Settles.bind (p := fun _ => 0) ((OrPanic.refl _).settles (steady_evalLen _ _ _)) ?_
        fun _ _ _ => Nat.zero_le _
      intro sz _
      refine settles_window hx hl cur.pos sz (fun hw => ?_) ?_
      · refine (h _ _ (hl.window hw p) cur).bind (fun out _ => ?_) fun out r hr => ?_
        · exact (OrPanic.refl _).settles (by simp only; split_ifs <;> simp)
        · simp only at hr
          split_ifs at hr
          · simp [invalid] at hr
          · cases hr
            exact Nat.le_refl _
      · intro r hr
        obtain ⟨⟨v, next⟩, -, hr⟩ := Exec.bind_eq_ok.mp hr
        simp only at hr
        split_ifs at hr with he
        · simp [invalid] at hr
        · cases hr
          exact Nat.le_of_eq (not_not.mp he).symm

omit hx in
lemma countLoop_settles {p : Prop} {sem sem' : Sem} (h : SettledSem b x p sem sem')
    (ha : Advances sem') {l l' : Nat} (hl : Limits b x p l l') (n i : Nat) (out : List Value)
    (cur : Cur) :
    Settles b.length valuePos (countLoop sem l n i out cur) (countLoop sem' l' n i out cur) := by
  induction n generalizing i out cur with
  | zero => simp [countLoop]
  | succ n ih =>
    refine ((h l l' hl cur).seg (.index i)).bind (fun r _ => ih _ _ _) ?_
    exact fun r t ht => (countLoop_advances ha l' n _ _ _ t.1 t.2 ht).1

omit hx in
lemma eofLoop_settles {p : Prop} {sem sem' : Sem} (h : SettledSem b x p sem sem')
    (ha : Advances sem') {l : Nat} (hl : l ≤ b.length) (left i : Nat) (out : List Value)
    (cur : Cur) :
    Settles b.length valuePos (eofLoop sem l left i out cur) (eofLoop sem' l left i out cur) := by
  induction left generalizing i out cur with
  | zero =>
    unfold eofLoop
    split_ifs
    · simp [invalid]
    · simp
  | succ left ih =>
    unfold eofLoop
    split_ifs
    · refine ((h l l (.inr ⟨rfl, hl⟩) cur).seg (.index i)).bind (fun r _ => ih _ _ _) ?_
      exact fun r t ht => (eofLoop_advances ha l left _ _ _ t.1 t.2 ht).1
    · simp

omit hx in
lemma doArray_settles {p : Prop} {sem sem' : Sem} (h : SettledSem b x p sem sem')
    (ha : Advances sem') (hx : b <+: x) (count : CountSrc) (maxCount : Nat) :
    SettledSem b x (count.sealed ∧ p) (doArray count maxCount sem) (doArray count maxCount sem') := by
  intro l l' hl cur
  cases count with
  | untilEof =>
    obtain ⟨-, -, hs, -⟩ | ⟨rfl, hlb⟩ := hl
    · exact hs.elim
    · exact eofLoop_settles h ha hlb maxCount 0 [] cur
  | expr expr inv =>
    refine Settles.bind (p := fun _ => 0) ((OrPanic.refl _).settles (steady_eval _ _ _)) ?_
      fun _ _ _ => Nat.zero_le _
    intro n _
    split_ifs
    · simp [invalid]
    · simp [invalid]
    · have hle := hl.le hx
      rcases Nat.lt_or_ge l cur.pos with hp | hp
      · rw [checkedSub_of_lt hp]
        simp
      · rw [checkedSub_of_le hp, checkedSub_of_le (by omega)]
        exact countLoop_settles h ha (hl.mono And.right) n.toNat 0 [] cur

omit hx in
lemma doSwitch_settles {p : Prop} (on : Expr) {branch branch' : Int → Option Sem}
    (h : ∀ tag, Option.Rel (SettledSem b x p) (branch tag) (branch' tag)) :
    SettledSem b x p (doSwitch on branch) (doSwitch on branch') := by
  intro l l' hl cur
  refine Settles.bind (p := fun _ => 0) ((OrPanic.refl _).settles (steady_eval _ _ _)) ?_
    fun _ _ _ => Nat.zero_le _
  intro tag _
  have htag := h tag
  cases hb : branch tag with
  | none =>
    rw [hb] at htag
    cases hb' : branch' tag with
    | none => simp [invalid]
    | some sem' => rw [hb'] at htag; cases htag
  | some sem =>
    rw [hb] at htag
    cases hb' : branch' tag with
    | none => rw [hb'] at htag; cases htag
    | some sem' =>
      rw [hb'] at htag
      cases htag with
      | some hs => exact hs l l' hl cur

lemma withFrame_settles (H : Hashes) {p : Prop} {body body' : Nat → Scan → URes Scan}
    (h : SettledScan b x p body body') :
    SettledSem b x p (withFrame H b body) (withFrame H x body') := by
  intro l l' hl cur
  unfold withFrame
  split_ifs
  · simp [invalid]
  · refine (h l l' hl _).bind (fun s _ => OrPanic.settles ?_ ?_) ?_
    · exact (OrPanic.refl _).bind fun f => (verifyDigests_orPanic hx H _ _ _ _).bind fun _ => .refl _
    · exact (steady_expect _).bind fun f => (steady_verifyDigests H _ _ _ _ _).bind fun _ => by simp
    · intro s r hr
      simp only [Exec.bind_eq_ok] at hr
      obtain ⟨f, -, _, -, hr⟩ := hr
      cases hr
      exact Nat.le_refl _

end TwoRuns

section Programs

variable (H : Hashes) {b x : Bytes} (hx : b <+: x) (hsmall : x.length ≤ isizeMax)

include hx hsmall

omit hx hsmall in
/-- The two runs take the same branch. -/
lemma branch_settled {cases : List (Int × Op)} {default : Option Op}
    (hc : ∀ branch ∈ cases,
      SettledSem b x branch.2.sealed (opValue H b branch.2) (opValue H x branch.2))
    (hd : ∀ op ∈ default, SettledSem b x op.sealed (opValue H b op) (opValue H x op)) (tag : Int) :
    Option.Rel (SettledSem b x (casesSealed cases ∧ defaultSealed default))
      ((findCase H b cases tag).or (defaultCase H b default))
      ((findCase H x cases tag).or (defaultCase H x default)) := by
  induction cases with
  | nil =>
    rw [findCase, findCase, Option.none_or, Option.none_or]
    cases default with
    | none => exact .none
    | some op => exact .some ((hd op rfl).mono And.right)
  | cons branch cases ih =>
    obtain ⟨t, op⟩ := branch
    rw [findCase, findCase]
    split_ifs
    · exact .some ((hc (t, op) (by simp)).mono fun hp => hp.1.1)
    · have h := ih fun br hb => hc br (by simp [hb])
      revert h
      generalize (findCase H b cases tag).or (defaultCase H b default) = s
      generalize (findCase H x cases tag).or (defaultCase H x default) = s'
      intro h
      cases h with
      | none => exact .none
      | some hs => exact .some (hs.mono fun hp => ⟨hp.1.2, hp.2⟩)

omit hx hsmall in
lemma runOps_settles {ops : List Op}
    (h : ∀ op ∈ ops, SettledScan b x op.sealed (runOp H b op) (runOp H x op)) :
    SettledScan b x (opsSealed ops) (runOps H b ops) (runOps H x ops) := by
  intro l l' hl s
  induction ops generalizing s with
  | nil => simp [runOps]
  | cons op ops ih =>
    refine (h op (by simp) l l' (hl.mono And.left) s).bind (fun t _ => ?_) ?_
    · exact ih (fun o ho => h o (by simp [ho])) (hl.mono And.right) t
    · exact fun t u hu => (runOps_advances H x (fun o _ => runOp_advances H x o) l' t u hu).1

/-- What one op returns, refuses or asks for settles that op on every longer buffer. -/
lemma settled_cases : OpCases
    (fun op => SettledSem b x op.sealed (opValue H b op) (opValue H x op) ∧
      SettledScan b x op.sealed (runOp H b op) (runOp H x op))
    (fun prog => SettledSem b x prog.sealed (runStruct H b prog) (runStruct H x prog)) where
  fixed width items := by
    rw [opValue, opValue, runOp, runOp]
    exact ⟨doFixed_settles hx width items _, runFixed_settles hx width items _⟩
  bytes len max c := by
    rw [opValue, opValue, runOp, runOp]
    exact ⟨doBytes_settles hx len max, runField_settles (doBytes_settles hx len max) c⟩
  str len max enc c := by
    rw [opValue, opValue, runOp, runOp]
    exact ⟨doStr_settles hx len max enc, runField_settles (doStr_settles hx len max enc) c⟩
  cstr max enc c := by
    rw [opValue, opValue, runOp, runOp]
    have h := doCstr_settles hx hsmall max enc True
    exact ⟨h.mono fun _ => trivial, runField_settles (h.mono fun _ => trivial) c⟩
  bitRun nbytes items := by
    rw [opValue, opValue, runOp, runOp]
    exact ⟨fun _ _ _ _ => trivial, runBitRun_settles hx nbytes items _⟩
  flags prim be items rest restMask c := by
    rw [opValue, opValue, runOp, runOp]
    have h := doFlags_settles hx prim be items rest restMask True
    exact ⟨h.mono fun _ => trivial, runField_settles (h.mono fun _ => trivial) c⟩
  digest algo overs verify be c := by
    rw [opValue, opValue, runOp, runOp]
    exact ⟨fun _ _ _ _ => trivial, runDigest_settles hx algo overs verify be c _⟩
  nest prog size c hp := by
    rw [opValue, opValue, runOp, runOp]
    exact ⟨doNest_settles hx hp size, runField_settles (doNest_settles hx hp size) c⟩
  array count maxCount elem elemMin c he := by
    rw [opValue, opValue, runOp, runOp]
    have h := doArray_settles he.1 (opValue_advances H x elem) hx count maxCount
    exact ⟨h, runField_settles h c⟩
  switch on cases default c hc hd := by
    rw [opValue, opValue, runOp, runOp]
    have h := doSwitch_settles on
      (branch_settled H (fun br hb => (hc br hb).1) fun op ho => (hd op ho).1)
    exact ⟨h, runField_settles h c⟩
  cond pred thn c ht := by
    rw [opValue, opValue, runOp, runOp]
    exact ⟨fun _ _ _ _ => trivial, runCond_settles ht.1 pred c⟩
  prog ops nregs nspans minSize staticSize ho := by
    rw [runStruct, runStruct]
    exact withFrame_settles hx H (runOps_settles H fun op h => (ho op h).2)

lemma runStruct_settles (prog : Program) :
    SettledSem b x prog.sealed (runStruct H b prog) (runStruct H x prog) :=
  (settled_cases H hx hsmall).program prog

end Programs

/-- `parse`: decode a message from the start of a stream. -/
def parse (H : Hashes) (prog : Program) (buf : Buffer) : Outcome :=
  unpackRun H prog buf 0 false true

lemma parse_eq (H : Hashes) (prog : Program) (buf : Buffer) :
    parse H prog buf =
      match runStruct H buf.bytes prog buf.bytes.length { fs := [], pos := 0 } with
      | .ok (value, cur) => .ok value cur.pos
      | .error (.err (.incomplete needed)) => .incomplete needed
      | .error (.err (.invalid inv)) => .invalid inv.kind inv.offset (formatPath inv.path)
      | .error .panic => .panic := by
  unfold parse unpackRun
  simp only [Nat.zero_min]
  split <;> simp [*]

/-- A verdict on the bytes seen so far is final: a value stays the value, a refusal stays the
refusal, and a request for data asks for no more than every accepted continuation has. -/
theorem parse_final (H : Hashes) (prog : Program) (hs : prog.sealed) (b x : Buffer) (e : Bytes)
    (hx : x.bytes = b.bytes ++ e) :
    (∀ value pos, parse H prog b = .ok value pos → parse H prog x = .ok value pos) ∧
    (∀ kind offset path, parse H prog b = .invalid kind offset path →
      parse H prog x = .invalid kind offset path) ∧
    (∀ needed, parse H prog b = .incomplete needed → 0 < needed ∧
      (e.length < needed → ∀ value pos, parse H prog x ≠ .ok value pos) ∧
      ∀ value pos, parse H prog x = .ok value pos → needed ≤ pos - b.bytes.length) := by
  have hpre : b.bytes <+: x.bytes := ⟨e, hx.symm⟩
  have hset := runStruct_settles H hpre x.small prog b.bytes.length x.bytes.length
    (.inl ⟨rfl, rfl, hs⟩) { fs := [], pos := 0 }
  have hend : ∀ r, runStruct H x.bytes prog x.bytes.length { fs := [], pos := 0 } = .ok r →
      valuePos r ≤ x.bytes.length := fun r hr =>
    (runStruct_advances H x.bytes prog _ _ r.1 r.2 hr).2 (Nat.zero_le _)
  rw [parse_eq, parse_eq]
  revert hset hend
  generalize runStruct H b.bytes prog b.bytes.length { fs := [], pos := 0 } = rb
  generalize runStruct H x.bytes prog x.bytes.length { fs := [], pos := 0 } = rx
  intro hset hend
  cases rb using Exec.cases_on with
  | ok r =>
    rw [settles_ok] at hset
    subst hset
    simp
  | panic => simp [Exec.panic]
  | fail err =>
    cases err with
    | invalid inv =>
      rw [settles_invalid] at hset
      subst hset
      simp [Exec.fail]
    | incomplete needed =>
      obtain ⟨hn, hlate⟩ := hset
      have hpos : ∀ r, rx = .ok r → b.bytes.length + needed ≤ r.2.pos ∧ needed ≤ e.length := by
        intro r hr
        have h₁ := hlate r hr
        have h₂ := hend r hr
        rw [hx, List.length_append] at h₂
        unfold valuePos at h₁ h₂
        exact ⟨h₁, by omega⟩
      refine ⟨by simp [Exec.fail], by simp [Exec.fail], fun k hk => ?_⟩
      obtain rfl : needed = k := by simpa [Exec.fail] using hk
      cases rx using Exec.cases_on with
      | ok r =>
        have := hpos r rfl
        refine ⟨hn, fun hlt => by omega, fun value pos hv => ?_⟩
        obtain ⟨-, rfl⟩ : r.1 = value ∧ r.2.pos = pos := by simpa using hv
        omega
      | panic => exact ⟨hn, by simp [Exec.panic], by simp [Exec.panic]⟩
      | fail err =>
        cases err <;> exact ⟨hn, by simp [Exec.fail], by simp [Exec.fail]⟩

/-- A length byte and as many bytes of data. -/
def counted : Program :=
  .mk [.fixed 1 [{ off := 0, kind := .int .u8 true none true, reg := some 0, span := none,
                   key := .named "n" }],
       .bytes (.expr { ins := [.reg ⟨0, 0⟩] } (some ⟨⟨0, 0⟩, 1, 0⟩)) 67108864 (.named "data")]
    1 0 1 none

/-- Of three bytes that were announced one has come: two more are asked for, one is not enough, and what is read
with both of them takes both. -/
theorem parse_final_counted :
    parse .blank counted ⟨[3, 7], by decide⟩ = .incomplete 2 ∧
      (∀ value pos, parse .blank counted ⟨[3, 7, 8], by decide⟩ ≠ .ok value pos) ∧
      ∀ value pos, parse .blank counted ⟨[3, 7, 8, 9], by decide⟩ = .ok value pos → 2 ≤ pos - 2 := by
  have h : parse .blank counted ⟨[3, 7], by decide⟩ = .incomplete 2 := by rfl
  have hone := parse_final .blank counted ⟨trivial, trivial, trivial⟩ ⟨[3, 7], by decide⟩
    ⟨[3, 7, 8], by decide⟩ [8] rfl
  have hboth := parse_final .blank counted ⟨trivial, trivial, trivial⟩ ⟨[3, 7], by decide⟩
    ⟨[3, 7, 8, 9], by decide⟩ [8, 9] rfl
  exact ⟨h, (hone.2.2 2 h).2.1 (by decide), (hboth.2.2 2 h).2.2⟩

end Rustruct

import Rustruct.Proofs.Readers
import Rustruct.Proofs.Lowered
import Rustruct.Proofs.Items
import Rustruct.Visits

/-!
# How many frames a run needs

Unpack pushes a frame for each struct it is in, and refuses one too many. The depth that compile
measures bounds the frames of every run, so no run of a compiled schema is refused.
-/

namespace Rustruct

lemma opsDepth_le {ops : List Op} {op : Op} (h : op ∈ ops) : opDepth op ≤ opsDepth ops := by
  induction ops with
  | nil => cases h
  | cons o ops ih =>
    rw [opsDepth]
    rcases List.mem_cons.mp h with rfl | h
    · exact Nat.le_max_left _ _
    · exact Nat.le_trans (ih h) (Nat.le_max_right _ _)

lemma casesDepth_le {cases : List (Int × Op)} {branch : Int × Op} (h : branch ∈ cases) :
    opDepth branch.2 ≤ casesDepth cases := by
  induction cases with
  | nil => cases h
  | cons b cases ih =>
    rw [casesDepth]
    rcases List.mem_cons.mp h with rfl | h
    · exact Nat.le_max_left _ _
    · exact Nat.le_trans (ih h) (Nat.le_max_right _ _)

lemma pickCase_depth {cases : List (Int × Op)} {default : Option Op} {tag : Int} {op : Op}
    (h : pickCase cases default tag = some op) : opDepth op ≤ max (casesDepth cases) (defaultDepth default) := by
  obtain ⟨branch, hb, rfl⟩ | rfl := pickCase_mem h
  · exact Nat.le_trans (casesDepth_le hb) (Nat.le_max_left _ _)
  · exact Nat.le_max_right _ _

namespace Site

/-- The frames that are live at a site, and those that its ops may still push. -/
def frames : Site → Nat
  | value op _ cur => cur.fs.length + opDepth op
  | body prog _ cur => cur.fs.length + frameDepth prog
  | rest ops _ s => s.cur.fs.length + opsDepth ops
  | count elem _ _ _ _ cur | eof elem _ _ _ _ cur => cur.fs.length + opDepth elem

lemma live_le (s : Site) : s.cur.fs.length ≤ s.frames := by
  cases s <;> exact Nat.le_add_right _ _

end Site

section Frames

variable {H : Hashes} {buf : Bytes} {s t : Site}

/-- No step needs more frames than the site it starts from. -/
lemma Step.frames_le (h : Step H buf s t) : t.frames ≤ s.frames := by
  cases h with
  | @enter ops nregs nspans minSize staticSize limit cur room =>
    simp only [Site.frames, Scan.enter, List.length_cons, frameDepth]
    omega
  | @next op ops limit s s' ran =>
    have hlen := (runOp_ownFrame H buf op _ _ _ ran).2
    simp only [Site.frames, opsDepth]
    omega
  | field dynamic =>
    simp only [Site.frames, opsDepth]
    omega
  | present eval holds =>
    simp only [Site.frames, opsDepth, opDepth]
    omega
  | nest | window size fits => exact Nat.le_refl _
  | counted eval nonneg le le_limit => exact Nat.le_refl _
  | «open» => exact Nat.le_refl _
  | element | eofElement more => exact Nat.le_refl _
  | @another elem limit n i out cur v cur' ran =>
    have hlen := (opValue_ownFrame H buf elem _ _ _ _ ran).2
    simp only [Site.frames]
    omega
  | @eofAnother elem limit left i out cur v cur' more ran =>
    have hlen := (opValue_ownFrame H buf elem _ _ _ _ ran).2
    simp only [Site.frames]
    omega
  | branch eval pick =>
    have hdepth := pickCase_depth pick
    simp only [Site.frames, opDepth]
    omega

lemma Reaches.frames_le (h : Reaches H buf s t) : t.frames ≤ s.frames :=
  h.induct (I := fun u => u.frames ≤ s.frames) (fun _ _ hu hst => Nat.le_trans hst.frames_le hu) (Nat.le_refl _)

end Frames

def TooDeep : UFail → Prop
  | .invalid inv => inv.kind = .depth
  | .incomplete _ => False

lemma foreign_tooDeep : Foreign TooDeep where
  invalid inv h := h
  seg e s h := by
    cases e with
    | incomplete needed => exact h
    | invalid inv => exact h

/-- `x` is not refused for its depth. -/
abbrev Shallow {α : Type} (x : URes α) : Prop := Avoids TooDeep x

section Shallow

variable {α β : Type} {H : Hashes} {buf : Bytes} {sem : Sem}

lemma shallow_invalid {kind : Kind} (h : kind ≠ .depth) (offset : Nat) : Shallow (invalid kind offset : URes α) :=
  avoids_invalid foreign_tooDeep h offset

lemma shallow_need (pos limit n : Nat) : Shallow (need buf pos limit n) := by
  rw [need_eq]
  split_ifs
  · exact avoids_ok _
  · intro e he h
    rw [Exec.fail_inj] at h
    subst h
    exact he
  · exact avoids_panic
  · exact shallow_invalid (by decide) pos

lemma shallow_runField {c : Common} {limit : Nat} {s : Scan} (h : Shallow (sem limit s.cur)) :
    Shallow (runField c sem limit s) := by
  refine (h.pushKey foreign_tooDeep c.key).bind fun r => ?_
  exact (avoids_setSpan _ _ _ _).bind fun _ => (avoids_insert _ _ _).bind fun _ => avoids_ok _

lemma shallow_runCond {pred : Expr} {c : Common} {limit : Nat} {s : Scan} (h : Shallow (sem limit s.cur)) :
    Shallow (runCond pred c sem limit s) := by
  refine (avoids_eval foreign_tooDeep _ _ _).bind fun p => ?_
  split_ifs
  · exact shallow_runField h
  · exact avoids_ok _

lemma shallow_doNest {size : Option LenSrc} {limit : Nat} {cur : Cur} (h : ∀ limit, Shallow (sem limit cur)) :
    Shallow (doNest buf sem size limit cur) := by
  match size with
  | none => exact h limit
  | some .greedy => exact avoids_panic
  | some (.expr expr inv) =>
    refine (avoids_evalLen foreign_tooDeep _ _ _).bind fun sz => ?_
    refine (shallow_need _ _ _).bind fun _ => (h _).bind fun r => ?_
    obtain ⟨v, next⟩ := r
    dsimp only
    split_ifs
    · exact shallow_invalid (by decide) _
    · exact avoids_ok _

lemma shallow_countLoop {limit n i d : Nat} {out : List Value} {cur : Cur} (hd : cur.fs.length = d)
    (hown : OwnFrame sem) (h : ∀ cur, cur.fs.length = d → Shallow (sem limit cur)) :
    Shallow (countLoop sem limit n i out cur) := by
  induction n generalizing i out cur with
  | zero => exact avoids_ok _
  | succ n ih =>
    have helem := (h cur hd).seg foreign_tooDeep (.index i)
    unfold countLoop
    cases hrun : sem limit cur using Exec.cases_on with
    | ok r =>
      obtain ⟨v, cur'⟩ := r
      exact ih ((hown _ _ _ _ hrun).2.trans hd)
    | fail e =>
      rw [hrun] at helem
      exact helem
    | panic => exact avoids_panic

lemma shallow_eofLoop {limit left i d : Nat} {out : List Value} {cur : Cur} (hd : cur.fs.length = d)
    (hown : OwnFrame sem) (h : ∀ cur, cur.fs.length = d → Shallow (sem limit cur)) :
    Shallow (eofLoop sem limit left i out cur) := by
  induction left generalizing i out cur with
  | zero =>
    unfold eofLoop
    split_ifs
    · exact shallow_invalid (by decide) _
    · exact avoids_ok _
  | succ left ih =>
    have helem := (h cur hd).seg foreign_tooDeep (.index i)
    unfold eofLoop
    split_ifs
    · cases hrun : sem limit cur using Exec.cases_on with
      | ok r =>
        obtain ⟨v, cur'⟩ := r
        exact ih ((hown _ _ _ _ hrun).2.trans hd)
      | fail e =>
        rw [hrun] at helem
        exact helem
      | panic => exact avoids_panic
    · exact avoids_ok _

lemma shallow_doArray {count : CountSrc} {maxCount limit : Nat} {cur : Cur} (hown : OwnFrame sem)
    (h : ∀ cur', cur'.fs.length = cur.fs.length → Shallow (sem limit cur')) :
    Shallow (doArray count maxCount sem limit cur) := by
  cases count with
  | untilEof => exact shallow_eofLoop rfl hown h
  | expr expr inv =>
    refine (avoids_eval foreign_tooDeep _ _ _).bind fun n => ?_
    split_ifs
    · exact shallow_invalid (by decide) _
    · exact shallow_invalid (by decide) _
    · exact (avoids_checkedSub _ _).bind fun _ => shallow_countLoop rfl hown h

lemma shallow_doSwitch {on : Expr} {branch : Int → Option Sem} {limit : Nat} {cur : Cur}
    (h : ∀ tag, ∀ sem ∈ branch tag, Shallow (sem limit cur)) : Shallow (doSwitch on branch limit cur) := by
  refine (avoids_eval foreign_tooDeep _ _ _).bind fun tag => ?_
  cases hb : branch tag with
  | some sem => exact h tag sem hb
  | none => exact shallow_invalid (by decide) _

/-- There is room for the frames of the op. -/
def ShallowValue (H : Hashes) (buf : Bytes) (op : Op) : Prop :=
  ∀ limit cur, cur.fs.length + opDepth op ≤ maxDepth → Shallow (opValue H buf op limit cur)

def ShallowField (H : Hashes) (buf : Bytes) (op : Op) : Prop :=
  ∀ limit s, s.cur.fs.length + opDepth op ≤ maxDepth → Shallow (runOp H buf op limit s)

def ShallowBody (H : Hashes) (buf : Bytes) (prog : Program) : Prop :=
  ∀ limit cur, cur.fs.length + frameDepth prog ≤ maxDepth → Shallow (runStruct H buf prog limit cur)

lemma ShallowValue.field {op : Op} (hv : op.isValue) (h : ShallowValue H buf op) : ShallowField H buf op := by
  intro limit s hs
  obtain ⟨c, -, hrun⟩ := runOp_of_isValue H buf hv
  rw [hrun]
  exact shallow_runField (h limit s.cur hs)

lemma shallow_runOps {ops : List Op} (hops : ∀ op ∈ ops, ShallowField H buf op) {limit : Nat} {s : Scan}
    (hs : s.cur.fs.length + opsDepth ops ≤ maxDepth) : Shallow (runOps H buf ops limit s) := by
  induction ops generalizing s with
  | nil => exact avoids_ok s
  | cons op ops ih =>
    rw [opsDepth] at hs
    have hfield := hops op List.mem_cons_self limit s (by omega)
    unfold runOps
    cases hrun : runOp H buf op limit s using Exec.cases_on with
    | ok next =>
      have hlen := (runOp_ownFrame H buf op _ _ _ hrun).2
      exact ih (fun o ho => hops o (List.mem_cons_of_mem _ ho)) (by omega)
    | fail e =>
      rw [hrun] at hfield
      exact hfield
    | panic => exact avoids_panic

lemma shallow_runStruct {ops : List Op} {nregs nspans minSize : Nat} {staticSize : Option Nat}
    (hops : ∀ op ∈ ops, ShallowField H buf op) : ShallowBody H buf (.mk ops nregs nspans minSize staticSize) := by
  intro limit cur hcur
  rw [frameDepth] at hcur
  rw [runStruct]
  unfold withFrame
  rw [if_neg (by omega)]
  have hroom : (Scan.enter cur).cur.fs.length + opsDepth ops ≤ maxDepth := by
    simp only [Scan.enter, List.length_cons]
    omega
  refine (shallow_runOps hops hroom).bind fun s => (avoids_expect _).bind fun f => ?_
  exact (avoids_verifyDigests foreign_tooDeep _ _ _ _ _ _).bind fun _ => avoids_ok _

lemma shallow_cases (H : Hashes) (buf : Bytes) :
    OpCases (fun op => ShallowValue H buf op ∧ ShallowField H buf op) (ShallowBody H buf) where
  fixed width items := by
    constructor
    · intro limit cur _
      rw [opValue]
      refine (shallow_need _ _ _).bind fun _ => (avoids_expect _).bind fun item => ?_
      exact (avoids_readFixedItem foreign_tooDeep _ _ _ _).bind fun _ => avoids_ok _
    · intro limit s _
      rw [runOp]
      refine (shallow_need _ _ _).bind fun _ => ?_
      exact (avoids_readFixedItems foreign_tooDeep _ _ _ _ _).bind fun _ => avoids_ok _
  bitRun nbytes items := by
    constructor
    · intro limit cur _
      rw [opValue]
      exact avoids_panic
    · intro limit s _
      rw [runOp]
      refine (shallow_need _ _ _).bind fun _ => ?_
      exact (avoids_readBitItems foreign_tooDeep _ _ _ _ _ _).bind fun _ => avoids_ok _
  digest algo overs verify be c := by
    constructor
    · intro limit cur _
      rw [opValue]
      exact avoids_panic
    · intro limit s _
      rw [runOp]
      refine ((shallow_need _ _ _).pushKey foreign_tooDeep _).bind fun _ => (avoids_slice _ _ _).bind fun _ => ?_
      refine (avoids_expect _).bind fun _ => (avoids_setSpan _ _ _ _).bind fun _ => ?_
      exact (avoids_insert _ _ _).bind fun _ => avoids_ok _
  bytes len max c := by
    have h : ShallowValue H buf (.bytes len max c) := by
      intro limit cur _
      rw [opValue]
      refine (avoids_resolveLen foreign_tooDeep _ _ _ _ _).bind fun n => (shallow_need _ _ _).bind fun _ => ?_
      exact (avoids_slice _ _ _).bind fun _ => avoids_ok _
    exact ⟨h, h.field rfl⟩
  str len max enc c := by
    have h : ShallowValue H buf (.str len max enc c) := by
      intro limit cur _
      rw [opValue]
      refine (avoids_resolveLen foreign_tooDeep _ _ _ _ _).bind fun n => (shallow_need _ _ _).bind fun _ => ?_
      refine (avoids_slice _ _ _).bind fun raw => ?_
      split
      · exact avoids_ok _
      · exact shallow_invalid (by decide) _
    exact ⟨h, h.field rfl⟩
  cstr max enc c := by
    have h : ShallowValue H buf (.cstr max enc c) := by
      intro limit cur _
      rw [opValue]
      refine (avoids_checkedSub _ _).bind fun window => (avoids_slice _ _ _).bind fun seen => ?_
      unfold cstrEnd
      split
      · refine (avoids_slice _ _ _).bind fun raw => ?_
        split
        · exact avoids_ok _
        · exact shallow_invalid (by decide) _
      · split_ifs
        · exact shallow_invalid (by decide) _
        · intro e he hf
          rw [Exec.fail_inj] at hf
          subst hf
          exact he
        · exact shallow_invalid (by decide) _
    exact ⟨h, h.field rfl⟩
  flags prim be items rest restMask c := by
    have h : ShallowValue H buf (.flags prim be items rest restMask c) := by
      intro limit cur _
      rw [opValue]
      refine (shallow_need _ _ _).bind fun _ => (avoids_slice _ _ _).bind fun bytes => ?_
      simp only [setFlags_value, mapSet_value, Exec.bind_ok]
      cases rest with
      | keep | ignore => exact avoids_ok _
      | strict =>
        dsimp only
        split_ifs
        · exact shallow_invalid (by decide) _
        · exact avoids_ok _
    exact ⟨h, h.field rfl⟩
  nest prog size c hp := by
    have h : ShallowValue H buf (.nest prog size c) := by
      intro limit cur hcur
      rw [opValue]
      exact shallow_doNest fun limit => hp limit cur hcur
    exact ⟨h, h.field rfl⟩
  array count maxCount elem elemMin c he := by
    have h : ShallowValue H buf (.array count maxCount elem elemMin c) := by
      intro limit cur hcur
      rw [opDepth] at hcur
      rw [opValue]
      exact shallow_doArray (opValue_ownFrame H buf elem) fun cur' hlen => he.1 limit cur' (by omega)
    exact ⟨h, h.field rfl⟩
  switch on cases default c hcs hd := by
    have h : ShallowValue H buf (.switch on cases default c) := by
      intro limit cur hcur
      rw [opDepth] at hcur
      rw [opValue_switch]
      refine shallow_doSwitch fun tag sem hsem => ?_
      obtain ⟨op, hop, rfl⟩ := Option.map_eq_some_iff.mp hsem
      have hdepth := pickCase_depth hop
      obtain ⟨branch, hb, rfl⟩ | ho := pickCase_mem hop
      · exact (hcs branch hb).1 limit cur (by omega)
      · exact (hd op ho).1 limit cur (by omega)
    exact ⟨h, h.field rfl⟩
  cond pred thn c ht := by
    constructor
    · intro limit cur _
      rw [opValue]
      exact avoids_panic
    · intro limit s hs
      rw [opDepth] at hs
      rw [runOp]
      exact shallow_runCond (ht.1 limit s.cur hs)
  prog ops nregs nspans minSize staticSize hops := shallow_runStruct fun op ho => (hops op ho).2

end Shallow

/-- A compiled schema decodes in the frames that compile measured, whatever the buffer is. -/
structure FitsDepth (prog : Program) : Prop where
  le : frameDepth prog ≤ maxDepth
  live : ∀ (H : Hashes) (buf : Bytes) (offset : Nat) (site : Site),
    Reaches H buf (rootSite buf prog offset) site → site.cur.fs.length ≤ frameDepth prog
  accepted : ∀ (H : Hashes) (buf : Buffer) (offset : Nat) (exact stream : Bool) (pos : Nat) (path : String),
    unpackRun H prog buf offset exact stream ≠ .invalid .depth pos path

/-- The check is made on the program the schema is lowered to: what passes it is never refused for
its depth, and what does not pass it is no codec. -/
theorem compile_depth (fields : List FieldIn) (opts : Options) :
    (∀ prog, compile fields opts = .ok prog → FitsDepth prog) ∧
      ∀ prog S, inScope (compileFields opts fields opts.byteorder) [] = .ok (prog, S) →
        maxDepth < frameDepth prog → ∃ e, compile fields opts = Exec.fail e := by
  constructor
  · intro prog hc
    have hle := (compile_lowers hc).2
    refine ⟨hle, ?_, ?_⟩
    · intro H buf offset site hreach
      have hroot : (rootSite buf prog offset).frames = frameDepth prog := by
        simp only [rootSite, Site.frames, List.length_nil, Nat.zero_add]
      exact hroot ▸ Nat.le_trans site.live_le hreach.frames_le
    · intro H buf offset exact stream pos path hrun
      have hbody : ShallowBody H buf.bytes prog := (shallow_cases H buf.bytes).program prog
      have hshallow := hbody buf.bytes.length { fs := [], pos := min offset buf.bytes.length } (by simpa using hle)
      unfold unpackRun at hrun
      dsimp only at hrun
      split at hrun
      · split_ifs at hrun
        cases hrun
      · split_ifs at hrun
        cases hrun
      · rename_i inv hfail
        obtain ⟨hkind, -, -⟩ := Outcome.invalid.inj hrun
        exact hshallow (.invalid inv) hkind hfail
      · cases hrun
  · intro prog S hlow hdeep
    unfold compile
    rw [hlow, Exec.bind_ok]
    dsimp only
    rw [if_pos hdeep]
    exact ⟨_, rfl⟩

/-- A byte in `n` structs. -/
def nestedFields : Nat → List FieldIn
  | 0 => [.mk (some "x") (.int .u8 none none)]
  | n + 1 => [.mk (some "s") (.struct (nestedFields n) none none)]

/-- The schema itself is the outermost struct: one within 63 others is the deepest. -/
theorem compile_depth_nested :
    (∃ prog, compile (nestedFields 63) {} = .ok prog ∧ frameDepth prog = 64 ∧ FitsDepth prog) ∧
      ∃ e, compile (nestedFields 64) {} = Exec.fail e := by
  have hfits : Exec.returns (compile (nestedFields 63) {}) fun prog => frameDepth prog == 64 := by decide +kernel
  have hdeep : Exec.returns (inScope (compileFields {} (nestedFields 64) .big) []) fun r =>
      maxDepth < frameDepth r.1 := by decide +kernel
  obtain ⟨prog, hc, hframes⟩ := Exec.returns_iff.mp hfits
  obtain ⟨⟨prog', S⟩, hlow, hlt⟩ := Exec.returns_iff.mp hdeep
  refine ⟨⟨prog, hc, by simpa using hframes, (compile_depth (nestedFields 63) {}).1 prog hc⟩, ?_⟩
  exact (compile_depth (nestedFields 64) {}).2 prog' S hlow (by simpa using hlt)

end Rustruct

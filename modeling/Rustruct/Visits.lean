import Rustruct.Pack
import Mathlib.Logic.Relation

/-!
# The ops a run reaches

A run of `unpack` visits sites: an op in a value position, a struct, the ops left in a
scope, the elements left in an array. `Step` leads from a site to those it evaluates, so
`Reaches` from the root is what "reached in a run" means. A run of `pack` visits sites of its own, by `PStep`.
-/

namespace Rustruct

/-- A place in a run, with the state the interpreter has there. -/
inductive Site where
  | value (op : Op) (limit : Nat) (cur : Cur)
  | body (prog : Program) (limit : Nat) (cur : Cur)
  | rest (ops : List Op) (limit : Nat) (s : Scan)
  | count (elem : Op) (limit n i : Nat) (out : List Value) (cur : Cur)
  | eof (elem : Op) (limit left i : Nat) (out : List Value) (cur : Cur)

namespace Site

def limit : Site → Nat
  | value _ limit _ | body _ limit _ | rest _ limit _ | count _ limit _ _ _ _
  | eof _ limit _ _ _ _ => limit

def cur : Site → Cur
  | value _ _ cur | body _ _ cur | count _ _ _ _ _ cur | eof _ _ _ _ _ cur => cur
  | rest _ _ s => s.cur

end Site

/-- The state a scope starts with. -/
def Scan.enter (cur : Cur) : Scan :=
  { cur := { cur with fs := .new :: cur.fs }, map := [], deferred := [] }

/-- As a field, the op has the value it has in a value position. -/
def Op.isValue : Op → Bool
  | .fixed .. | .bitRun .. | .digest .. | .cond .. => false
  | _ => true

/-- The branch of a tag. -/
def pickCase (cases : List (Int × Op)) (default : Option Op) (tag : Int) : Option Op :=
  ((cases.find? fun branch => branch.1 = tag).map Prod.snd).or default

section Steps

variable (H : Hashes) (buf : Bytes)

/-- One site evaluates another. -/
inductive Step : Site → Site → Prop where
  | enter {ops nregs nspans minSize staticSize limit cur} (room : cur.fs.length < maxDepth) :
      Step (.body (.mk ops nregs nspans minSize staticSize) limit cur) (.rest ops limit (.enter cur))
  | next {op ops limit s s'} (ran : runOp H buf op limit s = .ok s') :
      Step (.rest (op :: ops) limit s) (.rest ops limit s')
  | field {op ops limit s} (dynamic : op.isValue) :
      Step (.rest (op :: ops) limit s) (.value op limit s.cur)
  | present {pred thn c ops limit s p} (eval : eval s.cur.fs pred s.cur.pos = .ok p) (holds : p ≠ 0) :
      Step (.rest (.cond pred thn c :: ops) limit s) (.value thn limit s.cur)
  | nest {prog c limit cur} : Step (.value (.nest prog none c) limit cur) (.body prog limit cur)
  | window {prog expr inv c limit cur sz} (size : evalLen cur.fs expr cur.pos = .ok sz)
      (fits : cur.pos + sz ≤ limit) :
      Step (.value (.nest prog (some (.expr expr inv)) c) limit cur) (.body prog (cur.pos + sz) cur)
  | counted {expr inv maxCount elem elemMin c limit cur n} (eval : eval cur.fs expr cur.pos = .ok n)
      (nonneg : 0 ≤ n) (le : n.toNat ≤ maxCount) (le_limit : cur.pos ≤ limit) :
      Step (.value (.array (.expr expr inv) maxCount elem elemMin c) limit cur)
        (.count elem limit n.toNat 0 [] cur)
  | open {maxCount elem elemMin c limit cur} :
      Step (.value (.array .untilEof maxCount elem elemMin c) limit cur)
        (.eof elem limit maxCount 0 [] cur)
  | element {elem limit n i out cur} :
      Step (.count elem limit (n + 1) i out cur) (.value elem limit cur)
  | another {elem limit n i out cur v cur'} (ran : opValue H buf elem limit cur = .ok (v, cur')) :
      Step (.count elem limit (n + 1) i out cur) (.count elem limit n (i + 1) (out ++ [v]) cur')
  | eofElement {elem limit left i out cur} (more : cur.pos < limit) :
      Step (.eof elem limit (left + 1) i out cur) (.value elem limit cur)
  | eofAnother {elem limit left i out cur v cur'} (more : cur.pos < limit)
      (ran : opValue H buf elem limit cur = .ok (v, cur')) :
      Step (.eof elem limit (left + 1) i out cur) (.eof elem limit left (i + 1) (out ++ [v]) cur')
  | branch {on cases default c limit cur tag op} (eval : eval cur.fs on cur.pos = .ok tag)
      (pick : pickCase cases default tag = some op) :
      Step (.value (.switch on cases default c) limit cur) (.value op limit cur)

/-- `t` is evaluated in the course of `s`. -/
def Reaches : Site → Site → Prop := Relation.ReflTransGen (Step H buf)

/-- Some site with `P` is reached from `s`. -/
def Hits (P : Site → Prop) (s : Site) : Prop := ∃ t, Reaches H buf s t ∧ P t

/-- The site a run starts from. -/
def rootSite (prog : Program) (offset : Nat) : Site :=
  .body prog buf.length { fs := [], pos := min offset buf.length }

end Steps

section Rules

variable {H : Hashes} {buf : Bytes} {P : Site → Prop} {s t : Site}

lemma Hits.here (h : P s) : Hits H buf P s := ⟨s, .refl, h⟩

lemma Hits.step (hst : Step H buf s t) (h : Hits H buf P t) : Hits H buf P s := by
  obtain ⟨u, hu, hP⟩ := h
  exact ⟨u, .head hst hu, hP⟩

lemma Hits.mono {Q : Site → Prop} (hPQ : ∀ t, P t → Q t) (h : Hits H buf P s) : Hits H buf Q s := by
  obtain ⟨u, hu, hP⟩ := h
  exact ⟨u, hu, hPQ u hP⟩

/-- What the steps keep holds of every site that is reached. -/
lemma Reaches.induct {I : Site → Prop} (hI : ∀ s t, I s → Step H buf s t → I t) (hs : I s)
    (h : Reaches H buf s t) : I t := by
  induction h with
  | refl => exact hs
  | tail _ hst ih => exact hI _ _ ih hst

end Rules

section Ops

variable (H : Hashes) (buf : Bytes)

lemma runOp_of_isValue {op : Op} (h : op.isValue) :
    ∃ c, op.common = some c ∧ runOp H buf op = runField c (opValue H buf op) := by
  obtain ⟨c, hc⟩ : ∃ c, op.common = some c := by
    cases op <;> first | exact ⟨_, rfl⟩ | cases h
  refine ⟨c, hc, runOp_value H buf op c hc ?_ ?_⟩
  · rintro algo overs verify be c rfl
    cases h
  · rintro pred thn c rfl
    cases h

lemma pick_eq (cases : List (Int × Op)) (default : Option Op) (tag : Int) :
    (findCase H buf cases tag).or (defaultCase H buf default) =
      (pickCase cases default tag).map (opValue H buf) := by
  have hd : defaultCase H buf default = default.map (opValue H buf) := by
    cases default <;> simp [defaultCase]
  have hf : findCase H buf cases tag =
      ((cases.find? fun branch => branch.1 = tag).map Prod.snd).map (opValue H buf) := by
    induction cases with
    | nil => simp [findCase]
    | cons branch cases ih =>
      obtain ⟨t, op⟩ := branch
      rw [findCase, List.find?_cons]
      by_cases ht : t = tag
      · simp [ht]
      · simp [ht, ih]
  rw [hd, hf, pickCase, Option.map_or]

lemma opValue_switch (on : Expr) (cases : List (Int × Op)) (default : Option Op) (c : Common) :
    opValue H buf (.switch on cases default c) =
      doSwitch on (fun tag => (pickCase cases default tag).map (opValue H buf)) := by
  rw [opValue]
  simp only [pick_eq]

/-- A picked branch is one of the cases or the default. -/
lemma pickCase_mem {cases : List (Int × Op)} {default : Option Op} {tag : Int} {op : Op}
    (h : pickCase cases default tag = some op) :
    (∃ branch ∈ cases, branch.2 = op) ∨ default = some op := by
  unfold pickCase at h
  cases hf : cases.find? fun branch => branch.1 = tag with
  | some branch =>
    rw [hf] at h
    exact .inl ⟨branch, List.mem_of_find?_eq_some hf, by simpa using h⟩
  | none =>
    rw [hf] at h
    exact .inr (by simpa using h)

end Ops

/-- `P` holds of every op of the site. -/
def Site.Every (P : Op → Prop) : Site → Prop
  | .value op _ _ => op.Every P
  | .body prog _ _ => prog.Every P
  | .rest ops _ _ => ∀ op ∈ ops, op.Every P
  | .count elem _ _ _ _ _ | .eof elem _ _ _ _ _ => elem.Every P

lemma Step.every {P : Op → Prop} {H : Hashes} {buf : Bytes} {s t : Site} (hs : s.Every P)
    (h : Step H buf s t) : t.Every P := by
  cases h with
  | enter => exact opsEvery_iff.mp hs
  | next => exact fun op ho => hs op (by simp [ho])
  | field => exact hs _ (by simp)
  | @present pred thn c =>
    have hc : (Op.cond pred thn c).Every P := hs _ (by simp)
    exact hc.2
  | nest | window | counted | «open» => exact hs.2
  | element | another | eofElement | eofAnother => exact hs
  | branch eval pick =>
    obtain ⟨branch, hb, rfl⟩ | ho := pickCase_mem pick
    · exact casesEvery_iff.mp hs.2.1 branch hb
    · exact defaultEvery_iff.mp hs.2.2 _ ho

/-- The error without its path. -/
def UFail.bare : UFail → UFail
  | .incomplete needed => .incomplete needed
  | .invalid inv => .invalid { inv with path := [] }

/-- How a computation failed, if it did, but for the path. -/
def verdict {α : Type} : URes α → Option (Trap UFail)
  | .ok _ => none
  | .error (.err e) => some (.err e.bare)
  | .error .panic => some .panic

section Verdict

variable {α β : Type}

@[simp] lemma verdict_ok (a : α) : verdict (.ok a) = none := rfl

@[simp] lemma verdict_fail (e : UFail) : verdict (Exec.fail e : URes α) = some (.err e.bare) := rfl

@[simp] lemma verdict_panic : verdict (Exec.panic : URes α) = some .panic := rfl

@[simp] lemma bare_seg (e : UFail) (seg : Seg) : (e.seg seg).bare = e.bare := by
  cases e <;> rfl

@[simp] lemma bare_pushKey (key : Key) (e : UFail) : (pushKey key e).bare = e.bare := by
  unfold pushKey
  split <;> simp

lemma verdict_mapErr {f : UFail → UFail} (hf : ∀ e, (f e).bare = e.bare) (x : URes α) :
    verdict (Exec.mapErr f x) = verdict x := by
  cases x using Exec.cases_on <;> simp [hf]

lemma verdict_bind {x : URes α} {f : α → URes β} {t : Trap UFail} (h : verdict x = some t) :
    verdict (x >>= f) = some t := by
  cases x using Exec.cases_on with
  | ok a => cases h
  | fail e => exact h
  | panic => exact h

lemma verdict_bind_ok {x : URes α} {f : α → URes β} {a : α} (h : x = .ok a) :
    verdict (x >>= f) = verdict (f a) := by
  subst h
  rfl

end Verdict

/-- How the evaluation of a site fails, if it does. -/
def Site.verdict (H : Hashes) (buf : Bytes) : Site → Option (Trap UFail)
  | value op limit cur => Rustruct.verdict (opValue H buf op limit cur)
  | body prog limit cur => Rustruct.verdict (runStruct H buf prog limit cur)
  | rest ops limit s => Rustruct.verdict (runOps H buf ops limit s)
  | count elem limit n i out cur =>
    Rustruct.verdict (countLoop (opValue H buf elem) limit n i out cur)
  | eof elem limit left i out cur =>
    Rustruct.verdict (eofLoop (opValue H buf elem) limit left i out cur)

section Propagation

variable {H : Hashes} {buf : Bytes} {s s' : Site} {t : Trap UFail}

lemma Step.verdict (h : Step H buf s s') (ht : s'.verdict H buf = some t) :
    s.verdict H buf = some t := by
  cases h with
  | enter room =>
    simp only [Site.verdict, runStruct, withFrame]
    rw [if_neg (Nat.not_le_of_lt room)]
    exact verdict_bind ht
  | next ran =>
    simp only [Site.verdict, runOps]
    rwa [verdict_bind_ok ran]
  | field dynamic =>
    obtain ⟨c, -, hrun⟩ := runOp_of_isValue H buf dynamic
    simp only [Site.verdict, runOps, hrun, runField]
    refine verdict_bind (verdict_bind ?_)
    rwa [verdict_mapErr fun e => bare_pushKey c.key e]
  | @present pred thn c ops limit s p eval holds =>
    simp only [Site.verdict, runOps, runOp, runCond, eval, Exec.bind_ok]
    rw [if_pos holds]
    refine verdict_bind (verdict_bind ?_)
    rwa [verdict_mapErr fun e => bare_pushKey c.key e]
  | nest =>
    simp only [Site.verdict, opValue]
    exact ht
  | window size fits =>
    simp only [Site.verdict, opValue, doNest, size, Exec.bind_ok, need, if_pos fits]
    exact verdict_bind ht
  | counted eval nonneg le le_limit =>
    simp only [Site.verdict, opValue, doArray, eval, Exec.bind_ok]
    rw [if_neg (by omega), if_neg (by omega), checkedSub_of_le le_limit]
    exact ht
  | «open» =>
    simp only [Site.verdict, opValue]
    exact ht
  | element =>
    simp only [Site.verdict, countLoop]
    refine verdict_bind ?_
    rwa [verdict_mapErr fun e => bare_seg e _]
  | another ran =>
    simp only [Site.verdict, countLoop, ran]
    exact ht
  | eofElement more =>
    simp only [Site.verdict, eofLoop]
    rw [if_pos more]
    refine verdict_bind ?_
    rwa [verdict_mapErr fun e => bare_seg e _]
  | eofAnother more ran =>
    simp only [Site.verdict, eofLoop, ran]
    rw [if_pos more]
    exact ht
  | branch eval pick =>
    simp only [Site.verdict, opValue_switch, doSwitch, eval, Exec.bind_ok, pick, Option.map_some]
    exact ht

/-- A site that fails makes every site that led to it fail in the same way. -/
lemma Reaches.verdict (h : Reaches H buf s s') (ht : s'.verdict H buf = some t) :
    s.verdict H buf = some t := by
  induction h with
  | refl => exact ht
  | tail _ hst ih => exact ih (hst.verdict ht)

end Propagation

/-- A place in a run of `pack`, with what has been written there. -/
inductive PSite where
  | value (op : Op) (v : Value) (ctx : PCtx)
  | body (prog : Program) (v : Value) (ctx : PCtx)
  | rest (ops : List Op) (view : FieldIndex) (ctx : PCtx)
  | elems (elem : Op) (vs : List Value) (ctx : PCtx)

def PSite.ctx : PSite → PCtx
  | value _ _ ctx | body _ _ ctx | rest _ _ ctx | elems _ _ ctx => ctx

section PSteps

variable (H : Hashes)

/-- One site packs another. -/
inductive PStep : PSite → PSite → Prop where
  | enter {ops nregs nspans minSize staticSize v view ctx} (map : v.mapView = some view) :
      PStep (.body (.mk ops nregs nspans minSize staticSize) v ctx)
        (.rest ops view { ctx with frames := .new :: ctx.frames })
  | next {op ops view ctx ctx'} (ran : packOp H op view ctx = .ok ctx') :
      PStep (.rest (op :: ops) view ctx) (.rest ops view ctx')
  | field {op ops view ctx c v} (dynamic : op.isValue) (common : op.common = some c)
      (entry : lookup view c.key = some v) : PStep (.rest (op :: ops) view ctx) (.value op v ctx)
  | present {pred thn c ops view ctx p v} (eval : ctx.eval pred = .ok p) (holds : p ≠ 0)
      (entry : lookup view c.key = some v) : PStep (.rest (.cond pred thn c :: ops) view ctx) (.value thn v ctx)
  | nest {prog size c v ctx} : PStep (.value (.nest prog size c) v ctx) (.body prog v ctx)
  | list {count maxCount elem elemMin c v vs ctx} (list : v.asList = some vs) :
      PStep (.value (.array count maxCount elem elemMin c) v ctx) (.elems elem vs ctx)
  | element {elem v vs ctx} : PStep (.elems elem (v :: vs) ctx) (.value elem v ctx)
  | another {elem v vs ctx ctx'} (ran : packValue H elem v ctx = .ok ctx') :
      PStep (.elems elem (v :: vs) ctx) (.elems elem vs ctx')
  | branch {on cases default c v ctx tag op} (eval : ctx.eval on = .ok tag)
      (pick : pickCase cases default tag = some op) :
      PStep (.value (.switch on cases default c) v ctx) (.value op v ctx)

/-- `t` is packed in the course of `s`. -/
def PReaches : PSite → PSite → Prop := Relation.ReflTransGen (PStep H)

/-- `P` holds of every site in the course of `s`. -/
def PAlways (P : PSite → Prop) (s : PSite) : Prop := ∀ t, PReaches H s t → P t

/-- The site a run starts from. -/
def rootPSite (prog : Program) (values : Value) : PSite := .body prog values { out := [], frames := [] }

end PSteps

section PRules

variable {H : Hashes} {P : PSite → Prop} {s t : PSite}

lemma PAlways.here (h : PAlways H P s) : P s := h s .refl

lemma PAlways.step (h : PAlways H P s) (hst : PStep H s t) : PAlways H P t := fun u hu => h u (.head hst hu)

/-- `P` holds of every op of the site. -/
def PSite.Every (P : Op → Prop) : PSite → Prop
  | .value op _ _ => op.Every P
  | .body prog _ _ => prog.Every P
  | .rest ops _ _ => ∀ op ∈ ops, op.Every P
  | .elems elem _ _ => elem.Every P

lemma PStep.every {P : Op → Prop} (hs : s.Every P) (h : PStep H s t) : t.Every P := by
  cases h with
  | enter => exact opsEvery_iff.mp hs
  | next => exact fun op ho => hs op (by simp [ho])
  | field => exact hs _ (by simp)
  | @present pred thn c =>
    have hc : (Op.cond pred thn c).Every P := hs _ (by simp)
    exact hc.2
  | nest | list => exact hs.2
  | element | another => exact hs
  | branch eval pick =>
    obtain ⟨branch, hb, rfl⟩ | ho := pickCase_mem pick
    · exact casesEvery_iff.mp hs.2.1 branch hb
    · exact defaultEvery_iff.mp hs.2.2 _ ho

end PRules

end Rustruct

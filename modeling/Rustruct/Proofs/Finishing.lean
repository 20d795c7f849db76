import Rustruct.Proofs.Declaring

/-!
# The end of a scope

Derived marks, bit alignment and digest spans, and the program they leave.
-/

namespace Rustruct

/-- The field as it is pushed. -/
def Atom.bare : Atom → Piece
  | .fixed kind key => .fixed kind none none key
  | .bit width signed key => .bit { width, signed, reg := none, derived := false, key }
  | .digest algo _ verify be name => .op (.digest algo (.spans []) verify be (.named name))
  | .op o name => .op (o.withCommon fun _ => .named name)
  | .cond pred thn name => .op (.cond pred thn (.named name))

def Op.isDigest : Op → Bool
  | .digest .. => true
  | _ => false

/-- Nothing is marked, and an op field is not a digest. -/
def Atom.Proper : Atom → Prop
  | .fixed kind _ => kind.unmark = kind
  | .op o _ => o.common.isSome ∧ o.isDigest = false
  | _ => True

/-- The names and covers of the digests. -/
def Atom.digest? : Atom → Option (String × OverIn)
  | .digest _ overs _ _ name => some (name, overs)
  | _ => none

/-- What a digest field covers. -/
def Piece.overs : Piece → Option Over
  | .op (.digest _ overs _ _ _) => some overs
  | _ => none

/-- The covers of the digests among `ds` are resolved. -/
def OversDone (syms : List Sym) (ops : List Op) (ds : List (String × OverIn)) : Prop :=
  ∀ d ∈ ds, ∀ p ∈ piecesOf ops, p.key = .named d.1 → ∀ overs ∈ p.overs, OverIs syms d.2 overs

lemma unmark_mark {kind k : FixKind} (hk : k.unmark = kind.unmark) (hkind : kind.unmark = kind) :
    k = if k.isDerived then kind.markDerived else kind := by
  rw [← hkind, ← hk]
  cases k with
  | int prim be expected derived => cases derived <;> rfl
  | _ => rfl

@[simp] lemma isDigest_withCommon (f : Common → Common) (o : Op) :
    (o.withCommon f).isDigest = o.isDigest := by
  cases o <;> rfl

@[simp] lemma isDigest_setOver (overs : Over) (o : Op) : (o.setOver overs).isDigest = o.isDigest := by
  cases o <;> rfl

lemma setOver_of_not_digest {o : Op} (h : o.isDigest = false) (overs : Over) : o.setOver overs = o := by
  cases o <;> first | rfl | cases h

lemma withCommon_self {o : Op} {c : Common} (h : o.common = some c) : (o.withCommon fun _ => c) = o := by
  cases o <;> first | cases h; rfl | cases h

/-- An op field in the ops is the pushed one with a span. -/
lemma op_of_bare {o o' : Op} {name : String} {s : Option Nat} (hc : o.common.isSome)
    (hd : o.isDigest = false)
    (hb : (o'.setOver (.spans [])).withCommon (fun c => { c with span := none }) =
      o.withCommon fun _ => .named name)
    (hspan : (Piece.op o').key = .named name → o'.common.bind Common.span = s) :
    o' = o.withCommon fun _ => { key := .named name, span := s } := by
  have hd' : o'.isDigest = false := by
    have := congrArg Op.isDigest hb
    simpa [hd] using this
  rw [setOver_of_not_digest hd'] at hb
  obtain ⟨c, hc⟩ := Option.isSome_iff_exists.mp hc
  obtain ⟨c', hc', hnone⟩ : ∃ c', o'.common = some c' ∧ { c' with span := none } = Common.named name := by
    have := congrArg Op.common hb
    simpa [hc] using this
  have hkey : c'.key = .named name := congrArg Common.key hnone
  have hsp : c'.span = s := by simpa [hc'] using hspan (by simp [Piece.key, hc', hkey])
  have hb' := congrArg (Op.withCommon fun _ => c') hb
  simp only [withCommon_withCommon] at hb'
  rw [← withCommon_self hc', ← hkey, ← hsp]
  exact hb'

/-- A field in the ops is the field that was pushed, with the marks of its symbol. -/
lemma realizes_of {full : List Sym} {a : Atom} {p : Piece} (hb : p.bare = a.bare) (ha : a.Proper)
    (hl : Linked full p) (ho : ∀ d ∈ a.digest?, ∀ overs ∈ p.overs, OverIs full d.2 overs) :
    Realizes full a p := by
  obtain ⟨hreg, hspan, hder⟩ := hl
  cases a with
  | fixed kind key =>
    cases p with
    | fixed k reg span key' =>
      simp only [Piece.bare, Atom.bare, Piece.fixed.injEq, true_and] at hb
      obtain ⟨hk, rfl⟩ := hb
      simp only [Piece.reg, Piece.span, Piece.derived, Piece.key] at hreg hspan hder
      rw [Realizes, ← hreg, ← hspan, ← hder, ← unmark_mark (hk.trans ha.symm) ha]
    | bit | op => simp [Piece.bare, Atom.bare] at hb
  | bit width signed key =>
    cases p with
    | bit item =>
      obtain ⟨w, sg, reg, der, key'⟩ := item
      simp only [Piece.bare, Atom.bare, Piece.bit.injEq, BitItem.mk.injEq, true_and] at hb
      obtain ⟨rfl, rfl, rfl⟩ := hb
      simp only [Piece.reg, Piece.derived, Piece.key] at hreg hder
      rw [Realizes, ← hreg, ← hder]
    | fixed | op => simp [Piece.bare, Atom.bare] at hb
  | digest algo overs verify be name =>
    cases p with
    | op o =>
      cases o <;> simp only [Piece.bare, Atom.bare, Op.setOver, Op.withCommon, Piece.op.injEq,
        reduceCtorEq] at hb
      rename_i algo' overs' verify' be' c
      obtain ⟨key, span⟩ := c
      simp only [Op.digest.injEq, Common.named, Common.mk.injEq, true_and, and_true] at hb
      obtain ⟨rfl, rfl, rfl, rfl⟩ := hb
      refine ⟨overs', ho _ rfl overs' rfl, ?_⟩
      have : span = spanOf full (.named name) := hspan
      rw [this]
    | fixed | bit => simp [Piece.bare, Atom.bare] at hb
  | op o name =>
    cases p with
    | op o' =>
      simp only [Piece.bare, Atom.bare, Piece.op.injEq] at hb
      have h := op_of_bare (s := spanOf full (.named name)) ha.1 ha.2 hb fun hk => by
        rw [← hk]
        exact hspan
      rw [Realizes, ← h]
    | fixed | bit => simp [Piece.bare, Atom.bare] at hb
  | cond pred thn name =>
    cases p with
    | op o =>
      cases o <;> simp only [Piece.bare, Atom.bare, Op.setOver, Op.withCommon, Piece.op.injEq,
        reduceCtorEq] at hb
      rename_i pred' thn' c
      obtain ⟨key, span⟩ := c
      simp only [Op.cond.injEq, Common.named, Common.mk.injEq, and_true] at hb
      obtain ⟨rfl, rfl, rfl⟩ := hb
      have : span = spanOf full (.named name) := hspan
      rw [Realizes, this]
    | fixed | bit => simp [Piece.bare, Atom.bare] at hb

/-- The mark of a symbol at the end of its scope. -/
def Sym.settle (s : Sym) : Sym :=
  { s with derived := s.lenReferenced && !s.usedInOn && !s.isConst }

lemma resolveDerives_ok {rest : List Sym} (done : List Sym) {sc sc' : Scope} (hsplit : sc.syms = done ++ rest)
    (hok : ScopeOk sc) (hnone : ∀ s ∈ rest, s.derived = false)
    (h : resolveDerives sc rest done.length = .ok sc') :
    ScopeOk sc' ∧ sc'.syms = done ++ rest.map Sym.settle ∧
      (piecesOf sc'.ops).map Piece.bare = (piecesOf sc.ops).map Piece.bare ∧
      sc'.digests = sc.digests := by
  induction rest generalizing done sc with
  | nil =>
    cases h
    exact ⟨hok, by simpa using hsplit, rfl, rfl⟩
  | cons s rest ih =>
    have hs := hnone s (by simp)
    have hlen : done.length + 1 = (done ++ [s.settle]).length := by simp
    rw [resolveDerives] at h
    split_ifs at h with hcond
    · simp only [Exec.bind_eq_ok] at h
      obtain ⟨ops, hops, h⟩ := h
      obtain ⟨hlen', hon, hconst, -⟩ := hcond
      have hset : s.settle = { s with derived := true } := by
        simp [Sym.settle, hlen', hon, hconst]
      obtain ⟨ops₀, syms, nregs, nspans, digests⟩ := sc
      subst hsplit
      rw [modify_split, ← hset] at h
      have hp := patchDerived_patched (hok.keys s (by simp)) hops
      have hsyms := hok.syms
      have href := hsyms.refable s (by simp) (hsyms.referenced s (by simp) (.inl hlen'))
      have hok₁ : ScopeOk { ops, syms := done ++ s.settle :: rest, nregs, nspans, digests } := by
        refine hok.patch hp harmless_setDerived rfl rfl rfl ?_ ?_
        · intro p hpm hk hreg hspan _
          have hint := (hok.fits p hpm s (by simp) hk).1 href
          cases p with
          | fixed kind =>
            cases kind with
            | int => exact ⟨hreg, hspan, by rw [hset]; rfl⟩
            | _ => cases hint
          | bit => exact ⟨hreg, hspan, by rw [hset]; rfl⟩
          | op => cases hint
        · exact hsyms.replace rfl (hsyms.regs.replace (Nat.le_refl _) (.inl rfl)) hsyms.nregs_le
            (hsyms.spans.replace (Nat.le_refl _) (.inl rfl)) hsyms.nspans_le
            (hsyms.refable s (by simp)) (hsyms.spannable s (by simp)) (hsyms.referenced s (by simp))
      rw [hlen] at h
      obtain ⟨hok', hsyms', hbare, hdig⟩ :=
        ih _ (by simp) hok₁ (fun t ht => hnone t (by simp [ht])) h
      refine ⟨hok', by simpa using hsyms', ?_, hdig⟩
      rw [hbare]
      simp only
      exact hp.bare hok harmless_setDerived
    · have hset : s.settle = s := by
        have hder : (s.lenReferenced && !s.usedInOn && !s.isConst) = false := by
          cases hl : s.lenReferenced <;> cases ho : s.usedInOn <;> cases hc : s.isConst <;>
            simp_all
        rw [Sym.settle, hder, ← hs]
      rw [hlen] at h
      obtain ⟨hok', hsyms', hbare, hdig⟩ :=
        ih _ (by simp [hsplit, hset]) hok (fun t ht => hnone t (by simp [ht])) h
      exact ⟨hok', by simpa using hsyms', hbare, hdig⟩

/-- An op with its bits counted. -/
structure AlignedTo (o o' : Op) : Prop where
  pieces : o'.pieces = o.pieces
  keys : ∀ loc, keyIn loc o' = keyIn loc o
  run : o.Run → o'.Run
  laid : o.Run → o'.Laid

lemma AlignedTo.refl {o : Op} (h : ∀ nbytes items, o ≠ .bitRun nbytes items) : AlignedTo o o where
  pieces := rfl
  keys _ := rfl
  run := id
  laid hr := by
    cases o with
    | bitRun nbytes items => exact absurd rfl (h nbytes items)
    | fixed => exact hr
    | _ => trivial

lemma alignBits_ok {ops ops' : List Op} (h : alignBits ops = .ok ops') :
    List.Forall₂ AlignedTo ops ops' := by
  induction ops generalizing ops' with
  | nil =>
    cases h
    exact .nil
  | cons o ops ih =>
    by_cases hb : ∃ nbytes items, o = .bitRun nbytes items
    · obtain ⟨nbytes, items, rfl⟩ := hb
      rw [alignBits] at h
      split_ifs at h with ht
      · simp [schemaErr] at h
      · simp only [Exec.bind_eq_ok, Except.ok.injEq] at h
        obtain ⟨ops₁, hops, rfl⟩ := h
        refine .cons ⟨rfl, fun loc => ?_, id, fun hr => ⟨hr, ?_⟩⟩ (ih hops)
        · cases loc <;> rfl
        · omega
    · have h' : (do .ok (o :: (← alignBits ops)) : SRes (List Op)) = .ok ops' := by
        cases o <;> first | exact absurd ⟨_, _, rfl⟩ hb | exact h
      simp only [Exec.bind_eq_ok, Except.ok.injEq] at h'
      obtain ⟨ops₁, hops, rfl⟩ := h'
      exact .cons (.refl fun nbytes items he => hb ⟨nbytes, items, he⟩) (ih hops)

lemma AlignedTo.piecesOf {ops ops' : List Op} (h : List.Forall₂ AlignedTo ops ops') :
    piecesOf ops' = piecesOf ops := by
  induction h with
  | nil => rfl
  | cons ho _ ih => rw [piecesOf_cons, piecesOf_cons, ho.pieces, ih]

lemma AlignedTo.keyAt {ops ops' : List Op} (h : List.Forall₂ AlignedTo ops ops') (loc : Loc) :
    keyAt ops' loc = keyAt ops loc := by
  unfold Rustruct.keyAt
  generalize loc.index = i
  induction h generalizing i with
  | nil => rfl
  | cons ho _ ih =>
    cases i with
    | zero => exact ho.keys loc
    | succ i => simpa using ih i

lemma AlignedTo.forall {P Q : Op → Prop} (hPQ : ∀ o o', AlignedTo o o' → P o → Q o')
    {ops ops' : List Op} (h : List.Forall₂ AlignedTo ops ops') (hP : ∀ o ∈ ops, P o) :
    ∀ o ∈ ops', Q o := by
  induction h with
  | nil => simp
  | cons ho _ ih =>
    intro o hm
    obtain rfl | hm := List.mem_cons.mp hm
    · exact hPQ _ _ ho (hP _ (by simp))
    · exact ih (fun o' h' => hP o' (by simp [h'])) o hm

lemma ScopeOk.align {sc : Scope} {ops' : List Op} (hok : ScopeOk sc)
    (h : List.Forall₂ AlignedTo sc.ops ops') : ScopeOk { sc with ops := ops', digests := [] } where
  syms := hok.syms
  names := (congrArg namesOf (AlignedTo.piecesOf h)).trans hok.names
  keys s hs := (AlignedTo.keyAt h _).trans (hok.keys s hs)
  linked := by
    simp only [AlignedTo.piecesOf h]
    exact hok.linked
  fits := by
    simp only [AlignedTo.piecesOf h]
    exact hok.fits
  runs := AlignedTo.forall (fun _ _ => AlignedTo.run) h hok.runs
  digests := by simp

lemma laid_congr {o o' : Op} (h : o.layout = o'.layout) (hl : o.Laid) : o'.Laid := by
  cases o with
  | fixed width items =>
    cases o' <;> simp only [Op.layout, reduceCtorEq] at h
    injection h with hw hi
    subst hw
    exact laidRun_congr hi hl
  | bitRun nbytes items =>
    cases o' <;> simp only [Op.layout, reduceCtorEq] at h
    injection h with hn hi
    subst hn
    refine ⟨fun he => ?_, ?_⟩
    · subst he
      exact hl.1 (by simpa using hi)
    · rw [bitTotal, bitWidth, ← hi]
      exact hl.2
  | _ => cases o' <;> trivial

/-- What the resolution of an `over` may change in a symbol. -/
structure SpanStep (s t : Sym) : Prop where
  same : t = { s with span := t.span }
  span : ∀ i ∈ s.span, t.span = some i

lemma SpanStep.refl (s : Sym) : SpanStep s s := ⟨rfl, fun _ h => h⟩

lemma SpanStep.trans {s t u : Sym} (h : SpanStep s t) (h' : SpanStep t u) : SpanStep s u := by
  refine ⟨?_, fun i hi => h'.span i (h.span i hi)⟩
  rw [h'.same, h.same]

lemma SpanStep.name {s t : Sym} (h : SpanStep s t) : t.name = s.name := by rw [h.same]

/-- One step of the resolution of the digests of a scope. -/
structure Spanned (sc sc' : Scope) : Prop where
  ok : ScopeOk sc'
  syms : List.Forall₂ SpanStep sc.syms sc'.syms
  keys : ∀ loc, keyAt sc'.ops loc = keyAt sc.ops loc
  layout : sc'.ops.map Op.layout = sc.ops.map Op.layout
  bare : (piecesOf sc'.ops).map Piece.bare = (piecesOf sc.ops).map Piece.bare
  nregs : sc'.nregs = sc.nregs

lemma Spanned.refl {sc : Scope} (h : ScopeOk sc) : Spanned sc sc :=
  ⟨h, forall₂_refl SpanStep.refl _, fun _ => rfl, rfl, rfl, rfl⟩

lemma Spanned.trans {a b c : Scope} (h : Spanned a b) (h' : Spanned b c) : Spanned a c :=
  ⟨h'.ok, forall₂_trans (R := SpanStep) (fun _ _ _ => SpanStep.trans) h.syms h'.syms,
    fun loc => (h'.keys loc).trans (h.keys loc), h'.layout.trans h.layout, h'.bare.trans h.bare,
    h'.nregs.trans h.nregs⟩

lemma findSym_spanStep {syms syms' : List Sym} (h : List.Forall₂ SpanStep syms syms') {n : String}
    {s : Sym} (hs : findSym syms n = some s) : ∃ t, findSym syms' n = some t ∧ SpanStep s t := by
  induction h with
  | nil => cases hs
  | @cons u t _ _ hu _ ih =>
    unfold findSym at hs ih ⊢
    rw [List.find?_cons] at hs ⊢
    rw [hu.name]
    split at hs
    · obtain rfl : u = s := by simpa using hs
      exact ⟨t, rfl, hu⟩
    · exact ih hs

lemma OverIs.step {syms syms' : List Sym} (h : List.Forall₂ SpanStep syms syms') {overIn : OverIn}
    {overs : Over} (ho : OverIs syms overIn overs) : OverIs syms' overIn overs := by
  cases overIn with
  | star => exact ho
  | names names =>
    obtain ⟨idxs, rfl, hf⟩ := ho
    refine ⟨idxs, rfl, hf.imp ?_⟩
    rintro n idx ⟨s, hs, hsp, hi⟩
    obtain ⟨t, ht, hst⟩ := findSym_spanStep h hs
    exact ⟨t, ht, by rw [hst.same]; exact hsp, hst.span idx hi⟩

/-- The covers that are there are those of before. -/
def OversKept (ops ops' : List Op) : Prop :=
  ∀ p' ∈ piecesOf ops', ∃ p ∈ piecesOf ops, p'.key = p.key ∧ p'.overs = p.overs

lemma over_setSpan (idx : Nat) (p : Piece) : (p.setSpan idx).overs = p.overs := by
  cases p with
  | op o => cases o <;> rfl
  | _ => rfl

lemma oversKept_of_patched {sc : Scope} {ops' : List Op} {n : String} {f : Piece → Piece}
    (hok : ScopeOk sc) (hp : Patched n f sc.ops ops') (hf : Harmless f)
    (ho : ∀ p, (f p).overs = p.overs) : OversKept sc.ops ops' := by
  intro q hq
  rw [hp.pieces hok.nodup] at hq
  obtain ⟨p, hpm, rfl⟩ := List.mem_map.mp hq
  refine ⟨p, hpm, ?_, ?_⟩
  · unfold patchNamed
    split_ifs
    · exact hf.key p
    · rfl
  · unfold patchNamed
    split_ifs
    · exact ho p
    · rfl

lemma allocSpan_ok {sc sc' : Scope} {a b : List Sym} {s : Sym} {idx : Nat} (hok : ScopeOk sc)
    (hsplit : sc.syms = a ++ s :: b) (hsp : s.spannable)
    (h : sc.allocSpan a.length s = .ok (idx, sc')) :
    Spanned sc sc' ∧ OversKept sc.ops sc'.ops ∧
      ∃ s', sc'.syms = a ++ s' :: b ∧ SpanStep s s' ∧ s'.span = some idx := by
  obtain ⟨ops, syms, nregs, nspans, digests⟩ := sc
  subst hsplit
  unfold Scope.allocSpan at h
  cases hspan : s.span with
  | some i =>
    simp only [hspan, Except.ok.injEq, Prod.mk.injEq] at h
    obtain ⟨rfl, rfl⟩ := h
    exact ⟨.refl hok, fun p hp => ⟨p, hp, rfl, rfl⟩, s, rfl, .refl s, hspan⟩
  | none =>
    simp only [hspan] at h
    split_ifs at h with hmax
    · simp [schemaErr] at h
    simp only [Exec.bind_eq_ok, Except.ok.injEq, Prod.mk.injEq] at h
    obtain ⟨ops', hops, rfl, rfl⟩ := h
    have hp := patchSpan_patched (hok.keys s (by simp)) hops
    have hstep : SpanStep s { s with span := some nspans } :=
      ⟨rfl, fun r hr => by rw [hspan] at hr; cases hr⟩
    rw [modify_split]
    have hsyms := hok.syms
    refine ⟨⟨?_, List.rel_append (forall₂_refl SpanStep.refl a)
        (.cons hstep (forall₂_refl SpanStep.refl b)), hp.keys, hp.layout,
        hp.bare hok (harmless_setSpan nspans), rfl⟩, ?_, _, rfl, hstep, rfl⟩
    · refine hok.patch hp (harmless_setSpan nspans) rfl rfl rfl ?_ ?_
      · intro p hpm hk hreg _ hder
        have hbit := (hok.fits p hpm s (by simp) hk).2 hsp
        cases p with
        | fixed => exact ⟨hreg, rfl, hder⟩
        | bit => cases hbit
        | op o =>
          refine ⟨hreg, ?_, hder⟩
          cases hc : o.common with
          | none => simp [Piece.key, hc] at hk
          | some c => simp [Piece.setSpan, Piece.span, hc]
      · refine hsyms.replace rfl (hsyms.regs.replace (Nat.le_refl _) (.inl rfl)) hsyms.nregs_le
          (hsyms.spans.replace (Nat.le_succ _) (.inr ⟨_, rfl, Nat.le_refl _, Nat.lt_succ_self _⟩))
          (by omega) (hsyms.refable s (by simp)) (fun _ => hsp) (hsyms.referenced s (by simp))
    · exact oversKept_of_patched hok hp (harmless_setSpan nspans) (over_setSpan nspans)

lemma OversKept.trans {a b c : List Op} (h : OversKept a b) (h' : OversKept b c) :
    OversKept a c := by
  intro p hp
  obtain ⟨q, hq, hk, ho⟩ := h' p hp
  obtain ⟨r, hr, hk', ho'⟩ := h q hq
  exact ⟨r, hr, hk.trans hk', ho.trans ho'⟩

lemma OversDone.kept {syms syms' : List Sym} {ops ops' : List Op} {ds : List (String × OverIn)}
    (h : OversDone syms ops ds) (hs : List.Forall₂ SpanStep syms syms') (hk : OversKept ops ops') :
    OversDone syms' ops' ds := by
  intro d hd p hp hkey overs ho
  obtain ⟨q, hq, hkq, hoq⟩ := hk p hp
  exact (h d hd q hq (hkq ▸ hkey) overs (hoq ▸ ho)).step hs

lemma resolveOver_ok {dname : String} {names : List String} {sc sc' : Scope} {spans : List Nat}
    (hok : ScopeOk sc) (h : resolveOver dname names sc = .ok (spans, sc')) :
    Spanned sc sc' ∧ OversKept sc.ops sc'.ops ∧ OverIs sc'.syms (.names names) (.spans spans) := by
  induction names generalizing sc spans with
  | nil =>
    cases h
    exact ⟨.refl hok, fun p hp => ⟨p, hp, rfl, rfl⟩, [], rfl, .nil⟩
  | cons n names ih =>
    rw [resolveOver] at h
    cases hpos : sc.syms.findIdx? (fun s => s.name == n) with
    | none => simp [hpos, schemaErr] at h
    | some pos =>
      obtain ⟨a, s, b, hsplit, rfl, hname, hget⟩ := findIdx_name hpos
      simp only [hpos, hget, Exec.expect_some, Exec.bind_ok] at h
      by_cases hsp : s.spannable
      swap
      · simp [hsp, schemaErr] at h
      simp only [hsp, not_true, if_false, Exec.bind_eq_ok, Prod.exists, Except.ok.injEq,
        Prod.mk.injEq] at h
      obtain ⟨idx, sc₁, hal, spans', sc₂, hrest, rfl, rfl⟩ := h
      obtain ⟨hspd, hkept, s', hs', hss, hidx⟩ := allocSpan_ok hok hsplit hsp hal
      obtain ⟨hspd', hkept', idxs, hidxs, hall⟩ := ih hspd.ok hrest
      cases hidxs
      have hfind : findSym sc₁.syms n = some s' := by
        rw [← hname, ← hss.name]
        exact findSym_of_mem hspd.ok.syms.names (by simp [hs'])
      obtain ⟨t, ht, hst⟩ := findSym_spanStep hspd'.syms hfind
      refine ⟨hspd.trans hspd', hkept.trans hkept', _, rfl, .cons ⟨t, ht, ?_, hst.span idx hidx⟩ hall⟩
      rw [hst.same, hss.same]
      exact hsp

lemma resolveOverIn_ok {dname : String} {overIn : OverIn} {sc sc' : Scope} {overs : Over}
    (hok : ScopeOk sc) (h : resolveOverIn dname overIn sc = .ok (overs, sc')) :
    Spanned sc sc' ∧ OversKept sc.ops sc'.ops ∧ OverIs sc'.syms overIn overs := by
  cases overIn with
  | star =>
    cases h
    exact ⟨.refl hok, fun p hp => ⟨p, hp, rfl, rfl⟩, rfl⟩
  | names names =>
    simp only [resolveOverIn, Exec.bind_eq_ok, Prod.exists, Except.ok.injEq, Prod.mk.injEq] at h
    obtain ⟨spans, sc₁, hr, rfl, rfl⟩ := h
    exact resolveOver_ok hok hr

/-- The op at a place that has a name is a field of that name. -/
lemma mem_names_of_keyAt {ops : List Op} {i : Nat} {n : String}
    (h : keyAt ops (.op i) = some (.named n)) : n ∈ namesOf (piecesOf ops) := by
  obtain ⟨o, ho, hk⟩ := Option.bind_eq_some_iff.mp h
  obtain ⟨c, hc, hck⟩ := Option.map_eq_some_iff.mp hk
  refine mem_namesOf.mpr ⟨.op o, ?_, by simp [Piece.key, hc, hck]⟩
  refine List.mem_flatMap.mpr ⟨o, List.mem_of_getElem? ho, ?_⟩
  rw [pieces_of_common hc]
  exact List.mem_singleton_self _

/-- The cover of a digest, once its spans are there. -/
lemma setOver_ok {sc : Scope} {ops' : List Op} {n : String} {overs : Over} (hok : ScopeOk sc)
    (hn : n ∈ namesOf (piecesOf sc.ops)) (hp : Patched n (Piece.setOver overs) sc.ops ops') :
    Spanned sc { sc with ops := ops' } := by
  obtain ⟨ops, syms, nregs, nspans, digests⟩ := sc
  have hmem : n ∈ syms.map Sym.name := hok.names ▸ hn
  obtain ⟨s, hs, rfl⟩ := List.mem_map.mp hmem
  obtain ⟨a, b, rfl⟩ := List.append_of_mem hs
  refine ⟨?_, forall₂_refl SpanStep.refl _, hp.keys, hp.layout,
    hp.bare hok (harmless_setOver overs), rfl⟩
  refine hok.patch hp (harmless_setOver overs) rfl rfl rfl ?_ hok.syms
  intro p _ _ hreg hspan hder
  cases p with
  | op o => cases o <;> exact ⟨hreg, hspan, hder⟩
  | _ => exact ⟨hreg, hspan, hder⟩

lemma over_setOver {p : Piece} {overs overs' : Over} (h : (p.setOver overs).overs = some overs') :
    overs' = overs := by
  cases p with
  | op o =>
    cases o <;> simp [Piece.setOver, Op.setOver, Piece.overs] at h
    exact h.symm
  | _ => simp [Piece.setOver, Piece.overs] at h

lemma OversDone.setOver {sc : Scope} {ops' : List Op} {n : String} {overs : Over} {overIn : OverIn}
    {ds : List (String × OverIn)} (hok : ScopeOk sc) (h : OversDone sc.syms sc.ops ds)
    (hn : n ∉ ds.map Prod.fst) (ho : OverIs sc.syms overIn overs)
    (hp : Patched n (Piece.setOver overs) sc.ops ops') :
    OversDone sc.syms ops' (ds ++ [(n, overIn)]) := by
  intro d hd q hq hkey overs' hover
  rw [hp.pieces hok.nodup] at hq
  obtain ⟨p, hpm, rfl⟩ := List.mem_map.mp hq
  unfold patchNamed at hkey hover
  rcases List.mem_append.mp hd with hd | hd
  · -- A digest resolved before has another name.
    have hne : d.1 ≠ n := fun he => hn (he ▸ List.mem_map_of_mem hd)
    split_ifs at hkey hover with hk
    · rw [(harmless_setOver overs).key, hk] at hkey
      exact absurd (Key.named.inj hkey).symm hne
    · exact h d hd p hpm hkey overs' hover
  · obtain rfl := List.mem_singleton.mp hd
    split_ifs at hkey hover with hk
    · rw [over_setOver hover]
      exact ho
    · exact absurd hkey hk

lemma resolveDigests_ok {ds : List (Nat × OverIn × String)} (done : List (String × OverIn))
    {sc sc' : Scope} (hok : ScopeOk sc)
    (hkeys : ∀ d ∈ ds, keyAt sc.ops (.op d.1) = some (.named d.2.2))
    (hnodup : (done.map Prod.fst ++ ds.map fun d => d.2.2).Nodup)
    (hdone : OversDone sc.syms sc.ops done) (h : resolveDigests ds sc = .ok sc') :
    Spanned sc sc' ∧ OversDone sc'.syms sc'.ops (done ++ ds.map fun d => (d.2.2, d.2.1)) := by
  induction ds generalizing sc done with
  | nil =>
    cases h
    exact ⟨.refl hok, by simpa using hdone⟩
  | cons d ds ih =>
    obtain ⟨opIdx, overIn, dname⟩ := d
    simp only [resolveDigests, Exec.bind_eq_ok, Prod.exists] at h
    obtain ⟨overs, sc₁, hover, ops, hops, h⟩ := h
    obtain ⟨hspd, hkept, his⟩ := resolveOverIn_ok hok hover
    have hkey : keyAt sc₁.ops (.op opIdx) = some (.named dname) :=
      (hspd.keys _).trans (hkeys _ List.mem_cons_self)
    have hp := setOver_patched hkey hops
    have hspd₂ := setOver_ok hspd.ok (mem_names_of_keyAt hkey) hp
    have hfresh : dname ∉ done.map Prod.fst := by
      rw [List.nodup_append] at hnodup
      exact fun hm => hnodup.2.2 dname hm dname (by simp) rfl
    have hdone₂ := (hdone.kept hspd.syms hkept).setOver hspd.ok hfresh his hp
    obtain ⟨hspd₃, hdone₃⟩ := ih _ hspd₂.ok
      (fun d hd => (hp.keys _).trans ((hspd.keys _).trans (hkeys d (List.mem_cons_of_mem _ hd))))
      (by simpa using hnodup) hdone₂ h
    exact ⟨(hspd.trans hspd₂).trans hspd₃, by simpa using hdone₃⟩

lemma key_bare (p : Piece) : p.bare.key = p.key := by
  cases p with
  | op o => cases o <;> rfl
  | _ => rfl

lemma namesOf_bare (ps : List Piece) : namesOf (ps.map Piece.bare) = namesOf ps := by
  simp [namesOf, List.filterMap_map, key_bare]

/-- Each digest is one of the named fields. -/
lemma digests_sublist (atoms : List Atom) :
    ((atoms.filterMap Atom.digest?).map Prod.fst).Sublist (namesOf (atoms.map Atom.bare)) := by
  induction atoms with
  | nil => exact .slnil
  | cons a atoms ih =>
    cases a with
    | digest algo overs verify be name =>
      simpa [Atom.digest?, Atom.bare, namesOf, Piece.key, Op.common, Common.named, Key.name] using ih
    | _ =>
      simp only [Atom.digest?, List.map_cons]
      refine ih.trans ?_
      unfold namesOf
      rw [List.filterMap_cons]
      split
      · exact .refl _
      · exact .cons _ (.refl _)

lemma forall₂_of_map_eq {α β γ : Type} {f : α → γ} {g : β → γ} {l : List α} {m : List β}
    (h : l.map f = m.map g) : List.Forall₂ (fun a b => f a = g b) l m := by
  induction l generalizing m with
  | nil =>
    cases m with
    | nil => exact .nil
    | cons b m => simp at h
  | cons a l ih =>
    cases m with
    | nil => simp at h
    | cons b m =>
      simp only [List.map_cons, List.cons.injEq] at h
      exact .cons h.1 (ih h.2)

/-- The program of a scope whose derived fields are marked. -/
lemma finishScope_ok {sc : Scope} (atoms : List Atom) {prog : Program} (hok : ScopeOk sc)
    (hder : ∀ s ∈ sc.syms, s.derived = (s.lenReferenced && !s.usedInOn && !s.isConst))
    (hbare : (piecesOf sc.ops).map Piece.bare = atoms.map Atom.bare)
    (hproper : ∀ a ∈ atoms, a.Proper)
    (hdig : (sc.digests.map fun d => (d.2.2, d.2.1)) = atoms.filterMap Atom.digest?)
    (h : finishScope sc = .ok prog) :
    ∃ full, Assembled full atoms prog ∧ List.Forall₂ SpanStep sc.syms full := by
  simp only [finishScope, Exec.bind_eq_ok, Except.ok.injEq] at h
  obtain ⟨ops, hops, sc', hsc', rfl⟩ := h
  have hal := alignBits_ok hops
  have hok₁ := hok.align hal
  have hlaid : ∀ o ∈ ops, o.Laid := AlignedTo.forall (fun _ _ => AlignedTo.laid) hal hok.runs
  have hpieces := AlignedTo.piecesOf hal
  have hnodup : (sc.digests.map fun d => d.2.2).Nodup := by
    have hsub := digests_sublist atoms
    rw [← hdig, ← hbare, namesOf_bare] at hsub
    simpa [Function.comp_def] using hsub.nodup hok.nodup
  obtain ⟨hspd, hdone⟩ := resolveDigests_ok [] hok₁
    (fun d hd => (AlignedTo.keyAt hal _).trans (hok.digests d hd)) (by simpa using hnodup)
    (by simp [OversDone]) hsc'
  simp only [List.nil_append, hdig] at hdone
  have hbare' : (piecesOf sc'.ops).map Piece.bare = atoms.map Atom.bare := by
    rw [hspd.bare]
    simp only [hpieces, hbare]
  refine ⟨sc'.syms, ⟨?_, ?_, ?_, ?_, rfl, rfl⟩, hspd.syms⟩
  · have hpair := forall₂_of_map_eq hbare'
    -- Each field in turn, with what is known of all of them.
    have hall : List.Forall₂ (fun p a => p.bare = a.bare ∧ p ∈ piecesOf sc'.ops ∧ a ∈ atoms)
        (piecesOf sc'.ops) atoms := by
      refine List.forall₂_iff_get.mpr ⟨hpair.length_eq, fun i h₁ h₂ => ⟨?_, ?_, ?_⟩⟩
      · exact List.forall₂_iff_get.mp hpair |>.2 i h₁ h₂
      · exact List.get_mem _ _
      · exact List.get_mem _ _
    refine (hall.imp ?_).flip
    rintro p a ⟨hb, hp, ha⟩
    refine realizes_of hb (hproper a ha) (hspd.ok.linked p hp) ?_
    intro d hd overs hover
    refine hdone d (List.mem_filterMap.mpr ⟨a, ha, hd⟩) p hp ?_ overs hover
    rw [← key_bare, hb]
    cases a with
    | digest algo overs verify be name =>
      cases hd
      rfl
    | _ => cases hd
  · exact forall_layout (fun _ _ => laid_congr) hspd.layout hlaid
  · exact hspd.ok.syms
  · intro t ht
    have hmem : ∀ {l m : List Sym}, List.Forall₂ SpanStep l m → ∀ t ∈ m, ∃ s ∈ l, SpanStep s t := by
      intro l m hlm
      induction hlm with
      | nil => simp
      | cons hst _ ih =>
        intro t ht
        obtain rfl | ht := List.mem_cons.mp ht
        · exact ⟨_, by simp, hst⟩
        · obtain ⟨s, hs, h⟩ := ih t ht
          exact ⟨s, by simp [hs], h⟩
    obtain ⟨s, hs, hst⟩ := hmem hspd.syms t ht
    rw [hst.same]
    exact hder s hs

end Rustruct

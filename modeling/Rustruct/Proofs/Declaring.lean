import Rustruct.Proofs.References

/-!
# Declaring a field

A new field goes to the end of its scope: into the run it follows, or as an op of its own.
-/

namespace Rustruct

/-- `ops'` is `ops` with the field `p` at the end, at `loc`. -/
structure Pushed (p : Piece) (loc : Loc) (ops ops' : List Op) : Prop where
  pieces : piecesOf ops' = piecesOf ops ++ [p]
  keys : ∀ l k, keyAt ops l = some k → keyAt ops' l = some k
  key : keyAt ops' loc = some p.key
  runs : (∀ op ∈ ops, op.Run) → ∀ op ∈ ops', op.Run

lemma keyAt_append {ops : List Op} (more : List Op) {l : Loc} {k : Key} (h : keyAt ops l = some k) :
    keyAt (ops ++ more) l = some k := by
  unfold keyAt at h ⊢
  obtain ⟨op, hop, hk⟩ := Option.bind_eq_some_iff.mp h
  rw [List.getElem?_append_left (List.getElem?_eq_some_iff.mp hop).1, hop]
  exact hk

lemma keyAt_last (ops : List Op) (op : Op) {l : Loc} (hl : l.index = ops.length) :
    keyAt (ops ++ [op]) l = keyIn l op := by
  unfold keyAt
  rw [hl]
  simp

/-- The last op grows by a field and keeps those it has. -/
lemma keyAt_grow {ops : List Op} {op op' : Op} (h : ∀ l k, keyIn l op = some k → keyIn l op' = some k)
    {l : Loc} {k : Key} (hl : keyAt (ops ++ [op]) l = some k) : keyAt (ops ++ [op']) l = some k := by
  unfold keyAt at hl ⊢
  rcases Nat.lt_trichotomy l.index ops.length with hi | hi | hi
  · rw [List.getElem?_append_left hi] at hl ⊢
    exact hl
  · rw [hi] at hl ⊢
    simp only [List.getElem?_concat_length, Option.bind_some] at hl ⊢
    exact h l k hl
  · rw [List.getElem?_eq_none (by simp; omega)] at hl
    cases hl

lemma getElem?_snoc {α : Type} {items : List α} {item a : α} {j : Nat} (h : items[j]? = some a) :
    (items ++ [item])[j]? = some a := by
  rw [List.getElem?_append_left (List.getElem?_eq_some_iff.mp h).1]
  exact h

lemma laidItems_snoc {items : List FixedItem} {start width : Nat} {item : FixedItem}
    (h : LaidItems start items width) (hoff : item.off = width) :
    LaidItems start (items ++ [item]) (wrapAdd width item.kind.width) := by
  induction items generalizing start with
  | nil =>
    have hw : width = start := h
    exact ⟨hoff.trans hw, by rw [hw]; rfl⟩
  | cons i items ih => exact ⟨h.1, ih h.2⟩

lemma laidRun_snoc {items : List FixedItem} {width : Nat} {item : FixedItem}
    (h : LaidRun items width) (hoff : item.off = width) :
    LaidRun (items ++ [item]) (wrapAdd width item.kind.width) := by
  cases items with
  | nil => exact h.elim
  | cons i items => exact ⟨h.1, laidItems_snoc h.2 hoff⟩

/-- An op of its own. -/
lemma pushed_new {op : Op} {p : Piece} {l : Loc} {ops : List Op} (hl : l.index = ops.length)
    (hp : op.pieces = [p]) (hk : keyIn l op = some p.key) (hr : op.Run) :
    Pushed p l ops (ops ++ [op]) where
  pieces := by rw [piecesOf_append, piecesOf_cons, hp]; rfl
  keys l k h := keyAt_append [op] h
  key := by rw [keyAt_last ops op hl, hk]
  runs h o ho := by
    rcases List.mem_append.mp ho with ho | ho
    · exact h o ho
    · rwa [List.mem_singleton.mp ho]

/-- A field more in the last op. -/
lemma pushed_grow {op op' : Op} {p : Piece} {l : Loc} {ops : List Op} (hl : l.index = ops.length)
    (hp : op'.pieces = op.pieces ++ [p]) (hk : keyIn l op' = some p.key)
    (hkeys : ∀ l k, keyIn l op = some k → keyIn l op' = some k) (hr : op.Run → op'.Run) :
    Pushed p l (ops ++ [op]) (ops ++ [op']) where
  pieces := by
    rw [piecesOf_append, piecesOf_append, piecesOf_cons, piecesOf_cons, hp]
    simp [piecesOf]
  keys l k h := keyAt_grow hkeys h
  key := by rw [keyAt_last ops op' hl, hk]
  runs h o ho := by
    rcases List.mem_append.mp ho with ho | ho
    · exact h o (by simp [ho])
    · rw [List.mem_singleton.mp ho]
      exact hr (h op (by simp))

lemma pushFixedOps_pushed (kind : FixKind) (key : Key) (ops : List Op) :
    Pushed (.fixed kind none none key) (pushFixedOps kind key ops).1 ops
      (pushFixedOps kind key ops).2 := by
  have hnew : Pushed (.fixed kind none none key) (.fix ops.length 0) ops
      (ops ++ [.fixed kind.width [{ off := 0, kind, reg := none, span := none, key }]]) :=
    pushed_new rfl rfl rfl ⟨rfl, rfl⟩
  unfold pushFixedOps
  split
  · rename_i width items hlast
    obtain ⟨pre, rfl⟩ := List.getLast?_eq_some_iff.mp hlast
    rw [List.dropLast_concat]
    refine pushed_grow (by simp [Loc.index]) (by simp [Op.pieces, FixedItem.piece]) (by simp [keyIn, Piece.key]) ?_
      fun hr => laidRun_snoc hr rfl
    intro l k h
    cases l with
    | fix i j =>
      obtain ⟨item, hi, rfl⟩ := Option.map_eq_some_iff.mp h
      simp only [keyIn, getElem?_snoc hi, Option.map_some]
    | bit i j => cases h
    | op i => cases h
  · exact hnew

lemma pushBitOps_pushed (item : BitItem) (ops : List Op) :
    Pushed (.bit item) (pushBitOps item ops).1 ops (pushBitOps item ops).2 := by
  have hnew : Pushed (.bit item) (.bit ops.length 0) ops (ops ++ [.bitRun 0 [item]]) :=
    pushed_new rfl rfl rfl (by simp [Op.Run])
  unfold pushBitOps
  split
  · rename_i nbytes items hlast
    obtain ⟨pre, rfl⟩ := List.getLast?_eq_some_iff.mp hlast
    rw [List.dropLast_concat]
    refine pushed_grow (by simp [Loc.index]) (by simp [Op.pieces]) (by simp [keyIn, Piece.key]) ?_
      fun _ => by simp [Op.Run]
    intro l k h
    cases l with
    | bit i j =>
      obtain ⟨item, hi, rfl⟩ := Option.map_eq_some_iff.mp h
      simp only [keyIn, getElem?_snoc hi, Option.map_some]
    | fix i j => cases h
    | op i => cases h
  · exact hnew

lemma pushOp_pushed (op : Op) {c : Common} (hc : op.common = some c) (ops : List Op) :
    Pushed (.op op) (.op ops.length) ops (ops ++ [op]) := by
  refine pushed_new rfl (pieces_of_common hc) ?_ ?_
  · simp [keyIn, Piece.key, hc]
  · cases op <;> trivial

/-! ### A new field and its symbol -/

/-- The symbol of a new field. -/
def Sym.declare (name : String) (loc : Loc) (kind : SymKind) : Sym :=
  { name, loc, refable := kind.refable, isFlags := kind.isFlags, isConst := kind.isConst,
    spannable := kind.spannable }

/-- The symbol of a field, if it has a name. -/
def declared (name : Option String) (loc : Loc) (kind : SymKind) : List Sym :=
  (name.map fun n => Sym.declare n loc kind).toList

lemma addSym_eq (name : Option String) (loc : Loc) (kind : SymKind) (sc : Scope) (S : List Scope) :
    addSym name loc kind.refable kind.isFlags kind.isConst kind.spannable (sc :: S) =
      .ok ((), { sc with syms := sc.syms ++ declared name loc kind } :: S) := by
  cases name with
  | none => simp [addSym, onTop, declared]
  | some n => rfl

/-- The name is not used in the scope. -/
def FreshName (name : Option String) (syms : List Sym) : Prop := ∀ n ∈ name, n ∉ syms.map Sym.name

lemma SymsOk.declare {syms : List Sym} {nregs nspans : Nat} (h : SymsOk syms nregs nspans)
    {name : Option String} (hf : FreshName name syms) (loc : Loc) (kind : SymKind) :
    SymsOk (syms ++ declared name loc kind) nregs nspans := by
  cases name with
  | none => simpa [declared] using h
  | some n =>
    have hn := hf n rfl
    have hnumbered : ∀ {f : Sym → Option Nat} {m : Nat}, f (.declare n loc kind) = none →
        Numbered f syms m → Numbered f (syms ++ [.declare n loc kind]) m := by
      intro f m hnone hnum
      constructor
      · intro s hs i hi
        rcases List.mem_append.mp hs with hs | hs
        · exact hnum.lt s hs i hi
        · rw [List.mem_singleton.mp hs, hnone] at hi
          cases hi
      · rw [List.pairwise_append]
        refine ⟨hnum.inj, List.pairwise_singleton _ _, fun s _ t ht i _ hi' => ?_⟩
        rw [List.mem_singleton.mp ht, hnone] at hi'
        cases hi'
    have hall : ∀ {P : Sym → Prop}, P (.declare n loc kind) → (∀ s ∈ syms, P s) →
        ∀ s ∈ syms ++ [.declare n loc kind], P s := by
      intro P hp hs s hm
      rcases List.mem_append.mp hm with hm | hm
      · exact hs s hm
      · rwa [List.mem_singleton.mp hm]
    refine ⟨?_, h.nregs_le, hnumbered rfl h.regs, h.nspans_le, hnumbered rfl h.spans,
      hall (by simp [Sym.declare]) h.refable, hall (by simp [Sym.declare]) h.spannable,
      hall (by simp [Sym.declare]) h.referenced⟩
    rw [declared, Option.map_some, Option.toList_some, List.map_append, List.nodup_append]
    refine ⟨h.names, by simp, fun a ha b hb => ?_⟩
    rw [List.mem_map] at hb
    obtain ⟨t, ht, rfl⟩ := hb
    rintro rfl
    rw [List.mem_singleton.mp ht] at ha
    exact hn ha

lemma symOf_declare {syms : List Sym} {name : Option String} {loc : Loc} {kind : SymKind} {key : Key}
    (h : key ≠ keyOf name ∨ name = none) : symOf (syms ++ declared name loc kind) key = symOf syms key := by
  cases name with
  | none => simp [declared]
  | some n =>
    cases key with
    | skip => rfl
    | named m =>
      have hne : ¬ n = m := by
        rintro rfl
        simp [keyOf] at h
      simp [symOf, Key.name, findSym, declared, Sym.declare, hne]

/-- A pushed field and its symbol keep the invariant of the scope. -/
lemma ScopeOk.push {sc : Scope} {ops' : List Op} {p : Piece} {loc : Loc} {name : Option String}
    (kind : SymKind) (hok : ScopeOk sc) (hp : Pushed p loc sc.ops ops') (hkey : p.key = keyOf name)
    (hf : FreshName name sc.syms) (hreg : p.reg = none) (hspan : p.span = none)
    (hder : p.derived = false) (hfits : p.Fits kind) :
    ScopeOk { sc with ops := ops', syms := sc.syms ++ declared name loc kind } where
  syms := hok.syms.declare hf loc kind
  names := by
    simp only
    rw [hp.pieces, List.map_append, ← hok.names]
    unfold namesOf
    rw [List.filterMap_append]
    congr 1
    cases name <;> simp [hkey, keyOf, Key.name, declared, Sym.declare]
  keys s hs := by
    rcases List.mem_append.mp hs with hs | hs
    · exact hp.keys _ _ (hok.keys s hs)
    · cases name with
      | none => simp [declared] at hs
      | some n =>
        obtain rfl : s = .declare n loc kind := by simpa [declared] using hs
        rw [Sym.declare, hp.key, hkey]
        rfl
  linked q hq := by
    simp only at hq ⊢
    rw [hp.pieces] at hq
    have hnone : ∀ n, name = some n → symOf sc.syms (.named n) = none := by
      rintro n rfl
      exact findSym_eq_none.mpr (hf n rfl)
    unfold Linked regOf spanOf derivedOf
    rcases List.mem_append.mp hq with hq | hq
    · -- An older piece has another name.
      have hother : q.key ≠ keyOf name ∨ name = none := by
        cases name with
        | none => exact .inr rfl
        | some n =>
          refine .inl fun hk => hf n rfl ?_
          rw [← hok.names, mem_namesOf]
          exact ⟨q, hq, hk⟩
      rw [symOf_declare hother]
      exact hok.linked q hq
    · rw [List.mem_singleton.mp hq, hreg, hspan, hder, hkey]
      cases name with
      | none => simp [keyOf, symOf, Key.name]
      | some n =>
        have := (hok.syms.declare hf loc kind).names
        have hmem : Sym.declare n loc kind ∈ sc.syms ++ declared (some n) loc kind := by
          simp [declared]
        have hfind : symOf (sc.syms ++ declared (some n) loc kind) (keyOf (some n)) =
            some (.declare n loc kind) := findSym_of_mem this hmem
        simp [hfind, Sym.declare]
  fits q hq s hs hk := by
    simp only at hq hs
    rw [hp.pieces] at hq
    rcases List.mem_append.mp hq with hq | hq
    · rcases List.mem_append.mp hs with hs | hs
      · exact hok.fits q hq s hs hk
      · cases name with
        | none => simp [declared] at hs
        | some n =>
          obtain rfl : s = .declare n loc kind := by simpa [declared] using hs
          refine absurd ?_ (hf n rfl)
          rw [← hok.names, mem_namesOf]
          exact ⟨q, hq, hk⟩
    · have hqp := List.mem_singleton.mp hq
      rcases List.mem_append.mp hs with hold | hnew
      · rw [hqp, hkey] at hk
        cases name with
        | none => cases hk
        | some n =>
          refine absurd (List.mem_map_of_mem (f := Sym.name) hold) ?_
          rw [← Key.named.inj hk]
          exact hf n rfl
      · cases name with
        | none => simp [declared] at hnew
        | some n =>
          obtain rfl : s = .declare n loc kind := by simpa [declared] using hnew
          rw [hqp]
          exact hfits
  runs := hp.runs hok.runs
  digests d hd := hp.keys _ _ (hok.digests d hd)

end Rustruct

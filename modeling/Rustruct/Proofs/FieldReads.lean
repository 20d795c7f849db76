import Rustruct.Proofs.Elements

/-!
# The fields of a scope

What one field of a program does is the reading of its type, and its frame holds the integer and the
place of the field if something asks for them.
-/

namespace Rustruct

namespace Frame

/-- The frame with an integer in a register, if there are both. -/
def putReg (f : Frame) (reg : Option Nat) (v : Option Int) : Frame :=
  { f with regs := fun j => if reg = some j.val then v.getD (f.regs j) else f.regs j }

def putSpan (f : Frame) (span : Option Nat) (range : Nat × Nat) : Frame :=
  { f with spans := fun j => if span = some j.val then range else f.spans j }

/-- The frame after a field. -/
def put (f : Frame) (reg : Option Nat) (v : Option Int) (span : Option Nat) (range : Nat × Nat) : Frame :=
  (f.putReg reg v).putSpan span range

variable {f : Frame}

@[simp] lemma putReg_none (v : Option Int) : f.putReg none v = f := rfl

@[simp] lemma putReg_nothing (reg : Option Nat) : f.putReg reg none = f := by
  unfold putReg
  simp only [Option.getD_none, ite_self]

@[simp] lemma putSpan_none (range : Nat × Nat) : f.putSpan none range = f := rfl

end Frame

section Stores

variable {ε : Type} {f : Frame} {fs : Frames}

lemma setReg_eq {i : Nat} (hi : i < maxRegs) (v : Int) :
    (setReg (f :: fs) i v : Exec ε Frames) = .ok (f.putReg (some i) (some v) :: fs) := by
  rw [setReg, dif_pos hi]
  congr 2
  unfold Frame.putReg
  congr 1
  funext j
  by_cases hj : j = ⟨i, hi⟩
  · subst hj
    simp
  · have hne : ¬some i = some j.val := fun h => hj (Fin.ext (Option.some.inj h).symm)
    rw [Function.update_of_ne hj, if_neg hne]

lemma setSpan_eq {span : Option Nat} (hspan : ∀ i ∈ span, i < maxSpans) (start stop : Nat) :
    (setSpan (f :: fs) span start stop : Exec ε Frames) = .ok (f.putSpan span (start, stop) :: fs) := by
  cases span with
  | none => rfl
  | some i =>
    have hi := hspan i rfl
    rw [setSpan, dif_pos hi]
    congr 2
    unfold Frame.putSpan
    congr 1
    funext j
    by_cases hj : j = ⟨i, hi⟩
    · subst hj
      simp
    · have hne : ¬some i = some j.val := fun h => hj (Fin.ext (Option.some.inj h).symm)
      rw [Function.update_of_ne hj, if_neg hne]

lemma storeReg_eq {reg : Option Nat} (hreg : ∀ i ∈ reg, i < maxRegs) {v : Int} {pos : Nat} {fs' : Frames} :
    storeReg (f :: fs) reg v pos = .ok fs' ↔ (reg.isSome → InI64 v) ∧ fs' = f.putReg reg (some v) :: fs := by
  cases reg with
  | none =>
    rw [storeReg]
    constructor
    · intro h
      cases h
      exact ⟨(fun h => by cases h), rfl⟩
    · rintro ⟨-, rfl⟩
      rfl
  | some i =>
    rw [storeReg]
    cases hv : checkedI64 v with
    | none =>
      refine ⟨(fun h => by cases h), ?_⟩
      rintro ⟨hin, -⟩
      rw [checkedI64, if_pos (hin rfl)] at hv
      cases hv
    | some w =>
      obtain ⟨hin, rfl⟩ := checkedI64_eq_some.mp hv
      dsimp only
      rw [setReg_eq (hreg i rfl)]
      constructor
      · intro h
        cases h
        exact ⟨fun _ => hin, rfl⟩
      · rintro ⟨-, rfl⟩
        rfl

lemma storeInt_eq {reg : Option Nat} (hreg : ∀ i ∈ reg, i < maxRegs) {v : Option Int} {pos : Nat} {fs' : Frames} :
    storeInt (f :: fs) reg v pos = .ok fs' ↔
      (reg.isSome → ∀ n ∈ v, InI64 n) ∧ fs' = f.putReg reg v :: fs := by
  cases v with
  | none =>
    rw [storeInt, Frame.putReg_nothing]
    constructor
    · intro h
      cases h
      exact ⟨(fun _ _ hn => by cases hn), rfl⟩
    · rintro ⟨-, rfl⟩
      rfl
  | some n =>
    rw [storeInt, storeReg_eq hreg]
    simp

end Stores

/-- A digest that waits for the end of the scope, and the one that was read. -/
structure Awaits (full : List Sym) (d : Deferred) (g : GotDigest) : Prop where
  algo : d.algo = g.algo
  overs : OverIs full g.overs d.overs
  verify : d.verify = g.verify
  read : d.read = g.read
  field : d.field = (g.start, g.stop)
  width : g.start < g.stop ∧ g.stop ≤ g.start + 32

def Part.int? (part : Part) : Option Int := part.value.bind Value.int?

/-- The integer of the field fits its register. -/
def Part.Fits (reg : Option Nat) (part : Part) : Prop := reg.isSome → ∀ n ∈ part.int?, InI64 n

/-- There is no register that it has to fit. -/
lemma part_fits (part : Part) : part.Fits none := by
  intro h
  cases h

/-- The field of a scope, read on both sides. -/
structure StepIs (full : List Sym) (key : Key) (kind : SymKind) (limit : Nat) (f : Frame) (fs : Frames) (s r : BitScan)
    (part : Part) : Prop where
  bit : r.bit = part.bit
  onward : s.bit ≤ part.bit ∧ part.bit ≤ 8 * limit
  map : r.map = s.map ++ (key.name.bind fun n => part.value.map fun v => (n, v)).toList
  deferred : ∃ ds, r.deferred = s.deferred ++ ds ∧ List.Forall₂ (Awaits full) ds part.digest.toList
  within : ∀ g ∈ part.digest, s.bit ≤ 8 * g.start ∧ 8 * g.stop ≤ part.bit
  frames : r.fs = f.put (regOf full key) part.int? (spanOf full key) (s.bit / 8, part.bit / 8) :: fs
  int : kind.refable → part.int?.isSome
  value : kind.spannable → part.value.isSome

lemma mapSet_eq (map : List (String × Value)) (key : Key) (v : Value) :
    mapSet map key v = map ++ (key.name.bind fun n => (some v).map fun v => (n, v)).toList := by
  unfold mapSet
  cases key with
  | named n => rfl
  | skip => exact (List.append_nil _).symm

/-- The registers and spans of a scope. -/
structure ScopeNumbers (full : List Sym) (key : Key) (kind : SymKind) : Prop where
  reg : ∀ i ∈ regOf full key, i < maxRegs
  span : ∀ i ∈ spanOf full key, i < maxSpans
  noReg : kind.refable = false → regOf full key = none
  noSpan : kind.spannable = false → spanOf full key = none

section Steps

variable {H : Hashes} {buf : Bytes} {limit : Nat} {full : List Sym} {key : Key} {kind : SymKind} {f : Frame} {fs : Frames}
  {bit : Nat} {map : List (String × Value)} {deferred : List Deferred}

/-- What a field does, beside the reading of its type. -/
abbrev StepReads (H : Hashes) (full : List Sym) (key : Key) (kind : SymKind) (limit : Nat) (f : Frame) (fs : Frames) (s : BitScan)
    (x : URes BitScan) (y : Option Part) : Prop :=
  Exec.Mirrors (StepIs full key kind limit f fs s) (fun part => part.facts.Ok H ∧ part.Fits (regOf full key)) x y

lemma FixKind.int?_eq (k : FixKind) (raw : Bytes) : k.int? raw = (k.value raw).int? := by
  cases k <;> rfl

lemma step_fixed (hl : limit ≤ buf.length) (hlen : buf.length ≤ isizeMax) (hn : ScopeNumbers full key kind) (k : FixKind)
    (hint : kind.refable → ∀ raw, (k.int? raw).isSome) :
    StepReads H full key kind limit f fs ⟨f :: fs, bit, map, deferred⟩
      ((Piece.fixed k (regOf full key) (spanOf full key) key).run H buf limit ⟨f :: fs, bit, map, deferred⟩)
      (readFlat buf k.width (fun raw => if k.accepts raw then some (k.value raw) else none) limit bit) := by
  have hmax := isizeMax_lt
  rw [Piece.run, readFlat, byteOf]
  dsimp only
  by_cases halign : bit % 8 = 0
  swap
  · rw [if_neg (fun h => halign h.1), if_neg halign]
    exact .of_error
  rw [if_pos halign, Option.bind_eq_bind, Option.bind_some, bytesIn]
  by_cases hfit : bit / 8 + k.width ≤ limit
  swap
  · rw [if_neg (fun h => hfit h.2), if_neg hfit]
    exact .of_error
  have hwrap : wrapAdd (bit / 8) 0 = bit / 8 := wrapAdd_of_lt (by omega)
  rw [if_pos ⟨halign, hfit⟩, if_pos hfit, readFixedItem_eq]
  dsimp only
  rw [hwrap, slice_eq (by omega), Exec.bind_ok, Option.bind_eq_bind, Option.bind_some]
  generalize (buf.drop (bit / 8)).take k.width = raw
  by_cases hacc : k.accepts raw
  swap
  · rw [if_neg hacc, if_neg hacc]
    exact .of_error
  rw [if_pos hacc, if_pos hacc, Option.bind_eq_bind, Option.bind_some]
  have hbit : 8 * (bit / 8 + k.width) = bit + 8 * k.width := by omega
  have hrun : ∀ r, (((do
        let fs' ← storeInt (f :: fs) (regOf full key) (k.int? raw) (bit / 8)
        let fs' ← setSpan fs' (spanOf full key) (bit / 8) (bit / 8 + k.width)
        .ok (k.value raw, fs')) : URes (Value × Frames)) >>= fun read =>
      .ok (⟨read.2, bit + 8 * k.width, mapSet map key read.1, deferred⟩ : BitScan)) = .ok r ↔
      (Part.upTo (bit / 8 + k.width) (k.value raw) .none).Fits (regOf full key) ∧
        r = ⟨f.put (regOf full key) (k.int? raw) (spanOf full key) (bit / 8, bit / 8 + k.width) :: fs,
          bit + 8 * k.width, mapSet map key (k.value raw), deferred⟩ := by
    intro r
    have hfits : (Part.upTo (bit / 8 + k.width) (k.value raw) .none).Fits (regOf full key) ↔
        ((regOf full key).isSome → ∀ n ∈ k.int? raw, InI64 n) := by
      rw [FixKind.int?_eq]
      rfl
    rw [hfits]
    constructor
    · intro h
      obtain ⟨⟨v, fs'⟩, h, hr⟩ := Exec.bind_eq_ok.mp h
      obtain ⟨fs₁, hst, h⟩ := Exec.bind_eq_ok.mp h
      obtain ⟨hin, rfl⟩ := (storeInt_eq hn.reg).mp hst
      rw [setSpan_eq hn.span] at h
      cases h
      cases hr
      exact ⟨hin, rfl⟩
    · rintro ⟨hin, rfl⟩
      have hst : storeInt (f :: fs) (regOf full key) (k.int? raw) (bit / 8) =
          .ok (f.putReg (regOf full key) (k.int? raw) :: fs) := (storeInt_eq hn.reg).mpr ⟨hin, rfl⟩
      rw [hst, Exec.bind_ok, setSpan_eq hn.span]
      rfl
  have hstep : StepIs full key kind limit f fs ⟨f :: fs, bit, map, deferred⟩
      ⟨f.put (regOf full key) (k.int? raw) (spanOf full key) (bit / 8, bit / 8 + k.width) :: fs,
        bit + 8 * k.width, mapSet map key (k.value raw), deferred⟩
      (.upTo (bit / 8 + k.width) (k.value raw) .none) := by
    constructor
    · exact hbit.symm
    · simp only [Part.upTo]
      omega
    · exact mapSet_eq map key (k.value raw)
    · exact ⟨[], (List.append_nil _).symm, .nil⟩
    · intro g hg
      cases hg
    · have hdiv : 8 * (bit / 8 + k.width) / 8 = bit / 8 + k.width := by omega
      simp only [Part.upTo, Part.int?, Option.bind_some, ← FixKind.int?_eq, hdiv]
    · intro href
      have := hint href raw
      rwa [FixKind.int?_eq] at this
    · exact fun _ => rfl
  constructor
  · intro r hr
    obtain ⟨hfits, rfl⟩ := (hrun r).mp hr
    exact ⟨_, rfl, ⟨facts_none_ok, hfits⟩, hstep⟩
  · intro part hpart hok
    cases hpart
    exact ⟨_, (hrun _).mpr ⟨hok.2, rfl⟩, hstep⟩

lemma step_bit (hn : ScopeNumbers full key kind) (hspan : kind.spannable = false) (width : Nat) (signed derived : Bool) :
    StepReads H full key kind limit f fs ⟨f :: fs, bit, map, deferred⟩
      ((Piece.bit { width, signed, reg := regOf full key, derived, key }).run H buf limit ⟨f :: fs, bit, map, deferred⟩)
      (if bit + width ≤ 8 * limit then
        some { value := some (.int (signBits width signed (bitsAt buf width bit 0))), bit := bit + width,
               digest := none, facts := .none }
      else none) := by
  rw [Piece.run]
  dsimp only
  by_cases hfit : bit + width ≤ 8 * limit
  swap
  · rw [if_neg hfit, if_neg hfit]
    exact .of_error
  rw [if_pos hfit, if_pos hfit]
  generalize hv : signBits width signed (bitsAt buf width bit 0) = v
  have hstep : StepIs full key kind limit f fs ⟨f :: fs, bit, map, deferred⟩
      ⟨f.putReg (regOf full key) (some v) :: fs, bit + width, mapSet map key (.int v), deferred⟩
      { value := some (.int v), bit := bit + width, digest := none, facts := .none } := by
    constructor
    · rfl
    · exact ⟨Nat.le_add_right _ _, hfit⟩
    · exact mapSet_eq map key (.int v)
    · exact ⟨[], (List.append_nil _).symm, .nil⟩
    · intro g hg
      cases hg
    · rw [hn.noSpan hspan]
      rfl
    · exact fun _ => rfl
    · exact fun _ => rfl
  constructor
  · intro r hr
    obtain ⟨fs', hst, hr⟩ := Exec.bind_eq_ok.mp hr
    obtain ⟨hin, rfl⟩ := (storeReg_eq hn.reg).mp hst
    cases hr
    refine ⟨_, rfl, ⟨facts_none_ok, ?_⟩, hstep⟩
    intro hsome n he
    obtain rfl : v = n := Option.some.inj he
    exact hin hsome
  · intro part hpart hok
    cases hpart
    refine ⟨_, ?_, hstep⟩
    have hst : storeReg (f :: fs) (regOf full key) v (bit / 8) = .ok (f.putReg (regOf full key) (some v) :: fs) :=
      (storeReg_eq hn.reg).mpr ⟨fun hsome => hok.2 hsome v rfl, rfl⟩
    rw [hst]
    rfl

/-- A value that is read from a byte on. -/
lemma step_value {c : Common} (hc : c = { key := key, span := spanOf full key }) (hn : ScopeNumbers full key kind)
    (href : kind.refable = false) {sem : Sem} (hadv : Advances sem) {y : Option Part} (hpos : bit ≤ 8 * limit)
    (hy : Reads H (f :: fs) (sem limit ⟨f :: fs, bit / 8⟩) y) (halign : bit % 8 = 0) :
    StepReads H full key kind limit f fs ⟨f :: fs, bit, map, deferred⟩
      (do
        let t ← runField c sem limit ⟨⟨f :: fs, bit / 8⟩, map, deferred⟩
        .ok t.bits) y := by
  subst hc
  have hreg := hn.noReg href
  have hle : bit / 8 ≤ limit := by omega
  let result (v : Value) (next : Cur) : BitScan :=
    ⟨f.putSpan (spanOf full key) (bit / 8, next.pos) :: fs, 8 * next.pos, mapSet map key v, deferred⟩
  have hrun : ∀ v next, sem limit ⟨f :: fs, bit / 8⟩ = .ok (v, next) → next.fs = f :: fs →
      ((do
        let t ← runField { key := key, span := spanOf full key } sem limit ⟨⟨f :: fs, bit / 8⟩, map, deferred⟩
        .ok t.bits) : URes BitScan) = .ok (result v next) := by
    intro v next hsem hfs
    obtain ⟨nfs, npos⟩ := next
    obtain rfl : nfs = f :: fs := hfs
    rw [runField, hsem, Exec.mapErr_ok, Exec.bind_ok]
    dsimp only
    rw [setSpan_eq hn.span, Exec.bind_ok, insert_value]
    rfl
  have hstep : ∀ v next part, sem limit ⟨f :: fs, bit / 8⟩ = .ok (v, next) → PartIs (f :: fs) (v, next) part →
      StepIs full key kind limit f fs ⟨f :: fs, bit, map, deferred⟩ (result v next) part := by
    intro v next part hsem his
    have hon : Onward limit (bit / 8) next.pos := hadv limit _ _ _ hsem
    have hbit : part.bit = 8 * next.pos := his.bit
    have hon₂ := hon.2 hle
    have hon₁ := hon.1
    constructor
    · exact hbit.symm
    · show bit ≤ part.bit ∧ part.bit ≤ 8 * limit
      omega
    · rw [his.value]
      exact mapSet_eq map key v
    · refine ⟨[], (List.append_nil _).symm, ?_⟩
      rw [his.digest]
      exact .nil
    · rw [his.digest]
      intro g hg
      cases hg
    · have hdiv : 8 * next.pos / 8 = next.pos := by omega
      rw [hreg, hbit, hdiv]
      rfl
    · rw [href]
      intro h
      cases h
    · intro _
      rw [his.value]
      rfl
  constructor
  · intro r hr
    obtain ⟨t, ht, hr⟩ := Exec.bind_eq_ok.mp hr
    have ht' := ht
    rw [runField] at ht'
    obtain ⟨⟨v, next⟩, hsem, -⟩ := Exec.bind_eq_ok.mp ht'
    have hsem' := Exec.mapErr_eq_ok.mp hsem
    obtain ⟨part, hpart, hok, his⟩ := hy.ok _ hsem'
    have hall := hrun v next hsem' his.frames
    rw [ht, Exec.bind_ok, hr] at hall
    cases hall
    exact ⟨part, hpart, ⟨hok, by rw [hreg]; exact part_fits _⟩, hstep v next part hsem' his⟩
  · intro part hpart hok
    obtain ⟨⟨v, next⟩, hsem, his⟩ := hy.some part hpart hok.1
    exact ⟨_, hrun v next hsem his.frames, hstep v next part hsem his⟩

/-- A field is absent, or it is there as its predicate says. -/
lemma step_cond {c : Common} (hc : c = { key := key, span := spanOf full key }) (hn : ScopeNumbers full key kind)
    (hkind : kind = { spannable := false }) {sem : Sem} (hadv : Advances sem) {p : Option Int} {y : Option Part}
    {pred : Expr} (hpred : Exec.Mirrors (· = ·) (fun _ => True) (eval (f :: fs) pred (bit / 8)) p)
    (hpos : bit ≤ 8 * limit) (hy : Reads H (f :: fs) (sem limit ⟨f :: fs, bit / 8⟩) y) (halign : bit % 8 = 0) :
    StepReads H full key kind limit f fs ⟨f :: fs, bit, map, deferred⟩
      (do
        let t ← runCond pred c sem limit ⟨⟨f :: fs, bit / 8⟩, map, deferred⟩
        .ok t.bits)
      (p.bind fun p => if p ≠ 0 then y else some { value := none, bit, digest := none, facts := .none }) := by
  have hreg := hn.noReg (by rw [hkind])
  have hspan := hn.noSpan (by rw [hkind])
  have hassoc : ((do
        let t ← runCond pred c sem limit ⟨⟨f :: fs, bit / 8⟩, map, deferred⟩
        .ok t.bits) : URes BitScan) = eval (f :: fs) pred (bit / 8) >>= fun p =>
      if p ≠ 0 then (do
        let t ← runField c sem limit ⟨⟨f :: fs, bit / 8⟩, map, deferred⟩
        .ok t.bits) else .ok (Scan.bits ⟨⟨f :: fs, bit / 8⟩, map, deferred⟩) := by
    rw [runCond]
    cases eval (f :: fs) pred (bit / 8) with
    | error t => rfl
    | ok p =>
      rw [Exec.bind_ok, Exec.bind_ok]
      by_cases hp : p ≠ 0
      · rw [if_pos hp, if_pos hp]
      · rw [if_neg hp, if_neg hp]
        rfl
  rw [hassoc]
  refine hpred.bind (fun _ _ _ _ => trivial) ?_
  rintro n - rfl -
  by_cases hp : n ≠ 0
  · rw [if_pos hp, if_pos hp]
    exact step_value hc hn (by rw [hkind]) hadv hpos hy halign
  · rw [if_neg hp, if_neg hp]
    have hbit : 8 * (bit / 8) = bit := by omega
    refine .of_some ⟨facts_none_ok, by rw [hreg]; exact part_fits _⟩ ?_
    constructor
    · exact hbit
    · exact ⟨Nat.le_refl bit, hpos⟩
    · cases key <;> exact (List.append_nil _).symm
    · exact ⟨[], (List.append_nil _).symm, .nil⟩
    · intro g hg
      cases hg
    · rw [hreg, hspan]
      rfl
    · rw [hkind]
      intro h
      cases h
    · rw [hkind]
      intro h
      cases h

/-- A digest field keeps what it read for the end of the scope. -/
lemma step_digest {c : Common} {n : String} (hkey : key = .named n) (hc : c = { key := key, span := spanOf full key })
    (hn : ScopeNumbers full key kind) (hkind : kind = {}) (hl : limit ≤ buf.length) {algo : Algo}
    (hwidth : 0 < algo.widthBytes ∧ algo.widthBytes ≤ 32) {overs : OverIn} {overs' : Over} (hover : OverIs full overs overs')
    (verify be : Bool) (halign : bit % 8 = 0) :
    StepReads H full key kind limit f fs ⟨f :: fs, bit, map, deferred⟩
      (do
        let t ← runDigest buf algo overs' verify be c limit ⟨⟨f :: fs, bit / 8⟩, map, deferred⟩
        .ok t.bits)
      ((bytesIn buf limit (bit / 8) algo.widthBytes).bind fun raw =>
        let u := readUint raw be
        let stop := bit / 8 + algo.widthBytes
        let read := if algo.isInt then DigestVal.int (BitVec.ofNat 64 u) else DigestVal.bytes raw
        some { value := some (if algo.isInt then .int u else .bytes raw), bit := 8 * stop,
               digest := some { algo, overs, verify, read, start := bit / 8, stop }, facts := .none }) := by
  subst hc
  have hreg := hn.noReg (by rw [hkind])
  rw [bytesIn]
  by_cases hfit : bit / 8 + algo.widthBytes ≤ limit
  swap
  · rw [if_neg hfit]
    refine .of_none ?_
    intro r hr
    obtain ⟨t, ht, -⟩ := Exec.bind_eq_ok.mp hr
    rw [runDigest] at ht
    obtain ⟨_, hneed, -⟩ := Exec.bind_eq_ok.mp ht
    exact hfit (need_eq_ok.mp (Exec.mapErr_eq_ok.mp hneed))
  have hneed : need buf (bit / 8) limit algo.widthBytes = .ok () := need_eq_ok.mpr hfit
  rw [if_pos hfit, Option.bind_some, runDigest]
  dsimp only
  rw [hneed, Exec.mapErr_ok, Exec.bind_ok, slice_eq (by omega), Exec.bind_ok]
  generalize (buf.drop (bit / 8)).take algo.widthBytes = raw
  subst hkey
  simp only [insert_value, Key.name, Exec.expect_some, Exec.bind_ok, setSpan_eq hn.span]
  refine .of_some ⟨facts_none_ok, by rw [hreg]; exact part_fits _⟩ ?_
  constructor
  · rfl
  · dsimp only
    omega
  · exact mapSet_eq map (.named n) (if algo.isInt then .int (readUint raw be) else .bytes raw)
  · refine ⟨_, rfl, .cons ?_ .nil⟩
    exact ⟨rfl, hover, rfl, rfl, rfl, by dsimp only; omega, by dsimp only; omega⟩
  · rintro g hg
    obtain rfl := Option.some.inj hg
    dsimp only
    omega
  · have hdiv : 8 * (bit / 8 + algo.widthBytes) / 8 = bit / 8 + algo.widthBytes := by omega
    rw [hreg]
    simp only [Scan.bits, hdiv]
    rfl
  · rw [hkind]
    intro h
    cases h
  · exact fun _ => rfl

end Steps

end Rustruct

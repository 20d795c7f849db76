import Rustruct.Proofs.FieldReads
import Rustruct.Proofs.ExactSizes

/-!
# The scopes of a program

From one field to the next the frame of a scope carries what was read. At the end of the scope the
digests are those of the fields that their names are of.
-/

namespace Rustruct

lemma findGot_append (scope : List Got) (g : Got) (n : String) :
    findGot (scope ++ [g]) n = (findGot scope n).or (if g.name = n then some g else none) := by
  unfold findGot
  rw [List.find?_append, List.find?_singleton]
  simp only [beq_iff_eq]

lemma find_got {n : String} {start : Nat} {part : Part} {v : Value} (hv : part.value = some v) (scope : List Got)
    (hfresh : findGot scope n = none) :
    findGot (scope ++ part.got (some n) start) n =
      some { name := n, value := v, start := start / 8, stop := part.bit / 8 } := by
  have hgot : part.got (some n) start = [{ name := n, value := v, start := start / 8, stop := part.bit / 8 }] := by
    rw [Part.got, hv]
    rfl
  rw [hgot, findGot_append, hfresh, if_pos rfl, Option.none_or]

lemma find_other {name : Option String} {m : String} (hne : name ≠ some m) (start : Nat) (part : Part) (scope : List Got) :
    findGot (scope ++ part.got name start) m = findGot scope m := by
  cases name with
  | none => rw [Part.got, Option.bind_none, Option.toList_none, List.append_nil]
  | some n =>
    have hnm : n ≠ m := fun h => hne (congrArg some h)
    rw [Part.got, Option.bind_some]
    cases part.value with
    | none => rw [Option.map_none, Option.toList_none, List.append_nil]
    | some v => rw [Option.map_some, Option.toList_some, findGot_append, if_neg hnm, Option.or_none]

section Adding

variable {size k : Nat} {full : List Sym} {nregs nspans : Nat} {scope : List Got} {f : Frame} {start : Nat} {part : Part}

/-- A name that is declared now was not declared before. -/
lemma findSym_take {s : Sym} (hok : SymsOk full nregs nspans) (hget : full[k]? = some s) :
    full.take (k + 1) = full.take k ++ [s] ∧ s ∈ full ∧ findSym (full.take k) s.name = none := by
  obtain ⟨hk, hval⟩ := List.getElem?_eq_some_iff.mp hget
  have hnext : full.take (k + 1) = full.take k ++ [s] := by
    rw [← List.take_concat_get' _ _ hk, hval]
  refine ⟨hnext, hval ▸ List.getElem_mem hk, ?_⟩
  have hnd := hok.names
  rw [← List.take_append_drop (k + 1) full, hnext, List.append_assoc, List.map_append] at hnd
  have hdisj := (List.nodup_append.mp hnd).2.2
  rw [findSym, List.find?_eq_none]
  intro t ht htn
  have htn' : t.name = s.name := by simpa using htn
  exact hdisj s.name (htn' ▸ List.mem_map_of_mem ht) s.name (by simp) rfl

/-- Its register and its span are those of no field before it. -/
lemma Carries.add {s : Sym} (h : Carries size (full.take k) scope f) (hok : SymsOk full nregs nspans)
    (hget : full[k]? = some s) (hint : s.refable → part.int?.isSome) (hvalue : s.spannable → part.value.isSome)
    (hle : start ≤ part.bit) (hfit : part.bit ≤ 8 * size) :
    Carries size (full.take (k + 1)) (scope ++ part.got (some s.name) start)
      (f.put s.reg part.int? s.span (start / 8, part.bit / 8)) := by
  obtain ⟨hnext, hmem, hfresh⟩ := findSym_take hok hget
  have hgot := h.none s.name hfresh
  have hother {t : Sym} {m : String} (ht : findSym (full.take k) m = some t) : t ∈ full ∧ t ≠ s ∧ s.name ≠ m := by
    obtain ⟨htm, htn⟩ := findSym_eq_some ht
    refine ⟨List.mem_of_mem_take htm, ?_, ?_⟩
    · rintro rfl
      rw [htn, ht] at hfresh
      cases hfresh
    · rintro rfl
      rw [ht] at hfresh
      cases hfresh
  rw [hnext]
  constructor
  · intro m hm
    rw [findSym_append, Option.or_eq_none_iff] at hm
    have hne : some s.name ≠ some m := by
      intro he
      rw [if_pos (Option.some.inj he)] at hm
      cases hm.2
    rw [find_other hne]
    exact h.none m hm.1
  · intro m t hm href
    rw [findSym_append] at hm
    cases ht : findSym (full.take k) m with
    | some t' =>
      rw [ht] at hm
      obtain rfl : t' = t := Option.some.inj hm
      obtain ⟨htm, hts, hne⟩ := hother ht
      obtain ⟨g, v, hg, hgv, hregs⟩ := h.reg m t' ht href
      refine ⟨g, v, by rw [find_other (fun he => hne (Option.some.inj he)), hg], hgv, ?_⟩
      intro i hi htr
      have hsr : ¬s.reg = some i := fun hsr => hts (hok.regs.unique htm hmem htr hsr)
      simp only [Frame.put, Frame.putSpan, Frame.putReg, if_neg hsr]
      exact hregs i hi htr
    | none =>
      rw [ht, Option.none_or] at hm
      split_ifs at hm with hsm
      obtain rfl := Option.some.inj hm
      subst hsm
      obtain ⟨v, hv⟩ := Option.isSome_iff_exists.mp (hint href)
      obtain ⟨w, hw, hwv⟩ := Option.bind_eq_some_iff.mp hv
      refine ⟨_, v, find_got hw scope hgot, ?_, ?_⟩
      · cases w with
        | int n =>
          obtain rfl : n = v := Option.some.inj hwv
          rfl
        | _ => cases hwv
      · intro i hi hsr
        have hput : (if s.reg = some i then part.int?.getD (f.regs ⟨i, hi⟩) else f.regs ⟨i, hi⟩) = v := by
          rw [if_pos hsr, hv]
          rfl
        exact hput
  · intro m t hm hspan
    rw [findSym_append] at hm
    cases ht : findSym (full.take k) m with
    | some t' =>
      rw [ht] at hm
      obtain rfl : t' = t := Option.some.inj hm
      obtain ⟨htm, hts, hne⟩ := hother ht
      obtain ⟨g, hg, hgle, hgsize, hspans⟩ := h.span m t' ht hspan
      refine ⟨g, by rw [find_other (fun he => hne (Option.some.inj he)), hg], hgle, hgsize, ?_⟩
      intro i hi htr
      have hsr : ¬s.span = some i := fun hsr => hts (hok.spans.unique htm hmem htr hsr)
      simp only [Frame.put, Frame.putSpan, Frame.putReg, if_neg hsr]
      exact hspans i hi htr
    | none =>
      rw [ht, Option.none_or] at hm
      split_ifs at hm with hsm
      obtain rfl := Option.some.inj hm
      subst hsm
      obtain ⟨v, hv⟩ := Option.isSome_iff_exists.mp (hvalue hspan)
      refine ⟨_, find_got hv scope hgot, ?_, ?_, ?_⟩
      · exact Nat.div_le_div_right hle
      · dsimp only
        omega
      · intro i hi hsr
        simp only [Frame.put, Frame.putSpan, if_pos hsr]

end Adding

namespace Reading

variable (r : Reading) (name : Option String) (fields : List FieldIn) (part : Part)

@[simp] lemma add_scope : (r.add name fields part).scope = r.scope ++ part.got name r.bit := by
  unfold add
  cases name with
  | none => rfl
  | some n =>
    dsimp only
    split_ifs <;> rfl

@[simp] lemma add_bit : (r.add name fields part).bit = part.bit := by
  unfold add
  cases name with
  | none => rfl
  | some n =>
    dsimp only
    split_ifs <;> rfl

@[simp] lemma add_digests : (r.add name fields part).digests = r.digests ++ part.digest.toList := by
  unfold add
  cases name with
  | none => rfl
  | some n =>
    dsimp only
    split_ifs <;> rfl

lemma add_entries : (r.add name fields part).entries =
    r.entries ++ ((keyOf name).name.bind fun n => part.value.map fun v => (n, v)).toList := by
  unfold entries
  rw [add_scope, List.map_append, Part.got]
  congr 1
  cases name with
  | none => rfl
  | some n => cases part.value <;> rfl

variable {r name fields part} {H : Hashes}

/-- The facts of the fields so far, those of the field itself, and its integer. -/
lemma add_facts (hfresh : ∀ n, name = some n → findGot r.scope n = none) :
    (r.add name fields part).facts.Ok H ↔ r.facts.Ok H ∧ part.facts.Ok H ∧
      ∀ n, name = some n → fieldsMention n fields → ∀ v ∈ part.int?, InI64 v := by
  cases name with
  | none =>
    have hfacts : (r.add none fields part).facts = r.facts.append part.facts := rfl
    rw [hfacts, facts_append_ok]
    constructor
    · rintro ⟨h₁, h₂⟩
      refine ⟨h₁, h₂, ?_⟩
      intro n hn
      cases hn
    · rintro ⟨h₁, h₂, -⟩
      exact ⟨h₁, h₂⟩
  | some n =>
    have hgot := hfresh n rfl
    have hnoted : (findGot (r.scope ++ part.got (some n) r.bit) n).bind (fun g => g.value.int?) = part.int? := by
      cases hv : part.value with
      | none =>
        rw [Part.got, hv, Part.int?, hv, Option.bind_some, Option.map_none, Option.toList_none, List.append_nil, hgot]
        rfl
      | some v =>
        rw [find_got hv _ hgot, Part.int?, hv]
        rfl
    unfold add
    dsimp only
    by_cases hm : fieldsMention n fields = true
    · rw [if_pos hm]
      dsimp only
      rw [facts_append_ok, facts_append_ok, noted, hnoted, and_assoc]
      have hrefs : (Facts.Ok H ⟨part.int?.toList, []⟩) ↔ ∀ v ∈ part.int?, InI64 v := by
        constructor
        · intro h v hv
          exact h.refs v (Option.mem_toList.mpr hv)
        · intro h
          exact facts_refs_ok fun v hv => h v (Option.mem_toList.mp hv)
      rw [hrefs]
      constructor
      · rintro ⟨h₁, h₂, h₃⟩
        exact ⟨h₁, h₂, fun _ _ _ => h₃⟩
      · rintro ⟨h₁, h₂, h₃⟩
        exact ⟨h₁, h₂, h₃ n rfl hm⟩
    · rw [if_neg hm, facts_append_ok]
      constructor
      · rintro ⟨h₁, h₂⟩
        refine ⟨h₁, h₂, ?_⟩
        rintro m hnm hmm
        obtain rfl := Option.some.inj hnm
        exact absurd hmm hm
      · rintro ⟨h₁, h₂, -⟩
        exact ⟨h₁, h₂⟩

end Reading

/-- A scope between two of its fields, on both sides. -/
structure ScanIs (full : List Sym) (k size start limit : Nat) (fs : Frames) (s : BitScan) (r : Reading) : Prop where
  bit : s.bit = r.bit
  onward : 8 * start ≤ r.bit ∧ r.bit ≤ 8 * limit
  map : s.map = r.entries
  deferred : List.Forall₂ (Awaits full) s.deferred r.digests
  within : ∀ g ∈ r.digests, start ≤ g.start ∧ 8 * g.stop ≤ r.bit
  frames : ∃ f, s.fs = f :: fs ∧ Carries size (full.take k) r.scope f

/-- What is known of a scope between two of its fields is kept by the next one. -/
lemma ScanIs.step {full : List Sym} {k k' size start limit : Nat} {f : Frame} {fs : Frames} {s s' : BitScan} {r : Reading}
    {name : Option String} {kind : SymKind} {fields : List FieldIn} {part : Part}
    (h : ScanIs full k size start limit fs s r) (hstep : StepIs full (keyOf name) kind limit f fs s s' part)
    (hcarries : Carries size (full.take k') (r.scope ++ part.got name r.bit)
      (f.put (regOf full (keyOf name)) part.int? (spanOf full (keyOf name)) (r.bit / 8, part.bit / 8))) :
    ScanIs full k' size start limit fs s' (r.add name fields part) := by
  have honward := h.onward
  have hstep₁ := hstep.onward
  have hbit := h.bit
  constructor
  · rw [Reading.add_bit, hstep.bit]
  · rw [Reading.add_bit]
    exact ⟨by omega, hstep₁.2⟩
  · rw [hstep.map, Reading.add_entries, h.map]
  · obtain ⟨ds, hds, hawait⟩ := hstep.deferred
    rw [hds, Reading.add_digests]
    exact List.rel_append h.deferred hawait
  · intro g hg
    rw [Reading.add_digests] at hg
    rw [Reading.add_bit]
    rcases List.mem_append.mp hg with hg | hg
    · have := h.within g hg
      omega
    · have := hstep.within g (Option.mem_toList.mp hg)
      omega
  · refine ⟨_, hstep.frames, ?_⟩
    rw [Reading.add_scope, hbit]
    exact hcarries

def TypeIn.isBits : TypeIn → Bool
  | .bits .. => true
  | _ => false

section Alignment

variable {opts : Options} {buf : Bytes} {seen : Seen} {limit bit : Nat}

lemma byteOf_none (h : bit % 8 ≠ 0) : byteOf bit = none := if_neg h

lemma readFlat_misaligned (h : bit % 8 ≠ 0) (n : Nat) (value : Bytes → Option Value) :
    readFlat buf n value limit bit = none := by
  rw [readFlat, byteOf_none h]
  rfl

lemma readCounted_misaligned (h : bit % 8 ≠ 0) (e : ExprIn) (max : Nat) (value : Bytes → Option Value) :
    readCounted buf seen e max value limit bit = none := by
  rw [readCounted, byteOf_none h]
  rfl

lemma bind_misaligned {α β : Type} (x : Option α) {y : α → Option β} (h : ∀ a, y a = none) : x.bind y = none := by
  cases x with
  | none => rfl
  | some a => exact h a

/-- Only bits may start within a byte. -/
lemma read_misaligned (h : bit % 8 ≠ 0) {ty : TypeIn} (hty : ty.isBits = false) (bo : ByteOrder) :
    ty.read opts buf bo seen limit bit = none := by
  have hbyte := byteOf_none h
  cases ty with
  | bits width signed => cases hty
  | int | float | bool =>
    rw [TypeIn.read]
    exact readFlat_misaligned h _ _
  | raw | flags =>
    rw [TypeIn.read]
    exact bind_misaligned _ fun _ => readFlat_misaligned h _ _
  | bytes =>
    rw [TypeIn.read]
    exact readCounted_misaligned h _ _ _
  | str =>
    rw [TypeIn.read]
    exact bind_misaligned _ fun _ => readCounted_misaligned h _ _ _
  | cstr =>
    rw [TypeIn.read]
    refine bind_misaligned _ fun _ => ?_
    rw [readTerminated, hbyte]
    rfl
  | digest =>
    rw [TypeIn.read]
    refine bind_misaligned _ fun _ => ?_
    rw [hbyte]
    rfl
  | struct | array | switch | cond =>
    rw [TypeIn.read, hbyte]
    rfl

end Alignment

/-- What the ops that a type is lowered to do is what the type says. -/
structure TypeReads (opts : Options) (H : Hashes) (buf : Bytes) (ty : TypeIn) : Prop where
  elem : ∀ {Γ seen fs bo op limit pos}, EnvOk Γ → EnvCarries buf.length Γ seen fs →
    Γ.length + opDepth op ≤ maxDepth → op.Every Op.bitsFit → LowersElem opts ty Γ bo op → pos ≤ limit →
    limit ≤ buf.length → Reads H fs (opValue H buf op limit { fs, pos }) (ty.read opts buf bo seen limit (8 * pos))
  field : ∀ {Γ seen f fs bo name atom kind full p limit bit map deferred}, EnvOk Γ →
    EnvCarries buf.length Γ seen (f :: fs) →
    (∀ op, p = .op op → Γ.length + opDepth op ≤ maxDepth ∧ op.Every Op.bitsFit) →
    LowersField opts ty Γ bo name atom kind → Realizes full atom p → ScopeNumbers full (keyOf name) kind →
    bit ≤ 8 * limit → limit ≤ buf.length →
    StepReads H full (keyOf name) kind limit f fs ⟨f :: fs, bit, map, deferred⟩
      (p.run H buf limit ⟨f :: fs, bit, map, deferred⟩) (ty.read opts buf bo seen limit bit)

section Fields

variable {opts : Options} {H : Hashes} {buf : Bytes}

/-- The scopes of a field. -/
lemma EnvOk.take {Γ : Env} (hΓ : EnvOk Γ) {full : List Sym} {nregs nspans : Nat} (hok : SymsOk full nregs nspans)
    (hroom : Γ.length + 1 ≤ maxDepth) (k : Nat) : EnvOk (full.take k :: Γ) where
  regs := hΓ.regs.take (fun s hs i hi => Nat.lt_of_lt_of_le (hok.regs.lt s hs i hi) hok.nregs_le) k
  depth := hroom

lemma scopeNumbers_skip (full : List Sym) (kind : SymKind) : ScopeNumbers full (keyOf none) kind :=
  ⟨(fun _ hi => by cases hi), (fun _ hi => by cases hi), fun _ => rfl, fun _ => rfl⟩

lemma regOf_of_mem {full : List Sym} {nregs nspans : Nat} (hok : SymsOk full nregs nspans) {s : Sym} (hs : s ∈ full) :
    regOf full (keyOf (some s.name)) = s.reg ∧ spanOf full (keyOf (some s.name)) = s.span := by
  have hfind := findSym_of_mem hok.names hs
  constructor
  · simp [regOf, symOf, keyOf, Key.name, hfind]
  · simp [spanOf, symOf, keyOf, Key.name, hfind]

lemma scopeNumbers_of_mem {full : List Sym} {nregs nspans : Nat} (hok : SymsOk full nregs nspans) {s : Sym}
    (hs : s ∈ full) : ScopeNumbers full (keyOf (some s.name)) s.kind := by
  obtain ⟨hreg, hspan⟩ := regOf_of_mem hok hs
  constructor
  · exact regOf_lt hok
  · exact spanOf_lt hok
  · intro hno
    rw [hreg]
    by_contra hne
    have hyes := hok.refable s hs (Option.isSome_iff_ne_none.mpr hne)
    have hno' : s.refable = false := hno
    rw [hyes] at hno'
    cases hno'
  · intro hno
    rw [hspan]
    by_contra hne
    have hyes := hok.spannable s hs (Option.isSome_iff_ne_none.mpr hne)
    have hno' : s.spannable = false := hno
    rw [hyes] at hno'
    cases hno'

/-- What a scope has found stays found. -/
lemma fieldsRead_facts {fields : List FieldIn} {bo : ByteOrder} {outer : Seen} {limit : Nat} {r r' : Reading}
    (h : fieldsRead opts buf fields bo outer limit r = some r') (hok : r'.facts.Ok H) : r.facts.Ok H := by
  induction fields generalizing r with
  | nil =>
    cases h
    exact hok
  | cons f fields ih =>
    obtain ⟨name, ty⟩ := f
    rw [fieldsRead] at h
    obtain ⟨part, -, h⟩ := Option.bind_eq_some_iff.mp h
    have hadd := ih h
    unfold Reading.add at hadd
    cases name with
    | none => exact (facts_append_ok.mp hadd).1
    | some n =>
      dsimp only at hadd
      split_ifs at hadd
      · exact (facts_append_ok.mp (facts_append_ok.mp hadd).1).1
      · exact (facts_append_ok.mp hadd).1

variable {Γ : Env} {seen : Seen} {fs : Frames} {full : List Sym} {nregs nspans limit : Nat}

lemma LowersFields.reads {fields : List FieldIn} (hfs : ∀ f ∈ fields, TypeReads opts H buf f.ty) (hΓ : EnvOk Γ)
    (hroom : Γ.length + 1 ≤ maxDepth) (hc : EnvCarries buf.length Γ seen fs) (hok : SymsOk full nregs nspans)
    {bo : ByteOrder} {k : Nat} {atoms : List Atom} {pieces : List Piece} (h : LowersFields opts fields Γ bo full k atoms)
    (hp : List.Forall₂ (Realizes full) atoms pieces)
    (hfit : ∀ op, .op op ∈ pieces → Γ.length + 1 + opDepth op ≤ maxDepth ∧ op.Every Op.bitsFit)
    (hl : limit ≤ buf.length) {start : Nat}
    {s : BitScan} {r : Reading} (hs : ScanIs full k buf.length start limit fs s r) (hfacts : r.facts.Ok H) :
    Exec.Mirrors (ScanIs full full.length buf.length start limit fs) (fun r' => r'.facts.Ok H)
      (runPieces H buf limit pieces s) (fieldsRead opts buf fields bo seen limit r) := by
  induction fields generalizing k atoms pieces s r with
  | nil =>
    obtain ⟨rfl, rfl⟩ := h
    cases hp
    rw [runPieces, fieldsRead]
    exact .of_some hfacts hs
  | cons field fields ih =>
    obtain ⟨name, ty⟩ := field
    have hty := hfs (.mk name ty) List.mem_cons_self
    have hrest := @ih fun f hf => hfs f (List.mem_cons_of_mem _ hf)
    obtain ⟨f, hframe, hcarries⟩ := hs.frames
    obtain ⟨sfs, sbit, smap, sdeferred⟩ := s
    obtain rfl : sfs = f :: fs := hframe
    obtain rfl : sbit = r.bit := hs.bit
    have henv : EnvCarries buf.length (full.take k :: Γ) (r.scope :: seen) (f :: fs) := ⟨hcarries, hc⟩
    have hin := hs.onward.2
    -- The field, then those after it: the same for a named field and for one without a name.
    have key : ∀ (kind : SymKind) (k' : Nat) (atom : Atom) (rest : List Atom),
        LowersField opts ty (full.take k :: Γ) bo name atom kind → atoms = atom :: rest →
        ScopeNumbers full (keyOf name) kind → LowersFields opts fields Γ bo full k' rest →
        (∀ n, name = some n → findGot r.scope n = none) →
        (∀ n, name = some n → ((regOf full (keyOf name)).isSome ↔ fieldsMention n fields)) →
        (name = none → regOf full (keyOf name) = none) →
        (∀ part : Part, (kind.refable → part.int?.isSome) → (kind.spannable → part.value.isSome) → r.bit ≤ part.bit →
          part.bit ≤ 8 * buf.length → Carries buf.length (full.take k') (r.scope ++ part.got name r.bit)
            (f.put (regOf full (keyOf name)) part.int? (spanOf full (keyOf name)) (r.bit / 8, part.bit / 8))) →
        Exec.Mirrors (ScanIs full full.length buf.length start limit fs) (fun r' => r'.facts.Ok H)
          (runPieces H buf limit pieces ⟨f :: fs, r.bit, smap, sdeferred⟩)
          (fieldsRead opts buf (.mk name ty :: fields) bo seen limit r) := by
      intro kind k' atom rest hfield hatoms hnums hmore hfresh hment hnone hput
      subst hatoms
      cases hp with
      | @cons _ p _ ps hr hps =>
        have hops : ∀ op, p = .op op → (full.take k :: Γ).length + opDepth op ≤ maxDepth ∧ op.Every Op.bitsFit := by
          rintro op rfl
          exact hfit op List.mem_cons_self
        have hstep : StepReads H full (keyOf name) kind limit f fs ⟨f :: fs, r.bit, smap, sdeferred⟩
            (p.run H buf limit ⟨f :: fs, r.bit, smap, sdeferred⟩) (ty.read opts buf bo (r.scope :: seen) limit r.bit) :=
          hty.field (hΓ.take hok hroom k) henv hops hfield hr hnums hin hl
        have hadd : ∀ part : Part, (r.add name fields part).facts.Ok H ↔
            part.facts.Ok H ∧ part.Fits (regOf full (keyOf name)) := by
          intro part
          rw [Reading.add_facts hfresh]
          constructor
          · rintro ⟨-, hpart, hint⟩
            refine ⟨hpart, fun hsome v hv => ?_⟩
            cases name with
            | none =>
              rw [hnone rfl] at hsome
              cases hsome
            | some n => exact hint n rfl ((hment n rfl).mp hsome) v hv
          · rintro ⟨hpart, hfits⟩
            exact ⟨hfacts, hpart, fun n hn hm => hfits ((hment n hn).mpr hm)⟩
        rw [runPieces, fieldsRead]
        refine hstep.bind ?_ ?_
        · intro part r' hr' hok'
          exact (hadd part).mp (fieldsRead_facts hr' hok')
        · intro s' part his hpart
          have hon := his.onward
          have hcarries' := hput part his.int his.value hon.1 (by omega)
          exact hrest hmore hps (fun op ho => hfit op (List.mem_cons_of_mem _ ho)) (hs.step his hcarries')
            ((hadd part).mpr hpart)
    cases name with
    | none =>
      obtain ⟨atom, kind, rest, hfield, hmore, rfl⟩ := h
      refine key kind k atom rest hfield rfl (scopeNumbers_skip full kind) hmore ?_ ?_ (fun _ => rfl) ?_
      · intro n hn
        cases hn
      · intro n hn
        cases hn
      · intro part _ _ _ _
        have hgot : part.got none r.bit = [] := rfl
        rw [hgot, List.append_nil]
        exact hcarries
    | some n =>
      obtain ⟨atom, s, rest, hfield, hget, rfl, -, hment, hmore, rfl⟩ := h
      obtain ⟨hnext, hmem, hfresh⟩ := findSym_take hok hget
      obtain ⟨hreg, hspan⟩ := regOf_of_mem hok hmem
      refine key s.kind (k + 1) atom rest hfield rfl (scopeNumbers_of_mem hok hmem) hmore ?_ ?_ ?_ ?_
      · rintro m hm
        obtain rfl := Option.some.inj hm
        exact hcarries.none _ hfresh
      · rintro m hm
        obtain rfl := Option.some.inj hm
        rw [hreg]
        refine ⟨hment, fun hmentions => ?_⟩
        have hlookup : lookupSym (full.take (k + 1) :: Γ) s.name = some (0, s) := by
          rw [lookupSym, hnext, findSym_append, hfresh, if_pos rfl]
          rfl
        exact hmore.reg_isSome (fun f _ => (typeRegs opts).type f.ty) hlookup hmentions
      · intro hn
        cases hn
      · intro part hint hvalue hle hfit
        rw [hreg, hspan]
        exact hcarries.add hok hget hint hvalue hle hfit

end Fields

section Digests

variable {H : Hashes} {buf : Bytes} {full : List Sym} {scope : List Got} {f : Frame}

/-- A digest has at most 32 bytes, so its zeros are fed at once. -/
lemma updateZeros_eq (h : Hasher) {n : Nat} (hpos : 0 < n) (hn : n ≤ 32) :
    h.updateZeros n = h.update (List.replicate n 0) := by
  have hdiv : n / 64 = 0 := by omega
  have hmod : n % 64 = n := by omega
  have hne : ¬n = 0 := by omega
  have hzeros : Hasher.zeros.take n = List.replicate n 0 := by
    rw [Hasher.zeros, List.take_replicate, Nat.min_eq_left (by omega)]
  unfold Hasher.updateZeros
  rw [hdiv, hmod, hzeros, if_neg hne]
  rfl

/-- The spans that an `over` names are those of its fields. -/
lemma spans_fold (hlen : Carries buf.length full scope f) {names : List String} {idxs : List Nat}
    (hover : List.Forall₂ (fun n idx => ∃ s, findSym full n = some s ∧ s.spannable ∧ s.span = some idx) names idxs)
    (hspans : ∀ i ∈ idxs, i < maxSpans) (h : Hasher) :
    ∃ pieces, names.mapM (fun n => (findGot scope n).map fun g => (buf.drop g.start).take (g.stop - g.start)) = some pieces ∧
      idxs.foldlM (fun (h : Hasher) i =>
        if hi : i < maxSpans then (do
          let piece ← slice buf (f.spans ⟨i, hi⟩).1 (f.spans ⟨i, hi⟩).2
          .ok (h.update piece) : URes Hasher)
        else Exec.panic) h = .ok (pieces.foldl Hasher.update h) := by
  induction hover generalizing h with
  | nil => exact ⟨[], rfl, rfl⟩
  | @cons n i names idxs hn _ ih =>
    obtain ⟨s, hs, hspan, hi⟩ := hn
    obtain ⟨g, hg, hle, hsize, hval⟩ := hlen.span n s hs hspan
    have hlt := hspans i List.mem_cons_self
    obtain ⟨pieces, hpieces, hfold⟩ := ih (fun i hi => hspans i (List.mem_cons_of_mem _ hi))
      (h.update ((buf.drop g.start).take (g.stop - g.start)))
    refine ⟨(buf.drop g.start).take (g.stop - g.start) :: pieces, ?_, ?_⟩
    · rw [List.mapM_cons, hg, hpieces]
      rfl
    · have hslice : (slice buf g.start g.stop : URes Bytes) = .ok ((buf.drop g.start).take (g.stop - g.start)) :=
        if_pos ⟨hle, hsize⟩
      rw [List.foldlM_cons, dif_pos hlt, hval i hlt hi]
      dsimp only
      rw [hslice, Exec.bind_ok, Exec.bind_ok, hfold]
      rfl

lemma Awaits.computes (hc : Carries buf.length full scope f) {d : Deferred} {g : GotDigest} (h : Awaits full d g)
    (hspans : ∀ s ∈ full, ∀ i ∈ s.span, i < maxSpans) {start stop : Nat} (hstart : start ≤ g.start) (hstop : g.stop ≤ stop)
    (hsize : stop ≤ buf.length) :
    ∃ pieces, g.pieces buf scope start stop = some pieces ∧
      d.compute H buf start stop f = .ok (digestOf H g.algo pieces) := by
  have hover := h.overs
  have hwidth := h.width
  unfold Deferred.compute GotDigest.pieces
  cases hg : g.overs with
  | star =>
    rw [hg] at hover
    have hd : d.overs = .star := hover
    have hslice {i j : Nat} (hle : i ≤ j) (hj : j ≤ buf.length) :
        (slice buf i j : URes Bytes) = .ok ((buf.drop i).take (j - i)) := if_pos ⟨hle, hj⟩
    refine ⟨_, rfl, ?_⟩
    rw [hd, h.field]
    dsimp only
    rw [hslice hstart (by omega), Exec.bind_ok, checkedSub_of_le (by omega), Exec.bind_ok, hslice hstop hsize, Exec.bind_ok,
      updateZeros_eq _ (by omega) (by omega), h.algo]
    rfl
  | names names =>
    rw [hg] at hover
    obtain ⟨idxs, hd, hnames⟩ := hover
    have hlt : ∀ i ∈ idxs, i < maxSpans := by
      intro i hi
      obtain ⟨n, -, s, hs, -, hsi⟩ := forall₂_mem hnames.flip i hi
      exact hspans s (findSym_eq_some hs).1 i hsi
    obtain ⟨pieces, hpieces, hfold⟩ := spans_fold hc hnames hlt (Hasher.new g.algo)
    refine ⟨pieces, hpieces, ?_⟩
    rw [hd, h.algo]
    dsimp only
    rw [hfold]
    rfl

/-- A scope returns when the digests that it verifies are right. -/
lemma verify_iff (hc : Carries buf.length full scope f) (hspans : ∀ s ∈ full, ∀ i ∈ s.span, i < maxSpans)
    {start stop : Nat} (hsize : stop ≤ buf.length) {ds : List Deferred} {gs : List GotDigest}
    (h : List.Forall₂ (Awaits full) ds gs) (hin : ∀ g ∈ gs, start ≤ g.start ∧ g.stop ≤ stop) :
    ∃ checks, gs.mapM (fun d => d.check buf scope start stop) = some checks ∧
      (verifyDigests H buf start stop f ds = .ok () ↔ ∀ c ∈ checks, c.verify → c.Holds H) := by
  induction h with
  | nil => exact ⟨[], rfl, fun _ _ hc => absurd hc List.not_mem_nil, fun _ => rfl⟩
  | @cons d g ds gs hd _ ih =>
    obtain ⟨hstart, hstop⟩ := hin g List.mem_cons_self
    obtain ⟨pieces, hpieces, hcompute⟩ := hd.computes (H := H) hc hspans hstart hstop hsize
    obtain ⟨checks, hchecks, hiff⟩ := ih fun g hg => hin g (List.mem_cons_of_mem _ hg)
    have hcheck : g.check buf scope start stop = some { algo := g.algo, verify := g.verify, read := g.read, pieces } := by
      rw [GotDigest.check, hpieces]
      rfl
    refine ⟨{ algo := g.algo, verify := g.verify, read := g.read, pieces } :: checks, ?_, ?_⟩
    · rw [List.mapM_cons, hcheck, hchecks]
      rfl
    · rw [verifyDigests, hd.verify, List.forall_mem_cons, ← hiff]
      by_cases hv : g.verify = true
      · rw [if_pos hv, hcompute, Exec.bind_ok, hd.read]
        by_cases heq : digestOf H g.algo pieces = g.read
        · rw [if_neg (not_not.mpr heq)]
          exact ⟨fun h => ⟨fun _ => heq.symm, h⟩, fun h => h.2⟩
        · rw [if_pos heq]
          refine ⟨(fun h => by cases h), fun h => ?_⟩
          exact absurd (h.1 hv).symm heq
      · rw [if_neg hv]
        exact ⟨fun h => ⟨fun hyes => absurd hyes hv, h⟩, fun h => h.2⟩

end Digests

section Scope

variable {opts : Options} {H : Hashes} {buf : Bytes} {Γ : Env} {seen : Seen} {fs : Frames} {full : List Sym}

/-- A struct in a scope of its own. -/
lemma Assembled.reads {fields : List FieldIn} (hlen : buf.length ≤ isizeMax) (hfs : ∀ f ∈ fields, TypeReads opts H buf f.ty)
    (hΓ : EnvOk Γ) (hc : EnvCarries buf.length Γ seen fs) {bo : ByteOrder} {atoms : List Atom} {prog : Program}
    (hasm : Assembled full atoms prog) (hlow : LowersFields opts fields Γ bo full 0 atoms)
    (hdepth : Γ.length + frameDepth prog ≤ maxDepth) (hbits : prog.Every Op.bitsFit) {region pos : Nat}
    (hpos : pos ≤ region) (hl : region ≤ buf.length) :
    Reads H fs (runStruct H buf prog region { fs, pos })
      ((fieldsRead opts buf fields bo seen region (.start (8 * pos))).bind fun r => r.close buf pos) := by
  obtain ⟨ops, nregs, nspans, minSize, staticSize⟩ := prog
  rw [frameDepth] at hdepth
  rw [Program.Every, opsEvery_iff] at hbits
  have hroom : ¬fs.length ≥ maxDepth := by
    rw [hc.length]
    omega
  have hstart : ScanIs full 0 buf.length pos region fs (Scan.enter { fs, pos }).bits (.start (8 * pos)) := by
    refine ⟨rfl, ?_, rfl, .nil, fun _ hg => absurd hg List.not_mem_nil, .new, rfl, carries_new _⟩
    simp only [Reading.start]
    omega
  have hops : ∀ op, .op op ∈ piecesOf ops → Γ.length + 1 + opDepth op ≤ maxDepth ∧ op.Every Op.bitsFit := by
    intro op hop
    obtain ⟨o, ho, hpieces⟩ := List.mem_flatMap.mp hop
    have hsame : o = op := by
      cases o with
      | fixed | bitRun => simp [Op.pieces, FixedItem.piece] at hpieces
      | _ => exact (Piece.op.inj (List.mem_singleton.mp hpieces)).symm
    subst hsame
    have hle := opsDepth_le ho
    exact ⟨by omega, hbits o ho⟩
  have hfields := hlow.reads hfs hΓ (by omega) hc hasm.syms hasm.pieces hops hl hstart facts_none_ok
  have hpieces {r : BitScan} := opsPieces_iff (H := H) (s := Scan.enter { fs, pos }) (r := r)
    (fun op hop => ⟨hasm.laid op hop, (hbits op hop).here⟩) hl hlen hpos
  have hspans : ∀ s ∈ full, ∀ i ∈ s.span, i < maxSpans := fun s hs i hi =>
    Nat.lt_of_lt_of_le (hasm.syms.spans.lt s hs i hi) hasm.syms.nspans_le
  -- What is left once the fields are read: the digests of the scope.
  have hclose : ∀ (t : Scan) (r : Reading), ScanIs full full.length buf.length pos region fs t.bits r →
      ∃ checks, r.close buf pos = some (.upTo t.cur.pos (.map t.map) (r.facts.append ⟨[], checks⟩)) ∧
        ∃ f, t.cur.fs = f :: fs ∧ (verifyDigests H buf pos t.cur.pos f t.deferred = .ok () ↔
          (⟨[], checks⟩ : Facts).Ok H) := by
    intro t r his
    obtain ⟨f, hf, hcarries⟩ := his.frames
    have hbit : r.bit = 8 * t.cur.pos := his.bit.symm
    have hmap : t.map = r.entries := his.map
    have hon := his.onward
    rw [List.take_length] at hcarries
    have hin : ∀ g ∈ r.digests, pos ≤ g.start ∧ g.stop ≤ t.cur.pos := by
      intro g hg
      have := his.within g hg
      omega
    obtain ⟨checks, hchecks, hiff⟩ := verify_iff (H := H) hcarries hspans (by omega) his.deferred hin
    refine ⟨checks, ?_, f, hf, ?_⟩
    · rw [Reading.close, hbit, byteOf_mul, Option.bind_eq_bind, Option.bind_some, hchecks, hmap]
      rfl
    · exact hiff.trans ⟨facts_checks_ok, fun h => h.checks⟩
  rw [runStruct, withFrame, if_neg hroom]
  constructor
  · rintro ⟨v, next⟩ hr
    obtain ⟨t, ht, hr⟩ := Exec.bind_eq_ok.mp hr
    obtain ⟨f', hf', hr⟩ := Exec.bind_eq_ok.mp hr
    obtain ⟨_, hver, hr⟩ := Exec.bind_eq_ok.mp hr
    cases hr
    obtain ⟨r, hread, hok, his⟩ := hfields.ok _ (hpieces.mpr ⟨t, ht, rfl⟩)
    obtain ⟨checks, hcl, f, hf, hiff⟩ := hclose t r his
    have hsame : f = f' := by
      rw [hf] at hf'
      exact Except.ok.inj hf'
    subst hsame
    refine ⟨.upTo t.cur.pos (.map t.map) (r.facts.append ⟨[], checks⟩), ?_, facts_append_ok.mpr ⟨hok, hiff.mp hver⟩,
      rfl, rfl, rfl, ?_⟩
    · rw [hread, Option.bind_some, hcl]
    · rw [hf]
      rfl
  · intro part hpart hok
    obtain ⟨r, hread, hcl⟩ := Option.bind_eq_some_iff.mp hpart
    have hrok : r.facts.Ok H := by
      unfold Reading.close at hcl
      obtain ⟨stop, -, hcl⟩ := Option.bind_eq_some_iff.mp hcl
      obtain ⟨checks, -, hcl⟩ := Option.bind_eq_some_iff.mp hcl
      cases hcl
      exact (facts_append_ok.mp hok).1
    obtain ⟨s, hs, his⟩ := hfields.some r hread hrok
    obtain ⟨t, ht, rfl⟩ := hpieces.mp hs
    obtain ⟨checks, hcl', f, hf, hiff⟩ := hclose t r his
    rw [hcl] at hcl'
    obtain rfl := Option.some.inj hcl'
    have hver := hiff.mpr (facts_append_ok.mp hok).2
    refine ⟨(.map t.map, { t.cur with fs := t.cur.fs.tail }), ?_, rfl, rfl, rfl, ?_⟩
    · have hhead : (Exec.expect t.cur.fs.head? : URes Frame) = .ok f := by
        rw [hf]
        rfl
      have ht' : runOps H buf ops region { cur := { fs := .new :: fs, pos }, map := [], deferred := [] } = .ok t := ht
      rw [ht', Exec.bind_ok, hhead, Exec.bind_ok, hver]
      rfl
    · rw [hf]
      rfl

end Scope

end Rustruct

import Rustruct.Proofs.TypeWrites

/-!
# The fields of a scope that come back

Field by field a scope is packed and its bytes are read again. The frame of the scope is then that of the
reading, and the digests that it will fill are those that the reading has found.
-/

namespace Rustruct

/-- The field declares the next symbol of its scope, or it has no name. -/
structure Declares (full : List Sym) (k k' : Nat) (name : Option String) (kind : SymKind) (fields : List FieldIn) :
    Prop where
  skip : name = none → k' = k
  sym : ∀ n, name = some n → k' = k + 1 ∧
    ∃ s, full[k]? = some s ∧ s.name = n ∧ s.kind = kind ∧ (s.reg.isSome → fieldsMention n fields)

section Declares

variable {opts : Options} {Γ : Env} {bo : ByteOrder} {full : List Sym} {nregs nspans k k' : Nat} {name : Option String}
  {ty : TypeIn}
  {kind : SymKind} {fields : List FieldIn} {atoms : List Atom}

/-- The first field, and those after it. -/
lemma LowersFields.uncons (h : LowersFields opts (.mk name ty :: fields) Γ bo full k atoms) :
    ∃ atom kind rest k', LowersField opts ty (full.take k :: Γ) bo name atom kind ∧
      LowersFields opts fields Γ bo full k' rest ∧
      atoms = atom :: rest ∧ Declares full k k' name kind fields := by
  cases name with
  | none =>
    obtain ⟨atom, kind, rest, hfield, hmore, rfl⟩ := h
    refine ⟨atom, kind, rest, k, hfield, hmore, rfl, fun _ => rfl, ?_⟩
    intro n hn
    cases hn
  | some n =>
    obtain ⟨atom, s, rest, hfield, hget, rfl, -, hment, hmore, rfl⟩ := h
    refine ⟨atom, s.kind, rest, k + 1, hfield, hmore, rfl, ?_, ?_⟩
    · intro hno
      cases hno
    · rintro m hm
      obtain rfl := Option.some.inj hm
      exact ⟨rfl, s, hget, rfl, rfl, hment⟩

namespace Declares

lemma le (hd : Declares full k k' name kind fields) : k ≤ k' := by
  cases name with
  | none => exact Nat.le_of_eq (hd.skip rfl).symm
  | some n =>
    have := (hd.sym n rfl).1
    omega

lemma numbers (hd : Declares full k k' name kind fields) (hok : SymsOk full nregs nspans) :
    ScopeNumbers full (keyOf name) kind := by
  cases name with
  | none => exact scopeNumbers_skip full kind
  | some n =>
    obtain ⟨-, s, hget, rfl, rfl, -⟩ := hd.sym n rfl
    exact scopeNumbers_of_mem hok (findSym_take hok hget).2.1

/-- The registers of the fields that are still to come are not in use. -/
def Ahead (full : List Sym) (k : Nat) (f : PFrame) : Prop := ∀ j s, k ≤ j → full[j]? = some s → f.Fresh s.reg

lemma fresh (hd : Declares full k k' name kind fields) (hok : SymsOk full nregs nspans) {f : PFrame}
    (hahead : Ahead full k f) :
    f.Fresh (regOf full (keyOf name)) := by
  cases name with
  | none =>
    intro i hi
    cases hi
  | some n =>
    obtain ⟨-, s, hget, rfl, -, -⟩ := hd.sym n rfl
    rw [(regOf_of_mem hok (findSym_take hok hget).2.1).1]
    exact hahead k s (Nat.le_refl k) hget

/-- A register belongs to one symbol. -/
lemma apart (hok : SymsOk full nregs nspans) {s t : Sym} {i j : Nat} (hij : i < j) (hs : full[i]? = some s)
    (ht : full[j]? = some t) {r : Nat} (hr : t.reg = some r) : s.reg ≠ some r := by
  intro hsr
  obtain ⟨hi, rfl⟩ := List.getElem?_eq_some_iff.mp hs
  obtain ⟨hj, rfl⟩ := List.getElem?_eq_some_iff.mp ht
  exact List.pairwise_iff_getElem.mp hok.regs.inj i j hi hj hij r hsr hr

lemma ahead (hd : Declares full k k' name kind fields) (hok : SymsOk full nregs nspans) {p : Nat} {span : Option Nat}
    {range : Nat × Nat} {ds : List PDigest} {f g : PFrame} (hahead : Ahead full k f)
    (hstep : FieldStep p (regOf full (keyOf name)) span range ds f g) : Ahead full k' g := by
  intro j t hj ht i hi
  have hown : regOf full (keyOf name) ≠ some i.val := by
    cases name with
    | none =>
      intro hno
      cases hno
    | some n =>
      obtain ⟨rfl, s, hget, rfl, -, -⟩ := hd.sym n rfl
      rw [(regOf_of_mem hok (findSym_take hok hget).2.1).1]
      exact apart hok (by omega) hget ht hi
  obtain ⟨hnone, hunknown⟩ := hahead j t (Nat.le_trans hd.le hj) ht i hi
  have hkept := hstep.regs i hown
  exact ⟨hkept.none.mpr hnone, (hkept.plain hnone).1.trans hunknown⟩

variable {size : Nat} {scope : List Got} {f : Frame}

lemma unseen (hd : Declares full k k' name kind fields) (hok : SymsOk full nregs nspans)
    (hc : Carries size (full.take k) scope f) :
    ∀ n, name = some n → findGot scope n = none := by
  intro n hn
  obtain ⟨-, s, hget, rfl, -, -⟩ := hd.sym n hn
  exact hc.none _ (findSym_take hok hget).2.2

/-- A register is there for the fields that mention the name. -/
lemma mentioned (hd : Declares full k k' name kind fields) (hok : SymsOk full nregs nspans) {rest : List Atom}
    (hmore : LowersFields opts fields Γ bo full k' rest) :
    (regOf full (keyOf name)).isSome = name.any fun n => fieldsMention n fields := by
  cases name with
  | none => rfl
  | some n =>
    obtain ⟨rfl, s, hget, rfl, -, hment⟩ := hd.sym n rfl
    obtain ⟨hnext, hmem, hfresh⟩ := findSym_take hok hget
    rw [(regOf_of_mem hok hmem).1, Bool.eq_iff_iff]
    refine ⟨hment, fun hmentions => ?_⟩
    have hlookup : lookupSym (full.take (k + 1) :: Γ) s.name = some (0, s) := by
      rw [lookupSym, hnext, findSym_append, hfresh, if_pos rfl]
      rfl
    exact hmore.reg_isSome (fun f _ => (typeRegs opts).type f.ty) hlookup hmentions

/-- The scope and its frame with the field. -/
lemma carries (hd : Declares full k k' name kind fields) (hok : SymsOk full nregs nspans)
    (hc : Carries size (full.take k) scope f) (start : Nat) {part : Part} (hint : kind.refable → part.int?.isSome)
    (hvalue : kind.spannable → part.value.isSome) (hle : start ≤ part.bit) (hfit : part.bit ≤ 8 * size) :
    Carries size (full.take k') (scope ++ part.got name start)
      (f.put (regOf full (keyOf name)) part.int? (spanOf full (keyOf name)) (start / 8, part.bit / 8)) := by
  cases name with
  | none =>
    rw [hd.skip rfl]
    have hgot : part.got none start = [] := rfl
    rw [hgot, List.append_nil]
    exact hc
  | some n =>
    obtain ⟨rfl, s, hget, rfl, rfl, -⟩ := hd.sym n rfl
    obtain ⟨hreg, hspan⟩ := regOf_of_mem hok (findSym_take hok hget).2.1
    rw [hreg, hspan]
    exact hc.add hok hget hint hvalue hle hfit

/-- A field that was found before is found after it. -/
lemma kept (hd : Declares full k k' name kind fields) (scope : List Got) (hok : SymsOk full nregs nspans) {n : String}
    (hn : (findSym (full.take k) n).isSome) :
    (findSym (full.take k') n).isSome ∧
      ∀ start part, findGot (scope ++ Part.got part name start) n = findGot scope n := by
  cases name with
  | none =>
    rw [hd.skip rfl]
    refine ⟨hn, fun start part => ?_⟩
    have hgot : part.got none start = [] := rfl
    rw [hgot, List.append_nil]
  | some m =>
    obtain ⟨rfl, s, hget, rfl, -, -⟩ := hd.sym m rfl
    obtain ⟨hnext, -, hfresh⟩ := findSym_take hok hget
    have hne : some s.name ≠ some n := by
      intro he
      obtain rfl := Option.some.inj he
      rw [hfresh] at hn
      cases hn
    refine ⟨?_, fun start part => find_other hne start part scope⟩
    rw [hnext, findSym_append]
    cases hfind : findSym (full.take k) n with
    | none =>
      rw [hfind] at hn
      cases hn
    | some t => rfl

/-- The field itself is found with its value, if it has one. -/
lemma found (hd : Declares full k k' name kind fields) (hok : SymsOk full nregs nspans)
    (hc : Carries size (full.take k) scope f) {n : String} (hname : name = some n) (start : Nat) (part : Part) :
    (findSym (full.take k') n).isSome ∧ (findGot (scope ++ part.got name start) n).map Got.value = part.value := by
  have hgot := hd.unseen hok hc n hname
  subst hname
  obtain ⟨rfl, s, hget, rfl, -, -⟩ := hd.sym n rfl
  obtain ⟨hnext, -, hfresh⟩ := findSym_take hok hget
  constructor
  · rw [hnext, findSym_append, hfresh, if_pos rfl]
    rfl
  · cases hv : part.value with
    | none =>
      rw [Part.got, hv, Option.bind_some, Option.map_none, Option.toList_none, List.append_nil, hgot]
      rfl
    | some v =>
      rw [find_got hv scope hgot]
      rfl

end Declares

end Declares

/-- A digest field of `fields`: the other fields of the scope are beside it. -/
def Among (fields : List FieldIn) (scope : List Got) (d : PDigest) : Prop :=
  ∃ f ∈ fields, f.ty.asked.isSome ∧ ∃ n, f.name = some n ∧
    ∀ got ∈ scope, got.name ≠ n → got.stop ≤ d.pos ∨ d.pos + d.width ≤ got.start

/-- What a digest is over has none of the bytes of these digests. -/
def OverIn.Clears (scope : List Got) (later : List PDigest) : OverIn → PDigest → Prop
  | .star, _ => later = []
  | .names ns, d => ∀ n ∈ ns, ∀ got ∈ findGot scope n, ∀ e ∈ d :: later, got.stop ≤ e.pos ∨ e.pos + e.width ≤ got.start

/-- The digests of a scope are those that have been read. -/
def AllFill (buf : Bytes) (full : List Sym) (scope : List Got) : List PDigest → List GotDigest → Prop
  | [], gots => gots = []
  | d :: ds, gots => ∃ key asked g rest, gots = g :: rest ∧ Fills buf full key asked d g ∧
      (g.verify = true → g.overs.Clears scope ds d) ∧ AllFill buf full scope ds rest

lemma Among.cons {f : FieldIn} {fields : List FieldIn} {scope : List Got} {d : PDigest} (h : Among fields scope d) :
    Among (f :: fields) scope d := by
  obtain ⟨f', hf', hrest⟩ := h
  exact ⟨f', List.mem_cons_of_mem _ hf', hrest⟩

/-- A verified digest has settled what it is over before the later ones. -/
lemma Fills.clears {buf : Bytes} {full : List Sym} {name : Option String} {ty : TypeIn} {fields : List FieldIn}
    {scope : List Got} {d : PDigest} {g : GotDigest} {ds : List PDigest}
    (h : Fills buf full (keyOf name) ty.asked d g) (hown : Among [.mk name ty] scope d)
    (hsettled : digestSettled fields ty.asked) (hlater : ∀ e ∈ ds, Among fields scope e) (hverify : g.verify = true) :
    g.overs.Clears scope ds d := by
  have hasked : ty.asked = some (g.overs, true) := by rw [h.asked, hverify]
  have havoid := hsettled g.overs hasked
  have hothers := h.others
  cases hovers : g.overs with
  | star =>
    rw [OverIn.Clears]
    cases ds with
    | nil => rfl
    | cons e ds =>
      obtain ⟨f, hf, hdigest, -⟩ := hlater e List.mem_cons_self
      have hno := havoid f hf hdigest
      rw [hovers] at hno
      exact hno.elim
  | names ns =>
    intro n hn got hgot e he
    have hname : got.name = n := by simpa using List.find?_some hgot
    have hmem : got ∈ scope := List.mem_of_find?_eq_some hgot
    rcases List.mem_cons.mp he with rfl | he
    · obtain ⟨f, hf, -, m, hm, hbeside⟩ := hown
      obtain rfl := List.mem_singleton.mp hf
      obtain rfl : name = some m := hm
      refine hbeside got hmem ?_
      rw [hname]
      rintro rfl
      exact hothers ns hovers n rfl hn
    · obtain ⟨f, hf, hdigest, m, hm, hbeside⟩ := hlater e he
      refine hbeside got hmem ?_
      rw [hname]
      rintro rfl
      have hno := havoid f hf hdigest
      rw [hovers] at hno
      exact hno n hm hn

/-- What is read of the field is what its frame will have. -/
lemma FieldStep.readBack_put {buf : Bytes} {p : Nat} {reg span : Option Nat} {range : Nat × Nat} {ds : List PDigest}
    {f g : PFrame} (hs : FieldStep p reg span range ds f g) {v : Option Int}
    (hreg : ∀ i : Fin maxRegs, reg = some i.val → v = some ((g.readBack buf).regs i)) :
    (f.readBack buf).put reg v span range = g.readBack buf := by
  have hregs : ((f.readBack buf).put reg v span range).regs = (g.readBack buf).regs := by
    funext i
    show (if reg = some i.val then v.getD ((f.readBack buf).regs i) else (f.readBack buf).regs i) =
      (g.readBack buf).regs i
    by_cases hi : reg = some i.val
    · rw [if_pos hi, hreg i hi]
      rfl
    · rw [if_neg hi, (hs.regs i hi).readBack]
  have hspans : ((f.readBack buf).put reg v span range).spans = (g.readBack buf).spans := by
    funext j
    exact (hs.spans j).symm
  calc (f.readBack buf).put reg v span range
      = ⟨((f.readBack buf).put reg v span range).regs, ((f.readBack buf).put reg v span range).spans⟩ := rfl
    _ = g.readBack buf := by rw [hregs, hspans]

/-- A reading has come to where pack was. -/
structure Resumes (H : Hashes) (buf : Bytes) (full : List Sym) (k p : Nat) (f : PFrame) (r : Reading) : Prop where
  bit : r.bit = p
  facts : r.facts.Ok H
  carries : Carries buf.length (full.take k) r.scope (f.readBack buf)
  names : (r.scope.map Got.name).Nodup
  below : ∀ got ∈ r.scope, 8 * got.stop ≤ r.bit

/-- The reading of the fields that pack has written from there on. -/
structure FieldsBack (H : Hashes) (buf : Bytes) (full : List Sym) (k : Nat) (fields : List FieldIn)
    (pack : FieldIndex → PRes PCtx) (g : PFrame) (ds : List PDigest) (next : PCtx) (r r' : Reading) : Prop where
  resumes : Resumes H buf full full.length (8 * next.out.length) g r'
  added : ∃ added, r'.scope = r.scope ++ added ∧ ∀ got ∈ added, r.bit / 8 ≤ got.start
  kept : ∀ n, (findSym (full.take k) n).isSome → findGot r'.scope n = findGot r.scope n
  digests : ∃ gots, r'.digests = r.digests ++ gots ∧ AllFill buf full r'.scope ds gots
  among : ∀ d ∈ ds, Among fields r'.scope d
  again : ∀ view, (∀ n, view.get n = (findGot r'.scope n).map Got.value) → pack view = .ok next

section Fields

variable {opts : Options} {H : Hashes} {Γ : Env} {full : List Sym} {nregs nspans : Nat}

/-- The scope with one more field. -/
lemma Resumes.add {buf : Bytes} {k k' p q : Nat} {f g : PFrame} {r : Reading} {name : Option String} {kind : SymKind}
    {asked : Option (OverIn × Bool)} {fields : List FieldIn} {pack : FieldIndex → PRes PCtx} {ds : List PDigest}
    {mid : PCtx} {part : Part} (h : Resumes H buf full k p f r) (hd : Declares full k k' name kind fields)
    (hok : SymsOk full nregs nspans)
    (hstep : FieldStep p (regOf full (keyOf name)) (spanOf full (keyOf name)) (p / 8, q / 8) ds f g)
    (hback : FieldBack H full (keyOf name) kind asked buf pack q g ds mid part) (hle : p ≤ q)
    (hfit : q ≤ 8 * buf.length) (hsmall : ∀ n, name = some n → fieldsMention n fields → ∀ v ∈ part.int?, InI64 v) :
    Resumes H buf full k' q g (r.add name fields part) where
  bit := by rw [Reading.add_bit, hback.bit]
  facts := (Reading.add_facts (hd.unseen hok h.carries)).mpr ⟨h.facts, hback.facts, hsmall⟩
  carries := by
    have hput := hstep.readBack_put hback.reg
    have hc := hd.carries hok h.carries r.bit hback.int hback.value (by rw [h.bit, hback.bit]; exact hle)
      (by rw [hback.bit]; exact hfit)
    rw [Reading.add_scope, ← hput]
    rw [h.bit, hback.bit] at hc
    rw [h.bit]
    exact hc
  names := by
    rw [Reading.add_scope, List.map_append]
    refine List.nodup_append.mpr ⟨h.names, ?_, ?_⟩
    · cases name with
      | none => exact List.nodup_nil
      | some n =>
        rw [Part.got, Option.bind_some]
        cases part.value with
        | none => exact List.nodup_nil
        | some v => exact List.nodup_singleton _
    · intro a ha b hb hab
      obtain ⟨got, hgot, rfl⟩ := List.mem_map.mp ha
      cases name with
      | none => cases hb
      | some n =>
        have hnone := hd.unseen hok h.carries n rfl
        have hbn : b = n := by
          rw [Part.got, Option.bind_some] at hb
          cases hv : part.value with
          | none =>
            rw [hv] at hb
            cases hb
          | some v =>
            rw [hv] at hb
            exact List.mem_singleton.mp hb
        rw [findGot, List.find?_eq_none] at hnone
        exact hnone got hgot (by rw [hab, hbn, beq_self_eq_true])
  below := by
    have hbit := h.bit
    rw [Reading.add_scope, Reading.add_bit, hback.bit]
    intro got hgot
    rcases List.mem_append.mp hgot with hgot | hgot
    · have := h.below got hgot
      omega
    · obtain ⟨n, hn⟩ := Option.mem_toList.mp hgot |> Option.bind_eq_some_iff.mp
      obtain ⟨v, -, rfl⟩ := Option.map_eq_some_iff.mp hn.2
      dsimp only
      rw [hback.bit]
      omega

/-- The digest that a field is, beside the other fields. -/
lemma Resumes.beside {buf : Bytes} {k p q : Nat} {f g : PFrame} {r : Reading} {name : Option String} {ty : TypeIn}
    {part : Part} {reg span : Option Nat} {range : Nat × Nat} {ds : List PDigest} {out : Bytes} {added : List Got}
    {d : PDigest} {got : GotDigest} (h : Resumes H buf full k p f r) (hstep : FieldStep p reg span range ds f g)
    (hsound : FrameSound q out g) (hd : d ∈ ds) (hfills : Fills buf full (keyOf name) ty.asked d got)
    (hadded : ∀ a ∈ added, q / 8 ≤ a.start) :
    Among [.mk name ty] (r.scope ++ part.got name r.bit ++ added) d := by
  have hasked : ty.asked.isSome := by
    rw [hfills.asked]
    rfl
  obtain ⟨n, hn⟩ := Option.isSome_iff_exists.mp hfills.named
  have hname : name = some n := by
    cases name with
    | none => cases hn
    | some m => exact hn
  refine ⟨.mk name ty, List.mem_singleton_self _, hasked, n, hname, fun a ha hne => ?_⟩
  rw [List.append_assoc, List.mem_append, List.mem_append] at ha
  have hnew := hstep.new d hd
  have hin := hsound.digest d (by rw [hstep.digests]; exact List.mem_append_right _ hd)
  rcases ha with ha | ha | ha
  · have hbelow := h.below a ha
    have hbit := h.bit
    omega
  · rw [Part.got, hname, Option.bind_some] at ha
    cases hv : part.value with
    | none =>
      rw [hv] at ha
      cases ha
    | some v =>
      rw [hv] at ha
      obtain rfl := List.mem_singleton.mp ha
      exact absurd rfl hne
  · have hafter := hadded a ha
    omega

/-- The digests that a field adds, before those of the later fields. -/
lemma AllFill.field {buf : Bytes} {name : Option String} {ty : TypeIn} {fields : List FieldIn} {scope : List Got}
    {ds es : List PDigest} {got : Option GotDigest} {gots : List GotDigest}
    (h : List.Forall₂ (Fills buf full (keyOf name) ty.asked) ds got.toList)
    (hown : ∀ d ∈ ds, ∀ g ∈ got, Fills buf full (keyOf name) ty.asked d g → Among [.mk name ty] scope d)
    (hsettled : digestSettled fields ty.asked) (hlater : ∀ e ∈ es, Among fields scope e)
    (hrest : AllFill buf full scope es gots) :
    AllFill buf full scope (ds ++ es) (got.toList ++ gots) ∧ ∀ d ∈ ds ++ es, Among (.mk name ty :: fields) scope d := by
  cases got with
  | none =>
    cases h
    exact ⟨hrest, fun d hd => (hlater d hd).cons⟩
  | some g =>
    rw [Option.toList_some] at h
    cases h with
    | @cons d _ ds _ hfills hnil =>
      cases hnil
      have hbeside := hown d List.mem_cons_self g rfl hfills
      refine ⟨⟨keyOf name, ty.asked, g, gots, rfl, hfills, hfills.clears hbeside hsettled hlater, hrest⟩,
        fun e he => ?_⟩
      rcases List.mem_cons.mp he with rfl | he
      · obtain ⟨f, hf, hrest⟩ := hbeside
        obtain rfl := List.mem_singleton.mp hf
        exact ⟨_, List.mem_cons_self, hrest⟩
      · exact (hlater e he).cons

/-- One field, and then the fields after it. -/
lemma FieldsBack.cons {buf : Bytes} {k k' p q : Nat} {f g g' : PFrame} {r r' : Reading} {name : Option String}
    {ty : TypeIn} {kind : SymKind} {fields : List FieldIn} {pack own later : FieldIndex → PRes PCtx}
    {ds es : List PDigest} {mid next : PCtx} {part : Part} (h : Resumes H buf full k p f r)
    (hd : Declares full k k' name kind fields) (hok : SymsOk full nregs nspans)
    (hstep : FieldStep p (regOf full (keyOf name)) (spanOf full (keyOf name)) (p / 8, q / 8) ds f g)
    (hsound : FrameSound q mid.out g) (hback : FieldBack H full (keyOf name) kind ty.asked buf own q g ds mid part)
    (hpq : p ≤ q) (hsettled : digestSettled fields ty.asked)
    (hrest : FieldsBack H buf full k' fields later g' es next (r.add name fields part) r')
    (hpack : ∀ view, own view = .ok mid → later view = .ok next → pack view = .ok next) :
    FieldsBack H buf full k (.mk name ty :: fields) pack g' (ds ++ es) next r r' := by
  obtain ⟨added, hadded, hstart⟩ := hrest.added
  rw [Reading.add_scope] at hadded
  rw [Reading.add_bit, hback.bit] at hstart
  have hbit := h.bit
  obtain ⟨gots, hgots, hfill⟩ := hrest.digests
  rw [Reading.add_digests, List.append_assoc] at hgots
  obtain ⟨hfills, hamong⟩ := AllFill.field hback.digests (fun d hmem got _ hgot => by
    rw [hadded]
    exact h.beside hstep hsound hmem hgot hstart) hsettled hrest.among hfill
  refine ⟨hrest.resumes, ⟨part.got name r.bit ++ added, by rw [hadded, List.append_assoc], fun a ha => ?_⟩,
    fun n hn => ?_,
    ⟨_, hgots, hfills⟩, hamong, fun view hview => ?_⟩
  · rcases List.mem_append.mp ha with ha | ha
    · obtain ⟨n, -, hv⟩ := Option.bind_eq_some_iff.mp (Option.mem_toList.mp ha)
      obtain ⟨v, -, rfl⟩ := Option.map_eq_some_iff.mp hv
      exact Nat.le_refl _
    · have := hstart a ha
      omega
  · obtain ⟨hn', hfind⟩ := hd.kept r.scope hok hn
    rw [hrest.kept n hn', Reading.add_scope]
    exact hfind r.bit part
  · refine hpack view (hback.again view fun n hn => ?_) (hrest.again view hview)
    have hname : name = some n := by
      cases name with
      | none => cases hn
      | some m => exact hn
    obtain ⟨hn', hfound⟩ := hd.found hok h.carries hname r.bit part
    rw [hview n, hrest.kept n hn', Reading.add_scope]
    exact hfound

lemma LowersFields.writes {fields : List FieldIn} (todo : Todo) (hfs : ∀ f ∈ fields, TypeWrites opts H f.ty)
    (hroom : Γ.length + 1 ≤ maxDepth) (hok : SymsOk full nregs nspans) {bo : ByteOrder} {k : Nat} {atoms : List Atom}
    (h : LowersFields opts fields Γ bo full k atoms) (hp : List.Forall₂ (Realizes full) atoms todo.pieces)
    (hlaid : ∀ op ∈ todo.ops, op.Laid)
    (hops : ∀ op ∈ todo.ops, Γ.length + 1 + opDepth op ≤ maxDepth ∧ op.Every Op.sized ∧ op.Every Op.Roomy) {p : Nat}
    {view : FieldIndex} {ctx next : PCtx} {f : PFrame} {fs : List PFrame} (hframes : ctx.frames = f :: fs)
    (hs : ctx.Sound p) (hat : todo.run.StartsAt p ctx.out.length) (hahead : Declares.Ahead full k f)
    (hpack : todo.pack H view ctx = .ok next) :
    ∃ g gs ds, next.frames = g :: gs ∧ g.digests = f.digests ++ ds ∧
      Moves (FrameGrows p) p ctx (8 * next.out.length) next ∧
      ∀ buf last seen limit r, Finally buf last Γ seen limit { ctx with frames := fs } (8 * next.out.length) next →
        Resumes H buf full k p f r → fieldsFaithful opts buf.length fields last → fieldsSuit opts fields view →
        (∀ i, InI64 ((g.readBack buf).regs i)) →
        ∃ r', fieldsRead opts buf fields bo seen limit r = some r' ∧
          FieldsBack H buf full k fields (fun view => todo.pack H view ctx) g ds next r r' := by
  induction fields generalizing k atoms todo p ctx f fs with
  | nil =>
    obtain ⟨rfl, rfl⟩ := h
    obtain ⟨rfl, hdone⟩ := Todo.done (H := H) (List.forall₂_nil_left_iff.mp hp) hlaid hat
    rw [hdone view] at hpack
    cases hpack
    refine ⟨f, fs, [], hframes, (List.append_nil _).symm, (Moves.refl hs).mono fun _ _ => .of_kept,
      fun buf last seen limit r _ hres _ _ _ => ?_⟩
    refine ⟨r, by rw [fieldsRead], hres, ⟨[], (List.append_nil _).symm, fun _ ha => absurd ha List.not_mem_nil⟩,
      fun _ _ => rfl,
      ⟨[], (List.append_nil _).symm, rfl⟩, fun _ hd => absurd hd List.not_mem_nil, fun view' _ => hdone view'⟩
  | cons field fields ih =>
    obtain ⟨name, ty⟩ := field
    obtain ⟨atom, kind, rest, k', hfield, hmore, rfl, hd⟩ := h.uncons
    cases hpieces : todo.pieces with
    | nil =>
      rw [hpieces] at hp
      cases hp
    | cons piece pieces =>
      rw [hpieces] at hp
      obtain ⟨hr, hps⟩ := List.forall₂_cons.mp hp
      obtain ⟨room, task, after, hnext⟩ := Todo.next hpieces hlaid (fun op ho => (hops op ho).2.2.here) hat hs hpack
      rw [hnext.pack view] at hpack
      obtain ⟨mid, hmid, hlast⟩ := Exec.bind_eq_ok.mp hpack
      have hrframes : room.frames = f :: fs := hnext.frames.trans hframes
      have hown := hnext.own
      -- The field itself.
      have htask : ∀ op, task.piece = .op op → (full.take k :: Γ).length + opDepth op ≤ maxDepth ∧ op.Every Op.sized ∧
          op.Every Op.Roomy :=
        fun op ho => hops op (hnext.among op (hown.symm.trans ho))
      obtain ⟨g₁, gs₁, ds₁, hg₁, hmoves, hback⟩ :=
        (hfs (.mk name ty) List.mem_cons_self).field htask hfield (hown ▸ hr) (hd.numbers hok)
        p room view mid f fs hrframes hnext.moves.sound hnext.starts (hd.fresh hok hahead) hmid
      have hsteps := hmoves.frames
      rw [hrframes, hg₁] at hsteps
      obtain ⟨hstep, hkept⟩ := hsteps
      -- The fields after it.
      obtain ⟨g, gs, ds₂, hg, hgd, hmoves₂, hback₂⟩ :=
        ih after (fun f hf => hfs f (List.mem_cons_of_mem _ hf)) hmore (by rw [hnext.rest]; exact hps)
        (fun op ho => hlaid op (hnext.later op ho)) (fun op ho => hops op (hnext.later op ho)) hg₁ hmoves.sound
        (hnext.onward view mid hmid) (hd.ahead hok hahead hstep) hlast
      have hgrows : Moves (FrameGrows p) p room (8 * next.out.length) next :=
        (hmoves.mono fun _ _ h => h.grows).trans hmoves₂ (fun _ _ h => h) fun _ _ _ h h' => h.trans hmoves.le h'
      have hall : Moves (FrameGrows p) p ctx (8 * next.out.length) next :=
        hnext.moves.trans hgrows (fun _ _ h => .of_kept h) fun _ _ _ h h' => (FrameGrows.of_kept h).trans
          (Nat.le_refl p) h'
      refine ⟨g, gs, ds₁ ++ ds₂, hg, by rw [hgd, hstep.digests, List.append_assoc], hall, ?_⟩
      intro buf last seen limit r hf hres hfaithful hsuit hsmall
      obtain ⟨hty, hsettled, hfaithful⟩ := hfaithful
      obtain ⟨hgiven, hvalue, hsuit⟩ := hsuit
      have hq : task.stop p mid.out.length ≤ 8 * next.out.length := hmoves₂.le
      have hlimit := hf.fits
      have hwithin := hf.within
      have hment := hd.mentioned hok hmore
      have hfin : Finally buf (last && fields.isEmpty) (full.take k :: Γ) (r.scope :: seen) limit room
          (task.stop p mid.out.length) mid := by
        refine ⟨hf.env.take hok hroom k, ?_, hmoves₂.completes (fun _ _ h => h) hf.completes, by omega, hwithin,
          fun hlast' => ?_⟩
        · rw [PCtx.readBack, hrframes]
          exact ⟨hres.carries, hf.carries⟩
        · obtain ⟨hlast', hempty⟩ := Bool.and_eq_true_iff.mp hlast'
          have hstop := hf.last hlast'
          obtain rfl := List.isEmpty_iff.mp hempty
          obtain ⟨-, rfl⟩ := hmore
          rw [← hnext.rest] at hps
          obtain ⟨hq', hdone⟩ := Todo.done (H := H) (List.forall₂_nil_left_iff.mp hps)
            (fun op ho => hlaid op (hnext.later op ho))
            (hnext.onward view mid hmid)
          rw [hdone view] at hlast
          cases hlast
          omega
      have hsuits : ty.SuitsField opts (regOf full (keyOf name)).isSome (lookup view (keyOf name)) := by
        have hlook : lookup view (keyOf name) = name.bind view.get := by cases name <;> rfl
        rw [hlook, hment]
        exact ⟨hgiven, hvalue⟩
      obtain ⟨part, hread, hpart⟩ := hback buf _ _ _ hfin hty hsuits
      dsimp only [FieldIn.ty] at hread
      have hreg : ∀ n, name = some n → fieldsMention n fields → ∀ v ∈ part.int?, InI64 v := by
        intro n hn hm v hv
        rw [hn, Option.any_some, hm] at hment
        obtain ⟨i, hi⟩ := Option.isSome_iff_exists.mp hment
        rw [← hn] at hi
        have hlt := (hd.numbers hok).reg i hi
        rw [hpart.reg ⟨i, hlt⟩ hi] at hv
        obtain rfl := Option.some.inj hv
        have hlater := hmoves₂.frames
        rw [hg₁, hg] at hlater
        rw [← hlater.1.readBack (hstep.used ⟨i, hlt⟩ hi)]
        exact hsmall ⟨i, hlt⟩
      have hadd := hres.add hd hok hstep hpart hmoves.le (by omega) hreg
      have hfin₂ : Finally buf last Γ seen limit { mid with frames := gs₁ } (8 * next.out.length) next := by
        refine ⟨hf.env, ?_, hf.completes, hlimit, hwithin, hf.last⟩
        rw [PCtx.readBack, forall₂_kept_readBack hkept]
        exact hf.carries
      obtain ⟨r', hread', hrest⟩ := hback₂ buf last seen limit _ hfin₂ hadd hfaithful hsuit hsmall
      refine ⟨r', ?_, FieldsBack.cons hres hd hok hstep (hmoves.sound.frames g₁ (by rw [hg₁]; exact List.mem_cons_self))
        hpart hmoves.le hsettled hrest ?_⟩
      · rw [fieldsRead, hres.bit, hread]
        exact hread'
      · intro view' hown' hlater'
        rw [hnext.pack view']
        exact Exec.bind_eq_ok.mpr ⟨mid, hown', hlater'⟩

end Fields

end Rustruct

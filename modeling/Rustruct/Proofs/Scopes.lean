import Rustruct.Proofs.Patching

/-!
# Open scopes

What the compiler keeps true of every open scope: each symbol points at its own field, and
the registers, spans and derived marks in the ops are those of the symbols.
-/

namespace Rustruct

lemma findSym_eq_some {syms : List Sym} {n : String} {s : Sym} (h : findSym syms n = some s) :
    s ∈ syms ∧ s.name = n := by
  refine ⟨List.mem_of_find?_eq_some h, ?_⟩
  simpa using List.find?_some h

lemma findSym_of_mem {syms : List Sym} (hn : (syms.map Sym.name).Nodup) {s : Sym} (hs : s ∈ syms) :
    findSym syms s.name = some s := by
  induction syms with
  | nil => cases hs
  | cons t syms ih =>
    rw [List.map_cons, List.nodup_cons] at hn
    unfold findSym
    rw [List.find?_cons]
    obtain rfl | hs := List.mem_cons.mp hs
    · simp
    · have hne : t.name ≠ s.name := fun he => hn.1 (he ▸ List.mem_map_of_mem hs)
      rw [beq_eq_false_iff_ne.mpr hne]
      exact ih hn.2 hs

lemma findSym_eq_none {syms : List Sym} {n : String} :
    findSym syms n = none ↔ n ∉ syms.map Sym.name := by
  simp [findSym]

/-- The symbols with one of them replaced by one of the same name. -/
lemma findSym_replace {a b : List Sym} {s s' : Sym} (hs : s'.name = s.name)
    (hn : ((a ++ s :: b).map Sym.name).Nodup) (n : String) :
    findSym (a ++ s' :: b) n = if n = s.name then some s' else findSym (a ++ s :: b) n := by
  have hn' : ((a ++ s' :: b).map Sym.name).Nodup := by simpa [hs] using hn
  split_ifs with h
  · rw [h, ← hs]
    exact findSym_of_mem hn' (by simp)
  · unfold findSym
    rw [List.find?_append, List.find?_append, List.find?_cons, List.find?_cons, hs,
      beq_eq_false_iff_ne.mpr (Ne.symm h)]

lemma findIdx_name {syms : List Sym} {n : String} {pos : Nat}
    (h : syms.findIdx? (fun s => s.name == n) = some pos) :
    ∃ a s b, syms = a ++ s :: b ∧ a.length = pos ∧ s.name = n ∧ syms[pos]? = some s := by
  obtain ⟨hlt, hp, -⟩ := List.findIdx?_eq_some_iff_getElem.mp h
  refine ⟨syms.take pos, syms[pos], syms.drop (pos + 1), ?_, by simp; omega, by simpa using hp,
    List.getElem?_eq_getElem hlt⟩
  rw [List.getElem_cons_drop, List.take_append_drop]

lemma findIdx_name_none {syms : List Sym} {n : String}
    (h : syms.findIdx? (fun s => s.name == n) = none) : n ∉ syms.map Sym.name := by
  simpa [List.findIdx?_eq_none_iff] using h

lemma modify_split {a b : List Sym} {s : Sym} (f : Sym → Sym) :
    (a ++ s :: b).modify a.length f = a ++ f s :: b := by
  induction a with
  | nil => rfl
  | cons t a ih => simp [ih]

section Marks

variable {a b : List Sym} {s s' : Sym} (hs : s'.name = s.name)
  (hn : ((a ++ s :: b).map Sym.name).Nodup)

include hs hn

lemma symOf_replace (key : Key) :
    symOf (a ++ s' :: b) key = if key = .named s.name then some s' else symOf (a ++ s :: b) key := by
  cases key with
  | skip => simp [symOf, Key.name]
  | named n =>
    simp only [symOf, Key.name, Option.bind_some, Key.named.injEq]
    exact findSym_replace hs hn n

omit hs in
lemma symOf_self : symOf (a ++ s :: b) (.named s.name) = some s :=
  findSym_of_mem hn (by simp)

end Marks

/-- The runs of an op, before its bits are counted. -/
def Op.Run : Op → Prop
  | .fixed width items => LaidRun items width
  | .bitRun _ items => items ≠ []
  | _ => True

/-- The marks of a piece are those of its symbol. -/
def Linked (syms : List Sym) (p : Piece) : Prop :=
  p.reg = regOf syms p.key ∧ p.span = spanOf syms p.key ∧ p.derived = derivedOf syms p.key

structure ScopeOk (sc : Scope) : Prop where
  syms : SymsOk sc.syms sc.nregs sc.nspans
  names : namesOf (piecesOf sc.ops) = sc.syms.map Sym.name
  keys : ∀ s ∈ sc.syms, keyAt sc.ops s.loc = some (.named s.name)
  linked : ∀ p ∈ piecesOf sc.ops, Linked sc.syms p
  fits : ∀ p ∈ piecesOf sc.ops, ∀ s ∈ sc.syms, p.key = .named s.name → p.Fits s.kind
  runs : ∀ op ∈ sc.ops, op.Run
  digests : ∀ d ∈ sc.digests, keyAt sc.ops (.op d.1) = some (.named d.2.2)

lemma ScopeOk.empty : ScopeOk .empty where
  syms := by
    constructor <;> first | exact ⟨by simp [Scope.empty], by simp [Scope.empty]⟩ | simp [Scope.empty]
  names := rfl
  keys := by simp [Scope.empty]
  linked := by simp [Scope.empty, piecesOf]
  fits := by simp [Scope.empty, piecesOf]
  runs := by simp [Scope.empty]
  digests := by simp [Scope.empty]

lemma laidItems_congr {items items' : List FixedItem} {start width : Nat}
    (h : items.map (fun i => (i.off, i.kind.width)) = items'.map fun i => (i.off, i.kind.width)) :
    LaidItems start items width → LaidItems start items' width := by
  induction items generalizing items' start with
  | nil =>
    intro hl
    obtain rfl : items' = [] := by simpa using h.symm
    exact hl
  | cons item items ih =>
    intro hl
    cases items' with
    | nil => simp at h
    | cons item' items' =>
      simp only [List.map_cons, List.cons.injEq, Prod.mk.injEq] at h
      obtain ⟨⟨hoff, hwidth⟩, h⟩ := h
      rw [LaidItems, hoff, hwidth] at hl
      exact ⟨hl.1, ih h hl.2⟩

lemma laidRun_congr {items items' : List FixedItem} {width : Nat}
    (h : items.map (fun i => (i.off, i.kind.width)) = items'.map fun i => (i.off, i.kind.width))
    (hr : LaidRun items width) : LaidRun items' width := by
  cases items with
  | nil => exact hr.elim
  | cons item items =>
    cases items' with
    | nil => simp at h
    | cons item' items' =>
      simp only [List.map_cons, List.cons.injEq, Prod.mk.injEq] at h
      obtain ⟨⟨hoff, hwidth⟩, h⟩ := h
      rw [LaidRun, hoff, hwidth] at hr
      exact ⟨hr.1, laidItems_congr h hr.2⟩

/-- A run is known by its layout. -/
lemma run_congr {op op' : Op} (h : op.layout = op'.layout) (hr : op.Run) : op'.Run := by
  cases op with
  | fixed width items =>
    cases op' <;> simp only [Op.layout, reduceCtorEq] at h
    injection h with hw hi
    subst hw
    exact laidRun_congr hi hr
  | bitRun nbytes items =>
    cases op' <;> simp only [Op.layout, reduceCtorEq] at h
    injection h with hn hi
    intro he
    subst he
    exact hr (by simpa using hi)
  | _ => cases op' <;> trivial

lemma forall_layout {P : Op → Prop} (hP : ∀ op op', op.layout = op'.layout → P op → P op')
    {ops ops' : List Op} (h : ops'.map Op.layout = ops.map Op.layout) (ho : ∀ op ∈ ops, P op) :
    ∀ op ∈ ops', P op := by
  induction ops' generalizing ops with
  | nil => simp
  | cons op' ops' ih =>
    cases ops with
    | nil => simp at h
    | cons op ops =>
      simp only [List.map_cons, List.cons.injEq] at h
      intro o hm
      obtain rfl | hm := List.mem_cons.mp hm
      · exact hP op o h.1.symm (ho op (by simp))
      · exact ih h.2 (fun o' h' => ho o' (by simp [h'])) o hm

lemma ScopeOk.nodup {sc : Scope} (h : ScopeOk sc) : (namesOf (piecesOf sc.ops)).Nodup := by
  rw [h.names]
  exact h.syms.names

lemma Patched.bare {sc : Scope} {ops' : List Op} {n : String} {f : Piece → Piece}
    (hp : Patched n f sc.ops ops') (hok : ScopeOk sc) (hf : Harmless f) :
    (piecesOf ops').map Piece.bare = (piecesOf sc.ops).map Piece.bare := by
  rw [hp.pieces hok.nodup, List.map_map]
  apply List.map_congr_left
  intro p _
  simp only [Function.comp_apply, patchNamed]
  split_ifs
  · exact hf.bare p
  · rfl

/-- A patch of one symbol and its field. -/
lemma ScopeOk.patch {ops ops' : List Op} {a b : List Sym} {s s' : Sym} {nregs nspans : Nat}
    {nregs' nspans' : Nat} {digests : List (Nat × OverIn × String)} {f : Piece → Piece}
    (hok : ScopeOk { ops, syms := a ++ s :: b, nregs, nspans, digests })
    (hp : Patched s.name f ops ops') (hf : Harmless f) (hname : s'.name = s.name)
    (hloc : s'.loc = s.loc) (hkind : s'.kind = s.kind)
    (hmarks : ∀ p ∈ piecesOf ops, p.key = .named s.name → p.reg = s.reg → p.span = s.span →
      p.derived = s.derived → (f p).reg = s'.reg ∧ (f p).span = s'.span ∧ (f p).derived = s'.derived)
    (hsyms : SymsOk (a ++ s' :: b) nregs' nspans') :
    ScopeOk { ops := ops', syms := a ++ s' :: b, nregs := nregs', nspans := nspans', digests } := by
  have hnames := hok.syms.names
  have hnd : (namesOf (piecesOf ops)).Nodup := by
    have := hok.names
    simp only at this
    rwa [this]
  have hpieces := hp.pieces hnd
  have hkey : ∀ p, (patchNamed s.name f p).key = p.key := by
    intro p
    unfold patchNamed
    split_ifs
    · exact hf.key p
    · rfl
  constructor
  · exact hsyms
  · have := hok.names
    simp only at this ⊢
    rw [hpieces]
    unfold namesOf at this ⊢
    rw [List.filterMap_map]
    simp only [Function.comp_def, hkey]
    rw [this]
    simp [hname]
  · intro t ht
    simp only at ht ⊢
    rw [hp.keys]
    rcases List.mem_append.mp ht with ht | ht
    · exact hok.keys t (by simp [ht])
    · obtain rfl | ht := List.mem_cons.mp ht
      · rw [hloc, hname]
        exact hok.keys s (by simp)
      · exact hok.keys t (by simp [ht])
  · intro q hq
    simp only at hq ⊢
    rw [hpieces] at hq
    obtain ⟨p, hpm, rfl⟩ := List.mem_map.mp hq
    have hl := hok.linked p hpm
    unfold Linked regOf spanOf derivedOf at hl ⊢
    rw [hkey]
    simp only [symOf_replace hname hnames] at hl ⊢
    unfold patchNamed
    split_ifs with hk
    · rw [hk, symOf_self hnames] at hl
      simpa using hmarks p hpm hk (by simpa using hl.1) (by simpa using hl.2.1) (by simpa using hl.2.2)
    · exact hl
  · intro q hq t ht hk
    simp only at hq ht
    rw [hpieces] at hq
    obtain ⟨p, hpm, rfl⟩ := List.mem_map.mp hq
    rw [hkey] at hk
    have hfits : p.Fits t.kind := by
      rcases List.mem_append.mp ht with ht | ht
      · exact hok.fits p hpm t (by simp [ht]) hk
      · obtain rfl | ht := List.mem_cons.mp ht
        · rw [hkind]
          exact hok.fits p hpm s (by simp) (by rw [hk, hname])
        · exact hok.fits p hpm t (by simp [ht]) hk
    unfold patchNamed
    split_ifs
    · exact hf.fits.mpr hfits
    · exact hfits
  · exact forall_layout (fun _ _ => run_congr) hp.layout hok.runs
  · intro d hd
    simp only
    rw [hp.keys]
    exact hok.digests d hd

/-- What a reference may change in a symbol. -/
structure SymStep (s t : Sym) : Prop where
  name : t.name = s.name
  loc : t.loc = s.loc
  kind : t.kind = s.kind
  span : t.span = s.span
  derived : t.derived = s.derived
  reg : ∀ r ∈ s.reg, t.reg = some r
  lenReferenced : s.lenReferenced → t.lenReferenced
  usedInOn : s.usedInOn → t.usedInOn

lemma SymStep.refl (s : Sym) : SymStep s s :=
  ⟨rfl, rfl, rfl, rfl, rfl, fun _ h => h, id, id⟩

lemma SymStep.trans {s t u : Sym} (h : SymStep s t) (h' : SymStep t u) : SymStep s u :=
  ⟨h'.name.trans h.name, h'.loc.trans h.loc, h'.kind.trans h.kind, h'.span.trans h.span,
    h'.derived.trans h.derived, fun r hr => h'.reg r (h.reg r hr),
    h'.lenReferenced ∘ h.lenReferenced, h'.usedInOn ∘ h.usedInOn⟩

lemma SymStep.refable {s t : Sym} (h : SymStep s t) : t.refable = s.refable :=
  congrArg SymKind.refable h.kind

lemma SymStep.isConst {s t : Sym} (h : SymStep s t) : t.isConst = s.isConst :=
  congrArg SymKind.isConst h.kind

lemma symStep_use (ctx : RefCtx) (s : Sym) : SymStep s (s.use ctx) := by
  cases ctx with
  | len =>
    unfold Sym.use
    simp only
    split_ifs
    · exact .refl s
    · exact { SymStep.refl s with lenReferenced := fun _ => rfl }
  | on => exact { SymStep.refl s with usedInOn := fun _ => rfl }
  | pred => exact .refl s

lemma use_reg (ctx : RefCtx) (s : Sym) : (s.use ctx).reg = s.reg := by
  cases ctx <;> simp [Sym.use]
  split_ifs <;> rfl

lemma use_allows (ctx : RefCtx) (s : Sym) : ctx.allows (s.use ctx) := by
  cases ctx with
  | len =>
    unfold Sym.use RefCtx.allows
    simp only
    split_ifs with h
    · exact .inl h
    · exact .inr rfl
  | on => rfl
  | pred => trivial

/-- One symbol keeps its number or gets the next one. -/
lemma Numbered.replace {f : Sym → Option Nat} {a b : List Sym} {s s' : Sym} {n n' : Nat}
    (h : Numbered f (a ++ s :: b) n) (hn : n ≤ n')
    (hs : f s' = f s ∨ ∃ i, f s' = some i ∧ n ≤ i ∧ i < n') : Numbered f (a ++ s' :: b) n' := by
  have hold : ∀ t ∈ a ++ s :: b, ∀ i ∈ f t, i < n := h.lt
  have hp := h.inj
  constructor
  · intro t ht i hi
    rcases List.mem_append.mp ht with ht | ht
    · exact Nat.lt_of_lt_of_le (hold t (by simp [ht]) i hi) hn
    · obtain rfl | ht := List.mem_cons.mp ht
      · obtain he | ⟨j, he, -, hlt⟩ := hs
        · exact Nat.lt_of_lt_of_le (hold s (by simp) i (he ▸ hi)) hn
        · rw [he] at hi
          obtain rfl : j = i := by simpa using hi
          exact hlt
      · exact Nat.lt_of_lt_of_le (hold t (by simp [ht]) i hi) hn
  · rw [List.pairwise_append, List.pairwise_cons] at hp ⊢
    obtain ⟨ha, ⟨hsb, hb⟩, hab⟩ := hp
    -- The new number is either the old one or above all others.
    have hnew : ∀ t ∈ a ++ s :: b, t ∈ a ∨ t ∈ b → ∀ i ∈ f s', i ∉ f t := by
      intro t ht hab' i hi hi'
      obtain he | ⟨j, he, hge, -⟩ := hs
      · rw [he] at hi
        obtain ht | ht := hab'
        · exact hab t ht s (by simp) i hi' hi
        · exact hsb t ht i hi hi'
      · have := hold t ht i hi'
        rw [he] at hi
        obtain rfl : j = i := by simpa using hi
        omega
    refine ⟨ha, ⟨fun t ht => hnew t (by simp [ht]) (.inr ht), hb⟩, fun t ht u hu i hi hi' => ?_⟩
    obtain rfl | hu := List.mem_cons.mp hu
    · exact hnew t (by simp [ht]) (.inl ht) i hi' hi
    · exact hab t ht u (by simp [hu]) i hi hi'

/-- Symbols with one of them replaced: only the new one has to be looked at. -/
lemma SymsOk.replace {a b : List Sym} {s s' : Sym} {nregs nspans nregs' nspans' : Nat}
    (h : SymsOk (a ++ s :: b) nregs nspans) (hname : s'.name = s.name)
    (hregs : Numbered Sym.reg (a ++ s' :: b) nregs') (hnr : nregs' ≤ maxRegs)
    (hspans : Numbered Sym.span (a ++ s' :: b) nspans') (hns : nspans' ≤ maxSpans)
    (href : s'.reg.isSome → s'.refable) (hspn : s'.span.isSome → s'.spannable)
    (hused : s'.lenReferenced ∨ s'.usedInOn → s'.reg.isSome) :
    SymsOk (a ++ s' :: b) nregs' nspans' := by
  have hmem : ∀ t ∈ a ++ s' :: b, t = s' ∨ t ∈ a ++ s :: b := by
    intro t ht
    simp only [List.mem_append, List.mem_cons] at ht ⊢
    tauto
  refine ⟨by simpa [hname] using h.names, hnr, hregs, hns, hspans, ?_, ?_, ?_⟩
  · intro t ht
    obtain rfl | ht := hmem t ht
    · exact href
    · exact h.refable t ht
  · intro t ht
    obtain rfl | ht := hmem t ht
    · exact hspn
    · exact h.spannable t ht
  · intro t ht
    obtain rfl | ht := hmem t ht
    · exact hused
    · exact h.referenced t ht

end Rustruct

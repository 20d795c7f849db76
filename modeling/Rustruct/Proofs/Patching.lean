import Rustruct.Lowering

/-!
# Patching the ops of a scope

A patch changes the one field of the scope that has a given name. The invariant `ScopeOk`
ties the registers and spans in the ops of an open scope to its symbols.
-/

namespace Rustruct

def Piece.key : Piece → Key
  | .fixed _ _ _ key => key
  | .bit item => item.key
  | .op o => (o.common.map Common.key).getD .skip

def FixKind.isDerived : FixKind → Bool
  | .int _ _ _ derived => derived
  | _ => false

def FixKind.isInt : FixKind → Bool
  | .int .. => true
  | _ => false

def FixKind.unmark : FixKind → FixKind
  | .int prim be expected _ => .int prim be expected false
  | kind => kind

namespace Piece

def reg : Piece → Option Nat
  | .fixed _ reg _ _ => reg
  | .bit item => item.reg
  | .op _ => none

def span : Piece → Option Nat
  | .fixed _ _ span _ => span
  | .bit _ => none
  | .op o => o.common.bind Common.span

def derived : Piece → Bool
  | .fixed kind _ _ _ => kind.isDerived
  | .bit item => item.derived
  | .op _ => false

/-- The piece holds an integer, which a register can hold. -/
def isInt : Piece → Bool
  | .fixed kind _ _ _ => kind.isInt
  | .bit _ => true
  | .op _ => false

def isBit : Piece → Bool
  | .bit _ => true
  | _ => false

/-- The piece is one that a symbol of this kind can stand for. -/
def Fits (kind : SymKind) (p : Piece) : Prop :=
  (kind.refable → p.isInt) ∧ (kind.spannable → p.isBit = false)

/-- The piece before anything was patched into it. -/
def bare : Piece → Piece
  | .fixed kind _ _ key => .fixed kind.unmark none none key
  | .bit item => .bit { item with reg := none, derived := false }
  | .op o => .op ((o.setOver (.spans [])).withCommon fun c => { c with span := none })

def setReg (idx : Nat) : Piece → Piece
  | .fixed kind _ span key => .fixed kind (some idx) span key
  | .bit item => .bit { item with reg := some idx }
  | .op o => .op o

def setSpan (idx : Nat) : Piece → Piece
  | .fixed kind reg _ key => .fixed kind reg (some idx) key
  | .bit item => .bit item
  | .op o => .op (o.withCommon fun c => { c with span := some idx })

def setDerived : Piece → Piece
  | .fixed kind reg span key => .fixed kind.markDerived reg span key
  | .bit item => .bit { item with derived := true }
  | .op o => .op o

def setOver (overs : Over) : Piece → Piece
  | .op o => .op (o.setOver overs)
  | p => p

end Piece

@[simp] lemma common_withCommon (f : Common → Common) (op : Op) :
    (op.withCommon f).common = op.common.map f := by
  cases op <;> rfl

@[simp] lemma common_setOver (overs : Over) (op : Op) : (op.setOver overs).common = op.common := by
  cases op <;> rfl

@[simp] lemma withCommon_withCommon (f g : Common → Common) (op : Op) :
    (op.withCommon f).withCommon g = op.withCommon (g ∘ f) := by
  cases op <;> rfl

@[simp] lemma setOver_withCommon (overs : Over) (f : Common → Common) (op : Op) :
    (op.withCommon f).setOver overs = (op.setOver overs).withCommon f := by
  cases op <;> rfl

@[simp] lemma setOver_setOver (overs overs' : Over) (op : Op) :
    (op.setOver overs).setOver overs' = op.setOver overs' := by
  cases op <;> rfl

/-- A change of a piece that keeps its name and everything but its marks. -/
structure Harmless (f : Piece → Piece) : Prop where
  key : ∀ p, (f p).key = p.key
  bare : ∀ p, (f p).bare = p.bare
  isInt : ∀ p, (f p).isInt = p.isInt
  isBit : ∀ p, (f p).isBit = p.isBit

lemma Harmless.fits {f : Piece → Piece} (h : Harmless f) {kind : SymKind} {p : Piece} :
    (f p).Fits kind ↔ p.Fits kind := by
  rw [Piece.Fits, Piece.Fits, h.isInt, h.isBit]

lemma harmless_setReg (idx : Nat) : Harmless (Piece.setReg idx) where
  key p := by cases p <;> rfl
  bare p := by cases p <;> rfl
  isInt p := by cases p <;> rfl
  isBit p := by cases p <;> rfl

lemma harmless_setSpan (idx : Nat) : Harmless (Piece.setSpan idx) where
  key p := by
    cases p with
    | fixed | bit => rfl
    | op op => cases op <;> rfl
  bare p := by
    cases p with
    | fixed | bit => rfl
    | op op => cases op <;> rfl
  isInt p := by cases p <;> rfl
  isBit p := by cases p <;> rfl

lemma harmless_setDerived : Harmless Piece.setDerived where
  key p := by cases p <;> rfl
  bare p := by
    cases p with
    | fixed kind => cases kind <;> rfl
    | bit | op => rfl
  isInt p := by
    cases p with
    | fixed kind => cases kind <;> rfl
    | bit | op => rfl
  isBit p := by cases p <;> rfl

lemma harmless_setOver (overs : Over) : Harmless (Piece.setOver overs) where
  key p := by
    cases p with
    | fixed | bit => rfl
    | op op => cases op <;> rfl
  bare p := by
    cases p with
    | fixed | bit => rfl
    | op op => cases op <;> rfl
  isInt p := by cases p <;> rfl
  isBit p := by cases p <;> rfl

def namesOf (ps : List Piece) : List String := ps.filterMap fun p => p.key.name

/-- Change the piece of this name. -/
def patchNamed (n : String) (f : Piece → Piece) (p : Piece) : Piece :=
  if p.key = .named n then f p else p

lemma Key.name_eq_some {key : Key} {n : String} : key.name = some n ↔ key = .named n := by
  cases key <;> simp [Key.name]

lemma mem_namesOf {ps : List Piece} {n : String} : n ∈ namesOf ps ↔ ∃ p ∈ ps, p.key = .named n := by
  simp [namesOf, Key.name_eq_some]

/-- A name that is used once picks one piece. -/
lemma map_patchNamed {a b : List Piece} {p : Piece} {n : String} (f : Piece → Piece)
    (hp : p.key = .named n) (hn : (namesOf (a ++ p :: b)).Nodup) :
    (a ++ p :: b).map (patchNamed n f) = a ++ f p :: b := by
  have hnil : ∀ ps : List Piece, n ∉ namesOf ps → ps.map (patchNamed n f) = ps := by
    intro ps h
    rw [List.map_congr_left (g := id), List.map_id]
    intro q hq
    exact if_neg fun hk => h (mem_namesOf.mpr ⟨q, hq, hk⟩)
  have hcons : namesOf (a ++ p :: b) = namesOf a ++ n :: namesOf b := by
    simp [namesOf, hp, Key.name]
  rw [hcons, List.nodup_append] at hn
  obtain ⟨-, hb, hab⟩ := hn
  rw [List.map_append, List.map_cons, hnil a, hnil b, patchNamed, if_pos hp]
  · exact (List.nodup_cons.mp hb).1
  · exact fun h => hab n h n (by simp) rfl

/-- The number of the op at a place. -/
def Loc.index : Loc → Nat
  | .fix i _ | .bit i _ | .op i => i

/-- The name of the field of an op at a place. -/
def keyIn : Loc → Op → Option Key
  | .fix _ j, .fixed _ items => items[j]?.map FixedItem.key
  | .bit _ j, .bitRun _ items => items[j]?.map BitItem.key
  | .op _, op => op.common.map Common.key
  | _, _ => none

def keyAt (ops : List Op) (loc : Loc) : Option Key := ops[loc.index]?.bind (keyIn loc)

section Update

variable {ops ops' : List Op} {i : Nat} {g : Op → SRes Op}

lemma updateOp_eq_ok (h : updateOp ops i g = .ok ops') :
    ∃ pre op op' post, ops = pre ++ op :: post ∧ pre.length = i ∧ g op = .ok op' ∧
      ops' = pre ++ op' :: post := by
  unfold updateOp at h
  cases hi : ops[i]? with
  | none => simp [hi] at h
  | some op =>
    simp only [hi, Exec.bind_eq_ok, Except.ok.injEq] at h
    obtain ⟨op', hop, rfl⟩ := h
    obtain ⟨hlt, hget⟩ := List.getElem?_eq_some_iff.mp hi
    refine ⟨ops.take i, op, op', ops.drop (i + 1), ?_, by simp; omega, hop, ?_⟩
    · rw [← hget, List.getElem_cons_drop, List.take_append_drop]
    · exact List.set_eq_take_append_cons_drop.trans (if_pos hlt)

lemma updateItem_eq_ok {α : Type} {items items' : List α} {j : Nat} {f : α → α}
    (h : updateItem items j f = .ok items') :
    ∃ pre item post, items = pre ++ item :: post ∧ pre.length = j ∧
      items' = pre ++ f item :: post := by
  unfold updateItem at h
  cases hj : items[j]? with
  | none => simp [hj] at h
  | some item =>
    simp only [hj, Except.ok.injEq] at h
    obtain ⟨hlt, hget⟩ := List.getElem?_eq_some_iff.mp hj
    refine ⟨items.take j, item, items.drop (j + 1), ?_, by simp; omega, ?_⟩
    · rw [← hget, List.getElem_cons_drop, List.take_append_drop]
    · rw [← h]
      exact List.set_eq_take_append_cons_drop.trans (if_pos hlt)

end Update

/-- How the items of a run lie. -/
inductive Layout where
  | fixed (width : Nat) (items : List (Nat × Nat))
  | bits (nbytes : Nat) (widths : List Nat)
  | other
  deriving DecidableEq

def Op.layout : Op → Layout
  | .fixed width items => .fixed width (items.map fun i => (i.off, i.kind.width))
  | .bitRun nbytes items => .bits nbytes (items.map BitItem.width)
  | _ => .other

/-- `ops'` is `ops` with the field `n` changed by `f`. -/
structure Patched (n : String) (f : Piece → Piece) (ops ops' : List Op) : Prop where
  pieces : (namesOf (piecesOf ops)).Nodup → piecesOf ops' = (piecesOf ops).map (patchNamed n f)
  keys : ∀ loc, keyAt ops' loc = keyAt ops loc
  layout : ops'.map Op.layout = ops.map Op.layout

section Patches

variable {ops ops' : List Op} {n : String} {f : Piece → Piece}

lemma piecesOf_append (a b : List Op) : piecesOf (a ++ b) = piecesOf a ++ piecesOf b :=
  List.flatMap_append

lemma piecesOf_cons (op : Op) (ops : List Op) : piecesOf (op :: ops) = op.pieces ++ piecesOf ops :=
  rfl

/-- The keys are where they were when those of the changed op are. -/
lemma keyAt_replace {pre post : List Op} {op op' : Op} (h : ∀ loc, keyIn loc op' = keyIn loc op)
    (loc : Loc) : keyAt (pre ++ op' :: post) loc = keyAt (pre ++ op :: post) loc := by
  unfold keyAt
  generalize loc.index = i
  rcases Nat.lt_trichotomy i pre.length with hi | rfl | hi
  · rw [List.getElem?_append_left hi, List.getElem?_append_left hi]
  · simp [h]
  · obtain ⟨d, rfl⟩ : ∃ d, i = pre.length + (d + 1) := ⟨i - pre.length - 1, by omega⟩
    rw [List.getElem?_append_right (by omega), List.getElem?_append_right (by omega),
      Nat.add_sub_cancel_left, List.getElem?_cons_succ, List.getElem?_cons_succ]

/-- One item among others, of the same key. -/
lemma map_key_replace {α : Type} (key : α → Key) (pre post : List α) (item item' : α)
    (h : key item' = key item) (j : Nat) :
    (pre ++ item' :: post)[j]?.map key = (pre ++ item :: post)[j]?.map key := by
  rw [← List.getElem?_map, ← List.getElem?_map]
  simp [h]

lemma patched_fixed {i j : Nat} {g : FixedItem → FixedItem}
    (hg : ∀ item, (g item).piece = f item.piece) (hf : Harmless f)
    (hoff : ∀ item, (g item).off = item.off)
    (hwidth : ∀ item, (g item).kind.width = item.kind.width)
    (hk : keyAt ops (.fix i j) = some (.named n))
    (h : updateOp ops i (Op.updateFixed j g) = .ok ops') : Patched n f ops ops' := by
  obtain ⟨pre, op, op', post, rfl, rfl, hop, rfl⟩ := updateOp_eq_ok h
  cases op with
  | fixed width items =>
    simp only [Op.updateFixed, Exec.bind_eq_ok, Except.ok.injEq] at hop
    obtain ⟨items', hitems, rfl⟩ := hop
    obtain ⟨a, item, b, rfl, rfl, rfl⟩ := updateItem_eq_ok hitems
    have hkey : item.piece.key = .named n := by simpa [keyAt, Loc.index, keyIn, FixedItem.piece, Piece.key] using hk
    have hkey' : (g item).key = item.key := by
      have := hf.key item.piece
      rwa [← hg] at this
    refine ⟨fun hnd => ?_, keyAt_replace fun loc => ?_, ?_⟩
    · have hsplit : ∀ it, piecesOf (pre ++ .fixed width (a ++ it :: b) :: post) =
          (piecesOf pre ++ a.map FixedItem.piece) ++ it.piece ::
            (b.map FixedItem.piece ++ piecesOf post) := by
        intro it
        simp [piecesOf_append, piecesOf_cons, Op.pieces]
      rw [hsplit] at hnd
      rw [hsplit, hsplit, map_patchNamed f hkey hnd, hg]
    · cases loc with
      | fix k l => exact map_key_replace FixedItem.key a b item (g item) hkey' l
      | bit k l => rfl
      | op k => rfl
    · simp [Op.layout, hoff, hwidth]
  | _ => simp [keyAt, Loc.index, keyIn] at hk

lemma patched_bit {i j : Nat} {g : BitItem → BitItem} (hg : ∀ item, .bit (g item) = f (.bit item))
    (hf : Harmless f) (hwidth : ∀ item, (g item).width = item.width)
    (hk : keyAt ops (.bit i j) = some (.named n))
    (h : updateOp ops i (Op.updateBit j g) = .ok ops') : Patched n f ops ops' := by
  obtain ⟨pre, op, op', post, rfl, rfl, hop, rfl⟩ := updateOp_eq_ok h
  cases op with
  | bitRun nbytes items =>
    simp only [Op.updateBit, Exec.bind_eq_ok, Except.ok.injEq] at hop
    obtain ⟨items', hitems, rfl⟩ := hop
    obtain ⟨a, item, b, rfl, rfl, rfl⟩ := updateItem_eq_ok hitems
    have hkey : (Piece.bit item).key = .named n := by simpa [keyAt, Loc.index, keyIn, Piece.key] using hk
    have hkey' : (g item).key = item.key := by
      have := hf.key (.bit item)
      rwa [← hg] at this
    refine ⟨fun hnd => ?_, keyAt_replace fun loc => ?_, ?_⟩
    · have hsplit : ∀ it, piecesOf (pre ++ .bitRun nbytes (a ++ it :: b) :: post) =
          (piecesOf pre ++ a.map .bit) ++ .bit it :: (b.map .bit ++ piecesOf post) := by
        intro it
        simp [piecesOf_append, piecesOf_cons, Op.pieces]
      rw [hsplit] at hnd
      rw [hsplit, hsplit, map_patchNamed f hkey hnd, hg]
    · cases loc with
      | bit k l => exact map_key_replace BitItem.key a b item (g item) hkey' l
      | fix k l => rfl
      | op k => rfl
    · simp [Op.layout, hwidth]
  | _ => simp [keyAt, Loc.index, keyIn] at hk

/-- A dynamic op is its own piece. -/
lemma pieces_of_common {op : Op} {c : Common} (h : op.common = some c) : op.pieces = [.op op] := by
  cases op <;> first | rfl | cases h

lemma keyIn_dynamic {op : Op} {c : Common} (h : op.common = some c) :
    ∀ loc, keyIn loc op = match loc with
      | .op _ => some c.key
      | _ => none
  | .fix _ _ => by cases op <;> first | rfl | cases h
  | .bit _ _ => by cases op <;> first | rfl | cases h
  | .op _ => by simp [keyIn, h]

lemma layout_dynamic {op : Op} {c : Common} (h : op.common = some c) : op.layout = .other := by
  cases op <;> first | rfl | cases h

lemma patched_op {i : Nat} {g : Op → Op} (hg : ∀ op, .op (g op) = f (.op op)) (hf : Harmless f)
    (hk : keyAt ops (.op i) = some (.named n))
    (h : updateOp ops i (fun o => .ok (g o)) = .ok ops') : Patched n f ops ops' := by
  obtain ⟨pre, op, op', post, rfl, rfl, hop, rfl⟩ := updateOp_eq_ok h
  obtain rfl : g op = op' := by simpa using hop
  obtain ⟨c, hc, hck⟩ : ∃ c, op.common = some c ∧ c.key = .named n := by
    simpa [keyAt, Loc.index, keyIn] using hk
  have hkey : (Piece.op op).key = .named n := by simp [Piece.key, hc, hck]
  obtain ⟨c', hc', hck'⟩ : ∃ c', (g op).common = some c' ∧ c'.key = .named n := by
    have h' := hf.key (.op op)
    rw [← hg, hkey] at h'
    simp only [Piece.key] at h'
    cases hgc : (g op).common with
    | none => simp [hgc] at h'
    | some c' => exact ⟨c', rfl, by simpa [hgc] using h'⟩
  refine ⟨fun hnd => ?_, keyAt_replace fun loc => ?_, ?_⟩
  · rw [piecesOf_append, piecesOf_cons, pieces_of_common hc, List.singleton_append] at hnd
    rw [piecesOf_append, piecesOf_append, piecesOf_cons, piecesOf_cons, pieces_of_common hc,
      pieces_of_common hc', List.singleton_append, List.singleton_append,
      map_patchNamed f hkey hnd, hg]
  · rw [keyIn_dynamic hc, keyIn_dynamic hc', hck, hck']
  · simp [layout_dynamic hc, layout_dynamic hc']

lemma patchReg_patched {loc : Loc} {idx : Nat} (hk : keyAt ops loc = some (.named n))
    (h : patchReg ops loc idx = .ok ops') : Patched n (Piece.setReg idx) ops ops' := by
  cases loc with
  | fix i j =>
    exact patched_fixed (g := fun i => { i with reg := some idx }) (fun _ => rfl)
      (harmless_setReg idx) (fun _ => rfl) (fun _ => rfl) hk h
  | bit i j =>
    exact patched_bit (g := fun i => { i with reg := some idx }) (fun _ => rfl)
      (harmless_setReg idx) (fun _ => rfl) hk h
  | op i => simp [patchReg] at h

lemma patchDerived_patched {loc : Loc} (hk : keyAt ops loc = some (.named n))
    (h : patchDerived ops loc = .ok ops') : Patched n Piece.setDerived ops ops' := by
  cases loc with
  | fix i j =>
    refine patched_fixed (g := fun i => { i with kind := i.kind.markDerived }) (fun _ => rfl)
      harmless_setDerived (fun _ => rfl) (fun item => ?_) hk h
    obtain ⟨off, kind, reg, span, key⟩ := item
    cases kind <;> rfl
  | bit i j =>
    exact patched_bit (g := fun i => { i with derived := true }) (fun _ => rfl)
      harmless_setDerived (fun _ => rfl) hk h
  | op i => simp [patchDerived] at h

lemma patchSpan_patched {loc : Loc} {idx : Nat} (hk : keyAt ops loc = some (.named n))
    (h : patchSpan ops loc idx = .ok ops') : Patched n (Piece.setSpan idx) ops ops' := by
  cases loc with
  | fix i j =>
    exact patched_fixed (g := fun i => { i with span := some idx }) (fun _ => rfl)
      (harmless_setSpan idx) (fun _ => rfl) (fun _ => rfl) hk h
  | bit i j => simp [patchSpan] at h
  | op i =>
    exact patched_op (g := fun o => o.withCommon fun c => { c with span := some idx }) (fun _ => rfl)
      (harmless_setSpan idx) hk h

lemma setOver_patched {i : Nat} {overs : Over} (hk : keyAt ops (.op i) = some (.named n))
    (h : updateOp ops i (fun o => .ok (o.setOver overs)) = .ok ops') :
    Patched n (Piece.setOver overs) ops ops' :=
  patched_op (g := Op.setOver overs) (fun _ => rfl) (harmless_setOver overs) hk h

end Patches

end Rustruct

import Rustruct.Proofs.Patching
import Rustruct.Proofs.Writers

/-!
# What pack misses

When pack fails for a missing input, then either an expression read a field that has not been
settled, or the path of the error leads to an entry that a struct takes as an input and that is
not in the map the struct is packed from.
-/

namespace Rustruct

/-- Pack writes the field without looking at its input. -/
def Piece.ignoresInput : Piece → Bool
  | .fixed (.int _ _ expected derived) _ _ _ => expected.isSome || derived
  | .fixed (.bool expected) _ _ _ => expected.isSome
  | .fixed (.raw _ expected) _ _ _ => expected.isSome
  | .bit item => item.derived
  | .op (.digest ..) => true
  | _ => false

/-- A field of this name whose input is looked at. -/
def Program.takes (prog : Program) (n : String) : Bool :=
  (piecesOf prog.ops).any fun p => p.key == .named n && !p.ignoresInput

/-- The entry of a map, or the element of a list. -/
def Value.child (v : Value) : Seg → Option Value
  | .field name => v.mapView.bind fun view => view.get name
  | .index i => v.asList.bind fun items => items[i]?

/-- The value a path leads to, from the outermost segment on. -/
def Value.follow (v : Value) (path : List Seg) : Option Value := path.foldlM Value.child v

section Sites

variable (H : Hashes)

/-- `t` is packed in the course of `s`, at this path from it. -/
inductive PAt : PSite → List Seg → PSite → Prop where
  | here {s} : PAt s [] s
  | enter {ops nregs nspans minSize staticSize v view ctx path t} (map : v.mapView = some view)
      (inner : PAt (.rest ops view { ctx with frames := .new :: ctx.frames }) path t) :
      PAt (.body (.mk ops nregs nspans minSize staticSize) v ctx) path t
  | next {op ops view ctx ctx' path t} (ran : packOp H op view ctx = .ok ctx')
      (inner : PAt (.rest ops view ctx') path t) : PAt (.rest (op :: ops) view ctx) path t
  | field {op ops view ctx c name v path t} (dynamic : op.isValue) (common : op.common = some c)
      (key : c.key = .named name) (entry : view.get name = some v) (inner : PAt (.value op v ctx) path t) :
      PAt (.rest (op :: ops) view ctx) (.field name :: path) t
  | present {pred thn c ops view ctx p name v path t} (eval : ctx.eval pred = .ok p) (holds : p ≠ 0)
      (key : c.key = .named name) (entry : view.get name = some v) (inner : PAt (.value thn v ctx) path t) :
      PAt (.rest (.cond pred thn c :: ops) view ctx) (.field name :: path) t
  | nest {prog size c v ctx path t} (inner : PAt (.body prog v ctx) path t) :
      PAt (.value (.nest prog size c) v ctx) path t
  | element {count maxCount elem elemMin c v before x after ctx ctx' path t}
      (list : v.asList = some (before ++ x :: after)) (ran : packElems (packValue H elem) before 0 ctx = .ok ctx')
      (inner : PAt (.value elem x ctx') path t) :
      PAt (.value (.array count maxCount elem elemMin c) v ctx) (.index before.length :: path) t
  | branch {on cases default c v ctx tag op path t} (eval : ctx.eval on = .ok tag)
      (pick : pickCase cases default tag = some op) (inner : PAt (.value op v ctx) path t) :
      PAt (.value (.switch on cases default c) v ctx) path t

/-- Every field that the expression reads has its value. -/
def PCtx.Knows (ctx : PCtx) (expr : Expr) : Prop := ∀ r, .reg r ∈ expr.ins → ctx.getReg r ≠ Exec.fail .missing

/-- The expression that pack evaluates here reads nothing that is not settled yet. -/
def PSite.Settled : PSite → Prop
  | .rest (.cond pred _ _ :: _) _ ctx => ctx.Knows pred
  | .value (.switch on _ _ _) _ ctx => ctx.Knows on
  | _ => True

/-- The path leads to an entry that a struct takes as an input, and that its map does not have. -/
def Misses (s : PSite) (path : List Seg) : Prop :=
  ∃ inner name prog v ctx view, path = inner ++ [.field name] ∧ PAt H s inner (.body prog v ctx) ∧
    v.mapView = some view ∧ view.get name = none ∧ prog.takes name

/-- The path is that of an entry that one of the pieces takes, and the map does not have it. -/
def Lacks (pieces : List Piece) (view : FieldIndex) (path : List Seg) : Prop :=
  ∃ name, path = [.field name] ∧ view.get name = none ∧
    ∃ p ∈ pieces, p.key = .named name ∧ p.ignoresInput = false

end Sites

/-- What a path leads to from the value of a site. -/
def PSite.follow : PSite → List Seg → Option Value
  | .value _ v _, path | .body _ v _, path => v.follow path
  | .rest _ view _, .field name :: path => (view.get name).bind fun v => v.follow path
  | .rest .., _ | .elems .., _ => none

lemma follow_field {v : Value} {view : FieldIndex} (h : v.mapView = some view) (name : String) (path : List Seg) :
    v.follow (.field name :: path) = (view.get name).bind fun x => x.follow path := by
  rw [Value.follow, List.foldlM_cons, Value.child, h]
  rfl

/-- The value of a struct at a path is what the path leads to. -/
lemma PAt.follow {H : Hashes} {s t : PSite} {path : List Seg} (h : PAt H s path t) {prog : Program} {v : Value}
    {ctx : PCtx} (ht : t = .body prog v ctx) : s.follow path = some v := by
  induction h with
  | here =>
    subst ht
    rfl
  | @enter ops nregs nspans minSize staticSize v view ctx path t map inner ih =>
    have hinner := ih ht
    cases path with
    | nil => cases hinner
    | cons seg path =>
      cases seg with
      | field name =>
        rw [PSite.follow, follow_field map]
        exact hinner
      | index i => cases hinner
  | @next op ops view ctx ctx' path t ran inner ih =>
    have hinner := ih ht
    cases path with
    | nil => cases hinner
    | cons seg path =>
      cases seg with
      | field name => exact hinner
      | index i => cases hinner
  | field dynamic common key entry inner ih =>
    rw [PSite.follow, entry]
    exact ih ht
  | present eval holds key entry inner ih =>
    rw [PSite.follow, entry]
    exact ih ht
  | nest inner ih => exact ih ht
  | @element count maxCount elem elemMin c v before x after ctx ctx' path t list ran inner ih =>
    have hchild : v.child (.index before.length) = some x := by
      rw [Value.child, list, Option.bind_some]
      simp
    rw [PSite.follow, Value.follow, List.foldlM_cons, hchild]
    exact ih ht
  | branch eval pick inner ih => exact ih ht

/-- There is one struct at each place. -/
lemma PAt.program {H : Hashes} {prog prog' : Program} {v v' : Value} {ctx ctx' : PCtx}
    (h : PAt H (.body prog v ctx) [] (.body prog' v' ctx')) : prog' = prog := by
  cases h with
  | here => rfl
  | enter map inner =>
    have hnone := inner.follow rfl
    cases hnone

section Supplied

variable {α β : Type} {out b : Bytes} {ctx : PCtx}

/-- `x` does not fail for a missing input. -/
def Supplied (x : PRes α) : Prop := x.Reports fun e => e.kind ≠ .missing

@[simp] lemma supplied_ok (a : α) : Supplied (.ok a) := Exec.reports_ok a

@[simp] lemma supplied_panic : Supplied (Exec.panic : PRes α) := Exec.reports_panic

@[simp] lemma supplied_expect (o : Option α) : Supplied (Exec.expect o) := Exec.reports_expect o

lemma Supplied.bind {x : PRes α} {f : α → PRes β} (hx : Supplied x) (hf : ∀ a, Supplied (f a)) :
    Supplied (x >>= f) := Exec.Reports.bind hx fun a _ => hf a

lemma supplied_refuse {kind : Kind} (h : kind ≠ .missing) : Supplied (refuse kind : PRes α) :=
  (Exec.reports_fail _).mpr h

lemma supplied_resize (n : Nat) : Supplied (resize out n) := by
  unfold resize
  split_ifs <;> simp

lemma supplied_extend : Supplied (extend out b) := by
  unfold extend
  split_ifs <;> simp

lemma supplied_copyAt (pos : Nat) : Supplied (copyAt out pos b) := by
  unfold copyAt
  split_ifs <;> simp

lemma supplied_slice (start stop : Nat) : Supplied (slice out start stop) := by
  unfold slice
  split_ifs <;> simp

lemma supplied_checkedSub (n m : Nat) : Supplied (checkedSub n m) := by
  unfold checkedSub
  split_ifs <;> simp

lemma supplied_writeIntAt (pos : Nat) (prim : IntPrim) (be : Bool) (v : Int) :
    Supplied (writeIntAt out pos prim be v) := by
  unfold writeIntAt
  split_ifs
  · exact supplied_refuse (by decide)
  · exact supplied_copyAt pos

lemma supplied_checkBitsRange (v : Int) (width : Nat) (signed : Bool) : Supplied (checkBitsRange v width signed) := by
  have hends : checkBitsRange v width signed = .ok () ∨ checkBitsRange v width signed = refuse .range :=
    ite_eq_or_eq _ _ _
  rcases hends with h | h
  · rw [h]
    exact supplied_ok ()
  · rw [h]
    exact supplied_refuse (by decide)

lemma supplied_orBit (base i : Nat) (bit : Bool) : Supplied (orBit out base i bit) := by
  unfold orBit
  split_ifs
  · split <;> simp
  · simp

lemma supplied_orBits (base v n i : Nat) : Supplied (orBits base v n i out) := by
  induction n generalizing i out with
  | zero => simp [orBits]
  | succ n ih => exact (supplied_orBit _ _ _).bind fun _ => ih _

lemma supplied_updateTop {f : PFrame → PRes PFrame} (h : ∀ top, Supplied (f top)) : Supplied (ctx.updateTop f) := by
  unfold PCtx.updateTop
  cases ctx.frames with
  | nil => simp
  | cons top rest => exact (h top).bind fun _ => supplied_ok _

lemma supplied_setReg (idx : Option Nat) (v : Int) : Supplied (ctx.setReg idx v) := by
  unfold PCtx.setReg
  cases idx with
  | none => simp
  | some idx =>
    apply supplied_updateTop
    intro top
    split_ifs <;> simp

lemma supplied_setSpan (idx : Option Nat) (start stop : Nat) : Supplied (ctx.setSpan idx start stop) := by
  unfold PCtx.setSpan
  cases idx with
  | none => simp
  | some idx =>
    apply supplied_updateTop
    intro top
    split_ifs <;> simp

lemma supplied_reserve (idx : Option Nat) (slot : Slot) : Supplied (ctx.reserve idx slot) := by
  apply (supplied_expect idx).bind
  intro i
  apply supplied_updateTop
  intro top
  split_ifs <;> simp

lemma supplied_writeSlot (slot : Slot) (x : Int) : Supplied (PCtx.writeSlot out slot x) := by
  cases slot with
  | int pos prim be => exact supplied_writeIntAt pos prim be x
  | bits base off width signed =>
    exact (supplied_checkBitsRange x width signed).bind fun _ => supplied_orBits _ _ _ _

lemma supplied_invert (inv : Inv) (actual : Int) : Supplied (PCtx.invert inv actual) := by
  unfold PCtx.invert
  split
  · exact supplied_refuse (by decide)
  · split_ifs
    · simp
    · exact supplied_refuse (by decide)
    · simp

lemma supplied_applyInv (inv : Inv) (actual : Int) : Supplied (ctx.applyInv inv actual) := by
  apply (supplied_invert inv actual).bind
  intro x
  split
  · simp
  · split_ifs
    · dsimp only
      split
      · split_ifs
        · simp
        · exact supplied_refuse (by decide)
      · split_ifs
        · exact supplied_refuse (by decide)
        · simp
      · exact (supplied_writeSlot _ x).bind fun _ => supplied_ok _
    · simp

lemma supplied_finishLen (len : LenSrc) (actual : Nat) : Supplied (ctx.finishLen len actual) := by
  cases len with
  | greedy => simp [PCtx.finishLen]
  | expr expr inv =>
    cases inv with
    | none =>
      apply (supplied_expect expr.asConst).bind
      intro n
      split_ifs
      · exact supplied_refuse (by decide)
      · simp
    | some inv =>
      unfold PCtx.finishLen
      cases checkedI64 actual with
      | none => exact supplied_refuse (by decide)
      | some n => exact supplied_applyInv inv n

lemma supplied_grow (n : Nat) : Supplied (ctx.grow n) := (supplied_resize _).bind fun _ => supplied_ok _

lemma supplied_packChunk (len : LenSrc) (max : Nat) : Supplied (packChunk len max b ctx) := by
  unfold packChunk
  split_ifs
  · exact supplied_refuse (by decide)
  · exact supplied_extend.bind fun _ => supplied_finishLen len _

lemma supplied_textOf (v : Value) (enc : Enc) : Supplied (textOf v enc) := by
  unfold textOf
  split
  · exact supplied_refuse (by decide)
  · split
    · exact supplied_refuse (by decide)
    · simp

lemma supplied_packCstr (max : Nat) (enc : Enc) (v : Value) : Supplied (packCstr max enc v ctx) := by
  apply (supplied_textOf v enc).bind
  intro b
  split_ifs
  · exact supplied_refuse (by decide)
  · exact supplied_refuse (by decide)
  · exact supplied_extend.bind fun _ => supplied_ok _

lemma supplied_flagInt (field : Option Value) : Supplied (flagInt field) := by
  unfold flagInt
  split
  · simp
  · split
    · exact supplied_refuse (by decide)
    · simp

lemma supplied_packFlag (field : Option Value) (item : FlagItem) : Supplied (packFlag field item) := by
  unfold packFlag
  split_ifs
  · split
    · simp
    · split
      · exact supplied_refuse (by decide)
      · simp
  · apply (supplied_flagInt field).bind
    intro val
    dsimp only
    split_ifs
    · exact supplied_refuse (by decide)
    · simp

lemma supplied_packFlagItems (view : FieldIndex) (items : List FlagItem) (raw : U64) :
    Supplied (packFlagItems view items raw) := by
  induction items generalizing raw with
  | nil => simp [packFlagItems]
  | cons item items ih =>
    rw [packFlagItems_cons]
    exact (supplied_packFlag _ item).bind fun _ => ih _

lemma supplied_packRest (view : FieldIndex) (rest : RestPolicy) (restMask : U64) :
    Supplied (packRest view rest restMask) := by
  cases rest with
  | keep =>
    apply (supplied_flagInt _).bind
    intro leftover
    split_ifs
    · exact supplied_refuse (by decide)
    · simp
  | _ => simp [packRest]

lemma supplied_packFlags (prim : IntPrim) (be : Bool) (items : List FlagItem) (rest : RestPolicy) (restMask : U64)
    (v : Value) : Supplied (packFlags prim be items rest restMask v ctx) := by
  unfold packFlags
  split
  · exact supplied_refuse (by decide)
  · split_ifs
    · apply (supplied_packFlagItems _ items _).bind
      intro raw
      apply (supplied_packRest _ rest restMask).bind
      intro bits
      apply (supplied_grow prim.width).bind
      intro next
      exact (supplied_copyAt _).bind fun _ => supplied_ok _
    · exact supplied_refuse (by decide)

lemma supplied_packDigest (algo : Algo) (overs : Over) (be : Bool) (c : Common) :
    Supplied (packDigest algo overs be c ctx) := by
  apply (supplied_grow _).bind
  intro grown
  apply (supplied_setSpan c.span _ _).bind
  intro spanned
  apply (supplied_expect c.key.name).bind
  intro name
  apply supplied_updateTop
  intro top
  simp

lemma supplied_fillDigests {H : Hashes} (start stop : Nat) (f : PFrame) (digests : List PDigest) :
    Supplied (fillDigests H start stop f digests out) := by
  induction digests generalizing out with
  | nil => simp [fillDigests]
  | cons d digests ih =>
    have hfold (idxs : List Nat) (h : Hasher) : Supplied (idxs.foldlM (fun h i =>
        if hi : i < maxSpans then do
          let piece ← slice out (f.spans ⟨i, hi⟩).1 (f.spans ⟨i, hi⟩).2
          .ok (h.update piece)
        else Exec.panic) h : PRes Hasher) := by
      induction idxs generalizing h with
      | nil => simp
      | cons i idxs ih =>
        rw [List.foldlM_cons]
        refine Supplied.bind ?_ ih
        split_ifs
        · exact (supplied_slice _ _).bind fun _ => supplied_ok _
        · simp
    have hcompute : Supplied (d.compute H out start stop f) := by
      unfold PDigest.compute
      cases d.overs with
      | star => exact (supplied_slice _ _).bind fun _ => supplied_ok _
      | spans idxs => exact (hfold idxs _).bind fun _ => supplied_ok _
    have hwrite (v : DigestVal) : Supplied (d.write v out) := by
      cases v with
      | int v => exact supplied_copyAt _
      | bytes b =>
        unfold PDigest.write
        dsimp only
        split_ifs
        · simp
        · exact supplied_copyAt _
    apply hcompute.bind
    intro v
    exact (hwrite v).bind fun _ => ih

end Supplied

section Items

variable {view : FieldIndex} {ctx : PCtx}

/-- If the error is one of a missing input, it is the input `v` of the key that is missing. -/
def Absent (v : Option Value) (key : Key) (ignored : Bool) (e : PackFail) : Prop :=
  e.kind = .missing → e.path = [] ∧ v = none ∧ key.name.isSome ∧ ignored = false

lemma Supplied.absent {α : Type} {x : PRes α} (h : Supplied x) (v : Option Value) (key : Key) (ignored : Bool) :
    x.Reports (Absent v key ignored) := h.mono fun _ hne he => absurd he hne

lemma inputOf_absent {α : Type} (v : Option Value) (key : Key) (read : Value → Option α) (zero : α) :
    (inputOf v key read zero).Reports (Absent v key false) := by
  unfold inputOf
  split
  · split
    · exact Exec.reports_ok _
    · exact (supplied_refuse (by decide)).absent _ _ _
  · split_ifs with hname
    · exact (Exec.reports_fail _).mpr fun _ => ⟨rfl, rfl, hname, rfl⟩
    · exact Exec.reports_ok _

lemma packInt_absent (pos : Nat) (prim : IntPrim) (be : Bool) (expected : Option Int) (derived : Bool)
    (item : FixedItem) (v : Option Value) :
    (packInt pos prim be expected derived item v ctx).Reports
      (Absent v item.key (expected.isSome || derived)) := by
  unfold packInt
  cases expected with
  | some value =>
    apply Supplied.absent
    exact (supplied_writeIntAt pos prim be value).bind fun _ => supplied_setReg _ _
  | none =>
    cases derived with
    | true => exact (supplied_reserve item.reg _).absent _ _ _
    | false =>
      apply (inputOf_absent v item.key Value.asInt 0).bind
      intro value _
      apply Supplied.absent
      exact (supplied_writeIntAt pos prim be value).bind fun _ => supplied_setReg _ _

lemma packBool_absent (expected : Option Bool) (item : FixedItem) (v : Option Value) :
    (packBool expected item v).Reports (Absent v item.key expected.isSome) := by
  cases expected with
  | some value => exact Exec.reports_ok _
  | none => exact inputOf_absent v item.key Value.truthy false

lemma packRaw_absent (pos len : Nat) (expected : Option Bytes) (item : FixedItem) (v : Option Value) (out : Bytes) :
    (packRaw pos len expected item v out).Reports (Absent v item.key expected.isSome) := by
  unfold packRaw
  cases expected with
  | some value =>
    dsimp only
    split_ifs
    · exact Exec.reports_panic
    · exact (supplied_copyAt pos).absent _ _ _
  | none =>
    cases v with
    | some value =>
      dsimp only
      split
      · exact (supplied_refuse (by decide)).absent _ _ _
      · split_ifs
        · exact (supplied_refuse (by decide)).absent _ _ _
        · exact (supplied_copyAt pos).absent _ _ _
    | none =>
      dsimp only
      split_ifs with hname
      · exact (Exec.reports_fail _).mpr fun _ => ⟨rfl, rfl, hname, rfl⟩
      · exact Exec.reports_ok _

/-- A fixed item misses nothing but its own input. -/
lemma packFixedItem_absent (base : Nat) (item : FixedItem) (v : Option Value) :
    (packFixedItem base item v ctx).Reports (Absent v item.key item.piece.ignoresInput) := by
  obtain ⟨off, kind, reg, span, key⟩ := item
  cases kind with
  | int prim be expected derived =>
    apply (packInt_absent _ prim be expected derived _ v).bind
    intro next _
    exact (supplied_setSpan _ _ _).absent _ _ _
  | f32 be =>
    apply (inputOf_absent v key Value.asFloat 0).bind
    intro value _
    apply Supplied.absent
    exact (supplied_copyAt _).bind fun _ => supplied_setSpan _ _ _
  | f64 be =>
    apply (inputOf_absent v key Value.asFloat 0).bind
    intro value _
    apply Supplied.absent
    exact (supplied_copyAt _).bind fun _ => supplied_setSpan _ _ _
  | bool expected =>
    apply (packBool_absent expected _ v).bind
    intro value _
    apply Supplied.absent
    exact (supplied_copyAt _).bind fun _ => supplied_setSpan _ _ _
  | raw len expected =>
    apply (packRaw_absent _ len expected _ v _).bind
    intro out _
    exact (supplied_setSpan _ _ _).absent _ _ _

lemma packBitItem_absent (base off : Nat) (item : BitItem) (v : Option Value) :
    (packBitItem base off item v ctx).Reports (Absent v item.key item.derived) := by
  unfold packBitItem
  cases item.derived with
  | true => exact (supplied_reserve item.reg _).absent _ _ _
  | false =>
    rw [if_neg Bool.false_ne_true]
    apply (inputOf_absent v item.key Value.asInt 0).bind
    intro value _
    apply Supplied.absent
    apply (supplied_checkBitsRange value item.width item.signed).bind
    intro _
    exact (supplied_orBits _ _ _ _).bind fun _ => supplied_setReg _ _

lemma Lacks.mono {pieces more : List Piece} {path : List Seg} (h : Lacks pieces view path) (hsub : pieces ⊆ more) :
    Lacks more view path := by
  obtain ⟨name, hpath, hnone, p, hp, hkey⟩ := h
  exact ⟨name, hpath, hnone, p, hsub hp, hkey⟩

/-- The key of the error of a field. -/
lemma Absent.lacks {piece : Piece} {e : PackFail} (h : Absent (lookup view piece.key) piece.key piece.ignoresInput e)
    (hkind : (segKey piece.key e).kind = .missing) : Lacks [piece] view (segKey piece.key e).path.reverse := by
  unfold segKey at hkind ⊢
  cases hkey : piece.key with
  | skip =>
    rw [hkey] at hkind h
    have hname := (h hkind).2.2.1
    cases hname
  | named name =>
    rw [hkey] at hkind h
    obtain ⟨hpath, hlookup, -, hinput⟩ := h hkind
    refine ⟨name, ?_, hlookup, piece, List.mem_singleton_self _, hkey, hinput⟩
    simp only [Key.name, PackFail.seg, hpath, List.nil_append, List.reverse_singleton]

lemma packFixedItems_lacks (base : Nat) (items : List FixedItem) :
    (packFixedItems base view items ctx).Reports fun e =>
      e.kind = .missing → Lacks (items.map FixedItem.piece) view e.path.reverse := by
  induction items generalizing ctx with
  | nil => exact Exec.reports_ok _
  | cons item items ih =>
    rw [packFixedItems_cons]
    refine Exec.Reports.bind ?_ fun next _ => ih.mono fun e h hkind => (h hkind).mono (List.subset_cons_self _ _)
    refine (packFixedItem_absent base item _).mapErr fun e h hkind => ?_
    exact (@Absent.lacks view item.piece e h hkind).mono (by simp)

lemma packBitItems_lacks (base : Nat) (items : List BitItem) (off : Nat) :
    (packBitItems base view items off ctx).Reports fun e =>
      e.kind = .missing → Lacks (items.map Piece.bit) view e.path.reverse := by
  induction items generalizing off ctx with
  | nil => exact Exec.reports_ok _
  | cons item items ih =>
    rw [packBitItems_cons]
    refine Exec.Reports.bind ?_ fun next _ => (ih _).mono fun e h hkind => (h hkind).mono (List.subset_cons_self _ _)
    refine (packBitItem_absent base off item _).mapErr fun e h hkind => ?_
    exact (@Absent.lacks view (.bit item) e h hkind).mono (by simp)

end Items

section Runs

variable {H : Hashes} {view : FieldIndex} {ctx : PCtx}

lemma Supplied.reports {α : Type} {x : PRes α} (h : Supplied x) (E : PackFail → Prop) :
    x.Reports fun e => e.kind = .missing → E e := h.mono fun _ hne he => absurd he hne

/-- What is missed from a site is missed from those that lead to it. -/
lemma Misses.back {s t : PSite} {path : List Seg} (before : List Seg) (h : Misses H t path)
    (hat : ∀ path u, PAt H t path u → PAt H s (before ++ path) u) : Misses H s (before ++ path) := by
  obtain ⟨inner, name, prog, v, ctx, view, rfl, hinner, hrest⟩ := h
  exact ⟨before ++ inner, name, prog, v, ctx, view, (List.append_assoc _ _ _).symm, hat _ _ hinner, hrest⟩

lemma okOrOverflow_reports (v : Option Int) : (okOrOverflow v).Reports fun k => k ≠ .missing := by
  cases v with
  | some v => exact Exec.reports_ok v
  | none => exact (Exec.reports_fail _).mpr (by decide)

lemma apply_reports (op : BinOp) (a b : Int) : (op.apply a b).Reports fun k => k ≠ .missing := by
  have hshift (x : Int) : (if 0 ≤ b ∧ b < 64 then .ok x else Exec.fail Kind.overflow).Reports
      fun k => k ≠ .missing := by
    split_ifs
    · exact Exec.reports_ok x
    · exact (Exec.reports_fail _).mpr (by decide)
  cases op with
  | add | sub | mul => exact okOrOverflow_reports _
  | div =>
    rw [BinOp.apply]
    split_ifs
    · exact (Exec.reports_fail _).mpr (by decide)
    · exact okOrOverflow_reports _
  | shl | shr => exact hshift _
  | and | or | xor | eq | ne | lt | le | gt | ge => exact Exec.reports_ok _

lemma pushStack_reports (v : Int) (stack : List Int) : (pushStack v stack).Reports fun k => k ≠ .missing := by
  unfold pushStack
  split_ifs
  · exact Exec.reports_ok _
  · exact Exec.reports_panic

lemma runIns_reports {get : Reg → Exec Kind Int} {l : List Ins}
    (h : ∀ r, .reg r ∈ l → get r ≠ Exec.fail .missing) (stack : List Int) :
    (runIns get l stack).Reports fun k => k ≠ .missing := by
  induction l generalizing stack with
  | nil => exact Exec.reports_ok _
  | cons ins l ih =>
    refine Exec.Reports.bind ?_ fun next _ => ih (fun r hr => h r (List.mem_cons_of_mem _ hr)) next
    cases ins with
    | imm n => exact pushStack_reports n stack
    | reg r =>
      unfold Ins.step
      dsimp only
      split_ifs
      · refine Exec.Reports.bind (fun k hk hmissing => ?_) fun v _ => pushStack_reports v stack
        exact h r List.mem_cons_self (hmissing ▸ hk)
      · exact Exec.reports_panic
    | op o =>
      unfold Ins.step
      dsimp only
      split
      · exact (apply_reports o _ _).bind fun v _ => pushStack_reports v _
      · exact Exec.reports_panic

/-- An expression that reads only what is settled has no missing input. -/
lemma supplied_eval {expr : Expr} (h : ctx.Knows expr) : Supplied (ctx.eval expr) := by
  have heval : (expr.eval ctx.getReg).Reports fun k => k ≠ .missing := by
    refine Exec.Reports.bind (runIns_reports h []) fun stack _ => ?_
    split
    · exact Exec.reports_ok _
    · exact Exec.reports_panic
  exact Exec.Reports.mapErr heval fun k hk => hk

lemma lookup_of_get {key : Key} {name : String} {v : Value} (hkey : key = .named name)
    (hentry : view.get name = some v) : lookup view key = some v := by
  rw [hkey]
  exact hentry

lemma packField_misses {c : Common} {sem : PSem} {Q : List Seg → Prop}
    (habsent : ∀ name, c.key = .named name → view.get name = none → Q [.field name])
    (hsem : ∀ name v, c.key = .named name → view.get name = some v →
      (sem v ctx).Reports fun e => e.kind = .missing → Q (.field name :: e.path.reverse)) :
    (packField c sem view ctx).Reports fun e => e.kind = .missing → Q e.path.reverse := by
  unfold packField
  cases hkey : c.key with
  | skip => exact Exec.reports_panic
  | named name =>
    simp only [Key.name, Exec.expect_some, Exec.bind_ok, viewGet_value]
    cases hentry : view.get name with
    | none =>
      refine (Exec.reports_fail _).mpr fun _ => ?_
      exact habsent name hkey hentry
    | some v =>
      refine Exec.Reports.bind ?_ fun next _ => (supplied_setSpan _ _ _).reports _
      refine (hsem name v hkey hentry).mapErr fun e h hkind => ?_
      have hpath : (segKey (.named name) e).path.reverse = .field name :: e.path.reverse :=
        List.reverse_concat
      rw [hpath]
      exact h hkind

variable (H)

/-- Packing a value with the op misses what a struct in the value misses. -/
def ValueMisses (op : Op) : Prop :=
  ∀ v ctx, PAlways H PSite.Settled (.value op v ctx) → (packValue H op v ctx).Reports fun e =>
    e.kind = .missing → Misses H (.value op v ctx) e.path.reverse

def FieldMisses (op : Op) : Prop :=
  ∀ ops view ctx, PAlways H PSite.Settled (.rest (op :: ops) view ctx) → (packOp H op view ctx).Reports fun e =>
    e.kind = .missing → Lacks op.pieces view e.path.reverse ∨ Misses H (.rest (op :: ops) view ctx) e.path.reverse

def BodyMisses (prog : Program) : Prop :=
  ∀ v ctx, PAlways H PSite.Settled (.body prog v ctx) → (packStruct H prog v ctx).Reports fun e =>
    e.kind = .missing → Misses H (.body prog v ctx) e.path.reverse

variable {H}

lemma fieldMisses_of_value {op : Op} (hv : op.isValue) (h : ValueMisses H op) : FieldMisses H op := by
  intro ops view ctx hsettled
  obtain ⟨c, hc, hrun⟩ := packOp_of_isValue H hv
  rw [hrun]
  apply packField_misses (Q := fun path => Lacks op.pieces view path ∨ Misses H (.rest (op :: ops) view ctx) path)
  · intro name hkey hnone
    refine .inl ⟨name, rfl, hnone, .op op, ?_, ?_, ?_⟩
    · cases op with
      | fixed | bitRun | digest | cond => cases hv
      | _ => exact List.mem_singleton_self _
    · rw [Piece.key, hc]
      exact hkey
    · cases op with
      | fixed | bitRun | digest | cond => cases hv
      | _ => rfl
  · intro name v hkey hentry
    refine (h v ctx (hsettled.step (.field hv hc (lookup_of_get hkey hentry)))).mono fun e he hkind => .inr ?_
    exact (he hkind).back [.field name] fun path u hat => .field hv hc hkey hentry hat

/-- The element that fails, and those before it. -/
lemma packElems_reports {sem : PSem} {l : List Value} {i : Nat} {E : PackFail → Prop}
    (h : ∀ before x after ctx', l = before ++ x :: after → packElems sem before i ctx = .ok ctx' →
      (sem x ctx').Reports fun e => E (e.seg (.index (i + before.length)))) :
    (packElems sem l i ctx).Reports E := by
  induction l generalizing i ctx with
  | nil => exact Exec.reports_ok _
  | cons v l ih =>
    refine Exec.Reports.bind ?_ fun next hnext => ih fun before x after ctx' hl hran => ?_
    · exact (h [] v l ctx rfl rfl).mapErr fun e he => he
    · have hlast := h (v :: before) x after ctx' (by rw [hl, List.cons_append]) (by
        rw [packElems, hnext]
        exact hran)
      rw [List.length_cons, ← Nat.add_assoc, Nat.add_right_comm] at hlast
      exact hlast

lemma packElems_reaches {elem : Op} {before : List Value} (after : List Value) {i : Nat} {ctx' : PCtx}
    (h : packElems (packValue H elem) before i ctx = .ok ctx') :
    PReaches H (.elems elem (before ++ after) ctx) (.elems elem after ctx') := by
  induction before generalizing i ctx with
  | nil =>
    cases h
    exact .refl
  | cons v before ih =>
    obtain ⟨mid, hmid, h⟩ := Exec.bind_eq_ok.mp h
    exact .head (.another (Exec.mapErr_eq_ok.mp hmid)) (ih h)

lemma packArray_misses {elem : Op} {count : CountSrc} {maxCount elemMin : Nat} {c : Common} (h : ValueMisses H elem) :
    ValueMisses H (.array count maxCount elem elemMin c) := by
  intro v ctx hsettled
  rw [packValue]
  unfold packArray
  cases hlist : v.asList with
  | none => exact (supplied_refuse (by decide)).reports _
  | some l =>
    refine Exec.Reports.bind ?_ fun next _ => Supplied.reports ?_ _
    · apply packElems_reports
      intro before x after ctx' hl hran
      have hreach : PReaches H (.value (.array count maxCount elem elemMin c) v ctx) (.value elem x ctx') := by
        have hbefore := packElems_reaches (x :: after) hran
        rw [← hl] at hbefore
        exact .head (.list hlist) (hbefore.tail .element)
      refine (h x ctx' fun u hu => hsettled u (hreach.trans hu)).mono fun e he hkind => ?_
      have hpath : (e.seg (.index (0 + before.length))).path.reverse = .index before.length :: e.path.reverse := by
        rw [Nat.zero_add]
        exact List.reverse_concat
      rw [hpath]
      exact (he hkind).back [.index before.length] fun path u hat => .element (hl ▸ hlist) hran hat
    · cases count with
      | untilEof => exact supplied_ok _
      | expr expr inv => exact supplied_finishLen _ _

lemma packSwitch_misses (on : Expr) {cases : List (Int × Op)} {default : Option Op} (c : Common)
    (hc : ∀ branch ∈ cases, ValueMisses H branch.2) (hd : ∀ op ∈ default, ValueMisses H op) :
    ValueMisses H (.switch on cases default c) := by
  intro v ctx hsettled
  rw [packValue_switch]
  refine Exec.Reports.bind ((supplied_eval hsettled.here).reports _) fun tag htag => ?_
  cases hp : pickCase cases default tag with
  | none =>
    have hrefuse : Supplied (refuse .noCase : PRes PCtx) := supplied_refuse (by decide)
    simp only [hp, Option.map_none]
    exact hrefuse.reports _
  | some op =>
    simp only [hp, Option.map_some]
    have hop : ValueMisses H op := by
      obtain ⟨branch, hm, rfl⟩ | ho := pickCase_mem hp
      · exact hc branch hm
      · exact hd op ho
    refine (hop v ctx (hsettled.step (.branch htag hp))).mono fun e he hkind => ?_
    exact (he hkind).back [] fun path u hat => .branch htag hp hat

lemma packOps_misses {ops : List Op} (hop : ∀ op ∈ ops, FieldMisses H op)
    (hsettled : PAlways H PSite.Settled (.rest ops view ctx)) :
    (packOps H ops view ctx).Reports fun e => e.kind = .missing →
      Lacks (piecesOf ops) view e.path.reverse ∨ Misses H (.rest ops view ctx) e.path.reverse := by
  induction ops generalizing ctx with
  | nil => exact Exec.reports_ok _
  | cons op ops ih =>
    rw [packOps]
    refine Exec.Reports.bind ?_ fun next hnext => ?_
    · refine (hop op List.mem_cons_self ops view ctx hsettled).mono fun e he hkind => ?_
      exact (he hkind).imp_left fun h => h.mono (List.subset_append_left _ _)
    · refine (ih (fun o ho => hop o (List.mem_cons_of_mem _ ho)) (hsettled.step (.next hnext))).mono
        fun e he hkind => ?_
      refine (he hkind).imp (fun h => h.mono (List.subset_append_right _ _)) fun h => ?_
      exact h.back [] fun path u hat => .next hnext hat

lemma packBody_misses {ops : List Op} {nregs nspans minSize : Nat} {staticSize : Option Nat}
    (hop : ∀ op ∈ ops, FieldMisses H op) : BodyMisses H (.mk ops nregs nspans minSize staticSize) := by
  intro v ctx hsettled
  rw [packStruct]
  unfold withPFrame
  cases hview : v.mapView with
  | none => exact (supplied_refuse (by decide)).reports _
  | some view =>
    refine Exec.Reports.bind ?_ fun next _ => Supplied.reports ?_ _
    · refine (packOps_misses hop (hsettled.step (.enter hview))).mono fun e he hkind => ?_
      rcases he hkind with ⟨name, hpath, hnone, p, hp, hkey, hinput⟩ | h
      · refine ⟨[], name, _, v, ctx, view, hpath, .here, hview, hnone, ?_⟩
        refine List.any_eq_true.mpr ⟨p, hp, ?_⟩
        rw [hkey, hinput]
        simp
      · exact h.back [] fun path u hat => .enter hview hat
    · cases next.frames with
      | nil => exact supplied_panic
      | cons f frames => exact (supplied_fillDigests _ _ _ _).bind fun _ => supplied_ok _

/-- A single field that is packed from a value does not miss one. -/
lemma packFixed1_supplied (width : Nat) (items : List FixedItem) (v : Value) :
    Supplied (packFixed1 width items v ctx) := by
  apply (supplied_grow width).bind
  intro next
  apply (supplied_expect items.head?).bind
  intro item
  refine (packFixedItem_absent _ item (some v)).mono fun e he hkind => ?_
  have hnone := (he hkind).2.1
  cases hnone

lemma valueMisses_of_supplied {op : Op} (h : ∀ v ctx, Supplied (packValue H op v ctx)) : ValueMisses H op :=
  fun v ctx _ => (h v ctx).reports _

lemma packNest_misses {prog : Program} {size : Option LenSrc} {c : Common} (h : BodyMisses H prog) :
    ValueMisses H (.nest prog size c) := by
  intro v ctx hsettled
  rw [packValue]
  refine Exec.Reports.bind ?_ fun next _ => Supplied.reports ?_ _
  · refine (h v ctx (hsettled.step .nest)).mono fun e he hkind => ?_
    exact (he hkind).back [] fun path u hat => .nest hat
  · cases size with
    | none => exact supplied_ok _
    | some len => exact (supplied_checkedSub _ _).bind fun sz => supplied_finishLen len sz

lemma packCond_misses {pred : Expr} {thn : Op} {c : Common} (h : ValueMisses H thn) :
    FieldMisses H (.cond pred thn c) := by
  intro ops view ctx hsettled
  rw [packOp]
  refine Exec.Reports.bind ((supplied_eval hsettled.here).reports _) fun p hp => ?_
  split_ifs with hne
  · apply packField_misses
      (Q := fun path => Lacks (Op.cond pred thn c).pieces view path ∨
        Misses H (.rest (.cond pred thn c :: ops) view ctx) path)
    · intro name hkey hnone
      exact .inl ⟨name, rfl, hnone, .op (.cond pred thn c), List.mem_singleton_self _, hkey, rfl⟩
    · intro name v hkey hentry
      refine (h v ctx (hsettled.step (.present hp hne (lookup_of_get hkey hentry)))).mono fun e he hkind => .inr ?_
      exact (he hkind).back [.field name] fun path u hat => .present hp hne hkey hentry hat
  · exact Exec.reports_ok _

/-- What any op and any program miss. -/
lemma misses_cases : OpCases (fun op => ValueMisses H op ∧ FieldMisses H op) (BodyMisses H) where
  fixed width items := by
    refine ⟨valueMisses_of_supplied fun v ctx => ?_, fun ops view ctx hsettled => ?_⟩
    · rw [packValue]
      exact packFixed1_supplied width items v
    · rw [packOp]
      refine Exec.Reports.bind ((supplied_grow width).reports _) fun next _ => ?_
      exact (packFixedItems_lacks _ items).mono fun e he hkind => .inl (he hkind)
  bytes len max c := by
    have h : ValueMisses H (.bytes len max c) := by
      apply valueMisses_of_supplied
      intro v ctx
      rw [packValue]
      unfold packBytes
      cases v.asBytes with
      | none => exact supplied_refuse (by decide)
      | some b => exact supplied_packChunk len max
    exact ⟨h, fieldMisses_of_value rfl h⟩
  str len max enc c := by
    have h : ValueMisses H (.str len max enc c) := by
      apply valueMisses_of_supplied
      intro v ctx
      rw [packValue]
      exact (supplied_textOf v enc).bind fun b => supplied_packChunk len max
    exact ⟨h, fieldMisses_of_value rfl h⟩
  cstr max enc c := by
    have h : ValueMisses H (.cstr max enc c) := by
      apply valueMisses_of_supplied
      intro v ctx
      rw [packValue]
      exact supplied_packCstr max enc v
    exact ⟨h, fieldMisses_of_value rfl h⟩
  bitRun nbytes items := by
    refine ⟨valueMisses_of_supplied fun v ctx => ?_, fun ops view ctx hsettled => ?_⟩
    · rw [packValue]
      exact supplied_panic
    · rw [packOp]
      refine Exec.Reports.bind ((supplied_grow nbytes).reports _) fun next _ => ?_
      exact (packBitItems_lacks _ items 0).mono fun e he hkind => .inl (he hkind)
  flags prim be items rest restMask c := by
    have h : ValueMisses H (.flags prim be items rest restMask c) := by
      apply valueMisses_of_supplied
      intro v ctx
      rw [packValue]
      exact supplied_packFlags prim be items rest restMask v
    exact ⟨h, fieldMisses_of_value rfl h⟩
  digest algo overs verify be c := by
    refine ⟨valueMisses_of_supplied fun v ctx => ?_, fun ops view ctx hsettled => ?_⟩
    · rw [packValue]
      exact supplied_panic
    · rw [packOp]
      exact (supplied_packDigest algo overs be c).reports _
  cond pred thn c hthn := by
    refine ⟨valueMisses_of_supplied fun v ctx => ?_, packCond_misses hthn.1⟩
    rw [packValue]
    exact supplied_panic
  nest prog size c hp := ⟨packNest_misses hp, fieldMisses_of_value rfl (packNest_misses hp)⟩
  array count maxCount elem elemMin c he :=
    ⟨packArray_misses he.1, fieldMisses_of_value rfl (packArray_misses he.1)⟩
  switch on cases default c hc hd := by
    have h : ValueMisses H (.switch on cases default c) :=
      packSwitch_misses on c (fun branch hb => (hc branch hb).1) fun op ho => (hd op ho).1
    exact ⟨h, fieldMisses_of_value rfl h⟩
  prog ops nregs nspans minSize staticSize hops := packBody_misses fun op ho => (hops op ho).2

end Runs

end Rustruct

import Rustruct.Proofs.Streaming
import Rustruct.Pack

/-!
# The inputs of pack

Two values agree for a program when they differ only in map entries that are not inputs of
the struct they are in: unknown keys, constants, derived fields and digests. Which branch of
a switch a map is for, and whether a conditional field is there, is decided as pack goes,
so agreement is followed along the run.
-/

namespace Rustruct

/-- The field index of a map. -/
def viewOf (m : List (String × Value)) : FieldIndex :=
  if m.length > hashIndexThreshold then .hashed m else .small m

lemma mapView_map (m : List (String × Value)) : (Value.map m).mapView = some (viewOf m) := rfl

lemma find?_reverse {m : List (String × Value)} (h : (m.map Prod.fst).Nodup) (name : String) :
    m.reverse.find? (fun entry => entry.1 == name) = m.find? fun entry => entry.1 == name := by
  induction m with
  | nil => rfl
  | cons entry m ih =>
    obtain ⟨hnot, hrest⟩ := List.nodup_cons.mp h
    rw [List.reverse_cons, List.find?_append, ih hrest, List.find?_cons]
    by_cases he : entry.1 = name
    · have hnone : m.find? (fun entry => entry.1 == name) = none := by
        rw [List.find?_eq_none]
        intro e hm hname
        have hname : e.1 = name := by simpa using hname
        exact hnot (he ▸ hname ▸ List.mem_map_of_mem hm)
      simp [he, hnone]
    · have hne : (entry.1 == name) = false := by simpa using he
      simp [hne]

/-- Without duplicate keys both kinds of index find the entry of a name. -/
lemma viewOf_get {m : List (String × Value)} (h : (m.map Prod.fst).Nodup) (name : String) :
    (viewOf m).get name = (Value.map m).get name := by
  unfold viewOf
  split_ifs
  · simp only [FieldIndex.get, Value.get, find?_reverse h]
  · rfl

/-- The value a key has in a map. -/
def entry (m : List (String × Value)) (key : Key) : Option Value := key.name.bind (Value.map m).get

lemma lookup_viewOf {m : List (String × Value)} (h : (m.map Prod.fst).Nodup) (key : Key) :
    lookup (viewOf m) key = entry m key := by
  unfold lookup entry
  cases key.name with
  | none => rfl
  | some name => exact viewOf_get h name

/-- The item writes what the input says. -/
def FixKind.isInput : FixKind → Bool
  | .int _ _ expected derived => expected.isNone && !derived
  | .f32 _ | .f64 _ => true
  | .bool expected => expected.isNone
  | .raw _ expected => expected.isNone

abbrev Agreement := Value → Value → PCtx → Prop

/-- The entries of a key are both missing, or they agree. -/
def entriesAgree (key : Key) (agrees : Agreement) (m m' : List (String × Value)) (ctx : PCtx) : Prop :=
  match entry m key, entry m' key with
  | some v, some v' => agrees v v' ctx
  | none, none => True
  | _, _ => False

/-- The elements agree in turn. -/
def elemsAgree (agrees : Agreement) (sem : PSem) : List Value → List Value → PCtx → Prop
  | [], [], _ => True
  | v :: vs, v' :: vs', ctx =>
    agrees v v' ctx ∧ ∀ next, sem v ctx = .ok next → elemsAgree agrees sem vs vs' next
  | _, _, _ => False

def arrayAgrees (agrees : Agreement) (sem : PSem) : Agreement := fun v v' ctx =>
  v = v' ∨ ∃ l l', v = .list l ∧ v' = .list l' ∧ elemsAgree agrees sem l l' ctx

/-- The values agree for the branch that is taken. -/
def switchAgrees (on : Expr) (branch : Int → Agreement) : Agreement := fun v v' ctx =>
  ∀ tag, ctx.eval on = .ok tag → branch tag v v' ctx

/-- Two maps without duplicate keys agree for a struct. -/
def structAgrees (body : List (String × Value) → List (String × Value) → PCtx → Prop) : Agreement :=
  fun v v' ctx => v = v' ∨ ∃ m m', v = .map m ∧ v' = .map m' ∧ (m.map Prod.fst).Nodup ∧
    (m'.map Prod.fst).Nodup ∧ body m m' { ctx with frames := .new :: ctx.frames }

section Agreement

variable (H : Hashes)

mutual

/-- The values differ only in entries that are not inputs. -/
def Op.Agrees : Op → Agreement
  | .nest prog _ _ => prog.Agrees
  | .array _ _ elem _ _ => arrayAgrees elem.Agrees (packValue H elem)
  | .switch on cases default _ => switchAgrees on (casesAgree (defaultAgrees default) cases)
  | .fixed .. | .bytes .. | .str .. | .cstr .. | .bitRun .. | .flags .. | .digest .. | .cond .. =>
    fun v v' _ => v = v'

def casesAgree (fallback : Agreement) : List (Int × Op) → Int → Agreement
  | [], _ => fallback
  | (t, op) :: cases, tag => if t = tag then op.Agrees else casesAgree fallback cases tag

def defaultAgrees : Option Op → Agreement
  | none => fun _ _ _ => True
  | some op => op.Agrees

def Program.Agrees : Program → Agreement
  | .mk ops _ _ _ _ => structAgrees (opsAgree ops)

def opsAgree : List Op → List (String × Value) → List (String × Value) → PCtx → Prop
  | [] => fun _ _ _ => True
  | op :: ops => fun m m' ctx => op.FieldAgrees m m' ctx ∧
      ∀ next, packOp H op (viewOf m) ctx = .ok next → opsAgree ops m m' next

/-- The maps agree in the entries that are inputs of the field. -/
def Op.FieldAgrees : Op → List (String × Value) → List (String × Value) → PCtx → Prop
  | .fixed _ items => fun m m' _ => ∀ item ∈ items, item.kind.isInput → entry m item.key = entry m' item.key
  | .bitRun _ items => fun m m' _ => ∀ item ∈ items, !item.derived → entry m item.key = entry m' item.key
  | .digest .. => fun _ _ _ => True
  | .cond pred thn c => fun m m' ctx =>
    ∀ p, ctx.eval pred = .ok p → p ≠ 0 → entriesAgree c.key thn.Agrees m m' ctx
  | .bytes _ _ c | .str _ _ _ c | .cstr _ _ c | .flags _ _ _ _ _ c =>
    entriesAgree c.key fun v v' _ => v = v'
  | .nest prog _ c => entriesAgree c.key prog.Agrees
  | .array _ _ elem _ c => entriesAgree c.key (arrayAgrees elem.Agrees (packValue H elem))
  | .switch on cases default c =>
    entriesAgree c.key (switchAgrees on (casesAgree (defaultAgrees default) cases))

end

end Agreement

section Alike

variable {m m' : List (String × Value)} (hm : (m.map Prod.fst).Nodup) (hm' : (m'.map Prod.fst).Nodup)

/-- `sem` packs values that agree alike. -/
def Alike (agrees : Agreement) (sem : PSem) : Prop :=
  ∀ v v' ctx, agrees v v' ctx → sem v ctx = sem v' ctx

lemma packInt_alike {pos : Nat} {prim : IntPrim} {be : Bool} {expected : Option Int} {derived : Bool}
    {item : FixedItem} {v v' : Option Value} {ctx : PCtx}
    (h : (FixKind.int prim be expected derived).isInput → v = v') :
    packInt pos prim be expected derived item v ctx = packInt pos prim be expected derived item v' ctx := by
  unfold packInt
  cases expected with
  | some exp => rfl
  | none =>
    cases derived with
    | true => rfl
    | false => rw [h rfl]

lemma packFixedItem_alike {base : Nat} {item : FixedItem} {v v' : Option Value} {ctx : PCtx}
    (h : item.kind.isInput → v = v') :
    packFixedItem base item v ctx = packFixedItem base item v' ctx := by
  obtain ⟨off, kind, reg, span, key⟩ := item
  cases kind with
  | int prim be expected derived => simp only [packFixedItem, packInt_alike h]
  | f32 | f64 => rw [h rfl]
  | bool expected =>
    cases expected with
    | some exp => rfl
    | none => rw [h rfl]
  | raw len expected =>
    cases expected with
    | some exp => rfl
    | none => rw [h rfl]

lemma packBitItem_alike {base bitOff : Nat} {item : BitItem} {v v' : Option Value} {ctx : PCtx}
    (h : !item.derived → v = v') :
    packBitItem base bitOff item v ctx = packBitItem base bitOff item v' ctx := by
  unfold packBitItem
  cases hd : item.derived with
  | true => rfl
  | false => rw [h (by rw [hd]; rfl)]

include hm hm'

lemma packFixedItems_alike {base : Nat} {items : List FixedItem} {ctx : PCtx}
    (h : ∀ item ∈ items, item.kind.isInput → entry m item.key = entry m' item.key) :
    packFixedItems base (viewOf m) items ctx = packFixedItems base (viewOf m') items ctx := by
  induction items generalizing ctx with
  | nil => rfl
  | cons item items ih =>
    have hitem : packFixedItem base item (lookup (viewOf m) item.key) ctx =
        packFixedItem base item (lookup (viewOf m') item.key) ctx := by
      apply packFixedItem_alike
      intro hi
      rw [lookup_viewOf hm, lookup_viewOf hm', h item (by simp) hi]
    rw [packFixedItems_cons, packFixedItems_cons, hitem]
    congr 1
    funext ctx
    exact ih fun i hi => h i (by simp [hi])

lemma packBitItems_alike {base bitOff : Nat} {items : List BitItem} {ctx : PCtx}
    (h : ∀ item ∈ items, !item.derived → entry m item.key = entry m' item.key) :
    packBitItems base (viewOf m) items bitOff ctx = packBitItems base (viewOf m') items bitOff ctx := by
  induction items generalizing bitOff ctx with
  | nil => rfl
  | cons item items ih =>
    have hitem : packBitItem base bitOff item (lookup (viewOf m) item.key) ctx =
        packBitItem base bitOff item (lookup (viewOf m') item.key) ctx := by
      apply packBitItem_alike
      intro hi
      rw [lookup_viewOf hm, lookup_viewOf hm', h item (by simp) hi]
    rw [packBitItems_cons, packBitItems_cons, hitem]
    congr 1
    funext ctx
    exact ih fun i hi => h i (by simp [hi])

lemma packField_alike {c : Common} {agrees : Agreement} {sem : PSem} {ctx : PCtx}
    (hs : Alike agrees sem) (h : entriesAgree c.key agrees m m' ctx) :
    packField c sem (viewOf m) ctx = packField c sem (viewOf m') ctx := by
  unfold packField
  cases hk : c.key.name with
  | none => rfl
  | some name =>
    simp only [Exec.expect_some, Exec.bind_ok, viewGet_value, viewOf_get hm, viewOf_get hm']
    simp only [entriesAgree, entry, hk, Option.bind_some] at h
    cases hv : (Value.map m).get name with
    | none =>
      cases hv' : (Value.map m').get name with
      | none => rfl
      | some v' => simp [hv, hv'] at h
    | some v =>
      cases hv' : (Value.map m').get name with
      | none => simp [hv, hv'] at h
      | some v' =>
        rw [hv, hv'] at h
        simp only [hs v v' ctx h]

omit hm hm'

lemma packElems_alike {agrees : Agreement} {sem : PSem} (hs : Alike agrees sem) {l l' : List Value}
    {i : Nat} {ctx : PCtx} (h : elemsAgree agrees sem l l' ctx) :
    packElems sem l i ctx = packElems sem l' i ctx := by
  induction l generalizing l' i ctx with
  | nil =>
    cases l' with
    | nil => rfl
    | cons v' l' => exact h.elim
  | cons v l ih =>
    cases l' with
    | nil => exact h.elim
    | cons v' l' =>
      obtain ⟨hv, hrest⟩ := h
      simp only [packElems, ← hs v v' ctx hv]
      cases hr : sem v ctx using Exec.cases_on with
      | ok next => exact ih (hrest next hr)
      | fail e => rfl
      | panic => rfl

lemma elemsAgree_length {agrees : Agreement} {sem : PSem} {l l' : List Value} {ctx end_ : PCtx} {i : Nat}
    (h : elemsAgree agrees sem l l' ctx) (hr : packElems sem l i ctx = .ok end_) :
    l.length = l'.length := by
  induction l generalizing l' i ctx with
  | nil =>
    cases l' with
    | nil => rfl
    | cons v' l' => exact h.elim
  | cons v l ih =>
    cases l' with
    | nil => exact h.elim
    | cons v' l' =>
      simp only [packElems, Exec.bind_eq_ok] at hr
      obtain ⟨next, hn, hr⟩ := hr
      rw [List.length_cons, List.length_cons, ih (h.2 next (Exec.mapErr_eq_ok.mp hn)) hr]

lemma packArray_alike {agrees : Agreement} {sem : PSem} (count : CountSrc) (hs : Alike agrees sem) :
    Alike (arrayAgrees agrees sem) (packArray count sem) := by
  rintro v v' ctx (rfl | ⟨l, l', rfl, rfl, h⟩)
  · rfl
  · simp only [packArray, Value.asList, ← packElems_alike hs h]
    cases hr : packElems sem l 0 ctx using Exec.cases_on with
    | ok next => rw [elemsAgree_length h hr]
    | fail e => rfl
    | panic => rfl

lemma packSwitch_alike (on : Expr) {branch : Int → Agreement} {sem : Int → Option PSem}
    (hs : ∀ tag, ∀ s ∈ sem tag, Alike (branch tag) s) :
    Alike (switchAgrees on branch) (packSwitch on sem) := by
  intro v v' ctx h
  unfold packSwitch
  cases hr : ctx.eval on using Exec.cases_on with
  | ok tag =>
    simp only [Exec.bind_ok]
    cases hb : sem tag with
    | none => rfl
    | some s => exact hs tag s hb v v' ctx (h tag hr)
  | fail e => rfl
  | panic => rfl

lemma packNest_alike {agrees : Agreement} {sem : PSem} (size : Option LenSrc) (hs : Alike agrees sem) :
    Alike agrees (packNest sem size) := by
  intro v v' ctx h
  unfold packNest
  rw [hs v v' ctx h]

end Alike

section Programs

variable (H : Hashes)

lemma casesAgree_alike {cases : List (Int × Op)} {default : Option Op}
    (hc : ∀ branch ∈ cases, Alike (branch.2.Agrees H) (packValue H branch.2))
    (hd : ∀ op ∈ default, Alike (op.Agrees H) (packValue H op)) (tag : Int) :
    ∀ s ∈ (packCase H cases tag).or (packDefault H default),
      Alike (casesAgree H (defaultAgrees H default) cases tag) s := by
  induction cases with
  | nil =>
    intro s hs
    cases default with
    | none => cases hs
    | some op =>
      obtain rfl : packValue H op = s := by simpa [packCase, packDefault] using hs
      simpa [casesAgree, defaultAgrees] using hd op rfl
  | cons branch cases ih =>
    obtain ⟨t, op⟩ := branch
    intro s hs
    rw [packCase] at hs
    rw [casesAgree]
    split_ifs at hs ⊢ with ht
    · obtain rfl : packValue H op = s := by simpa using hs
      exact hc (t, op) (by simp)
    · exact ih (fun b hb => hc b (by simp [hb])) s hs

/-- The field packs maps that agree alike. -/
def FieldAlike (op : Op) : Prop :=
  ∀ m m' ctx, (m.map Prod.fst).Nodup → (m'.map Prod.fst).Nodup → op.FieldAgrees H m m' ctx →
    packOp H op (viewOf m) ctx = packOp H op (viewOf m') ctx

lemma packOps_alike {ops : List Op} (hops : ∀ op ∈ ops, FieldAlike H op) {m m' : List (String × Value)}
    (hm : (m.map Prod.fst).Nodup) (hm' : (m'.map Prod.fst).Nodup) {ctx : PCtx}
    (h : opsAgree H ops m m' ctx) : packOps H ops (viewOf m) ctx = packOps H ops (viewOf m') ctx := by
  induction ops generalizing ctx with
  | nil => rfl
  | cons op ops ih =>
    obtain ⟨hop, hrest⟩ := h
    simp only [packOps, ← hops op (by simp) m m' ctx hm hm' hop]
    cases hr : packOp H op (viewOf m) ctx using Exec.cases_on with
    | ok next => exact ih (fun o ho => hops o (by simp [ho])) (hrest next hr)
    | fail e => rfl
    | panic => rfl

lemma eq_alike (sem : PSem) : Alike (fun v v' _ => v = v') sem := by
  rintro v v' ctx rfl
  rfl

lemma alike_cases : OpCases
    (fun op => Alike (op.Agrees H) (packValue H op) ∧ FieldAlike H op)
    (fun prog => Alike (prog.Agrees H) (packStruct H prog)) where
  fixed width items := by
    refine ⟨eq_alike _, fun m m' ctx hm hm' h => ?_⟩
    simp only [packOp, packFixedRun, packFixedItems_alike hm hm' h]
  bytes len max c := ⟨eq_alike _, fun m m' ctx hm hm' h => packField_alike hm hm' (eq_alike _) h⟩
  str len max enc c := ⟨eq_alike _, fun m m' ctx hm hm' h => packField_alike hm hm' (eq_alike _) h⟩
  cstr max enc c := ⟨eq_alike _, fun m m' ctx hm hm' h => packField_alike hm hm' (eq_alike _) h⟩
  bitRun nbytes items := by
    refine ⟨eq_alike _, fun m m' ctx hm hm' h => ?_⟩
    simp only [packOp, packBitRun, packBitItems_alike hm hm' h]
  flags prim be items rest restMask c :=
    ⟨eq_alike _, fun m m' ctx hm hm' h => packField_alike hm hm' (eq_alike _) h⟩
  digest algo overs verify be c := ⟨eq_alike _, fun _ _ _ _ _ _ => by rw [packOp]⟩
  nest prog size c hp := by
    have h : Alike (prog.Agrees H) (packNest (packStruct H prog) size) := packNest_alike size hp
    exact ⟨h, fun m m' ctx hm hm' => packField_alike hm hm' h⟩
  array count maxCount elem elemMin c he := by
    have h := packArray_alike count he.1
    exact ⟨h, fun m m' ctx hm hm' => packField_alike hm hm' h⟩
  switch on cases default c hc hd := by
    have h := packSwitch_alike on
      (casesAgree_alike H (fun b hb => (hc b hb).1) fun o ho => (hd o ho).1)
    exact ⟨h, fun m m' ctx hm hm' => packField_alike hm hm' h⟩
  cond pred thn c ht := by
    refine ⟨eq_alike _, fun m m' ctx hm hm' h => ?_⟩
    simp only [packOp, packCond]
    cases hr : ctx.eval pred using Exec.cases_on with
    | ok p =>
      simp only [Exec.bind_ok]
      split_ifs with hp
      · exact packField_alike hm hm' ht.1 (h p hr hp)
      · rfl
    | fail e => rfl
    | panic => rfl
  prog ops nregs nspans minSize staticSize ho := by
    rintro v v' ctx (rfl | ⟨m, m', rfl, rfl, hm, hm', h⟩)
    · rfl
    · simp only [packStruct, withPFrame, mapView_map,
        packOps_alike H (fun op hop => (ho op hop).2) hm hm' h]

/-- Pack depends only on the inputs: on values that agree it does the same, with the same
bytes or the same error. -/
theorem packRun_agrees (prog : Program) (v v' : Value)
    (h : prog.Agrees H v v' { out := [], frames := [] }) : packRun H prog v = packRun H prog v' := by
  unfold packRun
  rw [(alike_cases H).program prog v v' _ h]

/-- The derived length and an unknown key may be anything, or missing. -/
theorem packRun_agrees_counted :
    packRun .blank counted (.map [("n", .str "x"), ("data", .bytes [7, 8]), ("extra", .unsupported)]) =
      packRun .blank counted (.map [("data", .bytes [7, 8])]) := by
  apply packRun_agrees
  refine .inr ⟨_, _, rfl, rfl, by decide, by decide, ?_, fun next _ => ⟨?_, fun _ _ => trivial⟩⟩
  · intro item hi hinput
    obtain rfl := List.mem_singleton.mp hi
    cases hinput
  · exact rfl

end Programs

end Rustruct

import Rustruct.Inheritance

/-!
# Inherited wire fields

The dictionary that collects the fields of a class goes through its direct bases, and each base replaces
what the ones before it had of a name. The method resolution order may put the bases' ancestors in another
order. Which names a class has does not depend on that, only whose declaration it keeps.
-/

namespace Rustruct.Inheritance

variable {α : Type}

/-- The field of a name. -/
def wireField (fields : List (FieldDecl α)) (name : String) : Option (FieldDecl α) := fields.find? (·.name = name)

/-- What a class declares for a name itself. -/
def declaredBy (h : Hierarchy α) (c : Nat) (name : String) : Option (FieldDecl α) :=
  (h[c]?).bind fun k => k.own.get name

/-- The declaration of the first class in the order that declares the name. -/
def firstDeclared (h : Hierarchy α) (mro : List Nat) (name : String) : Option (FieldDecl α) :=
  mro.findSome? fun c => declaredBy h c name

/-- The method resolution order of a class. -/
def orderOf (h : Hierarchy α) (c : Nat) : List Nat := ((h[c]?).map Class.mro).getD []

/-- The last of the bases that has the name. -/
def lastWith (h : Hierarchy α) (bases : List Nat) (name : String) : Option Nat :=
  bases.reverse.find? fun b => (firstDeclared h (orderOf h b) name).isSome

/-- The field a class keeps for a name. -/
def kept (h : Hierarchy α) (c : Nat) (name : String) : Option (FieldDecl α) :=
  (h[c]?).bind fun k => wireField k.wireFields name

lemma nextInOrder_mem {orders : List (List Nat)} {c : Nat} (h : nextInOrder orders = some c) :
    ∃ order ∈ orders, order.head? = some c := by
  have hmem := List.mem_of_find?_eq_some h
  rwa [List.mem_filterMap] at hmem

lemma mem_of_all_empty {orders : List (List Nat)} (hall : orders.all List.isEmpty) (m : Nat) :
    m ∈ ([] : List Nat) ↔ ∃ order ∈ orders, m ∈ order := by
  simp only [List.all_eq_true, List.isEmpty_iff] at hall
  constructor
  · intro hm
    cases hm
  · rintro ⟨order, horder, hm⟩
    rw [hall order horder] at hm
    exact hm

/-- A merge has the classes of all lists. -/
lemma mem_mergeOrders {n : Nat} {orders : List (List Nat)} {mro : List Nat} (h : mergeOrders n orders = some mro)
    (m : Nat) : m ∈ mro ↔ ∃ order ∈ orders, m ∈ order := by
  induction n generalizing orders mro with
  | zero =>
    rw [mergeOrders] at h
    split_ifs at h with hall
    cases h
    exact mem_of_all_empty hall m
  | succ n ih =>
    rw [mergeOrders] at h
    split_ifs at h with hall
    · cases h
      exact mem_of_all_empty hall m
    · simp only [Option.bind_eq_bind, Option.bind_eq_some_iff, Option.some.injEq] at h
      obtain ⟨c, hc, rest, hrest, rfl⟩ := h
      rw [List.mem_cons, ih hrest]
      constructor
      · rintro (rfl | ⟨reduced, hreduced, hm⟩)
        · obtain ⟨order, horder, hhead⟩ := nextInOrder_mem hc
          exact ⟨order, horder, List.mem_of_mem_head? hhead⟩
        · obtain ⟨order, horder, rfl⟩ := List.mem_map.mp hreduced
          refine ⟨order, horder, ?_⟩
          split_ifs at hm
          · exact List.mem_of_mem_tail hm
          · exact hm
      · rintro ⟨order, horder, hm⟩
        by_cases hmc : m = c
        · exact .inl hmc
        · right
          refine ⟨_, List.mem_map_of_mem horder, ?_⟩
          split_ifs with hhead
          · obtain ⟨tail, rfl⟩ := List.head?_eq_some_iff.mp hhead
            exact (List.mem_cons.mp hm).resolve_left hmc
          · exact hm

/-- Every base exists when they all have an order. -/
lemma orders_spec {h : Hierarchy α} {bases : List Nat} {orders : List (List Nat)}
    (horders : bases.mapM (fun b => (h[b]?).map Class.mro) = some orders) :
    (∀ b ∈ bases, b < h.length) ∧ orders = bases.map (orderOf h) := by
  induction bases generalizing orders with
  | nil =>
    cases horders
    exact ⟨fun b hb => (List.not_mem_nil hb).elim, rfl⟩
  | cons b bases ih =>
    simp only [List.mapM_cons, Option.bind_eq_bind, Option.bind_eq_some_iff, Option.pure_def,
      Option.some.injEq] at horders
    obtain ⟨order, horder, orders, hrest, rfl⟩ := horders
    obtain ⟨hlt, rfl⟩ := ih hrest
    obtain ⟨k, hk, rfl⟩ := Option.map_eq_some_iff.mp horder
    have hb : b < h.length := (List.getElem?_eq_some_iff.mp hk).1
    refine ⟨fun b' hb' => (List.mem_cons.mp hb').elim (fun heq => heq ▸ hb) (hlt b'), ?_⟩
    rw [List.map_cons, orderOf, hk]
    rfl

/-- The order of a class has the class first, and after it the bases and the classes of their orders. -/
lemma resolutionOrder_spec {h : Hierarchy α} {c : Nat} {bases mro : List Nat}
    (hmro : resolutionOrder h c bases = some mro) :
    (∀ b ∈ bases, b < h.length) ∧ ∃ rest, mro = c :: rest ∧
      ∀ m, m ∈ rest ↔ m ∈ bases ∨ ∃ b ∈ bases, m ∈ orderOf h b := by
  rw [resolutionOrder] at hmro
  simp only [Option.bind_eq_bind, Option.bind_eq_some_iff] at hmro
  obtain ⟨orders, horders, hmro⟩ := hmro
  obtain ⟨hlt, rfl⟩ := orders_spec horders
  split_ifs at hmro
  obtain ⟨rest, hrest, hmro⟩ := Option.bind_eq_some_iff.mp hmro
  cases hmro
  refine ⟨hlt, rest, rfl, fun m => ?_⟩
  rw [mem_mergeOrders hrest]
  simp only [List.mem_append, List.mem_map, List.mem_singleton]
  constructor
  · rintro ⟨order, ⟨b, hb, rfl⟩ | rfl, hm⟩
    · exact .inr ⟨b, hb, hm⟩
    · exact .inl hm
  · rintro (hm | ⟨b, hb, hm⟩)
    · exact ⟨bases, .inr rfl, hm⟩
    · exact ⟨_, .inl ⟨b, hb, rfl⟩, hm⟩

/-- Every field is under its own name. -/
def Keyed (fields : Fields α) : Prop := ∀ entry ∈ fields.entries, entry.2.name = entry.1

/-- The entries a class brings to those that inherit from it. -/
def named (fields : List (FieldDecl α)) : List (String × FieldDecl α) := fields.map fun f => (f.name, f)

lemma find_named (fields : List (FieldDecl α)) (name : String) :
    OrderedDict.find (named fields) name = wireField fields name := by
  rw [OrderedDict.find, named, List.find?_map, Option.map_map]
  exact congrFun Option.map_id _

lemma Keyed.values {fields : Fields α} (h : Keyed fields) : named fields.values = fields.entries := by
  rw [named, OrderedDict.values, List.map_map]
  conv_rhs => rw [← List.map_id fields.entries]
  apply List.map_congr_left
  intro entry he
  rw [Function.comp_apply, h entry he]
  rfl

lemma Keyed.wireField {fields : Fields α} (h : Keyed fields) (name : String) :
    wireField fields.values name = fields.get name := by
  rw [← find_named, h.values]
  rfl

lemma Keyed.nodup {fields : Fields α} (h : Keyed fields) : (fields.values.map FieldDecl.name).Nodup := by
  have hnames : fields.values.map FieldDecl.name = fields.entries.map Prod.fst := by
    rw [← h.values, named, List.map_map]
    rfl
  rw [hnames]
  exact fields.unique

lemma Keyed.update {fields : Fields α} (h : Keyed fields) {entries : List (String × FieldDecl α)}
    (hentries : ∀ entry ∈ entries, entry.2.name = entry.1) : Keyed (fields.update entries) := by
  intro entry he
  rcases OrderedDict.mem_update he with hnew | hold
  · exact hentries entry hnew
  · exact h entry hold

lemma named_keyed (fields : List (FieldDecl α)) : ∀ entry ∈ named fields, entry.2.name = entry.1 := by
  intro entry he
  obtain ⟨f, -, rfl⟩ := List.mem_map.mp he
  rfl

lemma keyed_empty : Keyed (OrderedDict.empty : Fields α) := fun _ he => (List.not_mem_nil he).elim

lemma declare_name (body : List (String × Assigned α)) (a : Annotated α) : (declare body a).name = a.name := by
  rw [declare]
  split <;> rfl

lemma keyed_own (d : ClassDef α) : Keyed d.own := by
  apply keyed_empty.update
  intro entry he
  obtain ⟨a, -, rfl⟩ := List.mem_map.mp he
  exact declare_name d.body a

/-- The fields of the bases, one base after another. -/
def basesFields (h : Hierarchy α) (bases : List Nat) (fields : Fields α) : Fields α :=
  bases.foldl (fun fields b => fields.update (named (((h[b]?).map Class.wireFields).getD []))) fields

lemma buildWireFields_eq (h : Hierarchy α) (own : Fields α) (bases : List Nat) :
    buildWireFields h own bases = (basesFields h bases OrderedDict.empty).update own.entries := rfl

lemma keyed_basesFields (h : Hierarchy α) (bases : List Nat) {fields : Fields α} (hkeyed : Keyed fields) :
    Keyed (basesFields h bases fields) := by
  induction bases generalizing fields with
  | nil => exact hkeyed
  | cons b bases ih => exact ih (hkeyed.update (named_keyed _))

lemma keyed_buildWireFields (h : Hierarchy α) {own : Fields α} (hown : Keyed own) (bases : List Nat) :
    Keyed (buildWireFields h own bases) :=
  (keyed_basesFields h bases keyed_empty).update hown

/-- A name is kept from the last base that has it. -/
lemma get_basesFields {h : Hierarchy α} (hnames : ∀ k ∈ h, (k.wireFields.map FieldDecl.name).Nodup)
    (bases : List Nat) (fields : Fields α) (name : String) :
    (basesFields h bases fields).get name =
      (bases.reverse.findSome? fun b => kept h b name).or (fields.get name) := by
  induction bases generalizing fields with
  | nil => rfl
  | cons b bases ih =>
    have hfind : OrderedDict.find (named (((h[b]?).map Class.wireFields).getD [])).reverse name = kept h b name := by
      rw [kept]
      cases hk : h[b]? with
      | none => rfl
      | some k =>
        have hkeys : (named k.wireFields).map Prod.fst = k.wireFields.map FieldDecl.name := by
          rw [named, List.map_map]
          rfl
        rw [Option.map_some, Option.getD_some, Option.bind_some, OrderedDict.find_reverse, find_named]
        rw [hkeys]
        exact hnames k (List.mem_of_getElem? hk)
    have hcons : basesFields h (b :: bases) fields =
        basesFields h bases (fields.update (named (((h[b]?).map Class.wireFields).getD []))) := rfl
    rw [hcons, ih, OrderedDict.get_update, hfind, List.reverse_cons, List.findSome?_append, Option.or_assoc]
    congr 1
    rw [List.findSome?_singleton]

lemma get_buildWireFields {h : Hierarchy α} (hnames : ∀ k ∈ h, (k.wireFields.map FieldDecl.name).Nodup)
    (own : Fields α) (bases : List Nat) (name : String) :
    (buildWireFields h own bases).get name =
      (own.get name).or (bases.reverse.findSome? fun b => kept h b name) := by
  rw [buildWireFields_eq, OrderedDict.get_update, OrderedDict.find_entries, get_basesFields hnames,
    OrderedDict.get_empty, Option.or_none]

/-- What is known of the class at `c`. -/
structure Made (h : Hierarchy α) (c : Nat) (k : Class α) : Prop where
  names : (k.wireFields.map FieldDecl.name).Nodup
  bases_lt : ∀ b ∈ k.bases, b < c
  order : ∃ rest, k.mro = c :: rest ∧ ∀ m, m ∈ rest ↔ m ∈ k.bases ∨ ∃ b ∈ k.bases, m ∈ orderOf h b
  fields : ∀ name, wireField k.wireFields name =
    (k.own.get name).or (k.bases.reverse.findSome? fun b => kept h b name)

def AllMade (h : Hierarchy α) : Prop := ∀ c k, h[c]? = some k → Made h c k

section Append

variable (h : Hierarchy α) (k' : Class α) {b : Nat}

lemma orderOf_append (hb : b < h.length) : orderOf (h ++ [k']) b = orderOf h b := by
  rw [orderOf, List.getElem?_append_left hb]
  rfl

lemma kept_append (hb : b < h.length) (name : String) : kept (h ++ [k']) b name = kept h b name := by
  rw [kept, List.getElem?_append_left hb]
  rfl

/-- A class created later changes nothing of what an earlier one has. -/
lemma Made.append {c : Nat} {k : Class α} (hmade : Made h c k) (hc : c ≤ h.length) : Made (h ++ [k']) c k := by
  obtain ⟨rest, hmro, hrest⟩ := hmade.order
  have hlt (b : Nat) (hb : b ∈ k.bases) : b < h.length := Nat.lt_of_lt_of_le (hmade.bases_lt b hb) hc
  refine ⟨hmade.names, hmade.bases_lt, ⟨rest, hmro, fun m => ?_⟩, fun name => ?_⟩
  · rw [hrest]
    apply or_congr_right
    apply exists_congr
    intro b
    apply and_congr_right
    intro hb
    rw [orderOf_append h k' (hlt b hb)]
  · rw [hmade.fields]
    congr 1
    have hbases (bases : List Nat) (hin : ∀ b ∈ bases, b < h.length) :
        (bases.findSome? fun b => kept h b name) = bases.findSome? fun b => kept (h ++ [k']) b name := by
      induction bases with
      | nil => rfl
      | cons b bases ih =>
        rw [List.findSome?_cons, List.findSome?_cons, kept_append h k' (hin b List.mem_cons_self),
          ih fun b' hb' => hin b' (List.mem_cons_of_mem b hb')]
    exact hbases _ fun b hb => hlt b (List.mem_reverse.mp hb)

end Append

lemma newClass_made {h h' : Hierarchy α} {d : ClassDef α} (hmade : AllMade h) (hnew : newClass h d = some h') :
    AllMade h' := by
  rw [newClass] at hnew
  simp only [Option.bind_eq_bind, Option.bind_eq_some_iff, Option.some.injEq] at hnew
  obtain ⟨mro, hmro, rfl⟩ := hnew
  obtain ⟨hlt, horder⟩ := resolutionOrder_spec hmro
  have hnames (k : Class α) (hk : k ∈ h) : (k.wireFields.map FieldDecl.name).Nodup := by
    obtain ⟨c, hc⟩ := List.getElem?_of_mem hk
    exact (hmade c k hc).names
  have hkeyed := keyed_buildWireFields h (keyed_own d) d.bases
  have hself : Made h h.length
      { bases := d.bases, own := d.own, mro, wireFields := (buildWireFields h d.own d.bases).values } :=
    ⟨hkeyed.nodup, hlt, horder, fun name => by rw [hkeyed.wireField, get_buildWireFields hnames]⟩
  intro c k hk
  by_cases hc : c < h.length
  · rw [List.getElem?_append_left hc] at hk
    exact (hmade c k hk).append _ _ (Nat.le_of_lt hc)
  · have hlen := (List.getElem?_eq_some_iff.mp hk).1
    rw [List.length_append, List.length_singleton] at hlen
    obtain rfl : c = h.length := by omega
    rw [List.getElem?_concat_length, Option.some.injEq] at hk
    rw [← hk]
    exact hself.append _ _ (Nat.le_refl _)

lemma create_made {defs : List (ClassDef α)} {h : Hierarchy α} (hcreate : create defs = some h) : AllMade h := by
  have hrun (defs : List (ClassDef α)) (h₀ : Hierarchy α) (hmade : AllMade h₀)
      (hfold : defs.foldlM newClass h₀ = some h) : AllMade h := by
    induction defs generalizing h₀ with
    | nil =>
      cases hfold
      exact hmade
    | cons d defs ih =>
      rw [List.foldlM_cons] at hfold
      obtain ⟨h₁, hnew, hrest⟩ := Option.bind_eq_some_iff.mp hfold
      exact ih h₁ (newClass_made hmade hnew) hrest
  apply hrun defs [] _ hcreate
  intro c k hk
  cases hk

section Made

variable {h : Hierarchy α} (hmade : AllMade h)
include hmade

lemma mem_orderOf {c : Nat} {k : Class α} (hk : h[c]? = some k) (m : Nat) :
    m ∈ orderOf h c ↔ m = c ∨ ∃ b ∈ k.bases, m ∈ orderOf h b := by
  have hself (c : Nat) (hc : c < h.length) : c ∈ orderOf h c := by
    obtain ⟨rest, hmro, -⟩ := (hmade c h[c] (List.getElem?_eq_getElem hc)).order
    rw [orderOf, List.getElem?_eq_getElem hc, Option.map_some, Option.getD_some, hmro]
    exact List.mem_cons_self
  have hlen := (List.getElem?_eq_some_iff.mp hk).1
  obtain ⟨rest, hmro, hrest⟩ := (hmade c k hk).order
  have horder : orderOf h c = c :: rest := by rw [orderOf, hk, Option.map_some, Option.getD_some, hmro]
  rw [horder, List.mem_cons, hrest]
  apply or_congr_right
  constructor
  · rintro (hb | hin)
    · exact ⟨m, hb, hself m (Nat.lt_trans ((hmade c k hk).bases_lt m hb) hlen)⟩
    · exact hin
  · exact .inr

/-- A class has the names that some class of its order declares. -/
lemma kept_isSome (c : Nat) (name : String) :
    (kept h c name).isSome ↔ (firstDeclared h (orderOf h c) name).isSome := by
  have hfirst (c : Nat) : (firstDeclared h (orderOf h c) name).isSome ↔
      ∃ m ∈ orderOf h c, (declaredBy h m name).isSome := by
    rw [firstDeclared, List.isSome_findSome?, List.any_eq_true]
  induction c using Nat.strongRecOn with
  | ind c ih =>
    rw [hfirst]
    cases hk : h[c]? with
    | none => simp [kept, orderOf, hk]
    | some k =>
      have hown : declaredBy h c name = k.own.get name := by rw [declaredBy, hk, Option.bind_some]
      rw [kept, hk, Option.bind_some, (hmade c k hk).fields, Option.isSome_or, Bool.or_eq_true,
        List.isSome_findSome?, List.any_eq_true]
      simp only [mem_orderOf hmade hk, List.mem_reverse]
      constructor
      · rintro (hsome | ⟨b, hb, hsome⟩)
        · exact ⟨c, .inl rfl, by rwa [hown]⟩
        · obtain ⟨m, hm, hdecl⟩ := (hfirst b).mp ((ih b ((hmade c k hk).bases_lt b hb)).mp hsome)
          exact ⟨m, .inr ⟨b, hb, hm⟩, hdecl⟩
      · rintro ⟨m, rfl | ⟨b, hb, hm⟩, hdecl⟩
        · exact .inl (by rwa [hown] at hdecl)
        · exact .inr ⟨b, hb, (ih b ((hmade c k hk).bases_lt b hb)).mpr ((hfirst b).mpr ⟨m, hm, hdecl⟩)⟩

/-- A name that is not declared again is kept from the last base that has it. -/
lemma inherited {c : Nat} {k : Class α} (hk : h[c]? = some k) {name : String} (hown : k.own.get name = none) :
    wireField k.wireFields name = (lastWith h k.bases name).bind fun b => kept h b name := by
  have hfind (bases : List Nat) : (bases.findSome? fun b => kept h b name) =
      (bases.find? fun b => (firstDeclared h (orderOf h b) name).isSome).bind fun b => kept h b name := by
    induction bases with
    | nil => rfl
    | cons b bases ih =>
      have hsome := kept_isSome hmade b name
      rw [List.findSome?_cons, List.find?_cons]
      cases hb : kept h b name with
      | none =>
        rw [hb] at hsome
        have hnone : (firstDeclared h (orderOf h b) name).isSome = false :=
          Bool.eq_false_iff.mpr fun hfirst => Bool.false_ne_true (hsome.mpr hfirst)
        rw [hnone]
        exact ih
      | some f =>
        rw [hb] at hsome
        rw [hsome.mp rfl]
        exact hb.symm
  rw [(hmade c k hk).fields, hown, Option.none_or, hfind]
  rfl

/-- A class's own declaration is the first in its order. -/
lemma firstDeclared_own {c : Nat} {k : Class α} (hk : h[c]? = some k) {name : String} {f : FieldDecl α}
    (hown : k.own.get name = some f) : firstDeclared h k.mro name = some f := by
  obtain ⟨rest, hmro, -⟩ := (hmade c k hk).order
  have hdecl : declaredBy h c name = some f := by rw [declaredBy, hk, Option.bind_some, hown]
  rw [firstDeclared, hmro, List.findSome?_cons, hdecl]

end Made

/-- No name occurs twice among the fields of a class. In every class the field of a name is what the first
class along the method resolution order declares for it exactly when, wherever a class has the name without
declaring it, the first declaration along its order is also the first along the order of the last direct
base that has the name. -/
theorem create_wireFields {defs : List (ClassDef α)} {h : Hierarchy α} (hcreate : create defs = some h) :
    (∀ k ∈ h, (k.wireFields.map FieldDecl.name).Nodup) ∧
      ∀ name, (∀ k ∈ h, wireField k.wireFields name = firstDeclared h k.mro name) ↔
        ∀ k ∈ h, k.own.get name = none → ∀ b, lastWith h k.bases name = some b →
          firstDeclared h k.mro name = firstDeclared h (orderOf h b) name := by
  have hmade := create_made hcreate
  have hall {p : Class α → Prop} : (∀ k ∈ h, p k) ↔ ∀ (c : Nat) (k : Class α), h[c]? = some k → p k := by
    constructor
    · exact fun hp c k hk => hp k (List.mem_of_getElem? hk)
    · intro hp k hk
      obtain ⟨c, hc⟩ := List.getElem?_of_mem hk
      exact hp c k hc
  have hkept {c : Nat} {k : Class α} (hk : h[c]? = some k) (name : String) :
      kept h c name = wireField k.wireFields name ∧ orderOf h c = k.mro := by
    rw [kept, orderOf, hk]
    exact ⟨rfl, rfl⟩
  have hbase {c : Nat} {k : Class α} (hk : h[c]? = some k) {name : String} {b : Nat}
      (hlast : lastWith h k.bases name = some b) : b < c ∧ ∃ kb, h[b]? = some kb := by
    have hb := (hmade c k hk).bases_lt b (List.mem_reverse.mp (List.mem_of_find?_eq_some hlast))
    exact ⟨hb, _, List.getElem?_eq_getElem (Nat.lt_trans hb (List.getElem?_eq_some_iff.mp hk).1)⟩
  refine ⟨hall.mpr fun c k hk => (hmade c k hk).names, fun name => ?_⟩
  rw [hall, hall]
  constructor
  · intro hfirst c k hk hown b hlast
    obtain ⟨-, kb, hkb⟩ := hbase hk hlast
    rw [← hfirst c k hk, inherited hmade hk hown, hlast, Option.bind_some, (hkept hkb name).1, hfirst b kb hkb,
      (hkept hkb name).2]
  · intro hsame c
    induction c using Nat.strongRecOn with
    | ind c ih =>
      intro k hk
      cases hown : k.own.get name with
      | some f => rw [firstDeclared_own hmade hk hown, (hmade c k hk).fields, hown, Option.some_or]
      | none =>
        rw [inherited hmade hk hown]
        cases hlast : lastWith h k.bases name with
        | none =>
          have hnone : ¬(kept h c name).isSome := by
            rw [(hkept hk name).1, inherited hmade hk hown, hlast]
            exact Bool.false_ne_true
          rw [kept_isSome hmade, (hkept hk name).2, Bool.not_eq_true, Option.isSome_eq_false_iff,
            Option.isNone_iff_eq_none] at hnone
          rw [hnone]
          rfl
        | some b =>
          obtain ⟨hb, kb, hkb⟩ := hbase hk hlast
          rw [Option.bind_some, hsame c k hk hown b hlast, (hkept hkb name).1, (hkept hkb name).2, ih b hb kb hkb]

/-- A class whose annotations are the kinds of its fields. -/
def classWith (bases : List Nat) (fields : List (String × String)) : ClassDef String :=
  { bases, annotations := fields.map fun f => { name := f.1, written := f.2, isClassVar := false }, body := [] }

def fieldOf (name kind : String) : FieldDecl String :=
  declare [] { name, written := kind, isClassVar := false }

/-- A field that is declared again in a subclass. -/
theorem create_wireFields_redeclared :
    ∃ h, create [classWith [] [("x", "u8"), ("y", "u8")], classWith [0] [("x", "u16")]] = some h ∧
      (∀ k ∈ h, (k.wireFields.map FieldDecl.name).Nodup) ∧
        ∀ name, (∀ k ∈ h, wireField k.wireFields name = firstDeclared h k.mro name) ↔
          ∀ k ∈ h, k.own.get name = none → ∀ b, lastWith h k.bases name = some b →
            firstDeclared h k.mro name = firstDeclared h (orderOf h b) name := by
  have hcreate : create [classWith [] [("x", "u8"), ("y", "u8")], classWith [0] [("x", "u16")]] = some _ := rfl
  exact ⟨_, hcreate, create_wireFields hcreate⟩

/-- In a diamond the field that the first base declares again is kept as the second base inherited it. -/
theorem create_diamond :
    ∃ h k, create [classWith [] [("x", "u8")], classWith [0] [("x", "u16")], classWith [0] [], classWith [1, 2] []] =
        some h ∧
      h[3]? = some k ∧ k.mro = [3, 1, 2, 0] ∧ wireField k.wireFields "x" = some (fieldOf "x" "u8") ∧
      firstDeclared h k.mro "x" = some (fieldOf "x" "u16") ∧ fieldOf "x" "u8" ≠ fieldOf "x" "u16" := by
  refine ⟨_, _, rfl, rfl, rfl, rfl, rfl, ?_⟩
  intro heq
  have hspec := congrArg FieldDecl.valueSpec heq
  simp [fieldOf, declare, OrderedDict.find] at hspec

end Rustruct.Inheritance

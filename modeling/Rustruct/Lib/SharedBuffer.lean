import Mathlib.Tactic.Common

/-!
# Records in a shared buffer

A record is read where it stands in a longer buffer, by readers that are told where it ends. What they make of
it is the same in all buffers that begin with it when its parts end in it, or when it has a fault that no such
part has. A record that is read, and read the same in all these buffers, has its parts in it.
-/

/-- A reader of a part of a record: `read stop buf pos` is a value and where the next part begins. `Ends record
pos stop` says that the part ends at `stop`, inside a record that ends with the list, and `Faulty record pos`
that the record has what no such part has. -/
structure PartReader (β α : Type) where
  read : Nat → List β → Nat → Option (α × Nat)
  Ends : List β → Nat → Nat → Prop
  Faulty : List β → Nat → Prop
  ends : ∀ {record pos stop}, Ends record pos stop →
    ∃ a, ∀ t, read record.length (record ++ t) pos = some (a, stop)
  faulty : ∀ {record pos}, Faulty record pos → ∀ t, read record.length (record ++ t) pos = none
  tight : ∀ {record pos a}, (∀ t, ∃ next, read record.length (record ++ t) pos = some (a, next)) →
    ∃ stop, Ends record pos stop

namespace PartReader

variable {β α γ : Type}

def value (r : PartReader β α) (stop : Nat) (buf : List β) (pos : Nat) : Option α :=
  (r.read stop buf pos).map Prod.fst

/-- The part ends inside the record, or the record has a fault. -/
def Settled (r : PartReader β α) (record : List β) (pos : Nat) : Prop :=
  (∃ stop, r.Ends record pos stop) ∨ r.Faulty record pos

variable {r : PartReader β α} {n pos : Nat} {buf : List β}

lemma value_eq_some {stop : Nat} {a : α} :
    r.value stop buf pos = some a ↔ ∃ next, r.read stop buf pos = some (a, next) := by
  rw [value, Option.map_eq_some_iff]
  constructor
  · rintro ⟨⟨a, next⟩, h, rfl⟩
    exact ⟨next, h⟩
  · rintro ⟨next, h⟩
    exact ⟨(a, next), h, rfl⟩

/-- A settled part does not depend on what follows the record. -/
lemma Settled.value_append {record : List β} (h : r.Settled record pos) (t t' : List β) :
    r.value record.length (record ++ t) pos = r.value record.length (record ++ t') pos := by
  rcases h with ⟨stop, h⟩ | h
  · obtain ⟨a, ha⟩ := r.ends h
    rw [value, value, ha, ha]
  · rw [value, value, r.faulty h, r.faulty h]

/-- It is the same in all buffers that agree on the record. -/
theorem Settled.value_take (hn : n ≤ buf.length) (h : r.Settled (buf.take n) pos) {buf' : List β}
    (hagree : buf'.take n = buf.take n) : r.value n buf' pos = r.value n buf pos := by
  have hlen : (buf.take n).length = n := List.length_take_of_le hn
  have hsame := h.value_append (buf'.drop n) (buf.drop n)
  rwa [hlen, ← hagree, List.take_append_drop, hagree, List.take_append_drop] at hsame

/-- What is read, and the same in all these buffers, ends inside the record. -/
theorem ends_of_value_take (hn : n ≤ buf.length)
    (hagree : ∀ buf', buf'.take n = buf.take n → r.value n buf' pos = r.value n buf pos)
    (hread : (r.value n buf pos).isSome) : ∃ stop, r.Ends (buf.take n) pos stop := by
  have hlen : (buf.take n).length = n := List.length_take_of_le hn
  obtain ⟨a, ha⟩ := Option.isSome_iff_exists.mp hread
  apply r.tight (a := a)
  intro t
  rw [hlen]
  apply value_eq_some.mp
  rw [hagree _ (List.take_left' hlen), ha]

/-! ### Readers -/

/-- One part after the other. -/
def both (r : PartReader β α) (r' : PartReader β γ) : PartReader β (α × γ) where
  read stop buf pos := (r.read stop buf pos).bind fun x => (r'.read stop buf x.2).map fun y => ((x.1, y.1), y.2)
  Ends record pos stop := ∃ mid, r.Ends record pos mid ∧ r'.Ends record mid stop
  Faulty record pos := r.Faulty record pos ∨ ∃ mid, r.Ends record pos mid ∧ r'.Faulty record mid
  ends {record pos stop} h := by
    obtain ⟨mid, h, h'⟩ := h
    obtain ⟨a, ha⟩ := r.ends h
    obtain ⟨c, hc⟩ := r'.ends h'
    refine ⟨(a, c), fun t => ?_⟩
    rw [ha t, Option.bind_some, hc t]
    rfl
  faulty {record pos} h t := by
    rcases h with h | ⟨mid, h, h'⟩
    · rw [r.faulty h t]
      rfl
    · obtain ⟨a, ha⟩ := r.ends h
      rw [ha t, Option.bind_some, r'.faulty h' t]
      rfl
  tight {record pos a} h := by
    have hboth (t : List β) : ∃ x y, r.read record.length (record ++ t) pos = some x ∧
        r'.read record.length (record ++ t) x.2 = some y ∧ a = (x.1, y.1) := by
      obtain ⟨next, h⟩ := h t
      obtain ⟨x, hx, h⟩ := Option.bind_eq_some_iff.mp h
      obtain ⟨y, hy, h⟩ := Option.map_eq_some_iff.mp h
      exact ⟨x, y, hx, hy, (congrArg Prod.fst h).symm⟩
    obtain ⟨mid, hfirst⟩ : ∃ mid, r.Ends record pos mid := by
      apply r.tight (a := a.1)
      intro t
      obtain ⟨x, y, hx, -, rfl⟩ := hboth t
      exact ⟨x.2, hx⟩
    obtain ⟨b, hb⟩ := r.ends hfirst
    obtain ⟨stop, hsecond⟩ : ∃ stop, r'.Ends record mid stop := by
      apply r'.tight (a := a.2)
      intro t
      obtain ⟨x, y, hx, hy, rfl⟩ := hboth t
      rw [hb t] at hx
      cases hx
      exact ⟨y.2, hy⟩
    exact ⟨stop, mid, hfirst, hsecond⟩

/-- What is left of the record. -/
def rest : PartReader β (List β) where
  read stop buf pos := some ((buf.drop pos).take (stop - pos), stop)
  Ends record _ stop := stop = record.length
  Faulty _ _ := False
  ends {record pos stop} h := by
    refine ⟨record.drop pos, fun t => ?_⟩
    obtain rfl : stop = record.length := h
    have hlen : (record.drop pos).length = record.length - pos := List.length_drop
    by_cases hpos : pos ≤ record.length
    · rw [List.drop_append_of_le_length hpos, List.take_left' hlen]
    · have hzero : record.length - pos = 0 := by omega
      rw [hzero, List.take_zero, List.drop_eq_nil_of_le (by omega)]
  faulty h := h.elim
  tight _ := ⟨_, rfl⟩

end PartReader

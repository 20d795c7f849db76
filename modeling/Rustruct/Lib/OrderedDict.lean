import Mathlib.Tactic.Common
import Mathlib.Data.List.Nodup

/-!
# Dictionaries in insertion order

An entry that is set again keeps its place and changes its value. Setting several entries in turn leaves
the last value of each key.
-/

/-- Entries in the order their keys were first set. -/
structure OrderedDict (κ β : Type) where
  entries : List (κ × β)
  unique : (entries.map Prod.fst).Nodup

namespace OrderedDict

variable {κ β : Type} [DecidableEq κ]

def empty : OrderedDict κ β := ⟨[], List.nodup_nil⟩

def find (entries : List (κ × β)) (k : κ) : Option β := (entries.find? fun e => e.1 = k).map Prod.snd

def get (d : OrderedDict κ β) (k : κ) : Option β := find d.entries k

def values (d : OrderedDict κ β) : List β := d.entries.map Prod.snd

lemma find_append (a b : List (κ × β)) (k : κ) : find (a ++ b) k = (find a k).or (find b k) := by
  rw [find, List.find?_append, Option.map_or]
  rfl

def setEntry : List (κ × β) → κ → β → List (κ × β)
  | [], k, v => [(k, v)]
  | e :: entries, k, v => if e.1 = k then (k, v) :: entries else e :: setEntry entries k v

lemma mem_keys_setEntry (entries : List (κ × β)) (k : κ) (v : β) (k' : κ) :
    k' ∈ (setEntry entries k v).map Prod.fst ↔ k' = k ∨ k' ∈ entries.map Prod.fst := by
  induction entries with
  | nil => simp [setEntry]
  | cons e entries ih =>
    rw [setEntry]
    split_ifs with h
    · subst h
      simp only [List.map_cons, List.mem_cons]
      tauto
    · simp only [List.map_cons, List.mem_cons, ih]
      tauto

lemma unique_setEntry {entries : List (κ × β)} (h : (entries.map Prod.fst).Nodup) (k : κ) (v : β) :
    ((setEntry entries k v).map Prod.fst).Nodup := by
  induction entries with
  | nil => exact List.nodup_singleton k
  | cons e entries ih =>
    rw [List.map_cons, List.nodup_cons] at h
    rw [setEntry]
    split_ifs with heq
    · rw [List.map_cons, List.nodup_cons, ← heq]
      exact h
    · rw [List.map_cons, List.nodup_cons, mem_keys_setEntry]
      exact ⟨fun hor => hor.elim heq h.1, ih h.2⟩

lemma mem_setEntry {entries : List (κ × β)} {k : κ} {v : β} {e : κ × β} (h : e ∈ setEntry entries k v) :
    e = (k, v) ∨ e ∈ entries := by
  induction entries with
  | nil => exact .inl (List.mem_singleton.mp h)
  | cons e' entries ih =>
    rw [setEntry] at h
    split_ifs at h
    · exact (List.mem_cons.mp h).imp_right (List.mem_cons_of_mem e')
    · rcases List.mem_cons.mp h with rfl | h
      · exact .inr List.mem_cons_self
      · exact (ih h).imp_right (List.mem_cons_of_mem e')

/-- `d[k] = v` -/
def set (d : OrderedDict κ β) (k : κ) (v : β) : OrderedDict κ β :=
  ⟨setEntry d.entries k v, unique_setEntry d.unique k v⟩

/-- `d.update(entries)` -/
def update (d : OrderedDict κ β) (entries : List (κ × β)) : OrderedDict κ β :=
  entries.foldl (fun d e => d.set e.1 e.2) d

lemma mem_update {d : OrderedDict κ β} {entries : List (κ × β)} {e : κ × β} (h : e ∈ (d.update entries).entries) :
    e ∈ entries ∨ e ∈ d.entries := by
  induction entries generalizing d with
  | nil => exact .inr h
  | cons e' entries ih =>
    rcases ih (d := d.set e'.1 e'.2) h with hin | hset
    · exact .inl (List.mem_cons_of_mem e' hin)
    · rcases mem_setEntry hset with rfl | hold
      · exact .inl List.mem_cons_self
      · exact .inr hold

@[simp] lemma get_empty (k : κ) : (empty : OrderedDict κ β).get k = none := rfl

lemma get_set (d : OrderedDict κ β) (k : κ) (v : β) (k' : κ) :
    (d.set k v).get k' = if k' = k then some v else d.get k' := by
  obtain ⟨entries, unique⟩ := d
  have key : find (setEntry entries k v) k' = if k' = k then some v else find entries k' := by
    clear unique
    induction entries with
    | nil =>
      rw [setEntry, find, List.find?_singleton]
      by_cases h : k' = k
      · simp [h]
      · simp [h, Ne.symm h, find]
    | cons e entries ih =>
      unfold find at ih ⊢
      rw [setEntry]
      by_cases heq : e.1 = k
      · rw [if_pos heq, List.find?_cons, List.find?_cons]
        by_cases h : k' = k
        · simp [h]
        · simp [h, heq, Ne.symm h]
      · rw [if_neg heq, List.find?_cons, List.find?_cons]
        by_cases he : e.1 = k'
        · have hne : k' ≠ k := by
            rw [← he]
            exact heq
          simp [he, hne]
        · simpa [he] using ih
  exact key

/-- The last entry of the key wins, and without one the dictionary is as it was. -/
lemma get_update (d : OrderedDict κ β) (entries : List (κ × β)) (k : κ) :
    (d.update entries).get k = (find entries.reverse k).or (d.get k) := by
  induction entries generalizing d with
  | nil => rfl
  | cons e entries ih =>
    have hcons : d.update (e :: entries) = (d.set e.1 e.2).update entries := rfl
    rw [hcons, ih, get_set, List.reverse_cons, find_append, Option.or_assoc]
    congr 1
    rw [find, List.find?_singleton]
    by_cases h : e.1 = k
    · simp [h]
    · simp [h, Ne.symm h]

/-- With unique keys it does not matter from which end one looks. -/
lemma find_reverse {entries : List (κ × β)} (h : (entries.map Prod.fst).Nodup) (k : κ) :
    find entries.reverse k = find entries k := by
  induction entries with
  | nil => rfl
  | cons e entries ih =>
    rw [List.map_cons, List.nodup_cons] at h
    rw [List.reverse_cons, find_append, ih h.2]
    unfold find
    rw [List.find?_cons]
    by_cases heq : e.1 = k
    · have hnone : entries.find? (fun e => e.1 = k) = none := by
        rw [List.find?_eq_none]
        intro e' he' hk
        exact h.1 (heq ▸ (of_decide_eq_true hk) ▸ List.mem_map_of_mem he')
      simp [hnone, heq]
    · simp [heq]

lemma find_entries (d : OrderedDict κ β) (k : κ) : find d.entries.reverse k = d.get k := find_reverse d.unique k

end OrderedDict

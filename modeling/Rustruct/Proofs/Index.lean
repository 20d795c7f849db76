import Rustruct.Pack

/-!
# The field index

A map is looked up by a scan while it is small and by a hash map once it is large. A scan finds the first
entry of a name, the hash map holds the last one.
-/

namespace Rustruct

/-- The values of a name, in the order of their entries. -/
def valuesOf (pairs : List (String × Value)) (name : String) : List Value :=
  (pairs.filter fun entry => entry.1 == name).map Prod.snd

section Lookup

variable (pairs : List (String × Value)) (name : String)

lemma small_get : (FieldIndex.small pairs).get name = (valuesOf pairs name).head? := by
  rw [FieldIndex.get, valuesOf, List.head?_map, List.head?_filter]

lemma hashed_get : (FieldIndex.hashed pairs).get name = (valuesOf pairs name).getLast? := by
  rw [FieldIndex.get, valuesOf, List.getLast?_map, List.getLast?_filter]

lemma value_get : (Value.map pairs).get name = (valuesOf pairs name).head? := small_get pairs name

/-- What the index of a map finds. -/
lemma mapView_get : (Value.map pairs).mapView.map (fun view => view.get name) =
    some (if pairs.length > hashIndexThreshold then (valuesOf pairs name).getLast?
      else (valuesOf pairs name).head?) := by
  rw [Value.mapView, Option.map_some]
  split_ifs
  · rw [hashed_get]
  · rw [small_get]

variable {pairs name}

lemma valuesOf_unrelated {others : List (String × Value)} (h : ∀ entry ∈ others, entry.1 ≠ name) :
    valuesOf others name = [] := by
  rw [valuesOf, List.map_eq_nil_iff, List.filter_eq_nil_iff]
  intro entry he heq
  exact h entry he (by simpa using heq)

/-- Entries of other names around those of the map. -/
lemma valuesOf_among {before after : List (String × Value)} (h : ∀ entry ∈ before ++ after, entry.1 ≠ name) :
    valuesOf (before ++ pairs ++ after) name = valuesOf pairs name := by
  have hbefore : valuesOf before name = [] := valuesOf_unrelated fun e he => h e (List.mem_append_left _ he)
  have hafter : valuesOf after name = [] := valuesOf_unrelated fun e he => h e (List.mem_append_right _ he)
  have happend (a b : List (String × Value)) : valuesOf (a ++ b) name = valuesOf a name ++ valuesOf b name := by
    rw [valuesOf, List.filter_append, List.map_append]
    rfl
  rw [happend, happend, hbefore, hafter, List.nil_append, List.append_nil]

/-- There are entries of other names, as many as one wants. -/
lemma exists_unrelated (name : String) (n : Nat) :
    ∃ others : List (String × Value), others.length = n ∧ ∀ entry ∈ others, entry.1 ≠ name := by
  refine ⟨List.replicate n (name ++ "x", .unsupported), List.length_replicate, ?_⟩
  intro entry he heq
  rw [List.eq_of_mem_replicate he] at heq
  have hlen := congrArg String.length heq
  simp at hlen

end Lookup

/-- The index agrees with the value, and with a scan, exactly for maps of up to sixteen entries and for
names whose first and last entry hold the same value. What a name is packed from stays the same whatever
entries of other names are added exactly when the map is already larger than that, or the first and the
last entry hold the same value. -/
theorem mapView_get_iff (pairs : List (String × Value)) (name : String) :
    ((∀ view, (Value.map pairs).mapView = some view → view.get name = (Value.map pairs).get name ∧
        view.get name = (FieldIndex.small pairs).get name) ↔
      pairs.length ≤ hashIndexThreshold ∨ (valuesOf pairs name).head? = (valuesOf pairs name).getLast?) ∧
    ((∀ before after, (∀ entry ∈ before ++ after, entry.1 ≠ name) →
        (Value.map (before ++ pairs ++ after)).mapView.map (fun view => view.get name) =
          (Value.map pairs).mapView.map fun view => view.get name) ↔
      hashIndexThreshold < pairs.length ∨ (valuesOf pairs name).head? = (valuesOf pairs name).getLast?) := by
  constructor
  · have hfound := mapView_get pairs name
    constructor
    · intro h
      by_cases hlen : pairs.length ≤ hashIndexThreshold
      · exact .inl hlen
      · right
        rw [if_pos (by omega)] at hfound
        obtain ⟨view, hview, hget⟩ := Option.map_eq_some_iff.mp hfound
        rw [← hget, (h view hview).1, value_get]
    · intro h view hview
      rw [hview, Option.map_some, Option.some.injEq] at hfound
      have hhead : view.get name = (valuesOf pairs name).head? := by
        rw [hfound]
        split_ifs with hlen
        · exact (h.resolve_left (by omega)).symm
        · rfl
      exact ⟨by rw [hhead, value_get], by rw [hhead, small_get]⟩
  · constructor
    · intro h
      by_cases hlen : hashIndexThreshold < pairs.length
      · exact .inl hlen
      · right
        -- Enough entries of another name make the map a large one.
        obtain ⟨others, hn, hother⟩ := exists_unrelated name (hashIndexThreshold + 1)
        have hadd := h others [] (by simpa using hother)
        rw [mapView_get, mapView_get, valuesOf_among (by simpa using hother), if_pos, if_neg hlen] at hadd
        · exact (Option.some.inj hadd).symm
        · rw [List.length_append, List.length_append, hn]
          omega
    · intro h before after hother
      rw [mapView_get, mapView_get, valuesOf_among hother]
      rcases h with hlen | hsame
      · rw [if_pos (by rw [List.length_append, List.length_append]; omega), if_pos hlen]
      · rw [hsame, ite_self, ite_self]

/-- A map as it is built, with one name entered first and again after fifteen others. -/
def reentered : Value :=
  (["a", "b", "c", "d", "e", "f", "g", "h", "i", "j", "k", "l", "m", "n", "o", "p", "a"].zipIdx).foldl
    (fun v entry => v.insert entry.1 (.int entry.2)) (.map [])

/-- The program of a struct with one byte. -/
def oneByte : Program :=
  .mk [.fixed 1 [{ off := 0, kind := .int .u8 true none false, reg := none, span := none, key := .named "a" }]] 0 0 1
    (some 1)

/-- Of seventeen entries the index finds the second of the name, the value and a scan the first, so the
struct is packed from the second. With the last entry it would still be packed from the first without the
fifteen others. -/
theorem mapView_get_reentered :
    reentered.mapView.map (fun view => view.get "a") = some (some (.int 16)) ∧
      reentered.get "a" = some (.int 0) ∧
      packRun .blank oneByte reentered = .ok [16] ∧
      packRun .blank oneByte (((Value.map []).insert "a" (.int 0)).insert "a" (.int 16)) = .ok [0] :=
  ⟨rfl, rfl, rfl, rfl⟩

end Rustruct

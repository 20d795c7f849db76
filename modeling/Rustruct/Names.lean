import Rustruct.Machine

/-!
# Closed sets of names

The table `parse` matches on is the table the bindings publish.
-/

namespace Rustruct

/-- A set of names the core recognises, and nothing else. -/
structure ClosedSet (α : Type) where
  what : String
  allowed : String
  eq : String → String → Bool
  names : List (String × α)
  aliases : List (String × α)

namespace ClosedSet

variable {α : Type}

def hit (set : ClosedSet α) (s : String) (table : List (String × α)) : Option α :=
  (table.find? (fun entry => set.eq s entry.1)).map Prod.snd

/-- The value a name stands for, or a message naming what was expected. -/
def parse (set : ClosedSet α) (s : String) : Except String α :=
  match (set.hit s set.names).or (set.hit s set.aliases) with
  | some value => .ok value
  | none => .error s!"{set.what} {s.quote} is not supported ({set.allowed})"

end ClosedSet

/-- The bytes of a name that `looseEq` compares: no `-` or `_`, ASCII letters in lower case. -/
def looseKey (s : String) : List Char :=
  (s.toList.filter (fun c => c ≠ '-' ∧ c ≠ '_')).map Char.toLower

/-- Equal ignoring ASCII case and any `-`/`_`. -/
def looseEq (a b : String) : Bool := looseKey a == looseKey b

end Rustruct

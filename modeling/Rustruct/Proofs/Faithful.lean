import Rustruct.Proofs.Inversion
import Rustruct.Proofs.Runs

/-!
# What comes back

What a program, a schema and a value must be, for what pack writes to be read as a value that is packed
the same.
-/

namespace Rustruct

/-- A run is no longer than a vector can be, or has no more bits than a `u32` counts, and elements that go on to
the end of their region take at least one byte each. -/
def Op.Roomy : Op → Prop
  | .fixed width items => isizeMax + width < usizeSize ∧ runWidth items = width
  | .bitRun _ items => bitWidth items < u32Size
  | .array .untilEof _ _ elemMin _ => 0 < elemMin
  | _ => True

instance : DecidablePred Op.Roomy := fun op =>
  match op with
  | .fixed width items => inferInstanceAs (Decidable (isizeMax + width < usizeSize ∧ runWidth items = width))
  | .bitRun _ items => inferInstanceAs (Decidable (bitWidth items < u32Size))
  | .array .untilEof _ _ elemMin _ => inferInstanceAs (Decidable (0 < elemMin))
  | .array (.expr ..) .. | .bytes .. | .str .. | .cstr .. | .flags .. | .digest .. | .nest .. | .switch .. | .cond .. =>
    inferInstanceAs (Decidable True)

/-- The checked arithmetic of a length does not overflow where its linear form is a length up to `most`. -/
def ExprIn.Exact (most : Nat) (e : ExprIn) : Prop :=
  ∀ folded lin, fold e = .ok folded → linear folded = some lin → ∀ x, InI64 x → 0 ≤ lin.value (fun _ => x) →
    lin.value (fun _ => x) ≤ most → lin.value (fun _ => x) ≤ i64Max → e.eval (fun _ => x) = .ok (lin.value fun _ => x)

lemma exact_ref (most : Nat) (n : String) : (ExprIn.ref n).Exact most := by
  intro folded lin hfold hlin x _ _ _ _
  cases hfold
  cases hlin
  simp [ExprIn.eval, Lin.value]

/-- A length that is read as it was: it is exact, and "*" is in the last place. -/
structure ExprIn.Recovers (most : Nat) (last : Bool) (e : ExprIn) : Prop where
  exact : e.Exact most
  greedy : e = .greedy → last = true

lemma recovers_ref (most : Nat) (last : Bool) (n : String) : (ExprIn.ref n).Recovers most last := by
  refine ⟨exact_ref most n, ?_⟩
  intro hno
  cases hno

lemma recovers_greedy (most : Nat) : ExprIn.greedy.Recovers most true := by
  refine ⟨?_, fun _ => rfl⟩
  intro folded lin hfold
  cases hfold

/-- There is no count, and elements go on to the end of the region. -/
def untilEnd (count : Option ExprIn) : Prop := count = none ∨ count = some .greedy

/-- What a digest field is over, and whether it is verified. -/
def TypeIn.asked : TypeIn → Option (OverIn × Bool)
  | .digest _ _ overs verify => some (overs, verify)
  | _ => none

/-- It is not over a field of this name. -/
def OverIn.avoids (name : Option String) : OverIn → Prop
  | .star => False
  | .names ns => ∀ n ∈ name, n ∉ ns

/-- What a verified digest is over has no digest among the fields after it. -/
def digestSettled (fields : List FieldIn) (asked : Option (OverIn × Bool)) : Prop :=
  ∀ overs, asked = some (overs, true) → ∀ f ∈ fields, f.ty.asked.isSome → overs.avoids f.name

mutual

/-- What pack writes of this type can be told from the bytes, in a message of `size` bytes. `last` says
that the region ends with it. -/
def TypeIn.Faithful (opts : Options) (size : Nat) : TypeIn → Bool → Prop
  | .float is64 _, _ => is64 = true
  | .bytes len _, last => len.Recovers size last
  | .str len _ _ _, last => len.Recovers size last
  | .flags _ _ names _, _ => ∀ n ∈ names, n.2 ≠ BitVec.allOnes 64
  | .digest algo overrides overs verify, _ =>
    -- The sum of more words does not fit in 32 bits.
    overs = .star → verify = true → parseAlgo algo overrides = .ok .ipChecksum → size ≤ 131072
  | .struct fields _ window, last => (∀ e ∈ window, e.Exact size) ∧
    fieldsFaithful opts size fields (last || window.isSome)
  | .array elem count _, last =>
    (∀ e ∈ count, e.Exact opts.maxCount) ∧ (untilEnd count → last = true) ∧ elem.Faithful opts size false
  | .switch _ cases default, last => casesFaithful opts size cases last ∧ defaultFaithful opts size default last
  | .cond _ thn, last => thn.Faithful opts size last
  | _, _ => True

def fieldsFaithful (opts : Options) (size : Nat) : List FieldIn → Bool → Prop
  | [], _ => True
  | .mk _ ty :: fields, last =>
    ty.Faithful opts size (last && fields.isEmpty) ∧ digestSettled fields ty.asked ∧
      fieldsFaithful opts size fields last

def casesFaithful (opts : Options) (size : Nat) : List (Int × TypeIn) → Bool → Prop
  | [], _ => True
  | (_, ty) :: cases, last => ty.Faithful opts size last ∧ casesFaithful opts size cases last

def defaultFaithful (opts : Options) (size : Nat) : Option TypeIn → Bool → Prop
  | none, _ => True
  | some ty, last => ty.Faithful opts size last

end

/-- The integer that a field of this type is given. -/
def TypeIn.given (v : Option Value) : TypeIn → Option Int
  | .int _ _ const => const.or (v.bind Value.asInt)
  | .bits _ _ => v.bind Value.asInt
  | _ => none

mutual

/-- No list is too long, and the integers that something refers to fit a register. -/
def TypeIn.Suits (opts : Options) : TypeIn → Value → Prop
  | .struct fields _ _, v => ∀ view ∈ v.mapView, fieldsSuit opts fields view
  | .array elem _ _, v => ∀ list ∈ v.asList, list.length ≤ opts.maxCount ∧ ∀ x ∈ list, elem.Suits opts x
  | .switch _ cases default, v => casesSuit opts cases v ∧ defaultSuits opts default v
  | .cond _ thn, v => thn.Suits opts v
  | _, _ => True

def fieldsSuit (opts : Options) : List FieldIn → FieldIndex → Prop
  | [], _ => True
  | .mk name ty :: fields, view =>
    (name.any (fun n => fieldsMention n fields) → ∀ i ∈ ty.given (name.bind view.get), InI64 i) ∧
      (∀ v ∈ name.bind view.get, ty.Suits opts v) ∧ fieldsSuit opts fields view

def casesSuit (opts : Options) : List (Int × TypeIn) → Value → Prop
  | [], _ => True
  | (_, ty) :: cases, v => ty.Suits opts v ∧ casesSuit opts cases v

def defaultSuits (opts : Options) : Option TypeIn → Value → Prop
  | none, _ => True
  | some ty, v => ty.Suits opts v

end

/-- The value of a field, which something may refer to. -/
def TypeIn.SuitsField (opts : Options) (ty : TypeIn) (referred : Bool) (v : Option Value) : Prop :=
  (referred → ∀ i ∈ ty.given v, InI64 i) ∧ ∀ x ∈ v, ty.Suits opts x

end Rustruct

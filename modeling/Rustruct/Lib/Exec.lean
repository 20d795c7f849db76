import Mathlib.Tactic.Common

/-!
# Computations that report an error or panic

`Exec ε α` is a computation that returns an `α`, reports an error of type `ε`, or
panics. The rules below compose a fact about a whole computation from facts about its
steps: `Sat` and, for its errors alone, `Reports` for one computation, `Rel` for two computations
run side by side and `Mirrors` for one beside an option.
-/

/-- Why a computation stopped without a value. -/
inductive Trap (ε : Type) where
  | err (e : ε)
  | panic
  deriving DecidableEq, Repr

abbrev Exec (ε α : Type) := Except (Trap ε) α

namespace Exec

variable {ε ε' ε'' α β γ δ : Type}

/-- Report an error. -/
def fail (e : ε) : Exec ε α := .error (.err e)

/-- Abort. -/
def panic : Exec ε α := .error .panic

/-- The value of an option that must be there. -/
def expect : Option α → Exec ε α
  | some a => .ok a
  | none => panic

/-- Change the error that is reported. A panic stays a panic. -/
def mapErr (f : ε → ε') : Exec ε α → Exec ε' α
  | .ok a => .ok a
  | .error (.err e) => fail (f e)
  | .error .panic => panic

@[simp] lemma bind_ok (a : α) (f : α → Exec ε β) : (Except.ok a >>= f) = f a := rfl

@[simp] lemma bind_error (t : Trap ε) (f : α → Exec ε β) :
    ((Except.error t : Exec ε α) >>= f) = .error t := rfl

@[simp] lemma bind_fail (e : ε) (f : α → Exec ε β) : ((fail e : Exec ε α) >>= f) = fail e := rfl

@[simp] lemma bind_panic (f : α → Exec ε β) : ((panic : Exec ε α) >>= f) = panic := rfl

@[simp] lemma pure_eq_ok (a : α) : (pure a : Exec ε α) = .ok a := rfl

@[simp] lemma bind_ok_self (x : Exec ε α) : (x >>= fun a => .ok a) = x := by
  cases x <;> rfl

@[simp] lemma mapErr_ok (f : ε → ε') (a : α) : mapErr f (.ok a) = .ok a := rfl

@[simp] lemma mapErr_fail (f : ε → ε') (e : ε) : mapErr f (fail e : Exec ε α) = fail (f e) := rfl

@[simp] lemma mapErr_panic (f : ε → ε') : mapErr f (panic : Exec ε α) = panic := rfl

@[simp] lemma expect_some (a : α) : (expect (some a) : Exec ε α) = .ok a := rfl

@[simp] lemma expect_none : (expect none : Exec ε α) = panic := rfl

@[simp] lemma fail_ne_ok (e : ε) (a : α) : ((fail e : Exec ε α) = .ok a) = False := by
  simp [fail]

@[simp] lemma panic_ne_ok (a : α) : ((panic : Exec ε α) = .ok a) = False := by
  simp [panic]

@[simp] lemma fail_inj (e e' : ε) : ((fail e : Exec ε α) = fail e') = (e = e') := by
  simp [fail]

@[simp] lemma fail_ne_panic (e : ε) : ((fail e : Exec ε α) = panic) = False := by
  simp [fail, panic]

/-- A sequence returns exactly when its first part does and then its second part. -/
lemma bind_eq_ok {x : Exec ε α} {f : α → Exec ε β} {b : β} :
    (x >>= f) = .ok b ↔ ∃ a, x = .ok a ∧ f a = .ok b := by
  cases x with
  | ok a => simp
  | error t => simp

lemma mapErr_eq_ok {f : ε → ε'} {x : Exec ε α} {a : α} : mapErr f x = .ok a ↔ x = .ok a := by
  match x with
  | .ok b => simp
  | .error (.err e) => simp [mapErr]
  | .error .panic => simp [mapErr]

lemma expect_eq_ok {o : Option α} {a : α} : (expect o : Exec ε α) = .ok a ↔ o = some a := by
  cases o <;> simp [expect]

/-- The three ways a computation ends. -/
@[elab_as_elim]
lemma cases_on {motive : Exec ε α → Prop} (x : Exec ε α) (ok : ∀ a, motive (.ok a))
    (fail : ∀ e, motive (fail e)) (panic : motive panic) : motive x := by
  match x with
  | .ok a => exact ok a
  | .error (.err e) => exact fail e
  | .error .panic => exact panic

/-- The computation returns a value that passes `p`. -/
def returns (x : Exec ε α) (p : α → Bool) : Bool :=
  match x with
  | .ok a => p a
  | .error _ => false

lemma returns_iff {x : Exec ε α} {p : α → Bool} : returns x p ↔ ∃ a, x = .ok a ∧ p a := by
  cases x <;> simp [returns]

/-- `x` does not panic, a value it returns satisfies `P` and an error it reports satisfies `E`. -/
def Sat (x : Exec ε α) (P : α → Prop) (E : ε → Prop) : Prop :=
  match x with
  | .ok a => P a
  | .error (.err e) => E e
  | .error .panic => False

@[simp] lemma sat_ok (a : α) (P : α → Prop) (E : ε → Prop) : Sat (.ok a) P E = P a := rfl

@[simp] lemma sat_fail (e : ε) (P : α → Prop) (E : ε → Prop) : Sat (fail e) P E = E e := rfl

@[simp] lemma sat_panic (P : α → Prop) (E : ε → Prop) : Sat (panic : Exec ε α) P E = False := rfl

lemma Sat.bind {x : Exec ε α} {f : α → Exec ε β} {P : α → Prop} {Q : β → Prop} {E : ε → Prop}
    (hx : Sat x P E) (hf : ∀ a, x = .ok a → P a → Sat (f a) Q E) : Sat (x >>= f) Q E := by
  cases x using cases_on with
  | ok a => exact hf a rfl hx
  | fail e => exact hx
  | panic => exact hx

lemma Sat.mapErr {x : Exec ε α} {f : ε → ε'} {P : α → Prop} {E : ε → Prop} {E' : ε' → Prop}
    (hx : Sat x P E) (hf : ∀ e, E e → E' (f e)) : Sat (mapErr f x) P E' := by
  cases x using cases_on with
  | ok a => exact hx
  | fail e => exact hf e hx
  | panic => exact hx

lemma Sat.mono {x : Exec ε α} {P Q : α → Prop} {E F : ε → Prop} (hx : Sat x P E)
    (hP : ∀ a, P a → Q a) (hE : ∀ e, E e → F e) : Sat x Q F := by
  cases x using cases_on with
  | ok a => exact hP a hx
  | fail e => exact hE e hx
  | panic => exact hx

lemma Sat.of_ok {x : Exec ε α} {P : α → Prop} {E : ε → Prop} {a : α} (hx : Sat x P E)
    (h : x = .ok a) : P a := by
  subst h
  exact hx

/-- The errors that `x` reports satisfy `E`. -/
def Reports (x : Exec ε α) (E : ε → Prop) : Prop := ∀ e, x = fail e → E e

section Reports

variable {x : Exec ε α} {E : ε → Prop}

@[simp] lemma reports_ok (a : α) : Reports (.ok a) E := by simp [Reports, fail]

@[simp] lemma reports_panic : Reports (panic : Exec ε α) E := by simp [Reports, fail, panic]

@[simp] lemma reports_fail (e : ε) : Reports (fail e : Exec ε α) E ↔ E e := by simp [Reports]

@[simp] lemma reports_expect (o : Option α) : Reports (expect o) E := by
  cases o with
  | none => exact reports_panic
  | some a => exact reports_ok a

lemma Reports.bind {f : α → Exec ε β} (hx : Reports x E) (hf : ∀ a, x = .ok a → Reports (f a) E) :
    Reports (x >>= f) E := by
  cases x using cases_on with
  | ok a => exact hf a rfl
  | fail e => exact (reports_fail e).mpr ((reports_fail e).mp hx)
  | panic => exact reports_panic

lemma Reports.mapErr {f : ε → ε'} {E' : ε' → Prop} (hx : Reports x E) (hf : ∀ e, E e → E' (f e)) :
    Reports (mapErr f x) E' := by
  cases x using cases_on with
  | ok a => exact reports_ok a
  | fail e => exact (reports_fail _).mpr (hf e ((reports_fail e).mp hx))
  | panic => exact reports_panic

lemma Reports.mono {F : ε → Prop} (hx : Reports x E) (h : ∀ e, E e → F e) : Reports x F :=
  fun e he => h e (hx e he)

end Reports

/-- `x` and `y` end in the same way, with values related by `R` and errors related by `E`. -/
def Rel (x : Exec ε α) (y : Exec ε' β) (R : α → β → Prop) (E : ε → ε' → Prop) : Prop :=
  match x, y with
  | .ok a, .ok b => R a b
  | .error (.err e), .error (.err e') => E e e'
  | .error .panic, .error .panic => True
  | _, _ => False

lemma Rel.bind {x : Exec ε α} {y : Exec ε' β} {f : α → Exec ε γ} {g : β → Exec ε' δ}
    {R : α → β → Prop} {S : γ → δ → Prop} {E : ε → ε' → Prop} (hxy : Rel x y R E)
    (hfg : ∀ a b, R a b → Rel (f a) (g b) S E) : Rel (x >>= f) (y >>= g) S E := by
  match x, y, hxy with
  | .ok a, .ok b, h => exact hfg a b h
  | .error (.err _), .error (.err _), h => exact h
  | .error .panic, .error .panic, _ => trivial

/-- `x` returns exactly when `y` has a value with `C`, and the values are related by `R`. -/
structure Mirrors (R : α → β → Prop) (C : β → Prop) (x : Exec ε α) (y : Option β) : Prop where
  ok : ∀ a, x = .ok a → ∃ b, y = some b ∧ C b ∧ R a b
  some : ∀ b, y = .some b → C b → ∃ a, x = .ok a ∧ R a b

section Mirrors

variable {R : α → β → Prop} {C : β → Prop} {x : Exec ε α} {y : Option β}

lemma Mirrors.of_some {a : α} {b : β} (hC : C b) (hR : R a b) : Mirrors R C (.ok a : Exec ε α) (.some b) := by
  constructor
  · intro a' ha
    cases ha
    exact ⟨b, rfl, hC, hR⟩
  · intro b' hb _
    cases hb
    exact ⟨a, rfl, hR⟩

/-- Neither has a value. -/
lemma Mirrors.of_none (hx : ∀ a, x ≠ .ok a) : Mirrors R C x .none := by
  constructor
  · intro a ha
    exact absurd ha (hx a)
  · intro b hb
    cases hb

lemma Mirrors.of_error {t : Trap ε} : Mirrors R C (.error t : Exec ε α) .none := of_none fun a ha => by cases ha

/-- What the rest of the option has to satisfy is at least what its start has to. -/
lemma Mirrors.bind {f : α → Exec ε γ} {g : β → Option δ} {S : γ → δ → Prop} {D : δ → Prop}
    (hxy : Mirrors R C x y) (hC : ∀ b d, g b = .some d → D d → C b)
    (hfg : ∀ a b, R a b → C b → Mirrors S D (f a) (g b)) : Mirrors S D (x >>= f) (y.bind g) := by
  constructor
  · intro c hc
    obtain ⟨a, ha, hc⟩ := bind_eq_ok.mp hc
    obtain ⟨b, hb, hCb, hR⟩ := hxy.ok a ha
    obtain ⟨d, hd, hD, hS⟩ := (hfg a b hR hCb).ok c hc
    exact ⟨d, by rw [hb, Option.bind_some, hd], hD, hS⟩
  · intro d hd hD
    obtain ⟨b, hb, hd⟩ := Option.bind_eq_some_iff.mp hd
    have hCb := hC b d hd hD
    obtain ⟨a, ha, hR⟩ := hxy.some b hb hCb
    obtain ⟨c, hc, hS⟩ := (hfg a b hR hCb).some d hd hD
    exact ⟨c, bind_eq_ok.mpr ⟨a, ha, hc⟩, hS⟩

lemma Mirrors.mapErr {f : ε → ε'} (h : Mirrors R C x y) : Mirrors R C (mapErr f x) y :=
  ⟨fun a ha => h.ok a (mapErr_eq_ok.mp ha),
    fun b hb hC => (h.some b hb hC).imp fun _ ha => ⟨mapErr_eq_ok.mpr ha.1, ha.2⟩⟩

lemma Mirrors.mono {S : α → β → Prop} (h : Mirrors R C x y) (hRS : ∀ a b, R a b → S a b) : Mirrors S C x y :=
  ⟨fun a ha => (h.ok a ha).imp fun b hb => ⟨hb.1, hb.2.1, hRS a b hb.2.2⟩,
    fun b hb hC => (h.some b hb hC).imp fun a ha => ⟨ha.1, hRS a b ha.2⟩⟩

end Mirrors

end Exec

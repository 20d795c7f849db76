import Rustruct.Proofs.Sound

/-!
# The items of a run

The offsets of a run of fixed items wrap on `usize`. While the widths do not, every item
lies in the bytes the run checks for; once they do, no buffer is long enough to read all
of them.
-/

namespace Rustruct

/-- The bytes of the items of a run. -/
def runWidth (items : List FixedItem) : Nat := (items.map fun item => item.kind.width).sum

lemma runWidth_cons (item : FixedItem) (items : List FixedItem) :
    runWidth (item :: items) = item.kind.width + runWidth items := rfl

lemma wrapAdd_of_lt {a b : Nat} (h : a + b < usizeSize) : wrapAdd a b = a + b :=
  Nat.mod_eq_of_lt h

lemma isizeMax_lt : isizeMax < usizeSize := by decide

/-- The bits of the op, if it is a run of them, are not more than a `u32` counts. -/
def Op.bitsFit : Op → Prop
  | .bitRun _ items => bitWidth items < u32Size
  | _ => True

instance : DecidablePred Op.bitsFit := fun op => by
  cases op <;> unfold Op.bitsFit <;> infer_instance

/-- The items of a run are one after another. -/
def Consecutive : Nat → List FixedItem → Prop
  | _, [] => True
  | start, item :: items => item.off = start ∧ Consecutive (start + item.kind.width) items

lemma laidItems_consecutive {start width : Nat} {items : List FixedItem}
    (h : LaidItems start items width) (hw : start + runWidth items < usizeSize) :
    Consecutive start items ∧ width = start + runWidth items := by
  induction items generalizing start with
  | nil => exact ⟨trivial, h⟩
  | cons item items ih =>
    obtain ⟨hoff, h⟩ := h
    rw [runWidth_cons] at hw
    rw [wrapAdd_of_lt (by omega)] at h
    obtain ⟨hc, rfl⟩ := ih h (by omega)
    exact ⟨⟨hoff, hc⟩, by rw [runWidth_cons]; omega⟩

/-- A run whose widths do not wrap. -/
lemma laidRun_consecutive {width : Nat} {items : List FixedItem} (h : LaidRun items width)
    (hw : runWidth items < usizeSize) : Consecutive 0 items ∧ width = runWidth items := by
  cases items with
  | nil => exact h.elim
  | cons item items =>
    obtain ⟨hoff, h⟩ := h
    rw [runWidth_cons] at hw ⊢
    obtain ⟨hc, rfl⟩ := laidItems_consecutive h hw
    exact ⟨⟨hoff, by rwa [Nat.zero_add]⟩, rfl⟩

lemma Consecutive.le {start : Nat} {items : List FixedItem} (h : Consecutive start items) :
    ∀ item ∈ items, item.off + item.kind.width ≤ start + runWidth items := by
  induction items generalizing start with
  | nil => simp
  | cons item items ih =>
    obtain ⟨hoff, h⟩ := h
    rw [runWidth_cons]
    intro i hi
    obtain rfl | hi := List.mem_cons.mp hi
    · omega
    · have := ih h i hi
      omega

section Reads

variable {buf : Bytes} {base : Nat}

lemma slice_le {ε : Type} {buf : Bytes} {start stop : Nat} {raw : Bytes}
    (h : (slice buf start stop : Exec ε Bytes) = .ok raw) : stop ≤ buf.length :=
  (slice_eq_ok.mp h).2.1

lemma laidItems_read (hlen : buf.length ≤ isizeMax) {start width : Nat} {items : List FixedItem}
    {fs : Frames} {map : List (String × Value)} {r : Frames × List (String × Value)}
    (h : LaidItems start items width) (hstart : base + start ≤ buf.length)
    (hr : readFixedItems buf base items fs map = .ok r) :
    base + start + runWidth items ≤ buf.length := by
  have hmax := isizeMax_lt
  induction items generalizing start fs map with
  | nil => simpa [runWidth] using hstart
  | cons item items ih =>
    obtain ⟨hoff, h⟩ := h
    simp only [readFixedItems, insert_value, Exec.bind_ok, Exec.bind_eq_ok, Prod.exists] at hr
    obtain ⟨v, fs₁, hi, hr⟩ := hr
    obtain ⟨raw, fs₂, hraw, -⟩ := readFixedItem_eq_ok (Exec.mapErr_eq_ok.mp hi)
    have hend := slice_le hraw
    rw [hoff, wrapAdd_of_lt (by omega)] at hend
    rw [wrapAdd_of_lt (by omega)] at h
    have := ih h (by omega) hr
    rw [runWidth_cons]
    omega

/-- A run that was read did not wrap. -/
lemma laidRun_read (hlen : buf.length ≤ isizeMax) {width : Nat} {items : List FixedItem}
    {fs : Frames} {map : List (String × Value)} {r : Frames × List (String × Value)}
    (h : LaidRun items width) (hbase : base ≤ buf.length)
    (hr : readFixedItems buf base items fs map = .ok r) :
    base + runWidth items ≤ buf.length := by
  have hmax := isizeMax_lt
  cases items with
  | nil => exact h.elim
  | cons item items =>
    obtain ⟨hoff, h⟩ := h
    simp only [readFixedItems, insert_value, Exec.bind_ok, Exec.bind_eq_ok, Prod.exists] at hr
    obtain ⟨v, fs₁, hi, hr⟩ := hr
    obtain ⟨raw, fs₂, hraw, -⟩ := readFixedItem_eq_ok (Exec.mapErr_eq_ok.mp hi)
    have hend := slice_le hraw
    rw [hoff, wrapAdd_of_lt (by omega)] at hend
    have := laidItems_read hlen h (by omega) hr
    rw [runWidth_cons]
    omega

end Reads

/-- The spans of the innermost frame end by `w`. -/
def SpansIn (w : Nat) (fs : Frames) : Prop :=
  ∀ f ∈ fs.head?, ∀ i, (f.spans i).1 ≤ (f.spans i).2 ∧ (f.spans i).2 ≤ w

lemma spansIn_new (w : Nat) (fs : Frames) : SpansIn w (.new :: fs) := by
  intro f hf i
  obtain rfl : Frame.new = f := by simpa using hf
  exact ⟨Nat.le_refl 0, Nat.zero_le w⟩

section Spans

variable {w : Nat} {fs fs' : Frames}

lemma SpansIn.setSpan {ε : Type} {idx : Option Nat} {start stop : Nat} (h : SpansIn w fs)
    (hle : start ≤ stop) (hw : stop ≤ w) (hs : (setSpan fs idx start stop : Exec ε Frames) = .ok fs') :
    SpansIn w fs' := by
  unfold Rustruct.setSpan at hs
  cases idx with
  | none =>
    cases hs
    exact h
  | some idx =>
    cases fs with
    | nil => simp at hs
    | cons f rest =>
      simp only at hs
      split_ifs at hs with hi
      · cases hs
        intro g hg i
        obtain rfl : _ = g := by simpa using hg
        by_cases he : i = ⟨idx, hi⟩
        · subst he
          simpa using ⟨hle, hw⟩
        · simpa [Function.update_of_ne he] using h f rfl i
      · simp at hs

lemma SpansIn.storeReg {reg : Option Nat} {v : Int} {pos : Nat} (h : SpansIn w fs)
    (hs : storeReg fs reg v pos = .ok fs') : SpansIn w fs' := by
  unfold Rustruct.storeReg at hs
  split at hs
  · cases hs
    exact h
  · split at hs
    · unfold setReg at hs
      cases fs with
      | nil => simp at hs
      | cons f rest =>
        simp only at hs
        split_ifs at hs
        · cases hs
          intro g hg i
          obtain rfl : _ = g := by simpa using hg
          exact h f rfl i
        · simp at hs
    · simp [invalid] at hs

lemma SpansIn.readFixedItem {buf : Bytes} {item : FixedItem} {base : Nat} {v : Value}
    (h : SpansIn w fs) (hw : wrapAdd base item.off + item.kind.width ≤ w)
    (hr : readFixedItem buf item base fs = .ok (v, fs')) : SpansIn w fs' := by
  obtain ⟨raw, fs₁, -, -, hst, hsp, -⟩ := readFixedItem_eq_ok hr
  refine SpansIn.setSpan ?_ (Nat.le_add_right _ _) hw hsp
  unfold storeInt at hst
  split at hst
  · exact h.storeReg hst
  · cases hst
    exact h

end Spans

end Rustruct

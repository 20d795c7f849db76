import Rustruct.Protocols.DNSName
import Rustruct.Proofs.Integers
import Mathlib.Tactic.Ring

/-!
# Reading back what `write_name` wrote

`NameAt` is what a buffer says at an offset: labels, pointers, the final zero. `decode_name` returns it,
and `write_name` leaves it at the offset it wrote to and at every offset it put into the table.
-/

namespace Rustruct.DNS

section Prefix

variable {b b' : Bytes}

lemma pySlice_add (b : Bytes) (a n : Nat) : pySlice b a (a + n) = (b.drop a).take n := by
  rw [pySlice, Nat.add_sub_cancel_left]

lemma getElem?_longer (h : b <+: b') {i : Nat} {x : Byte} (hx : b[i]? = some x) : b'[i]? = some x := by
  obtain ⟨t, rfl⟩ := h
  obtain ⟨hi, -⟩ := List.getElem?_eq_some_iff.mp hx
  rwa [List.getElem?_append_left hi]

lemma pySlice_longer (h : b <+: b') {a n : Nat} (hn : a + n ≤ b.length) :
    pySlice b' a (a + n) = pySlice b a (a + n) := by
  obtain ⟨t, rfl⟩ := h
  rw [pySlice_add, pySlice_add, List.drop_append_of_le_length (by omega),
    List.take_append_of_le_length (by rw [List.length_drop]; omega)]

lemma pySlice_length (b : Bytes) (a n : Nat) : (pySlice b a (a + n)).length = min n (b.length - a) := by
  rw [pySlice_add, List.length_take, List.length_drop]

/-- A slice of its full length is inside the buffer. -/
lemma pySlice_full {b : Bytes} {a n : Nat} (h : (pySlice b a (a + n)).length = n) (hn : 0 < n) :
    a + n ≤ b.length := by
  rw [pySlice_length] at h
  omega

end Prefix

/-- At `off` the buffer has a name of these labels, and the record goes on at `stop`. -/
inductive NameAt (buf : Bytes) : Nat → List Bytes → Nat → Prop where
  | root {off : Nat} (first : buf[off]? = some 0) : NameAt buf off [] (off + 1)
  | label {off stop : Nat} {label : Bytes} {rest : List Bytes} (pos : 1 ≤ label.length)
      (short : label.length ≤ maxLabel) (first : buf[off]? = some (UInt8.ofNat label.length))
      (slice : pySlice buf (off + 1) (off + 1 + label.length) = label)
      (tail : NameAt buf (off + 1 + label.length) rest stop) : NameAt buf off (label :: rest) stop
  | pointer {off target stop : Nat} {labels : List Bytes} {first : Byte} (head : buf[off]? = some first)
      (kind : first.toNat &&& 0xC0 = 0xC0) (target_eq : pointerTarget buf off = some target)
      (tail : NameAt buf target labels stop) : NameAt buf off labels (off + 2)

lemma label_kind : ∀ n < 64, n &&& 0xC0 = 0 := by decide

lemma short_of_kind : ∀ n < 256, n &&& 0xC0 = 0 → n ≤ maxLabel := by decide +kernel

lemma nameTurn_root {buf : Bytes} {s : NameState} (h : buf[s.off]? = some 0) :
    nameTurn buf s = .done s.labels (s.resume.getD (s.off + 1)) := by
  simp [nameTurn, h]

lemma nameTurn_label {buf : Bytes} {s : NameState} {label : Bytes} (pos : 1 ≤ label.length)
    (short : label.length ≤ maxLabel) (first : buf[s.off]? = some (UInt8.ofNat label.length))
    (slice : pySlice buf (s.off + 1) (s.off + 1 + label.length) = label)
    (hwire : s.wireLen + label.length + 1 ≤ maxNameWire) :
    nameTurn buf s = .again { s with
      off := s.off + 1 + label.length, labels := s.labels ++ [decodeLabel label],
      wireLen := s.wireLen + label.length + 1 } := by
  have hlt : label.length < 64 := Nat.lt_succ_of_le short
  have hnat : (UInt8.ofNat label.length).toNat = label.length := by
    rw [UInt8.toNat_ofNat']
    omega
  have hread : readLabel buf s.off label.length =
      some (decodeLabel label, s.off + 1 + label.length) := by
    simp [readLabel, slice]
  simp only [nameTurn, first, hnat, label_kind _ hlt, hread]
  rw [if_neg (by omega), if_neg (by decide), if_neg (by decide), if_neg (by omega)]

lemma nameTurn_pointer {buf : Bytes} {s : NameState} {first : Byte} {target : Nat}
    (head : buf[s.off]? = some first) (kind : first.toNat &&& 0xC0 = 0xC0)
    (htarget : pointerTarget buf s.off = some target) :
    nameTurn buf s = .again { s with off := target, resume := some (s.resume.getD (s.off + 2)) } := by
  have hne : first.toNat ≠ 0 := by
    intro h
    rw [h] at kind
    cases kind
  simp only [nameTurn, head, htarget, if_neg hne, if_pos kind]

/-- What is left of the iterations of `decode_name`. -/
def nameBudget (buf : Bytes) (s : NameState) : Nat :=
  (maxNameWire + 1 - s.wireLen) * (buf.length + 2) + min s.off buf.length

lemma pointerTarget_eq_some {buf : Bytes} {off target : Nat} (h : pointerTarget buf off = some target) :
    off + 1 < buf.length ∧ target < off := by
  unfold pointerTarget at h
  split_ifs at h with hcut
  simp only [Option.bind_eq_bind, Option.bind_eq_some_iff] at h
  obtain ⟨x, -, y, -, h⟩ := h
  split_ifs at h
  cases h
  omega

lemma readLabel_eq_some {buf : Bytes} {off length : Nat} {label : List Char} {stop : Nat}
    (h : readLabel buf off length = some (label, stop)) :
    (pySlice buf (off + 1) (off + 1 + length)).length = length ∧ stop = off + 1 + length ∧
      label = decodeLabel (pySlice buf (off + 1) (off + 1 + length)) := by
  simp only [readLabel] at h
  split_ifs at h with hlen
  cases h
  exact ⟨not_not.mp hlen, rfl, rfl⟩

/-- The ways an iteration goes on. -/
lemma nameTurn_again {buf : Bytes} {s s' : NameState} (h : nameTurn buf s = .again s') :
    (∃ label, 1 ≤ label.length ∧ label.length ≤ maxLabel ∧ buf[s.off]? = some (UInt8.ofNat label.length) ∧
      pySlice buf (s.off + 1) (s.off + 1 + label.length) = label ∧ s.wireLen + label.length + 1 ≤ maxNameWire ∧
      s' = { s with
        off := s.off + 1 + label.length, labels := s.labels ++ [decodeLabel label],
        wireLen := s.wireLen + label.length + 1 }) ∨
    ∃ first target, buf[s.off]? = some first ∧ first.toNat &&& 0xC0 = 0xC0 ∧ pointerTarget buf s.off = some target ∧
      s' = { s with off := target, resume := some (s.resume.getD (s.off + 2)) } := by
  unfold nameTurn at h
  split at h
  · cases h
  · rename_i byte hbyte
    simp only at h
    split_ifs at h with hz hp hk hw
    · split at h
      · cases h
      · rename_i target ht
        cases h
        exact .inr ⟨byte, target, hbyte, hp, ht, rfl⟩
    · split at h <;> cases h
    · split at h
      · cases h
      · rename_i label off hread
        cases h
        obtain ⟨hlen, rfl, rfl⟩ := readLabel_eq_some hread
        refine .inl ⟨pySlice buf (s.off + 1) (s.off + 1 + byte.toNat), ?_, ?_, ?_, ?_, ?_, ?_⟩
        all_goals rw [hlen]
        · exact Nat.pos_of_ne_zero hz
        · exact short_of_kind _ byte.toNat_lt (not_not.mp hk)
        · rwa [UInt8.ofNat_toNat]
        · omega

/-- The only way the loop ends without raising. -/
lemma nameTurn_done {buf : Bytes} {s : NameState} {labels : List (List Char)} {stop : Nat}
    (h : nameTurn buf s = .done labels stop) :
    buf[s.off]? = some 0 ∧ labels = s.labels ∧ stop = s.resume.getD (s.off + 1) := by
  unfold nameTurn at h
  split at h
  · cases h
  · rename_i byte hbyte
    simp only at h
    split_ifs at h with hz
    · cases h
      have hbyte0 : byte = 0 := UInt8.toNat_inj.mp hz
      exact ⟨hbyte0 ▸ hbyte, rfl, rfl⟩
    · split at h <;> cases h
    · split at h <;> cases h
    · split at h <;> cases h

lemma nameTurn_budget {buf : Bytes} {s s' : NameState} (h : nameTurn buf s = .again s') :
    nameBudget buf s' < nameBudget buf s := by
  obtain ⟨label, hpos, -, -, hslice, hw, rfl⟩ | ⟨first, target, -, -, htarget, rfl⟩ := nameTurn_again h
  · have hfit := pySlice_full (congrArg List.length hslice) hpos
    have hmul : (maxNameWire + 1 - (s.wireLen + label.length + 1) + 1) * (buf.length + 2) ≤
        (maxNameWire + 1 - s.wireLen) * (buf.length + 2) := Nat.mul_le_mul_right _ (by omega)
    rw [Nat.succ_mul] at hmul
    simp only [nameBudget]
    omega
  · obtain ⟨hlen, hlt⟩ := pointerTarget_eq_some htarget
    simp only [nameBudget]
    omega

lemma nameTurns_end {buf : Bytes} {n : Nat} {s : NameState} (h : nameBudget buf s < n) :
    ∃ r, nameTurns buf n s = some r := by
  induction n generalizing s with
  | zero => omega
  | succ n ih =>
    rw [nameTurns]
    cases ht : nameTurn buf s with
    | again s' =>
      have hless := nameTurn_budget ht
      exact ih (by omega)
    | done labels stop => exact ⟨_, rfl⟩
    | raised => exact ⟨_, rfl⟩

/-- The bound of `decode_name` is never reached. -/
lemma nameTurns_start (buf : Bytes) (start : Nat) :
    ∃ r, nameTurns buf (nameBound buf) { off := start, resume := none, labels := [], wireLen := 1 } =
      some r := by
  apply nameTurns_end
  simp only [nameBudget, nameBound, Nat.add_sub_cancel]
  rw [Nat.succ_mul]
  omega

lemma nameTurns_mono {buf : Bytes} {n m : Nat} {s : NameState} {r : Option (List (List Char) × Nat)}
    (hnm : n ≤ m) (h : nameTurns buf n s = some r) : nameTurns buf m s = some r := by
  induction n generalizing m s with
  | zero => cases h
  | succ n ih =>
    obtain ⟨m, rfl⟩ : ∃ k, m = k + 1 := ⟨m - 1, by omega⟩
    rw [nameTurns] at h ⊢
    cases ht : nameTurn buf s with
    | again s' =>
      simp only [ht] at h ⊢
      exact ih (by omega) h
    | done labels stop => simpa only [ht] using h
    | raised => simpa only [ht] using h

lemma nameTurns_nameAt {buf : Bytes} {off stop : Nat} {labels : List Bytes}
    (h : NameAt buf off labels stop) {s : NameState} (hoff : s.off = off)
    (hwire : s.wireLen + labelsWire labels ≤ maxNameWire) {n : Nat}
    {r : Option (List (List Char) × Nat)} (hr : nameTurns buf n s = some r) :
    r = some (s.labels ++ labels.map decodeLabel, s.resume.getD stop) := by
  induction h generalizing s n with
  | root first =>
    subst hoff
    cases n with
    | zero => cases hr
    | succ n =>
      rw [nameTurns, nameTurn_root first] at hr
      simpa using hr.symm
  | @label off stop label rest pos short first slice tail ih =>
    subst hoff
    cases n with
    | zero => cases hr
    | succ n =>
      have hsum : labelsWire (label :: rest) = label.length + 1 + labelsWire rest := rfl
      rw [nameTurns, nameTurn_label pos short first slice (by omega)] at hr
      have := ih rfl (by simp only; omega) hr
      simpa using this
  | @pointer off target stop labels first head kind htarget tail ih =>
    subst hoff
    cases n with
    | zero => cases hr
    | succ n =>
      rw [nameTurns, nameTurn_pointer head kind htarget] at hr
      have hw : ({ s with off := target, resume := some (s.resume.getD (s.off + 2)) } : NameState).wireLen +
          labelsWire labels ≤ maxNameWire := hwire
      simpa using ih rfl hw hr

/-- The labels a name can have on the wire. -/
structure Legal (labels : List Bytes) : Prop where
  pos : ∀ label ∈ labels, 1 ≤ label.length
  short : ∀ label ∈ labels, label.length ≤ maxLabel
  wire : 1 + labelsWire labels ≤ maxNameWire

lemma Legal.tail {label : Bytes} {rest : List Bytes} (h : Legal (label :: rest)) : Legal rest where
  pos l hl := h.pos l (by simp [hl])
  short l hl := h.short l (by simp [hl])
  wire := by
    have hw := h.wire
    have hsum : labelsWire (label :: rest) = label.length + 1 + labelsWire rest := rfl
    omega

lemma decodeLabels_nameAt {buf : Bytes} {off stop : Nat} {labels : List Bytes} (hl : Legal labels)
    (h : NameAt buf off labels stop) : decodeLabels buf off = some (labels.map decodeLabel, stop) := by
  obtain ⟨r, hr⟩ := nameTurns_start buf off
  have := nameTurns_nameAt h rfl hl.wire hr
  rw [decodeLabels, hr, Option.join_some, this]
  simp

lemma decodeName_nameAt {buf : Bytes} {off stop : Nat} {labels : List Bytes} (hl : Legal labels)
    (h : NameAt buf off labels stop) :
    decodeName buf off = some (joinLabels (labels.map decodeLabel), stop) := by
  simp [decodeName, decodeLabels_nameAt hl h]

lemma pointerTarget_longer {b b' : Bytes} (h : b <+: b') {off target : Nat}
    (ht : pointerTarget b off = some target) : pointerTarget b' off = some target := by
  have hlen := h.length_le
  unfold pointerTarget at ht ⊢
  split_ifs at ht with hcut
  rw [if_neg (by omega)]
  simp only [Option.bind_eq_bind, Option.bind_eq_some_iff] at ht ⊢
  obtain ⟨x, hx, y, hy, ht⟩ := ht
  exact ⟨x, getElem?_longer h hx, y, getElem?_longer h hy, ht⟩

/-- An iteration that does not raise only looks at bytes that are there. -/
lemma nameTurn_longer {b b' : Bytes} (h : b <+: b') {s : NameState} {t : NameTurn}
    (ht : nameTurn b s = t) (hne : t ≠ .raised) : nameTurn b' s = t := by
  unfold nameTurn at ht ⊢
  split at ht
  · exact absurd ht.symm hne
  · rename_i byte hbyte
    rw [getElem?_longer h hbyte]
    simp only at ht ⊢
    split_ifs at ht ⊢ with hz hp hk hw
    · exact ht
    · cases hptr : pointerTarget b s.off with
      | none =>
        rw [hptr] at ht
        exact absurd ht.symm hne
      | some target =>
        rw [hptr] at ht
        rw [pointerTarget_longer h hptr]
        exact ht
    · exact absurd ht.symm hne
    · split at ht <;> exact absurd ht.symm hne
    · cases hread : readLabel b s.off byte.toNat with
      | none =>
        rw [hread] at ht
        exact absurd ht.symm hne
      | some r =>
        obtain ⟨label, off⟩ := r
        obtain ⟨hlen, rfl, rfl⟩ := readLabel_eq_some hread
        have hfull := pySlice_full hlen (Nat.pos_of_ne_zero hz)
        have hread' : readLabel b' s.off byte.toNat = readLabel b s.off byte.toNat := by
          simp only [readLabel, pySlice_longer h hfull]
        rw [hread', hread]
        rw [hread] at ht
        exact ht

lemma nameTurns_longer {b b' : Bytes} (h : b <+: b') {n : Nat} {s : NameState}
    {r : List (List Char) × Nat} (hr : nameTurns b n s = some (some r)) :
    nameTurns b' n s = some (some r) := by
  induction n generalizing s with
  | zero => cases hr
  | succ n ih =>
    rw [nameTurns] at hr ⊢
    cases ht : nameTurn b s with
    | again s' =>
      rw [nameTurn_longer h ht (by simp)]
      rw [ht] at hr
      exact ih hr
    | done labels stop =>
      rw [nameTurn_longer h ht (by simp)]
      rwa [ht] at hr
    | raised =>
      rw [ht] at hr
      cases hr

lemma decodeName_longer {b b' : Bytes} (h : b <+: b') {off : Nat} {r : String × Nat}
    (hr : decodeName b off = some r) : decodeName b' off = some r := by
  simp only [decodeName, Option.bind_eq_bind, Option.bind_eq_some_iff] at hr ⊢
  obtain ⟨p, hp, hr⟩ := hr
  refine ⟨p, ?_, hr⟩
  unfold decodeLabels at hp ⊢
  obtain ⟨q, hq⟩ := nameTurns_start b off
  rw [hq, Option.join_some] at hp
  subst hp
  have hle : nameBound b ≤ nameBound b' :=
    Nat.mul_le_mul_left _ (Nat.add_le_add_right h.length_le 2)
  rw [nameTurns_mono hle (nameTurns_longer h hq), Option.join_some]

/-- What the loop returns is a name of the buffer. -/
lemma nameAt_of_nameTurns {buf : Bytes} {n : Nat} {s : NameState} {labels : List (List Char)} {stop : Nat}
    (h : nameTurns buf n s = some (some (labels, stop))) (hwire : s.wireLen ≤ maxNameWire) :
    ∃ read stop', NameAt buf s.off read stop' ∧ labels = s.labels ++ read.map decodeLabel ∧
      stop = s.resume.getD stop' ∧ s.wireLen + labelsWire read ≤ maxNameWire := by
  induction n generalizing s with
  | zero => cases h
  | succ n ih =>
    rw [nameTurns] at h
    cases ht : nameTurn buf s with
    | again s' =>
      rw [ht] at h
      obtain ⟨label, hpos, hshort, hfirst, hslice, hw, rfl⟩ | ⟨first, target, hfirst, hkind, htarget, rfl⟩ :=
        nameTurn_again ht
      · obtain ⟨read, stop', htail, hlabels, hstop, htotal⟩ := ih h (by simp only; omega)
        refine ⟨label :: read, stop', .label hpos hshort hfirst hslice htail, ?_, hstop, ?_⟩
        · rw [hlabels, List.map_cons, List.append_assoc]
          rfl
        · have hsum : labelsWire (label :: read) = label.length + 1 + labelsWire read := rfl
          simp only at htotal
          omega
      · obtain ⟨read, stop', htail, hlabels, hstop, htotal⟩ := ih h hwire
        exact ⟨read, s.off + 2, .pointer hfirst hkind htarget htail, hlabels, hstop, htotal⟩
    | done labels' stop' =>
      rw [ht] at h
      cases h
      obtain ⟨hfirst, hlabels, hstop⟩ := nameTurn_done ht
      exact ⟨[], s.off + 1, .root hfirst, by simp [hlabels], hstop, hwire⟩
    | raised =>
      rw [ht] at h
      cases h

lemma NameAt.bounds {buf : Bytes} {off stop : Nat} {labels : List Bytes} (h : NameAt buf off labels stop) :
    off < stop ∧ stop ≤ buf.length ∧ ∀ label ∈ labels, 1 ≤ label.length ∧ label.length ≤ maxLabel := by
  induction h with
  | root first =>
    obtain ⟨hlt, -⟩ := List.getElem?_eq_some_iff.mp first
    exact ⟨Nat.lt_succ_self _, hlt, fun label hl => absurd hl List.not_mem_nil⟩
  | label pos short first slice tail ih =>
    obtain ⟨hlt, hle, hall⟩ := ih
    refine ⟨by omega, hle, ?_⟩
    intro l hl
    rcases List.mem_cons.mp hl with hhead | htail
    · rw [hhead]
      exact ⟨pos, short⟩
    · exact hall l htail
  | pointer head kind target_eq tail ih =>
    obtain ⟨hlen, -⟩ := pointerTarget_eq_some target_eq
    exact ⟨by omega, hlen, ih.2.2⟩

/-- What `decode_name` returns is the name at the offset, within the limits of names. -/
lemma nameAt_of_decodeName {buf : Bytes} {off : Nat} {name : String} {stop : Nat}
    (h : decodeName buf off = some (name, stop)) :
    ∃ labels, NameAt buf off labels stop ∧ Legal labels ∧ name = joinLabels (labels.map decodeLabel) := by
  simp only [decodeName, Option.bind_eq_bind, Option.bind_eq_some_iff] at h
  obtain ⟨⟨read, stop'⟩, hp, h⟩ := h
  cases h
  unfold decodeLabels at hp
  obtain ⟨q, hq⟩ := nameTurns_start buf off
  rw [hq, Option.join_some] at hp
  subst hp
  obtain ⟨labels, stop', hat, rfl, rfl, hwire⟩ := nameAt_of_nameTurns hq (show 1 ≤ maxNameWire from by decide)
  obtain ⟨-, -, hall⟩ := hat.bounds
  exact ⟨labels, hat, ⟨fun l hl => (hall l hl).1, fun l hl => (hall l hl).2, hwire⟩, by simp⟩

lemma decodeName_le {buf : Bytes} {off : Nat} {name : String} {stop : Nat}
    (h : decodeName buf off = some (name, stop)) : stop ≤ buf.length := by
  obtain ⟨labels, hat, -⟩ := nameAt_of_decodeName h
  exact hat.bounds.2.1

/-- A name has at least its final zero. -/
lemma decodeName_lt {buf : Bytes} {off : Nat} {r : String × Nat} (h : decodeName buf off = some r) :
    off < buf.length := by
  by_contra hle
  have hraised : decodeLabels buf off = none := by
    have hturn : nameTurn buf { off, resume := none, labels := [], wireLen := 1 } = .raised := by
      simp only [nameTurn, List.getElem?_eq_none (Nat.not_lt.mp hle)]
    obtain ⟨n, hn⟩ : ∃ n, nameBound buf = n + 1 :=
      Nat.exists_eq_succ_of_ne_zero (Nat.mul_ne_zero (Nat.succ_ne_zero _) (Nat.succ_ne_zero _))
    rw [decodeLabels, hn, nameTurns, hturn]
    rfl
  rw [decodeName, hraised] at h
  cases h

/-- A name cut short raises. -/
lemma decodeName_cut {w : Bytes} {off stop i : Nat} {name : String}
    (h : decodeName w off = some (name, stop)) (hi : i < stop) : decodeName (w.take i) off = none := by
  cases hr : decodeName (w.take i) off with
  | none => rfl
  | some r =>
    obtain ⟨name', stop'⟩ := r
    have hle := decodeName_le hr
    have hfull := decodeName_longer (List.take_prefix i w) hr
    rw [h] at hfull
    cases hfull
    rw [List.length_take] at hle
    omega

end Rustruct.DNS

import Rustruct.Pack

/-!
# Texts as bytes

Strict decoding inverts encoding, in every encoding of the core.
-/

namespace Rustruct

lemma utf8_of_ascii {cs : List Char} (h : ∀ c ∈ cs, c.toNat < 0x80) :
    (String.ofList cs).toUTF8.data.toList = cs.map fun c => UInt8.ofNat c.toNat := by
  have hone : ∀ c ∈ cs, String.utf8EncodeChar c = [UInt8.ofNat c.toNat] := by
    intro c hc
    have hlt := h c hc
    have hsize : c.utf8Size = 1 := by
      unfold Char.utf8Size
      rw [if_pos]
      exact UInt32.le_iff_toNat_le.mpr (by simpa using Nat.le_of_lt_succ hlt)
    rw [String.utf8EncodeChar_eq_singleton hsize]
    congr 1
  have hdata : (String.ofList cs).toUTF8.data.toList = cs.flatMap String.utf8EncodeChar := by
    simp [List.utf8Encode]
  rw [hdata]
  clear h hdata
  induction cs with
  | nil => rfl
  | cons c cs ih => simp [hone, ih fun c hc => hone c (by simp [hc])]

lemma charOf_byteOf {c : Char} (h : c.toNat < 256) : Char.ofNat (UInt8.ofNat c.toNat).toNat = c := by
  rw [UInt8.toNat_ofNat', Nat.mod_eq_of_lt h, Char.ofNat_toNat]

lemma chars_of_bytes {cs : List Char} (h : ∀ c ∈ cs, c.toNat < 256) :
    (cs.map fun c => UInt8.ofNat c.toNat).map (fun b => Char.ofNat b.toNat) = cs := by
  rw [List.map_map]
  conv => rhs; rw [← List.map_id cs]
  exact List.map_congr_left fun c hc => charOf_byteOf (h c hc)

lemma fromUTF8_toUTF8 (s : String) : String.fromUTF8? s.toUTF8 = some s := by
  have hvalid : s.toUTF8.IsValidUTF8 := s.isValidUTF8
  unfold String.fromUTF8?
  rw [dif_pos hvalid]
  rfl

/-- What a text was encoded as decodes to it. -/
lemma decode_encode {s : String} {enc : Enc} {b : Bytes} (h : encode s enc = some b) :
    decode b enc = some s := by
  cases enc with
  | utf8 =>
    cases h
    have hd : decode s.toUTF8.data.toList .utf8 = String.fromUTF8? s.toUTF8 := by
      simp [decode]
    rw [hd, fromUTF8_toUTF8]
  | ascii =>
    simp only [encode] at h
    split_ifs at h with hall
    cases h
    have hlt : ∀ c ∈ s.toList, c.toNat < 0x80 := by
      intro c hc
      simpa using List.all_eq_true.mp hall c hc
    have hbytes : s.toUTF8.data.toList = s.toList.map fun c => UInt8.ofNat c.toNat := by
      have := utf8_of_ascii hlt
      rwa [String.ofList_toList] at this
    rw [hbytes, decode, if_pos, chars_of_bytes fun c hc => by have := hlt c hc; omega,
      String.ofList_toList]
    simp only [List.all_map, List.all_eq_true, Function.comp_apply, decide_eq_true_eq]
    intro c hc
    have := hlt c hc
    rw [UInt8.lt_iff_toNat_lt, UInt8.toNat_ofNat', Nat.mod_eq_of_lt (by omega)]
    exact this
  | latin1 =>
    simp only [encode] at h
    split_ifs at h with hall
    cases h
    have hle : ∀ c ∈ s.toList, c.toNat < 256 := by
      intro c hc
      have := List.all_eq_true.mp hall c hc
      simp only [decide_eq_true_eq] at this
      omega
    rw [decode, chars_of_bytes hle, String.ofList_toList]

end Rustruct

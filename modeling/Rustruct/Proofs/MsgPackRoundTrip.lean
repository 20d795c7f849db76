import Rustruct.Proofs.Integers
import Rustruct.Proofs.Texts
import Rustruct.Proofs.MsgPackDecode

/-!
# MessagePack round trips

What `encode` writes for a value, wherever it stands in a buffer, is read back as that
value.
-/

namespace Rustruct.MsgPack

lemma dictSet_new {d : List (Obj × Obj)} {k v : Obj} (h : ∀ entry ∈ d, keyEq entry.1 k = false) :
    dictSet d k v = d ++ [(k, v)] := by
  induction d with
  | nil => rfl
  | cons entry d ih =>
    obtain ⟨k', v'⟩ := entry
    have hk : keyEq k' k = false := h (k', v') (by simp)
    rw [dictSet, hk, ih fun e he => h e (by simp [he])]
    rfl

/-- Distinct hashable keys make the dict they are taken from. -/
lemma dictOf_flatten {d : List (Obj × Obj)} (acc : List (Obj × Obj)) (hash : ∀ entry ∈ d, hashable entry.1)
    (distinct : (acc ++ d).Pairwise fun a b => keyEq a.1 b.1 = false) :
    dictOf (flatten d) acc = some (acc ++ d) := by
  induction d generalizing acc with
  | nil => simp [flatten, dictOf]
  | cons entry d ih =>
    obtain ⟨k, v⟩ := entry
    have hk : hashable k := hash (k, v) (by simp)
    have hnew : ∀ entry ∈ acc, keyEq entry.1 k = false := fun e he =>
      (List.pairwise_append.mp distinct).2.2 e he (k, v) (by simp)
    rw [flatten, dictOf, if_pos hk, dictSet_new hnew,
      ih _ (fun e he => hash e (by simp [he])) (by simpa using distinct)]
    simp

mutual

/-- The keys of every dict in the value are scalars, no two of them equal. -/
def Obj.DistinctKeys : Obj → Prop
  | .list l => listDistinct l
  | .dict d => (∀ entry ∈ d, hashable entry.1) ∧
      d.Pairwise (fun a b => keyEq a.1 b.1 = false) ∧ dictDistinct d
  | _ => True

def listDistinct : List Obj → Prop
  | [] => True
  | v :: vs => v.DistinctKeys ∧ listDistinct vs

def dictDistinct : List (Obj × Obj) → Prop
  | [] => True
  | (_, v) :: d => v.DistinctKeys ∧ dictDistinct d

end

lemma listDistinct_iff {l : List Obj} : listDistinct l ↔ ∀ v ∈ l, v.DistinctKeys := by
  induction l with
  | nil => simp [listDistinct]
  | cons v l ih => simp [listDistinct, ih]

lemma dictDistinct_iff {d : List (Obj × Obj)} :
    dictDistinct d ↔ ∀ entry ∈ d, entry.2.DistinctKeys := by
  induction d with
  | nil => simp [dictDistinct]
  | cons entry d ih => simp [dictDistinct, ih]

section Tags

variable {p t body : Bytes}

lemma takeAt_append {b : Bytes} (pos n : Nat) (hp : p.length = pos) (hn : b.length = n) :
    takeAt (p ++ b ++ t) pos n = some b := by
  unfold takeAt
  rw [if_pos (by simp; omega), List.append_assoc, List.drop_left' hp, List.take_left' hn]

/-- A payload is read as it was written. -/
lemma readShape_writeShape {shape : Shape} {payload : Payload} (hw : writeShape shape payload = some body)
    (p t : Bytes) : readShape (p ++ body ++ t) p.length shape = some (payload, p.length + body.length) := by
  unfold writeShape at hw
  split at hw
  · split_ifs at hw with h
    cases hw
    rw [h]
    rfl
  · split_ifs at hw with h
    cases hw
    simp only [readShape, takeAt_append p.length _ rfl h, Option.bind_eq_bind, Option.bind_some, h]
  · rename_i prim data
    split_ifs at hw with h
    cases hw
    have hval : (readUint (intBytes prim true data.length) true : Int) = data.length := by
      rw [readUint_intBytes]
      apply Int.emod_eq_of_lt (by omega)
      have hmax : prim.max < 2 ^ (prim.width * 8) := by cases prim <;> decide
      omega
    have hval : readUint (intBytes prim true data.length) true = data.length := by exact_mod_cast hval
    have hhead : takeAt (p ++ (intBytes prim true data.length ++ data) ++ t) p.length prim.width =
        some (intBytes prim true data.length) := by
      have := takeAt_append (p := p) (t := data ++ t) p.length prim.width rfl
        (intBytes_length prim true data.length)
      simpa using this
    have hdata : takeAt (p ++ (intBytes prim true data.length ++ data) ++ t) (p.length + prim.width)
        data.length = some data := by
      have := takeAt_append (p := p ++ intBytes prim true data.length) (t := t) (b := data)
        (p.length + prim.width) data.length (by simp) rfl
      simpa using this
    simp only [readShape, hhead, Option.bind_eq_bind, Option.bind_some, hval, hdata]
    rw [if_neg (by omega)]
    simp [Nat.add_assoc]
  · rename_i prim i
    split_ifs at hw with h
    cases hw
    have hhead := takeAt_append (p := p) (t := t) p.length prim.width rfl (intBytes_length prim true i)
    simp only [readShape, hhead, Option.bind_eq_bind, Option.bind_some, readInt_intBytes true h.1 h.2,
      intBytes_length]
  · rename_i bits
    cases hw
    have hhead := takeAt_append (p := p) (t := t) p.length 8 rfl (uintBytes_length 8 true bits.toNat)
    have hlt : bits.toNat < 256 ^ 8 := bits.toNat_lt
    simp only [readShape, hhead, Option.bind_eq_bind, Option.bind_some, readUint_uintBytes true hlt,
      UInt64.ofNat_toNat, uintBytes_length]
  · cases hw

/-- A tag is read as it was written. -/
lemma unpackFrom_pack {mv : Mv} {bs : Bytes} (h : mv.pack = some bs) (p t : Bytes) :
    Mv.unpackFrom (p ++ bs ++ t) p.length = some (mv, p.length + bs.length) := by
  unfold Mv.pack at h
  split_ifs at h with hlt
  simp only [Option.bind_eq_bind, Option.bind_eq_some_iff, Option.some.injEq] at h
  obtain ⟨shape, hshape, body, hbody, rfl⟩ := h
  have htag : (UInt8.ofNat (mv.hi4 * 16 + mv.lo4)).toNat = mv.hi4 * 16 + mv.lo4 := by
    rw [UInt8.toNat_ofNat']
    omega
  have hhi : (mv.hi4 * 16 + mv.lo4) / 16 = mv.hi4 := by omega
  have hlo : (mv.hi4 * 16 + mv.lo4) % 16 = mv.lo4 := by omega
  have hread := readShape_writeShape hbody (p ++ [UInt8.ofNat (mv.hi4 * 16 + mv.lo4)]) t
  have hoff : min p.length (p ++ UInt8.ofNat (mv.hi4 * 16 + mv.lo4) :: body ++ t).length = p.length := by
    simp
  have hget : (p ++ UInt8.ofNat (mv.hi4 * 16 + mv.lo4) :: body ++ t)[p.length]? =
      some (UInt8.ofNat (mv.hi4 * 16 + mv.lo4)) := by simp
  simp only [Mv.unpackFrom, hoff, hget, Option.bind_eq_bind, Option.bind_some, htag, hhi, hlo, hshape]
  simp only [List.append_assoc, List.length_append, List.length_singleton,
    List.cons_append, List.nil_append] at hread ⊢
  rw [hread]
  simp [Nat.add_comm, Nat.add_left_comm]

end Tags

lemma decodeText_toUTF8 (s : String) : decodeText s.toUTF8.data.toList = some (.leaf (.str s)) := by
  rw [decodeText, decode_encode rfl]
  rfl

/-- The tag of a head and what it says. -/
def HeadOf (bs : Bytes) (head : Head) : Prop := ∃ mv : Mv, mv.pack = some bs ∧ classify mv = some head

lemma headOf_first {hi4 : Nat} {v : Int} {table : List (Nat × Int × Int)} {bs : Bytes}
    (hc : ∀ row ∈ table, classify ⟨hi4, row.1, .int v⟩ = some (.leaf (.int v)))
    (h : packFirst hi4 v table = some bs) : HeadOf bs (.leaf (.int v)) := by
  induction table with
  | nil => cases h
  | cons row table ih =>
    obtain ⟨lo4, lo, hi⟩ := row
    rw [packFirst] at h
    split_ifs at h
    · exact ⟨_, h, hc (lo4, lo, hi) (by simp)⟩
    · exact ih (fun r hr => hc r (by simp [hr])) h

lemma headOf_int {v : Int} {bs : Bytes} (h : encodeInt v = some bs) : HeadOf bs (.leaf (.int v)) := by
  unfold encodeInt at h
  split_ifs at h with h₁ h₂ h₃
  · refine ⟨_, h, ?_⟩
    have hle : v.toNat / 16 ≤ 7 := by omega
    have hv : ((v.toNat / 16 * 16 + v.toNat % 16 : Nat) : Int) = v := by omega
    simp only [classify, if_pos hle, hv]
  · refine ⟨_, h, ?_⟩
    obtain hb | hb : (v % 256).toNat / 16 = 14 ∨ (v % 256).toNat / 16 = 15 := by omega
    · have hv : (((v % 256).toNat % 16 : Nat) : Int) - 32 = v := by omega
      simp only [classify, hb, hv]
      rfl
    · have hv : (((v % 256).toNat % 16 : Nat) : Int) - 16 = v := by omega
      simp only [classify, hb, hv]
      rfl
  · exact headOf_first (by simp [classify]) h
  · exact headOf_first (by simp [classify]) h

lemma headOf_bin {data bs : Bytes} (h : encodeBin data = some bs) : HeadOf bs (.leaf (.bytes data)) := by
  unfold encodeBin at h
  simp only at h
  split_ifs at h <;> exact ⟨_, h, rfl⟩

lemma headOf_str {s : String} {bs : Bytes} (h : encodeStr s = some bs) : HeadOf bs (.leaf (.str s)) := by
  unfold encodeStr at h
  simp only at h
  split_ifs at h <;> exact ⟨_, h, decodeText_toUTF8 s⟩

lemma headOf_array {n : Nat} {bs : Bytes} (h : encodeArrayHeader n = some bs) :
    HeadOf bs (.container .array n) := by
  unfold encodeArrayHeader at h
  split_ifs at h <;> exact ⟨_, h, rfl⟩

lemma headOf_map {n : Nat} {bs : Bytes} (h : encodeMapHeader n = some bs) :
    HeadOf bs (.container .map n) := by
  unfold encodeMapHeader at h
  split_ifs at h <;> exact ⟨_, h, rfl⟩

lemma HeadOf.leaf {bs : Bytes} {v : Obj} (h : HeadOf bs (.leaf v)) (p t : Bytes) :
    Descends (p ++ bs ++ t) p.length v (p.length + bs.length) := by
  obtain ⟨mv, hp, hc⟩ := h
  exact .leaf (unpackFrom_pack hp p t) hc

lemma HeadOf.container {bs : Bytes} {kind : Kind} {count : Nat} (h : HeadOf bs (.container kind count))
    {rest : Bytes} {items : List Obj} {v : Obj} (hf : finishFrame kind items = some v) (p t : Bytes)
    (hi : DescendsMany (p ++ bs ++ rest ++ t) (kind.need count) (p ++ bs).length items
      ((p ++ bs).length + rest.length)) :
    Descends (p ++ (bs ++ rest) ++ t) p.length v (p.length + (bs ++ rest).length) := by
  obtain ⟨mv, hp, hc⟩ := h
  have hread := unpackFrom_pack hp p (rest ++ t)
  simp only [List.append_assoc, List.length_append, ← Nat.add_assoc] at hread hi ⊢
  exact .container hread hc hi hf

/-- What `encode` does with a value: it appends bytes that are read back as the value. -/
def Encodes (v : Obj) : Prop :=
  ∀ stack out res, v.DistinctKeys → encodeLoop (v :: stack) out = some res →
    ∃ bs, encodeLoop stack (out ++ bs) = some res ∧
      ∀ p t, Descends (p ++ bs ++ t) p.length v (p.length + bs.length)

lemma encodeLoop_cons {v : Obj} {stack : List Obj} {out res : Bytes}
    (h : encodeLoop (v :: stack) out = some res) :
    ∃ hd, encodeHead v = some hd ∧ encodeLoop (children v ++ stack) (out ++ hd) = some res := by
  rw [encodeLoop] at h
  obtain ⟨hd, hhd, h⟩ := Option.bind_eq_some_iff.mp h
  exact ⟨hd, hhd, h⟩

/-- A value without elements. -/
lemma encodes_leaf {v : Obj} (hc : children v = [])
    (hh : ∀ bs, encodeHead v = some bs → HeadOf bs (.leaf v)) : Encodes v := by
  intro stack out res _ h
  obtain ⟨hd, hhd, h⟩ := encodeLoop_cons h
  rw [hc] at h
  exact ⟨hd, h, (hh hd hhd).leaf⟩

/-- The elements of a container in turn. -/
lemma encodes_many {vs : List Obj} (hvs : ∀ v ∈ vs, Encodes v) (hd : ∀ v ∈ vs, v.DistinctKeys)
    {stack : List Obj} {out res : Bytes} (h : encodeLoop (vs ++ stack) out = some res) :
    ∃ bs, encodeLoop stack (out ++ bs) = some res ∧
      ∀ p t, DescendsMany (p ++ bs ++ t) vs.length p.length vs (p.length + bs.length) := by
  induction vs generalizing out with
  | nil => exact ⟨[], by simpa using h, fun p t => .nil⟩
  | cons v vs ih =>
    obtain ⟨bs, h, hv⟩ := hvs v (by simp) _ _ _ (hd v (by simp)) h
    obtain ⟨rest, h, hrest⟩ := ih (fun v hm => hvs v (by simp [hm])) (fun v hm => hd v (by simp [hm])) h
    refine ⟨bs ++ rest, by simpa using h, fun p t => ?_⟩
    have hfirst := hv p (rest ++ t)
    have hmany := hrest (p ++ bs) t
    simp only [List.append_assoc, List.length_append, ← Nat.add_assoc] at hfirst hmany ⊢
    exact .cons hfirst hmany

lemma encodes_list {l : List Obj} (hl : ∀ v ∈ l, Encodes v) : Encodes (.list l) := by
  intro stack out res hd h
  obtain ⟨head, hhead, h⟩ := encodeLoop_cons h
  obtain ⟨rest, h, hrest⟩ := encodes_many hl (listDistinct_iff.mp hd) h
  refine ⟨head ++ rest, by simpa using h, fun p t => ?_⟩
  exact (headOf_array hhead).container rfl p t (hrest (p ++ head) t)

lemma flatten_length (d : List (Obj × Obj)) : (flatten d).length = d.length * 2 := by
  induction d with
  | nil => rfl
  | cons entry d ih =>
    simp only [flatten, List.length_cons, ih]
    omega

lemma mem_flatten {d : List (Obj × Obj)} {v : Obj} (h : v ∈ flatten d) :
    ∃ entry ∈ d, v = entry.1 ∨ v = entry.2 := by
  induction d with
  | nil => simp [flatten] at h
  | cons entry d ih =>
    simp only [flatten, List.mem_cons] at h
    obtain rfl | rfl | h := h
    · exact ⟨entry, by simp, .inl rfl⟩
    · exact ⟨entry, by simp, .inr rfl⟩
    · obtain ⟨e, he, hv⟩ := ih h
      exact ⟨e, by simp [he], hv⟩

lemma encodes_dict {d : List (Obj × Obj)} (hd : ∀ entry ∈ d, Encodes entry.1 ∧ Encodes entry.2) :
    Encodes (.dict d) := by
  intro stack out res hk h
  obtain ⟨hash, distinct, hvalues⟩ := hk
  obtain ⟨head, hhead, h⟩ := encodeLoop_cons h
  have hchildren : ∀ v ∈ flatten d, Encodes v := by
    intro v hv
    obtain ⟨entry, he, rfl | rfl⟩ := mem_flatten hv
    · exact (hd entry he).1
    · exact (hd entry he).2
  have hdistinct : ∀ v ∈ flatten d, v.DistinctKeys := by
    intro v hv
    obtain ⟨entry, he, rfl | rfl⟩ := mem_flatten hv
    · have hkey := hash entry he
      cases hkv : entry.1 with
      | list | dict => rw [hkv] at hkey; cases hkey
      | _ => trivial
    · exact dictDistinct_iff.mp hvalues entry he
  obtain ⟨rest, h, hrest⟩ := encodes_many hchildren hdistinct h
  refine ⟨head ++ rest, by simpa using h, fun p t => ?_⟩
  have hfinish : finishFrame .map (flatten d) = some (.dict d) := by
    have hof := dictOf_flatten [] hash (by simpa using distinct)
    simp [finishFrame, hof]
  have hmany := hrest (p ++ head) t
  rw [flatten_length] at hmany
  exact (headOf_map hhead).container hfinish p t hmany

mutual

lemma encodes : ∀ v : Obj, Encodes v
  | .none => encodes_leaf rfl fun _ h => ⟨_, h, rfl⟩
  | .bool false => encodes_leaf rfl fun _ h => ⟨_, h, rfl⟩
  | .bool true => encodes_leaf rfl fun _ h => ⟨_, h, rfl⟩
  | .int _ => encodes_leaf rfl fun _ h => headOf_int h
  | .float _ => encodes_leaf rfl fun _ h => ⟨_, h, rfl⟩
  | .bytes _ => encodes_leaf rfl fun _ h => headOf_bin h
  | .str _ => encodes_leaf rfl fun _ h => headOf_str h
  | .list l => encodes_list (encodes_mem l)
  | .dict d => encodes_dict (encodes_entries d)

lemma encodes_mem : ∀ l : List Obj, ∀ v ∈ l, Encodes v
  | w :: l, v, h =>
    match List.mem_cons.mp h with
    | .inl he => he ▸ encodes w
    | .inr ht => encodes_mem l v ht

lemma encodes_entries : ∀ d : List (Obj × Obj), ∀ entry ∈ d, Encodes entry.1 ∧ Encodes entry.2
  | (k, v) :: d, entry, h =>
    match List.mem_cons.mp h with
    | .inl he => he ▸ ⟨encodes k, encodes v⟩
    | .inr ht => encodes_entries d entry ht

end

/-- Whatever stands before and after it, an encoded value is decoded as itself. -/
theorem decodeFrom_encode {v : Obj} {bs : Bytes} (hd : v.DistinctKeys) (h : encode v = some bs)
    (p t : Bytes) : decodeFrom (p ++ bs ++ t) p.length = some (v, p.length + bs.length) := by
  obtain ⟨bs', hres, hread⟩ := encodes v [] [] bs hd h
  obtain rfl : bs' = bs := by
    rw [encodeLoop] at hres
    simpa using hres
  exact decodeFrom_eq.mpr (hread p t)

/-- A dict after two other bytes and before a third. -/
theorem decodeFrom_encode_dict :
    decodeFrom ([1, 2] ++ [0x82, 0xa1, 97, 0xcc, 200, 0xa1, 98, 0x90] ++ [3]) 2 =
      some (.dict [(.str "a", .int 200), (.str "b", .list [])], 10) := by
  have hd : (Obj.dict [(.str "a", .int 200), (.str "b", .list [])]).DistinctKeys := by
    simp [Obj.DistinctKeys, dictDistinct, listDistinct, hashable, keyEq]
  have h : encode (.dict [(.str "a", .int 200), (.str "b", .list [])]) =
      some [0x82, 0xa1, 97, 0xcc, 200, 0xa1, 98, 0x90] := by
    simp only [encode, encodeLoop, children, flatten, List.cons_append, List.nil_append]
    decide +kernel
  exact decodeFrom_encode hd h [1, 2] [3]

end Rustruct.MsgPack

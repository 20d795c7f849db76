import Rustruct.Proofs.Readers
import Rustruct.Proofs.Safety

/-!
# A window and what follows it

The body of a sized struct, decoded in two buffers that agree up to the end of its window.
The limit of a bounds check or a scan is compared with the end of the buffer, so what is
reported at the end of a window depends on whether the buffer ends there too.
-/

namespace Rustruct

/-- The bytes the op checks for, or its terminator, are not before the limit. -/
def Op.short (buf : Bytes) (op : Op) (limit : Nat) (cur : Cur) : Prop :=
  match op with
  | .fixed width _ => limit < cur.pos + width
  | .bytes len max _ | .str len max _ _ =>
    ∃ n, resolveLen cur.fs len max cur.pos limit = .ok n ∧ limit < cur.pos + n
  | .cstr max _ _ => limit - cur.pos ≤ max ∧ 0 ∉ (buf.drop cur.pos).take (limit - cur.pos)
  | .flags prim .. => limit < cur.pos + prim.width
  | .nest _ (some (.expr expr _)) _ =>
    ∃ sz, evalLen cur.fs expr cur.pos = .ok sz ∧ limit < cur.pos + sz
  | _ => False

/-- The site runs short against a limit of `w`. -/
def Site.short (buf : Bytes) (w : Nat) : Site → Prop
  | .value op limit cur => limit = w ∧ op.short buf limit cur
  | .rest (.fixed width _ :: _) limit s => limit = w ∧ limit < s.cur.pos + width
  | .rest (.bitRun nbytes _ :: _) limit s => limit = w ∧ limit < s.cur.pos + nbytes
  | .rest (.digest algo .. :: _) limit s => limit = w ∧ limit < s.cur.pos + algo.widthBytes
  | _ => False

variable {α β : Type}

/-- The second computation ends as the first does, which does not run short, unless `E`. -/
def Same (E : Prop) (x y : URes α) : Prop := E ∨ (y = x ∧ Steady x)

section Same

variable {E F : Prop} {x y : URes α}

lemma Same.mono (hEF : E → F) (h : Same E x y) : Same F x y := h.imp_left hEF

lemma same_of_steady (h : Steady x) : Same E x x := .inr ⟨rfl, h⟩

lemma Same.bind {f g : α → URes β} (hxy : Same E x y)
    (hfg : ∀ a, x = .ok a → Same E (f a) (g a)) : Same E (x >>= f) (y >>= g) := by
  obtain he | ⟨rfl, hs⟩ := hxy
  · exact .inl he
  · cases y using Exec.cases_on with
    | ok a => exact hfg a rfl
    | fail e => exact .inr ⟨rfl, fun needed h => hs needed (by simpa using h)⟩
    | panic => exact .inr ⟨rfl, steady_panic⟩

lemma Same.mapErr {f : UFail → UFail} (hxy : Same E x y)
    (hf : ∀ e needed, f e = .incomplete needed → e = .incomplete needed) :
    Same E (Exec.mapErr f x) (Exec.mapErr f y) := by
  obtain he | ⟨rfl, hs⟩ := hxy
  · exact .inl he
  · exact .inr ⟨rfl, hs.mapErr hf⟩

lemma Same.pushKey (hxy : Same E x y) (key : Key) :
    Same E (Exec.mapErr (pushKey key) x) (Exec.mapErr (pushKey key) y) :=
  hxy.mapErr fun _ _ h => (pushKey_eq_incomplete key _ _).mp h

lemma Same.seg (hxy : Same E x y) (seg : Seg) :
    Same E (Exec.mapErr (fun e => e.seg seg) x) (Exec.mapErr (fun e => e.seg seg) y) :=
  hxy.mapErr fun _ _ h => (seg_ne_incomplete _ _ _).mp h

end Same

/-- Two buffers that agree on all bytes before `w`, and have them. -/
structure AgreeTo (w : Nat) (b b' : Bytes) : Prop where
  take : b.take w = b'.take w
  le : w ≤ b.length
  le' : w ≤ b'.length

/-- Something goes wrong at the end of the window: a read past it, or a shortage where one
of the buffers ends too. -/
def Wrong (w : Nat) (b b' : Bytes) (s : Site) : Prop :=
  s.stray b w ∨ (¬ (w < b.length ∧ w < b'.length) ∧ s.short b w)

section TwoBuffers

variable {H : Hashes} {w : Nat} {b b' : Bytes}

/-- What a site needs for its run to be the same in both buffers. -/
structure Site.Fits (w : Nat) (s : Site) : Prop where
  sound : s.Sound
  pos_le : s.cur.pos ≤ s.limit
  limit_le : s.limit ≤ w

lemma Step.fits {s t : Site} (hs : s.Fits w) (h : Step H b s t) : t.Fits w := by
  have hle := h.pos_le hs.pos_le
  exact ⟨h.sound hs.sound, hle.1, Nat.le_trans hle.2 hs.limit_le⟩

variable (hb : AgreeTo w b b')

include hb

lemma slice_agree {ε : Type} {i stop : Nat} (h : stop ≤ w) :
    (slice b' i stop : Exec ε Bytes) = slice b i stop := by
  have h₁ := hb.le
  have h₂ := hb.le'
  unfold slice
  by_cases hs : i ≤ stop
  · rw [if_pos ⟨hs, by omega⟩, if_pos ⟨hs, by omega⟩]
    have key : ∀ l : Bytes, (l.drop i).take (stop - i) =
        ((l.take w).drop i).take (stop - i) := by
      intro l
      rw [List.drop_take, List.take_take, Nat.min_eq_left (by omega)]
    rw [key b, key b', hb.take]
  · rw [if_neg (by omega), if_neg (by omega)]

lemma getElem_agree {i : Nat} (h : i < w) : b'[i]? = b[i]? := by
  have h₁ := congrArg (fun l : Bytes => l[i]?) hb.take
  simp only [List.getElem?_take, h, if_true] at h₁
  exact h₁.symm

lemma readBitsFrom_agree {base width i v : Nat} (hi : i < u32Size) (h : BitsBefore w base i width) :
    readBitsFrom b' base width i v = readBitsFrom b base width i v := by
  induction width generalizing i v with
  | zero => rfl
  | succ width ih =>
    have hfirst := h.head hi
    have hbit : readBit b' base i = readBit b base i := by
      unfold readBit
      rw [getElem_agree hb (by omega)]
    simp only [readBitsFrom, hbit]
    congr 1
    funext bit
    exact ih (wrapAddU32_lt i 1) h.tail

lemma readBits_agree {base i : Nat} {item : BitItem} (hi : i < u32Size) (h : BitsBefore w base i item.width) :
    readBits b' base i item = readBits b base i item := by
  rw [readBits, readBits, readBitsFrom_agree hb hi h]

/-- The items of a bit run, up to the first that has a bit past the window. -/
lemma readBitItems_same {base bitpos : Nat} {items : List BitItem} {fs : Frames} {map : List (String × Value)}
    (hi : bitpos < u32Size) :
    Same (bitStrays b w base items bitpos fs) (readBitItems b base items bitpos fs map)
      (readBitItems b' base items bitpos fs map) := by
  induction items generalizing bitpos fs map with
  | nil => exact same_of_steady (steady_ok _)
  | cons item items ih =>
    by_cases hbits : BitsBefore w base bitpos item.width
    · rw [readBitItems_cons, readBitItems_cons, readBits_agree hb hi hbits]
      refine (same_of_steady ((steady_readBitsFrom b base item.width bitpos 0).bind fun v => by simp)).bind fun v hv => ?_
      refine (same_of_steady ((steady_storeReg _ _ _ _).pushKey _)).bind fun fs' hst => ?_
      exact (ih (wrapAddU32_lt _ _)).mono fun h => .inr ⟨v, fs', hv, Exec.mapErr_eq_ok.mp hst, h⟩
    · exact .inl (.inl hbits)

lemma readFixedItem_agree {item : FixedItem} {base : Nat} {fs : Frames}
    (h : wrapAdd base item.off + item.kind.width ≤ w) :
    readFixedItem b' item base fs = readFixedItem b item base fs := by
  rw [readFixedItem_eq, readFixedItem_eq]
  simp only [slice_agree hb h]

/-- The items of a run, up to the first that lies past the window. -/
lemma readFixedItems_same {base : Nat} {items : List FixedItem} {fs : Frames}
    {map : List (String × Value)} :
    Same (strays b w base items fs) (readFixedItems b base items fs map)
      (readFixedItems b' base items fs map) := by
  induction items generalizing fs map with
  | nil => exact same_of_steady (steady_ok _)
  | cons item items ih =>
    by_cases hw : w < wrapAdd base item.off + item.kind.width
    · exact .inl (.inl hw)
    · rw [readFixedItems_cons, readFixedItems_cons, readFixedItem_agree hb (Nat.le_of_not_lt hw)]
      refine (same_of_steady ((steady_readFixedItem b item base fs).pushKey _)).bind ?_
      rintro ⟨v, fs'⟩ hv
      exact ih.mono fun h => .inr ⟨v, fs', Exec.mapErr_eq_ok.mp hv, h⟩

/-- A bounds check against a limit in the window. -/
lemma need_same {pos limit n : Nat} (hl : limit ≤ w) :
    Same (¬ (w < b.length ∧ w < b'.length) ∧ limit = w ∧ limit < pos + n) (need b pos limit n)
      (need b' pos limit n) := by
  have h₁ := hb.le
  have h₂ := hb.le'
  rw [need_eq, need_eq]
  by_cases h : pos + n ≤ limit
  · rw [if_pos h, if_pos h]
    exact same_of_steady (steady_ok _)
  · rw [if_neg h, if_neg h]
    by_cases he : limit = b.length ∨ limit = b'.length
    · exact .inl (by omega)
    · rw [if_neg (fun h => he (.inl h)), if_neg (fun h => he (.inr h))]
      exact same_of_steady (steady_invalid _ _)

/-- Something goes wrong in the course of a site. -/
abbrev Bad (H : Hashes) (w : Nat) (b b' : Bytes) (s : Site) : Prop := Hits H b (Wrong w b b') s

omit hb in
lemma bad_short {s : Site} (hq : ¬ (w < b.length ∧ w < b'.length)) (h : s.short b w) :
    Bad H w b b' s :=
  .here (.inr ⟨hq, h⟩)

omit hb in
/-- Bytes whose end is not a `usize` are not before a limit. -/
lemma short_of_sum {op : Op} {d limit : Nat} {cur : Cur} (hs : op.Sound d .value) (hl : limit < usizeSize)
    (h : ¬op.SumFits limit cur) : op.short b limit cur := by
  cases op with
  | fixed width items => exact Nat.lt_of_lt_of_le hl (Nat.not_lt.mp h)
  | bytes len max c | str len max enc c =>
    obtain ⟨n, hn⟩ := not_forall.mp h
    obtain ⟨hn, hsum⟩ := Classical.not_imp.mp hn
    exact ⟨n, hn, by omega⟩
  | nest prog size c =>
    cases size with
    | none => exact absurd trivial h
    | some len =>
      cases len with
      | greedy => exact absurd trivial h
      | expr expr inv =>
        obtain ⟨sz, hsz⟩ := not_forall.mp h
        obtain ⟨hsz, hsum⟩ := Classical.not_imp.mp hsz
        exact ⟨sz, hsz, by omega⟩
  | digest => cases hs.1
  | _ => exact absurd trivial h

omit hb in
lemma hits_short_of_sum {s : Site} (hs : s.Fits w) (hl : s.limit < usizeSize) (hend : s.limit = w)
    (h : ¬s.SumFits) : Hits H b (Site.short b w) s := by
  cases s with
  | value op limit cur => exact .here ⟨hend, short_of_sum hs.sound hl h⟩
  | rest ops limit t =>
    cases ops with
    | nil => exact absurd trivial h
    | cons op ops =>
      have hop : op.Sound t.cur.fs.length .field := hs.sound op (by simp)
      cases op with
      | fixed width items => exact .here ⟨hend, Nat.lt_of_lt_of_le hl (Nat.not_lt.mp h)⟩
      | digest algo overs verify be c => exact .here ⟨hend, Nat.lt_of_lt_of_le hl (Nat.not_lt.mp h)⟩
      | bytes | str | nest => exact .step (.field rfl) (.here ⟨hend, short_of_sum (hop.asValue rfl) hl h⟩)
      | _ => exact absurd trivial h
  | _ => exact absurd trivial h

/-- What goes astray is past the window, or short where the buffer ends with the window. -/
lemma bad_of_astray (hsmall : b.length ≤ isizeMax) {s : Site} (hs : s.Fits w) (h : Hits H b (Site.Astray b w) s) :
    Bad H w b b' s := by
  have hle := hb.le
  have hmax := isizeMax_lt
  obtain ⟨t, ht, hstray | ⟨hend, hsum⟩⟩ := h
  · exact ⟨t, ht, .inl hstray⟩
  · have hfits : t.Fits w := ht.induct (fun _ _ h hst => hst.fits h) hs
    have hlimit := hfits.limit_le
    obtain ⟨u, hu, hshort⟩ := hits_short_of_sum (H := H) (b := b) hfits (by omega) (by omega) hsum
    exact ⟨u, ht.trans hu, .inr ⟨by omega, hshort⟩⟩

/-- A bounds check and what is done with the bytes it finds. -/
lemma same_need {E : Prop} {pos limit n : Nat} (hl : limit ≤ w) {f g : Unit → URes β}
    (hE : ¬ (w < b.length ∧ w < b'.length) → limit = w → limit < pos + n → E)
    (hfg : pos + n ≤ limit → Same E (f ()) (g ())) :
    Same E (need b pos limit n >>= f) (need b' pos limit n >>= g) :=
  ((need_same hb hl).mono fun h => hE h.1 h.2.1 h.2.2).bind fun _ h => hfg (need_eq_ok.mp h)

/-- A value whose length is known before its bytes are checked for. -/
lemma same_sized {E : Prop} {len : LenSrc} {max limit : Nat} {cur : Cur} (hl : limit ≤ w)
    {f g : Nat → URes β}
    (hE : ¬ (w < b.length ∧ w < b'.length) → limit = w →
      (∃ n, resolveLen cur.fs len max cur.pos limit = .ok n ∧ limit < cur.pos + n) → E)
    (hfg : ∀ n, cur.pos + n ≤ limit → Same E (f n) (g n)) :
    Same E (resolveLen cur.fs len max cur.pos limit >>= fun n => need b cur.pos limit n >>= fun _ => f n)
      (resolveLen cur.fs len max cur.pos limit >>= fun n => need b' cur.pos limit n >>= fun _ => g n) :=
  (same_of_steady (steady_resolveLen _ _ _ _ _)).bind fun n hn =>
    same_need hb hl (fun hq hw hlt => hE hq hw ⟨n, hn, hlt⟩) (hfg n)

omit hb in
lemma seen_eq_none {seen : Bytes} (h : seen.findIdx? (fun b => b == 0) = none) : 0 ∉ seen := by
  rw [List.findIdx?_eq_none_iff] at h
  intro hm
  simpa using h 0 hm

lemma doCstr_same {max : Nat} {enc : Enc} {c : Common} {limit : Nat} {cur : Cur} (hl : limit ≤ w)
    (hp : cur.pos ≤ limit) (hsmall : b.length ≤ isizeMax) :
    Same (Bad H w b b' (.value (.cstr max enc c) limit cur)) (doCstr b max enc limit cur)
      (doCstr b' max enc limit cur) := by
  have h₁ := hb.le
  have h₂ := hb.le'
  have hmax := isizeMax_lt_usizeMax
  rw [doCstr_eq max enc hp (by omega), doCstr_eq max enc hp (by omega)]
  have hseen : (b'.drop cur.pos).take (min (limit - cur.pos) (satAdd max 1)) =
      (b.drop cur.pos).take (min (limit - cur.pos) (satAdd max 1)) := by
    have h := slice_agree (ε := UFail) hb
      (show cur.pos + min (limit - cur.pos) (satAdd max 1) ≤ w by omega) (i := cur.pos)
    rw [slice_eq (by omega), slice_eq (by omega)] at h
    exact Except.ok.inj h
  rw [hseen]
  unfold cstrEnd
  cases hf : ((b.drop cur.pos).take (min (limit - cur.pos) (satAdd max 1))).findIdx?
      (fun b => b == 0) with
  | some i =>
    simp only
    have hi := (List.findIdx?_eq_some_iff_findIdx_eq.mp hf).1
    rw [List.length_take, List.length_drop] at hi
    unfold cstrAt
    rw [slice_agree hb (by omega)]
    refine same_of_steady ((steady_slice _ _ _).bind fun raw => ?_)
    split <;> simp
  | none =>
    simp only
    by_cases hm : limit - cur.pos > max
    · rw [if_pos hm, if_pos hm]
      exact same_of_steady (steady_invalid _ _)
    · rw [if_neg hm, if_neg hm]
      by_cases he : limit = b.length ∨ limit = b'.length
      · refine .inl (bad_short (by omega) ⟨by omega, Nat.le_of_not_lt hm, ?_⟩)
        have hscan : min (limit - cur.pos) (satAdd max 1) = limit - cur.pos :=
          Nat.min_eq_left (le_satAdd (by omega) (by omega))
        rw [hscan] at hf
        exact seen_eq_none hf
      · rw [if_neg (fun h => he (.inl h)), if_neg (fun h => he (.inr h))]
        exact same_of_steady (steady_invalid _ _)

/-- The value of the op ends alike in both buffers. -/
def SameValue (H : Hashes) (w : Nat) (b b' : Bytes) (op : Op) : Prop :=
  ∀ limit cur, op.Sound cur.fs.length .value → limit ≤ w → cur.pos ≤ limit →
    Same (Bad H w b b' (.value op limit cur)) (opValue H b op limit cur) (opValue H b' op limit cur)

lemma doNest_same {prog : Program} {size : Option LenSrc} {c : Common} {limit : Nat} {cur : Cur}
    (hp : ∀ limit cur, prog.Sound cur.fs.length → limit ≤ w → cur.pos ≤ limit →
      Same (Bad H w b b' (.body prog limit cur)) (runStruct H b prog limit cur)
        (runStruct H b' prog limit cur))
    (hs : (Op.nest prog size c).Sound cur.fs.length .value) (hl : limit ≤ w) (hpos : cur.pos ≤ limit) :
    Same (Bad H w b b' (.value (.nest prog size c) limit cur))
      (doNest b (runStruct H b prog) size limit cur) (doNest b' (runStruct H b' prog) size limit cur) := by
  match size, hs with
  | none, hs => exact (hp limit cur hs.2.1 hl hpos).mono (.step .nest)
  | some .greedy, hs => exact absurd rfl (hs.1 .greedy rfl).2
  | some (.expr expr inv), hs =>
    simp only [doNest]
    refine (same_of_steady (steady_evalLen _ _ _)).bind fun sz hsz => ?_
    refine same_need hb hl (fun hq hw hlt => bad_short hq ⟨hw, sz, hsz, hlt⟩) fun hfit => ?_
    refine ((hp (cur.pos + sz) cur hs.2.1 (by omega) (by omega)).mono
      (.step (.window hsz hfit))).bind ?_
    rintro ⟨v, next⟩ -
    refine same_of_steady ?_
    split_ifs <;> simp

omit hb in
lemma countLoop_same {elem : Op} (he : SameValue H w b b' elem) {limit n i : Nat} {out : List Value}
    {cur : Cur} (hs : elem.Sound cur.fs.length .value) (hl : limit ≤ w) (hpos : cur.pos ≤ limit) :
    Same (Bad H w b b' (.count elem limit n i out cur))
      (countLoop (opValue H b elem) limit n i out cur)
      (countLoop (opValue H b' elem) limit n i out cur) := by
  induction n generalizing i out cur with
  | zero => exact same_of_steady (steady_ok _)
  | succ n ih =>
    simp only [countLoop]
    refine (((he limit cur hs hl hpos).mono (.step .element)).seg _).bind ?_
    rintro ⟨v, cur'⟩ hv
    have hv := Exec.mapErr_eq_ok.mp hv
    have hfs := opValue_leaves H b hs _ _ _ _ hv
    exact (ih (by rwa [hfs]) ((opValue_advances H b elem _ _ _ _ hv).2 hpos)).mono
      (.step (.another hv))

omit hb in
lemma eofLoop_same {elem : Op} (he : SameValue H w b b' elem) {limit left i : Nat}
    {out : List Value} {cur : Cur} (hs : elem.Sound cur.fs.length .value) (hl : limit ≤ w) :
    Same (Bad H w b b' (.eof elem limit left i out cur))
      (eofLoop (opValue H b elem) limit left i out cur)
      (eofLoop (opValue H b' elem) limit left i out cur) := by
  induction left generalizing i out cur with
  | zero =>
    refine same_of_steady ?_
    simp only [eofLoop]
    split_ifs <;> simp
  | succ left ih =>
    simp only [eofLoop]
    by_cases hm : cur.pos < limit
    · rw [if_pos hm, if_pos hm]
      refine (((he limit cur hs hl (Nat.le_of_lt hm)).mono (.step (.eofElement hm))).seg _).bind ?_
      rintro ⟨v, cur'⟩ hv
      have hv := Exec.mapErr_eq_ok.mp hv
      have hfs := opValue_leaves H b hs _ _ _ _ hv
      exact (ih (by rwa [hfs])).mono (.step (.eofAnother hm hv))
    · rw [if_neg hm, if_neg hm]
      exact same_of_steady (steady_ok _)

omit hb in
lemma doArray_same {elem : Op} (he : SameValue H w b b' elem) {count : CountSrc}
    {maxCount elemMin : Nat} {c : Common} {limit : Nat} {cur : Cur}
    (hs : (Op.array count maxCount elem elemMin c).Sound cur.fs.length .value) (hl : limit ≤ w)
    (hpos : cur.pos ≤ limit) :
    Same (Bad H w b b' (.value (.array count maxCount elem elemMin c) limit cur))
      (doArray count maxCount (opValue H b elem) limit cur)
      (doArray count maxCount (opValue H b' elem) limit cur) := by
  cases count with
  | untilEof => exact (eofLoop_same he hs.2.1 hl).mono (.step .open)
  | expr expr inv =>
    simp only [doArray]
    refine (same_of_steady (steady_eval _ _ _)).bind fun n hn => ?_
    by_cases h₁ : n < 0
    · rw [if_pos h₁, if_pos h₁]
      exact same_of_steady (steady_invalid _ _)
    by_cases h₂ : n.toNat > maxCount
    · rw [if_neg h₁, if_neg h₁, if_pos h₂, if_pos h₂]
      exact same_of_steady (steady_invalid _ _)
    rw [if_neg h₁, if_neg h₁, if_neg h₂, if_neg h₂, checkedSub_of_le hpos]
    exact (countLoop_same he hs.2.1 hl hpos).mono
      (.step (.counted hn (Int.not_lt.mp h₁) (Nat.le_of_not_lt h₂) hpos))

omit hb in
lemma doSwitch_same {on : Expr} {cases : List (Int × Op)} {default : Option Op} {c : Common}
    (hc : ∀ branch ∈ cases, SameValue H w b b' branch.2) (hd : ∀ op ∈ default, SameValue H w b b' op)
    {limit : Nat} {cur : Cur} (hs : (Op.switch on cases default c).Sound cur.fs.length .value)
    (hl : limit ≤ w) (hpos : cur.pos ≤ limit) :
    Same (Bad H w b b' (.value (.switch on cases default c) limit cur))
      (opValue H b (.switch on cases default c) limit cur)
      (opValue H b' (.switch on cases default c) limit cur) := by
  rw [opValue_switch, opValue_switch]
  simp only [doSwitch]
  refine (same_of_steady (steady_eval _ _ _)).bind fun tag htag => ?_
  cases hp : pickCase cases default tag with
  | none => exact same_of_steady (steady_invalid _ _)
  | some op =>
    simp only [Option.map_some]
    have hop : SameValue H w b b' op := by
      obtain ⟨branch, hm, rfl⟩ | ho := pickCase_mem hp
      · exact hc branch hm
      · exact hd op ho
    exact (hop limit cur (pickCase_sound hs.2.1 hs.2.2.1 hp) hl hpos).mono (.step (.branch htag hp))

/-- The field ends alike in both buffers. -/
def SameField (H : Hashes) (w : Nat) (b b' : Bytes) (op : Op) : Prop :=
  ∀ ops limit s, op.Sound s.cur.fs.length .field → limit ≤ w → s.cur.pos ≤ limit →
    Same (Bad H w b b' (.rest (op :: ops) limit s)) (runOp H b op limit s) (runOp H b' op limit s)

lemma runFixed_same (width : Nat) (items : List FixedItem) :
    SameField H w b b' (.fixed width items) := by
  intro ops limit s hs hl hpos
  rw [runOp, runOp]
  simp only [runFixed]
  refine same_need hb hl (fun hq hw hlt => bad_short hq ⟨hw, hlt⟩) fun hfit => ?_
  refine ((readFixedItems_same hb).mono fun h => ?_).bind fun r _ => same_of_steady (steady_ok _)
  exact .here (.inl ⟨hfit, h⟩)

lemma runBitRun_same (nbytes : Nat) (items : List BitItem) :
    SameField H w b b' (.bitRun nbytes items) := by
  intro ops limit s hs hl hpos
  rw [runOp, runOp]
  simp only [runBitRun]
  refine same_need hb hl (fun hq hw hlt => bad_short hq ⟨hw, hlt⟩) fun hfit => ?_
  refine ((readBitItems_same hb (by decide)).mono fun h => ?_).bind fun r _ => same_of_steady (steady_ok _)
  exact .here (.inl ⟨hfit, h⟩)

lemma runDigest_same (algo : Algo) (overs : Over) (verify be : Bool) (c : Common) :
    SameField H w b b' (.digest algo overs verify be c) := by
  intro ops limit s hs hl hpos
  rw [runOp, runOp]
  simp only [runDigest]
  refine (((need_same hb hl).mono fun h => ?_).pushKey _).bind fun _ hn => ?_
  · exact bad_short h.1 ⟨h.2.1, h.2.2⟩
  have hfit := need_eq_ok.mp (Exec.mapErr_eq_ok.mp hn)
  rw [slice_agree hb (by omega)]
  refine same_of_steady ((steady_slice _ _ _).bind fun raw => ?_)
  refine (steady_expect _).bind fun key => (steady_setSpan _ _ _ _).bind fun fs => ?_
  exact (steady_insert _ _ _).bind fun _ => steady_ok _

omit hb in
/-- The field of a value. -/
lemma runField_same {E : Prop} {sem sem' : Sem} {c : Common} {limit : Nat} {s : Scan}
    (h : Same E (sem limit s.cur) (sem' limit s.cur)) :
    Same E (runField c sem limit s) (runField c sem' limit s) := by
  refine (h.pushKey _).bind ?_
  rintro ⟨v, cur⟩ -
  exact same_of_steady ((steady_setSpan _ _ _ _).bind fun fs => (steady_insert _ _ _).bind fun _ => steady_ok _)

omit hb in
/-- A dynamic field. -/
lemma sameField_of_value {op : Op} (hv : op.isValue) (h : SameValue H w b b' op) :
    SameField H w b b' op := by
  intro ops limit s hs hl hpos
  obtain ⟨c, hc, hrun⟩ := runOp_of_isValue H b hv
  obtain ⟨c', hc', hrun'⟩ := runOp_of_isValue H b' hv
  obtain rfl : c = c' := Option.some.inj (hc.symm.trans hc')
  rw [hrun, hrun']
  exact runField_same ((h limit s.cur (hs.asValue hv) hl hpos).mono (.step (.field hv)))

omit hb in
lemma runCond_same {pred : Expr} {thn : Op} {c : Common} (h : SameValue H w b b' thn) :
    SameField H w b b' (.cond pred thn c) := by
  intro ops limit s hs hl hpos
  rw [runOp, runOp]
  simp only [runCond]
  refine (same_of_steady (steady_eval _ _ _)).bind fun p hp => ?_
  by_cases h₀ : p ≠ 0
  · rw [if_pos h₀, if_pos h₀]
    exact runField_same ((h limit s.cur hs.2.2.1 hl hpos).mono (.step (.present hp h₀)))
  · rw [if_neg h₀, if_neg h₀]
    exact same_of_steady (steady_ok _)

lemma compute_agree {start scopeEnd : Nat} {f : Frame} {d : Deferred} (hend : scopeEnd ≤ w)
    (hf : ∀ i, (f.spans i).1 ≤ (f.spans i).2 ∧ (f.spans i).2 ≤ w) (hd : d.field.1 ≤ w) :
    d.compute H b' start scopeEnd f = d.compute H b start scopeEnd f := by
  unfold Deferred.compute
  cases d.overs with
  | star => simp only [slice_agree hb hd, slice_agree hb hend]
  | spans idxs =>
    simp only
    congr 1
    congr 1
    funext h i
    split_ifs with hi
    · rw [slice_agree hb (hf ⟨i, hi⟩).2]
    · rfl

lemma verifyDigests_agree {start scopeEnd : Nat} {f : Frame} {ds : List Deferred}
    (hend : scopeEnd ≤ w) (hf : ∀ i, (f.spans i).1 ≤ (f.spans i).2 ∧ (f.spans i).2 ≤ w)
    (hd : ∀ d ∈ ds, d.field.1 ≤ w) :
    verifyDigests H b' start scopeEnd f ds = verifyDigests H b start scopeEnd f ds := by
  induction ds with
  | nil => rfl
  | cons d ds ih =>
    have hrest := ih fun d hd' => hd d (by simp [hd'])
    rw [verifyDigests, verifyDigests, compute_agree hb hend hf (hd d (by simp)), hrest]

/-- The fields of a scope in turn. -/
lemma runOps_same (hsmall : b.length ≤ isizeMax) {ops : List Op}
    (hop : ∀ op ∈ ops, SameField H w b b' op) {start limit : Nat} {s : Scan}
    (hs : ∀ op ∈ ops, op.Sound s.cur.fs.length .field) (hl : limit ≤ w) (hpos : s.cur.pos ≤ limit)
    (hin : ScanIn start w s) :
    Same (Bad H w b b' (.rest ops limit s)) (runOps H b ops limit s) (runOps H b' ops limit s) := by
  by_cases hk : Kept H b w (.rest ops limit s)
  · induction ops generalizing s with
    | nil => exact same_of_steady (steady_ok _)
    | cons op ops ih =>
      simp only [runOps]
      have hsound := hs op (by simp)
      refine (hop op (by simp) ops limit s hsound hl hpos).bind fun t ht => ?_
      have hin' := (safeField hb.le hsmall op start ops limit s hsound hl hpos hin hk).of_ok ht
      have hlen := (runOp_ownFrame H b op _ _ _ ht).2
      refine (ih (fun o ho => hop o (by simp [ho])) (fun o ho => ?_)
        ((runOp_advances H b op _ _ _ ht).2 hpos) hin' (hk.step (.next ht))).mono (.step (.next ht))
      rw [hlen]
      exact hs o (by simp [ho])
  · exact .inl (bad_of_astray hb hsmall ⟨hs, hpos, hl⟩ (not_not.mp hk))

/-- A struct ends alike in both buffers. -/
def SameBody (H : Hashes) (w : Nat) (b b' : Bytes) (prog : Program) : Prop :=
  ∀ limit cur, prog.Sound cur.fs.length → limit ≤ w → cur.pos ≤ limit →
    Same (Bad H w b b' (.body prog limit cur)) (runStruct H b prog limit cur)
      (runStruct H b' prog limit cur)

lemma runStruct_same (hsmall : b.length ≤ isizeMax) {ops : List Op} {nregs nspans minSize : Nat}
    {staticSize : Option Nat} (hop : ∀ op ∈ ops, SameField H w b b' op) :
    SameBody H w b b' (.mk ops nregs nspans minSize staticSize) := by
  intro limit cur hs hl hpos
  rw [runStruct, runStruct]
  unfold withFrame
  by_cases hroom : cur.fs.length ≥ maxDepth
  · rw [if_pos hroom, if_pos hroom]
    exact same_of_steady (steady_invalid _ _)
  · rw [if_neg hroom, if_neg hroom]
    have hstep : Step H b (.body (.mk ops nregs nspans minSize staticSize) limit cur)
        (.rest ops limit (.enter cur)) := .enter (Nat.lt_of_not_le hroom)
    have hsame := runOps_same hb hsmall hop (s := .enter cur) (opsSound_iff.mp hs) hl hpos
      (scanIn_enter w cur)
    by_cases hk : Kept H b w (.rest ops limit (.enter cur))
    · refine (hsame.mono (.step hstep)).bind fun t ht => ?_
      have hin := (safe_runOps (fun op _ => safeField hb.le hsmall op) (s := .enter cur)
        (opsSound_iff.mp hs) hl hpos (scanIn_enter w cur) hk).of_ok ht
      have hend := (runOps_advances H b (fun op _ => runOp_advances H b op) _ _ _ ht).2 hpos
      refine (same_of_steady (steady_expect _)).bind fun f hf => ?_
      have hspans := hin.spans f (Exec.expect_eq_ok.mp hf)
      have hdefer : ∀ d ∈ t.deferred, d.field.1 ≤ w := by
        intro d hd
        obtain ⟨⟨-, h₂, h₃⟩, -⟩ := hin.deferred d hd
        omega
      rw [verifyDigests_agree hb (by omega) hspans hdefer]
      exact same_of_steady ((steady_verifyDigests _ _ _ _ _ _).bind fun _ => steady_ok _)
    · have hfits : (Site.rest ops limit (.enter cur)).Fits w := ⟨opsSound_iff.mp hs, hpos, hl⟩
      exact .inl (.step hstep (bad_of_astray hb hsmall hfits (not_not.mp hk)))

lemma same_cases (hsmall : b.length ≤ isizeMax) : OpCases
    (fun op => SameValue H w b b' op ∧ SameField H w b b' op) (SameBody H w b b') where
  fixed width items := by
    refine ⟨?_, runFixed_same hb width items⟩
    rintro limit cur ⟨kind, rfl, rfl⟩ hl hpos
    rw [opValue, opValue]
    simp only [doFixed]
    refine same_need hb hl (fun hq hw hlt => bad_short hq ⟨hw, hlt⟩) fun hfit => ?_
    have hle := hb.le
    have hmax := isizeMax_lt
    simp only [List.head?_cons, Exec.expect_some, Exec.bind_ok]
    rw [readFixedItem_agree hb (by
      simp only
      rw [wrapAdd_of_lt (by omega)]
      omega)]
    exact same_of_steady ((steady_readFixedItem _ _ _ _).bind fun r => steady_ok _)
  bytes len max c := by
    have h : SameValue H w b b' (.bytes len max c) := by
      intro limit cur hs hl hpos
      rw [opValue, opValue]
      refine same_sized hb hl (fun hq hw hlt => bad_short hq ⟨hw, hlt⟩) fun n hfit => ?_
      rw [slice_agree hb (by omega)]
      exact same_of_steady ((steady_slice _ _ _).bind fun raw => steady_ok _)
    exact ⟨h, sameField_of_value rfl h⟩
  str len max enc c := by
    have h : SameValue H w b b' (.str len max enc c) := by
      intro limit cur hs hl hpos
      rw [opValue, opValue]
      refine same_sized hb hl (fun hq hw hlt => bad_short hq ⟨hw, hlt⟩) fun n hfit => ?_
      rw [slice_agree hb (by omega)]
      refine same_of_steady ((steady_slice _ _ _).bind fun raw => ?_)
      split <;> simp
    exact ⟨h, sameField_of_value rfl h⟩
  cstr max enc c := by
    have h : SameValue H w b b' (.cstr max enc c) := by
      intro limit cur hs hl hpos
      rw [opValue, opValue]
      exact doCstr_same hb hl hpos hsmall
    exact ⟨h, sameField_of_value rfl h⟩
  bitRun nbytes items :=
    ⟨fun _ _ hs => (by cases hs.1), runBitRun_same hb nbytes items⟩
  flags prim be items rest restMask c := by
    have h : SameValue H w b b' (.flags prim be items rest restMask c) := by
      intro limit cur hs hl hpos
      rw [opValue, opValue]
      simp only [doFlags]
      refine same_need hb hl (fun hq hw hlt => bad_short hq ⟨hw, hlt⟩) fun hfit => ?_
      rw [slice_agree hb (by omega)]
      refine same_of_steady ((steady_slice _ _ _).bind fun raw => ?_)
      simp only [setFlags_value, mapSet_value, Exec.bind_ok]
      cases rest with
      | keep => simp
      | ignore => simp
      | strict => simp only; split_ifs <;> simp
    exact ⟨h, sameField_of_value rfl h⟩
  digest algo overs verify be c :=
    ⟨fun _ _ hs => (by cases hs.1), runDigest_same hb algo overs verify be c⟩
  nest prog size c hp := by
    have h : SameValue H w b b' (.nest prog size c) := by
      intro limit cur hs hl hpos
      rw [opValue, opValue]
      exact doNest_same hb hp hs hl hpos
    exact ⟨h, sameField_of_value rfl h⟩
  array count maxCount elem elemMin c he := by
    have h : SameValue H w b b' (.array count maxCount elem elemMin c) := by
      intro limit cur hs hl hpos
      rw [opValue, opValue]
      exact doArray_same he.1 hs hl hpos
    exact ⟨h, sameField_of_value rfl h⟩
  switch on cases default c hc hd := by
    have h : SameValue H w b b' (.switch on cases default c) := by
      intro limit cur hs hl hpos
      exact doSwitch_same (fun br hm => (hc br hm).1) (fun o ho => (hd o ho).1) hs hl hpos
    exact ⟨h, sameField_of_value rfl h⟩
  cond pred thn c ht :=
    ⟨fun _ _ hs => (by cases hs.1), runCond_same ht.1⟩
  prog ops nregs nspans minSize staticSize ho :=
    runStruct_same hb hsmall fun op h => (ho op h).2

lemma sameValue (hsmall : b.length ≤ isizeMax) (op : Op) : SameValue H w b b' op :=
  ((same_cases hb hsmall).op op).1

lemma sameField (hsmall : b.length ≤ isizeMax) (op : Op) : SameField H w b b' op :=
  ((same_cases hb hsmall).op op).2

lemma sameBody (hsmall : b.length ≤ isizeMax) (prog : Program) : SameBody H w b b' prog :=
  (same_cases hb hsmall).program prog

omit hb in
lemma Same.ok_of {x y : URes α} {E : Prop} {a : α} (h : Same E x y) (hy : y = .ok a) :
    E ∨ x = .ok a := by
  obtain he | ⟨rfl, -⟩ := h
  · exact .inl he
  · exact .inr hy

/-- A step in the second buffer is one in the first, unless something goes wrong there. -/
lemma step_agree (hsmall : b.length ≤ isizeMax) {s t : Site} (hs : s.Fits w) (h : Step H b' s t) :
    Bad H w b b' s ∨ Step H b s t := by
  obtain ⟨hsound, hpos, hl⟩ := hs
  cases h with
  | enter room => exact .inr (.enter room)
  | @next op ops limit s s' ran =>
    exact ((sameField hb hsmall op ops limit s (hsound _ (by simp)) hl hpos).ok_of ran).imp_right .next
  | field dynamic => exact .inr (.field dynamic)
  | present eval holds => exact .inr (.present eval holds)
  | nest => exact .inr .nest
  | window size fits => exact .inr (.window size fits)
  | counted eval nonneg le le_limit => exact .inr (.counted eval nonneg le le_limit)
  | «open» => exact .inr .open
  | element => exact .inr .element
  | @another elem limit n i out cur v cur' ran =>
    exact ((sameValue hb hsmall elem limit cur hsound hl hpos).ok_of ran).imp
      (.step .element) .another
  | eofElement more => exact .inr (.eofElement more)
  | @eofAnother elem limit left i out cur v cur' more ran =>
    exact ((sameValue hb hsmall elem limit cur hsound hl hpos).ok_of ran).imp
      (.step (.eofElement more)) (.eofAnother more)
  | branch eval pick => exact .inr (.branch eval pick)

/-- A site that is reached in the second buffer is reached in the first, unless something goes
wrong there. -/
lemma reaches_agree (hsmall : b.length ≤ isizeMax) {s t : Site} (hs : s.Fits w)
    (h : Reaches H b' s t) : Bad H w b b' s ∨ (Reaches H b s t ∧ t.Fits w) := by
  induction h with
  | refl => exact .inr ⟨.refl, hs⟩
  | tail _ hst ih =>
    obtain hbad | ⟨hr, hfits⟩ := ih
    · exact .inl hbad
    · obtain ⟨u, hu, hw⟩ | hst := step_agree hb hsmall hfits hst
      · exact .inl ⟨u, hr.trans hu, hw⟩
      · exact .inr ⟨hr.tail hst, hst.fits hfits⟩

lemma strays_agree {base : Nat} {items : List FixedItem} {fs : Frames}
    (h : strays b' w base items fs) : strays b w base items fs := by
  induction items generalizing fs with
  | nil => exact h
  | cons item items ih =>
    by_cases hw : w < wrapAdd base item.off + item.kind.width
    · exact .inl hw
    · obtain h | ⟨v, fs', hv, h⟩ := h
      · exact absurd h hw
      · rw [readFixedItem_agree hb (Nat.le_of_not_lt hw)] at hv
        exact .inr ⟨v, fs', hv, ih h⟩

lemma bitStrays_agree {base bitpos : Nat} {items : List BitItem} {fs : Frames} (hi : bitpos < u32Size)
    (h : bitStrays b' w base items bitpos fs) : bitStrays b w base items bitpos fs := by
  induction items generalizing bitpos fs with
  | nil => exact h
  | cons item items ih =>
    by_cases hbits : BitsBefore w base bitpos item.width
    · obtain h | ⟨v, fs', hv, hst, h⟩ := h
      · exact absurd hbits h
      · rw [readBits_agree hb hi hbits] at hv
        exact .inr ⟨v, fs', hv, hst, ih (wrapAddU32_lt _ _) h⟩
    · exact .inl hbits

lemma stray_agree {s : Site} (h : s.stray b' w) : s.stray b w := by
  obtain ⟨op, ops, limit, t, rfl, hst⟩ := stray_op h
  cases op with
  | fixed width items => exact ⟨hst.1, strays_agree hb hst.2⟩
  | bitRun nbytes items => exact ⟨hst.1, bitStrays_agree hb (by decide) hst.2⟩
  | _ => exact hst

lemma short_agree {s : Site} (hpos : s.cur.pos ≤ s.limit) (h : s.short b' w) : s.short b w := by
  have h₁ := hb.le
  have h₂ := hb.le'
  cases s with
  | value op limit cur =>
    obtain ⟨rfl, h⟩ := h
    refine ⟨rfl, ?_⟩
    cases op with
    | cstr max enc c =>
      obtain ⟨hmax, hz⟩ := h
      refine ⟨hmax, ?_⟩
      have hsame := slice_agree (ε := UFail) hb
        (show cur.pos + (limit - cur.pos) ≤ limit by simp only [Site.cur, Site.limit] at hpos; omega)
        (i := cur.pos)
      simp only [Site.cur, Site.limit] at hpos
      rw [slice_eq (by omega), slice_eq (by omega)] at hsame
      rwa [← Except.ok.inj hsame]
    | nest prog size c =>
      cases size with
      | none => exact h
      | some len => cases len <;> exact h
    | _ => exact h
  | rest ops limit s =>
    cases ops with
    | nil => exact h
    | cons op ops => cases op <;> exact h
  | _ => exact h

end TwoBuffers

section Ends

variable {H : Hashes} {b : Bytes}

/-- Neither a value nor a refusal. -/
def Undone (v : Option (Trap UFail)) : Prop := v = some .panic ∨ ∃ needed, v = some (.err (.incomplete needed))

lemma Undone.bind {x : URes α} {f : α → URes β} (h : Undone (verdict x)) : Undone (verdict (x >>= f)) := by
  obtain h | ⟨needed, h⟩ := h
  · exact .inl (verdict_bind h)
  · exact .inr ⟨needed, verdict_bind h⟩

lemma need_short {pos limit n : Nat} (hl : limit = b.length) (h : limit < pos + n) :
    Undone (verdict (need b pos limit n)) := by
  rw [need_eq, if_neg (by omega), if_pos hl]
  split_ifs
  · exact .inr ⟨_, rfl⟩
  · exact .inl rfl

/-- Running short where the buffer ends asks for more data, where the sum is a `usize`. -/
lemma short_verdict {s : Site} (hpos : s.cur.pos ≤ s.limit) (hsmall : b.length ≤ isizeMax)
    (h : s.short b b.length) : Undone (s.verdict H b) := by
  cases s with
  | value op limit cur =>
    obtain ⟨hl, h⟩ := h
    simp only [Site.cur, Site.limit] at hpos
    simp only [Site.verdict]
    cases op with
    | fixed width items => exact (need_short hl h).bind
    | bytes len max c | str len max enc c =>
      obtain ⟨n, hn, hlt⟩ := h
      simp only [opValue, doBytes, doStr, hn, Exec.bind_ok]
      exact (need_short hl hlt).bind
    | flags prim be items rest restMask c => exact (need_short hl h).bind
    | nest prog size c =>
      cases size with
      | none => exact h.elim
      | some len =>
        cases len with
        | greedy => exact h.elim
        | expr expr inv =>
          obtain ⟨sz, hsz, hlt⟩ := h
          simp only [opValue, doNest, hsz, Exec.bind_ok]
          exact (need_short hl hlt).bind
    | cstr max enc c =>
      obtain ⟨hmax, hz⟩ := h
      have hlt := isizeMax_lt_usizeMax
      have hscan : min (limit - cur.pos) (satAdd max 1) = limit - cur.pos :=
        Nat.min_eq_left (le_satAdd (by omega) (by omega))
      have hseen : ((b.drop cur.pos).take (limit - cur.pos)).findIdx? (fun b => b == 0) = none := by
        rw [List.findIdx?_eq_none_iff]
        intro x hx
        by_contra hne
        have h₀ : x = 0 := by simpa using hne
        exact hz (h₀ ▸ hx)
      simp only [opValue]
      rw [doCstr_eq max enc hpos (by omega), hscan]
      simp only [cstrEnd, hseen]
      rw [if_neg (by omega), if_pos hl]
      exact .inr ⟨1, rfl⟩
    | bitRun | digest | array | switch | cond => exact h.elim
  | rest ops limit s =>
    cases ops with
    | nil => exact h.elim
    | cons op ops =>
      simp only [Site.verdict, runOps]
      cases op with
      | fixed width items => exact (need_short h.1 h.2).bind.bind
      | bitRun nbytes items => exact (need_short h.1 h.2).bind.bind
      | digest algo overs verify be c =>
        have hn := need_short h.1 h.2
        rw [← verdict_mapErr fun e => bare_pushKey c.key e] at hn
        exact hn.bind.bind
      | _ => exact h.elim
  | body | count | eof => exact h.elim

lemma strays_panic {base : Nat} {items : List FixedItem} {fs : Frames} {map : List (String × Value)}
    (h : strays b b.length base items fs) : readFixedItems b base items fs map = Exec.panic := by
  induction items generalizing fs map with
  | nil => exact h.elim
  | cons item items ih =>
    rw [readFixedItems_cons]
    obtain h | ⟨v, fs', hv, h⟩ := h
    · have hslice : (slice b (wrapAdd base item.off) (wrapAdd base item.off + item.kind.width) :
          URes Bytes) = Exec.panic := if_neg (by omega)
      simp only [readFixedItem_eq, hslice]
      rfl
    · rw [hv]
      exact ih h

/-- A bit at or after the end of the buffer is an index out of bounds. -/
lemma readBitsFrom_panic {base width i v : Nat} (hi : i < u32Size) (h : ¬BitsBefore b.length base i width) :
    readBitsFrom b base width i v = Exec.panic := by
  induction width generalizing i v with
  | zero => exact absurd (fun k hk => absurd hk (Nat.not_lt_zero k)) h
  | succ width ih =>
    rw [readBitsFrom, readBit]
    cases hbyte : b[base + i / 8]? with
    | none => rfl
    | some byte =>
      have hlt := (List.getElem?_eq_some_iff.mp hbyte).1
      refine ih (wrapAddU32_lt i 1) fun hrest => h ?_
      exact hrest.cons hi (by omega)

lemma bitStrays_panic {base bitpos : Nat} {items : List BitItem} {fs : Frames} {map : List (String × Value)}
    (hi : bitpos < u32Size) (h : bitStrays b b.length base items bitpos fs) :
    readBitItems b base items bitpos fs map = Exec.panic := by
  induction items generalizing bitpos fs map with
  | nil => exact h.elim
  | cons item items ih =>
    rw [readBitItems_cons]
    obtain h | ⟨v, fs', hv, hst, h⟩ := h
    · rw [readBits, readBitsFrom_panic hi h]
      rfl
    · rw [hv, Exec.bind_ok, hst]
      exact ih (wrapAddU32_lt _ _) h

/-- Straying past the end of the buffer is an index out of bounds. -/
lemma stray_verdict {s : Site} (h : s.stray b b.length) : s.verdict H b = some .panic := by
  obtain ⟨op, ops, limit, t, rfl, hst⟩ := stray_op h
  simp only [Site.verdict, runOps]
  refine verdict_bind ?_
  cases op with
  | fixed width items =>
    simp only [runOp, runFixed, need, if_pos hst.1, Exec.bind_ok]
    rw [strays_panic hst.2]
    rfl
  | bitRun nbytes items =>
    simp only [runOp, runBitRun, need, if_pos hst.1, Exec.bind_ok]
    rw [bitStrays_panic (by decide) hst.2]
    rfl
  | _ => exact hst.elim

/-- A body in which something goes wrong at the end of the buffer is neither decoded nor refused. -/
lemma bad_end {b' : Bytes} {s : Site} (hs : s.Fits b.length) (hsmall : b.length ≤ isizeMax)
    (h : Bad H b.length b b' s) : Undone (s.verdict H b) := by
  obtain ⟨t, ht, hw⟩ := h
  obtain hstray | ⟨-, hshort⟩ := hw
  · exact .inl (ht.verdict (stray_verdict hstray))
  · have hfits : t.Fits b.length := ht.induct (fun _ _ h hst => hst.fits h) hs
    obtain hp | ⟨needed, hn⟩ := short_verdict (H := H) hfits.pos_le hsmall hshort
    · exact .inl (ht.verdict hp)
    · exact .inr ⟨needed, ht.verdict hn⟩

end Ends

/-- The body of a window ends in the same way in both buffers: with a value, or refused. -/
def Isolated (H : Hashes) (b b' : Bytes) (prog : Program) (w : Nat) (cur : Cur) : Prop :=
  runStruct H b' prog w cur = runStruct H b prog w cur ∧
    ((∃ r, runStruct H b prog w cur = .ok r) ∨
      ∃ inv, runStruct H b prog w cur = Exec.fail (.invalid inv))

section Isolation

variable {H : Hashes} {w : Nat} {b b' : Bytes} {prog : Program} {cur : Cur}

lemma AgreeTo.symm (h : AgreeTo w b b') : AgreeTo w b' b := ⟨h.take.symm, h.le', h.le⟩

lemma Isolated.verdict (h : Isolated H b b' prog w cur) :
    verdict (runStruct H b' prog w cur) ≠ some .panic ∧
      ∀ needed, verdict (runStruct H b' prog w cur) ≠ some (.err (.incomplete needed)) := by
  obtain ⟨he, ⟨r, hr⟩ | ⟨inv, hr⟩⟩ := h
  · simp [he, hr]
  · simp [he, hr, UFail.bare]

lemma isolated_of_kept (hb : AgreeTo w b b') (hsmall : b.length ≤ isizeMax)
    (hs : prog.Sound cur.fs.length) (hpos : cur.pos ≤ w) (h : ¬ Bad H w b b' (.body prog w cur)) :
    Isolated H b b' prog w cur := by
  obtain hbad | ⟨he, hsteady⟩ := sameBody hb hsmall prog w cur hs (Nat.le_refl _) hpos
  · exact absurd hbad h
  · have hfits : (Site.body prog w cur).Fits w := ⟨hs, hpos, Nat.le_refl _⟩
    have hfine := safeBody hb.le hsmall prog w cur hs (Nat.le_refl _) hpos
      fun hk => h (bad_of_astray hb hsmall hfits hk)
    refine ⟨he, ?_⟩
    cases hr : runStruct H b prog w cur using Exec.cases_on with
    | ok r => exact .inl ⟨r, rfl⟩
    | fail e =>
      cases e with
      | incomplete needed => exact absurd hr (hsteady needed)
      | invalid inv => exact .inr ⟨inv, rfl⟩
    | panic => exact absurd hr hfine.ne_panic

/-- Where the second buffer ends with the window, a body that strays or runs short in the first
does so in the second. -/
lemma not_isolated (hb : AgreeTo w b b') (hw : w = b'.length) (hsmall : b'.length ≤ isizeMax)
    (hs : (Site.body prog w cur).Fits w) {s : Site} (hr : Reaches H b (.body prog w cur) s)
    (h : s.stray b w ∨ s.short b w) : ¬ Isolated H b b' prog w cur := by
  intro hi
  have hbad : Bad H w b' b (.body prog w cur) := by
    obtain hbad | ⟨hr', hfits⟩ := reaches_agree hb.symm hsmall hs hr
    · exact hbad
    · refine ⟨s, hr', ?_⟩
      obtain h | h := h
      · exact .inl (stray_agree hb.symm h)
      · exact .inr ⟨by omega, short_agree hb.symm hfits.pos_le h⟩
  subst hw
  obtain hp | ⟨needed, hn⟩ := bad_end hs hsmall hbad
  · exact hi.verdict.1 hp
  · exact hi.verdict.2 needed hn

end Isolation

/-- A window that is reached in a run: the body of a sized struct, with the bytes of its size
present. -/
structure ReachedWindow (H : Hashes) (buf : Bytes) (prog : Program) (offset : Nat) (body : Program)
    (w : Nat) (cur : Cur) : Prop where
  nest : ∃ expr inv c limit sz,
    Reaches H buf (rootSite buf prog offset) (.value (.nest body (some (.expr expr inv)) c) limit cur) ∧
    evalLen cur.fs expr cur.pos = .ok sz ∧ cur.pos + sz ≤ limit ∧ w = cur.pos + sz

section Windows

variable {fields : List FieldIn} {opts : Options} {prog body : Program} {H : Hashes} {buf : Buffer}
  {offset w : Nat} {cur : Cur}

lemma ReachedWindow.fits (h : ReachedWindow H buf.bytes prog offset body w cur)
    (hc : compile fields opts = .ok prog) :
    (Site.body body w cur).Fits w ∧ w ≤ buf.bytes.length := by
  obtain ⟨expr, inv, c, limit, sz, hr, hsz, hfit, rfl⟩ := h.nest
  have hroot : (rootSite buf.bytes prog offset).Fits buf.bytes.length :=
    ⟨compile_sound hc, Nat.min_le_right _ _, Nat.le_refl _⟩
  have hnest := hr.induct (fun _ _ h hst => hst.fits h) hroot
  have hbody := Step.fits (H := H) (b := buf.bytes) hnest (.window hsz hfit)
  exact ⟨⟨hbody.sound, hbody.pos_le, Nat.le_refl _⟩, hbody.limit_le⟩

lemma ReachedWindow.every (h : ReachedWindow H buf.bytes prog offset body w cur) {P : Op → Prop}
    (hp : prog.Every P) : body.Every P := by
  obtain ⟨expr, inv, c, limit, sz, hr, -⟩ := h.nest
  have hroot : (rootSite buf.bytes prog offset).Every P := hp
  have hnest := hr.induct (fun _ _ h hst => hst.every h) hroot
  exact hnest.2

lemma agreeTo_take (h : w ≤ buf.bytes.length) : AgreeTo w buf.bytes (buf.bytes.take w) where
  take := by rw [List.take_take, Nat.min_self]
  le := h
  le' := by rw [List.length_take]; omega

/-- Whether a window is isolated from what follows it. In two buffers that agree up to its end,
its body ends in the same way exactly if both buffers go on after the window or the body
does not run short against its end. A body that reads past the end of the window, which takes a
run of fixed items whose widths wrap on `usize` or a run of bits that wrap on `u32`, is not isolated. -/
theorem window_isolated (hc : compile fields opts = .ok prog)
    (h : ReachedWindow H buf.bytes prog offset body w cur) :
    (¬ Hits H buf.bytes (Site.stray buf.bytes w) (.body body w cur) →
      ∀ other : Buffer, AgreeTo w buf.bytes other.bytes →
        (Isolated H buf.bytes other.bytes body w cur ↔
          (w < buf.bytes.length ∧ w < other.bytes.length) ∨
            ¬ Hits H buf.bytes (Site.short buf.bytes w) (.body body w cur))) ∧
    (Hits H buf.bytes (Site.stray buf.bytes w) (.body body w cur) →
      ¬ ∀ other : Buffer, AgreeTo w buf.bytes other.bytes →
        Isolated H buf.bytes other.bytes body w cur) ∧
    (prog.Every Op.widthsFit → prog.Every Op.bitsFit →
      ¬ Hits H buf.bytes (Site.stray buf.bytes w) (.body body w cur)) := by
  obtain ⟨hfits, hle⟩ := h.fits hc
  refine ⟨fun hstray other hb => ⟨fun hi => ?_, fun hcond => ?_⟩, fun ⟨s, hr, hs⟩ hall => ?_,
    fun hwidths hbits => ?_⟩
  · by_contra hn
    obtain ⟨hends, hshort⟩ := not_or.mp hn
    obtain ⟨s, hr, hs⟩ := not_not.mp hshort
    by_cases hw : w = other.bytes.length
    · exact not_isolated hb hw other.small hfits hr (.inr hs) hi
    · have hle' := hb.le'
      have hself : AgreeTo w buf.bytes buf.bytes := ⟨rfl, hle, hle⟩
      refine not_isolated hself (by omega) buf.small hfits hr (.inr hs) ⟨rfl, hi.2⟩
  · refine isolated_of_kept hb buf.small hfits.sound hfits.pos_le ?_
    rintro ⟨s, hr, hs | ⟨hends, hs⟩⟩
    · exact hstray ⟨s, hr, hs⟩
    · exact hcond.elim hends fun hn => hn ⟨s, hr, hs⟩
  · have hcut : (buf.bytes.take w).length = w := by rw [List.length_take]; omega
    have hsmall : (buf.bytes.take w).length ≤ isizeMax := by
      have := buf.small
      omega
    exact not_isolated (agreeTo_take hle) hcut.symm hsmall hfits hr (.inl hs)
      (hall ⟨_, hsmall⟩ (agreeTo_take hle))
  · refine not_stray_of_fits (Nat.le_trans hle buf.small) hfits.sound (h.every hwidths) (fun t ht => ?_)
      hfits.pos_le hfits.limit_le
    exact Site.bitsFit_of_every (ht.induct (fun _ _ h hst => hst.every h)
      (show (Site.body body w cur).Every Op.bitsFit from h.every hbits))

/-- A window of one byte for a terminated text. -/
def openFields : List FieldIn :=
  [.named "s" (.struct [.named "x" (.cstr none "utf-8" "strict")] none (some (.imm 1)))]

def openBody : Program := .mk [.cstr 67108864 .utf8 (.named "x")] 0 0 1 none

def openWindow : Program :=
  .mk [.nest openBody (some (.expr (.imm 1) none)) (.named "s")] 0 0 1 (some 1)

def openCur : Cur := (Scan.enter { fs := [], pos := 0 }).cur

lemma compile_openFields : compile openFields {} = .ok openWindow := by
  have h : Exec.returns (compile openFields {}) fun prog => prog.beq openWindow := by decide +kernel
  obtain ⟨prog, hp, hb⟩ := Exec.returns_iff.mp h
  rw [hp, Program.eq_of_beq hb]

lemma reached_openWindow (b c : Byte) :
    ReachedWindow .blank [b, c] openWindow 0 openBody 1 openCur := by
  refine ⟨_, _, _, _, 1, .tail (.tail .refl (.enter ?_)) (.field rfl), rfl, ?_, rfl⟩
  · exact Nat.zero_lt_succ 63
  · exact Nat.le_succ 1

/-- What follows the byte of the window does not matter while something does. -/
theorem window_isolated_open : Isolated .blank [5, 6] [5, 7] openBody 1 openCur :=
  have h := window_isolated compile_openFields
    (show ReachedWindow .blank (Buffer.mk [5, 6] (by decide)).bytes openWindow 0 openBody 1 openCur from
      reached_openWindow 5 6)
  (h.1 (h.2.2 (by decide) (by decide)) ⟨[5, 7], by decide⟩ ⟨rfl, by decide, by decide⟩).mpr
    (.inl ⟨by decide, by decide⟩)

/-- At the end of the buffer the same window asks for more data. -/
theorem openWindow_asks : compile openFields {} = .ok openWindow ∧
    ReachedWindow .blank [5, 6] openWindow 0 openBody 1 openCur ∧ AgreeTo 1 [5, 6] [5] ∧
    runStruct .blank [5, 6] openBody 1 openCur =
      Exec.fail (.invalid { kind := .unterminated, offset := 0, path := [.field "x"] }) ∧
    runStruct .blank [5] openBody 1 openCur = Exec.fail (.incomplete 1) ∧
    ¬ Isolated .blank [5, 6] [5] openBody 1 openCur := by
  have h₁ : runStruct .blank [5, 6] openBody 1 openCur =
      Exec.fail (.invalid { kind := .unterminated, offset := 0, path := [.field "x"] }) := by rfl
  have h₂ : runStruct .blank [5] openBody 1 openCur = Exec.fail (.incomplete 1) := by rfl
  refine ⟨compile_openFields, reached_openWindow 5 6, ⟨rfl, by decide, by decide⟩, h₁, h₂, ?_⟩
  intro hi
  have he := hi.1
  rw [h₁, h₂] at he
  simp at he

end Windows

end Rustruct

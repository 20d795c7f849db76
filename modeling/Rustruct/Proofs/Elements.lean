import Rustruct.Proofs.Carried
import Rustruct.Proofs.Flags
import Rustruct.Proofs.Piecewise

/-!
# The values of types

What an op reads in a value position is what the type it was lowered from says, over frames that hold
what has been read so far.
-/

namespace Rustruct

/-- The digest that was read is that of its pieces. -/
def Check.Holds (H : Hashes) (c : Check) : Prop := c.read = digestOf H c.algo c.pieces

/-- The integers that are referred to fit a register, and the digests that are verified hold. -/
structure Facts.Ok (H : Hashes) (f : Facts) : Prop where
  refs : ∀ n ∈ f.refs, InI64 n
  checks : ∀ c ∈ f.checks, c.verify → c.Holds H

section Facts

variable {H : Hashes} {f g : Facts}

lemma facts_refs_ok {refs : List Int} (h : ∀ n ∈ refs, InI64 n) : (⟨refs, []⟩ : Facts).Ok H :=
  ⟨h, fun _ hc => absurd hc List.not_mem_nil⟩

lemma facts_checks_ok {checks : List Check} (h : ∀ c ∈ checks, c.verify → c.Holds H) : (⟨[], checks⟩ : Facts).Ok H :=
  ⟨fun _ hn => absurd hn List.not_mem_nil, h⟩

lemma facts_none_ok : Facts.none.Ok H := facts_refs_ok fun _ hn => absurd hn List.not_mem_nil

lemma facts_append_ok : (f.append g).Ok H ↔ f.Ok H ∧ g.Ok H := by
  constructor
  · intro h
    exact ⟨⟨fun n hn => h.refs n (List.mem_append_left _ hn), fun c hc => h.checks c (List.mem_append_left _ hc)⟩,
      fun n hn => h.refs n (List.mem_append_right _ hn), fun c hc => h.checks c (List.mem_append_right _ hc)⟩
  · rintro ⟨hf, hg⟩
    constructor
    · intro n hn
      rcases List.mem_append.mp hn with hn | hn
      · exact hf.refs n hn
      · exact hg.refs n hn
    · intro c hc
      rcases List.mem_append.mp hc with hc | hc
      · exact hf.checks c hc
      · exact hg.checks c hc

end Facts

/-- A value and the place after it are those of the part, and the frames are as they were. -/
structure PartIs (fs : Frames) (r : Value × Cur) (part : Part) : Prop where
  value : part.value = some r.1
  bit : part.bit = 8 * r.2.pos
  digest : part.digest = none
  frames : r.2.fs = fs

/-- The machine returns exactly when the reading has a part that is fine, and it returns that part. -/
abbrev Reads (H : Hashes) (fs : Frames) (x : URes (Value × Cur)) (y : Option Part) : Prop :=
  Exec.Mirrors (PartIs fs) (fun part => part.facts.Ok H) x y

lemma byteOf_mul (pos : Nat) : byteOf (8 * pos) = some pos := by
  have hmod : 8 * pos % 8 = 0 := by omega
  have hdiv : 8 * pos / 8 = pos := by omega
  rw [byteOf, if_pos hmod, hdiv]

section Leaves

variable {H : Hashes} {buf : Bytes} {limit pos : Nat} {fs : Frames}

/-- Bytes that are there, and what is made of them. -/
lemma reads_flat (hl : limit ≤ buf.length) {n : Nat} {value : Bytes → Option Value} {f : Bytes → URes (Value × Cur)}
    (hf : ∀ raw, Exec.Mirrors (fun r v => r = (v, { fs, pos := pos + n })) (fun _ => True) (f raw) (value raw)) :
    Reads H fs (need buf pos limit n >>= fun _ => slice buf pos (pos + n) >>= f) (readFlat buf n value limit (8 * pos)) := by
  have hread : readFlat buf n value limit (8 * pos) =
      if pos + n ≤ limit then (value ((buf.drop pos).take n)).map fun v => .upTo (pos + n) v .none else none := by
    rw [readFlat, byteOf_mul, Option.bind_eq_bind, Option.bind_some, bytesIn]
    by_cases hfit : pos + n ≤ limit
    · rw [if_pos hfit, if_pos hfit, Option.bind_eq_bind, Option.bind_some]
      cases value ((buf.drop pos).take n) <;> rfl
    · rw [if_neg hfit, if_neg hfit]
      rfl
  rw [hread]
  by_cases hfit : pos + n ≤ limit
  · have hneed : need buf pos limit n = .ok () := need_eq_ok.mpr hfit
    rw [if_pos hfit, hneed, Exec.bind_ok, slice_eq (by omega), Exec.bind_ok]
    constructor
    · intro r hr
      obtain ⟨v, hv, -, rfl⟩ := (hf _).ok r hr
      exact ⟨_, by rw [hv]; rfl, facts_none_ok, rfl, rfl, rfl, rfl⟩
    · intro part hp _
      obtain ⟨v, hv, rfl⟩ := Option.map_eq_some_iff.mp hp
      obtain ⟨r, hr, rfl⟩ := (hf _).some v hv trivial
      exact ⟨_, hr, rfl, rfl, rfl, rfl⟩
  · rw [if_neg hfit]
    refine .of_none ?_
    intro r hr
    obtain ⟨_, hneed, -⟩ := Exec.bind_eq_ok.mp hr
    exact hfit (need_eq_ok.mp hneed)

lemma mirrors_ok {α β ε : Type} {R : α → β → Prop} {a : α} {b : β} (h : R a b) :
    Exec.Mirrors R (fun _ => True) (.ok a : Exec ε α) (some b) := .of_some trivial h

/-- A fixed item on its own. -/
lemma reads_fixed (hl : limit ≤ buf.length) (hlen : buf.length ≤ isizeMax) (hpos : pos ≤ limit) (kind : FixKind) :
    Reads H fs (opValue H buf (fixed1 kind) limit { fs, pos })
      (readFlat buf kind.width (fun raw => if kind.accepts raw then some (kind.value raw) else none) limit (8 * pos)) := by
  have hmax := isizeMax_lt
  have hwrap : wrapAdd pos 0 = pos := wrapAdd_of_lt (by omega)
  have hvalue : opValue H buf (fixed1 kind) limit { fs, pos } = need buf pos limit kind.width >>= fun _ =>
      slice buf pos (pos + kind.width) >>= fun raw =>
        if kind.accepts raw then .ok (kind.value raw, { fs, pos := pos + kind.width }) else invalid .const pos := by
    rw [fixed1, opValue, doFixed]
    simp only [List.head?_cons, Exec.expect_some, Exec.bind_ok, readFixedItem_eq, hwrap]
    congr 1
    funext _
    cases hraw : (slice buf pos (pos + kind.width) : URes Bytes) with
    | error t => rfl
    | ok raw =>
      rw [Exec.bind_ok, Exec.bind_ok]
      by_cases hacc : kind.accepts raw
      · rw [if_pos hacc, if_pos hacc]
        cases hint : kind.int? raw <;> rfl
      · rw [if_neg hacc, if_neg hacc]
        rfl
  rw [hvalue]
  apply reads_flat hl
  intro raw
  by_cases hacc : kind.accepts raw
  · rw [if_pos hacc, if_pos hacc]
    exact mirrors_ok rfl
  · rw [if_neg hacc, if_neg hacc]
    exact .of_error

/-- As many bytes as a length says, at most `max`. -/
lemma reads_counted {size : Nat} {Γ : Env} {seen : Seen} (hΓ : EnvOk Γ) (hc : EnvCarries size Γ seen fs)
    (hl : limit ≤ buf.length) (hpos : pos ≤ limit) {e : ExprIn} {len : LenSrc} (h : LowersLen Γ e len) {max : Nat}
    {value : Bytes → Option Value} {f : Nat → Bytes → URes (Value × Cur)}
    (hf : ∀ n raw, Exec.Mirrors (fun r v => r = (v, { fs, pos := pos + n })) (fun _ => True) (f n raw) (value raw)) :
    Reads H fs (resolveLen fs len max pos limit >>= fun n => need buf pos limit n >>= fun _ => slice buf pos (pos + n) >>= f n)
      (readCounted buf seen e max value limit (8 * pos)) := by
  have hread : readCounted buf seen e max value limit (8 * pos) = (e.length seen limit pos).bind fun n =>
      if n > max then none else readFlat buf n value limit (8 * pos) := by
    rw [readCounted, byteOf_mul]
    rfl
  have hlen : resolveLen fs len max pos limit >>= (fun n => need buf pos limit n >>= fun _ => slice buf pos (pos + n) >>= f n) =
      wantedLen fs len pos limit >>= fun n => if n > max then invalid .limit pos else
        need buf pos limit n >>= fun _ => slice buf pos (pos + n) >>= f n := by
    rw [resolveLen]
    cases wantedLen fs len pos limit with
    | error t => rfl
    | ok n =>
      rw [Exec.bind_ok, Exec.bind_ok]
      by_cases hmax : n > max
      · rw [if_pos hmax, if_pos hmax]
        rfl
      · rw [if_neg hmax, if_neg hmax]
        rfl
  rw [hread, hlen]
  refine (h.mirrors hΓ hc hpos).bind (fun _ _ _ _ => trivial) ?_
  rintro n - rfl -
  by_cases hmax : n > max
  · rw [if_pos hmax, if_pos hmax]
    exact .of_error
  · rw [if_neg hmax, if_neg hmax]
    exact reads_flat hl (hf n)

/-- Text that has to be decoded. -/
lemma mirrors_decode {n : Nat} {enc : Enc} {raw : Bytes} :
    Exec.Mirrors (fun r v => r = (v, { fs, pos := pos + n })) (fun _ => True)
      (match decode raw enc with
        | some s => .ok (.str s, { fs, pos := pos + n })
        | none => invalid .decode pos : URes (Value × Cur))
      ((decode raw enc).map .str) := by
  cases decode raw enc with
  | some s => exact mirrors_ok rfl
  | none => exact .of_error

/-- A terminator within the bytes that are scanned is one within `max`. -/
lemma findIdx?_scan {p : Byte → Bool} {data : Bytes} {window max : Nat} (hw : window < usizeSize) :
    (data.take (min window (satAdd max 1))).findIdx? p =
      ((data.take window).findIdx? p).bind fun i => if i > max then none else some i := by
  have hmax : usizeMax + 1 = usizeSize := by decide
  rw [List.findIdx?_take, List.findIdx?_take]
  cases data.findIdx? p with
  | none => rfl
  | some i =>
    have hmin : i < min window (satAdd max 1) ↔ i < window ∧ i ≤ max := by
      unfold satAdd
      omega
    simp only [Option.bind_some, Option.guard]
    by_cases hi : i < window
    · by_cases hle : i ≤ max
      · simp [hi, hle, hmin]
      · simp [hi, hle, hmin, Nat.lt_of_not_le hle]
    · simp [hi, hmin]

lemma reads_terminated (hl : limit ≤ buf.length) (hlen : buf.length ≤ isizeMax) (hpos : pos ≤ limit) {max : Nat} {enc : Enc} :
    Reads H fs (doCstr buf max enc limit { fs, pos })
      (readTerminated buf max (fun raw => (decode raw enc).map .str) limit (8 * pos)) := by
  have hmax := isizeMax_lt
  have hread : readTerminated buf max (fun raw => (decode raw enc).map .str) limit (8 * pos) =
      (((buf.drop pos).take (min (limit - pos) (satAdd max 1))).findIdx? fun b => b == 0).bind fun n =>
        ((decode ((buf.drop pos).take n) enc).map .str).map fun v => .upTo (pos + n + 1) v .none := by
    rw [findIdx?_scan (by omega), readTerminated, byteOf_mul, Option.bind_eq_bind, Option.bind_some]
    cases ((buf.drop pos).take (limit - pos)).findIdx? fun b => b == 0 with
    | none => rfl
    | some n =>
      rw [Option.bind_eq_bind, Option.bind_some, Option.bind_some]
      by_cases hn : n > max
      · rw [if_pos hn, if_pos hn]
        rfl
      · rw [if_neg hn, if_neg hn, Option.bind_some]
        cases decode ((buf.drop pos).take n) enc <;> rfl
  rw [hread, doCstr_eq max enc hpos hl, cstrEnd]
  cases hfind : ((buf.drop pos).take (min (limit - pos) (satAdd max 1))).findIdx? fun b => b == 0 with
  | none =>
    refine .of_none ?_
    dsimp only
    split_ifs <;> simp [invalid]
  | some n =>
    have hn : pos + n ≤ buf.length := by
      obtain ⟨hlt, -⟩ := List.findIdx?_eq_some_iff_getElem.mp hfind
      rw [List.length_take, List.length_drop] at hlt
      omega
    rw [Option.bind_some]
    dsimp only
    rw [cstrAt, slice_eq hn, Exec.bind_ok]
    cases decode ((buf.drop pos).take n) enc with
    | none => exact .of_error
    | some s => exact .of_some facts_none_ok ⟨rfl, rfl, rfl, rfl⟩

lemma flagItems_eq {base : IntPrim} {baseMask : U64} {names : List (String × U64)} :
    ∀ {items items' : List FlagItem} {union union' : U64},
      flagItems base baseMask names items union = .ok (items', union') →
        items' = items ++ names.map (fun n =>
            { key := n.1, mask := n.2, shift := trailingZeros n.2, isBool := countOnes n.2 == 1 }) ∧
          union' = names.foldl (fun union n => union ||| n.2) union := by
  induction names with
  | nil =>
    intro items items' union union' h
    cases h
    exact ⟨(List.append_nil _).symm, rfl⟩
  | cons entry names ih =>
    intro items items' union union' h
    obtain ⟨fname, m⟩ := entry
    rw [flagItems] at h
    dsimp only at h
    split_ifs at h
    · cases h
    · cases h
    · cases h
    · cases h
    · cases h
    · cases h
    obtain ⟨hitems, hunion⟩ := ih h
    refine ⟨?_, hunion⟩
    rw [hitems, List.append_assoc]
    rfl

/-- Shifting out zeros keeps what is not zero. -/
lemma flagValue_eq {item : FlagItem} {width : Nat} (h : item.Fine width) (hshift : item.shift = trailingZeros item.mask)
    (hbool : item.isBool = (countOnes item.mask == 1)) (raw : U64) : flagValue raw item = flagOf raw item.mask := by
  have hback := shiftBack h raw
  have hzero : (raw &&& item.mask) >>> item.shift = 0#64 ↔ raw &&& item.mask = 0#64 := by
    constructor
    · intro hs
      rw [← hback, hs, BitVec.zero_shiftLeft]
    · intro hs
      rw [hs, BitVec.zero_ushiftRight]
  have hbne : ((raw &&& item.mask) >>> item.shift != 0#64) = (raw &&& item.mask != 0#64) := by
    rw [Bool.eq_iff_iff, bne_iff_ne, bne_iff_ne, Ne, Ne, hzero]
  unfold flagValue flagOf
  simp only [hbool, hbne, ← hshift, beq_iff_eq]

/-- The values of all names, and the bits that no name covers. -/
lemma reads_flags (hl : limit ≤ buf.length) {base : IntPrim} {be : Bool} {names : List (String × U64)} {rest : String}
    {c : Common} {op : Op} (h : compileFlags base be names rest c = .ok op) :
    ∃ policy, restPolicies.parse rest = .ok policy ∧ Reads H fs (opValue H buf op limit { fs, pos })
      (readFlat buf base.width (flagsOf base be names policy) limit (8 * pos)) := by
  unfold compileFlags at h
  split_ifs at h
  · cases h
  obtain ⟨⟨items, union⟩, hitems, h⟩ := Exec.bind_eq_ok.mp h
  dsimp only at h
  cases hpolicy : restPolicies.parse rest with
  | error msg =>
    rw [hpolicy] at h
    cases h
  | ok policy =>
    rw [hpolicy] at h
    cases h
    refine ⟨policy, rfl, ?_⟩
    obtain ⟨hok, -⟩ := flagItems_ok hitems .nil
    obtain ⟨hall, hunion⟩ := flagItems_eq hitems
    have hmap (raw : U64) : items.map (fun item => (item.key, flagValue raw item)) =
        names.map fun n => (n.1, flagOf raw n.2) := by
      have heach : items.map (fun item => (item.key, flagValue raw item)) =
          items.map fun item => (item.key, flagOf raw item.mask) := by
        apply List.map_congr_left
        intro item hi
        obtain ⟨width, hfine⟩ := hok.fine item hi
        rw [hall, List.nil_append] at hi
        obtain ⟨n, -, rfl⟩ := List.mem_map.mp hi
        rw [flagValue_eq hfine rfl rfl]
      rw [heach, hall, List.nil_append, List.map_map]
      rfl
    rw [opValue]
    unfold doFlags
    apply reads_flat hl
    intro raw
    simp only [setFlags_value, mapSet_value, Exec.bind_ok, List.nil_append, hmap, hunion]
    unfold flagsOf
    cases policy with
    | keep => exact mirrors_ok rfl
    | ignore => exact mirrors_ok rfl
    | strict =>
      dsimp only
      split_ifs
      · exact .of_error
      · exact mirrors_ok rfl

end Leaves

section Loops

variable {H : Hashes} {limit : Nat} {fs : Frames} {sem : Sem} {elem : Nat → Option Part}

/-- The elements after those of `out`. -/
structure ListIs (fs : Frames) (out : List Value) (r : Value × Cur) (l : List Value × Nat × Facts) : Prop where
  value : r.1 = .list (out ++ l.1)
  bit : l.2.1 = 8 * r.2.pos
  frames : r.2.fs = fs

abbrev ReadsList (H : Hashes) (fs : Frames) (out : List Value) (x : URes (Value × Cur))
    (y : Option (List Value × Nat × Facts)) : Prop :=
  Exec.Mirrors (ListIs fs out) (fun l => l.2.2.Ok H) x y

lemma readsList_nil (out : List Value) (pos : Nat) :
    ReadsList H fs out (.ok (.list out, { fs, pos })) (some ([], 8 * pos, .none)) := by
  refine .of_some ?_ ⟨by rw [List.append_nil], rfl, rfl⟩
  exact facts_none_ok

/-- One element, and those after it. -/
lemma readsList_cons (hadv : Advances sem) (helem : ∀ pos ≤ limit, Reads H fs (sem limit { fs, pos }) (elem (8 * pos)))
    {pos i : Nat} (hpos : pos ≤ limit) {out : List Value} {loop : List Value → Cur → URes (Value × Cur)}
    {rest : Nat → Option (List Value × Nat × Facts)}
    (hrest : ∀ out pos, pos ≤ limit → ReadsList H fs out (loop out { fs, pos }) (rest (8 * pos))) :
    ReadsList H fs out
      (do
        let (v, cur) ← Exec.mapErr (fun e => e.seg (.index i)) (sem limit { fs, pos })
        loop (out ++ [v]) cur)
      (do
        let part ← elem (8 * pos)
        let v ← part.value
        let (vs, bit, facts) ← rest part.bit
        some (v :: vs, bit, part.facts.append facts)) := by
  have hsem : Exec.Mirrors (fun r part => PartIs fs r part ∧ r.2.pos ≤ limit) (fun part => part.facts.Ok H)
      (sem limit { fs, pos }) (elem (8 * pos)) := by
    constructor
    · intro r hr
      obtain ⟨part, hpart, hok, his⟩ := (helem pos hpos).ok r hr
      exact ⟨part, hpart, hok, his, (hadv limit _ _ _ hr).2 hpos⟩
    · intro part hpart hok
      obtain ⟨r, hr, his⟩ := (helem pos hpos).some part hpart hok
      exact ⟨r, hr, his, (hadv limit _ _ _ hr).2 hpos⟩
  refine hsem.mapErr.bind ?_ ?_
  · intro part l hl hok
    obtain ⟨v, -, hl⟩ := Option.bind_eq_some_iff.mp hl
    obtain ⟨⟨vs, bit, facts⟩, -, hl⟩ := Option.bind_eq_some_iff.mp hl
    cases hl
    exact (facts_append_ok.mp hok).1
  · rintro ⟨v, ⟨fs', pos'⟩⟩ part ⟨⟨hvalue, hbit, -, hfs⟩, hle⟩ hok
    obtain rfl : fs' = fs := hfs
    rw [hvalue, Option.bind_eq_bind, Option.bind_some, hbit]
    have hmore := hrest (out ++ [v]) pos' hle
    constructor
    · intro r hr
      obtain ⟨⟨vs, bit, facts⟩, hvs, hfacts, his⟩ := hmore.ok r hr
      refine ⟨(v :: vs, bit, part.facts.append facts), ?_, facts_append_ok.mpr ⟨hok, hfacts⟩, ?_⟩
      · rw [hvs]
        rfl
      · exact ⟨by rw [his.value, List.append_assoc]; rfl, his.bit, his.frames⟩
    · intro l hl hfacts
      obtain ⟨⟨vs, bit, facts⟩, hvs, hl⟩ := Option.bind_eq_some_iff.mp hl
      cases hl
      obtain ⟨r, hr, his⟩ := hmore.some _ hvs (facts_append_ok.mp hfacts).2
      exact ⟨r, hr, by rw [his.value, List.append_assoc]; rfl, his.bit, his.frames⟩

lemma reads_many (hadv : Advances sem) (helem : ∀ pos ≤ limit, Reads H fs (sem limit { fs, pos }) (elem (8 * pos)))
    (n i : Nat) (out : List Value) (pos : Nat) (hpos : pos ≤ limit) :
    ReadsList H fs out (countLoop sem limit n i out { fs, pos }) (readMany elem n (8 * pos)) := by
  induction n generalizing i out pos with
  | zero => exact readsList_nil out pos
  | succ n ih => exact readsList_cons hadv helem hpos fun out pos hpos => ih (i + 1) out pos hpos

lemma reads_until (hadv : Advances sem) (helem : ∀ pos ≤ limit, Reads H fs (sem limit { fs, pos }) (elem (8 * pos)))
    (left i : Nat) (out : List Value) (pos : Nat) (hpos : pos ≤ limit) :
    ReadsList H fs out (eofLoop sem limit left i out { fs, pos }) (readUntil elem limit left (8 * pos)) := by
  have hiff {pos : Nat} : 8 * pos < 8 * limit ↔ pos < limit := by omega
  induction left generalizing i out pos with
  | zero =>
    rw [eofLoop, readUntil]
    simp only [hiff]
    by_cases hlt : pos < limit
    · rw [if_pos hlt, if_pos hlt]
      exact .of_error
    · rw [if_neg hlt, if_neg hlt]
      exact readsList_nil out pos
  | succ left ih =>
    rw [eofLoop, readUntil]
    simp only [hiff]
    by_cases hlt : pos < limit
    · rw [if_pos hlt, if_pos hlt]
      exact readsList_cons hadv helem hpos fun out pos hpos => ih (i + 1) out pos hpos
    · rw [if_neg hlt, if_neg hlt]
      exact readsList_nil out pos

lemma ReadsList.part {x : URes (Value × Cur)} {y : Option (List Value × Nat × Facts)} (h : ReadsList H fs [] x y) :
    Reads H fs x (y.map listPart) := by
  constructor
  · intro r hr
    obtain ⟨l, rfl, hok, his⟩ := h.ok r hr
    exact ⟨listPart l, rfl, hok, by rw [his.value]; rfl, his.bit, rfl, his.frames⟩
  · intro part hpart hok
    obtain ⟨l, hl, rfl⟩ := Option.map_eq_some_iff.mp hpart
    obtain ⟨r, hr, his⟩ := h.some l hl hok
    exact ⟨r, hr, by rw [his.value]; rfl, his.bit, rfl, his.frames⟩

end Loops

section Values

variable {H : Hashes} {buf : Bytes} {limit pos size : Nat} {fs : Frames} {Γ : Env} {seen : Seen}
  (hΓ : EnvOk Γ) (hc : EnvCarries size Γ seen fs)

include hΓ hc

lemma reads_array (hpos : pos ≤ limit) {count : Option ExprIn} {untilEof : Bool} {count' : CountSrc}
    (hcount : LowersCount Γ count untilEof count') {sem : Sem} {elem : Nat → Option Part} (hadv : Advances sem)
    (helem : ∀ pos ≤ limit, Reads H fs (sem limit { fs, pos }) (elem (8 * pos))) (maxCount : Nat) :
    Reads H fs (doArray count' maxCount sem limit { fs, pos })
      ((countOf seen count).bind fun n => readList elem maxCount limit (8 * pos) n) := by
  have huntil : Reads H fs (doArray .untilEof maxCount sem limit { fs, pos })
      ((readUntil elem limit maxCount (8 * pos)).map listPart) :=
    (reads_until hadv helem maxCount 0 [] pos hpos).part
  have hcounted : ∀ (e : ExprIn) (expr : Expr) (inv : Option Inv), e ≠ .greedy → LowersLen Γ e (.expr expr inv) →
      Reads H fs (doArray (.expr expr inv) maxCount sem limit { fs, pos })
        ((countOf seen (some e)).bind fun n => readList elem maxCount limit (8 * pos) n) := by
    intro e expr inv hne hlen
    have hof : countOf seen (some e) = (e.read seen).bind fun n => if n < 0 then none else some (some n.toNat) := by
      cases e with
      | greedy => exact absurd rfl hne
      | imm | ref | bin => rfl
    rw [hof, Option.bind_assoc]
    refine (hlen.mirrors_eval hΓ hc pos).bind (fun _ _ _ _ => trivial) ?_
    rintro n - rfl -
    by_cases hneg : n < 0
    · rw [if_pos hneg, if_pos hneg]
      exact .of_error
    · rw [if_neg hneg, if_neg hneg, Option.bind_some, readList]
      by_cases hmax : n.toNat > maxCount
      · rw [if_pos hmax, if_pos hmax]
        exact .of_error
      · rw [if_neg hmax, if_neg hmax, checkedSub_of_le hpos, Exec.bind_ok]
        exact (reads_many hadv helem n.toNat 0 [] pos hpos).part
  match count, untilEof with
  | none, true =>
    obtain rfl : count' = .untilEof := hcount
    exact huntil
  | none, false => exact hcount.elim
  | some e, true => cases e <;> exact hcount.elim
  | some .greedy, false =>
    obtain rfl : count' = .untilEof := hcount
    exact huntil
  | some (.imm _), false | some (.ref _), false | some (.bin _ _ _), false =>
    obtain ⟨expr, inv, hlen, rfl⟩ := hcount
    exact hcounted _ expr inv (by simp) hlen

lemma reads_switch {on : ExprIn} {on' : Expr} (hon : LowersExpr Γ .on on on') {branch : Int → Option Sem}
    {part : Int → Option Part}
    (h : ∀ tag, (∃ sem, branch tag = some sem ∧ Reads H fs (sem limit { fs, pos }) (part tag)) ∨
      branch tag = none ∧ part tag = none) :
    Reads H fs (doSwitch on' branch limit { fs, pos }) ((on.read seen).bind part) := by
  refine (hon.mirrors_eval hΓ hc pos).bind (fun _ _ _ _ => trivial) ?_
  rintro tag - rfl -
  rcases h tag with ⟨sem, hsem, hreads⟩ | ⟨hsem, hpart⟩
  · rw [hsem]
    exact hreads
  · rw [hsem, hpart]
    exact .of_error

/-- A struct in a region of exactly its size. -/
lemma reads_nest (hpos : pos ≤ limit) (hl : limit ≤ buf.length) {sz : Option ExprIn} {sz' : Option LenSrc}
    (hsize : LowersSize Γ sz sz') {sem : Sem} {body : Nat → Option Part}
    (h : ∀ region, pos ≤ region → region ≤ buf.length → Reads H fs (sem region { fs, pos }) (body region)) :
    Reads H fs (doNest buf sem sz' limit { fs, pos })
      ((regionOf seen sz limit pos).bind fun region => (body region).bind fun part =>
        if sz.isSome ∧ part.bit ≠ 8 * region then none else some part) := by
  cases sz with
  | none =>
    obtain rfl : sz' = none := hsize
    have hbody := h limit hpos hl
    have hid : ((body limit).bind fun part =>
        if (Option.none : Option ExprIn).isSome ∧ part.bit ≠ 8 * limit then none else some part) = body limit := by
      simp
    rw [regionOf, Option.bind_some, hid]
    exact hbody
  | some e =>
    obtain ⟨len, hlen, hne, rfl⟩ := hsize
    cases len with
    | greedy => exact absurd rfl hne
    | expr expr inv =>
      have hreg : regionOf seen (some e) limit pos = ((e.read seen).bind natural).bind fun n =>
          if pos + n ≤ limit then some (pos + n) else none := by
        rw [regionOf, Option.bind_assoc, Option.bind_eq_bind]
        congr 1
        funext n
        unfold natural
        by_cases hneg : n < 0
        · rw [if_pos (.inl hneg), if_pos hneg]
          rfl
        · rw [if_neg hneg, Option.bind_some]
          by_cases hfit : pos + n.toNat ≤ limit
          · rw [if_neg (by omega), if_pos hfit]
          · rw [if_pos (by omega), if_neg hfit]
      rw [hreg, Option.bind_assoc]
      refine (hlen.mirrors_evalLen hΓ hc pos).bind (fun _ _ _ _ => trivial) ?_
      rintro n - rfl -
      by_cases hfit : pos + n ≤ limit
      · have hneed : need buf pos limit n = .ok () := need_eq_ok.mpr hfit
        rw [if_pos hfit, Option.bind_some, hneed, Exec.bind_ok]
        have hbody := h (pos + n) (Nat.le_add_right _ _) (by omega)
        refine hbody.bind ?_ ?_
        · intro part part' hpart hok
          split_ifs at hpart
          cases hpart
          exact hok
        · rintro ⟨v, next⟩ part his hok
          have hiff : part.bit ≠ 8 * (pos + n) ↔ next.pos ≠ pos + n := by
            rw [his.bit]
            dsimp only
            omega
          dsimp only
          by_cases hend : next.pos = pos + n
          · rw [if_neg (not_not.mpr hend), if_neg (by rw [hiff]; simp [hend])]
            exact .of_some hok his
          · rw [if_pos hend, if_pos ⟨rfl, hiff.mpr hend⟩]
            exact .of_error
      · rw [if_neg hfit]
        refine .of_none ?_
        intro r hr
        obtain ⟨_, hneed, -⟩ := Exec.bind_eq_ok.mp hr
        exact hfit (need_eq_ok.mp hneed)

end Values

end Rustruct

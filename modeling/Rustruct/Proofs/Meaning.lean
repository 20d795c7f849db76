import Rustruct.Proofs.ScopeReads

/-!
# What a compiled program means

For every type, the ops it is lowered to read what the type says. So a run of a compiled program is the
direct reading of its schema.
-/

namespace Rustruct

section Types

variable {opts : Options} {H : Hashes} {buf : Bytes}

/-- A fixed item, read on its own. -/
def fixedRead (buf : Bytes) (k : FixKind) (limit bit : Nat) : Option Part :=
  readFlat buf k.width (fun raw => if k.accepts raw then some (k.value raw) else none) limit bit

/-- A derived field is read like any other. -/
lemma fixedRead_markDerived (k : FixKind) : fixedRead buf k.markDerived = fixedRead buf k := by
  cases k <;> rfl

lemma typeReads_fixed (hlen : buf.length ≤ isizeMax) {ty : TypeIn}
    (helem : ∀ {Γ bo op}, LowersElem opts ty Γ bo op → ∃ k, op = fixed1 k ∧
      ∀ seen limit bit, ty.read opts buf bo seen limit bit = fixedRead buf k limit bit)
    (hfield : ∀ {Γ bo name atom kind}, LowersField opts ty Γ bo name atom kind → ∃ k, atom = .fixed k (keyOf name) ∧
      (kind.refable → ∀ raw, (k.int? raw).isSome) ∧
      ∀ seen limit bit, ty.read opts buf bo seen limit bit = fixedRead buf k limit bit) :
    TypeReads opts H buf ty := by
  constructor
  · intro Γ seen fs bo op limit pos _ _ _ _ hop hpos hl
    obtain ⟨k, rfl, hread⟩ := helem hop
    rw [hread]
    exact reads_fixed hl hlen hpos k
  · intro Γ seen f fs bo name atom kind full p limit bit map deferred _ _ _ hlow hr hn _ hl
    obtain ⟨k, rfl, hint, hread⟩ := hfield hlow
    have hp : p = .fixed (if derivedOf full (keyOf name) then k.markDerived else k) (regOf full (keyOf name))
      (spanOf full (keyOf name)) (keyOf name) := hr
    rw [hp, hread]
    by_cases hd : derivedOf full (keyOf name) = true
    · rw [if_pos hd, ← fixedRead_markDerived]
      refine step_fixed hl hlen hn _ fun href raw => ?_
      have hsame : k.markDerived.int? raw = k.int? raw := by cases k <;> rfl
      rw [hsame]
      exact hint href raw
    · rw [if_neg hd]
      exact step_fixed hl hlen hn k hint

lemma typeReads_int (hlen : buf.length ≤ isizeMax) (prim : IntPrim) (byteorder : Option ByteOrder) (const : Option Int) :
    TypeReads opts H buf (.int prim byteorder const) := by
  apply typeReads_fixed hlen
  · rintro Γ bo op ⟨-, rfl⟩
    refine ⟨_, rfl, fun seen limit bit => ?_⟩
    rw [TypeIn.read]
    rfl
  · rintro Γ bo name atom kind ⟨-, rfl, rfl⟩
    refine ⟨_, rfl, fun _ _ => rfl, fun seen limit bit => ?_⟩
    rw [TypeIn.read]
    rfl

lemma typeReads_float (hlen : buf.length ≤ isizeMax) (is64 : Bool) (byteorder : Option ByteOrder) :
    TypeReads opts H buf (.float is64 byteorder) := by
  have hread : ∀ bo seen limit bit, (TypeIn.float is64 byteorder).read opts buf bo seen limit bit =
      fixedRead buf (if is64 then .f64 (orderOf byteorder bo) else .f32 (orderOf byteorder bo)) limit bit := by
    intro bo seen limit bit
    rw [TypeIn.read]
    cases is64 <;> rfl
  apply typeReads_fixed hlen
  · intro Γ bo op hop
    exact ⟨_, hop, hread bo⟩
  · rintro Γ bo name atom kind ⟨rfl, rfl⟩
    exact ⟨_, rfl, (fun h => by cases h), hread bo⟩

lemma typeReads_bool (hlen : buf.length ≤ isizeMax) (const : Option Bool) : TypeReads opts H buf (.bool const) := by
  have hread : ∀ bo seen limit bit, (TypeIn.bool const).read opts buf bo seen limit bit =
      fixedRead buf (.bool const) limit bit := by
    intro bo seen limit bit
    rw [TypeIn.read]
    rfl
  apply typeReads_fixed hlen
  · intro Γ bo op hop
    exact ⟨_, hop, hread bo⟩
  · rintro Γ bo name atom kind ⟨rfl, rfl⟩
    exact ⟨_, rfl, (fun h => by cases h), hread bo⟩

lemma rawLen_eq {len : Option Nat} {const : Option Bytes} {mismatch : Nat → Nat → String} {n : Nat}
    (h : rawLen len const mismatch = .ok n) : len.or (const.map List.length) = some n := by
  unfold rawLen at h
  cases len with
  | none =>
    cases const with
    | none => cases h
    | some c =>
      cases h
      rfl
  | some l =>
    cases const with
    | none =>
      cases h
      rfl
    | some c =>
      dsimp only at h
      split_ifs at h
      · cases h
      · cases h
        rfl

lemma typeReads_raw (hlen : buf.length ≤ isizeMax) (len : Option Nat) (const : Option Bytes) :
    TypeReads opts H buf (.raw len const) := by
  have hread : ∀ (mismatch : Nat → Nat → String) (n : Nat), rawLen len const mismatch = .ok n → ∀ bo seen limit bit,
      (TypeIn.raw len const).read opts buf bo seen limit bit = fixedRead buf (.raw n const) limit bit := by
    intro mismatch n hn bo seen limit bit
    rw [TypeIn.read, rawLen_eq hn]
    rfl
  apply typeReads_fixed hlen
  · rintro Γ bo op ⟨n, hn, rfl⟩
    exact ⟨_, rfl, hread _ n hn bo⟩
  · rintro Γ bo name atom kind ⟨n, hn, rfl, rfl⟩
    exact ⟨_, rfl, (fun h => by cases h), hread _ n hn bo⟩

lemma typeReads_bits (width : Nat) (signed : Bool) : TypeReads opts H buf (.bits width signed) := by
  constructor
  · intro Γ seen fs bo op limit pos _ _ _ _ hop
    exact hop.elim
  · rintro Γ seen f fs bo name atom kind full p limit bit map deferred - - - ⟨-, -, rfl, rfl⟩ hr hn - -
    obtain rfl := hr
    rw [TypeIn.read]
    exact step_bit hn rfl width signed _

lemma run_op (o : Op) (limit : Nat) (f : Frame) (fs : Frames) (bit : Nat) (map : List (String × Value))
    (deferred : List Deferred) (halign : bit % 8 = 0) :
    (Piece.op o).run H buf limit ⟨f :: fs, bit, map, deferred⟩ =
      (do
        let t ← runOp H buf o limit ⟨⟨f :: fs, bit / 8⟩, map, deferred⟩
        .ok t.bits) := by
  rw [Piece.run]
  exact if_pos halign

/-- Where a field does not start with a byte, nothing is read on either side. -/
lemma steps_misaligned {full : List Sym} {key : Key} {kind : SymKind} {limit : Nat} {f : Frame} {fs : Frames} {bit : Nat}
    {map : List (String × Value)} {deferred : List Deferred} (halign : bit % 8 ≠ 0) (o : Op) {ty : TypeIn}
    (hty : ty.isBits = false) (bo : ByteOrder) (seen : Seen) :
    StepReads H full key kind limit f fs ⟨f :: fs, bit, map, deferred⟩
      ((Piece.op o).run H buf limit ⟨f :: fs, bit, map, deferred⟩) (ty.read opts buf bo seen limit bit) := by
  rw [read_misaligned halign hty, Piece.run]
  dsimp only
  rw [if_neg halign]
  exact .of_error

lemma opDepth_withCommon (c : Common → Common) (op : Op) : opDepth (op.withCommon c) = opDepth op := by
  cases op <;> simp only [Op.withCommon, opDepth]

/-- A dynamic field has the value of its type in a value position. -/
lemma typeReads_value {ty : TypeIn} (hbits : ty.isBits = false)
    (helem : ∀ {Γ seen fs bo op limit pos}, EnvOk Γ → EnvCarries buf.length Γ seen fs →
      Γ.length + opDepth op ≤ maxDepth → op.Every Op.bitsFit → LowersElem opts ty Γ bo op → pos ≤ limit →
      limit ≤ buf.length →
      Reads H fs (opValue H buf op limit { fs, pos }) (ty.read opts buf bo seen limit (8 * pos)))
    (hfield : ∀ {Γ bo name atom kind}, LowersField opts ty Γ bo name atom kind → ∃ n op, name = some n ∧
      LowersElem opts ty Γ bo op ∧ atom = .op op n ∧ kind.refable = false ∧ op.isValue) :
    TypeReads opts H buf ty := by
  refine ⟨helem, ?_⟩
  intro Γ seen f fs bo name atom kind full p limit bit map deferred hΓ hc hfit hlow hr hn hin hl
  obtain ⟨n, op, rfl, hop, rfl, href, hval⟩ := hfield hlow
  obtain rfl : p = .op (op.withCommon fun _ => { key := .named n, span := spanOf full (.named n) }) := hr
  by_cases halign : bit % 8 = 0
  · obtain ⟨hroom, hbits⟩ := hfit _ rfl
    rw [opDepth_withCommon] at hroom
    have hbits : op.Every Op.bitsFit := by cases op <;> exact hbits
    have hbit : 8 * (bit / 8) = bit := by omega
    have hle : bit / 8 ≤ limit := by omega
    have hy := helem hΓ hc hroom hbits hop hle hl
    rw [hbit] at hy
    have hrun : runOp H buf (op.withCommon fun _ => { key := .named n, span := spanOf full (.named n) }) =
        runField { key := .named n, span := spanOf full (.named n) } (opValue H buf op) := by
      cases op with
      | fixed | bitRun | digest | cond => cases hval
      | bytes | str | cstr | flags | nest | array | switch => rw [Op.withCommon, runOp, opValue]
    rw [run_op _ _ _ _ _ _ _ halign, hrun]
    exact step_value rfl hn href (opValue_advances H buf op) hin hy halign
  · exact steps_misaligned halign _ hbits bo seen

lemma typeReads_bytes (len : ExprIn) (max : Option Nat) : TypeReads opts H buf (.bytes len max) := by
  apply typeReads_value rfl
  · rintro Γ seen fs bo op limit pos hΓ hc - - ⟨len', hlow, rfl⟩ hpos hl
    rw [TypeIn.read, opValue, doBytes]
    refine reads_counted hΓ hc hl hpos hlow fun n raw => ?_
    exact mirrors_ok rfl
  · rintro Γ bo name atom kind ⟨n, len', rfl, hlow, rfl, rfl⟩
    exact ⟨n, _, rfl, ⟨len', hlow, rfl⟩, rfl, rfl, rfl⟩

lemma typeReads_str (len : ExprIn) (max : Option Nat) (encoding errors : String) :
    TypeReads opts H buf (.str len max encoding errors) := by
  apply typeReads_value rfl
  · rintro Γ seen fs bo op limit pos hΓ hc - - ⟨len', enc, hlow, henc, rfl⟩ hpos hl
    rw [TypeIn.read, opValue, doStr, henc]
    refine reads_counted hΓ hc hl hpos hlow fun n raw => ?_
    exact mirrors_decode
  · rintro Γ bo name atom kind ⟨n, len', enc, rfl, hlow, henc, rfl, rfl⟩
    exact ⟨n, _, rfl, ⟨len', enc, hlow, henc, rfl⟩, rfl, rfl, rfl⟩

lemma typeReads_cstr (hlen : buf.length ≤ isizeMax) (max : Option Nat) (encoding errors : String) :
    TypeReads opts H buf (.cstr max encoding errors) := by
  apply typeReads_value rfl
  · rintro Γ seen fs bo op limit pos - - - - ⟨enc, henc, rfl⟩ hpos hl
    rw [TypeIn.read, opValue, henc]
    exact reads_terminated hl hlen hpos
  · rintro Γ bo name atom kind ⟨n, enc, rfl, henc, rfl, rfl⟩
    exact ⟨n, _, rfl, ⟨enc, henc, rfl⟩, rfl, rfl, rfl⟩

lemma compileFlags_isValue {base : IntPrim} {be : Bool} {names : List (String × U64)} {rest : String} {c : Common} {op : Op}
    (h : compileFlags base be names rest c = .ok op) : op.isValue := by
  unfold compileFlags at h
  split_ifs at h
  · cases h
  obtain ⟨⟨items, union⟩, -, h⟩ := Exec.bind_eq_ok.mp h
  dsimp only at h
  cases hrest : restPolicies.parse rest with
  | error msg =>
    rw [hrest] at h
    cases h
  | ok policy =>
    rw [hrest] at h
    cases h
    rfl

lemma typeReads_flags (base : IntPrim) (byteorder : Option ByteOrder) (names : List (String × U64)) (rest : String) :
    TypeReads opts H buf (.flags base byteorder names rest) := by
  apply typeReads_value rfl
  · intro Γ seen fs bo op limit pos _ _ _ _ hop hpos hl
    obtain ⟨policy, hpolicy, hreads⟩ := reads_flags hl hop
    rw [TypeIn.read, hpolicy]
    exact hreads
  · rintro Γ bo name atom kind ⟨n, op, rfl, hop, rfl, rfl⟩
    exact ⟨n, op, rfl, hop, rfl, rfl, compileFlags_isValue hop⟩

lemma typeReads_struct (hlen : buf.length ≤ isizeMax) (fields : List FieldIn) (byteorder : Option ByteOrder)
    (size : Option ExprIn) (hfs : ∀ f ∈ fields, TypeReads opts H buf f.ty) :
    TypeReads opts H buf (.struct fields byteorder size) := by
  apply typeReads_value rfl
  · rintro Γ seen fs bo op limit pos hΓ hc hdepth hbits ⟨size', full, atoms, prog, hsize, hlow, hasm, rfl⟩ hpos hl
    rw [opDepth] at hdepth
    have hbody : ∀ region, pos ≤ region → region ≤ buf.length →
        Reads H fs (runStruct H buf prog region { fs, pos })
          ((fieldsRead opts buf fields (byteorder.getD bo) seen region (.start (8 * pos))).bind fun r => r.close buf pos) :=
      fun region hreg hreg' => hasm.reads hlen hfs hΓ hc hlow hdepth hbits.2 hreg hreg'
    have hnest := reads_nest hΓ hc hpos hl hsize hbody
    have hread : (TypeIn.struct fields byteorder size).read opts buf bo seen limit (8 * pos) =
        (regionOf seen size limit pos).bind fun region =>
          ((fieldsRead opts buf fields (byteorder.getD bo) seen region (.start (8 * pos))).bind fun r => r.close buf pos).bind
            fun part => if size.isSome ∧ part.bit ≠ 8 * region then none else some part := by
      rw [TypeIn.read, byteOf_mul]
      simp only [Option.bind_eq_bind, Option.bind_some, Option.bind_assoc]
    rw [hread, opValue]
    exact hnest
  · rintro Γ bo name atom kind ⟨n, size', full, atoms, prog, rfl, hsize, hlow, hasm, -, rfl, rfl⟩
    exact ⟨n, _, rfl, ⟨size', full, atoms, prog, hsize, hlow, hasm, rfl⟩, rfl, rfl, rfl⟩

lemma typeReads_array (elem : TypeIn) (count : Option ExprIn) (untilEof : Bool) (he : TypeReads opts H buf elem) :
    TypeReads opts H buf (.array elem count untilEof) := by
  apply typeReads_value rfl
  · rintro Γ seen fs bo op limit pos hΓ hc hdepth hbits ⟨count', elem', hcount, helem, rfl⟩ hpos hl
    rw [opDepth] at hdepth
    have hread : (TypeIn.array elem count untilEof).read opts buf bo seen limit (8 * pos) =
        (countOf seen count).bind fun n =>
          readList (fun bit => elem.read opts buf bo seen limit bit) opts.maxCount limit (8 * pos) n := by
      rw [TypeIn.read, byteOf_mul]
      rfl
    rw [hread, opValue]
    exact reads_array hΓ hc hpos hcount (opValue_advances H buf elem')
      (fun pos hpos => he.elem hΓ hc hdepth hbits.2 helem hpos hl) opts.maxCount
  · rintro Γ bo name atom kind ⟨n, count', elem', rfl, hcount, helem, rfl, rfl⟩
    exact ⟨n, _, rfl, ⟨count', elem', hcount, helem, rfl⟩, rfl, rfl, rfl⟩

/-- The first case of a tag, on both sides. -/
lemma LowersCases.reads {cases : List (Int × TypeIn)} (hcs : ∀ branch ∈ cases, TypeReads opts H buf branch.2) {Γ : Env}
    {seen : Seen} {fs : Frames} (hΓ : EnvOk Γ) (hc : EnvCarries buf.length Γ seen fs) {bo : ByteOrder}
    {cases' : List (Int × Op)} (h : LowersCases opts cases Γ bo cases') (hdepth : Γ.length + casesDepth cases' ≤ maxDepth)
    (hbits : casesEvery Op.bitsFit cases') {limit pos : Nat} (hpos : pos ≤ limit) (hl : limit ≤ buf.length) (tag : Int) :
    (∃ sem y, findCase H buf cases' tag = some sem ∧ casesRead opts buf cases bo seen limit (8 * pos) tag = some y ∧
        Reads H fs (sem limit { fs, pos }) y) ∨
      findCase H buf cases' tag = none ∧ casesRead opts buf cases bo seen limit (8 * pos) tag = none := by
  induction cases generalizing cases' with
  | nil =>
    obtain rfl := h
    exact .inr ⟨by rw [findCase], by rw [casesRead]⟩
  | cons branch cases ih =>
    obtain ⟨t, ty⟩ := branch
    obtain ⟨op, rest, hop, hrest, rfl⟩ := h
    rw [casesDepth] at hdepth
    rw [findCase, casesRead]
    by_cases ht : t = tag
    · rw [if_pos ht, if_pos ht]
      exact .inl ⟨_, _, rfl, rfl, (hcs (t, ty) List.mem_cons_self).elem hΓ hc (by omega) hbits.1 hop hpos hl⟩
    · rw [if_neg ht, if_neg ht]
      exact ih (fun b hb => hcs b (List.mem_cons_of_mem _ hb)) hrest (by omega) hbits.2

lemma typeReads_switch (on : ExprIn) (cases : List (Int × TypeIn)) (default : Option TypeIn)
    (hcs : ∀ branch ∈ cases, TypeReads opts H buf branch.2) (hd : ∀ ty ∈ default, TypeReads opts H buf ty) :
    TypeReads opts H buf (.switch on cases default) := by
  apply typeReads_value rfl
  · rintro Γ seen fs bo op limit pos hΓ hc hdepth hbits ⟨on', cases', default', hon, hcases, hdefault, rfl⟩ hpos hl
    rw [opDepth] at hdepth
    have hread : (TypeIn.switch on cases default).read opts buf bo seen limit (8 * pos) =
        (on.read seen).bind fun tag => (casesRead opts buf cases bo seen limit (8 * pos) tag).getD
          (defaultRead opts buf default bo seen limit (8 * pos)) := by
      rw [TypeIn.read, byteOf_mul]
      rfl
    rw [hread, opValue]
    refine reads_switch hΓ hc hon fun tag => ?_
    rcases hcases.reads hcs hΓ hc (by omega) hbits.2.1 hpos hl tag with ⟨sem, y, hsem, hy, hreads⟩ | ⟨hsem, hy⟩
    · rw [hsem, hy]
      exact .inl ⟨sem, rfl, hreads⟩
    · rw [hsem, hy]
      cases default with
      | none =>
        obtain rfl : default' = none := hdefault
        rw [defaultCase, defaultRead]
        exact .inr ⟨rfl, rfl⟩
      | some ty =>
        obtain ⟨op, hop, rfl⟩ := hdefault
        rw [defaultDepth] at hdepth
        rw [defaultCase, defaultRead]
        exact .inl ⟨_, rfl, (hd ty rfl).elem hΓ hc (by omega) hbits.2.2 hop hpos hl⟩
  · rintro Γ bo name atom kind ⟨n, on', cases', default', rfl, hon, hcases, hdefault, rfl, rfl⟩
    exact ⟨n, _, rfl, ⟨on', cases', default', hon, hcases, hdefault, rfl⟩, rfl, rfl, rfl⟩

lemma typeReads_cond (pred : ExprIn) (thn : TypeIn) (ht : TypeReads opts H buf thn) :
    TypeReads opts H buf (.cond pred thn) := by
  constructor
  · intro Γ seen fs bo op limit pos _ _ _ _ hop
    exact hop.elim
  · rintro Γ seen f fs bo name atom kind full p limit bit map deferred hΓ hc hfit
      ⟨n, pred', thn', rfl, hpred, hthn, rfl, rfl⟩ hr hn hin hl
    obtain rfl : p = .op (.cond pred' thn' { key := .named n, span := spanOf full (.named n) }) := hr
    by_cases halign : bit % 8 = 0
    · obtain ⟨hroom, hbits⟩ := hfit _ rfl
      rw [opDepth] at hroom
      have hbit : 8 * (bit / 8) = bit := by omega
      have hle : bit / 8 ≤ limit := by omega
      have hy := ht.elem hΓ hc hroom hbits.2 hthn hle hl
      rw [hbit] at hy
      have hread : (TypeIn.cond pred thn).read opts buf bo seen limit bit = (pred.read seen).bind fun p =>
          if p ≠ 0 then thn.read opts buf bo seen limit bit
          else some { value := none, bit, digest := none, facts := .none } := by
        rw [TypeIn.read, byteOf, if_pos halign]
        rfl
      rw [hread, run_op _ _ _ _ _ _ _ halign, runOp]
      exact step_cond rfl hn rfl (opValue_advances H buf thn') (hpred.mirrors_eval hΓ hc (bit / 8)) hin hy halign
    · exact steps_misaligned halign _ rfl bo seen

lemma parseAlgo_pos {name : String} {ov : CrcOverrides} {algo : Algo} (h : parseAlgo name ov = .ok algo) :
    0 < algo.widthBytes := by
  have hall : ∀ entry ∈ algos.names, 0 < entry.2.widthBytes := by decide
  obtain ⟨preset, hp, hwidth⟩ := Option.map_eq_some_iff.mp (parseAlgo_preset h)
  rw [← hwidth]
  unfold Algo.preset ClosedSet.parse at hp
  split at hp
  · rename_i value hv
    obtain rfl := Option.some.inj hp
    have hhit : algos.hit name algos.names = some value := by
      simpa [ClosedSet.hit, algos] using hv
    obtain ⟨entry, he, rfl⟩ := Option.map_eq_some_iff.mp hhit
    exact hall entry (List.mem_of_find?_eq_some he)
  · cases hp

lemma typeReads_digest (algo : String) (overrides : CrcOverrides) (overs : OverIn) (verify : Bool) :
    TypeReads opts H buf (.digest algo overrides overs verify) := by
  constructor
  · intro Γ seen fs bo op limit pos _ _ _ _ hop
    exact hop.elim
  · rintro Γ seen f fs bo name atom kind full p limit bit map deferred hΓ hc hdepth
      ⟨n, algo', rfl, halgo, -, rfl, rfl⟩ ⟨overs', hover, rfl⟩ hn hin hl
    by_cases halign : bit % 8 = 0
    · have hread : (TypeIn.digest algo overrides overs verify).read opts buf bo seen limit bit =
          (bytesIn buf limit (bit / 8) algo'.widthBytes).bind fun raw =>
            let u := readUint raw bo.isBig
            let stop := bit / 8 + algo'.widthBytes
            let read := if algo'.isInt then DigestVal.int (BitVec.ofNat 64 u) else DigestVal.bytes raw
            some { value := some (if algo'.isInt then .int u else .bytes raw), bit := 8 * stop,
                   digest := some { algo := algo', overs, verify, read, start := bit / 8, stop }, facts := .none } := by
        rw [TypeIn.read, halgo, byteOf, if_pos halign]
        rfl
      rw [hread, run_op _ _ _ _ _ _ _ halign, runOp]
      exact step_digest rfl rfl hn rfl hl ⟨parseAlgo_pos halgo, parseAlgo_width halgo⟩ hover verify _ halign
    · exact steps_misaligned halign _ rfl bo seen

lemma typeReads (opts : Options) (H : Hashes) (hlen : buf.length ≤ isizeMax) : TypeCases (TypeReads opts H buf) where
  int := typeReads_int hlen
  float := typeReads_float hlen
  bool := typeReads_bool hlen
  raw := typeReads_raw hlen
  bytes := typeReads_bytes
  str := typeReads_str
  cstr := typeReads_cstr hlen
  bits := typeReads_bits
  flags := typeReads_flags
  digest := typeReads_digest
  struct := typeReads_struct hlen
  array := typeReads_array
  switch := typeReads_switch
  cond := typeReads_cond

end Types

/-- A run of a compiled program, in which no count of bits wraps, is the direct reading of its schema: it
returns exactly when the schema can be read, every integer that something refers to fits a register and every
digest that is verified is that of its bytes; and then it returns what was read. -/
theorem compile_reads {fields : List FieldIn} {opts : Options} {prog : Program} (h : compile fields opts = .ok prog)
    (hbits : prog.Every Op.bitsFit) (H : Hashes) (buf : Buffer) (offset : Nat) (stream : Bool) (v : Value) (pos : Nat) :
    unpackRun H prog buf offset false stream = .ok v pos ↔
      ∃ part, schemaRead opts buf.bytes fields offset = some part ∧ part.facts.Ok H ∧
        part.value = some v ∧ part.bit = 8 * pos := by
  obtain ⟨⟨full, atoms, hlow, hasm⟩, hdepth⟩ := compile_lowers h
  have hΓ : EnvOk [] := ⟨fun _ hs => absurd hs List.not_mem_nil, Nat.zero_le _⟩
  have hroom : ([] : Env).length + frameDepth prog ≤ maxDepth := by simpa using hdepth
  have hc : EnvCarries buf.bytes.length [] [] [] := trivial
  have hreads : Reads H [] (runStruct H buf.bytes prog buf.bytes.length { fs := [], pos := min offset buf.bytes.length })
      (schemaRead opts buf.bytes fields offset) :=
    hasm.reads buf.small (fun f _ => (typeReads opts H buf.small).type f.ty) hΓ hc hlow hroom hbits
      (Nat.min_le_right _ _) (Nat.le_refl _)
  have hrun : unpackRun H prog buf offset false stream = .ok v pos ↔
      ∃ fs, runStruct H buf.bytes prog buf.bytes.length { fs := [], pos := min offset buf.bytes.length } =
        .ok (v, { fs, pos }) := by
    unfold unpackRun
    dsimp only
    generalize runStruct H buf.bytes prog buf.bytes.length { fs := [], pos := min offset buf.bytes.length } = x
    cases x with
    | ok r =>
      obtain ⟨w, ⟨fs, p⟩⟩ := r
      simp
    | error t =>
      cases t with
      | panic => simp
      | err e =>
        cases e with
        | incomplete needed => cases stream <;> simp
        | invalid inv => simp
  rw [hrun]
  constructor
  · rintro ⟨fs, hr⟩
    obtain ⟨part, hpart, hok, his⟩ := hreads.ok _ hr
    exact ⟨part, hpart, hok, his.value, his.bit⟩
  · rintro ⟨part, hpart, hok, hv, hbit⟩
    obtain ⟨⟨w, ⟨fs, p⟩⟩, hr, his⟩ := hreads.some part hpart hok
    have hval := his.value
    have hpos := his.bit
    rw [hv] at hval
    rw [hbit] at hpos
    obtain rfl := Option.some.inj hval
    obtain rfl : pos = p := by
      dsimp only at hpos
      omega
    exact ⟨fs, hr⟩

/-- A length that a struct hides from its own fields, and one that it does not. -/
def shadowFields : List FieldIn :=
  [.named "n" (.int .u8 none none),
    .named "body" (.struct [.named "head" (.bytes (.ref "n") none), .named "n" (.bits 8 false),
      .named "tail" (.bytes (.ref "n") none)] none none),
    .named "rest" (.bytes (.ref "n") none)]

/-- Each name is the innermost field that has been read. -/
theorem compile_reads_shadow : ∃ prog, compile shadowFields {} = .ok prog ∧
    unpackRun .blank prog ⟨[1, 7, 2, 8, 9, 6], by decide⟩ 0 false false =
      .ok (.map [("n", .int 1), ("body", .map [("head", .bytes [7]), ("n", .int 2), ("tail", .bytes [8, 9])]),
        ("rest", .bytes [6])]) 6 := by
  have hc : Exec.returns (compile shadowFields {}) fun prog => decide (prog.Every Op.bitsFit) := by decide +kernel
  obtain ⟨prog, hp, hbits⟩ := Exec.returns_iff.mp hc
  refine ⟨prog, hp, (compile_reads hp (of_decide_eq_true hbits) .blank _ 0 false _ 6).mpr ?_⟩
  refine ⟨_, rfl, facts_refs_ok ?_, rfl, rfl⟩
  decide

end Rustruct

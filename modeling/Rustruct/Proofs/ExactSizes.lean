import Rustruct.Proofs.Maximal
import Rustruct.Proofs.Sizes

/-!
# Sums that do not wrap

The width of a run and the static size of a program are plain sums on `usize`, and the bits of a run are added
on `u32`. What they are for a schema is counted here without a bound, and no sum of the compiler wraps exactly
when all of them are below theirs.
-/

namespace Rustruct

/-- `n as usize` of a length that folds to a constant. -/
def ExprIn.constLen (e : ExprIn) : Option Nat :=
  match fold e with
  | .ok (.imm n) => some (asU64 n)
  | _ => none

/-- The width of a type that joins a run. -/
def TypeIn.fixedWidth : TypeIn → Option Nat
  | .int prim _ _ => some prim.width
  | .float is64 _ => some (if is64 then 8 else 4)
  | .bool _ => some 1
  | .raw len const => some (len.getD ((const.map List.length).getD 0))
  | _ => none

/-- What a field of the type adds to a run of the kind. -/
def TypeIn.joins : RunKind → TypeIn → Option Nat
  | .fixed, ty => ty.fixedWidth
  | .bits, .bits width _ => some width
  | .bits, _ => none

/-- The sum, if all terms are there. -/
def exactSum : List (Option Nat) → Option Nat
  | [] => some 0
  | a :: l => do some ((← a) + (← exactSum l))

/-- The sum of the terms before the first that is not there. -/
def leadSum : List (Option Nat) → Nat
  | some a :: l => a + leadSum l
  | _ => 0

mutual

/-- The bytes a type always takes. The product of an array is checked. -/
def TypeIn.size : TypeIn → Option Nat
  | .bytes len _ | .str len _ _ _ => len.constLen
  | .flags base _ _ _ => some base.width
  | .digest algo _ _ _ => (Algo.preset algo).map Algo.widthBytes
  | .struct fields _ size =>
    match size with
    | some e => e.constLen
    | none => (fieldsBits fields).map (· / 8)
  | .array elem count _ => do checkedMul (← count.bind ExprIn.constLen) (← elem.size)
  | .switch _ cases default =>
    match cases with
    | [] => none
    | (_, ty) :: cases => do
      let first ← ty.size
      if casesSize cases first && defaultSize default first then some first else none
  | .cstr .. | .bits .. | .cond .. => none
  | ty => ty.fixedWidth

def casesSize : List (Int × TypeIn) → Nat → Bool
  | [], _ => true
  | (_, ty) :: cases, first => ty.size == some first && casesSize cases first

def defaultSize : Option TypeIn → Nat → Bool
  | none, _ => true
  | some ty, first => ty.size == some first

/-- The bits of the fields of a struct. -/
def fieldsBits : List FieldIn → Option Nat
  | [] => some 0
  | .mk _ (.bits width _) :: fields => (fieldsBits fields).map (width + ·)
  | .mk _ ty :: fields => do some (8 * (← ty.size) + (← fieldsBits fields))

end

/-- The bits of a field. -/
def TypeIn.bitSize : TypeIn → Option Nat
  | .bits width _ => some width
  | ty => ty.size.map (8 * ·)

/-- What the sums of a run of the kind are to stay below. -/
def RunKind.bound : RunKind → Nat
  | .fixed => usizeSize
  | .bits => u32Size

/-- What these sums start from, if not from the first width. -/
def RunKind.start : RunKind → Option Nat
  | .fixed => none
  | .bits => some 0

/-- Within every maximal run of widths the sums stay below the bound. -/
def RunsFit (k : RunKind) : Option Nat → List (Option Nat) → Prop
  | _, [] => True
  | _, none :: widths => RunsFit k k.start widths
  | none, some w :: widths => RunsFit k (some w) widths
  | some sum, some w :: widths => sum + w < k.bound ∧ RunsFit k (some (sum + w)) widths

/-- The runs of a scope with these fields fit, and so do the sizes up to the first that is not fixed. -/
structure ScopeFits (fields : List FieldIn) : Prop where
  runs : ∀ k : RunKind, RunsFit k k.start (fields.map fun f => f.ty.joins k)
  static : leadSum (fields.map fun f => f.ty.bitSize) < 8 * usizeSize

mutual

/-- The sums of every struct in the type fit. -/
def TypeIn.SizesFit : TypeIn → Prop
  | .struct fields _ _ => ScopeFits fields ∧ fieldsSizesFit fields
  | .array elem _ _ => elem.SizesFit
  | .switch _ cases default => casesSizesFit cases ∧ defaultSizesFit default
  | .cond _ thn => thn.SizesFit
  | _ => True

def casesSizesFit : List (Int × TypeIn) → Prop
  | [] => True
  | (_, ty) :: cases => ty.SizesFit ∧ casesSizesFit cases

def defaultSizesFit : Option TypeIn → Prop
  | none => True
  | some ty => ty.SizesFit

def fieldsSizesFit : List FieldIn → Prop
  | [] => True
  | .mk _ ty :: fields => ty.SizesFit ∧ fieldsSizesFit fields

end

/-- In a schema with these fields all sums fit. -/
def SchemaFits (fields : List FieldIn) : Prop := ScopeFits fields ∧ fieldsSizesFit fields

/-- No `a + b` of the static sizes wraps, from this one on. -/
def StaticAdds : Option Nat → List Op → Prop
  | _, [] => True
  | acc, op :: ops => (∀ a ∈ acc, ∀ b ∈ opStatic op, a + b < usizeSize) ∧ StaticAdds (staticNext acc op) ops

/-- The static size is the sum of those of the ops, and the least size the sum of theirs, or the largest `usize`. -/
structure Program.SizeExact (prog : Program) : Prop where
  adds : StaticAdds (some 0) prog.ops
  static : ∀ s ∈ prog.staticSize, exactSum (prog.ops.map opStatic) = some s
  min : prog.minSize = Min.min (prog.ops.map opMin).sum usizeMax

/-- No sum of the op wraps: the width of a run is the sum of those of its items, and each starts where the one
before it ends. The bytes of a bit run hold its bits, and the static size of a nested program is a sum. -/
def Op.Exact : Op → Prop
  | .fixed width items =>
    (∀ item ∈ items.tail, item.off + item.kind.width < usizeSize) ∧ Consecutive 0 items ∧ width = runWidth items
  | .bitRun nbytes items => bitWidth items < u32Size ∧ 8 * nbytes = bitWidth items
  | .nest prog _ _ => prog.SizeExact
  | _ => True

section Runs

/-- What a piece adds to a run of the kind. -/
def Piece.joins : RunKind → Piece → Option Nat
  | .fixed, .fixed kind _ _ _ => some kind.width
  | .bits, .bit item => some item.width
  | _, _ => none

variable {k : RunKind} {widths : List (Option Nat)}

/-- What follows a run does not join it. -/
lemma runsFit_end (hend : widths.head? = none ∨ widths.head? = some none) (acc : Option Nat) :
    RunsFit k acc widths ↔ RunsFit k k.start widths := by
  cases widths with
  | nil => simp only [RunsFit]
  | cons w widths =>
    cases w with
    | none => simp only [RunsFit]
    | some w => simp at hend

/-- A run fits when its total does. -/
lemma runsFit_run {sum : Nat} {run : List Nat} (hne : run ≠ [])
    (hend : widths.head? = none ∨ widths.head? = some none) :
    RunsFit k (some sum) (run.map some ++ widths) ↔ sum + run.sum < k.bound ∧ RunsFit k k.start widths := by
  induction run generalizing sum with
  | nil => exact absurd rfl hne
  | cons w run ih =>
    rw [List.map_cons, List.cons_append, RunsFit, List.sum_cons, ← Nat.add_assoc]
    cases run with
    | nil => rw [List.map_nil, List.nil_append, List.sum_nil, Nat.add_zero, runsFit_end hend]
    | cons next run =>
      rw [ih (List.cons_ne_nil _ _)]
      refine and_iff_right_of_imp ?_
      rintro ⟨hlt, -⟩
      omega

lemma runsFit_nones {nones : List (Option Nat)} (h : ∀ w ∈ nones, w = none) (hne : nones ≠ []) (acc : Option Nat) :
    RunsFit k acc (nones ++ widths) ↔ RunsFit k k.start widths := by
  induction nones generalizing acc with
  | nil => exact absurd rfl hne
  | cons w nones ih =>
    obtain rfl := h w List.mem_cons_self
    rw [List.cons_append, RunsFit]
    cases nones with
    | nil => exact Iff.rfl
    | cons next nones => exact ih (fun w hw => h w (List.mem_cons_of_mem _ hw)) (List.cons_ne_nil _ _) _

/-- Items laid out from `start` are where their sums say exactly when these do not wrap. -/
lemma laidItems_exact {start width : Nat} {items : List FixedItem} (h : LaidItems start items width)
    (hstart : items ≠ [] ∨ start < usizeSize) :
    start + runWidth items < usizeSize ↔ (∀ item ∈ items, item.off + item.kind.width < usizeSize) ∧
      Consecutive start items ∧ width = start + runWidth items := by
  induction items generalizing start with
  | nil =>
    have hwidth : width = start := h
    have hstart : start < usizeSize := hstart.resolve_left fun hne => hne rfl
    exact iff_of_true hstart ⟨fun item hi => absurd hi List.not_mem_nil, trivial, hwidth⟩
  | cons item items ih =>
    obtain ⟨hoff, h⟩ := h
    rw [runWidth_cons, ← Nat.add_assoc, List.forall_mem_cons, hoff]
    by_cases hlt : start + item.kind.width < usizeSize
    · rw [wrapAdd_of_lt hlt] at h
      rw [ih h (.inr hlt)]
      constructor
      · rintro ⟨hfit, hcons, hwidth⟩
        exact ⟨⟨hlt, hfit⟩, ⟨hoff, hcons⟩, hwidth⟩
      · rintro ⟨⟨-, hfit⟩, ⟨-, hcons⟩, hwidth⟩
        exact ⟨hfit, hcons, hwidth⟩
    · refine iff_of_false (by omega) ?_
      rintro ⟨⟨hfit, -⟩, -⟩
      exact hlt hfit

/-- A run that is laid out is exact when the widths of its pieces fit. -/
lemma laidRun_exact {op : Op} (hk : op.runKind = some k) (hlaid : op.Laid)
    (hend : widths.head? = none ∨ widths.head? = some none) :
    RunsFit k k.start (op.pieces.map (Piece.joins k) ++ widths) ↔ op.Exact ∧ RunsFit k k.start widths := by
  cases op with
  | fixed width items =>
    cases hk
    have hpieces : (Op.fixed width items).pieces.map (Piece.joins .fixed) =
        (items.map fun item => item.kind.width).map some := by
      rw [Op.pieces, List.map_map, List.map_map]
      rfl
    rw [hpieces]
    cases items with
    | nil => exact hlaid.elim
    | cons item items =>
      obtain ⟨hoff, h⟩ := hlaid
      -- The first width is not added to anything.
      rw [List.map_cons, List.map_cons, List.cons_append, RunKind.start, RunsFit, Op.Exact, List.tail_cons, runWidth_cons]
      cases items with
      | nil =>
        rw [List.map_nil, List.map_nil, List.nil_append, runsFit_end hend]
        exact (and_iff_right ⟨fun item hi => absurd hi List.not_mem_nil, ⟨hoff, trivial⟩, h⟩).symm
      | cons next items =>
        rw [runsFit_run (by simp) hend]
        refine and_congr_left fun _ => (laidItems_exact h (.inl (List.cons_ne_nil _ _))).trans ?_
        constructor
        · rintro ⟨hfit, hcons, hwidth⟩
          exact ⟨hfit, ⟨hoff, by rwa [Nat.zero_add]⟩, hwidth⟩
        · rintro ⟨hfit, ⟨-, hcons⟩, hwidth⟩
          exact ⟨hfit, by rwa [Nat.zero_add] at hcons, hwidth⟩
  | bitRun nbytes items =>
    cases hk
    have hpieces : (Op.bitRun nbytes items).pieces.map (Piece.joins .bits) = (items.map BitItem.width).map some := by
      rw [Op.pieces, List.map_map, List.map_map]
      rfl
    rw [hpieces, RunKind.start, runsFit_run (fun hnil => hlaid.1 (List.map_eq_nil_iff.mp hnil)) hend, Nat.zero_add]
    refine and_congr_left fun _ => (and_iff_left_of_imp fun hlt => ?_).symm
    rw [← hlaid.2, bitTotal_of_lt hlt]
  | _ => cases hk

/-- The pieces of an op that is not a run of the kind. -/
lemma joins_none {op : Op} (hk : op.runKind ≠ some k) (hlaid : op.Laid) :
    (∀ w ∈ op.pieces.map (Piece.joins k), w = none) ∧ op.pieces.map (Piece.joins k) ≠ [] := by
  have hpieces : op.pieces ≠ [] := by
    cases op with
    | fixed width items =>
      intro hnil
      rw [List.map_eq_nil_iff.mp hnil] at hlaid
      exact hlaid
    | bitRun nbytes items => exact fun hnil => hlaid.1 (List.map_eq_nil_iff.mp hnil)
    | _ => exact List.cons_ne_nil _ _
  refine ⟨fun w hw => ?_, fun hnil => hpieces (List.map_eq_nil_iff.mp hnil)⟩
  obtain ⟨p, hp, rfl⟩ := List.mem_map.mp hw
  cases op with
  | fixed width items =>
    obtain ⟨item, -, rfl⟩ := List.mem_map.mp hp
    cases k with
    | fixed => exact absurd rfl hk
    | bits => rfl
  | bitRun nbytes items =>
    obtain ⟨item, -, rfl⟩ := List.mem_map.mp hp
    cases k with
    | fixed => rfl
    | bits => exact absurd rfl hk
  | _ =>
    rw [List.mem_singleton.mp hp]
    cases k <;> rfl

/-- The runs of a scope are exact when the widths of its fields fit. -/
lemma runs_exact {ops : List Op} (hapart : Apart ops) (hlaid : ∀ op ∈ ops, op.Laid) (k : RunKind) :
    RunsFit k k.start ((piecesOf ops).map (Piece.joins k)) ↔ ∀ op ∈ ops, op.runKind = some k → op.Exact := by
  induction ops with
  | nil => simp [piecesOf, RunsFit]
  | cons op ops ih =>
    have htail : Apart ops := by
      rw [Apart, List.map_cons] at hapart
      exact hapart.tail
    have hrest := ih htail fun o ho => hlaid o (List.mem_cons_of_mem _ ho)
    have hhere := hlaid op List.mem_cons_self
    rw [piecesOf_cons, List.map_append, List.forall_mem_cons, ← hrest]
    by_cases hk : op.runKind = some k
    · have hend : ((piecesOf ops).map (Piece.joins k)).head? = none ∨
          ((piecesOf ops).map (Piece.joins k)).head? = some none := by
        cases ops with
        | nil => exact .inl rfl
        | cons next ops =>
          have hnext : next.runKind ≠ some k := by
            rw [Apart, List.map_cons, List.map_cons, List.isChain_cons_cons, hk] at hapart
            obtain hnone | hne := hapart.1
            · cases hnone
            · exact hne.symm
          obtain ⟨hnone, hne⟩ := joins_none hnext (hlaid next (by simp))
          obtain ⟨w, rest, hw⟩ := List.exists_cons_of_ne_nil hne
          right
          rw [piecesOf_cons, List.map_append, hw, List.cons_append, List.head?_cons,
            hnone w (by rw [hw]; exact List.mem_cons_self)]
      rw [laidRun_exact hk hhere hend]
      exact and_congr_left fun _ => ⟨fun h _ => h, fun h => h hk⟩
    · obtain ⟨hnone, hne⟩ := joins_none hk hhere
      rw [runsFit_nones hnone hne]
      exact ⟨fun h => ⟨fun h => absurd h hk, h⟩, And.right⟩

end Runs

section Sums

lemma exactSum_cons (a : Option Nat) (l : List (Option Nat)) :
    exactSum (a :: l) = a.bind fun n => (exactSum l).map (n + ·) := by
  cases a <;> cases h : exactSum l <;> simp [exactSum, h]

lemma exactSum_append (l l' : List (Option Nat)) :
    exactSum (l ++ l') = (exactSum l).bind fun n => (exactSum l').map (n + ·) := by
  induction l with
  | nil => simp [exactSum]
  | cons a l ih =>
    rw [List.cons_append, exactSum_cons, exactSum_cons, ih]
    cases a <;> cases exactSum l <;> cases exactSum l' <;> simp [Nat.add_assoc]

lemma exactSum_map_some {β : Type} (f : β → Nat) (l : List β) :
    exactSum (l.map fun x => some (f x)) = some (l.map f).sum := by
  induction l with
  | nil => rfl
  | cons x l ih => rw [List.map_cons, exactSum_cons, ih]; rfl

/-- A static size is the sum, wrapped. -/
lemma staticSizeOf_eq (ops : List Op) :
    staticSizeOf ops = (exactSum (ops.map opStatic)).map (· % usizeSize) := by
  have hfold (acc : Option Nat) : ops.foldl staticNext (acc.map (· % usizeSize)) =
      acc.bind fun n => (exactSum (ops.map opStatic)).map fun m => (n + m) % usizeSize := by
    induction ops generalizing acc with
    | nil => cases acc <;> simp [exactSum]
    | cons op ops ih =>
      have hnext : staticNext (acc.map (· % usizeSize)) op =
          (acc.bind fun n => (opStatic op).map (n + ·)).map (· % usizeSize) := by
        cases acc <;> cases hop : opStatic op <;> simp [staticNext, hop, wrapAdd]
      rw [List.foldl_cons, hnext, ih, List.map_cons, exactSum_cons]
      cases acc <;> cases opStatic op <;> cases exactSum (ops.map opStatic) <;> simp [Nat.add_assoc]
  have hzero := hfold (some 0)
  simp only [Option.bind_some, Nat.zero_add] at hzero
  exact hzero

/-- A least size is the sum, which saturates. -/
lemma minSizeOf_eq (ops : List Op) : minSizeOf ops = min (ops.map opMin).sum usizeMax := by
  have hfold (acc : Nat) : ops.foldl (fun acc op => satAdd acc (opMin op)) (min acc usizeMax) =
      min (acc + (ops.map opMin).sum) usizeMax := by
    induction ops generalizing acc with
    | nil => rfl
    | cons op ops ih =>
      have hnext : satAdd (min acc usizeMax) (opMin op) = min (acc + opMin op) usizeMax := by
        rw [satAdd]
        omega
      rw [List.foldl_cons, hnext, ih, List.map_cons, List.sum_cons, Nat.add_assoc]
  have hzero := hfold 0
  rwa [Nat.zero_add] at hzero

lemma leadSum_of_exactSum {l : List (Option Nat)} {n : Nat} (h : exactSum l = some n) : leadSum l = n := by
  induction l generalizing n with
  | nil => exact Option.some.inj h
  | cons a l ih =>
    rw [exactSum_cons] at h
    obtain ⟨a, rfl, h⟩ := Option.bind_eq_some_iff.mp h
    obtain ⟨m, hm, rfl⟩ := Option.map_eq_some_iff.mp h
    rw [leadSum, ih hm]

lemma leadSum_append {l : List (Option Nat)} {n : Nat} (h : exactSum l = some n) (l' : List (Option Nat)) :
    leadSum (l ++ l') = n + leadSum l' := by
  induction l generalizing n with
  | nil =>
    obtain rfl : 0 = n := Option.some.inj h
    rw [List.nil_append, Nat.zero_add]
  | cons a l ih =>
    rw [exactSum_cons] at h
    obtain ⟨a, rfl, h⟩ := Option.bind_eq_some_iff.mp h
    obtain ⟨m, hm, rfl⟩ := Option.map_eq_some_iff.mp h
    rw [List.cons_append, leadSum, ih hm, Nat.add_assoc]

/-- No sum wraps before the first op without a static size when the sum of these fits, and none is made after it. -/
lemma staticAdds_iff {ops : List Op} {a : Nat} (ha : a < usizeSize) :
    StaticAdds (some a) ops ↔ a + leadSum (ops.map opStatic) < usizeSize := by
  have hnone (ops : List Op) : StaticAdds none ops := by
    induction ops with
    | nil => trivial
    | cons op ops ih => exact ⟨fun a ha => absurd ha (Option.not_mem_none a), ih⟩
  induction ops generalizing a with
  | nil => exact iff_of_true trivial ha
  | cons op ops ih =>
    rw [StaticAdds, List.map_cons, staticNext]
    cases opStatic op with
    | none => exact iff_of_true ⟨fun a _ b hb => absurd hb (Option.not_mem_none b), hnone ops⟩ ha
    | some b =>
      rw [leadSum, ← Nat.add_assoc]
      simp only [Option.mem_some_iff, forall_eq', Option.bind_eq_bind, Option.bind_some]
      constructor
      · rintro ⟨hlt, hrest⟩
        rw [wrapAdd_of_lt hlt] at hrest
        exact (ih hlt).mp hrest
      · intro hfit
        have hlt : a + b < usizeSize := by omega
        rw [wrapAdd_of_lt hlt]
        exact ⟨hlt, (ih hlt).mpr hfit⟩

/-- The sizes of a program are exact when the sum of its static ones fits. -/
lemma Program.sizeExact_iff {prog : Program} (hmin : prog.minSize = minSizeOf prog.ops)
    (hstatic : prog.staticSize = staticSizeOf prog.ops) :
    prog.SizeExact ↔ leadSum (prog.ops.map opStatic) < usizeSize := by
  have hadds := @staticAdds_iff prog.ops 0 (by decide)
  rw [Nat.zero_add] at hadds
  refine ⟨fun hexact => hadds.mp hexact.adds, fun hfit => ⟨hadds.mpr hfit, fun s hs => ?_, hmin.trans (minSizeOf_eq _)⟩⟩
  rw [hstatic, staticSizeOf_eq] at hs
  obtain ⟨n, hn, rfl⟩ := Option.map_eq_some_iff.mp hs
  rw [hn, Nat.mod_eq_of_lt]
  rwa [← leadSum_of_exactSum hn]

/-- The bits of a piece. -/
def Piece.bits : Piece → Option Nat
  | .fixed kind _ _ _ => some (8 * kind.width)
  | .bit item => some item.width
  | .op o => (opStatic o).map (8 * ·)

lemma pieces_bits {op : Op} (hexact : ∀ k, op.runKind = some k → op.Exact) :
    exactSum (op.pieces.map Piece.bits) = (opStatic op).map (8 * ·) := by
  have hsingle (a : Option Nat) : exactSum [a] = a := by cases a <;> simp [exactSum]
  cases op with
  | fixed width items =>
    have hwidth : width = runWidth items := (hexact .fixed rfl).2.2
    have hsum : (items.map fun item => 8 * item.kind.width).sum = 8 * runWidth items := by
      clear hexact hwidth
      induction items with
      | nil => rfl
      | cons item items ih => rw [List.map_cons, List.sum_cons, ih, runWidth_cons, Nat.mul_add]
    rw [Op.pieces, List.map_map, opStatic, hwidth, Option.map_some, ← hsum]
    exact exactSum_map_some (fun item : FixedItem => 8 * item.kind.width) items
  | bitRun nbytes items =>
    rw [Op.pieces, List.map_map, opStatic, Option.map_some, (hexact .bits rfl).2]
    exact exactSum_map_some BitItem.width items
  | _ => exact hsingle _

lemma piecesOf_bits {ops : List Op} (hexact : ∀ op ∈ ops, ∀ k, op.runKind = some k → op.Exact) :
    exactSum ((piecesOf ops).map Piece.bits) = (exactSum (ops.map opStatic)).map (8 * ·) ∧
      leadSum ((piecesOf ops).map Piece.bits) = 8 * leadSum (ops.map opStatic) := by
  induction ops with
  | nil => exact ⟨rfl, rfl⟩
  | cons op ops ih =>
    have hop := pieces_bits (hexact op List.mem_cons_self)
    obtain ⟨hsum, hlead⟩ := ih fun o ho => hexact o (List.mem_cons_of_mem _ ho)
    rw [piecesOf_cons, List.map_append, exactSum_append, List.map_cons, exactSum_cons, hop, hsum]
    constructor
    · cases opStatic op <;> cases exactSum (ops.map opStatic) <;> simp [Nat.mul_add]
    · cases hstatic : opStatic op with
      | some n => rw [leadSum_append (by rw [hop, hstatic]; rfl), leadSum, hlead, Nat.mul_add]
      | none =>
        -- An op without a static size is a piece.
        have hpiece : op.pieces = [.op op] := by
          cases op with
          | fixed => cases hstatic
          | bitRun => cases hstatic
          | _ => rfl
        rw [hpiece, List.map_singleton, List.singleton_append, Piece.bits, hstatic]
        rfl

end Sums

lemma fieldsBits_eq (fields : List FieldIn) : fieldsBits fields = exactSum (fields.map fun f => f.ty.bitSize) := by
  induction fields with
  | nil => rfl
  | cons f fields ih =>
    obtain ⟨name, ty⟩ := f
    rw [List.map_cons, exactSum_cons, ← ih]
    cases ty with
    | bits width signed => rw [fieldsBits]; rfl
    | _ =>
      rw [fieldsBits]
      · simp only [TypeIn.bitSize, FieldIn.ty_mk]
        generalize TypeIn.size _ = size
        cases size <;> cases fieldsBits fields <;> rfl
      · intro width signed h
        cases h

lemma fieldsSizesFit_iff {fields : List FieldIn} : fieldsSizesFit fields ↔ ∀ f ∈ fields, f.ty.SizesFit := by
  induction fields with
  | nil => simp [fieldsSizesFit]
  | cons f fields ih =>
    obtain ⟨name, ty⟩ := f
    simp [fieldsSizesFit, ih]

section Lowering

/-- What a field adds to a run of the kind. -/
def Atom.joins : RunKind → Atom → Option Nat
  | .fixed, .fixed kind _ => some kind.width
  | .bits, .bit width _ _ => some width
  | _, _ => none

/-- The bits of a field. -/
def Atom.bits : Atom → Option Nat
  | .fixed kind _ => some (8 * kind.width)
  | .bit width _ _ => some width
  | .digest algo _ _ _ _ => some (8 * algo.widthBytes)
  | .op o _ => (opStatic o).map (8 * ·)
  | .cond .. => none

/-- `P` holds of all ops in a field. -/
def Atom.All (P : Op → Prop) : Atom → Prop
  | .op o _ => o.Every P
  | .cond _ thn _ => thn.Every P
  | _ => True

def Piece.All (P : Op → Prop) : Piece → Prop
  | .op o => o.Every P
  | _ => True

/-- The property says nothing of the ops that hold no other and nothing of the common part. -/
structure Structural (P : Op → Prop) : Prop where
  withCommon : ∀ op f, P (op.withCommon f) ↔ P op
  digest : ∀ algo overs verify be c, P (.digest algo overs verify be c)
  cond : ∀ pred thn c, P (.cond pred thn c)

lemma structural_exact : Structural Op.Exact where
  withCommon op f := by cases op <;> exact Iff.rfl
  digest _ _ _ _ _ := trivial
  cond _ _ _ := trivial

lemma structural_apart : Structural Op.apart where
  withCommon op f := by cases op <;> exact Iff.rfl
  digest _ _ _ _ _ := trivial
  cond _ _ _ := trivial

lemma Structural.every {P : Op → Prop} (hP : Structural P) (op : Op) (f : Common → Common) :
    (op.withCommon f).Every P ↔ op.Every P := by
  have hhere := hP.withCommon op f
  cases op with
  | nest | array | cond => exact and_congr_left fun _ => hhere
  | switch => exact and_congr_left fun _ => hhere
  | _ => exact hhere

variable {full : List Sym}

lemma Realizes.joins {a : Atom} {p : Piece} (h : Realizes full a p) (k : RunKind) : p.joins k = a.joins k := by
  cases a with
  | fixed kind key =>
    rw [Realizes] at h
    rw [h]
    cases k with
    | fixed =>
      rw [Piece.joins, Atom.joins]
      split_ifs
      · cases kind <;> rfl
      · rfl
    | bits => rfl
  | digest =>
    obtain ⟨overs', -, rfl⟩ := h
    cases k <;> rfl
  | _ =>
    obtain rfl := h
    cases k <;> rfl

lemma opStatic_withCommon (f : Common → Common) (op : Op) : opStatic (op.withCommon f) = opStatic op := by
  cases op with
  | switch on cases default c =>
    cases cases with
    | nil => rw [Op.withCommon, opStatic, opStatic]
    | cons branch cases => rw [Op.withCommon, opStatic, opStatic]
  | _ => rfl

lemma Realizes.bits {a : Atom} {p : Piece} (h : Realizes full a p) : p.bits = a.bits := by
  cases a with
  | fixed kind key =>
    rw [Realizes] at h
    rw [h, Piece.bits, Atom.bits]
    split_ifs
    · cases kind <;> rfl
    · rfl
  | digest =>
    obtain ⟨overs', -, rfl⟩ := h
    rw [Piece.bits, Atom.bits, opStatic, Option.map_some]
  | bit width signed key =>
    obtain rfl := h
    rfl
  | op o name =>
    obtain rfl := h
    rw [Piece.bits, Atom.bits, opStatic_withCommon]
  | cond pred thn name =>
    obtain rfl := h
    rw [Piece.bits, Atom.bits, opStatic, Option.map_none]

lemma Realizes.all {P : Op → Prop} (hP : Structural P) {a : Atom} {p : Piece} (h : Realizes full a p) :
    p.All P ↔ a.All P := by
  cases a with
  | digest =>
    obtain ⟨overs', -, rfl⟩ := h
    exact iff_of_true (hP.digest _ _ _ _ _) trivial
  | op o name =>
    obtain rfl := h
    exact hP.every o _
  | cond pred thn name =>
    obtain rfl := h
    exact and_iff_right (hP.cond _ _ _)
  | _ =>
    obtain rfl := h
    exact Iff.rfl

/-- What holds of all ops holds of the runs and of all pieces. -/
lemma every_iff_pieces {P : Op → Prop} (ops : List Op) :
    (∀ op ∈ ops, op.Every P) ↔
      (∀ k, ∀ op ∈ ops, op.runKind = some k → P op) ∧ ∀ p ∈ piecesOf ops, p.All P := by
  induction ops with
  | nil => simp [piecesOf]
  | cons op ops ih =>
    have hop : op.Every P ↔ (∀ k, op.runKind = some k → P op) ∧ ∀ p ∈ op.pieces, p.All P := by
      cases op with
      | fixed width items =>
        refine ⟨fun h => ⟨fun _ _ => h, fun p hp => ?_⟩, fun h => h.1 .fixed rfl⟩
        obtain ⟨item, -, rfl⟩ := List.mem_map.mp hp
        trivial
      | bitRun nbytes items =>
        refine ⟨fun h => ⟨fun _ _ => h, fun p hp => ?_⟩, fun h => h.1 .bits rfl⟩
        obtain ⟨item, -, rfl⟩ := List.mem_map.mp hp
        trivial
      | _ =>
        constructor
        · intro h
          refine ⟨fun k hrun => ?_, fun p hp => ?_⟩
          · cases hrun
          · rw [List.mem_singleton.mp hp]
            exact h
        · exact fun h => h.2 _ (List.mem_singleton_self _)
    rw [List.forall_mem_cons, ih, hop, piecesOf_cons, List.forall_mem_append]
    simp only [List.forall_mem_cons, forall_and]
    tauto

/-- Corresponding members of two lists. -/
lemma forall₂_all {β γ : Type} {R : β → γ → Prop} {p : β → Prop} {q : γ → Prop} (hR : ∀ a b, R a b → (q b ↔ p a))
    {l : List β} {m : List γ} (h : List.Forall₂ R l m) : (∀ b ∈ m, q b) ↔ ∀ a ∈ l, p a := by
  induction h with
  | nil => simp
  | cons hab _ ih => rw [List.forall_mem_cons, List.forall_mem_cons, ih, hR _ _ hab]

lemma forall₂_map {β γ δ : Type} {R : β → γ → Prop} {f : β → δ} {g : γ → δ} (hR : ∀ a b, R a b → g b = f a)
    {l : List β} {m : List γ} (h : List.Forall₂ R l m) : m.map g = l.map f := by
  induction h with
  | nil => rfl
  | cons hab _ ih => rw [List.map_cons, List.map_cons, ih, hR _ _ hab]

/-- The field counts what its type counts. -/
structure FieldCounts (ty : TypeIn) (a : Atom) : Prop where
  joins : ∀ k, a.joins k = ty.joins k
  exact : a.All Op.apart → (a.All Op.Exact ↔ ty.SizesFit)
  bits : a.All Op.apart → ty.SizesFit → a.bits = ty.bitSize

/-- The op counts what its type counts. -/
structure ElemCounts (ty : TypeIn) (op : Op) : Prop where
  exact : op.Every Op.apart → (op.Every Op.Exact ↔ ty.SizesFit)
  size : op.Every Op.apart → ty.SizesFit → opStatic op = ty.size

/-- The sums of a scope are exact when those of its fields fit. -/
lemma Assembled.counts {fields : List FieldIn} {atoms : List Atom} {prog : Program} (h : Assembled full atoms prog)
    (htidy : Tidy prog.ops) (hfields : List.Forall₂ (fun f a => FieldCounts f.ty a) fields atoms) :
    (prog.SizeExact ∧ (∀ op ∈ prog.ops, op.Every Op.Exact) ↔ SchemaFits fields) ∧
      (SchemaFits fields → prog.staticSize = (fieldsBits fields).map (· / 8)) := by
  have hatoms : ∀ a ∈ atoms, a.All Op.apart :=
    (forall₂_all (fun _ _ hr => (Realizes.all structural_apart hr)) h.pieces).mp
      ((every_iff_pieces prog.ops).mp htidy.every).2
  have hcounts : List.Forall₂ (fun f a => FieldCounts f.ty a ∧ a.All Op.apart) fields atoms := by
    clear h
    induction hfields with
    | nil => exact .nil
    | cons hfa _ ih =>
      exact .cons ⟨hfa, hatoms _ List.mem_cons_self⟩ (ih fun a ha => hatoms a (List.mem_cons_of_mem _ ha))
  have hjoins (k : RunKind) : (piecesOf prog.ops).map (Piece.joins k) = fields.map fun f => f.ty.joins k :=
    (forall₂_map (f := Atom.joins k) (g := Piece.joins k) (fun _ _ hr => hr.joins k) h.pieces).trans
      (forall₂_map (f := fun f : FieldIn => f.ty.joins k) (g := Atom.joins k) (fun _ _ hfa => hfa.1.joins k) hcounts)
  have hevery : (∀ op ∈ prog.ops, op.Every Op.Exact) ↔
      (∀ k : RunKind, RunsFit k k.start (fields.map fun f => f.ty.joins k)) ∧ fieldsSizesFit fields := by
    simp only [every_iff_pieces, ← hjoins, runs_exact htidy.apart h.laid,
      forall₂_all (fun _ _ hr => Realizes.all structural_exact hr) h.pieces,
      forall₂_all (fun _ _ hfa => hfa.1.exact hfa.2) hcounts, fieldsSizesFit_iff]
  -- With exact runs the bits of the fields are those of the ops.
  have hbits (hall : ∀ op ∈ prog.ops, op.Every Op.Exact) :
      fieldsBits fields = (exactSum (prog.ops.map opStatic)).map (8 * ·) ∧
        leadSum (fields.map fun f => f.ty.bitSize) = 8 * leadSum (prog.ops.map opStatic) := by
    have hruns := ((every_iff_pieces prog.ops).mp hall).1
    have hfit := fieldsSizesFit_iff.mp (hevery.mp hall).2
    have hbitSizes : atoms.map Atom.bits = fields.map fun f => f.ty.bitSize := by
      clear hevery hjoins hall h hruns hatoms hfields
      induction hcounts with
      | nil => rfl
      | cons hfa _ ih =>
        rw [List.map_cons, List.map_cons, hfa.1.bits hfa.2 (hfit _ List.mem_cons_self),
          ih fun f hf => hfit f (List.mem_cons_of_mem _ hf)]
    rw [fieldsBits_eq, ← hbitSizes, ← forall₂_map (fun _ _ hr => Realizes.bits hr) h.pieces]
    exact piecesOf_bits fun op hop k => hruns k op hop
  have hstatic := h.staticSize
  have hsize (hall : ∀ op ∈ prog.ops, op.Every Op.Exact) :
      prog.SizeExact ↔ leadSum (fields.map fun f => f.ty.bitSize) < 8 * usizeSize := by
    rw [(hbits hall).2, Program.sizeExact_iff h.minSize hstatic]
    omega
  constructor
  · constructor
    · rintro ⟨hexact, hall⟩
      obtain ⟨hruns, hfit⟩ := hevery.mp hall
      exact ⟨⟨hruns, (hsize hall).mp hexact⟩, hfit⟩
    · rintro ⟨⟨hruns, hlead⟩, hfit⟩
      have hall := hevery.mpr ⟨hruns, hfit⟩
      exact ⟨(hsize hall).mpr hlead, hall⟩
  · rintro ⟨⟨hruns, hlead⟩, hfit⟩
    have hall := hevery.mpr ⟨hruns, hfit⟩
    have hexact := ((hsize hall).mpr hlead).static
    rw [(hbits hall).1]
    rw [hstatic, staticSizeOf_eq] at hexact ⊢
    cases hsum : exactSum (prog.ops.map opStatic) with
    | none => rfl
    | some n =>
      rw [hsum, Option.map_some] at hexact
      obtain hn := Option.some.inj (hexact _ rfl)
      rw [Option.map_some, Option.map_some, Option.map_some, ← hn, Nat.mul_div_cancel_left n (by decide)]

section Lengths

variable {Γ : Env}

lemma LowersLen.constLen {e : ExprIn} {len : LenSrc} (h : LowersLen Γ e len) : lenConst len = e.constLen := by
  have key : ((∃ n, 0 ≤ n ∧ fold e = .ok (.imm n) ∧ len = .expr (.imm n) none) ∨
      ∃ expr inv, LowersLin Γ e expr inv ∧ len = .expr expr (some inv)) → lenConst len = e.constLen := by
    rintro (⟨n, -, hfold, rfl⟩ | ⟨expr, inv, ⟨folded, name, hfold, hlin, -⟩, rfl⟩)
    · rw [ExprIn.constLen, hfold]
      rfl
    · rw [ExprIn.constLen, hfold]
      cases folded with
      | imm n => cases hlin
      | _ => rfl
  cases e with
  | greedy =>
    obtain rfl : len = .greedy := h
    rfl
  | _ => exact key h

/-- The static size of a nested program with this size. -/
lemma LowersSize.opStatic {size : Option ExprIn} {size' : Option LenSrc} (h : LowersSize Γ size size') (prog : Program)
    (c : Common) : opStatic (.nest prog size' c) = size.elim prog.staticSize ExprIn.constLen := by
  cases size with
  | none =>
    obtain rfl : size' = none := h
    rfl
  | some e =>
    obtain ⟨len, hlen, -, rfl⟩ := h
    rw [Option.elim_some, ← hlen.constLen]
    cases len with
    | greedy => rfl
    | expr expr inv => cases inv <;> rfl

lemma LowersCount.opStatic {count : Option ExprIn} {untilEof : Bool} {count' : CountSrc}
    (h : LowersCount Γ count untilEof count') (maxCount : Nat) (elem : Op) (elemMin : Nat) (c : Common) :
    opStatic (.array count' maxCount elem elemMin c) =
      (count.bind ExprIn.constLen).bind fun n => (Rustruct.opStatic elem).bind fun m => checkedMul n m := by
  match count, untilEof with
  | none, true =>
    obtain rfl : count' = .untilEof := h
    rfl
  | none, false => exact h.elim
  | some e, true => cases e <;> exact h.elim
  | some e, false =>
    have key : (∃ expr inv, LowersLen Γ e (.expr expr inv) ∧ count' = .expr expr inv) →
        Rustruct.opStatic (.array count' maxCount elem elemMin c) =
          e.constLen.bind fun n => (Rustruct.opStatic elem).bind fun m => checkedMul n m := by
      rintro ⟨expr, inv, hlen, rfl⟩
      rw [← hlen.constLen]
      cases inv with
      | none =>
        rw [Rustruct.opStatic, lenConst]
        cases expr.asConst <;> rfl
      | some inv => rfl
    cases e with
    | greedy =>
      obtain rfl : count' = .untilEof := h
      rfl
    | _ => exact key h

end Lengths

section Types

variable (opts : Options)

/-- The type is lowered to ops and fields that count what it counts. -/
structure TypeCounts (ty : TypeIn) : Prop where
  elem : ∀ Γ bo op, LowersElem opts ty Γ bo op → ElemCounts ty op
  field : ∀ Γ bo name a kind, LowersField opts ty Γ bo name a kind → FieldCounts ty a

variable {opts}

lemma LowersFields.counts {fields : List FieldIn} (hfields : ∀ f ∈ fields, TypeCounts opts f.ty) {Γ : Env}
    {bo : ByteOrder} {k : Nat} {atoms : List Atom} (h : LowersFields opts fields Γ bo full k atoms) :
    List.Forall₂ (fun f a => FieldCounts f.ty a) fields atoms := by
  induction fields generalizing k atoms with
  | nil =>
    obtain ⟨-, rfl⟩ := h
    exact .nil
  | cons f fields ih =>
    obtain ⟨name, ty⟩ := f
    have hty := (hfields (.mk name ty) List.mem_cons_self).field
    have hrest := @ih fun f hf => hfields f (List.mem_cons_of_mem _ hf)
    cases name with
    | none =>
      obtain ⟨a, kind, rest, hfield, hmore, rfl⟩ := h
      exact .cons (hty _ _ _ _ _ hfield) (hrest hmore)
    | some n =>
      obtain ⟨a, s, rest, hfield, -, -, -, -, hmore, rfl⟩ := h
      exact .cons (hty _ _ _ _ _ hfield) (hrest hmore)

lemma LowersCases.counts {cases : List (Int × TypeIn)} (hcases : ∀ branch ∈ cases, TypeCounts opts branch.2) {Γ : Env}
    {bo : ByteOrder} {cases' : List (Int × Op)} (h : LowersCases opts cases Γ bo cases')
    (hapart : casesEvery Op.apart cases') :
    (casesEvery Op.Exact cases' ↔ casesSizesFit cases) ∧
      (casesSizesFit cases → ∀ first, allStatic cases' first = casesSize cases first) := by
  induction cases generalizing cases' with
  | nil =>
    obtain rfl : cases' = [] := h
    exact ⟨Iff.rfl, fun _ _ => rfl⟩
  | cons branch cases ih =>
    obtain ⟨tag, ty⟩ := branch
    obtain ⟨op, rest, hop, hrest, rfl⟩ := h
    have hty := (hcases (tag, ty) List.mem_cons_self).elem _ _ _ hop
    obtain ⟨hexact, hsize⟩ := ih (fun b hb => hcases b (List.mem_cons_of_mem _ hb)) hrest hapart.2
    refine ⟨and_congr (hty.exact hapart.1) hexact, fun hfit first => ?_⟩
    rw [allStatic, casesSize, hty.size hapart.1 hfit.1, hsize hfit.2]

lemma LowersDefault.counts {default : Option TypeIn} (hdefault : ∀ ty ∈ default, TypeCounts opts ty) {Γ : Env}
    {bo : ByteOrder} {default' : Option Op} (h : LowersDefault opts default Γ bo default')
    (hapart : defaultEvery Op.apart default') :
    (defaultEvery Op.Exact default' ↔ defaultSizesFit default) ∧
      (defaultSizesFit default → ∀ first, defaultStatic default' first = defaultSize default first) := by
  cases default with
  | none =>
    obtain rfl : default' = none := h
    exact ⟨Iff.rfl, fun _ _ => rfl⟩
  | some ty =>
    obtain ⟨op, hop, rfl⟩ := h
    have hty := (hdefault ty rfl).elem _ _ _ hop
    refine ⟨hty.exact hapart, fun hfit first => ?_⟩
    rw [defaultStatic, defaultSize, hty.size hapart hfit]

/-- A field that is an op of its own. -/
lemma ElemCounts.field {ty : TypeIn} {op : Op} (h : ElemCounts ty op) (hfixed : ty.joins .fixed = none)
    (hbits : ty.joins .bits = none) (hsize : ty.bitSize = ty.size.map (8 * ·)) (name : String) :
    FieldCounts ty (.op op name) where
  joins k := by
    cases k with
    | fixed => exact hfixed.symm
    | bits => exact hbits.symm
  exact := h.exact
  bits hapart hfit := by rw [Atom.bits, h.size hapart hfit, hsize]

/-- An op without parts. -/
lemma elemCounts_leaf {ty : TypeIn} {op : Op} (hexact : op.Every Op.Exact) (hfit : ty.SizesFit)
    (hsize : opStatic op = ty.size) : ElemCounts ty op :=
  ⟨fun _ => iff_of_true hexact hfit, fun _ _ => hsize⟩

lemma elemCounts_fixed1 {ty : TypeIn} {kind : FixKind} (hfit : ty.SizesFit) (hsize : some kind.width = ty.size) :
    ElemCounts ty (fixed1 kind) :=
  elemCounts_leaf ⟨fun _ hi => absurd hi List.not_mem_nil, ⟨rfl, trivial⟩, rfl⟩ hfit hsize

lemma fieldCounts_fixed {ty : TypeIn} {kind : FixKind} {key : Key} (hfit : ty.SizesFit)
    (hwidth : some kind.width = ty.fixedWidth) (hjoins : ty.joins .bits = none)
    (hbits : ty.bitSize = ty.fixedWidth.map (8 * ·)) : FieldCounts ty (.fixed kind key) where
  joins k := by
    cases k with
    | fixed => exact hwidth
    | bits => exact hjoins.symm
  exact _ := iff_of_true trivial hfit
  bits _ _ := by
    rw [hbits, ← hwidth]
    rfl

lemma rawLen_width {len : Option Nat} {const : Option Bytes} {mismatch : Nat → Nat → String} {n : Nat}
    (h : rawLen len const mismatch = .ok n) : n = len.getD ((const.map List.length).getD 0) := by
  unfold rawLen at h
  split at h
  · split_ifs at h
    · cases h
    · cases h
      rfl
  · cases h
    rfl
  · cases h
    rfl
  · cases h

lemma parseAlgo_preset {name : String} {ov : CrcOverrides} {algo : Algo} (h : parseAlgo name ov = .ok algo) :
    (Algo.preset name).map Algo.widthBytes = some algo.widthBytes := by
  unfold parseAlgo at h
  split at h
  · cases h
  · rename_i spec hspec
    cases h
    rw [hspec]
    rfl
  · rename_i other hother
    split_ifs at h
    · cases h
    · cases h
      rw [hother]
      rfl

lemma counts_struct {fields : List FieldIn} (hfields : ∀ f ∈ fields, TypeCounts opts f.ty) {byteorder : Option ByteOrder}
    {size : Option ExprIn} {size' : Option LenSrc} {Γ : Env} {bo : ByteOrder} {atoms : List Atom} {prog : Program}
    (hsize : LowersSize Γ size size') (h : LowersFields opts fields Γ bo full 0 atoms)
    (ha : Assembled full atoms prog) : ElemCounts (.struct fields byteorder size) (.nest prog size' .skip) := by
  have key (hapart : (Op.nest prog size' .skip).Every Op.apart) :=
    ha.counts ⟨hapart.1, by obtain ⟨ops, nregs, nspans, minSize, staticSize⟩ := prog; exact opsEvery_iff.mp hapart.2⟩
      (LowersFields.counts hfields h)
  constructor
  · intro hapart
    refine Iff.trans ?_ (key hapart).1
    obtain ⟨ops, nregs, nspans, minSize, staticSize⟩ := prog
    exact and_congr_right fun _ => opsEvery_iff
  · intro hapart hfit
    rw [hsize.opStatic, (key hapart).2 hfit]
    cases size <;> rfl

lemma FieldCounts.cond {thn : TypeIn} {op : Op} (h : ElemCounts thn op) (pred : ExprIn) (pred' : Expr) (name : String) :
    FieldCounts (.cond pred thn) (.cond pred' op name) where
  joins k := by cases k <;> rfl
  exact hapart := by
    rw [TypeIn.SizesFit]
    exact h.exact hapart
  bits _ _ := rfl

lemma counts_array {elem : TypeIn} (helem : TypeCounts opts elem) {Γ : Env} {bo : ByteOrder} {count : Option ExprIn}
    {untilEof : Bool} {count' : CountSrc} {elem' : Op} (hcount : LowersCount Γ count untilEof count')
    (h : LowersElem opts elem Γ bo elem') (maxCount elemMin : Nat) :
    ElemCounts (.array elem count untilEof) (.array count' maxCount elem' elemMin .skip) := by
  have he := helem.elem _ _ _ h
  constructor
  · intro hapart
    rw [TypeIn.SizesFit, ← he.exact hapart.2]
    exact and_iff_right trivial
  · intro hapart hfit
    rw [hcount.opStatic, he.size hapart.2 hfit, TypeIn.size]
    rfl

lemma counts_switch {on : ExprIn} {cases : List (Int × TypeIn)} {default : Option TypeIn}
    (hcases : ∀ branch ∈ cases, TypeCounts opts branch.2) (hdefault : ∀ ty ∈ default, TypeCounts opts ty)
    {Γ : Env} {bo : ByteOrder} {cases' : List (Int × Op)} {default' : Option Op}
    (hc : LowersCases opts cases Γ bo cases') (hd : LowersDefault opts default Γ bo default') (on' : Expr) :
    ElemCounts (.switch on cases default) (.switch on' cases' default' .skip) := by
  constructor
  · rintro ⟨-, hcapart, hdapart⟩
    rw [TypeIn.SizesFit, ← (LowersCases.counts hcases hc hcapart).1, ← (LowersDefault.counts hdefault hd hdapart).1]
    exact and_iff_right trivial
  · rintro ⟨-, hcapart, hdapart⟩ hfit
    rw [TypeIn.SizesFit] at hfit
    have hdstatic := (LowersDefault.counts hdefault hd hdapart).2 hfit.2
    cases cases with
    | nil =>
      obtain rfl : cases' = [] := hc
      rfl
    | cons branch cases =>
      obtain ⟨tag, ty⟩ := branch
      obtain ⟨op, rest, hop, hrest, rfl⟩ := hc
      have hfirst := ((hcases (tag, ty) List.mem_cons_self).elem _ _ _ hop).size hcapart.1 hfit.1.1
      have hothers := (LowersCases.counts (fun b hb => hcases b (List.mem_cons_of_mem _ hb)) hrest hcapart.2).2 hfit.1.2
      simp only [opStatic, TypeIn.size, hfirst, hothers, hdstatic]

/-- Compiling a type counts what the type counts. -/
lemma typeCounts_cases (opts : Options) : TypeCases (TypeCounts opts) where
  int prim byteorder const := by
    constructor
    · rintro Γ bo op ⟨-, rfl⟩
      exact elemCounts_fixed1 trivial rfl
    · rintro Γ bo name a kind ⟨-, rfl, -⟩
      exact fieldCounts_fixed trivial rfl rfl rfl
  float is64 byteorder := by
    constructor
    · rintro Γ bo op rfl
      cases is64 <;> exact elemCounts_fixed1 trivial rfl
    · rintro Γ bo name a kind ⟨rfl, -⟩
      cases is64 <;> exact fieldCounts_fixed trivial rfl rfl rfl
  bool const := by
    constructor
    · rintro Γ bo op rfl
      exact elemCounts_fixed1 trivial rfl
    · rintro Γ bo name a kind ⟨rfl, -⟩
      exact fieldCounts_fixed trivial rfl rfl rfl
  raw len const := by
    constructor
    · rintro Γ bo op ⟨n, hn, rfl⟩
      exact elemCounts_fixed1 trivial (congrArg some (rawLen_width hn))
    · rintro Γ bo name a kind ⟨n, hn, rfl, -⟩
      exact fieldCounts_fixed trivial (congrArg some (rawLen_width hn)) rfl rfl
  bytes len max := by
    have key {Γ : Env} {len' : LenSrc} (hlen : LowersLen Γ len len') (max' : Nat) :
        ElemCounts (.bytes len max) (.bytes len' max' .skip) := elemCounts_leaf trivial trivial hlen.constLen
    constructor
    · rintro Γ bo op ⟨len', hlen, rfl⟩
      exact key hlen _
    · rintro Γ bo name a kind ⟨n, len', -, hlen, rfl, -⟩
      exact (key hlen _).field rfl rfl rfl n
  str len max encoding errors := by
    have key {Γ : Env} {len' : LenSrc} (hlen : LowersLen Γ len len') (max' : Nat) (enc : Enc) :
        ElemCounts (.str len max encoding errors) (.str len' max' enc .skip) :=
      elemCounts_leaf trivial trivial hlen.constLen
    constructor
    · rintro Γ bo op ⟨len', enc, hlen, -, rfl⟩
      exact key hlen _ _
    · rintro Γ bo name a kind ⟨n, len', enc, -, hlen, -, rfl, -⟩
      exact (key hlen _ _).field rfl rfl rfl n
  cstr max encoding errors := by
    have key (max' : Nat) (enc : Enc) : ElemCounts (.cstr max encoding errors) (.cstr max' enc .skip) :=
      elemCounts_leaf trivial trivial rfl
    constructor
    · rintro Γ bo op ⟨enc, -, rfl⟩
      exact key _ enc
    · rintro Γ bo name a kind ⟨n, enc, -, -, rfl, -⟩
      exact (key _ enc).field rfl rfl rfl n
  bits width signed := by
    constructor
    · exact fun Γ bo op h => h.elim
    · rintro Γ bo name a kind ⟨-, -, rfl, -⟩
      exact ⟨fun k => by cases k <;> rfl, fun _ => Iff.rfl, fun _ _ => rfl⟩
  flags base byteorder names rest := by
    have key {be : Bool} {op : Op} (h : compileFlags base be names rest .skip = .ok op) :
        ElemCounts (.flags base byteorder names rest) op := by
      obtain ⟨items, rest', restMask, rfl⟩ := compileFlags_flags h
      exact elemCounts_leaf trivial trivial rfl
    constructor
    · exact fun Γ bo op h => key h
    · rintro Γ bo name a kind ⟨n, op, -, hop, rfl, -⟩
      exact (key hop).field rfl rfl rfl n
  digest algo overrides overs verify := by
    constructor
    · exact fun Γ bo op h => h.elim
    · rintro Γ bo name a kind ⟨n, algo', -, halgo, -, rfl, -⟩
      refine ⟨fun k => by cases k <;> rfl, fun _ => Iff.rfl, fun _ _ => ?_⟩
      rw [TypeIn.bitSize, TypeIn.size, parseAlgo_preset halgo]
      · rfl
      · exact fun width signed h => TypeIn.noConfusion h
  struct fields byteorder size hfields := by
    constructor
    · rintro Γ bo op ⟨size', full, atoms, prog, hsize, hlow, ha, rfl⟩
      exact counts_struct hfields hsize hlow ha
    · rintro Γ bo name a kind ⟨n, size', full, atoms, prog, -, hsize, hlow, ha, -, rfl, -⟩
      exact (counts_struct hfields hsize hlow ha).field rfl rfl rfl n
  array elem count untilEof helem := by
    constructor
    · rintro Γ bo op ⟨count', elem', hcount, he, rfl⟩
      exact counts_array helem hcount he _ _
    · rintro Γ bo name a kind ⟨n, count', elem', -, hcount, he, rfl, -⟩
      exact (counts_array helem hcount he _ _).field rfl rfl rfl n
  switch on cases default hcases hdefault := by
    constructor
    · rintro Γ bo op ⟨on', cases', default', -, hc, hd, rfl⟩
      exact counts_switch hcases hdefault hc hd on'
    · rintro Γ bo name a kind ⟨n, on', cases', default', -, -, hc, hd, rfl, -⟩
      exact (counts_switch hcases hdefault hc hd on').field rfl rfl rfl n
  cond pred thn hthn := by
    constructor
    · exact fun Γ bo op h => h.elim
    · rintro Γ bo name a kind ⟨n, pred', thn', -, -, hlow, rfl, -⟩
      exact FieldCounts.cond (hthn.elem _ _ _ hlow) pred pred' n

end Types

end Lowering

/-- All sums of a compiled program are exact exactly when those of its schema fit. -/
theorem compile_sums_exact {fields : List FieldIn} {opts : Options} {prog : Program}
    (h : compile fields opts = .ok prog) : (prog.SizeExact ∧ prog.Every Op.Exact) ↔ SchemaFits fields := by
  obtain ⟨full, atoms, hfields, ha⟩ := (compile_lowers h).1
  have htypes : ∀ f ∈ fields, TypeCounts opts f.ty := (typeCounts_cases opts).fields fields
  have hcounts := (ha.counts (compile_tidy h) (LowersFields.counts htypes hfields)).1
  rw [← hcounts]
  obtain ⟨ops, nregs, nspans, minSize, staticSize⟩ := prog
  exact and_congr_right fun _ => opsEvery_iff

/-- In a byte and an array of numbers everything fits. -/
theorem compile_sums_exact_pair : ∃ prog, compile pairFields {} = .ok prog ∧ prog.SizeExact ∧
    prog.Every Op.Exact := by
  have hc : Exec.returns (compile pairFields {}) fun _ => true := by decide +kernel
  obtain ⟨prog, hp, -⟩ := Exec.returns_iff.mp hc
  have hfit : SchemaFits pairFields := by
    refine ⟨⟨fun k => by cases k <;> trivial, ?_⟩, trivial, trivial, trivial⟩
    have hlead : leadSum (pairFields.map fun f => f.ty.bitSize) = 40 := by decide +kernel
    rw [hlead]
    decide
  exact ⟨prog, hp, (compile_sums_exact hp).mpr hfit⟩

/-- A block of all bytes but one that can be counted, then one more. -/
def wrappedFields : List FieldIn :=
  [.named "block" (.raw (some (2 ^ 64 - 1)) none), .named "last" (.int .u8 none none)]

/-- A run of this width that holds this many bytes. -/
def Op.runOf (width bytes : Nat) : Op → Bool
  | .fixed w items => w == width && runWidth items == bytes
  | _ => false

/-- The run wraps to no byte at all, and so does the static size. -/
theorem compile_sums_wrap : ∃ prog, compile wrappedFields {} = .ok prog ∧ prog.staticSize = some 0 ∧
    prog.ops.any (Op.runOf 0 (2 ^ 64)) ∧ ¬(prog.SizeExact ∧ prog.Every Op.Exact) := by
  have hc : Exec.returns (compile wrappedFields {}) fun prog =>
      prog.staticSize == some 0 && prog.ops.any (Op.runOf 0 (2 ^ 64)) := by decide +kernel
  obtain ⟨⟨ops, nregs, nspans, minSize, staticSize⟩, hp, hwrap⟩ := Exec.returns_iff.mp hc
  obtain ⟨hstatic, hrun⟩ := Bool.and_eq_true_iff.mp hwrap
  refine ⟨_, hp, eq_of_beq hstatic, hrun, fun hexact => ?_⟩
  obtain ⟨op, hop, hof⟩ := List.any_eq_true.mp hrun
  have hevery : op.Every Op.Exact := opsEvery_iff.mp hexact.2 op hop
  cases op with
  | fixed width items =>
    obtain ⟨hwidth, hbytes⟩ := Bool.and_eq_true_iff.mp hof
    have hsum : width = runWidth items := hevery.2.2
    rw [eq_of_beq hwidth, eq_of_beq hbytes] at hsum
    exact absurd hsum (by decide)
  | _ => cases hof

end Rustruct

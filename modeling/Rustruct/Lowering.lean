import Rustruct.Compile

/-!
# What a program is for a schema

The relation between a schema and the program `compile` makes of it, without the
compiler's state: registers and spans are those the scope ends with, and a reference is
looked up among the names declared before it.
-/

namespace Rustruct

/-- The symbols in scope, scope by scope, innermost first. -/
abbrev Env := List (List Sym)

def findSym (syms : List Sym) (name : String) : Option Sym :=
  syms.find? fun s => s.name == name

/-- The innermost declaration of a name, with how many scopes out it is. -/
def lookupSym : Env → String → Option (Nat × Sym)
  | [], _ => none
  | syms :: Γ, name =>
    match findSym syms name with
    | some s => some (0, s)
    | none => (lookupSym Γ name).map fun (up, s) => (up + 1, s)

/-- What a declaration fixes about its symbol. -/
structure SymKind where
  refable : Bool := false
  isFlags : Bool := false
  isConst : Bool := false
  spannable : Bool := true
  deriving DecidableEq, Repr

def Sym.kind (s : Sym) : SymKind :=
  { refable := s.refable, isFlags := s.isFlags, isConst := s.isConst, spannable := s.spannable }

def ExprIn.mentions (n : String) : ExprIn → Bool
  | .imm _ | .greedy => false
  | .ref name => name == n
  | .bin _ l r => l.mentions n || r.mentions n

mutual

/-- Some expression in the type refers to a field `n` outside it. -/
def TypeIn.mentions (n : String) : TypeIn → Bool
  | .bytes len _ | .str len _ _ _ => len.mentions n
  | .struct fields _ size => size.any (ExprIn.mentions n) || fieldsMention n fields
  | .array elem count _ => count.any (ExprIn.mentions n) || elem.mentions n
  | .switch on cases default => on.mentions n || casesMention n cases || defaultMentions n default
  | .cond pred thn => pred.mentions n || thn.mentions n
  | _ => false

/-- A field of the same name hides `n` from the fields after it. -/
def fieldsMention (n : String) : List FieldIn → Bool
  | [] => false
  | .mk name ty :: fields => ty.mentions n || (name != some n && fieldsMention n fields)

def casesMention (n : String) : List (Int × TypeIn) → Bool
  | [] => false
  | (_, ty) :: cases => ty.mentions n || casesMention n cases

def defaultMentions (n : String) : Option TypeIn → Bool
  | none => false
  | some ty => ty.mentions n

end

/-- What one field adds to its scope, before registers and spans. -/
inductive Atom where
  | fixed (kind : FixKind) (key : Key)
  | bit (width : Nat) (signed : Bool) (key : Key)
  | digest (algo : Algo) (overs : OverIn) (verify be : Bool) (name : String)
  /-- A dynamic field whose value is that of `op`. -/
  | op (op : Op) (name : String)
  | cond (pred : Expr) (thn : Op) (name : String)

/-- What one field is in the program of its scope. -/
inductive Piece where
  | fixed (kind : FixKind) (reg span : Option Nat) (key : Key)
  | bit (item : BitItem)
  | op (op : Op)

def FixedItem.piece (item : FixedItem) : Piece := .fixed item.kind item.reg item.span item.key

/-- The fields of an op, without their place in a run. -/
def Op.pieces : Op → List Piece
  | .fixed _ items => items.map FixedItem.piece
  | .bitRun _ items => items.map .bit
  | op => [.op op]

def piecesOf (ops : List Op) : List Piece := ops.flatMap Op.pieces

/-- Items one after another from `start` up to `width`. -/
def LaidItems : Nat → List FixedItem → Nat → Prop
  | start, [], width => width = start
  | start, item :: items, width =>
    item.off = start ∧ LaidItems (wrapAdd start item.kind.width) items width

/-- A run of fixed items: the first of them starts it. -/
def LaidRun (items : List FixedItem) (width : Nat) : Prop :=
  match items with
  | [] => False
  | item :: items => item.off = 0 ∧ LaidItems item.kind.width items width

/-- A run is that of its items, and a bit run fills its bytes. -/
def Op.Laid : Op → Prop
  | .fixed width items => LaidRun items width
  | .bitRun nbytes items => items ≠ [] ∧ bitTotal items = 8 * nbytes
  | _ => True

def symOf (full : List Sym) (key : Key) : Option Sym := key.name.bind (findSym full)

def regOf (full : List Sym) (key : Key) : Option Nat := (symOf full key).bind Sym.reg

def spanOf (full : List Sym) (key : Key) : Option Nat := (symOf full key).bind Sym.span

def derivedOf (full : List Sym) (key : Key) : Bool := (symOf full key).any Sym.derived

/-- The span registers of the fields an `over` names. -/
def OverIs (full : List Sym) : OverIn → Over → Prop
  | .star, overs => overs = .star
  | .names names, overs => ∃ idxs, overs = .spans idxs ∧
      List.Forall₂ (fun n idx => ∃ s, findSym full n = some s ∧ s.spannable ∧ s.span = some idx)
        names idxs

/-- The field in the program of a scope whose symbols are `full` in the end. -/
def Realizes (full : List Sym) : Atom → Piece → Prop
  | .fixed kind key, p =>
    p = .fixed (if derivedOf full key then kind.markDerived else kind) (regOf full key)
      (spanOf full key) key
  | .bit width signed key, p =>
    p = .bit { width, signed, reg := regOf full key, derived := derivedOf full key, key }
  | .digest algo overs verify be name, p => ∃ overs', OverIs full overs overs' ∧
      p = .op (.digest algo overs' verify be { key := .named name, span := spanOf full (.named name) })
  | .op op name, p =>
    p = .op (op.withCommon fun _ => { key := .named name, span := spanOf full (.named name) })
  | .cond pred thn name, p =>
    p = .op (.cond pred thn { key := .named name, span := spanOf full (.named name) })

/-- The numbers `f` gives to symbols are below `n`, and no two symbols have the same. -/
structure Numbered (f : Sym → Option Nat) (syms : List Sym) (n : Nat) : Prop where
  lt : ∀ s ∈ syms, ∀ i ∈ f s, i < n
  inj : syms.Pairwise fun s t => ∀ i ∈ f s, i ∉ f t

/-- Names are declared once, and no two symbols share a register or a span. -/
structure SymsOk (syms : List Sym) (nregs nspans : Nat) : Prop where
  names : (syms.map Sym.name).Nodup
  nregs_le : nregs ≤ maxRegs
  regs : Numbered Sym.reg syms nregs
  nspans_le : nspans ≤ maxSpans
  spans : Numbered Sym.span syms nspans
  refable : ∀ s ∈ syms, s.reg.isSome → s.refable
  spannable : ∀ s ∈ syms, s.span.isSome → s.spannable
  referenced : ∀ s ∈ syms, s.lenReferenced ∨ s.usedInOn → s.reg.isSome

/-- The program of a scope with these symbols and fields. -/
structure Assembled (full : List Sym) (atoms : List Atom) (prog : Program) : Prop where
  pieces : List.Forall₂ (Realizes full) atoms (piecesOf prog.ops)
  laid : ∀ op ∈ prog.ops, op.Laid
  syms : SymsOk full prog.nregs prog.nspans
  derived : ∀ s ∈ full, s.derived = (s.lenReferenced && !s.usedInOn && !s.isConst)
  minSize : prog.minSize = minSizeOf prog.ops
  staticSize : prog.staticSize = staticSizeOf prog.ops

/-- What the symbol of a reference must be for this use. -/
def RefCtx.allows (ctx : RefCtx) (s : Sym) : Prop :=
  match ctx with
  | .len => s.isConst ∨ s.lenReferenced
  | .on => s.usedInOn
  | .pred => True

def LowersRef (Γ : Env) (ctx : RefCtx) (name : String) (reg : Reg) : Prop :=
  ∃ up s, lookupSym Γ name = some (up, s) ∧ s.refable ∧ s.reg = some reg.idx ∧
    reg.up = up % 256 ∧ ctx.allows s

/-- The postfix form of an expression. -/
def LowersInto (Γ : Env) (ctx : RefCtx) : ExprIn → List Ins → Prop
  | .imm n, ins => ins = [.imm n]
  | .greedy, _ => False
  | .ref name, ins => ∃ reg, LowersRef Γ ctx name reg ∧ ins = [.reg reg]
  | .bin op l r, ins => ∃ il ir, LowersInto Γ ctx l il ∧ LowersInto Γ ctx r ir ∧
      ins = il ++ ir ++ [.op op]

def LowersExpr (Γ : Env) (ctx : RefCtx) (e : ExprIn) (expr : Expr) : Prop :=
  ∃ folded, fold e = .ok folded ∧ LowersInto Γ ctx folded expr.ins ∧
    postfixDepth expr.ins ≤ exprStack

/-- A length that refers to a field, and its inverse. -/
def LowersLin (Γ : Env) (e : ExprIn) (expr : Expr) (inv : Inv) : Prop :=
  ∃ folded name, fold e = .ok folded ∧
    linear folded = some { ref := some (name, inv.a), b := inv.b } ∧ inv.a ≠ 0 ∧
    LowersRef Γ .len name inv.reg ∧ LowersExpr Γ .len e expr

def LowersLen (Γ : Env) (e : ExprIn) (len : LenSrc) : Prop :=
  match e with
  | .greedy => len = .greedy
  | e => (∃ n, 0 ≤ n ∧ fold e = .ok (.imm n) ∧ len = .expr (.imm n) none) ∨
      ∃ expr inv, LowersLin Γ e expr inv ∧ len = .expr expr (some inv)

def LowersSize (Γ : Env) (size : Option ExprIn) (size' : Option LenSrc) : Prop :=
  match size with
  | none => size' = none
  | some e => ∃ len, LowersLen Γ e len ∧ len ≠ .greedy ∧ size' = some len

def LowersCount (Γ : Env) (count : Option ExprIn) (untilEof : Bool) (count' : CountSrc) : Prop :=
  match count, untilEof with
  | none, true => count' = .untilEof
  | some .greedy, false => count' = .untilEof
  | some e, false => ∃ expr inv, LowersLen Γ e (.expr expr inv) ∧ count' = .expr expr inv
  | _, _ => False

section Types

variable (opts : Options)

mutual

/-- The op of an array element or a switch branch. -/
def LowersElem : TypeIn → Env → ByteOrder → Op → Prop
  | .int prim byteorder const, _, bo, op =>
    checkConst prim const = .ok () ∧ op = fixed1 (.int prim (orderOf byteorder bo) const false)
  | .float is64 byteorder, _, bo, op =>
    op = fixed1 (if is64 then .f64 (orderOf byteorder bo) else .f32 (orderOf byteorder bo))
  | .bool const, _, _, op => op = fixed1 (.bool const)
  | .raw len const, _, _, op =>
    ∃ n, rawLen len const elemMismatch = .ok n ∧ op = fixed1 (.raw n const)
  | .bytes len max, Γ, _, op =>
    ∃ len', LowersLen Γ len len' ∧ op = .bytes len' (max.getD opts.maxDefault) .skip
  | .str len max encoding errors, Γ, _, op => ∃ len' enc, LowersLen Γ len len' ∧
      parseEnc encoding errors = .ok enc ∧ op = .str len' (max.getD opts.maxDefault) enc .skip
  | .cstr max encoding errors, _, _, op => ∃ enc, parseEnc encoding errors = .ok enc ∧
      op = .cstr (max.getD opts.maxDefault) enc .skip
  | .flags base byteorder names rest, _, bo, op =>
    compileFlags base (orderOf byteorder bo) names rest .skip = .ok op
  | .struct fields byteorder size, Γ, bo, op => ∃ size' full atoms prog,
      LowersSize Γ size size' ∧ LowersFields fields Γ (byteorder.getD bo) full 0 atoms ∧
      Assembled full atoms prog ∧ op = .nest prog size' .skip
  | .array elem count untilEof, Γ, bo, op => ∃ count' elem', LowersCount Γ count untilEof count' ∧
      LowersElem elem Γ bo elem' ∧ op = .array count' opts.maxCount elem' (opMin elem') .skip
  | .switch on cases default, Γ, bo, op => ∃ on' cases' default', LowersExpr Γ .on on on' ∧
      LowersCases cases Γ bo cases' ∧ LowersDefault default Γ bo default' ∧
      op = .switch on' cases' default' .skip
  | .bits .., _, _, _ => False
  | .digest .., _, _, _ => False
  | .cond .., _, _, _ => False

def LowersCases : List (Int × TypeIn) → Env → ByteOrder → List (Int × Op) → Prop
  | [], _, _, cases' => cases' = []
  | (tag, ty) :: cases, Γ, bo, cases' => ∃ op rest, LowersElem ty Γ bo op ∧
      LowersCases cases Γ bo rest ∧ cases' = (tag, op) :: rest

def LowersDefault : Option TypeIn → Env → ByteOrder → Option Op → Prop
  | none, _, _, default' => default' = none
  | some ty, Γ, bo, default' => ∃ op, LowersElem ty Γ bo op ∧ default' = some op

/-- The fields of a scope whose symbols are `full`, `k` of them declared before. -/
def LowersFields : List FieldIn → Env → ByteOrder → List Sym → Nat → List Atom → Prop
  | [], _, _, full, k, atoms => k = full.length ∧ atoms = []
  | .mk none ty :: fields, Γ, bo, full, k, atoms => ∃ atom kind rest,
      LowersField ty (full.take k :: Γ) bo none atom kind ∧
      LowersFields fields Γ bo full k rest ∧ atoms = atom :: rest
  | .mk (some n) ty :: fields, Γ, bo, full, k, atoms => ∃ atom s rest,
      LowersField ty (full.take k :: Γ) bo (some n) atom s.kind ∧
      full[k]? = some s ∧ s.name = n ∧ n ≠ "" ∧ (s.reg.isSome → fieldsMention n fields) ∧
      LowersFields fields Γ bo full (k + 1) rest ∧ atoms = atom :: rest

/-- One field of a struct, and what it declares. -/
def LowersField : TypeIn → Env → ByteOrder → Option String → Atom → SymKind → Prop
  | .int prim byteorder const, _, bo, name, atom, kind => checkConst prim const = .ok () ∧
      atom = .fixed (.int prim (orderOf byteorder bo) const false) (keyOf name) ∧
      kind = { refable := true, isConst := const.isSome }
  | .float is64 byteorder, _, bo, name, atom, kind =>
    atom = .fixed (if is64 then .f64 (orderOf byteorder bo) else .f32 (orderOf byteorder bo))
      (keyOf name) ∧ kind = {}
  | .bool const, _, _, name, atom, kind =>
    atom = .fixed (.bool const) (keyOf name) ∧ kind = { isConst := const.isSome }
  | .raw len const, _, _, name, atom, kind => ∃ n, rawLen len const fieldMismatch = .ok n ∧
      atom = .fixed (.raw n const) (keyOf name) ∧ kind = { isConst := const.isSome }
  | .bits width signed, _, _, name, atom, kind => 1 ≤ width ∧ width ≤ 64 ∧
      atom = .bit width signed (keyOf name) ∧ kind = { refable := true, spannable := false }
  | .digest algo overrides overs verify, _, bo, name, atom, kind => ∃ n algo', name = some n ∧
      parseAlgo algo overrides = .ok algo' ∧ checkOverIn n overs = .ok () ∧
      atom = .digest algo' overs verify bo.isBig n ∧ kind = {}
  | .cond pred thn, Γ, bo, name, atom, kind => ∃ n pred' thn', name = some n ∧
      LowersExpr Γ .pred pred pred' ∧ LowersElem thn Γ bo thn' ∧
      atom = .cond pred' thn' n ∧ kind = { spannable := false }
  | .flags base byteorder names rest, _, bo, name, atom, kind => ∃ n op, name = some n ∧
      compileFlags base (orderOf byteorder bo) names rest .skip = .ok op ∧
      atom = .op op n ∧ kind = { isFlags := true }
  | .struct fields byteorder size, Γ, bo, name, atom, kind => ∃ n size' full atoms prog,
      name = some n ∧ LowersSize Γ size size' ∧
      LowersFields fields Γ (byteorder.getD bo) full 0 atoms ∧ Assembled full atoms prog ∧
      checkStaticSize size' prog = .ok () ∧ atom = .op (.nest prog size' .skip) n ∧ kind = {}
  | .bytes len max, Γ, _, name, atom, kind => ∃ n len', name = some n ∧ LowersLen Γ len len' ∧
      atom = .op (.bytes len' (max.getD opts.maxDefault) .skip) n ∧ kind = {}
  | .str len max encoding errors, Γ, _, name, atom, kind => ∃ n len' enc, name = some n ∧
      LowersLen Γ len len' ∧ parseEnc encoding errors = .ok enc ∧
      atom = .op (.str len' (max.getD opts.maxDefault) enc .skip) n ∧ kind = {}
  | .cstr max encoding errors, _, _, name, atom, kind => ∃ n enc, name = some n ∧
      parseEnc encoding errors = .ok enc ∧
      atom = .op (.cstr (max.getD opts.maxDefault) enc .skip) n ∧ kind = {}
  | .array elem count untilEof, Γ, bo, name, atom, kind => ∃ n count' elem', name = some n ∧
      LowersCount Γ count untilEof count' ∧ LowersElem elem Γ bo elem' ∧
      atom = .op (.array count' opts.maxCount elem' (opMin elem') .skip) n ∧ kind = {}
  | .switch on cases default, Γ, bo, name, atom, kind => ∃ n on' cases' default', name = some n ∧
      LowersExpr Γ .on on on' ∧ LowersCases cases Γ bo cases' ∧
      LowersDefault default Γ bo default' ∧ atom = .op (.switch on' cases' default' .skip) n ∧
      kind = {}

end

-- The equations are made here, once for all modules.
attribute [local simp] LowersElem LowersCases LowersDefault LowersFields LowersField

/-- The program of a schema. -/
def LowersScope (fields : List FieldIn) (Γ : Env) (bo : ByteOrder) (prog : Program) : Prop :=
  ∃ full atoms, LowersFields opts fields Γ bo full 0 atoms ∧ Assembled full atoms prog

end Types

end Rustruct

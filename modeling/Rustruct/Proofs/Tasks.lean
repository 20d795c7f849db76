import Rustruct.Proofs.Leaving
import Rustruct.Proofs.Sizes
import Rustruct.Proofs.Faithful

/-!
# One field after another, in pack

Pack makes room for a run at once and then writes its items. What is left to do in a scope is the rest of
the run and the ops after it, and the next task is one field.
-/

namespace Rustruct

/-- The rest of a run that there is room for. -/
inductive Run where
  | idle
  | fixed (base : Nat) (items : List FixedItem)
  | bits (base off : Nat) (items : List BitItem)

/-- One field, where it is written. -/
inductive Task where
  | fixed (base : Nat) (item : FixedItem)
  | bit (base off : Nat) (item : BitItem)
  | op (o : Op)

/-- What is left of a scope. -/
structure Todo where
  run : Run
  ops : List Op

lemma Op.Roomy.sizeFits {op : Op} (h : op.Roomy) : op.sizeFits := by
  cases op with
  | fixed width items => exact h.1
  | _ => trivial

lemma Op.Roomy.bitsFit {op : Op} (h : op.Roomy) : op.bitsFit := by
  cases op with
  | bitRun nbytes items => exact h
  | _ => trivial

section Packing

variable (H : Hashes) (view : FieldIndex)

def Run.pack : Run → PCtx → PRes PCtx
  | .idle => fun ctx => .ok ctx
  | .fixed base items => packFixedItems base view items
  | .bits base off items => packBitItems base view items off

def Task.pack : Task → PCtx → PRes PCtx
  | .fixed base item => fun ctx => Exec.mapErr (segKey item.key) (packFixedItem base item (lookup view item.key) ctx)
  | .bit base off item => fun ctx =>
    Exec.mapErr (segKey item.key) (packBitItem base off item (lookup view item.key) ctx)
  | .op o => packOp H o view

def Todo.pack (todo : Todo) (ctx : PCtx) : PRes PCtx := do packOps H todo.ops view (← todo.run.pack view ctx)

end Packing

def Run.pieces : Run → List Piece
  | .idle => []
  | .fixed _ items => items.map FixedItem.piece
  | .bits _ _ items => items.map .bit

def Task.piece : Task → Piece
  | .fixed _ item => item.piece
  | .bit _ _ item => .bit item
  | .op o => .op o

def Todo.pieces (todo : Todo) : List Piece := todo.run.pieces ++ piecesOf todo.ops

/-- The run is at bit `p` of an output of `len` bytes, and fills it. Its bits are counted. -/
def Run.StartsAt (p len : Nat) : Run → Prop
  | .idle => p = 8 * len
  | .fixed base items => ∃ start, Consecutive start items ∧ p = 8 * (base + start) ∧ base + start + runWidth items = len
  | .bits base off items => p = 8 * base + off ∧ p + bitWidth items = 8 * len ∧ off + bitWidth items < u32Size

/-- The field starts with bit `p`, and there is room for it. -/
def Task.StartsAt (p len : Nat) : Task → Prop
  | .fixed base item => p = 8 * (base + item.off) ∧ base + item.off + item.kind.width ≤ len
  | .bit base off item => p = 8 * base + off ∧ p + item.width ≤ 8 * len ∧ off + item.width < u32Size
  | .op _ => p = 8 * len

/-- The bit after the field, when the output has `len` bytes then. -/
def Task.stop (p len : Nat) : Task → Nat
  | .fixed _ item => p + 8 * item.kind.width
  | .bit _ _ item => p + item.width
  | .op _ => 8 * len

/-- The next field, and what is left after it. -/
structure Todo.Next (H : Hashes) (todo : Todo) (p : Nat) (ctx : PCtx) (piece : Piece) (rest : List Piece) (room : PCtx)
    (task : Task) (after : Todo) : Prop where
  own : task.piece = piece
  rest : after.pieces = rest
  later : ∀ o ∈ after.ops, o ∈ todo.ops
  among : ∀ o, piece = .op o → o ∈ todo.ops
  frames : room.frames = ctx.frames
  moves : Moves FrameKept p ctx p room
  starts : task.StartsAt p room.out.length
  pack : ∀ view, todo.pack H view ctx = task.pack H view room >>= after.pack H view
  onward : ∀ view last, task.pack H view room = .ok last →
    after.run.StartsAt (task.stop p last.out.length) last.out.length

section Next

variable {H : Hashes} {view : FieldIndex} {p : Nat} {ctx last : PCtx} {piece : Piece} {rest : List Piece}

lemma Todo.next_idle {ops : List Op} (hpieces : piecesOf ops = piece :: rest) (hlaid : ∀ op ∈ ops, op.Laid)
    (hroomy : ∀ op ∈ ops, op.Roomy) (hs : ctx.Sound (8 * ctx.out.length)) (h : packOps H ops view ctx = .ok last) :
    ∃ room task after, Todo.Next H ⟨.idle, ops⟩ (8 * ctx.out.length) ctx piece rest room task after := by
  cases ops with
  | nil => cases hpieces
  | cons op ops =>
    have hop := hlaid op List.mem_cons_self
    have hroom := hroomy op List.mem_cons_self
    have hrest : ∀ o ∈ ops, o ∈ op :: ops := fun o ho => List.mem_cons_of_mem _ ho
    obtain ⟨mid, hmid, -⟩ := Exec.bind_eq_ok.mp h
    rw [piecesOf_cons] at hpieces
    cases op with
    | fixed width items =>
      obtain ⟨hroom, rfl⟩ := hroom
      have hfit : runWidth items < usizeSize := Nat.lt_of_le_of_lt (Nat.le_add_left _ _) hroom
      obtain ⟨hc, -⟩ := laidRun_consecutive hop hfit
      cases items with
      | nil => exact hop.elim
      | cons item items =>
        obtain ⟨hpiece, hrest'⟩ := List.cons.inj hpieces
        rw [packOp, packFixedRun] at hmid
        obtain ⟨room, hgrow, -⟩ := Exec.bind_eq_ok.mp hmid
        obtain ⟨hframes, hout, hmoves⟩ := hs.grow hroom hgrow
        have hlen : room.out.length = ctx.out.length + runWidth (item :: items) := by
          rw [hout, List.length_append, List.length_replicate]
        have hoff : item.off = 0 := hc.1
        have hwidth := runWidth_cons item items
        refine ⟨room, .fixed ctx.out.length item, ⟨.fixed ctx.out.length items, ops⟩, hpiece, hrest',
          hrest, ?_, hframes,
          hmoves, ⟨by omega, by omega⟩, fun view' => ?_, fun view' next' hnext => ?_⟩
        · intro o ho
          rw [← hpiece] at ho
          cases ho
        · rw [Todo.pack, Run.pack, Exec.bind_ok, packOps, packOp]
          dsimp only
          rw [packFixedRun, hgrow, Exec.bind_ok, packFixedItems_cons]
          exact bind_assoc _ _ _
        · have hsame := packFixedItem_length (Exec.mapErr_eq_ok.mp hnext)
          refine ⟨item.kind.width, ?_, ?_, ?_⟩
          · have := hc.2
            rwa [Nat.zero_add] at this
          · rw [Task.stop]
            omega
          · omega
    | bitRun nbytes items =>
      obtain ⟨hne, htotal⟩ := hop
      cases items with
      | nil => exact absurd rfl hne
      | cons item items =>
        obtain ⟨hpiece, hrest'⟩ := List.cons.inj hpieces
        rw [packOp, packBitRun] at hmid
        obtain ⟨room, hgrow, -⟩ := Exec.bind_eq_ok.mp hmid
        have hcount : bitWidth (item :: items) < u32Size := hroom
        rw [bitTotal_of_lt hcount] at htotal
        have hnbytes : isizeMax + nbytes < usizeSize := by
          have hmax : isizeMax + u32Size < usizeSize := by decide
          omega
        obtain ⟨hframes, hout, hmoves⟩ := hs.grow hnbytes hgrow
        have hlen : room.out.length = ctx.out.length + nbytes := by
          rw [hout, List.length_append, List.length_replicate]
        have hsum := bitWidth_cons item items
        refine ⟨room, .bit ctx.out.length 0 item, ⟨.bits ctx.out.length (0 + item.width) items, ops⟩, hpiece,
          hrest', hrest, ?_,
          hframes, hmoves, ⟨by omega, by omega, by omega⟩, fun view' => ?_, fun view' next' hnext => ?_⟩
        · intro o ho
          rw [← hpiece] at ho
          cases ho
        · rw [Todo.pack, Run.pack, Exec.bind_ok, packOps, packOp]
          dsimp only
          rw [packBitRun, hgrow, Exec.bind_ok, packBitItems_cons, wrapAddU32_of_lt (by omega)]
          exact bind_assoc _ _ _
        · have hsame := packBitItem_length (Exec.mapErr_eq_ok.mp hnext)
          rw [Run.StartsAt, Task.stop]
          omega
    | _ =>
      obtain ⟨hpiece, hrest'⟩ := List.cons.inj hpieces
      refine ⟨ctx, .op _, ⟨.idle, ops⟩, hpiece, hrest', hrest, ?_, rfl, .refl hs, rfl, fun view' => ?_,
        fun _ _ _ => rfl⟩
      · rintro o ho
        rw [← hpiece] at ho
        cases ho
        exact List.mem_cons_self
      · rw [Todo.pack, Run.pack, Exec.bind_ok, packOps]
        rfl

lemma Todo.next {todo : Todo} (hpieces : todo.pieces = piece :: rest) (hlaid : ∀ op ∈ todo.ops, op.Laid)
    (hroomy : ∀ op ∈ todo.ops, op.Roomy) (hat : todo.run.StartsAt p ctx.out.length) (hs : ctx.Sound p)
    (h : todo.pack H view ctx = .ok last) :
    ∃ room task after, todo.Next H p ctx piece rest room task after := by
  obtain ⟨run, ops⟩ := todo
  have idle : (∀ view', Todo.pack H view' ⟨run, ops⟩ ctx = packOps H ops view' ctx) → p = 8 * ctx.out.length →
      piecesOf ops = piece :: rest → ∃ room task after, Todo.Next H ⟨run, ops⟩ p ctx piece rest room task after := by
    intro hpack hp hpieces
    subst hp
    rw [hpack] at h
    obtain ⟨room, task, after, hnext⟩ := Todo.next_idle hpieces hlaid hroomy hs h
    refine ⟨room, task, after, hnext.own, hnext.rest, hnext.later, hnext.among, hnext.frames, hnext.moves,
      hnext.starts, ?_,
      hnext.onward⟩
    intro view'
    rw [hpack, ← hnext.pack]
    rfl
  cases run with
  | idle => exact idle (fun _ => rfl) hat hpieces
  | fixed base items =>
    obtain ⟨start, hc, hp, hlen⟩ := hat
    cases items with
    | nil =>
      have hzero : runWidth [] = 0 := rfl
      exact idle (fun _ => rfl) (by omega) hpieces
    | cons item items =>
      obtain ⟨hpiece, hrest'⟩ := List.cons.inj hpieces
      have hoff : item.off = start := hc.1
      have hwidth := runWidth_cons item items
      refine ⟨ctx, .fixed base item, ⟨.fixed base items, ops⟩, hpiece, hrest', fun _ ho => ho, ?_, rfl, .refl hs,
        ⟨by omega, by omega⟩, fun view' => ?_, fun view' next' hnext => ?_⟩
      · intro o ho
        rw [← hpiece] at ho
        cases ho
      · rw [Todo.pack, Run.pack, packFixedItems_cons]
        exact bind_assoc _ _ _
      · have hsame := packFixedItem_length (Exec.mapErr_eq_ok.mp hnext)
        exact ⟨start + item.kind.width, hc.2, by rw [Task.stop]; omega, by omega⟩
  | bits base off items =>
    obtain ⟨hp, hlen, hcount⟩ := hat
    cases items with
    | nil =>
      have hzero : bitWidth [] = 0 := rfl
      exact idle (fun _ => rfl) (by omega) hpieces
    | cons item items =>
      obtain ⟨hpiece, hrest'⟩ := List.cons.inj hpieces
      have hsum := bitWidth_cons item items
      refine ⟨ctx, .bit base off item, ⟨.bits base (off + item.width) items, ops⟩, hpiece, hrest',
        fun _ ho => ho, ?_, rfl,
        .refl hs, ⟨by omega, by omega, by omega⟩, fun view' => ?_, fun view' next' hnext => ?_⟩
      · intro o ho
        rw [← hpiece] at ho
        cases ho
      · rw [Todo.pack, Run.pack, packBitItems_cons, wrapAddU32_of_lt (by omega)]
        exact bind_assoc _ _ _
      · have hsame := packBitItem_length (Exec.mapErr_eq_ok.mp hnext)
        rw [Run.StartsAt, Task.stop]
        omega

/-- Nothing is left to do. -/
lemma Todo.done {todo : Todo} (hpieces : todo.pieces = []) (hlaid : ∀ op ∈ todo.ops, op.Laid)
    (hat : todo.run.StartsAt p ctx.out.length) : p = 8 * ctx.out.length ∧ ∀ view, todo.pack H view ctx = .ok ctx := by
  obtain ⟨run, ops⟩ := todo
  obtain ⟨hrun, hops⟩ := List.append_eq_nil_iff.mp hpieces
  have hnil : ops = [] := by
    cases ops with
    | nil => rfl
    | cons op ops =>
      have hop := hlaid op List.mem_cons_self
      rw [piecesOf_cons, List.append_eq_nil_iff] at hops
      cases op with
      | fixed width items =>
        obtain rfl := List.map_eq_nil_iff.mp hops.1
        exact hop.elim
      | bitRun nbytes items => exact absurd (List.map_eq_nil_iff.mp hops.1) hop.1
      | _ => cases hops.1
  subst hnil
  cases run with
  | idle => exact ⟨hat, fun _ => rfl⟩
  | fixed base items =>
    obtain rfl := List.map_eq_nil_iff.mp hrun
    obtain ⟨start, -, hp, hlen⟩ := hat
    have hzero : runWidth [] = 0 := rfl
    exact ⟨by omega, fun _ => rfl⟩
  | bits base off items =>
    obtain rfl := List.map_eq_nil_iff.mp hrun
    obtain ⟨hp, hlen, -⟩ := hat
    have hzero : bitWidth [] = 0 := rfl
    exact ⟨by omega, fun _ => rfl⟩

end Next

end Rustruct

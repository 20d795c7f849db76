import Rustruct.Formats.MsgPack

/-!
# The work stack of the MessagePack decoder

`Descends` is the recursive decoder. A stack of half-filled frames stands for the calls
that are pending: `Resumes` says what they still have to read, and one iteration of the
loop keeps it. Every iteration uses up a byte or closes a frame.
-/

namespace Rustruct.MsgPack

mutual

/-- The recursive decoder reads `v` at `offset` and ends at `stop`. -/
inductive Descends (buf : Bytes) : Nat → Obj → Nat → Prop where
  | leaf {offset stop mv v} (read : Mv.unpackFrom buf offset = some (mv, stop))
      (head : classify mv = some (.leaf v)) : Descends buf offset v stop
  | container {offset start stop mv kind count items v}
      (read : Mv.unpackFrom buf offset = some (mv, start))
      (head : classify mv = some (.container kind count))
      (elements : DescendsMany buf (kind.need count) start items stop)
      (finish : finishFrame kind items = some v) : Descends buf offset v stop

/-- So many values in turn. -/
inductive DescendsMany (buf : Bytes) : Nat → Nat → List Obj → Nat → Prop where
  | nil {offset} : DescendsMany buf 0 offset [] offset
  | cons {n offset v mid vs stop} (first : Descends buf offset v mid)
      (rest : DescendsMany buf n mid vs stop) : DescendsMany buf (n + 1) offset (v :: vs) stop

end

section Rules

variable {buf : Bytes}

lemma descendsMany_zero {offset stop : Nat} {vs : List Obj} :
    DescendsMany buf 0 offset vs stop ↔ vs = [] ∧ stop = offset := by
  constructor
  · intro h
    cases h
    exact ⟨rfl, rfl⟩
  · rintro ⟨rfl, rfl⟩
    exact .nil

lemma descendsMany_succ {n offset stop : Nat} {vs : List Obj} :
    DescendsMany buf (n + 1) offset vs stop ↔
      ∃ v mid vs', Descends buf offset v mid ∧ DescendsMany buf n mid vs' stop ∧ vs = v :: vs' := by
  constructor
  · intro h
    cases h with
    | cons first rest => exact ⟨_, _, _, first, rest, rfl⟩
  · rintro ⟨v, mid, vs', first, rest, rfl⟩
    exact .cons first rest

lemma descends_none {offset stop : Nat} {v : Obj} (h : Mv.unpackFrom buf offset = none) :
    ¬ Descends buf offset v stop := by
  intro hd
  cases hd <;> simp_all

lemma descends_reject {offset start stop : Nat} {mv : Mv} {v : Obj}
    (h : Mv.unpackFrom buf offset = some (mv, start)) (hc : classify mv = none) :
    ¬ Descends buf offset v stop := by
  intro hd
  cases hd <;> simp_all

lemma descends_leaf {offset start stop : Nat} {mv : Mv} {v w : Obj}
    (h : Mv.unpackFrom buf offset = some (mv, start)) (hc : classify mv = some (.leaf v)) :
    Descends buf offset w stop ↔ w = v ∧ stop = start := by
  constructor
  · intro hd
    cases hd with
    | leaf read head => simp_all
    | container read head => simp_all
  · rintro ⟨rfl, rfl⟩
    exact .leaf h hc

lemma descends_container {offset start stop count : Nat} {mv : Mv} {kind : Kind} {w : Obj}
    (h : Mv.unpackFrom buf offset = some (mv, start))
    (hc : classify mv = some (.container kind count)) :
    Descends buf offset w stop ↔ ∃ items, DescendsMany buf (kind.need count) start items stop ∧
      finishFrame kind items = some w := by
  constructor
  · intro hd
    cases hd with
    | leaf read head => simp_all
    | container read head elements finish =>
      obtain ⟨rfl, rfl⟩ : mv = _ ∧ start = _ := by simpa using h.symm.trans read
      obtain ⟨rfl, rfl⟩ : kind = _ ∧ count = _ := by simpa using hc.symm.trans head
      exact ⟨_, elements, finish⟩
  · rintro ⟨items, elements, finish⟩
    exact .container h hc elements finish

end Rules

/-- With the items of a frame all there, the frames below end with `v` at `stop`. -/
def Closes (buf : Bytes) (v : Obj) (stop : Nat) : Option Kind → List Obj → List Frame → Nat → Prop
  | _, items, [], offset => items.head? = some v ∧ stop = offset
  | kind, items, parent :: below, offset => ∃ k ∈ kind, ∃ w, finishFrame k items = some w ∧
      ∃ vs mid, DescendsMany buf (parent.need - 1) offset vs mid ∧
        Closes buf v stop parent.kind (parent.items ++ [w] ++ vs) below mid

/-- What the frames still have to read ends with `v` at `stop`. -/
def Resumes (buf : Bytes) (v : Obj) (stop : Nat) (f : Frame) (below : List Frame) (offset : Nat) :
    Prop :=
  ∃ vs mid, DescendsMany buf f.need offset vs mid ∧ Closes buf v stop f.kind (f.items ++ vs) below mid

/-- The root is the last frame and only the last, and a frame below waits for the one above. -/
def Stacked : Frame → List Frame → Prop
  | f, [] => f.kind = none
  | f, parent :: below => f.kind ≠ none ∧ 0 < parent.need ∧ Stacked parent below

lemma Stacked.replace {f g : Frame} {below : List Frame} (h : Stacked f below) (hk : g.kind = f.kind) :
    Stacked g below := by
  cases below with
  | nil => exact hk.trans h
  | cons parent below => exact ⟨hk ▸ h.1, h.2⟩

section Turns

variable {buf : Bytes} {v : Obj} {stop : Nat}

/-- What an iteration does to what is pending. -/
def Turn.Keeps (buf : Bytes) (v : Obj) (stop : Nat) (pending : Prop) : Turn → Prop
  | .again [] _ => False
  | .again (f :: below) offset => Stacked f below ∧ (pending ↔ Resumes buf v stop f below offset)
  | .done w offset => pending ↔ (w = v ∧ offset = stop)
  | .raised => ¬ pending

lemma resumes_push {f : Frame} {below : List Frame} {offset : Nat} {w : Obj} :
    Resumes buf v stop (f.push w) below offset ↔ ∃ vs mid, DescendsMany buf (f.need - 1) offset vs mid ∧
      Closes buf v stop f.kind (f.items ++ [w] ++ vs) below mid := Iff.rfl

lemma closeFrame_keeps {f : Frame} {below : List Frame} {offset : Nat} (hs : Stacked f below)
    (hn : f.need = 0) :
    (closeFrame f below offset).Keeps buf v stop (Resumes buf v stop f below offset) := by
  have hpending : Resumes buf v stop f below offset ↔ Closes buf v stop f.kind f.items below offset := by
    unfold Resumes
    rw [hn]
    simp only [descendsMany_zero]
    constructor
    · rintro ⟨vs, mid, ⟨rfl, rfl⟩, h⟩
      simpa using h
    · intro h
      exact ⟨[], offset, ⟨rfl, rfl⟩, by simpa using h⟩
  rw [hpending]
  unfold closeFrame
  cases below with
  | nil =>
    have hk : f.kind = none := hs
    simp only [hk, Closes]
    cases f.items.head? with
    | none => simp [Turn.Keeps]
    | some w =>
      simp only [Turn.Keeps, Option.some.injEq]
      tauto
  | cons parent below =>
    obtain ⟨hk, hpos, hbelow⟩ := hs
    obtain ⟨kind, hkind⟩ := Option.ne_none_iff_exists'.mp hk
    simp only [hkind, Closes, Option.mem_def, Option.some.injEq, exists_eq_left']
    cases hf : finishFrame kind f.items with
    | none => simp [Turn.Keeps]
    | some w =>
      simp only [Turn.Keeps, Option.some.injEq, exists_eq_left', resumes_push, and_true]
      exact hbelow.replace rfl

lemma openTag_keeps {f : Frame} {below : List Frame} {offset : Nat} (hs : Stacked f below)
    (hn : 0 < f.need) :
    (openTag buf f below offset).Keeps buf v stop (Resumes buf v stop f below offset) := by
  have hpending : Resumes buf v stop f below offset ↔
      ∃ w mid, Descends buf offset w mid ∧ Resumes buf v stop (f.push w) below mid := by
    obtain ⟨n, hn⟩ : ∃ n, f.need = n + 1 := ⟨f.need - 1, by omega⟩
    simp only [Resumes, hn, descendsMany_succ, Frame.push, Nat.add_sub_cancel]
    constructor
    · rintro ⟨vs, stop', ⟨w, mid, vs', hw, hvs, rfl⟩, hc⟩
      exact ⟨w, mid, hw, vs', stop', hvs, by simpa using hc⟩
    · rintro ⟨w, mid, hw, vs', stop', hvs, hc⟩
      exact ⟨w :: vs', stop', ⟨w, mid, vs', hw, hvs, rfl⟩, by simpa using hc⟩
  rw [hpending]
  unfold openTag
  cases hread : Mv.unpackFrom buf offset with
  | none => simp [Turn.Keeps, descends_none hread]
  | some r =>
    obtain ⟨mv, start⟩ := r
    simp only
    cases hc : classify mv with
    | none => simp [Turn.Keeps, descends_reject hread hc]
    | some head =>
      cases head with
      | leaf w =>
        simp only [Turn.Keeps, descends_leaf hread hc]
        refine ⟨hs.replace rfl, ?_⟩
        constructor
        · rintro ⟨_, _, ⟨rfl, rfl⟩, h⟩
          exact h
        · intro h
          exact ⟨w, start, ⟨rfl, rfl⟩, h⟩
      | container kind count =>
        simp only [Turn.Keeps, descends_container hread hc]
        refine ⟨⟨by simp, hn, hs⟩, ?_⟩
        simp only [Resumes, Closes, List.nil_append, Option.mem_def, Option.some.injEq,
          exists_eq_left', Frame.push]
        constructor
        · rintro ⟨w, mid, ⟨items, hitems, hw⟩, h⟩
          exact ⟨items, mid, hitems, w, hw, h⟩
        · rintro ⟨items, mid, hitems, w, hw, h⟩
          exact ⟨w, mid, ⟨items, hitems, hw⟩, h⟩

variable (buf v stop) in
/-- One iteration keeps what is pending. -/
lemma turn_keeps {f : Frame} {below : List Frame} (offset : Nat) (hs : Stacked f below) :
    (turn buf (f :: below) offset).Keeps buf v stop (Resumes buf v stop f below offset) := by
  simp only [turn]
  split_ifs with hn
  · exact closeFrame_keeps hs hn
  · exact openTag_keeps hs (Nat.pos_of_ne_zero hn)

/-- The loop ends with what is pending, or raises if there is no such value. -/
lemma turns_keeps {n : Nat} {f : Frame} {below : List Frame} {offset : Nat} {r : Option (Obj × Nat)}
    (hs : Stacked f below) (h : turns buf n (f :: below) offset = some r) :
    Resumes buf v stop f below offset ↔ r = some (v, stop) := by
  induction n generalizing f below offset with
  | zero => cases h
  | succ n ih =>
    have hkeep := turn_keeps buf v stop offset hs
    rw [turns] at h
    cases ht : turn buf (f :: below) offset with
    | again stack offset' =>
      rw [ht] at h hkeep
      match stack, hkeep with
      | g :: below', ⟨hs', hiff⟩ => exact hiff.trans (ih hs' h)
    | done w offset' =>
      rw [ht] at h hkeep
      cases h
      simpa [Turn.Keeps] using hkeep
    | raised =>
      rw [ht] at h hkeep
      cases h
      simpa [Turn.Keeps] using hkeep

end Turns

section Termination

variable {buf : Bytes}

lemma takeAt_le {pos n : Nat} {b : Bytes} (h : takeAt buf pos n = some b) : pos + n ≤ buf.length := by
  unfold takeAt at h
  split_ifs at h with hle
  exact hle

lemma readShape_pos {pos : Nat} {shape : Shape} {p : Payload} {stop : Nat} (hpos : pos ≤ buf.length)
    (h : readShape buf pos shape = some (p, stop)) : pos ≤ stop ∧ stop ≤ buf.length := by
  cases shape with
  | empty =>
    cases h
    exact ⟨Nat.le_refl _, hpos⟩
  | slice n =>
    obtain ⟨b, hb, h⟩ := Option.bind_eq_some_iff.mp h
    have := takeAt_le hb
    cases h
    omega
  | lenPrefixed prim =>
    obtain ⟨b, hb, h⟩ := Option.bind_eq_some_iff.mp h
    simp only at h
    split_ifs at h
    obtain ⟨data, hd, h⟩ := Option.bind_eq_some_iff.mp h
    have := takeAt_le hd
    cases h
    omega
  | int prim =>
    obtain ⟨b, hb, h⟩ := Option.bind_eq_some_iff.mp h
    have := takeAt_le hb
    cases h
    omega
  | f64 =>
    obtain ⟨b, hb, h⟩ := Option.bind_eq_some_iff.mp h
    have := takeAt_le hb
    cases h
    omega

/-- A tag is read from a byte of the buffer. -/
lemma unpackFrom_pos {offset stop : Nat} {mv : Mv} (h : Mv.unpackFrom buf offset = some (mv, stop)) :
    offset < stop ∧ stop ≤ buf.length := by
  simp only [Mv.unpackFrom, Option.bind_eq_bind, Option.bind_eq_some_iff, Prod.exists] at h
  obtain ⟨tag, htag, shape, -, p, pos, hread, h⟩ := h
  have hlt := (List.getElem?_eq_some_iff.mp htag).1
  have hpos := readShape_pos (by omega) hread
  cases h
  omega

/-- Two for each byte that is left, one for each frame. -/
def budget (buf : Bytes) (stack : List Frame) (offset : Nat) : Nat :=
  2 * (buf.length - offset) + stack.length

lemma turn_budget {stack stack' : List Frame} {offset offset' : Nat}
    (h : turn buf stack offset = .again stack' offset') :
    budget buf stack' offset' < budget buf stack offset := by
  cases stack with
  | nil => cases h
  | cons f below =>
    simp only [turn] at h
    split_ifs at h
    · unfold closeFrame at h
      split at h
      · split at h <;> cases h
      · split at h <;> cases h
        simp [budget]
      · cases h
    · unfold openTag at h
      split at h
      · cases h
      · rename_i mv start hread
        have hpos := unpackFrom_pos hread
        split at h
        · cases h
        · cases h
          simp only [budget, List.length_cons]
          omega
        · cases h
          simp only [budget, List.length_cons]
          omega

lemma turns_end {n : Nat} {stack : List Frame} {offset : Nat} (h : budget buf stack offset < n) :
    ∃ r, turns buf n stack offset = some r := by
  induction n generalizing stack offset with
  | zero => omega
  | succ n ih =>
    rw [turns]
    cases ht : turn buf stack offset with
    | again stack' offset' =>
      have := turn_budget ht
      exact ih (by omega)
    | done v offset' => exact ⟨_, rfl⟩
    | raised => exact ⟨_, rfl⟩

lemma turns_start (buf : Bytes) (offset : Nat) : ∃ r, turns buf (turnBound buf offset) [.root] offset = some r := by
  apply turns_end
  unfold budget turnBound
  simp

end Termination

lemma resumes_root {buf : Bytes} {offset stop : Nat} {v : Obj} :
    Resumes buf v stop .root [] offset ↔ Descends buf offset v stop := by
  simp only [Resumes, Frame.root, List.nil_append, descendsMany_succ, descendsMany_zero, Closes]
  constructor
  · rintro ⟨vs, mid, ⟨w, mid', vs', hw, ⟨rfl, rfl⟩, rfl⟩, hhead, rfl⟩
    obtain rfl : w = v := by simpa using hhead
    exact hw
  · intro h
    exact ⟨[v], stop, ⟨v, stop, [], h, ⟨rfl, rfl⟩, rfl⟩, rfl, rfl⟩

lemma decodeFrom_eq {buf : Bytes} {offset : Nat} {v : Obj} {stop : Nat} :
    decodeFrom buf offset = some (v, stop) ↔ Descends buf offset v stop := by
  obtain ⟨r, hr⟩ := turns_start buf offset
  have hroot : Stacked .root [] := rfl
  rw [decodeFrom, hr, Option.join_some, ← resumes_root]
  exact (turns_keeps hroot hr).symm

/-- The loop of `decode_from` ends within its bound, and returns what the recursive decoder
returns. -/
theorem decodeFrom_descends (buf : Bytes) (offset : Nat) :
    (∃ r, turns buf (2 * (buf.length - offset) + 2) [.root] offset = some r ∧
      decodeFrom buf offset = r) ∧
    ∀ v stop, decodeFrom buf offset = some (v, stop) ↔ Descends buf offset v stop := by
  obtain ⟨r, hr⟩ := turns_start buf offset
  refine ⟨⟨r, hr, ?_⟩, fun v stop => decodeFrom_eq⟩
  rw [decodeFrom, hr, Option.join_some]

end Rustruct.MsgPack

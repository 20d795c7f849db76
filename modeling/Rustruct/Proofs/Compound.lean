import Rustruct.Proofs.Returns

/-!
# Compound values that come back

Regions, elements and branches: what they are made of comes back, and so do they.
-/

namespace Rustruct

variable {H : Hashes} {Γ : Env} {sem : PSem} {can : Nat → Bool → Prop} {suits : Value → Prop}

section Regions

variable {body : Bytes → Seen → Nat → Nat → Option Part}

lemma regionOf_of_read {e : ExprIn} {seen : Seen} {n limit pos : Nat} (h : e.read seen = some (n : Int))
    (hfit : pos + n ≤ limit) :
    regionOf seen (some e) limit pos = some (pos + n) := by
  have hno : ¬((n : Int) < 0 ∨ pos + (n : Int).toNat > limit) := by
    rw [Int.toNat_natCast]
    omega
  rw [regionOf, h, Option.bind_eq_bind, Option.bind_some, if_neg hno, Int.toNat_natCast]

lemma returns_nest {size : Option ExprIn} {size' : Option LenSrc} (hsize : LowersSize Γ size size')
    (h : Returns H Γ sem body can suits) :
    Returns H Γ (packNest sem size')
      (fun buf seen limit bit => (byteOf bit).bind fun pos => (regionOf seen size limit pos).bind fun region =>
        (body buf seen region bit).bind fun part => if size.isSome ∧ part.bit ≠ 8 * region then none else some part)
      (fun n last => (∀ e ∈ size, e.Exact n) ∧ can n (last || size.isSome)) suits := by
  intro ctx v next hs hpack
  have hpack' := hpack
  obtain ⟨mid, hmid, hpack⟩ := Exec.bind_eq_ok.mp hpack
  obtain ⟨hwrites, hback⟩ := h ctx v mid hs hmid
  cases size with
  | none =>
    obtain rfl : size' = none := hsize
    cases hpack
    refine ⟨hwrites, fun buf last seen limit hf hcan hsuits => ?_⟩
    obtain ⟨w, facts, hread, hok, hagain⟩ := hback buf last seen limit hf (by simpa using hcan.2) hsuits
    refine ⟨w, facts, ?_, hok, ?_⟩
    · dsimp only
      rw [byteOf_mul, Option.bind_some, regionOf, Option.bind_some, hread, Option.bind_some]
      exact if_neg fun hno => by cases hno.1
    · exact Exec.bind_eq_ok.mpr ⟨_, hagain, rfl⟩
  | some e =>
    obtain ⟨len, hlow, hne, rfl⟩ := hsize
    obtain ⟨sz, hsz, hfin⟩ := Exec.bind_eq_ok.mp hpack
    obtain ⟨hle, rfl⟩ := checkedSub_eq_ok.mp hsz
    obtain ⟨hall, hlast, hlen, hread⟩ := finishLen_spec hlow hwrites hfin
    refine ⟨hall, fun buf last seen limit hf hcan hsuits => ?_⟩
    have hgreedy : e ≠ .greedy := by
      rintro rfl
      exact hne hlow
    have hfits := hf.fits
    have hwithin := hf.within
    have hsz := hread buf last seen limit hf _ (by omega) (hcan.1 e rfl) hgreedy
    have hend : ctx.out.length + (mid.out.length - ctx.out.length) = mid.out.length := by omega
    have hregion : regionOf seen (some e) limit ctx.out.length =
        some (ctx.out.length + (mid.out.length - ctx.out.length)) :=
      regionOf_of_read hsz (by omega)
    rw [hend] at hregion
    have hmidf : Finally buf (last || true) Γ seen mid.out.length ctx (8 * mid.out.length) mid :=
      ⟨hf.env, hf.carries, hlast.completed hf.completes, Nat.le_refl _, by have := hf.within; omega, fun _ => rfl⟩
    obtain ⟨w, facts, hbody, hok, hagain⟩ := hback buf _ seen _ hmidf hcan.2 hsuits
    refine ⟨w, facts, ?_, hok, ?_⟩
    · dsimp only
      rw [byteOf_mul, Option.bind_some, hregion, Option.bind_some, hbody, Option.bind_some, hlen]
      exact if_neg fun hno => hno.2 rfl
    · exact Exec.bind_eq_ok.mpr ⟨mid, hagain, Exec.bind_eq_ok.mpr ⟨_, checkedSub_eq_ok.mpr ⟨hle, rfl⟩, hfin⟩⟩

end Regions

section Elements

variable {elem : Bytes → Seen → Nat → Nat → Option Part}

lemma readMany_cons {elem : Nat → Option Part} {part : Part} {v : Value} {n bit stop : Nat} {vs : List Value}
    {facts : Facts} (hpart : elem bit = some part) (hv : part.value = some v)
    (hmore : readMany elem n part.bit = some (vs, stop, facts)) :
    readMany elem (n + 1) bit = some (v :: vs, stop, part.facts.append facts) := by
  rw [readMany, hpart, Option.bind_eq_bind, Option.bind_some, hv, Option.bind_eq_bind, Option.bind_some, hmore]
  rfl

lemma readUntil_cons {elem : Nat → Option Part} {part : Part} {v : Value} {limit left bit stop : Nat} {vs : List Value}
    {facts : Facts} (hlt : bit < 8 * limit) (hpart : elem bit = some part) (hv : part.value = some v)
    (hmore : readUntil elem limit left part.bit = some (vs, stop, facts)) :
    readUntil elem limit (left + 1) bit = some (v :: vs, stop, part.facts.append facts) := by
  rw [readUntil, if_pos hlt, hpart, Option.bind_eq_bind, Option.bind_some, hv, Option.bind_eq_bind,
    Option.bind_some, hmore]
  rfl

lemma readUntil_end {elem : Nat → Option Part} (limit left : Nat) :
    readUntil elem limit left (8 * limit) = some ([], 8 * limit, .none) := by
  cases left with
  | zero => exact if_neg (Nat.lt_irrefl _)
  | succ left => exact if_neg (Nat.lt_irrefl _)

/-- Every element takes some bytes. -/
def Solid (sem : PSem) : Prop :=
  ∀ ctx v next, ctx.out.length ≤ isizeMax → sem v ctx = .ok next → ctx.out.length < next.out.length

/-- The elements come back one after another, in whichever way they are counted. -/
lemma returns_elems (h : Returns H Γ sem elem can suits) {list : List Value} {i : Nat} {ctx next : PCtx}
    (hs : ctx.Sound (8 * ctx.out.length)) (hpack : packElems sem list i ctx = .ok next) : Writes ctx next ∧
      ∀ buf last seen limit, Finally buf last Γ seen limit ctx (8 * next.out.length) next → can buf.length false →
        (∀ v ∈ list, suits v) →
        ∃ vs facts, vs.length = list.length ∧ facts.Ok H ∧ (∀ j, packElems sem vs j ctx = .ok next) ∧
          readMany (elem buf seen limit) list.length (8 * ctx.out.length) = some (vs, 8 * next.out.length, facts) ∧
          (Solid sem → limit = next.out.length → ∀ left, list.length ≤ left →
            readUntil (elem buf seen limit) limit left (8 * ctx.out.length) =
              some (vs, 8 * next.out.length, facts)) := by
  induction list generalizing i ctx with
  | nil =>
    cases hpack
    refine ⟨.refl hs, fun buf last seen limit hf _ _ => ⟨[], .none, rfl, facts_none_ok, fun _ => rfl, rfl, ?_⟩⟩
    rintro - rfl left -
    exact readUntil_end _ _
  | cons v list ih =>
    obtain ⟨mid, hmid, hpack⟩ := Exec.bind_eq_ok.mp hpack
    have hone := Exec.mapErr_eq_ok.mp hmid
    obtain ⟨hfirst, hback⟩ := h ctx v mid hs hone
    obtain ⟨hrest, hmore⟩ := ih hfirst.sound hpack
    refine ⟨hfirst.then hrest, fun buf last seen limit hf hcan hsuits => ?_⟩
    have hle := hrest.le
    have hfits := hf.fits
    have hmidf : Finally buf false Γ seen limit ctx (8 * mid.out.length) mid :=
      ⟨hf.env, hf.carries, hrest.completed hf.completes, by omega, hf.within, fun hno => by cases hno⟩
    have hrestf : Finally buf last Γ seen limit mid (8 * next.out.length) next :=
      ⟨hf.env, by rw [hfirst.readBack]; exact hf.carries, hf.completes, hf.fits, hf.within, hf.last⟩
    obtain ⟨w, facts, hread, hok, hagain⟩ := hback buf false seen limit hmidf hcan (hsuits v List.mem_cons_self)
    obtain ⟨ws, facts', hlen, hok', hagain', hmany, huntil⟩ := hmore buf last seen limit hrestf hcan fun x hx =>
      hsuits x (List.mem_cons_of_mem _ hx)
    refine ⟨w :: ws, facts.append facts', congrArg (· + 1) hlen, facts_append_ok.mpr ⟨hok, hok'⟩, fun j => ?_, ?_, ?_⟩
    · exact Exec.bind_eq_ok.mpr ⟨mid, Exec.mapErr_eq_ok.mpr hagain, hagain' (j + 1)⟩
    · exact readMany_cons hread rfl hmany
    · intro hsolid hlimit left hleft
      have hlt := hsolid ctx v mid hs.small hone
      obtain ⟨k, rfl⟩ : ∃ k, left = k + 1 := ⟨left - 1, by rw [List.length_cons] at hleft; omega⟩
      exact readUntil_cons (by omega) hread rfl (huntil hsolid hlimit k (by rw [List.length_cons] at hleft; omega))

lemma countOf_of_read {e : ExprIn} {seen : Seen} {n : Nat} (hne : e ≠ .greedy) (h : e.read seen = some (n : Int)) :
    countOf seen (some e) = some (some n) := by
  have hof : countOf seen (some e) = (e.read seen).bind fun n => if n < 0 then none else some (some n.toNat) := by
    cases e with
    | greedy => exact absurd rfl hne
    | imm | ref | bin => rfl
  have hnat : ¬(n : Int) < 0 := by omega
  rw [hof, h, Option.bind_some, if_neg hnat, Int.toNat_natCast]

lemma LowersCount.cases {count : Option ExprIn} {untilEof : Bool} {count' : CountSrc}
    (h : LowersCount Γ count untilEof count') :
    untilEnd count ∧ count' = .untilEof ∨
      ∃ e expr inv, count = some e ∧ e ≠ .greedy ∧ LowersLen Γ e (.expr expr inv) ∧ count' = .expr expr inv := by
  cases count with
  | none =>
    cases untilEof with
    | true => exact .inl ⟨.inl rfl, h⟩
    | false => exact h.elim
  | some e =>
    cases untilEof with
    | true => cases e <;> exact h.elim
    | false =>
      cases e with
      | greedy => exact .inl ⟨.inr rfl, h⟩
      | imm | ref | bin =>
        obtain ⟨expr, inv, hlen, heq⟩ := h
        exact .inr ⟨_, expr, inv, rfl, by simp, hlen, heq⟩

lemma returns_array {count : Option ExprIn} {untilEof : Bool} {count' : CountSrc}
    (hcount : LowersCount Γ count untilEof count') (h : Returns H Γ sem elem can suits)
    (hsolid : count' = .untilEof → Solid sem) (maxCount : Nat) :
    Returns H Γ (packArray count' sem)
      (fun buf seen limit bit => (byteOf bit).bind fun _ => (countOf seen count).bind fun n =>
        readList (elem buf seen limit) maxCount limit bit n)
      (fun n last => (∀ e ∈ count, e.Exact maxCount) ∧ (untilEnd count → last = true) ∧ can n false)
      (fun v => ∀ list ∈ v.asList, list.length ≤ maxCount ∧ ∀ x ∈ list, suits x) := by
  intro ctx v next hs hpack
  unfold packArray at hpack
  cases hv : v.asList with
  | none =>
    rw [hv] at hpack
    cases hpack
  | some list =>
    rw [hv] at hpack
    obtain ⟨mid, hmid, hpack⟩ := Exec.bind_eq_ok.mp hpack
    obtain ⟨hwrites, hback⟩ := returns_elems h hs hmid
    rcases hcount.cases with ⟨hend, rfl⟩ | ⟨e, expr, inv, rfl, hne, hlow, rfl⟩
    · cases hpack
      refine ⟨hwrites, fun buf last seen limit hf hcan hsuits => ?_⟩
      obtain ⟨hmax, hall⟩ := hsuits list hv
      have hlimit : limit = next.out.length := by
        have := hf.last (hcan.2.1 hend)
        omega
      obtain ⟨vs, facts, hlen, hok, hagain, -, huntil⟩ := hback buf last seen limit hf hcan.2.2 hall
      have hof : countOf seen count = some none := by
        rcases hend with rfl | rfl <;> rfl
      refine ⟨.list vs, facts, ?_, hok, Exec.bind_eq_ok.mpr ⟨_, hagain 0, rfl⟩⟩
      dsimp only
      rw [byteOf_mul, Option.bind_some, hof, Option.bind_some, readList, huntil (hsolid rfl) hlimit maxCount hmax]
      rfl
    · obtain ⟨hall, hlast, hlen, hread⟩ := finishLen_spec hlow hwrites hpack
      refine ⟨hall, fun buf last seen limit hf hcan hsuits => ?_⟩
      obtain ⟨hmax, hsuit⟩ := hsuits list hv
      have hfits := hf.fits
      have hmidf : Finally buf false Γ seen limit ctx (8 * mid.out.length) mid :=
        ⟨hf.env, hf.carries, hlast.completed hf.completes, by omega, hf.within, fun hno => by cases hno⟩
      obtain ⟨vs, facts, hvs, hok, hagain, hmany, -⟩ := hback buf false seen limit hmidf hcan.2.2 hsuit
      have hof := countOf_of_read hne (hread buf last seen limit hf _ hmax (hcan.1 e rfl) hne)
      refine ⟨.list vs, facts, ?_, hok, Exec.bind_eq_ok.mpr ⟨mid, hagain 0, ?_⟩⟩
      · dsimp only
        rw [byteOf_mul, Option.bind_some, hof, Option.bind_some, readList, if_neg (by omega), hmany, hlen]
        rfl
      · rw [hvs]
        exact hpack

end Elements

section Branches

lemma returns_switch {on : ExprIn} {on' : Expr} (hon : LowersExpr Γ .on on on') {branch : Int → Option PSem}
    {read : Bytes → Seen → Nat → Nat → Int → Option Part}
    (h : ∀ tag sem, branch tag = some sem → Returns H Γ sem (fun buf seen limit bit => read buf seen limit bit tag)
      can suits) :
    Returns H Γ (packSwitch on' branch)
      (fun buf seen limit bit => (byteOf bit).bind fun _ => (on.read seen).bind (read buf seen limit bit))
      can suits := by
  intro ctx v next hs hpack
  obtain ⟨tag, htag, hpack⟩ := Exec.bind_eq_ok.mp hpack
  cases hbranch : branch tag with
  | none =>
    rw [hbranch] at hpack
    cases hpack
  | some sem =>
    rw [hbranch] at hpack
    obtain ⟨hwrites, hback⟩ := h tag sem hbranch ctx v next hs hpack
    refine ⟨hwrites, fun buf last seen limit hf hcan hsuits => ?_⟩
    obtain ⟨w, facts, hread, hok, hagain⟩ := hback buf last seen limit hf hcan hsuits
    have hon' := (hwrites.completed hf.completes).read hs hf.env hf.carries hon htag
    refine ⟨w, facts, ?_, hok, ?_⟩
    · dsimp only
      rw [byteOf_mul, Option.bind_some, hon', Option.bind_some]
      exact hread
    · refine Exec.bind_eq_ok.mpr ⟨tag, htag, ?_⟩
      rw [hbranch]
      exact hagain

end Branches

end Rustruct

import Rustruct.Bindings

/-!
# The key cache covers every lookup

What an op sets and looks up itself is `Op.ownNames`. The cache has these names of every op of the program it
was built for, so no lookup fails and the bindings run as the core does.
-/

namespace Rustruct

/-- The names an op sets, or looks up, itself. -/
def Op.ownNames : Op → List String
  | .fixed _ items => items.flatMap fun item => item.key.name.toList
  | .bitRun _ items => items.flatMap fun item => item.key.name.toList
  | .flags _ _ items rest _ c =>
    c.key.name.toList ++ items.map FlagItem.key ++ if rest = .keep then ["_rest"] else []
  | .digest _ _ _ _ c | .bytes _ _ c | .str _ _ _ c | .cstr _ _ c | .nest _ _ c | .array _ _ _ _ c
  | .switch _ _ _ c | .cond _ _ c => c.key.name.toList

/-- The cache has the names of the op. -/
def Covered (cache : KeyCache) (op : Op) : Prop := op.ownNames ⊆ cache

/-! ### Building the cache -/

section Build

lemma mem_internKey {cache : KeyCache} {name n : String} : n ∈ internKey cache name ↔ n ∈ cache ∨ n = name := by
  rw [internKey]
  split_ifs with h
  · constructor
    · exact .inl
    · rintro (hn | rfl)
      · exact hn
      · exact h
  · rw [List.mem_append, List.mem_singleton]

lemma mem_internName {cache : KeyCache} {key : Key} {n : String} :
    n ∈ internName cache key ↔ n ∈ cache ∨ n ∈ key.name.toList := by
  rw [internName]
  cases key.name with
  | none => simp
  | some name => rw [mem_internKey, Option.toList_some, List.mem_singleton]

/-- A loop that interns the names of some items. -/
lemma mem_internItems {β : Type} {add : KeyCache → β → KeyCache} {names : β → List String}
    (hadd : ∀ cache item n, n ∈ add cache item ↔ n ∈ cache ∨ n ∈ names item) (items : List β) (cache : KeyCache)
    (n : String) : n ∈ items.foldl add cache ↔ n ∈ cache ∨ n ∈ items.flatMap names := by
  induction items generalizing cache with
  | nil => simp
  | cons item items ih => rw [List.foldl_cons, ih, hadd, List.flatMap_cons, List.mem_append, or_assoc]

lemma mem_internKeys {β : Type} (key : β → Key) (items : List β) (cache : KeyCache) (n : String) :
    n ∈ items.foldl (fun cache item => internName cache (key item)) cache ↔
      n ∈ cache ∨ n ∈ items.flatMap fun item => (key item).name.toList :=
  mem_internItems (fun cache item n => @mem_internName cache (key item) n) items cache n

/-- Interning keeps what was there and covers what it is for. -/
def Collects (collect : KeyCache → KeyCache) (covers : KeyCache → Prop) : Prop :=
  ∀ cache cache', collect cache ⊆ cache' → cache ⊆ cache' ∧ covers cache'

lemma collects_of_mem {collect : KeyCache → KeyCache} {names : List String}
    (h : ∀ cache n, n ∈ collect cache ↔ n ∈ cache ∨ n ∈ names) : Collects collect fun cache => names ⊆ cache := by
  intro cache cache' hsub
  exact ⟨fun n hn => hsub ((h cache n).mpr (.inl hn)), fun n hn => hsub ((h cache n).mpr (.inr hn))⟩

lemma Collects.comp {collect collect' : KeyCache → KeyCache} {covers covers' : KeyCache → Prop}
    (h : Collects collect covers) (h' : Collects collect' covers') :
    Collects (fun cache => collect' (collect cache)) fun cache => covers cache ∧ covers' cache := by
  intro cache cache' hsub
  obtain ⟨hmid, hcovers'⟩ := h' _ _ hsub
  obtain ⟨hold, hcovers⟩ := h _ _ hmid
  exact ⟨hold, hcovers, hcovers'⟩

lemma collects_key (key : Key) : Collects (internName · key) fun cache => key.name.toList ⊆ cache :=
  collects_of_mem fun _ _ => mem_internName

lemma collects_cases {cases : List (Int × Op)}
    (h : ∀ branch ∈ cases, Collects (collectOpKeys branch.2) fun cache => branch.2.Every (Covered cache)) :
    Collects (collectCaseKeys cases) fun cache => casesEvery (Covered cache) cases := by
  induction cases with
  | nil =>
    intro cache cache' hsub
    rw [collectCaseKeys] at hsub
    exact ⟨hsub, trivial⟩
  | cons branch cases ih =>
    obtain ⟨t, op⟩ := branch
    unfold collectCaseKeys casesEvery
    exact (h (t, op) List.mem_cons_self).comp (ih fun b hb => h b (List.mem_cons_of_mem _ hb))

lemma collects_default {default : Option Op}
    (h : ∀ op ∈ default, Collects (collectOpKeys op) fun cache => op.Every (Covered cache)) :
    Collects (collectDefaultKeys default) fun cache => defaultEvery (Covered cache) default := by
  cases default with
  | none =>
    intro cache cache' hsub
    rw [collectDefaultKeys] at hsub
    exact ⟨hsub, trivial⟩
  | some op =>
    unfold collectDefaultKeys defaultEvery
    exact h op rfl

lemma collects_ops {ops : List Op} (h : ∀ op ∈ ops, Collects (collectOpKeys op) fun cache => op.Every (Covered cache)) :
    Collects (collectOpsKeys ops) fun cache => opsEvery (Covered cache) ops := by
  induction ops with
  | nil =>
    intro cache cache' hsub
    rw [collectOpsKeys] at hsub
    exact ⟨hsub, trivial⟩
  | cons op ops ih =>
    unfold collectOpsKeys opsEvery
    exact (h op List.mem_cons_self).comp (ih fun o ho => h o (List.mem_cons_of_mem _ ho))

/-- The cache built from a program covers every op of it. -/
lemma collects_opCases : OpCases (fun op => Collects (collectOpKeys op) fun cache => op.Every (Covered cache))
    (fun prog => Collects (buildKeyCache prog) fun cache => prog.Every (Covered cache)) where
  fixed width items := by
    unfold collectOpKeys
    exact collects_of_mem (mem_internKeys FixedItem.key items)
  bytes len max c := by
    unfold collectOpKeys
    exact collects_key c.key
  str len max enc c := by
    unfold collectOpKeys
    exact collects_key c.key
  cstr max enc c := by
    unfold collectOpKeys
    exact collects_key c.key
  bitRun nbytes items := by
    unfold collectOpKeys
    exact collects_of_mem (mem_internKeys BitItem.key items)
  flags prim be items rest restMask c := by
    unfold collectOpKeys
    apply collects_of_mem
    intro cache n
    have hitems : n ∈ items.foldl (fun cache item => internKey cache item.key) (internName cache c.key) ↔
        (n ∈ cache ∨ n ∈ c.key.name.toList) ∨ n ∈ items.map FlagItem.key := by
      have hadd (cache : KeyCache) (item : FlagItem) (n : String) :
          n ∈ internKey cache item.key ↔ n ∈ cache ∨ n ∈ [item.key] := by
        rw [mem_internKey, List.mem_singleton]
      rw [mem_internItems hadd, mem_internName, List.map_eq_flatMap]
    rw [Op.ownNames, List.mem_append, List.mem_append]
    dsimp only
    split_ifs
    · rw [mem_internKey, hitems, List.mem_singleton]
      tauto
    · rw [hitems]
      simp only [List.not_mem_nil, or_false]
      tauto
  digest algo overs verify be c := by
    unfold collectOpKeys
    exact collects_key c.key
  nest prog size c hprog := by
    unfold collectOpKeys Op.Every
    exact (collects_key c.key).comp hprog
  array count maxCount elem elemMin c helem := by
    unfold collectOpKeys Op.Every
    exact (collects_key c.key).comp helem
  switch on cases default c hcases hdefault := by
    unfold collectOpKeys Op.Every
    exact (collects_key c.key).comp ((collects_cases hcases).comp (collects_default hdefault))
  cond pred thn c hthn := by
    unfold collectOpKeys Op.Every
    exact (collects_key c.key).comp hthn
  prog ops nregs nspans minSize staticSize hops := by
    unfold buildKeyCache Program.Every
    exact collects_ops hops

lemma buildKeyCache_covers (prog : Program) : prog.Every (Covered (buildKeyCache prog [])) :=
  (collects_opCases.program prog [] _ (List.Subset.refl _)).2

end Build

lemma KeyCache.expectKey_eq {ε : Type} {cache : KeyCache} {name : String} (h : name ∈ cache) (trap : Trap ε) :
    cache.expectKey trap name = .ok () := if_pos h

section Unpack

variable {B : Builder} {names : List String} {H : Hashes} {buf : Bytes}

/-- The builder sets these names as `ValueBuilder` does. -/
def Builder.Sets (B : Builder) (names : List String) : Prop :=
  ∀ name ∈ names, ∀ map v, B.mapSet map name v = .ok (map ++ [(name, v)])

lemma pyBuilder_sets (cache : KeyCache) (trap : Trap UFail) : (pyBuilder cache trap).Sets cache := by
  intro name hname map v
  rw [pyBuilder]
  dsimp only
  rw [KeyCache.expectKey_eq hname, Exec.bind_ok]

lemma insert_cached (hB : B.Sets names) {key : Key} (h : key.name.toList ⊆ names) (map : List (String × Value))
    (v : Value) : @Builder.insert B map key v = .ok (mapSet map key v) := by
  rw [Builder.insert, mapSet]
  cases hname : key.name with
  | none => rfl
  | some name =>
    rw [hname] at h
    exact hB name (h (by simp)) map v

lemma readFixedItems_cached (hB : B.Sets names) {items : List FixedItem}
    (h : (items.flatMap fun item => item.key.name.toList) ⊆ names) (base : Nat) (fs : Frames)
    (map : List (String × Value)) :
    @readFixedItems B buf base items fs map = @readFixedItems valueBuilder buf base items fs map := by
  induction items generalizing fs map with
  | nil => rfl
  | cons item items ih =>
    rw [List.flatMap_cons, List.append_subset] at h
    unfold readFixedItems
    congr 1
    funext r
    simp only [insert_cached hB h.1, insert_value, Exec.bind_ok, ih h.2]

lemma readBitItems_cached (hB : B.Sets names) {items : List BitItem}
    (h : (items.flatMap fun item => item.key.name.toList) ⊆ names) (pos bitpos : Nat) (fs : Frames)
    (map : List (String × Value)) :
    @readBitItems B buf pos items bitpos fs map = @readBitItems valueBuilder buf pos items bitpos fs map := by
  induction items generalizing bitpos fs map with
  | nil => rfl
  | cons item items ih =>
    rw [List.flatMap_cons, List.append_subset] at h
    unfold readBitItems
    simp only [insert_cached hB h.1, insert_value, Exec.bind_ok, ih h.2]

lemma runDigest_cached (hB : B.Sets names) {c : Common} (h : c.key.name.toList ⊆ names) (algo : Algo) (overs : Over)
    (verify be : Bool) :
    @runDigest B buf algo overs verify be c = @runDigest valueBuilder buf algo overs verify be c := by
  funext limit s
  unfold runDigest
  simp only [insert_cached hB h, insert_value]

lemma runField_cached (hB : B.Sets names) {c : Common} (h : c.key.name.toList ⊆ names) (sem : Sem) :
    @runField B c sem = @runField valueBuilder c sem := by
  funext limit s
  unfold runField
  simp only [insert_cached hB h, insert_value]

lemma runCond_cached (hB : B.Sets names) {c : Common} (h : c.key.name.toList ⊆ names) (pred : Expr) (sem : Sem) :
    @runCond B pred c sem = @runCond valueBuilder pred c sem := by
  funext limit s
  unfold runCond
  rw [runField_cached hB h]

lemma setFlags_cached (hB : B.Sets names) {items : List FlagItem} (h : items.map FlagItem.key ⊆ names) (raw : U64)
    (map : List (String × Value)) : @setFlags B raw items map = @setFlags valueBuilder raw items map := by
  induction items generalizing map with
  | nil => rfl
  | cons item items ih =>
    rw [List.map_cons, List.cons_subset] at h
    unfold setFlags
    rw [hB _ h.1, mapSet_value, Exec.bind_ok, Exec.bind_ok, ih h.2]

lemma doFlags_cached (hB : B.Sets names) {items : List FlagItem} {rest : RestPolicy}
    (h : items.map FlagItem.key ⊆ names) (hrest : rest = .keep → "_rest" ∈ names) (prim : IntPrim) (be : Bool)
    (restMask : U64) :
    @doFlags B buf prim be items rest restMask = @doFlags valueBuilder buf prim be items rest restMask := by
  funext limit cur
  unfold doFlags
  simp only [setFlags_cached hB h]
  cases rest with
  | strict => rfl
  | ignore => rfl
  | keep => simp only [hB _ (hrest rfl), mapSet_value]

lemma findCase_cached {cases : List (Int × Op)}
    (h : ∀ branch ∈ cases, @opValue B H buf branch.2 = @opValue valueBuilder H buf branch.2) :
    @findCase B H buf cases = @findCase valueBuilder H buf cases := by
  funext tag
  induction cases with
  | nil =>
    unfold findCase
    rfl
  | cons branch cases ih =>
    obtain ⟨t, op⟩ := branch
    unfold findCase
    rw [h (t, op) List.mem_cons_self, ih fun b hb => h b (List.mem_cons_of_mem _ hb)]

lemma defaultCase_cached {default : Option Op}
    (h : ∀ op ∈ default, @opValue B H buf op = @opValue valueBuilder H buf op) :
    @defaultCase B H buf default = @defaultCase valueBuilder H buf default := by
  cases default with
  | none =>
    unfold defaultCase
    rfl
  | some op =>
    unfold defaultCase
    rw [h op rfl]

/-- The op is run as in the core, as a field and in a value position. -/
lemma unpack_cached (hB : B.Sets names) (H : Hashes) (buf : Bytes) : OpCases
    (fun op => op.Every (Covered names) →
      @opValue B H buf op = @opValue valueBuilder H buf op ∧ @runOp B H buf op = @runOp valueBuilder H buf op)
    (fun prog => prog.Every (Covered names) → @runStruct B H buf prog = @runStruct valueBuilder H buf prog) where
  fixed width items h := by
    constructor
    · unfold opValue
      rfl
    · unfold runOp
      funext limit s
      unfold runFixed
      simp only [readFixedItems_cached hB h.here]
  bytes len max c h := by
    constructor
    · unfold opValue
      rfl
    · unfold runOp
      rw [runField_cached hB h.here]
  str len max enc c h := by
    constructor
    · unfold opValue
      rfl
    · unfold runOp
      rw [runField_cached hB h.here]
  cstr max enc c h := by
    constructor
    · unfold opValue
      rfl
    · unfold runOp
      rw [runField_cached hB h.here]
  bitRun nbytes items h := by
    constructor
    · unfold opValue
      rfl
    · unfold runOp
      funext limit s
      unfold runBitRun
      simp only [readBitItems_cached hB h.here]
  flags prim be items rest restMask c h := by
    have hnames := h.here
    rw [Covered, Op.ownNames, List.append_subset, List.append_subset] at hnames
    have hrest (hkeep : rest = .keep) : "_rest" ∈ names := hnames.2 (by simp [hkeep])
    constructor
    · unfold opValue
      rw [doFlags_cached hB hnames.1.2 hrest]
    · unfold runOp
      rw [runField_cached hB hnames.1.1, doFlags_cached hB hnames.1.2 hrest]
  digest algo overs verify be c h := by
    constructor
    · unfold opValue
      rfl
    · unfold runOp
      rw [runDigest_cached hB h.here]
  nest prog size c hprog h := by
    have hsame := hprog h.2
    constructor
    · unfold opValue
      rw [hsame]
    · unfold runOp
      rw [runField_cached hB h.1, hsame]
  array count maxCount elem elemMin c helem h := by
    have hsame := (helem h.2).1
    constructor
    · unfold opValue
      rw [hsame]
    · unfold runOp
      rw [runField_cached hB h.1, hsame]
  switch on cases default c hcases hdefault h := by
    have hfind := findCase_cached fun branch hb => (hcases branch hb (casesEvery_iff.mp h.2.1 branch hb)).1
    have hsame := defaultCase_cached fun op hop => (hdefault op hop (defaultEvery_iff.mp h.2.2 op hop)).1
    constructor
    · unfold opValue
      rw [hfind, hsame]
    · unfold runOp
      rw [runField_cached hB h.1, hfind, hsame]
  cond pred thn c hthn h := by
    constructor
    · unfold opValue
      rfl
    · unfold runOp
      rw [runCond_cached hB h.1, (hthn h.2).1]
  prog ops nregs nspans minSize staticSize hops h := by
    have hsame : @runOps B H buf ops = @runOps valueBuilder H buf ops := by
      have hevery := opsEvery_iff.mp h
      clear h
      induction ops with
      | nil =>
    unfold runOps
    rfl
      | cons op ops ih =>
        unfold runOps
        rw [(hops op List.mem_cons_self (hevery op List.mem_cons_self)).2,
          ih (fun o ho => hops o (List.mem_cons_of_mem _ ho)) fun o ho => hevery o (List.mem_cons_of_mem _ ho)]
    unfold runStruct
    rw [hsame]

end Unpack

section Pack

variable {S : Source} {names : List String} {H : Hashes}

/-- The source looks these names up as `ValueSource` does. -/
def Source.Gets (S : Source) (names : List String) : Prop :=
  ∀ name ∈ names, ∀ view, S.viewGet view name = .ok (view.get name)

lemma pySource_gets (cache : KeyCache) (trap : Trap PackFail) (isDict : FieldIndex → Bool) :
    (pySource cache trap isDict).Gets cache := by
  intro name hname view
  rw [pySource]
  dsimp only
  rw [KeyCache.expectKey_eq hname, Exec.bind_ok, ite_self]

lemma lookup_cached (hS : S.Gets names) {key : Key} (h : key.name.toList ⊆ names) (view : FieldIndex) :
    @Source.lookup S view key = .ok (lookup view key) := by
  rw [Source.lookup, lookup]
  cases hname : key.name with
  | none => rfl
  | some name =>
    rw [hname] at h
    exact hS name (h (by simp)) view

lemma packFixedItems_cached (hS : S.Gets names) {items : List FixedItem}
    (h : (items.flatMap fun item => item.key.name.toList) ⊆ names) (base : Nat) (view : FieldIndex) (ctx : PCtx) :
    @packFixedItems S base view items ctx = @packFixedItems valueSource base view items ctx := by
  induction items generalizing ctx with
  | nil => rfl
  | cons item items ih =>
    rw [List.flatMap_cons, List.append_subset] at h
    unfold packFixedItems
    rw [lookup_cached hS h.1, lookup_value, Exec.bind_ok, Exec.bind_ok]
    congr 1
    funext ctx
    exact ih h.2 ctx

lemma packBitItems_cached (hS : S.Gets names) {items : List BitItem}
    (h : (items.flatMap fun item => item.key.name.toList) ⊆ names) (base : Nat) (view : FieldIndex) (bitOff : Nat)
    (ctx : PCtx) :
    @packBitItems S base view items bitOff ctx = @packBitItems valueSource base view items bitOff ctx := by
  induction items generalizing bitOff ctx with
  | nil => rfl
  | cons item items ih =>
    rw [List.flatMap_cons, List.append_subset] at h
    unfold packBitItems
    rw [lookup_cached hS h.1, lookup_value, Exec.bind_ok, Exec.bind_ok]
    congr 1
    funext ctx
    exact ih h.2 _ ctx

lemma packField_cached (hS : S.Gets names) {c : Common} (h : c.key.name.toList ⊆ names) (sem : PSem) :
    @packField S c sem = @packField valueSource c sem := by
  funext view ctx
  unfold packField
  cases hname : c.key.name with
  | none => rfl
  | some name =>
    rw [hname] at h
    rw [Exec.expect_some, Exec.bind_ok, Exec.bind_ok, hS name (h (by simp)), viewGet_value]

lemma packCond_cached (hS : S.Gets names) {c : Common} (h : c.key.name.toList ⊆ names) (pred : Expr) (sem : PSem) :
    @packCond S pred c sem = @packCond valueSource pred c sem := by
  funext view ctx
  unfold packCond
  rw [packField_cached hS h]

lemma packFlagItems_cached (hS : S.Gets names) {items : List FlagItem} (h : items.map FlagItem.key ⊆ names)
    (view : FieldIndex) (raw : U64) : @packFlagItems S view items raw = @packFlagItems valueSource view items raw := by
  induction items generalizing raw with
  | nil => rfl
  | cons item items ih =>
    rw [List.map_cons, List.cons_subset] at h
    unfold packFlagItems
    rw [hS _ h.1, viewGet_value, Exec.bind_ok, Exec.bind_ok]
    congr 1
    funext bits
    exact ih h.2 _

lemma packRest_cached (hS : S.Gets names) {rest : RestPolicy} (hrest : rest = .keep → "_rest" ∈ names)
    (view : FieldIndex) (restMask : U64) : @packRest S view rest restMask = @packRest valueSource view rest restMask := by
  cases rest with
  | strict => rfl
  | ignore => rfl
  | keep => unfold packRest
            rw [hS _ (hrest rfl), viewGet_value]

lemma packFlags_cached (hS : S.Gets names) {items : List FlagItem} {rest : RestPolicy}
    (h : items.map FlagItem.key ⊆ names) (hrest : rest = .keep → "_rest" ∈ names) (prim : IntPrim) (be : Bool)
    (restMask : U64) : @packFlags S prim be items rest restMask = @packFlags valueSource prim be items rest restMask := by
  funext v ctx
  unfold packFlags
  simp only [packFlagItems_cached hS h, packRest_cached hS hrest]

lemma packCase_cached {cases : List (Int × Op)}
    (h : ∀ branch ∈ cases, @packValue S H branch.2 = @packValue valueSource H branch.2) :
    @packCase S H cases = @packCase valueSource H cases := by
  funext tag
  induction cases with
  | nil =>
    unfold packCase
    rfl
  | cons branch cases ih =>
    obtain ⟨t, op⟩ := branch
    unfold packCase
    rw [h (t, op) List.mem_cons_self, ih fun b hb => h b (List.mem_cons_of_mem _ hb)]

lemma packDefault_cached {default : Option Op}
    (h : ∀ op ∈ default, @packValue S H op = @packValue valueSource H op) :
    @packDefault S H default = @packDefault valueSource H default := by
  cases default with
  | none =>
    unfold packDefault
    rfl
  | some op =>
    unfold packDefault
    rw [h op rfl]

/-- The op is packed as in the core, as a field and in a value position. -/
lemma pack_cached (hS : S.Gets names) (H : Hashes) : OpCases
    (fun op => op.Every (Covered names) →
      @packValue S H op = @packValue valueSource H op ∧ @packOp S H op = @packOp valueSource H op)
    (fun prog => prog.Every (Covered names) → @packStruct S H prog = @packStruct valueSource H prog) where
  fixed width items h := by
    constructor
    · unfold packValue
      rfl
    · unfold packOp
      funext view ctx
      unfold packFixedRun
      simp only [packFixedItems_cached hS h.here]
  bytes len max c h := by
    constructor
    · unfold packValue
      rfl
    · unfold packOp
      rw [packField_cached hS h.here]
  str len max enc c h := by
    constructor
    · unfold packValue
      rfl
    · unfold packOp
      rw [packField_cached hS h.here]
  cstr max enc c h := by
    constructor
    · unfold packValue
      rfl
    · unfold packOp
      rw [packField_cached hS h.here]
  bitRun nbytes items h := by
    constructor
    · unfold packValue
      rfl
    · unfold packOp
      funext view ctx
      unfold packBitRun
      simp only [packBitItems_cached hS h.here]
  flags prim be items rest restMask c h := by
    have hnames := h.here
    rw [Covered, Op.ownNames, List.append_subset, List.append_subset] at hnames
    have hrest (hkeep : rest = .keep) : "_rest" ∈ names := hnames.2 (by simp [hkeep])
    constructor
    · unfold packValue
      rw [packFlags_cached hS hnames.1.2 hrest]
    · unfold packOp
      rw [packField_cached hS hnames.1.1, packFlags_cached hS hnames.1.2 hrest]
  digest algo overs verify be c h := by
    constructor
    · unfold packValue
      rfl
    · unfold packOp
      rfl
  nest prog size c hprog h := by
    have hsame := hprog h.2
    constructor
    · unfold packValue
      rw [hsame]
    · unfold packOp
      rw [packField_cached hS h.1, hsame]
  array count maxCount elem elemMin c helem h := by
    have hsame := (helem h.2).1
    constructor
    · unfold packValue
      rw [hsame]
    · unfold packOp
      rw [packField_cached hS h.1, hsame]
  switch on cases default c hcases hdefault h := by
    have hfind := packCase_cached fun branch hb => (hcases branch hb (casesEvery_iff.mp h.2.1 branch hb)).1
    have hsame := packDefault_cached fun op hop => (hdefault op hop (defaultEvery_iff.mp h.2.2 op hop)).1
    constructor
    · unfold packValue
      rw [hfind, hsame]
    · unfold packOp
      rw [packField_cached hS h.1, hfind, hsame]
  cond pred thn c hthn h := by
    constructor
    · unfold packValue
      rfl
    · unfold packOp
      rw [packCond_cached hS h.1, (hthn h.2).1]
  prog ops nregs nspans minSize staticSize hops h := by
    have hsame : @packOps S H ops = @packOps valueSource H ops := by
      have hevery := opsEvery_iff.mp h
      clear h
      induction ops with
      | nil =>
    unfold packOps
    rfl
      | cons op ops ih =>
        unfold packOps
        rw [(hops op List.mem_cons_self (hevery op List.mem_cons_self)).2,
          ih (fun o ho => hops o (List.mem_cons_of_mem _ ho)) fun o ho => hevery o (List.mem_cons_of_mem _ ho)]
    unfold packStruct
    rw [hsame]

end Pack

/-- With the cache built from its program every run of the bindings is that of the core, on any buffer and
on any input. However a lookup of a name that is not in the cache would end the run, no run ends so. -/
theorem runs_cached (H : Hashes) (prog : Program) :
    (∀ (trap : Trap UFail) (buf : Buffer) (offset : Nat) (exact stream : Bool),
      PyBuilder.unpackRun H (buildKeyCache prog []) trap prog buf offset exact stream =
        unpackRun H prog buf offset exact stream) ∧
    ∀ (trap : Trap PackFail) (isDict : FieldIndex → Bool) (values : Value),
      PySource.packRun H (buildKeyCache prog []) trap isDict prog values = packRun H prog values := by
  have hcovers := buildKeyCache_covers prog
  constructor
  · intro trap buf offset exact stream
    have hsame := (unpack_cached (pyBuilder_sets _ trap) H buf.bytes).program prog hcovers
    unfold PyBuilder.unpackRun unpackRun
    dsimp only
    rw [hsame]
  · intro trap isDict values
    have hsame := (pack_cached (pySource_gets _ trap isDict) H).program prog hcovers
    unfold PySource.packRun packRun
    rw [hsame]

end Rustruct

import Rustruct.Proofs.ScopeWrites
import Rustruct.Proofs.CRC

/-!
# Digests that verify

The digest that pack fills in is the one that is read and checked later: nothing that it is over changes
after it has been filled.
-/

namespace Rustruct

open BitStream

section Values

variable (H : Hashes)

lemma foldl_update_hash (pieces : List Bytes) (seen : Bytes) :
    pieces.foldl Hasher.update (.md5 seen) = .md5 (seen ++ pieces.flatten) ∧
      pieces.foldl Hasher.update (.sha1 seen) = .sha1 (seen ++ pieces.flatten) ∧
        pieces.foldl Hasher.update (.sha256 seen) = .sha256 (seen ++ pieces.flatten) := by
  induction pieces generalizing seen with
  | nil => simp
  | cons data pieces ih =>
    obtain ⟨h₁, h₂, h₃⟩ := ih (seen ++ data)
    simp only [List.foldl_cons, Hasher.update, List.flatten_cons, h₁, h₂, h₃, List.append_assoc, and_self]

/-- Up to 128 KiB the Internet checksum takes in all that it is fed. -/
lemma foldl_update_ip {pieces : List Bytes} (h : ∀ data ∈ pieces, data.length ≤ 131072) :
    pieces.foldl Hasher.update (Hasher.new .ipChecksum) = ipState pieces.flatten := by
  have hfeeds : (ipState []).feeds (pieces.map .bytes) = pieces.foldl Hasher.update (ipState []) := by
    rw [Hasher.feeds, List.foldl_map]
    rfl
  have hdata : dataOf (pieces.map .bytes) = pieces.flatten := by
    rw [dataOf, List.flatMap_map, List.flatMap]
    exact congrArg List.flatten (List.map_id pieces)
  have hfit : feedsFit [] (pieces.map .bytes) := by
    apply feedsFit_of_short
    intro data hd
    obtain ⟨piece, hp, he⟩ := List.mem_map.mp hd
    obtain rfl := Feed.bytes.inj he
    exact h piece hp
  have hnew : Hasher.new .ipChecksum = ipState [] := rfl
  rw [hnew, ← hfeeds, feeds_ipState hfit, List.nil_append, hdata]

/-- Data that is hashed in pieces is hashed as one. -/
lemma digestOf_flatten {algo : Algo} {pieces : List Bytes}
    (hshort : algo = .ipChecksum → pieces.flatten.length ≤ 131072) :
    digestOf H algo [pieces.flatten] = digestOf H algo pieces := by
  cases algo with
  | crc spec =>
    unfold digestOf Hasher.new
    rw [foldl_update_crc, foldl_update_crc, List.flatten_singleton]
  | ipChecksum =>
    have hlen := hshort rfl
    have hpiece : ∀ data ∈ pieces, data.length ≤ 131072 := by
      intro data hd
      have hle : data.length ≤ pieces.flatten.length := by
        rw [List.length_flatten]
        exact List.single_le_sum (fun _ _ => Nat.zero_le _) _ (List.mem_map_of_mem hd)
      omega
    have hone : ∀ data ∈ [pieces.flatten], data.length ≤ 131072 := by
      intro data hd
      obtain rfl := List.mem_singleton.mp hd
      exact hlen
    rw [digestOf, digestOf, foldl_update_ip hone, foldl_update_ip hpiece, List.flatten_singleton]
  | md5 =>
    unfold digestOf Hasher.new
    rw [(foldl_update_hash _ _).1, (foldl_update_hash _ _).1, List.flatten_singleton]
  | sha1 =>
    unfold digestOf Hasher.new
    rw [(foldl_update_hash _ _).2.1, (foldl_update_hash _ _).2.1, List.flatten_singleton]
  | sha256 =>
    unfold digestOf Hasher.new
    rw [(foldl_update_hash _ _).2.2, (foldl_update_hash _ _).2.2, List.flatten_singleton]

lemma toNat_and_mask (v : U64) {w : Nat} (h : w ≤ 64) : (v &&& mask w).toNat < 2 ^ w := by
  have hand : (v &&& mask w).toNat ≤ (mask w).toNat := by
    rw [BitVec.toNat_and]
    exact Nat.and_le_right
  have hpos : 0 < 2 ^ w := Nat.two_pow_pos w
  by_cases hw : w < 64
  · have hmask : (mask w).toNat = 2 ^ w - 1 := by
      rw [mask, if_neg (by omega), toNat_lowOnes hw]
    omega
  · obtain rfl : w = 64 := by omega
    exact (v &&& mask 64).isLt

lemma foldl_update_words (pieces : List Bytes) (sum : Nat) (odd : Option Byte) :
    ∃ sum' odd', pieces.foldl Hasher.update (.ip sum odd) = .ip sum' odd' := by
  induction pieces generalizing sum odd with
  | nil => exact ⟨sum, odd, rfl⟩
  | cons data pieces ih => exact ih _ _

/-- A digest is as wide as its field. -/
lemma digestOf_fits {algo : Algo} (hwhole : algo.Whole) (pieces : List Bytes) :
    (algo.isInt = true ∧ ∃ x, digestOf H algo pieces = .int x ∧ x.toNat < 256 ^ algo.widthBytes) ∨
      (algo.isInt = false ∧ ∃ b, digestOf H algo pieces = .bytes b ∧ b.length = algo.widthBytes) := by
  unfold digestOf
  cases algo with
  | crc spec =>
    obtain ⟨hbytes, hle⟩ := hwhole
    have hpow : 256 ^ (spec.width / 8) = 2 ^ spec.width := by
      have hbase : (256 : Nat) = 2 ^ 8 := rfl
      rw [hbase, ← pow_mul, ← hbytes]
    rw [Hasher.new, foldl_update_crc]
    refine .inl ⟨rfl, _, rfl, ?_⟩
    rw [Algo.widthBytes, hpow]
    exact toNat_and_mask _ hle
  | ipChecksum =>
    obtain ⟨sum, odd, hfold⟩ := foldl_update_words pieces 0 none
    rw [Hasher.new, hfold]
    refine .inl ⟨rfl, _, rfl, ?_⟩
    rw [BitVec.toNat_ofNat]
    exact Nat.lt_of_le_of_lt (Nat.mod_le _ _) (Nat.lt_of_le_of_lt (Nat.sub_le _ _) (by decide))
  | md5 =>
    rw [Hasher.new, (foldl_update_hash _ _).1]
    exact .inr ⟨rfl, _, rfl, H.md5_length _⟩
  | sha1 =>
    rw [Hasher.new, (foldl_update_hash _ _).2.1]
    exact .inr ⟨rfl, _, rfl, H.sha1_length _⟩
  | sha256 =>
    rw [Hasher.new, (foldl_update_hash _ _).2.2]
    exact .inr ⟨rfl, _, rfl, H.sha256_length _⟩

/-- The bytes of a digest are read as the digest. -/
lemma digest_read {algo : Algo} (hwhole : algo.Whole) (pieces : List Bytes) {raw : Bytes} {be : Bool}
    (hraw : raw = (digestOf H algo pieces).bytesOf algo.widthBytes be) :
    (if algo.isInt then DigestVal.int (BitVec.ofNat 64 (readUint raw be)) else .bytes raw) =
      digestOf H algo pieces := by
  rcases digestOf_fits H hwhole pieces with ⟨hint, x, hx, hlt⟩ | ⟨hint, b, hb, -⟩
  · rw [hx] at hraw ⊢
    rw [if_pos hint, hraw, DigestVal.bytesOf, readUint_uintBytes be hlt, BitVec.ofNat_toNat, BitVec.setWidth_eq]
  · rw [hb] at hraw ⊢
    rw [hint, if_neg (by decide), hraw]
    rfl

end Values

section Checks

variable {H : Hashes} {full : List Sym} {buf out before : Bytes} {scope : List Got} {f : PFrame} {start stop : Nat}

/-- The spans that a digest is over are those of the fields that have been read. -/
lemma spans_packed (hc : Carries buf.length full scope (f.readBack buf)) {names : List String} {idxs : List Nat}
    (hover : List.Forall₂ (fun n idx => ∃ s, findSym full n = some s ∧ s.spannable ∧ s.span = some idx) names idxs)
    {h h' : Hasher}
    (hfold : idxs.foldlM (fun h i =>
      if hi : i < maxSpans then do
        let piece ← slice before (f.spans ⟨i, hi⟩).1 (f.spans ⟨i, hi⟩).2
        .ok (h.update piece)
      else Exec.panic) h = (.ok h' : PRes Hasher)) :
    ∃ pieces, names.mapM (fun n => (findGot scope n).map fun g => (buf.drop g.start).take (g.stop - g.start)) =
      some pieces ∧
      ((∀ n ∈ names, ∀ got ∈ findGot scope n, got.start ≤ got.stop →
        (before.drop got.start).take (got.stop - got.start) = (buf.drop got.start).take (got.stop - got.start)) →
          h' = pieces.foldl Hasher.update h) := by
  induction hover generalizing h with
  | nil =>
    cases hfold
    exact ⟨[], rfl, fun _ => rfl⟩
  | @cons n i names idxs hn _ ih =>
    obtain ⟨s, hs, hspan, hi⟩ := hn
    obtain ⟨g, hg, hle, -, hval⟩ := hc.span n s hs hspan
    rw [List.foldlM_cons] at hfold
    obtain ⟨mid, hmid, hfold⟩ := Exec.bind_eq_ok.mp hfold
    split_ifs at hmid with hlt
    · obtain ⟨piece, hpiece, hmid⟩ := Exec.bind_eq_ok.mp hmid
      cases hmid
      have hspans : f.spans ⟨i, hlt⟩ = (g.start, g.stop) := hval i hlt hi
      obtain ⟨-, -, hraw⟩ := slice_eq_ok.mp hpiece
      rw [hspans] at hraw
      dsimp only at hraw
      obtain ⟨pieces, hpieces, hrest⟩ := ih hfold
      refine ⟨(buf.drop g.start).take (g.stop - g.start) :: pieces, ?_, fun hsame => ?_⟩
      · rw [List.mapM_cons, hg, hpieces]
        rfl
      · rw [hrest fun m hm => hsame m (List.mem_cons_of_mem _ hm), ← hraw, hsame n List.mem_cons_self g hg hle]
        rfl
    · cases hmid

/-- Nothing but the digest and those after it differs between the bytes that it was computed over and those
that are read. -/
lemma Fills.holds {key : Key} {asked : Option (OverIn × Bool)} {d : PDigest} {g : GotDigest} {later : List PDigest}
    (h : Fills buf full key asked d g) (hd : Digested H start stop f out d later)
    (hc : Carries buf.length full scope (f.readBack buf)) (hclears : g.verify = true → g.overs.Clears scope later d)
    (hin : ∀ got ∈ scope, start ≤ got.start ∧ got.stop ≤ stop) (hstart : start ≤ d.pos)
    (hstop : d.pos + d.width ≤ stop) (hout : stop ≤ out.length) (hbuf : stop ≤ buf.length)
    (hbits : ∀ b, 8 * start ≤ b → b < 8 * stop → bitAt buf b = bitAt out b) :
    ∃ c, g.check buf scope start stop = some c ∧ (c.verify → c.Holds H) := by
  obtain ⟨v, before, hcompute, hlen, hclear, hwritten, hsame⟩ := hd
  -- What is left alone is the same before the digest was filled.
  have hslice : ∀ i n, start ≤ i → i + n ≤ stop → (∀ e ∈ d :: later, i + n ≤ e.pos ∨ e.pos + e.width ≤ i) →
      (before.drop i).take n = (buf.drop i).take n := by
    intro i n hlo hhi hbeside
    apply slice_congr (by omega) (by omega)
    intro b hb hb'
    rw [hsame b fun e he => ?_, hbits b (by omega) (by omega)]
    have := hbeside e he
    dsimp only [PDigest.range]
    omega
  have hraw : (buf.drop d.pos).take d.width = v.bytesOf d.width d.be := by
    rw [← hwritten]
    exact slice_congr (by omega) (by omega) fun b hlo hhi => hbits b (by omega) (by omega)
  have hread : ∀ pieces, v = digestOf H g.algo pieces → g.read = digestOf H g.algo pieces := by
    rintro pieces rfl
    rw [h.read, h.algo]
    rw [h.width, h.algo] at hraw
    rw [h.width, h.algo]
    exact digest_read H (h.algo ▸ h.whole) pieces hraw
  have hovers := h.overs
  unfold PDigest.compute at hcompute
  cases hg : g.overs with
  | star =>
    rw [hg] at hovers
    have hover : d.overs = .star := hovers
    rw [hover] at hcompute
    obtain ⟨whole, hwhole, hcompute⟩ := Exec.bind_eq_ok.mp hcompute
    obtain ⟨-, -, hwhole⟩ := slice_eq_ok.mp hwhole
    cases hcompute
    refine ⟨_, by rw [GotDigest.check, GotDigest.pieces, hg]; rfl, fun hverify => ?_⟩
    have hlater : later = [] := by
      have := hclears hverify
      rwa [hg] at this
    subst hlater
    refine hread _ ?_
    have hlen' : g.stop - g.start = d.width := by
      rw [← h.stop, ← h.start]
      omega
    have hsplit : stop - start = (d.pos - start) + (d.width + (stop - (d.pos + d.width))) := by omega
    have hat : start + (d.pos - start) = d.pos := by omega
    have hone : ∀ e ∈ [d], e = d := fun e he => List.mem_singleton.mp he
    have hwhole' : whole = [(buf.drop start).take (g.start - start), List.replicate (g.stop - g.start) 0,
        (buf.drop g.stop).take (stop - g.stop)].flatten := by
      rw [← hwhole, hlen', ← h.stop, ← h.start, hsplit, List.take_add, List.take_add, List.drop_drop,
        List.drop_drop, hat,
        hslice start _ (by omega) (by omega) (fun e he => .inl (by rw [hone e he, hat])),
        bitAt_zeros hclear (by omega), hslice (d.pos + d.width) _ (by omega) (by omega) fun e he =>
          .inr (by rw [hone e he])]
      simp only [List.flatten_cons, List.flatten_nil, List.append_nil]
    rw [hwhole', h.algo]
    refine digestOf_flatten H fun hip => ?_
    rw [← hwhole', ← hwhole, List.length_take]
    have := h.short hg hverify (h.algo.trans hip)
    omega
  | names names =>
    rw [hg] at hovers
    obtain ⟨idxs, hover, hnames⟩ := hovers
    rw [hover] at hcompute
    obtain ⟨h', hfold, hcompute⟩ := Exec.bind_eq_ok.mp hcompute
    cases hcompute
    obtain ⟨pieces, hpieces, hfolded⟩ := spans_packed hc hnames hfold
    have hcheck : g.check buf scope start stop = some ⟨g.algo, g.verify, g.read, pieces⟩ := by
      rw [GotDigest.check, GotDigest.pieces, hg]
      dsimp only
      rw [hpieces]
      rfl
    refine ⟨⟨g.algo, g.verify, g.read, pieces⟩, hcheck, fun hverify => ?_⟩
    have hbeside := hclears hverify
    rw [hg, OverIn.Clears] at hbeside
    refine hread _ ?_
    rw [hfolded fun n hn got hgot hle => ?_, ← h.algo]
    · rfl
    · have hwithin := hin got (List.mem_of_find?_eq_some hgot)
      refine hslice _ _ hwithin.1 (by omega) fun e he => ?_
      have := hbeside n hn got hgot e he
      omega

end Checks

end Rustruct

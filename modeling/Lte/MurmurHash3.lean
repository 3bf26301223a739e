import Lte.Mixing
import Lte.Registry
/-!
# MurmurHash3 — `MurmurHash3_x64_128`

The hash of the map's keys, on a machine that stores integers little-endian.  Every part of it can be undone, so keys of
one length that differ within one block of 16 bytes never have the same hash (`murmurHash3_eq_iff`).  The keys of the
registry are shorter than one block: sockets of as many digits never have the same hash (`keyHash_inj`).
-/
namespace Lte

namespace MurmurHash3

open Function Mixing

def rotl64 (x r : UInt64) : UInt64 := (x <<< r) ||| (x >>> (64 - r))

def fmix (k : UInt64) : UInt64 :=
  let k := k ^^^ (k >>> 33)
  let k := k * 0xff51afd7ed558ccd
  let k := k ^^^ (k >>> 33)
  let k := k * 0xc4ceb9fe1a85ec53
  k ^^^ (k >>> 33)

def c1 : UInt64 := 0x87c37b91114253d5
def c2 : UInt64 := 0x4cf5ad432745937f

/-- What is done to the two words of a block before they are added to the state. -/
def mixK1 (k1 : UInt64) : UInt64 := rotl64 (k1 * c1) 31 * c2
def mixK2 (k2 : UInt64) : UInt64 := rotl64 (k2 * c2) 33 * c1

def getblock (data : List UInt8) (i : Nat) : UInt64 := leBytes 0 ((data.drop (8 * i)).take 8)

/-- The body of the loop over the blocks. -/
def addBlock (h k : UInt64 × UInt64) : UInt64 × UInt64 :=
  let h1 := h.1 ^^^ mixK1 k.1
  let h1 := (rotl64 h1 27 + h.2) * 5 + 0x52dce729
  let h2 := h.2 ^^^ mixK2 k.2
  let h2 := (rotl64 h2 31 + h1) * 5 + 0x38495ab5
  (h1, h2)

/-- `switch(len & 15)`: each case falls through to the ones of the bytes before its own. -/
def addTail (h : UInt64 × UInt64) (tail : List UInt8) : UInt64 × UInt64 :=
  let h2 := if 8 < tail.length then h.2 ^^^ mixK2 (leBytes 0 (tail.drop 8)) else h.2
  let h1 := if 0 < tail.length then h.1 ^^^ mixK1 (leBytes 0 (tail.take 8)) else h.1
  (h1, h2)

/-- `h1 += h2; h2 += h1;` -/
def addHalves (h : UInt64 × UInt64) : UInt64 × UInt64 :=
  let h1 := h.1 + h.2
  (h1, h.2 + h1)

def finalize (len : UInt64) (h : UInt64 × UInt64) : UInt64 × UInt64 :=
  let h := addHalves (h.1 ^^^ len, h.2 ^^^ len)
  addHalves (fmix h.1, fmix h.2)

/-- The two words of the blocks. -/
def blockAt (data : List UInt8) (i : Nat) : UInt64 × UInt64 := (getblock data (i * 2 + 0), getblock data (i * 2 + 1))

def body (data : List UInt8) (seed : UInt32) : UInt64 × UInt64 :=
  (List.range (data.length / 16)).foldl (fun h i => addBlock h (blockAt data i)) (seed.toUInt64, seed.toUInt64)

def tail (data : List UInt8) : List UInt8 := data.drop (data.length / 16 * 16)

/-- `MurmurHash3_x64_128` -/
def murmurHash3 (key : List UInt8) (seed : UInt32) : UInt64 × UInt64 :=
  finalize (UInt64.ofNat key.length) (addTail (body key seed) (tail key))

/-! ## Each part can be undone -/

theorem toBitVec_rotl64 (x : UInt64) {r : UInt64} (hpos : 0 < r.toNat) (hr : r.toNat < 64) :
    (rotl64 x r).toBitVec = x.toBitVec.rotateLeft r.toNat := by
  have hsub : (64 - r).toNat = 64 - r.toNat := by
    apply UInt64.toNat_sub_of_le
    rw [UInt64.le_iff_toNat_le]
    exact Nat.le_of_lt hr
  have hleft : (r.toBitVec % 64).toNat = r.toNat := Nat.mod_eq_of_lt hr
  have hright : ((64 - r).toBitVec % 64).toNat = 64 - r.toNat := by
    show (64 - r).toNat % 64 = 64 - r.toNat
    rw [hsub, Nat.mod_eq_of_lt (by omega)]
  rw [rotl64, UInt64.toBitVec_or, UInt64.toBitVec_shiftLeft, UInt64.toBitVec_shiftRight, BitVec.rotateLeft_def,
    Nat.mod_eq_of_lt hr, BitVec.shiftLeft_eq', BitVec.ushiftRight_eq', hleft, hright]

theorem rotl64_injective {r : UInt64} (hpos : 0 < r.toNat) (hr : r.toNat < 64) : Injective fun x => rotl64 x r := by
  intro x y he
  have he' : rotl64 x r = rotl64 y r := he
  apply UInt64.toBitVec_inj.1
  apply rotateLeft_injective hr
  show x.toBitVec.rotateLeft r.toNat = y.toBitVec.rotateLeft r.toNat
  rw [← toBitVec_rotl64 x hpos hr, ← toBitVec_rotl64 y hpos hr, he']

theorem xor_shiftRight_injective : Injective fun k : UInt64 => k ^^^ (k >>> 33) := by
  intro x y he
  have hinv : Involutive fun x : BitVec 64 => x ^^^ x >>> 33 := xor_ushiftRight_involutive (by decide)
  apply UInt64.toBitVec_inj.1
  apply hinv.injective
  exact congrArg UInt64.toBitVec he

theorem fmix_injective : Injective fmix := by
  have hfirst : Injective fun k : UInt64 => k * 0xff51afd7ed558ccd := mul_injective (d := 0x4f74430c22a54005) (by decide)
  have hsecond : Injective fun k : UInt64 => k * 0xc4ceb9fe1a85ec53 := mul_injective (d := 0x9cb4b2f8129337db) (by decide)
  intro x y he
  exact xor_shiftRight_injective (hfirst (xor_shiftRight_injective (hsecond (xor_shiftRight_injective he))))

theorem mixK1_injective : Injective mixK1 := by
  have hc1 : Injective fun k : UInt64 => k * c1 := mul_injective (d := 0xa98409e882ce4d7d) (by decide)
  have hc2 : Injective fun k : UInt64 => k * c2 := mul_injective (d := 0xa81e14edd9de2c7f) (by decide)
  intro x y he
  exact hc1 (rotl64_injective (by decide) (by decide) (hc2 he))

theorem mixK2_injective : Injective mixK2 := by
  have hc1 : Injective fun k : UInt64 => k * c1 := mul_injective (d := 0xa98409e882ce4d7d) (by decide)
  have hc2 : Injective fun k : UInt64 => k * c2 := mul_injective (d := 0xa81e14edd9de2c7f) (by decide)
  intro x y he
  exact hc2 (rotl64_injective (by decide) (by decide) (hc1 he))

/-- The last steps of one half of the state. -/
theorem rotl64_add_injective {r : UInt64} (hpos : 0 < r.toNat) (hr : r.toNat < 64) (a c : UInt64) :
    Injective fun x => (rotl64 x r + a) * 5 + c := by
  have hfive : Injective fun x : UInt64 => x * 5 := mul_injective (d := 0xcccccccccccccccd) (by decide)
  intro x y he
  exact rotl64_injective hpos hr (add_injective a (hfive (add_injective c he)))

/-- **A block added to the state** can be taken out of it again, and the state out of the block. -/
theorem absorbs_addBlock : Absorbs addBlock where
  state k := by
    rintro ⟨h1, h2⟩ ⟨g1, g2⟩ he
    obtain ⟨he1, he2⟩ := Prod.mk.inj he
    rw [he1] at he2
    have hh2 : h2 = g2 := xor_injective _ (rotl64_add_injective (by decide) (by decide) _ _ he2)
    rw [hh2] at he1 ⊢
    have hh1 : h1 = g1 := xor_injective _ (rotl64_add_injective (by decide) (by decide) _ _ he1)
    rw [hh1]
  block h := by
    rintro ⟨k1, k2⟩ ⟨l1, l2⟩ he
    obtain ⟨he1, he2⟩ := Prod.mk.inj he
    rw [he1] at he2
    have hm2 : mixK2 k2 = mixK2 l2 := (UInt64.xor_right_inj _).1 (rotl64_add_injective (by decide) (by decide) _ _ he2)
    have hm1 : mixK1 k1 = mixK1 l1 := (UInt64.xor_right_inj _).1 (rotl64_add_injective (by decide) (by decide) _ _ he1)
    rw [mixK1_injective hm1, mixK2_injective hm2]

theorem addTail_injective (tail : List UInt8) : Injective fun h => addTail h tail := by
  rintro ⟨h1, h2⟩ ⟨g1, g2⟩ he
  obtain ⟨he1, he2⟩ := Prod.mk.inj he
  have hh1 : h1 = g1 := by
    by_cases hpos : 0 < tail.length
    · rw [if_pos hpos, if_pos hpos] at he1
      exact xor_injective _ he1
    · rwa [if_neg hpos, if_neg hpos] at he1
  have hh2 : h2 = g2 := by
    by_cases hpos : 8 < tail.length
    · rw [if_pos hpos, if_pos hpos] at he2
      exact xor_injective _ he2
    · rwa [if_neg hpos, if_neg hpos] at he2
  rw [hh1, hh2]

/-- Two tails of one length that leave the same state are the same. -/
theorem addTail_inj (h : UInt64 × UInt64) {tail tail' : List UInt8} (hlen : tail.length = tail'.length)
    (hlt : tail.length < 16) (he : addTail h tail = addTail h tail') : tail = tail' := by
  obtain ⟨he1, he2⟩ := Prod.mk.inj he
  have hfront : tail.take 8 = tail'.take 8 := by
    by_cases hpos : 0 < tail.length
    · rw [if_pos hpos, if_pos (hlen ▸ hpos)] at he1
      have hmix : mixK1 (leBytes 0 (tail.take 8)) = mixK1 (leBytes 0 (tail'.take 8)) := (UInt64.xor_right_inj _).1 he1
      refine leBytes_inj ?_ ?_ (mixK1_injective hmix)
      · rw [List.length_take, List.length_take, hlen]
      · rw [List.length_take]
        omega
    · have hnil : tail = [] := List.eq_nil_of_length_eq_zero (by omega)
      have hnil' : tail' = [] := List.eq_nil_of_length_eq_zero (by omega)
      rw [hnil, hnil']
  have hback : tail.drop 8 = tail'.drop 8 := by
    by_cases hpos : 8 < tail.length
    · rw [if_pos hpos, if_pos (hlen ▸ hpos)] at he2
      have hmix : mixK2 (leBytes 0 (tail.drop 8)) = mixK2 (leBytes 0 (tail'.drop 8)) := (UInt64.xor_right_inj _).1 he2
      refine leBytes_inj ?_ ?_ (mixK2_injective hmix)
      · rw [List.length_drop, List.length_drop, hlen]
      · rw [List.length_drop]
        omega
    · rw [List.drop_of_length_le (by omega), List.drop_of_length_le (by omega)]
  rw [← List.take_append_drop 8 tail, hfront, hback, List.take_append_drop]

theorem addHalves_injective : Injective addHalves := by
  rintro ⟨h1, h2⟩ ⟨g1, g2⟩ he
  obtain ⟨he1, he2⟩ := Prod.mk.inj he
  rw [he1] at he2
  have hh2 : h2 = g2 := add_injective _ he2
  rw [hh2] at he1 ⊢
  have hh1 : h1 = g1 := add_injective _ he1
  rw [hh1]

theorem finalize_injective (len : UInt64) : Injective (finalize len) := by
  rintro ⟨h1, h2⟩ ⟨g1, g2⟩ he
  obtain ⟨he1, he2⟩ := Prod.mk.inj (addHalves_injective he)
  have hhalves := addHalves_injective (Prod.ext (fmix_injective he1) (fmix_injective he2))
  obtain ⟨hx1, hx2⟩ := Prod.mk.inj hhalves
  exact Prod.ext (xor_injective _ hx1) (xor_injective _ hx2)

/-! ## Keys that differ in one block -/

section
variable {xs ys : List UInt8}

/-- The keys agree in every block but the one numbered `i`. -/
def SameOutside (i : Nat) (xs ys : List UInt8) : Prop := ∀ j, j / 16 ≠ i → xs[j]? = ys[j]?

theorem getblock_eq_iff (hlen : xs.length = ys.length) (i : Nat) :
    getblock xs i = getblock ys i ↔ ∀ j, j / 8 = i → xs[j]? = ys[j]? := by
  constructor
  · intro he j hj
    have hbytes : (xs.drop (8 * i)).take 8 = (ys.drop (8 * i)).take 8 := by
      refine leBytes_inj ?_ ?_ he
      · rw [List.length_take, List.length_take, List.length_drop, List.length_drop, hlen]
      · rw [List.length_take]
        omega
    have hat := congrArg (fun zs => zs[j - 8 * i]?) hbytes
    have hlt : j - 8 * i < 8 := by omega
    have hplace : 8 * i + (j - 8 * i) = j := by omega
    simpa only [List.getElem?_take, if_pos hlt, List.getElem?_drop, hplace] using hat
  · intro hsame
    have hbytes : (xs.drop (8 * i)).take 8 = (ys.drop (8 * i)).take 8 := by
      apply List.ext_getElem?
      intro j
      rw [List.getElem?_take, List.getElem?_take]
      by_cases hj : j < 8
      · rw [if_pos hj, if_pos hj, List.getElem?_drop, List.getElem?_drop]
        apply hsame
        omega
      · rw [if_neg hj, if_neg hj]
    rw [getblock, getblock, hbytes]

theorem blockAt_eq_iff (hlen : xs.length = ys.length) (i : Nat) :
    blockAt xs i = blockAt ys i ↔ ∀ j, j / 16 = i → xs[j]? = ys[j]? := by
  rw [blockAt, blockAt, Prod.mk.injEq, getblock_eq_iff hlen, getblock_eq_iff hlen]
  constructor
  · rintro ⟨hfirst, hsecond⟩ j hj
    by_cases hhalf : j / 8 = i * 2
    · exact hfirst j hhalf
    · apply hsecond
      omega
  · intro hsame
    refine ⟨fun j hj => ?_, fun j hj => ?_⟩
    · apply hsame
      omega
    · apply hsame
      omega

theorem tail_eq_iff (hlen : xs.length = ys.length) :
    tail xs = tail ys ↔ ∀ j, xs.length / 16 ≤ j / 16 → xs[j]? = ys[j]? := by
  rw [tail, tail, ← hlen]
  constructor
  · intro he j hj
    have hat := congrArg (fun zs => zs[j - xs.length / 16 * 16]?) he
    have hplace : xs.length / 16 * 16 + (j - xs.length / 16 * 16) = j := by omega
    simpa only [List.getElem?_drop, hplace] using hat
  · intro hsame
    apply List.ext_getElem?
    intro j
    rw [List.getElem?_drop, List.getElem?_drop]
    apply hsame
    omega

theorem body_eq (data : List UInt8) (seed : UInt32) :
    body data seed = ((List.range (data.length / 16)).map (blockAt data)).foldl addBlock
      (seed.toUInt64, seed.toUInt64) := by
  rw [body, List.foldl_map]

/-- Keys of one length that differ within one block leave the same state only if all their blocks and tails agree. -/
theorem blocks_of_eq (hlen : xs.length = ys.length) {i : Nat} (hsame : SameOutside i xs ys) {seed : UInt32}
    (he : addTail (body xs seed) (tail xs) = addTail (body ys seed) (tail ys)) :
    (∀ k < xs.length / 16, blockAt xs k = blockAt ys k) ∧ tail xs = tail ys := by
  have hblock : ∀ k < xs.length / 16, k ≠ i → blockAt xs k = blockAt ys k := by
    intro k hk hne
    rw [blockAt_eq_iff hlen k]
    intro j hj
    exact hsame j (hj ▸ hne)
  by_cases hi : i < xs.length / 16
  · have htail : tail xs = tail ys := by
      rw [tail_eq_iff hlen]
      intro j hj
      apply hsame
      omega
    rw [htail] at he
    have hbody := addTail_injective (tail ys) he
    rw [body_eq, body_eq, ← hlen] at hbody
    have hblocks := absorbs_addBlock.foldl_eq i _ (by rw [List.length_map, List.length_map]) (fun k hne => ?_) hbody
    · refine ⟨fun k hk => ?_, htail⟩
      exact List.map_inj_left.1 hblocks k (List.mem_range.2 hk)
    · rw [List.getElem?_map, List.getElem?_map]
      by_cases hk : k < xs.length / 16
      · rw [List.getElem?_range hk, Option.map_some, Option.map_some, hblock k hk hne]
      · rw [List.getElem?_eq_none (by rw [List.length_range]; omega)]
        rfl
  · have hblocks : ∀ k < xs.length / 16, blockAt xs k = blockAt ys k := by
      intro k hk
      apply hblock k hk
      omega
    have hmap : (List.range (xs.length / 16)).map (blockAt xs) = (List.range (ys.length / 16)).map (blockAt ys) := by
      rw [← hlen]
      apply List.map_congr_left
      intro k hk
      exact hblocks k (List.mem_range.1 hk)
    rw [body_eq, body_eq, hmap] at he
    refine ⟨hblocks, addTail_inj _ ?_ ?_ he⟩
    · rw [tail, tail, List.length_drop, List.length_drop, hlen]
    · rw [tail, List.length_drop]
      omega

theorem eq_of_murmurHash3_eq (hlen : xs.length = ys.length) {i : Nat} (hsame : SameOutside i xs ys) {seed : UInt32}
    (he : murmurHash3 xs seed = murmurHash3 ys seed) : xs = ys := by
  rw [murmurHash3, murmurHash3, ← hlen] at he
  obtain ⟨hblocks, htail⟩ := blocks_of_eq hlen hsame (finalize_injective _ he)
  apply List.ext_getElem?
  intro j
  by_cases hj : j / 16 < xs.length / 16
  · exact (blockAt_eq_iff hlen _).1 (hblocks _ hj) j rfl
  · exact (tail_eq_iff hlen).1 htail j (Nat.le_of_not_lt hj)

/-- **Keys of one length that differ within one block of 16 bytes never have the same hash**, whatever the seed. -/
theorem murmurHash3_eq_iff (hlen : xs.length = ys.length) {i : Nat} (hsame : SameOutside i xs ys) (seed : UInt32) :
    murmurHash3 xs seed = murmurHash3 ys seed ↔ xs = ys := by
  constructor
  · exact eq_of_murmurHash3_eq hlen hsame
  · intro he
    rw [he]

/-- Two words of five letters. -/
theorem murmurHash3_eq_iff_hello :
    murmurHash3 [104, 101, 108, 108, 111] 0 ≠ murmurHash3 [104, 97, 108, 108, 111] 0 := by
  have hsame : SameOutside 0 [104, 101, 108, 108, 111] [104, 97, 108, 108, 111] := by
    intro j hj
    rw [List.getElem?_eq_none, List.getElem?_eq_none]
    · simp only [List.length_cons, List.length_nil]
      omega
    · simp only [List.length_cons, List.length_nil]
      omega
  have hlen : ([104, 101, 108, 108, 111] : List UInt8).length = [104, 97, 108, 108, 111].length := rfl
  rw [ne_eq, murmurHash3_eq_iff hlen hsame 0]
  decide

example : murmurHash3 [104, 101, 108, 108, 111] 0 = (0xcbd8a7b341bd9b02, 0x5b1e906a48ae1d19) := by decide

end

/-! ## The keys of the registry -/

/-- The bytes of the key of a socket. -/
def keyBytes (socket : Nat) : List UInt8 := (key socket).map fun c => UInt8.ofNat c.toNat

/-- `MurmurHash3_x64_128(key, strlen(key), 0, &out)` -/
def keyHash (socket : Nat) : UInt64 × UInt64 := murmurHash3 (keyBytes socket) 0

theorem toNat_lt_of_mem_key {socket : Nat} {c : Char} (hc : c ∈ key socket) : c.toNat < 256 := by
  have hdigit : c.isDigit = true := Nat.isDigit_of_mem_toDigits (by decide) (by decide) hc
  rw [Char.isDigit, Bool.and_eq_true, decide_eq_true_eq, decide_eq_true_eq] at hdigit
  have hle : c.toNat ≤ 57 := hdigit.2
  omega

theorem keyBytes_inj {s t : Nat} (he : keyBytes s = keyBytes t) : s = t := by
  have hback (u : Nat) : (keyBytes u).map (fun b => Char.ofNat b.toNat) = key u := by
    rw [keyBytes, List.map_map]
    refine (List.map_congr_left fun c hc => ?_).trans (List.map_id _)
    rw [Function.comp_apply, UInt8.toNat_ofNat_of_lt' (toNat_lt_of_mem_key hc), Char.ofNat_toNat]
    rfl
  rw [← key_inj, ← hback s, ← hback t, he]

/-- **Sockets of as many digits never have the same hash.** -/
theorem keyHash_inj {s t : Nat} (hs : s < socketLimit) (hlen : (key s).length = (key t).length) :
    keyHash s = keyHash t ↔ s = t := by
  have hshort : (key s).length < 8 := ClientMap.length_key_lt.2 hs
  have hlen' : (keyBytes s).length = (keyBytes t).length := by rw [keyBytes, keyBytes, List.length_map, List.length_map, hlen]
  have hle : (keyBytes s).length < 8 := by rwa [keyBytes, List.length_map]
  have hsame : SameOutside 0 (keyBytes s) (keyBytes t) := by
    intro j hj
    rw [List.getElem?_eq_none (by omega), List.getElem?_eq_none (by omega)]
  constructor
  · intro he
    exact keyBytes_inj (eq_of_murmurHash3_eq hlen' hsame he)
  · intro he
    rw [he]

end MurmurHash3

end Lte

import Adventure.Util.Murmur3

namespace Adventure

open Mixing Function

section Steps

variable {w : Nat}

theorem rotl_inj {r : Nat} (hr : r ≤ w) {x y : BitVec w} (h : rotl x r = rotl y r) : x = y :=
  rotl_injective hr h

theorem mixKey_injective {c c' : BitVec w} {r : Nat} (d d' : BitVec w) (hr : r ≤ w) (hc : c * d = 1#w)
    (hc' : c' * d' = 1#w) : Injective (mixKey · c r c') :=
  (mul_injective hc').comp ((rotl_injective hr).comp (mul_injective hc))

theorem loadWord_inj {bytes bytes' : List UInt8} (hlen : bytes.length = bytes'.length)
    (hw : 8 * bytes.length ≤ w) (h : loadWord w bytes = loadWord w bytes') : bytes = bytes' := by
  have hmap := wordFrom_injective (by simpa using hlen) (by simpa using hw) h
  exact List.map_injective_iff.mpr (fun _ _ h => UInt8.toBitVec_inj.mp h) hmap

theorem chunk_inj {bytes bytes' : List UInt8} {n j : Nat} (hlen : bytes.length = bytes'.length)
    (hw : 8 * n ≤ w) (h : loadWord w (chunk n bytes j) = loadWord w (chunk n bytes' j)) :
    chunk n bytes j = chunk n bytes' j := by
  apply loadWord_inj _ _ h
  · simp [chunk, hlen]
  · have hle : (chunk n bytes j).length ≤ n := List.length_take_le n _
    omega

-- A lane of the state after it has taken in a block.
def lane (x : BitVec w) (r : Nat) (y m c : BitVec w) : BitVec w := (rotl x r + y) * m + c

theorem lane_inj {x x' y m d c : BitVec w} {r : Nat} (hr : r ≤ w) (hm : m * d = 1#w)
    (h : lane x r y m c = lane x' r y m c) : x = x' :=
  rotl_inj hr (add_injective y (mul_injective hm (add_injective c h)))

theorem fmix32_injective : Injective fmix32 :=
  (xorShift_injective (by decide : 0 < 16)).comp ((mul_injective (d := 2127672349#32) (by decide)).comp
    ((xorShift_injective (by decide : 0 < 13)).comp
      ((mul_injective (d := 2781581891#32) (by decide)).comp (xorShift_injective (by decide : 0 < 16)))))

theorem fmix64_injective : Injective fmix64 :=
  (xorShift_injective (by decide : 0 < 33)).comp
    ((mul_injective (d := 11291846944257947611#64) (by decide)).comp
      ((xorShift_injective (by decide : 0 < 33)).comp
        ((mul_injective (d := 5725274745694666757#64) (by decide)).comp
          (xorShift_injective (by decide : 0 < 33)))))

-- What goes to the state is taken in by xor.
theorem xor_inj_right {x y z : BitVec w} (h : z ^^^ x = z ^^^ y) : x = y := by
  rw [BitVec.xor_comm z, BitVec.xor_comm z] at h
  exact xor_injective z h

-- A lane takes in its part of the rest of a key, when the rest goes so far.
def restLane (h : BitVec w) (tail : List UInt8) (n j : Nat) (c : BitVec w) (r : Nat) (c' : BitVec w) :
    BitVec w :=
  if n * j < tail.length then h ^^^ mixKey (loadWord w (chunk n tail j)) c r c' else h

theorem restLane_state {h h' c c' : BitVec w} {tail : List UInt8} {n j r : Nat}
    (heq : restLane h tail n j c r c' = restLane h' tail n j c r c') : h = h' := by
  unfold restLane at heq
  by_cases hj : n * j < tail.length
  · rw [if_pos hj, if_pos hj] at heq
    exact xor_injective _ heq
  · rwa [if_neg hj, if_neg hj] at heq

theorem restLane_chunk {h c c' : BitVec w} {tail tail' : List UInt8} {n j r : Nat}
    (hmix : Injective (mixKey · c r c')) (hw : 8 * n ≤ w) (hlen : tail.length = tail'.length)
    (heq : restLane h tail n j c r c' = restLane h tail' n j c r c') :
    chunk n tail j = chunk n tail' j := by
  unfold restLane at heq
  rw [← hlen] at heq
  by_cases hj : n * j < tail.length
  · rw [if_pos hj, if_pos hj] at heq
    exact chunk_inj hlen hw (hmix (xor_inj_right heq))
  · rw [chunk, chunk, List.drop_of_length_le (by omega), List.drop_of_length_le (by omega)]

-- Behind the last lane nothing is left.
theorem chunk_beyond {tail tail' : List UInt8} {n m j : Nat} (hend : tail.length ≤ n * m) (hj : m ≤ j)
    (hlen : tail.length = tail'.length) : chunk n tail j = chunk n tail' j := by
  have hle : n * m ≤ n * j := Nat.mul_le_mul_left n hj
  rw [chunk, chunk, List.drop_of_length_le (by omega), List.drop_of_length_le (by omega)]

-- A block of a lane is a part of the block of the key.
theorem getblock_eq {key : List UInt8} {n m j i : Nat} (hw : w / 8 = n) (hi : i < m) :
    getblock w key (j * m + i) = loadWord w (chunk n (chunk (n * m) key j) i) := by
  have hle : n * i + n ≤ n * m := by
    rw [← Nat.mul_add_one]
    exact Nat.mul_le_mul_left n hi
  unfold getblock chunk
  rw [hw, List.drop_take, List.drop_drop, List.take_take, Nat.mul_add, Nat.mul_comm j m,
    ← Nat.mul_assoc, Nat.min_eq_left (by omega)]

end Steps

-- Keys of one length that differ in one block of n bytes only, or only in the bytes behind the last
-- block, have different hashes, and so has every key with different seeds.
structure Tells {τ : Type} (n : Nat) (hash : List UInt8 → BitVec 32 → τ) : Prop where
  keys : ∀ seed key key' i, key.length = key'.length → (∀ j, j / n ≠ i → key[j]? = key'[j]?) →
    hash key seed = hash key' seed → key = key'
  seeds : ∀ key, Injective (hash key)

section X86_32

variable {key key' : List UInt8} {seed seed' : BitVec 32} {i : Nat}

theorem mix32_injective : Injective (mixKey · 0xcc9e2d51#32 15 0x1b873593#32) :=
  mixKey_injective 3739302833#32 1458385051#32 (by decide) (by decide) (by decide)

theorem body32_lossless : Lossless body32 where
  state k h h' heq := by
    have hlane : lane (h ^^^ mixKey k 0xcc9e2d51#32 15 0x1b873593#32) 13 0#32 5#32 0xe6546b64#32 =
        lane (h' ^^^ mixKey k 0xcc9e2d51#32 15 0x1b873593#32) 13 0#32 5#32 0xe6546b64#32 := by
      unfold lane
      rw [BitVec.add_zero, BitVec.add_zero]
      exact heq
    exact xor_injective _ (lane_inj (d := 3435973837#32) (by decide) (by decide) hlane)
  block h k k' heq := by
    have hmul : rotl (h ^^^ mixKey k 0xcc9e2d51#32 15 0x1b873593#32) 13 =
        rotl (h ^^^ mixKey k' 0xcc9e2d51#32 15 0x1b873593#32) 13 :=
      mul_injective (d := 3435973837#32) (by decide) (add_injective _ heq)
    exact mix32_injective (xor_inj_right (rotl_inj (by decide) hmul))

theorem tail32_state {tail : List UInt8} : Injective (tail32 · tail) := by
  intro h h' heq
  unfold tail32 at heq
  by_cases htail : tail.length ≠ 0
  · simp only [if_pos htail] at heq
    exact xor_injective _ heq
  · simpa only [if_neg htail] using heq

theorem tail32_tail {h : BitVec 32} {tail tail' : List UInt8} (hlt : tail.length < 4)
    (hlen : tail.length = tail'.length) (heq : tail32 h tail = tail32 h tail') : tail = tail' := by
  unfold tail32 at heq
  rw [← hlen] at heq
  by_cases htail : tail.length ≠ 0
  · simp only [if_pos htail] at heq
    exact loadWord_inj hlen (by omega) (mix32_injective (xor_inj_right heq))
  · have hnil : tail.length = 0 := by omega
    rw [List.length_eq_zero_iff.mp hnil, List.length_eq_zero_iff.mp (hlen.symm.trans hnil)]

theorem murmurHash3_x86_32_tells : Tells 4 murmurHash3_x86_32 where
  keys seed key key' i hlen hrest heq := by
    have hstate := fmix32_injective heq
    rw [← hlen] at hstate
    have hwords := xor_injective _ hstate
    refine body32_lossless.chunks_eq (loadWord 32) tail32 seed (by decide : 0 < 4) ?_
      (fun _ h => tail32_state h) tail32_tail hlen hrest ?_
    · intro b b' hb hb' h
      exact loadWord_inj (hb.trans hb'.symm) (by omega) h
    · rw [← hlen]
      exact hwords
  seeds key seed seed' heq := by
    exact body32_lossless.foldl_injective _ (tail32_state (xor_injective _ (fmix32_injective heq)))

end X86_32

section X86_128

-- The four words of a block.
def word128 (block : List UInt8) : Lanes32 :=
  ⟨loadWord 32 (chunk 4 block 0), loadWord 32 (chunk 4 block 1), loadWord 32 (chunk 4 block 2),
    loadWord 32 (chunk 4 block 3)⟩

theorem word128_inj {block block' : List UInt8} (hlen : block.length = 16)
    (hlen' : block'.length = 16) (h : word128 block = word128 block') : block = block' := by
  have hpart {j : Nat} := chunk_inj (w := 32) (n := 4) (j := j) (hlen.trans hlen'.symm) (by decide)
  obtain ⟨h₁, h₂, h₃, h₄⟩ := Lanes32.mk.injEq .. ▸ h
  apply eq_of_chunks (by decide : 0 < 4)
  intro j
  match j with
  | 0 => exact hpart h₁
  | 1 => exact hpart h₂
  | 2 => exact hpart h₃
  | 3 => exact hpart h₄
  | j + 4 => exact chunk_beyond (m := 4) (Nat.le_of_eq hlen) (by omega) (hlen.trans hlen'.symm)

-- In each lane the state is multiplied by five at last.
theorem lane32_inj {x x' y c : BitVec 32} {r : Nat} (hr : r ≤ 32)
    (h : lane x r y 5#32 c = lane x' r y 5#32 c) : x = x' :=
  lane_inj (d := 3435973837#32) hr (by decide) h

theorem mix128₁_injective : Injective (mixKey · 0x239b961b#32 15 0xab0e9789#32) :=
  mixKey_injective 2311672851#32 3742568121#32 (by decide) (by decide) (by decide)

theorem mix128₂_injective : Injective (mixKey · 0xab0e9789#32 16 0x38b34ae5#32) :=
  mixKey_injective 3742568121#32 1954046701#32 (by decide) (by decide) (by decide)

theorem mix128₃_injective : Injective (mixKey · 0x38b34ae5#32 17 0xa1e38b93#32) :=
  mixKey_injective 1954046701#32 1490438811#32 (by decide) (by decide) (by decide)

theorem mix128₄_injective : Injective (mixKey · 0xa1e38b93#32 18 0x239b961b#32) :=
  mixKey_injective 1490438811#32 2311672851#32 (by decide) (by decide) (by decide)

theorem body128_lossless : Lossless body128 where
  state k h h' heq := by
    obtain ⟨h₁, h₂, h₃, h₄⟩ := h
    obtain ⟨h₁', h₂', h₃', h₄'⟩ := h'
    obtain ⟨heq₁, heq₂, heq₃, heq₄⟩ := Lanes32.mk.injEq .. ▸ heq
    -- each lane takes in the next one as it was, the last one the first one as it is now
    rw [heq₁] at heq₄
    have h₄_eq := xor_injective _ (lane32_inj (by decide) heq₄)
    subst h₄_eq
    have h₃_eq := xor_injective _ (lane32_inj (by decide) heq₃)
    subst h₃_eq
    have h₂_eq := xor_injective _ (lane32_inj (by decide) heq₂)
    subst h₂_eq
    have h₁_eq := xor_injective _ (lane32_inj (by decide) heq₁)
    subst h₁_eq
    rfl
  block h k k' heq := by
    obtain ⟨heq₁, heq₂, heq₃, heq₄⟩ := Lanes32.mk.injEq .. ▸ heq
    rw [heq₁] at heq₄
    exact Lanes32.ext (mix128₁_injective (xor_inj_right (lane32_inj (by decide) heq₁)))
      (mix128₂_injective (xor_inj_right (lane32_inj (by decide) heq₂)))
      (mix128₃_injective (xor_inj_right (lane32_inj (by decide) heq₃)))
      (mix128₄_injective (xor_inj_right (lane32_inj (by decide) heq₄)))

theorem tail128_eq (h : Lanes32) (tail : List UInt8) :
    tail128 h tail = ⟨restLane h.h₁ tail 4 0 0x239b961b#32 15 0xab0e9789#32,
      restLane h.h₂ tail 4 1 0xab0e9789#32 16 0x38b34ae5#32,
      restLane h.h₃ tail 4 2 0x38b34ae5#32 17 0xa1e38b93#32,
      restLane h.h₄ tail 4 3 0xa1e38b93#32 18 0x239b961b#32⟩ := rfl

theorem tail128_state {tail : List UInt8} : Injective (tail128 · tail) := by
  rintro ⟨h₁, h₂, h₃, h₄⟩ ⟨h₁', h₂', h₃', h₄'⟩ heq
  simp only [tail128_eq, Lanes32.mk.injEq] at heq
  obtain ⟨heq₁, heq₂, heq₃, heq₄⟩ := heq
  rw [restLane_state heq₁, restLane_state heq₂, restLane_state heq₃, restLane_state heq₄]

theorem tail128_tail {h : Lanes32} {tail tail' : List UInt8} (hlt : tail.length < 16)
    (hlen : tail.length = tail'.length) (heq : tail128 h tail = tail128 h tail') : tail = tail' := by
  simp only [tail128_eq, Lanes32.mk.injEq] at heq
  obtain ⟨heq₁, heq₂, heq₃, heq₄⟩ := heq
  apply eq_of_chunks (by decide : 0 < 4)
  intro j
  match j with
  | 0 => exact restLane_chunk mix128₁_injective (by decide) hlen heq₁
  | 1 => exact restLane_chunk mix128₂_injective (by decide) hlen heq₂
  | 2 => exact restLane_chunk mix128₃_injective (by decide) hlen heq₃
  | 3 => exact restLane_chunk mix128₄_injective (by decide) hlen heq₄
  | j + 4 => exact chunk_beyond (m := 4) (Nat.le_of_lt hlt) (by omega) hlen

theorem addLanes_injective : Injective addLanes := by
  rintro ⟨h₁, h₂, h₃, h₄⟩ ⟨h₁', h₂', h₃', h₄'⟩ heq
  obtain ⟨heq₁, heq₂, heq₃, heq₄⟩ := Lanes32.mk.injEq .. ▸ heq
  -- the sum is the first lane, so that the other ones are found again
  simp only at heq₁ heq₂ heq₃ heq₄
  rw [heq₁] at heq₂ heq₃ heq₄
  have h₂_eq := add_injective _ heq₂
  have h₃_eq := add_injective _ heq₃
  have h₄_eq := add_injective _ heq₄
  subst h₂_eq h₃_eq h₄_eq
  rw [add_injective _ (add_injective _ (add_injective _ heq₁))]

-- What comes behind the rest of the key.
theorem final128_injective (len : BitVec 32) : Injective fun h : Lanes32 =>
    let h := addLanes ⟨h.h₁ ^^^ len, h.h₂ ^^^ len, h.h₃ ^^^ len, h.h₄ ^^^ len⟩
    addLanes ⟨fmix32 h.h₁, fmix32 h.h₂, fmix32 h.h₃, fmix32 h.h₄⟩ := by
  intro h h' heq
  obtain ⟨heq₁, heq₂, heq₃, heq₄⟩ := Lanes32.mk.injEq .. ▸ addLanes_injective heq
  have hlanes := addLanes_injective (Lanes32.ext (fmix32_injective heq₁) (fmix32_injective heq₂)
    (fmix32_injective heq₃) (fmix32_injective heq₄))
  obtain ⟨hlen₁, hlen₂, hlen₃, hlen₄⟩ := Lanes32.mk.injEq .. ▸ hlanes
  exact Lanes32.ext (xor_injective _ hlen₁) (xor_injective _ hlen₂) (xor_injective _ hlen₃)
    (xor_injective _ hlen₄)

theorem block128_eq (key : List UInt8) (j : Nat) :
    (⟨getblock 32 key (j * 4 + 0), getblock 32 key (j * 4 + 1), getblock 32 key (j * 4 + 2),
      getblock 32 key (j * 4 + 3)⟩ : Lanes32) = word128 (chunk 16 key j) := by
  unfold word128
  have hpart {i : Nat} (hi : i < 4) :
      getblock 32 key (j * 4 + i) = loadWord 32 (chunk 4 (chunk 16 key j) i) := getblock_eq rfl hi
  rw [hpart (by decide : 0 < 4), hpart (by decide : 1 < 4), hpart (by decide : 2 < 4),
    hpart (by decide : 3 < 4)]

theorem murmurHash3_x86_128_tells : Tells 16 murmurHash3_x86_128 where
  keys seed key key' i hlen hrest heq := by
    unfold murmurHash3_x86_128 at heq
    simp only [block128_eq] at heq
    rw [← hlen] at heq
    have hwords := final128_injective _ heq
    refine body128_lossless.chunks_eq word128 tail128 ⟨seed, seed, seed, seed⟩ (by decide : 0 < 16)
      word128_inj (fun _ h => tail128_state h) tail128_tail hlen hrest ?_
    rw [← hlen]
    exact hwords
  seeds key seed seed' heq := by
    have hseed := body128_lossless.foldl_injective _ (tail128_state (final128_injective _ heq))
    exact congrArg Lanes32.h₁ hseed

end X86_128

section X64_128

def word64 (block : List UInt8) : Lanes64 := ⟨loadWord 64 (chunk 8 block 0), loadWord 64 (chunk 8 block 1)⟩

theorem word64_inj {block block' : List UInt8} (hlen : block.length = 16) (hlen' : block'.length = 16)
    (h : word64 block = word64 block') : block = block' := by
  obtain ⟨h₁, h₂⟩ := Lanes64.mk.injEq .. ▸ h
  apply eq_of_chunks (by decide : 0 < 8)
  intro j
  match j with
  | 0 => exact chunk_inj (hlen.trans hlen'.symm) (by decide) h₁
  | 1 => exact chunk_inj (hlen.trans hlen'.symm) (by decide) h₂
  | j + 2 => exact chunk_beyond (m := 2) (Nat.le_of_eq hlen) (by omega) (hlen.trans hlen'.symm)

theorem lane64_inj {x x' y c : BitVec 64} {r : Nat} (hr : r ≤ 64)
    (h : lane x r y 5#64 c = lane x' r y 5#64 c) : x = x' :=
  lane_inj (d := 14757395258967641293#64) hr (by decide) h

theorem mix64₁_injective : Injective (mixKey · 0x87c37b91114253d5#64 31 0x4cf5ad432745937f#64) :=
  mixKey_injective 12214898983567248765#64 12114143059468233855#64 (by decide) (by decide)
    (by decide)

theorem mix64₂_injective : Injective (mixKey · 0x4cf5ad432745937f#64 33 0x87c37b91114253d5#64) :=
  mixKey_injective 12114143059468233855#64 12214898983567248765#64 (by decide) (by decide)
    (by decide)

theorem body64_lossless : Lossless body64 where
  state k h h' heq := by
    obtain ⟨h₁, h₂⟩ := h
    obtain ⟨h₁', h₂'⟩ := h'
    obtain ⟨heq₁, heq₂⟩ := Lanes64.mk.injEq .. ▸ heq
    rw [heq₁] at heq₂
    have h₂_eq := xor_injective _ (lane64_inj (by decide) heq₂)
    subst h₂_eq
    have h₁_eq := xor_injective _ (lane64_inj (by decide) heq₁)
    subst h₁_eq
    rfl
  block h k k' heq := by
    obtain ⟨heq₁, heq₂⟩ := Lanes64.mk.injEq .. ▸ heq
    rw [heq₁] at heq₂
    exact Lanes64.ext (mix64₁_injective (xor_inj_right (lane64_inj (by decide) heq₁)))
      (mix64₂_injective (xor_inj_right (lane64_inj (by decide) heq₂)))

theorem tail64_eq (h : Lanes64) (tail : List UInt8) :
    tail64 h tail = ⟨restLane h.h₁ tail 8 0 0x87c37b91114253d5#64 31 0x4cf5ad432745937f#64,
      restLane h.h₂ tail 8 1 0x4cf5ad432745937f#64 33 0x87c37b91114253d5#64⟩ := rfl

theorem tail64_state {tail : List UInt8} : Injective (tail64 · tail) := by
  intro h h' heq
  simp only [tail64_eq, Lanes64.mk.injEq] at heq
  exact Lanes64.ext (restLane_state heq.1) (restLane_state heq.2)

theorem tail64_tail {h : Lanes64} {tail tail' : List UInt8} (hlt : tail.length < 16)
    (hlen : tail.length = tail'.length) (heq : tail64 h tail = tail64 h tail') : tail = tail' := by
  simp only [tail64_eq, Lanes64.mk.injEq] at heq
  apply eq_of_chunks (by decide : 0 < 8)
  intro j
  match j with
  | 0 => exact restLane_chunk mix64₁_injective (by decide) hlen heq.1
  | 1 => exact restLane_chunk mix64₂_injective (by decide) hlen heq.2
  | j + 2 => exact chunk_beyond (m := 2) (Nat.le_of_lt hlt) (by omega) hlen

theorem addPair_injective : Injective addPair := by
  rintro ⟨h₁, h₂⟩ ⟨h₁', h₂'⟩ heq
  obtain ⟨heq₁, heq₂⟩ := Lanes64.mk.injEq .. ▸ heq
  simp only at heq₁ heq₂
  rw [heq₁] at heq₂
  have h₂_eq := add_injective _ heq₂
  subst h₂_eq
  rw [add_injective _ heq₁]

theorem final64_injective (len : BitVec 64) : Injective fun h : Lanes64 =>
    let h := addPair ⟨h.h₁ ^^^ len, h.h₂ ^^^ len⟩
    addPair ⟨fmix64 h.h₁, fmix64 h.h₂⟩ := by
  intro h h' heq
  obtain ⟨heq₁, heq₂⟩ := Lanes64.mk.injEq .. ▸ addPair_injective heq
  have hlanes := addPair_injective (Lanes64.ext (fmix64_injective heq₁) (fmix64_injective heq₂))
  obtain ⟨hlen₁, hlen₂⟩ := Lanes64.mk.injEq .. ▸ hlanes
  exact Lanes64.ext (xor_injective _ hlen₁) (xor_injective _ hlen₂)

theorem block64_eq (key : List UInt8) (j : Nat) :
    (⟨getblock 64 key (j * 2 + 0), getblock 64 key (j * 2 + 1)⟩ : Lanes64) = word64 (chunk 16 key j) := by
  have hpart {i : Nat} (hi : i < 2) :
      getblock 64 key (j * 2 + i) = loadWord 64 (chunk 8 (chunk 16 key j) i) := getblock_eq rfl hi
  unfold word64
  rw [hpart (by decide : 0 < 2), hpart (by decide : 1 < 2)]

theorem murmurHash3_x64_128_tells : Tells 16 murmurHash3_x64_128 where
  keys seed key key' i hlen hrest heq := by
    unfold murmurHash3_x64_128 at heq
    simp only [block64_eq] at heq
    rw [← hlen] at heq
    have hwords := final64_injective _ heq
    refine body64_lossless.chunks_eq word64 tail64 ⟨seed.setWidth 64, seed.setWidth 64⟩
      (by decide : 0 < 16) word64_inj (fun _ h => tail64_state h) tail64_tail hlen hrest ?_
    rw [← hlen]
    exact hwords
  seeds key seed seed' heq := by
    have hseed := body64_lossless.foldl_injective _ (tail64_state (final64_injective _ heq))
    have hwide : seed.setWidth 64 = seed'.setWidth 64 := congrArg Lanes64.h₁ hseed
    rw [← BitVec.setWidth_eq seed, ← BitVec.setWidth_setWidth_of_le seed (by decide : 32 ≤ 64), hwide,
      BitVec.setWidth_setWidth_of_le seed' (by decide : 32 ≤ 64), BitVec.setWidth_eq]

end X64_128

theorem murmurHash3_tells : Tells 4 murmurHash3_x86_32 ∧ Tells 16 murmurHash3_x86_128 ∧
    Tells 16 murmurHash3_x64_128 :=
  ⟨murmurHash3_x86_32_tells, murmurHash3_x86_128_tells, murmurHash3_x64_128_tells⟩

end Adventure

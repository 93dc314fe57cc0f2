import Adventure.Library.Mixing

namespace Adventure

open Mixing

-- A key is the bytes from `data` to `data + len`; a length that an int cannot hold is not passed.

-- rotl32 and rotl64
def rotl {w : Nat} (x : BitVec w) (r : Nat) : BitVec w := x <<< r ||| x >>> (w - r)

-- The bytes as the machine reads a word, the lowest byte first.
def loadWord (w : Nat) (bytes : List UInt8) : BitVec w := wordFrom w (bytes.map UInt8.toBitVec) 0

-- getblock(blocks, i), with the blocks of the key.
def getblock (w : Nat) (data : List UInt8) (i : Nat) : BitVec w :=
  loadWord w ((data.drop (w / 8 * i)).take (w / 8))

-- What all three hashes do to a block or a rest of the key before it goes to the state.
def mixKey {w : Nat} (k c : BitVec w) (r : Nat) (c' : BitVec w) : BitVec w :=
  let k := k * c
  let k := rotl k r
  k * c'

def fmix32 (h : BitVec 32) : BitVec 32 :=
  let h := h ^^^ h >>> 16
  let h := h * 0x85ebca6b#32
  let h := h ^^^ h >>> 13
  let h := h * 0xc2b2ae35#32
  h ^^^ h >>> 16

def fmix64 (k : BitVec 64) : BitVec 64 :=
  let k := k ^^^ k >>> 33
  let k := k * 0xff51afd7ed558ccd#64
  let k := k ^^^ k >>> 33
  let k := k * 0xc4ceb9fe1a85ec53#64
  k ^^^ k >>> 33

section X86_32

def body32 (h₁ k₁ : BitVec 32) : BitVec 32 :=
  let k₁ := mixKey k₁ 0xcc9e2d51#32 15 0x1b873593#32
  let h₁ := h₁ ^^^ k₁
  let h₁ := rotl h₁ 13
  h₁ * 5#32 + 0xe6546b64#32

-- The switch over len & 3, which falls through from the last byte of the rest to the first.
def tail32 (h₁ : BitVec 32) (tail : List UInt8) : BitVec 32 :=
  if tail.length ≠ 0 then h₁ ^^^ mixKey (loadWord 32 tail) 0xcc9e2d51#32 15 0x1b873593#32 else h₁

def murmurHash3_x86_32 (key : List UInt8) (seed : BitVec 32) : BitVec 32 :=
  let nblocks := key.length / 4
  let h₁ := ((List.range nblocks).map (getblock 32 key)).foldl body32 seed
  let h₁ := tail32 h₁ (key.drop (4 * nblocks))
  let h₁ := h₁ ^^^ BitVec.ofNat 32 key.length
  fmix32 h₁

end X86_32

section X86_128

@[ext]
structure Lanes32 where
  h₁ : BitVec 32
  h₂ : BitVec 32
  h₃ : BitVec 32
  h₄ : BitVec 32
  deriving DecidableEq, Repr

def body128 (h k : Lanes32) : Lanes32 :=
  let k₁ := mixKey k.h₁ 0x239b961b#32 15 0xab0e9789#32
  let h₁ := h.h₁ ^^^ k₁
  let h₁ := (rotl h₁ 19 + h.h₂) * 5#32 + 0x561ccd1b#32
  let k₂ := mixKey k.h₂ 0xab0e9789#32 16 0x38b34ae5#32
  let h₂ := h.h₂ ^^^ k₂
  let h₂ := (rotl h₂ 17 + h.h₃) * 5#32 + 0x0bcaa747#32
  let k₃ := mixKey k.h₃ 0x38b34ae5#32 17 0xa1e38b93#32
  let h₃ := h.h₃ ^^^ k₃
  let h₃ := (rotl h₃ 15 + h.h₄) * 5#32 + 0x96cd1c35#32
  let k₄ := mixKey k.h₄ 0xa1e38b93#32 18 0x239b961b#32
  let h₄ := h.h₄ ^^^ k₄
  let h₄ := (rotl h₄ 13 + h₁) * 5#32 + 0x32ac3b17#32
  ⟨h₁, h₂, h₃, h₄⟩

-- The switch over len & 15: each lane takes up to four bytes of the rest.
def tail128 (h : Lanes32) (tail : List UInt8) : Lanes32 :=
  let part j := loadWord 32 ((tail.drop (4 * j)).take 4)
  let h₄ := if 12 < tail.length then h.h₄ ^^^ mixKey (part 3) 0xa1e38b93#32 18 0x239b961b#32 else h.h₄
  let h₃ := if 8 < tail.length then h.h₃ ^^^ mixKey (part 2) 0x38b34ae5#32 17 0xa1e38b93#32 else h.h₃
  let h₂ := if 4 < tail.length then h.h₂ ^^^ mixKey (part 1) 0xab0e9789#32 16 0x38b34ae5#32 else h.h₂
  let h₁ := if 0 < tail.length then h.h₁ ^^^ mixKey (part 0) 0x239b961b#32 15 0xab0e9789#32 else h.h₁
  ⟨h₁, h₂, h₃, h₄⟩

def addLanes (h : Lanes32) : Lanes32 :=
  let h₁ := h.h₁ + h.h₂ + h.h₃ + h.h₄
  ⟨h₁, h.h₂ + h₁, h.h₃ + h₁, h.h₄ + h₁⟩

def murmurHash3_x86_128 (key : List UInt8) (seed : BitVec 32) : Lanes32 :=
  let nblocks := key.length / 16
  let block i : Lanes32 := ⟨getblock 32 key (i * 4 + 0), getblock 32 key (i * 4 + 1),
    getblock 32 key (i * 4 + 2), getblock 32 key (i * 4 + 3)⟩
  let h := ((List.range nblocks).map block).foldl body128 ⟨seed, seed, seed, seed⟩
  let h := tail128 h (key.drop (16 * nblocks))
  let len := BitVec.ofNat 32 key.length
  let h := addLanes ⟨h.h₁ ^^^ len, h.h₂ ^^^ len, h.h₃ ^^^ len, h.h₄ ^^^ len⟩
  addLanes ⟨fmix32 h.h₁, fmix32 h.h₂, fmix32 h.h₃, fmix32 h.h₄⟩

end X86_128

section X64_128

@[ext]
structure Lanes64 where
  h₁ : BitVec 64
  h₂ : BitVec 64
  deriving DecidableEq, Repr

def body64 (h k : Lanes64) : Lanes64 :=
  let k₁ := mixKey k.h₁ 0x87c37b91114253d5#64 31 0x4cf5ad432745937f#64
  let h₁ := h.h₁ ^^^ k₁
  let h₁ := (rotl h₁ 27 + h.h₂) * 5#64 + 0x52dce729#64
  let k₂ := mixKey k.h₂ 0x4cf5ad432745937f#64 33 0x87c37b91114253d5#64
  let h₂ := h.h₂ ^^^ k₂
  let h₂ := (rotl h₂ 31 + h₁) * 5#64 + 0x38495ab5#64
  ⟨h₁, h₂⟩

def tail64 (h : Lanes64) (tail : List UInt8) : Lanes64 :=
  let part j := loadWord 64 ((tail.drop (8 * j)).take 8)
  let h₂ :=
    if 8 < tail.length then h.h₂ ^^^ mixKey (part 1) 0x4cf5ad432745937f#64 33 0x87c37b91114253d5#64
    else h.h₂
  let h₁ :=
    if 0 < tail.length then h.h₁ ^^^ mixKey (part 0) 0x87c37b91114253d5#64 31 0x4cf5ad432745937f#64
    else h.h₁
  ⟨h₁, h₂⟩

def addPair (h : Lanes64) : Lanes64 :=
  let h₁ := h.h₁ + h.h₂
  ⟨h₁, h.h₂ + h₁⟩

def murmurHash3_x64_128 (key : List UInt8) (seed : BitVec 32) : Lanes64 :=
  let nblocks := key.length / 16
  let block i : Lanes64 := ⟨getblock 64 key (i * 2 + 0), getblock 64 key (i * 2 + 1)⟩
  let h := ((List.range nblocks).map block).foldl body64 ⟨seed.setWidth 64, seed.setWidth 64⟩
  let h := tail64 h (key.drop (16 * nblocks))
  let len := BitVec.ofNat 64 key.length
  let h := addPair ⟨h.h₁ ^^^ len, h.h₂ ^^^ len⟩
  addPair ⟨fmix64 h.h₁, fmix64 h.h₂⟩

end X64_128

end Adventure

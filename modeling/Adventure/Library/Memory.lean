import Mathlib.Data.List.Induction
import Mathlib.Data.Nat.Bitwise
import Mathlib.Tactic.Common

-- Byte-addressed memory, with machine words in big-endian order.
abbrev Memory := Nat → UInt8

namespace Memory

-- The bytes of a number, the most significant of `width` bytes first. Higher bytes are lost.
def encode : Nat → Nat → List UInt8
  | 0, _ => []
  | width + 1, n => UInt8.ofNat (n >>> (8 * width)) :: encode width n

def decode (bytes : List UInt8) : Nat :=
  bytes.foldl (fun acc byte => acc <<< 8 ||| byte.toNat) 0

def read (m : Memory) (p : Nat) : Nat → List UInt8
  | 0 => []
  | count + 1 => m p :: read m (p + 1) count

def write (m : Memory) (p : Nat) (bytes : List UInt8) : Memory := fun i =>
  if p ≤ i ∧ i < p + bytes.length then bytes.getD (i - p) 0 else m i

-- All of the source is read before the destination is written.
def copy (m : Memory) (dest src size : Nat) : Memory := fun i =>
  if dest ≤ i ∧ i < dest + size then m (src + (i - dest)) else m i

-- The 64-bit word at an address.
def word (m : Memory) (p : Nat) : Nat := decode (m.read p 8)

def setWord (m : Memory) (p n : Nat) : Memory := m.write p (encode 8 n)

-- Two memories agree on the `size` bytes from `p`.
def Same (m m' : Memory) (p size : Nat) : Prop := ∀ i, p ≤ i → i < p + size → m' i = m i

-- Two memories differ at most on the `size` bytes from `p`.
def Only (m m' : Memory) (p size : Nat) : Prop := ∀ i, ¬(p ≤ i ∧ i < p + size) → m' i = m i

section Codec

theorem decode_append_singleton (bytes : List UInt8) (byte : UInt8) :
    decode (bytes ++ [byte]) = decode bytes * 256 + byte.toNat := by
  have hb : byte.toNat < 2 ^ 8 := byte.toNat_lt
  simp only [decode, List.foldl_append, List.foldl_cons, List.foldl_nil]
  rw [← Nat.shiftLeft_add_eq_or_of_lt hb, Nat.shiftLeft_eq]

@[simp] theorem length_encode (width n : Nat) : (encode width n).length = width := by
  induction width with
  | zero => rfl
  | succ width ih => simp [encode, ih]

theorem encode_succ (width n : Nat) :
    encode (width + 1) n = encode width (n >>> 8) ++ [UInt8.ofNat n] := by
  induction width with
  | zero => simp [encode]
  | succ width ih =>
      rw [encode, ih, encode, List.cons_append]
      congr 2
      rw [← Nat.shiftRight_add]
      congr 1
      omega

theorem decode_encode (width n : Nat) : decode (encode width n) = n % 256 ^ width := by
  induction width generalizing n with
  | zero => simp [encode, decode, Nat.mod_one]
  | succ width ih =>
      have hm : n % (256 * 256 ^ width) = n % 256 + 256 * (n / 256 % 256 ^ width) := Nat.mod_mul
      rw [encode_succ, decode_append_singleton, ih, Nat.shiftRight_eq_div_pow, pow_succ' 256 width,
        hm]
      simp only [UInt8.toNat_ofNat', Nat.reducePow]
      omega

theorem decode_lt (bytes : List UInt8) : decode bytes < 256 ^ bytes.length := by
  induction bytes using List.reverseRecOn with
  | nil => simp [decode]
  | append_singleton bytes byte ih =>
      have hb : byte.toNat < 256 := byte.toNat_lt
      rw [decode_append_singleton, List.length_append, List.length_singleton, pow_succ]
      omega

end Codec

section ReadWrite

variable {m m' : Memory}

@[simp] theorem length_read (p count : Nat) : (m.read p count).length = count := by
  induction count generalizing p with
  | zero => rfl
  | succ count ih => simp [read, ih]

-- What is read depends on the bytes only, wherever they lie.
theorem read_shift {p q count : Nat} (h : ∀ i < count, m' (q + i) = m (p + i)) :
    m'.read q count = m.read p count := by
  induction count generalizing p q with
  | zero => rfl
  | succ count ih =>
      rw [read, read, show m' q = m p from h 0 (by omega)]
      congr 1
      apply ih
      intro i hi
      have hn := h (1 + i) (by omega)
      rwa [← Nat.add_assoc, ← Nat.add_assoc] at hn

theorem read_eq_of_getElem {p : Nat} {bytes : List UInt8}
    (h : ∀ i (hi : i < bytes.length), m (p + i) = bytes[i]) : m.read p bytes.length = bytes := by
  induction bytes generalizing p with
  | nil => rfl
  | cons byte bytes ih =>
      have h0 := h 0 (by simp)
      have ht := ih (p := p + 1) fun i hi => by
        have := h (i + 1) (by simpa using hi)
        simpa only [Nat.add_assoc, Nat.add_comm 1 i, List.getElem_cons_succ] using this
      simpa [read, ht] using h0

theorem read_write (p : Nat) (bytes : List UInt8) :
    (m.write p bytes).read p bytes.length = bytes := by
  apply read_eq_of_getElem
  intro i hi
  simp [write, hi]

theorem read_append (p a b : Nat) : m.read p (a + b) = m.read p a ++ m.read (p + a) b := by
  induction a generalizing p with
  | zero => simp [read]
  | succ a ih =>
      rw [Nat.add_right_comm, read, read, ih, List.cons_append, Nat.add_assoc, Nat.add_comm 1 a]

end ReadWrite

section Frame

variable {m m' m'' : Memory} {p q a b : Nat}

theorem Same.refl (m : Memory) (p size : Nat) : Same m m p size := fun _ _ _ => rfl

theorem Same.trans {size : Nat} (h : Same m m' p size) (h' : Same m' m'' p size) :
    Same m m'' p size := fun i hi hj => (h' i hi hj).trans (h i hi hj)

theorem Same.mono (h : Same m m' p a) (hp : p ≤ q) (hq : q + b ≤ p + a) : Same m m' q b :=
  fun i hi hj => h i (by omega) (by omega)

theorem Only.refl (m : Memory) (p size : Nat) : Only m m p size := fun _ _ => rfl

theorem Only.trans {size : Nat} (h : Only m m' p size) (h' : Only m' m'' p size) :
    Only m m'' p size := fun i hi => (h' i hi).trans (h i hi)

theorem Only.mono (h : Only m m' q b) (hp : p ≤ q) (hq : q + b ≤ p + a) : Only m m' p a :=
  fun i hi => h i (by omega)

-- The frame rule: what is written in one region leaves a disjoint region alone.
theorem Only.same (h : Only m m' p a) (hd : q + b ≤ p ∨ p + a ≤ q) : Same m m' q b :=
  fun i hi hj => h i (by omega)

theorem write_only (m : Memory) (p : Nat) (bytes : List UInt8) :
    Only m (m.write p bytes) p bytes.length := fun _ hi => if_neg hi

theorem setWord_only (m : Memory) (p n : Nat) : Only m (m.setWord p n) p 8 :=
  write_only m p (encode 8 n)

theorem copy_only (m : Memory) (dest src size : Nat) : Only m (m.copy dest src size) dest size :=
  fun _ hi => if_neg hi

theorem copy_apply (m : Memory) (dest src : Nat) {size i : Nat} (hi : i < size) :
    m.copy dest src size (dest + i) = m (src + i) := by
  simp [copy, hi]

end Frame

section Word

variable {m m' : Memory} {p : Nat}

theorem word_shift {q : Nat} (h : ∀ i < 8, m' (q + i) = m (p + i)) : m'.word q = m.word p := by
  rw [word, word, read_shift h]

theorem word_congr (h : Same m m' p 8) : m'.word p = m.word p :=
  word_shift fun i hi => h (p + i) (by omega) (by omega)

theorem word_lt (m : Memory) (p : Nat) : m.word p < 2 ^ 64 := by
  have h := decode_lt (m.read p 8)
  rwa [length_read] at h

theorem word_setWord (m : Memory) (p n : Nat) : (m.setWord p n).word p = n % 2 ^ 64 := by
  have h := read_write (m := m) p (encode 8 n)
  rw [length_encode] at h
  rw [word, setWord, h, decode_encode]
  simp only [Nat.reducePow]

end Word

-- A sequence of 64-bit words laid out from an address.
def WordsAt (m : Memory) : Nat → List Nat → Prop
  | _, [] => True
  | p, w :: ws => m.word p = w ∧ WordsAt m (p + 8) ws

section WordsAt

variable {m m' : Memory} {p : Nat}

instance (m : Memory) : (p : Nat) → (ws : List Nat) → Decidable (m.WordsAt p ws)
  | _, [] => .isTrue trivial
  | p, w :: ws =>
      have := instDecidableWordsAt m (p + 8) ws
      inferInstanceAs (Decidable (m.word p = w ∧ m.WordsAt (p + 8) ws))

@[simp] theorem wordsAt_nil : m.WordsAt p [] := trivial

@[simp] theorem wordsAt_cons {w : Nat} {ws : List Nat} :
    m.WordsAt p (w :: ws) ↔ m.word p = w ∧ m.WordsAt (p + 8) ws := Iff.rfl

theorem wordsAt_append {us ws : List Nat} :
    m.WordsAt p (us ++ ws) ↔ m.WordsAt p us ∧ m.WordsAt (p + 8 * us.length) ws := by
  induction us generalizing p with
  | nil => simp
  | cons u us ih =>
      simp only [List.cons_append, wordsAt_cons, ih, List.length_cons, and_assoc]
      rw [show p + 8 + 8 * us.length = p + 8 * (us.length + 1) by omega]

theorem wordsAt_shift {q : Nat} {ws : List Nat} (hw : m.WordsAt p ws)
    (h : ∀ i < 8 * ws.length, m' (q + i) = m (p + i)) : m'.WordsAt q ws := by
  induction ws generalizing p q with
  | nil => trivial
  | cons w ws ih =>
      rw [List.length_cons] at h
      refine ⟨(word_shift fun i hi => h i (by omega)).trans hw.1, ih hw.2 ?_⟩
      intro i hi
      have hn := h (8 + i) (by omega)
      rwa [← Nat.add_assoc, ← Nat.add_assoc] at hn

theorem wordsAt_congr {ws : List Nat} (hw : m.WordsAt p ws) (h : Same m m' p (8 * ws.length)) :
    m'.WordsAt p ws :=
  wordsAt_shift hw fun i hi => h (p + i) (by omega) (by omega)

theorem wordsAt_copy {dest src size : Nat} {ws : List Nat} (hw : m.WordsAt src ws)
    (hs : 8 * ws.length ≤ size) : (m.copy dest src size).WordsAt dest ws :=
  wordsAt_shift hw fun i hi => copy_apply m dest src (by omega)

theorem WordsAt.getElem {ws : List Nat} (hw : m.WordsAt p ws) (i : Nat) (hi : i < ws.length) :
    m.word (p + 8 * i) = ws[i] := by
  induction ws generalizing p i with
  | nil => simp at hi
  | cons w ws ih =>
      cases i with
      | zero => exact hw.1
      | succ i =>
          have h := ih hw.2 i (by simpa using hi)
          rw [List.getElem_cons_succ, ← h]
          congr 1
          omega

end WordsAt

-- Work in progress on a region of `size` bytes at `d`: from `m` to `m'` nothing outside it has
-- changed, and from offset `start` on it holds the words laid out so far.
structure Filled (m m' : Memory) (d start size : Nat) (us : List Nat) : Prop where
  only : Only m m' d size
  words : m'.WordsAt (d + start) us

namespace Filled

variable {m m' : Memory} {d start size : Nat} {us : List Nat}

theorem nil (m : Memory) (d start size : Nat) : Filled m m d start size [] :=
  ⟨Only.refl m d size, trivial⟩

theorem tail {u : Nat} (h : Filled m m' d start size (u :: us)) :
    Filled m m' d (start + 8) size us := ⟨h.only, by simpa only [Nat.add_assoc] using h.words.2⟩

-- A word before the ones laid out so far.
theorem setWord (h : Filled m m' d start size us) {q : Nat} (w : Nat) (hd : d ≤ q)
    (hq : q + 8 ≤ d + start) (hsize : start ≤ size) :
    Filled m (m'.setWord q w) d start size us where
  only := h.only.trans ((setWord_only m' q w).mono hd (by omega))
  words := wordsAt_congr h.words ((setWord_only m' q w).same (by omega))

-- One more word.
theorem push (h : Filled m m' d start size us) {q w : Nat} (hw : w < 2 ^ 64)
    (hq : q = d + start + 8 * us.length) (hsize : start + 8 * us.length + 8 ≤ size) :
    Filled m (m'.setWord q w) d start size (us ++ [w]) where
  only := h.only.trans ((setWord_only m' q w).mono (by omega) (by omega))
  words := by
    rw [wordsAt_append]
    refine ⟨wordsAt_congr h.words ((setWord_only m' q w).same (by omega)), ?_, trivial⟩
    rw [← hq, word_setWord, Nat.mod_eq_of_lt hw]

-- More words, copied from outside the region.
theorem extend (h : Filled m m' d start size us) {q src n : Nat} {ws : List Nat}
    (hw : m.WordsAt src ws) (hsrc : src + 8 * ws.length ≤ d ∨ d + size ≤ src)
    (hq : q = d + start + 8 * us.length) (hn : n = 8 * ws.length)
    (hsize : start + 8 * us.length + 8 * ws.length ≤ size) :
    Filled m (m'.copy q src n) d start size (us ++ ws) where
  only := h.only.trans ((copy_only m' q src n).mono (by omega) (by omega))
  words := by
    rw [wordsAt_append]
    refine ⟨wordsAt_congr h.words ((copy_only m' q src n).same (by omega)), ?_⟩
    rw [← hq]
    exact wordsAt_copy (wordsAt_congr hw (h.only.same (by omega))) hn.ge

end Filled

end Memory

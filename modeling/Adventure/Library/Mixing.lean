import Mathlib.Data.List.Basic
import Mathlib.Logic.Function.Basic
import Mathlib.Tactic.Common

-- Mixing steps of hash functions on machine words that lose nothing, and hashes that are built of
-- such steps.
namespace Mixing

open Function

section Words

variable {w : Nat}

theorem add_injective (c : BitVec w) : Injective (· + c) := by
  intro x y h
  have h' : x + c - c = y + c - c := congrArg (· - c) h
  rwa [BitVec.add_sub_cancel, BitVec.add_sub_cancel] at h'

theorem xor_injective (c : BitVec w) : Injective (· ^^^ c) := by
  intro x y h
  have h' : x ^^^ c ^^^ c = y ^^^ c ^^^ c := congrArg (· ^^^ c) h
  rwa [BitVec.xor_assoc, BitVec.xor_assoc, BitVec.xor_self, BitVec.xor_zero, BitVec.xor_zero] at h'

-- Multiplication by a number that has an inverse, which are the odd ones.
theorem mul_injective {c d : BitVec w} (hinv : c * d = 1#w) : Injective (· * c) := by
  intro x y h
  have h' : x * c * d = y * c * d := congrArg (· * d) h
  rwa [BitVec.mul_assoc, BitVec.mul_assoc, hinv, BitVec.mul_one, BitVec.mul_one] at h'

theorem addShift_injective {r : Nat} {d : BitVec w} (hinv : (1#w + BitVec.twoPow w r) * d = 1#w) :
    Injective fun x : BitVec w => x + x <<< r := by
  have hmul : (fun x : BitVec w => x + x <<< r) = (· * (1#w + BitVec.twoPow w r)) := by
    funext x
    rw [BitVec.mul_add, BitVec.mul_one, ← BitVec.shiftLeft_eq_mul_twoPow]
  rw [hmul]
  exact mul_injective hinv

-- A number that a shift to the right leaves as it is, is zero.
theorem eq_zero_of_shift {z : BitVec w} {r : Nat} (hr : 0 < r) (h : z >>> r = z) : z = 0#w := by
  have hdiv : z.toNat / 2 ^ r = z.toNat := by
    rw [← Nat.shiftRight_eq_div_pow, ← BitVec.toNat_ushiftRight, h]
  apply BitVec.eq_of_toNat_eq
  rw [BitVec.toNat_ofNat, Nat.zero_mod]
  by_contra hne
  have hlt := Nat.div_lt_self (Nat.pos_of_ne_zero hne) (Nat.one_lt_two_pow (by omega : r ≠ 0))
  omega

theorem xor_swap {a b c d : Bool} (h : (a ^^ b) = (c ^^ d)) : (b ^^ d) = (a ^^ c) := by
  revert a b c d
  decide

theorem xorShift_injective {r : Nat} (hr : 0 < r) : Injective fun x : BitVec w => x ^^^ x >>> r := by
  intro x y h
  have hz : (x ^^^ y) >>> r = x ^^^ y := by
    rw [BitVec.ushiftRight_xor_distrib]
    apply BitVec.eq_of_getLsbD_eq
    intro i _
    have hbit := congrArg (BitVec.getLsbD · i) h
    simp only [BitVec.getLsbD_xor] at hbit ⊢
    exact xor_swap hbit
  exact BitVec.xor_eq_zero_iff.mp (eq_zero_of_shift hr hz)

-- x << r | x >> (w - r)
theorem rotl_injective {r : Nat} (hr : r ≤ w) :
    Injective fun x : BitVec w => x <<< r ||| x >>> (w - r) := by
  intro x y h
  apply BitVec.eq_of_getElem_eq
  intro i hi
  by_cases htop : i + r < w
  · -- these bits are moved up, and the others do not reach so far
    have hbit := congrArg (BitVec.getLsbD · (i + r)) h
    simpa [htop, show ¬i + r < r by omega, show w - r + (i + r) = i + w by omega,
      BitVec.getLsbD_of_ge] using hbit
  · have hbit := congrArg (BitVec.getLsbD · (i + r - w)) h
    simpa [show i + r - w < r by omega, show w - r + (i + r - w) = i by omega, hi] using hbit

end Words

section Stream

variable {σ β : Type} {step : σ → β → σ}

-- A step that loses nothing of the state, and nothing of what it takes in.
structure Lossless (step : σ → β → σ) : Prop where
  state : ∀ b, Injective (step · b)
  block : ∀ s, Injective (step s)

theorem Lossless.foldl_injective (h : Lossless step) (bs : List β) : Injective (bs.foldl step ·) := by
  induction bs with
  | nil => exact injective_id
  | cons b bs ih => exact ih.comp (h.state b)

-- A hash by such steps tells lists apart that differ at one place only.
theorem Lossless.foldl_eq (h : Lossless step) {s : σ} {bs bs' : List β} {i : Nat}
    (hlen : bs.length = bs'.length) (hrest : ∀ j, j ≠ i → bs[j]? = bs'[j]?)
    (heq : bs.foldl step s = bs'.foldl step s) : bs = bs' := by
  induction bs generalizing s bs' i with
  | nil => exact (List.length_eq_zero_iff.mp hlen.symm).symm
  | cons b bs ih =>
    cases bs' with
    | nil => cases hlen
    | cons b' bs' =>
      simp only [List.length_cons, Nat.add_right_cancel_iff] at hlen
      rw [List.foldl_cons, List.foldl_cons] at heq
      cases i with
      | zero =>
        have htail : bs = bs' := List.ext_getElem? fun j => hrest (j + 1) (by omega)
        subst htail
        rw [h.block s (h.foldl_injective bs heq)]
      | succ i =>
        have hb : b = b' := by simpa using hrest 0 (by omega)
        subst hb
        have hrest' : ∀ j, j ≠ i → bs[j]? = bs'[j]? :=
          fun j hj => by simpa using hrest (j + 1) (by omega)
        rw [ih hlen hrest' heq]

end Stream

section Bytes

variable {w : Nat}

-- The word that bytes make, the lowest byte first, put together from its highest byte.
def wordFrom (w : Nat) (bytes : List (BitVec 8)) (start : Nat) : BitVec w :=
  match bytes with
  | [] => 0#w
  | b :: bytes => wordFrom w bytes (start + 1) ^^^ b.setWidth w <<< (8 * start)

theorem getLsbD_wordFrom (bytes : List (BitVec 8)) (start : Nat) {i : Nat} (hi : i < w) :
    (wordFrom w bytes start).getLsbD i =
      if 8 * start ≤ i then (bytes[i / 8 - start]?.getD 0#8).getLsbD (i % 8) else false := by
  induction bytes generalizing start with
  | nil => simp [wordFrom]
  | cons b bytes ih =>
    have hb : (b.setWidth w <<< (8 * start)).getLsbD i =
        if 8 * start ≤ i then b.getLsbD (i - 8 * start) else false := by
      by_cases hlow : 8 * start ≤ i
      · simp [hlow, hi, show ¬i < 8 * start by omega]
      · simp [hlow, show i < 8 * start by omega]
    rw [wordFrom, BitVec.getLsbD_xor, ih, hb]
    by_cases hlow : 8 * start ≤ i
    · by_cases hhere : i < 8 * (start + 1)
      · rw [if_neg (by omega), if_pos hlow, if_pos hlow, show i / 8 - start = 0 by omega,
          show i % 8 = i - 8 * start by omega]
        simp
      · rw [if_pos (by omega), if_pos hlow, if_pos hlow, BitVec.getLsbD_of_ge b _ (by omega),
          show i / 8 - start = i / 8 - (start + 1) + 1 by omega, List.getElem?_cons_succ]
        simp
    · rw [if_neg (by omega), if_neg hlow, if_neg hlow]
      rfl

theorem wordFrom_injective {bytes bytes' : List (BitVec 8)} (hlen : bytes.length = bytes'.length)
    (hw : 8 * bytes.length ≤ w) (h : wordFrom w bytes 0 = wordFrom w bytes' 0) : bytes = bytes' := by
  apply List.ext_getElem hlen
  intro n hn hn'
  apply BitVec.eq_of_getLsbD_eq
  intro i hi
  have hbit := congrArg (BitVec.getLsbD · (8 * n + i)) h
  simp only [getLsbD_wordFrom _ 0 (show 8 * n + i < w by omega), Nat.mul_zero, Nat.zero_le, if_true,
    show (8 * n + i) / 8 - 0 = n by omega, show (8 * n + i) % 8 = i by omega,
    List.getElem?_eq_getElem hn, List.getElem?_eq_getElem hn', Option.getD_some] at hbit
  exact hbit

end Bytes

section Chunks

variable {α : Type} {n i : Nat} {key key' : List α}

-- The part of a key between two multiples of the block size.
def chunk (n : Nat) (key : List α) (i : Nat) : List α := (key.drop (n * i)).take n

theorem length_chunk {j : Nat} (hj : j < key.length / n) : (chunk n key j).length = n := by
  have hle : n * (j + 1) ≤ key.length :=
    Nat.le_trans (Nat.mul_le_mul_left n hj) (Nat.mul_div_le key.length n)
  rw [Nat.mul_add_one] at hle
  rw [chunk, List.length_take, List.length_drop]
  omega

-- What is left behind the whole blocks.
theorem chunk_last (hn : 0 < n) : chunk n key (key.length / n) = key.drop (n * (key.length / n)) := by
  have hlt := Nat.lt_mul_div_succ key.length hn
  rw [Nat.mul_add_one] at hlt
  rw [chunk, List.take_of_length_le]
  rw [List.length_drop]
  omega

theorem chunk_eq (hrest : ∀ j, j / n ≠ i → key[j]? = key'[j]?) {j : Nat} (hj : j ≠ i) :
    chunk n key j = chunk n key' j := by
  apply List.ext_getElem?
  intro m
  unfold chunk
  rw [List.getElem?_take, List.getElem?_take, List.getElem?_drop, List.getElem?_drop]
  by_cases hm : m < n
  · have hdiv : (n * j + m) / n = j := by
      rw [Nat.mul_add_div (by omega), Nat.div_eq_of_lt hm, Nat.add_zero]
    rw [hrest _ (by rw [hdiv]; exact hj)]
  · rw [if_neg hm, if_neg hm]

theorem eq_of_chunks (hn : 0 < n) (h : ∀ j, chunk n key j = chunk n key' j) : key = key' := by
  apply List.ext_getElem?
  intro j
  have hj := congrArg (fun part : List α => part[j % n]?) (h (j / n))
  have hlt := Nat.mod_lt j hn
  simp only [chunk, List.getElem?_take, List.getElem?_drop, if_pos hlt, Nat.div_add_mod] at hj
  exact hj

variable {σ τ β : Type} {step : σ → β → σ}

-- A hash that takes in a key block by block, and at last what is left, tells keys of one length apart
-- that differ in one block or in the rest.
theorem Lossless.chunks_eq (hstep : Lossless step) (word : List α → β) (last : σ → List α → τ) (s : σ)
    (hn : 0 < n)
    (hword : ∀ {b b' : List α}, b.length = n → b'.length = n → word b = word b' → b = b')
    (hstate : ∀ {s s' tail}, tail.length < n → last s tail = last s' tail → s = s')
    (htail : ∀ {s tail tail'}, tail.length < n → tail.length = tail'.length →
      last s tail = last s tail' → tail = tail')
    (hlen : key.length = key'.length) (hrest : ∀ j, j / n ≠ i → key[j]? = key'[j]?)
    (h : last (((List.range (key.length / n)).map fun j => word (chunk n key j)).foldl step s)
        (key.drop (n * (key.length / n))) =
      last (((List.range (key'.length / n)).map fun j => word (chunk n key' j)).foldl step s)
        (key'.drop (n * (key'.length / n)))) : key = key' := by
  have hsame : ∀ j, j ≠ i → chunk n key j = chunk n key' j := fun j => chunk_eq hrest
  have hshort : (key.drop (n * (key.length / n))).length < n := by
    have hlt := Nat.lt_mul_div_succ key.length hn
    rw [Nat.mul_add_one] at hlt
    rw [List.length_drop]
    omega
  apply eq_of_chunks hn
  intro j
  by_cases hji : j = i
  · subst hji
    rcases Nat.lt_trichotomy j (key.length / n) with hlt | heq | hgt
    · -- the rests are the same, so that the states before them are
      have hdrop := hsame (key.length / n) (by omega)
      rw [chunk_last hn, hlen, chunk_last hn, ← hlen] at hdrop
      rw [← hlen, ← hdrop] at h
      have hwords := hstep.foldl_eq (i := j) (by simp) ?_ (hstate hshort h)
      · have hj := congrArg (fun words : List β => words[j]?) hwords
        simp only [List.getElem?_map, List.getElem?_range hlt, Option.map_some, Option.some.injEq] at hj
        exact hword (length_chunk hlt) (length_chunk (hlen ▸ hlt)) hj
      · intro m hm
        simp only [List.getElem?_map]
        by_cases hmlt : m < key.length / n
        · rw [List.getElem?_range hmlt, Option.map_some, Option.map_some, hsame m hm]
        · rw [List.getElem?_eq_none (by simpa using hmlt)]
          rfl
    · have hblocks : ((List.range (key.length / n)).map fun m => word (chunk n key m)) =
          (List.range (key.length / n)).map fun m => word (chunk n key' m) := by
        apply List.map_congr_left
        intro m hm
        rw [hsame m (by have := List.mem_range.mp hm; omega)]
      rw [← hlen, hblocks] at h
      rw [heq, chunk_last hn, hlen, chunk_last hn, ← hlen]
      exact htail hshort (by simp [hlen]) h
    · have hnil : ∀ k : List α, k.length = key.length → chunk n k j = [] := by
        intro k hk
        have hle : k.length ≤ n * j := by
          have hlt := Nat.lt_mul_div_succ key.length hn
          have hmul : n * (key.length / n + 1) ≤ n * j := Nat.mul_le_mul_left n hgt
          omega
        rw [chunk, List.drop_of_length_le hle, List.take_nil]
      rw [hnil key rfl, hnil key' hlen.symm]
  · exact hsame j hji

end Chunks

end Mixing

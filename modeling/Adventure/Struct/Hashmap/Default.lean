import Adventure.Library.Mixing
import Adventure.Struct.Hashmap.Theorems
import Adventure.Struct.Trie

namespace Adventure

open Mixing Function

-- strcmp: the difference of the first bytes that differ, one of which may be the NUL at an end.
def strcmp : CStr → CStr → Int
  | [], [] => 0
  | [], b :: _ => -b.toNat
  | a :: _, [] => a.toNat
  | a :: as, b :: bs => if a = b then strcmp as bs else a.toNat - b.toNat

def defaultCompare (a b : CStr) : Int := strcmp a b

-- One turn of the loop of default_hash. A char is signed.
def defaultHashStep (hash : UInt32) (c : UInt8) : UInt32 :=
  let hash := hash + c.toInt8.toInt32.toUInt32
  let hash := hash + hash <<< 10
  hash ^^^ hash >>> 6

-- The loop of default_hash. Its counter is a hash_t, which starts again at 0 behind 2^32 - 1.
def defaultHashFrom (a : CStr) : Nat → UInt32 → UInt32 → Option UInt32
  | 0, _, _ => none
  | steps + 1, i, hash =>
      if i.toNat < a.length then
        defaultHashFrom a steps (i + 1) (defaultHashStep hash (a.getD i.toNat 0))
      else some hash

def defaultHash (a : CStr) : Option UInt32 := do
  let hash ← defaultHashFrom a (a.length + 1) 0 0
  let hash := hash + hash <<< 3
  let hash := hash ^^^ hash >>> 11
  return hash + hash <<< 15

section Hash

variable {a b : CStr} {i : Nat}

-- The turns of the loop on the bits of the hash.
def mixChar (hash : BitVec 32) (c : BitVec 8) : BitVec 32 :=
  let hash := hash + c.signExtend 32
  let hash := hash + hash <<< 10
  hash ^^^ hash >>> 6

theorem defaultHashStep_eq (hash : UInt32) (c : UInt8) :
    (defaultHashStep hash c).toBitVec = mixChar hash.toBitVec c.toBitVec := rfl

theorem mixChar_lossless : Lossless mixChar := by
  have hmix : Injective fun x : BitVec 32 => (x + x <<< 10) ^^^ (x + x <<< 10) >>> 6 :=
    (xorShift_injective (by decide : 0 < 6)).comp
      (addShift_injective (d := 3222273025#32) (by decide))
  constructor
  · intro c
    exact hmix.comp (add_injective (c.signExtend 32))
  · intro hash c c' h
    have hadd : hash + c.signExtend 32 = hash + c'.signExtend 32 := hmix h
    have hext : c.signExtend 32 = c'.signExtend 32 := by
      rw [BitVec.add_comm hash, BitVec.add_comm hash] at hadd
      exact add_injective hash hadd
    apply BitVec.eq_of_getLsbD_eq
    intro j hj
    have hbit := congrArg (BitVec.getLsbD · j) hext
    simp only [BitVec.getLsbD_signExtend, hj, show j < 32 by omega, decide_true, Bool.true_and,
      if_true] at hbit
    exact hbit

theorem foldl_defaultHashStep (a : CStr) (hash : UInt32) :
    (a.foldl defaultHashStep hash).toBitVec = (a.map UInt8.toBitVec).foldl mixChar hash.toBitVec := by
  induction a generalizing hash with
  | nil => rfl
  | cons c a ih =>
    rw [List.foldl_cons, List.map_cons, List.foldl_cons, ih, defaultHashStep_eq]

-- What default_hash does after the loop.
def mixEnd (hash : BitVec 32) : BitVec 32 :=
  let hash := hash + hash <<< 3
  let hash := hash ^^^ hash >>> 11
  hash + hash <<< 15

theorem mixEnd_injective : Injective mixEnd :=
  ((addShift_injective (r := 15) (d := 1073709057#32) (by decide)).comp
    (xorShift_injective (by decide : 0 < 11))).comp
      (addShift_injective (r := 3) (d := 954437177#32) (by decide))

-- The counter does not reach the length of a string of 2^32 bytes or more.
theorem defaultHashFrom_endless (hlong : 2 ^ 32 ≤ a.length) (steps : Nat) (i hash : UInt32) :
    defaultHashFrom a steps i hash = none := by
  induction steps generalizing i hash with
  | zero => rfl
  | succ steps ih =>
    have hi := i.toNat_lt
    rw [defaultHashFrom, if_pos (by omega), ih]

-- The loop goes over the rest of a shorter one.
theorem defaultHashFrom_eq (hlt : a.length < 2 ^ 32) {steps n : Nat} (hn : n ≤ a.length)
    (hsteps : a.length - n < steps) (hash : UInt32) :
    defaultHashFrom a steps (UInt32.ofNat n) hash = some ((a.drop n).foldl defaultHashStep hash) := by
  induction steps generalizing n hash with
  | zero => omega
  | succ steps ih =>
    have htoNat : (UInt32.ofNat n).toNat = n := UInt32.toNat_ofNat_of_lt' (by change n < 2 ^ 32; omega)
    rw [defaultHashFrom, htoNat]
    by_cases hmore : n < a.length
    · rw [if_pos hmore, show UInt32.ofNat n + 1 = UInt32.ofNat (n + 1) from (UInt32.ofNat_add n 1).symm,
        ih hmore (by omega), List.drop_eq_getElem_cons hmore, List.foldl_cons,
        List.getD_eq_getElem a 0 hmore]
    · rw [if_neg hmore, List.drop_eq_nil_of_le (Nat.not_lt.mp hmore)]
      rfl

theorem defaultHash_eq (hlt : a.length < 2 ^ 32) : ∃ hash, defaultHash a = some hash ∧
    hash.toBitVec = mixEnd ((a.map UInt8.toBitVec).foldl mixChar 0#32) := by
  have hloop := defaultHashFrom_eq hlt (Nat.zero_le _) (by omega : a.length - 0 < a.length + 1) 0
  have hbits := foldl_defaultHashStep a 0
  rw [List.drop_zero] at hloop
  rw [defaultHash]
  change defaultHashFrom a (a.length + 1) 0 0 = _ at hloop
  rw [hloop]
  refine ⟨_, rfl, ?_⟩
  change mixEnd (a.foldl defaultHashStep 0).toBitVec = _
  rw [hbits]
  rfl

theorem defaultHash_ends : (defaultHash a).isSome = true ↔ a.length < 2 ^ 32 := by
  constructor
  · intro hsome
    by_contra hlong
    rw [defaultHash, defaultHashFrom_endless (Nat.not_lt.mp hlong)] at hsome
    cases hsome
  · intro hlt
    obtain ⟨hash, h, -⟩ := defaultHash_eq hlt
    rw [h]
    rfl

-- Strings of one length that differ in one byte only have different hashes, if default_hash comes back
-- for them.
theorem defaultHash_one_byte (hlen : a.length = b.length) (hlt : a.length < 2 ^ 32)
    (hrest : ∀ j, j ≠ i → a[j]? = b[j]?) (hne : a ≠ b) :
    ∃ x y, defaultHash a = some x ∧ defaultHash b = some y ∧ x ≠ y := by
  obtain ⟨x, hx, hxbits⟩ := defaultHash_eq hlt
  obtain ⟨y, hy, hybits⟩ := defaultHash_eq (hlen ▸ hlt)
  refine ⟨x, y, hx, hy, fun heq => hne ?_⟩
  have hwords := congrArg UInt32.toBitVec heq
  rw [hxbits, hybits] at hwords
  have hmap : a.map UInt8.toBitVec = b.map UInt8.toBitVec := by
    apply mixChar_lossless.foldl_eq (i := i) (by simpa using hlen) _ (mixEnd_injective hwords)
    intro j hj
    rw [List.getElem?_map, List.getElem?_map, hrest j hj]
  exact List.map_injective_iff.mpr (fun _ _ h => UInt8.toBitVec_inj.mp h) hmap

-- Two bytes of "ab" and "ac".
theorem defaultHash_ab_ac : ∃ x y, defaultHash [97, 98] = some x ∧ defaultHash [97, 99] = some y ∧ x ≠ y := by
  have hrest : ∀ j, j ≠ 1 → ([97, 98] : CStr)[j]? = ([97, 99] : CStr)[j]? := by
    intro j hj
    match j with
    | 0 => rfl
    | j + 2 => rfl
  exact defaultHash_one_byte rfl (by decide) hrest (by decide)

end Hash

section Map

theorem strcmp_eq_zero {a b : CStr} (ha : 0 ∉ a) (hb : 0 ∉ b) : strcmp a b = 0 ↔ a = b := by
  have hbyte : ∀ c : UInt8, c ≠ 0 → (c.toNat : Int) ≠ 0 := by
    intro c hc hzero
    exact hc (UInt8.toNat_inj.mp (Int.ofNat_eq_zero.mp hzero))
  induction a generalizing b with
  | nil =>
    cases b with
    | nil => exact iff_of_true rfl rfl
    | cons c b =>
      have hc := hbyte c (Ne.symm (List.ne_of_not_mem_cons hb))
      exact iff_of_false (by rw [strcmp]; omega) (by simp)
  | cons c a ih =>
    cases b with
    | nil => exact iff_of_false (hbyte c (Ne.symm (List.ne_of_not_mem_cons ha))) (by simp)
    | cons d b =>
      rw [strcmp]
      by_cases hcd : c = d
      · subst hcd
        have hrest := ih (List.not_mem_of_not_mem_cons ha) (List.not_mem_of_not_mem_cons hb)
        rw [if_pos rfl]
        exact hrest.trans (by simp)
      · have hne : c.toNat ≠ d.toNat := fun he => hcd (UInt8.toNat_inj.mp he)
        rw [if_neg hcd]
        exact iff_of_false (by omega) (by simp [hcd])

-- The keys that the default functions are for: strings with no NUL in them, so short that
-- default_hash comes back.
abbrev StringKey := { s : CStr // 0 ∉ s ∧ s.length < 2 ^ 32 }

-- hmap_create(NULL, NULL)
def hmapCreateDefault : Hashmap StringKey :=
  hmapCreate (fun a => (defaultHash a.1).getD 0) fun a b => defaultCompare a.1 b.1

theorem defaultCompare_iff (a b : StringKey) : defaultCompare a.1 b.1 = 0 ↔ a = b :=
  (strcmp_eq_zero a.2.1 b.2.1).trans Subtype.ext_iff.symm

-- The default functions keep what they promise.
theorem default_lawful : hmapCreateDefault.Lawful where
  same := by
    constructor
    · intro a
      exact (defaultCompare_iff a a).mpr rfl
    · intro a b h
      exact (defaultCompare_iff b a).mpr ((defaultCompare_iff a b).mp h).symm
    · intro a b c h h'
      exact (defaultCompare_iff a c).mpr
        (((defaultCompare_iff a b).mp h).trans ((defaultCompare_iff b c).mp h'))
  hash_eq a b h := by rw [(defaultCompare_iff a b).mp h]

end Map

end Adventure

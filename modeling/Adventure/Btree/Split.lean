import Adventure.Btree.Branch

namespace Adventure

open Memory

-- n_keys_left of both splits, for a page with `n` keys whose new child or item comes in at
-- position `j`, and the number of keys that the left page ends up with.
def medianLeft (n j : Nat) : Nat := if n / 2 < j then n / 2 + 1 else n / 2

def medianCut (n j : Nat) : Nat := if j ≤ medianLeft n j then medianLeft n j + 1 else medianLeft n j

theorem medianLeft_lt {n : Nat} (j : Nat) (hn : 3 ≤ n) : 0 < medianLeft n j ∧ medianLeft n j < n := by
  unfold medianLeft
  split <;> omega

-- The median as the code finds it. The words of a leaf begin with a key, so that `c` is 8; those
-- of a branch begin with a child, and `c` is 16.
theorem median_eq {n j c m : Nat} (hm : m = 16 * (n / 2) + c) (hc : c = 8 ∨ c = 16) (hn : 3 ≤ n)
    (hlt : 16 * n < 2 ^ 16) :
    (if 8 + 16 * j > m then (n / 2 + 1, sub32 (n - n / 2) 1, toItem (m + 16))
      else (n / 2, n - n / 2, m)) =
    (medianLeft n j, n - medianLeft n j, 16 * medianLeft n j + c) := by
  unfold medianLeft
  by_cases h : n / 2 < j
  · rw [if_pos (by omega), if_pos h, sub32_eq (by omega) (by omega), toItem_eq (by omega)]
    refine Prod.ext rfl (Prod.ext ?_ ?_)
    · change n - n / 2 - 1 = n - (n / 2 + 1)
      omega
    · change m + 16 = 16 * (n / 2 + 1) + c
      omega
  · rw [if_neg (by omega), if_neg h, hm]

theorem keyGet_eq_mod (key : Nat) : keyGet key = key % 2 ^ 63 :=
  Nat.and_two_pow_sub_one_eq_mod key 63

theorem keyGet_lt (key : Nat) : keyGet key < 2 ^ 63 := by
  rw [keyGet_eq_mod]
  exact Nat.mod_lt _ (Nat.two_pow_pos 63)

theorem keyGet_eq {key : Nat} (h : key < 2 ^ 63) : keyGet key = key := by
  rw [keyGet_eq_mod, Nat.mod_eq_of_lt h]

section Equations

variable {s : Store} {p flags size key val orig split : Nat}

-- btree_leaf_split, with the median written out.
theorem LeafAt.split_eq {before after : List (Nat × Nat)}
    (h : LeafAt s.file.data p flags size (before ++ after))
    (hpos : (before ++ after).findIdx (fun item => decide (key ≤ item.1)) = before.length)
    (hn : 3 ≤ (before ++ after).length) {nl : Nat}
    (hnl : nl = medianLeft (before ++ after).length before.length) :
    btreeLeafSplit s p key val = do
      let left ← storeAlloc s size
      let right ← storeAlloc left.2 size
      return (readUi64 right.2 p (16 * nl + 8), left.1, right.1, storeFree
        (btreeLeafCopyIn (btreeLeafCopyIn right.2 left.1 p nl btStart (16 * nl + 8) (keyGet key) val
          (8 + 16 * before.length)) right.1 p ((before ++ after).length - nl) (16 * nl + 8)
          (8 + 16 * (before ++ after).length) (keyGet key) val (8 + 16 * before.length)) p) := by
  subst hnl
  have hlen := h.length_le
  have hsize := h.page.size_lt
  have hmed := median_eq (n := (before ++ after).length) (j := before.length)
    (m := toItem (16 * ((before ++ after).length / 2) + btStart)) (c := 8)
    (by rw [btStart, BTREE_HEADER_SIZE, toItem_eq (by omega)]) (Or.inl rfl) hn (by omega)
  rw [btreeLeafSplit, h.find_eq, hpos]
  simp only [Option.bind_eq_bind, Option.bind_some, h.page.size_eq, h.page.nkeys_eq, h.end_eq, hmed]

-- btree_branch_split for the child number `j`.
theorem BranchAt.split_eq {row : Row Nat Nat} (h : BranchAt s.file.data p flags size row)
    (hn : 3 ≤ row.seps.length) {j nl : Nat} (hnl : nl = medianLeft row.seps.length j) :
    btreeBranchSplit s p (8 + 16 * j) key orig split = do
      let left ← storeAlloc s size
      let right ← storeAlloc left.2 size
      return (readUi64 right.2 p (16 * nl + 16), left.1, right.1, storeFree
        (btreeBranchCopyUp (btreeBranchCopyUp right.2 left.1 p nl btStart (16 * nl + 16) key orig
          split (8 + 16 * j)) right.1 p (row.seps.length - nl - 1) (toItem (16 * nl + 16 + 8))
          (16 + 16 * row.seps.length) key orig split (8 + 16 * j)) p) := by
  subst hnl
  have hlen := h.length_le
  have hsize := h.page.size_lt
  have hmed := median_eq (n := row.seps.length) (j := j)
    (m := toItem (16 * (row.seps.length / 2) + btStart + 8)) (c := 16)
    (by rw [btStart, BTREE_HEADER_SIZE, toItem_eq (by omega)]) (Or.inr rfl) hn (by omega)
  have hnl := medianLeft_lt j hn
  unfold btreeBranchSplit
  simp only [h.page.size_eq, h.page.nkeys_eq, h.end_eq, hmed,
    sub32_eq (show 1 ≤ row.seps.length - medianLeft row.seps.length j by omega) (by omega)]

end Equations

end Adventure

import Adventure.Btree.Pages
import Adventure.Library.SearchTree.Grow

namespace Adventure

open Memory SearchTree

-- The tree that pages stand for, with page numbers as addresses. A value is found under its key.
abbrev PageTree (h : ℕ) := Tree Nat (Nat × Nat) Nat h

-- The pages of the tree are written out in memory. `root` is the root flag of the topmost page,
-- which no page below it has.
def Holds (m : Memory) : (root : Nat) → {h : ℕ} → PageTree h → Prop
  | root, 0, t => LeafAt m t.addr (BTREE_LEAF ||| root) 64 (Tree.held t)
  | root, _ + 1, t => BranchAt m t.addr root 64 ((Tree.row t).map Tree.addr) ∧
      ∀ kid ∈ (Tree.row t).kids, Holds m 0 kid

def IsRootFlag (root : Nat) : Prop := root = 0 ∨ root = BTREE_ROOT

-- The loops over the children of a branch move on by a child and a separator.
theorem toItem_next (before : List Nat) (child sep : Nat) (h : 8 * before.length + 32 < 2 ^ 16) :
    toItem (8 + 8 * before.length + 8 + 16) = 8 + 8 * (before ++ [child, sep]).length + 8 := by
  rw [toItem_eq (by omega), List.length_append, List.length_cons, List.length_singleton]
  omega

section Flags

variable {s : Store} {p root size : Nat} {items : List (Nat × Nat)} {row : Row Nat Nat}

theorem isLeaf_of_leafAt (h : LeafAt s.file.data p (BTREE_LEAF ||| root) size items)
    (hroot : IsRootFlag root) : isLeaf (pgHeader s p) = true := by
  rw [isLeaf, h.page.flags_eq]
  rcases hroot with rfl | rfl <;> decide

theorem isLeaf_of_branchAt (h : BranchAt s.file.data p root size row) (hroot : IsRootFlag root) :
    isLeaf (pgHeader s p) = false := by
  rw [isLeaf, h.page.flags_eq]
  rcases hroot with rfl | rfl <;> decide

theorem clearRoot_leaf (hroot : IsRootFlag root) :
    clearRoot (BTREE_LEAF ||| root) = BTREE_LEAF ||| 0 := by
  rcases hroot with rfl | rfl <;> decide

theorem clearRoot_branch (hroot : IsRootFlag root) : clearRoot root = 0 := by
  rcases hroot with rfl | rfl <;> decide

end Flags

namespace Holds

variable {m m' : Memory} {root h : ℕ}

theorem congr {t : PageTree h} (ht : Holds m root t) (hs : ∀ p ∈ t.addrs, Same m m' p 64) :
    Holds m' root t := by
  induction h generalizing root with
  | zero => exact LeafAt.congr ht (hs _ t.addr_mem_addrs)
  | succ h ih =>
      refine ⟨ht.1.congr (hs _ t.addr_mem_addrs), fun kid hkid => ih (ht.2 kid hkid) fun p hp => ?_⟩
      exact hs p (Multiset.mem_of_le (Tree.addrs_kid_le hkid) hp)

-- The leaf at which a search ends is written out too.
theorem leafOf {t : PageTree h} (ht : Holds m root t) (hroot : IsRootFlag root) (q : Nat) :
    ∃ root', IsRootFlag root' ∧ Holds m root' (t.leafOf q) := by
  induction h generalizing root with
  | zero => exact ⟨root, hroot, ht⟩
  | succ h ih => exact ih (ht.2 _ (Row.pick_mem q t.row)) (Or.inl rfl)

theorem keeps {s s' : Store} {t : PageTree h} (ht : Holds s.file.data root t)
    (hk : Keeps t.addrs s s') : Holds s'.file.data root t := ht.congr hk

end Holds

-- A tree is less high than the file has bytes, which is how deep the code's recursions go here.
theorem Pool.depth_lt {base : Base} {s : Store} {h : ℕ} (t : PageTree h) {rest : Multiset Nat}
    (hp : Pool base s (t.addrs + rest)) : h < s.file.size := by
  have hc := hp.card_le
  rw [Multiset.card_add] at hc
  exact (t.lt_card_addrs.trans_le (Nat.le_add_right _ _)).trans_le hc

end Adventure

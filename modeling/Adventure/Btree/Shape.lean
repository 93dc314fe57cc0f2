import Adventure.Btree.Insert
import Adventure.Btree.Visit

namespace Adventure

open Memory SearchTree

-- The words of a page as the code reads them: key number `i` of a leaf, child and separator number
-- `i` of a branch.
def leafKey (s : Store) (page i : Nat) : Nat := readUi64 s page (btStart + 16 * i)
def branchChild (s : Store) (page i : Nat) : Nat := readUi64 s page (btStart + 16 * i)
def branchKey (s : Store) (page i : Nat) : Nat := readUi64 s page (btStart + 16 * i + 8)

-- The pages that are reached from a page, with their depth below it.
inductive PageBelow (s : Store) (root : Nat) : Nat → Nat → Prop
  | root : PageBelow s root 0 root
  | child {depth page : Nat} (i : Nat) : PageBelow s root depth page →
      isBranch (pgHeader s page) = true → i ≤ pgNkeys (pgHeader s page) →
      PageBelow s root (depth + 1) (branchChild s page i)

-- The keys of the leaves that are reached from a page.
def KeyBelow (s : Store) (root key : Nat) : Prop :=
  ∃ depth leaf i, PageBelow s root depth leaf ∧ isLeaf (pgHeader s leaf) = true ∧
    i < pgNkeys (pgHeader s leaf) ∧ leafKey s leaf i = key

-- The representation invariant of the tree under a root, in terms of what the code reads.
structure RepInvariant (s : Store) (root : Nat) : Prop where
  -- btree_debug_recur comes to every page, and to none of them twice
  tree : ∃ pages, btreeDebugRecur s root = some pages ∧ (pages.map Prod.fst).Nodup ∧
    ∀ page, page ∈ pages.map Prod.fst ↔ ∃ depth, PageBelow s root depth page
  leaf : ∀ depth page, PageBelow s root depth page → isLeaf (pgHeader s page) = true →
    pgUsed (pgHeader s page) = BTREE_HEADER_SIZE + 16 * pgNkeys (pgHeader s page) ∧
      pgUsed (pgHeader s page) ≤ pgSize (pgHeader s page) ∧
      ∀ i j, i < j → j < pgNkeys (pgHeader s page) → leafKey s page i < leafKey s page j
  branch : ∀ depth page, PageBelow s root depth page → isBranch (pgHeader s page) = true →
    pgUsed (pgHeader s page) = 16 + 16 * pgNkeys (pgHeader s page) ∧
      pgUsed (pgHeader s page) ≤ pgSize (pgHeader s page) ∧
      ∀ i j, i < j → j < pgNkeys (pgHeader s page) → branchKey s page i < branchKey s page j
  between : ∀ depth page, PageBelow s root depth page → isBranch (pgHeader s page) = true →
    ∀ i j key, i < pgNkeys (pgHeader s page) → j ≤ pgNkeys (pgHeader s page) →
      KeyBelow s (branchChild s page j) key →
      (j ≤ i → key < branchKey s page i) ∧ (i < j → branchKey s page i ≤ key)
  level : ∃ height, ∀ depth page, PageBelow s root depth page → isLeaf (pgHeader s page) = true →
    depth = height
  rootFlag : ∀ depth page, PageBelow s root depth page →
    (pgFlags (pgHeader s page) &&& BTREE_ROOT ≠ 0 ↔ page = root)

theorem PageBelow.under {s : Store} {root kid depth page d : Nat} (hk : PageBelow s root d kid)
    (h : PageBelow s kid depth page) : PageBelow s root (d + depth) page := by
  induction h with
  | root => exact hk
  | child i h hb hi ih => exact .child i ih hb hi

section Read

variable {s : Store} {p flags size i : Nat}

theorem LeafAt.key_eq {items : List (Nat × Nat)} (h : LeafAt s.file.data p flags size items)
    (hi : i < items.length) : leafKey s p i = items[i].1 := (h.read_item hi).1

theorem BranchAt.child_eq {row : Row Nat Nat} (h : BranchAt s.file.data p flags size row) {child : Nat}
    (hi : row.kids[i]? = some child) : branchChild s p i = child := by
  obtain ⟨before, after, hf, hl⟩ := Row.flat_of_kids hi
  exact h.read_word before after hf (by rw [btStart, BTREE_HEADER_SIZE, hl]; omega)

theorem BranchAt.key_eq {row : Row Nat Nat} (h : BranchAt s.file.data p flags size row) {sep : Nat}
    (hi : row.seps[i]? = some sep) : branchKey s p i = sep := by
  obtain ⟨before, after, hf, hl⟩ := Row.flat_of_seps hi
  exact h.read_word before after hf (by rw [btStart, BTREE_HEADER_SIZE, hl]; omega)

end Read

-- Every page that the code reaches is the top of a smaller tree, whatever the order of the keys.
theorem PageBelow.sub {s : Store} {h : ℕ} {t : PageTree h} {root : Nat}
    (ht : Holds s.file.data root t) (hroot : IsRootFlag root) {depth page : Nat}
    (hp : PageBelow s t.addr depth page) : ∃ (k : ℕ) (sub : PageTree k) (flag : Nat),
      IsRootFlag flag ∧ sub.addr = page ∧ Holds s.file.data flag sub ∧ sub.addrs ≤ t.addrs ∧
      sub.items ⊆ t.items := by
  induction hp with
  | root => exact ⟨h, t, root, hroot, rfl, ht, le_rfl, List.Subset.refl _⟩
  | @child depth page i hp hb hi ih =>
      rcases ih with ⟨k, sub, flag, hflag, rfl, hholds, hle, hsub⟩
      cases k with
      | zero =>
          rw [isBranch, isLeaf_of_leafAt hholds hflag] at hb
          cases hb
      | succ k =>
          have hbranch : BranchAt s.file.data sub.addr flag 64 (sub.row.map Tree.addr) := hholds.1
          rw [hbranch.page.nkeys_eq, Row.seps_map] at hi
          have hlt : i < sub.row.kids.length := by rw [Row.length_kids]; omega
          have hkid : sub.row.kids[i] ∈ sub.row.kids := List.getElem_mem hlt
          refine ⟨k, sub.row.kids[i], 0, Or.inl rfl, (hbranch.child_eq (by simp [hlt])).symm,
            hholds.2 _ hkid, (Tree.addrs_kid_le hkid).trans hle, fun x hx => hsub ?_⟩
          rw [Tree.items_row, List.mem_flatMap]
          exact ⟨_, hkid, hx⟩

-- Part of a tree, at some depth below its root.
structure Part (s : Store) {h : ℕ} (t : PageTree h) (root depth page : Nat) {k : ℕ}
    (sub : PageTree k) : Prop where
  height : k + depth = h
  addr : sub.addr = page
  holds : Holds s.file.data (if depth = 0 then root else 0) sub
  wellFormed : sub.WellFormed Prod.fst 3 3
  addrs_le : sub.addrs ≤ t.addrs
  addr_eq : depth = 0 → page = t.addr
  notMem : 0 < depth → t.addr ∉ sub.addrs
  items_sub : sub.items ⊆ t.items

theorem isRootFlag_part {root : Nat} (hroot : IsRootFlag root) (depth : Nat) :
    IsRootFlag (if depth = 0 then root else 0) := by
  split
  · exact hroot
  · exact Or.inl rfl

section Part

variable {s : Store} {h : ℕ} {t : PageTree h} {root : Nat}

theorem WellFormed.kid {k : ℕ} {sub : PageTree (k + 1)} (hs : sub.WellFormed Prod.fst 3 3)
    {kid : PageTree k} (hkid : kid ∈ sub.row.kids) :
    kid.WellFormed Prod.fst 3 3 ∧ kid.EveryLeaf (· ≠ []) := by
  have hne := (hs.filled.resolve_left (by omega)) kid hkid
  exact ⟨⟨hs.ordered.2 kid hkid, hs.leaves kid hkid, hs.branches.2 kid hkid, Or.inr hne⟩, hne⟩

theorem WellFormed.kids_keys {k : ℕ} {sub : PageTree (k + 1)} (hs : sub.WellFormed Prod.fst 3 3) :
    ∀ kid ∈ sub.row.kids, kid.keys Prod.fst ≠ [] := by
  intro kid hkid
  rw [Tree.keys, Ne, List.map_eq_nil_iff]
  exact (WellFormed.kid hs hkid).2.items_ne_nil

-- Every page that the code reaches is the root of a part of the tree.
theorem PageBelow.part (ht : Holds s.file.data root t) (hroot : IsRootFlag root)
    (hw : t.WellFormed Prod.fst 3 3) (hnodup : t.addrs.Nodup) {depth page : Nat}
    (hp : PageBelow s t.addr depth page) :
    ∃ (k : ℕ) (sub : PageTree k), Part s t root depth page sub := by
  induction hp with
  | root => exact ⟨h, t, rfl, rfl, ht, hw, le_rfl, fun _ => rfl, fun h => absurd h (by omega),
      List.Subset.refl _⟩
  | @child depth page i hp hb hi ih =>
      rcases ih with ⟨k, sub, hpart⟩
      have hflag := isRootFlag_part hroot depth
      obtain rfl := hpart.addr
      cases k with
      | zero =>
          rw [isBranch, isLeaf_of_leafAt hpart.holds hflag] at hb
          cases hb
      | succ k =>
          have hbranch : BranchAt s.file.data sub.addr _ 64 (sub.row.map Tree.addr) := hpart.holds.1
          rw [hbranch.page.nkeys_eq, Row.seps_map] at hi
          have hlt : i < sub.row.kids.length := by rw [Row.length_kids]; omega
          have hkid : sub.row.kids[i] ∈ sub.row.kids := List.getElem_mem hlt
          have hread : branchChild s sub.addr i = (sub.row.kids[i]).addr :=
            hbranch.child_eq (by simp [hlt])
          have hsum : (sub.row.kids[i]).addrs ≤ (sub.row.kids.map Tree.addrs).sum :=
            List.single_le_sum (fun m _ => Multiset.zero_le m) _ (List.mem_map_of_mem hkid)
          refine ⟨k, sub.row.kids[i], by have := hpart.height; omega, hread.symm, ?_,
            (WellFormed.kid hpart.wellFormed hkid).1, (Tree.addrs_kid_le hkid).trans hpart.addrs_le,
            fun h => absurd h (Nat.succ_ne_zero _), fun _ hm => ?_, fun x hx => hpart.items_sub ?_⟩
          · rw [if_neg (Nat.succ_ne_zero _)]
            exact hpart.holds.2 _ hkid
          · -- the root's own page lies above its kids, and in no other part
            rcases Nat.eq_zero_or_pos depth with rfl | hpos
            · have hn := Multiset.nodup_of_le hpart.addrs_le hnodup
              rw [Tree.addrs_row, Multiset.nodup_cons, hpart.addr_eq rfl] at hn
              exact hn.1 (Multiset.mem_of_le hsum hm)
            · exact hpart.notMem hpos (Multiset.mem_of_le (Tree.addrs_kid_le hkid) hm)
          · rw [Tree.items_row, List.mem_flatMap]
            exact ⟨_, hkid, hx⟩

-- The other way round: every page of the tree is reached.
theorem exists_pageBelow (ht : Holds s.file.data root t) (hroot : IsRootFlag root) {page : Nat}
    (hp : page ∈ t.addrs) : ∃ depth, PageBelow s t.addr depth page := by
  induction h generalizing root with
  | zero =>
      rw [Tree.addrs_leaf, Multiset.mem_singleton] at hp
      exact ⟨0, hp ▸ .root⟩
  | succ h ih =>
      rcases Tree.mem_addrs_row.mp hp with rfl | ⟨kid, hkid, hp⟩
      · exact ⟨0, .root⟩
      · have hbranch : BranchAt s.file.data t.addr root 64 (t.row.map Tree.addr) := ht.1
        obtain ⟨i, hi, rfl⟩ := List.getElem_of_mem hkid
        have hread : branchChild s t.addr i = (t.row.kids[i]).addr :=
          hbranch.child_eq (by simp [hi])
        obtain ⟨depth, hd⟩ := ih (ht.2 _ hkid) (Or.inl rfl) hp
        rw [← hread] at hd
        rw [Row.length_kids] at hi
        refine ⟨0 + 1 + depth, PageBelow.under (.child i .root ?_ ?_) hd⟩
        · rw [isBranch, isLeaf_of_branchAt hbranch hroot]
          rfl
        · rw [hbranch.page.nkeys_eq, Row.seps_map]
          omega

-- What is read as a key below the root is a key of the tree.
theorem KeyBelow.mem_keys {key : Nat} (hkey : KeyBelow s t.addr key) (ht : Holds s.file.data root t)
    (hroot : IsRootFlag root) (hw : t.WellFormed Prod.fst 3 3) (hnodup : t.addrs.Nodup) :
    key ∈ t.keys Prod.fst := by
  obtain ⟨depth, leaf, i, hp, hl, hi, rfl⟩ := hkey
  obtain ⟨k, sub, hpart⟩ := hp.part ht hroot hw hnodup
  have hflag := isRootFlag_part hroot depth
  obtain rfl := hpart.addr
  cases k with
  | zero =>
      have hleaf : LeafAt s.file.data sub.addr _ 64 sub.held := hpart.holds
      rw [hleaf.page.nkeys_eq] at hi
      rw [hleaf.key_eq hi]
      exact List.mem_map_of_mem (hpart.items_sub (List.getElem_mem hi))
  | succ k =>
      rw [isLeaf_of_branchAt hpart.holds.1 hflag] at hl
      cases hl

end Part

section Rooted

variable {s : Store} {h : ℕ} {t : PageTree h} {added : Multiset (Nat × Nat)} {depth page : Nat}

-- What is a leaf for the code is a leaf of the tree, and what is a branch is a branch.
theorem Rooted.leaf_part (ht : Rooted s t added) (hnodup : t.addrs.Nodup)
    (hp : PageBelow s t.addr depth page) (hl : isLeaf (pgHeader s page) = true) :
    ∃ sub : PageTree 0, Part s t BTREE_ROOT depth page sub := by
  obtain ⟨k, sub, hpart⟩ := hp.part ht.holds (Or.inr rfl) ht.wellFormed hnodup
  cases k with
  | zero => exact ⟨sub, hpart⟩
  | succ k =>
      rw [← hpart.addr, isLeaf_of_branchAt hpart.holds.1 (isRootFlag_part (Or.inr rfl) depth)] at hl
      cases hl

theorem Rooted.branch_part (ht : Rooted s t added) (hnodup : t.addrs.Nodup)
    (hp : PageBelow s t.addr depth page) (hb : isBranch (pgHeader s page) = true) :
    ∃ (k : ℕ) (sub : PageTree (k + 1)), Part s t BTREE_ROOT depth page sub := by
  obtain ⟨k, sub, hpart⟩ := hp.part ht.holds (Or.inr rfl) ht.wellFormed hnodup
  cases k with
  | zero =>
      rw [isBranch, ← hpart.addr, isLeaf_of_leafAt hpart.holds (isRootFlag_part (Or.inr rfl) depth)]
        at hb
      cases hb
  | succ k => exact ⟨k, sub, hpart⟩

-- The pages of the tree are those that the code reaches.
theorem Rooted.mem_addrs (ht : Rooted s t added) (hnodup : t.addrs.Nodup) (page : Nat) :
    page ∈ t.addrs ↔ ∃ depth, PageBelow s t.addr depth page := by
  refine ⟨exists_pageBelow ht.holds (Or.inr rfl), fun ⟨depth, hp⟩ => ?_⟩
  obtain ⟨k, sub, hpart⟩ := hp.part ht.holds (Or.inr rfl) ht.wellFormed hnodup
  exact hpart.addr ▸ Multiset.mem_of_le hpart.addrs_le sub.addr_mem_addrs

theorem Rooted.repInvariant (ht : Rooted s t added) (hnodup : t.addrs.Nodup)
    (hdepth : h < s.file.size) : RepInvariant s t.addr where
  tree := by
    refine ⟨visited t, btreeDebugFrom_eq ht.holds (Or.inr rfl) hdepth, ?_, fun page => ?_⟩
    · rw [← Multiset.coe_nodup, visited_addrs]
      exact hnodup
    · rw [← Multiset.mem_coe, visited_addrs]
      exact ht.mem_addrs hnodup page
  leaf depth page hp hl := by
    obtain ⟨sub, hpart⟩ := ht.leaf_part hnodup hp hl
    obtain rfl := hpart.addr
    have hleaf : LeafAt s.file.data sub.addr _ 64 sub.held := hpart.holds
    have hord := hpart.wellFormed.ordered
    rw [Tree.ordered_leaf, List.pairwise_map, List.pairwise_iff_getElem] at hord
    rw [hleaf.used_eq, hleaf.page.nkeys_eq, hleaf.page.size_eq]
    refine ⟨rfl, hleaf.length_le, fun i j hij hj => ?_⟩
    rw [hleaf.key_eq (hij.trans hj), hleaf.key_eq hj]
    exact hord i j (hij.trans hj) hj hij
  branch depth page hp hb := by
    obtain ⟨k, sub, hpart⟩ := ht.branch_part hnodup hp hb
    obtain rfl := hpart.addr
    have hbranch : BranchAt s.file.data sub.addr _ 64 (sub.row.map Tree.addr) := hpart.holds.1
    have hne := WellFormed.kids_keys hpart.wellFormed
    have hseps := (hpart.wellFormed.ordered.1.pairwise_seps hne).1
    rw [List.pairwise_iff_getElem] at hseps
    have hlen := hbranch.length_le
    rw [hbranch.used_eq, hbranch.page.nkeys_eq, hbranch.page.size_eq, Row.seps_map]
    rw [Row.seps_map] at hlen
    refine ⟨rfl, hlen, fun i j hij hj => ?_⟩
    rw [hbranch.key_eq (show _ = some sub.row.seps[i] by simp [hij.trans hj]),
      hbranch.key_eq (show _ = some sub.row.seps[j] by simp [hj])]
    exact hseps i j (hij.trans hj) hj hij
  between depth page hp hb i j key hi hj hkey := by
    obtain ⟨k, sub, hpart⟩ := ht.branch_part hnodup hp hb
    obtain rfl := hpart.addr
    have hbranch : BranchAt s.file.data sub.addr _ 64 (sub.row.map Tree.addr) := hpart.holds.1
    have hne := WellFormed.kids_keys hpart.wellFormed
    rw [hbranch.page.nkeys_eq, Row.seps_map] at hi hj
    have hjlt : j < sub.row.kids.length := by rw [Row.length_kids]; omega
    have hread : branchChild s sub.addr j = (sub.row.kids[j]).addr :=
      hbranch.child_eq (by simp [hjlt])
    have hkid : sub.row.kids[j] ∈ sub.row.kids := List.getElem_mem hjlt
    rw [hread] at hkey
    rw [hbranch.key_eq (show _ = some sub.row.seps[i] by simp [hi])]
    have hm : key ∈ (sub.row.kids[j]).keys Prod.fst :=
      hkey.mem_keys (hpart.holds.2 _ hkid) (Or.inl rfl) (WellFormed.kid hpart.wellFormed hkid).1
        (Multiset.nodup_of_le ((Tree.addrs_kid_le hkid).trans hpart.addrs_le) hnodup)
    exact hpart.wellFormed.ordered.1.between hne (List.getElem?_eq_getElem hjlt)
      (List.getElem?_eq_getElem hi) hm
  level := ⟨h, fun depth page hp hl => by
    obtain ⟨sub, hpart⟩ := ht.leaf_part hnodup hp hl
    have := hpart.height
    omega⟩
  rootFlag depth page hp := by
    obtain ⟨k, sub, hpart⟩ := hp.part ht.holds (Or.inr rfl) ht.wellFormed hnodup
    have hflag : pgFlags (pgHeader s page) &&& BTREE_ROOT = if depth = 0 then 1 else 0 := by
      obtain rfl := hpart.addr
      cases k with
      | zero =>
          have hleaf : LeafAt s.file.data sub.addr _ 64 sub.held := hpart.holds
          rw [hleaf.page.flags_eq]
          split <;> decide
      | succ k =>
          rw [hpart.holds.1.page.flags_eq]
          split <;> decide
    rw [hflag]
    rcases Nat.eq_zero_or_pos depth with rfl | hpos
    · simp [hpart.addr_eq rfl]
    · rw [if_neg (by omega)]
      refine iff_of_false (by simp) fun he => hpart.notMem hpos ?_
      rw [← he, ← hpart.addr]
      exact sub.addr_mem_addrs

end Rooted

end Adventure

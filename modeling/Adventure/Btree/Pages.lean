import Adventure.Btree.Split
import Adventure.Store.Pool

namespace Adventure

open Memory Ends

-- The pages of a tree in a pool of 64-byte pages. Each function below takes a page out of the
-- pool, puts its copies in and leaves the pages in `live` alone.

variable {base : Base} {s : Store} {live : Multiset Nat} {p flags : Nat}

section Branch

theorem branchAdd_meets {row : Row Nat Nat} {g : Growth Nat Nat} {key mid orig split : Nat}
    (hp : Pool base s (p ::ₘ live)) (hb : BranchAt s.file.data p flags 64 row)
    (hg : Returned mid orig split g) (hwords : ∀ w ∈ g.flat, w < 2 ^ 64)
    (hfit : (row.graft key g).seps.length ≤ 3) :
    Meets (btreeBranchAdd s p (8 + 16 * row.index key) mid orig split) (¬s.Growable 64) fun r =>
      r.1 ≠ 0 ∧ Pool base r.2 (r.1 ::ₘ live) ∧ Keeps live s r.2 ∧ Spent s r.2 64 ∧
        BranchAt r.2.file.data r.1 flags 64 (row.graft key g) := by
  obtain ⟨before, after, hf, hl, hgraft⟩ := row.flat_graft key
  have hlen := hb.length_le
  have hroom : ¬(split ≠ 0 ∧ pgFree (pgHeader s p) < 16) := by
    rw [hb.free_eq]
    cases g with
    | one child => simp [hg.2]
    | two left sep right =>
        rw [Row.length_seps_graft_two] at hfit
        omega
  unfold btreeBranchAdd
  simp only [if_neg hroom, hb.page.size_eq]
  apply Meets.bind hp.alloc_meets
  rintro ⟨d, s₁⟩ ⟨hp₁, hk₁, ha⟩
  have hb₁ := hb.congr (hk₁ p (Multiset.mem_cons_self _ _))
  have hdp := hp₁.apart_of_cons (Multiset.mem_cons_self p live)
  obtain ⟨data, he, ho, hbd⟩ := hb₁.add_copy hf (hgraft g) (d := d) (by omega)
    (by have := hp₁.bounds (p := d) (by simp); omega) (by omega) hg hwords
    (show 8 + 16 * row.index key = 8 + 8 * before.length by omega) rfl rfl
  simp only at he
  rw [hb.page.flags_eq, hb.page.nkeys_eq, hb.end_eq, hb.used_eq, he]
  obtain ⟨hne, hp₂, hk₂⟩ := hp₁.replaced ho
  exact Meets.pure ⟨hne, hp₂, (hk₁.mono (Multiset.subset_cons _ _)).trans hk₂,
    (ha.spent.setData data).free p, hbd⟩

theorem branchAdd_full {row : Row Nat Nat} {mid orig split : Nat} {left sep right : Nat}
    (hb : BranchAt s.file.data p flags 64 row) (hg : Returned mid orig split (.two left sep right))
    (hfull : row.seps.length = 3) (idx : Nat) :
    btreeBranchAdd s p idx mid orig split = some (0, s) := by
  have hroom : split ≠ 0 ∧ pgFree (pgHeader s p) < 16 := ⟨hg.2.2.2, by rw [hb.free_eq]; omega⟩
  simp only [btreeBranchAdd, if_pos hroom]
  rfl

theorem branchSplit_meets {row : Row Nat Nat} {left sep right : Nat} (key : Nat) {mid orig split : Nat}
    (hp : Pool base s (p ::ₘ live)) (hb : BranchAt s.file.data p flags 64 row)
    (hg : Returned mid orig split (.two left sep right))
    (hwords : ∀ w ∈ [left, sep, right], w < 2 ^ 64) (hfull : row.seps.length = 3) :
    Meets (btreeBranchSplit s p (8 + 16 * row.index key) mid orig split) (¬s.Growable 128)
      fun r => ∃ l r', Pool base r.2.2.2 (r.2.1 ::ₘ r.2.2.1 ::ₘ live) ∧ Keeps live s r.2.2.2 ∧
        Spent s r.2.2.2 128 ∧ r.1 < 2 ^ 64 ∧ row.graft key (.two left sep right) = l.join r.1 r' ∧
        l.seps.length = medianCut row.seps.length (row.index key) ∧
        BranchAt r.2.2.2.file.data r.2.1 (clearRoot flags) 64 l ∧
        BranchAt r.2.2.2.file.data r.2.2.1 (clearRoot flags) 64 r' := by
  obtain ⟨before, after, hf, hl, hgraft⟩ := row.flat_graft key
  obtain ⟨rfl, rfl, rfl, -⟩ := hg
  have hlen := hb.length_le
  have hnl := medianLeft_lt (row.index key) hfull.ge
  rw [hb.split_eq hfull.ge rfl]
  apply hp.alloc_two_meets
  intro d d' s₁ s₂ hp₂ hk₂ hspent
  have hb₂ := hb.congr (hk₂ p (Multiset.mem_cons_self _ _))
  obtain ⟨hd, hd', hdd, hdlt, hdlt'⟩ := hp₂.two_apart
  obtain ⟨l, m, r, data₁, data, he₁, he, ho₁, ho, hj, hc, hr, hb₁, hb₂⟩ :=
    hb₂.split_at hf (hgraft (.two orig mid split)) hd hdlt hd' hdlt' hdd hwords hl
      hnl.1 hnl.2 rfl (m := 16 * medianLeft row.seps.length (row.index key) + 16)
      (by omega) rfl (i := 8 + 16 * row.index key) (by omega)
  rw [hr, he₁, he]
  obtain ⟨hp₃, hk₃⟩ := hp₂.replaced_two ho₁ ho
  have hm : m < 2 ^ 64 := hr ▸ readUi64_lt _ _ _
  exact Meets.pure ⟨l, r, hp₃, (hk₂.mono (Multiset.subset_cons _ _)).trans hk₃,
    (hspent.setData _).free p, hm, hj, hc, hb₁, hb₂⟩

end Branch

section Leaf

variable {before after : List (Nat × Nat)} {key val : Nat}

-- Where the search does not stop at an item for the key, btree_leaf_add goes past the test for a
-- duplicate.
theorem not_dup (hl : LeafAt s.file.data p flags 64 (before ++ after))
    (hfresh : ∀ item ∈ after.head?, keyGet item.1 ≠ key) :
    ¬(8 + 16 * before.length < pgEnd (pgHeader s p) ∧
      keyGet (readUi64 s p (8 + 16 * before.length)) = key) := by
  rintro ⟨hlt, hkey⟩
  rw [hl.end_eq, List.length_append] at hlt
  cases after with
  | nil => simp at hlt
  | cons item after =>
      rw [(LeafAt.read_words before after hl).1] at hkey
      exact hfresh item (by simp) hkey

theorem leafAdd_meets (hp : Pool base s (p ::ₘ live))
    (hl : LeafAt s.file.data p flags 64 (before ++ after))
    (hpos : (before ++ after).findIdx (fun item => decide (key ≤ item.1)) = before.length)
    (hfresh : ∀ item ∈ after.head?, keyGet item.1 ≠ key) (hkey : key < 2 ^ 64)
    (hval : val < 2 ^ 64) (hroom : (before ++ after).length < 3) :
    Meets (btreeLeafAdd s p key val) (¬s.Growable 64) fun r =>
      r.1 ≠ 0 ∧ Pool base r.2 (r.1 ::ₘ live) ∧ Keeps live s r.2 ∧ Spent s r.2 64 ∧
        LeafAt r.2.file.data r.1 flags 64 (before ++ (key, val) :: after) := by
  have hfree : ¬pgFree (pgHeader s p) < 16 := by
    rw [hl.free_eq]
    omega
  rw [btreeLeafAdd, hl.find_eq, hpos]
  simp only [Option.bind_eq_bind, Option.bind_some, if_neg (not_dup hl hfresh), if_neg hfree,
    hl.page.size_eq]
  apply Meets.bind hp.alloc_meets
  rintro ⟨d, s₁⟩ ⟨hp₁, hk₁, ha⟩
  have hl₁ := hl.congr (hk₁ p (Multiset.mem_cons_self _ _))
  have hdp := hp₁.apart_of_cons (Multiset.mem_cons_self p live)
  have hbd := hp₁.bounds (p := d) (by simp)
  obtain ⟨data, he, ho, hld⟩ := hl₁.add_copy (d := d) hdp (by omega) (by omega) hkey hval
    (i := 8 + 16 * before.length) rfl rfl
    (show 8 + 16 * (before ++ after).length + 16 = 8 + 16 * ((before ++ after).length + 1) by omega)
    rfl
  rw [hl.page.flags_eq, hl.page.nkeys_eq, hl.end_eq, hl.used_eq, he]
  obtain ⟨hne, hp₂, hk₂⟩ := hp₁.replaced ho
  exact Meets.pure ⟨hne, hp₂, (hk₁.mono (Multiset.subset_cons _ _)).trans hk₂,
    (ha.spent.setData data).free p, hld⟩

theorem leafAdd_full (hl : LeafAt s.file.data p flags 64 (before ++ after))
    (hpos : (before ++ after).findIdx (fun item => decide (key ≤ item.1)) = before.length)
    (hfresh : ∀ item ∈ after.head?, keyGet item.1 ≠ key)
    (hfull : (before ++ after).length = 3) : btreeLeafAdd s p key val = some (0, s) := by
  have hfree : pgFree (pgHeader s p) < 16 := by
    rw [hl.free_eq]
    omega
  rw [btreeLeafAdd, hl.find_eq, hpos]
  simp only [Option.bind_eq_bind, Option.bind_some, if_neg (not_dup hl hfresh), if_pos hfree]
  rfl

theorem leafSplit_meets (hp : Pool base s (p ::ₘ live))
    (hl : LeafAt s.file.data p flags 64 (before ++ after))
    (hpos : (before ++ after).findIdx (fun item => decide (key ≤ item.1)) = before.length)
    (hval : val < 2 ^ 64) (hfull : (before ++ after).length = 3) :
    Meets (btreeLeafSplit s p key val) (¬s.Growable 128) fun r => ∃ left item rest,
      Pool base r.2.2.2 (r.2.1 ::ₘ r.2.2.1 ::ₘ live) ∧ Keeps live s r.2.2.2 ∧
        Spent s r.2.2.2 128 ∧ before ++ (keyGet key, val) :: after = left ++ item :: rest ∧
        left.length = medianCut (before ++ after).length before.length ∧ r.1 = item.1 ∧
        r.1 < 2 ^ 64 ∧
        LeafAt r.2.2.2.file.data r.2.1 (clearRoot flags) 64 left ∧
        LeafAt r.2.2.2.file.data r.2.2.1 (clearRoot flags) 64 (item :: rest) := by
  have hnl := medianLeft_lt before.length hfull.ge
  have hkey := keyGet_lt key
  rw [hl.split_eq hpos hfull.ge rfl]
  apply hp.alloc_two_meets
  intro d d' s₁ s₂ hp₂ hk₂ hspent
  have hl₂ := hl.congr (hk₂ p (Multiset.mem_cons_self _ _))
  obtain ⟨hd, hd', hdd, hdlt, hdlt'⟩ := hp₂.two_apart
  obtain ⟨left, item, rest, data₁, data, he₁, he, ho₁, ho, hj, hc, hr, hl₁, hl₂⟩ :=
    hl₂.split_at hd hdlt hd' hdlt' hdd (show keyGet key < 2 ^ 64 by omega) hval hnl.1 hnl.2 rfl
      (m := 16 * medianLeft (before ++ after).length before.length + 8) (by omega) rfl
      (i := 8 + 16 * before.length) rfl
  rw [hr, he₁, he]
  obtain ⟨hp₃, hk₃⟩ := hp₂.replaced_two ho₁ ho
  have hm : item.1 < 2 ^ 64 := hr ▸ readUi64_lt _ _ _
  exact Meets.pure ⟨left, item, rest, hp₃, (hk₂.mono (Multiset.subset_cons _ _)).trans hk₃,
    (hspent.setData _).free p, hj, hc, rfl, hm, hl₁, hl₂⟩

end Leaf

-- The new root over two pages of a split root.
theorem rootCreate_meets {mid orig split : Nat} (hp : Pool base s live)
    (hwords : ∀ w ∈ [orig, mid, split], w < 2 ^ 64) :
    Meets (btreeRootCreate s mid orig split) (¬s.Growable 64) fun r =>
      Pool base r.2 (r.1 ::ₘ live) ∧ Keeps live s r.2 ∧ Spent s r.2 64 ∧
        BranchAt r.2.file.data r.1 BTREE_ROOT 64 (.cons orig mid (.last split)) := by
  unfold btreeRootCreate
  apply Meets.bind hp.alloc_meets
  rintro ⟨d, s₁⟩ ⟨hp₁, hk₁, ha⟩
  have hbd := hp₁.bounds (p := d) (by simp)
  simp only [BTREE_HEADER_SIZE, BTREE_DEF_PAGE_SIZE, BTREE_ROOT]
  rw [btreeHdrWrite_eq _ (by omega), writeUi64_eq _ _ (by omega) (by omega),
    writeUi64_eq _ _ (by omega) (by omega), writeUi64_eq _ _ (by omega) (by omega)]
  simp only [setData_setData, setData_data]
  have hhdr := setWord_only s₁.file.data d (hdrWord 1 64 1 (8 + 24))
  have hf := (((Filled.nil (s₁.file.data.setWord d (hdrWord 1 64 1 (8 + 24))) (d + 8) 0 (64 - 8)).push
    (hwords orig (by simp)) (q := d + 8) rfl (by simp)).push (hwords mid (by simp))
    (q := d + (8 + 8)) rfl (by simp)).push (hwords split (by simp)) (q := d + (8 + 16)) rfl (by simp)
  have hb := pageAt_of_filled_after (n := 1) hf ((word_setWord _ _ _).trans
    (Nat.mod_eq_of_lt (hdrWord_lt _ _ _ _))) (by omega) (show 64 < 2 ^ 16 by omega) (by simp) (by omega)
    (by omega) (by omega) rfl
  obtain ⟨hp₂, hk₂⟩ := hp₁.written
    ((hhdr.mono le_rfl (by omega)).trans (hf.only.mono (by omega) (by omega)))
  exact Meets.pure ⟨hp₂, hk₁.trans hk₂, ha.spent.setData _, hb⟩

theorem create_meets (hp : Pool base s live) :
    Meets (btreeCreate s) (¬s.Growable 64) fun r =>
      Pool base r.2 (r.1 ::ₘ live) ∧ Keeps live s r.2 ∧ Spent s r.2 64 ∧
        LeafAt r.2.file.data r.1 (BTREE_LEAF ||| BTREE_ROOT) 64 [] := by
  unfold btreeCreate
  apply Meets.bind hp.alloc_meets
  rintro ⟨d, s₁⟩ ⟨hp₁, hk₁, ha⟩
  have hbd := hp₁.bounds (p := d) (by simp)
  simp only [btreeHdrWrite_eq s₁ (show d < 2 ^ 63 by omega)]
  obtain ⟨ho, hl⟩ := leafAt_of_filled (Filled.nil s₁.file.data d 8 BTREE_DEF_PAGE_SIZE)
    (show BTREE_LEAF ||| BTREE_ROOT < 2 ^ 8 by decide) (by decide)
    (show 8 + 16 * ([] : List (Nat × Nat)).length ≤ BTREE_DEF_PAGE_SIZE by decide)
    (by rw [BTREE_DEF_PAGE_SIZE]; omega) rfl (show BTREE_HEADER_SIZE = 0 * 16 + 8 by decide)
  obtain ⟨hp₂, hk₂⟩ := hp₁.written ho
  exact Meets.pure ⟨hp₂, hk₁.trans hk₂, ha.spent.setData _, hl⟩

end Adventure

import Adventure.Btree.Split
import Adventure.Store.Regions
import Mathlib.Data.List.Sort

namespace Adventure

open Memory Slots

def BTREE_MIN_PAGE_SIZE : Nat := 64

-- Two fresh pages that store_alloc hands out, one after the other, for the split of the page at `p`.
structure SplitPages (s s' : Store) (p d d' size : Nat) : Prop where
  sound : s.Sound
  allocs : ∃ s₁, storeAlloc s size = some (d, s₁) ∧ storeAlloc s₁ size = some (d', s')
  apart : [(d', size), (d, size), (p, size)].Pairwise Apart
  inside : ∀ page ∈ [d', d, p], STORE_HEADER_SIZE ≤ page ∧ page + size ≤ s'.endPos
  old_le : p + size ≤ s.endPos

namespace SplitPages

variable {s s' : Store} {p d d' size : Nat}

theorem same (h : SplitPages s s' p d d' size) : Same s.file.data s'.file.data p size := by
  obtain ⟨s₁, h₁, h₂⟩ := h.allocs
  have ha₁ := (storeAlloc_meets h.sound size).of_eq_some h₁
  have ha₂ := (storeAlloc_meets (ha₁.sound h.sound) size).of_eq_some h₂
  have hp := (h.inside p (by simp)).1
  have hold := h.old_le
  have hend := h.sound.end_le
  have hsize := ha₁.size_le
  rw [STORE_HEADER_SIZE] at hp
  exact (ha₁.same (by omega) (by omega)).trans (ha₂.same (by omega) (by omega))

theorem bounds (h : SplitPages s s' p d d' size) : (d + size ≤ p ∨ p + size ≤ d) ∧
    (d' + size ≤ p ∨ p + size ≤ d') ∧ (d + size ≤ d' ∨ d' + size ≤ d) ∧ d + size < 2 ^ 63 ∧
    d' + size < 2 ^ 63 := by
  obtain ⟨s₁, h₁, h₂⟩ := h.allocs
  have hs₁ := ((storeAlloc_meets h.sound size).of_eq_some h₁).sound h.sound
  have hs' : s'.Sound := ((storeAlloc_meets hs₁ size).of_eq_some h₂).sound hs₁
  have hend := hs'.end_le
  have hlt := hs'.size_lt
  have hd := (h.inside d (by simp)).2
  have hd' := (h.inside d' (by simp)).2
  have hapart := h.apart
  simp only [List.pairwise_cons, List.forall_mem_cons, List.not_mem_nil, false_implies, implies_true,
    and_true, Apart, List.Pairwise.nil] at hapart
  omega

-- Two pages above the one that is split, the second above the first.
theorem of_le {s₁ : Store} (hs : s.Sound) (ha₁ : storeAlloc s size = some (d, s₁))
    (ha₂ : storeAlloc s₁ size = some (d', s')) (hp : STORE_HEADER_SIZE ≤ p) (hold : p + size ≤ s.endPos)
    (hpd : p + size ≤ d) (hdd : d + size ≤ d') (hend : d' + size ≤ s'.endPos) :
    SplitPages s s' p d d' size := by
  refine ⟨hs, ⟨s₁, ha₁, ha₂⟩, ?_, ?_, hold⟩
  · simp only [List.pairwise_cons, List.forall_mem_cons, List.not_mem_nil, false_implies, implies_true,
      and_true, Apart, List.Pairwise.nil]
    omega
  · simp only [List.forall_mem_cons, List.not_mem_nil, false_implies, implies_true, and_true]
    omega

end SplitPages

-- The pages that a caller of store_alloc gets in a store whose reused pages are long enough.
theorem Regions.Kept.splitPages {r r₁ r₂ : Regions} {p size : Nat} (hk : Kept r)
    (hp : (p, size) ∈ r.held) (hfits₁ : r.Fits (.alloc size)) (hstep₁ : r.step (.alloc size) = some r₁)
    (hfits₂ : r₁.Fits (.alloc size)) (hstep₂ : r₁.step (.alloc size) = some r₂) :
    ∃ d d', SplitPages r.store r₂.store p d d' size ∧
      r₂.held = (d', size) :: (d, size) :: r.held := by
  have hk₂ := ((hk.step hfits₁ hstep₁).1.step hfits₂ hstep₂).1
  obtain ⟨free, -, hl⟩ := hk.layout
  obtain ⟨free₂, -, hl₂⟩ := hk₂.layout
  simp only [Regions.step, Option.bind_eq_bind, Option.bind_eq_some_iff, Option.pure_def,
    Option.some.injEq] at hstep₁ hstep₂
  obtain ⟨⟨d, s₁⟩, ha₁, rfl⟩ := hstep₁
  obtain ⟨⟨d', s₂⟩, ha₂, rfl⟩ := hstep₂
  refine ⟨d, d', ⟨hk.sound, ⟨s₁, ha₁, ha₂⟩, ?_, ?_, ?_⟩, rfl⟩
  · have hapart := hl₂.used_apart
    simp only [List.pairwise_cons, List.forall_mem_cons] at hapart ⊢
    obtain ⟨⟨hdd, hd'⟩, hd, -⟩ := hapart
    exact ⟨⟨hdd, hd' _ hp, by simp⟩, ⟨hd _ hp, by simp⟩, by simp⟩
  · have hin := hl₂.used_inside hk₂.inside
    simp only [List.forall_mem_cons] at hin ⊢
    obtain ⟨hd', hd, hold⟩ := hin
    exact ⟨hd', hd, hold _ hp, by simp⟩
  · exact (hl.used_inside hk.inside _ hp).2

section Leaf

variable {before after : List (Nat × Nat)} {key val : Nat}

theorem orderedInsert_cut (hb : ∀ x ∈ before, x.1 < key) (ha : ∀ x ∈ after, key ≤ x.1) :
    (before ++ after).orderedInsert (fun x y => x.1 ≤ y.1) (key, val) =
      before ++ (key, val) :: after := by
  induction before with
  | nil =>
      cases after with
      | nil => rfl
      | cons x after =>
          rw [List.nil_append, List.orderedInsert_cons, if_pos (ha x (by simp))]
          rfl
  | cons x before ih =>
      simp only [List.forall_mem_cons] at hb
      rw [List.cons_append, List.orderedInsert_cons, if_neg (by simpa using hb.1), ih hb.2]
      rfl

-- A leaf of any page size splits into two leaves, which hold its items and the new one in order.
theorem leaf_split {s s' : Store} {p d d' flags size : Nat} {items : List (Nat × Nat)}
    (hpages : SplitPages s s' p d d' size) (hleaf : LeafAt s.file.data p flags size items)
    (hasc : items.Pairwise fun x y => x.1 < y.1) (hmin : BTREE_MIN_PAGE_SIZE ≤ size)
    (hfull : pgFree (pgHeader s p) < 16) (hkey : key < 2 ^ 63) (hval : val < 2 ^ 64)
    (hnew : ∀ item ∈ items, item.1 ≠ key) :
    ∃ mid left right data,
      btreeLeafSplit s p key val = some (mid, d, d', storeFree (s'.setData data) p) ∧
      left ++ right = items.orderedInsert (fun x y => x.1 ≤ y.1) (key, val) ∧
      left ≠ [] ∧ right ≠ [] ∧
      LeafAt data d (clearRoot flags) size left ∧ LeafAt data d' (clearRoot flags) size right ∧
      right.head?.map Prod.fst = some mid ∧ ∀ item ∈ left, item.1 < mid := by
  obtain ⟨before, after, rfl, hb, ha⟩ := exists_cut key (List.pairwise_map.mpr hasc)
  have hlen := hleaf.length_le
  rw [hleaf.free_eq] at hfull
  rw [BTREE_MIN_PAGE_SIZE] at hmin
  have hn : 3 ≤ (before ++ after).length := by omega
  have hnl := medianLeft_lt before.length hn
  obtain ⟨hd, hd', hdd, hdlt, hdlt'⟩ := hpages.bounds
  obtain ⟨s₁, ha₁, ha₂⟩ := hpages.allocs
  obtain ⟨left, item, rest, data₁, data, he₁, he, -, -, hj, hc, hr, hl₁, hl₂⟩ :=
    (hleaf.congr hpages.same).split_at hd hdlt hd' hdlt' hdd (show key < 2 ^ 64 by omega) hval
      hnl.1 hnl.2 rfl (Nat.add_comm (16 * _) 8) rfl (i := 8 + 16 * before.length) rfl
  refine ⟨item.1, left, item :: rest, data, ?_, ?_, ?_, List.cons_ne_nil _ _, hl₁, hl₂, rfl, ?_⟩
  · rw [hleaf.split_eq (findIdx_eq_length hb ha) hn rfl, keyGet_eq hkey, ha₁]
    simp only [Option.bind_eq_bind, Option.bind_some, ha₂, hr, he₁, he]
    rfl
  · rw [orderedInsert_cut hb ha, hj]
  · apply List.ne_nil_of_length_pos
    rw [hc]
    split <;> omega
  · -- the items of both leaves ascend together
    have hlt : (before ++ (key, val) :: after).Pairwise fun x y => x.1 < y.1 := by
      rw [List.pairwise_append] at hasc ⊢
      refine ⟨hasc.1, List.pairwise_cons.mpr ⟨fun x hx => ?_, hasc.2.1⟩, fun x hx => ?_⟩
      · have := hnew x (by simp [hx])
        have := ha x hx
        change key < x.1
        omega
      · exact List.forall_mem_cons.mpr ⟨hb x hx, hasc.2.2 x hx⟩
    rw [hj, List.pairwise_append] at hlt
    exact fun x hx => hlt.2.2 x hx item (by simp)

-- A full leaf of 100 bytes in a new store, and a key for the middle of it.
theorem leaf_split_hundred : ∃ s s' mid left right,
    LeafAt s.file.data 96 3 100 [(10, 1), (20, 2), (30, 3), (40, 4), (50, 5)] ∧
    btreeLeafSplit s 96 25 7 = some (mid, 196, 296, s') ∧
    left ++ right = [(10, 1), (20, 2), (25, 7), (30, 3), (40, 4), (50, 5)] ∧
    left ≠ [] ∧ right.head?.map Prod.fst = some mid ∧
    LeafAt s'.file.data 196 2 100 left ∧ LeafAt s'.file.data 296 2 100 right := by
  have h : (((storeOpen ⟨[], .granted⟩ none STORE_O_CREAT).bind fun s => storeAlloc s 100).map fun page =>
      [(10, 1), (20, 2), (30, 3), (40, 4), (50, 5)].foldl (fun s (x : Nat × Nat) =>
        writeUi64 (writeUi64 s page.1 (8 + 16 * (x.2 - 1)) x.1) page.1 (16 * x.2) x.2)
          (btreeHdrWrite page.2 page.1 3 100 5 88)).bind (fun s =>
        (storeAlloc s 100).bind fun left => (storeAlloc left.2 100).map fun right =>
          ((left.1, right.1), (s.endPos, s.file.size, right.2.endPos), decide
            (LeafAt s.file.data 96 3 100 [(10, 1), (20, 2), (30, 3), (40, 4), (50, 5)]))) =
        some ((196, 296), (196, 256, 396), true) := by decide +kernel
  simp only [Option.bind_eq_some_iff, Option.map_eq_some_iff, Prod.mk.injEq, decide_eq_true_eq] at h
  obtain ⟨s, -, ⟨_, s₁⟩, ha₁, ⟨_, s₂⟩, ha₂, ⟨rfl, rfl⟩, ⟨hend, hsize, hend'⟩, hleaf⟩ := h
  simp only at ha₂ hend'
  have hpages : SplitPages s s₂ 96 196 296 100 :=
    .of_le ⟨by omega, by omega, by omega⟩ ha₁ ha₂ (by decide) (by omega) (by omega) (by omega) (by omega)
  obtain ⟨mid, left, right, data, hs, hj, hl, -, hl₁, hl₂, hm, -⟩ :=
    leaf_split hpages hleaf (by decide) (by decide) (by rw [hleaf.free_eq]; decide)
      (show 25 < 2 ^ 63 by decide) (show 7 < 2 ^ 64 by decide) (by decide)
  exact ⟨s, _, mid, left, right, hleaf, hs, hj, hl, hm, hl₁, hl₂⟩

end Leaf

section Branch

-- The child number `j` of a row may be replaced by two children and a separator.
theorem exists_grown {κ : Type} (row : Row κ κ) (left sep right : κ) {j : Nat}
    (hj : j ≤ row.seps.length) : ∃ (row' : Row κ κ) (before after : List κ) (child : κ),
      row.flat = before ++ child :: after ∧ before.length = 2 * j ∧
      row'.flat = before ++ [left, sep, right] ++ after := by
  induction row generalizing j with
  | last child =>
      obtain rfl : j = 0 := by simpa [Row.seps] using hj
      exact ⟨.cons left sep (.last right), [], [], child, rfl, rfl, rfl⟩
  | cons child sep' row ih =>
      cases j with
      | zero => exact ⟨.cons left sep (.cons right sep' row), [], sep' :: row.flat, child, rfl, rfl, rfl⟩
      | succ j =>
          obtain ⟨row', before, after, child', hf, hl, hf'⟩ := ih (by simpa [Row.seps] using hj)
          refine ⟨.cons child sep' row', child :: sep' :: before, after, child', ?_, ?_, ?_⟩
          · rw [Row.flat, hf]
            rfl
          · simp [hl]
            omega
          · rw [Row.flat, hf']
            rfl

-- A branch of any page size splits into two branches with a separator that moves up. Together
-- they hold the old children and separators, with one child replaced by two and a separator.
theorem branch_split {s s' : Store} {p d d' flags size j key orig split : Nat} {row : Row Nat Nat}
    (hpages : SplitPages s s' p d d' size) (hbranch : BranchAt s.file.data p flags size row)
    (hmin : BTREE_MIN_PAGE_SIZE ≤ size) (hfull : pgFree (pgHeader s p) < 16)
    (hj : j ≤ row.seps.length) (hwords : ∀ w ∈ [orig, key, split], w < 2 ^ 64) :
    ∃ (mid : Nat) (left right : Row Nat Nat) (data : Memory),
      btreeBranchSplit s p (8 + 16 * j) key orig split =
        some (mid, d, d', storeFree (s'.setData data) p) ∧
      left.flat ++ [mid] ++ right.flat =
        row.flat.take (2 * j) ++ [orig, key, split] ++ row.flat.drop (2 * j + 1) ∧
      BranchAt data d (clearRoot flags) size left ∧
      BranchAt data d' (clearRoot flags) size right := by
  have hlen := hbranch.length_le
  rw [hbranch.free_eq] at hfull
  rw [BTREE_MIN_PAGE_SIZE] at hmin
  have hn : 3 ≤ row.seps.length := by omega
  have hnl := medianLeft_lt j hn
  obtain ⟨hd, hd', hdd, hdlt, hdlt'⟩ := hpages.bounds
  obtain ⟨s₁, ha₁, ha₂⟩ := hpages.allocs
  obtain ⟨row', before, after, child, hf, hl, hf'⟩ := exists_grown row orig key split hj
  obtain ⟨left, mid, right, data₁, data, he₁, he, -, -, hjoin, -, hr, hb₁, hb₂⟩ :=
    (hbranch.congr hpages.same).split_at hf hf' hd hdlt hd' hdlt' hdd hwords hl hnl.1 hnl.2 rfl
      (Nat.add_comm (16 * _) 16) rfl (show 8 + 16 * j = 8 + 8 * before.length by omega)
  refine ⟨mid, left, right, data, ?_, ?_, hb₁, hb₂⟩
  · rw [hbranch.split_eq hn rfl, ha₁]
    simp only [Option.bind_eq_bind, Option.bind_some, ha₂, hr, he₁, he]
    rfl
  · have htake : row.flat.take (2 * j) = before := by rw [hf, ← hl, List.take_left]
    have hdrop : row.flat.drop (2 * j + 1) = after := by
      rw [hf, ← hl, ← List.singleton_append, ← List.append_assoc, List.drop_left' (by simp)]
    rw [htake, hdrop, ← hf', hjoin, Row.flat_join]
    simp

-- A full branch of 64 bytes in a new store, and a split of its last child.
theorem branch_split_last : ∃ s s' mid left right,
    BranchAt s.file.data 96 0 64 (.cons 500 10 (.cons 501 20 (.cons 502 30 (.last 503)))) ∧
    btreeBranchSplit s 96 (8 + 16 * 3) 40 504 505 = some (mid, 160, 224, s') ∧
    left.flat ++ [mid] ++ right.flat = [500, 10, 501, 20, 502, 30, 504, 40, 505] ∧
    BranchAt s'.file.data 160 0 64 left ∧ BranchAt s'.file.data 224 0 64 right := by
  have h : (((storeOpen ⟨[], .granted⟩ none STORE_O_CREAT).bind fun s => storeAlloc s 64).map fun page =>
      [(1, 500), (2, 10), (3, 501), (4, 20), (5, 502), (6, 30), (7, 503)].foldl
        (fun s (x : Nat × Nat) => writeUi64 s page.1 (8 * x.1) x.2)
          (btreeHdrWrite page.2 page.1 0 64 3 64)).bind (fun s =>
        (storeAlloc s 64).bind fun left => (storeAlloc left.2 64).map fun right =>
          ((left.1, right.1), (s.endPos, s.file.size, right.2.endPos), decide (BranchAt s.file.data 96
            0 64 (.cons 500 10 (.cons 501 20 (.cons 502 30 (.last 503))))))) =
        some ((160, 224), (160, 256, 288), true) := by decide +kernel
  simp only [Option.bind_eq_some_iff, Option.map_eq_some_iff, Prod.mk.injEq, decide_eq_true_eq] at h
  obtain ⟨s, -, ⟨_, s₁⟩, ha₁, ⟨_, s₂⟩, ha₂, ⟨rfl, rfl⟩, ⟨hend, hsize, hend'⟩, hbranch⟩ := h
  simp only at ha₂ hend'
  have hpages : SplitPages s s₂ 96 160 224 64 :=
    .of_le ⟨by omega, by omega, by omega⟩ ha₁ ha₂ (by decide) (by omega) (by omega) (by omega) (by omega)
  obtain ⟨mid, left, right, data, hs, hj, hl, hr⟩ :=
    branch_split (j := 3) hpages hbranch (by decide) (by rw [hbranch.free_eq]; decide) (by decide)
      (show ∀ w ∈ [504, 40, 505], w < 2 ^ 64 by decide)
  exact ⟨s, _, mid, left, right, hbranch, hs, hj, hl, hr⟩

end Branch

end Adventure

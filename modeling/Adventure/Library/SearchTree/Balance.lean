import Adventure.Library.SearchTree.Insert
import Mathlib.Data.Nat.Log

namespace SearchTree

variable {α ι κ : Type} {h : ℕ}

namespace Tree

-- The leaves, from left to right.
def leaves : {h : ℕ} → Tree α ι κ h → List (Tree α ι κ 0)
  | 0, t => [t]
  | _ + 1, t => (row t).kids.flatMap leaves

@[simp] theorem leaves_leaf (t : Tree α ι κ 0) : t.leaves = [t] := rfl

@[simp] theorem leaves_row (t : Tree α ι κ (h + 1)) : t.leaves = t.row.kids.flatMap leaves := rfl

theorem flatMap_leaves (t : Tree α ι κ h) : t.leaves.flatMap held = t.items := by
  induction h with
  | zero => simp
  | succ h ih =>
      rw [leaves_row, List.flatMap_assoc, items_row]
      exact List.flatMap_congr fun kid _ => ih kid

theorem map_leaves_le (t : Tree α ι κ h) : (t.leaves.map addr : Multiset α) ≤ t.addrs := by
  induction h with
  | zero => exact le_rfl
  | succ h ih =>
      refine le_trans ?_ (Multiset.le_cons_self _ t.addr)
      rw [leaves_row, List.map_flatMap]
      induction t.row.kids with
      | nil => simp
      | cons kid kids ihk =>
          rw [List.flatMap_cons, ← Multiset.coe_add, List.map_cons, List.sum_cons]
          exact add_le_add (ih kid) ihk

theorem EveryLeaf.of_mem {P : List ι → Prop} {t : Tree α ι κ h} (ht : t.EveryLeaf P) :
    ∀ leaf ∈ t.leaves, P leaf.held := by
  induction h with
  | zero => simpa using ht
  | succ h ih =>
      intro leaf hleaf
      rw [leaves_row, List.mem_flatMap] at hleaf
      obtain ⟨kid, hkid, hleaf⟩ := hleaf
      exact ih (ht kid hkid) leaf hleaf

-- Every branch has two children at least, so that the leaves double with each level.
theorem EveryBranch.two_pow_le {t : Tree α ι κ h} (ht : t.EveryBranch (0 < ·)) :
    2 ^ h ≤ t.leaves.length := by
  induction h with
  | zero => exact le_rfl
  | succ h ih =>
      obtain ⟨hpos, hkids⟩ := ht
      have hlen := t.row.length_kids
      have hall : ∀ kids : List (Tree α ι κ h), (∀ kid ∈ kids, kid.EveryBranch (0 < ·)) →
          kids.length * 2 ^ h ≤ (kids.flatMap leaves).length := by
        intro kids hk
        induction kids with
        | nil => simp
        | cons kid kids ihk =>
            rw [List.forall_mem_cons] at hk
            have hkid := ih hk.1
            have hrest := ihk hk.2
            rw [List.length_cons, List.flatMap_cons, List.length_append, Nat.add_mul, Nat.one_mul]
            omega
      have hrow := hall _ hkids
      have htwo : 2 * 2 ^ h ≤ t.row.kids.length * 2 ^ h := Nat.mul_le_mul_right _ (by omega)
      rw [leaves_row, Nat.pow_succ, Nat.mul_comm]
      exact htwo.trans hrow

theorem EveryLeaf.length_leaves_le {t : Tree α ι κ h} (ht : t.EveryLeaf (· ≠ [])) :
    t.leaves.length ≤ t.items.length := by
  have hall : ∀ l : List (Tree α ι κ 0), (∀ leaf ∈ l, leaf.held ≠ []) →
      l.length ≤ (l.flatMap held).length := by
    intro l hl
    induction l with
    | nil => simp
    | cons leaf l ih =>
        rw [List.forall_mem_cons] at hl
        have hpos := List.length_pos_of_ne_nil hl.1
        have hrest := ih hl.2
        rw [List.length_cons, List.flatMap_cons, List.length_append]
        omega
  rw [← flatMap_leaves]
  exact hall _ ht.of_mem

-- The height of a tree that has no empty leaf, by the number of its items.
theorem height_le_log {t : Tree α ι κ h} (hbranch : t.EveryBranch (0 < ·))
    (hleaf : h = 0 ∨ t.EveryLeaf (· ≠ [])) : h ≤ Nat.log 2 t.items.length := by
  rcases hleaf with rfl | hleaf
  · exact Nat.zero_le _
  · have hle := hbranch.two_pow_le.trans hleaf.length_leaves_le
    have hne : t.items.length ≠ 0 := by
      have hpos := Nat.two_pow_pos h
      omega
    exact (Nat.le_log_iff_pow_le (by decide) hne).mpr hle

section Path

variable [LinearOrder κ]

theorem length_path (q : κ) (t : Tree α ι κ h) : (t.path q).length = h + 1 := by
  induction h with
  | zero => rfl
  | succ h ih => rw [path, List.length_cons, ih]

-- A search path on which there is no room: a full leaf below full branches.
def Full (leaf : List ι → Prop) (cap : ℕ) (q : κ) : {h : ℕ} → Tree α ι κ h → Prop
  | 0, t => leaf (held t)
  | _ + 1, t => cap ≤ (row t).seps.length ∧ Full leaf cap q ((row t).pick q)

-- A branch with no room above a full path, whose picked child is at a bad position.
def Spills (leaf : List ι → Prop) (cap : ℕ) (bad : ℕ → Prop) (q : κ) :
    {h : ℕ} → Tree α ι κ h → Prop
  | 0, _ => False
  | _ + 1, t => (bad ((row t).index q) ∧ Full leaf cap q t) ∨
      Spills leaf cap bad q ((row t).pick q)

variable {step : List ι → Growth (List ι) κ → Prop} {leaf : List ι → Prop} {cap : ℕ}
  {cut : ℕ → ℕ → ℕ} {q : κ} {bad : ℕ → Prop}

-- A tree comes out in two exactly when there is no room on the whole path.
theorem Grows.two_iff (hstep : ∀ l g, step l g → (leaf l ↔ ∃ left mid right, g = .two left mid right))
    {t : Tree α ι κ h} {g : Growth (Tree α ι κ h) κ} (ht : t.EveryBranch (· ≤ cap))
    (hg : t.Grows step cap cut q g) : t.Full leaf cap q ↔ ∃ left mid right, g = .two left mid right := by
  induction h with
  | zero =>
      rw [Full, hstep _ _ hg]
      cases g with
      | one kid => simp [Growth.map]
      | two left mid right => simp [Growth.map]
  | succ h ih =>
      obtain ⟨g', hg', hd⟩ := hg
      have hle : t.row.seps.length ≤ cap := ht.1
      rw [Full, ih (ht.2 _ (Row.pick_mem q _)) hg']
      cases g' with
      | one kid =>
          -- the row has not grown
          cases g with
          | one t' => simp
          | two left mid right =>
              have hlt := hd.2.1
              rw [Row.length_seps_graft_one] at hlt
              omega
      | two left' mid' right' =>
          cases g with
          | one t' =>
              have hfit := hd.2
              rw [Row.length_seps_graft_two] at hfit
              refine iff_of_false (fun hfull => ?_) (by simp)
              have hcap : cap ≤ t.row.seps.length := hfull.1
              omega
          | two left mid right =>
              have hlt := hd.2.1
              rw [Row.length_seps_graft_two] at hlt
              exact iff_of_true ⟨Nat.le_of_lt_succ hlt, _, _, _, rfl⟩ ⟨_, _, _, rfl⟩

-- A row of an insertion is left without a separator exactly when it spills at a bad position.
theorem Grows.rows_pos_iff
    (hstep : ∀ l g, step l g → (leaf l ↔ ∃ left mid right, g = .two left mid right))
    (hcut : ∀ i ≤ cap, bad i ↔ ¬(0 < cut cap i ∧ cut cap i < cap)) {t : Tree α ι κ (h + 1)}
    {g : Growth (Tree α ι κ (h + 1)) κ} (ht : t.EveryBranch (· ≤ cap)) (hpos : 0 < t.row.seps.length)
    (hg : t.Grows step cap cut q g) :
    (∀ kid ∈ g.kids, 0 < kid.row.seps.length) ↔ ¬(bad (t.row.index q) ∧ t.Full leaf cap q) := by
  rw [hg.two_iff hstep ht]
  obtain ⟨g', -, hd⟩ := hg
  cases g with
  | one t' =>
      have hrow : t'.row = t.row.graft q g' := hd.1
      have hlen : 0 < t'.row.seps.length := by
        rw [hrow]
        cases g' with
        | one kid => rwa [Row.length_seps_graft_one]
        | two left mid right =>
            rw [Row.length_seps_graft_two]
            omega
      simpa [Growth.kids] using hlen
  | two left mid right =>
      have hle : t.row.seps.length ≤ cap := ht.1
      obtain ⟨hj, hlt, hl⟩ : t.row.graft q g' = left.row.join mid right.row ∧
          cap < (t.row.graft q g').seps.length ∧
            left.row.seps.length = cut t.row.seps.length (t.row.index q) := hd
      have hfull : t.row.seps.length = cap ∧ (t.row.graft q g').seps.length = cap + 1 := by
        cases g' with
        | one kid =>
            rw [Row.length_seps_graft_one] at hlt
            omega
        | two left' mid' right' =>
            rw [Row.length_seps_graft_two] at hlt ⊢
            omega
      have hsum := congrArg (fun row => row.seps.length) hj
      simp only [Row.seps_join, List.length_append, List.length_cons, hfull.2] at hsum
      have hi : t.row.index q ≤ cap := hfull.1 ▸ Row.index_le q t.row
      rw [hfull.1] at hl
      have hbad := hcut _ hi
      simp only [Growth.kids, List.forall_mem_cons, List.not_mem_nil, false_implies, implies_true,
        and_true, Growth.two.injEq, exists_and_left, exists_eq', hl]
      rw [hbad, not_not]
      omega

-- An insertion leaves a separator in every branch exactly when no branch spills at a bad position.
theorem Grows.everyBranch_pos_iff
    (hstep : ∀ l g, step l g → (leaf l ↔ ∃ left mid right, g = .two left mid right))
    (hcut : ∀ i ≤ cap, bad i ↔ ¬(0 < cut cap i ∧ cut cap i < cap)) {t : Tree α ι κ h}
    {g : Growth (Tree α ι κ h) κ} (ht : t.EveryBranch (· ≤ cap)) (hpos : t.EveryBranch (0 < ·))
    (hg : t.Grows step cap cut q g) :
    (∀ kid ∈ g.kids, kid.EveryBranch (0 < ·)) ↔ ¬t.Spills leaf cap bad q := by
  induction h with
  | zero => exact iff_of_true (fun _ _ => trivial) id
  | succ h ih =>
      have hpick := Row.pick_mem q t.row
      obtain ⟨g', before, after, hg', hk, hkids⟩ := hg.kids
      have hbeside : ∀ kid ∈ before ++ after, kid.EveryBranch (0 < ·) := by
        intro kid hkid
        apply hpos.2
        rw [show (row t).kids = _ from hk]
        simp only [List.mem_append, List.mem_cons] at hkid ⊢
        tauto
      have hrows := hg.rows_pos_iff hstep hcut ht hpos.1
      have hbelow : (∀ kid ∈ g.kids, ∀ kid' ∈ kid.row.kids, kid'.EveryBranch (0 < ·)) ↔
          ¬(t.row.pick q).Spills leaf cap bad q := by
        rw [← ih (ht.2 _ hpick) (hpos.2 _ hpick) hg']
        have hmem : ∀ kid', (∃ kid ∈ g.kids, kid' ∈ kid.row.kids) ↔
            kid' ∈ before ++ g'.kids ++ after := by
          intro kid'
          rw [← hkids, List.mem_flatMap]
        constructor
        · intro hall kid' hkid'
          obtain ⟨kid, hkid, hin⟩ := (hmem kid').mpr (by simp [hkid'])
          exact hall kid hkid kid' hin
        · intro hall kid hkid kid' hkid'
          have hm := (hmem kid').mp ⟨kid, hkid, hkid'⟩
          simp only [List.mem_append] at hm hbeside
          rcases hm with (hm | hm) | hm
          · exact hbeside kid' (Or.inl hm)
          · exact hall kid' hm
          · exact hbeside kid' (Or.inr hm)
      rw [Spills, not_or, ← hbelow, ← hrows]
      simp only [everyBranch_row]
      exact forall₂_and

end Path

end Tree

end SearchTree

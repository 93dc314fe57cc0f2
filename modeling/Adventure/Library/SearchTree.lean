import Adventure.Library.Row
import Mathlib.Data.Multiset.OrderedMonoid
import Mathlib.Algebra.Order.BigOperators.Group.List
import Mathlib.Tactic.Abel

namespace SearchTree

variable {α ι κ : Type}

-- A node with the address it is stored at.
structure Node (α β : Type) where
  addr : α
  body : β

-- Search trees by height: a leaf holds items, a branch holds a row of trees one level lower, so
-- that all leaves are equally deep.
def Tree (α ι κ : Type) : ℕ → Type
  | 0 => Node α (List ι)
  | h + 1 => Node α (Row (Tree α ι κ h) κ)

namespace Tree

def leaf (addr : α) (items : List ι) : Tree α ι κ 0 := ⟨addr, items⟩

def branch {h : ℕ} (addr : α) (row : Row (Tree α ι κ h) κ) : Tree α ι κ (h + 1) := ⟨addr, row⟩

def addr : {h : ℕ} → Tree α ι κ h → α
  | 0, t => Node.addr t
  | _ + 1, t => Node.addr t

-- The items of a leaf and the row of a branch.
def held (t : Tree α ι κ 0) : List ι := Node.body t

def row {h : ℕ} (t : Tree α ι κ (h + 1)) : Row (Tree α ι κ h) κ := Node.body t

-- All items, from left to right.
def items : {h : ℕ} → Tree α ι κ h → List ι
  | 0, t => held t
  | _ + 1, t => (row t).kids.flatMap items

-- The addresses of all nodes.
def addrs : {h : ℕ} → Tree α ι κ h → Multiset α
  | 0, t => {addr t}
  | _ + 1, t => addr t ::ₘ ((row t).kids.map addrs).sum

def keys (key : ι → κ) {h : ℕ} (t : Tree α ι κ h) : List κ := t.items.map key

-- A property of every leaf's items, and one of every branch's number of separators.
def EveryLeaf (P : List ι → Prop) : {h : ℕ} → Tree α ι κ h → Prop
  | 0, t => P (held t)
  | _ + 1, t => ∀ kid ∈ (row t).kids, EveryLeaf P kid

def EveryBranch (Q : ℕ → Prop) : {h : ℕ} → Tree α ι κ h → Prop
  | 0, _ => True
  | _ + 1, t => Q (row t).seps.length ∧ ∀ kid ∈ (row t).kids, EveryBranch Q kid

@[simp] theorem addr_leaf (p : α) (l : List ι) : (leaf p l : Tree α ι κ 0).addr = p := rfl
@[simp] theorem held_leaf (p : α) (l : List ι) : (leaf p l : Tree α ι κ 0).held = l := rfl
@[simp] theorem items_leaf (t : Tree α ι κ 0) : t.items = t.held := rfl
@[simp] theorem addrs_leaf (t : Tree α ι κ 0) : t.addrs = {t.addr} := rfl

variable {h : ℕ}

@[simp] theorem addr_branch (p : α) (r : Row (Tree α ι κ h) κ) : (branch p r).addr = p := rfl
@[simp] theorem row_branch (p : α) (r : Row (Tree α ι κ h) κ) : (branch p r).row = r := rfl

@[simp] theorem items_row (t : Tree α ι κ (h + 1)) : t.items = t.row.kids.flatMap items := rfl

@[simp] theorem addrs_row (t : Tree α ι κ (h + 1)) :
    t.addrs = t.addr ::ₘ (t.row.kids.map addrs).sum := rfl

@[simp] theorem everyLeaf_leaf (P : List ι → Prop) (t : Tree α ι κ 0) :
    t.EveryLeaf P ↔ P t.held := Iff.rfl

@[simp] theorem everyLeaf_row (P : List ι → Prop) (t : Tree α ι κ (h + 1)) :
    t.EveryLeaf P ↔ ∀ kid ∈ t.row.kids, kid.EveryLeaf P := Iff.rfl

@[simp] theorem everyBranch_leaf (Q : ℕ → Prop) (t : Tree α ι κ 0) : t.EveryBranch Q := trivial

@[simp] theorem everyBranch_row (Q : ℕ → Prop) (t : Tree α ι κ (h + 1)) :
    t.EveryBranch Q ↔ Q t.row.seps.length ∧ ∀ kid ∈ t.row.kids, kid.EveryBranch Q := Iff.rfl

theorem addr_mem_addrs (t : Tree α ι κ h) : t.addr ∈ t.addrs := by
  cases h <;> simp

theorem lt_card_addrs (t : Tree α ι κ h) : h < t.addrs.card := by
  induction h with
  | zero => simp
  | succ h ih =>
      obtain ⟨kid, kids, hk⟩ : ∃ kid kids, t.row.kids = kid :: kids := by
        cases t.row <;> exact ⟨_, _, rfl⟩
      have := ih kid
      rw [addrs_row, hk, List.map_cons, List.sum_cons, Multiset.card_cons, Multiset.card_add]
      omega

theorem mem_keys_row (key : ι → κ) (t : Tree α ι κ (h + 1)) (x : κ) :
    x ∈ t.keys key ↔ ∃ kid ∈ t.row.kids, x ∈ kid.keys key := by
  rw [keys, items_row, List.map_flatMap, List.mem_flatMap]
  rfl

theorem mem_addrs_row {t : Tree α ι κ (h + 1)} {p : α} :
    p ∈ t.addrs ↔ p = t.addr ∨ ∃ kid ∈ t.row.kids, p ∈ kid.addrs := by
  rw [addrs_row, Multiset.mem_cons]
  apply or_congr Iff.rfl
  induction t.row.kids with
  | nil => simp
  | cons kid kids ih => simp [ih]

theorem addrs_kid_le {t : Tree α ι κ (h + 1)} {kid : Tree α ι κ h} (hkid : kid ∈ t.row.kids) :
    kid.addrs ≤ t.addrs := by
  have hle := List.single_le_sum (l := t.row.kids.map addrs) (fun s _ => Multiset.zero_le s) _
    (List.mem_map_of_mem hkid)
  exact hle.trans (Multiset.le_cons_self _ _)

section Order

variable [LinearOrder κ] (key : ι → κ)

-- Keys ascend in each leaf, and the separators of each branch direct a search to every key.
def Ordered : {h : ℕ} → Tree α ι κ h → Prop
  | 0, t => ((held t).map key).Pairwise (· < ·)
  | _ + 1, t => (row t).Ordered (keys key) ∧ ∀ kid ∈ (row t).kids, Ordered kid

-- The leaf that a search for a key ends at, and the addresses on the way to it.
def leafOf (q : κ) : {h : ℕ} → Tree α ι κ h → Tree α ι κ 0
  | 0, t => t
  | _ + 1, t => leafOf q ((row t).pick q)

def path (q : κ) : {h : ℕ} → Tree α ι κ h → List α
  | 0, t => [addr t]
  | _ + 1, t => addr t :: path q ((row t).pick q)

variable {key}

@[simp] theorem ordered_leaf (t : Tree α ι κ 0) :
    t.Ordered key ↔ (t.held.map key).Pairwise (· < ·) := Iff.rfl

@[simp] theorem ordered_row (t : Tree α ι κ (h + 1)) :
    t.Ordered key ↔ t.row.Ordered (keys key) ∧ ∀ kid ∈ t.row.kids, kid.Ordered key := Iff.rfl

@[simp] theorem leafOf_leaf (q : κ) (t : Tree α ι κ 0) : t.leafOf q = t := rfl

@[simp] theorem leafOf_row (q : κ) (t : Tree α ι κ (h + 1)) :
    t.leafOf q = (t.row.pick q).leafOf q := rfl

theorem Ordered.pairwise_keys {t : Tree α ι κ h} (ht : t.Ordered key) :
    (t.keys key).Pairwise (· < ·) := by
  induction h with
  | zero => exact ht
  | succ h ih =>
      have hp := ht.1.pairwise_flatMap fun kid hkid => ih (ht.2 kid hkid)
      rwa [keys, items_row, List.map_flatMap]

-- A search ends at the only leaf that can hold the key.
theorem Ordered.mem_leafOf {t : Tree α ι κ h} (ht : t.Ordered key) (x : ι) :
    x ∈ t.items ↔ x ∈ (t.leafOf (key x)).held := by
  induction h with
  | zero => exact Iff.rfl
  | succ h ih =>
      have hp : (∃ kid ∈ t.row.kids, x ∈ kid.items) ↔ x ∈ (t.row.pick (key x)).items :=
        ht.1.exists_iff_pick fun kid hx => List.mem_map_of_mem hx
      rw [items_row, List.mem_flatMap, hp, leafOf_row]
      exact ih (ht.2 _ (Row.pick_mem _ _))

theorem EveryLeaf.leafOf {P : List ι → Prop} {t : Tree α ι κ h} (ht : t.EveryLeaf P) (q : κ) :
    P (t.leafOf q).held := by
  induction h with
  | zero => exact ht
  | succ h ih => exact ih (ht _ (Row.pick_mem q _))

theorem Ordered.leafOf {t : Tree α ι κ h} (ht : t.Ordered key) (q : κ) :
    (t.leafOf q).Ordered key := by
  induction h with
  | zero => exact ht
  | succ h ih => exact ih (ht.2 _ (Row.pick_mem q _))

theorem leafOf_held_subset (q : κ) (t : Tree α ι κ h) : (t.leafOf q).held ⊆ t.items := by
  induction h with
  | zero => exact List.Subset.refl _
  | succ h ih =>
      intro x hx
      exact List.mem_flatMap.mpr ⟨_, Row.pick_mem q t.row, ih _ hx⟩

theorem path_le (q : κ) (t : Tree α ι κ h) : (t.path q : Multiset α) ≤ t.addrs := by
  induction h with
  | zero => exact le_rfl
  | succ h ih =>
      have hle := List.single_le_sum (l := t.row.kids.map addrs) (fun s _ => Multiset.zero_le s) _
        (List.mem_map_of_mem (Row.pick_mem q t.row))
      rw [path, addrs_row, ← Multiset.cons_coe]
      exact (Multiset.cons_le_cons_iff _).mpr ((ih _).trans hle)

theorem path_getLast (q : κ) (t : Tree α ι κ h) : (t.path q).getLast? = some (t.leafOf q).addr := by
  induction h with
  | zero => rfl
  | succ h ih => rw [path, List.getLast?_cons, ih, leafOf_row, Option.getD_some]

theorem leafOf_addr_mem (q : κ) (t : Tree α ι κ h) : (t.leafOf q).addr ∈ t.addrs := by
  induction h with
  | zero => simp
  | succ h ih => exact Multiset.mem_of_le (addrs_kid_le (Row.pick_mem q t.row)) (ih _)

end Order

theorem EveryLeaf.items_ne_nil {t : Tree α ι κ h} (ht : t.EveryLeaf (· ≠ [])) : t.items ≠ [] := by
  induction h with
  | zero => exact ht
  | succ h ih =>
      obtain ⟨kid, kids, hk⟩ : ∃ kid kids, t.row.kids = kid :: kids := by
        cases t.row <;> exact ⟨_, _, rfl⟩
      rw [everyLeaf_row, hk] at ht
      rw [items_row, hk, List.flatMap_cons]
      simp [ih (ht kid List.mem_cons_self)]

theorem EveryLeaf.mono {P P' : List ι → Prop} {t : Tree α ι κ h} (ht : t.EveryLeaf P)
    (hp : ∀ l, P l → P' l) : t.EveryLeaf P' := by
  induction h with
  | zero => exact hp _ ht
  | succ h ih => exact fun kid hkid => ih (ht kid hkid)

end Tree

end SearchTree

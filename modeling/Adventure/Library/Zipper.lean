import Mathlib.Data.List.Basic
import Mathlib.Tactic.Common

-- A list with a cursor between two of its elements. `left` is what lies before the cursor, the nearest
-- first.
structure Zipper (α : Type) where
  left : List α
  right : List α
  deriving DecidableEq, Repr

namespace Zipper

variable {α : Type}

def toList (z : Zipper α) : List α := z.left.reverse ++ z.right

def ofList (xs : List α) : Zipper α := ⟨xs.reverse, []⟩

def insert (a : α) (z : Zipper α) : Zipper α := { z with left := a :: z.left }

def deleteLeft (z : Zipper α) : Zipper α := { z with left := z.left.tail }

def deleteRight (z : Zipper α) : Zipper α := { z with right := z.right.tail }

def moveLeft : Zipper α → Zipper α
  | ⟨[], right⟩ => ⟨[], right⟩
  | ⟨a :: left, right⟩ => ⟨left, a :: right⟩

def moveRight : Zipper α → Zipper α
  | ⟨left, []⟩ => ⟨left, []⟩
  | ⟨left, a :: right⟩ => ⟨a :: left, right⟩

def moveHome (z : Zipper α) : Zipper α := ⟨[], z.toList⟩

def moveEnd (z : Zipper α) : Zipper α := ofList z.toList

def cutRight (z : Zipper α) : Zipper α := { z with right := [] }

def dropLeft (p : α → Bool) (z : Zipper α) : Zipper α := { z with left := z.left.dropWhile p }

-- The elements around the cursor change places, and the cursor moves on if it can.
def swap : Zipper α → Zipper α
  | ⟨a :: left, [b]⟩ => ⟨b :: left, [a]⟩
  | ⟨a :: left, b :: c :: right⟩ => ⟨a :: b :: left, c :: right⟩
  | z => z

@[simp] theorem toList_ofList (xs : List α) : (ofList xs).toList = xs := by
  simp [toList, ofList]

@[simp] theorem toList_moveLeft (z : Zipper α) : z.moveLeft.toList = z.toList := by
  rcases z with ⟨_ | ⟨a, left⟩, right⟩
  · rfl
  · simp [moveLeft, toList]

@[simp] theorem toList_moveRight (z : Zipper α) : z.moveRight.toList = z.toList := by
  rcases z with ⟨left, _ | ⟨a, right⟩⟩
  · rfl
  · simp [moveRight, toList]

@[simp] theorem toList_moveEnd (z : Zipper α) : z.moveEnd.toList = z.toList := toList_ofList _

@[simp] theorem length_toList (z : Zipper α) : z.toList.length = z.left.length + z.right.length := by
  simp [toList]

theorem mem_insert {a b : α} {z : Zipper α} (h : a ∈ (z.insert b).toList) : a = b ∨ a ∈ z.toList := by
  simp only [toList, insert, List.reverse_cons, List.mem_append, List.mem_singleton] at h ⊢
  rw [or_right_comm, or_comm] at h
  exact h

theorem deleteLeft_subset (z : Zipper α) : z.deleteLeft.toList ⊆ z.toList := by
  intro a ha
  simp only [toList, deleteLeft, List.mem_append, List.mem_reverse] at ha ⊢
  exact ha.imp_left List.mem_of_mem_tail

theorem deleteRight_subset (z : Zipper α) : z.deleteRight.toList ⊆ z.toList := by
  intro a ha
  simp only [toList, deleteRight, List.mem_append] at ha ⊢
  exact ha.imp_right List.mem_of_mem_tail

theorem cutRight_subset (z : Zipper α) : z.cutRight.toList ⊆ z.toList := by
  rw [toList, cutRight, List.append_nil]
  exact List.subset_append_left _ _

theorem dropLeft_subset (p : α → Bool) (z : Zipper α) : (z.dropLeft p).toList ⊆ z.toList := by
  intro a ha
  simp only [toList, dropLeft, List.mem_append, List.mem_reverse] at ha ⊢
  exact ha.imp_left fun h => (List.dropWhile_suffix p).subset h

theorem swap_subset (z : Zipper α) : z.swap.toList ⊆ z.toList := by
  rcases z with ⟨_ | ⟨a, left⟩, _ | ⟨b, _ | ⟨c, right⟩⟩⟩
  · exact List.Subset.refl _
  · exact List.Subset.refl _
  · exact List.Subset.refl _
  · exact List.Subset.refl _
  · intro x hx
    simp [toList, swap] at hx ⊢
    tauto
  · intro x hx
    simp [toList, swap] at hx ⊢
    tauto

end Zipper

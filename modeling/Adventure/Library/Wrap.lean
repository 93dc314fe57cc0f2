import Mathlib.Data.List.Basic

variable {α : Type}

-- A list in pieces of n + 1 elements. The last one may be shorter.
def wrap (n : Nat) : List α → List (List α)
  | [] => []
  | a :: xs => (a :: xs.take n) :: wrap n (xs.drop n)
termination_by xs => xs.length
decreasing_by
  rw [List.length_drop, List.length_cons]
  omega

-- The lines of a list, of which those that are too long go on in the next one. There are no empty ones.
def wrapLines [DecidableEq α] (n : Nat) (sep : α) (xs : List α) : List (List α) :=
  (xs.splitOn sep).flatMap (wrap n)

section Wrap

variable {n : Nat} {xs : List α}

@[simp] theorem wrap_nil (n : Nat) : wrap n ([] : List α) = [] := by
  unfold wrap
  rfl

theorem wrap_append (h : xs.length = n + 1) (ys : List α) : wrap n (xs ++ ys) = xs :: wrap n ys := by
  cases xs with
  | nil => cases h
  | cons a xs =>
    obtain rfl : xs.length = n := Nat.succ.inj h
    rw [List.cons_append, wrap, List.take_left, List.drop_left]

theorem wrap_short (hne : xs ≠ []) (h : xs.length ≤ n + 1) : wrap n xs = [xs] := by
  cases xs with
  | nil => cases hne rfl
  | cons a xs =>
    have hle : xs.length ≤ n := Nat.le_of_succ_le_succ h
    rw [wrap, List.take_of_length_le hle, List.drop_of_length_le hle, wrap_nil]

variable [DecidableEq α] {sep : α}

@[simp] theorem wrapLines_nil (n : Nat) (sep : α) : wrapLines n sep [] = [] := by
  simp [wrapLines]

theorem wrapLines_last (h : sep ∉ xs) : wrapLines n sep xs = wrap n xs := by
  rw [wrapLines, List.splitOn_eq_singleton h, List.flatMap_singleton]

theorem wrapLines_line (h : sep ∉ xs) (rest : List α) :
    wrapLines n sep (xs ++ sep :: rest) = wrap n xs ++ wrapLines n sep rest := by
  rw [wrapLines, List.splitOn_append_cons_of_beq xs rest (by simp), List.splitOn_eq_singleton h,
    List.flatMap_append, List.flatMap_singleton]
  rfl

-- What is too long goes on.
theorem wrapLines_long (h : sep ∉ xs) (hlen : xs.length = n + 1) (rest : List α) :
    wrapLines n sep (xs ++ rest) = xs :: wrapLines n sep rest := by
  by_cases hsep : sep ∈ rest
  · obtain ⟨ys, zs, rfl, hys⟩ := List.eq_append_cons_of_mem hsep
    rw [← List.append_assoc, wrapLines_line (by simp [h, hys]), wrapLines_line hys, wrap_append hlen,
      List.cons_append]
  · rw [wrapLines_last hsep, wrapLines_last (by simp [h, hsep]), wrap_append hlen]

end Wrap

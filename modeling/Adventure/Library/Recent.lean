import Mathlib.Data.List.Destutter
import Mathlib.Data.List.DropRight

variable {α : Type} [DecidableEq α]

-- A log in which an entry that is the same as the one before it is left out.
def unrepeated (log : List α) : List α := log.destutter (· ≠ ·)

@[simp] theorem unrepeated_nil : unrepeated ([] : List α) = [] := rfl

theorem destutter'_concat (a b : α) (xs : List α) :
    (xs ++ [b]).destutter' (· ≠ ·) a =
      if (a :: xs).getLast? = some b then xs.destutter' (· ≠ ·) a else xs.destutter' (· ≠ ·) a ++ [b] := by
  induction xs generalizing a with
  | nil =>
    by_cases hab : a = b
    · simp [hab]
    · simp [hab]
  | cons c xs ih =>
    rw [List.cons_append, List.destutter'_cons, List.destutter'_cons, List.getLast?_cons_cons]
    by_cases hac : a ≠ c
    · rw [if_pos hac, if_pos hac, ih]
      split
      · rfl
      · rfl
    · rw [if_neg hac, if_neg hac, ih, not_not.mp hac]

theorem unrepeated_concat (log : List α) (a : α) :
    unrepeated (log ++ [a]) = if log.getLast? = some a then unrepeated log else unrepeated log ++ [a] := by
  cases log with
  | nil => rfl
  | cons b log => exact destutter'_concat b a log

theorem getLast?_unrepeated (log : List α) : (unrepeated log).getLast? = log.getLast? := by
  induction log using List.reverseRecOn with
  | nil => rfl
  | append_singleton log a ih =>
    rw [unrepeated_concat, List.getLast?_concat]
    split
    · next h => rw [ih, h]
    · rw [List.getLast?_concat]

theorem unrepeated_subset {log : List α} {a : α} (h : a ∈ unrepeated log) : a ∈ log :=
  (List.destutter_sublist _ log).subset h

-- A part of such a log has no repeats either.
theorem unrepeated_of_suffix {log xs : List α} (h : xs <:+ unrepeated log) : unrepeated xs = xs :=
  List.destutter_of_isChain _ xs ((List.isChain_destutter _ log).suffix h)

-- What is kept of a log: its last entries, without repeats, and at least `kept` of them.
structure Recent (kept : Nat) (log xs : List α) : Prop where
  suffix : xs <:+ unrepeated log
  enough : min kept (unrepeated log).length ≤ xs.length

namespace Recent

variable {kept : Nat} {log xs : List α}

theorem nil (kept : Nat) : Recent kept ([] : List α) [] := ⟨List.suffix_refl _, Nat.min_le_right _ _⟩

theorem mono (h : Recent kept log xs) {kept' : Nat} (hle : kept' ≤ kept) : Recent kept' log xs := by
  have henough := h.enough
  exact ⟨h.suffix, by omega⟩

theorem getLast?_eq (h : Recent kept log xs) (hpos : 0 < kept) : xs.getLast? = log.getLast? := by
  obtain ⟨gone, hgone⟩ := h.suffix
  have henough := h.enough
  rw [← getLast?_unrepeated log, ← hgone]
  cases xs with
  | nil =>
    rw [← hgone, List.append_nil, List.length_nil] at henough
    rw [List.eq_nil_of_length_eq_zero (by omega : gone.length = 0)]
    rfl
  | cons x xs => rw [List.getLast?_append_cons]

theorem add (h : Recent kept log xs) (hpos : 0 < kept) (a : α) :
    Recent kept (log ++ [a]) (if xs.getLast? = some a then xs else xs ++ [a]) := by
  have hlast := h.getLast?_eq hpos
  have hlog := unrepeated_concat log a
  rw [hlast]
  by_cases hsame : log.getLast? = some a
  · rw [if_pos hsame] at hlog ⊢
    exact ⟨hlog ▸ h.suffix, hlog ▸ h.enough⟩
  · rw [if_neg hsame] at hlog ⊢
    obtain ⟨gone, hgone⟩ := h.suffix
    have henough := h.enough
    refine ⟨⟨gone, by rw [hlog, ← hgone, List.append_assoc]⟩, ?_⟩
    rw [hlog, List.length_append, List.length_append, List.length_singleton]
    omega

-- The oldest entries go away, but not too many.
theorem drop (h : Recent kept log xs) {n : Nat} (hn : n = 0 ∨ kept ≤ xs.length - n) :
    Recent kept log (xs.drop n) := by
  refine ⟨(List.drop_suffix n xs).trans h.suffix, ?_⟩
  have henough := h.enough
  rw [List.length_drop]
  omega

theorem latest (h : Recent kept log xs) : (unrepeated log).rtake kept <:+ xs := by
  have henough := h.enough
  refine List.suffix_of_suffix_length_le (List.drop_suffix _ _) h.suffix ?_
  rw [List.rtake, List.length_drop]
  omega

theorem eq_rtake (h : Recent kept log xs) (hle : xs.length ≤ kept) : xs = (unrepeated log).rtake kept := by
  have henough := h.enough
  have hsuffix := h.suffix.length_le
  refine (h.latest.eq_of_length ?_).symm
  rw [List.rtake, List.length_drop]
  omega

end Recent

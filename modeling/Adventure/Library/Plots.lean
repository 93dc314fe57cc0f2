import Mathlib.Data.Multiset.OrderedMonoid
import Mathlib.Algebra.Order.BigOperators.Group.List
import Mathlib.Data.Multiset.UnionInter
import Mathlib.Tactic.Abel

-- A list of plots, each of which takes up its own part of one resource. `part` is that part, and
-- `owner` is what the users of the list see of a plot.
namespace Plots

universe u v w
variable {α : Type u} {β : Type v} {ν : Type w} {part : β → Multiset ν} {owner : β → α}
  {before after plots : List β} {plot : β}

def total (part : β → Multiset ν) (plots : List β) : Multiset ν := (plots.map part).sum

theorem total_middle (part : β → Multiset ν) (before after : List β) (plot : β) :
    total part (before ++ plot :: after) = part plot + total part (before ++ after) := by
  simp only [total, List.map_append, List.map_cons, List.sum_append, List.sum_cons]
  abel

theorem le_total (h : plot ∈ plots) : part plot ≤ total part plots :=
  List.single_le_sum (fun m _ => Multiset.zero_le m) _ (List.mem_map_of_mem h)

-- The plot of an owner, by the owner's number.
theorem exists_split {i : Nat} {a : α} (h : (plots.map owner)[i]? = some a) :
    ∃ before plot after, plots = before ++ plot :: after ∧ before.length = i ∧ owner plot = a := by
  rw [List.getElem?_map, Option.map_eq_some_iff] at h
  obtain ⟨plot, hplot, rfl⟩ := h
  obtain ⟨hi, hget⟩ := List.getElem?_eq_some_iff.mp hplot
  refine ⟨plots.take i, plot, plots.drop (i + 1), ?_, by simp; omega, rfl⟩
  rw [← hget, List.getElem_cons_drop, List.take_append_drop]

theorem exists_other {j : Nat} {a : α}
    (h : ((before ++ plot :: after).map owner)[j]? = some a) (hne : j ≠ before.length) :
    ∃ other ∈ before ++ after, owner other = a := by
  rw [List.getElem?_map, Option.map_eq_some_iff] at h
  obtain ⟨other, hother, rfl⟩ := h
  refine ⟨other, ?_, rfl⟩
  rcases Nat.lt_or_ge j before.length with hj | hj
  · rw [List.getElem?_append_left hj] at hother
    exact List.mem_append_left _ (List.mem_of_getElem? hother)
  · obtain ⟨k, hk⟩ : ∃ k, j - before.length = k + 1 := ⟨j - before.length - 1, by omega⟩
    rw [List.getElem?_append_right hj, hk, List.getElem?_cons_succ] at hother
    exact List.mem_append_right _ (List.mem_of_getElem? hother)

theorem getElem_middle (owner : β → α) (before after : List β) (plot : β) :
    ((before ++ plot :: after).map owner)[before.length]? = some (owner plot) := by
  simp

-- A new owner on the plot in the middle.
theorem set_middle (owner : β → α) (before after : List β) (plot plot' : β) :
    ((before ++ plot :: after).map owner).set before.length (owner plot') =
      (before ++ plot' :: after).map owner := by
  rw [List.map_append, List.set_append_right _ _ (by simp)]
  simp

theorem eraseIdx_middle (owner : β → α) (before after : List β) (plot : β) :
    ((before ++ plot :: after).map owner).eraseIdx before.length =
      (before ++ after).map owner := by
  rw [List.map_append, List.eraseIdx_append_of_length_le (by simp)]
  simp

-- A property of all plots is one of the plot in the middle and of the others.
theorem forall_middle {P : β → Prop} :
    (∀ x ∈ before ++ plot :: after, P x) ↔ P plot ∧ ∀ x ∈ before ++ after, P x := by
  simp only [List.mem_append, List.mem_cons]
  refine ⟨fun h => ⟨h plot (by simp), fun x hx => h x (by tauto)⟩, fun ⟨hp, h⟩ x hx => ?_⟩
  rcases hx with hx | rfl | hx
  · exact h x (Or.inl hx)
  · exact hp
  · exact h x (Or.inr hx)

-- Parts of plots in different places share nothing.
theorem disjoint_middle (h : (total part (before ++ plot :: after)).Nodup) {other : β}
    (hother : other ∈ before ++ after) {x : ν} (hx : x ∈ part plot) : x ∉ part other := by
  rw [total_middle, Multiset.nodup_add] at h
  exact fun hm => Multiset.disjoint_left.mp h.2.2 hx (Multiset.mem_of_le (le_total hother) hm)

end Plots

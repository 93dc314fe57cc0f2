import Mathlib.Data.List.Pairwise
import Mathlib.Data.List.Perm.Basic
import Mathlib.Data.Multiset.AddSub
import Mathlib.Tactic.Common

namespace Slots

-- Regions are pairs of a start and a length.
def Apart (a b : ℕ × ℕ) : Prop := a.1 + a.2 ≤ b.1 ∨ b.1 + b.2 ≤ a.1

instance : Std.Symm Apart := ⟨fun _ _ => Or.symm⟩

-- Slots that never change once they are cut out. Each is either free, or in use for a region that
-- may be shorter than the slot.
structure Layout (slots used : List (ℕ × ℕ)) (free : List ℕ) : Prop where
  apart : slots.Pairwise Apart
  pos : ∀ slot ∈ slots, 0 < slot.2
  account : (used.map Prod.fst : Multiset ℕ) + (free : Multiset ℕ) = (slots.map Prod.fst : Multiset ℕ)
  fits : ∀ region ∈ used, ∃ slot ∈ slots, slot.1 = region.1 ∧ region.2 ≤ slot.2

namespace Layout

variable {slots used : List (ℕ × ℕ)} {free : List ℕ} {p n m : ℕ}

theorem nodup (h : Layout slots used free) : (slots.map Prod.fst).Nodup := by
  rw [List.Nodup, List.pairwise_map]
  refine h.apart.imp_of_mem fun {a b} ha hb hab => ?_
  have hpa := h.pos a ha
  have hpb := h.pos b hb
  unfold Apart at hab
  omega

theorem nodup_used (h : Layout slots used free) : (used.map Prod.fst).Nodup := by
  have hn := h.nodup
  rw [← Multiset.coe_nodup, ← h.account] at hn
  exact Multiset.coe_nodup.mp (Multiset.nodup_of_le (Multiset.le_add_right _ _) hn)

-- No two regions in use meet.
theorem used_apart (h : Layout slots used free) : used.Pairwise Apart := by
  have hn := h.nodup_used
  rw [List.Nodup, List.pairwise_map] at hn
  refine hn.imp_of_mem fun {a b} ha hb hab => ?_
  obtain ⟨sa, hsa, hea, hla⟩ := h.fits a ha
  obtain ⟨sb, hsb, heb, hlb⟩ := h.fits b hb
  have hs : Apart sa sb := h.apart.forall hsa hsb fun he =>
    hab (by rw [← hea, ← heb, he])
  unfold Apart at hs ⊢
  omega

theorem used_inside {lo hi : ℕ} (h : Layout slots used free)
    (hs : ∀ slot ∈ slots, lo ≤ slot.1 ∧ slot.1 + slot.2 ≤ hi) :
    ∀ region ∈ used, lo ≤ region.1 ∧ region.1 + region.2 ≤ hi := by
  intro region hr
  obtain ⟨slot, hslot, he, hl⟩ := h.fits region hr
  have := hs slot hslot
  omega

-- A new slot goes into use at once.
theorem cut (h : Layout slots used free) (hn : 0 < n) (hnew : ∀ slot ∈ slots, Apart (p, n) slot) :
    Layout ((p, n) :: slots) ((p, n) :: used) free where
  apart := List.pairwise_cons.mpr ⟨hnew, h.apart⟩
  pos := List.forall_mem_cons.mpr ⟨hn, h.pos⟩
  account := by
    rw [List.map_cons, List.map_cons, ← Multiset.cons_coe, ← Multiset.cons_coe, Multiset.cons_add,
      h.account]
  fits := by
    refine List.forall_mem_cons.mpr ⟨⟨(p, n), by simp⟩, fun region hr => ?_⟩
    obtain ⟨slot, hslot, hf⟩ := h.fits region hr
    exact ⟨slot, List.mem_cons_of_mem _ hslot, hf⟩

-- A free slot goes into use for a region that it is long enough for.
theorem reuse (h : Layout slots used (p :: free)) (hm : (p, m) ∈ slots) (hn : n ≤ m) :
    Layout slots ((p, n) :: used) free where
  apart := h.apart
  pos := h.pos
  account := by
    rw [← h.account, List.map_cons, ← Multiset.cons_coe, ← Multiset.cons_coe, Multiset.cons_add,
      Multiset.add_cons]
  fits := List.forall_mem_cons.mpr ⟨⟨(p, m), hm, rfl, hn⟩, h.fits⟩

theorem release (h : Layout slots used free) {i : ℕ} (hi : used[i]? = some (p, n)) :
    Layout slots (used.eraseIdx i) (p :: free) where
  apart := h.apart
  pos := h.pos
  account := by
    obtain ⟨hlt, hget⟩ := List.getElem?_eq_some_iff.mp hi
    have hperm := (List.getElem_cons_eraseIdx_perm hlt).map Prod.fst
    rw [hget, List.map_cons, ← Multiset.coe_eq_coe, ← Multiset.cons_coe] at hperm
    rw [← h.account, ← hperm, ← Multiset.cons_coe, Multiset.add_cons, Multiset.cons_add]
  fits region hr := h.fits region (List.mem_of_mem_eraseIdx hr)

end Layout

end Slots

import Adventure.Store.Alloc
import Mathlib.Data.Multiset.Range
import Mathlib.Data.Multiset.UnionInter
import Mathlib.Data.Finset.Card
import Mathlib.Data.Finset.Range

namespace Adventure

open Memory Ends

-- The 64-byte pages that a store had handed out at some moment, when its end pointer was `start`.
structure Base where
  pages : Multiset Nat
  start : Nat
  nodup : pages.Nodup
  apart : ∀ p ∈ pages, ∀ q ∈ pages, p ≠ q → p + 64 ≤ q ∨ q + 64 ≤ p
  inside : ∀ p ∈ pages, STORE_HEADER_SIZE ≤ p ∧ p + 64 ≤ start
  header_le : STORE_HEADER_SIZE ≤ start

-- Nothing handed out yet: the state that store_open leaves before it makes the free root.
def Base.empty : Base where
  pages := 0
  start := STORE_HEADER_SIZE
  nodup := Multiset.nodup_zero
  apart := by simp
  inside := by simp
  header_le := le_rfl

-- The pages of the base and the `count` pages taken from the end since.
def Base.taken (base : Base) (count : Nat) : Multiset Nat :=
  base.pages + (Multiset.range count).map fun i => base.start + 64 * i

namespace Base

variable (base : Base)

theorem mem_taken {count : Nat} {p : Nat} :
    p ∈ base.taken count ↔ p ∈ base.pages ∨ ∃ i < count, base.start + 64 * i = p := by
  simp [taken]

theorem taken_succ (count : Nat) :
    base.taken (count + 1) = (base.start + 64 * count) ::ₘ base.taken count := by
  rw [taken, Multiset.range_succ, Multiset.map_cons, Multiset.add_cons, taken]

theorem taken_nodup (count : Nat) : (base.taken count).Nodup := by
  rw [taken, Multiset.nodup_add]
  refine ⟨base.nodup, (Multiset.nodup_range count).map fun i j h => by simp at h; omega, ?_⟩
  rw [Multiset.disjoint_left]
  intro p hp hq
  obtain ⟨i, -, rfl⟩ := Multiset.mem_map.mp hq
  have := (base.inside _ hp).2
  omega

theorem taken_apart {count : Nat} {p q : Nat} (hp : p ∈ base.taken count)
    (hq : q ∈ base.taken count) (hne : p ≠ q) : p + 64 ≤ q ∨ q + 64 ≤ p := by
  rcases base.mem_taken.mp hp with hp | ⟨i, _, rfl⟩ <;>
    rcases base.mem_taken.mp hq with hq | ⟨j, _, rfl⟩
  · exact base.apart p hp q hq hne
  · have := (base.inside p hp).2
    omega
  · have := (base.inside q hq).2
    omega
  · omega

theorem taken_inside {count : Nat} {p : Nat} (hp : p ∈ base.taken count) :
    STORE_HEADER_SIZE ≤ p ∧ p + 64 ≤ base.start + 64 * count := by
  rcases base.mem_taken.mp hp with hp | ⟨i, _, rfl⟩
  · have := base.inside p hp
    omega
  · have := base.header_le
    omega

end Base

-- The accounts of a store that hands out 64-byte pages only: each page handed out so far is
-- either in `live` or on the free list, once.
structure Pool (base : Base) (s : Store) (live : Multiset Nat) : Prop where
  sound : s.Sound
  account : ∃ free count, s.freeList = some free ∧ s.endPos = base.start + 64 * count ∧
    live + (free : Multiset Nat) = base.taken count

-- The bytes of the pages in `live` are the same in both stores.
def Keeps (live : Multiset Nat) (s s' : Store) : Prop :=
  ∀ p ∈ live, Same s.file.data s'.file.data p 64

namespace Keeps

variable {s s' s'' : Store} {live live' : Multiset Nat}

theorem refl (live : Multiset Nat) (s : Store) : Keeps live s s := fun _ _ => .refl _ _ _

theorem trans (h : Keeps live s s') (h' : Keeps live s' s'') : Keeps live s s'' :=
  fun p hp => (h p hp).trans (h' p hp)

theorem mono (h : Keeps live s s') (hsub : live' ⊆ live) : Keeps live' s s' :=
  fun p hp => h p (hsub hp)

end Keeps

namespace Pool

variable {base : Base} {s s' : Store} {live : Multiset Nat} {p q : Nat}

theorem nodup (h : Pool base s live) : live.Nodup := by
  obtain ⟨free, count, -, -, ha⟩ := h.account
  have hn := base.taken_nodup count
  rw [← ha] at hn
  exact (Multiset.nodup_add.mp hn).1

theorem mem_taken (h : Pool base s live) (hp : p ∈ live) :
    ∃ count, s.endPos = base.start + 64 * count ∧ p ∈ base.taken count := by
  obtain ⟨free, count, -, he, ha⟩ := h.account
  exact ⟨count, he, ha ▸ Multiset.mem_add.mpr (Or.inl hp)⟩

theorem apart (h : Pool base s live) (hp : p ∈ live) (hq : q ∈ live) (hne : p ≠ q) :
    p + 64 ≤ q ∨ q + 64 ≤ p := by
  obtain ⟨free, count, -, -, ha⟩ := h.account
  exact base.taken_apart (ha ▸ Multiset.mem_add.mpr (Or.inl hp))
    (ha ▸ Multiset.mem_add.mpr (Or.inl hq)) hne

theorem notMem_free (h : Pool base s live) (hp : p ∈ live) {free : List Nat}
    (hf : s.freeList = some free) : p ∉ free := by
  obtain ⟨free', count, hf', -, ha⟩ := h.account
  obtain rfl := Option.some.inj (hf.symm.trans hf')
  have hn := base.taken_nodup count
  rw [← ha, Multiset.nodup_add] at hn
  exact fun hm => Multiset.disjoint_left.mp hn.2.2 hp (Multiset.mem_coe.mpr hm)

theorem inside (h : Pool base s live) (hp : p ∈ live) :
    STORE_HEADER_SIZE ≤ p ∧ p + 64 ≤ s.endPos := by
  obtain ⟨count, he, hm⟩ := h.mem_taken hp
  rw [he]
  exact base.taken_inside hm

-- The part of `inside` that address arithmetic needs.
theorem bounds (h : Pool base s live) (hp : p ∈ live) :
    32 ≤ p ∧ p + 64 ≤ s.file.size ∧ p + 64 < 2 ^ 63 := by
  have hi := h.inside hp
  have he := h.sound.end_le
  have hl := h.sound.size_lt
  have hh : STORE_HEADER_SIZE = 32 := rfl
  omega

theorem setData (h : Pool base s live) (data : Memory) : Pool base (s.setData data) live :=
  ⟨⟨h.sound.end_le, h.sound.size_pos, h.sound.size_lt⟩, h.account⟩

theorem free (h : Pool base s (p ::ₘ live)) : Pool base (storeFree s p) live := by
  obtain ⟨free, count, hf, he, ha⟩ := h.account
  refine ⟨⟨h.sound.end_le, h.sound.size_pos, h.sound.size_lt⟩, p :: free, count, ?_, he, ?_⟩
  · simp [storeFree, hf]
  · rw [← ha, ← Multiset.cons_coe, Multiset.add_cons, Multiset.cons_add]

theorem allocated (h : Pool base s live) (ha : Allocated s 64 p s') :
    Pool base s' (p ::ₘ live) := by
  obtain ⟨free, count, hf, he, hacc⟩ := h.account
  refine ⟨ha.sound h.sound, ?_⟩
  cases ha with
  | reuse file p rest hg hl hr hfree =>
      rw [hf, Option.some.injEq] at hfree
      subst hfree
      refine ⟨rest, count, rfl, he, ?_⟩
      rw [← hacc, ← Multiset.cons_coe, Multiset.add_cons, Multiset.cons_add]
  | fresh file hg hl hr hnone =>
      have hnil : free = [] := by
        cases free with
        | nil => rfl
        | cons p rest => exact absurd hf (hnone p rest)
      refine ⟨[], count + 1, ?_, ?_, ?_⟩
      · rw [storeWriteUi64_eq, setData_freeList, hf, hnil]
      · rw [storeWriteUi64_eq, setData_endPos]
        change s.endPos + 64 = _
        omega
      · rw [base.taken_succ, ← hacc, hnil, he, Multiset.cons_add]

theorem keeps_of_allocated (h : Pool base s live) (ha : Allocated s 64 p s') :
    Keeps live s s' := by
  intro q hq
  have hb := h.bounds hq
  exact ha.same (by omega) (by omega)

-- What is written inside one page leaves the other live pages alone.
theorem keeps_of_only (h : Pool base s (p ::ₘ live)) {data : Memory}
    (honly : Only s.file.data data p 64) : Keeps live s (s.setData data) := by
  intro q hq
  have hne : p ≠ q := by
    rintro rfl
    exact (Multiset.nodup_cons.mp h.nodup).1 hq
  have ha := h.apart (Multiset.mem_cons_self p live) (Multiset.mem_cons_of_mem hq) hne
  exact honly.same (by omega)

theorem alloc_meets (h : Pool base s live) :
    Meets (storeAlloc s 64) (¬s.Growable 64) fun r =>
      Pool base r.2 (r.1 ::ₘ live) ∧ Keeps live s r.2 ∧ Allocated s 64 r.1 r.2 :=
  (storeAlloc_meets h.sound 64).mono id fun _ ha => ⟨h.allocated ha, h.keeps_of_allocated ha, ha⟩

-- What a page copier does to the pool: it writes inside the page on top of it.
theorem written {data : Memory} (h : Pool base s (p ::ₘ live))
    (ho : Only s.file.data data p 64) :
    Pool base (s.setData data) (p ::ₘ live) ∧ Keeps live s (s.setData data) :=
  ⟨h.setData data, h.keeps_of_only ho⟩

theorem ne_of_cons (h : Pool base s (p ::ₘ live)) (hq : q ∈ live) : p ≠ q := by
  rintro rfl
  exact (Multiset.nodup_cons.mp h.nodup).1 hq

theorem apart_of_cons (h : Pool base s (p ::ₘ live)) (hq : q ∈ live) :
    p + 64 ≤ q ∨ q + 64 ≤ p :=
  h.apart (Multiset.mem_cons_self _ _) (Multiset.mem_cons_of_mem hq) (h.ne_of_cons hq)

section Copy

variable {d d' : Nat} {data data₁ : Memory}

-- A page is replaced by a copy that was written to the page on top of it.
theorem replaced (h : Pool base s (d ::ₘ p ::ₘ live)) (ho : Only s.file.data data d 64) :
    d ≠ 0 ∧ Pool base (storeFree (s.setData data) p) (d ::ₘ live) ∧
      Keeps live s (storeFree (s.setData data) p) := by
  have hb := h.bounds (Multiset.mem_cons_self d _)
  obtain ⟨hw, hk⟩ := h.written ho
  rw [Multiset.cons_swap] at hw
  exact ⟨by omega, hw.free, hk.mono (Multiset.subset_cons _ _)⟩

-- Two pages for the halves of the page on top, ...
theorem alloc_two_meets {β : Type} {f : Nat × Store → Nat × Store → Option β} {post : β → Prop}
    (h : Pool base s (p ::ₘ live))
    (hf : ∀ d d' s₁ s₂, Pool base s₂ (d ::ₘ d' ::ₘ p ::ₘ live) → Keeps (p ::ₘ live) s s₂ →
      Spent s s₂ 128 → Meets (f (d, s₁) (d', s₂)) (¬s.Growable 128) post) :
    Meets (storeAlloc s 64 >>= fun r => storeAlloc r.2 64 >>= f r) (¬s.Growable 128) post := by
  refine Meets.bind (h.alloc_meets.mono (mt fun hg => hg.mono (by omega)) fun _ h => h) ?_
  rintro ⟨d, s₁⟩ ⟨hp₁, hk₁, ha₁⟩
  refine Meets.bind (hp₁.alloc_meets.mono ha₁.spent.growable fun _ h => h) ?_
  rintro ⟨d', s₂⟩ ⟨hp₂, hk₂, ha₂⟩
  rw [Multiset.cons_swap] at hp₂
  exact hf d d' s₁ s₂ hp₂ (hk₁.trans (hk₂.mono (Multiset.subset_cons _ _))) (ha₁.spent.trans ha₂.spent)

-- ... apart from it and from each other, ...
theorem two_apart (h : Pool base s (d ::ₘ d' ::ₘ p ::ₘ live)) :
    (d + 64 ≤ p ∨ p + 64 ≤ d) ∧ (d' + 64 ≤ p ∨ p + 64 ≤ d') ∧ (d + 64 ≤ d' ∨ d' + 64 ≤ d) ∧
      d + 64 < 2 ^ 63 ∧ d' + 64 < 2 ^ 63 := by
  have hd := h.apart_of_cons (q := p) (by simp)
  have hdd := h.apart_of_cons (q := d') (by simp)
  have hbd := h.bounds (p := d) (by simp)
  have hbd' := h.bounds (p := d') (by simp)
  rw [Multiset.cons_swap] at h
  have hd' := h.apart_of_cons (q := p) (by simp)
  omega

-- ... which replace it when both have been written.
theorem replaced_two (h : Pool base s (d ::ₘ d' ::ₘ p ::ₘ live)) (ho₁ : Only s.file.data data₁ d 64)
    (ho : Only data₁ data d' 64) : Pool base (storeFree (s.setData data) p) (d ::ₘ d' ::ₘ live) ∧
      Keeps live s (storeFree (s.setData data) p) := by
  obtain ⟨hw₁, hk₁⟩ := h.written ho₁
  rw [Multiset.cons_swap] at hw₁
  obtain ⟨hw, hk⟩ := hw₁.written ho
  rw [setData_setData] at hw hk
  rw [Multiset.cons_swap d', Multiset.cons_swap d' p, Multiset.cons_swap d p] at hw
  refine ⟨hw.free, (hk₁.mono ?_).trans (hk.mono ?_)⟩
  · exact fun q hq => by simp [hq]
  · exact fun q hq => by simp [hq]

end Copy

-- Distinct pages in a file of `size` bytes are fewer than `size`.
theorem card_le (h : Pool base s live) : live.card ≤ s.file.size := by
  have hc : live.toFinset.card = live.card := Multiset.toFinset_card_of_nodup h.nodup
  have hsub : live.toFinset ⊆ Finset.range s.file.size := by
    intro p hp
    have := h.bounds (Multiset.mem_toFinset.mp hp)
    exact Finset.mem_range.mpr (by omega)
  have := Finset.card_le_card hsub
  rw [Finset.card_range] at this
  omega

end Pool

end Adventure

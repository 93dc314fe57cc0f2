import Adventure.Library.Slots
import Adventure.Store.Open

namespace Adventure

open Ends Slots

-- A store with the regions that its callers hold, each with the size they asked for. `slots` are
-- all pages ever taken from the end of the file, with the size each was taken with.
structure Regions where
  store : Store
  held : List (Nat × Nat)
  slots : List (Nat × Nat)

inductive RegionOp
  | alloc (size : Nat)
  | free (i : Nat)

namespace Regions

-- The slots after an allocation: there is a new one if nothing was free.
def slotsWith (r : Regions) (p size : Nat) : List (Nat × Nat) :=
  match r.store.freeList with
  | some (_ :: _) => r.slots
  | _ => (p, size) :: r.slots

def step (r : Regions) : RegionOp → Option Regions
  | .alloc size => do
      let page ← storeAlloc r.store size
      return ⟨page.2, (page.1, size) :: r.held, r.slotsWith page.1 size⟩
  | .free i => do
      let region ← r.held[i]?
      return ⟨storeFree r.store region.1, r.held.eraseIdx i, r.slots⟩

-- A caller asks for some bytes, or frees what is held.
def Permits (r : Regions) : RegionOp → Prop
  | .alloc size => 0 < size
  | .free i => i < r.held.length

-- The page that store_alloc pops from the free list, if there is one, is long enough. The code
-- does not look at the size there.
def LongEnough (r : Regions) : RegionOp → Prop
  | .alloc size => ∀ p ∈ r.store.freeList.bind List.head?, ∃ slot ∈ r.slots, slot.1 = p ∧ size ≤ slot.2
  | .free _ => True

instance (r : Regions) : (op : RegionOp) → Decidable (r.Permits op)
  | .alloc size => inferInstanceAs (Decidable (0 < size))
  | .free i => inferInstanceAs (Decidable (i < r.held.length))

instance (r : Regions) : (op : RegionOp) → Decidable (r.LongEnough op)
  | .alloc size => inferInstanceAs (Decidable (∀ p ∈ r.store.freeList.bind List.head?,
      ∃ slot ∈ r.slots, slot.1 = p ∧ size ≤ slot.2))
  | .free _ => .isTrue trivial

-- The condition under which the regions stay apart.
def Fits (r : Regions) (op : RegionOp) : Prop := r.Permits op ∧ r.LongEnough op

instance (r : Regions) (op : RegionOp) : Decidable (r.Fits op) :=
  inferInstanceAs (Decidable (_ ∧ _))

-- A new store, in which the page of the free root is held.
def ofStore (s : Store) : Regions :=
  ⟨s, [(s.freeRoot, BTREE_DEF_PAGE_SIZE)], [(s.freeRoot, BTREE_DEF_PAGE_SIZE)]⟩

-- The states of all runs on a new file in which every reused page is long enough.
inductive Reached (disk : Disk) : Regions → Prop
  | opened {s : Store} : storeOpen disk none STORE_O_CREAT = some s → Reached disk (ofStore s)
  | step {r r' : Regions} (op : RegionOp) : Reached disk r → r.Fits op → r.step op = some r' →
      Reached disk r'

-- A run that stops at an operation that is not allowed.
def run (allowed : Regions → RegionOp → Prop) [∀ r op, Decidable (allowed r op)] :
    List RegionOp → Regions → Option Regions
  | [], r => some r
  | op :: ops, r => if allowed r op then (r.step op).bind (run allowed ops) else none

theorem Reached.run {disk : Disk} {ops : List RegionOp} {r r' : Regions} (hr : Reached disk r)
    (hrun : Regions.run Fits ops r = some r') : Reached disk r' :=
  guarded_rule (Regions.run Fits) Fits Regions.step (Reached disk) (fun _ => rfl) (fun _ _ _ => rfl)
    (fun _ op _ hr hfits hstep => .step op hr hfits hstep) hr hrun

-- The invariant of a run: the file from the header to the end pointer holds the slots.
structure Kept (r : Regions) : Prop where
  sound : r.store.Sound
  layout : ∃ free, r.store.freeList = some free ∧ Layout r.slots r.held free
  inside : ∀ slot ∈ r.slots, STORE_HEADER_SIZE ≤ slot.1 ∧ slot.1 + slot.2 ≤ r.store.endPos
  header_le : STORE_HEADER_SIZE ≤ r.store.endPos

variable {r r' : Regions}

theorem Kept.alloc {size : Nat} (hk : Kept r) (hsize : 0 < size) (hlong : r.LongEnough (.alloc size)) :
    Meets (r.step (.alloc size)) (¬r.store.Growable size) fun r' => Kept r' ∧
      (r.store.file.Grants → r'.store.file.Grants) := by
  obtain ⟨free, hfree, hl⟩ := hk.layout
  apply Meets.bind (storeAlloc_meets hk.sound size)
  rintro ⟨p, s⟩ ha
  refine Meets.pure ⟨?_, ha.grants⟩
  have hsound := ha.sound hk.sound
  cases ha with
  | reuse file p rest hg hlt hend hpop =>
      rw [hfree, Option.some.injEq] at hpop
      subst hpop
      obtain ⟨⟨p, m⟩, hm, rfl, hle⟩ := hlong p (by rw [hfree]; rfl)
      rw [show r.slotsWith p size = r.slots by rw [slotsWith, hfree]]
      exact ⟨hsound, ⟨rest, rfl, hl.reuse hm hle⟩, hk.inside, hk.header_le⟩
  | fresh file hg hlt hend hne =>
      cases free with
      | cons p rest => exact absurd hfree (hne p rest)
      | nil =>
          rw [show r.slotsWith r.store.endPos size = (r.store.endPos, size) :: r.slots by
            rw [slotsWith, hfree]]
          refine ⟨hsound, ⟨[], hfree, hl.cut hsize fun slot hslot => ?_⟩,
            List.forall_mem_cons.mpr ⟨⟨hk.header_le, le_rfl⟩, fun slot hslot => ?_⟩,
            hk.header_le.trans (Nat.le_add_right _ _)⟩
          · exact Or.inr (hk.inside slot hslot).2
          · obtain ⟨hlo, hhi⟩ := hk.inside slot hslot
            exact ⟨hlo, hhi.trans (Nat.le_add_right _ _)⟩

theorem Kept.free {i : Nat} (hk : Kept r) (hi : i < r.held.length) : ∃ r',
    r.step (.free i) = some r' ∧ Kept r' ∧ (r.store.file.Grants → r'.store.file.Grants) := by
  obtain ⟨free, hfree, hl⟩ := hk.layout
  obtain ⟨⟨p, n⟩, hget⟩ : ∃ region, r.held[i]? = some region := ⟨_, List.getElem?_eq_getElem hi⟩
  have hstep : r.step (.free i) = some ⟨storeFree r.store p, r.held.eraseIdx i, r.slots⟩ := by
    simp [Regions.step, hget]
  refine ⟨_, hstep, ⟨⟨hk.sound.end_le, hk.sound.size_pos, hk.sound.size_lt⟩,
    ⟨p :: free, ?_, hl.release hget⟩, hk.inside, hk.header_le⟩, id⟩
  simp [storeFree, hfree]

theorem Kept.step {op : RegionOp} (hk : Kept r) (hfits : r.Fits op) (hstep : r.step op = some r') :
    Kept r' ∧ (r.store.file.Grants → r'.store.file.Grants) := by
  cases op with
  | alloc size => exact (hk.alloc hfits.1 hfits.2).of_eq_some hstep
  | free i =>
      obtain ⟨r₁, hr₁, hk₁⟩ := hk.free hfits.1
      obtain rfl := Option.some.inj (hr₁.symm.trans hstep)
      exact hk₁

theorem Kept.opened {disk : Disk} {s : Store} (hopen : storeOpen disk none STORE_O_CREAT = some s) :
    Kept (ofStore s) ∧ (disk.Grants → s.file.Grants) := by
  obtain ⟨hpool, hend, hfree, hgrants⟩ := (storeOpen_meets disk).of_eq_some hopen
  obtain ⟨hlo, hhi⟩ := hpool.inside (Multiset.mem_singleton_self _)
  refine ⟨⟨hpool.sound, ⟨[], hfree, ?_, ?_, ?_, ?_⟩, ?_, ?_⟩, hgrants⟩
  · exact List.pairwise_singleton _ _
  · simp [ofStore, BTREE_DEF_PAGE_SIZE]
  · rfl
  · intro region hr
    exact ⟨region, hr, rfl, le_rfl⟩
  · simpa [ofStore] using ⟨hlo, hhi⟩
  · change 32 ≤ s.endPos
    omega

theorem Reached.kept {disk : Disk} (hr : Reached disk r) :
    Kept r ∧ (disk.Grants → r.store.file.Grants) := by
  induction hr with
  | opened hopen => exact Kept.opened hopen
  | step op _ hfits hstep ih =>
      obtain ⟨hk', hg⟩ := ih.1.step hfits hstep
      exact ⟨hk', fun h => hg (ih.2 h)⟩

-- The regions that are held stay apart, behind the header and before the end pointer, as long as
-- every reused page is long enough. Allocations return, except where the file would have to grow
-- beyond 2^62 bytes.
theorem regions_apart {disk : Disk} (hr : Reached disk r) :
    r.held.Pairwise Apart ∧
    (∀ region ∈ r.held, STORE_HEADER_SIZE ≤ region.1 ∧ region.1 + region.2 ≤ r.store.endPos) ∧
    r.store.endPos ≤ r.store.file.size ∧
    (disk.Grants → ∀ size, r.Fits (.alloc size) → r.store.endPos + size ≤ 2 ^ 62 →
      ∃ r', r.step (.alloc size) = some r') := by
  obtain ⟨hk, hgrants⟩ := hr.kept
  obtain ⟨free, -, hl⟩ := hk.layout
  refine ⟨hl.used_apart, hl.used_inside hk.inside, hk.sound.end_le, fun hdisk size hfits hroom => ?_⟩
  obtain ⟨r', hr', -⟩ := (hk.alloc hfits.1 hfits.2).exists_some (not_not.mpr ⟨hgrants hdisk, hroom⟩)
  exact ⟨r', hr'⟩

-- A page of 24 bytes is used again for 16.
theorem regions_apart_reused : ∃ r : Regions, r.held = [(128, 8), (104, 16), (96, 8), (32, 64)] ∧
    r.held.Pairwise Apart ∧ r.store.endPos ≤ r.store.file.size := by
  have h : ((storeOpen ⟨[], .granted⟩ none STORE_O_CREAT).bind fun s =>
      run Fits [.alloc 8, .alloc 24, .free 0, .alloc 16, .alloc 8] (ofStore s)).map (·.held) =
        some [(128, 8), (104, 16), (96, 8), (32, 64)] := by decide +kernel
  simp only [Option.map_eq_some_iff, Option.bind_eq_some_iff] at h
  obtain ⟨r, ⟨s, hopen, hrun⟩, hheld⟩ := h
  obtain ⟨hapart, -, hend, -⟩ := regions_apart ((Reached.opened hopen).run hrun)
  exact ⟨r, hheld, hapart, hend⟩

-- A page of 8 bytes is used again for 16, and the region reaches into the next page.
theorem regions_overlap : ∃ (s : Store) (r : Regions), storeOpen ⟨[], .granted⟩ none STORE_O_CREAT = some s ∧
    run Permits [.alloc 8, .alloc 8, .free 1, .alloc 16] (ofStore s) = some r ∧
    r.held = [(96, 16), (104, 8), (32, 64)] ∧ ¬r.held.Pairwise Apart := by
  have h : ((storeOpen ⟨[], .granted⟩ none STORE_O_CREAT).bind fun s =>
      (run Permits [.alloc 8, .alloc 8, .free 1, .alloc 16] (ofStore s)).map (·.held)) =
        some [(96, 16), (104, 8), (32, 64)] := by decide +kernel
  simp only [Option.map_eq_some_iff, Option.bind_eq_some_iff] at h
  obtain ⟨s, hopen, r, hrun, hheld⟩ := h
  refine ⟨s, r, hopen, hrun, hheld, ?_⟩
  rw [hheld]
  unfold Apart
  decide

end Regions

end Adventure

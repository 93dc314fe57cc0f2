import Adventure.Library.Slots
import Adventure.Store.Header

namespace Adventure

open Memory Ends Slots

-- A store with the pages that store_alloc has returned, each with the size it was asked for, and
-- those of them that were taken from the end of the file. Pages stay in these lists when they are
-- freed, and when the store is closed and opened again.
structure Session where
  store : Store
  returned : List (Nat × Nat)
  cut : List (Nat × Nat)

inductive SessionOp
  | alloc (size : Nat)
  | free (p : Nat)
  | extend
  | resize (size : Nat)
  | write (p : Nat) (bytes : List UInt8)
  | reopen (flags : Nat)

namespace Session

-- A page comes from the end of the file if nothing was free.
def cutWith (c : Session) (p size : Nat) : List (Nat × Nat) :=
  match c.store.freeList with
  | some (_ :: _) => c.cut
  | _ => (p, size) :: c.cut

def step (c : Session) : SessionOp → Option Session
  | .alloc size => do
      let page ← storeAlloc c.store size
      return ⟨page.2, (page.1, size) :: c.returned, c.cutWith page.1 size⟩
  | .free p => some { c with store := storeFree c.store p }
  | .extend => some { c with store := (storeExtend c.store).2 }
  | .resize size => some { c with store := (storeResize c.store size).2 }
  | .write p bytes =>
      -- a write to a file that is not mapped faults
      if c.store.file.mapped then some { c with store := c.store.setData (c.store.file.data.write p bytes) }
      else none
  | .reopen flags => do
      let store ← storeOpen c.store.file.disk (some (storeClose c.store)) flags
      return { c with store }

-- Only returned pages are freed, and the header is left alone.
def Permits (c : Session) : SessionOp → Prop
  | .free p => p ∈ c.returned.map Prod.fst
  | .write p _ => STORE_HEADER_SIZE ≤ p
  | .alloc _ | .extend | .resize _ | .reopen _ => True

instance (c : Session) : (op : SessionOp) → Decidable (c.Permits op)
  | .free p => inferInstanceAs (Decidable (p ∈ _))
  | .write _ _ => inferInstanceAs (Decidable (_ ≤ _))
  | .alloc _ | .extend | .resize _ | .reopen _ => .isTrue trivial

-- An allocation leaves fewer than 2^62 bytes in use.
def Bounded (c : Session) : SessionOp → Prop
  | .alloc size => c.store.endPos + size < 2 ^ 62
  | .free _ | .write _ _ | .extend | .resize _ | .reopen _ => True

-- A new store, with the page of the free root.
def ofStore (s : Store) : Session :=
  ⟨s, [(s.freeRoot, BTREE_DEF_PAGE_SIZE)], [(s.freeRoot, BTREE_DEF_PAGE_SIZE)]⟩

inductive Reached (disk : Disk) : Session → Prop
  | opened {s : Store} : storeOpen disk none STORE_O_CREAT = some s → Reached disk (ofStore s)
  | step {c c' : Session} (op : SessionOp) : Reached disk c → c.Permits op → c.step op = some c' →
      Reached disk c'

def run : List SessionOp → Session → Option Session
  | [], c => some c
  | op :: ops, c => if c.Permits op then (c.step op).bind (run ops) else none

theorem Reached.run {disk : Disk} {ops : List SessionOp} {c c' : Session} (hr : Reached disk c)
    (hrun : Session.run ops c = some c') : Reached disk c' :=
  guarded_rule Session.run Session.Permits Session.step (Reached disk) (fun _ => rfl) (fun _ _ _ => rfl)
    (fun _ op _ hc hop hstep => .step op hc hop hstep) hr hrun

-- The invariant of a session on a disk that grants every resize and maps the file again.
structure Kept (c : Session) : Prop where
  sound : c.store.Sound
  grants : c.store.file.Grants
  header : HeaderAt c.store
  header_le : STORE_HEADER_SIZE ≤ c.store.endPos
  apart : c.cut.Pairwise Apart
  cut_le : ∀ page ∈ c.cut, page.1 + page.2 ≤ c.store.endPos
  returned_in : ∀ page ∈ c.returned, STORE_HEADER_SIZE ≤ page.1 ∧ page.1 ≤ c.store.endPos ∧
    page.1 + page.2 ≤ c.store.file.size
  free_in : ∃ free, c.store.freeList = some free ∧
    ∀ p ∈ free, STORE_HEADER_SIZE ≤ p ∧ p ≤ c.store.endPos

variable {c c' : Session} {disk : Disk}

theorem endPos_resize (s : Store) (size : Nat) : (storeResize s size).2.endPos = s.endPos := by
  unfold storeResize
  split <;> rfl

namespace Kept

variable (hk : Kept c)

include hk

theorem room : 14 ≤ c.store.file.size := by
  have hend := hk.sound.end_le
  have hle : 32 ≤ c.store.endPos := hk.header_le
  omega

-- The store with its file grown, and with nothing else changed.
theorem grow {file : FsMap} (hg : c.store.file.Grown file) (hlt : file.size < 2 ^ 63) :
    Kept { c with store := { c.store with file } } where
  sound := ⟨hk.sound.end_le.trans hg.size_le, hk.sound.size_pos.trans_le hg.size_le, hlt⟩
  grants := hg.grants hk.grants
  header := by
    have hroom := hk.room
    have hsame : Same c.store.file.data file.data 0 14 := fun i _ hi => hg.same i (by omega)
    have h := hk.header.congr hsame
    exact ⟨h.magic, h.endPos⟩
  header_le := hk.header_le
  apart := hk.apart
  cut_le := hk.cut_le
  returned_in page hpage := by
    obtain ⟨hlo, hend, hin⟩ := hk.returned_in page hpage
    exact ⟨hlo, hend, hin.trans hg.size_le⟩
  free_in := hk.free_in

theorem resize (size : Nat) : Kept { c with store := (storeResize c.store size).2 } := by
  unfold storeResize
  by_cases hshrink : size < c.store.file.size
  · rw [if_pos hshrink]
    exact hk
  · rw [if_neg hshrink]
    have hlt := hk.sound.size_lt
    obtain ⟨hg, -, -, hsize⟩ := c.store.file.resize_cases size hk.sound.size_pos (by omega)
    refine hk.grow hg ?_
    rw [hsize]
    split <;> omega

theorem free {p : Nat} (hp : p ∈ c.returned.map Prod.fst) :
    Kept { c with store := storeFree c.store p } := by
  obtain ⟨free, hfree, hin⟩ := hk.free_in
  obtain ⟨page, hpage, rfl⟩ := List.mem_map.mp hp
  obtain ⟨hlo, hend, -⟩ := hk.returned_in page hpage
  exact ⟨⟨hk.sound.end_le, hk.sound.size_pos, hk.sound.size_lt⟩, hk.grants, hk.header.free page.1,
    hk.header_le, hk.apart, hk.cut_le, hk.returned_in, page.1 :: free,
    by simp [storeFree, hfree], List.forall_mem_cons.mpr ⟨⟨hlo, hend⟩, hin⟩⟩

theorem write {p : Nat} (hp : STORE_HEADER_SIZE ≤ p) (bytes : List UInt8) :
    Kept { c with store := c.store.setData (c.store.file.data.write p bytes) } := by
  have hp : 32 ≤ p := hp
  have hsame := (write_only c.store.file.data p bytes).same (q := 0) (b := 14) (by omega)
  exact ⟨⟨hk.sound.end_le, hk.sound.size_pos, hk.sound.size_lt⟩, hk.grants, hk.header.congr hsame,
    hk.header_le, hk.apart, hk.cut_le, hk.returned_in, hk.free_in⟩

-- A page from the end of the file lies behind all that came from there.
theorem allocated {s : Store} {p size : Nat} (ha : Allocated c.store size p s) :
    Kept ⟨s, (p, size) :: c.returned, c.cutWith p size⟩ ∧ c.store.endPos ≤ s.endPos := by
  have hsound := ha.sound hk.sound
  have hgrants := ha.grants hk.grants
  have hheader := hk.header.allocated hk.room ha
  have hgrow := ha.size_le
  obtain ⟨free, hfree, hin⟩ := hk.free_in
  cases ha with
  | reuse file p rest hg hlt hfit hpop =>
      rw [hfree, Option.some.injEq] at hpop
      subst hpop
      rw [List.forall_mem_cons] at hin
      obtain ⟨⟨hlo, hend⟩, hrest⟩ := hin
      have hcut : c.cutWith p size = c.cut := by rw [cutWith, hfree]
      rw [hcut]
      refine ⟨⟨hsound, hgrants, hheader, hk.header_le, hk.apart, hk.cut_le,
        List.forall_mem_cons.mpr ⟨⟨hlo, hend, ?_⟩, fun page hpage => ?_⟩, rest, rfl, hrest⟩, le_rfl⟩
      · exact (Nat.add_le_add_right hend size).trans hfit
      · obtain ⟨hlo', hend', hin'⟩ := hk.returned_in page hpage
        exact ⟨hlo', hend', hin'.trans hgrow⟩
  | fresh file hg hlt hfit hne =>
      cases free with
      | cons p rest => exact absurd hfree (hne p rest)
      | nil =>
          have hcut : c.cutWith c.store.endPos size = (c.store.endPos, size) :: c.cut := by
            rw [cutWith, hfree]
          have hle : c.store.endPos ≤ c.store.endPos + size := Nat.le_add_right _ _
          rw [hcut]
          refine ⟨⟨hsound, hgrants, hheader, hk.header_le.trans hle,
            List.pairwise_cons.mpr ⟨fun page hpage => Or.inr (hk.cut_le page hpage), hk.apart⟩,
            List.forall_mem_cons.mpr ⟨le_rfl, fun page hpage => (hk.cut_le page hpage).trans hle⟩,
            List.forall_mem_cons.mpr ⟨⟨hk.header_le, hle, hfit⟩, fun page hpage => ?_⟩,
            [], hfree, by simp⟩, hle⟩
          obtain ⟨hlo, hend, hin'⟩ := hk.returned_in page hpage
          exact ⟨hlo, hend.trans hle, hin'.trans hgrow⟩

-- The header brings the end pointer back. The list of free pages is lost.
theorem reopen (flags : Nat) : ∃ c', c.step (.reopen flags) = some c' ∧ Kept c' ∧
    c'.store.endPos = c.store.endPos := by
  have hsize : (storeClose c.store).size ≠ 0 := hk.sound.size_pos.ne'
  obtain ⟨s, hopen, hmagic, hend, hfile, hsame⟩ :=
    hk.header.reopen hk.sound hk.room c.store.file.disk flags
  have hstep : c.step (.reopen flags) = some { c with store := s } := by
    rw [step, hopen]
    rfl
  have hs := hopen
  rw [storeOpen_existing c.store.file.disk hsize flags] at hs
  have hfree : s.freeList = some [] := by rw [← Option.some.inj hs]; rfl
  have hgrants : s.file.Grants := by
    rw [← Option.some.inj hs]
    exact ⟨rfl, hk.grants.2⟩
  have hheader := hk.header.congr (hsame.mono (q := 0) (b := 14) le_rfl (by have := hk.room; omega))
  refine ⟨_, hstep, ⟨⟨?_, ?_, ?_⟩, ?_, ⟨hheader.magic, ?_⟩, ?_, hk.apart, ?_, ?_, [], hfree, ?_⟩, hend⟩
  · rw [hend, hfile]
    exact hk.sound.end_le
  · rw [hfile]
    exact hk.sound.size_pos
  · rw [hfile]
    exact hk.sound.size_lt
  · exact hgrants
  · rw [hend]
    exact hheader.endPos
  · rw [hend]
    exact hk.header_le
  · rw [hend]
    exact hk.cut_le
  · rw [hend, hfile]
    exact hk.returned_in
  · simp

-- One operation keeps the invariant and does not move the end pointer back.
theorem step {op : SessionOp} (hop : c.Permits op) (hstep : c.step op = some c') :
    Kept c' ∧ c.store.endPos ≤ c'.store.endPos := by
  cases op with
  | alloc size =>
      obtain ⟨page, halloc, hc'⟩ := Option.bind_eq_some_iff.mp hstep
      obtain rfl := Option.some.inj hc'
      exact hk.allocated ((storeAlloc_meets hk.sound size).of_eq_some halloc)
  | free p =>
      obtain rfl := Option.some.inj hstep
      exact ⟨hk.free hop, le_rfl⟩
  | extend =>
      obtain rfl := Option.some.inj hstep
      exact ⟨hk.resize _, (endPos_resize _ _).ge⟩
  | resize size =>
      obtain rfl := Option.some.inj hstep
      exact ⟨hk.resize size, (endPos_resize _ _).ge⟩
  | write p bytes =>
      rw [Session.step, if_pos hk.grants.1] at hstep
      obtain rfl := Option.some.inj hstep
      exact ⟨hk.write hop bytes, le_rfl⟩
  | reopen flags =>
      obtain ⟨c₁, hstep₁, hk', hend⟩ := hk.reopen flags
      obtain rfl := Option.some.inj (hstep₁.symm.trans hstep)
      exact ⟨hk', hend.ge⟩

theorem returns {op : SessionOp} (hbounded : c.Bounded op) : ∃ c', c.step op = some c' := by
  cases op with
  | alloc size =>
      obtain ⟨page, halloc, -⟩ := (storeAlloc_meets hk.sound size).exists_some
        (not_not.mpr ⟨hk.grants, hbounded.le⟩)
      rw [Session.step, halloc]
      exact ⟨_, rfl⟩
  | free p => exact ⟨_, rfl⟩
  | extend => exact ⟨_, rfl⟩
  | resize size => exact ⟨_, rfl⟩
  | write p bytes => exact ⟨_, if_pos hk.grants.1⟩
  | reopen flags =>
      obtain ⟨c', hstep, -⟩ := hk.reopen flags
      exact ⟨c', hstep⟩

end Kept

theorem kept_opened (hdisk : disk.Grants) {s : Store}
    (hopen : storeOpen disk none STORE_O_CREAT = some s) : Kept (ofStore s) := by
  obtain ⟨hpool, hend, hfree, hgrants⟩ := (storeOpen_meets disk).of_eq_some hopen
  obtain ⟨hlo, hhi⟩ := hpool.inside (Multiset.mem_singleton_self _)
  have hroot : STORE_HEADER_SIZE ≤ s.freeRoot ∧ s.freeRoot ≤ s.endPos ∧
      s.freeRoot + BTREE_DEF_PAGE_SIZE ≤ s.file.size :=
    ⟨hlo, (Nat.le_add_right _ _).trans hhi, hhi.trans hpool.sound.end_le⟩
  refine ⟨hpool.sound, hgrants hdisk, storeOpen_header hopen, ?_, List.pairwise_singleton _ _, ?_, ?_,
    [], hfree, by simp⟩
  · change 32 ≤ s.endPos
    omega
  · exact List.forall_mem_singleton.mpr hhi
  · exact List.forall_mem_singleton.mpr hroot

theorem Reached.kept (hdisk : disk.Grants) (hr : Reached disk c) : Kept c := by
  induction hr with
  | opened hopen => exact kept_opened hdisk hopen
  | step op _ hop hstep ih => exact (ih.step hop hstep).1

-- In every state of a session the end pointer is inside the file and is what the header says, the
-- pages ever taken from the end of the file do not meet, no operation moves the end pointer back,
-- and every operation returns, allocations below 2^62 bytes included.
theorem session_progress (hdisk : disk.Grants) (hr : Reached disk c) :
    c.store.endPos ≤ c.store.file.size ∧
    sub64 c.store.file.size c.store.endPos = c.store.file.size - c.store.endPos ∧
    storeReadUi64 c.store 6 = c.store.endPos ∧
    c.cut.Pairwise Apart ∧
    (∀ op c', c.Permits op → c.step op = some c' → c.store.endPos ≤ c'.store.endPos) ∧
    ∀ op, c.Bounded op → ∃ c', c.step op = some c' := by
  have hk := hr.kept hdisk
  have hend := hk.sound.end_le
  have hlt := hk.sound.size_lt
  refine ⟨hend, sub64_eq hend (by omega), ?_, hk.apart,
    fun op c' hop hstep => (hk.step hop hstep).2, fun op hbounded => hk.returns hbounded⟩
  have hheader := congrArg decode hk.header.endPos
  rw [decode_encode] at hheader
  rw [storeReadUi64_eq, word, hheader]
  exact Nat.mod_eq_of_lt (by omega)

-- Pages on both sides of a restart, with a resize that shrinks nothing.
theorem session_progress_reopened : ∃ c : Session, c.cut = [(136, 100), (96, 40), (32, 64)] ∧
    c.store.file.size = 256 ∧ c.cut.Pairwise Apart := by
  have h : ((storeOpen ⟨[], .granted⟩ none STORE_O_CREAT).bind fun s => run [.alloc 40, .free 96, .resize 10,
      .write 96 [1, 2, 3], .reopen 0, .alloc 100] (ofStore s)).map (fun c => (c.cut, c.store.file.size)) =
        some ([(136, 100), (96, 40), (32, 64)], 256) := by decide +kernel
  simp only [Option.map_eq_some_iff, Option.bind_eq_some_iff, Prod.mk.injEq] at h
  obtain ⟨c, ⟨s, hopen, hrun⟩, hcut, hsize⟩ := h
  obtain ⟨-, -, -, hapart, -, -⟩ := session_progress ⟨rfl, by simp⟩ ((Reached.opened hopen).run hrun)
  exact ⟨c, hcut, hsize, hapart⟩

-- A disk that grants every resize, in a process that cannot map the file again: the next allocation
-- writes the header of a file that is not mapped.
theorem session_unmapped : ∃ s : Store, storeOpen ⟨[.granted], ⟨true, false⟩⟩ none STORE_O_CREAT = some s ∧
    Reached ⟨[.granted], ⟨true, false⟩⟩ (ofStore s) ∧ (ofStore s).Bounded (.alloc 64) ∧
    (storeExtend s).2.file.size = 256 ∧ (ofStore s).step (.alloc 64) = none := by
  have h : ((storeOpen ⟨[.granted], ⟨true, false⟩⟩ none STORE_O_CREAT).map fun s =>
      (s.endPos, (storeExtend s).2.file.size, (storeAlloc s 64).isNone)) = some (96, 256, true) := by
    decide +kernel
  obtain ⟨s, hopen, hs⟩ := Option.map_eq_some_iff.mp h
  simp only [Prod.mk.injEq, Option.isNone_iff_eq_none] at hs
  obtain ⟨hend, hsize, halloc⟩ := hs
  refine ⟨s, hopen, .opened hopen, ?_, hsize, ?_⟩
  · change s.endPos + 64 < 2 ^ 62
    omega
  · rw [step, show (ofStore s).store = s from rfl, halloc]
    rfl

end Session

end Adventure

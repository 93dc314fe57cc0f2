import Adventure.Store.Open

namespace Adventure

open Memory

-- The answers to the requests to come.
def Disk.answer (disk : Disk) (n : Nat) : Answer := disk.answers.getD n disk.rest

-- A disk with the first `n` answers of a sequence of answers.
def Disk.first (answer : Nat → Answer) (n : Nat) : Disk := ⟨(List.range n).map answer, .refused⟩

def Store.onDisk (s : Store) (disk : Disk) : Store := { s with file := { s.file with disk } }

-- Request `n` is granted after `j` others, and the file is mapped again after it.
structure MapsAt (answer : Nat → Answer) (j n : Nat) : Prop where
  resized : (answer n).resized = true
  mapped : (answer n).mapped = true
  before : (List.range n).countP (fun i => (answer i).resized) = j

theorem countP_range_succ (p : Nat → Bool) (n : Nat) :
    (List.range (n + 1)).countP p = (if p 0 = true then 1 else 0) + (List.range n).countP (fun i => p (i + 1)) := by
  rw [List.range_succ_eq_map, List.countP_cons, List.countP_map, Nat.add_comm]
  rfl

namespace MapsAt

variable {answer : Nat → Answer} {j n : Nat}

theorem succ_iff : MapsAt answer j (n + 1) ↔ (answer (n + 1)).resized = true ∧ (answer (n + 1)).mapped = true ∧
    (if (answer 0).resized = true then 1 else 0) +
      (List.range n).countP (fun i => (answer (i + 1)).resized) = j := by
  rw [← countP_range_succ fun i => (answer i).resized]
  exact ⟨fun h => ⟨h.resized, h.mapped, h.before⟩, fun h => ⟨h.1, h.2.1, h.2.2⟩⟩

-- The same request as one of those after the first.
theorem succ_granted (h : (answer 0).resized = true) :
    MapsAt answer (j + 1) (n + 1) ↔ MapsAt (fun i => answer (i + 1)) j n := by
  rw [succ_iff, if_pos h, Nat.add_comm 1, Nat.add_right_cancel_iff]
  exact ⟨fun h => ⟨h.1, h.2.1, h.2.2⟩, fun h => ⟨h.resized, h.mapped, h.before⟩⟩

theorem succ_refused (h : ¬(answer 0).resized = true) :
    MapsAt answer j (n + 1) ↔ MapsAt (fun i => answer (i + 1)) j n := by
  rw [succ_iff, if_neg h, Nat.zero_add]
  exact ⟨fun h => ⟨h.1, h.2.1, h.2.2⟩, fun h => ⟨h.resized, h.mapped, h.before⟩⟩

-- The first request that is granted.
theorem zero_granted (h : (answer 0).resized = true) (hn : MapsAt answer 0 n) :
    n = 0 ∧ (answer 0).mapped = true := by
  cases n with
  | zero => exact ⟨rfl, hn.mapped⟩
  | succ n =>
      obtain ⟨-, -, hbefore⟩ := succ_iff.mp hn
      rw [if_pos h] at hbefore
      omega

theorem congr {answer' : Nat → Answer} {calls : Nat} (heq : ∀ i < calls, answer i = answer' i) (hn : n < calls)
    (h : MapsAt answer j n) : MapsAt answer' j n := by
  obtain ⟨hresized, hmapped, hbefore⟩ := h
  rw [heq n hn] at hresized hmapped
  refine ⟨hresized, hmapped, hbefore ▸ (List.countP_congr fun i hi => ?_)⟩
  rw [heq i ((List.mem_range.mp hi).trans hn)]

-- Once its list of answers is used up, a disk goes on granting or never grants again.
theorem le_length {disk : Disk} (h : MapsAt disk.answer j n) : n ≤ disk.answers.length + j := by
  by_contra hlarge
  obtain ⟨k, rfl⟩ := Nat.exists_eq_add_of_le (show disk.answers.length ≤ n by omega)
  have hrest : ∀ i, disk.answer (disk.answers.length + i) = disk.rest := by
    intro i
    unfold Disk.answer
    rw [List.getD_eq_getElem?_getD, List.getElem?_eq_none (Nat.le_add_right _ _), Option.getD_none]
  have hall : (List.range k).countP (fun i => (disk.answer (disk.answers.length + i)).resized) = k := by
    have hgranted := h.resized
    rw [hrest] at hgranted
    rw [List.countP_eq_length.mpr fun i _ => by rw [hrest, hgranted], List.length_range]
  have hbefore := h.before
  rw [List.range_add, List.countP_append, List.countP_map] at hbefore
  change _ + (List.range k).countP (fun i => (disk.answer (disk.answers.length + i)).resized) = j at hbefore
  omega

end MapsAt

theorem Disk.answer_next (disk : Disk) :
    disk.next.1 = disk.answer 0 ∧ disk.next.2.answer = fun n => disk.answer (n + 1) := by
  rcases disk with ⟨answers, rest⟩
  cases answers with
  | nil => exact ⟨rfl, rfl⟩
  | cons answer answers => exact ⟨rfl, rfl⟩

theorem Disk.answer_first (answer : Nat → Answer) {n calls : Nat} (hn : n < calls) :
    (first answer calls).answer n = answer n := by
  unfold first Disk.answer
  simp [hn]

-- After `j` doublings the file is no larger than a file can be, and has `size` free bytes. The
-- difference is that of store_alloc.
def Store.Fits (s : Store) (size j : Nat) : Prop :=
  s.file.size * 2 ^ j < 2 ^ 63 ∧ size ≤ sub64 (s.file.size * 2 ^ j) s.endPos

-- The first number of doublings that make room.
def Store.FirstFits (s : Store) (size j : Nat) : Prop := s.Fits size j ∧ ∀ i < j, ¬s.Fits size i

-- The file is mapped when it has been doubled `j` times, which takes at most `calls` requests.
def Store.MappedAfter (s : Store) (answer : Nat → Answer) (calls : Nat) : Nat → Prop
  | 0 => s.file.mapped = true
  | j + 1 => ∃ n < calls, MapsAt answer j n

-- With the first `calls` answers the file comes to have `size` free bytes, and is mapped when it does.
def Store.GrowsIn (s : Store) (answer : Nat → Answer) (size calls : Nat) : Prop :=
  ∃ j, s.FirstFits size j ∧ s.MappedAfter answer calls j

section Extend

variable {s : Store} {size : Nat}

theorem fits_zero (hlt : s.file.size < 2 ^ 63) :
    s.Fits size 0 ↔ size ≤ sub64 s.file.size s.endPos := by
  unfold Store.Fits
  rw [pow_zero, Nat.mul_one]
  exact and_iff_right hlt

theorem firstFits_zero (h : s.Fits size 0) {j : Nat} : s.FirstFits size j ↔ j = 0 := by
  constructor
  · intro hj
    by_contra hne
    exact hj.2 0 (Nat.pos_of_ne_zero hne) h
  · rintro rfl
    exact ⟨h, fun i hi => absurd hi (Nat.not_lt_zero i)⟩

-- A file that was doubled needs one doubling less.
theorem firstFits_doubled {s' : Store} (hend : s'.endPos = s.endPos) (hsize : s'.file.size = s.file.size * 2)
    (hnot : ¬s.Fits size 0) {j : Nat} : s'.FirstFits size j ↔ s.FirstFits size (j + 1) := by
  have hfits : ∀ j, s'.Fits size j ↔ s.Fits size (j + 1) := by
    intro j
    unfold Store.Fits
    rw [hend, hsize, Nat.mul_assoc, ← pow_succ']
  unfold Store.FirstFits
  rw [hfits j]
  refine and_congr_right fun _ => ⟨fun h i hi => ?_, fun h i hi => ?_⟩
  · cases i with
    | zero => exact hnot
    | succ i => exact mt (hfits i).mpr (h i (Nat.lt_of_succ_lt_succ hi))
  · exact mt (hfits i).mp (h (i + 1) (Nat.succ_lt_succ hi))

theorem firstFits_congr {s' : Store} (hend : s'.endPos = s.endPos) (hsize : s'.file.size = s.file.size)
    {j : Nat} : s'.FirstFits size j ↔ s.FirstFits size j := by
  unfold Store.FirstFits Store.Fits
  rw [hend, hsize]

-- A file that cannot be doubled once more makes no room.
theorem not_fits_large (hlarge : ¬s.file.size * 2 < 2 ^ 63) (hnot : ¬s.Fits size 0) (j : Nat) :
    ¬s.Fits size j := by
  cases j with
  | zero => exact hnot
  | succ j =>
      rintro ⟨hlt, -⟩
      have hpow : 1 ≤ 2 ^ j := Nat.one_le_two_pow
      have hle : s.file.size * 2 ≤ s.file.size * 2 ^ (j + 1) :=
        Nat.mul_le_mul_left _ (by rw [pow_succ]; omega)
      omega

-- What an extended store can get with the answers after the first is what the store can get with all
-- of them.
theorem growsIn_extended {file : FsMap} {calls : Nat} (hdisk : file.disk = s.file.disk.next.2)
    (hmapped : file.mapped = s.file.disk.next.1.mapped)
    (hsize : file.size = if s.file.disk.next.1.resized = true ∧ s.file.size * 2 < 2 ^ 63
      then s.file.size * 2 else s.file.size) (hnot : ¬s.Fits size 0) :
    Store.GrowsIn { s with file } file.disk.answer size calls ↔
      s.GrowsIn s.file.disk.answer size (calls + 1) := by
  obtain ⟨hfirst, hnext⟩ := s.file.disk.answer_next
  rw [hdisk, hnext]
  rw [hfirst] at hmapped hsize
  by_cases hgranted : (s.file.disk.answer 0).resized = true
  · by_cases hlt : s.file.size * 2 < 2 ^ 63
    · rw [if_pos ⟨hgranted, hlt⟩] at hsize
      constructor
      · rintro ⟨j, hj, hafter⟩
        refine ⟨j + 1, (firstFits_doubled (by rfl) hsize hnot).mp hj, ?_⟩
        cases j with
        | zero => exact ⟨0, Nat.succ_pos _, hgranted, hmapped.symm.trans hafter, rfl⟩
        | succ j =>
            obtain ⟨n, hn, hmaps⟩ := hafter
            exact ⟨n + 1, Nat.succ_lt_succ hn, (MapsAt.succ_granted hgranted).mpr hmaps⟩
      · rintro ⟨j, hj, hafter⟩
        cases j with
        | zero => exact absurd hj.1 hnot
        | succ j =>
            obtain ⟨n, hn, hmaps⟩ := hafter
            refine ⟨j, (firstFits_doubled (by rfl) hsize hnot).mpr hj, ?_⟩
            cases j with
            | zero => exact hmapped.trans (hmaps.zero_granted hgranted).2
            | succ j =>
                cases n with
                | zero => exact absurd hmaps.before (by simp)
                | succ n =>
                    exact ⟨n, Nat.lt_of_succ_lt_succ hn, (MapsAt.succ_granted hgranted).mp hmaps⟩
    · rw [if_neg (fun h => hlt h.2)] at hsize
      have hnone := not_fits_large hlt hnot
      constructor
      · rintro ⟨j, hj, -⟩
        exact absurd ((firstFits_congr (by rfl) hsize).mp hj).1 (hnone j)
      · rintro ⟨j, hj, -⟩
        exact absurd hj.1 (hnone j)
  · rw [if_neg (fun h => hgranted h.1)] at hsize
    constructor
    · rintro ⟨j, hj, hafter⟩
      have hj' : s.FirstFits size j := (firstFits_congr (by rfl) hsize).mp hj
      cases j with
      | zero => exact absurd hj'.1 hnot
      | succ j =>
          obtain ⟨n, hn, hmaps⟩ := hafter
          exact ⟨j + 1, hj', n + 1, Nat.succ_lt_succ hn, (MapsAt.succ_refused hgranted).mpr hmaps⟩
    · rintro ⟨j, hj, hafter⟩
      cases j with
      | zero => exact absurd hj.1 hnot
      | succ j =>
          obtain ⟨n, hn, hmaps⟩ := hafter
          cases n with
          | zero => exact absurd hmaps.resized hgranted
          | succ n =>
              exact ⟨j + 1, (firstFits_congr (by rfl) hsize).mpr hj, n, Nat.lt_of_succ_lt_succ hn,
                (MapsAt.succ_refused hgranted).mp hmaps⟩

-- With room there is no other call, and the page can be used if the file is mapped.
theorem allocCalls_of_fits (calls : Nat) (hlt : s.file.size < 2 ^ 63) (hroom : s.Fits size 0) :
    (∃ r, storeAllocCalls (calls + 1) s size = some r ∧ r.2.file.mapped = true) ↔
      s.file.mapped = true := by
  rw [fits_zero hlt] at hroom
  rw [storeAllocCalls, if_neg (Nat.not_lt.mpr hroom)]
  split
  · constructor
    · rintro ⟨r, hr, hmapped⟩
      cases hr
      exact hmapped
    · exact fun hmapped => ⟨_, rfl, hmapped⟩
  · by_cases hmapped : s.file.mapped = true
    · rw [if_pos hmapped]
      exact iff_of_true ⟨_, rfl, hmapped⟩ hmapped
    · rw [if_neg hmapped]
      refine iff_of_false ?_ hmapped
      rintro ⟨r, hr, -⟩
      cases hr

-- With `calls` more calls of itself store_alloc comes to an end with a page that can be used if and
-- only if the answers in between make enough room and leave the file mapped.
theorem allocCalls_iff (calls : Nat) (hpos : 0 < s.file.size) (hlt : s.file.size < 2 ^ 63) :
    (∃ r, storeAllocCalls (calls + 1) s size = some r ∧ r.2.file.mapped = true) ↔
      s.GrowsIn s.file.disk.answer size calls := by
  induction calls generalizing s with
  | zero =>
      by_cases hroom : s.Fits size 0
      · rw [allocCalls_of_fits 0 hlt hroom]
        constructor
        · exact fun hmapped => ⟨0, (firstFits_zero hroom).mpr rfl, hmapped⟩
        · rintro ⟨j, hj, hafter⟩
          obtain rfl := (firstFits_zero hroom).mp hj
          exact hafter
      · have hfull : size > sub64 s.file.size s.endPos := Nat.not_le.mp (mt (fits_zero hlt).mpr hroom)
        obtain ⟨file, hextend, -⟩ := storeExtend_cases hpos hlt
        rw [storeAllocCalls, if_pos hfull, hextend]
        constructor
        · rintro ⟨r, hr, -⟩
          cases hr
        rintro ⟨j, hj, hafter⟩
        cases j with
        | zero => exact absurd hj.1 hroom
        | succ j =>
            obtain ⟨n, hn, -⟩ := hafter
            exact absurd hn (Nat.not_lt_zero n)
  | succ calls ih =>
      by_cases hroom : s.Fits size 0
      · rw [allocCalls_of_fits _ hlt hroom]
        constructor
        · exact fun hmapped => ⟨0, (firstFits_zero hroom).mpr rfl, hmapped⟩
        · rintro ⟨j, hj, hafter⟩
          obtain rfl := (firstFits_zero hroom).mp hj
          exact hafter
      · have hfull : size > sub64 s.file.size s.endPos := Nat.not_le.mp (mt (fits_zero hlt).mpr hroom)
        obtain ⟨file, hextend, -, hdisk, hmapped, hsize⟩ := storeExtend_cases hpos hlt
        have hcalls : storeAllocCalls (calls + 2) s size = storeAllocCalls (calls + 1) { s with file } size := by
          rw [storeAllocCalls, if_pos hfull, hextend]
          rfl
        have hsize' : 0 < file.size ∧ file.size < 2 ^ 63 := by
          rw [hsize]
          split <;> omega
        rw [hcalls, ih hsize'.1 hsize'.2]
        exact growsIn_extended hdisk hmapped hsize hroom

-- The calls that the model makes are enough: with none of them left no call ever ends with a page
-- that can be used.
theorem alloc_eq_none_iff (hpos : 0 < s.file.size) (hlt : s.file.size < 2 ^ 63) :
    storeAlloc s size = none ↔
      ∀ calls r, storeAllocCalls calls s size = some r → r.2.file.mapped = false := by
  constructor
  · intro hnone calls r hr
    cases calls with
    | zero => cases hr
    | succ calls =>
        by_contra hmapped
        obtain ⟨j, hj, hafter⟩ := (allocCalls_iff calls hpos hlt).mp ⟨r, hr, by simpa using hmapped⟩
        have hsmall : j < 63 := by
          by_contra hlarge
          have hpow : 2 ^ 63 ≤ 2 ^ j := Nat.pow_le_pow_right Nat.two_pos (Nat.not_lt.mp hlarge)
          have hbig := Nat.le_mul_of_pos_left (2 ^ j) hpos
          have hfile := hj.1.1
          omega
        have hgrows : s.GrowsIn s.file.disk.answer size (s.file.disk.answers.length + 65) := by
          refine ⟨j, hj, ?_⟩
          cases j with
          | zero => exact hafter
          | succ j =>
              obtain ⟨n, -, hmaps⟩ := hafter
              have hn := hmaps.le_length
              exact ⟨n, by omega, hmaps⟩
        obtain ⟨r, hr, hmapped⟩ := (allocCalls_iff _ hpos hlt).mpr hgrows
        rw [storeAlloc, Option.filter_eq_none_iff] at hnone
        exact hnone r hr hmapped
  · intro hnone
    rw [storeAlloc, Option.filter_eq_none_iff]
    intro r hr
    rw [hnone _ r hr]
    exact Bool.false_ne_true

-- A page that is taken from the free list of a file that is not mapped is missing there.
theorem allocCalls_keeps {calls p : Nat} {s' : Store} (h : storeAllocCalls calls s size = some (p, s'))
    (hpos : 0 < s.file.size) (hlt : s.file.size < 2 ^ 63) (hfree : s'.freeList = s.freeList) :
    s'.file.mapped = true := by
  induction calls generalizing s with
  | zero => cases h
  | succ calls ih =>
      rw [storeAllocCalls] at h
      by_cases hfull : size > sub64 s.file.size s.endPos
      · obtain ⟨file, hextend, -, -, -, hsize⟩ := storeExtend_cases hpos hlt
        rw [if_pos hfull, hextend] at h
        have hsize' : 0 < file.size ∧ file.size < 2 ^ 63 := by
          rw [hsize]
          split <;> omega
        exact ih h hsize'.1 hsize'.2 hfree
      · rw [if_neg hfull] at h
        split at h
        · rename_i q rest hpop
          obtain ⟨-, rfl⟩ := Prod.mk.inj (Option.some.inj h)
          rw [hpop, Option.some.injEq] at hfree
          exact absurd hfree.symm (List.cons_ne_self q rest)
        · split at h
          · rename_i hmapped
            obtain ⟨-, rfl⟩ := Prod.mk.inj (Option.some.inj h)
            exact hmapped
          · cases h

-- On a disk that refuses every resize, store_alloc calls itself for ever when there is no room.
theorem allocCalls_refused (hdisk : s.file.disk = ⟨[], .refused⟩) (hpos : 0 < s.file.size)
    (hlt : s.file.size < 2 ^ 63) (hfull : size > sub64 s.file.size s.endPos) (calls : Nat) :
    storeAllocCalls calls s size = none := by
  induction calls generalizing s with
  | zero => rfl
  | succ calls ih =>
      obtain ⟨file, hextend, -, hdisk', -, hsize⟩ := storeExtend_cases hpos hlt
      rw [hdisk, if_neg (fun h => Bool.false_ne_true h.1)] at hsize
      rw [hdisk] at hdisk'
      rw [storeAllocCalls, if_pos hfull, hextend]
      apply ih hdisk'
      · exact hsize ▸ hpos
      · exact hsize ▸ hlt
      · rwa [← hsize] at hfull

end Extend

theorem Store.GrowsIn.congr {s : Store} {answer answer' : Nat → Answer} {size calls : Nat}
    (heq : ∀ n < calls, answer n = answer' n) (h : s.GrowsIn answer size calls) :
    s.GrowsIn answer' size calls := by
  obtain ⟨j, hj, hafter⟩ := h
  refine ⟨j, hj, ?_⟩
  cases j with
  | zero => exact hafter
  | succ j =>
      obtain ⟨n, hn, hmaps⟩ := hafter
      exact ⟨n, hn, hmaps.congr heq hn⟩

-- With these answers of the disk the file comes to have `size` free bytes at some time, and is mapped
-- when it first does.
def Store.CanGrow (s : Store) (answer : Nat → Answer) (size : Nat) : Prop :=
  ∃ calls, s.GrowsIn answer size calls

-- What store_alloc is to do with these answers: it returns, and where the file cannot be grown enough
-- it returns 0 and leaves the store as it was. It asks for fewer answers than it makes calls.
def ReportsFailure (s : Store) (answer : Nat → Answer) (size : Nat) : Prop := ∃ calls p s',
  storeAllocCalls calls (s.onDisk (Disk.first answer calls)) size = some (p, s') ∧
  (¬s.CanGrow answer size → p = 0 ∧ s'.endPos = s.endPos ∧ s'.freeList = s.freeList ∧
    s'.file.data.read 0 STORE_HEADER_SIZE = s.file.data.read 0 STORE_HEADER_SIZE)

section Full

variable {s : Store} (hpos : 0 < s.file.size) (hlt : s.file.size < 2 ^ 63) (size : Nat)
  (answer : Nat → Answer)

include hpos hlt

theorem allocCalls_first_iff (calls : Nat) :
    (∃ r, storeAllocCalls (calls + 1) (s.onDisk (Disk.first answer (calls + 1))) size = some r ∧
      r.2.file.mapped = true) ↔ s.GrowsIn answer size calls := by
  have heq : ∀ n < calls, (Disk.first answer (calls + 1)).answer n = answer n :=
    fun n hn => Disk.answer_first answer (hn.trans (Nat.lt_succ_self calls))
  refine (allocCalls_iff (s := s.onDisk (Disk.first answer (calls + 1))) calls hpos hlt).trans ?_
  exact ⟨Store.GrowsIn.congr heq, Store.GrowsIn.congr fun n hn => (heq n hn).symm⟩

end Full

end Adventure

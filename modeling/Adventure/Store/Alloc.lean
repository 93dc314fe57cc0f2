import Adventure.Library.Ends
import Adventure.Store

namespace Adventure

open Memory Ends

theorem storeWriteUi64_eq (s : Store) (p : Nat) (n : Nat) :
    storeWriteUi64 s p n = s.setData (s.file.data.setWord p n) := rfl

theorem storeReadUi64_eq (s : Store) (p : Nat) : storeReadUi64 s p = s.file.data.word p := by
  simp only [storeReadUi64, word, decode, Memory.read, List.foldl_cons, List.foldl_nil,
    Nat.shiftLeft_or_distrib, ← Nat.shiftLeft_add, Nat.zero_shiftLeft, Nat.zero_or, Nat.shiftLeft_zero,
    Nat.reduceAdd, Nat.add_assoc, Nat.add_zero]

theorem storeCopy_eq (s : Store) (di si : Nat) (size : Nat) :
    storeCopy s di si size = s.setData (s.file.data.copy di si size) := by
  by_cases h : size > 0
  · rw [storeCopy, if_pos h]
  · have hn : s.file.data.copy di si size = s.file.data := by
      funext i
      exact copy_only _ _ _ _ i (by omega)
    rw [storeCopy, if_neg h, hn]
    rfl

section SetData

variable (s : Store) (data : Memory)

@[simp] theorem setData_magic : (s.setData data).magic = s.magic := rfl
@[simp] theorem setData_endPos : (s.setData data).endPos = s.endPos := rfl
@[simp] theorem setData_freeList : (s.setData data).freeList = s.freeList := rfl
@[simp] theorem setData_freeRoot : (s.setData data).freeRoot = s.freeRoot := rfl
@[simp] theorem setData_data : (s.setData data).file.data = data := rfl
@[simp] theorem setData_size : (s.setData data).file.size = s.file.size := rfl
@[simp] theorem setData_disk : (s.setData data).file.disk = s.file.disk := rfl
@[simp] theorem setData_mapped : (s.setData data).file.mapped = s.file.mapped := rfl

@[simp] theorem setData_setData (data' : Memory) :
    (s.setData data).setData data' = s.setData data' := rfl

end SetData

theorem add64_eq {a b : Nat} (h : a + b < 2 ^ 64) : add64 a b = a + b := Nat.mod_eq_of_lt h

theorem sub64_eq {a b : Nat} (hle : b ≤ a) (hlt : a < 2 ^ 64) : sub64 a b = a - b := by
  unfold sub64
  omega

theorem mul64_eq {a b : Nat} (h : a * b < 2 ^ 64) : mul64 a b = a * b := Nat.mod_eq_of_lt h

-- The end pointer stays inside a file that the file system can hold.
structure Store.Sound (s : Store) : Prop where
  end_le : s.endPos ≤ s.file.size
  size_pos : 0 < s.file.size
  size_lt : s.file.size < 2 ^ 63

-- The file is mapped, the disk grants every resize and maps the file again, and `bytes` more bytes
-- stay within what it can hold.
structure Store.Growable (s : Store) (bytes : Nat) : Prop where
  grants : s.file.Grants
  room : s.endPos + bytes ≤ 2 ^ 62

theorem Store.Growable.mono {s : Store} {a b : Nat} (h : s.Growable b) (hab : a ≤ b) :
    s.Growable a := ⟨h.grants, by have := h.room; omega⟩

-- The file is mapped and has `bytes` free bytes as it is.
structure Store.Room (s : Store) (bytes : Nat) : Prop where
  mapped : s.file.mapped = true
  room : s.endPos + bytes ≤ s.file.size

-- What store_alloc needs to come back.
def Store.Serves (s : Store) (bytes : Nat) : Prop := s.Room bytes ∨ s.Growable bytes

-- All that store_alloc can do: extend the file, then pop the free list or take from the end.
inductive Allocated (s : Store) (size : Nat) : Nat → Store → Prop
  | reuse (file : FsMap) (p : Nat) (rest : List Nat) :
      s.file.Grown file → file.size < 2 ^ 63 → s.endPos + size ≤ file.size →
      s.freeList = some (p :: rest) →
      Allocated s size p { s with file, freeList := some rest }
  | fresh (file : FsMap) :
      s.file.Grown file → file.size < 2 ^ 63 → s.endPos + size ≤ file.size →
      (∀ p rest, s.freeList ≠ some (p :: rest)) →
      Allocated s size s.endPos
        (storeWriteUi64 { s with file, endPos := s.endPos + size } 6 (s.endPos + size))

-- What an extension does to a store: its file is doubled or keeps its size, and is mapped or not.
theorem storeExtend_cases {s : Store} (hpos : 0 < s.file.size) (hlt : s.file.size < 2 ^ 63) :
    ∃ file, storeExtend s = (0, { s with file }) ∧ s.file.Grown file ∧
      file.disk = s.file.disk.next.2 ∧ file.mapped = s.file.disk.next.1.mapped ∧
      file.size = if s.file.disk.next.1.resized = true ∧ s.file.size * 2 < 2 ^ 63 then s.file.size * 2
        else s.file.size := by
  have hm : mul64 s.file.size 2 = s.file.size * 2 := mul64_eq (by omega)
  have hge : ¬s.file.size * 2 < s.file.size := by omega
  obtain ⟨hg, hdisk, hmapped, hsize⟩ := s.file.resize_cases (s.file.size * 2) hpos (by omega)
  unfold storeExtend storeResize
  rw [hm, if_neg hge]
  exact ⟨_, rfl, hg, hdisk, hmapped, hsize⟩

theorem Store.Sound.extend {s : Store} (hs : s.Sound) : ∃ file, storeExtend s = (0, { s with file }) ∧
    s.file.Grown file ∧ Store.Sound { s with file } ∧
    (s.file.Grants → s.file.size < 2 ^ 62 → file.size = s.file.size * 2) := by
  have hlt := hs.size_lt
  obtain ⟨file, heq, hg, -, -, hsize⟩ := storeExtend_cases hs.size_pos hlt
  refine ⟨file, heq, hg, ⟨hs.end_le.trans hg.size_le, hs.size_pos.trans_le hg.size_le, ?_⟩, fun hgrants hsmall => ?_⟩
  · change file.size < 2 ^ 63
    rw [hsize]
    split <;> omega
  · obtain ⟨hanswer, -⟩ := hgrants.2.next
    rw [hsize, hanswer]
    exact if_pos ⟨rfl, by omega⟩

theorem storeAllocCalls_allocated (calls : Nat) {s s' : Store} {size : Nat} {p : Nat}
    (hs : s.Sound) (h : storeAllocCalls calls s size = some (p, s')) : Allocated s size p s' := by
  induction calls generalizing s with
  | zero => cases h
  | succ calls ih =>
      have hlt := hs.size_lt
      have hend := hs.end_le
      have hfree : sub64 s.file.size s.endPos = s.file.size - s.endPos := sub64_eq hend (by omega)
      simp only [storeAllocCalls, hfree] at h
      by_cases hroom : size > s.file.size - s.endPos
      · -- one extension, and then what the remaining calls do to the extended store
        obtain ⟨file, heq, hg, hs', -⟩ := hs.extend
        simp only [if_pos hroom, heq, ite_true] at h
        have ha := ih hs' h
        cases ha with
        | reuse file p rest hg' hl hr hf =>
            exact .reuse file p rest (hg.trans hg') hl hr hf
        | fresh file hg' hl hr hf =>
            exact .fresh file (hg.trans hg') hl hr hf
      · have hfit : s.endPos + size ≤ s.file.size := by omega
        simp only [if_neg hroom] at h
        split at h
        · rename_i p rest hf
          cases h
          exact .reuse s.file p rest (.refl _) hlt hfit hf
        · rename_i hf
          by_cases hmapped : s.file.mapped = true
          · simp only [if_pos hmapped] at h
            cases h
            rw [add64_eq (by omega)]
            exact .fresh s.file (.refl _) hlt hfit hf
          · simp only [if_neg hmapped] at h
            cases h

-- With room there is no other call.
theorem storeAllocCalls_room (calls : Nat) {s : Store} {size : Nat} (hs : s.Sound) (hroom : s.Room size) :
    ∃ r, storeAllocCalls (calls + 1) s size = some r ∧ r.2.file.mapped = true := by
  have hmapped := hroom.mapped
  have hfit := hroom.room
  have hfree : sub64 s.file.size s.endPos = s.file.size - s.endPos :=
    sub64_eq hs.end_le (by have := hs.size_lt; omega)
  have hnot : ¬size > s.file.size - s.endPos := by omega
  simp only [storeAllocCalls, hfree, if_neg hnot]
  split
  · exact ⟨_, rfl, hmapped⟩
  · rw [if_pos hmapped]
    exact ⟨_, rfl, hmapped⟩

-- With a granting disk each further call doubles the file until the request fits.
theorem storeAllocCalls_grows (calls : Nat) {s : Store} {size : Nat} (hs : s.Sound)
    (hgrow : s.Growable size) (hcalls : 2 ^ 62 ≤ s.file.size * 2 ^ calls) :
    ∃ r, storeAllocCalls (calls + 1) s size = some r ∧ r.2.file.mapped = true := by
  have hfit := hgrow.room
  induction calls generalizing s with
  | zero => exact storeAllocCalls_room 0 hs ⟨hgrow.grants.1, by omega⟩
  | succ calls ih =>
      have hlt := hs.size_lt
      have hend := hs.end_le
      by_cases hroom : s.endPos + size ≤ s.file.size
      · exact storeAllocCalls_room _ hs ⟨hgrow.grants.1, hroom⟩
      · have hfree : sub64 s.file.size s.endPos = s.file.size - s.endPos :=
          sub64_eq hend (by omega)
        have hfull : size > s.file.size - s.endPos := by omega
        obtain ⟨file, heq, hg, hs', hdouble⟩ := hs.extend
        rw [storeAllocCalls, hfree, if_pos hfull, heq]
        refine ih hs' ⟨hg.grants hgrow.grants, hfit⟩ ?_ hfit
        change 2 ^ 62 ≤ file.size * 2 ^ calls
        rw [hdouble hgrow.grants (by omega), Nat.mul_assoc, ← pow_succ']
        exact hcalls

-- The specification of store_alloc: it returns if there is room or the file can grow.
theorem storeAlloc_returns {s : Store} (hs : s.Sound) (size : Nat) :
    Meets (storeAlloc s size) (¬s.Serves size) fun r => Allocated s size r.1 r.2 := by
  rw [meets_iff]
  refine ⟨fun _ hr => storeAllocCalls_allocated _ hs (Option.filter_eq_some_iff.mp hr).1, fun hn => ?_⟩
  have hnone : ¬∃ r, storeAllocCalls (s.file.disk.answers.length + 66) s size = some r ∧
      r.2.file.mapped = true := by
    rintro ⟨r, hr, hmapped⟩
    rw [storeAlloc, Option.filter_eq_none_iff] at hn
    exact hn r hr hmapped
  rintro (hroom | hgrow)
  · exact hnone (storeAllocCalls_room _ hs hroom)
  · refine hnone (storeAllocCalls_grows (s.file.disk.answers.length + 65) hs hgrow ?_)
    have hpow : 2 ^ 62 ≤ 2 ^ (s.file.disk.answers.length + 65) :=
      Nat.pow_le_pow_right (by omega) (by omega)
    exact hpow.trans (Nat.le_mul_of_pos_left _ hs.size_pos)

-- The same for callers that do not count on the room that is there.
theorem storeAlloc_meets {s : Store} (hs : s.Sound) (size : Nat) :
    Meets (storeAlloc s size) (¬s.Growable size) fun r => Allocated s size r.1 r.2 :=
  (storeAlloc_returns hs size).mono (mt Or.inr) fun _ h => h

namespace Allocated

variable {s s' : Store} {size : Nat} {p : Nat}

theorem sound (h : Allocated s size p s') (hs : s.Sound) : s'.Sound := by
  have hpos := hs.size_pos
  cases h with
  | reuse file p rest hg hl hr hf =>
      exact ⟨(Nat.le_add_right _ _).trans hr, hpos.trans_le hg.size_le, hl⟩
  | fresh file hg hl hr hf => exact ⟨hr, hpos.trans_le hg.size_le, hl⟩

theorem endPos_le (h : Allocated s size p s') : s'.endPos ≤ s.endPos + size := by
  cases h with
  | reuse => exact Nat.le_add_right _ _
  | fresh => exact le_rfl

theorem size_le (h : Allocated s size p s') : s.file.size ≤ s'.file.size := by
  cases h with
  | reuse file p rest hg => exact hg.size_le
  | fresh file hg => exact hg.size_le

theorem grants (h : Allocated s size p s') (hgrants : s.file.Grants) :
    s'.file.Grants := by
  cases h with
  | reuse file p rest hg => exact hg.grants hgrants
  | fresh file hg => exact hg.grants hgrants

-- Of the bytes the file had, only the header's copy of the end pointer changes.
theorem data_eq (h : Allocated s size p s') {i : Nat} (hi : i < s.file.size)
    (hout : ¬(6 ≤ i ∧ i < 14)) : s'.file.data i = s.file.data i := by
  cases h with
  | reuse file p rest hg => exact hg.same i hi
  | fresh file hg =>
      rw [storeWriteUi64_eq, setData_data]
      exact (setWord_only _ _ _ i (by omega)).trans (hg.same i hi)

theorem same (h : Allocated s size p s') {q count : Nat} (hq : 14 ≤ q)
    (hin : q + count ≤ s.file.size) : Same s.file.data s'.file.data q count :=
  fun i hi hj => h.data_eq (by omega) (by omega)

-- With nothing on the free list, the page comes from the end.
theorem of_empty (h : Allocated s size p s') (hfree : s.freeList = some []) :
    p = s.endPos ∧ s'.endPos = s.endPos + size ∧ s'.freeList = some [] := by
  cases h with
  | reuse file p rest hg hl hr hpop =>
      rw [hfree] at hpop
      cases hpop
  | fresh => exact ⟨rfl, rfl, hfree⟩

-- Otherwise it is the first page there.
theorem of_cons {q : Nat} {free : List Nat} (h : Allocated s size p s')
    (hfree : s.freeList = some (q :: free)) :
    p = q ∧ s'.endPos = s.endPos ∧ s'.freeList = some free := by
  cases h with
  | reuse file p rest hg hl hr hpop =>
      rw [hfree, Option.some.injEq, List.cons.injEq] at hpop
      obtain ⟨rfl, rfl⟩ := hpop
      exact ⟨rfl, rfl, rfl⟩
  | fresh file hg hl hr hne => exact absurd hfree (hne q free)

end Allocated

-- What a call does to a store apart from its bytes and its free list: the end pointer moves by at
-- most `bytes`.
structure Spent (s s' : Store) (bytes : Nat) : Prop where
  grants : s.file.Grants → s'.file.Grants
  end_le : s'.endPos ≤ s.endPos + bytes
  freeRoot_eq : s'.freeRoot = s.freeRoot

namespace Spent

variable {s s' s'' : Store} {a b : Nat}

theorem refl (s : Store) : Spent s s 0 := ⟨id, le_rfl, rfl⟩

theorem trans (h : Spent s s' a) (h' : Spent s' s'' b) : Spent s s'' (a + b) where
  grants hg := h'.grants (h.grants hg)
  end_le := by
    have := h.end_le
    have := h'.end_le
    omega
  freeRoot_eq := h'.freeRoot_eq.trans h.freeRoot_eq

theorem mono (h : Spent s s' a) (hab : a ≤ b) : Spent s s' b :=
  { h with end_le := h.end_le.trans (Nat.add_le_add_left hab _) }

-- What could not be had afterwards could not be had before, with what was spent on top.
theorem growable (h : Spent s s' a) (hn : ¬s'.Growable b) : ¬s.Growable (a + b) := by
  intro hg
  have hroom := hg.room
  have hle := h.end_le
  exact hn ⟨h.grants hg.grants, by omega⟩

-- The same within a larger budget.
theorem stuck {c : Nat} (h : Spent s s' a) (hle : a + b ≤ c) (hn : ¬s'.Growable b) :
    ¬s.Growable c := mt (fun hg => hg.mono hle) (h.growable hn)

theorem setData (h : Spent s s' a) (data : Memory) : Spent s (s'.setData data) a :=
  ⟨h.grants, h.end_le, h.freeRoot_eq⟩

theorem free (h : Spent s s' a) (p : Nat) : Spent s (storeFree s' p) a :=
  ⟨h.grants, h.end_le, h.freeRoot_eq⟩

end Spent

theorem Allocated.spent {s s' : Store} {size p : Nat} (h : Allocated s size p s') :
    Spent s s' size where
  grants := h.grants
  end_le := h.endPos_le
  freeRoot_eq := by cases h <;> rfl

end Adventure

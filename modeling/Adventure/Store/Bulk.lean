import Adventure.Store.Progress

namespace Adventure

open Memory

-- A write that is read back, and changes nothing else.
def WritesBack (s : Store) (p m : Nat) : Prop := ∀ data : List UInt8, data.length = m →
  storeRead (storeWrite s p data m) p m = data ∧
    Only s.file.data (storeWrite s p data m).file.data p m

-- A write that changes no byte behind the end of the file.
def WritesInside (s : Store) (p m : Nat) : Prop := ∀ data : List UInt8, data.length = m →
  ∀ i, s.file.size ≤ i → (storeWrite s p data m).file.data i = s.file.data i

section Write

variable {s : Store} {p m : Nat} {data : List UInt8}

theorem storeWrite_done (hroom : s.file.size > add64 s.endPos m) (hlen : data.length = m) :
    storeWrite s p data m = s.setData (s.file.data.write p data) := by
  unfold storeWrite
  rw [if_pos hroom, List.take_of_length_le hlen.le]

theorem storeWrite_refused (hroom : ¬s.file.size > add64 s.endPos m) :
    storeWrite s p data m = s := if_neg hroom

-- Some other byte than the one that is there.
theorem exists_other (byte : UInt8) : ∃ other, other ≠ byte := by
  by_cases h : byte = 0
  · exact ⟨1, by rw [h]; decide⟩
  · exact ⟨0, Ne.symm h⟩

theorem writesBack_iff : WritesBack s p m ↔ m = 0 ∨ s.file.size > add64 s.endPos m := by
  constructor
  · intro h
    by_contra hnot
    obtain ⟨hm, hroom⟩ := not_or.mp hnot
    -- other bytes than the ones that are there are refused as well
    obtain ⟨byte, hbyte⟩ := exists_other (s.file.data p)
    obtain ⟨m, rfl⟩ := Nat.exists_eq_succ_of_ne_zero hm
    have hread := (h (List.replicate (m + 1) byte) List.length_replicate).1
    rw [storeWrite_refused hroom, storeRead, Memory.read, List.replicate_succ, List.cons.injEq] at hread
    exact hbyte hread.1.symm
  · rintro h data hlen
    by_cases hroom : s.file.size > add64 s.endPos m
    · rw [storeWrite_done hroom hlen, ← hlen]
      exact ⟨read_write p data, write_only _ p data⟩
    · obtain rfl := h.resolve_right hroom
      rw [storeWrite_refused hroom, List.length_eq_zero_iff.mp hlen]
      exact ⟨rfl, Only.refl _ _ _⟩

theorem writesInside_iff : WritesInside s p m ↔
    m = 0 ∨ ¬s.file.size > add64 s.endPos m ∨ p + m ≤ s.file.size := by
  constructor
  · intro h
    by_contra hnot
    simp only [not_or, not_not] at hnot
    obtain ⟨hm, hroom, hout⟩ := hnot
    -- the last byte lies behind the end of the file
    obtain ⟨byte, hbyte⟩ := exists_other (s.file.data (p + m - 1))
    have hlast := h (List.replicate m byte) List.length_replicate (p + m - 1) (by omega)
    rw [storeWrite_done hroom List.length_replicate, setData_data, Memory.write,
      if_pos (by rw [List.length_replicate]; omega)] at hlast
    apply hbyte
    rw [← hlast]
    simp [List.getD_eq_getElem?_getD, show p + m - 1 - p < m by omega]
  · intro h data hlen i hi
    by_cases hroom : s.file.size > add64 s.endPos m
    · rw [storeWrite_done hroom hlen]
      apply write_only
      omega
    · rw [storeWrite_refused hroom]

end Write

namespace Session

variable {c : Session} {disk : Disk}

-- A page that store_alloc has returned is in the file. What is written to it is read back if and
-- only if the file has room for as many bytes more behind the end pointer, wherever the page is. A
-- write that goes beyond the file is held back by the same room only.
theorem session_bulk (hdisk : disk.Grants) (hr : Reached disk c) :
    (∀ page ∈ c.returned, page.1 + page.2 ≤ c.store.file.size ∧ ∀ m ≤ page.2,
      (WritesBack c.store page.1 m ↔ m = 0 ∨ c.store.endPos + m < c.store.file.size)) ∧
    ∀ p m, WritesInside c.store p m ↔
      m = 0 ∨ c.store.file.size ≤ add64 c.store.endPos m ∨ p + m ≤ c.store.file.size := by
  have hk := hr.kept hdisk
  refine ⟨fun page hpage => ?_, fun p m => ?_⟩
  · obtain ⟨-, -, hin⟩ := hk.returned_in page hpage
    refine ⟨hin, fun m hm => ?_⟩
    have hend := hk.sound.end_le
    have hlt := hk.sound.size_lt
    rw [writesBack_iff, add64_eq (by omega)]
  · rw [writesInside_iff, Nat.not_lt]

-- Bytes that fit behind the end pointer are read back.
theorem session_bulk_room : ∃ c : Session, (96, 16) ∈ c.returned ∧ WritesBack c.store 96 8 := by
  have h : ((storeOpen ⟨[], .granted⟩ none STORE_O_CREAT).bind fun s => run [.alloc 16] (ofStore s)).map
      (fun c => (c.returned, c.store.endPos, c.store.file.size)) =
        some ([(96, 16), (32, 64)], 112, 128) := by decide +kernel
  simp only [Option.map_eq_some_iff, Option.bind_eq_some_iff, Prod.mk.injEq] at h
  obtain ⟨c, ⟨s, hopen, hrun⟩, hreturned, hend, hsize⟩ := h
  obtain ⟨hpages, -⟩ := session_bulk ⟨rfl, by simp⟩ ((Reached.opened hopen).run hrun)
  have hpage : (96, 16) ∈ c.returned := by simp [hreturned]
  refine ⟨c, hpage, ((hpages _ hpage).2 8 (by decide)).mpr (Or.inr ?_)⟩
  rw [hend, hsize]
  decide

-- A page that fills the file cannot be written, and a write far behind the file is made.
theorem session_bulk_refused : ∃ s : Store,
    (storeOpen ⟨[], .granted⟩ none STORE_O_CREAT).bind (fun s => storeAlloc s 32) = some (96, s) ∧
      storeRead (storeWrite s 96 [7] 1) 96 1 = [0] ∧
    ∃ s : Store, storeOpen ⟨[], .granted⟩ none STORE_O_CREAT = some s ∧ s.file.size = 128 ∧
      s.file.data 1000 = 0 ∧ (storeWrite s 1000 [7] 1).file.data 1000 = 7 := by
  have h : ((storeOpen ⟨[], .granted⟩ none STORE_O_CREAT).bind fun s => storeAlloc s 32).map
      (fun r => (r.1, storeRead (storeWrite r.2 96 [7] 1) 96 1)) = some (96, [0]) := by decide +kernel
  have h' : ((storeOpen ⟨[], .granted⟩ none STORE_O_CREAT).map fun s => (s.file.size, s.file.data 1000,
      (storeWrite s 1000 [7] 1).file.data 1000)) = some (128, 0, 7) := by decide +kernel
  obtain ⟨⟨p, s⟩, halloc, hread⟩ := Option.map_eq_some_iff.mp h
  obtain ⟨rfl, hread⟩ := Prod.mk.inj hread
  obtain ⟨s', hopen, hbytes⟩ := Option.map_eq_some_iff.mp h'
  simp only [Prod.mk.injEq] at hbytes
  exact ⟨s, halloc, hread, s', hopen, hbytes⟩

end Session

end Adventure

import Adventure.Library.Memory

namespace Adventure

-- What the operating system makes of one resize request: whether the file has the requested size
-- afterwards, and whether it can be mapped again.
structure Answer where
  resized : Bool
  mapped : Bool

namespace Answer

def granted : Answer := ⟨true, true⟩
def refused : Answer := ⟨false, true⟩

end Answer

-- The answers to the resize requests of one file: `answers` in order, then `rest` for ever.
structure Disk where
  answers : List Answer
  rest : Answer

def Disk.next (disk : Disk) : Answer × Disk :=
  match disk.answers with
  | [] => (disk.rest, disk)
  | answer :: answers => (answer, { disk with answers })

-- Every resize request from now on is granted, and the file is mapped again each time.
def Disk.Grants (disk : Disk) : Prop :=
  disk.rest = .granted ∧ ∀ answer ∈ disk.answers, answer = .granted

-- struct fs_map. The mapping is shared, so its bytes are the bytes of the file. They cannot be
-- accessed while the file is not mapped: `data` is then MAP_FAILED, or what munmap has taken away.
structure FsMap where
  data : Memory
  size : Nat
  mapped : Bool
  disk : Disk

def FsMap.Grants (file : FsMap) : Prop := file.mapped = true ∧ file.disk.Grants

def fsCreateFile (disk : Disk) (size : Nat) : FsMap := ⟨fun _ => 0, size, false, disk⟩

-- ftruncate takes a signed offset, so a size from 2^63 on is refused like a full disk is.
-- The check macro clears errno before the error path reads it: the code is 0 on both paths.
def fsResizeFile (file : FsMap) (size : Nat) : Nat × FsMap :=
  if file.disk.next.1.resized ∧ size < 2 ^ 63 then
    (0, { file with data := fun i => if i < file.size ∧ i < size then file.data i else 0, size })
  else (0, file)

-- A file without bytes cannot be mapped. Bytes outside the file read as nothing was there. A file
-- that is opened is taken to be mapped: what fails here fails before there is a store.
def fsMap (file : FsMap) : Option FsMap :=
  if file.size = 0 then none
  else some { file with data := fun i => if i < file.size then file.data i else 0, mapped := true }

def fsUnmap (file : FsMap) : FsMap := { file with mapped := false }

-- fs_remap takes the mapping away before it makes the new one, and ignores a failure: check_mem lets
-- MAP_FAILED pass. The size is the new one then, and the next access to the bytes faults.
def fsRemap (file : FsMap) : FsMap :=
  let (answer, disk) := file.disk.next
  let file := { fsUnmap file with disk }
  if answer.mapped then (fsMap file).getD file else file

theorem Disk.Grants.next {disk : Disk} (h : disk.Grants) :
    disk.next.1 = .granted ∧ disk.next.2.Grants := by
  rcases disk with ⟨answers, rest⟩
  cases answers with
  | nil => exact ⟨h.1, h⟩
  | cons answer answers =>
      exact ⟨h.2 answer (by simp), h.1, fun a ha => h.2 a (List.mem_cons_of_mem _ ha)⟩

-- What any number of resizes can do to the file: it keeps its bytes and does not shrink.
structure FsMap.Grown (file file' : FsMap) : Prop where
  size_le : file.size ≤ file'.size
  same : ∀ i < file.size, file'.data i = file.data i
  grants : file.Grants → file'.Grants

theorem FsMap.Grown.refl (file : FsMap) : file.Grown file := ⟨le_rfl, fun _ _ => rfl, id⟩

theorem FsMap.Grown.trans {file file' file'' : FsMap} (h : file.Grown file')
    (h' : file'.Grown file'') : file.Grown file'' where
  size_le := h.size_le.trans h'.size_le
  same i hi := (h'.same i (hi.trans_le h.size_le)).trans (h.same i hi)
  grants hg := h'.grants (h.grants hg)

-- What the remap after a resize does to a file that is not empty.
theorem fsRemap_eq (file : FsMap) (hpos : file.size ≠ 0) : ∃ data, fsRemap file =
    { data, size := file.size, mapped := file.disk.next.1.mapped, disk := file.disk.next.2 } ∧
      ∀ i < file.size, data i = file.data i := by
  unfold fsRemap
  by_cases hmapped : file.disk.next.1.mapped = true
  · refine ⟨fun i => if i < file.size then file.data i else 0, ?_, fun i hi => if_pos hi⟩
    simp only [hmapped, if_true, fsMap, fsUnmap, hpos, if_false, Option.getD_some]
    rfl
  · refine ⟨file.data, ?_, fun _ _ => rfl⟩
    simp only [Bool.eq_false_iff.mpr hmapped, Bool.false_eq_true, if_false, fsUnmap]

-- A resize that does not shrink, followed by the remap: either the request was refused, or the
-- file has exactly the requested size. It is mapped if the new mapping could be made.
theorem FsMap.resize_cases (file : FsMap) (size : Nat) (hpos : 0 < file.size) (hsize : file.size ≤ size) :
    file.Grown (fsRemap (fsResizeFile file size).2) ∧
      (fsRemap (fsResizeFile file size).2).disk = file.disk.next.2 ∧
      (fsRemap (fsResizeFile file size).2).mapped = file.disk.next.1.mapped ∧
      (fsRemap (fsResizeFile file size).2).size =
        if file.disk.next.1.resized = true ∧ size < 2 ^ 63 then size else file.size := by
  have hgrants : file.Grants → file.disk.next.1.mapped = true ∧ file.disk.next.2.Grants := by
    intro hg
    obtain ⟨hanswer, hnext⟩ := hg.2.next
    exact ⟨by rw [hanswer]; rfl, hnext⟩
  unfold fsResizeFile
  by_cases h : file.disk.next.1.resized = true ∧ size < 2 ^ 63
  · simp only [if_pos h]
    obtain ⟨data, heq, hdata⟩ := fsRemap_eq { file with
      data := fun i => if i < file.size ∧ i < size then file.data i else 0, size } (show size ≠ 0 by omega)
    rw [heq]
    refine ⟨⟨hsize, fun i hi => (hdata i (hi.trans_le hsize)).trans ?_, hgrants⟩, rfl, rfl, rfl⟩
    exact if_pos ⟨hi, hi.trans_le hsize⟩
  · simp only [if_neg h]
    obtain ⟨data, heq, hdata⟩ := fsRemap_eq file (by omega)
    rw [heq]
    exact ⟨⟨le_rfl, hdata, hgrants⟩, rfl, rfl, rfl⟩

end Adventure

import Adventure.Store.Open

namespace Adventure

open Memory Ends

-- The first bytes of the file: the magic string, and a copy of the end pointer.
structure HeaderAt (s : Store) : Prop where
  magic : s.file.data.read 0 6 = STORE_MAGIC
  endPos : s.file.data.read 6 8 = encode 8 s.endPos

namespace HeaderAt

variable {s s' : Store} {size p : Nat}

theorem bytes (h : HeaderAt s) : s.file.data.read 0 14 = STORE_MAGIC ++ encode 8 s.endPos := by
  rw [show 14 = 6 + 8 from rfl, read_append, h.magic, Nat.zero_add, h.endPos]

theorem congr (h : HeaderAt s) {data : Memory} (hs : Same s.file.data data 0 14) :
    HeaderAt (s.setData data) where
  magic := (read_shift fun i hi => hs (0 + i) (by omega) (by omega)).trans h.magic
  endPos := (read_shift fun i hi => hs (6 + i) (by omega) (by omega)).trans h.endPos

theorem free (h : HeaderAt s) (p : Nat) : HeaderAt (storeFree s p) := ⟨h.magic, h.endPos⟩

-- store_alloc writes the end pointer whenever it moves it.
theorem allocated (h : HeaderAt s) (hroom : 14 ≤ s.file.size) (ha : Allocated s size p s') :
    HeaderAt s' := by
  cases ha with
  | reuse file p rest hg =>
      exact ⟨(read_shift fun i hi => hg.same (0 + i) (by omega)).trans h.magic,
        (read_shift fun i hi => hg.same (6 + i) (by omega)).trans h.endPos⟩
  | fresh file hg =>
      refine ⟨?_, ?_⟩
      · refine (read_shift fun i hi => ?_).trans h.magic
        rw [storeWriteUi64_eq, setData_data, setWord_only _ _ _ _ (by omega)]
        exact hg.same (0 + i) (by omega)
      · have hw := read_write (m := file.data) 6 (encode 8 (s.endPos + size))
        rwa [length_encode] at hw

end HeaderAt

theorem freshStore_header (disk : Disk) : HeaderAt (freshStore disk) := by
  refine ⟨?_, ?_⟩
  · rfl
  · rw [freshStore_endPos]
    rfl

theorem storeOpen_header {disk : Disk} {s : Store}
    (hopen : storeOpen disk none STORE_O_CREAT = some s) : HeaderAt s := by
  have hsound := freshStore_sound disk
  rw [storeOpen_fresh, Option.bind_eq_some_iff] at hopen
  obtain ⟨r, hr, hs⟩ := hopen
  obtain ⟨hpage, -⟩ := (btreeCreate_fresh hsound rfl).of_eq_some hr
  rw [btreeCreate, Option.bind_eq_bind, Option.bind_eq_some_iff] at hr
  obtain ⟨⟨d, s₁⟩, halloc, hr⟩ := hr
  obtain rfl := Option.some.inj hr
  have ha := (storeAlloc_meets hsound 64).of_eq_some halloc
  have hd : d = 32 := hpage.trans (freshStore_endPos disk)
  have h₁ := (freshStore_header disk).allocated (show 14 ≤ 64 by omega) ha
  have hw := setWord_only s₁.file.data d
    (hdrWord (BTREE_LEAF ||| BTREE_ROOT) BTREE_DEF_PAGE_SIZE 0 BTREE_HEADER_SIZE)
  obtain rfl := Option.some.inj hs
  simp only [btreeHdrWrite, writeUi64_eq s₁ _ (show 0 < 2 ^ 16 by omega) (show d + 0 < 2 ^ 64 by omega)]
  have h₂ := h₁.congr (hw.same (by omega))
  exact ⟨h₂.magic, h₂.endPos⟩

-- Opening a file that is there reads the header; the list of free pages starts empty.
def reopened (file : FsMap) : Store :=
  { storeReadHdr { magic := [], endPos := 0, file, freeList := none, freeRoot := 0 } with
    freeList := some [] }

theorem storeOpen_existing (disk : Disk) {file : FsMap} (hsize : file.size ≠ 0) (flags : Nat) :
    storeOpen disk (some file) flags =
      some (reopened
        { file with data := fun i => if i < file.size then file.data i else 0, mapped := true }) := by
  have hcreate : ((some file : Option FsMap).isNone && decide (flags &&& STORE_O_CREAT ≠ 0)) = false :=
    rfl
  unfold storeOpen
  simp only [hcreate, Bool.false_eq_true, if_false, Option.bind_eq_bind, Option.bind_some, fsMap,
    if_neg hsize]
  rfl

-- A store that was closed comes back with the same end pointer and the same bytes.
theorem HeaderAt.reopen {s : Store} (h : HeaderAt s) (hs : s.Sound) (hroom : 14 ≤ s.file.size)
    (disk : Disk) (flags : Nat) : ∃ s', storeOpen disk (some (storeClose s)) flags = some s' ∧
      s'.magic = STORE_MAGIC ∧ s'.endPos = s.endPos ∧ s'.file.size = s.file.size ∧
      Same s.file.data s'.file.data 0 s.file.size := by
  have hsize : (storeClose s).size ≠ 0 := hs.size_pos.ne'
  have hend := hs.end_le
  have hlt := hs.size_lt
  have hsame : Same s.file.data (fun i => if i < s.file.size then s.file.data i else 0) 0 s.file.size :=
    fun i _ hi => if_pos (by omega)
  have h' := h.congr (hsame.mono (q := 0) (b := 14) le_rfl (by omega))
  refine ⟨_, storeOpen_existing disk hsize flags, h'.magic, ?_, rfl, hsame⟩
  change storeReadUi64 _ 6 = _
  rw [storeReadUi64_eq, word]
  apply (congrArg decode h'.endPos).trans
  rw [decode_encode, setData_endPos, Nat.mod_eq_of_lt (by omega)]

-- A store that was closed and opened again. The list of free pages is lost.
structure Reopened (s s' : Store) : Prop where
  sound : s'.Sound
  header : HeaderAt s'
  magic_eq : s'.magic = STORE_MAGIC
  end_eq : s'.endPos = s.endPos
  free_eq : s'.freeList = some []
  mapped : s'.file.mapped = true
  disk_eq : s'.file.disk = s.file.disk
  same : Same s.file.data s'.file.data 0 s.file.size

theorem HeaderAt.reopened {s : Store} (h : HeaderAt s) (hs : s.Sound) (hroom : 14 ≤ s.file.size) (disk : Disk)
    (flags : Nat) : ∃ s', storeOpen disk (some (storeClose s)) flags = some s' ∧ Reopened s s' := by
  have hsize : (storeClose s).size ≠ 0 := hs.size_pos.ne'
  obtain ⟨s', hopen, hmagic, hend, hfile, hsame⟩ := h.reopen hs hroom disk flags
  have hs' := hopen
  rw [storeOpen_existing disk hsize flags] at hs'
  have hheader := h.congr (hsame.mono (q := 0) (b := 14) le_rfl (by omega))
  refine ⟨s', hopen, ⟨?_, ?_, ?_⟩, ⟨hheader.magic, ?_⟩, hmagic, hend, ?_, ?_, ?_, hsame⟩
  · rw [hend, hfile]
    exact hs.end_le
  · rw [hfile]
    exact hs.size_pos
  · rw [hfile]
    exact hs.size_lt
  · rw [hend]
    exact hheader.endPos
  · rw [← Option.some.inj hs']
    rfl
  · rw [← Option.some.inj hs']
    rfl
  · rw [← Option.some.inj hs']
    rfl

theorem Reopened.grants {s s' : Store} (h : Reopened s s') (hg : s.file.Grants) : s'.file.Grants :=
  ⟨h.mapped, h.disk_eq ▸ hg.2⟩

end Adventure

import Adventure.Btree
import Adventure.Page.Theorems
import Adventure.Store.Pool

namespace Adventure

open Memory Ends

-- store_open on a file that may exist. `disk` answers for a file that is created here.
def storeOpen (disk : Disk) (file : Option FsMap) (flags : Nat) : Option Store := do
  let create := file.isNone && flags &&& STORE_O_CREAT ≠ 0
  let file ← if create then some (fsCreateFile disk STORE_INIT_FILE_SIZE) else file
  let file ← fsMap file
  let s : Store := { magic := [], endPos := 0, file, freeList := none, freeRoot := 0 }
  let s ← if create then do
      let (freeRoot, s) ← btreeCreate (storeReadHdr (storeWriteHdr s))
      pure { s with freeRoot }
    else pure (storeReadHdr s)
  return { s with freeList := some [] }

-- The store of a new file with its header written, before the free root is made.
def freshStore (disk : Disk) : Store :=
  storeReadHdr (storeWriteHdr
    { magic := [], endPos := 0, freeList := none, freeRoot := 0,
      file := ⟨fun i => if i < STORE_INIT_FILE_SIZE then 0 else 0, STORE_INIT_FILE_SIZE, true, disk⟩ })

theorem fsMap_created (disk : Disk) :
    fsMap (fsCreateFile disk STORE_INIT_FILE_SIZE) =
      some ⟨fun i => if i < STORE_INIT_FILE_SIZE then 0 else 0, STORE_INIT_FILE_SIZE, true, disk⟩ := by
  have hsize : (fsCreateFile disk STORE_INIT_FILE_SIZE).size ≠ 0 := Nat.succ_ne_zero _
  rw [fsMap, if_neg hsize]
  rfl

theorem storeOpen_fresh (disk : Disk) : storeOpen disk none STORE_O_CREAT =
    (btreeCreate (freshStore disk)).bind fun r =>
      some { r.2 with freeRoot := r.1, freeList := some [] } := by
  have hcreate : ((none : Option FsMap).isNone && decide (STORE_O_CREAT &&& STORE_O_CREAT ≠ 0)) =
      true := by decide
  unfold storeOpen
  simp only [hcreate, if_true]
  rw [Option.bind_eq_bind, Option.bind_some, fsMap_created, Option.bind_eq_bind, Option.bind_some,
    freshStore]
  generalize btreeCreate _ = created
  cases created <;> rfl

theorem freshStore_endPos (disk : Disk) : (freshStore disk).endPos = 32 := by
  rw [freshStore, storeReadHdr, storeReadUi64_eq, storeWriteHdr, storeWriteUi64_eq, setData_data,
    word_setWord]
  rfl

theorem freshStore_sound (disk : Disk) : (freshStore disk).Sound := by
  have hend := freshStore_endPos disk
  have hsize : (freshStore disk).file.size = 64 := rfl
  exact ⟨by omega, by omega, by omega⟩

-- Before there is a free list, pages come from the end of the file.
theorem btreeCreate_fresh {s : Store} (hs : s.Sound) (hf : s.freeList = none) :
    Meets (btreeCreate s) (¬s.Growable 64) fun r =>
      r.1 = s.endPos ∧ r.2.endPos = s.endPos + 64 ∧ r.2.Sound ∧ Spent s r.2 64 := by
  unfold btreeCreate
  apply Meets.bind (storeAlloc_meets hs 64)
  rintro ⟨d, s₁⟩ ha
  have hs₁ : s₁.Sound := ha.sound hs
  have hspent := ha.spent.setData (s₁.file.data.setWord d
    (hdrWord (BTREE_LEAF ||| BTREE_ROOT) BTREE_DEF_PAGE_SIZE 0 BTREE_HEADER_SIZE))
  have hd : d = s.endPos ∧ s₁.endPos = s.endPos + 64 := by
    cases ha with
    | reuse file p rest hg hl hr hfree => rw [hf] at hfree; cases hfree
    | fresh => exact ⟨rfl, rfl⟩
  have hlt : d < 2 ^ 63 := by
    have := hs₁.end_le
    have := hs₁.size_lt
    omega
  simp only [btreeHdrWrite, writeUi64_eq s₁ _ (show 0 < 2 ^ 16 by omega) (show d + 0 < 2 ^ 64 by omega)]
  exact Meets.pure ⟨hd.1, hd.2, ⟨hs₁.end_le, hs₁.size_pos, hs₁.size_lt⟩, hspent⟩

-- A fresh store has handed out one page, the root of the tree that store_open makes.
theorem storeOpen_meets (disk : Disk) :
    Meets (storeOpen disk none STORE_O_CREAT) (¬disk.Grants) fun s =>
      Pool Base.empty s {s.freeRoot} ∧ s.endPos = 96 ∧ s.freeList = some [] ∧
        (disk.Grants → s.file.Grants) := by
  have hend := freshStore_endPos disk
  have hgrow : disk.Grants → (freshStore disk).Growable 64 := fun hg => ⟨⟨rfl, hg⟩, by omega⟩
  rw [storeOpen_fresh]
  refine Meets.bind ((btreeCreate_fresh (freshStore_sound disk) rfl).mono (mt hgrow) fun _ h => h) ?_
  rintro ⟨d, s⟩ ⟨rfl, he, hs, hspent⟩
  rw [hend] at he
  refine Meets.pure ⟨⟨⟨hs.end_le, hs.size_pos, hs.size_lt⟩, [], 1, rfl, he, ?_⟩, he, rfl,
    fun hg => hspent.grants ⟨rfl, hg⟩⟩
  change ({(freshStore disk).endPos} : Multiset Nat) + _ = _
  rw [hend]
  rfl

end Adventure

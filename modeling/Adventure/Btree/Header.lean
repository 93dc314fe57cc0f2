import Adventure.Btree.Visit
import Adventure.Store.Header

namespace Adventure

open Memory Ends

-- A page that does not reach into the header of the file.
def Beyond (p : Nat) : Prop := STORE_HEADER_SIZE ≤ p ∧ p < 2 ^ 63

-- The header is right, and store_alloc returns no page that covers it.
structure Shielded (s : Store) : Prop where
  sound : s.Sound
  header : HeaderAt s
  end_ge : STORE_HEADER_SIZE ≤ s.endPos
  free : ∀ p ∈ s.freeList.getD [], Beyond p

namespace Shielded

variable {s : Store} {p : Nat}

theorem room (h : Shielded s) : 14 ≤ s.file.size := by
  have hend := h.sound.end_le
  have hge : 32 ≤ s.endPos := h.end_ge
  omega

theorem setData (h : Shielded s) {data : Memory} (hs : Same s.file.data data 0 14) :
    Shielded (s.setData data) where
  sound := ⟨h.sound.end_le, h.sound.size_pos, h.sound.size_lt⟩
  header := h.header.congr hs
  end_ge := h.end_ge
  free := h.free

theorem write (h : Shielded s) (hp : Beyond p) (i n : Nat) : Shielded (writeUi64 s p i n) := by
  have hi : toItem i < 2 ^ 16 := Nat.mod_lt _ (by decide)
  have hlo : 32 ≤ p := hp.1
  have hhi := hp.2
  rw [writeUi64, add64_eq (by omega), storeWriteUi64_eq]
  exact h.setData ((setWord_only _ _ _).same (by omega))

theorem copy (h : Shielded s) (hp : Beyond p) (di src si sz : Nat) :
    Shielded (copy s p di src si sz) := by
  have hi : toItem di < 2 ^ 16 := Nat.mod_lt _ (by decide)
  have hlo : 32 ≤ p := hp.1
  have hhi := hp.2
  rw [Adventure.copy, add64_eq (a := p) (by omega), storeCopy_eq]
  exact h.setData ((copy_only _ _ _ _).same (by omega))

theorem hdrWrite (h : Shielded s) (hp : Beyond p) (flags szPage nKeys used : Nat) :
    Shielded (btreeHdrWrite s p flags szPage nKeys used) := h.write hp _ _

theorem storeFree (h : Shielded s) (hp : Beyond p) : Shielded (storeFree s p) where
  sound := ⟨h.sound.end_le, h.sound.size_pos, h.sound.size_lt⟩
  header := h.header.free p
  end_ge := h.end_ge
  free q hq := by
    have hfree := h.free
    rw [Adventure.storeFree] at hq
    cases hlist : s.freeList with
    | none => simp [hlist] at hq
    | some free =>
      rw [hlist, Option.getD_some] at hfree
      simp only [hlist, Option.map_some, Option.getD_some, List.mem_cons] at hq
      rcases hq with rfl | hq
      · exact hp
      · exact hfree q hq

theorem alloc (h : Shielded s) (size : Nat) :
    Meets (storeAlloc s size) True fun r => Beyond r.1 ∧ Shielded r.2 := by
  refine (storeAlloc_meets h.sound size).mono (fun _ => trivial) ?_
  rintro ⟨p, s'⟩ ha
  have hsound := ha.sound h.sound
  have hheader := h.header.allocated h.room ha
  have hend := h.sound.end_le
  have hlt := h.sound.size_lt
  have hfree := h.free
  cases ha with
  | reuse file p rest hg hl hr hlist =>
    rw [hlist, Option.getD_some, List.forall_mem_cons] at hfree
    exact ⟨hfree.1, hsound, hheader, h.end_ge, hfree.2⟩
  | fresh file hg hl hr hlist =>
    exact ⟨⟨h.end_ge, hend.trans_lt hlt⟩, hsound, hheader, h.end_ge.trans (Nat.le_add_right _ _), hfree⟩

end Shielded

section Insert

variable {s : Store} {page dest key val : Nat}

theorem Shielded.create (h : Shielded s) : Meets (btreeCreate s) True fun r => Shielded r.2 := by
  unfold btreeCreate
  apply Meets.bind (h.alloc _)
  rintro ⟨root, s₁⟩ ⟨hroot, h₁⟩
  exact Meets.pure (h₁.hdrWrite hroot _ _ _ _)

theorem Shielded.rootCreate (h : Shielded s) (mid orig split : Nat) :
    Meets (btreeRootCreate s mid orig split) True fun r => Shielded r.2 := by
  unfold btreeRootCreate
  apply Meets.bind (h.alloc _)
  rintro ⟨root, s₁⟩ ⟨hroot, h₁⟩
  exact Meets.pure ((((h₁.hdrWrite hroot _ _ _ _).write hroot _ _).write hroot _ _).write hroot _ _)

theorem Shielded.leafCopyIn (h : Shielded s) (hd : Beyond dest) (src nKeys si ei key val i : Nat) :
    Shielded (btreeLeafCopyIn s dest src nKeys si ei key val i) := by
  unfold btreeLeafCopyIn
  refine Shielded.hdrWrite ?_ hd _ _ _ _
  by_cases hin : (si = btStart ∨ i > si) ∧ i ≤ ei
  · rw [if_pos hin]
    exact (((h.copy hd _ _ _ _).write hd _ _).write hd _ _).copy hd _ _ _ _
  · rw [if_neg hin]
    exact h.copy hd _ _ _ _

theorem Shielded.branchCopyUp (h : Shielded s) (hd : Beyond dest) (src nKeys si ei key orig split i : Nat) :
    Shielded (btreeBranchCopyUp s dest src nKeys si ei key orig split i) := by
  unfold btreeBranchCopyUp
  refine Shielded.hdrWrite ?_ hd _ _ _ _
  by_cases hin : i ≥ si ∧ (si ≠ btStart ∨ i < ei)
  · rw [if_pos hin]
    exact ((((h.copy hd _ _ _ _).write hd _ _).write hd _ _).write hd _ _).copy hd _ _ _ _
  · rw [if_neg hin]
    exact h.copy hd _ _ _ _

theorem Shielded.leafSplit (h : Shielded s) (hp : Beyond page) (key val : Nat) :
    Meets (btreeLeafSplit s page key val) True fun r => Shielded r.2.2.2 := by
  unfold btreeLeafSplit
  cases btreeLeafFind s page key with
  | none => trivial
  | some i =>
    simp only [Option.bind_eq_bind, Option.bind_some]
    apply Meets.bind (h.alloc _)
    rintro ⟨orig, s₁⟩ ⟨horig, h₁⟩
    apply Meets.bind (h₁.alloc _)
    rintro ⟨split, s₂⟩ ⟨hsplit, h₂⟩
    exact Meets.pure (((h₂.leafCopyIn horig _ _ _ _ _ _ _).leafCopyIn hsplit _ _ _ _ _ _ _).storeFree hp)

theorem Shielded.branchSplit (h : Shielded s) (hp : Beyond page) (idx key orig split : Nat) :
    Meets (btreeBranchSplit s page idx key orig split) True fun r => Shielded r.2.2.2 := by
  unfold btreeBranchSplit
  apply Meets.bind (h.alloc _)
  rintro ⟨left, s₁⟩ ⟨hleft, h₁⟩
  apply Meets.bind (h₁.alloc _)
  rintro ⟨right, s₂⟩ ⟨hright, h₂⟩
  exact Meets.pure
    (((h₂.branchCopyUp hleft _ _ _ _ _ _ _ _).branchCopyUp hright _ _ _ _ _ _ _ _).storeFree hp)

theorem Shielded.branchAdd (h : Shielded s) (hp : Beyond page) (idx key orig split : Nat) :
    Meets (btreeBranchAdd s page idx key orig split) True fun r => Shielded r.2 := by
  unfold btreeBranchAdd
  by_cases hfull : split ≠ 0 ∧ pgFree (pgHeader s page) < 16
  · simp only [if_pos hfull]
    exact Meets.pure h
  · simp only [if_neg hfull]
    apply Meets.bind (h.alloc _)
    rintro ⟨d, s₁⟩ ⟨hd, h₁⟩
    refine Meets.pure (Shielded.storeFree (Shielded.hdrWrite (Shielded.copy ?_ hd _ _ _ _) hd _ _ _ _) hp)
    have h₂ := (h₁.copy hd btStart page btStart (subItem idx btStart)).write hd idx orig
    by_cases hsplit : split ≠ 0
    · simp only [if_pos hsplit]
      exact (h₂.write hd _ _).write hd _ _
    · simp only [if_neg hsplit]
      exact h₂

-- The key is not that of the item which a search of the leaf ends at.
def NewIn (s : Store) (page key : Nat) : Prop := ∀ i, btreeLeafFind s page key = some i →
  ¬(i < pgEnd (pgHeader s page) ∧ keyGet (readUi64 s page i) = key)

theorem Shielded.leafAdd (h : Shielded s) (hp : Beyond page) (hnew : NewIn s page key) (val : Nat) :
    Meets (btreeLeafAdd s page key val) True fun r => Shielded r.2 := by
  unfold btreeLeafAdd
  cases hfind : btreeLeafFind s page key with
  | none => trivial
  | some i =>
    simp only [Option.bind_eq_bind, Option.bind_some, if_neg (hnew i hfind)]
    by_cases hfull : pgFree (pgHeader s page) < 16
    · simp only [if_pos hfull]
      exact Meets.pure h
    · simp only [if_neg hfull]
      apply Meets.bind (h.alloc _)
      rintro ⟨d, s₁⟩ ⟨hd, h₁⟩
      exact Meets.pure ((((((h₁.hdrWrite hd _ _ _ _).copy hd _ _ _ _).write hd _ _).write hd _ _).copy
        hd _ _ _ _).storeFree hp)

-- An insertion frees the pages of the search path, and writes to the pages it gets.
theorem Shielded.recurAdd {depth : Nat} {path : List Nat} (h : Shielded s)
    (hpath : searchPathFrom depth s page key = some path) (hbeyond : ∀ p ∈ path, Beyond p)
    (hnew : ∀ leaf ∈ path.getLast?, NewIn s leaf key) (val orig split : Nat) :
    Meets (btreeRecurAdd depth s page key val orig split) True fun r => Shielded r.2.2.2 := by
  induction depth generalizing page path orig split with
  | zero => trivial
  | succ depth ih =>
    rw [searchPathFrom] at hpath
    rw [btreeRecurAdd]
    by_cases hleaf : isLeaf (pgHeader s page)
    · have hbranch : ¬isBranch (pgHeader s page) := by simp [isBranch, hleaf]
      rw [if_neg hbranch] at hpath
      obtain rfl := Option.some.inj hpath
      have hp : Beyond page := hbeyond page (by simp)
      rw [if_pos hleaf]
      apply Meets.bind (h.leafAdd hp (hnew page rfl) val)
      rintro ⟨orig, s₁⟩ h₁
      by_cases hadded : orig ≠ 0
      · simp only [if_pos hadded]
        exact Meets.pure h₁
      · simp only [if_neg hadded]
        exact h₁.leafSplit hp key val
    · have hbranch : isBranch (pgHeader s page) := by simp [isBranch, hleaf]
      rw [if_pos hbranch] at hpath
      rw [if_neg hleaf]
      cases hfind : btreeBranchFind s page key with
      | none =>
        rw [hfind] at hpath
        cases hpath
      | some index =>
        simp only [hfind, Option.bind_eq_bind, Option.bind_some, Option.bind_eq_some_iff] at hpath
        obtain ⟨below, hbelow, hcons⟩ := hpath
        obtain rfl := Option.some.inj hcons
        rw [List.forall_mem_cons] at hbeyond
        obtain ⟨hp, hbeyond⟩ := hbeyond
        have hnew' : ∀ leaf ∈ below.getLast?, NewIn s leaf key := by
          intro leaf hleaf
          cases below with
          | nil => cases hleaf
          | cons q below => exact hnew leaf (by rwa [List.getLast?_cons_cons])
        simp only [Option.bind_eq_bind, Option.bind_some]
        apply Meets.bind (ih hbelow hbeyond hnew' orig split)
        rintro ⟨mid, orig, split, s₁⟩ h₁
        apply Meets.bind (h₁.branchAdd hp index mid orig split)
        rintro ⟨branchCopy, s₂⟩ h₂
        by_cases hadded : branchCopy ≠ 0
        · simp only [if_pos hadded]
          exact Meets.pure h₂
        · simp only [if_neg hadded]
          exact h₂.branchSplit hp index mid orig split

theorem Shielded.btreeAdd {root : Nat} {path : List Nat} (h : Shielded s)
    (hpath : searchPath s root key = some path) (hbeyond : ∀ p ∈ path, Beyond p)
    (hnew : ∀ leaf ∈ path.getLast?, NewIn s leaf key) (val : Nat) :
    Meets (btreeAdd s root key val) True fun r => Shielded r.2 := by
  unfold Adventure.btreeAdd
  by_cases hroot : root = 0
  · simp only [if_pos hroot]
    exact Meets.pure h
  · simp only [if_neg hroot]
    apply Meets.bind (h.recurAdd hpath hbeyond hnew val 0 0)
    rintro ⟨mid, orig, split, s₁⟩ h₁
    by_cases hsplit : split ≠ 0
    · simp only [if_pos hsplit]
      exact h₁.rootCreate mid orig split
    · simp only [if_neg hsplit]
      exact Meets.pure h₁

end Insert

end Adventure

import Adventure.Btree.Leaf
import Adventure.Library.Row

namespace Adventure

open Memory

-- A branch page: children and separators in turn, counted by the separators.
def BranchAt (m : Memory) (p flags size : Nat) (row : Row Nat Nat) : Prop :=
  PageAt m p flags size row.seps.length BTREE_HEADER_SIZE row.flat

-- What btree_recur_add hands to its caller: a page, or two pages and a separator.
def Returned (mid orig split : Nat) : Growth Nat Nat → Prop
  | .one child => orig = child ∧ split = 0
  | .two left sep right => orig = left ∧ mid = sep ∧ split = right ∧ split ≠ 0

namespace BranchAt

instance (m : Memory) (p flags size : Nat) (row : Row Nat Nat) :
    Decidable (BranchAt m p flags size row) := inferInstanceAs (Decidable (PageAt _ _ _ _ _ _ _))

variable {s : Store} {m : Memory} {p flags size : Nat} {row : Row Nat Nat} {before after : List Nat}

theorem page (h : BranchAt m p flags size row) :
    PageAt m p flags size row.seps.length 8 row.flat := h

theorem congr {m' : Memory} (h : BranchAt m p flags size row) (hs : Same m m' p size) :
    BranchAt m' p flags size row := PageAt.congr h hs

theorem length_le (h : BranchAt m p flags size row) : 16 + 16 * row.seps.length ≤ size := by
  have := h.page.fits
  rw [Row.length_flat] at this
  omega

theorem end_eq (h : BranchAt s.file.data p flags size row) :
    pgEnd (pgHeader s p) = 16 + 16 * row.seps.length := by
  rw [h.page.end_eq, Row.length_flat]
  omega

theorem used_eq (h : BranchAt s.file.data p flags size row) :
    pgUsed (pgHeader s p) = 16 + 16 * row.seps.length := h.end_eq

theorem free_eq (h : BranchAt s.file.data p flags size row) :
    pgFree (pgHeader s p) = size - (16 + 16 * row.seps.length) := by
  rw [h.page.free_eq, Row.length_flat]
  omega

-- The word that follows the words `before`.
theorem read_word {w : Nat} (before after : List Nat) (h : BranchAt s.file.data p flags size row)
    (hf : row.flat = before ++ w :: after) {i : Nat} (hi : i = 8 + 8 * before.length) :
    readUi64 s p i = w := by
  have hr := h.page.read_eq before.length (by simp [hf])
  rw [hi, hr]
  simp [hf]

theorem findFrom_eq (before : List Nat) (row' : Row Nat Nat) (key : Nat) (steps : Nat)
    (h : BranchAt s.file.data p flags size row) (hf : row.flat = before ++ row'.flat)
    (hsteps : row'.seps.length < steps) :
    btreeBranchFindFrom s p key (pgHeader s p) steps (8 + 8 * before.length) =
      some (8 + 8 * before.length + 16 * row'.index key) := by
  have hsize := h.page.size_lt
  have hlen := h.length_le
  have hcount := congrArg List.length hf
  rw [List.length_append, Row.length_flat, Row.length_flat] at hcount
  have hsub : sub64 (pgEnd (pgHeader s p)) 8 = 8 + 16 * row.seps.length := by
    rw [h.end_eq, sub64_eq (by omega) (by omega)]
    omega
  induction row' generalizing before steps with
  | last child =>
      obtain ⟨steps, rfl⟩ : ∃ n, steps = n + 1 := ⟨steps - 1, by omega⟩
      simp only [Row.seps, List.length_nil] at hcount
      rw [btreeBranchFindFrom, hsub, if_neg (by omega)]
      rfl
  | cons child sep row' ih =>
      simp only [Row.seps, List.length_cons] at hsteps hcount
      obtain ⟨steps, rfl⟩ : ∃ n, steps = n + 1 := ⟨steps - 1, by omega⟩
      have hsep : readUi64 s p (8 + 8 * before.length + 8) = sep :=
        h.read_word (before ++ [child]) row'.flat (by simp [hf, Row.flat]) (by simp; omega)
      rw [btreeBranchFindFrom, hsub, if_pos (by omega), hsep]
      by_cases hk : key < sep
      · simp [Row.index, hk]
      · have hnext : toItem (8 + 8 * before.length + 16) = 8 + 8 * (before ++ [child, sep]).length := by
          rw [toItem_eq (by omega), List.length_append, List.length_cons, List.length_singleton]
          omega
        have hi := ih (before ++ [child, sep]) steps (by simp [hf, Row.flat]) (by omega)
          (by simp; omega)
        rw [if_neg hk, hnext, hi, Row.index, if_neg hk, List.length_append, List.length_cons,
          List.length_singleton, Option.some.injEq]
        omega

-- The search ends at the child left of the first separator above the key, and reads it.
theorem find_eq (h : BranchAt s.file.data p flags size row) (key : Nat) :
    btreeBranchFind s p key = some (8 + 16 * row.index key) := by
  have hlen := h.length_le
  have hsize := h.page.size_lt
  have hf := h.findFrom_eq [] row key ITEM_STEPS rfl
    (by rw [ITEM_STEPS]; omega)
  rwa [List.length_nil, Nat.mul_zero, Nat.add_zero] at hf

theorem read_pick (h : BranchAt s.file.data p flags size row) (key : Nat) :
    readUi64 s p (8 + 16 * row.index key) = row.pick key := by
  obtain ⟨before, after, hf, hl, -⟩ := row.flat_graft key
  exact h.read_word before after hf (by omega)

-- Part of the words, at its place in the page.
theorem wordsAt_middle (before middle after : List Nat) (h : BranchAt m p flags size row)
    (hf : row.flat = before ++ middle ++ after) :
    m.WordsAt (p + (8 + 8 * before.length)) middle := by
  have hc := h.page.content
  rw [hf, wordsAt_append, wordsAt_append] at hc
  have hm := hc.1.2
  rwa [Nat.add_assoc] at hm

end BranchAt

theorem branchAt_of_filled {m m' : Memory} {d flags size n used : Nat} {row : Row Nat Nat}
    (hf : Filled m m' d 8 size row.flat) (hflags : flags < 2 ^ 8) (hsize : size < 2 ^ 16)
    (hfits : 16 + 16 * row.seps.length ≤ size) (hdlt : d + size < 2 ^ 63) (hn : n = row.seps.length)
    (hused : used = 16 + 16 * n) :
    Only m (m'.setWord d (hdrWord flags size n used)) d size ∧
      BranchAt (m'.setWord d (hdrWord flags size n used)) d flags size row := by
  subst hn
  have hlen := row.length_flat
  refine ⟨hf.only.trans ((setWord_only _ _ _).mono le_rfl (by omega)), ?_⟩
  exact pageAt_of_filled hf hflags hsize (by omega) (by omega) (by decide) hdlt (by omega)

namespace BranchAt

section Write

variable {s : Store} {p d flags size : Nat} {row row' : Row Nat Nat} {before after : List Nat}
  {key orig split : Nat}

-- The body of btree_branch_add: the copy has the child at `idx` replaced by what it grew into.
theorem add_copy (h : BranchAt s.file.data p flags size row) {g : Growth Nat Nat} {child : Nat}
    (hf : row.flat = before ++ child :: after) (hf' : row'.flat = before ++ g.flat ++ after)
    (hd : d + size ≤ p ∨ p + size ≤ d) (hdlt : d + size < 2 ^ 63)
    (hroom : 16 + 16 * row'.seps.length ≤ size) (hg : Returned key orig split g)
    (hwords : ∀ w ∈ g.flat, w < 2 ^ 64) {idx endp used : Nat} (hidx : idx = 8 + 8 * before.length)
    (hend : endp = 16 + 16 * row.seps.length) (hused : used = 16 + 16 * row.seps.length)  :
    ∃ data,
      (let s := copy s d btStart p btStart (subItem idx btStart)
        let s := writeUi64 s d idx orig
        let (nKeys, offset, s) :=
          if split ≠ 0 then
            (row.seps.length + 1, 16, writeUi64 (writeUi64 s d (idx + 8) key) d (idx + 16) split)
          else (row.seps.length, 0, s)
        let s := copy s d (idx + 8 + offset) p (idx + 8) (subItem endp (idx + 8))
        btreeHdrWrite s d flags size nKeys (used + offset)) = s.setData data ∧
      Only s.file.data data d size ∧ BranchAt data d flags size row' := by
  have hsize := h.page.size_lt
  have haddr := h.page.addr_lt
  have hlen := h.length_le
  have hl := row.length_flat
  have hl' := row'.length_flat
  rw [hf, List.length_append, List.length_cons] at hl
  have hstart : btStart = 8 := rfl
  have hb := h.wordsAt_middle [] before (child :: after) hf
  have ha := h.wordsAt_middle (before ++ [child]) after []
    (by simp [hf])
  rw [List.length_append, List.length_singleton,
    show p + (8 + 8 * (before.length + 1)) = p + (idx + 8) by omega] at ha
  have hf₁ := (Filled.nil s.file.data d 8 size).extend hb (by simp; omega) (q := d + 8)
    (by simp) (n := idx - 8) (by omega) (by simp; omega)
  cases g with
  | one child' =>
      obtain ⟨rfl, rfl⟩ := hg
      simp only [Growth.flat] at hf' hwords
      have hcount := congrArg List.length hf'
      simp only [List.length_append, List.length_singleton, hl'] at hcount
      rw [hstart, subItem_eq (by omega) (by omega), subItem_eq (by omega) (by omega)]
      simp only [ne_eq, not_true_eq_false, if_false, Nat.add_zero]
      rw [copy_eq _ (by omega) (by omega) (by omega) (by omega) (by omega),
        writeUi64_eq _ _ (by omega) (by omega),
        copy_eq _ (by omega) (by omega) (by omega) (by omega) (by omega),
        btreeHdrWrite_eq _ (by omega)]
      simp only [setData_setData, setData_data]
      refine ⟨_, rfl, ?_⟩
      have hf₂ := (hf₁.push (hwords orig (by simp)) (q := d + idx) (by simp; omega)
        (by simp; omega)).extend ha (by omega) (q := d + (idx + 8)) (by simp; omega)
          (n := endp - (idx + 8)) (by omega) (by simp; omega)
      rw [List.nil_append, ← hf'] at hf₂
      exact branchAt_of_filled hf₂ h.page.flags_lt hsize hroom hdlt (by omega) (by omega)
  | two left sep right =>
      obtain ⟨rfl, rfl, rfl, hne⟩ := hg
      simp only [Growth.flat] at hf' hwords
      have hcount := congrArg List.length hf'
      simp only [List.length_append, List.length_cons, List.length_nil, hl'] at hcount
      rw [hstart, subItem_eq (by omega) (by omega), subItem_eq (by omega) (by omega)]
      simp only [ne_eq, hne, not_false_eq_true, if_true]
      rw [copy_eq _ (by omega) (by omega) (by omega) (by omega) (by omega),
        writeUi64_eq _ _ (by omega) (by omega), writeUi64_eq _ _ (by omega) (by omega),
        writeUi64_eq _ _ (by omega) (by omega),
        copy_eq _ (by omega) (by omega) (by omega) (by omega) (by omega),
        btreeHdrWrite_eq _ (by omega)]
      simp only [setData_setData, setData_data]
      refine ⟨_, rfl, ?_⟩
      have hf₂ := ((((hf₁.push (hwords orig (by simp)) (q := d + idx) (by simp; omega)
        (by simp; omega)).push (hwords key (by simp)) (q := d + (idx + 8)) (by simp; omega)
        (by simp; omega)).push (hwords split (by simp)) (q := d + (idx + 16)) (by simp; omega)
        (by simp; omega)).extend ha (by omega) (q := d + (idx + 8 + 16)) (by simp; omega)
          (n := endp - (idx + 8)) (by omega) (by simp; omega))
      have hw : [] ++ before ++ [orig] ++ [key] ++ [split] ++ after = row'.flat := by
        rw [hf']
        simp
      rw [hw] at hf₂
      exact branchAt_of_filled hf₂ h.page.flags_lt hsize hroom hdlt (by omega) (by omega)

-- The two outcomes of btree_branch_copy_up for the part `row` of a branch: the child at `i` is
-- replaced by two pages and a separator, ...
theorem copyUp_insert {whole : Row Nat Nat} (row row' : Row Nat Nat) (pre post : List Nat)
    {child : Nat}
    (h : BranchAt s.file.data p flags size whole) (hw : whole.flat = pre ++ row.flat ++ post)
    (hf : row.flat = before ++ child :: after)
    (hf' : row'.flat = before ++ [orig, key, split] ++ after)
    (hd : d + size ≤ p ∨ p + size ≤ d) (hdlt : d + size < 2 ^ 63)
    (hroom : 16 + 16 * row'.seps.length ≤ size) (hwords : ∀ w ∈ [orig, key, split], w < 2 ^ 64)
    (n si ei i : Nat) (hsi : si = 8 + 8 * pre.length) (hei : ei = si + 8 * row.flat.length)
    (hi : i = si + 8 * before.length) (hn : n = row.seps.length) :
    ∃ data, btreeBranchCopyUp s d p n si ei key orig split i = s.setData data ∧
      Only s.file.data data d size ∧ BranchAt data d (clearRoot flags) size row' := by
  have hsize := h.page.size_lt
  have haddr := h.page.addr_lt
  have hlen := h.length_le
  have hlw := whole.length_flat
  have hl := row.length_flat
  have hl' := row'.length_flat
  have hstart : btStart = 8 := rfl
  have hcount := congrArg List.length hf
  have hcount' := congrArg List.length hf'
  have hcountw := congrArg List.length hw
  simp only [List.length_append, List.length_cons, List.length_nil] at hcount hcount' hcountw
  have hcond : i ≥ si ∧ (si ≠ btStart ∨ i < ei) := ⟨by omega, Or.inr (by omega)⟩
  have hb := h.wordsAt_middle pre before (child :: after ++ post)
    (by rw [hw, hf]; simp)
  have ha := h.wordsAt_middle (pre ++ before ++ [child]) after post
    (by rw [hw, hf]; simp)
  rw [← hsi] at hb
  simp only [List.length_append, List.length_singleton] at ha
  rw [show 8 + 8 * (pre.length + before.length + 1) = i + 8 by omega] at ha
  simp only [btreeBranchCopyUp, if_pos hcond]
  rw [hstart, toItem_eq (n := i + 8) (by omega), subItem_eq (a := i) (by omega) (by omega),
    subItem_eq (a := 8 + i) (by omega) (by omega), subItem_eq (a := 8 + i + 8) (by omega) (by omega),
    subItem_eq (a := 8 + i + 16) (by omega) (by omega),
    subItem_eq (a := 8 + (i + 8) + 16) (by omega) (by omega),
    subItem_eq (a := ei) (by omega) (by omega),
    copy_eq _ (by omega) (by omega) (by omega) (by omega) (by omega),
    writeUi64_eq _ _ (by omega) (by omega), writeUi64_eq _ _ (by omega) (by omega),
    writeUi64_eq _ _ (by omega) (by omega),
    copy_eq _ (by omega) (by omega) (by omega) (by omega) (by omega),
    btreeHdrWrite_eq _ (by omega), h.page.flags_eq, h.page.size_eq]
  simp only [setData_setData, setData_data]
  refine ⟨_, rfl, ?_⟩
  have hf₂ := (((((Filled.nil s.file.data d 8 size).extend hb (by omega) (q := d + 8)
    (by simp) (n := i - si) (by omega) (by simp; omega)).push (hwords orig (by simp))
      (q := d + (8 + i - si)) (by simp; omega) (by simp; omega)).push (hwords key (by simp))
      (q := d + (8 + i + 8 - si)) (by simp; omega) (by simp; omega)).push (hwords split (by simp))
      (q := d + (8 + i + 16 - si)) (by simp; omega) (by simp; omega)).extend ha (by omega)
      (q := d + (8 + (i + 8) + 16 - si)) (by simp; omega) (n := ei - (i + 8)) (by omega)
      (by simp; omega)
  have hwd : [] ++ before ++ [orig] ++ [key] ++ [split] ++ after = row'.flat := by
    rw [hf']
    simp
  rw [hwd] at hf₂
  exact branchAt_of_filled hf₂ (clearRoot_lt h.page.flags_lt) hsize hroom hdlt (by omega) (by omega)

-- ... or lies elsewhere.
theorem copyUp_keep {whole : Row Nat Nat} (row : Row Nat Nat) (pre post : List Nat)
    (key orig split : Nat)
    (h : BranchAt s.file.data p flags size whole) (hw : whole.flat = pre ++ row.flat ++ post)
    (hd : d + size ≤ p ∨ p + size ≤ d) (hdlt : d + size < 2 ^ 63)
    (n si ei i : Nat) (hsi : si = 8 + 8 * pre.length) (hei : ei = si + 8 * row.flat.length)
    (hn : n = row.seps.length) (hout : ¬(i ≥ si ∧ (si ≠ 8 ∨ i < ei))) :
    ∃ data, btreeBranchCopyUp s d p n si ei key orig split i = s.setData data ∧
      Only s.file.data data d size ∧ BranchAt data d (clearRoot flags) size row := by
  have hsize := h.page.size_lt
  have haddr := h.page.addr_lt
  have hlen := h.length_le
  have hlw := whole.length_flat
  have hl := row.length_flat
  have hstart : btStart = 8 := rfl
  have hcountw := congrArg List.length hw
  simp only [List.length_append] at hcountw
  have hb := h.wordsAt_middle pre row.flat post hw
  rw [← hsi] at hb
  simp only [btreeBranchCopyUp, hstart, if_neg hout]
  rw [subItem_eq (by omega) (by omega), copy_eq _ (by omega) (by omega) (by omega) (by omega) (by omega),
    btreeHdrWrite_eq _ (by omega), h.page.flags_eq, h.page.size_eq]
  simp only [setData_setData, setData_data]
  refine ⟨_, rfl, ?_⟩
  have hf := (Filled.nil s.file.data d 8 size).extend hb (by omega) (q := d + 8)
    (by simp) (n := ei - si) (by omega) (by simp; omega)
  rw [List.nil_append] at hf
  exact branchAt_of_filled hf (clearRoot_lt h.page.flags_lt) hsize (by omega) hdlt hn (by omega)

-- The two copies of btree_branch_split, with the branch cut at its separator number `nl`.
theorem split_at {d' child : Nat} (h : BranchAt s.file.data p flags size row)
    (hf : row.flat = before ++ child :: after)
    (hf' : row'.flat = before ++ [orig, key, split] ++ after)
    (hd : d + size ≤ p ∨ p + size ≤ d) (hdlt : d + size < 2 ^ 63)
    (hd' : d' + size ≤ p ∨ p + size ≤ d') (hdlt' : d' + size < 2 ^ 63)
    (hdd : d + size ≤ d' ∨ d' + size ≤ d) (hwords : ∀ w ∈ [orig, key, split], w < 2 ^ 64)
    {j nl nr m endp i : Nat} (hj : before.length = 2 * j) (hpos : 0 < nl)
    (hlt : nl < row.seps.length) (hnr : nr = row.seps.length - nl - 1) (hm : m = 16 + 16 * nl)
    (hend : endp = 16 + 16 * row.seps.length) (hi : i = 8 + 8 * before.length) :
    ∃ left mid right data₁ data,
      btreeBranchCopyUp s d p nl btStart m key orig split i = s.setData data₁ ∧
      btreeBranchCopyUp (s.setData data₁) d' p nr (toItem (m + 8)) endp key orig split i =
        s.setData data ∧
      Only s.file.data data₁ d size ∧ Only data₁ data d' size ∧
      row' = left.join mid right ∧
      left.seps.length = (if j ≤ nl then nl + 1 else nl) ∧
      readUi64 s p m = mid ∧
      BranchAt data d (clearRoot flags) size left ∧
      BranchAt data d' (clearRoot flags) size right := by
  have hsize := h.page.size_lt
  have hlen := h.length_le
  have hstart : btStart = 8 := rfl
  rw [hstart, toItem_eq (by omega)]
  -- the old row around the separator that moves up
  obtain ⟨l, mid, r, rfl, hln⟩ := row.exists_join nl hlt
  have hll := l.length_flat
  have hrl := r.length_flat
  have hread : readUi64 s p m = mid :=
    h.read_word l.flat r.flat (by rw [Row.flat_join]) (by omega)
  simp only [Row.seps_join, List.length_append, List.length_cons] at hlt hnr hend hlen
  by_cases hjl : j ≤ nl
  · -- the child lies in the left part
    obtain ⟨left, rest, rfl, hf, hf'⟩ := Row.exists_join_left hf hf' (by omega)
    have hcount := congrArg List.length hf
    have hcount' := congrArg List.length hf'
    have hleft := left.length_flat
    simp only [List.length_append, List.length_cons, List.length_nil] at hcount hcount'
    obtain ⟨data₁, he₁, ho₁, hb₁⟩ := h.copyUp_insert l left [] (mid :: r.flat)
      (by rw [Row.flat_join]; rfl) hf hf' hd hdlt (by omega) hwords nl 8 m i rfl (by omega) hi
      (by omega)
    have h₂ : BranchAt (s.setData data₁).file.data p flags size (l.join mid r) :=
      h.congr (ho₁.same (by omega))
    obtain ⟨data, he, ho, hb₂⟩ := h₂.copyUp_keep r (l.flat ++ [mid]) [] key orig split
      (by rw [Row.flat_join]; simp) hd' hdlt' nr (m + 8) endp i (by simp; omega) (by omega)
      (by omega) (by omega)
    refine ⟨left, mid, r, data₁, data, he₁, he, ho₁, ho, rfl, ?_, hread, hb₁.congr (ho.same (by omega)),
      hb₂⟩
    rw [if_pos hjl]
    omega
  · -- the child lies in the right part
    obtain ⟨first, right, rfl, rfl, hf, hf'⟩ := Row.exists_join_right hf hf' (by omega)
    have hcount := congrArg List.length hf
    have hcount' := congrArg List.length hf'
    have hright := right.length_flat
    simp only [List.length_append, List.length_cons, List.length_nil] at hcount hcount' hj hi
    obtain ⟨data₁, he₁, ho₁, hb₁⟩ := h.copyUp_keep l [] (mid :: r.flat) key orig split
      (by rw [Row.flat_join]; rfl) hd hdlt nl 8 m i rfl (by omega) (by omega) (by omega)
    have h₂ : BranchAt (s.setData data₁).file.data p flags size (l.join mid r) :=
      h.congr (ho₁.same (by omega))
    obtain ⟨data, he, ho, hb₂⟩ := h₂.copyUp_insert r right (l.flat ++ [mid]) []
      (by rw [Row.flat_join]; simp) hf hf' hd' hdlt' (by omega) hwords nr (m + 8) endp i
      (by simp; omega) (by omega) (by omega) (by omega)
    exact ⟨l, mid, right, data₁, data, he₁, he, ho₁, ho, rfl, by rw [if_neg hjl, hln], hread,
      hb₁.congr (ho.same (by omega)), hb₂⟩

end Write

end BranchAt

end Adventure

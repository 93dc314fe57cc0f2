import Adventure.Btree
import Adventure.Page.Theorems

namespace Adventure

open Memory

-- The items of a leaf, written as the words they are stored in.
def pairs (items : List (Nat × Nat)) : List Nat := items.flatMap fun item => [item.1, item.2]

@[simp] theorem pairs_nil : pairs [] = [] := rfl

@[simp] theorem pairs_cons (item : Nat × Nat) (items : List (Nat × Nat)) :
    pairs (item :: items) = item.1 :: item.2 :: pairs items := rfl

@[simp] theorem pairs_append (items items' : List (Nat × Nat)) :
    pairs (items ++ items') = pairs items ++ pairs items' := List.flatMap_append

@[simp] theorem length_pairs (items : List (Nat × Nat)) :
    (pairs items).length = 2 * items.length := by
  induction items with
  | nil => rfl
  | cons item items ih =>
      rw [pairs_cons, List.length_cons, List.length_cons, List.length_cons, ih]
      omega

section Position

variable {key : Nat} {before after : List (Nat × Nat)}

-- Where the search of a leaf stops, in a list cut at the key.
theorem findIdx_eq_length (hb : ∀ x ∈ before, x.1 < key) (ha : ∀ x ∈ after, key ≤ x.1) :
    (before ++ after).findIdx (fun item => decide (key ≤ item.1)) = before.length := by
  rw [List.findIdx_append, List.findIdx_eq_length_of_false fun x hx => by simp [hb x hx],
    if_neg (Nat.lt_irrefl _)]
  cases after with
  | nil => simp
  | cons x after => simp [List.findIdx_cons, ha x]

theorem exists_cut {ι : Type} {f : ι → Nat} {items : List ι} (key : Nat)
    (hs : (items.map f).Pairwise (· < ·)) : ∃ before after, items = before ++ after ∧
      (∀ x ∈ before, f x < key) ∧ ∀ x ∈ after, key ≤ f x := by
  induction items with
  | nil => exact ⟨[], [], rfl, by simp, by simp⟩
  | cons item items ih =>
      rw [List.map_cons, List.pairwise_cons, List.forall_mem_map] at hs
      by_cases h : f item < key
      · obtain ⟨before, after, rfl, hb, ha⟩ := ih hs.2
        exact ⟨item :: before, after, rfl, List.forall_mem_cons.mpr ⟨h, hb⟩, ha⟩
      · exact ⟨[], item :: items, rfl, by simp,
          List.forall_mem_cons.mpr ⟨by omega, fun x hx => by have := hs.1 x hx; omega⟩⟩

end Position

-- A leaf page of the tree: its header counts its items, and the items follow.
def LeafAt (m : Memory) (p flags size : Nat) (items : List (Nat × Nat)) : Prop :=
  PageAt m p flags size items.length BTREE_HEADER_SIZE (pairs items)

namespace LeafAt

instance (m : Memory) (p flags size : Nat) (items : List (Nat × Nat)) :
    Decidable (LeafAt m p flags size items) := inferInstanceAs (Decidable (PageAt _ _ _ _ _ _ _))

variable {s : Store} {m : Memory} {p flags size : Nat} {items before after : List (Nat × Nat)}

theorem page (h : LeafAt m p flags size items) :
    PageAt m p flags size items.length 8 (pairs items) := h

theorem congr {m' : Memory} (h : LeafAt m p flags size items) (hs : Same m m' p size) :
    LeafAt m' p flags size items := PageAt.congr h hs

theorem length_le (h : LeafAt m p flags size items) : 8 + 16 * items.length ≤ size := by
  have := h.page.fits
  rw [length_pairs] at this
  omega

theorem end_eq (h : LeafAt s.file.data p flags size items) :
    pgEnd (pgHeader s p) = 8 + 16 * items.length := by
  rw [h.page.end_eq, length_pairs]
  omega

theorem used_eq (h : LeafAt s.file.data p flags size items) :
    pgUsed (pgHeader s p) = 8 + 16 * items.length := h.end_eq

theorem free_eq (h : LeafAt s.file.data p flags size items) :
    pgFree (pgHeader s p) = size - (8 + 16 * items.length) := by
  rw [h.page.free_eq, length_pairs]
  omega

-- Part of the items, at its place in the page.
theorem wordsAt_middle (before middle after : List (Nat × Nat))
    (h : LeafAt m p flags size (before ++ middle ++ after)) :
    m.WordsAt (p + (8 + 16 * before.length)) (pairs middle) := by
  have hc := h.page.content
  rw [pairs_append, pairs_append, wordsAt_append, wordsAt_append, length_pairs] at hc
  have hm := hc.1.2
  rwa [show p + 8 + 8 * (2 * before.length) = p + (8 + 16 * before.length) by omega] at hm

section Read

variable {item : Nat × Nat} (before after : List (Nat × Nat))
  (h : LeafAt s.file.data p flags size (before ++ item :: after))

include h

theorem read_words : readUi64 s p (8 + 16 * before.length) = item.1 ∧
    readUi64 s p (8 + 16 * before.length + 8) = item.2 := by
  have hsize := h.page.size_lt
  have haddr := h.page.addr_lt
  have hlen := h.length_le
  rw [List.length_append, List.length_cons] at hlen
  have hm := wordsAt_middle before [item] after (by rwa [List.append_assoc])
  rw [readUi64_eq s (by omega) (by omega), readUi64_eq s (by omega) (by omega)]
  exact ⟨hm.1, hm.2.1⟩

end Read

-- The same by the item's number.
theorem read_item (h : LeafAt s.file.data p flags size items) {i : Nat} (hi : i < items.length) :
    readUi64 s p (8 + 16 * i) = items[i].1 ∧ readUi64 s p (8 + 16 * i + 8) = items[i].2 := by
  have hsplit : items = items.take i ++ items[i] :: items.drop (i + 1) := by simp
  rw [hsplit] at h
  have hr := read_words _ _ h
  rwa [List.length_take_of_le hi.le] at hr

theorem findFrom_eq (before after : List (Nat × Nat)) (key : Nat) (steps : Nat)
    (h : LeafAt s.file.data p flags size (before ++ after)) (hsteps : after.length < steps) :
    btreeLeafFindFrom s p key (pgHeader s p) steps (8 + 16 * before.length) =
      some (8 + 16 * (before.length + after.findIdx (fun item => decide (key ≤ item.1)))) := by
  have hsize := h.page.size_lt
  have hlen := h.length_le
  have hend := h.end_eq
  rw [List.length_append] at hlen hend
  induction after generalizing before steps with
  | nil =>
      obtain ⟨steps, rfl⟩ : ∃ n, steps = n + 1 := ⟨steps - 1, by omega⟩
      rw [List.length_nil, Nat.add_zero] at hend
      rw [btreeLeafFindFrom, hend, if_neg (Nat.lt_irrefl _)]
      rfl
  | cons item after ih =>
      rw [List.length_cons] at hsteps hlen hend
      obtain ⟨steps, rfl⟩ : ∃ n, steps = n + 1 := ⟨steps - 1, by omega⟩
      rw [btreeLeafFindFrom, hend, if_pos (by omega), (read_words before after h).1, List.findIdx_cons]
      by_cases hk : key ≤ item.1
      · simp [hk]
      · have hnext : toItem (8 + 16 * before.length + 16) = 8 + 16 * (before ++ [item]).length := by
          rw [toItem_eq (by omega), List.length_append, List.length_singleton]
          omega
        have hi := ih (before ++ [item]) steps (by simpa using h) (by omega)
          (by rw [List.length_append, List.length_singleton]; omega)
          (by rw [hend, List.length_append, List.length_singleton]; omega)
        rw [if_neg hk, hnext, hi, List.length_append, List.length_singleton]
        simp only [hk, decide_false, cond_false]
        congr 2
        omega

-- The search ends before the first item that is not below the key.
theorem find_eq (h : LeafAt s.file.data p flags size items) (key : Nat) :
    btreeLeafFind s p key = some (8 + 16 * items.findIdx (fun item => decide (key ≤ item.1))) := by
  have hlen := h.length_le
  have hsize := h.page.size_lt
  have hf := findFrom_eq [] items key ITEM_STEPS h
    (by rw [ITEM_STEPS]; omega)
  rwa [List.length_nil, Nat.zero_add] at hf

theorem walkFrom_eq (before after : List (Nat × Nat)) (steps : Nat)
    (h : LeafAt s.file.data p flags size (before ++ after))
    (hsteps : after.length < steps) :
    btreeLeafWalkFrom s p (pgHeader s p) steps (8 + 16 * before.length) = some after := by
  have hsize := h.page.size_lt
  have hlen := h.length_le
  have hend := h.end_eq
  rw [List.length_append] at hlen hend
  induction after generalizing before steps with
  | nil =>
      obtain ⟨steps, rfl⟩ : ∃ n, steps = n + 1 := ⟨steps - 1, by omega⟩
      rw [List.length_nil, Nat.add_zero] at hend
      rw [btreeLeafWalkFrom, hend, if_neg (Nat.lt_irrefl _)]
  | cons item after ih =>
      rw [List.length_cons] at hsteps hlen hend
      obtain ⟨steps, rfl⟩ : ∃ n, steps = n + 1 := ⟨steps - 1, by omega⟩
      have hnext : toItem (8 + 16 * before.length + 16) = 8 + 16 * (before ++ [item]).length := by
        rw [toItem_eq (by omega), List.length_append, List.length_singleton]
        omega
      have hi := ih (before ++ [item]) steps (by simpa using h) (by omega)
        (by rw [List.length_append, List.length_singleton]; omega)
        (by rw [hend, List.length_append, List.length_singleton]; omega)
      rw [btreeLeafWalkFrom, hend, if_pos (by omega), hnext, hi, (read_words before after h).1,
        (read_words before after h).2]
      rfl

theorem walk_eq (h : LeafAt s.file.data p flags size items) : btreeLeafWalk s p = some items := by
  have hlen := h.length_le
  have hsize := h.page.size_lt
  exact walkFrom_eq [] items ITEM_STEPS h (by rw [ITEM_STEPS]; omega)

end LeafAt

theorem btreeHdrWrite_eq (s : Store) {page : Nat} (hp : page < 2 ^ 63) (flags size n used : Nat) :
    btreeHdrWrite s page flags size n used =
      s.setData (s.file.data.setWord page (hdrWord flags size n used)) := by
  rw [btreeHdrWrite, writeUi64_eq s _ (by omega) (by omega), Nat.add_zero]

theorem clearRoot_lt {flags : Nat} (h : flags < 2 ^ 8) : clearRoot flags < 2 ^ 8 :=
  Nat.and_le_left.trans_lt h

-- Both page copiers write the header last, from the number of items they counted.
theorem leafAt_of_filled {m m' : Memory} {d flags size n used : Nat} {items : List (Nat × Nat)}
    (hf : Filled m m' d 8 size (pairs items)) (hflags : flags < 2 ^ 8) (hsize : size < 2 ^ 16)
    (hfits : 8 + 16 * items.length ≤ size) (hdlt : d + size < 2 ^ 63) (hn : n = items.length)
    (hused : used = n * 16 + 8) :
    Only m (m'.setWord d (hdrWord flags size n used)) d size ∧
      LeafAt (m'.setWord d (hdrWord flags size n used)) d flags size items := by
  subst hn
  refine ⟨hf.only.trans ((setWord_only _ _ _).mono le_rfl (by omega)), ?_⟩
  exact pageAt_of_filled hf hflags hsize (by rw [length_pairs]; omega) (by omega) (by decide) hdlt
    (by rw [length_pairs]; omega)

namespace LeafAt

section Write

variable {s : Store} {p d flags size : Nat} {items before after : List (Nat × Nat)} {key val : Nat}

-- The body of btree_leaf_add when the leaf has room: the copy gets the item between the items
-- before it and those after it.
theorem add_copy (h : LeafAt s.file.data p flags size (before ++ after))
    (hd : d + size ≤ p ∨ p + size ≤ d) (hdlt : d + size < 2 ^ 63)
    (hroom : 8 + 16 * (before ++ after).length + 16 ≤ size) (hkey : key < 2 ^ 64)
    (hval : val < 2 ^ 64) {i n used endp : Nat} (hi : i = 8 + 16 * before.length)
    (hn : n = (before ++ after).length + 1) (hused : used = 8 + 16 * n)
    (hend : endp = 8 + 16 * (before ++ after).length) :
    ∃ data, copy (writeUi64 (writeUi64 (copy (btreeHdrWrite s d flags size n used) d btStart p
        btStart (subItem i btStart)) d i key) d (i + 8) val) d (i + 16) p i (subItem endp i) =
          s.setData data ∧
      Only s.file.data data d size ∧
      LeafAt data d flags size (before ++ (key, val) :: after) := by
  subst hi hn hused hend
  have hsize := h.page.size_lt
  have haddr := h.page.addr_lt
  have hstart : btStart = 8 := rfl
  rw [List.length_append] at hroom ⊢
  rw [btreeHdrWrite_eq s (by omega), hstart, subItem_eq (by omega) (by omega),
    subItem_eq (by omega) (by omega),
    copy_eq _ (by omega) (by omega) (by omega) (by omega) (by omega),
    writeUi64_eq _ _ (by omega) (by omega), writeUi64_eq _ _ (by omega) (by omega),
    copy_eq _ (by omega) (by omega) (by omega) (by omega) (by omega)]
  simp only [setData_setData, setData_data]
  refine ⟨_, rfl, ?_⟩
  -- the header first, then the words from offset 8 on
  have hhdr := setWord_only s.file.data d
    (hdrWord flags size (before.length + after.length + 1)
      (8 + 16 * (before.length + after.length + 1)))
  have hsrc := h.congr (hhdr.same (by omega))
  have hb := wordsAt_middle [] before after hsrc
  have ha := wordsAt_middle before after [] (by rwa [List.append_nil])
  have hf := (((Filled.nil _ (d + 8) 0 (size - 8)).extend hb (by simp; omega) rfl
    (n := 8 + 16 * before.length - 8) (by simp; omega) (by simp; omega)).push hkey
    (q := d + (8 + 16 * before.length)) (by simp; omega) (by simp; omega)).push hval
    (q := d + (8 + 16 * before.length + 8)) (by simp; omega) (by simp; omega)
  have hf := hf.extend ha (by simp; omega) (q := d + (8 + 16 * before.length + 16)) (by simp; omega)
    (n := 8 + 16 * (before.length + after.length) - (8 + 16 * before.length)) (by simp; omega)
    (by simp; omega)
  have hwords : [] ++ pairs before ++ [key] ++ [val] ++ pairs after =
      pairs (before ++ (key, val) :: after) := by simp
  rw [hwords] at hf
  refine ⟨(hhdr.mono le_rfl (by omega)).trans (hf.only.mono (by omega) (by omega)), ?_⟩
  refine pageAt_of_filled_after hf ((word_setWord _ _ _).trans
    (Nat.mod_eq_of_lt (hdrWord_lt _ _ _ _))) h.page.flags_lt hsize ?_ ?_ (by decide) hdlt ?_
  · simp [BTREE_HEADER_SIZE]
    omega
  · simp
    omega
  · simp [BTREE_HEADER_SIZE]
    congr 1
    omega

-- The two outcomes of btree_leaf_copy_in for the items `before ++ after` of a leaf: the new item
-- lands between them, ...
theorem copyIn_insert {pre post : List (Nat × Nat)}
    (h : LeafAt s.file.data p flags size (pre ++ (before ++ after) ++ post))
    (hd : d + size ≤ p ∨ p + size ≤ d) (hdlt : d + size < 2 ^ 63)
    (hroom : 8 + 16 * (before ++ after).length + 16 ≤ size) (hkey : key < 2 ^ 64)
    (hval : val < 2 ^ 64) (n si ei i : Nat) (hsi : si = 8 + 16 * pre.length)
    (hei : ei = si + 16 * (before ++ after).length) (hi : i = si + 16 * before.length)
    (hn : n = (before ++ after).length) (hin : si = 8 ∨ i > si) :
    ∃ data, btreeLeafCopyIn s d p n si ei key val i = s.setData data ∧
      Only s.file.data data d size ∧
      LeafAt data d (clearRoot flags) size (before ++ (key, val) :: after) := by
  have hsize := h.page.size_lt
  have haddr := h.page.addr_lt
  have hlen := h.length_le
  have hstart : btStart = 8 := rfl
  simp only [List.length_append] at hei hroom hlen hn
  have hcond : (si = btStart ∨ i > si) ∧ i ≤ ei := ⟨hin, by omega⟩
  have hb := wordsAt_middle pre before (after ++ post)
    (by simpa using h)
  have ha := wordsAt_middle (pre ++ before) after post
    (by simpa using h)
  rw [← hsi] at hb
  rw [List.length_append, show 8 + 16 * (pre.length + before.length) = i by omega] at ha
  simp only [btreeLeafCopyIn, if_pos hcond]
  rw [hstart, subItem_eq (a := i) (by omega) (by omega), subItem_eq (a := 8 + i) (by omega) (by omega),
    subItem_eq (a := 8 + i + 8) (by omega) (by omega),
    subItem_eq (a := 8 + i + 16) (by omega) (by omega), subItem_eq (a := ei) (by omega) (by omega),
    copy_eq _ (by omega) (by omega) (by omega) (by omega) (by omega),
    writeUi64_eq _ _ (by omega) (by omega), writeUi64_eq _ _ (by omega) (by omega),
    copy_eq _ (by omega) (by omega) (by omega) (by omega) (by omega),
    btreeHdrWrite_eq _ (by omega), h.page.flags_eq, h.page.size_eq]
  simp only [setData_setData, setData_data]
  refine ⟨_, rfl, ?_⟩
  have hf := (((Filled.nil s.file.data d 8 size).extend hb (by simp; omega) (q := d + 8)
    (by simp) (n := i - si) (by simp; omega) (by simp; omega)).push hkey
    (q := d + (8 + i - si)) (by simp; omega) (by simp; omega)).push hval
    (q := d + (8 + i + 8 - si)) (by simp; omega) (by simp; omega)
  have hf := hf.extend ha (by simp; omega) (q := d + (8 + i + 16 - si)) (by simp; omega)
    (n := ei - i) (by simp; omega) (by simp; omega)
  have hwords : [] ++ pairs before ++ [key] ++ [val] ++ pairs after =
      pairs (before ++ (key, val) :: after) := by simp
  rw [hwords] at hf
  exact leafAt_of_filled hf (clearRoot_lt h.page.flags_lt) hsize (by simp; omega) hdlt
    (by simp; omega) (by omega)

-- ... or elsewhere.
theorem copyIn_keep {pre post : List (Nat × Nat)} (key val : Nat)
    (h : LeafAt s.file.data p flags size (pre ++ items ++ post))
    (hd : d + size ≤ p ∨ p + size ≤ d) (hdlt : d + size < 2 ^ 63)
    (n si ei i : Nat) (hsi : si = 8 + 16 * pre.length)
    (hei : ei = si + 16 * items.length)
    (hn : n = items.length) (hout : ¬((si = 8 ∨ i > si) ∧ i ≤ ei)) :
    ∃ data, btreeLeafCopyIn s d p n si ei key val i = s.setData data ∧
      Only s.file.data data d size ∧ LeafAt data d (clearRoot flags) size items := by
  have hsize := h.page.size_lt
  have haddr := h.page.addr_lt
  have hlen := h.length_le
  have hstart : btStart = 8 := rfl
  simp only [List.length_append] at hlen
  have hb := wordsAt_middle pre items post h
  rw [← hsi] at hb
  simp only [btreeLeafCopyIn, hstart, if_neg hout]
  rw [subItem_eq (by omega) (by omega), copy_eq _ (by omega) (by omega) (by omega) (by omega) (by omega),
    btreeHdrWrite_eq _ (by omega), h.page.flags_eq, h.page.size_eq]
  simp only [setData_setData, setData_data]
  refine ⟨_, rfl, ?_⟩
  have hf := (Filled.nil s.file.data d 8 size).extend hb (by simp; omega) (q := d + 8)
    (by simp) (n := ei - si) (by simp; omega) (by simp; omega)
  rw [List.nil_append] at hf
  exact leafAt_of_filled hf (clearRoot_lt h.page.flags_lt) hsize (by omega) hdlt hn (by omega)

-- The two copies of btree_leaf_split, with the leaf cut after `nl` of its items.
theorem split_at {d' : Nat} (h : LeafAt s.file.data p flags size (before ++ after))
    (hd : d + size ≤ p ∨ p + size ≤ d) (hdlt : d + size < 2 ^ 63)
    (hd' : d' + size ≤ p ∨ p + size ≤ d') (hdlt' : d' + size < 2 ^ 63)
    (hdd : d + size ≤ d' ∨ d' + size ≤ d) (hkey : key < 2 ^ 64) (hval : val < 2 ^ 64)
    {nl nr m endp i : Nat} (hpos : 0 < nl) (hlt : nl < (before ++ after).length)
    (hnr : nr = (before ++ after).length - nl) (hm : m = 8 + 16 * nl)
    (hend : endp = 8 + 16 * (before ++ after).length) (hi : i = 8 + 16 * before.length) :
    ∃ left item rest data₁ data,
      btreeLeafCopyIn s d p nl btStart m key val i = s.setData data₁ ∧
      btreeLeafCopyIn (s.setData data₁) d' p nr m endp key val i = s.setData data ∧
      Only s.file.data data₁ d size ∧ Only data₁ data d' size ∧
      before ++ (key, val) :: after = left ++ item :: rest ∧
      left.length = (if before.length ≤ nl then nl + 1 else nl) ∧
      readUi64 s p m = item.1 ∧
      LeafAt data d (clearRoot flags) size left ∧
      LeafAt data d' (clearRoot flags) size (item :: rest) := by
  have hlen := h.length_le
  simp only [List.length_append] at hlt hnr hend hlen
  have hstart : btStart = 8 := rfl
  rw [hstart]
  by_cases hj : before.length ≤ nl
  · -- the new item goes to the left page
    obtain ⟨a₁, item, a₂, rfl, hl⟩ : ∃ a₁ item a₂, after = a₁ ++ item :: a₂ ∧
        a₁.length = nl - before.length := by
      obtain ⟨a₁, a, rfl, hl⟩ : ∃ a₁ a, after = a₁ ++ a ∧ a₁.length = nl - before.length :=
        ⟨_, _, (List.take_append_drop (nl - before.length) after).symm, by simp; omega⟩
      cases a with
      | nil => simp at hlt; omega
      | cons item a₂ => exact ⟨a₁, item, a₂, rfl, hl⟩
    simp only [List.length_append, List.length_cons] at hlt hnr hend hlen
    have h₁ : LeafAt s.file.data p flags size ([] ++ (before ++ a₁) ++ item :: a₂) := by simpa using h
    obtain ⟨data₁, he₁, ho₁, hl₁⟩ := h₁.copyIn_insert hd hdlt (by simp; omega) hkey hval
      nl 8 m i rfl (by simp; omega) hi (by simp; omega) (Or.inl rfl)
    have h₂ : LeafAt (s.setData data₁).file.data p flags size ((before ++ a₁) ++ (item :: a₂) ++ []) :=
      LeafAt.congr (by simpa using h) (ho₁.same (by omega))
    obtain ⟨data, he, ho, hl₂⟩ := h₂.copyIn_keep key val hd' hdlt' nr m endp i
      (by simp; omega) (by simp; omega) (by simp; omega) (by omega)
    refine ⟨before ++ (key, val) :: a₁, item, a₂, data₁, data, he₁, he, ho₁, ho, by simp, ?_, ?_,
      hl₁.congr (ho.same (by omega)), hl₂⟩
    · rw [if_pos hj, List.length_append, List.length_cons]
      omega
    · have hr := (read_words (before ++ a₁) a₂
        (by simpa using h)).1
      rwa [List.length_append, show 8 + 16 * (before.length + a₁.length) = m by omega] at hr
  · -- the new item goes to the right page
    obtain ⟨b₁, item, b₂, rfl, hl⟩ : ∃ b₁ item b₂, before = b₁ ++ item :: b₂ ∧ b₁.length = nl := by
      obtain ⟨b₁, b, rfl, hl⟩ : ∃ b₁ b, before = b₁ ++ b ∧ b₁.length = nl :=
        ⟨_, _, (List.take_append_drop nl before).symm, by simp; omega⟩
      cases b with
      | nil => simp at hj; omega
      | cons item b₂ => exact ⟨b₁, item, b₂, rfl, hl⟩
    simp only [List.length_append, List.length_cons] at hlt hnr hend hlen hj hi
    have h₁ : LeafAt s.file.data p flags size ([] ++ b₁ ++ (item :: b₂ ++ after)) := by simpa using h
    obtain ⟨data₁, he₁, ho₁, hl₁⟩ := h₁.copyIn_keep key val hd hdlt nl 8 m i
      rfl (by omega) hl.symm (by omega)
    have h₂ : LeafAt (s.setData data₁).file.data p flags size
        (b₁ ++ (item :: b₂ ++ after) ++ []) :=
      LeafAt.congr (by simpa using h) (ho₁.same (by omega))
    obtain ⟨data, he, ho, hl₂⟩ := h₂.copyIn_insert hd' hdlt' (by simp; omega) hkey hval
      nr m endp i (by omega) (by simp; omega) (by simp; omega)
      (by simp; omega) (Or.inr (by omega))
    refine ⟨b₁, item, b₂ ++ (key, val) :: after, data₁, data, he₁, he, ho₁, ho, by simp, ?_, ?_,
      hl₁.congr (ho.same (by omega)), hl₂⟩
    · rw [if_neg (by simp; omega), hl]
    · have hr := (read_words b₁ (b₂ ++ after)
        (by simpa using h)).1
      rwa [show 8 + 16 * b₁.length = m by omega] at hr

end Write

end LeafAt

end Adventure

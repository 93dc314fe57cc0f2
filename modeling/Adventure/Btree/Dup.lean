import Adventure.Bstack.Add
import Adventure.Btree.Insert

namespace Adventure

open Memory SearchTree Ends

section Mark

variable {key : Nat}

theorem keySetOverflow_eq (h : key < 2 ^ 63) : keySetOverflow key = 2 ^ 63 + key := by
  have hone : (2 : Nat) ^ 63 = 1 <<< 63 := by decide
  rw [keySetOverflow, Nat.or_comm, ← Nat.shiftLeft_add_eq_or_of_lt h, hone]

theorem keyHasOverflow_iff (h : key < 2 ^ 64) : keyHasOverflow key = true ↔ 2 ^ 63 ≤ key := by
  have hone : 1 <<< 63 = 2 ^ 63 := by decide
  have hbit : key.testBit 63 = decide (2 ^ 63 ≤ key) := by
    rw [Nat.testBit_eq_decide_div_mod_eq, decide_eq_decide]
    omega
  rw [keyHasOverflow, hone, Nat.and_two_pow, hbit]
  simp

theorem keySetOverflow_lt (h : key < 2 ^ 63) : keySetOverflow key < 2 ^ 64 := by
  rw [keySetOverflow_eq h]
  omega

theorem keyGet_mark (h : key < 2 ^ 63) : keyGet (keySetOverflow key) = key := by
  rw [keyGet_eq_mod, keySetOverflow_eq h]
  omega

theorem keyHasOverflow_mark (h : key < 2 ^ 63) : keyHasOverflow (keySetOverflow key) = true := by
  rw [keyHasOverflow_iff (keySetOverflow_lt h), keySetOverflow_eq h]
  omega

theorem keyHasOverflow_of_lt (h : key < 2 ^ 63) : keyHasOverflow key = false := by
  rw [Bool.eq_false_iff, Ne, keyHasOverflow_iff (by omega)]
  omega

end Mark

namespace LeafAt

variable {s : Store} {p d flags size : Nat} {before after : List (Nat × Nat)} {item : Nat × Nat}
  {key val : Nat}

-- The copy that btree_leaf_add_dup makes: it begins with the old header and has the new item in
-- the place of the old one.
theorem dup_copy (h : LeafAt s.file.data p flags size (before ++ item :: after))
    (hd : d + size ≤ p ∨ p + size ≤ d) (hdlt : d + size < 2 ^ 63) (hkey : key < 2 ^ 64)
    (hval : val < 2 ^ 64) {i e : Nat} (hi : i = 8 + 16 * before.length)
    (he : e = 8 + 16 * (before ++ item :: after).length) :
    ∃ data, copy (writeUi64 (writeUi64 (copy s d 0 p 0 i) d i key) d (i + 8) val) d (toItem (i + 16))
        p (toItem (i + 16)) (subItem e (toItem (i + 16))) = s.setData data ∧
      Only s.file.data data d size ∧ LeafAt data d flags size (before ++ (key, val) :: after) := by
  subst hi he
  have hsize := h.page.size_lt
  have haddr := h.page.addr_lt
  have hfits := h.page.fits
  have hlen : (before ++ item :: after).length = before.length + (after.length + 1) := by simp
  rw [length_pairs, hlen] at hfits
  rw [hlen, toItem_eq (by omega), subItem_eq (by omega) (by omega),
    copy_eq _ (by omega) (by omega) (by omega) (by omega) (by omega),
    writeUi64_eq _ _ (by omega) (by omega), writeUi64_eq _ _ (by omega) (by omega),
    copy_eq _ (by omega) (by omega) (by omega) (by omega) (by omega)]
  simp only [setData_setData, setData_data]
  refine ⟨_, rfl, ?_⟩
  -- the header counts as the first word of the copy
  have hb : s.file.data.WordsAt (p + 0) (hdrWord flags size (before ++ item :: after).length
      (8 + 8 * (pairs (before ++ item :: after)).length) :: pairs before) :=
    ⟨h.page.header, wordsAt_middle [] before (item :: after) h⟩
  have ha := wordsAt_middle (before ++ [item]) after [] (by simpa using h)
  have hf := (((Filled.nil s.file.data d 0 size).extend hb (by simp; omega) (q := d + 0) rfl
    (n := 8 + 16 * before.length) (by simp; omega) (by simp; omega)).push hkey
    (q := d + (8 + 16 * before.length)) (by simp; omega) (by simp; omega)).push hval
    (q := d + (8 + 16 * before.length + 8)) (by simp; omega) (by simp; omega)
  have hf := hf.extend ha (by simp; omega) (q := d + (8 + 16 * before.length + 16)) (by simp; omega)
    (n := 8 + 16 * (before.length + (after.length + 1)) - (8 + 16 * before.length + 16))
    (by simp; omega) (by simp; omega)
  rw [show p + (8 + 16 * (before ++ [item]).length) = p + (8 + 16 * before.length + 16) by
    simp; omega] at hf
  have hwords := hf.words
  rw [List.nil_append, List.cons_append, List.cons_append, List.cons_append, wordsAt_cons] at hwords
  refine ⟨hf.only, ?_⟩
  have hpairs : pairs before ++ [key] ++ [val] ++ pairs after =
      pairs (before ++ (key, val) :: after) := by simp
  have hcount : (pairs (before ++ item :: after)).length =
      (pairs (before ++ (key, val) :: after)).length := by simp
  have hn : (before ++ item :: after).length = (before ++ (key, val) :: after).length := by simp
  rw [hpairs, hcount, hn] at hwords
  exact ⟨hwords.1, hwords.2, h.page.flags_lt, hsize, by simp [BTREE_HEADER_SIZE]; omega,
    by simp; omega, by decide, hdlt⟩

end LeafAt

-- The stack of an item after btree_leaf_add_dup has put a further value on it, and its page.
def dupStack (s : Store) (key prevVal val : Nat) : Option (Nat × Store) :=
  if !keyHasOverflow key then do
    let r ← bstackCreate s
    let r ← bstackAdd r.2 r.1 prevVal
    bstackAdd r.2 r.1 val
  else bstackAdd s prevVal val

-- The code keeps a key that is marked already as it is.
theorem keySetOverflow_marked {key : Nat} (hlt : key < 2 ^ 64) (h : keyHasOverflow key = true) :
    keySetOverflow key = key := by
  have hle := (keyHasOverflow_iff hlt).mp h
  have hget : key = keySetOverflow (key - 2 ^ 63) := by
    rw [keySetOverflow_eq (by omega)]
    omega
  rw [hget]
  simp only [keySetOverflow, Nat.or_assoc, Nat.or_self]

theorem leafAddDup_eq {s : Store} {page i key val : Nat} (hlt : key < 2 ^ 64) :
    btreeLeafAddDup s page i key val = do
      let stack ← dupStack s key (readUi64 s page (i + 8)) val
      let r ← storeAlloc stack.2 (pgSize (pgHeader s page))
      return (r.1, storeFree (copy (writeUi64 (writeUi64 (copy r.2 r.1 0 page 0 i) r.1 i
        (keySetOverflow key)) r.1 (i + 8) stack.1) r.1 (toItem (i + 16)) page (toItem (i + 16))
          (subItem (pgEnd (pgHeader s page)) (toItem (i + 16)))) page) := by
  rw [btreeLeafAddDup, dupStack]
  by_cases h : keyHasOverflow key = true
  · simp only [h, Bool.not_true, Bool.false_eq_true, if_false, keySetOverflow_marked hlt h,
      Option.bind_eq_bind, Option.pure_def, Option.bind_some]
  · simp only [h, Bool.not_false, if_true, Option.bind_eq_bind, Option.pure_def, Option.bind_assoc,
      Option.bind_some]

-- The key of an item without its overflow mark.
def maskedKey (item : Nat × Nat) : Nat := keyGet item.1

-- The pages of the stack that an item points to.
def itemPages (item : Nat × Nat) : Multiset Nat := if keyHasOverflow item.1 then {item.2} else 0

-- An item and the values it stands for: one value, or a stack that one page has room for.
inductive Entry (m : Memory) : Nat × Nat → List Nat → Prop
  | single {key val : Nat} : key < 2 ^ 63 → Entry m (key, val) [val]
  | stack {key page : Nat} {vals : List Nat} : key < 2 ^ 63 → StackAt m page 0 0 vals →
      vals.length ≤ 5 → Entry m (keySetOverflow key, page) vals

namespace Entry

variable {m m' : Memory} {key page : Nat} {item : Nat × Nat} {vals : List Nat}

theorem itemPages_single (h : key < 2 ^ 63) (val : Nat) : itemPages (key, val) = 0 := by
  simp [itemPages, keyHasOverflow_of_lt h]

theorem itemPages_stack (h : key < 2 ^ 63) (page : Nat) :
    itemPages (keySetOverflow key, page) = {page} := by
  simp [itemPages, keyHasOverflow_mark h]

theorem congr (h : Entry m item vals) (hs : ∀ p ∈ itemPages item, Same m m' p 64) :
    Entry m' item vals := by
  cases h with
  | single hkey => exact .single hkey
  | stack hkey hp hlen =>
      refine .stack hkey (hp.congr (hs _ ?_)) hlen
      simp [itemPages_stack hkey]

theorem key_lt (h : Entry m item vals) : item.1 < 2 ^ 64 := by
  cases h with
  | single hkey => exact hkey.trans (by decide)
  | stack hkey _ _ => exact keySetOverflow_lt hkey

theorem maskedKey_lt (h : Entry m item vals) : maskedKey item < 2 ^ 63 := by
  cases h with
  | single hkey => exact (keyGet_eq hkey).trans_lt hkey
  | stack hkey _ _ => exact (keyGet_mark hkey).trans_lt hkey

-- With the mark set, the key of the item and the key it stands for are the same.
theorem set_eq (h : Entry m item vals) : keySetOverflow item.1 = keySetOverflow (maskedKey item) := by
  cases h with
  | single hkey => rw [show maskedKey _ = _ from keyGet_eq hkey]
  | stack hkey _ _ =>
      rw [maskedKey, keyGet_mark hkey]
      exact keySetOverflow_marked (keySetOverflow_lt hkey) (keyHasOverflow_mark hkey)

-- A stack page has room unless it has exactly 56 bytes in use.
theorem length_lt {s : Store} (h : Entry s.file.data item vals)
    (hused : keyHasOverflow item.1 = true → pgUsed (pgHeader s item.2) ≠ 56) : vals.length < 5 := by
  cases h with
  | single hk => exact Nat.one_lt_succ_succ 3
  | stack hk hs hlen =>
      have hne := hused (keyHasOverflow_mark hk)
      rw [hs.page.used_eq] at hne
      omega

end Entry

section AddDup

variable {base : Base} {s : Store} {live : Multiset Nat} {p flags : Nat}
  {before after : List (Nat × Nat)} {item : Nat × Nat} {key val : Nat} {vals : List Nat}

-- The second value of a key goes into a new stack, on top of the first. A further value goes on the
-- stack that is there.
theorem dupStack_meets (hp : Pool base s (itemPages item + live)) (he : Entry s.file.data item vals)
    (hprev : item.2 < 2 ^ 64) (hroom : vals.length < 5) (hval : val < 2 ^ 64) :
    Meets (dupStack s item.1 item.2 val) (¬s.Growable 192) fun r => Pool base r.2 (r.1 ::ₘ live) ∧
      Keeps live s r.2 ∧ Spent s r.2 192 ∧ StackAt r.2.file.data r.1 0 0 (vals ++ [val]) := by
  unfold dupStack
  cases he with
  | @single key v hkey =>
      rw [Entry.itemPages_single hkey, zero_add] at hp
      simp only [keyHasOverflow_of_lt hkey, Bool.not_false, if_true, Option.bind_eq_bind]
      refine Meets.bind ((bstackCreate_meets hp).mono (mt fun hg => hg.mono (by omega))
        fun _ h => h) ?_
      rintro ⟨q₁, s₁⟩ ⟨hp₁, hk₁, hspent₁, hq₁⟩
      refine Meets.bind ((bstackAdd_meets hp₁ hq₁ (by simp) hprev).mono (hspent₁.stuck (by omega))
        fun _ h => h) ?_
      rintro ⟨q₂, s₂⟩ ⟨hp₂, hk₂, hspent₂, -, hq₂⟩
      have hspent₂ := hspent₁.trans hspent₂
      apply (bstackAdd_meets hp₂ hq₂ (by simp) hval).mono (hspent₂.stuck (by omega))
      rintro r ⟨hp₃, hk₃, hspent₃, -, hq₃⟩
      have hk₂ := hk₁.trans (hk₂.mono fun x hx => by simp [hx])
      exact ⟨hp₃, hk₂.trans (hk₃.mono fun x hx => by simp [hx]), hspent₂.trans hspent₃, hq₃⟩
  | @stack key page vals hkey hs hlen =>
      rw [Entry.itemPages_stack hkey, Multiset.singleton_add] at hp
      simp only [keyHasOverflow_mark hkey, Bool.not_true, Bool.false_eq_true, if_false]
      refine (bstackAdd_meets hp hs hroom hval).mono (mt fun hg => hg.mono (by omega)) ?_
      rintro r ⟨hp₁, hk₁, hspent₁, -, hq₁⟩
      exact ⟨hp₁, hk₁.mono fun x hx => by simp [hx], hspent₁.mono (by omega), hq₁⟩

-- The last steps of btree_leaf_add_dup, once the stack has the new value on it.
theorem dupCopy_meets {page i e : Nat} (hp : Pool base s (p ::ₘ live))
    (hl : LeafAt s.file.data p flags 64 (before ++ item :: after)) (hkey : key < 2 ^ 64)
    (hpage : page < 2 ^ 64) (hi : i = 8 + 16 * before.length)
    (he : e = 8 + 16 * (before ++ item :: after).length) :
    Meets (storeAlloc s 64 >>= fun r =>
        some (r.1, storeFree (copy (writeUi64 (writeUi64 (copy r.2 r.1 0 p 0 i) r.1 i key) r.1 (i + 8)
          page) r.1 (toItem (i + 16)) p (toItem (i + 16)) (subItem e (toItem (i + 16)))) p))
      (¬s.Growable 64) fun r =>
      r.1 ≠ 0 ∧ Pool base r.2 (r.1 ::ₘ live) ∧ Keeps live s r.2 ∧ Spent s r.2 64 ∧
        LeafAt r.2.file.data r.1 flags 64 (before ++ (key, page) :: after) := by
  apply Meets.bind hp.alloc_meets
  rintro ⟨d, s₁⟩ ⟨hp₁, hk₁, ha⟩
  have hl₁ := hl.congr (hk₁ p (Multiset.mem_cons_self _ _))
  have hdp := hp₁.apart_of_cons (Multiset.mem_cons_self p live)
  have hbd := hp₁.bounds (p := d) (by simp)
  obtain ⟨data, hc, ho, hld⟩ := hl₁.dup_copy hdp (by omega) hkey hpage hi he
  simp only [hc]
  obtain ⟨hne, hp₂, hk₂⟩ := hp₁.replaced ho
  exact Meets.pure ⟨hne, hp₂, (hk₁.mono (Multiset.subset_cons _ _)).trans hk₂,
    (ha.spent.setData data).free p, hld⟩

theorem keyGet_le (key : Nat) : keyGet key ≤ key := keyGet_eq_mod key ▸ Nat.mod_le _ _

-- An item for the key on which the search stops is a duplicate.
theorem leafAdd_eq_dup (hl : LeafAt s.file.data p flags 64 (before ++ item :: after))
    (hpos : (before ++ item :: after).findIdx (fun item => decide (key ≤ item.1)) = before.length)
    (hitem : maskedKey item = key) :
    btreeLeafAdd s p key val = btreeLeafAddDup s p (8 + 16 * before.length) item.1 val := by
  have hread := (LeafAt.read_words before after hl).1
  have hdup : 8 + 16 * before.length < pgEnd (pgHeader s p) ∧ keyGet item.1 = key :=
    ⟨by rw [hl.end_eq]; simp, hitem⟩
  rw [btreeLeafAdd, hl.find_eq, hpos]
  simp only [Option.bind_eq_bind, Option.bind_some, hread, if_pos hdup]

-- A duplicate of the key that the search stops at, when its stack has room.
theorem leafAdd_dup_meets (hp : Pool base s (p ::ₘ (itemPages item + live)))
    (hl : LeafAt s.file.data p flags 64 (before ++ item :: after))
    (he : Entry s.file.data item vals)
    (hpos : (before ++ item :: after).findIdx (fun item => decide (key ≤ item.1)) = before.length)
    (hitem : maskedKey item = key) (hroom : vals.length < 5) (hval : val < 2 ^ 64) :
    Meets (btreeLeafAdd s p key val) (¬s.Growable 256) fun r => ∃ page s₁,
      dupStack s item.1 item.2 val = some (page, s₁) ∧ r.1 ≠ 0 ∧
      Pool base r.2 (r.1 ::ₘ page ::ₘ live) ∧ Keeps live s r.2 ∧ Spent s r.2 256 ∧
      LeafAt r.2.file.data r.1 flags 64 (before ++ (keySetOverflow key, page) :: after) ∧
      StackAt r.2.file.data page 0 0 (vals ++ [val]) := by
  have hread : readUi64 s p (8 + 16 * before.length + 8) = item.2 :=
    (LeafAt.read_words before after hl).2
  have hp' : Pool base s (itemPages item + (p ::ₘ live)) := by rwa [Multiset.add_cons]
  rw [leafAdd_eq_dup hl hpos hitem, leafAddDup_eq he.key_lt, hread, hl.page.size_eq, hl.end_eq]
  refine Meets.bind ((dupStack_meets hp' he (hread ▸ readUi64_lt _ _ _) hroom hval).with_eq.mono
    (mt fun hg => hg.mono (by omega)) fun _ h => h) ?_
  rintro ⟨page, s₁⟩ ⟨hstack, hp₁, hk₁, hspent₁, hq₁⟩
  have hb₁ := hp₁.bounds (p := page) (by simp)
  have hp₁' : Pool base s₁ (p ::ₘ page ::ₘ live) := by rwa [Multiset.cons_swap]
  have hcopy := dupCopy_meets hp₁' (hl.congr (hk₁ p (Multiset.mem_cons_self _ _)))
    (keySetOverflow_lt (hitem ▸ he.maskedKey_lt)) (show page < 2 ^ 64 by omega) rfl rfl
  rw [he.set_eq, hitem]
  apply hcopy.mono (hspent₁.stuck (by omega))
  rintro r ⟨hne, hp₂, hk₂, hspent₂, hl₂⟩
  refine ⟨page, s₁, hstack, hne, hp₂, ?_, hspent₁.trans hspent₂, hl₂, hq₁.congr (hk₂ page (by simp))⟩
  exact (hk₁.mono fun x hx => by simp [hx]).trans (hk₂.mono fun x hx => by simp [hx])

-- The same in btree_recur_add.
theorem recurAdd_dup_meets {root : Nat} {chains rest : Multiset Nat} {t : PageTree 0}
    (hp : Pool base s (t.addrs + (itemPages item + chains + rest))) (ht : Holds s.file.data root t)
    (hroot : IsRootFlag root) (hheld : t.held = before ++ item :: after)
    (he : Entry s.file.data item vals)
    (hpos : (before ++ item :: after).findIdx (fun item => decide (key ≤ item.1)) = before.length)
    (hitem : maskedKey item = key) (hroom : vals.length < 5) (hval : val < 2 ^ 64)
    (depth orig : Nat) :
    Meets (btreeRecurAdd (depth + 1) s t.addr key val orig 0) (¬s.Growable (64 * 4))
      fun r => ∃ (g : Growth (PageTree 0) Nat) (page : Nat) (s₁ : Store),
        Grew base s root 4 (itemPages (keySetOverflow key, page) + chains) rest r g ∧
        Keeps chains s r.2.2.2 ∧ dupStack s item.1 item.2 val = some (page, s₁) ∧
        g.map Tree.held = .one (before ++ (keySetOverflow key, page) :: after) ∧
        Entry r.2.2.2.file.data (keySetOverflow key, page) (vals ++ [val]) := by
  have hl : LeafAt s.file.data t.addr (BTREE_LEAF ||| root) 64 (before ++ item :: after) := hheld ▸ ht
  have hkey : key < 2 ^ 63 := hitem ▸ he.maskedKey_lt
  have hp' : Pool base s (t.addr ::ₘ (itemPages item + (chains + rest))) := by
    rwa [← Multiset.singleton_add, ← Tree.addrs_leaf, ← add_assoc (itemPages item)]
  simp only [btreeRecurAdd, isLeaf_of_leafAt hl hroot, if_true]
  apply Meets.bind (leafAdd_dup_meets hp' hl he hpos hitem hroom hval)
  rintro ⟨d, s₁⟩ ⟨page, s₂, hstack, hne, hp₁, hk₁, hspent, hl₁, hq⟩
  simp only [ne_eq, hne, not_false_eq_true, if_true]
  have hd := hp₁.bounds (p := d) (by simp)
  refine Meets.pure ⟨.one (Tree.leaf d (before ++ (keySetOverflow key, page) :: after)), page, s₂,
    ⟨⟨rfl, rfl⟩, ?_, ?_, ?_, hk₁.mono fun p hp => by simp [hp], hspent⟩,
    hk₁.mono fun p hp => by simp [hp], hstack, rfl, .stack hkey hq (by simp; omega)⟩
  · simp only [Growth.map, Growth.flat, List.mem_singleton, Tree.addr_leaf, forall_eq]
    omega
  · simp only [Growth.kids, List.mem_singleton, forall_eq]
    exact hl₁
  · rw [Entry.itemPages_stack hkey]
    simp only [Growth.addrs, Growth.kids, List.map_cons, List.map_nil, List.sum_cons, List.sum_nil,
      Tree.addrs_leaf, Tree.addr_leaf, add_zero, Multiset.singleton_add, Multiset.cons_add]
    exact hp₁

end AddDup

end Adventure

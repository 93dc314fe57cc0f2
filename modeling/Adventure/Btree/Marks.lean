import Adventure.Btree.Multimap

namespace Adventure

open Memory SearchTree Ends

-- The value of item number `i` of a leaf as the code reads it.
def leafVal (s : Store) (page i : Nat) : Nat := readUi64 s page (btStart + 16 * i + 8)

-- The search has stopped at an item for the key, which btree_leaf_add takes for a duplicate.
def AtItem (s : Store) (cur : BtCur) (key : Nat) : Prop :=
  cur.index < pgEnd (pgHeader s cur.page) ∧ maskedKey (cursorItem s cur) = key

instance (s : Store) (cur : BtCur) (key : Nat) : Decidable (AtItem s cur key) :=
  inferInstanceAs (Decidable (_ ∧ _))

-- The overflow stacks after a call, each as the key it was created for and the page that the last
-- call of bstack_add on it returned. `live` are those before the call.
def stacksAfter (s : Store) (root key val : Nat) (live : List (Nat × Nat)) :
    Option (List (Nat × Nat)) := do
  let cur ← btreeFind s root key
  let item := cursorItem s cur
  if AtItem s cur key then
    let stack ← dupStack s item.1 item.2 val
    return (key, stack.1) :: if keyHasOverflow item.1 then live.erase (key, item.2) else live
  else return live

-- A key with bit 63 set comes to a full leaf, the split of which clears the bit; and no value goes
-- on a stack page that has exactly 56 bytes in use.
def KeepsMarks (s : Store) (root key : Nat) : Prop :=
  ∃ cur, btreeFind s root key = some cur ∧ (key < 2 ^ 63 ∨ pgFree (pgHeader s cur.page) < 16) ∧
    (AtItem s cur key → keyHasOverflow (cursorItem s cur).1 = true →
      pgUsed (pgHeader s (cursorItem s cur).2) ≠ 56)

instance (s : Store) (root key : Nat) : Decidable (KeepsMarks s root key) :=
  decidable_of_iff (∃ cur ∈ btreeFind s root key,
    (key < 2 ^ 63 ∨ pgFree (pgHeader s cur.page) < 16) ∧
    (AtItem s cur key → keyHasOverflow (cursorItem s cur).1 = true →
      pgUsed (pgHeader s (cursorItem s cur).2) ≠ 56)) Iff.rfl

-- The states of all runs on one new tree in which every call keeps the marks. Keys and values are
-- arbitrary 64-bit numbers, and `live` are the overflow stacks.
inductive Marking (disk : Disk) : Store → Nat → List (Nat × Nat) → Prop
  | created {s₀ s : Store} {root : Nat} : storeOpen disk none STORE_O_CREAT = some s₀ →
      btreeCreate s₀ = some (root, s) → Marking disk s root []
  | add {s s' : Store} {root root' : Nat} {live live' : List (Nat × Nat)} (key val : Nat) :
      Marking disk s root live → key < 2 ^ 64 → val < 2 ^ 64 → KeepsMarks s root key →
      btreeAdd s root key val = some (root', s') → stacksAfter s root key val live = some live' →
      Marking disk s' root' live'

-- A run that stops at a call that does not keep the marks.
def addKeeping (s : Store) (root : Nat) (live : List (Nat × Nat)) :
    List (Nat × Nat) → Option (Nat × Store × List (Nat × Nat))
  | [] => some (root, s, live)
  | (key, val) :: items =>
      if KeepsMarks s root key ∧ key < 2 ^ 64 ∧ val < 2 ^ 64 then
        (btreeAdd s root key val).bind fun r => (stacksAfter s root key val live).bind fun live' =>
          addKeeping r.2 r.1 live' items
      else none

theorem Marking.run {disk : Disk} {s : Store} {root : Nat} {live items : List (Nat × Nat)}
    {r : Nat × Store × List (Nat × Nat)} (h : Marking disk s root live)
    (hrun : addKeeping s root live items = some r) : Marking disk r.2.1 r.1 r.2.2 := by
  induction items generalizing s root live with
  | nil =>
      obtain rfl := Option.some.inj hrun
      exact h
  | cons item items ih =>
      rcases item with ⟨key, val⟩
      unfold addKeeping at hrun
      obtain ⟨hkeeps, ⟨root', s'⟩, hadd, hrest⟩ := guarded_eq_some hrun
      obtain ⟨live', hlive, hrest⟩ := Option.bind_eq_some_iff.mp hrest
      exact ih (.add key val h hkeeps.2.1 hkeeps.2.2 hkeeps.1 hadd hlive) hrest

-- What the overflow marks of a tree stand for.
structure MarksSound (s : Store) (root : Nat) (live : List (Nat × Nat)) : Prop where
  -- a marked item has the head page of a stack that was created for its key
  items : ∀ depth leaf i, PageBelow s root depth leaf → isLeaf (pgHeader s leaf) = true →
    i < pgNkeys (pgHeader s leaf) → keyHasOverflow (leafKey s leaf i) = true →
    (keyGet (leafKey s leaf i), leafVal s leaf i) ∈ live
  -- the stacks are in use: they can be walked, and their pages are neither free nor in the tree
  heads : ∀ stack ∈ live, (∃ vals, bstackDebugPage s stack.2 = some [(stack.2, vals)]) ∧
    (∀ free, s.freeList = some free → stack.2 ∉ free) ∧
    ∀ depth, ¬PageBelow s root depth stack.2
  -- what btree_leaf_add_dup passes to bstack_add as a page
  calls : ∀ key cur, btreeFind s root key = some cur → AtItem s cur key →
    keyHasOverflow (cursorItem s cur).1 = true → (key, (cursorItem s cur).2) ∈ live

-- The stacks that marked items point to.
def markedStacks (items : Multiset (Nat × Nat)) : Multiset (Nat × Nat) :=
  (items.filter fun x => keyHasOverflow x.1 = true).map fun x => (maskedKey x, x.2)

section Marked

variable {key page val : Nat} {items : Multiset (Nat × Nat)} {item : Nat × Nat}

theorem markedStacks_single (hkey : key < 2 ^ 63) :
    markedStacks ((key, val) ::ₘ items) = markedStacks items := by
  rw [markedStacks, Multiset.filter_cons_of_neg _ (by simp [keyHasOverflow_of_lt hkey])]
  rfl

theorem markedStacks_stack (hkey : key < 2 ^ 63) :
    markedStacks ((keySetOverflow key, page) ::ₘ items) = (key, page) ::ₘ markedStacks items := by
  rw [markedStacks, Multiset.filter_cons_of_pos _ (by simp [keyHasOverflow_mark hkey]), Multiset.map_cons,
    maskedKey, keyGet_mark hkey]
  rfl

theorem mem_markedStacks (hmem : item ∈ items) (hmark : keyHasOverflow item.1 = true) :
    (maskedKey item, item.2) ∈ markedStacks items :=
  Multiset.mem_map_of_mem _ (Multiset.mem_filter.mpr ⟨hmem, hmark⟩)

end Marked

-- The invariant of a run: the stacks in use are those that the marked items point to.
structure Marked (s : Store) (root : Nat) (live : List (Nat × Nat)) {h : ℕ} (t : PageTree h) :
    Prop where
  root : t.addr = root
  stacked : Stacked s t
  pool : Pool Base.empty s (t.addrs + (stackPages t.items + {s.freeRoot}))
  live : (live : Multiset (Nat × Nat)) = markedStacks t.items

section Cursor

variable {s : Store} {p flags key : Nat} {before after : List (Nat × Nat)} {item : Nat × Nat}

theorem cursorItem_eq (hl : LeafAt s.file.data p flags 64 (before ++ item :: after)) :
    cursorItem s ⟨p, 8 + 16 * before.length⟩ = item :=
  Prod.ext (LeafAt.read_words before after hl).1 (LeafAt.read_words before after hl).2

theorem atItem_iff (hl : LeafAt s.file.data p flags 64 (before ++ after)) :
    AtItem s ⟨p, 8 + 16 * before.length⟩ key ↔ ∃ item ∈ after.head?, maskedKey item = key := by
  rw [AtItem, hl.end_eq, List.length_append]
  cases after with
  | nil => simp
  | cons item after => simp [cursorItem_eq hl]

end Cursor

-- Where the search in a leaf stops, whatever the order of the items.
theorem exists_stop (items : List (Nat × Nat)) (key : Nat) : ∃ before after,
    items = before ++ after ∧
      (before ++ after).findIdx (fun item => decide (key ≤ item.1)) = before.length := by
  refine ⟨items.take (items.findIdx fun item => decide (key ≤ item.1)),
    items.drop (items.findIdx fun item => decide (key ≤ item.1)), (List.take_append_drop _ _).symm, ?_⟩
  rw [List.take_append_drop, List.length_take, min_eq_left List.findIdx_le_length]

section Sound

variable {s : Store} {root : Nat} {live : List (Nat × Nat)} {h : ℕ} {t : PageTree h}

theorem Marked.find (hm : Marked s root live t) (key : Nat) : ∃ before after flag,
    (t.leafOf key).held = before ++ after ∧
    (before ++ after).findIdx (fun item => decide (key ≤ item.1)) = before.length ∧
    LeafAt s.file.data (t.leafOf key).addr (BTREE_LEAF ||| flag) 64 (before ++ after) ∧
    btreeFind s root key = some ⟨(t.leafOf key).addr, 8 + 16 * before.length⟩ := by
  obtain ⟨before, after, hheld, hpos⟩ := exists_stop (t.leafOf key).held key
  obtain ⟨flag, -, hl⟩ := hm.stacked.holds.leafOf (Or.inr rfl) key
  have hne : ∀ p ∈ t.addrs, p ≠ 0 := fun p hp => by
    have := hm.pool.bounds (Multiset.mem_add.mpr (Or.inl hp))
    omega
  have hfind := btreeFindFrom_eq hm.stacked.holds (Or.inr rfl) hne key (hm.pool.depth_lt t)
  rw [hheld, hpos, hm.root] at hfind
  exact ⟨before, after, flag, hheld, hpos, hheld ▸ hl, hfind⟩

-- A stack in use has an item that points to it.
theorem Marked.stack (hm : Marked s root live t) {stack : Nat × Nat} (hstack : stack ∈ live) :
    stack.2 ∈ stackPages t.items ∧ ∃ vals, StackAt s.file.data stack.2 0 0 vals := by
  rw [← Multiset.mem_coe, hm.live, markedStacks, Multiset.mem_map] at hstack
  obtain ⟨item, hitem, rfl⟩ := hstack
  obtain ⟨hmem, hmark⟩ := Multiset.mem_filter.mp hitem
  obtain ⟨vals, he⟩ := hm.stacked.entries item hmem
  have hpage : item.2 ∈ itemPages item := by simp [itemPages, hmark]
  refine ⟨Multiset.mem_of_le (itemPages_le hmem) hpage, ?_⟩
  cases he with
  | single hkey =>
      rw [keyHasOverflow_of_lt hkey] at hmark
      cases hmark
  | stack hkey hs hlen => exact ⟨vals, hs⟩

theorem Marked.sound (hm : Marked s root live t) : MarksSound s root live where
  items depth leaf i hp hl hi hmark := by
    rw [← hm.root] at hp
    obtain ⟨k, sub, flag, hflag, rfl, hholds, -, hsub⟩ := hp.sub hm.stacked.holds (Or.inr rfl)
    cases k with
    | zero =>
        have hleaf : LeafAt s.file.data sub.addr (BTREE_LEAF ||| flag) 64 sub.held := hholds
        rw [hleaf.page.nkeys_eq] at hi
        obtain ⟨hk, hv⟩ := hleaf.read_item hi
        have hkey : leafKey s sub.addr i = sub.held[i].1 := hk
        have hval : leafVal s sub.addr i = sub.held[i].2 := hv
        rw [hkey] at hmark
        rw [hkey, hval, ← Multiset.mem_coe, hm.live]
        exact mem_markedStacks (hsub (List.getElem_mem hi)) hmark
    | succ k =>
        rw [isLeaf_of_branchAt hholds.1 hflag] at hl
        cases hl
  heads stack hstack := by
    obtain ⟨hpage, vals, hs⟩ := hm.stack hstack
    have hlive := Multiset.mem_add.mpr (Or.inr (Multiset.mem_add.mpr (Or.inl hpage)) :
      stack.2 ∈ t.addrs ∨ stack.2 ∈ stackPages t.items + {s.freeRoot})
    have hsize : 0 < s.file.size := by
      have := hm.pool.depth_lt t
      omega
    refine ⟨⟨vals, (Chain.last hs).debug_eq hsize⟩, fun free hfree => hm.pool.notMem_free hlive hfree,
      fun depth hp => ?_⟩
    rw [← hm.root] at hp
    obtain ⟨k, sub, -, -, haddr, -, hle, -⟩ := hp.sub hm.stacked.holds (Or.inr rfl)
    have hin : stack.2 ∈ t.addrs := haddr ▸ Multiset.mem_of_le hle sub.addr_mem_addrs
    have hdisjoint := (Multiset.nodup_add.mp hm.pool.nodup).2.2
    exact Multiset.disjoint_left.mp hdisjoint hin (by simp [hpage])
  calls key cur hcur hat hmark := by
    obtain ⟨before, after, flag, hheld, -, hl, hfind⟩ := hm.find key
    obtain rfl := Option.some.inj (hfind.symm.trans hcur)
    obtain ⟨item, hitem, rfl⟩ := (atItem_iff hl).mp hat
    obtain ⟨after, rfl⟩ := List.head?_eq_some_iff.mp hitem
    rw [cursorItem_eq hl] at hmark ⊢
    rw [← Multiset.mem_coe, hm.live]
    have hin : item ∈ t.items := by
      apply Tree.leafOf_held_subset (maskedKey item) t
      rw [hheld]
      simp
    exact mem_markedStacks hin hmark

end Sound

section Add

variable {s : Store} {root : Nat} {live : List (Nat × Nat)} {h : ℕ} {t : PageTree h} {key val : Nat}

-- Marks and stacks after a value has gone on the stack of an item.
theorem markedStacks_dup {item : Nat × Nat} {vals : List Nat} {page : Nat}
    {kept : Multiset (Nat × Nat)} (he : Entry s.file.data item vals) (hitem : maskedKey item = key)
    (hlive : (live : Multiset (Nat × Nat)) = markedStacks (item ::ₘ kept)) :
    ((((key, page) :: if keyHasOverflow item.1 then live.erase (key, item.2) else live :
      List (Nat × Nat))) : Multiset (Nat × Nat)) = markedStacks ((keySetOverflow key, page) ::ₘ kept) := by
  have hkey : key < 2 ^ 63 := hitem ▸ he.maskedKey_lt
  rw [markedStacks_stack hkey, ← Multiset.cons_coe]
  congr 1
  cases he with
  | single hk =>
      rw [markedStacks_single hk] at hlive
      simpa [keyHasOverflow_of_lt hk] using hlive
  | @stack key' page' vals hk hs hlen =>
      obtain rfl : key' = key := (keyGet_mark hk).symm.trans hitem
      rw [markedStacks_stack hk] at hlive
      have hmem : (key', page') ∈ live := by
        rw [← Multiset.mem_coe, hlive]
        exact Multiset.mem_cons_self _ _
      rw [Multiset.coe_eq_coe.mpr (List.perm_cons_erase hmem), ← Multiset.cons_coe,
        Multiset.cons_inj_right] at hlive
      rwa [if_pos (keyHasOverflow_mark hk)]

theorem Marked.add (hm : Marked s root live t) (hkeeps : KeepsMarks s root key)
    (hval : val < 2 ^ 64) :
    Meets (btreeAdd s root key val) (¬s.Growable (64 * (2 * h + 5))) fun r =>
      ∃ (h' : ℕ) (t' : PageTree h') (live' : _), Marked r.2 r.1 live' t' ∧
        stacksAfter s root key val live = some live' := by
  obtain ⟨before, after, flag, hheld, hpos, hl, hfind⟩ := hm.find key
  obtain ⟨cur, hcur, hbit, hroom⟩ := hkeeps
  obtain rfl := Option.some.inj (hfind.symm.trans hcur)
  by_cases hat : AtItem s ⟨(t.leafOf key).addr, 8 + 16 * before.length⟩ key
  · obtain ⟨item, hitem, hkey⟩ := (atItem_iff hl).mp hat
    obtain ⟨after, rfl⟩ := List.head?_eq_some_iff.mp hitem
    have hin : item ∈ t.items := by
      apply Tree.leafOf_held_subset key t
      rw [hheld]
      simp
    have hkept : (t.items : Multiset (Nat × Nat)) = item ::ₘ (t.items.erase item : List _) := by
      rw [Multiset.cons_coe, Multiset.coe_eq_coe]
      exact List.perm_cons_erase hin
    obtain ⟨vals, he⟩ := hm.stacked.entries item hin
    rw [cursorItem_eq hl] at hroom
    rw [← hm.root]
    apply (hm.stacked.dup hm.pool hheld hpos hkey he (he.length_lt (hroom hat)) hkept hval).mono id
    rintro r ⟨h', t', page, s₁, hr, hs, hst, hitems, -, -⟩
    refine ⟨h', t', (key, page) :: if keyHasOverflow item.1 then live.erase (key, item.2) else live,
      ⟨hr.root, hst, ?_, ?_⟩, ?_⟩
    · rw [hr.spent.freeRoot_eq]
      exact hr.pool
    · rw [hitems]
      exact markedStacks_dup he hkey (hm.live.trans (congrArg markedStacks hkept))
    · rw [stacksAfter, hm.root, hfind]
      simp only [Option.bind_eq_bind, Option.bind_some, if_pos hat, cursorItem_eq hl, hs]
      rfl
  · have hhead : ∀ item ∈ after.head?, keyGet item.1 ≠ key := fun item hitem hk =>
      hat ((atItem_iff hl).mpr ⟨item, hitem, hk⟩)
    have hfull : key < 2 ^ 63 ∨ (t.leafOf key).held.length = 3 := by
      refine hbit.imp_right fun hfree => ?_
      have hle : (t.leafOf key).held.length ≤ 3 := hm.stacked.leaves.leafOf key
      rw [hl.free_eq, ← hheld] at hfree
      omega
    rw [← hm.root]
    refine (hm.stacked.put hm.pool hheld hpos hhead hfull hval).mono
      (mt fun hg => hg.mono (by omega)) ?_
    rintro r ⟨h', t', g, hr, -, hst, hitems, -⟩
    refine ⟨h', t', live, ⟨hr.root, hst, ?_, ?_⟩, ?_⟩
    · rw [hr.spent.freeRoot_eq]
      exact hr.pool
    · rw [hitems, markedStacks_single (keyGet_lt key), hm.live]
    · rw [stacksAfter, hm.root, hfind]
      simp only [Option.bind_eq_bind, Option.bind_some, if_neg hat]
      rfl

theorem Marking.marked {disk : Disk} (hs : Marking disk s root live) :
    ∃ (h : ℕ) (t : PageTree h), Marked s root live t := by
  induction hs with
  | created hopen hcreate =>
      obtain ⟨hpool, -⟩ := (storeOpen_meets disk).of_eq_some hopen
      obtain ⟨hpool', -, hspent, hl⟩ := (create_meets hpool).of_eq_some hcreate
      refine ⟨0, Tree.leaf _ [], rfl, ⟨hl, Nat.zero_le _, trivial, by simp⟩, ?_, rfl⟩
      rw [hspent.freeRoot_eq]
      simpa [stackPages] using hpool'
  | add key val _ hkey hval hkeeps hadd hlive ih =>
      rcases ih with ⟨h, t, hm⟩
      obtain ⟨h', t', live', hm', hlive'⟩ := (hm.add hkeeps hval).of_eq_some hadd
      obtain rfl := Option.some.inj (hlive.symm.trans hlive')
      exact ⟨h', t', hm'⟩

end Add

-- Overflow marks are never confused with keys, as long as each call keeps them. The stacks of a call
-- that returns are there.
theorem btree_marks {disk : Disk} {s : Store} {root : Nat} {live : List (Nat × Nat)}
    (hs : Marking disk s root live) : MarksSound s root live ∧
      ∀ key val r, val < 2 ^ 64 → KeepsMarks s root key → btreeAdd s root key val = some r →
        ∃ live', stacksAfter s root key val live = some live' := by
  obtain ⟨h, t, hm⟩ := hs.marked
  refine ⟨hm.sound, fun key val r hval hkeeps hadd => ?_⟩
  obtain ⟨-, -, live', -, hlive'⟩ := (hm.add hkeeps hval).of_eq_some hadd
  exact ⟨live', hlive'⟩

-- The key 9 is added three times, and the key 4 with bit 63 set to a full leaf.
theorem btree_marks_six : ∃ s root live, live.map Prod.fst = [9] ∧ MarksSound s root live := by
  have h : ((storeOpen ⟨[], .granted⟩ none STORE_O_CREAT).bind fun s₀ => (btreeCreate s₀).bind fun r₀ =>
      (addKeeping r₀.2 r₀.1 [] [(5, 50), (9, 90), (9, 91), (9, 92), (3, 30), (2 ^ 63 + 4, 40)]).map
        fun r => r.2.2.map Prod.fst) = some [9] := by decide +kernel
  simp only [Option.bind_eq_some_iff, Option.map_eq_some_iff] at h
  obtain ⟨s₀, hopen, ⟨root₀, s₁⟩, hcreate, ⟨root, s, live⟩, hrun, hlive⟩ := h
  exact ⟨s, root, live, hlive, (btree_marks ((Marking.created hopen hcreate).run hrun)).1⟩

-- A push on to a stack page with 56 bytes in use may break the marks although all keys are small:
-- it overwrites the header of a leaf, which then shows an item of long ago.
example : ((storeOpen ⟨[], .granted⟩ none STORE_O_CREAT).bind fun s₀ => (btreeCreate s₀).bind fun r₀ =>
    (addKeeping r₀.2 r₀.1 [] [(3, 0), (2, 1), (2, 2), (1, 3), (2, 4), (4, 5), (4, 6), (4, 7), (2, 8),
      (4, 9), (4, 10)]).bind fun r => (stacksAfter r.2.1 r.1 4 11 r.2.2).bind fun live =>
        (btreeAdd r.2.1 r.1 4 11).bind fun r' => (btreeDebugRecur r'.2 r'.1).map fun pages =>
          (pages.flatMap Prod.snd).any fun item =>
            keyHasOverflow item.1 && !live.contains (maskedKey item, item.2)) = some true := by
  decide +kernel

-- The user's key 5 with bit 63 set is taken for a mark: its value 7 passes for a stack page.
theorem btree_mark_forged : ∃ s₀ root₀ s₁ root s cur,
    storeOpen ⟨[], .granted⟩ none STORE_O_CREAT = some s₀ ∧ btreeCreate s₀ = some (root₀, s₁) ∧
    btreeAdd s₁ root₀ (2 ^ 63 + 5) 7 = some (root, s) ∧
    stacksAfter s₁ root₀ (2 ^ 63 + 5) 7 [] = some [] ∧
    isLeaf (pgHeader s root) = true ∧ leafKey s root 0 = 2 ^ 63 + 5 ∧ leafVal s root 0 = 7 ∧
    btreeFind s root 5 = some cur ∧ AtItem s cur 5 ∧ cursorItem s cur = (2 ^ 63 + 5, 7) ∧
    ¬MarksSound s root [] := by
  have h : ((storeOpen ⟨[], .granted⟩ none STORE_O_CREAT).bind fun s₀ => (btreeCreate s₀).bind fun r₀ =>
      (btreeAdd r₀.2 r₀.1 (2 ^ 63 + 5) 7).bind fun r => (btreeFind r.2 r.1 5).map fun cur =>
        (stacksAfter r₀.2 r₀.1 (2 ^ 63 + 5) 7 [], isLeaf (pgHeader r.2 r.1),
          (leafKey r.2 r.1 0, leafVal r.2 r.1 0), decide (AtItem r.2 cur 5), cursorItem r.2 cur)) =
      some (some [], true, (2 ^ 63 + 5, 7), true, (2 ^ 63 + 5, 7)) := by decide +kernel
  simp only [Option.bind_eq_some_iff, Option.map_eq_some_iff, Prod.mk.injEq, decide_eq_true_eq] at h
  obtain ⟨s₀, hopen, ⟨root₀, s₁⟩, hcreate, ⟨root, s⟩, hadd, cur, hcur, hlive, hleaf, ⟨hkey, hval⟩,
    hat, hitem⟩ := h
  refine ⟨s₀, root₀, s₁, root, s, cur, hopen, hcreate, hadd, hlive, hleaf, hkey, hval, hcur, hat,
    hitem, fun hsound => ?_⟩
  have hcall := hsound.calls 5 cur hcur hat (by rw [hitem]; decide)
  exact absurd hcall List.not_mem_nil

end Adventure

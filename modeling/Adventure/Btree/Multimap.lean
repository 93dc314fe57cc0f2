import Adventure.Bstack.Stacks
import Adventure.Btree.Map
import Adventure.Btree.Multi

namespace Adventure

open Memory SearchTree Ends

-- The item that a cursor is on, with its key as it is stored.
def cursorItem (s : Store) (cur : BtCur) : Nat × Nat :=
  (readUi64 s cur.page cur.index, readUi64 s cur.page (cur.index + 8))

-- The values that an item stands for: its own value, or those of the stack it points to.
def itemValues (s : Store) (item : Nat × Nat) : Option (List Nat) :=
  if keyHasOverflow item.1 then (bstackDebugPage s item.2).map fun pages => pages.flatMap Prod.snd
  else some [item.2]

-- What a multimap with the added pairs is for the code: one leaf item for each key, which a search
-- for the key ends at, with all values that were added under it.
structure IsMultimap (s : Store) (root : Nat) (added : List (Nat × Nat)) : Prop where
  walk : ∃ pages, btreeDebugRecur s root = some pages ∧ ∀ key,
    ((pages.flatMap Prod.snd).map maskedKey).count key = if key ∈ added.map Prod.fst then 1 else 0
  find : ∀ key, ∃ cur items, btreeFind s root key = some cur ∧
    (∃ depth, PageBelow s root depth cur.page) ∧ isLeaf (pgHeader s cur.page) = true ∧
    btreeLeafWalk s cur.page = some items ∧
    (key ∈ added.map Prod.fst → cur.index < pgEnd (pgHeader s cur.page) ∧
      cursorItem s cur ∈ items ∧ maskedKey (cursorItem s cur) = key ∧
      ∃ vals, itemValues s (cursorItem s cur) = some vals ∧ vals.Perm (valuesOf added key)) ∧
    (key ∉ added.map Prod.fst → ¬(cur.index < pgEnd (pgHeader s cur.page) ∧
      maskedKey (cursorItem s cur) = key))

-- A btree_add call for the key keeps the leaf that it comes to in order.
def FitsKey (s : Store) (root key : Nat) : Prop :=
  ∃ path, searchPath s root key = some path ∧ ∃ leaf, path.getLast? = some leaf ∧
    ∃ items, btreeLeafWalk s leaf = some items ∧ LeafFits s leaf items key

instance (s : Store) (leaf : Nat) (items : List (Nat × Nat)) (key : Nat) :
    Decidable (LeafFits s leaf items key) :=
  inferInstanceAs (Decidable (∀ last ∈ items.getLast?, _))

instance (s : Store) (root key : Nat) : Decidable (FitsKey s root key) :=
  decidable_of_iff (∃ path ∈ searchPath s root key, ∃ leaf ∈ path.getLast?,
    ∃ items ∈ btreeLeafWalk s leaf, LeafFits s leaf items key) Iff.rfl

-- The states of all runs on one new tree in which every call fits its leaf.
inductive Collected (disk : Disk) : Store → Nat → List (Nat × Nat) → Prop
  | created {s₀ s : Store} {root : Nat} : storeOpen disk none STORE_O_CREAT = some s₀ →
      btreeCreate s₀ = some (root, s) → Collected disk s root []
  | add {s s' : Store} {root root' : Nat} {added : List (Nat × Nat)} (key val : Nat) :
      Collected disk s root added → FitsKey s root key → key < 2 ^ 63 → val < 2 ^ 64 →
      btreeAdd s root key val = some (root', s') → Collected disk s' root' ((key, val) :: added)

-- A run that stops at a call that does not fit.
def addFitting (s : Store) (root : Nat) : List (Nat × Nat) → Option (Nat × Store)
  | [] => some (root, s)
  | (key, val) :: items =>
      if FitsKey s root key ∧ key < 2 ^ 63 ∧ val < 2 ^ 64 then
        (btreeAdd s root key val).bind fun r => addFitting r.2 r.1 items
      else none

theorem Collected.run {disk : Disk} {s s' : Store} {root root' : Nat} {items added : List (Nat × Nat)}
    (h : Collected disk s root added) (hrun : addFitting s root items = some (root', s')) :
    Collected disk s' root' (items.reverse ++ added) := by
  induction items generalizing s root added with
  | nil =>
      obtain ⟨rfl, rfl⟩ := Prod.mk.inj (Option.some.inj hrun)
      exact h
  | cons item items ih =>
      rcases item with ⟨key, val⟩
      unfold addFitting at hrun
      obtain ⟨hfits, ⟨root₁, s₁⟩, hadd, hrest⟩ := guarded_eq_some hrun
      rw [List.reverse_cons, List.append_assoc, List.singleton_append]
      exact ih (.add key val h hfits.1 hfits.2.1 hfits.2.2 hadd) hrest

section Stored

variable {s : Store} {h : ℕ} {t : PageTree h} {added : List (Nat × Nat)} {rest : Multiset Nat}
  {base : Base}

theorem Entry.itemValues_eq {item : Nat × Nat} {vals : List Nat} (he : Entry s.file.data item vals)
    (hsize : 0 < s.file.size) : itemValues s item = some vals := by
  cases he with
  | single hkey => rw [itemValues, keyHasOverflow_of_lt hkey]; rfl
  | stack hkey hp _ =>
      have hd : bstackDebugPage s _ = some _ := (Chain.last hp).debug_eq hsize
      rw [itemValues, if_pos (keyHasOverflow_mark hkey), hd]
      simp

-- The search of a leaf compares the keys as they are stored, and comes to the same item as if they
-- had no marks.
theorem findIdx_masked {before after : List (Nat × Nat)} {item : Nat × Nat} {key : Nat}
    (hmarks : LastMarked (before ++ item :: after)) (hb : ∀ x ∈ before, maskedKey x < key)
    (hitem : maskedKey item = key) :
    (before ++ item :: after).findIdx (fun item => decide (key ≤ item.1)) = before.length := by
  rw [LastMarked, List.pairwise_append] at hmarks
  have hb' : ∀ x ∈ before, ¬key ≤ x.1 := fun x hx => by
    have hlt := hb x hx
    rw [maskedKey_eq (hmarks.2.2 x hx item List.mem_cons_self)] at hlt
    omega
  rw [List.findIdx_append, List.findIdx_eq_length_of_false fun x hx => by simp [hb' x hx],
    if_neg (Nat.lt_irrefl _), List.findIdx_cons]
  simp [← hitem, maskedKey_le]

theorem Stored.isMultimap (ht : Stored s t added) (hp : Pool base s (t.addrs + rest)) :
    IsMultimap s t.addr added where
  walk := by
    refine ⟨visited t, btreeDebugFrom_eq ht.holds (Or.inr rfl) (hp.depth_lt t), fun key => ?_⟩
    have hnodup : (t.keys maskedKey).Nodup :=
      ht.wellFormed.ordered.pairwise_keys.imp fun h => ne_of_lt h
    rw [visited_items, show t.items.map maskedKey = t.keys maskedKey from rfl, hnodup.count]
    simp only [ht.keys]
  find key := by
    obtain ⟨root, hroot, hl⟩ := ht.leafAt key
    have hfind := btreeFindFrom_eq ht.holds (Or.inr rfl) (fun p hp' => by
      have := hp.bounds (Multiset.mem_add.mpr (Or.inl hp'))
      omega) key (hp.depth_lt t)
    refine ⟨_, (t.leafOf key).held, hfind,
      exists_pageBelow ht.holds (Or.inr rfl) (Tree.leafOf_addr_mem key t),
      isLeaf_of_leafAt hl hroot, hl.walk_eq, fun hin => ?_, fun hnot => ?_⟩
    · obtain ⟨item, hitem, hkey⟩ := List.mem_map.mp (ht.mem_leafOf.mp hin)
      obtain ⟨before, after, hheld⟩ := List.append_of_mem hitem
      have hsorted : ((t.leafOf key).held.map maskedKey).Pairwise (· < ·) :=
        ht.wellFormed.ordered.leafOf key
      have hmarks := ht.marks.leafOf key
      obtain ⟨vals, he, hperm⟩ := ht.entries item (Tree.leafOf_held_subset key t hitem)
      rw [hheld, List.map_append, List.map_cons, List.pairwise_append] at hsorted
      rw [hheld] at hmarks hl ⊢
      have hb : ∀ x ∈ before, maskedKey x < key := fun x hx =>
        hkey ▸ hsorted.2.2 _ (List.mem_map_of_mem hx) _ List.mem_cons_self
      obtain ⟨hk, hv⟩ := LeafAt.read_words before after hl
      rw [findIdx_masked hmarks hb hkey]
      have hcur : cursorItem s ⟨(t.leafOf key).addr, 8 + 16 * before.length⟩ = item := Prod.ext hk hv
      have hpos : 0 < s.file.size := by
        have := hp.depth_lt t
        omega
      rw [hcur]
      refine ⟨?_, by simp, hkey, vals, he.itemValues_eq hpos, hkey ▸ hperm⟩
      rw [hl.end_eq]
      simp
    · rintro ⟨hlt, hkey⟩
      simp only [hl.end_eq] at hlt
      have hi : (t.leafOf key).held.findIdx (fun item => decide (key ≤ item.1)) <
          (t.leafOf key).held.length := by omega
      obtain ⟨hk, hv⟩ := hl.read_item hi
      refine hnot (ht.mem_leafOf.mpr (List.mem_map.mpr ⟨_, List.getElem_mem hi, ?_⟩))
      exact (congrArg maskedKey (Prod.ext hk.symm hv.symm)).trans hkey

-- A tree with the pairs added so far, alone in its store.
structure Collection (s : Store) (root : Nat) (added : List (Nat × Nat)) {h : ℕ} (t : PageTree h) :
    Prop where
  root : t.addr = root
  height : h ≤ added.length
  pool : Pool Base.empty s (t.addrs + (stackPages t.items + {s.freeRoot}))
  stored : Stored s t added

theorem FitsKey.leafFits {key : Nat} (hf : FitsKey s t.addr key) (ht : Stored s t added)
    (hp : Pool base s (t.addrs + rest)) : LeafFits s (t.leafOf key).addr (t.leafOf key).held key := by
  obtain ⟨path, hpath, leaf, hleaf, items, hitems, hfits⟩ := hf
  rw [searchPath, searchPathFrom_eq ht.holds (Or.inr rfl) key (hp.depth_lt t), Option.some.injEq] at hpath
  subst hpath
  rw [Tree.path_getLast, Option.some.injEq] at hleaf
  subst hleaf
  obtain ⟨root, -, hl⟩ := ht.leafAt key
  rw [hl.walk_eq, Option.some.injEq] at hitems
  exact hitems ▸ hfits

theorem Collection.add {root key val : Nat} (hc : Collection s root added t)
    (hfits : FitsKey s root key) (hkey : key < 2 ^ 63) (hval : val < 2 ^ 64) :
    Meets (btreeAdd s root key val) (¬s.Growable (64 * (2 * added.length + 5))) fun r =>
      (∃ (h' : ℕ) (t' : PageTree h'), Collection r.2 r.1 ((key, val) :: added) t') ∧
        (s.file.Grants → r.2.file.Grants) := by
  obtain ⟨rfl, hheight, hpool, hstored⟩ := hc
  refine (hstored.add hpool (hfits.leafFits hstored hpool) hkey hval).mono
    (mt fun hg => hg.mono (by omega)) ?_
  rintro r ⟨h', t', hr⟩
  have hh := hr.height
  refine ⟨⟨h', t', hr.root, ?_, ?_, hr.stored⟩, hr.spent.grants⟩
  · rw [List.length_cons]
    omega
  · rw [hr.spent.freeRoot_eq]
    exact hr.pool

end Stored

theorem Collected.collection {disk : Disk} {s : Store} {root : Nat} {added : List (Nat × Nat)}
    (hs : Collected disk s root added) :
    (∃ (h : ℕ) (t : PageTree h), Collection s root added t) ∧ (disk.Grants → s.file.Grants) := by
  induction hs with
  | created hopen hcreate =>
      obtain ⟨hpool, -, -, hgrants⟩ := (storeOpen_meets disk).of_eq_some hopen
      obtain ⟨hpool', -, hspent, hl⟩ := (create_meets hpool).of_eq_some hcreate
      refine ⟨⟨0, Tree.leaf _ [], rfl, le_rfl, ?_, hl, Tree.WellFormed.leaf_empty _,
        List.Pairwise.nil, by simp, by simp [Tree.keys]⟩, fun hg => hspent.grants (hgrants hg)⟩
      rw [hspent.freeRoot_eq]
      simpa [stackPages] using hpool'
  | add key val _ hfits hkey hval hadd ih =>
      rcases ih with ⟨⟨h, t, hc⟩, hgrants⟩
      obtain ⟨hc', hgrants'⟩ := (hc.add hfits hkey hval).of_eq_some hadd
      exact ⟨hc', fun hg => hgrants' (hgrants hg)⟩

-- A B-tree to which keys are added more than once is a multimap, as long as each call fits. A call
-- that fits returns, except where the file would have to grow beyond 2^62 bytes.
theorem btree_multimap {disk : Disk} {s : Store} {root : Nat} {added : List (Nat × Nat)}
    (hs : Collected disk s root added) :
    IsMultimap s root added ∧ (disk.Grants → ∀ key val, FitsKey s root key → key < 2 ^ 63 → val < 2 ^ 64 →
      s.endPos + 64 * (2 * added.length + 5) ≤ 2 ^ 62 → ∃ r, btreeAdd s root key val = some r) := by
  obtain ⟨⟨h, t, hc⟩, hgrants⟩ := hs.collection
  refine ⟨hc.root ▸ hc.stored.isMultimap hc.pool, fun hdisk key val hfits hkey hval hroom => ?_⟩
  obtain ⟨r, -, hr⟩ := (hc.add hfits hkey hval).with_eq.exists_some
    (not_not.mpr ⟨hgrants hdisk, hroom⟩)
  exact ⟨r, hr.1⟩

-- A tree over two leaves, with three values under its last key.
theorem btree_multimap_three : ∃ s root,
    IsMultimap s root [(9, 92), (4, 40), (3, 30), (9, 91), (9, 90), (5, 50)] := by
  have h : ((storeOpen ⟨[], .granted⟩ none STORE_O_CREAT).bind fun s₀ => (btreeCreate s₀).bind fun r =>
      addFitting r.2 r.1 [(5, 50), (9, 90), (9, 91), (3, 30), (4, 40), (9, 92)]).isSome = true := by
    decide +kernel
  simp only [Option.isSome_iff_exists, Option.bind_eq_some_iff] at h
  obtain ⟨⟨root, s⟩, s₀, hopen, ⟨root₀, s₁⟩, hcreate, hrun⟩ := h
  exact ⟨s, root, (btree_multimap ((Collected.created hopen hcreate).run hrun)).1⟩

-- Two values under 5 and one under 7: as stored, the key of 5 is now above 7, and a search for 5
-- ends at the item of 7.
theorem btree_duplicate_lost : ∃ s₀ root₀ s₁ root s cur,
    storeOpen ⟨[], .granted⟩ none STORE_O_CREAT = some s₀ ∧ btreeCreate s₀ = some (root₀, s₁) ∧
    btreeAddAll [(5, 1), (5, 2), (7, 3)] root₀ s₁ = some (root, s) ∧
    btreeFind s root 5 = some cur ∧ maskedKey (cursorItem s cur) = 7 ∧
    ¬IsMultimap s root [(7, 3), (5, 2), (5, 1)] := by
  have h : ((storeOpen ⟨[], .granted⟩ none STORE_O_CREAT).bind fun s₀ => (btreeCreate s₀).bind fun r₀ =>
      (btreeAddAll [(5, 1), (5, 2), (7, 3)] r₀.1 r₀.2).bind fun r =>
        (btreeFind r.2 r.1 5).map fun cur => maskedKey (cursorItem r.2 cur)) = some 7 := by
    decide +kernel
  simp only [Option.bind_eq_some_iff, Option.map_eq_some_iff] at h
  obtain ⟨s₀, hopen, ⟨root₀, s₁⟩, hcreate, ⟨root, s⟩, hadd, cur, hcur, hseven⟩ := h
  refine ⟨s₀, root₀, s₁, root, s, cur, hopen, hcreate, hadd, hcur, hseven, fun hm => ?_⟩
  obtain ⟨cur', items, hcur', -, -, -, hfound, -⟩ := hm.find 5
  obtain rfl := Option.some.inj (hcur.symm.trans hcur')
  obtain ⟨-, -, hfive, -⟩ := hfound (by decide)
  rw [hseven] at hfive
  exact absurd hfive (by decide)

end Adventure

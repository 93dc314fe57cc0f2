import Adventure.Btree.Map

namespace Adventure

open Memory SearchTree Ends

-- A B-tree is a map, for distinct keys in any order. A run of btree_add returns, except where the
-- file would have to grow beyond 2^62 bytes.
theorem btree_map {disk : Disk} (hdisk : disk.Grants) : ∃ s₀ root₀ s₁,
    storeOpen disk none STORE_O_CREAT = some s₀ ∧ btreeCreate s₀ = some (root₀, s₁) ∧
    ∀ items : List (Nat × Nat), (items.map Prod.fst).Nodup →
      (∀ x ∈ items, x.1 < 2 ^ 63 ∧ x.2 < 2 ^ 64) →
      Meets (btreeAddAll items root₀ s₁)
        (∃ done rest root s, items = done ++ rest ∧ btreeAddAll done root₀ s₁ = some (root, s) ∧
          2 ^ 62 < s.endPos + 64 * (2 * done.length + 3))
        fun r => IsMap r.2 r.1 items := by
  obtain ⟨⟨s₀, root₀, s₁⟩, -, hopen, hcreate, hsole, hgrants⟩ :=
    (open_create_meets disk).exists_some (not_not.mpr hdisk)
  refine ⟨s₀, root₀, s₁, hopen, hcreate, fun items hnodup hitems => ?_⟩
  have hrun := fun done (hd : ∀ x ∈ done, x ∈ items) (hn : (done.map Prod.fst).Nodup) =>
    hsole.addAll done (by simpa using hn) fun x hx => hitems x (hd x hx)
  refine (hrun items (fun _ h => h) hnodup).mono ?_ ?_
  · rintro ⟨done, rest, ⟨root, s⟩, rfl, hr, hn⟩
    refine ⟨done, rest, root, s, rfl, hr, ?_⟩
    rw [List.map_append, List.nodup_append] at hnodup
    obtain ⟨-, -, hg⟩ := (hrun done (fun x hx => by simp [hx]) hnodup.1).of_eq_some hr
    by_contra hroom
    exact hn ⟨hg (hgrants hdisk), by simpa using hroom⟩
  · rintro ⟨root, s⟩ ⟨pages, hs, -⟩
    have hmap := hs.isMap
    rw [List.append_nil] at hmap
    refine ⟨fun q => ?_, ?_⟩
    · obtain ⟨cur, leafItems, hf, hp, hl, hw, hi, hv⟩ := hmap.find q
      exact ⟨cur, leafItems, hf, hp, hl, hw, hi, by simpa using hv⟩
    · obtain ⟨visits, hv, ho, hperm⟩ := hmap.walk
      exact ⟨visits, hv, ho, hperm.trans (List.reverse_perm items)⟩

theorem btree_map_five : ∃ root s,
    IsMap s root [(30, 3), (10, 1), (20, 2), (5, 0), (40, 2 ^ 64 - 1)] := by
  obtain ⟨s₀, root₀, s₁, hopen, hcreate, hrun⟩ :=
    btree_map (show (⟨[], .granted⟩ : Disk).Grants from ⟨rfl, by simp⟩)
  have hreturns : ((storeOpen ⟨[], .granted⟩ none STORE_O_CREAT).bind fun s₀ =>
      (btreeCreate s₀).bind fun r =>
        btreeAddAll [(30, 3), (10, 1), (20, 2), (5, 0), (40, 2 ^ 64 - 1)] r.1 r.2).isSome = true := by
    decide +kernel
  rw [hopen, Option.bind_some, hcreate, Option.bind_some, Option.isSome_iff_exists] at hreturns
  obtain ⟨⟨root, s⟩, hr⟩ := hreturns
  exact ⟨root, s, (hrun _ (by decide) (by decide)).of_eq_some hr⟩

-- A page of an old tree keeps its bytes, and is a page of the new one, as long as no later insertion walks
-- over it.
theorem btree_off_path {disk : Disk} {s₀ s₁ : Store} {root₀ : Nat}
    (hopen : storeOpen disk none STORE_O_CREAT = some s₀) (hcreate : btreeCreate s₀ = some (root₀, s₁))
    {items more : List (Nat × Nat)} (hnodup : ((items ++ more).map Prod.fst).Nodup)
    (hlt : ∀ x ∈ items ++ more, x.1 < 2 ^ 63 ∧ x.2 < 2 ^ 64) {root root' : Nat} {s s' : Store}
    (hitems : btreeAddAll items root₀ s₁ = some (root, s))
    (hmore : btreeAddAll more root s = some (root', s')) {depth page : Nat}
    (hpage : PageBelow s root depth page)
    (hoff : ∀ done key val rest r, more = done ++ (key, val) :: rest →
      btreeAddAll done root s = some r → ∀ path, searchPath r.2 r.1 key = some path → page ∉ path) :
    Same s.file.data s'.file.data page 64 ∧ ∃ depth', PageBelow s' root' depth' page := by
  obtain ⟨-, -, hsole, -⟩ := (open_create_meets disk).of_eq_some (a := (s₀, root₀, s₁))
    (by rw [hopen, Option.bind_some, hcreate]; rfl)
  rw [List.map_append, List.nodup_append'] at hnodup
  simp only [List.forall_mem_append] at hlt
  obtain ⟨pages, hs, -⟩ := (hsole.addAll items (by simpa using hnodup.1) hlt.1).of_eq_some
    hitems
  have hfresh : (more.map Prod.fst ++ (items.reverse ++ []).map Prod.fst).Nodup := by
    rw [List.append_nil, List.map_reverse, List.nodup_append']
    refine ⟨hnodup.2.1, List.nodup_reverse.mpr hnodup.1, fun x hx hx' => ?_⟩
    exact hnodup.2.2 (List.mem_reverse.mp hx') hx
  obtain ⟨hsame, added', pages', hs', hmem⟩ :=
    hs.addAll_offPath hfresh hlt.2 hmore (hs.mem_pages.mpr ⟨depth, hpage⟩) hoff
  exact ⟨hsame, hs'.mem_pages.mp hmem⟩

-- The left leaf of a tree over two leaves outlives an insertion into the right one.
theorem btree_off_path_left_leaf : ∃ root s root' s',
    btreeAddAll [(50, 5)] root s = some (root', s') ∧ PageBelow s root 1 96 ∧
    Same s.file.data s'.file.data 96 64 ∧ ∃ depth', PageBelow s' root' depth' 96 := by
  have h : (do
      let s₀ ← storeOpen ⟨[], .granted⟩ none STORE_O_CREAT
      let c ← btreeCreate s₀
      let t ← btreeAddAll [(10, 1), (20, 2), (30, 3), (40, 4)] c.1 c.2
      let _ ← btreeAddAll [(50, 5)] t.1 t.2
      let path ← searchPath t.2 t.1 50
      return (isBranch (pgHeader t.2 t.1), branchChild t.2 t.1 0, path)) =
        some (true, 96, [160, 224]) := by decide +kernel
  simp only [Option.bind_eq_bind, Option.bind_eq_some_iff, Option.pure_def, Option.some.injEq,
    Prod.mk.injEq] at h
  obtain ⟨s₀, hopen, ⟨root₀, s₁⟩, hcreate, ⟨root, s⟩, hitems, ⟨root', s'⟩, hmore, path, hpath, hb,
    hchild, rfl⟩ := h
  have hpage : PageBelow s root 1 96 := hchild ▸ .child 0 .root hb (Nat.zero_le _)
  refine ⟨root, s, root', s', hmore, hpage, btree_off_path hopen hcreate (by decide) (by decide)
    hitems hmore hpage ?_⟩
  rintro done key val rest r he hr path hpath'
  cases done with
  | nil =>
      obtain ⟨⟨rfl, rfl⟩, rfl⟩ : (50 = key ∧ 5 = val) ∧ [] = rest := by simpa using he
      obtain rfl := Option.some.inj hr
      obtain rfl := Option.some.inj (hpath.symm.trans hpath')
      decide
  | cons item done => simp at he

-- From an old root, a key that was there is no longer found after two more insertions.
theorem btree_old_root_overwritten : ∃ s₀ root₀ s₁ root s root' s' cur cur',
    storeOpen ⟨[], .granted⟩ none STORE_O_CREAT = some s₀ ∧ btreeCreate s₀ = some (root₀, s₁) ∧
    btreeAddAll [(1, 10), (2, 20)] root₀ s₁ = some (root, s) ∧
    btreeAddAll [(3, 30), (0, 0)] root s = some (root', s') ∧
    btreeFind s root 2 = some cur ∧ cur.index < pgEnd (pgHeader s cur.page) ∧
    readUi64 s cur.page cur.index = 2 ∧ readUi64 s cur.page (cur.index + 8) = 20 ∧
    btreeFind s' root 2 = some cur' ∧ ¬(cur'.index < pgEnd (pgHeader s' cur'.page) ∧
      readUi64 s' cur'.page cur'.index = 2 ∧ readUi64 s' cur'.page (cur'.index + 8) = 20) := by
  have h : (do
      let s₀ ← storeOpen ⟨[], .granted⟩ none STORE_O_CREAT
      let c ← btreeCreate s₀
      let t ← btreeAddAll [(1, 10), (2, 20)] c.1 c.2
      let t' ← btreeAddAll [(3, 30), (0, 0)] t.1 t.2
      let cur ← btreeFind t.2 t.1 2
      let cur' ← btreeFind t'.2 t.1 2
      return ((decide (cur.index < pgEnd (pgHeader t.2 cur.page)), readUi64 t.2 cur.page cur.index,
        readUi64 t.2 cur.page (cur.index + 8)), readUi64 t'.2 cur'.page cur'.index)) =
        some ((true, 2, 20), 0) := by decide +kernel
  simp only [Option.bind_eq_bind, Option.bind_eq_some_iff, Option.pure_def, Option.some.injEq,
    Prod.mk.injEq, decide_eq_true_eq] at h
  obtain ⟨s₀, hopen, ⟨root₀, s₁⟩, hcreate, ⟨root, s⟩, hitems, ⟨root', s'⟩, hmore, cur, hcur, cur',
    hcur', ⟨hlt, hkey, hval⟩, hnew⟩ := h
  refine ⟨s₀, root₀, s₁, root, s, root', s', cur, cur', hopen, hcreate, hitems, hmore, hcur, hlt, hkey,
    hval, hcur', fun hfound => ?_⟩
  simp only at hnew
  omega

namespace Forest

-- Two trees, one of them grown over a split, after a third one was destroyed.
theorem exists_reachable : ∃ f tree tree', Reachable ⟨[], .granted⟩ f ∧ f.trees = [tree, tree'] ∧
    f.Permits (.add 1 8 80) ∧ ∃ f', f.step (.add 1 8 80) = some f' := by
  have h : ((storeOpen ⟨[], .granted⟩ none STORE_O_CREAT).bind fun s => (Forest.mk s []).run
      [.create, .create, .add 0 3 30, .add 1 5 50, .add 0 1 10, .create, .add 2 4 40, .add 2 2 20,
        .add 2 6 60, .destroy 0, .add 1 7 70]).map
          (fun f => (f.trees.length, decide (f.Permits (.add 1 8 80)),
            (f.step (.add 1 8 80)).isSome)) = some (2, true, true) := by
    decide +kernel
  simp only [Option.map_eq_some_iff, Option.bind_eq_some_iff, Prod.mk.injEq, decide_eq_true_eq,
    Option.isSome_iff_exists, List.length_eq_two] at h
  obtain ⟨f, ⟨s, hopen, hrun⟩, ⟨tree, tree', hlen⟩, hop, hstep⟩ := h
  exact ⟨f, tree, tree', (Reachable.opened hopen).run hrun, hlen, hop, hstep⟩

-- Every tree of every reachable state has the representation invariant, and no operation is stuck
-- while the file has room to grow.
theorem trees_repInvariant {disk : Disk} {f : Forest} (hf : Reachable disk f) :
    (∀ tree ∈ f.trees, RepInvariant f.store tree.root) ∧
      (disk.Grants → ∀ op, f.Permits op → f.store.endPos + f.need op ≤ 2 ^ 62 → ∃ f', f.step op = some f') := by
  obtain ⟨⟨plots, hk⟩, -⟩ := hf.kept
  refine ⟨fun tree htree => ?_, fun hdisk op hop hroom => hf.returns hdisk hop hroom⟩
  rw [hk.trees, List.mem_map] at htree
  obtain ⟨plot, hplot, rfl⟩ := htree
  exact hk.repInvariant hplot

theorem trees_repInvariant_two : ∃ f tree tree', Reachable ⟨[], .granted⟩ f ∧ f.trees = [tree, tree'] ∧
    RepInvariant f.store tree.root ∧ RepInvariant f.store tree'.root := by
  obtain ⟨f, tree, tree', hf, htrees, -⟩ := exists_reachable
  obtain ⟨hrep, -⟩ := trees_repInvariant hf
  exact ⟨f, tree, tree', hf, htrees, hrep tree (by simp [htrees]), hrep tree' (by simp [htrees])⟩

-- Trees that share a store do not interfere: no page belongs to two of them or to one of them and
-- the free list, and an insertion into one leaves the others as they are.
theorem no_interference {disk : Disk} {f : Forest} (hf : Reachable disk f) :
    (∀ (i j : Nat) (tree tree' : LiveTree) d d' page, i ≠ j → f.trees[i]? = some tree → f.trees[j]? = some tree' →
      PageBelow f.store tree.root d page → ¬PageBelow f.store tree'.root d' page) ∧
    (∀ tree ∈ f.trees, ∀ d page, PageBelow f.store tree.root d page →
      ∀ free, f.store.freeList = some free → page ∉ free) ∧
    ∀ i key val, f.Permits (.add i key val) →
      Meets (f.step (.add i key val)) (¬f.store.Growable (f.need (.add i key val))) fun f' =>
        ∀ (j : Nat) (other : LiveTree), j ≠ i → f.trees[j]? = some other → f'.trees[j]? = some other ∧
          (∀ d page, PageBelow f.store other.root d page →
            Same f.store.file.data f'.store.file.data page 64) ∧
          ∀ q, ∃ cur, btreeFind f.store other.root q = some cur ∧
            btreeFind f'.store other.root q = some cur := by
  obtain ⟨⟨plots, hk⟩, -⟩ := hf.kept
  refine ⟨?_, ?_, ?_⟩
  · intro i j tree tree' d d' page hij hi hj hp hp'
    obtain ⟨before, after, pages, rfl, rfl⟩ := hk.split hi
    obtain ⟨pages', hother⟩ := hk.mem_others hj hij.symm
    exact hk.disjoint hother ((hk.mem_pages (by simp)).mpr ⟨d, hp⟩)
      ((hk.mem_pages (by simp at hother ⊢; tauto)).mpr ⟨d', hp'⟩)
  · intro tree htree d page hp free hfree
    rw [hk.trees, List.mem_map] at htree
    obtain ⟨plot, hplot, rfl⟩ := htree
    obtain ⟨rest, hpool⟩ := hk.pool_of hplot
    exact hpool.notMem_free (Multiset.mem_add.mpr (Or.inl ((hk.mem_pages hplot).mpr ⟨d, hp⟩))) hfree
  · rintro i key val ⟨tree, ht, hfresh, hkey, hval⟩
    obtain ⟨before, after, pages, rfl, rfl⟩ := hk.split ht
    apply (hk.step_add hfresh hkey hval).mono id
    rintro f' ⟨root, pages', hk', hkeep, -⟩ j other hj hother
    obtain ⟨opages, hmem⟩ := hk.mem_others hother hj
    have hin : (other, opages) ∈ before ++ (tree, pages) :: after := by
      simp only [List.mem_append, List.mem_cons] at hmem ⊢
      tauto
    have hin' : (other, opages) ∈ before ++ (⟨root, (key, val) :: tree.added⟩, pages') :: after := by
      simp only [List.mem_append, List.mem_cons] at hmem ⊢
      tauto
    have hko : Keeps opages f.store f'.store :=
      fun p hp => hkeep p (Multiset.mem_of_le (Plots.le_total hmem) hp)
    refine ⟨?_, fun d page hp => hko page ((hk.mem_pages hin).mpr ⟨d, hp⟩), hk.find_eq hk' hin hin' hko⟩
    have hset := Plots.set_middle Prod.fst before after (tree, pages)
      (⟨root, (key, val) :: tree.added⟩, pages')
    rw [← hk.trees, ← hk'.trees] at hset
    rwa [← hset, List.getElem?_set_ne hj.symm]

theorem no_interference_two_trees : ∃ f f' tree tree', Reachable ⟨[], .granted⟩ f ∧
    f.trees = [tree, tree'] ∧ f.step (.add 1 8 80) = some f' ∧
    (∀ d d' page, PageBelow f.store tree.root d page → ¬PageBelow f.store tree'.root d' page) ∧
    ∀ q, ∃ cur, btreeFind f.store tree.root q = some cur ∧
      btreeFind f'.store tree.root q = some cur := by
  obtain ⟨f, tree, tree', hf, htrees, hop, f', hstep⟩ := exists_reachable
  obtain ⟨hdisjoint, -, hadd⟩ := no_interference hf
  obtain ⟨-, -, hfind⟩ := (hadd 1 8 80 hop).of_eq_some hstep 0 tree (by decide) (by simp [htrees])
  exact ⟨f, f', tree, tree', hf, htrees, hstep, fun d d' page =>
    hdisjoint 0 1 tree tree' d d' page (by decide) (by simp [htrees]) (by simp [htrees]), hfind⟩

-- Page conservation: the pages taken from the end of the file so far are the free root, the pages
-- of the trees in use and the pages on the free list, each in one place only. To destroy a tree
-- is to put each of its pages on the free list once.
theorem conservation {disk : Disk} {f : Forest} (hf : Reachable disk f) :
    (∃ free count pages, f.store.freeList = some free ∧
      f.store.endPos = STORE_HEADER_SIZE + 64 * count ∧
      f.trees.mapM (fun tree => pagesUnder f.store tree.root) = some pages ∧
      (f.store.freeRoot :: pages.flatten ++ free).Perm
        ((List.range count).map fun i => STORE_HEADER_SIZE + 64 * i)) ∧
    ∀ (i : Nat) (tree : LiveTree), f.trees[i]? = some tree → ∃ pages freed f',
      pagesUnder f.store tree.root = some pages ∧ pages.Nodup ∧ f.step (.destroy i) = some f' ∧
      f'.store.freeList = f.store.freeList.map (freed ++ ·) ∧ freed.Perm pages := by
  obtain ⟨⟨plots, hk⟩, -⟩ := hf.kept
  refine ⟨?_, fun i tree ht => ?_⟩
  · obtain ⟨free, count, hfree, hend, hacc⟩ := hk.pool.account
    obtain ⟨pages, hp, hs⟩ := hk.pages_eq (List.Subset.refl plots)
    refine ⟨free, count, pages, hfree, hend, by rw [hk.trees, hp], ?_⟩
    rw [← Multiset.coe_eq_coe, List.cons_append, ← Multiset.cons_coe, ← Multiset.coe_add, hs,
      ← Multiset.singleton_add, ← add_assoc, add_comm {_}, hacc, Base.taken]
    simp [Base.empty, Multiset.range]
  · obtain ⟨before, after, pages, rfl, rfl⟩ := hk.split ht
    obtain ⟨freed, hfreed, hd, -⟩ := hk.destroy
    have hplot : (tree, pages) ∈ before ++ (tree, pages) :: after := by simp
    obtain ⟨visits, hv, hpages⟩ := hk.pagesUnder_eq hplot
    obtain ⟨h, t, -, -, -, hnodup, -⟩ := hk.tree hplot
    refine ⟨visits, freed, ⟨f.store.release freed, f.trees.eraseIdx before.length⟩, hv, ?_, ?_, rfl, ?_⟩
    · rw [← Multiset.coe_nodup, hpages]
      exact hnodup
    · simp only [Forest.step, ht, hd, Option.bind_eq_bind, Option.bind_some]
      rfl
    · rw [← Multiset.coe_eq_coe, hfreed, hpages]

theorem conservation_two_trees : ∃ f tree tree' pages freed f', Reachable ⟨[], .granted⟩ f ∧
    f.trees = [tree, tree'] ∧ pagesUnder f.store tree'.root = some pages ∧
    f.step (.destroy 1) = some f' ∧ f'.store.freeList = f.store.freeList.map (freed ++ ·) ∧
    freed.Perm pages := by
  obtain ⟨f, tree, tree', hf, htrees, -⟩ := exists_reachable
  obtain ⟨-, hdestroy⟩ := conservation hf
  obtain ⟨pages, freed, f', hpages, -, hstep, hfree, hperm⟩ := hdestroy 1 tree' (by simp [htrees])
  exact ⟨f, tree, tree', pages, freed, f', hf, htrees, hpages, hstep, hfree, hperm⟩

end Forest

end Adventure

import Adventure.Btree.Header
import Adventure.Btree.Map

namespace Adventure

open Memory SearchTree Ends Plots

section Planted

variable {base : Base} {s : Store} {tree : LiveTree} {pages rest : Multiset Nat} {key val : Nat}

-- A tree in use with what the pool says of its pages.
theorem Planted.exists_tree (ht : Planted s tree pages) (hp : Pool base s (pages + rest)) :
    ∃ (h : ℕ) (t : PageTree h), t.addr = tree.root ∧ t.addrs = pages ∧ Rooted s t tree.added ∧
      (∀ p ∈ t.addrs, p ≠ 0) ∧ h < s.file.size := by
  obtain ⟨⟨h, t, hroot, rfl, -, hrooted⟩, -⟩ := ht
  refine ⟨h, t, hroot, rfl, hrooted, fun p hmem => ?_, hp.depth_lt t⟩
  have hb := hp.bounds (Multiset.mem_add.mpr (.inl hmem))
  omega

theorem Planted.repInvariant (ht : Planted s tree pages) (hp : Pool base s (pages + rest)) :
    RepInvariant s tree.root ∧ IsMap s tree.root tree.added := by
  obtain ⟨h, t, hroot, hpages, hrooted, hne, hdepth⟩ := ht.exists_tree hp
  have hnodup : t.addrs.Nodup := hpages ▸ (Multiset.nodup_add.mp hp.nodup).1
  rw [← hroot]
  exact ⟨hrooted.repInvariant hnodup hdepth, hrooted.isMap hne hdepth⟩

theorem Planted.pagesUnder_eq (ht : Planted s tree pages) (hp : Pool base s (pages + rest)) :
    ∃ visits, pagesUnder s tree.root = some visits ∧ (visits : Multiset Nat) = pages := by
  obtain ⟨h, t, hroot, hpages, hrooted, -, hdepth⟩ := ht.exists_tree hp
  have hvisits : btreeDebugRecur s t.addr = some (visited t) :=
    btreeDebugFrom_eq hrooted.holds (.inr rfl) hdepth
  refine ⟨(visited t).map Prod.fst, ?_, (visited_addrs t).trans hpages⟩
  rw [pagesUnder, ← hroot, hvisits]
  rfl

-- An insertion into a tree in use leaves the header right.
theorem Planted.shielded (ht : Planted s tree pages) (hp : Pool base s (pages + rest))
    (hs : Shielded s) (hfresh : ∀ x ∈ tree.added, x.1 ≠ key) (val : Nat) :
    Meets (btreeAdd s tree.root key val) True fun r => Shielded r.2 := by
  have hkeys := ht.keys_lt
  obtain ⟨h, t, hroot, hpages, hrooted, -, hdepth⟩ := ht.exists_tree hp
  have hpath := searchPathFrom_eq hrooted.holds (.inr rfl) key hdepth
  rw [hroot] at hpath
  apply hs.btreeAdd hpath
  · intro p hmem
    have hlive : p ∈ pages + rest :=
      Multiset.mem_add.mpr (.inl (hpages ▸ Multiset.mem_of_le (t.path_le key) (Multiset.mem_coe.mpr hmem)))
    have hin := hp.inside hlive
    have hb := hp.bounds hlive
    exact ⟨hin.1, by omega⟩
  · intro leaf hleaf i hfind hitem
    rw [Tree.path_getLast, Option.mem_some_iff] at hleaf
    subst hleaf
    obtain ⟨root, -, hheld⟩ := hrooted.holds.leafOf (.inr rfl) key
    have hl : LeafAt s.file.data (t.leafOf key).addr (BTREE_LEAF ||| root) 64 (t.leafOf key).held := hheld
    rw [hl.find_eq key] at hfind
    obtain rfl := Option.some.inj hfind
    rw [hl.end_eq] at hitem
    have hi : (t.leafOf key).held.findIdx (fun item => decide (key ≤ item.1)) <
        (t.leafOf key).held.length := by omega
    obtain ⟨hk, -⟩ := hl.read_item hi
    have hadded : ∀ item ∈ (t.leafOf key).held, item ∈ tree.added := by
      intro item hitem
      rw [← Multiset.mem_coe, ← hrooted.items, Multiset.mem_coe]
      exact Tree.leafOf_held_subset key t hitem
    have hmem := hadded _ (List.getElem_mem hi)
    rw [hk, keyGet_eq (hkeys _ hmem)] at hitem
    exact hfresh _ hmem hitem.2

end Planted

namespace Forest

-- The store is closed, and its file is opened again. The trees go on from their latest roots.
def reopen (f : Forest) (flags : Nat) : Option Forest :=
  (storeOpen f.store.file.disk (some (storeClose f.store)) flags).map fun store => { f with store }

-- The states of all runs on a new file that may be closed and opened again at any moment.
inductive Lasting (disk : Disk) : Forest → Prop
  | opened {s : Store} : storeOpen disk none STORE_O_CREAT = some s → Lasting disk ⟨s, []⟩
  | step {f f' : Forest} (op : ForestOp) : Lasting disk f → f.Permits op → f.step op = some f' →
      Lasting disk f'
  | reopen {f f' : Forest} (flags : Nat) : Lasting disk f → f.reopen flags = some f' → Lasting disk f'

theorem Lasting.run {disk : Disk} {ops : List ForestOp} {f f' : Forest} (hf : Lasting disk f)
    (h : f.run ops = some f') : Lasting disk f' :=
  guarded_rule (fun ops f => f.run ops) Forest.Permits Forest.step (Lasting disk) (fun _ => rfl)
    (fun _ _ _ => rfl) (fun _ op _ hf hop hstep => .step op hf hop hstep) hf h

-- The invariant of such a run. Pages in `lost` are in no tree and will not be handed out again.
structure Lasts (f : Forest) (plots : List (LiveTree × Multiset Nat)) (lost : Multiset Nat) : Prop where
  trees : f.trees = plots.map Prod.fst
  planted : ∀ plot ∈ plots, Planted f.store plot.1 plot.2
  pool : Pool Base.empty f.store (total Prod.snd plots + lost)
  shielded : Shielded f.store

section Step

variable {f f' : Forest} {plots before after : List (LiveTree × Multiset Nat)} {tree : LiveTree}
  {pages lost : Multiset Nat} {plot : LiveTree × Multiset Nat}

theorem Lasts.pool_of (hf : f.Lasts plots lost) (hplot : plot ∈ plots) :
    ∃ rest, Pool Base.empty f.store (plot.2 + rest) := by
  obtain ⟨rest, hrest⟩ := Multiset.le_iff_exists_add.mp (le_total hplot)
  have hpool := hf.pool
  rw [hrest, add_assoc] at hpool
  exact ⟨_, hpool⟩

theorem Lasts.split (hf : f.Lasts plots lost) {i : Nat} (h : f.trees[i]? = some tree) :
    ∃ before after pages, plots = before ++ (tree, pages) :: after ∧ before.length = i := by
  rw [hf.trees] at h
  obtain ⟨before, ⟨tree, pages⟩, after, hplots, hi, rfl⟩ := exists_split h
  exact ⟨before, after, pages, hplots, hi⟩

theorem Lasts.planted_keeps (hf : f.Lasts (before ++ (tree, pages) :: after) lost) {s : Store}
    (hk : Keeps (total Prod.snd (before ++ after)) f.store s) :
    ∀ plot ∈ before ++ after, Planted s plot.1 plot.2 := by
  intro plot hplot
  have hplanted := (forall_middle.mp hf.planted).2 plot hplot
  exact hplanted.keeps fun p hp => hk p (Multiset.mem_of_le (le_total hplot) hp)

theorem Lasts.pages_eq (hf : f.Lasts plots lost) {some_plots : List (LiveTree × Multiset Nat)}
    (hsub : some_plots ⊆ plots) : ∃ pages,
      (some_plots.map Prod.fst).mapM (fun tree => pagesUnder f.store tree.root) = some pages ∧
        (pages.flatten : Multiset Nat) = total Prod.snd some_plots := by
  induction some_plots with
  | nil => exact ⟨[], rfl, rfl⟩
  | cons plot rest ih =>
    have hplot := hsub List.mem_cons_self
    obtain ⟨others, hpool⟩ := hf.pool_of hplot
    obtain ⟨pages, hp, hs⟩ := (hf.planted plot hplot).pagesUnder_eq hpool
    obtain ⟨more, hm, hms⟩ := ih fun x hx => hsub (List.mem_cons_of_mem _ hx)
    refine ⟨pages :: more, by simp [hp, hm], ?_⟩
    rw [List.flatten_cons, ← Multiset.coe_add, hs, hms]
    rfl

theorem Lasts.create (hf : f.Lasts plots lost) :
    Meets (btreeCreate f.store) (¬f.store.Growable 64) fun r =>
      Lasts ⟨r.2, ⟨r.1, []⟩ :: f.trees⟩ ((⟨r.1, []⟩, {r.1}) :: plots) lost ∧
        (f.store.file.Grants → r.2.file.Grants) := by
  refine ((create_meets hf.pool).and hf.shielded.create).mono id ?_
  rintro ⟨root, s⟩ ⟨⟨hpool, hk, hspent, hl⟩, hs⟩
  refine ⟨⟨by simp [hf.trees], ?_, ?_, hs⟩, hspent.grants⟩
  · rw [List.forall_mem_cons]
    refine ⟨⟨⟨0, Tree.leaf root [], rfl, rfl, Nat.zero_le _, hl, Tree.WellFormed.leaf_empty root, rfl⟩,
      by simp⟩, fun plot hplot => (hf.planted plot hplot).keeps fun p hp => ?_⟩
    exact hk p (Multiset.mem_add.mpr (.inl (Multiset.mem_of_le (le_total hplot) hp)))
  · change Pool _ _ (total Prod.snd ([] ++ (⟨root, []⟩, {root}) :: plots) + lost)
    rw [total_middle, add_assoc, Multiset.singleton_add]
    exact hpool

theorem Lasts.add (before after : List (LiveTree × Multiset Nat))
    (hf : f.Lasts (before ++ (tree, pages) :: after) lost) {key val : Nat}
    (hfresh : ∀ x ∈ tree.added, x.1 ≠ key) (hkey : key < 2 ^ 63) (hval : val < 2 ^ 64) :
    Meets (btreeAdd f.store tree.root key val)
      (¬f.store.Growable (64 * (2 * tree.added.length + 3))) fun r => ∃ pages' : Multiset Nat,
        Lasts ⟨r.2, (before ++ (⟨r.1, (key, val) :: tree.added⟩, pages') :: after).map Prod.fst⟩
          (before ++ (⟨r.1, (key, val) :: tree.added⟩, pages') :: after) lost ∧
        (f.store.file.Grants → r.2.file.Grants) := by
  have hplanted : Planted f.store tree pages := hf.planted (tree, pages) (by simp)
  have hpool := hf.pool
  rw [total_middle, add_assoc] at hpool
  have hshielded := hplanted.shielded hpool hf.shielded hfresh val
  obtain ⟨⟨h, t, hroot, rfl, hh, hrooted⟩, hkeys⟩ := hplanted
  rw [← hroot] at hshielded ⊢
  refine ((btreeAdd_meets hpool hrooted hkeys hfresh hkey hval).and hshielded).mono
    (mt fun hg => hg.mono (by omega)) ?_
  rintro ⟨root, s⟩ ⟨⟨h', t', rfl, hh', hpool', hrooted', hk, hspent, -⟩, hs⟩
  refine ⟨t'.addrs, ⟨rfl, forall_middle.mpr ⟨⟨⟨h', t', rfl, rfl, ?_, hrooted'⟩, ?_⟩, ?_⟩, ?_, hs⟩,
    hspent.grants⟩
  · rw [List.length_cons]
    omega
  · exact List.forall_mem_cons.mpr ⟨hkey, hkeys⟩
  · exact hf.planted_keeps (hk.mono fun p hp => by simp [hp])
  · rw [total_middle, add_assoc]
    exact hpool'

theorem Lasts.destroy (hf : f.Lasts (before ++ (tree, pages) :: after) lost) :
    ∃ freed : List Nat, btreeDestroy f.store tree.root = some (f.store.release freed) ∧
      Lasts ⟨f.store.release freed, (before ++ after).map Prod.fst⟩ (before ++ after) lost := by
  have hplanted : Planted f.store tree pages := hf.planted (tree, pages) (by simp)
  have hpool := hf.pool
  rw [total_middle, add_assoc] at hpool
  obtain ⟨h, t, hroot, hpages, hrooted, -, hdepth⟩ := hplanted.exists_tree hpool
  obtain ⟨freed, hfreed, hd⟩ := btreeDestroyFrom_eq hrooted.holds (.inr rfl) hdepth []
  rw [release_nil, List.append_nil, hroot] at hd
  rw [← hpages, ← hfreed] at hpool
  refine ⟨freed, hd, rfl, hf.planted_keeps (s := f.store.release freed) (.refl _ _), hpool.release, ?_⟩
  obtain ⟨hsound, hheader, hend, hfree⟩ := hf.shielded
  refine ⟨⟨hsound.end_le, hsound.size_pos, hsound.size_lt⟩, ⟨hheader.magic, hheader.endPos⟩, hend, ?_⟩
  intro p hp
  cases hlist : f.store.freeList with
  | none => simp [Store.release, hlist] at hp
  | some free =>
    simp only [Store.release, hlist, Option.map_some, Option.getD_some, List.mem_append] at hp
    rcases hp with hp | hp
    · have hlive : p ∈ (freed : Multiset Nat) + (total Prod.snd (before ++ after) + lost) :=
        Multiset.mem_add.mpr (.inl (Multiset.mem_coe.mpr hp))
      have hb := hpool.bounds hlive
      exact ⟨(hpool.inside hlive).1, by omega⟩
    · exact hfree p (by rwa [hlist])

-- What one operation does to the invariant. It comes back unless the file cannot grow.
theorem Lasts.step (hf : f.Lasts plots lost) {op : ForestOp} (hop : f.Permits op) :
    Meets (f.step op) (¬f.store.Growable (f.need op)) fun f' => (∃ plots', f'.Lasts plots' lost) ∧
      (f.store.file.Grants → f'.store.file.Grants) := by
  cases op with
  | create =>
    apply Meets.bind hf.create
    rintro ⟨root, s⟩ ⟨hk, hgrants⟩
    exact Meets.pure ⟨⟨_, hk⟩, hgrants⟩
  | add i key val =>
    obtain ⟨tree, ht, hfresh, hkey, hval⟩ := hop
    obtain ⟨before, after, pages, rfl, rfl⟩ := hf.split ht
    simp only [Forest.step, need, ht, Option.bind_eq_bind, Option.bind_some, Option.map_some,
      Option.getD_some]
    apply Meets.bind (hf.add before after hfresh hkey hval)
    rintro ⟨root, s⟩ ⟨pages', hk, hgrants⟩
    have hset := set_middle Prod.fst before after (tree, pages)
      (⟨root, (key, val) :: tree.added⟩, pages')
    rw [hf.trees, hset]
    exact Meets.pure ⟨⟨_, hk⟩, hgrants⟩
  | destroy i =>
    obtain ⟨tree, ht⟩ : ∃ tree, f.trees[i]? = some tree := ⟨_, List.getElem?_eq_getElem hop⟩
    obtain ⟨before, after, pages, rfl, rfl⟩ := hf.split ht
    obtain ⟨freed, hd, hk⟩ := hf.destroy
    simp only [Forest.step, ht, hd, Option.bind_eq_bind, Option.bind_some]
    refine Meets.pure ⟨⟨before ++ after, ?_⟩, id⟩
    rwa [hf.trees, eraseIdx_middle Prod.fst before after (tree, pages)]

-- Opening the file again brings back everything but the free list, whose pages are lost.
theorem Lasts.reopen (hf : f.Lasts plots lost) (flags : Nat) : ∃ s lost',
    f.reopen flags = some { f with store := s } ∧ Lasts { f with store := s } plots lost' ∧
      Reopened f.store s := by
  obtain ⟨s, hopen, hr⟩ :=
    hf.shielded.header.reopened hf.shielded.sound hf.shielded.room f.store.file.disk flags
  obtain ⟨free, count, -, hcount, hacc⟩ := hf.pool.account
  refine ⟨s, lost + (free : Multiset Nat), ?_, ⟨hf.trees, fun plot hplot => ?_, ⟨hr.sound, [], count, hr.free_eq,
    hr.end_eq.trans hcount, ?_⟩, hr.sound, hr.header, ?_, ?_⟩, hr⟩
  · rw [Forest.reopen, hopen]
    rfl
  · obtain ⟨rest, hpool⟩ := hf.pool_of hplot
    refine (hf.planted plot hplot).keeps fun p hp => hr.same.mono (Nat.zero_le p) ?_
    have hb := hpool.bounds (Multiset.mem_add.mpr (.inl hp))
    omega
  · rw [← hacc]
    simp [add_assoc]
  · change STORE_HEADER_SIZE ≤ s.endPos
    rw [hr.end_eq]
    exact hf.shielded.end_ge
  · simp [hr.free_eq]

theorem Lasting.lasts {disk : Disk} (hf : Lasting disk f) :
    (∃ plots lost, f.Lasts plots lost) ∧ (disk.Grants → f.store.file.Grants) := by
  induction hf with
  | opened hopen =>
    obtain ⟨hpool, hend, hfree, hgrants⟩ := (storeOpen_meets disk).of_eq_some hopen
    have hge : STORE_HEADER_SIZE ≤ 96 := by decide
    exact ⟨⟨[], _, rfl, by simp, by simpa [total] using hpool, hpool.sound, storeOpen_header hopen,
      hend ▸ hge, by simp [hfree]⟩, hgrants⟩
  | step op _ hop hstep ih =>
    obtain ⟨⟨plots, lost, hk⟩, hgrants⟩ := ih
    obtain ⟨⟨plots', hk'⟩, hgrants'⟩ := (hk.step hop).of_eq_some hstep
    exact ⟨⟨plots', lost, hk'⟩, fun hg => hgrants' (hgrants hg)⟩
  | reopen flags _ hopen ih =>
    obtain ⟨⟨plots, lost, hk⟩, hgrants⟩ := ih
    obtain ⟨s, lost', hs, hk', hr⟩ := hk.reopen flags
    obtain rfl := Option.some.inj (hs.symm.trans hopen)
    exact ⟨⟨plots, lost', hk'⟩, fun hg => hr.grants (hgrants hg)⟩

end Step

-- Trees outlast the process. However often the file of a run is closed and opened again, its trees
-- have the representation invariant and hold what was added to them, no page is in two of them or
-- free as well, operations come back while the file has room to grow, and opening the file once
-- more changes no byte of it and no search.
theorem forest_lasting {disk : Disk} {f : Forest} (hf : Lasting disk f) :
    (∀ tree ∈ f.trees, RepInvariant f.store tree.root ∧ IsMap f.store tree.root tree.added) ∧
    (∃ free pages, f.store.freeList = some free ∧
      f.trees.mapM (fun tree => pagesUnder f.store tree.root) = some pages ∧
      (pages.flatten ++ free).Nodup ∧
      ∀ p ∈ pages.flatten ++ free, STORE_HEADER_SIZE ≤ p ∧ p + 64 ≤ f.store.endPos) ∧
    (disk.Grants → ∀ op, f.Permits op → f.store.endPos + f.need op ≤ 2 ^ 62 → ∃ f', f.step op = some f') ∧
    ∀ flags, ∃ f', f.reopen flags = some f' ∧ f'.trees = f.trees ∧ f'.store.magic = STORE_MAGIC ∧
      f'.store.endPos = f.store.endPos ∧
      Same f.store.file.data f'.store.file.data 0 f.store.file.size ∧
      ∀ tree ∈ f.trees, ∀ q, ∃ cur,
        btreeFind f.store tree.root q = some cur ∧ btreeFind f'.store tree.root q = some cur := by
  obtain ⟨⟨plots, lost, hk⟩, hgrants⟩ := hf.lasts
  refine ⟨fun tree htree => ?_, ?_, fun hdisk op hop hroom => ?_, fun flags => ?_⟩
  · rw [hk.trees, List.mem_map] at htree
    obtain ⟨plot, hplot, rfl⟩ := htree
    obtain ⟨rest, hpool⟩ := hk.pool_of hplot
    exact (hk.planted plot hplot).repInvariant hpool
  · obtain ⟨free, count, hfree, hend, hacc⟩ := hk.pool.account
    obtain ⟨pages, hpages, hsum⟩ := hk.pages_eq (List.Subset.refl plots)
    have hle : ((pages.flatten ++ free : List Nat) : Multiset Nat) ≤ Base.empty.taken count := by
      rw [← hacc, ← Multiset.coe_add, hsum]
      exact add_le_add (Multiset.le_add_right _ _) le_rfl
    refine ⟨free, pages, hfree, by rw [hk.trees, hpages], ?_, fun p hp => ?_⟩
    · exact Multiset.coe_nodup.mp (Multiset.nodup_of_le hle (Base.empty.taken_nodup count))
    · rw [hend]
      exact Base.empty.taken_inside (Multiset.mem_of_le hle (Multiset.mem_coe.mpr hp))
  · obtain ⟨f', hf', -⟩ := (hk.step hop).exists_some fun hn => hn ⟨hgrants hdisk, hroom⟩
    exact ⟨f', hf'⟩
  · obtain ⟨s, lost', hs, hk', hr⟩ := hk.reopen flags
    refine ⟨_, hs, rfl, hr.magic_eq, hr.end_eq, hr.same, fun tree htree q => ?_⟩
    rw [hk.trees, List.mem_map] at htree
    obtain ⟨plot, hplot, rfl⟩ := htree
    obtain ⟨rest, hpool⟩ := hk.pool_of hplot
    obtain ⟨rest', hpool'⟩ := hk'.pool_of hplot
    obtain ⟨h, t, hroot, hpages, hrooted, hne, hdepth⟩ := (hk.planted plot hplot).exists_tree hpool
    have hkeep : Keeps t.addrs f.store s := by
      intro p hp
      have hb := hpool.bounds (Multiset.mem_add.mpr (.inl (hpages ▸ hp)))
      exact hr.same.mono (Nat.zero_le p) (by omega)
    rw [← hpages] at hpool'
    rw [← hroot]
    exact ⟨_, btreeFindFrom_eq hrooted.holds (.inr rfl) hne q hdepth,
      btreeFindFrom_eq (hrooted.keeps hkeep).holds (.inr rfl) hne q (hpool'.depth_lt t)⟩

-- A tree that is opened again before it splits.
theorem forest_lasting_split : ∃ f tree, Lasting ⟨[], .granted⟩ f ∧ f.trees = [tree] ∧
    IsMap f.store tree.root [(4, 40), (2, 20), (1, 10), (3, 30)] := by
  have h : ((storeOpen ⟨[], .granted⟩ none STORE_O_CREAT).bind fun s =>
      ((Forest.mk s []).run [.create, .add 0 3 30, .add 0 1 10]).bind fun f =>
        (f.reopen 0).bind fun f => f.run [.add 0 2 20, .add 0 4 40]).map
          (fun f => f.trees.map LiveTree.added) = some [[(4, 40), (2, 20), (1, 10), (3, 30)]] := by
    decide +kernel
  simp only [Option.map_eq_some_iff, Option.bind_eq_some_iff, List.map_eq_singleton_iff] at h
  obtain ⟨f, ⟨s, hopen, f₁, hrun₁, f₂, hreopen, hrun₂⟩, tree, htrees, hadded⟩ := h
  have hf := (((Lasting.opened hopen).run hrun₁).reopen 0 hreopen).run hrun₂
  obtain ⟨hmaps, -⟩ := forest_lasting hf
  exact ⟨f, tree, hf, htrees, hadded ▸ (hmaps tree (by simp [htrees])).2⟩

end Forest

end Adventure

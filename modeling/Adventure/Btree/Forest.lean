import Adventure.Btree.Destroy
import Adventure.Btree.Shape
import Adventure.Library.Plots
import Adventure.Store.Open

namespace Adventure

open Memory SearchTree Ends Plots

-- The pages under a root, as btree_debug_recur comes to them.
def pagesUnder (s : Store) (root : Nat) : Option (List Nat) :=
  (btreeDebugRecur s root).map fun pages => pages.map Prod.fst

-- A tree in use: its latest root and the pairs added to it, the last one first.
structure LiveTree where
  root : Nat
  added : List (Nat × Nat)

-- Any number of trees in one store.
structure Forest where
  store : Store
  trees : List LiveTree

inductive ForestOp
  | create
  | add (i : Nat) (key val : Nat)
  | destroy (i : Nat)

namespace Forest

def step (f : Forest) : ForestOp → Option Forest
  | .create => do
      let (root, store) ← btreeCreate f.store
      return ⟨store, ⟨root, []⟩ :: f.trees⟩
  | .add i key val => do
      let tree ← f.trees[i]?
      let (root, store) ← btreeAdd f.store tree.root key val
      return ⟨store, f.trees.set i ⟨root, (key, val) :: tree.added⟩⟩
  | .destroy i => do
      let tree ← f.trees[i]?
      let store ← btreeDestroy f.store tree.root
      return ⟨store, f.trees.eraseIdx i⟩

-- A tree takes a new key with bit 63 clear and any 64-bit value.
def Permits (f : Forest) : ForestOp → Prop
  | .create => True
  | .add i key val => ∃ tree, f.trees[i]? = some tree ∧ (∀ x ∈ tree.added, x.1 ≠ key) ∧
      key < 2 ^ 63 ∧ val < 2 ^ 64
  | .destroy i => i < f.trees.length

instance (f : Forest) : (op : ForestOp) → Decidable (f.Permits op)
  | .create => .isTrue trivial
  | .add i key val => decidable_of_iff (∃ tree ∈ f.trees[i]?, (∀ x ∈ tree.added, x.1 ≠ key) ∧
      key < 2 ^ 63 ∧ val < 2 ^ 64) Iff.rfl
  | .destroy i => inferInstanceAs (Decidable (i < f.trees.length))

-- How many bytes an operation may take from the end of the file.
def need (f : Forest) : ForestOp → Nat
  | .create => 64
  | .add i _ _ => 64 * (2 * ((f.trees[i]?.map fun tree => tree.added.length).getD 0) + 3)
  | .destroy _ => 0

-- The states of all runs on a new file.
inductive Reachable (disk : Disk) : Forest → Prop
  | opened {s : Store} : storeOpen disk none STORE_O_CREAT = some s → Reachable disk ⟨s, []⟩
  | step {f f' : Forest} (op : ForestOp) : Reachable disk f → f.Permits op → f.step op = some f' →
      Reachable disk f'

-- A run that stops at an operation that is not permitted.
def run (f : Forest) : List ForestOp → Option Forest
  | [] => some f
  | op :: ops => if f.Permits op then (f.step op).bind (run · ops) else none

theorem Reachable.run {disk : Disk} {ops : List ForestOp} {f f' : Forest} (hf : Reachable disk f)
    (h : f.run ops = some f') : Reachable disk f' :=
  guarded_rule (fun ops f => f.run ops) Forest.Permits Forest.step (Reachable disk) (fun _ => rfl) (fun _ _ _ => rfl)
    (fun _ op _ hf hop hstep => .step op hf hop hstep) hf h

end Forest

-- A tree in use occupies `pages`.
structure Planted (s : Store) (tree : LiveTree) (pages : Multiset Nat) : Prop where
  rooted : ∃ (h : ℕ) (t : PageTree h), t.addr = tree.root ∧ t.addrs = pages ∧
    h ≤ tree.added.length ∧ Rooted s t tree.added
  keys_lt : ∀ x ∈ tree.added, x.1 < 2 ^ 63

theorem Rooted.keeps {s s' : Store} {h : ℕ} {t : PageTree h} {added : Multiset (Nat × Nat)}
    (ht : Rooted s t added) (hk : Keeps t.addrs s s') : Rooted s' t added :=
  ⟨ht.holds.keeps hk, ht.wellFormed, ht.items⟩

theorem Planted.keeps {s s' : Store} {tree : LiveTree} {pages : Multiset Nat}
    (ht : Planted s tree pages) (hk : Keeps pages s s') : Planted s' tree pages := by
  obtain ⟨⟨h, t, hroot, rfl, hh, hrooted⟩, hkeys⟩ := ht
  exact ⟨⟨h, t, hroot, rfl, hh, hrooted.keeps hk⟩, hkeys⟩

namespace Forest

-- The invariant of a run: every tree is written out on its own pages, and these pages, the free
-- root and the free list are all that the store has handed out.
structure Kept (f : Forest) (plots : List (LiveTree × Multiset Nat)) : Prop where
  trees : f.trees = plots.map Prod.fst
  planted : ∀ plot ∈ plots, Planted f.store plot.1 plot.2
  pool : Pool Base.empty f.store (total Prod.snd plots + {f.store.freeRoot})

section Step

variable {f : Forest} {before after : List (LiveTree × Multiset Nat)} {tree : LiveTree}
  {pages : Multiset Nat}

-- Planting goes on in other stores that keep the pages.
theorem Kept.planted_keeps (hf : f.Kept (before ++ (tree, pages) :: after)) {s : Store}
    (hk : Keeps (total Prod.snd (before ++ after)) f.store s) :
    ∀ plot ∈ before ++ after, Planted s plot.1 plot.2 := by
  intro plot hplot
  have hplanted := (forall_middle.mp hf.planted).2 plot hplot
  exact hplanted.keeps fun p hp => hk p (Multiset.mem_of_le (le_total hplot) hp)

theorem Kept.add (before after : List (LiveTree × Multiset Nat))
    (hf : f.Kept (before ++ (tree, pages) :: after)) {key val : Nat}
    (hfresh : ∀ x ∈ tree.added, x.1 ≠ key) (hkey : key < 2 ^ 63) (hval : val < 2 ^ 64) :
    Meets (btreeAdd f.store tree.root key val)
      (¬f.store.Growable (64 * (2 * tree.added.length + 3))) fun r => ∃ pages' : Multiset Nat,
        Kept ⟨r.2, (before ++ (⟨r.1, (key, val) :: tree.added⟩, pages') :: after).map Prod.fst⟩
          (before ++ (⟨r.1, (key, val) :: tree.added⟩, pages') :: after) ∧
        Keeps (total Prod.snd (before ++ after)) f.store r.2 ∧
        Spent f.store r.2 (64 * (2 * tree.added.length + 3)) ∧
        ∃ path, searchPath f.store tree.root key = some path ∧
          ∀ p ∈ pages, p ∉ path → p ∈ pages' ∧ Same f.store.file.data r.2.file.data p 64 := by
  obtain ⟨⟨h, t, hroot, hpages, hh, hrooted⟩, hkeys⟩ := hf.planted (tree, pages) (by simp)
  simp only at hroot hpages hh hkeys
  subst hpages
  have hpool := hf.pool
  rw [total_middle, add_assoc] at hpool
  rw [← hroot]
  refine (btreeAdd_meets hpool hrooted hkeys hfresh hkey hval).mono
    (mt fun hg => hg.mono (by omega)) ?_
  rintro ⟨root, s⟩ ⟨h', t', rfl, hh', hpool', hrooted', hk, hspent, hoff, -⟩
  have hk' : Keeps (total Prod.snd (before ++ after)) f.store s := hk.mono fun p hp => by simp [hp]
  have hpath := searchPathFrom_eq hrooted.holds (Or.inr rfl) key (hpool.depth_lt t)
  refine ⟨t'.addrs, ⟨rfl, ?_, ?_⟩, hk', hspent.mono (by omega), _, hpath, fun p hp hnot => ?_⟩
  · refine forall_middle.mpr ⟨⟨⟨h', t', rfl, rfl, ?_, hrooted'⟩, ?_⟩, hf.planted_keeps hk'⟩
    · simp only [List.length_cons]
      omega
    · exact List.forall_mem_cons.mpr ⟨hkey, hkeys⟩
  · rw [total_middle, add_assoc, show s.freeRoot = f.store.freeRoot from hspent.freeRoot_eq]
    exact hpool'
  · obtain ⟨off, he⟩ := Multiset.le_iff_exists_add.mp (t.path_le key)
    rw [he, Multiset.mem_add, Multiset.mem_coe] at hp
    obtain ⟨hle, hkeep⟩ := hoff off he
    exact ⟨Multiset.mem_of_le hle (hp.resolve_left hnot), hkeep p (hp.resolve_left hnot)⟩

theorem Kept.create {plots : List (LiveTree × Multiset Nat)} (hf : f.Kept plots) :
    Meets (btreeCreate f.store) (¬f.store.Growable 64) fun r =>
      Kept ⟨r.2, ⟨r.1, []⟩ :: f.trees⟩ ((⟨r.1, []⟩, {r.1}) :: plots) ∧
        Keeps (total Prod.snd plots) f.store r.2 ∧ Spent f.store r.2 64 := by
  apply (create_meets hf.pool).mono id
  rintro ⟨root, s⟩ ⟨hpool, hk, hspent, hl⟩
  have hk' : Keeps (total Prod.snd plots) f.store s := hk.mono fun p hp => by simp [hp]
  refine ⟨⟨by simp [hf.trees], ?_, ?_⟩, hk', hspent⟩
  · simp only [List.forall_mem_cons]
    refine ⟨⟨⟨0, Tree.leaf root [], rfl, rfl, Nat.zero_le _, hl, Tree.WellFormed.leaf_empty root, rfl⟩,
      by simp⟩, fun plot hplot => (hf.planted plot hplot).keeps fun p hp => ?_⟩
    exact hk' p (Multiset.mem_of_le (le_total hplot) hp)
  · change Pool _ _ (total Prod.snd ([] ++ (⟨root, []⟩, {root}) :: plots) + {s.freeRoot})
    rw [total_middle, add_assoc, show s.freeRoot = f.store.freeRoot from hspent.freeRoot_eq,
      Multiset.singleton_add]
    exact hpool

theorem Kept.destroy (hf : f.Kept (before ++ (tree, pages) :: after)) :
    ∃ freed : List Nat, (freed : Multiset Nat) = pages ∧
      btreeDestroy f.store tree.root = some (f.store.release freed) ∧
      Kept ⟨f.store.release freed, (before ++ after).map Prod.fst⟩ (before ++ after) := by
  obtain ⟨⟨h, t, hroot, hpages, hh, hrooted⟩, hkeys⟩ := hf.planted (tree, pages) (by simp)
  simp only at hroot hpages hh
  subst hpages
  have hpool := hf.pool
  rw [total_middle, add_assoc] at hpool
  obtain ⟨freed, hfreed, hd⟩ := btreeDestroyFrom_eq hrooted.holds (Or.inr rfl) (hpool.depth_lt t) []
  rw [release_nil, List.append_nil, hroot] at hd
  rw [← hfreed] at hpool
  exact ⟨freed, hfreed, hd, rfl,
    hf.planted_keeps (s := f.store.release freed) (.refl _ _), hpool.release⟩

end Step

-- The plot of a tree by its number.
theorem Kept.split {f : Forest} {plots : List (LiveTree × Multiset Nat)} (hf : f.Kept plots) {i : Nat}
    {tree : LiveTree} (h : f.trees[i]? = some tree) : ∃ before after pages,
      plots = before ++ (tree, pages) :: after ∧ before.length = i := by
  rw [hf.trees] at h
  obtain ⟨before, ⟨tree, pages⟩, after, hplots, hi, rfl⟩ := exists_split h
  exact ⟨before, after, pages, hplots, hi⟩

theorem Kept.mem_others {f : Forest} {before after : List (LiveTree × Multiset Nat)}
    {plot : LiveTree × Multiset Nat} (hf : f.Kept (before ++ plot :: after)) {j : Nat}
    {other : LiveTree} (h : f.trees[j]? = some other) (hne : j ≠ before.length) :
    ∃ pages, (other, pages) ∈ before ++ after := by
  rw [hf.trees] at h
  obtain ⟨⟨other, pages⟩, hmem, rfl⟩ := exists_other h hne
  exact ⟨pages, hmem⟩

theorem Kept.step_add {f : Forest} {before after : List (LiveTree × Multiset Nat)} {tree : LiveTree}
    {pages : Multiset Nat} (hf : f.Kept (before ++ (tree, pages) :: after)) {key val : Nat}
    (hfresh : ∀ x ∈ tree.added, x.1 ≠ key) (hkey : key < 2 ^ 63) (hval : val < 2 ^ 64) :
    Meets (f.step (.add before.length key val))
      (¬f.store.Growable (f.need (.add before.length key val))) fun f' => ∃ root pages',
        f'.Kept (before ++ (⟨root, (key, val) :: tree.added⟩, pages') :: after) ∧
          Keeps (total Prod.snd (before ++ after)) f.store f'.store ∧
          (f.store.file.Grants → f'.store.file.Grants) := by
  have ht : f.trees[before.length]? = some tree := hf.trees ▸ getElem_middle Prod.fst _ _ _
  simp only [Forest.step, need, ht, Option.bind_eq_bind, Option.bind_some, Option.map_some,
    Option.getD_some]
  apply Meets.bind (hf.add before after hfresh hkey hval)
  rintro ⟨root, s⟩ ⟨pages', hk, hkeep, hspent, -⟩
  refine Meets.pure ⟨root, pages', ?_, hkeep, hspent.grants⟩
  have hset := set_middle Prod.fst before after (tree, pages)
    (⟨root, (key, val) :: tree.added⟩, pages')
  rwa [hf.trees, hset]

-- What one operation does to the invariant. It comes back unless the file cannot grow.
theorem Kept.step {f : Forest} {plots : List (LiveTree × Multiset Nat)} (hf : f.Kept plots)
    {op : ForestOp} (hop : f.Permits op) :
    Meets (f.step op) (¬f.store.Growable (f.need op)) fun f' => (∃ plots', f'.Kept plots') ∧
      (f.store.file.Grants → f'.store.file.Grants) := by
  cases op with
  | create =>
      rw [Forest.step, need]
      apply Meets.bind hf.create
      rintro ⟨root, s⟩ ⟨hk, -, hspent⟩
      exact Meets.pure ⟨⟨_, hk⟩, hspent.grants⟩
  | add i key val =>
      obtain ⟨tree, ht, hfresh, hkey, hval⟩ := hop
      obtain ⟨before, after, pages, rfl, rfl⟩ := hf.split ht
      apply (hf.step_add hfresh hkey hval).mono id
      rintro f' ⟨root, pages', hk, -, hgrants⟩
      exact ⟨⟨_, hk⟩, hgrants⟩
  | destroy i =>
      obtain ⟨tree, ht⟩ : ∃ tree, f.trees[i]? = some tree := ⟨_, List.getElem?_eq_getElem hop⟩
      obtain ⟨before, after, pages, rfl, rfl⟩ := hf.split ht
      obtain ⟨freed, -, hd, hk⟩ := hf.destroy
      simp only [Forest.step, ht, hd, Option.bind_eq_bind, Option.bind_some]
      refine Meets.pure ⟨⟨before ++ after, ?_⟩, id⟩
      rwa [hf.trees, eraseIdx_middle Prod.fst before after (tree, pages)]

theorem Reachable.kept {disk : Disk} {f : Forest} (hf : Reachable disk f) :
    (∃ plots, f.Kept plots) ∧ (disk.Grants → f.store.file.Grants) := by
  induction hf with
  | opened hs =>
      obtain ⟨hpool, -, -, hgrants⟩ := (storeOpen_meets disk).of_eq_some hs
      exact ⟨⟨[], rfl, by simp, by simpa [total] using hpool⟩, hgrants⟩
  | step op hf hop hstep ih =>
      rcases ih with ⟨⟨plots, hk⟩, hgrants⟩
      obtain ⟨hk', hgrants'⟩ := (hk.step hop).of_eq_some hstep
      exact ⟨hk', fun hg => hgrants' (hgrants hg)⟩

-- On a disk that grants every resize no operation fails while the file has room to grow.
theorem Reachable.returns {disk : Disk} (hdisk : disk.Grants) {f : Forest} (hf : Reachable disk f)
    {op : ForestOp} (hop : f.Permits op) (hroom : f.store.endPos + f.need op ≤ 2 ^ 62) :
    ∃ f', f.step op = some f' := by
  obtain ⟨⟨plots, hk⟩, hgrants⟩ := hf.kept
  obtain ⟨f', hf', -⟩ := (hk.step hop).exists_some fun hn => hn ⟨hgrants hdisk, hroom⟩
  exact ⟨f', hf'⟩

section Tree

variable {f : Forest} {plots : List (LiveTree × Multiset Nat)} {plot : LiveTree × Multiset Nat}

theorem Kept.pool_of (hf : f.Kept plots) (hplot : plot ∈ plots) :
    ∃ rest, Pool Base.empty f.store (plot.2 + rest) := by
  obtain ⟨rest, hrest⟩ := Multiset.le_iff_exists_add.mp (le_total hplot)
  have hpool := hf.pool
  rw [hrest, add_assoc] at hpool
  exact ⟨_, hpool⟩

-- A tree of the forest with what its plot says of it.
theorem Kept.tree (hf : f.Kept plots) (hplot : plot ∈ plots) : ∃ (h : ℕ) (t : PageTree h),
    t.addr = plot.1.root ∧ t.addrs = plot.2 ∧ Rooted f.store t plot.1.added ∧
      plot.2.Nodup ∧ (∀ p ∈ plot.2, p ≠ 0) ∧ h < f.store.file.size := by
  obtain ⟨⟨h, t, hroot, hpages, -, ht⟩, -⟩ := hf.planted plot hplot
  obtain ⟨rest, hpool⟩ := hf.pool_of hplot
  refine ⟨h, t, hroot, hpages, ht, (Multiset.nodup_add.mp hpool.nodup).1, fun p hp => ?_, ?_⟩
  · have := hpool.bounds (Multiset.mem_add.mpr (Or.inl hp))
    omega
  · rw [← hpages] at hpool
    exact hpool.depth_lt t

theorem Kept.repInvariant (hf : f.Kept plots) (hplot : plot ∈ plots) :
    RepInvariant f.store plot.1.root := by
  obtain ⟨h, t, hroot, hpages, ht, hnodup, -, hdepth⟩ := hf.tree hplot
  rw [← hroot]
  exact ht.repInvariant (hpages ▸ hnodup) hdepth

theorem Kept.pagesUnder_eq (hf : f.Kept plots) (hplot : plot ∈ plots) :
    ∃ pages, pagesUnder f.store plot.1.root = some pages ∧ (pages : Multiset Nat) = plot.2 := by
  obtain ⟨h, t, hroot, hpages, ht, -, -, hdepth⟩ := hf.tree hplot
  refine ⟨_, ?_, (visited_addrs t).trans hpages⟩
  rw [pagesUnder, ← hroot, show btreeDebugRecur f.store t.addr = _ from
    btreeDebugFrom_eq ht.holds (Or.inr rfl) hdepth]
  rfl

theorem Kept.mem_pages (hf : f.Kept plots) (hplot : plot ∈ plots) {page : Nat} :
    page ∈ plot.2 ↔ ∃ depth, PageBelow f.store plot.1.root depth page := by
  obtain ⟨visits, hv, -, hmem⟩ := (hf.repInvariant hplot).tree
  obtain ⟨pages, hp, hpages⟩ := hf.pagesUnder_eq hplot
  rw [pagesUnder, hv, Option.map_some] at hp
  rw [← hmem, ← hpages, ← Option.some.inj hp, Multiset.mem_coe]

-- A search depends on the pages of its own tree only.
theorem Kept.find_eq {f' : Forest} {plots' : List (LiveTree × Multiset Nat)} (hf : f.Kept plots)
    (hf' : f'.Kept plots') (hplot : plot ∈ plots) (hplot' : plot ∈ plots')
    (hk : Keeps plot.2 f.store f'.store) (q : Nat) :
    ∃ cur, btreeFind f.store plot.1.root q = some cur ∧
      btreeFind f'.store plot.1.root q = some cur := by
  obtain ⟨h, t, hroot, hpages, ht, -, hne, hdepth⟩ := hf.tree hplot
  obtain ⟨rest, hpool⟩ := hf'.pool_of hplot'
  rw [← hpages] at hpool hne hk
  rw [← hroot]
  exact ⟨_, btreeFindFrom_eq ht.holds (Or.inr rfl) hne q hdepth,
    btreeFindFrom_eq (ht.keeps hk).holds (Or.inr rfl) hne q (hpool.depth_lt t)⟩

-- Two plots share no page.
theorem Kept.disjoint {before after : List (LiveTree × Multiset Nat)}
    (hf : f.Kept (before ++ plot :: after)) {other : LiveTree × Multiset Nat}
    (hother : other ∈ before ++ after) {page : Nat} (hp : page ∈ plot.2) : page ∉ other.2 := by
  exact disjoint_middle (Multiset.nodup_add.mp hf.pool.nodup).1 hother hp

theorem Kept.pages_eq (hf : f.Kept plots) {some_plots : List (LiveTree × Multiset Nat)}
    (hsub : some_plots ⊆ plots) : ∃ pages,
      (some_plots.map Prod.fst).mapM (fun tree => pagesUnder f.store tree.root) = some pages ∧
        (pages.flatten : Multiset Nat) = total Prod.snd some_plots := by
  induction some_plots with
  | nil => exact ⟨[], rfl, rfl⟩
  | cons plot rest ih =>
      obtain ⟨pages, hp, hs⟩ := hf.pagesUnder_eq (hsub List.mem_cons_self)
      obtain ⟨more, hm, hms⟩ := ih fun x hx => hsub (List.mem_cons_of_mem _ hx)
      refine ⟨pages :: more, by simp [hp, hm], ?_⟩
      rw [List.flatten_cons, ← Multiset.coe_add, hs, hms]
      rfl

end Tree

end Forest

end Adventure

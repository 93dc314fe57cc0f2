import Adventure.Btree.Map
import Adventure.Library.SearchTree.Balance

namespace Adventure

open Memory SearchTree Ends Plots

-- No leaf beside a root is empty and no branch is without a separator, and what follows from it for
-- the height of a tree with `nkeys` keys.
structure Occupied (s : Store) (root nkeys : Nat) : Prop where
  leaf : ∀ depth page, PageBelow s root depth page → isLeaf (pgHeader s page) = true →
    page ≠ root → 1 ≤ pgNkeys (pgHeader s page)
  branch : ∀ depth page, PageBelow s root depth page → isBranch (pgHeader s page) = true →
    1 ≤ pgNkeys (pgHeader s page)
  leaves : ∃ (branchLevels : Nat) (leaves : List Nat), leaves.Nodup ∧
    (∀ page ∈ leaves, PageBelow s root branchLevels page ∧ isLeaf (pgHeader s page) = true) ∧
    (∀ depth page, PageBelow s root depth page → isLeaf (pgHeader s page) = true →
      depth = branchLevels ∧ page ∈ leaves) ∧ 2 ^ branchLevels ≤ leaves.length
  find : ∀ q, ∃ path, searchPath s root q = some path ∧ path.length ≤ Nat.log 2 nkeys + 1

-- The search for a key comes to a full branch, takes child number 2 there and finds no room further
-- down. An insertion of the key then cuts that branch behind its last separator.
def Starves (s : Store) (root key : Nat) : Prop :=
  ∃ path ∈ searchPath s root key, ∃ tail ∈ path.tails, 1 < tail.length ∧
    (∀ page ∈ tail, pgFree (pgHeader s page) < 16) ∧
    btreeBranchFind s (tail.headD 0) key = some (btStart + 16 * 2)

instance (s : Store) (root key : Nat) : Decidable (Starves s root key) :=
  decidable_of_iff (∃ path ∈ searchPath s root key, ∃ tail ∈ path.tails, 1 < tail.length ∧
    (∀ page ∈ tail, pgFree (pgHeader s page) < 16) ∧
    btreeBranchFind s (tail.headD 0) key = some (btStart + 16 * 2)) Iff.rfl

section Holds

variable {s : Store} {h : ℕ} {t : PageTree h} {root : Nat}

-- The leaves of the tree are the pages that the code takes for leaves, ...
theorem mem_leaves_iff (page : Nat) (ht : Holds s.file.data root t) (hroot : IsRootFlag root) :
    page ∈ t.leaves.map Tree.addr ↔ page ∈ t.addrs ∧ isLeaf (pgHeader s page) = true := by
  induction h generalizing root with
  | zero =>
      simp only [Tree.leaves_leaf, List.map_cons, List.map_nil, List.mem_singleton, Tree.addrs_leaf,
        Multiset.mem_singleton, iff_self_and]
      rintro rfl
      exact isLeaf_of_leafAt ht hroot
  | succ h ih =>
      have hkid := fun kid hk => ih (ht.2 kid hk) (Or.inl rfl)
      rw [Tree.mem_addrs_row, Tree.leaves_row, List.map_flatMap, List.mem_flatMap]
      constructor
      · rintro ⟨kid, hk, hm⟩
        obtain ⟨hp, hl⟩ := (hkid kid hk).mp hm
        exact ⟨Or.inr ⟨kid, hk, hp⟩, hl⟩
      · rintro ⟨rfl | ⟨kid, hk, hp⟩, hl⟩
        · rw [isLeaf_of_branchAt ht.1 hroot] at hl
          cases hl
        · exact ⟨kid, hk, (hkid kid hk).mpr ⟨hp, hl⟩⟩

-- ... and they are written out.
theorem Holds.of_mem_leaves (ht : Holds s.file.data root t) (hroot : IsRootFlag root) :
    ∀ leaf ∈ t.leaves, ∃ root', LeafAt s.file.data leaf.addr (BTREE_LEAF ||| root') 64 leaf.held := by
  induction h generalizing root with
  | zero =>
      simp only [Tree.leaves_leaf, List.mem_singleton, forall_eq]
      exact ⟨root, ht⟩
  | succ h ih =>
      intro leaf hleaf
      rw [Tree.leaves_row, List.mem_flatMap] at hleaf
      obtain ⟨kid, hk, hleaf⟩ := hleaf
      exact ih (ht.2 kid hk) (Or.inl rfl) leaf hleaf

-- The numbers of separators are those in the headers of the branches.
theorem everyBranch_iff (Q : Nat → Prop) (ht : Holds s.file.data root t) (hroot : IsRootFlag root) :
    t.EveryBranch Q ↔ ∀ page ∈ t.addrs, isBranch (pgHeader s page) = true →
      Q (pgNkeys (pgHeader s page)) := by
  induction h generalizing root with
  | zero =>
      simp only [Tree.everyBranch_leaf, Tree.addrs_leaf, Multiset.mem_singleton, forall_eq, true_iff]
      rw [isBranch, isLeaf_of_leafAt ht hroot]
      simp
  | succ h ih =>
      have hb : BranchAt s.file.data t.addr root 64 (t.row.map Tree.addr) := ht.1
      have hn : pgNkeys (pgHeader s t.addr) = t.row.seps.length := by
        rw [hb.page.nkeys_eq, Row.seps_map]
      have hbranch : isBranch (pgHeader s t.addr) = true := by
        rw [isBranch, isLeaf_of_branchAt hb hroot]
        rfl
      simp only [Tree.mem_addrs_row, or_imp, forall_and, forall_eq, hn, hbranch, true_implies]
      rw [Tree.everyBranch_row]
      refine and_congr Iff.rfl ⟨?_, ?_⟩
      · rintro hkids page ⟨kid, hk, hp⟩
        exact (ih (ht.2 kid hk) (Or.inl rfl)).mp (hkids kid hk) page hp
      · intro hall kid hk
        exact (ih (ht.2 kid hk) (Or.inl rfl)).mpr fun page hp => hall page ⟨kid, hk, hp⟩

-- A page is full when it has no room for 16 more bytes.
theorem path_full_iff (ht : Holds s.file.data root t) (hl : t.EveryLeaf (·.length ≤ 3))
    (hb : t.EveryBranch (· ≤ 3)) (key : Nat) :
    (∀ page ∈ t.path key, pgFree (pgHeader s page) < 16) ↔ t.Full (·.length = 3) 3 key := by
  induction h generalizing root with
  | zero =>
      have hleaf : LeafAt s.file.data t.addr (BTREE_LEAF ||| root) 64 t.held := ht
      have hlen : t.held.length ≤ 3 := hl
      simp only [Tree.path, List.mem_singleton, forall_eq, hleaf.free_eq, Tree.Full]
      change 64 - (8 + 16 * t.held.length) < 16 ↔ t.held.length = 3
      omega
  | succ h ih =>
      have hbranch : BranchAt s.file.data t.addr root 64 (t.row.map Tree.addr) := ht.1
      have hpick := Row.pick_mem key t.row
      have hle : t.row.seps.length ≤ 3 := hb.1
      rw [Tree.path, List.forall_mem_cons, Tree.Full, hbranch.free_eq, Row.seps_map]
      refine and_congr ?_ (ih (ht.2 _ hpick) (hl _ hpick) (hb.2 _ hpick))
      omega

theorem starves_iff (ht : Holds s.file.data root t) (hl : t.EveryLeaf (·.length ≤ 3))
    (hb : t.EveryBranch (· ≤ 3)) (key : Nat) :
    (∃ tail ∈ (t.path key).tails, 1 < tail.length ∧ (∀ page ∈ tail, pgFree (pgHeader s page) < 16) ∧
      btreeBranchFind s (tail.headD 0) key = some (btStart + 16 * 2)) ↔
    t.Spills (·.length = 3) 3 (· = 2) key := by
  induction h generalizing root with
  | zero => simp [Tree.path, Tree.Spills]
  | succ h ih =>
      have hbranch : BranchAt s.file.data t.addr root 64 (t.row.map Tree.addr) := ht.1
      have hpick := Row.pick_mem key t.row
      have hfull := path_full_iff ht hl hb key
      have hfind := hbranch.find_eq key
      rw [Row.index_map] at hfind
      rw [Tree.Spills, ← hfull, ← ih (ht.2 _ hpick) (hl _ hpick) (hb.2 _ hpick), Tree.path,
        List.tails_cons]
      simp only [List.mem_cons, or_and_right, exists_or, exists_eq_left]
      refine or_congr ?_ Iff.rfl
      rw [List.headD_cons, hfind, List.length_cons, Tree.length_path, btStart, BTREE_HEADER_SIZE,
        Option.some.injEq]
      constructor
      · rintro ⟨-, hroom, hi⟩
        exact ⟨by omega, hroom⟩
      · rintro ⟨hi, hroom⟩
        exact ⟨by omega, hroom, by omega⟩

end Holds

section Rooted

variable {s : Store} {h : ℕ} {t : PageTree h} {added : Multiset (Nat × Nat)}

theorem Rooted.occupied_iff (ht : Rooted s t added) (hnodup : t.addrs.Nodup)
    (hdepth : h < s.file.size) : Occupied s t.addr added.card ↔ t.EveryBranch (0 < ·) := by
  have hmem := fun page => ht.mem_addrs hnodup page
  have hbranch := everyBranch_iff (0 < ·) ht.holds (Or.inr rfl)
  constructor
  · intro hocc
    rw [hbranch]
    intro page hp hb
    obtain ⟨depth, hp⟩ := (hmem page).mp hp
    exact hocc.branch depth page hp hb
  · intro hpos
    have hleaves := fun page => mem_leaves_iff page ht.holds (Or.inr rfl)
    have hlevel : ∀ depth page, PageBelow s t.addr depth page → isLeaf (pgHeader s page) = true →
        depth = h ∧ page ∈ t.leaves.map Tree.addr := by
      intro depth page hp hl
      obtain ⟨sub, hpart⟩ := ht.leaf_part hnodup hp hl
      have hheight := hpart.height
      exact ⟨by omega, (hleaves page).mpr ⟨(hmem page).mpr ⟨depth, hp⟩, hl⟩⟩
    refine ⟨fun depth page hp hl hne => ?_, fun depth page hp hb => ?_,
      ⟨h, t.leaves.map Tree.addr, ?_, fun page hp => ?_, hlevel, ?_⟩, fun q => ?_⟩
    · obtain ⟨-, hm⟩ := hlevel depth page hp hl
      obtain ⟨leaf, hleaf, rfl⟩ := List.mem_map.mp hm
      obtain ⟨root', hat⟩ := ht.holds.of_mem_leaves (Or.inr rfl) leaf hleaf
      have hfilled : t.EveryLeaf (· ≠ []) := by
        apply ht.wellFormed.filled.resolve_left
        rintro rfl
        rw [Tree.leaves_leaf, List.mem_singleton] at hleaf
        exact hne (hleaf ▸ rfl)
      rw [hat.page.nkeys_eq]
      exact List.length_pos_of_ne_nil (hfilled.of_mem leaf hleaf)
    · exact hbranch.mp hpos page ((hmem page).mpr ⟨depth, hp⟩) hb
    · rw [← Multiset.coe_nodup]
      exact Multiset.nodup_of_le t.map_leaves_le hnodup
    · obtain ⟨hp, hl⟩ := (hleaves page).mp hp
      obtain ⟨depth, hp⟩ := (hmem page).mp hp
      obtain ⟨rfl, -⟩ := hlevel depth page hp hl
      exact ⟨hp, hl⟩
    · rw [List.length_map]
      exact hpos.two_pow_le
    · refine ⟨_, searchPathFrom_eq ht.holds (Or.inr rfl) q hdepth, ?_⟩
      have hle := Tree.height_le_log hpos ht.wellFormed.filled
      rw [← Multiset.coe_card, ht.items] at hle
      rw [Tree.length_path]
      omega

end Rooted

section Run

variable {f : Forest} {tree : LiveTree} {pages : Multiset Nat}
  {plots : List (LiveTree × Multiset Nat)}

-- What the tree of a plot says of its occupancy.
theorem Forest.Kept.occupied_iff (hf : f.Kept plots) {plot : LiveTree × Multiset Nat}
    (hplot : plot ∈ plots) : ∃ (h : ℕ) (t : PageTree h), t.addr = plot.1.root ∧
      t.addrs = plot.2 ∧ Rooted f.store t plot.1.added ∧
      (Occupied f.store plot.1.root plot.1.added.length ↔ t.EveryBranch (0 < ·)) ∧
      ∀ key, Starves f.store plot.1.root key ↔ t.Spills (·.length = 3) 3 (· = 2) key := by
  obtain ⟨h, t, hroot, hpages, ht, hnodup, -, hdepth⟩ := hf.tree hplot
  have hocc := ht.occupied_iff (hpages ▸ hnodup) hdepth
  rw [Multiset.coe_card, hroot] at hocc
  refine ⟨h, t, hroot, hpages, ht, hocc, fun key => ?_⟩
  rw [← starves_iff ht.holds ht.wellFormed.leaves ht.wellFormed.branches, Starves, searchPath, ← hroot,
    searchPathFrom_eq ht.holds (Or.inr rfl) key hdepth]
  simp only [Option.mem_some_iff, exists_eq_left']

theorem Inserts.two_iff {item : Nat × Nat} {l : List (Nat × Nat)} {g : Growth (List (Nat × Nat)) Nat}
    (h : Inserts Prod.fst 3 medianCut item l g) :
    l.length = 3 ↔ ∃ left mid right, g = .two left mid right := by
  cases h with
  | one before after hb ha hlt => exact iff_of_false hlt.ne (by simp)
  | two before after left first rest hb ha hlen heq hcut => simp [hlen]

theorem medianCut_bad : ∀ i ≤ 3, i = 2 ↔ ¬(0 < medianCut 3 i ∧ medianCut 3 i < 3) := by decide

end Run

-- A tree among others in its store.
def Among (s : Store) (root : Nat) (added : List (Nat × Nat)) (pages : Multiset Nat)
    (others : List (LiveTree × Multiset Nat)) : Prop :=
  Forest.Kept ⟨s, ⟨root, added⟩ :: others.map Prod.fst⟩ ((⟨root, added⟩, pages) :: others)

section Among

variable {s : Store} {root : Nat} {added : List (Nat × Nat)} {pages : Multiset Nat}
  {others : List (LiveTree × Multiset Nat)}

-- One call keeps the tree occupied exactly when it does not starve a branch.
theorem Among.add (h : Among s root added pages others) {key val : Nat}
    (hfresh : ∀ x ∈ added, x.1 ≠ key) (hkey : key < 2 ^ 63) (hval : val < 2 ^ 64) {r : Nat × Store}
    (hadd : btreeAdd s root key val = some r) : ∃ pages',
      Among r.2 r.1 ((key, val) :: added) pages' others ∧
      (Occupied s root added.length →
        (Occupied r.2 r.1 (added.length + 1) ↔ ¬Starves s root key)) := by
  obtain ⟨pages', hk, -⟩ := (Forest.Kept.add [] others h hfresh hkey hval).of_eq_some hadd
  refine ⟨pages', hk, fun hocc => ?_⟩
  obtain ⟨height, t, hroot, hpages, ht, hiff, hstarves⟩ :=
    Forest.Kept.occupied_iff h List.mem_cons_self
  obtain ⟨rest, hpool⟩ := Forest.Kept.pool_of h List.mem_cons_self
  obtain ⟨-, hkeys⟩ := Forest.Kept.planted h _ List.mem_cons_self
  simp only at hroot hpages ht hiff hstarves hpool hkeys
  rw [← hroot] at hadd
  rw [← hpages] at hpool
  obtain ⟨height', t', hroot', -, hpool', ht', -, -, -, g, hgrows, htop⟩ :=
    (btreeAdd_meets hpool ht hkeys hfresh hkey hval).of_eq_some hadd
  have hocc' := ht'.occupied_iff (Multiset.nodup_add.mp hpool'.nodup).1 (hpool'.depth_lt t')
  have hleaf : ∀ l gl, Inserts Prod.fst 3 medianCut (key, val) l gl →
      (l.length = 3 ↔ ∃ left mid right, gl = .two left mid right) := fun _ _ => Inserts.two_iff
  have hpos := hgrows.everyBranch_pos_iff hleaf medianCut_bad ht.wellFormed.branches (hiff.mp hocc)
  rw [Multiset.card_cons, Multiset.coe_card, hroot'] at hocc'
  rw [hocc', htop.everyBranch_iff Nat.zero_lt_one, hpos, hstarves]

-- All calls of a run, the last one apart.
theorem Among.run_iff (h : Among s root [] pages others) (hocc : Occupied s root 0)
    {items : List (Nat × Nat)} (hnodup : (items.map Prod.fst).Nodup)
    (hitems : ∀ x ∈ items, x.1 < 2 ^ 63 ∧ x.2 < 2 ^ 64) {r : Nat × Store}
    (hrun : btreeAddAll items root s = some r) :
    (∃ pages', Among r.2 r.1 items.reverse pages' others) ∧
    ((∀ done r', done <+: items → btreeAddAll done root s = some r' →
      Occupied r'.2 r'.1 done.length) ↔
    ∀ done key val r', done ++ [(key, val)] <+: items → btreeAddAll done root s = some r' →
      ¬Starves r'.2 r'.1 key) := by
  induction items using List.reverseRecOn generalizing r with
  | nil =>
      obtain rfl := Option.some.inj hrun
      refine ⟨⟨pages, h⟩, iff_of_true ?_ (by simp)⟩
      intro done r' hdone hr'
      obtain rfl := List.prefix_nil.mp hdone
      obtain rfl := Option.some.inj hr'
      exact hocc
  | append_singleton items item ih =>
      rcases item with ⟨key, val⟩
      rw [List.map_append, List.nodup_append] at hnodup
      rw [List.forall_mem_append] at hitems
      have hall := hrun
      rw [btreeAddAll_append, Option.bind_eq_some_iff] at hrun
      obtain ⟨⟨root', s'⟩, hrun', hadd⟩ := hrun
      simp only [btreeAddAll, Option.bind_eq_bind, Option.bind_eq_some_iff, Option.some.injEq] at hadd
      obtain ⟨r, hadd, rfl⟩ := hadd
      obtain ⟨⟨pages', h'⟩, hiff⟩ := ih hnodup.1 hitems.1 hrun'
      have hlt := hitems.2 (key, val) (by simp)
      have hfresh : ∀ x ∈ items.reverse, x.1 ≠ key := by
        intro x hx he
        exact hnodup.2.2 x.1 (List.mem_map_of_mem (List.mem_reverse.mp hx)) key (by simp) he
      obtain ⟨pages'', h'', hstep⟩ := h'.add hfresh hlt.1 hlt.2 hadd
      rw [List.length_reverse] at hstep
      refine ⟨⟨pages'', by simpa using h''⟩, ?_, ?_⟩
      · intro hoccs done key' val' r' hdone hr'
        have hbefore := fun done r' (hd : done <+: items) =>
          hoccs done r' (hd.trans (List.prefix_append _ _))
        rcases List.prefix_concat_iff.mp hdone with he | hdone
        · obtain ⟨rfl, ⟨rfl, rfl⟩⟩ : done = items ∧ key' = key ∧ val' = val := by
            simpa using he
          obtain rfl := Option.some.inj (hrun'.symm.trans hr')
          have hlast := hoccs _ _ (List.prefix_refl _) hall
          rw [List.length_append] at hlast
          exact (hstep (hbefore done _ (List.prefix_refl _) hr')).mp hlast
        · exact hiff.mp hbefore done key' val' r' hdone hr'
      · intro hstarves done r' hdone hr'
        have hbefore := hiff.mpr fun done key' val' r' hd =>
          hstarves done key' val' r' (hd.trans (List.prefix_append _ _))
        rcases List.prefix_concat_iff.mp hdone with rfl | hdone
        · obtain rfl := Option.some.inj (hall.symm.trans hr')
          rw [List.length_append]
          apply (hstep (hbefore items _ (List.prefix_refl _) hrun')).mpr
          exact hstarves items key val _ (List.prefix_refl _) hrun'
        · exact hbefore done r' hdone hr'

end Among

-- In a run of btree_add on a new tree every tree on the way is occupied if, and only if, no call
-- starves a branch.
theorem btree_occupancy {disk : Disk} {f : Forest} (hf : Forest.Reachable disk f) {root₀ : Nat}
    {s₁ : Store} (hcreate : btreeCreate f.store = some (root₀, s₁)) {items : List (Nat × Nat)}
    (hnodup : (items.map Prod.fst).Nodup) (hitems : ∀ x ∈ items, x.1 < 2 ^ 63 ∧ x.2 < 2 ^ 64)
    {r : Nat × Store} (hrun : btreeAddAll items root₀ s₁ = some r) :
    (∀ done r', done <+: items → btreeAddAll done root₀ s₁ = some r' →
      Occupied r'.2 r'.1 done.length) ↔
    ∀ done key val r', done ++ [(key, val)] <+: items → btreeAddAll done root₀ s₁ = some r' →
      ¬Starves r'.2 r'.1 key := by
  obtain ⟨⟨plots, hk⟩, -⟩ := hf.kept
  obtain ⟨hk', -⟩ := hk.create.of_eq_some hcreate
  have hamong : Among s₁ root₀ [] {root₀} plots := by
    rw [Among, ← hk.trees]
    exact hk'
  refine (hamong.run_iff ?_ hnodup hitems hrun).2
  obtain ⟨height, t, hroot, hpages, ht, hiff, -⟩ :=
    Forest.Kept.occupied_iff hamong List.mem_cons_self
  apply hiff.mpr
  cases height with
  | zero => trivial
  | succ height =>
      have hcard := t.lt_card_addrs
      rw [hpages, Multiset.card_singleton] at hcard
      omega

-- Five keys make a root over two leaves.
theorem btree_occupancy_five : ∃ s₀ root₀ s₁ root s,
    storeOpen ⟨[], .granted⟩ none STORE_O_CREAT = some s₀ ∧ btreeCreate s₀ = some (root₀, s₁) ∧
    btreeAddAll [(10, 1), (20, 2), (30, 3), (40, 4), (50, 5)] root₀ s₁ = some (root, s) ∧
    isBranch (pgHeader s root) = true ∧ Occupied s root 5 := by
  have h : (do
      let s₀ ← storeOpen ⟨[], .granted⟩ none STORE_O_CREAT
      let c ← btreeCreate s₀
      let t ← btreeAddAll [(10, 1), (20, 2), (30, 3), (40, 4), (50, 5)] c.1 c.2
      return (isBranch (pgHeader t.2 t.1), decide (∀ n < 5,
        ∀ r ∈ btreeAddAll ([(10, 1), (20, 2), (30, 3), (40, 4), (50, 5)].take n) c.1 c.2,
          ¬Starves r.2 r.1 (10 * (n + 1))))) = some (true, true) := by decide +kernel
  simp only [Option.bind_eq_bind, Option.bind_eq_some_iff, Option.pure_def, Option.some.injEq,
    Prod.mk.injEq, decide_eq_true_eq] at h
  obtain ⟨s₀, hopen, ⟨root₀, s₁⟩, hcreate, ⟨root, s⟩, hrun, hbranch, hstarves⟩ := h
  have hocc := btree_occupancy (.opened hopen) hcreate (by decide) (by decide) hrun
  refine ⟨s₀, root₀, s₁, root, s, hopen, hcreate, hrun, hbranch, hocc.mpr ?_ _ _ (List.prefix_refl _) hrun⟩
  rintro done key val r' ⟨rest, he⟩ hr'
  have htake : [(10, 1), (20, 2), (30, 3), (40, 4), (50, 5)].take done.length = done := by
    rw [← he, List.append_assoc, List.take_left]
  have hkey : [(10, 1), (20, 2), (30, 3), (40, 4), (50, 5)][done.length]? = some (key, val) := by
    rw [← he]
    simp
  have hlen : done.length < 5 := (List.getElem?_eq_some_iff.mp hkey).1
  have hstarve := hstarves done.length hlen r' (htake.symm ▸ hr')
  have hkeys : ∀ n < 5, ∀ x ∈ [(10, 1), (20, 2), (30, 3), (40, 4), (50, 5)][n]?,
      x.1 = 10 * (n + 1) := by decide
  obtain rfl : key = 10 * (done.length + 1) := hkeys done.length hlen (key, val) hkey
  exact hstarve

-- A full root whose child number 2 splits: its right half is a branch without a separator.
theorem btree_branch_starved : ∃ s₀ root₀ s₁ root s page,
    storeOpen ⟨[], .granted⟩ none STORE_O_CREAT = some s₀ ∧ btreeCreate s₀ = some (root₀, s₁) ∧
    btreeAddAll [(10, 1), (20, 2), (30, 3), (40, 4), (50, 5), (60, 6), (70, 7), (80, 8), (51, 9),
      (52, 10)] root₀ s₁ = some (root, s) ∧
    PageBelow s root 1 page ∧ isBranch (pgHeader s page) = true ∧ pgNkeys (pgHeader s page) = 0 := by
  have h : (do
      let s₀ ← storeOpen ⟨[], .granted⟩ none STORE_O_CREAT
      let c ← btreeCreate s₀
      let t ← btreeAddAll [(10, 1), (20, 2), (30, 3), (40, 4), (50, 5), (60, 6), (70, 7), (80, 8),
        (51, 9), (52, 10)] c.1 c.2
      let page := branchChild t.2 t.1 1
      return ((isBranch (pgHeader t.2 t.1), pgNkeys (pgHeader t.2 t.1)),
        isBranch (pgHeader t.2 page), pgNkeys (pgHeader t.2 page))) =
      some ((true, 1), true, 0) := by decide +kernel
  simp only [Option.bind_eq_bind, Option.bind_eq_some_iff, Option.pure_def, Option.some.injEq,
    Prod.mk.injEq] at h
  obtain ⟨s₀, hopen, ⟨root₀, s₁⟩, hcreate, ⟨root, s⟩, hrun, ⟨hroot, hkeys⟩, hbranch, hnone⟩ := h
  refine ⟨s₀, root₀, s₁, root, s, _, hopen, hcreate, hrun, .child 1 .root hroot ?_, hbranch, hnone⟩
  exact hkeys.ge

end Adventure

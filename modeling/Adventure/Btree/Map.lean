import Adventure.Btree.Forest

namespace Adventure

open Memory SearchTree Ends

-- A sequence of btree_add calls, each on the root that the one before returned.
def btreeAddAll : List (Nat × Nat) → Nat → Store → Option (Nat × Store)
  | [], root, s => some (root, s)
  | (key, val) :: items, root, s => do
      let (root, s) ← btreeAdd s root key val
      btreeAddAll items root s

theorem btreeAddAll_append (items items' : List (Nat × Nat)) (root : Nat) (s : Store) :
    btreeAddAll (items ++ items') root s =
      (btreeAddAll items root s).bind fun r => btreeAddAll items' r.1 r.2 := by
  induction items generalizing root s with
  | nil => rfl
  | cons item items ih =>
      simp only [List.cons_append, btreeAddAll, Option.bind_eq_bind, Option.bind_assoc, ih]

-- What a map with the given items is for the code: a search ends in a leaf at the first item whose
-- key is not below the one searched for, which is an item for that key if there is one; and the
-- walk over all leaves comes to every item once, in the order of the keys.
structure IsMap (s : Store) (root : Nat) (items : List (Nat × Nat)) : Prop where
  find : ∀ q, ∃ cur leafItems, btreeFind s root q = some cur ∧
    (∃ depth, PageBelow s root depth cur.page) ∧ isLeaf (pgHeader s cur.page) = true ∧
    btreeLeafWalk s cur.page = some leafItems ∧
    cur.index = btStart + 16 * leafItems.findIdx (fun item => decide (q ≤ item.1)) ∧
    ∀ val, (q, val) ∈ items ↔ cur.index < pgEnd (pgHeader s cur.page) ∧
      readUi64 s cur.page cur.index = q ∧ readUi64 s cur.page (cur.index + 8) = val
  walk : ∃ pages, btreeDebugRecur s root = some pages ∧
    ((pages.flatMap Prod.snd).map Prod.fst).Pairwise (· < ·) ∧
    (pages.flatMap Prod.snd).Perm items

-- In a leaf in order the search stops at the item with the key, or there is none.
theorem mem_iff_findIdx {items : List (Nat × Nat)} (hs : (items.map Prod.fst).Pairwise (· < ·))
    (key val : Nat) : (key, val) ∈ items ↔
      items[items.findIdx (fun item => decide (key ≤ item.1))]? = some (key, val) := by
  refine ⟨fun hm => ?_, List.mem_of_getElem?⟩
  obtain ⟨before, after, rfl, hb, ha⟩ := exists_cut key hs
  rw [findIdx_eq_length hb ha]
  cases after with
  | nil =>
      rw [List.append_nil] at hm
      exact absurd (hb _ hm) (Nat.lt_irrefl _)
  | cons item after =>
      rw [List.map_append, List.map_cons, List.pairwise_append, List.pairwise_cons,
        List.forall_mem_map] at hs
      have hle := ha item (by simp)
      simp only [List.mem_append, List.mem_cons] at hm
      rcases hm with hm | rfl | hm
      · exact absurd (hb _ hm) (Nat.lt_irrefl _)
      · simp
      · exact absurd (hs.2.1.1 _ hm) (Nat.not_lt.mpr hle)

section Rooted

variable {s : Store} {h : ℕ} {t : PageTree h} {items : List (Nat × Nat)}

theorem Rooted.isMap (ht : Rooted s t items) (hne : ∀ p ∈ t.addrs, p ≠ 0)
    (hdepth : h < s.file.size) : IsMap s t.addr items where
  find q := by
    obtain ⟨root, hroot, hheld⟩ := ht.holds.leafOf (Or.inr rfl) q
    have hleaf : LeafAt s.file.data (t.leafOf q).addr (BTREE_LEAF ||| root) 64 (t.leafOf q).held := hheld
    refine ⟨_, (t.leafOf q).held, btreeFindFrom_eq ht.holds (Or.inr rfl) hne q hdepth,
      exists_pageBelow ht.holds (Or.inr rfl) (Tree.leafOf_addr_mem q t),
      isLeaf_of_leafAt hleaf hroot, hleaf.walk_eq, rfl, fun val => ?_⟩
    have hmem : (q, val) ∈ items ↔ (q, val) ∈ (t.leafOf q).held := by
      rw [← Multiset.mem_coe, ← ht.items, Multiset.mem_coe]
      exact ht.wellFormed.ordered.mem_leafOf (q, val)
    rw [hmem, mem_iff_findIdx (ht.wellFormed.ordered.leafOf q), List.getElem?_eq_some_iff]
    simp only [hleaf.end_eq]
    constructor
    · rintro ⟨hi, hget⟩
      obtain ⟨hk, hv⟩ := hleaf.read_item hi
      rw [hget] at hk hv
      exact ⟨by omega, hk, hv⟩
    · rintro ⟨hlt, hkey, hval⟩
      have hi : (t.leafOf q).held.findIdx (fun item => decide (q ≤ item.1)) <
          (t.leafOf q).held.length := by omega
      obtain ⟨hk, hv⟩ := hleaf.read_item hi
      exact ⟨hi, Prod.ext (hk.symm.trans hkey) (hv.symm.trans hval)⟩
  walk := by
    refine ⟨visited t, btreeDebugFrom_eq ht.holds (Or.inr rfl) hdepth, ?_, ?_⟩
    · rw [visited_items]
      exact ht.wellFormed.ordered.pairwise_keys
    · rw [visited_items]
      exact Multiset.coe_eq_coe.mp ht.items

end Rooted

section Run

-- A store whose only tree is the one under `root`.
def Sole (s : Store) (root : Nat) (added : List (Nat × Nat)) (pages : Multiset Nat) : Prop :=
  Forest.Kept ⟨s, [⟨root, added⟩]⟩ [(⟨root, added⟩, pages)]

variable {s : Store} {root : Nat} {added : List (Nat × Nat)} {pages : Multiset Nat}

theorem Sole.isMap (h : Sole s root added pages) : IsMap s root added := by
  obtain ⟨height, t, hroot, hpages, ht, -, hne, hdepth⟩ := h.tree (List.mem_singleton_self _)
  simp only at hroot hpages hne
  subst hroot hpages
  exact ht.isMap hne hdepth

theorem Sole.mem_pages (h : Sole s root added pages) {page : Nat} :
    page ∈ pages ↔ ∃ depth, PageBelow s root depth page :=
  Forest.Kept.mem_pages h (List.mem_singleton_self _)

-- One call, for a tree that is alone in its store.
theorem Sole.add (h : Sole s root added pages) {key val : Nat} (hfresh : ∀ x ∈ added, x.1 ≠ key)
    (hkey : key < 2 ^ 63) (hval : val < 2 ^ 64) :
    Meets (btreeAdd s root key val) (¬s.Growable (64 * (2 * added.length + 3))) fun r =>
      ∃ pages', Sole r.2 r.1 ((key, val) :: added) pages' ∧
        (s.file.Grants → r.2.file.Grants) ∧
        ∃ path, searchPath s root key = some path ∧
          ∀ p ∈ pages, p ∉ path → p ∈ pages' ∧ Same s.file.data r.2.file.data p 64 := by
  apply (Forest.Kept.add [] [] h hfresh hkey hval).mono id
  rintro r ⟨pages', hk, -, hspent, hpath⟩
  exact ⟨pages', hk, hspent.grants, hpath⟩

-- The first key to come is not there yet, and the others are apart from it.
theorem fresh_of_nodup {items : List (Nat × Nat)} {key val : Nat}
    (h : (((key, val) :: items).map Prod.fst ++ added.map Prod.fst).Nodup) :
    (∀ x ∈ added, x.1 ≠ key) ∧
      (items.map Prod.fst ++ ((key, val) :: added).map Prod.fst).Nodup := by
  rw [List.map_cons, List.cons_append, List.nodup_cons] at h
  refine ⟨?_, List.nodup_middle.mpr (List.nodup_cons.mpr h)⟩
  rintro x hx rfl
  exact h.1 (List.mem_append_right _ (List.mem_map.mpr ⟨x, hx, rfl⟩))

-- All calls of a sequence. They end short of a result only where the next call may run out of
-- room in the file.
theorem Sole.addAll (h : Sole s root added pages) (items : List (Nat × Nat))
    (hnodup : (items.map Prod.fst ++ added.map Prod.fst).Nodup)
    (hitems : ∀ x ∈ items, x.1 < 2 ^ 63 ∧ x.2 < 2 ^ 64) :
    Meets (btreeAddAll items root s)
      (∃ done rest r, items = done ++ rest ∧ btreeAddAll done root s = some r ∧
        ¬r.2.Growable (64 * (2 * (done.length + added.length) + 3))) fun r =>
      ∃ pages', Sole r.2 r.1 (items.reverse ++ added) pages' ∧
        (s.file.Grants → r.2.file.Grants) := by
  induction items generalizing s root added pages with
  | nil => exact Meets.pure ⟨pages, h, id⟩
  | cons item items ih =>
      rcases item with ⟨key, val⟩
      obtain ⟨hfresh, hnodup'⟩ := fresh_of_nodup hnodup
      rw [List.forall_mem_cons] at hitems
      rw [btreeAddAll]
      refine Meets.bind ((h.add hfresh hitems.1.1 hitems.1.2).with_eq.mono (fun hn =>
        ⟨[], _, (root, s), rfl, rfl, by simpa using hn⟩) fun _ h => h) ?_
      rintro ⟨root', s'⟩ ⟨hadd, pages', hs', hgrants, -⟩
      refine (ih hs' hnodup' hitems.2).mono ?_ ?_
      · rintro ⟨done, rest, r, rfl, hr, hn⟩
        refine ⟨(key, val) :: done, rest, r, rfl, ?_, ?_⟩
        · rw [btreeAddAll, hadd]
          exact hr
        · rw [List.length_cons] at hn ⊢
          rwa [Nat.add_assoc, Nat.add_comm 1]
      · rintro r ⟨pages'', hs'', hgrants'⟩
        refine ⟨pages'', ?_, fun hg => hgrants' (hgrants hg)⟩
        rwa [List.reverse_cons, List.append_assoc, List.singleton_append]

-- A page that lies on none of the search paths of the calls keeps its bytes and stays in the tree.
theorem Sole.addAll_offPath (h : Sole s root added pages) {items : List (Nat × Nat)}
    (hnodup : (items.map Prod.fst ++ added.map Prod.fst).Nodup)
    (hitems : ∀ x ∈ items, x.1 < 2 ^ 63 ∧ x.2 < 2 ^ 64) {r : Nat × Store}
    (hrun : btreeAddAll items root s = some r) {page : Nat} (hpage : page ∈ pages)
    (hoff : ∀ done key val rest r', items = done ++ (key, val) :: rest →
      btreeAddAll done root s = some r' → ∀ path, searchPath r'.2 r'.1 key = some path →
      page ∉ path) :
    Same s.file.data r.2.file.data page 64 ∧ ∃ added' pages', Sole r.2 r.1 added' pages' ∧
      page ∈ pages' := by
  induction items generalizing s root added pages with
  | nil =>
      obtain rfl := Option.some.inj hrun
      exact ⟨.refl _ _ _, added, pages, h, hpage⟩
  | cons item items ih =>
      rcases item with ⟨key, val⟩
      obtain ⟨hfresh, hnodup'⟩ := fresh_of_nodup hnodup
      rw [List.forall_mem_cons] at hitems
      rw [btreeAddAll, Option.bind_eq_bind, Option.bind_eq_some_iff] at hrun
      obtain ⟨⟨root', s'⟩, hadd, hrun⟩ := hrun
      obtain ⟨pages', hs', -, path, hpath, hkeep⟩ :=
        (h.add hfresh hitems.1.1 hitems.1.2).of_eq_some hadd
      obtain ⟨hmem, hsame⟩ := hkeep page hpage (hoff [] key val items (root, s) rfl rfl path hpath)
      obtain ⟨hsame', hrest⟩ := ih hs' hnodup' hitems.2 hrun hmem
        fun done key' val' rest r' he hr => hoff ((key, val) :: done) key' val' rest r' (by rw [he]; rfl)
          (by rw [btreeAddAll, hadd]; exact hr)
      exact ⟨hsame.trans hsame', hrest⟩

-- A fresh store and the first tree in it.
theorem open_create_meets (disk : Disk) :
    Meets ((storeOpen disk none STORE_O_CREAT).bind fun s => (btreeCreate s).map fun r => (s, r))
      (¬disk.Grants) fun r => storeOpen disk none STORE_O_CREAT = some r.1 ∧
        btreeCreate r.1 = some r.2 ∧ Sole r.2.2 r.2.1 [] {r.2.1} ∧
        (disk.Grants → r.2.2.file.Grants) := by
  apply Meets.bind (storeOpen_meets disk).with_eq
  rintro s ⟨hopen, hpool, hend, -, hgrants⟩
  have hk : Forest.Kept ⟨s, []⟩ [] := ⟨rfl, by simp, by simpa [Plots.total] using hpool⟩
  have hgrow : disk.Grants → s.Growable 64 := fun hg => ⟨hgrants hg, by omega⟩
  rw [Option.map_eq_bind]
  refine Meets.bind (hk.create.with_eq.mono (mt hgrow) fun _ h => h) ?_
  rintro ⟨root, s'⟩ ⟨hcreate, hk', -, hspent⟩
  exact Meets.pure ⟨hopen, hcreate, hk', fun hg => hspent.grants (hgrants hg)⟩

end Run

end Adventure

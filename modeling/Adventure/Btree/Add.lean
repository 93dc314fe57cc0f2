import Adventure.Btree.Tree

namespace Adventure

open Memory SearchTree Ends

-- The root flag of the pages that an insertion leaves: only a page that did not split keeps it.
def grownRoot {h : ℕ} (root : Nat) : Growth (PageTree h) Nat → Nat
  | .one _ => root
  | .two _ _ _ => 0

theorem grownRoot_zero {h : ℕ} (g : Growth (PageTree h) Nat) : grownRoot 0 g = 0 := by
  cases g <;> rfl

-- The state in which an insertion below some page returns (key, orig, split, store). The tree
-- there has grown to `g`, the overflow chains under it occupy `chains`, and `rest` has not been
-- touched.
structure Grew (base : Base) (s : Store) (root pages : Nat) (chains rest : Multiset Nat) {h : ℕ}
    (r : Nat × Nat × Nat × Store) (g : Growth (PageTree h) Nat) : Prop where
  returned : Returned r.1 r.2.1 r.2.2.1 (g.map Tree.addr)
  words : ∀ w ∈ (g.map Tree.addr).flat, w < 2 ^ 64
  holds : ∀ kid ∈ g.kids, Holds r.2.2.2.file.data (grownRoot root g) kid
  pool : Pool base r.2.2.2 (g.addrs + (chains + rest))
  keeps : Keeps rest s r.2.2.2
  spent : Spent s r.2.2.2 (64 * pages)

theorem mem_addrs_of_mem_kids {h : ℕ} {g : Growth (PageTree h) Nat} {kid : PageTree h} {p : Nat}
    (hkid : kid ∈ g.kids) (hp : p ∈ kid.addrs) : p ∈ g.addrs :=
  Multiset.mem_of_le (List.single_le_sum (fun m _ => Multiset.zero_le m) _
    (List.mem_map_of_mem hkid)) hp

theorem Grew.mono {base : Base} {s : Store} {root pages pages' : Nat} {chains rest : Multiset Nat}
    {h : ℕ} {r : Nat × Nat × Nat × Store} {g : Growth (PageTree h) Nat}
    (hg : Grew base s root pages chains rest r g) (hle : pages ≤ pages') :
    Grew base s root pages' chains rest r g := { hg with spent := hg.spent.mono (by omega) }

section Level

variable {h : ℕ} {t : PageTree (h + 1)} {key : Nat} {before after : List (PageTree h)}

-- The pages beside the child that a search picks.
def beside (before after : List (PageTree h)) : Multiset Nat :=
  (before.map Tree.addrs).sum + (after.map Tree.addrs).sum

theorem addrs_pick (hk : t.row.kids = before ++ t.row.pick key :: after) :
    t.addrs = (t.row.pick key).addrs + (t.addr ::ₘ beside before after) := by
  rw [Tree.addrs_row, hk, beside]
  simp only [List.map_append, List.map_cons, List.sum_append, List.sum_cons,
    ← Multiset.singleton_add]
  abel

theorem sum_graft {g : Growth (PageTree h) Nat}
    (hg : (t.row.graft key g).kids = before ++ g.kids ++ after) :
    ((t.row.graft key g).kids.map Tree.addrs).sum = g.addrs + beside before after := by
  rw [hg, beside, Growth.addrs]
  simp only [List.map_append, List.sum_append]
  abel

-- The children of the new row are written out when the pages beside the old one were kept.
theorem holds_graft {s s' : Store} {root : Nat} {g : Growth (PageTree h) Nat}
    (ht : Holds s.file.data root t) (hk : t.row.kids = before ++ t.row.pick key :: after)
    (hg : (t.row.graft key g).kids = before ++ g.kids ++ after)
    (hkeep : Keeps (beside before after) s s')
    (hgrown : ∀ kid ∈ g.kids, Holds s'.file.data 0 kid) :
    ∀ kid ∈ (t.row.graft key g).kids, Holds s'.file.data 0 kid := by
  have hside : ∀ kid ∈ before ++ after, kid.addrs ≤ beside before after := by
    intro kid hkid
    have hle := List.single_le_sum (l := (before ++ after).map Tree.addrs)
      (fun m _ => Multiset.zero_le m) _ (List.mem_map_of_mem hkid)
    rwa [List.map_append, List.sum_append] at hle
  have hold : ∀ kid ∈ before ++ after, Holds s'.file.data 0 kid := by
    intro kid hkid
    refine (ht.2 kid ?_).congr fun p hp => hkeep p (Multiset.mem_of_le (hside kid hkid) hp)
    rw [show (Tree.row t).kids = _ from hk]
    simp only [List.mem_append, List.mem_cons] at hkid ⊢
    tauto
  intro kid hkid
  rw [hg] at hkid
  simp only [List.mem_append] at hkid hold
  rcases hkid with (hkid | hkid) | hkid
  · exact hold kid (Or.inl hkid)
  · exact hgrown kid hkid
  · exact hold kid (Or.inr hkid)

end Level

section Branch

variable {base : Base} {s s₁ : Store} {h : ℕ} {t : PageTree (h + 1)} {key root pages : Nat}
  {chains rest : Multiset Nat} {before after : List (PageTree h)} {mid orig split : Nat}
  {g : Growth (PageTree h) Nat}

-- One level up, when the branch has room for what its child grew into.
theorem Grew.branchAdd (ht : Holds s.file.data root t)
    (hk : t.row.kids = before ++ t.row.pick key :: after)
    (hgraft : (t.row.graft key g).kids = before ++ g.kids ++ after)
    (hg : Grew base s 0 pages chains (t.addr ::ₘ (beside before after + rest))
      (mid, orig, split, s₁) g)
    (hfit : (t.row.graft key g).seps.length ≤ 3) :
    Meets (btreeBranchAdd s₁ t.addr (8 + 16 * t.row.index key) mid orig split)
      (¬s.Growable (64 * (pages + 1))) fun r => r.1 ≠ 0 ∧
        Keeps (g.addrs + beside before after + (chains + rest)) s₁ r.2 ∧
        Grew base s root (pages + 1) chains rest (mid, r.1, 0, r.2)
          (.one (Tree.branch r.1 (t.row.graft key g))) := by
  have hpool : Pool base s₁ (t.addr ::ₘ (g.addrs + beside before after + (chains + rest))) := by
    have hp := hg.pool
    simp only [← Multiset.singleton_add] at hp ⊢
    convert hp using 1
    abel
  have hb : BranchAt s₁.file.data t.addr root 64 (t.row.map Tree.addr) :=
    ht.1.congr (hg.keeps _ (Multiset.mem_cons_self _ _))
  have hmap : (t.row.graft key g).map Tree.addr = (t.row.map Tree.addr).graft key (g.map Tree.addr) :=
    Row.map_graft _ _ _ _
  have hlen : ((t.row.map Tree.addr).graft key (g.map Tree.addr)).seps.length ≤ 3 := by
    rwa [← hmap, Row.seps_map]
  have hadd := branchAdd_meets hpool hb hg.returned hg.words hlen
  rw [Row.index_map] at hadd
  apply hadd.mono hg.spent.growable
  rintro ⟨d, s₂⟩ ⟨hne, hp₂, hk₂, hspent, hbranch⟩
  rw [← hmap] at hbranch
  refine ⟨hne, hk₂, ⟨rfl, rfl⟩, ?_, ?_, ?_, ?_,
    hg.spent.trans hspent⟩
  · have := hp₂.bounds (p := d) (by simp)
    simp only [Growth.map, Growth.flat, List.mem_singleton, Tree.addr_branch, forall_eq]
    omega
  · simp only [Growth.kids, List.mem_singleton, forall_eq]
    refine ⟨hbranch, holds_graft ht hk hgraft ?_ ?_⟩
    · exact (hg.keeps.mono fun p hp => by simp [hp]).trans (hk₂.mono fun p hp => by simp [hp])
    · intro kid hkid
      have hkid' := hg.holds kid hkid
      rw [grownRoot_zero] at hkid'
      exact hkid'.keeps (hk₂.mono fun p hp => by simp [mem_addrs_of_mem_kids hkid hp])
  · convert hp₂ using 1
    simp only [Growth.addrs, Growth.kids, List.map_cons, List.map_nil, List.sum_cons, List.sum_nil,
      Tree.addrs_row, Tree.addr_branch, Tree.row_branch, sum_graft hgraft, add_zero,
      Multiset.cons_add]
  · exact (hg.keeps.mono fun p hp => by simp [hp]).trans (hk₂.mono fun p hp => by simp [hp])

-- One level up, when the branch is full and its child has split.
theorem Grew.branchSplit {left right : PageTree h} {sep : Nat} (ht : Holds s.file.data root t)
    (hroot : IsRootFlag root) (hk : t.row.kids = before ++ t.row.pick key :: after)
    (hgraft : (t.row.graft key (.two left sep right)).kids =
      before ++ (Growth.two left sep right).kids ++ after)
    (hg : Grew base s 0 pages chains (t.addr ::ₘ (beside before after + rest))
      (mid, orig, split, s₁) (.two left sep right))
    (hfull : t.row.seps.length = 3) :
    Meets (btreeBranchSplit s₁ t.addr (8 + 16 * t.row.index key) mid orig split)
      (¬s.Growable (64 * (pages + 2))) fun r => ∃ l r' : Row (PageTree h) Nat,
        t.row.graft key (.two left sep right) = l.join r.1 r' ∧
        l.seps.length = medianCut t.row.seps.length (t.row.index key) ∧
        Keeps ((Growth.two left sep right).addrs + beside before after + (chains + rest)) s₁ r.2.2.2 ∧
        Grew base s root (pages + 2) chains rest r
          (.two (Tree.branch r.2.1 l) r.1 (Tree.branch r.2.2.1 r')) := by
  have hpool : Pool base s₁ (t.addr ::ₘ
      ((Growth.two left sep right).addrs + beside before after + (chains + rest))) := by
    have hp := hg.pool
    simp only [← Multiset.singleton_add] at hp ⊢
    convert hp using 1
    abel
  have hb : BranchAt s₁.file.data t.addr root 64 (t.row.map Tree.addr) :=
    ht.1.congr (hg.keeps _ (Multiset.mem_cons_self _ _))
  have hsplit := branchSplit_meets key hpool hb hg.returned hg.words
    (by rwa [Row.seps_map])
  rw [Row.index_map, Row.seps_map] at hsplit
  apply hsplit.mono hg.spent.growable
  rintro ⟨m, d, d', s₂⟩ ⟨l, r, hp₂, hk₂, hspent, hm, hjoin, hcut, hbl, hbr⟩
  obtain ⟨l, r, hj, rfl, rfl⟩ := Row.exists_join_of_map
    ((Row.map_graft Tree.addr key (.two left sep right) t.row).trans hjoin)
  rw [clearRoot_branch hroot] at hbl hbr
  have hkids : ∀ kid ∈ (t.row.graft key (.two left sep right)).kids, Holds s₂.file.data 0 kid := by
    refine holds_graft ht hk hgraft ?_ fun kid hkid => ?_
    · exact (hg.keeps.mono fun p hp => by simp [hp]).trans (hk₂.mono fun p hp => by simp [hp])
    · exact (hg.holds kid hkid).keeps
        (hk₂.mono fun p hp => by simp [mem_addrs_of_mem_kids hkid hp])
  rw [hj, Row.kids_join] at hkids
  simp only [List.mem_append] at hkids
  have hd := hp₂.bounds (p := d) (by simp)
  have hd' := hp₂.bounds (p := d') (by simp)
  refine ⟨l, r, hj, by rwa [Row.seps_map] at hcut, hk₂, ⟨rfl, rfl, rfl, ?_⟩, ?_, ?_, ?_, ?_,
    hg.spent.trans hspent⟩
  · change d' ≠ 0
    omega
  · simp only [Growth.map, Growth.flat, List.forall_mem_cons, Tree.addr_branch, List.not_mem_nil,
      false_implies, implies_true, and_true]
    exact ⟨by omega, hm, by omega⟩
  · simp only [Growth.kids, List.forall_mem_cons, List.not_mem_nil, false_implies, implies_true,
      and_true]
    exact ⟨⟨hbl, fun kid hkid => hkids kid (Or.inl hkid)⟩,
      hbr, fun kid hkid => hkids kid (Or.inr hkid)⟩
  · have hsum := sum_graft hgraft
    rw [hj, Row.kids_join, List.map_append, List.sum_append] at hsum
    rw [← hsum] at hp₂
    convert hp₂ using 1
    simp only [Growth.addrs, Growth.kids, List.map_cons, List.map_nil, List.sum_cons, List.sum_nil,
      Tree.addrs_row, Tree.addr_branch, Tree.row_branch, ← Multiset.singleton_add]
    abel
  · exact (hg.keeps.mono fun p hp => by simp [hp]).trans (hk₂.mono fun p hp => by simp [hp])

end Branch

theorem recurAdd_meets {base : Base} {key k : Nat} (val orig : Nat) (chains : Multiset Nat)
    {R : Store → Multiset Nat → Growth (List (Nat × Nat)) Nat → Prop}
    (hR : ∀ s s' chains' gl, Keeps chains' s s' → R s chains' gl → R s' chains' gl)
    {h : ℕ} (t : PageTree h) {s : Store} {root depth : Nat} {rest : Multiset Nat}
    (hp : Pool base s (t.addrs + (chains + rest))) (ht : Holds s.file.data root t)
    (hb : t.EveryBranch (· ≤ 3)) (hroot : IsRootFlag root) (hdepth : h < depth)
    (hleaf : ∀ depth orig root rest, Pool base s ((t.leafOf key).addrs + (chains + rest)) →
      Holds s.file.data root (t.leafOf key) → IsRootFlag root →
      Meets (btreeRecurAdd (depth + 1) s (t.leafOf key).addr key val orig 0) (¬s.Growable (64 * k))
        fun r => ∃ (g : Growth (PageTree 0) Nat) (chains' : _), Grew base s root k chains' rest r g ∧
          R r.2.2.2 chains' (g.map Tree.held)) :
    Meets (btreeRecurAdd depth s t.addr key val orig 0) (¬s.Growable (64 * (k + 2 * h)))
      fun r => ∃ (g : Growth (PageTree h) Nat) (gl : _) (chains' : _),
        Grew base s root (k + 2 * h) chains' rest r g ∧ R r.2.2.2 chains' gl ∧
        t.Grows (fun l gl' => l = (t.leafOf key).held ∧ gl' = gl) 3 medianCut key g ∧
        ∀ off, t.addrs = (t.path key : Multiset Nat) + off → Keeps off s r.2.2.2 := by
  induction h generalizing root depth rest with
  | zero =>
      obtain ⟨depth, rfl⟩ : ∃ n, depth = n + 1 := ⟨depth - 1, by omega⟩
      apply (hleaf depth orig root rest hp ht hroot).mono id
      rintro r ⟨g, chains', hg, hr⟩
      refine ⟨g, _, chains', hg, hr, ⟨rfl, rfl⟩, fun off hoff => ?_⟩
      rw [Tree.addrs_leaf, Tree.path, Multiset.coe_singleton, left_eq_add] at hoff
      exact hoff ▸ fun _ hp => absurd hp (Multiset.notMem_zero _)
  | succ h ih =>
      obtain ⟨depth, rfl⟩ : ∃ n, depth = n + 1 := ⟨depth - 1, by omega⟩
      obtain ⟨before, after, hk, hgraft⟩ := t.row.kids_graft key
      have hbranch : BranchAt s.file.data t.addr root 64 (t.row.map Tree.addr) := ht.1
      have hpick := Row.pick_mem key t.row
      have hfind := hbranch.find_eq key
      have hread := hbranch.read_pick key
      rw [Row.index_map] at hfind
      rw [Row.index_map, Row.pick_map] at hread
      simp only [btreeRecurAdd, isLeaf_of_branchAt hbranch hroot, hfind, hread, Option.bind_eq_bind,
        Option.bind_some, Bool.false_eq_true, if_false]
      have hp' : Pool base s ((t.row.pick key).addrs +
          (chains + (t.addr ::ₘ (beside before after + rest)))) := by
        rw [addrs_pick hk] at hp
        simp only [← Multiset.singleton_add] at hp ⊢
        convert hp using 1
        abel
      have hsub := ih (t.row.pick key) hp' (ht.2 _ hpick) (hb.2 _ hpick) (Or.inl rfl)
        (show h < depth by omega) hleaf
      refine Meets.bind (hsub.mono (mt fun hg => hg.mono (by omega)) fun _ h => h) ?_
      rintro ⟨mid, orig, split, s₁⟩ ⟨g, gl, chains', hg, hr, hgrows, hoff⟩
      -- what the branch keeps, it keeps off the whole path
      have hkeep : ∀ s₂, Keeps (g.addrs + beside before after + (chains' + rest)) s₁ s₂ →
          ∀ off, t.addrs = (t.path key : Multiset Nat) + off → Keeps off s s₂ := by
        intro s₂ hk₂ off hadd
        obtain ⟨off', hp', hle⟩ := hgrows.addrs
        have he : off = off' + beside before after := by
          rw [addrs_pick hk, hp', Tree.path, ← Multiset.cons_coe, Multiset.add_cons,
            Multiset.cons_add, Multiset.cons_inj_right, add_assoc] at hadd
          exact (add_left_cancel hadd).symm
        rw [he]
        intro p hp
        rcases Multiset.mem_add.mp hp with hp | hp
        · exact (hoff off' hp' p hp).trans (hk₂ p (by simp [Multiset.mem_of_le hle hp]))
        · exact (hg.keeps p (by simp [hp])).trans (hk₂ p (by simp [hp]))
      by_cases hfit : (t.row.graft key g).seps.length ≤ 3
      · refine Meets.bind ((hg.branchAdd ht hk (hgraft g) hfit).mono
          (mt fun hg => hg.mono (by omega)) fun _ h => h) ?_
        rintro ⟨d, s₂⟩ ⟨hne, hkc, hgrew⟩
        simp only [ne_eq, hne, not_false_eq_true, if_true]
        exact Meets.pure ⟨_, gl, chains', hgrew.mono (by omega),
          hR _ _ _ _ (hkc.mono fun p hp => by simp [hp]) hr, ⟨g, hgrows, rfl, hfit⟩, hkeep _ hkc⟩
      · -- only a branch with three separators can overflow, and only when its child has split
        obtain ⟨left, sep, right, rfl⟩ : ∃ left sep right, g = .two left sep right := by
          cases g with
          | one kid => exact absurd (by rw [Row.length_seps_graft_one]; exact hb.1) hfit
          | two left sep right => exact ⟨left, sep, right, rfl⟩
        have hlen := Row.length_seps_graft_two key sep left right t.row
        have hfull : t.row.seps.length = 3 := by
          have hle : t.row.seps.length ≤ 3 := hb.1
          omega
        have hb₁ : BranchAt s₁.file.data t.addr root 64 (t.row.map Tree.addr) :=
          hbranch.congr (hg.keeps _ (Multiset.mem_cons_self _ _))
        rw [branchAdd_full hb₁ hg.returned (by rwa [Row.seps_map])]
        simp only [Option.bind_some, ne_eq, not_true_eq_false, if_false]
        refine (hg.branchSplit ht hroot hk (hgraft _) hfull).mono
          (mt fun hg => hg.mono (by omega)) ?_
        rintro r ⟨l, r', hj, hcut, hkc, hgrew⟩
        exact ⟨_, gl, chains', hgrew.mono (by omega),
          hR _ _ _ _ (hkc.mono fun p hp => by simp [hp]) hr, ⟨_, hgrows, hj, by omega, hcut⟩,
          hkeep _ hkc⟩

end Adventure

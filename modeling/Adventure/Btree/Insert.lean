import Adventure.Btree.Add
import Adventure.Library.SearchTree.Insert

namespace Adventure

open Memory SearchTree Ends

theorem medianCut_leaf : ∀ j ≤ 3, 0 < medianCut 3 j ∧ medianCut 3 j ≤ 3 := by decide

section Leaf

variable {base : Base} {s : Store} {root : Nat} {chains rest : Multiset Nat} {t : PageTree 0}
  {key val : Nat} {before after : List (Nat × Nat)}

-- What becomes of a leaf that an item is put into, wherever its place there is.
inductive Puts (before after : List (Nat × Nat)) (item : Nat × Nat) :
    Growth (List (Nat × Nat)) Nat → Prop
  | one : (before ++ after).length < 3 → Puts before after item (.one (before ++ item :: after))
  | two (left : List (Nat × Nat)) (first : Nat × Nat) (right : List (Nat × Nat)) :
      (before ++ after).length = 3 → before ++ item :: after = left ++ first :: right →
      left.length = medianCut 3 before.length →
      Puts before after item (.two left first.1 (first :: right))

namespace Puts

variable {item : Nat × Nat} {g : Growth (List (Nat × Nat)) Nat}

theorem flatten_eq (h : Puts before after item g) : g.kids.flatten = before ++ item :: after := by
  cases h with
  | one hroom => simp [Growth.kids]
  | two left first right hfull hj hcut => simp [Growth.kids, hj]

theorem length_le (h : Puts before after item g) : ∀ l ∈ g.kids, l.length ≤ 3 := by
  cases h with
  | one hroom =>
      rw [List.length_append] at hroom
      simp [Growth.kids]
      omega
  | two left first right hfull hj hcut =>
      have hlen := congrArg List.length hj
      simp only [List.length_append, List.length_cons] at hlen hfull
      have hmedian := medianCut_leaf before.length (by omega)
      simp only [Growth.kids, List.forall_mem_cons, List.not_mem_nil, false_implies, implies_true,
        and_true, List.length_cons]
      omega

-- In a leaf in order by `f` this is the insertion of a search tree.
theorem inserts (h : Puts before after item g) (f : Nat × Nat → Nat)
    (hb : ∀ x ∈ before, f x < f item) (ha : ∀ x ∈ after, f item < f x)
    (hfirst : ∀ left first right, before ++ item :: after = left ++ first :: right →
      (before ++ after).length = 3 → left.length = medianCut 3 before.length → first.1 = f first) :
    Inserts f 3 medianCut item (before ++ after) g := by
  cases h with
  | one hroom => exact .one before after hb ha hroom
  | two left first right hfull hj hcut =>
      rw [hfirst left first right hj hfull hcut]
      exact .two before after left first right hb ha hfull hj hcut

end Puts

-- btree_recur_add at a leaf where the search does not stop at an item for the key. Only the split
-- of a full leaf clears bit 63 of a key.
theorem recurAdd_put_meets (hp : Pool base s (t.addrs + (chains + rest)))
    (ht : Holds s.file.data root t) (hroot : IsRootFlag root) (hheld : t.held = before ++ after)
    (hlen : t.held.length ≤ 3)
    (hpos : (before ++ after).findIdx (fun item => decide (key ≤ item.1)) = before.length)
    (hfresh : ∀ item ∈ after.head?, keyGet item.1 ≠ key)
    (hkey : key < 2 ^ 63 ∨ t.held.length = 3) (hval : val < 2 ^ 64) (depth orig : Nat) :
    Meets (btreeRecurAdd (depth + 1) s t.addr key val orig 0) (¬s.Growable (64 * 2))
      fun r => ∃ g : Growth (PageTree 0) Nat, Grew base s root 2 chains rest r g ∧
        Keeps chains s r.2.2.2 ∧ Puts before after (keyGet key, val) (g.map Tree.held) := by
  have hl : LeafAt s.file.data t.addr (BTREE_LEAF ||| root) 64 (before ++ after) := hheld ▸ ht
  have hp' : Pool base s (t.addr ::ₘ (chains + rest)) := by
    rwa [← Multiset.singleton_add, ← Tree.addrs_leaf]
  rw [hheld] at hlen hkey
  simp only [btreeRecurAdd, isLeaf_of_leafAt hl hroot, if_true]
  by_cases hroom : (before ++ after).length < 3
  · have hkey := hkey.resolve_right hroom.ne
    refine Meets.bind ((leafAdd_meets hp' hl hpos hfresh (by omega) hval hroom).mono
      (mt fun hg => hg.mono (by omega)) fun _ h => h) ?_
    rintro ⟨d, s₁⟩ ⟨hne, hp₁, hk₁, hspent, hl₁⟩
    simp only [ne_eq, hne, not_false_eq_true, if_true]
    have hd := hp₁.bounds (p := d) (by simp)
    refine Meets.pure ⟨.one (Tree.leaf d (before ++ (key, val) :: after)),
      ⟨⟨rfl, rfl⟩, ?_, ?_, ?_, hk₁.mono fun p hp => by simp [hp], hspent.mono (by omega)⟩,
      hk₁.mono fun p hp => by simp [hp], ?_⟩
    · simp only [Growth.map, Growth.flat, List.mem_singleton, Tree.addr_leaf, forall_eq]
      omega
    · simp only [Growth.kids, List.mem_singleton, forall_eq]
      exact hl₁
    · simpa [Growth.addrs, Growth.kids] using hp₁
    · rw [keyGet_eq hkey]
      exact .one hroom
  · have hfull : (before ++ after).length = 3 := by omega
    rw [leafAdd_full hl hpos hfresh hfull]
    simp only [Option.bind_eq_bind, Option.bind_some, ne_eq, not_true_eq_false, if_false]
    apply (leafSplit_meets hp' hl hpos hval hfull).mono id
    rintro ⟨m, d, d', s₁⟩ ⟨left, item, right, hp₁, hk₁, hspent, hj, hcut, rfl, hm, hl₁, hl₂⟩
    rw [clearRoot_leaf hroot] at hl₁ hl₂
    have hd := hp₁.bounds (p := d) (by simp)
    have hd' := hp₁.bounds (p := d') (by simp)
    refine ⟨.two (Tree.leaf d left) item.1 (Tree.leaf d' (item :: right)),
      ⟨⟨rfl, rfl, rfl, ?_⟩, ?_, ?_, ?_, hk₁.mono fun p hp => by simp [hp], hspent⟩,
      hk₁.mono fun p hp => by simp [hp], .two left item right hfull hj (hfull ▸ hcut)⟩
    · change d' ≠ 0
      omega
    · simp only [Growth.map, Growth.flat, List.forall_mem_cons, Tree.addr_leaf, List.not_mem_nil,
        false_implies, implies_true, and_true]
      exact ⟨by omega, hm, by omega⟩
    · simp only [Growth.kids, List.forall_mem_cons, List.not_mem_nil, false_implies, implies_true,
        and_true]
      exact ⟨hl₁, hl₂⟩
    · simpa [Growth.addrs, Growth.kids] using hp₁

end Leaf

theorem medianCut_branch : ∀ n i, n ≤ 3 → i ≤ n → medianCut n i ≤ 3 := by
  intro n i hn hi
  unfold medianCut medianLeft
  split <;> split <;> omega

-- The state in which btree_add returns (root, store): `t` has changed into `t'`, and at the leaf
-- for the key into `g`. Pages off the search path are left alone.
structure Added (base : Base) (s : Store) (key pages : Nat) (chains rest : Multiset Nat) {h h' : ℕ}
    (t : PageTree h) (t' : PageTree h') (g : Growth (List (Nat × Nat)) Nat) (r : Nat × Store) :
    Prop where
  root : t'.addr = r.1
  height : h' ≤ h + 1
  pool : Pool base r.2 (t'.addrs + (chains + rest))
  holds : Holds r.2.file.data BTREE_ROOT t'
  items : ∀ removed added : Multiset (Nat × Nat),
    (g.kids.flatten : Multiset (Nat × Nat)) + removed =
      ((t.leafOf key).held : Multiset (Nat × Nat)) + added →
    (t'.items : Multiset (Nat × Nat)) + removed = (t.items : Multiset (Nat × Nat)) + added
  everyLeaf : ∀ P : List (Nat × Nat) → Prop, t.EveryLeaf P → (∀ l ∈ g.kids, P l) → t'.EveryLeaf P
  keeps : Keeps rest s r.2
  spent : Spent s r.2 (64 * pages)
  offPath : ∀ off, t.addrs = (t.path key : Multiset Nat) + off → off ≤ t'.addrs ∧ Keeps off s r.2
  grows : ∃ g', t.Grows (fun l gl => l = (t.leafOf key).held ∧ gl = g) 3 medianCut key g' ∧
    Tree.Topped g' t'

section Root

variable {base : Base} {s : Store} {h : ℕ} {t : PageTree h} {chains rest : Multiset Nat}
  {key val : Nat}

-- The last step of btree_add: a branch page takes the two halves of a root that split.
theorem topped_meets {mid orig split pages : Nat} {g : Growth (PageTree h) Nat} {s₁ : Store}
    (hg : Grew base s BTREE_ROOT pages chains rest (mid, orig, split, s₁) g) :
    Meets (if split ≠ 0 then btreeRootCreate s₁ mid orig split else some (orig, s₁))
      (¬s.Growable (64 * (pages + 1))) fun r => ∃ (h' : ℕ) (t' : PageTree h'), Tree.Topped g t' ∧
        t'.addr = r.1 ∧ Pool base r.2 (t'.addrs + (chains + rest)) ∧
        Keeps (g.addrs + (chains + rest)) s₁ r.2 ∧ Holds r.2.file.data BTREE_ROOT t' ∧
        Spent s r.2 (64 * (pages + 1)) := by
  have hpool := hg.pool
  have hspent := hg.spent
  cases g with
  | one t' =>
      obtain ⟨rfl, rfl⟩ := hg.returned
      rw [if_neg (by simp)]
      refine Meets.pure ⟨h, t', .one, rfl, ?_, Keeps.refl _ _, hg.holds t' (by simp [Growth.kids]),
        hspent.mono (by omega)⟩
      simpa [Growth.addrs, Growth.kids] using hpool
  | two left sep right =>
      obtain ⟨rfl, rfl, rfl, hne⟩ := hg.returned
      rw [if_pos hne]
      apply (rootCreate_meets hpool hg.words).mono hspent.growable
      rintro ⟨d, s₂⟩ ⟨hp₂, hk₂, hspent₂, hb⟩
      have hkids : ∀ kid ∈ [left, right], Holds s₂.file.data 0 kid := fun kid hkid =>
        (hg.holds kid hkid).keeps (hk₂.mono fun p hp => by
          simp [mem_addrs_of_mem_kids (g := .two left mid right) hkid hp])
      refine ⟨h + 1, Tree.branch d (.cons left mid (.last right)), .two left mid right d, rfl, ?_, hk₂,
        ⟨hb, hkids⟩, hspent.trans hspent₂⟩
      simpa [Growth.addrs, Growth.kids, Row.kids] using hp₂

-- The specification of btree_add from what btree_recur_add does at the leaf, in order or not.
theorem btreeAdd_grows {k : Nat} {R : Store → Multiset Nat → Growth (List (Nat × Nat)) Nat → Prop}
    (hR : ∀ s s' chains' gl, Keeps chains' s s' → R s chains' gl → R s' chains' gl)
    (hp : Pool base s (t.addrs + (chains + rest))) (ht : Holds s.file.data BTREE_ROOT t)
    (hb : t.EveryBranch (· ≤ 3))
    (hleaf : ∀ depth orig root rest, Pool base s ((t.leafOf key).addrs + (chains + rest)) →
      Holds s.file.data root (t.leafOf key) → IsRootFlag root →
      Meets (btreeRecurAdd (depth + 1) s (t.leafOf key).addr key val orig 0) (¬s.Growable (64 * k))
        fun r => ∃ (g : Growth (PageTree 0) Nat) (chains' : _), Grew base s root k chains' rest r g ∧
          R r.2.2.2 chains' (g.map Tree.held)) :
    Meets (btreeAdd s t.addr key val) (¬s.Growable (64 * (k + 2 * h + 1))) fun r =>
      ∃ (h' : ℕ) (t' : PageTree h') (g : _) (chains' : _),
        Added base s key (k + 2 * h + 1) chains' rest t t' g r ∧ R r.2 chains' g := by
  have hroot : t.addr ≠ 0 := by
    have := hp.bounds (Multiset.mem_add.mpr (Or.inl t.addr_mem_addrs))
    omega
  have hrecur := recurAdd_meets val 0 chains hR t hp ht hb (Or.inr rfl) (hp.depth_lt t) hleaf
  rw [btreeAdd, if_neg hroot]
  refine Meets.bind (hrecur.mono (mt fun hg => hg.mono (by omega)) fun _ h => h) ?_
  rintro ⟨mid, orig, split, s₁⟩ ⟨g, gl, chains', hg, hr, hgrows, hoff⟩
  apply (topped_meets hg).mono id
  rintro r ⟨h', t', htop, hroot', hp', hk', hholds, hspent⟩
  refine ⟨h', t', gl, chains', ⟨hroot', htop.height_le, hp', hholds, ?_, ?_, ?_, hspent, ?_, g, hgrows,
    htop⟩, hR _ _ _ _ (hk'.mono fun p hp => by simp [hp]) hr⟩
  · intro removed added he
    rw [htop.items]
    exact hgrows.items fun l gl' hl => by rw [hl.1, hl.2, he]
  · intro P hP hl
    refine htop.everyLeaf (hgrows.everyLeaf (fun l gl' _ he l' hl' => hl l' ?_) hP)
    rwa [← he.2]
  · exact hg.keeps.trans (hk'.mono fun p hp => by simp [hp])
  · intro off he
    obtain ⟨off', he', hle⟩ := hgrows.addrs
    rw [add_left_cancel (he'.symm.trans he)] at hle
    exact ⟨hle.trans htop.addrs_le,
      (hoff off he).trans (hk'.mono fun p hp => by simp [Multiset.mem_of_le hle hp])⟩

-- A step that keeps leaves in order keeps the tree in order.
theorem Added.wellFormed {f : Nat × Nat → Nat} {pages : Nat}
    {step : List (Nat × Nat) → Growth (List (Nat × Nat)) Nat → Prop} (hs : LeafStep f 3 key step)
    {h' : ℕ} {t' : PageTree h'} {g : Growth (List (Nat × Nat)) Nat} {r : Nat × Store}
    (hr : Added base s key pages chains rest t t' g r) (hw : t.WellFormed f 3 3)
    (hg : step (t.leafOf key).held g) : t'.WellFormed f 3 3 := by
  obtain ⟨g', hgrows, htop⟩ := hr.grows
  have hgrows' : t.Grows step 3 medianCut key g' := hgrows.mono fun l gl he => by
    rw [he.1, he.2]
    exact hg
  exact hw.topped hs medianCut_branch (by decide) hgrows' htop

end Root

-- A tree of the store: written out under its root page, well formed, and holding `added`.
structure Rooted (s : Store) {h : ℕ} (t : PageTree h) (added : Multiset (Nat × Nat)) : Prop where
  holds : Holds s.file.data BTREE_ROOT t
  wellFormed : t.WellFormed Prod.fst 3 3
  items : (t.items : Multiset (Nat × Nat)) = added

section Tree

variable {base : Base} {s : Store} {h : ℕ} {t : PageTree h} {added : Multiset (Nat × Nat)}
  {rest : Multiset Nat} {key val : Nat}

-- The specification of btree_add for a key that the tree does not have.
theorem btreeAdd_meets (hp : Pool base s (t.addrs + rest)) (ht : Rooted s t added)
    (hkeys : ∀ x ∈ added, x.1 < 2 ^ 63) (hfresh : ∀ x ∈ added, x.1 ≠ key) (hkey : key < 2 ^ 63)
    (hval : val < 2 ^ 64) :
    Meets (btreeAdd s t.addr key val) (¬s.Growable (64 * (2 * h + 3))) fun r =>
      ∃ (h' : ℕ) (t' : PageTree h'), t'.addr = r.1 ∧ h' ≤ h + 1 ∧ Pool base r.2 (t'.addrs + rest) ∧
        Rooted r.2 t' ((key, val) ::ₘ added) ∧ Keeps rest s r.2 ∧
        Spent s r.2 (64 * (2 * h + 3)) ∧
        (∀ off, t.addrs = (t.path key : Multiset Nat) + off → off ≤ t'.addrs ∧ Keeps off s r.2) ∧
        ∃ g, t.Grows (Inserts Prod.fst 3 medianCut (key, val)) 3 medianCut key g ∧ Tree.Topped g t' := by
  obtain ⟨before, after, hheld, hb, ha⟩ := exists_cut key (ht.wellFormed.ordered.leafOf key)
  have hleaf : ∀ x ∈ (t.leafOf key).held, x.1 ≠ key ∧ x.1 < 2 ^ 63 := by
    intro x hx
    have hm : x ∈ added := ht.items ▸ Multiset.mem_coe.mpr (Tree.leafOf_held_subset key t hx)
    exact ⟨hfresh x hm, hkeys x hm⟩
  have hlen : (t.leafOf key).held.length ≤ 3 := ht.wellFormed.leaves.leafOf key
  rw [hheld] at hleaf
  have ha' : ∀ x ∈ after, key < x.1 := fun x hx =>
    lt_of_le_of_ne (ha x hx) (hleaf x (by simp [hx])).1.symm
  have hhead : ∀ x ∈ after.head?, keyGet x.1 ≠ key := fun x hx => by
    have hx := hleaf x (List.mem_append_right _ (List.mem_of_mem_head? hx))
    rw [keyGet_eq hx.2]
    exact hx.1
  have hadd := btreeAdd_grows (k := 2) (R := fun _ chains gl => chains = 0 ∧
      Puts before after (keyGet key, val) gl) (fun _ _ _ _ _ h => h)
    (show Pool base s (t.addrs + (0 + rest)) by rwa [zero_add]) ht.holds ht.wellFormed.branches
    fun depth orig root rest hp' ht' hroot' => (recurAdd_put_meets hp' ht' hroot' hheld hlen
      (findIdx_eq_length hb ha) hhead (Or.inl hkey) hval depth orig).mono id
        fun r ⟨g, hg, _, hputs⟩ => ⟨g, 0, hg, rfl, hputs⟩
  refine hadd.mono (mt fun hg => hg.mono (by omega)) ?_
  rintro r ⟨h', t', g, chains, hr, rfl, hputs⟩
  rw [keyGet_eq hkey] at hputs
  have hi : Inserts Prod.fst 3 medianCut (key, val) (t.leafOf key).held g := by
    rw [hheld]
    exact hputs.inserts Prod.fst hb ha' fun _ _ _ _ _ _ => rfl
  have hpool := hr.pool
  rw [zero_add] at hpool
  have hitems := hr.items _ _ hi.items
  rw [add_zero, ht.items, add_comm, Multiset.singleton_add] at hitems
  have hw := hr.wellFormed (Inserts.leafStep medianCut_leaf) ht.wellFormed hi
  obtain ⟨g', hgrows, htop⟩ := hr.grows
  exact ⟨h', t', hr.root, hr.height, hpool, ⟨hr.holds, hw, hitems⟩, hr.keeps,
    hr.spent.mono (by omega), hr.offPath, g', hgrows.mono fun l gl he => he.1 ▸ he.2 ▸ hi, htop⟩

end Tree

end Adventure

import Adventure.Library.SearchTree.Grow

namespace SearchTree

variable {ι κ : Type} [LinearOrder κ]

-- What a change at a leaf must leave for the tree to stay well formed: leaves in order, with items
-- in them and not too many.
structure LeafStep (key : ι → κ) (cap : ℕ) (q : κ) (step : List ι → Growth (List ι) κ → Prop) :
    Prop where
  inOrder : ∀ l g, (l.map key).Pairwise (· < ·) → step l g →
    g.InOrder (List.map key) (fun l => (l.map key).Pairwise (· < ·)) q (l.map key)
  ne_nil : ∀ l g, step l g → ∀ kid ∈ g.kids, kid ≠ []
  length_le : ∀ l g, l.length ≤ cap → step l g → ∀ kid ∈ g.kids, kid.length ≤ cap

-- An item is replaced by one with the same key.
inductive Replaces (key : ι → κ) (old new : ι) : List ι → Growth (List ι) κ → Prop
  | one (before after : List ι) : key new = key old →
      Replaces key old new (before ++ old :: after) (.one (before ++ new :: after))

-- What the insertion of a new key does at its leaf, which can hold `cap` items. A full leaf is cut
-- in two, and the first key of the right half separates the halves.
inductive Inserts (key : ι → κ) (cap : ℕ) (cut : ℕ → ℕ → ℕ) (item : ι) :
    List ι → Growth (List ι) κ → Prop
  | one (before after : List ι) :
      (∀ x ∈ before, key x < key item) → (∀ x ∈ after, key item < key x) →
      (before ++ after).length < cap →
      Inserts key cap cut item (before ++ after) (.one (before ++ item :: after))
  | two (before after left : List ι) (first : ι) (rest : List ι) :
      (∀ x ∈ before, key x < key item) → (∀ x ∈ after, key item < key x) →
      (before ++ after).length = cap → before ++ item :: after = left ++ first :: rest →
      left.length = cut cap before.length →
      Inserts key cap cut item (before ++ after) (.two left (key first) (first :: rest))

namespace Inserts

variable {key : ι → κ} {cap : ℕ} {cut : ℕ → ℕ → ℕ} {item : ι} {l : List ι} {g : Growth (List ι) κ}

theorem flatten_eq (h : Inserts key cap cut item l g) : ∃ before after,
    l = before ++ after ∧ g.kids.flatten = before ++ item :: after ∧
      (∀ x ∈ before, key x < key item) ∧ ∀ x ∈ after, key item < key x := by
  cases h with
  | one before after hb ha hlt => exact ⟨before, after, rfl, by simp [Growth.kids], hb, ha⟩
  | two before after left first rest hb ha hlt heq hcut =>
      exact ⟨before, after, rfl, by simp [Growth.kids, heq], hb, ha⟩

-- The new item comes to those there were.
theorem items (h : Inserts key cap cut item l g) :
    (g.kids.flatten : Multiset ι) + 0 = (l : Multiset ι) + {item} := by
  obtain ⟨before, after, rfl, hf, -, -⟩ := h.flatten_eq
  rw [hf, add_zero, ← Multiset.coe_singleton, Multiset.coe_add, Multiset.coe_eq_coe]
  exact List.perm_middle.trans (List.perm_append_singleton item _).symm

theorem leaf (hcut : ∀ j ≤ cap, 0 < cut cap j ∧ cut cap j ≤ cap) (h : Inserts key cap cut item l g) :
    ∀ kid ∈ g.kids, kid ≠ [] ∧ kid.length ≤ cap := by
  cases h with
  | one before after hb ha hlt =>
      rw [List.length_append] at hlt
      simp [Growth.kids]
      omega
  | two before after left first rest hb ha hlen heq hl =>
      have hc := hcut before.length (by rw [← hlen, List.length_append]; omega)
      have hcount := congrArg List.length heq
      simp only [List.length_append, List.length_cons] at hcount hlen
      simp only [Growth.kids, List.forall_mem_cons, List.not_mem_nil, false_implies, implies_true,
        and_true, ← List.length_pos_iff_ne_nil, List.length_cons]
      omega

theorem two_inv {left right : List ι} {mid : κ}
    (h : Inserts key cap cut item l (.two left mid right)) :
    ∃ first rest, right = first :: rest ∧ mid = key first := by
  cases h with
  | two before after left first rest hb ha hlen heq hcut => exact ⟨first, rest, rfl, rfl⟩

theorem inOrder (hcut : ∀ j ≤ cap, 0 < cut cap j ∧ cut cap j ≤ cap)
    (hl : (l.map key).Pairwise (· < ·)) (h : Inserts key cap cut item l g) :
    g.InOrder (List.map key) (fun l => (l.map key).Pairwise (· < ·)) (key item) (l.map key) := by
  obtain ⟨before, after, rfl, hf, hb, ha⟩ := h.flatten_eq
  have hsorted : (g.kids.flatten.map key).Pairwise (· < ·) := by
    rw [hf, List.map_append, List.map_cons, List.pairwise_append, List.pairwise_cons]
    rw [List.map_append, List.pairwise_append] at hl
    simp only [List.forall_mem_map, List.forall_mem_cons] at hl ⊢
    exact ⟨hl.1, ⟨ha, hl.2.1⟩, fun x hx => ⟨hb x hx, hl.2.2 x hx⟩⟩
  refine ⟨fun kid hkid => ?_, fun kid hkid x hx => ?_, fun kid hkid => ?_, ?_⟩
  · exact hsorted.sublist ((List.sublist_flatten_of_mem hkid).map key)
  · obtain ⟨y, hy, rfl⟩ := List.mem_map.mp hx
    have hm : y ∈ g.kids.flatten := List.mem_flatten.mpr ⟨kid, hkid, hy⟩
    rw [hf] at hm
    simp only [List.mem_append, List.mem_cons] at hm
    rcases hm with hm | rfl | hm
    · exact Or.inl (List.mem_map_of_mem (by simp [hm]))
    · exact Or.inr rfl
    · exact Or.inl (List.mem_map_of_mem (by simp [hm]))
  · simpa using (h.leaf hcut kid hkid).1
  · rintro left mid right rfl
    obtain ⟨first, rest, rfl, rfl⟩ := h.two_inv
    simp only [Growth.kids, List.flatten_cons, List.flatten_nil, List.append_nil,
      List.map_append, List.map_cons, List.pairwise_append, List.pairwise_cons] at hsorted
    refine ⟨fun x hx => hsorted.2.2 x hx _ (by simp), ?_⟩
    simp only [List.map_cons, List.forall_mem_cons]
    exact ⟨le_rfl, fun x hx => (hsorted.2.1.1 x hx).le⟩

theorem leafStep (hcut : ∀ j ≤ cap, 0 < cut cap j ∧ cut cap j ≤ cap) :
    LeafStep key cap (key item) (Inserts key cap cut item) where
  inOrder _ _ hl h := h.inOrder hcut hl
  ne_nil _ _ h kid hkid := (h.leaf hcut kid hkid).1
  length_le _ _ _ h kid hkid := (h.leaf hcut kid hkid).2

end Inserts

namespace Replaces

variable {key : ι → κ} {cap : ℕ} {old new : ι} {l : List ι} {g : Growth (List ι) κ}

omit [LinearOrder κ] in
theorem items (h : Replaces key old new l g) :
    (g.kids.flatten : Multiset ι) + {old} = (l : Multiset ι) + {new} := by
  cases h with
  | one before after hkey =>
      simp only [Growth.kids, List.flatten_cons, List.flatten_nil, List.append_nil,
        ← Multiset.coe_add, ← Multiset.cons_coe, ← Multiset.singleton_add]
      abel

theorem leafStep : LeafStep key cap (key old) fun l g => ∃ new, Replaces key old new l g where
  inOrder l g hl h := by
    obtain ⟨new, h⟩ := h
    cases h with
    | one before after hkey =>
        have hmap : (before ++ new :: after).map key = (before ++ old :: after).map key := by
          simp [hkey]
        refine ⟨?_, ?_, ?_, by simp⟩
        · simp only [Growth.kids, List.mem_singleton, forall_eq, hmap]
          exact hl
        · simp only [Growth.kids, List.mem_singleton, forall_eq, hmap]
          exact fun x hx => Or.inl hx
        · simp [Growth.kids]
  ne_nil l g h := by
    obtain ⟨new, h⟩ := h
    cases h with
    | one before after hkey => simp [Growth.kids]
  length_le l g hl h := by
    obtain ⟨new, h⟩ := h
    cases h with
    | one before after hkey => simpa [Growth.kids] using hl

end Replaces

namespace Tree

variable {α : Type} {h : ℕ}

-- The invariant of a search tree whose leaves hold at most `cap` items and whose branches hold at
-- most `cap'` separators. Only a tree that is a single leaf may be empty.
structure WellFormed (key : ι → κ) (cap cap' : ℕ) (t : Tree α ι κ h) : Prop where
  ordered : t.Ordered key
  leaves : t.EveryLeaf (·.length ≤ cap)
  branches : t.EveryBranch (· ≤ cap')
  filled : h = 0 ∨ t.EveryLeaf (· ≠ [])

variable {key : ι → κ} {cap cap' : ℕ} {cut : ℕ → ℕ → ℕ} {q : κ} {t : Tree α ι κ h}
  {step : List ι → Growth (List ι) κ → Prop}

theorem WellFormed.leaf_empty (p : α) : (leaf p [] : Tree α ι κ 0).WellFormed key cap cap' :=
  ⟨List.Pairwise.nil, Nat.zero_le _, trivial, Or.inl rfl⟩

section WellFormed

variable (hstep : LeafStep key cap q step) (hcut : ∀ n i, n ≤ cap' → i ≤ n → cut n i ≤ cap')

include hstep hcut

-- Every tree that comes out of a change is well formed and not empty.
theorem WellFormed.grows (ht : t.WellFormed key cap cap') {g : Growth (Tree α ι κ h) κ}
    (hg : t.Grows step cap' cut q g) :
    ∀ kid ∈ g.kids, kid.WellFormed key cap cap' ∧ kid.EveryLeaf (· ≠ []) := by
  have ho := hg.inOrder hstep.inOrder ht.ordered ht.filled
  have hl := hg.everyLeaf hstep.length_le ht.leaves
  have hb := hg.everyBranch hcut ht.branches
  have hne : ∀ kid ∈ g.kids, kid.EveryLeaf (· ≠ []) := by
    rcases ht.filled with rfl | hf
    · intro kid hkid
      exact hstep.ne_nil _ _ hg _ (by rw [Growth.kids_map]; exact List.mem_map_of_mem hkid)
    · exact hg.everyLeaf (fun l g _ hi => hstep.ne_nil l g hi) hf
  exact fun kid hkid =>
    ⟨⟨ho.ok kid hkid, hl kid hkid, hb kid hkid, Or.inr (hne kid hkid)⟩, hne kid hkid⟩

-- A new root over a tree that came out in two.
theorem WellFormed.root (ht : t.WellFormed key cap cap') {left right : Tree α ι κ h} {mid : κ}
    (hg : t.Grows step cap' cut q (.two left mid right)) (hcap : 0 < cap') (p : α) :
    (branch p (.cons left mid (.last right))).WellFormed key cap cap' := by
  have ho := hg.inOrder hstep.inOrder ht.ordered ht.filled
  obtain ⟨hl, hr⟩ := ho.two left mid right rfl
  have hk := ht.grows hstep hcut hg
  simp only [Growth.kids, List.forall_mem_cons, List.not_mem_nil, false_implies, implies_true,
    and_true] at hk
  obtain ⟨⟨hwl, hnl⟩, hwr, hnr⟩ := hk
  refine ⟨⟨⟨hl, ?_, trivial⟩, ?_⟩, ?_, ⟨hcap, ?_⟩, Or.inr ?_⟩
  · simpa [Row.kids] using hr
  · simpa [Row.kids] using ⟨hwl.ordered, hwr.ordered⟩
  · simpa [Row.kids] using ⟨hwl.leaves, hwr.leaves⟩
  · simpa [Row.kids] using ⟨hwl.branches, hwr.branches⟩
  · simpa [Row.kids] using ⟨hnl, hnr⟩

theorem WellFormed.topped (ht : t.WellFormed key cap cap') (hcap : 0 < cap')
    {g : Growth (Tree α ι κ h) κ} (hg : t.Grows step cap' cut q g) {h' : ℕ} {t' : Tree α ι κ h'}
    (htop : Topped g t') : t'.WellFormed key cap cap' := by
  cases htop with
  | one => exact (ht.grows hstep hcut hg _ (List.mem_singleton_self _)).1
  | two left mid right p => exact ht.root hstep hcut hg hcap p

end WellFormed

end Tree

end SearchTree

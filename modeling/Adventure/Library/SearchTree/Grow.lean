import Adventure.Library.SearchTree

namespace SearchTree

open Row

variable {α ι κ : Type} {h : ℕ} [LinearOrder κ]

namespace Tree

-- What a branch makes of a row that may have become too long for it: the row itself, or two rows
-- around a separator, the left one with `cut` separators.
def Divides {σ : Type} (cap cut : ℕ) (row : Row σ κ) : Growth (Row σ κ) κ → Prop
  | .one row' => row' = row ∧ row.seps.length ≤ cap
  | .two left mid right => row = left.join mid right ∧ cap < row.seps.length ∧
      left.seps.length = cut

-- An insertion at `q`: `step` happens at the leaf, and on the way back each branch takes in what
-- its child grew into. `cut` is computed from the number of separators and the child's position.
def Grows (step : List ι → Growth (List ι) κ → Prop) (cap : ℕ) (cut : ℕ → ℕ → ℕ) (q : κ) :
    {h : ℕ} → Tree α ι κ h → Growth (Tree α ι κ h) κ → Prop
  | 0, t, g => step (held t) (g.map held)
  | _ + 1, t, g => ∃ g', Grows step cap cut q ((row t).pick q) g' ∧
      Divides cap (cut (row t).seps.length ((row t).index q)) ((row t).graft q g') (g.map row)

-- The tree after an insertion: what came out, or a new root over the two halves.
inductive Topped {h : ℕ} : Growth (Tree α ι κ h) κ → {h' : ℕ} → Tree α ι κ h' → Prop
  | one {t : Tree α ι κ h} : Topped (.one t) t
  | two (left : Tree α ι κ h) (mid : κ) (right : Tree α ι κ h) (p : α) :
      Topped (.two left mid right) (branch p (.cons left mid (.last right)))

end Tree

end SearchTree

namespace Growth

open SearchTree

variable {α ι κ : Type} {h : ℕ}

-- The items and the addresses of all trees that an insertion leaves.
def items (g : Growth (Tree α ι κ h) κ) : List ι := g.kids.flatMap Tree.items

def addrs (g : Growth (Tree α ι κ h) κ) : Multiset α := (g.kids.map Tree.addrs).sum

-- What an insertion of `q` must leave for the levels above to stay in order: `keys` are those of
-- one child, `ok` is its own invariant and `old` are the keys before.
structure InOrder {σ : Type} [LinearOrder κ] (keys : σ → List κ) (ok : σ → Prop) (q : κ)
    (old : List κ) (g : Growth σ κ) : Prop where
  ok : ∀ kid ∈ g.kids, ok kid
  keys_of : ∀ kid ∈ g.kids, ∀ x ∈ keys kid, x ∈ old ∨ x = q
  ne_nil : ∀ kid ∈ g.kids, keys kid ≠ []
  two : ∀ left mid right, g = .two left mid right →
    (∀ x ∈ keys left, x < mid) ∧ ∀ x ∈ keys right, mid ≤ x

@[simp] theorem kids_map {σ τ : Type} (f : σ → τ) (g : Growth σ κ) :
    (g.map f).kids = g.kids.map f := by
  cases g <;> rfl

end Growth

namespace SearchTree

namespace Tree

open Row

variable {α ι κ : Type} {h : ℕ}

section Topped

variable {g : Growth (Tree α ι κ h) κ} {h' : ℕ} {t : Tree α ι κ h'}

theorem Topped.everyBranch_iff {Q : ℕ → Prop} (hone : Q 1) (hg : Topped g t) :
    t.EveryBranch Q ↔ ∀ kid ∈ g.kids, kid.EveryBranch Q := by
  cases hg with
  | one => simp [Growth.kids]
  | two left mid right p => simp [Growth.kids, Row.kids, Row.seps, hone]

theorem Topped.everyLeaf {P : List ι → Prop} (hg : Topped g t) (h : ∀ kid ∈ g.kids, kid.EveryLeaf P) :
    t.EveryLeaf P := by
  cases hg with
  | one => exact h _ (by simp [Growth.kids])
  | two left mid right p => simpa [Growth.kids, Row.kids] using h

theorem Topped.items (hg : Topped g t) : t.items = g.items := by
  cases hg with
  | one => simp [Growth.items, Growth.kids]
  | two left mid right p => simp [Growth.items, Growth.kids, Row.kids]

theorem Topped.addrs_le (hg : Topped g t) : g.addrs ≤ t.addrs := by
  cases hg with
  | one => simp [Growth.addrs, Growth.kids]
  | two left mid right p =>
      simpa [Growth.addrs, Growth.kids, Row.kids] using Multiset.le_cons_self _ p

theorem Topped.height_le (hg : Topped g t) : h' ≤ h + 1 := by
  cases hg with
  | one => exact Nat.le_succ h
  | two => exact le_rfl

end Topped

-- The kids of the rows that come out of a branch are those of the row that went in.
theorem Divides.kids {σ : Type} {cap n : ℕ} {row : Row σ κ} {g : Growth (Row σ κ) κ}
    (hd : Divides cap n row g) : g.kids.flatMap Row.kids = row.kids := by
  cases g with
  | one row' =>
      obtain ⟨rfl, -⟩ := hd
      simp [Growth.kids]
  | two left mid right =>
      obtain ⟨rfl, -, -⟩ := hd
      simp [Growth.kids]

theorem Divides.length_le {σ : Type} {cap n : ℕ} {row : Row σ κ} {g : Growth (Row σ κ) κ}
    (hd : Divides cap n row g) (hrow : row.seps.length ≤ cap + 1) (hn : n ≤ cap) :
    ∀ row' ∈ g.kids, row'.seps.length ≤ cap := by
  cases g with
  | one row' =>
      obtain ⟨rfl, hle⟩ := hd
      simpa [Growth.kids] using hle
  | two left mid right =>
      obtain ⟨rfl, -, hl⟩ := hd
      simp only [seps_join, List.length_append, List.length_cons] at hrow
      simp only [Growth.kids, List.forall_mem_cons, List.not_mem_nil, false_implies, implies_true,
        and_true]
      omega

variable [LinearOrder κ] {step : List ι → Growth (List ι) κ → Prop} {cap : ℕ} {cut : ℕ → ℕ → ℕ}
  {q : κ}

-- The rows that come out of a branch are in order by themselves and around the separator.
theorem Divides.ordered {σ : Type} {keys : σ → List κ} {n : ℕ} {row : Row σ κ} {g : Growth (Row σ κ) κ}
    (hd : Divides cap n row g) (hrow : row.Ordered keys)
    (hne : ∀ row' ∈ g.kids, ∀ kid ∈ row'.kids, keys kid ≠ []) :
    (∀ row' ∈ g.kids, row'.Ordered keys) ∧ ∀ left mid right, g = .two left mid right →
      (∀ kid ∈ left.kids, ∀ x ∈ keys kid, x < mid) ∧ ∀ kid ∈ right.kids, ∀ x ∈ keys kid, mid ≤ x := by
  cases g with
  | one row' =>
      obtain ⟨rfl, -⟩ := hd
      refine ⟨fun row hm => ?_, fun left mid right he => by cases he⟩
      rw [List.mem_singleton.mp hm]
      exact hrow
  | two left mid right =>
      obtain ⟨rfl, -, -⟩ := hd
      obtain ⟨hl, hr, hlm, hmr⟩ := hrow.join_inv (hne left (by simp [Growth.kids]))
      refine ⟨?_, ?_⟩
      · simp only [Growth.kids, List.forall_mem_cons, List.not_mem_nil, false_implies, implies_true,
          and_true]
        exact ⟨hl, hr⟩
      · rintro left' mid' right' ⟨⟩
        exact ⟨hlm, hmr⟩

-- One level of an insertion, seen as a list of subtrees: those of the picked child are replaced
-- by what it grew into.
theorem Grows.kids {t : Tree α ι κ (h + 1)} {g : Growth (Tree α ι κ (h + 1)) κ}
    (hg : t.Grows step cap cut q g) : ∃ g' before after,
      (t.row.pick q).Grows step cap cut q g' ∧ t.row.kids = before ++ t.row.pick q :: after ∧
      g.kids.flatMap (fun kid => kid.row.kids) = before ++ g'.kids ++ after := by
  obtain ⟨g', hg', hd⟩ := hg
  obtain ⟨before, after, hk, hgraft⟩ := kids_graft q t.row
  have hkids := hd.kids
  rw [hgraft, Growth.kids_map, List.flatMap_map] at hkids
  exact ⟨g', before, after, hg', hk, hkids⟩

theorem Grows.mono {step' : List ι → Growth (List ι) κ → Prop} (hstep : ∀ l g, step l g → step' l g)
    {t : Tree α ι κ h} {g : Growth (Tree α ι κ h) κ} (hg : t.Grows step cap cut q g) :
    t.Grows step' cap cut q g := by
  induction h with
  | zero => exact hstep _ _ hg
  | succ h ih =>
      obtain ⟨g', hg', hd⟩ := hg
      exact ⟨g', ih hg', hd⟩

-- Items come and go at the leaf only.
theorem Grows.items {removed added : Multiset ι}
    (hstep : ∀ l g, step l g →
      (g.kids.flatten : Multiset ι) + removed = (l : Multiset ι) + added)
    {t : Tree α ι κ h} {g : Growth (Tree α ι κ h) κ} (hg : t.Grows step cap cut q g) :
    (g.items : Multiset ι) + removed = (t.items : Multiset ι) + added := by
  induction h with
  | zero =>
      have hs := hstep _ _ hg
      rw [Growth.kids_map] at hs
      rwa [Growth.items, items_leaf, List.flatMap]
  | succ h ih =>
      obtain ⟨g', before, after, hg', hk, hkids⟩ := hg.kids
      have hi := ih hg'
      have hout : g.items = (before ++ g'.kids ++ after).flatMap Tree.items := by
        rw [← hkids, Growth.items, List.flatMap_assoc]
        rfl
      rw [hout, items_row, hk]
      simp only [List.flatMap_append, List.flatMap_cons, ← Multiset.coe_add]
      unfold Growth.items at hi
      calc _ = (before.flatMap Tree.items : Multiset ι) + (after.flatMap Tree.items : Multiset ι) +
            ((g'.kids.flatMap Tree.items : Multiset ι) + removed) := by abel
        _ = _ := by rw [hi]; abel

-- The nodes off the search path stay in the tree.
theorem Grows.addrs {t : Tree α ι κ h} {g : Growth (Tree α ι κ h) κ}
    (hg : t.Grows step cap cut q g) :
    ∃ rest, t.addrs = (t.path q : Multiset α) + rest ∧ rest ≤ g.addrs := by
  induction h with
  | zero => exact ⟨0, rfl, Multiset.zero_le _⟩
  | succ h ih =>
      obtain ⟨g', before, after, hg', hk, hkids⟩ := hg.kids
      obtain ⟨rest, hp, hle⟩ := ih hg'
      refine ⟨(before.map Tree.addrs).sum + (after.map Tree.addrs).sum + rest, ?_, ?_⟩
      · rw [addrs_row, hk]
        simp only [List.map_append, List.map_cons, List.sum_append, List.sum_cons, hp, path]
        rw [← Multiset.cons_coe, Multiset.cons_add]
        congr 1
        abel
      · -- every tree that comes out has at least the addresses of its kids
        have hall : ((g.kids.flatMap fun kid => kid.row.kids).map Tree.addrs).sum ≤ g.addrs := by
          rw [Growth.addrs, List.map_flatMap]
          induction g.kids with
          | nil => simp
          | cons kid kids ihk =>
              simp only [List.flatMap_cons, List.sum_append, List.map_cons, List.sum_cons]
              exact add_le_add (Multiset.le_cons_self _ _) ihk
        refine le_trans ?_ hall
        rw [hkids]
        simp only [List.map_append, List.sum_append]
        calc _ ≤ (before.map Tree.addrs).sum + (after.map Tree.addrs).sum + g'.addrs :=
              add_le_add_right hle _
          _ = _ := by rw [Growth.addrs]; abel

-- A property of all children of the old row and of the grown child holds of all new children.
theorem Grows.forall_kids {P : Tree α ι κ h → Prop} {t : Tree α ι κ (h + 1)}
    {g : Growth (Tree α ι κ (h + 1)) κ} (hg : t.Grows step cap cut q g)
    (ht : ∀ kid ∈ t.row.kids, P kid)
    (hp : ∀ g', (t.row.pick q).Grows step cap cut q g' → ∀ kid ∈ g'.kids, P kid) :
    ∀ kid ∈ g.kids, ∀ kid' ∈ kid.row.kids, P kid' := by
  obtain ⟨g', before, after, hg', hk, hkids⟩ := hg.kids
  intro kid hkid kid' hkid'
  have hm : kid' ∈ before ++ g'.kids ++ after := hkids ▸ List.mem_flatMap.mpr ⟨kid, hkid, hkid'⟩
  rw [hk] at ht
  simp only [List.mem_append, List.mem_cons] at hm ht
  rcases hm with (hm | hm) | hm
  · exact ht _ (Or.inl hm)
  · exact hp g' hg' _ hm
  · exact ht _ (Or.inr (Or.inr hm))

theorem Grows.everyLeaf {P : List ι → Prop}
    (hstep : ∀ l g, P l → step l g → ∀ l' ∈ g.kids, P l')
    {t : Tree α ι κ h} {g : Growth (Tree α ι κ h) κ} (ht : t.EveryLeaf P)
    (hg : t.Grows step cap cut q g) : ∀ kid ∈ g.kids, kid.EveryLeaf P := by
  induction h with
  | zero =>
      intro kid hkid
      exact hstep _ _ ht hg _ (by rw [Growth.kids_map]; exact List.mem_map_of_mem hkid)
  | succ h ih => exact hg.forall_kids ht fun g' hg' => ih (ht _ (pick_mem q _)) hg'

theorem Grows.everyBranch (hcut : ∀ n i, n ≤ cap → i ≤ n → cut n i ≤ cap)
    {t : Tree α ι κ h} {g : Growth (Tree α ι κ h) κ} (ht : t.EveryBranch (· ≤ cap))
    (hg : t.Grows step cap cut q g) : ∀ kid ∈ g.kids, kid.EveryBranch (· ≤ cap) := by
  induction h with
  | zero => exact fun _ _ => trivial
  | succ h ih =>
      intro kid hkid
      refine ⟨?_, hg.forall_kids ht.2 (fun g' hg' => ih (ht.2 _ (pick_mem q _)) hg') kid hkid⟩
      obtain ⟨g', -, hd⟩ := hg
      refine hd.length_le ?_ (hcut _ _ ht.1 (index_le q _)) _
        (by rw [Growth.kids_map]; exact List.mem_map_of_mem hkid)
      have hlen := ht.1
      cases g' with
      | one kid' => rw [length_seps_graft_one]; omega
      | two left mid right => rw [length_seps_graft_two]; omega

-- Order is restored at every level, provided that no leaf of a taller tree is empty.
theorem Grows.inOrder {key : ι → κ}
    (hstep : ∀ l g, (l.map key).Pairwise (· < ·) → step l g →
      g.InOrder (List.map key) (fun l => (l.map key).Pairwise (· < ·)) q (l.map key))
    {t : Tree α ι κ h} {g : Growth (Tree α ι κ h) κ} (ht : t.Ordered key)
    (hne : h = 0 ∨ t.EveryLeaf (· ≠ [])) (hg : t.Grows step cap cut q g) :
    g.InOrder (Tree.keys key) (Ordered key) q (t.keys key) := by
  induction h with
  | zero =>
      have hs := hstep _ _ ht hg
      refine ⟨fun kid hkid => hs.ok kid.held ?_, fun kid hkid => hs.keys_of kid.held ?_,
        fun kid hkid => hs.ne_nil kid.held ?_, ?_⟩
      · rw [Growth.kids_map]; exact List.mem_map_of_mem hkid
      · rw [Growth.kids_map]; exact List.mem_map_of_mem hkid
      · rw [Growth.kids_map]; exact List.mem_map_of_mem hkid
      · rintro left mid right rfl
        exact hs.two _ _ _ rfl
  | succ h ih =>
      have hne' : t.EveryLeaf (· ≠ []) := hne.resolve_left (by omega)
      have hpick := pick_mem q t.row
      have hi := fun g' => ih (ht.2 _ hpick) (g := g') (Or.inr (hne' _ hpick))
      have hkids : ∀ kid ∈ g.kids, ∀ kid' ∈ kid.row.kids, kid'.Ordered key ∧
          kid'.keys key ≠ [] ∧ ∀ x ∈ kid'.keys key, x ∈ t.keys key ∨ x = q := by
        apply hg.forall_kids (P := fun kid' => kid'.Ordered key ∧ kid'.keys key ≠ [] ∧
          ∀ x ∈ kid'.keys key, x ∈ t.keys key ∨ x = q)
        · refine fun kid hkid => ⟨ht.2 kid hkid, ?_, fun x hx => Or.inl ?_⟩
          · simpa [Tree.keys] using (hne' kid hkid).items_ne_nil
          · exact (mem_keys_row key t x).mpr ⟨kid, hkid, hx⟩
        · refine fun g' hg' kid hkid => ⟨(hi g' hg').ok kid hkid, (hi g' hg').ne_nil kid hkid,
            fun x hx => ?_⟩
          refine ((hi g' hg').keys_of kid hkid x hx).imp_left fun hm => ?_
          exact (mem_keys_row key t x).mpr ⟨_, hpick, hm⟩
      obtain ⟨g', hg', hd⟩ := hg
      have hrow : (t.row.graft q g').Ordered (Tree.keys key) :=
        Row.Ordered.graft ht.1 (hi g' hg').keys_of fun left mid right he =>
          ⟨((hi g' hg').two left mid right he).1, ((hi g' hg').two left mid right he).2,
            (hi g' hg').ne_nil right (by simp [he, Growth.kids])⟩
      have hmem : ∀ kid ∈ g.kids, kid.row ∈ (g.map row).kids := fun kid hkid => by
        rw [Growth.kids_map]
        exact List.mem_map_of_mem hkid
      obtain ⟨hrows, htwo⟩ := hd.ordered hrow (by
        rw [Growth.kids_map, List.forall_mem_map]
        exact fun kid hkid kid' hk => (hkids kid hkid kid' hk).2.1)
      refine ⟨fun kid hkid => ⟨hrows _ (hmem kid hkid), fun kid' hk => (hkids kid hkid kid' hk).1⟩,
        fun kid hkid x hx => ?_, fun kid hkid hnil => ?_, fun left mid right he => ⟨?_, ?_⟩⟩
      · obtain ⟨kid', hk, hx⟩ := (mem_keys_row key kid x).mp hx
        exact (hkids kid hkid kid' hk).2.2 x hx
      · have hk := pick_mem q kid.row
        obtain ⟨x, hx⟩ := List.exists_mem_of_ne_nil _ (hkids kid hkid _ hk).2.1
        have hm := (mem_keys_row key kid x).mpr ⟨_, hk, hx⟩
        rw [hnil] at hm
        simp at hm
      · intro x hx
        obtain ⟨kid', hk, hx⟩ := (mem_keys_row key left x).mp hx
        exact (htwo _ mid _ (by rw [he]; rfl)).1 kid' hk x hx
      · intro x hx
        obtain ⟨kid', hk, hx⟩ := (mem_keys_row key right x).mp hx
        exact (htwo _ mid _ (by rw [he]; rfl)).2 kid' hk x hx

end Tree

end SearchTree

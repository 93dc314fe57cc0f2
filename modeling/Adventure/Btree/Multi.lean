import Adventure.Btree.Stacked

namespace Adventure

open Memory SearchTree Ends

-- The values added under a key, the last one first.
def valuesOf (added : List (Nat × Nat)) (key : Nat) : List Nat :=
  (added.filter fun x => x.1 = key).map Prod.snd

theorem valuesOf_self (added : List (Nat × Nat)) (key val : Nat) :
    valuesOf ((key, val) :: added) key = val :: valuesOf added key := by
  simp [valuesOf]

theorem valuesOf_other {added : List (Nat × Nat)} {key key' val : Nat} (h : key ≠ key') :
    valuesOf ((key, val) :: added) key' = valuesOf added key' := by
  simp [valuesOf, h]

theorem valuesOf_fresh {added : List (Nat × Nat)} {key : Nat} (h : key ∉ added.map Prod.fst) :
    valuesOf added key = [] := by
  simp only [valuesOf, List.map_eq_nil_iff, List.filter_eq_nil_iff, decide_eq_true_eq]
  rintro x hx rfl
  exact h (List.mem_map_of_mem hx)

-- Only the last item of a leaf has the overflow mark, so that the leaf is in order both by the
-- stored keys and by the keys without their marks.
def LastMarked (items : List (Nat × Nat)) : Prop := items.Pairwise fun x _ => x.1 < 2 ^ 63

-- The tree stands for the pairs added to it, with one item for each key.
structure Stored (s : Store) {h : ℕ} (t : PageTree h) (added : List (Nat × Nat)) : Prop where
  holds : Holds s.file.data BTREE_ROOT t
  wellFormed : t.WellFormed maskedKey 3 3
  marks : t.EveryLeaf LastMarked
  entries : ∀ x ∈ t.items, ∃ vals, Entry s.file.data x vals ∧ vals.Perm (valuesOf added (maskedKey x))
  keys : ∀ k, k ∈ t.keys maskedKey ↔ k ∈ added.map Prod.fst

-- A call for `key` that ends at a leaf with these items keeps the leaf in order: a duplicate is
-- on the last item, and its stack does not have exactly 56 bytes in use; a new key comes before a
-- marked item, and does not make it the first item of the right half of a split.
def LeafFits (s : Store) (leaf : Nat) (items : List (Nat × Nat)) (key : Nat) : Prop :=
  ∀ last ∈ items.getLast?,
    if key ∈ items.map maskedKey then maskedKey last = key ∧
      (keyHasOverflow last.1 → pgUsed (pgHeader s last.2) ≠ 56)
    else keyHasOverflow last.1 → key < maskedKey last ∧
      ¬(pgFree (pgHeader s leaf) < 16 ∧ ∀ x ∈ items.dropLast, maskedKey x < key)

section Leaf

variable {s : Store} {leaf flags key val : Nat} {items before after : List (Nat × Nat)}

theorem maskedKey_le (x : Nat × Nat) : maskedKey x ≤ x.1 := keyGet_le x.1

theorem maskedKey_eq {x : Nat × Nat} (h : x.1 < 2 ^ 63) : maskedKey x = x.1 := keyGet_eq h

theorem LastMarked.replace {front : List (Nat × Nat)} {last : Nat × Nat}
    (h : LastMarked (front ++ [last])) (new : Nat × Nat) : LastMarked (front ++ [new]) := by
  rw [LastMarked, List.pairwise_append] at h ⊢
  exact ⟨h.1, List.pairwise_singleton _ _, fun x hx _ _ => h.2.2 x hx last (by simp)⟩

-- With a new key that fits, the items before it have no mark.
theorem LeafFits.before_lt (hfits : LeafFits s leaf items key) (hmarks : LastMarked items)
    (hlt : ∀ x ∈ items, x.1 < 2 ^ 64) (hfresh : key ∉ items.map maskedKey)
    (hcut : items = before ++ after) (hb : ∀ x ∈ before, maskedKey x < key) :
    ∀ x ∈ before, x.1 < 2 ^ 63 := by
  subst hcut
  intro x hx
  rcases List.eq_nil_or_concat' after with rfl | ⟨after, last, rfl⟩
  · rw [List.append_nil] at hfits hmarks hfresh hlt
    obtain ⟨front, last, rfl⟩ : ∃ front last, before = front ++ [last] :=
      (List.eq_nil_or_concat' before).resolve_left (List.ne_nil_of_mem hx)
    rw [LastMarked, List.pairwise_append] at hmarks
    rcases List.mem_append.mp hx with hm | hm
    · exact hmarks.2.2 x hm last (List.mem_singleton_self _)
    · rw [List.mem_singleton.mp hm]
      by_contra hge
      have hmark := (keyHasOverflow_iff (hlt last (by simp))).mpr (not_lt.mp hge)
      have hf := hfits last (by simp)
      rw [if_neg hfresh] at hf
      exact absurd (hf hmark).1 (not_lt.mpr (hb last (by simp)).le)
  · rw [LastMarked, List.pairwise_append] at hmarks
    exact hmarks.2.2 x hx last (by simp)

theorem LeafFits.marks (hfits : LeafFits s leaf items key) (hmarks : LastMarked items)
    (hlt : ∀ x ∈ items, x.1 < 2 ^ 64) (hfresh : key ∉ items.map maskedKey) (hkey : key < 2 ^ 63)
    (hcut : items = before ++ after) (hb : ∀ x ∈ before, maskedKey x < key) :
    LastMarked (before ++ (key, val) :: after) := by
  have hbm := hfits.before_lt hmarks hlt hfresh hcut hb
  subst hcut
  rw [LastMarked, List.pairwise_append] at hmarks ⊢
  exact ⟨hmarks.1, List.pairwise_cons.mpr ⟨fun _ _ => hkey, hmarks.2.1⟩, fun x hx _ _ => hbm x hx⟩

-- With a new key that fits, the first item of the right half of a split has no mark.
theorem LeafFits.first_lt (hfits : LeafFits s leaf (before ++ after) key)
    (hleaf : LeafAt s.file.data leaf flags 64 (before ++ after))
    (hmarks : LastMarked (before ++ after)) (hlt : ∀ x ∈ before ++ after, x.1 < 2 ^ 64)
    (hfresh : key ∉ (before ++ after).map maskedKey) (hb : ∀ x ∈ before, maskedKey x < key)
    {left right : List (Nat × Nat)} {first : Nat × Nat}
    (heq : before ++ (key, val) :: after = left ++ first :: right)
    (hfull : (before ++ after).length = 3) (hcut : left.length = medianCut 3 before.length) :
    first.1 < 2 ^ 63 := by
  by_contra hge
  rw [List.length_append] at hfull
  have hmarked : ∀ last, (before ++ after).getLast? = some last → 2 ^ 63 ≤ last.1 →
      key < maskedKey last ∧ ¬∀ x ∈ (before ++ after).dropLast, maskedKey x < key := by
    intro last hlast hle
    have hmem := List.mem_of_getLast? hlast
    have hf := hfits last hlast
    rw [if_neg hfresh, hleaf.free_eq, List.length_append] at hf
    obtain ⟨hk, hn⟩ := hf ((keyHasOverflow_iff (hlt last hmem)).mpr hle)
    exact ⟨hk, fun hall => hn ⟨by omega, hall⟩⟩
  have hsecond : ∀ a b c, before ++ after = [a, b, c] → b.1 < 2 ^ 63 := fun a b c h => by
    rw [h] at hmarks
    exact ((List.pairwise_cons.mp hmarks).2 |> List.pairwise_cons.mp).1 c (by simp)
  -- by the place of the new item among the old ones
  match before, after with
  | [], after =>
      obtain ⟨a, b, c, rfl⟩ := List.length_eq_three.mp (by simpa using hfull)
      obtain ⟨x, y, rfl⟩ := List.length_eq_two.mp hcut
      obtain ⟨-, -, rfl, -⟩ : (key, val) = x ∧ a = y ∧ b = first ∧ [c] = right := by simpa using heq
      exact hge (hsecond a b c rfl)
  | [a], after =>
      obtain ⟨b, c, rfl⟩ := List.length_eq_two.mp (show after.length = 2 by simp at hfull; omega)
      obtain ⟨x, y, rfl⟩ := List.length_eq_two.mp hcut
      obtain ⟨-, -, rfl, -⟩ : a = x ∧ (key, val) = y ∧ b = first ∧ [c] = right := by simpa using heq
      exact hge (hsecond a b c rfl)
  | [a, b], after =>
      obtain ⟨c, rfl⟩ := List.length_eq_one_iff.mp (show after.length = 1 by simp at hfull; omega)
      obtain ⟨x, y, z, rfl⟩ := List.length_eq_three.mp hcut
      obtain ⟨-, -, -, rfl, -⟩ : a = x ∧ b = y ∧ (key, val) = z ∧ c = first ∧ [] = right := by
        simpa using heq
      exact (hmarked c rfl (not_lt.mp hge)).2 hb
  | [a, b, c], after =>
      obtain rfl : after = [] := by simpa using hfull
      obtain ⟨x, y, rfl⟩ := List.length_eq_two.mp hcut
      obtain ⟨-, -, rfl, -⟩ : a = x ∧ b = y ∧ c = first ∧ [(key, val)] = right := by simpa using heq
      exact absurd (hmarked c rfl (not_lt.mp hge)).1 (not_lt.mpr (hb c (by simp)).le)
  | a :: b :: c :: d :: before, after => simp at hfull; omega

end Leaf

section Add

variable {base : Base} {s : Store} {h : ℕ} {t : PageTree h} {added : List (Nat × Nat)}
  {rest : Multiset Nat} {key val : Nat}

-- A key of the tree is one of the leaf that a search for it ends at.
theorem Stored.mem_leafOf (ht : Stored s t added) :
    key ∈ added.map Prod.fst ↔ key ∈ (t.leafOf key).held.map maskedKey := by
  rw [← ht.keys, Tree.keys, List.mem_map, List.mem_map]
  constructor
  · rintro ⟨x, hx, rfl⟩
    exact ⟨x, (ht.wellFormed.ordered.mem_leafOf x).mp hx, rfl⟩
  · rintro ⟨x, hx, hk⟩
    exact ⟨x, Tree.leafOf_held_subset key t hx, hk⟩

theorem Stored.leafAt (ht : Stored s t added) (key : Nat) : ∃ root, IsRootFlag root ∧
    LeafAt s.file.data (t.leafOf key).addr (BTREE_LEAF ||| root) 64 (t.leafOf key).held :=
  ht.holds.leafOf (Or.inr rfl) key

theorem Stored.held_lt (ht : Stored s t added) (key : Nat) :
    ∀ x ∈ (t.leafOf key).held, x.1 < 2 ^ 64 := by
  intro x hx
  obtain ⟨root, -, hl⟩ := ht.leafAt key
  obtain ⟨i, hi, rfl⟩ := List.getElem_of_mem hx
  exact (hl.read_item hi).1 ▸ readUi64_lt _ _ _

theorem Stored.stacked (ht : Stored s t added) : Stacked s t where
  holds := ht.holds
  leaves := ht.wellFormed.leaves
  branches := ht.wellFormed.branches
  entries x hx := by
    obtain ⟨vals, he, -⟩ := ht.entries x hx
    exact ⟨vals, he⟩

-- A duplicate that fits is on the last item of its leaf, and the values of that have room for one more.
theorem Stored.last_dup (ht : Stored s t added)
    (hfits : LeafFits s (t.leafOf key).addr (t.leafOf key).held key)
    (hmem : key ∈ (t.leafOf key).held.map maskedKey) : ∃ front last vals,
      (t.leafOf key).held = front ++ [last] ∧ (∀ x ∈ front, x.1 < key) ∧ maskedKey last = key ∧
      Entry s.file.data last vals ∧ vals.Perm (valuesOf added key) ∧ vals.length < 5 := by
  obtain ⟨front, last, hheld⟩ : ∃ front last, (t.leafOf key).held = front ++ [last] :=
    (List.eq_nil_or_concat' _).resolve_left (by rintro he; simp [he] at hmem)
  have hf := hfits last (by rw [hheld]; simp)
  rw [if_pos hmem] at hf
  obtain ⟨hkeylast, hused⟩ := hf
  obtain ⟨vals, hentry, hperm⟩ := ht.entries last (Tree.leafOf_held_subset key t (by simp [hheld]))
  refine ⟨front, last, vals, hheld, fun x hx => ?_, hkeylast, hentry, hkeylast ▸ hperm,
    hentry.length_lt hused⟩
  have hmarks := ht.marks.leafOf key
  have hsorted : ((t.leafOf key).held.map maskedKey).Pairwise (· < ·) := ht.wellFormed.ordered.leafOf key
  rw [hheld, LastMarked, List.pairwise_append] at hmarks
  rw [hheld, List.map_append, List.pairwise_append] at hsorted
  have hlt := hsorted.2.2 _ (List.mem_map_of_mem hx) (maskedKey last) (by simp)
  rwa [maskedKey_eq (hmarks.2.2 x hx last (by simp)), hkeylast] at hlt

-- One item has become `new`, or is `new` altogether; the others stand for what they did.
theorem Stored.step {h' : ℕ} {t' : PageTree h'} {s' : Store} {old kept : Multiset (Nat × Nat)}
    {new : Nat × Nat} {vals : List Nat} (ht : Stored s t added)
    (hholds : Holds s'.file.data BTREE_ROOT t') (hw : t'.WellFormed maskedKey 3 3)
    (hmarks : t'.EveryLeaf LastMarked) (hitems : (t.items : Multiset (Nat × Nat)) = old + kept)
    (hitems' : (t'.items : Multiset (Nat × Nat)) = new ::ₘ kept) (hold : ∀ x ∈ old, maskedKey x = key)
    (hkept : ∀ x ∈ kept, maskedKey x ≠ key) (hkeep : Keeps (stackPages kept) s s')
    (hnew : maskedKey new = key) (he : Entry s'.file.data new vals)
    (hvals : vals.Perm (val :: valuesOf added key)) : Stored s' t' ((key, val) :: added) where
  holds := hholds
  wellFormed := hw
  marks := hmarks
  entries x hx := by
    rw [← Multiset.mem_coe, hitems', Multiset.mem_cons] at hx
    rcases hx with rfl | hx
    · exact ⟨vals, he, by rwa [hnew, valuesOf_self]⟩
    · have hmem : x ∈ t.items := by
        rw [← Multiset.mem_coe, hitems]
        exact Multiset.mem_add.mpr (Or.inr hx)
      obtain ⟨vals', he', hp'⟩ := ht.entries x hmem
      refine ⟨vals', he'.congr fun p hp => hkeep p (Multiset.mem_of_le (itemPages_le hx) hp), ?_⟩
      rwa [valuesOf_other (hkept x hx).symm]
  keys k := by
    have hmem : ∀ x, x ∈ t.items ↔ x ∈ old ∨ x ∈ kept := fun x => by
      rw [← Multiset.mem_coe, hitems, Multiset.mem_add]
    have hmem' : ∀ x, x ∈ t'.items ↔ x = new ∨ x ∈ kept := fun x => by
      rw [← Multiset.mem_coe, hitems', Multiset.mem_cons]
    rw [List.map_cons, List.mem_cons, ← ht.keys, Tree.keys, Tree.keys, List.mem_map, List.mem_map]
    constructor
    · rintro ⟨x, hx, rfl⟩
      rcases (hmem' x).mp hx with rfl | hx
      · exact Or.inl hnew
      · exact Or.inr ⟨x, (hmem x).mpr (Or.inr hx), rfl⟩
    · rintro (rfl | ⟨x, hx, rfl⟩)
      · exact ⟨new, (hmem' new).mpr (Or.inl rfl), hnew⟩
      · rcases (hmem x).mp hx with hx | hx
        · exact ⟨new, (hmem' new).mpr (Or.inl rfl), hnew.trans (hold x hx).symm⟩
        · exact ⟨x, (hmem' x).mpr (Or.inr hx), rfl⟩

-- What a call does to a tree with overflow stacks.
structure Grown (base : Base) (s : Store) (added : List (Nat × Nat)) (rest : Multiset Nat)
    (key val : Nat) (h : ℕ) (r : Nat × Store) {h' : ℕ} (t' : PageTree h') : Prop where
  root : t'.addr = r.1
  height : h' ≤ h + 1
  pool : Pool base r.2 (t'.addrs + (stackPages t'.items + rest))
  stored : Stored r.2 t' ((key, val) :: added)
  keeps : Keeps rest s r.2
  spent : Spent s r.2 (64 * (2 * h + 5))

variable (hp : Pool base s (t.addrs + (stackPages t.items + rest))) (ht : Stored s t added)
  (hfits : LeafFits s (t.leafOf key).addr (t.leafOf key).held key) (hkey : key < 2 ^ 63)
  (hval : val < 2 ^ 64)

include hp ht hfits hkey hval

theorem Stored.add_fresh (hfresh : key ∉ added.map Prod.fst) :
    Meets (btreeAdd s t.addr key val) (¬s.Growable (64 * (2 * h + 5))) fun r =>
      ∃ (h' : ℕ) (t' : PageTree h'), Grown base s added rest key val h r t' := by
  have hitem : maskedKey (key, val) = key := keyGet_eq hkey
  have hleaf : key ∉ (t.leafOf key).held.map maskedKey := fun hm => hfresh (ht.mem_leafOf.mpr hm)
  have hlt := ht.held_lt key
  have hmarks := ht.marks.leafOf key
  obtain ⟨before, after, hheld, hb, ha⟩ := exists_cut key (ht.wellFormed.ordered.leafOf key)
  obtain ⟨root, hroot, hl⟩ := ht.leafAt key
  have hbm := hfits.before_lt hmarks hlt hleaf hheld hb
  have hnotin : ∀ x ∈ before ++ after, maskedKey x ≠ key := fun x hx he =>
    hleaf (List.mem_map.mpr ⟨x, hheld ▸ hx, he⟩)
  have ha' : ∀ x ∈ after, key < maskedKey x := fun x hx =>
    lt_of_le_of_ne (ha x hx) (hnotin x (by simp [hx])).symm
  have hhead : ∀ x ∈ after.head?, keyGet x.1 ≠ key := fun x hx =>
    hnotin x (List.mem_append_right _ (List.mem_of_mem_head? hx))
  have hpos : (before ++ after).findIdx (fun item => decide (key ≤ item.1)) = before.length :=
    findIdx_eq_length (fun x hx => by rw [← maskedKey_eq (hbm x hx)]; exact hb x hx)
      fun x hx => (ha x hx).trans (maskedKey_le x)
  refine (ht.stacked.put hp hheld hpos hhead (Or.inl hkey) hval).mono
    (mt fun hg => hg.mono (by omega)) ?_
  rintro r ⟨h', t', g, hr, hputs, -, hitems, hkeep⟩
  rw [keyGet_eq hkey] at hputs hitems
  have hi : Inserts maskedKey 3 medianCut (key, val) (t.leafOf key).held g := by
    rw [hheld] at hfits hl hmarks hlt hleaf ⊢
    rw [← hitem] at hb ha'
    exact hputs.inserts maskedKey hb ha' fun left first right he hf hc =>
      (maskedKey_eq (hfits.first_lt hl hmarks hlt hleaf (hitem ▸ hb) he hf hc)).symm
  have hmarks' : ∀ l ∈ g.kids, LastMarked l := by
    have hflat : LastMarked g.kids.flatten := by
      rw [hputs.flatten_eq]
      exact hfits.marks hmarks hlt hleaf hkey hheld hb
    exact fun l hl => List.Pairwise.sublist (List.sublist_flatten_of_mem hl) hflat
  have hs : LeafStep maskedKey 3 (maskedKey (key, val)) (Inserts maskedKey 3 medianCut (key, val)) :=
    Inserts.leafStep medianCut_leaf
  rw [hitem] at hs
  refine ⟨h', t', hr.root, hr.height, hr.pool, ?_, hr.keeps, hr.spent.mono (by omega)⟩
  refine ht.step hr.holds (hr.wellFormed hs ht.wellFormed hi) (hr.everyLeaf _ ht.marks hmarks')
    (zero_add _).symm hitems (by simp) ?_ hkeep hitem (.single hkey) ?_
  · intro x hx he
    exact hfresh ((ht.keys key).mp (List.mem_map.mpr ⟨x, hx, he⟩))
  · rw [valuesOf_fresh hfresh]

theorem Stored.add_dup (hdup : key ∈ added.map Prod.fst) :
    Meets (btreeAdd s t.addr key val) (¬s.Growable (64 * (2 * h + 5))) fun r =>
      ∃ (h' : ℕ) (t' : PageTree h'), Grown base s added rest key val h r t' := by
  obtain ⟨front, last, vals, hheld, hb, hkeylast, hentry, hperm, hroom⟩ :=
    ht.last_dup hfits (ht.mem_leafOf.mp hdup)
  have hlast : last ∈ t.items := Tree.leafOf_held_subset key t (by simp [hheld])
  have hpos := findIdx_eq_length hb
    (List.forall_mem_singleton.mpr (hkeylast ▸ maskedKey_le last : key ≤ last.1))
  have hitems₀ : (t.items : Multiset (Nat × Nat)) = {last} + (t.items.erase last : List _) := by
    rw [Multiset.singleton_add, Multiset.cons_coe, Multiset.coe_eq_coe]
    exact List.perm_cons_erase hlast
  generalize hkept : (t.items.erase last : Multiset (Nat × Nat)) = kept at hitems₀
  have hs : LeafStep maskedKey 3 (maskedKey last) fun l g => ∃ new, Replaces maskedKey last new l g :=
    Replaces.leafStep
  rw [hkeylast] at hs
  have hcons : (t.items : Multiset (Nat × Nat)) = last ::ₘ kept := by
    rw [hitems₀, Multiset.singleton_add]
  apply (ht.stacked.dup hp hheld hpos hkeylast hentry hroom hcons hval).mono id
  rintro r ⟨h', t', page, s₁, hr, -, -, hitems, hkeep, he⟩
  have hnew : maskedKey (keySetOverflow key, page) = key := keyGet_mark hkey
  have hrep : Replaces maskedKey last (keySetOverflow key, page) (t.leafOf key).held
      (.one (front ++ [(keySetOverflow key, page)]) : Growth _ Nat) := by
    rw [hheld]
    exact .one front [] (hnew.trans hkeylast.symm)
  have hothers : ∀ x ∈ kept, maskedKey x ≠ key := by
    have hn : (t.items.map maskedKey).Nodup :=
      ht.wellFormed.ordered.pairwise_keys.imp fun h => ne_of_lt h
    have hn' := ((List.perm_cons_erase hlast).map maskedKey).nodup_iff.mp hn
    rw [List.map_cons, List.nodup_cons, hkeylast] at hn'
    subst hkept
    exact fun x hx he => hn'.1 (List.mem_map.mpr ⟨x, hx, he⟩)
  have hmarks' : ∀ l ∈ (.one (front ++ [(keySetOverflow key, page)]) : Growth _ Nat).kids,
      LastMarked l := by
    have hmarks := ht.marks.leafOf key
    rw [hheld] at hmarks
    rw [Growth.kids, List.forall_mem_singleton]
    exact LastMarked.replace hmarks _
  refine ⟨h', t', hr.root, hr.height, hr.pool, ?_, hr.keeps, hr.spent.mono (by omega)⟩
  refine ht.step hr.holds (hr.wellFormed hs ht.wellFormed ⟨_, hrep⟩)
    (hr.everyLeaf _ ht.marks hmarks') hitems₀ hitems ?_ hothers hkeep hnew he ?_
  · simpa using hkeylast
  · exact (List.perm_append_singleton val vals).trans (hperm.cons val)

-- The specification of btree_add for keys that may repeat.
theorem Stored.add : Meets (btreeAdd s t.addr key val) (¬s.Growable (64 * (2 * h + 5))) fun r =>
    ∃ (h' : ℕ) (t' : PageTree h'), Grown base s added rest key val h r t' := by
  by_cases hdup : key ∈ added.map Prod.fst
  · exact ht.add_dup hp hfits hkey hval hdup
  · exact ht.add_fresh hp hfits hkey hval hdup

end Add

end Adventure

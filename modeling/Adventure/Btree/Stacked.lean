import Adventure.Btree.Dup
import Mathlib.Data.Multiset.Bind

namespace Adventure

open Memory SearchTree Ends

-- The pages of all stacks that items point to.
def stackPages (items : Multiset (Nat × Nat)) : Multiset Nat := items.bind itemPages

theorem stackPages_cons (item : Nat × Nat) (items : Multiset (Nat × Nat)) :
    stackPages (item ::ₘ items) = itemPages item + stackPages items := Multiset.cons_bind _ _ _

theorem itemPages_le {item : Nat × Nat} {items : Multiset (Nat × Nat)} (h : item ∈ items) :
    itemPages item ≤ stackPages items := by
  obtain ⟨rest, rfl⟩ := Multiset.exists_cons_of_mem h
  rw [stackPages_cons]
  exact Multiset.le_add_right _ _

-- A tree whose items stand for values, in whatever order they are.
structure Stacked (s : Store) {h : ℕ} (t : PageTree h) : Prop where
  holds : Holds s.file.data BTREE_ROOT t
  leaves : t.EveryLeaf (·.length ≤ 3)
  branches : t.EveryBranch (· ≤ 3)
  entries : ∀ x ∈ t.items, ∃ vals, Entry s.file.data x vals

section Add

variable {base : Base} {s : Store} {h : ℕ} {t : PageTree h} {rest : Multiset Nat} {key val : Nat}
  {before after : List (Nat × Nat)}

-- The branches after an insertion have no more separators than they have room for.
theorem Added.branches {pages : Nat} {chains : Multiset Nat} {h' : ℕ} {t' : PageTree h'}
    {g : Growth (List (Nat × Nat)) Nat} {r : Nat × Store}
    (hr : Added base s key pages chains rest t t' g r) (hb : t.EveryBranch (· ≤ 3)) :
    t'.EveryBranch (· ≤ 3) := by
  obtain ⟨g', hgrows, htop⟩ := hr.grows
  exact (htop.everyBranch_iff (by decide)).mpr (hgrows.everyBranch medianCut_branch hb)

-- The items after a step: one is `new`, the others stand for what they did.
theorem Stacked.step {h' : ℕ} {t' : PageTree h'} {s' : Store} {kept : Multiset (Nat × Nat)}
    {new : Nat × Nat} {vals : List Nat} (ht : Stacked s t)
    (hholds : Holds s'.file.data BTREE_ROOT t') (hleaves : t'.EveryLeaf (·.length ≤ 3))
    (hbranches : t'.EveryBranch (· ≤ 3)) (hsub : ∀ x ∈ kept, x ∈ t.items)
    (hitems : (t'.items : Multiset (Nat × Nat)) = new ::ₘ kept) (hkeep : Keeps (stackPages kept) s s')
    (he : Entry s'.file.data new vals) : Stacked s' t' where
  holds := hholds
  leaves := hleaves
  branches := hbranches
  entries x hx := by
    rw [← Multiset.mem_coe, hitems, Multiset.mem_cons] at hx
    rcases hx with rfl | hx
    · exact ⟨vals, he⟩
    · obtain ⟨vals', he'⟩ := ht.entries x (hsub x hx)
      exact ⟨vals', he'.congr fun p hp => hkeep p (Multiset.mem_of_le (itemPages_le hx) hp)⟩

variable (hp : Pool base s (t.addrs + (stackPages t.items + rest))) (ht : Stacked s t)

include hp ht

-- A call whose search does not stop at an item for the key.
theorem Stacked.put (hheld : (t.leafOf key).held = before ++ after)
    (hpos : (before ++ after).findIdx (fun item => decide (key ≤ item.1)) = before.length)
    (hhead : ∀ item ∈ after.head?, keyGet item.1 ≠ key)
    (hkey : key < 2 ^ 63 ∨ (t.leafOf key).held.length = 3) (hval : val < 2 ^ 64) :
    Meets (btreeAdd s t.addr key val) (¬s.Growable (64 * (2 * h + 3))) fun r =>
      ∃ (h' : ℕ) (t' : PageTree h') (g : _),
        Added base s key (2 * h + 3) (stackPages t'.items) rest t t' g r ∧
        Puts before after (keyGet key, val) g ∧ Stacked r.2 t' ∧
        (t'.items : Multiset (Nat × Nat)) = (keyGet key, val) ::ₘ t.items ∧
        Keeps (stackPages t.items) s r.2 := by
  have hadd := btreeAdd_grows (k := 2) (R := fun s' chains gl => chains = stackPages t.items ∧
      Keeps chains s s' ∧ Puts before after (keyGet key, val) gl)
    (fun _ _ _ _ hk h => ⟨h.1, h.2.1.trans hk, h.2.2⟩) hp ht.holds ht.branches
    fun depth orig root rest hp' ht' hroot' => (recurAdd_put_meets hp' ht' hroot' hheld
      (ht.leaves.leafOf key) hpos hhead hkey hval depth orig).mono id
        fun r ⟨g, hg, hk, hi⟩ => ⟨g, _, hg, rfl, hk, hi⟩
  refine hadd.mono (mt fun hg => hg.mono (by omega)) ?_
  rintro r ⟨h', t', g, chains, hr, rfl, hkeep, hputs⟩
  have hitems := hr.items 0 {(keyGet key, val)} (by
    rw [hputs.flatten_eq, hheld, add_zero, ← Multiset.coe_singleton, Multiset.coe_add,
      Multiset.coe_eq_coe]
    exact List.perm_middle.trans (List.perm_append_singleton _ _).symm)
  rw [add_zero, add_comm, Multiset.singleton_add] at hitems
  have hpages : stackPages t'.items = stackPages t.items := by
    rw [hitems, stackPages_cons, Entry.itemPages_single (keyGet_lt key), zero_add]
  refine ⟨h', t', g, ?_, hputs, ?_, hitems, hkeep⟩
  · rw [hpages, show 2 * h + 3 = 2 + 2 * h + 1 by omega]
    exact hr
  · exact ht.step hr.holds (hr.everyLeaf _ ht.leaves hputs.length_le) (hr.branches ht.branches)
      (fun x hx => hx) hitems hkeep (.single (keyGet_lt key))

-- A call whose search stops at an item for the key. The stack of the item must have room.
theorem Stacked.dup {item : Nat × Nat} {vals : List Nat} {kept : Multiset (Nat × Nat)}
    (hheld : (t.leafOf key).held = before ++ item :: after)
    (hpos : (before ++ item :: after).findIdx (fun item => decide (key ≤ item.1)) = before.length)
    (hitem : maskedKey item = key) (he : Entry s.file.data item vals) (hroom : vals.length < 5)
    (hkept : (t.items : Multiset (Nat × Nat)) = item ::ₘ kept) (hval : val < 2 ^ 64) :
    Meets (btreeAdd s t.addr key val) (¬s.Growable (64 * (2 * h + 5))) fun r =>
      ∃ (h' : ℕ) (t' : PageTree h') (page : Nat) (s₁ : Store),
        Added base s key (2 * h + 5) (stackPages t'.items) rest t t'
          (.one (before ++ (keySetOverflow key, page) :: after)) r ∧
        dupStack s item.1 item.2 val = some (page, s₁) ∧ Stacked r.2 t' ∧
        (t'.items : Multiset (Nat × Nat)) = (keySetOverflow key, page) ::ₘ kept ∧
        Keeps (stackPages kept) s r.2 ∧
        Entry r.2.file.data (keySetOverflow key, page) (vals ++ [val]) := by
  rw [hkept, stackPages_cons] at hp
  have hadd := btreeAdd_grows (k := 4) (R := fun s' chains gl => ∃ page s₁,
      chains = itemPages (keySetOverflow key, page) + stackPages kept ∧ Keeps (stackPages kept) s s' ∧
      dupStack s item.1 item.2 val = some (page, s₁) ∧
      gl = .one (before ++ (keySetOverflow key, page) :: after) ∧
      Entry s'.file.data (keySetOverflow key, page) (vals ++ [val]))
    (fun s₁ s₂ chains gl hk ⟨page, s', hc, hk', hs, hgl, he⟩ => ⟨page, s', hc,
      hk'.trans (hk.mono fun p hp => by simp [hc, hp]), hs, hgl,
      he.congr fun p hp => hk p (by simp [hc, hp])⟩) hp ht.holds ht.branches
    fun depth orig root rest hp' ht' hroot' => (recurAdd_dup_meets hp' ht' hroot' hheld he hpos
      hitem hroom hval depth orig).mono id fun r ⟨g, page, s₁, hg, hk, hs, hgl, he⟩ =>
        ⟨g, _, hg, page, s₁, rfl, hk, hs, hgl, he⟩
  refine hadd.mono (mt fun hg => hg.mono (by omega)) ?_
  rintro r ⟨h', t', g, chains, hr, page, s₁, rfl, hkeep, hs, rfl, he'⟩
  have hitems := hr.items {item} {(keySetOverflow key, page)} (by
    rw [hheld]
    simp only [Growth.kids, List.flatten_cons, List.flatten_nil, List.append_nil,
      ← Multiset.coe_add, ← Multiset.cons_coe, ← Multiset.singleton_add]
    abel)
  rw [hkept, ← Multiset.singleton_add, add_assoc, add_comm, add_right_inj, add_comm,
    Multiset.singleton_add] at hitems
  have hlen : ∀ l ∈ (.one (before ++ (keySetOverflow key, page) :: after) : Growth _ Nat).kids,
      l.length ≤ 3 := by
    have hle : (t.leafOf key).held.length ≤ 3 := ht.leaves.leafOf key
    rw [hheld] at hle
    simpa [Growth.kids] using hle
  have hsub : ∀ x ∈ kept, x ∈ t.items := fun x hx => by
    rw [← Multiset.mem_coe, hkept]
    exact Multiset.mem_cons_of_mem hx
  refine ⟨h', t', page, s₁, ?_, hs, ?_, hitems, hkeep, he'⟩
  · rw [hitems, stackPages_cons, show 2 * h + 5 = 4 + 2 * h + 1 by omega]
    exact hr
  · exact ht.step hr.holds (hr.everyLeaf _ ht.leaves hlen) (hr.branches ht.branches) hsub hitems hkeep
      he'

end Add

end Adventure

import Adventure.Struct.Trie.Theorems

namespace Adventure

namespace Trie

-- A string with a node that no longer string has below it.
def Leaf (f : CStr → Option Nat) (k : CStr) : Prop := f k ≠ none ∧ ∀ a, f (k ++ [a]) = none

-- What trie_get_keys appends for the trie below `q`.
structure Reports (f : CStr → Option Nat) (p q : CStr) (keys : List CStr) : Prop where
  nodup : keys.Nodup
  mem_iff : ∀ k, k ∈ keys ↔ q <+: k ∧ Leaf f k ∧ (k <+: p ∨ p <+: k)

-- A leaf reports its own key.
theorem Reports.leaf {f : CStr → Option Nat} {p q : CStr}
    (hclosed : ∀ q r, q <+: r → f q = none → f r = none) (hleaf : Leaf f q)
    (hp : q <+: p ∨ p <+: q) : Reports f p q [q] where
  nodup := List.nodup_singleton q
  mem_iff k := by
    rw [List.mem_singleton]
    constructor
    · rintro rfl
      exact ⟨List.prefix_refl k, hleaf, hp⟩
    · rintro ⟨hpre, hk, -⟩
      by_contra hne
      obtain ⟨a, ha⟩ := exists_next hpre (Ne.symm hne)
      exact hk.1 (hclosed _ _ ha (hleaf.2 a))

namespace Below

variable {f : CStr → Option Nat} {n : Nat} {p q : CStr} {t : Trie}

-- A node that is not longer than the prefix and does not match it ends the walk.
theorem getKeys_stop (h : Below f n q t) (hlen : q.length ≤ p.length) (hp : ¬q <+: p)
    (list : List (Option CStr)) : trieGetKeys t p list = list := by
  have hkey := h.key_eq
  rcases t with ⟨tkey, tval, children⟩
  unfold Trie.key at hkey
  unfold trieGetKeys
  rw [keyLen_eq, hkey]
  apply if_pos
  exact ⟨hlen, mt (strncmp_eq_iff q p).mp hp⟩

-- Any other node is passed.
theorem getKeys_pass {tkey : Option CStr} (hkey : tkey.getD [] = q)
    (hpass : p.length < q.length ∨ q <+: p) (tval : Nat) (children : Option (List Trie))
    (list : List (Option CStr)) : trieGetKeys (.node tkey tval children) p list =
      match children with
      | some cs => trieGetKeysChildren cs p list
      | none => list ++ [tkey] := by
  unfold trieGetKeys
  rw [keyLen_eq, hkey]
  apply if_neg
  rintro ⟨hlen, hne⟩
  cases hpass with
  | inl hlt => exact absurd hlen (Nat.not_le_of_lt hlt)
  | inr hpre => exact hne ((strncmp_eq_iff q p).mpr hpre)

-- The children report the keys that go on with their letters. No key goes on with two.
theorem getKeys_children {kids : List (UInt8 × Trie)} (hnodup : (kids.map Prod.fst).Nodup)
    (hkids : ∀ x ∈ kids, ∀ list, ∃ keys : List CStr, trieGetKeys x.2 p list = list ++ keys.map some ∧
      Reports f p (q ++ [x.1]) keys) (list : List (Option CStr)) :
    ∃ keys : List CStr, trieGetKeysChildren (kids.map Prod.snd) p list = list ++ keys.map some ∧ keys.Nodup ∧
      ∀ k, k ∈ keys ↔ (∃ a ∈ kids.map Prod.fst, q ++ [a] <+: k) ∧ Leaf f k ∧ (k <+: p ∨ p <+: k) := by
  induction kids generalizing list with
  | nil => exact ⟨[], by simp [trieGetKeysChildren], List.nodup_nil, by simp⟩
  | cons x kids ih =>
      rw [List.map_cons, List.nodup_cons] at hnodup
      rw [List.forall_mem_cons] at hkids
      obtain ⟨keys, hkeys, hr⟩ := hkids.1 list
      obtain ⟨rest, hrest, hnodup', hmem⟩ := ih hnodup.2 hkids.2 (list ++ keys.map some)
      refine ⟨keys ++ rest, ?_, ?_, fun k => ?_⟩
      · rw [List.map_cons, trieGetKeysChildren, hkeys, hrest, List.map_append, List.append_assoc]
      · rw [List.nodup_append']
        refine ⟨hr.nodup, hnodup', fun k hk hk' => ?_⟩
        obtain ⟨⟨a, ha, hpre⟩, -⟩ := (hmem k).mp hk'
        obtain ⟨hx, -⟩ := (hr.mem_iff k).mp hk
        exact hnodup.1 (letter_eq hpre hx ▸ ha)
      · rw [List.mem_append, hr.mem_iff, hmem]
        simp only [List.map_cons, List.mem_cons, exists_eq_or_imp]
        tauto

-- A string that lies above `k` and is not longer than `p` lies above `p` as well.
theorem prefix_of_comparable {k : CStr} (hk : q <+: k) (hlen : q.length ≤ p.length)
    (hp : k <+: p ∨ p <+: k) : q <+: p := by
  cases hp with
  | inl hp => exact hk.trans hp
  | inr hp => exact List.prefix_of_prefix_length_le hk hp hlen

-- What is checked of a node holds for its children.
theorem check_next (hp : q <+: p ∨ p <+: q) (a : UInt8) :
    (q ++ [a]).length ≤ p.length ∨ p <+: q ++ [a] := by
  rcases hp with hpre | hpre
  · by_cases heq : q = p
    · exact Or.inr (heq ▸ List.prefix_append q [a])
    · obtain ⟨b, hb⟩ := exists_next hpre heq
      have hle := hb.length_le
      rw [List.length_append] at hle ⊢
      exact Or.inl hle
  · exact Or.inr (hpre.trans (List.prefix_append q [a]))

-- The walk reports the leaves whose key is comparable with the prefix: those nodes that are longer
-- than the prefix rely on the check of the nodes above them.
theorem getKeys_below (hclosed : ∀ q r, q <+: r → f q = none → f r = none) (h : Below f n q t)
    (hnode : f q ≠ none) (hstart : q ≠ [] ∨ ¬Leaf f q) (hcheck : q.length ≤ p.length ∨ p <+: q)
    (list : List (Option CStr)) :
    ∃ keys : List CStr, trieGetKeys t p list = list ++ keys.map some ∧ Reports f p q keys := by
  induction n generalizing q t list with
  | zero => cases h
  | succ n ih =>
      by_cases hstop : q.length ≤ p.length ∧ ¬q <+: p
      · refine ⟨[], ?_, List.nodup_nil, fun k => iff_of_false List.not_mem_nil ?_⟩
        · rw [h.getKeys_stop hstop.1 hstop.2, List.map_nil, List.append_nil]
        · rintro ⟨hk, -, hp⟩
          exact hstop.2 (prefix_of_comparable hk hstop.1 hp)
      · have hpass : p.length < q.length ∨ q <+: p := by
          by_contra hnot
          rw [not_or, Nat.not_lt] at hnot
          exact hstop hnot
        have hcomparable : q <+: p ∨ p <+: q := by
          cases hpass with
          | inl hlt => exact Or.inr (hcheck.resolve_left (Nat.not_le_of_lt hlt))
          | inr hpre => exact Or.inl hpre
        rcases t with ⟨tkey, tval, children⟩
        obtain ⟨hkey, kids, rfl, hnodup, hletters, hkids⟩ := h
        rw [getKeys_pass hkey hpass]
        by_cases hnil : kids = []
        · -- a leaf reports its own key
          subst hnil
          have hleaf : Leaf f q := ⟨hnode, fun a => by simpa using hletters a⟩
          have hne := hstart.resolve_right (not_not.mpr hleaf)
          exact ⟨[q], by rw [if_pos rfl, key_eq_some hkey hne]; rfl, .leaf hclosed hleaf hcomparable⟩
        · -- the other nodes pass the walk on
          have hinner : ¬Leaf f q := by
            obtain ⟨x, hx⟩ := List.exists_mem_of_ne_nil kids hnil
            exact fun hleaf => (hletters x.1).mp (List.mem_map_of_mem hx) (hleaf.2 x.1)
          obtain ⟨keys, hkeys, hnodup', hmem⟩ := getKeys_children hnodup (fun x hx list =>
            ih (hkids x hx).2 (by simp [(hkids x hx).1]) (Or.inl (by simp))
            (check_next hcomparable x.1) list) list
          refine ⟨keys, by rw [if_neg hnil]; exact hkeys, hnodup', fun k => (hmem k).trans ?_⟩
          rw [and_congr_left_iff]
          intro hk
          have hne : k ≠ q := by
            rintro rfl
            exact hinner hk.1
          exact (next_iff hclosed hletters hk.1.1).trans (and_iff_right hne)

end Below

end Trie

section Completion

variable {adds : List (CStr × Nat)}

-- The leaves are the added keys if none is the beginning of another one.
theorem leaf_iff_mem (hkeys : ∀ x ∈ adds, x.1 ≠ [])
    (hfree : ∀ x ∈ adds, ∀ y ∈ adds, x.1 <+: y.1 → x.1 = y.1) (hne : adds ≠ []) (k : CStr) :
    Trie.Leaf (nodeVal adds) k ↔ k ∈ adds.map Prod.fst := by
  unfold Trie.Leaf
  rw [nodeVal_leaf]
  constructor
  · rintro ⟨hnode, hlast⟩
    by_cases hk : k = []
    · -- the root is no leaf
      obtain ⟨x, hx⟩ := List.exists_mem_of_ne_nil adds hne
      subst hk
      exact absurd (hlast x hx List.nil_prefix).symm (hkeys x hx)
    · rw [Ne, nodeVal_eq_none hk] at hnode
      push Not at hnode
      obtain ⟨x, hx, hpre⟩ := hnode
      rw [hlast x hx hpre]
      exact List.mem_map_of_mem hx
  · intro hmem
    obtain ⟨x, hx, rfl⟩ := List.mem_map.mp hmem
    refine ⟨?_, hfree x hx⟩
    rw [Ne, nodeVal_eq_none (hkeys x hx)]
    exact fun hnone => hnone x hx (List.prefix_refl x.1)

-- The walk from the root reports every added key that begins with the string or that the string
-- begins with.
theorem getKeys_adds (hne : adds ≠ []) (hkeys : ∀ x ∈ adds, x.1 ≠ [])
    (hfree : ∀ x ∈ adds, ∀ y ∈ adds, x.1 <+: y.1 → x.1 = y.1) (p : CStr)
    (list : List (Option CStr)) : ∃ t, trieAddAll adds trieCreate = some t ∧
      ∃ keys : List CStr, trieGetKeys t p list = list ++ keys.map some ∧ keys.Nodup ∧
        ∀ k, k ∈ keys ↔ k ∈ adds.map Prod.fst ∧ (k <+: p ∨ p <+: k) := by
  obtain ⟨t, hadd, -, n, h⟩ := addAll_create adds
  have hroot : nodeVal adds [] ≠ none := by
    unfold nodeVal
    simp
  have hinner : ¬Trie.Leaf (nodeVal adds) [] := by
    rw [leaf_iff_mem hkeys hfree hne, List.mem_map]
    rintro ⟨x, hx, hnil⟩
    exact hkeys x hx hnil
  obtain ⟨keys, hget, hr⟩ := h.getKeys_below (fun _ _ => nodeVal_closed) hroot (Or.inr hinner)
    (Or.inl (Nat.zero_le p.length)) list
  refine ⟨t, hadd, keys, hget, hr.nodup, fun k => ?_⟩
  rw [hr.mem_iff, leaf_iff_mem hkeys hfree hne, iff_true_intro (List.nil_prefix (l := k)), true_and]

-- Completion gives the added keys that begin with the string, each once, if and only if no added
-- key is shorter than the string and the beginning of it. Such a key is given as well.
theorem trie_completion (hne : adds ≠ []) (hnodup : (adds.map Prod.fst).Nodup)
    (hkeys : ∀ x ∈ adds, x.1 ≠ []) (hfree : ∀ x ∈ adds, ∀ y ∈ adds, x.1 <+: y.1 → x.1 = y.1)
    (p : CStr) (list : List (Option CStr)) : ∃ t, trieAddAll adds trieCreate = some t ∧
      ((∃ keys : List CStr, trieGetKeys t p list = list ++ keys.map some ∧
        keys.Perm ((adds.map Prod.fst).filter fun k => p <+: k)) ↔
          ∀ x ∈ adds, x.1 <+: p → x.1 = p) := by
  obtain ⟨t, hadd, keys, hget, hnodup', hmem⟩ := getKeys_adds hne hkeys hfree p list
  refine ⟨t, hadd, ?_, ?_⟩
  · rintro ⟨keys', hget', hperm⟩ x hx hpre
    obtain rfl : keys' = keys := by
      rw [hget, List.append_right_inj] at hget'
      exact (List.map_injective_iff.mpr (fun _ _ => Option.some.inj) hget').symm
    have hx' := (hmem x.1).mpr ⟨List.mem_map_of_mem hx, Or.inl hpre⟩
    rw [hperm.mem_iff, List.mem_filter, decide_eq_true_iff] at hx'
    exact hpre.eq_of_length_le hx'.2.length_le
  · intro hlong
    refine ⟨keys, hget, (List.perm_ext_iff_of_nodup hnodup' (hnodup.filter _)).mpr fun k => ?_⟩
    rw [hmem, List.mem_filter, decide_eq_true_iff]
    refine and_congr_right fun hk => ⟨fun hp => hp.elim (fun hpre => ?_) id, Or.inr⟩
    obtain ⟨x, hx, rfl⟩ := List.mem_map.mp hk
    rw [hlong x hx hpre]

-- The keys ban, bad and c: two of them complete ba.
theorem trie_completion_two : ∃ t, trieAddAll [([98, 97, 110], 1), ([98, 97, 100], 2), ([99], 3)]
    trieCreate = some t ∧ ∃ keys : List CStr, trieGetKeys t [98, 97] [] = [] ++ keys.map some ∧
      keys.Perm [[98, 97, 110], [98, 97, 100]] := by
  obtain ⟨t, hadd, hiff⟩ := trie_completion
    (show [([98, 97, 110], 1), ([98, 97, 100], 2), (([99] : CStr), 3)] ≠ [] by decide)
    (by decide) (by decide) (by decide) [98, 97] []
  exact ⟨t, hadd, hiff.mpr (by decide)⟩

-- The key q is given for the string qx, which it does not begin with.
theorem trie_completion_short : ∃ t, trieAddAll [([113], 1)] trieCreate = some t ∧
    trieGetKeys t [113, 120] [] = [some [113]] ∧ ¬([113, 120] : CStr) <+: [113] :=
  ⟨_, rfl, by decide, by decide⟩

end Completion

end Adventure

import Adventure.Struct.Trie.Nodes

namespace Adventure

-- The additions one after the other.
def trieAddAll : List (CStr × Nat) → Trie → Option Trie
  | [], trie => some trie
  | (key, val) :: adds, trie => do
      let r ← trieAdd trie key val
      trieAddAll adds r.2

-- A node is made for each prefix of a key, with the value of the first key that needs it. The root
-- is there from the start, with the value NULL.
def nodeVal (adds : List (CStr × Nat)) (q : CStr) : Option Nat :=
  if q = [] then some 0 else (adds.find? fun x => q <+: x.1).map Prod.snd

section NodeVal

variable {adds : List (CStr × Nat)} {q r key : CStr} {val : Nat}

theorem nodeVal_eq_none (hq : q ≠ []) : nodeVal adds q = none ↔ ∀ x ∈ adds, ¬q <+: x.1 := by
  rw [nodeVal, if_neg hq]
  simp

theorem nodeVal_closed (hpre : q <+: r) (h : nodeVal adds q = none) : nodeVal adds r = none := by
  by_cases hq : q = []
  · rw [nodeVal, if_pos hq] at h
    cases h
  · have hr : r ≠ [] := by
      rintro rfl
      exact hq (List.prefix_nil.mp hpre)
    rw [nodeVal_eq_none hq] at h
    rw [nodeVal_eq_none hr]
    exact fun x hx hrx => h x hx (hpre.trans hrx)

theorem nodeVal_extends (adds : List (CStr × Nat)) (key : CStr) (val : Nat) :
    Trie.Extends (nodeVal adds) (nodeVal (adds ++ [(key, val)])) key val where
  other q hq := by
    have hne : q ≠ [] := by
      rintro rfl
      exact hq List.nil_prefix
    rw [nodeVal, nodeVal, if_neg hne, if_neg hne, List.find?_append]
    simp [hq]
  new q hq := by
    by_cases hne : q = []
    · rw [nodeVal, nodeVal, if_pos hne, if_pos hne]
      rfl
    · rw [nodeVal, nodeVal, if_neg hne, if_neg hne, List.find?_append]
      cases adds.find? fun x => q <+: x.1 <;> simp [hq]
  closed q r hpre h := nodeVal_closed hpre h

-- A key that is no prefix of another key has its own value.
theorem nodeVal_of_mem (hnodup : (adds.map Prod.fst).Nodup) (hmem : (q, val) ∈ adds) (hq : q ≠ [])
    (hlast : ∀ x ∈ adds, q <+: x.1 → q = x.1) : nodeVal adds q = some val := by
  rw [nodeVal, if_neg hq]
  cases hf : adds.find? fun x => q <+: x.1 with
  | none =>
      have hnone := List.find?_eq_none.mp hf (q, val) hmem
      simp at hnone
  | some x =>
      have hx := List.mem_of_find?_eq_some hf
      have hpre : q <+: x.1 := by simpa using List.find?_some hf
      have heq := hlast x hx hpre
      obtain rfl : x = (q, val) :=
        List.inj_on_of_nodup_map hnodup hx hmem heq.symm
      rfl

theorem mem_of_nodeVal (hq : q ≠ []) (h : nodeVal adds q = some val) :
    ∃ x ∈ adds, x.2 = val ∧ q <+: x.1 := by
  rw [nodeVal, if_neg hq, Option.map_eq_some_iff] at h
  obtain ⟨x, hx, hval⟩ := h
  exact ⟨x, List.mem_of_find?_eq_some hx, hval, by simpa using List.find?_some hx⟩

-- The node of a prefix has a child when a longer key goes on from it.
theorem exists_next (hpre : q <+: r) (hne : q ≠ r) : ∃ a, q ++ [a] <+: r := by
  obtain ⟨rest, rfl⟩ := hpre
  cases rest with
  | nil => simp at hne
  | cons a rest => exact ⟨a, Trie.prefix_of_next q a rest⟩

-- The longer keys with a node go on with a letter that has one.
theorem next_iff {f : CStr → Option Nat} (hclosed : ∀ q r, q <+: r → f q = none → f r = none)
    {letters : List UInt8} (hletters : ∀ a, a ∈ letters ↔ f (q ++ [a]) ≠ none) (hr : f r ≠ none) :
    (∃ a ∈ letters, q ++ [a] <+: r) ↔ r ≠ q ∧ q <+: r := by
  constructor
  · rintro ⟨a, -, hpre⟩
    refine ⟨?_, (List.prefix_append q [a]).trans hpre⟩
    rintro rfl
    exact not_prefix_longer r a hpre
  · rintro ⟨hne, hpre⟩
    obtain ⟨a, ha⟩ := exists_next hpre (Ne.symm hne)
    exact ⟨a, (hletters a).mpr fun hnone => hr (hclosed _ _ ha hnone), ha⟩

theorem nodeVal_leaf : (∀ a, nodeVal adds (q ++ [a]) = none) ↔ ∀ x ∈ adds, q <+: x.1 → q = x.1 := by
  constructor
  · intro h x hx hpre
    by_contra hne
    obtain ⟨a, ha⟩ := exists_next hpre hne
    exact (nodeVal_eq_none (by simp)).mp (h a) x hx ha
  · intro h a
    rw [nodeVal_eq_none (by simp)]
    intro x hx ha
    have heq := h x hx ((List.prefix_append q [a]).trans ha)
    rw [← heq] at ha
    exact not_prefix_longer q a ha

end NodeVal

section Lookup

variable {adds : List (CStr × Nat)}

theorem lookup_eq_some {q : CStr} {val : Nat} (hnodup : (adds.map Prod.fst).Nodup) :
    adds.lookup q = some val ↔ (q, val) ∈ adds := by
  induction adds with
  | nil => simp
  | cons x adds ih =>
      rw [List.map_cons, List.nodup_cons] at hnodup
      rw [List.lookup_cons, List.mem_cons]
      by_cases hq : q = x.1
      · have hnot : (q, val) ∉ adds := by
          intro hmem
          exact hnodup.1 (hq ▸ List.mem_map_of_mem hmem)
        subst hq
        rw [BEq.rfl]
        simp only [Option.some.injEq, hnot, or_false]
        exact ⟨fun h => h ▸ rfl, fun h => (congrArg Prod.snd h).symm⟩
      · rw [beq_eq_false_iff_ne.mpr hq]
        simp only [ih hnodup.2]
        refine ⟨Or.inr, fun h => h.resolve_left ?_⟩
        rintro rfl
        exact hq rfl

-- The trie after a run: it stands for the values of the prefixes.
theorem addAll_below (rest : List (CStr × Nat)) {n : Nat} {t : Trie}
    (h : Trie.Below (nodeVal adds) n [] t) (hval : t.val = 0) : ∃ t', trieAddAll rest t = some t' ∧
      t'.val = 0 ∧ ∃ n', Trie.Below (nodeVal (adds ++ rest)) n' [] t' := by
  induction rest generalizing adds n t with
  | nil => exact ⟨t, rfl, hval, n, by rwa [List.append_nil]⟩
  | cons x rest ih =>
      rcases x with ⟨key, val⟩
      obtain ⟨t₁, hadd, hval₁, h₁⟩ := Trie.add_below (nodeVal_extends adds key val) h
        List.nil_prefix (show key.length < strlen key + 2 + ([] : CStr).length by
          unfold strlen
          omega)
      obtain ⟨t', hrest, hval', n', h'⟩ := ih h₁ (hval₁.trans hval)
      refine ⟨t', ?_, hval', n', by simpa using h'⟩
      rw [trieAddAll, trieAdd, hadd]
      exact hrest

theorem addAll_create (adds : List (CStr × Nat)) : ∃ t, trieAddAll adds trieCreate = some t ∧
    t.val = 0 ∧ ∃ n, Trie.Below (nodeVal adds) n [] t := by
  have hroot : Trie.Below (nodeVal []) 1 [] trieCreate := by
    refine ⟨rfl, [], rfl, List.nodup_nil, fun a => iff_of_false (by simp) ?_, by simp⟩
    exact not_not.mpr ((nodeVal_eq_none (by simp)).mpr (by simp))
  exact addAll_below adds hroot rfl

-- A trie finds exactly what was added if, and only if, no key is the beginning of another one.
theorem trie_lookup (hnodup : (adds.map Prod.fst).Nodup) (hkeys : ∀ x ∈ adds, x.1 ≠ [])
    (hvals : ∀ x ∈ adds, x.2 ≠ 0) : ∃ t, trieAddAll adds trieCreate = some t ∧
      ((∀ q, q ≠ [] → trieGet t q = some ((adds.lookup q).getD 0)) ↔
        ∀ x ∈ adds, ∀ y ∈ adds, x.1 <+: y.1 → x.1 = y.1) := by
  obtain ⟨t, hadd, hval, n, h⟩ := addAll_create adds
  have hroot : nodeVal adds [] = some t.val := by
    rw [hval]
    rfl
  have hget : ∀ q, ∃ res, trieGetSubtrieFrom (strlen q + 2) t q = some res ∧
      ∀ v, res.map Trie.val = some v ↔
        nodeVal adds q = some v ∧ ∀ x ∈ adds, q <+: x.1 → q = x.1 := by
    intro q
    obtain ⟨res, hres, hiff⟩ := Trie.get_below (fun _ _ => nodeVal_closed) h hroot
      (List.nil_prefix (l := q)) (show q.length + 1 < strlen q + 2 + ([] : CStr).length by
        unfold strlen
        omega)
    exact ⟨res, hres, fun v => by rw [hiff, nodeVal_leaf]⟩
  refine ⟨t, hadd, ?_, ?_⟩
  · intro hfound x hx y hy hpre
    by_contra hne
    obtain ⟨res, hres, hiff⟩ := hget x.1
    have hq := hfound x.1 (hkeys x hx)
    have hlookup := (lookup_eq_some hnodup).mpr hx
    have hnone : res.map Trie.val = none := by
      rw [Option.eq_none_iff_forall_ne_some]
      exact fun v hv => hne (((hiff v).mp hv).2 y hy hpre)
    rw [trieGet, hres, hlookup] at hq
    simp only [Option.bind_eq_bind, Option.bind_some, hnone] at hq
    exact hvals x hx (Option.some.inj hq).symm
  · intro hlast q hq
    obtain ⟨res, hres, hiff⟩ := hget q
    suffices hsuff : res.map Trie.val = adds.lookup q by
      rw [trieGet, hres, ← hsuff]
      rfl
    apply Option.ext
    intro v
    rw [hiff, lookup_eq_some hnodup]
    constructor
    · rintro ⟨hv, hpre⟩
      obtain ⟨x, hx, rfl, hqx⟩ := mem_of_nodeVal hq hv
      obtain rfl := hpre x hx hqx
      exact hx
    · intro hmem
      have hpre := hlast (q, v) hmem
      exact ⟨nodeVal_of_mem hnodup hmem hq hpre, hpre⟩

-- The keys ban, bad and c, as the letters are.
theorem trie_lookup_three : ∃ t, trieAddAll [([98, 97, 110], 1), ([98, 97, 100], 2), ([99], 3)]
    trieCreate = some t ∧ trieGet t [98, 97, 100] = some 2 ∧ trieGet t [98, 97] = some 0 := by
  have hnodup : ([([98, 97, 110], 1), ([98, 97, 100], 2), ([99], 3)].map
      (Prod.fst : CStr × Nat → CStr)).Nodup := by decide
  obtain ⟨t, hadd, hiff⟩ := trie_lookup hnodup (by decide) (by decide)
  have hget := hiff.mpr (by decide)
  exact ⟨t, hadd, hget [98, 97, 100] (by decide), hget [98, 97] (by decide)⟩

-- After a and then ab, a is not found.
theorem trie_prefix_lost : ∃ t, trieAddAll [([97], 1), ([97, 98], 2)] trieCreate = some t ∧
    trieGet t [97] = some 0 ∧ List.lookup [97] [([97], 1), ([97, 98], 2)] = some 1 :=
  ⟨_, rfl, by decide, by decide⟩

end Lookup

end Adventure

import Adventure.Struct.Trie.Theorems

namespace Adventure

-- The keys of all nodes but the root, each behind the key of its parent.
mutual

def trieLinks : Trie → List (Option CStr × Option CStr)
  | .node tkey _ children =>
      match children with
      | some cs => trieChildLinks tkey cs
      | none => []

def trieChildLinks (parent : Option CStr) : List Trie → List (Option CStr × Option CStr)
  | [] => []
  | child :: rest => (parent, child.key) :: trieLinks child ++ trieChildLinks parent rest

end

-- The key of the node for a string. The root has the key NULL.
def nodeKey (k : CStr) : Option CStr := if k = [] then none else some k

-- Each string of a set is the key of one node, below that of the string without its last letter.
structure LinksOf (mem : CStr → Prop) (links : List (Option CStr × Option CStr)) : Prop where
  nodup : (links.map Prod.snd).Nodup
  mem_iff : ∀ parent key, (parent, key) ∈ links ↔ ∃ k, k ≠ [] ∧ mem k ∧ key = nodeKey k ∧
    parent = nodeKey k.dropLast

theorem nodeKey_inj {k k' : CStr} (h : nodeKey k = nodeKey k') : k = k' := by
  unfold nodeKey at h
  by_cases hk : k = []
  · by_cases hk' : k' = []
    · rw [hk, hk']
    · rw [if_pos hk, if_neg hk'] at h
      cases h
  · by_cases hk' : k' = []
    · rw [if_neg hk, if_pos hk'] at h
      cases h
    · rw [if_neg hk, if_neg hk'] at h
      exact Option.some.inj h

namespace LinksOf

variable {mem mem' : CStr → Prop} {links links' : List (Option CStr × Option CStr)} {k : CStr}

theorem congr (h : LinksOf mem links) (hiff : ∀ k, k ≠ [] → (mem k ↔ mem' k)) :
    LinksOf mem' links where
  nodup := h.nodup
  mem_iff parent key := by
    rw [h.mem_iff]
    apply exists_congr
    intro k
    rw [and_congr_right_iff]
    intro hk
    rw [hiff k hk]

theorem nil : LinksOf (fun _ => False) [] := ⟨List.nodup_nil, by simp⟩

theorem key_mem (h : LinksOf mem links) (hm : nodeKey k ∈ links.map Prod.snd) : k ≠ [] ∧ mem k := by
  obtain ⟨⟨parent, key⟩, hl, heq⟩ := List.mem_map.mp hm
  obtain ⟨k', hne, hk', hkey, -⟩ := (h.mem_iff parent key).mp hl
  obtain rfl : k' = k := nodeKey_inj (hkey.symm.trans heq)
  exact ⟨hne, hk'⟩

theorem cons (h : LinksOf mem links) (hne : k ≠ []) (hk : ¬mem k) :
    LinksOf (fun k' => k' = k ∨ mem k') ((nodeKey k.dropLast, nodeKey k) :: links) where
  nodup := List.nodup_cons.mpr ⟨fun hm => hk (h.key_mem hm).2, h.nodup⟩
  mem_iff parent key := by
    rw [List.mem_cons, Prod.mk.injEq, h.mem_iff]
    constructor
    · rintro (⟨hp, hkey⟩ | ⟨k', hne', hk', hkey, hp⟩)
      · exact ⟨k, hne, Or.inl rfl, hkey, hp⟩
      · exact ⟨k', hne', Or.inr hk', hkey, hp⟩
    · rintro ⟨k', hne', rfl | hk', hkey, hp⟩
      · exact Or.inl ⟨hp, hkey⟩
      · exact Or.inr ⟨k', hne', hk', hkey, hp⟩

theorem append (h : LinksOf mem links) (h' : LinksOf mem' links')
    (hdis : ∀ k, mem k → ¬mem' k) : LinksOf (fun k => mem k ∨ mem' k) (links ++ links') where
  nodup := by
    rw [List.map_append, List.nodup_append']
    refine ⟨h.nodup, h'.nodup, fun key hkey hkey' => ?_⟩
    obtain ⟨⟨parent, key⟩, hl, rfl⟩ := List.mem_map.mp hkey
    obtain ⟨k, -, hk, rfl, -⟩ := (h.mem_iff parent key).mp hl
    exact hdis k hk (h'.key_mem hkey').2
  mem_iff parent key := by
    rw [List.mem_append, h.mem_iff, h'.mem_iff, ← exists_or]
    apply exists_congr
    intro k
    tauto

end LinksOf

namespace Trie

-- An addition fails only where the key of the node does not match, and changes nothing there.
theorem add_cases (steps : Nat) {t : Trie} {key : CStr} {val : Nat} {r : Int × Trie}
    (h : trieAddFrom steps t key val = some r) :
    (t.key.getD [] <+: key ∧ r.1 = 0 ∧ r.2.key = t.key) ∨
      (¬t.key.getD [] <+: key ∧ r = (-1, t)) := by
  induction steps generalizing t r with
  | zero => cases h
  | succ steps ih =>
      rcases t with ⟨tkey, tval, children⟩
      rw [trieAddFrom, keyLen_eq] at h
      by_cases hmatch : tkey.getD [] <+: key
      · refine Or.inl ⟨hmatch, ?_⟩
        rw [if_neg (not_not.mpr ((strncmp_eq_iff _ _).mpr hmatch))] at h
        by_cases hlen : (tkey.getD []).length = strlen key
        · rw [if_pos hlen] at h
          cases h
          exact ⟨rfl, rfl⟩
        · rw [if_neg hlen] at h
          simp only [Option.bind_eq_bind, Option.bind_eq_some_iff] at h
          obtain ⟨rs, -, h⟩ := h
          by_cases hfound : rs.1 = 0
          · rw [if_pos hfound] at h
            cases h
            exact ⟨rfl, rfl⟩
          · rw [if_neg hfound] at h
            obtain ⟨added, hadd, h⟩ := Option.bind_eq_some_iff.mp h
            cases h
            refine ⟨?_, rfl⟩
            -- the key of the new node is a beginning of the key
            rcases ih hadd with ⟨-, hzero, -⟩ | ⟨hnot, -⟩
            · exact hzero
            · exact absurd (List.take_prefix _ key) hnot
      · refine Or.inr ⟨hmatch, ?_⟩
        rw [if_pos (mt (strncmp_eq_iff _ _).mp hmatch)] at h
        exact (Option.some.inj h).symm

namespace Below

variable {f : CStr → Option Nat} {n : Nat} {p : CStr} {t : Trie}

theorem key_eq_nodeKey (h : Below f n p t) (hp : p ≠ []) : t.key = nodeKey p := by
  unfold nodeKey
  rw [if_neg hp]
  exact key_eq_some h.key_eq hp

-- The nodes of the children lie apart, since no string goes on with two letters.
theorem childLinks {kids : List (UInt8 × Trie)} (hnodup : (kids.map Prod.fst).Nodup)
    (hkids : ∀ x ∈ kids, x.2.key = nodeKey (p ++ [x.1]) ∧
      LinksOf (fun k => k ≠ p ++ [x.1] ∧ p ++ [x.1] <+: k ∧ f k ≠ none) (trieLinks x.2))
    (hnode : ∀ x ∈ kids, f (p ++ [x.1]) ≠ none) :
    LinksOf (fun k => (∃ a ∈ kids.map Prod.fst, p ++ [a] <+: k) ∧ f k ≠ none)
      (trieChildLinks (nodeKey p) (kids.map Prod.snd)) := by
  induction kids with
  | nil =>
      apply LinksOf.nil.congr
      simp
  | cons x kids ih =>
      rw [List.map_cons, List.nodup_cons] at hnodup
      rw [List.forall_mem_cons] at hkids hnode
      obtain ⟨⟨hkey, hlinks⟩, hkids⟩ := hkids
      have hone := hlinks.cons (k := p ++ [x.1]) (by simp) fun h => h.1 rfl
      have hall := hone.append (ih hnodup.2 hkids hnode.2) ?_
      · rw [List.dropLast_concat] at hall
        rw [List.map_cons, List.map_cons, trieChildLinks, hkey]
        apply hall.congr
        intro k _
        simp only [List.mem_cons, exists_eq_or_imp]
        constructor
        · rintro ((rfl | ⟨-, hpre, hk⟩) | ⟨hex, hk⟩)
          · exact ⟨Or.inl (List.prefix_refl _), hnode.1⟩
          · exact ⟨Or.inl hpre, hk⟩
          · exact ⟨Or.inr hex, hk⟩
        · rintro ⟨hpre | hex, hk⟩
          · by_cases heq : k = p ++ [x.1]
            · exact Or.inl (Or.inl heq)
            · exact Or.inl (Or.inr ⟨heq, hpre, hk⟩)
          · exact Or.inr ⟨hex, hk⟩
      · rintro k hk ⟨⟨a, ha, hpre⟩, -⟩
        have hx : p ++ [x.1] <+: k := by
          rcases hk with rfl | ⟨-, hx, -⟩
          · exact List.prefix_refl _
          · exact hx
        exact hnodup.1 (letter_eq hpre hx ▸ ha)

theorem links (hclosed : ∀ q r, q <+: r → f q = none → f r = none) (h : Below f n p t)
    (hkey : t.key = nodeKey p) :
    LinksOf (fun k => k ≠ p ∧ p <+: k ∧ f k ≠ none) (trieLinks t) := by
  induction n generalizing p t with
  | zero => cases h
  | succ n ih =>
      rcases t with ⟨tkey, tval, children⟩
      obtain ⟨-, kids, rfl, hnodup, hletters, hkids⟩ := h
      obtain rfl : tkey = nodeKey p := hkey
      have hnode : ∀ x ∈ kids, f (p ++ [x.1]) ≠ none := by
        intro x hx
        rw [(hkids x hx).1]
        simp
      have hall := childLinks hnodup (fun x hx =>
        ⟨(hkids x hx).2.key_eq_nodeKey (by simp), ih (hkids x hx).2
          ((hkids x hx).2.key_eq_nodeKey (by simp))⟩) hnode
      have hlinks : trieLinks (.node (nodeKey p) tval (if kids = [] then none else
          some (kids.map Prod.snd))) = trieChildLinks (nodeKey p) (kids.map Prod.snd) := by
        unfold trieLinks
        by_cases hnil : kids = []
        · rw [if_pos hnil, hnil]
          rfl
        · rw [if_neg hnil]
      rw [hlinks]
      apply hall.congr
      intro k _
      rw [← and_assoc, and_congr_left_iff]
      exact fun hk => next_iff hclosed hletters hk

end Below

end Trie

section Shape

variable {adds : List (CStr × Nat)}

-- The root keeps its key.
theorem addAll_key (adds : List (CStr × Nat)) {t t' : Trie} (h : trieAddAll adds t = some t') :
    t'.key = t.key := by
  induction adds generalizing t with
  | nil => exact congrArg Trie.key (Option.some.inj h).symm
  | cons x adds ih =>
      rcases x with ⟨key, val⟩
      rw [trieAddAll, Option.bind_eq_bind, Option.bind_eq_some_iff] at h
      obtain ⟨r, hadd, hrest⟩ := h
      rw [ih hrest]
      rcases Trie.add_cases _ hadd with ⟨-, -, hkey⟩ | ⟨-, rfl⟩
      · exact hkey
      · rfl

-- The shape of a trie after any additions: the next addition succeeds, there is one node for each
-- prefix of a key, below the node of the prefix that is one letter shorter, and an attempt at a
-- node that does not match returns the node as it was.
theorem trie_shape (adds : List (CStr × Nat)) : ∃ t, trieAddAll adds trieCreate = some t ∧
    (∀ key val, ∃ t', trieAdd t key val = some (0, t')) ∧
    ((trieLinks t).map Prod.snd).Nodup ∧
    (∀ parent key, (parent, key) ∈ trieLinks t ↔ ∃ k, k ≠ [] ∧ (∃ x ∈ adds, k <+: x.1) ∧
      key = some k ∧ parent = if k.length = 1 then none else some k.dropLast) ∧
    ∀ (child : Trie) (steps : Nat) (key : CStr) (val : Nat) (r : Int × Trie),
      trieAddFrom steps child key val = some r → r.1 ≠ 0 →
        ¬child.key.getD [] <+: key ∧ r = (-1, child) := by
  obtain ⟨t, hadd, -, n, h⟩ := addAll_create adds
  have hlinks := h.links (fun _ _ => nodeVal_closed) (addAll_key adds hadd)
  refine ⟨t, hadd, fun key val => ?_, hlinks.nodup, fun parent key => ?_, ?_⟩
  · obtain ⟨t', hr, -⟩ := Trie.add_below (nodeVal_extends adds key val) h List.nil_prefix
      (show key.length < strlen key + 2 + ([] : CStr).length by
        unfold strlen
        omega)
    exact ⟨t', hr⟩
  · rw [hlinks.mem_iff]
    apply exists_congr
    intro k
    rw [and_congr_right_iff]
    intro hk
    have hparent : nodeKey k.dropLast = if k.length = 1 then none else some k.dropLast := by
      unfold nodeKey
      have hpos := List.length_pos_iff.mpr hk
      simp only [← List.length_eq_zero_iff, List.length_dropLast]
      by_cases hone : k.length = 1
      · rw [if_pos hone, if_pos (by omega)]
      · rw [if_neg hone, if_neg (by omega)]
    have hmem : (k ≠ [] ∧ [] <+: k ∧ nodeVal adds k ≠ none) ↔ ∃ x ∈ adds, k <+: x.1 := by
      rw [Ne, Ne, nodeVal_eq_none hk]
      push Not
      exact ⟨fun hand => hand.2.2, fun hex => ⟨hk, List.nil_prefix, hex⟩⟩
    rw [hmem, hparent, nodeKey, if_neg hk]
  · intro child steps key val r hr hne
    rcases Trie.add_cases steps hr with ⟨-, hzero, -⟩ | ⟨hnot, heq⟩
    · exact absurd hzero hne
    · exact ⟨hnot, heq⟩

end Shape

end Adventure

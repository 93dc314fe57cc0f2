import Adventure.Library.Shadow
import Adventure.Struct.Hashmap
import Adventure.Struct.List.Cells

namespace Adventure

open Links Shadow

-- An entry of a bucket: the list element, the hash entry it points to, and what that holds.
structure ChainEntry (κ : Type) where
  elem : Nat
  entry : Nat
  key : κ
  val : Nat

def ChainEntry.cell {κ : Type} (n : ChainEntry κ) : Nat × Nat := (n.elem, n.entry)

-- What the users of a map promise about its functions.
structure Hashmap.Lawful {κ : Type} (map : Hashmap κ) : Prop where
  same : Equivalence fun a b => map.compare a b = 0
  hash_eq : ∀ a b, map.compare a b = 0 → map.hash a = map.hash b

def IsBucket {κ : Type} (h : ListHeap) : Option ListHdr → List (ChainEntry κ) → Prop
  | none, chain => chain = []
  | some list, chain => IsList h list (chain.map (·.cell))

-- The hash entry of `n` lies in the bucket that its key belongs to.
structure EntryAt {κ : Type} (h : HashHeap κ) (map : Hashmap κ) (i : Nat) (n : ChainEntry κ) : Prop where
  ne_zero : n.entry ≠ 0
  entry_eq : h.entries n.entry = some ⟨n.key, n.val, map.hash n.key⟩
  index_eq : hmapIndex map n.key = i

-- The invariant of a map: `chains i` is what bucket number `i` holds, and no element or entry is
-- used twice.
structure Chains {κ : Type} (h : HashHeap κ) (map : Hashmap κ) (chains : Nat → List (ChainEntry κ)) :
    Prop where
  length : map.buckets.length = map.size
  bucket : ∀ i < map.size, ∃ b, map.buckets[i]? = some b ∧ IsBucket h.elems b (chains i)
  entry : ∀ i < map.size, ∀ n ∈ chains i, EntryAt h map i n
  nodup : ∀ i < map.size, ((chains i).map (·.entry)).Nodup
  apart : ∀ i < map.size, ∀ j < map.size, i ≠ j → ∀ n ∈ chains i, ∀ n' ∈ chains j,
    n.elem ≠ n'.elem ∧ n.entry ≠ n'.entry

section

variable {κ : Type} {h h' : HashHeap κ} {map : Hashmap κ} {chains : Nat → List (ChainEntry κ)}
  {chain chain' : List (ChainEntry κ)} {i : Nat}

theorem addrs_cells (chain : List (ChainEntry κ)) :
    addrs (chain.map (·.cell)) = chain.map (·.elem) := by
  rw [addrs, List.map_map]
  rfl

theorem IsBucket.allocated {b : Option ListHdr} (hb : IsBucket h.elems b chain) {n : ChainEntry κ}
    (hn : n ∈ chain) : ∃ node, h.elems n.elem = some node := by
  cases b with
  | none =>
      unfold IsBucket at hb
      subst hb
      cases hn
  | some list =>
      have hl : IsList h.elems list (chain.map (·.cell)) := hb
      exact hl.linked.exists_node (by rw [addrs_cells]; exact List.mem_map_of_mem hn)

theorem IsBucket.congr {b : Option ListHdr} (hb : IsBucket h.elems b chain)
    (heq : ∀ n ∈ chain, h'.elems n.elem = h.elems n.elem) : IsBucket h'.elems b chain := by
  cases b with
  | none => exact hb
  | some list =>
      apply IsList.congr hb
      rw [addrs_cells, List.forall_mem_map]
      exact heq

theorem hmapIndex_lt (hsize : 0 < map.size) (key : κ) : hmapIndex map key < map.size :=
  Nat.mod_lt _ hsize

namespace Chains

-- An entry of another bucket is allocated and not in this one.
theorem other {j : Nat} (hc : Chains h map chains) (hi : i < map.size) (hj : j < map.size) (hji : j ≠ i)
    {n : ChainEntry κ} (hn : n ∈ chains j) : n.elem ∉ (chains i).map (·.elem) ∧
      h.elems n.elem ≠ none ∧ n.entry ∉ (chains i).map (·.entry) ∧ h.entries n.entry ≠ none := by
  obtain ⟨b, -, hb⟩ := hc.bucket j hj
  obtain ⟨node, hnode⟩ := hb.allocated hn
  refine ⟨fun hm => ?_, by simp [hnode], fun hm => ?_, by simp [(hc.entry j hj n hn).entry_eq]⟩
  · obtain ⟨n', hn', he⟩ := List.mem_map.mp hm
    exact (hc.apart j hj i hi hji n hn n' hn').1 he.symm
  · obtain ⟨n', hn', he⟩ := List.mem_map.mp hm
    exact (hc.apart j hj i hi hji n hn n' hn').2 he.symm

-- One bucket is replaced. What is written is its own or was not allocated before, so that the
-- other buckets stay as they are.
theorem update {list : ListHdr} (hc : Chains h map chains) (hi : i < map.size)
    (hlist : IsList h'.elems list (chain'.map (·.cell)))
    (hentry : ∀ n ∈ chain', EntryAt h' map i n) (hnodup : (chain'.map (·.entry)).Nodup)
    (helems : ∀ a, a ∉ (chains i).map (·.elem) → h.elems a ≠ none → h'.elems a = h.elems a)
    (hentries : ∀ a, a ∉ (chains i).map (·.entry) → h.entries a ≠ none → h'.entries a = h.entries a)
    (hown : ∀ n ∈ chain', (n.elem ∈ (chains i).map (·.elem) ∨ h.elems n.elem = none) ∧
      (n.entry ∈ (chains i).map (·.entry) ∨ h.entries n.entry = none)) :
    Chains h' { map with buckets := map.buckets.set i (some list) } (Function.update chains i chain') := by
  have happart : ∀ j < map.size, j ≠ i → ∀ n ∈ chain', ∀ n' ∈ chains j,
      n.elem ≠ n'.elem ∧ n.entry ≠ n'.entry := by
    intro j hj hji n hn n' hn'
    obtain ⟨hne, hna, hme, hma⟩ := hc.other hi hj hji hn'
    obtain ⟨he, hm⟩ := hown n hn
    exact ⟨fun h' => he.elim (h' ▸ hne) (h' ▸ hna), fun h' => hm.elim (h' ▸ hme) (h' ▸ hma)⟩
  refine ⟨by rw [List.length_set]; exact hc.length, fun j hj => ?_, fun j hj => ?_, fun j hj => ?_,
    fun j hj k hk hjk => ?_⟩
  · by_cases hji : j = i
    · subst hji
      rw [Function.update_self]
      exact ⟨some list, by simp [List.getElem?_set_self (hc.length ▸ hi)], hlist⟩
    · obtain ⟨b, hb, hbucket⟩ := hc.bucket j hj
      rw [Function.update_of_ne hji]
      refine ⟨b, by rw [List.getElem?_set_ne (Ne.symm hji), hb], hbucket.congr fun n hn => ?_⟩
      obtain ⟨hm, ha, -, -⟩ := hc.other hi hj hji hn
      exact helems _ hm ha
  · by_cases hji : j = i
    · subst hji
      rw [Function.update_self]
      exact fun n hn => ⟨(hentry n hn).ne_zero, (hentry n hn).entry_eq, (hentry n hn).index_eq⟩
    · rw [Function.update_of_ne hji]
      intro n hn
      obtain ⟨-, -, hm, ha⟩ := hc.other hi hj hji hn
      have hn := hc.entry j hj n hn
      exact ⟨hn.ne_zero, (hentries _ hm ha).trans hn.entry_eq, hn.index_eq⟩
  · by_cases hji : j = i
    · subst hji
      rwa [Function.update_self]
    · rw [Function.update_of_ne hji]
      exact hc.nodup j hj
  · by_cases hji : j = i
    · subst hji
      rw [Function.update_self, Function.update_of_ne (Ne.symm hjk)]
      exact happart k hk (Ne.symm hjk)
    · rw [Function.update_of_ne hji]
      by_cases hki : k = i
      · subst hki
        rw [Function.update_self]
        intro n hn n' hn'
        obtain ⟨he, hm⟩ := happart j hj hji n' hn' n hn
        exact ⟨he.symm, hm.symm⟩
      · rw [Function.update_of_ne hki]
        exact hc.apart j hj k hk hjk

end Chains

section Search

variable {list : ListHdr}

-- The loop of hmap_get_entry ends at the first entry with the same key.
theorem getEntryFrom_eq (hmap : map.Lawful) {back first last : Nat}
    (hs : Segment h.elems back first (chain.map (·.cell)) last 0) (hpos : ∀ n ∈ chain, 0 < n.elem)
    (hentry : ∀ n ∈ chain, EntryAt h map i n) (key : κ) {steps : Nat} (hsteps : chain.length < steps) :
    hmapGetEntryFrom h key (map.hash key) map.compare steps first =
      some (((chain.find? fun n => map.compare n.key key = 0).map (·.elem)).getD 0) := by
  induction chain generalizing back first steps with
  | nil =>
      obtain ⟨steps, rfl⟩ : ∃ n, steps = n + 1 := ⟨steps - 1, by omega⟩
      rw [hmapGetEntryFrom, if_pos hs.1]
      rfl
  | cons n chain ih =>
      rw [List.length_cons] at hsteps
      obtain ⟨steps, rfl⟩ : ∃ n, steps = n + 1 := ⟨steps - 1, by omega⟩
      obtain ⟨rfl, next, hnode, hrest⟩ := hs
      simp only [List.forall_mem_cons] at hpos hentry
      have hcell : n.cell.1 ≠ 0 := hpos.1.ne'
      rw [hmapGetEntryFrom, if_neg hcell]
      simp only [hnode, Option.bind_eq_bind, Option.bind_some]
      rw [if_neg (show n.cell.2 ≠ 0 from hentry.1.ne_zero)]
      simp only [ChainEntry.cell, hentry.1.entry_eq, Option.bind_some, List.find?_cons]
      by_cases hk : map.compare n.key key = 0
      · rw [if_pos ⟨hmap.hash_eq _ _ hk, hk⟩]
        simp [hk]
      · rw [if_neg fun hand => hk hand.2]
        simp only [hk, decide_false]
        exact ih hrest hpos.2 hentry.2 (by omega)

theorem getEntry_eq (hmap : map.Lawful) (hl : IsList h.elems list (chain.map (·.cell)))
    (hentry : ∀ n ∈ chain, EntryAt h map i n) (key : κ) :
    hmapGetEntry h list key (map.hash key) map.compare =
      some (((chain.find? fun n => map.compare n.key key = 0).map (·.elem)).getD 0) := by
  refine getEntryFrom_eq hmap hl.linked (fun n hn => ?_) hentry key ?_
  · exact (hl.addr n.elem (by rw [addrs_cells]; exact List.mem_map_of_mem hn)).1
  · have hlen := IsList.length_lt hl.nodup hl.addr
    rwa [List.length_map] at hlen

-- Either no entry has the key, or there is a first one that has.
theorem find_cases (chain : List (ChainEntry κ)) (key : κ) :
    ((chain.find? fun n => map.compare n.key key = 0) = none ∧
      ∀ n ∈ chain, map.compare n.key key ≠ 0) ∨
    ∃ before n after, chain = before ++ n :: after ∧
      (chain.find? fun n => map.compare n.key key = 0) = some n ∧
      (∀ x ∈ before, map.compare x.key key ≠ 0) ∧ map.compare n.key key = 0 := by
  cases hf : chain.find? fun n => map.compare n.key key = 0 with
  | none => exact Or.inl ⟨rfl, by simpa using hf⟩
  | some n =>
      obtain ⟨hk, before, after, he, hb⟩ := List.find?_eq_some_iff_append.mp hf
      exact Or.inr ⟨before, n, after, he, rfl, by simpa using hb, by simpa using hk⟩

end Search

namespace Chains

variable {key : κ} {list : ListHdr} {entry elem : Nat}

-- The element of an entry in the middle of a bucket.
theorem node_eq {before after : List (ChainEntry κ)} {n : ChainEntry κ}
    (hl : IsList h.elems list ((before ++ n :: after).map (·.cell))) :
    0 < n.elem ∧ ∃ node, h.elems n.elem = some node ∧ node.val = n.entry := by
  rw [List.map_append, List.map_cons] at hl
  obtain ⟨l, f, -, hnode, -⟩ := hl.around
  exact ⟨(hl.addr n.elem (by simp [ChainEntry.cell])).1, _, hnode, rfl⟩

-- hmap_get_entry finds nothing in a bucket, or the first entry with the key.
theorem getEntry_cases (hc : Chains h map chains) (hmap : map.Lawful) (hi : i < map.size)
    (hl : IsList h.elems list ((chains i).map (·.cell))) (key : κ) :
    (hmapGetEntry h list key (map.hash key) map.compare = some 0 ∧
      ((chains i).find? fun n => map.compare n.key key = 0) = none ∧
      ∀ n ∈ chains i, map.compare n.key key ≠ 0) ∨
    ∃ before n after node, chains i = before ++ n :: after ∧
      hmapGetEntry h list key (map.hash key) map.compare = some n.elem ∧
      ((chains i).find? fun n => map.compare n.key key = 0) = some n ∧ n.elem ≠ 0 ∧
      h.elems n.elem = some node ∧ node.val = n.entry ∧
      (∀ x ∈ before, map.compare x.key key ≠ 0) ∧ map.compare n.key key = 0 := by
  have hget := getEntry_eq hmap hl (hc.entry i hi) key
  rcases find_cases (chains i) key with ⟨hf, hnone⟩ | ⟨before, n, after, he, hf, hbefore, hn⟩
  · rw [hf] at hget
    exact Or.inl ⟨hget, hf, hnone⟩
  · rw [hf] at hget
    rw [he] at hl
    obtain ⟨hpos, node, hnode, hval⟩ := node_eq hl
    exact Or.inr ⟨before, n, after, node, he, hget, hf, hpos.ne', hnode, hval, hbefore, hn⟩

theorem getBucket (hc : Chains h map chains) (hi : i < map.size) : ∃ list bs,
    hmapGetBucket map i = some (list, { map with buckets := bs }) ∧
    IsList h.elems list ((chains i).map (·.cell)) ∧ bs[i]? = some (some list) ∧
    Chains h { map with buckets := bs } chains := by
  obtain ⟨b, hb, hbucket⟩ := hc.bucket i hi
  rw [hmapGetBucket, hb]
  simp only [Option.bind_eq_bind, Option.bind_some]
  cases b with
  | some list => exact ⟨list, map.buckets, rfl, hbucket, hb, hc⟩
  | none =>
      have hnil : chains i = [] := hbucket
      have hl : IsList h.elems listCreate ((chains i).map (·.cell)) := by
        rw [hnil]
        exact isList_create _
      have hc' : Chains h { map with buckets := map.buckets.set i (some listCreate) }
          (Function.update chains i (chains i)) :=
        hc.update hi hl (hc.entry i hi) (hc.nodup i hi) (fun _ _ _ => rfl) (fun _ _ _ => rfl)
          (by simp [hnil])
      rw [Function.update_eq_self] at hc'
      exact ⟨listCreate, _, rfl, hl, by rw [List.getElem?_set_self (hc.length ▸ hi)], hc'⟩

-- A new entry in front of the bucket of its key. The other buckets stay as they are.
theorem unshift (hc : Chains h map chains) (hsize : 0 < map.size)
    (hl : IsList h.elems list ((chains (hmapIndex map key)).map (·.cell)))
    (helem : 0 < elem ∧ elem < 2 ^ 64 ∧ h.elems elem = none)
    (hentry : 0 < entry ∧ h.entries entry = none) (val : Nat) : ∃ h' bs,
    hmapUnshift h map list key val entry elem = some (h', { map with buckets := bs }) ∧
    Chains h' { map with buckets := bs } (Function.update chains (hmapIndex map key)
      (⟨elem, entry, key, val⟩ :: chains (hmapIndex map key))) ∧
    (∀ a, a ≠ elem → a ∉ (chains (hmapIndex map key)).map (·.elem) → h'.elems a = h.elems a) ∧
    ∀ a, a ≠ entry → h'.entries a = h.entries a := by
  have hi := hmapIndex_lt hsize key
  obtain ⟨elems, list', hr, hl', hframe⟩ := hl.unshift helem.1 helem.2.1 helem.2.2 entry
  have hentries : ∀ a, a ≠ entry →
      (hmapMakeEntry h key val (map.hash key) entry).entries a = h.entries a :=
    fun a ha => Function.update_of_ne ha _ _
  have helems : ∀ a, a ≠ elem → a ∉ (chains (hmapIndex map key)).map (·.elem) →
      elems a = h.elems a := by
    intro a ha hm
    apply hframe a
    rw [addrs_cells, List.mem_cons, not_or]
    exact ⟨ha, hm⟩
  have hne : ∀ a, h.entries a ≠ none → a ≠ entry := by
    rintro a ha rfl
    exact ha hentry.2
  simp only [hmapUnshift, hmapMakeEntry, hr, Option.bind_eq_bind, Option.bind_some]
  refine ⟨_, _, rfl, hc.update hi hl' ?_ ?_ (fun a hm ha => helems a ?_ hm)
    (fun a _ ha => hentries a (hne a ha)) ?_, helems, hentries⟩
  · refine List.forall_mem_cons.mpr ⟨⟨hentry.1.ne', Function.update_self .., rfl⟩, fun n hn => ?_⟩
    have hn := hc.entry _ hi n hn
    exact ⟨hn.ne_zero, (hentries _ (hne _ (by simp [hn.entry_eq]))).trans hn.entry_eq, hn.index_eq⟩
  · refine List.nodup_cons.mpr ⟨fun hm => ?_, hc.nodup _ hi⟩
    obtain ⟨n, hn, he⟩ := List.mem_map.mp hm
    have hsome := (hc.entry _ hi n hn).entry_eq
    rw [show n.entry = entry from he, hentry.2] at hsome
    cases hsome
  · rintro rfl
    exact ha helem.2.2
  · refine List.forall_mem_cons.mpr ⟨⟨Or.inr helem.2.2, Or.inr hentry.2⟩, fun n hn => ?_⟩
    exact ⟨Or.inl (List.mem_map_of_mem hn), Or.inl (List.mem_map_of_mem hn)⟩

-- hmap_insert makes the bucket if there is none.
theorem insert_entry (hc : Chains h map chains) (hsize : 0 < map.size)
    (helem : 0 < elem ∧ elem < 2 ^ 64 ∧ h.elems elem = none)
    (hentry : 0 < entry ∧ h.entries entry = none) (key : κ) (val : Nat) : ∃ h' bs,
    hmapInsert h map key val entry elem = some (h', { map with buckets := bs }) ∧
    Chains h' { map with buckets := bs } (Function.update chains (hmapIndex map key)
      (⟨elem, entry, key, val⟩ :: chains (hmapIndex map key))) ∧
    (∀ a, a ≠ elem → a ∉ (chains (hmapIndex map key)).map (·.elem) → h'.elems a = h.elems a) ∧
    ∀ a, a ≠ entry → h'.entries a = h.entries a := by
  obtain ⟨list, bs, hb, hl, -, hc'⟩ := hc.getBucket (hmapIndex_lt hsize key)
  rw [hmapInsert, hb]
  exact hc'.unshift hsize hl helem hentry val

-- What a map holds depends on the elements and entries that belong to it only.
theorem congr (hc : Chains h map chains) (heq : ∀ i < map.size, ∀ n ∈ chains i,
    h'.elems n.elem = h.elems n.elem ∧ h'.entries n.entry = h.entries n.entry) :
    Chains h' map chains where
  length := hc.length
  bucket i hi := by
    obtain ⟨b, hb, hbucket⟩ := hc.bucket i hi
    exact ⟨b, hb, hbucket.congr fun n hn => (heq i hi n hn).1⟩
  entry i hi n hn := by
    have he := hc.entry i hi n hn
    exact ⟨he.ne_zero, (heq i hi n hn).2.trans he.entry_eq, he.index_eq⟩
  nodup := hc.nodup
  apart := hc.apart

section Found

variable {before after : List (ChainEntry κ)} {n : ChainEntry κ} (hc : Chains h map chains)
  (hi : i < map.size) (he : chains i = before ++ n :: after)

include hc hi he

-- The other entries of the bucket lie at other addresses.
theorem others {x : ChainEntry κ} (hx : x ∈ before ++ after) : x.entry ≠ n.entry := by
  have hnodup := hc.nodup i hi
  rw [he, List.map_append, List.map_cons, List.nodup_append', List.nodup_cons] at hnodup
  intro hs
  rcases List.mem_append.mp hx with hx | hx
  · exact hnodup.2.2 (List.mem_map_of_mem hx) (by simp [hs])
  · exact hnodup.2.1.1 (hs ▸ List.mem_map_of_mem hx)

-- hmap_set on an entry that was found.
theorem assign (hl : IsList h.elems list ((chains i).map (·.cell)))
    (hb : map.buckets[i]? = some (some list)) (val : Nat) :
    Chains ⟨h.elems, Function.update h.entries n.entry (some ⟨n.key, val, map.hash n.key⟩)⟩ map
      (Function.update chains i (before ++ { n with val } :: after)) := by
  have hentry := hc.entry i hi
  have hnodup := hc.nodup i hi
  have hself : map.buckets.set i (some list) = map.buckets := by
    obtain ⟨hlt, hget⟩ := List.getElem?_eq_some_iff.mp hb
    rw [← hget, List.set_getElem_self]
  have hcells : (before ++ { n with val } :: after).map (·.cell) = (chains i).map (·.cell) := by
    simp [he, ChainEntry.cell]
  have hentries : (before ++ { n with val } :: after).map (·.entry) = (chains i).map (·.entry) := by
    simp [he]
  have helems : (before ++ { n with val } :: after).map (·.elem) = (chains i).map (·.elem) := by
    simp [he]
  suffices hc' : Chains ⟨h.elems, Function.update h.entries n.entry
      (some ⟨n.key, val, map.hash n.key⟩)⟩ { map with buckets := map.buckets.set i (some list) }
      (Function.update chains i (before ++ { n with val } :: after)) by
    rwa [hself] at hc'
  refine hc.update hi (hcells ▸ hl) (fun x hx => ?_) (hentries ▸ hnodup) (fun _ _ _ => rfl)
    (fun a ha _ => ?_) (fun x hx => ?_)
  · rw [he] at hentry
    by_cases hx' : x ∈ before ++ after
    · have hx := hentry x (by simp at hx' ⊢; tauto)
      exact ⟨hx.ne_zero, (Function.update_of_ne (hc.others hi he hx') _ _).trans hx.entry_eq,
        hx.index_eq⟩
    · obtain rfl : x = { n with val } := by simp at hx hx'; tauto
      have hn := hentry n (by simp)
      exact ⟨hn.ne_zero, Function.update_self .., hn.index_eq⟩
  · refine Function.update_of_ne ?_ _ _
    rintro rfl
    exact ha (by simp [he])
  · exact ⟨Or.inl (helems ▸ List.mem_map_of_mem hx), Or.inl (hentries ▸ List.mem_map_of_mem hx)⟩

-- hmap_remove of an entry that was found.
theorem erase (hl : IsList h.elems list ((chains i).map (·.cell))) : ∃ elems' list',
    listRemove h.elems list n.elem = some (n.entry, elems', list') ∧
    Chains ⟨elems', Function.update h.entries n.entry none⟩
      { map with buckets := map.buckets.set i (some list') }
      (Function.update chains i (before ++ after)) := by
  have hentry := hc.entry i hi
  have hnodup := hc.nodup i hi
  rw [he] at hentry hnodup
  rw [he, List.map_append, List.map_cons] at hl
  obtain ⟨elems', list', hr, hl', -, hframe⟩ := hl.remove
  have hsub : (before ++ after).Sublist (before ++ n :: after) := by simp
  refine ⟨elems', list', hr, hc.update hi ?_ (fun x hx => ?_) ?_ (fun a ha _ => ?_)
    (fun a ha _ => ?_) (fun x hx => ?_)⟩
  · rwa [List.map_append]
  · have hx' := hentry x (hsub.mem hx)
    exact ⟨hx'.ne_zero, (Function.update_of_ne (hc.others hi he hx) _ _).trans hx'.entry_eq,
      hx'.index_eq⟩
  · exact hnodup.sublist (hsub.map _)
  · apply hframe a
    simp only [addrs_cells, List.mem_cons, List.mem_append, not_or]
    simp only [he, List.map_append, List.map_cons, List.mem_append, List.mem_cons, not_or] at ha
    exact ⟨ha.2.1, ha.1, ha.2.2⟩
  · refine Function.update_of_ne ?_ _ _
    rintro rfl
    exact ha (by simp [he])
  · rw [he]
    exact ⟨Or.inl (List.mem_map_of_mem (hsub.mem hx)), Or.inl (List.mem_map_of_mem (hsub.mem hx))⟩

end Found

end Chains

end

end Adventure

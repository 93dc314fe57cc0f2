import Adventure.Struct.Hashmap.Resize.Theorems
import Mathlib.Logic.Relation

namespace Adventure

open Links Relation Ends

section Frees

variable {h h' : ListHeap} {cells : List (Nat × Nat)}

-- The loop of list_destroy leaves none of the elements but the last one.
theorem destroyFrom_frees {back first last steps : Nat} (hs : Segment h back first cells last 0)
    (hnodup : (back :: addrs cells).Nodup) (hpos : ∀ a ∈ addrs cells, 0 < a)
    (hr : listDestroyFrom steps h first = some h') :
    (∀ a ∈ back :: addrs cells, a ≠ 0 → a ≠ last → h' a = none) ∧ ∀ a, h a = none → h' a = none := by
  induction cells generalizing h back first steps with
  | nil =>
    obtain ⟨hfirst, hlast⟩ := hs
    cases steps with
    | zero => cases hr
    | succ steps =>
      rw [listDestroyFrom, if_pos hfirst, Option.some.injEq] at hr
      subst hr
      refine ⟨fun a ha _ hne => ?_, fun _ ha => ha⟩
      rw [addrs_nil, List.mem_singleton] at ha
      exact absurd (ha.trans hlast.symm) hne
  | cons cell cells ih =>
    obtain ⟨rfl, next, hnode, hrest⟩ := hs
    rw [addrs_cons, List.nodup_cons] at hnodup
    rw [addrs_cons, List.forall_mem_cons] at hpos
    obtain ⟨hback, hnodup⟩ := hnodup
    cases steps with
    | zero => cases hr
    | succ steps =>
      -- the element before the current one is freed, if there is one
      obtain ⟨h₁, hh₁, hframe, hfree, hnone⟩ : ∃ h₁ : ListHeap, (if back ≠ 0 then h.free back else h) = h₁ ∧
          Frame h h₁ [back] ∧ (back ≠ 0 → h₁ back = none) ∧ ∀ a, h a = none → h₁ a = none := by
        by_cases hzero : back ≠ 0
        · refine ⟨_, if_pos hzero, .update h back none, fun _ => Function.update_self .., fun a ha => ?_⟩
          by_cases hab : a = back
          · rw [hab]
            exact Function.update_self ..
          · exact (Function.update_of_ne hab _ _).trans ha
        · exact ⟨_, if_neg hzero, (Frame.refl h).mono (by simp), fun h => absurd h hzero, fun _ ha => ha⟩
      have hnode₁ : h₁ cell.1 = some ⟨back, next, cell.2⟩ := by
        rw [hframe cell.1 (by simpa using Ne.symm (List.ne_of_not_mem_cons hback)), hnode]
      have hrest₁ : Segment h₁ cell.1 next cells last 0 :=
        hrest.congr hframe (by simpa using List.not_mem_of_not_mem_cons hback)
      rw [listDestroyFrom, if_neg hpos.1.ne'] at hr
      simp only [hnode, Option.bind_eq_bind, Option.bind_some, hh₁, hnode₁] at hr
      obtain ⟨hgone, hkeep⟩ := ih hrest₁ hnodup hpos.2 hr
      refine ⟨fun a ha hzero hne => ?_, fun a ha => hkeep a (hnone a ha)⟩
      rcases List.mem_cons.mp ha with rfl | ha
      · exact hkeep a (hfree hzero)
      · exact hgone a ha hzero hne

theorem IsList.destroy_frees {list : ListHdr} (hl : IsList h list cells)
    (hr : listDestroy h list = some h') :
    (∀ a ∈ addrs cells, h' a = none) ∧ ∀ a, h a = none → h' a = none := by
  have hpos : ∀ a ∈ addrs cells, 0 < a := fun a ha => (hl.addr a ha).1
  have hnodup : (0 :: addrs cells).Nodup :=
    List.nodup_cons.mpr ⟨fun hm => Nat.lt_irrefl 0 (hpos 0 hm), hl.nodup⟩
  unfold listDestroy at hr
  obtain ⟨h₁, hr₁, he⟩ := Option.bind_eq_some_iff.mp hr
  obtain rfl := Option.some.inj he
  obtain ⟨hgone, hkeep⟩ := destroyFrom_frees hl.linked hnodup hpos hr₁
  have hfree : ∀ a, a = list.last ∨ h₁ a = none → h₁.free list.last a = none := by
    intro a ha
    by_cases hlast : a = list.last
    · rw [hlast]
      exact Function.update_self ..
    · exact (Function.update_of_ne hlast _ _).trans (ha.resolve_left hlast)
  refine ⟨fun a ha => hfree a ?_, fun a ha => hfree a (.inr (hkeep a ha))⟩
  by_cases hlast : a = list.last
  · exact .inl hlast
  · exact .inr (hgone a (List.mem_cons_of_mem 0 ha) (hpos a ha).ne' hlast)

end Frees

variable {κ : Type}

-- Nothing is allocated from one heap to the other.
structure Frees (h h' : HashHeap κ) : Prop where
  elems : ∀ a, h.elems a = none → h'.elems a = none
  entries : ∀ a, h.entries a = none → h'.entries a = none

-- The elements and entries of a chain are free.
def Gone (h : HashHeap κ) (chain : List (ChainEntry κ)) : Prop :=
  ∀ n ∈ chain, h.elems n.elem = none ∧ h.entries n.entry = none

section Destroy

variable {h h' : HashHeap κ} {chain : List (ChainEntry κ)}

theorem Frees.trans {h'' : HashHeap κ} (hf : Frees h h') (hf' : Frees h' h'') : Frees h h'' :=
  ⟨fun a ha => hf'.elems a (hf.elems a ha), fun a ha => hf'.entries a (hf.entries a ha)⟩

theorem Gone.frees (hg : Gone h chain) (hf : Frees h h') : Gone h' chain :=
  fun n hn => ⟨hf.elems _ (hg n hn).1, hf.entries _ (hg n hn).2⟩

theorem clearFrom_frees {back first last steps : Nat}
    (hs : Segment h.elems back first (chain.map (·.cell)) last 0)
    (hpos : ∀ n ∈ chain, 0 < n.elem) (hr : listClearFrom steps h first = some h') :
    h'.elems = h.elems ∧ (∀ n ∈ chain, h'.entries n.entry = none) ∧
      ∀ a, h.entries a = none → h'.entries a = none := by
  induction chain generalizing h back first steps with
  | nil =>
    cases steps with
    | zero => cases hr
    | succ steps =>
      rw [listClearFrom, if_pos hs.1, Option.some.injEq] at hr
      subst hr
      exact ⟨rfl, by simp, fun _ ha => ha⟩
  | cons n chain ih =>
    obtain ⟨rfl, next, hnode, hrest⟩ := hs
    rw [List.forall_mem_cons] at hpos
    cases steps with
    | zero => cases hr
    | succ steps =>
      rw [listClearFrom, if_neg (show n.cell.1 ≠ 0 from hpos.1.ne')] at hr
      simp only [hnode, Option.bind_eq_bind, Option.bind_some] at hr
      obtain ⟨helems, hgone, hkeep⟩ := ih (h := { h with entries := Function.update h.entries n.entry none })
        hrest hpos.2 hr
      have hfree : Function.update h.entries n.entry none n.entry = none := Function.update_self ..
      refine ⟨helems, List.forall_mem_cons.mpr ⟨hkeep _ hfree, hgone⟩, fun a ha => hkeep a ?_⟩
      by_cases hn : a = n.entry
      · rw [hn]
        exact hfree
      · exact (Function.update_of_ne hn _ _).trans ha

theorem destroyBucket_frees {row : Row κ} (hrow : RowAt h row)
    (hr : hmapDestroyBucket row.1 h = some h') : Gone h' row.2 ∧ Frees h h' := by
  obtain ⟨bucket, chain⟩ := row
  cases bucket with
  | none =>
    have hnil : chain = [] := hrow.bucket
    obtain rfl := Option.some.inj hr
    subst hnil
    exact ⟨fun n hn => absurd hn List.not_mem_nil, fun _ ha => ha, fun _ ha => ha⟩
  | some list =>
    have hl : IsList h.elems list (chain.map (·.cell)) := hrow.bucket
    have hpos : ∀ n ∈ chain, 0 < n.elem := fun n hn => Nat.pos_of_ne_zero (hrow.elem_ne_zero hn)
    obtain ⟨h₁, hclear, hr⟩ := Option.bind_eq_some_iff.mp hr
    obtain ⟨elems, hdestroy, hr⟩ := Option.bind_eq_some_iff.mp hr
    obtain rfl := Option.some.inj hr
    obtain ⟨helems, hentries, hkeep⟩ := clearFrom_frees hl.linked hpos hclear
    rw [helems] at hdestroy
    obtain ⟨hgone, hkeep'⟩ := hl.destroy_frees hdestroy
    refine ⟨fun n hn => ⟨hgone _ ?_, hentries n hn⟩, hkeep', hkeep⟩
    rw [addrs_cells]
    exact List.mem_map_of_mem hn

-- hmap_destroy frees all that belongs to the map.
theorem destroy_frees {rows : List (Row κ)} {i : Nat} (hrows : ∀ row ∈ rows, RowAt h row)
    (hapart : rows.Pairwise RowsApart)
    (hr : hmapEachBucket hmapDestroyBucket (rows.map Prod.fst) i h = some h') :
    (∀ row ∈ rows, Gone h' row.2) ∧ Frees h h' := by
  induction rows generalizing h i with
  | nil =>
    obtain rfl := Option.some.inj hr
    exact ⟨by simp, fun _ ha => ha, fun _ ha => ha⟩
  | cons row rows ih =>
    rw [List.forall_mem_cons] at hrows
    rw [List.pairwise_cons] at hapart
    obtain ⟨h₁, hrow, hr⟩ := Option.bind_eq_some_iff.mp hr
    split at hr
    · cases hr
    · obtain ⟨hgone, hfrees⟩ := destroyBucket_frees hrows.1 hrow
      obtain ⟨h₂, hrow₂, helems, hentries⟩ := destroyBucket_eq hrows.1
      obtain rfl := Option.some.inj (hrow₂.symm.trans hrow)
      -- the buckets behind are as they were
      have hrows₁ : ∀ row' ∈ rows, RowAt h₂ row' := by
        intro row' hrow'
        apply (hrows.2 row' hrow').congr
        intro n hn
        obtain ⟨helem, hentry⟩ := notMem_of_apart fun n' hn' => hapart.1 row' hrow' n' hn' n hn
        exact ⟨helems _ ((hrows.2 row' hrow').elem_ne_zero hn) helem, hentries _ hentry⟩
      obtain ⟨hgone', hfrees'⟩ := ih hrows₁ hapart.2 hr
      exact ⟨List.forall_mem_cons.mpr ⟨hgone.frees hfrees', hgone'⟩, hfrees.trans hfrees'⟩

end Destroy

-- The addresses that some chains take up.
def ElemOf (size : Nat) (chains : Nat → List (ChainEntry κ)) (a : Nat) : Prop :=
  ∃ i < size, a ∈ (chains i).map (·.elem)

def EntryOf (size : Nat) (chains : Nat → List (ChainEntry κ)) (a : Nat) : Prop :=
  ∃ i < size, a ∈ (chains i).map (·.entry)

-- What does not belong to a map is as it was in the heap `h₀`, where all that belongs to it was free.
structure Around (h₀ h : HashHeap κ) (size : Nat) (chains : Nat → List (ChainEntry κ)) : Prop where
  elems : ∀ a, a ≠ 0 → ¬ElemOf size chains a → h.elems a = h₀.elems a
  entries : ∀ a, ¬EntryOf size chains a → h.entries a = h₀.entries a
  free : ∀ i < size, Gone h₀ (chains i)

-- What hmap_destroy does to the heap.
structure Released (size : Nat) (chains : Nat → List (ChainEntry κ)) (h h' : HashHeap κ) : Prop where
  gone : ∀ i < size, Gone h' (chains i)
  elems : ∀ a, a ≠ 0 → ¬ElemOf size chains a → h'.elems a = h.elems a
  entries : ∀ a, ¬EntryOf size chains a → h'.entries a = h.entries a

section Around

variable {h₀ h h' : HashHeap κ} {map : Hashmap κ} {chains : Nat → List (ChainEntry κ)} {i : Nat}

theorem elem_none_of_gone {size a : Nat} (hgone : ∀ i < size, Gone h (chains i))
    (ha : ElemOf size chains a) : h.elems a = none := by
  obtain ⟨i, hi, hm⟩ := ha
  obtain ⟨n, hn, rfl⟩ := List.mem_map.mp hm
  exact (hgone i hi n hn).1

theorem entry_none_of_gone {size a : Nat} (hgone : ∀ i < size, Gone h (chains i))
    (ha : EntryOf size chains a) : h.entries a = none := by
  obtain ⟨i, hi, hm⟩ := ha
  obtain ⟨n, hn, rfl⟩ := List.mem_map.mp hm
  exact (hgone i hi n hn).2

theorem Chains.elem_live (hc : Chains h map chains) {a : Nat} (ha : ElemOf map.size chains a) :
    h.elems a ≠ none := by
  obtain ⟨i, hi, ha⟩ := ha
  obtain ⟨n, hn, rfl⟩ := List.mem_map.mp ha
  obtain ⟨b, -, hbucket⟩ := hc.bucket i hi
  obtain ⟨node, hnode⟩ := hbucket.allocated hn
  simp [hnode]

theorem Chains.entry_live (hc : Chains h map chains) {a : Nat} (ha : EntryOf map.size chains a) :
    h.entries a ≠ none := by
  obtain ⟨i, hi, ha⟩ := ha
  obtain ⟨n, hn, rfl⟩ := List.mem_map.mp ha
  simp [(hc.entry i hi n hn).entry_eq]

theorem Around.empty (h : HashHeap κ) (size : Nat) : Around h h size fun _ => [] :=
  ⟨fun _ _ _ => rfl, fun _ _ => rfl, fun _ _ _ hn => absurd hn List.not_mem_nil⟩

-- One bucket is replaced: what leaves it is free then, and what comes to it was free before.
theorem Around.update {chain' : List (ChainEntry κ)} (ha : Around h₀ h map.size chains)
    (hc : Chains h map chains) (hi : i < map.size)
    (helems : ∀ a, a ∉ (chains i).map (·.elem) → a ∉ chain'.map (·.elem) → h'.elems a = h.elems a)
    (hentries : ∀ a, a ∉ (chains i).map (·.entry) → a ∉ chain'.map (·.entry) →
      h'.entries a = h.entries a)
    (hgone : ∀ n ∈ chains i, (n.elem ∈ chain'.map (·.elem) ∨ h'.elems n.elem = none) ∧
      (n.entry ∈ chain'.map (·.entry) ∨ h'.entries n.entry = none))
    (hnew : ∀ n ∈ chain', (n.elem ∈ (chains i).map (·.elem) ∨ n.elem ≠ 0 ∧ h.elems n.elem = none) ∧
      (n.entry ∈ (chains i).map (·.entry) ∨ h.entries n.entry = none)) :
    Around h₀ h' map.size (Function.update chains i chain') := by
  have hfree := ha.free i hi
  refine ⟨fun a hzero hout => ?_, fun a hout => ?_, fun j hj => ?_⟩
  · have hout' : a ∉ chain'.map (·.elem) := fun hm => hout ⟨i, hi, by rwa [Function.update_self]⟩
    by_cases hm : a ∈ (chains i).map (·.elem)
    · obtain ⟨n, hn, rfl⟩ := List.mem_map.mp hm
      rw [(hgone n hn).1.resolve_left hout', (hfree n hn).1]
    · rw [helems a hm hout']
      refine ha.elems a hzero fun ⟨j, hj, hmj⟩ => ?_
      by_cases hji : j = i
      · exact hm (hji ▸ hmj)
      · exact hout ⟨j, hj, by rwa [Function.update_of_ne hji]⟩
  · have hout' : a ∉ chain'.map (·.entry) := fun hm => hout ⟨i, hi, by rwa [Function.update_self]⟩
    by_cases hm : a ∈ (chains i).map (·.entry)
    · obtain ⟨n, hn, rfl⟩ := List.mem_map.mp hm
      rw [(hgone n hn).2.resolve_left hout', (hfree n hn).2]
    · rw [hentries a hm hout']
      refine ha.entries a fun ⟨j, hj, hmj⟩ => ?_
      by_cases hji : j = i
      · exact hm (hji ▸ hmj)
      · exact hout ⟨j, hj, by rwa [Function.update_of_ne hji]⟩
  · by_cases hji : j = i
    · rw [hji, Function.update_self]
      intro n hn
      obtain ⟨helem, hentry⟩ := hnew n hn
      constructor
      · rcases helem with hm | ⟨hzero, hnone⟩
        · obtain ⟨n', hn', he⟩ := List.mem_map.mp hm
          rw [← show n'.elem = n.elem from he]
          exact (hfree n' hn').1
        · rw [← ha.elems _ hzero fun hm => hc.elem_live hm hnone]
          exact hnone
      · rcases hentry with hm | hnone
        · obtain ⟨n', hn', he⟩ := List.mem_map.mp hm
          rw [← show n'.entry = n.entry from he]
          exact (hfree n' hn').2
        · rw [← ha.entries _ fun hm => hc.entry_live hm hnone]
          exact hnone
    · rw [Function.update_of_ne hji]
      exact ha.free j hj

-- A bucket gets a new entry in front.
theorem Around.cons {n : ChainEntry κ} (ha : Around h₀ h map.size chains) (hc : Chains h map chains)
    (hi : i < map.size) (helem : n.elem ≠ 0 ∧ h.elems n.elem = none) (hentry : h.entries n.entry = none)
    (helems : ∀ a, a ≠ n.elem → a ∉ (chains i).map (·.elem) → h'.elems a = h.elems a)
    (hentries : ∀ a, a ≠ n.entry → h'.entries a = h.entries a) :
    Around h₀ h' map.size (Function.update chains i (n :: chains i)) := by
  refine ha.update hc hi (fun a hm hm' => ?_) (fun a _ hm' => ?_) (fun x hx => ?_)
    (List.forall_mem_cons.mpr ⟨⟨.inr helem, .inr hentry⟩, fun x hx => ?_⟩)
  · rw [List.map_cons, List.mem_cons, not_or] at hm'
    exact helems a hm'.1 hm
  · rw [List.map_cons, List.mem_cons, not_or] at hm'
    exact hentries a hm'.1
  · exact ⟨.inl (List.mem_map_of_mem (List.mem_cons_of_mem n hx)),
      .inl (List.mem_map_of_mem (List.mem_cons_of_mem n hx))⟩
  · exact ⟨.inl (List.mem_map_of_mem hx), .inl (List.mem_map_of_mem hx)⟩

end Around

-- A map that is whole, in a heap that is otherwise as it was in the beginning.
def Tidy (h₀ h : HashHeap κ) (map : Hashmap κ) : Prop :=
  ∃ chains, Chains h map chains ∧ Around h₀ h map.size chains

namespace Tidy

variable {h₀ h : HashHeap κ} {map : Hashmap κ} {key : κ} {entry elem : Nat} (ht : Tidy h₀ h map)
  (hsize : 0 < map.size)

include ht hsize

theorem insert (helem : 0 < elem ∧ elem < 2 ^ 64 ∧ h.elems elem = none)
    (hentry : 0 < entry ∧ h.entries entry = none) (key : κ) (val : Nat) : ∃ h' bs,
    hmapInsert h map key val entry elem = some (h', { map with buckets := bs }) ∧
      Tidy h₀ h' { map with buckets := bs } ∧
      (∀ a, a ≠ elem → h.elems a = none → h'.elems a = none) ∧
      ∀ a, a ≠ entry → h'.entries a = h.entries a := by
  obtain ⟨chains, hc, ha⟩ := ht
  have hi := hmapIndex_lt hsize key
  obtain ⟨h', bs, hr, hc', helems, hentries⟩ := hc.insert_entry hsize helem hentry key val
  refine ⟨h', bs, hr, ⟨_, hc', ?_⟩, fun a hne hnone => ?_, hentries⟩
  · exact ha.cons hc hi ⟨helem.1.ne', helem.2.2⟩ hentry.2 helems hentries
  · rw [helems a hne fun hm => hc.elem_live ⟨_, hi, hm⟩ hnone, hnone]

theorem set (hmap : map.Lawful) (helem : 0 < elem ∧ elem < 2 ^ 64 ∧ h.elems elem = none)
    (hentry : 0 < entry ∧ h.entries entry = none) (key : κ) (val : Nat) : ∃ h' bs,
    hmapSet h map key val entry elem = some (h', { map with buckets := bs }) ∧
      Tidy h₀ h' { map with buckets := bs } := by
  obtain ⟨chains, hc, ha⟩ := ht
  have hi := hmapIndex_lt hsize key
  obtain ⟨list, bs, hb, hl, hbs, hc'⟩ := hc.getBucket hi
  simp only [hmapSet, hb, Option.bind_eq_bind, Option.bind_some]
  obtain ⟨hg, -, -⟩ | ⟨before, n, after, node, he, hg, -, hne, hnode, hval, -⟩ :=
    hc.getEntry_cases hmap hi hl key
  · obtain ⟨h', bs', hr, hc'', helems, hentries⟩ := hc'.unshift hsize hl helem hentry val
    simp only [hg, Option.bind_some, ne_eq, not_true_eq_false, if_false]
    exact ⟨h', bs', hr, _, hc'', ha.cons hc hi ⟨helem.1.ne', helem.2.2⟩ hentry.2 helems hentries⟩
  · -- only the value of the entry changes
    have hn := hc.entry _ hi n (by simp [he])
    simp only [hg, Option.bind_some, if_pos hne, hnode, hval, if_neg hn.ne_zero, hn.entry_eq]
    have helems : (before ++ { n with val } :: after).map (·.elem) =
        (chains (hmapIndex map key)).map (·.elem) := by simp [he]
    have hentries : (before ++ { n with val } :: after).map (·.entry) =
        (chains (hmapIndex map key)).map (·.entry) := by simp [he]
    refine ⟨_, bs, rfl, _, hc'.assign hi he hl hbs val, ha.update hc hi (fun _ _ _ => rfl)
      (fun a hm _ => ?_) (fun x hx => ?_) fun x hx => ?_⟩
    · refine Function.update_of_ne ?_ _ _
      rintro rfl
      exact hm (by simp [he])
    · rw [helems, hentries]
      exact ⟨.inl (List.mem_map_of_mem hx), .inl (List.mem_map_of_mem hx)⟩
    · rw [← helems, ← hentries]
      exact ⟨.inl (List.mem_map_of_mem hx), .inl (List.mem_map_of_mem hx)⟩

theorem remove (hmap : map.Lawful) (key : κ) : ∃ val h' bs,
    hmapRemove h map key = some (val, h', { map with buckets := bs }) ∧
      Tidy h₀ h' { map with buckets := bs } := by
  obtain ⟨chains, hc, ha⟩ := ht
  have hi := hmapIndex_lt hsize key
  obtain ⟨b, hb, hbucket⟩ := hc.bucket _ hi
  rw [hmapRemove, hb]
  simp only [Option.bind_eq_bind, Option.bind_some]
  cases b with
  | none => exact ⟨0, h, map.buckets, rfl, chains, hc, ha⟩
  | some list =>
    have hl : IsList h.elems list ((chains (hmapIndex map key)).map (·.cell)) := hbucket
    obtain ⟨hg, -, -⟩ | ⟨before, n, after, node, he, hg, -, hne, hnode, hval, -⟩ :=
      hc.getEntry_cases hmap hi hl key
    · simp only [hg, Option.bind_some]
      exact ⟨0, h, map.buckets, rfl, chains, hc, ha⟩
    · have hn := hc.entry _ hi n (by simp [he])
      obtain ⟨elems', list', hr, hc'⟩ := hc.erase hi he hl
      rw [he, List.map_append, List.map_cons] at hl
      obtain ⟨elems₁, list₁, hr₁, -, hgone, hframe⟩ := hl.remove
      obtain ⟨rfl, -⟩ : elems₁ = elems' ∧ list₁ = list' := by simpa using hr₁.symm.trans hr
      simp only [hg, Option.bind_some, if_neg hne, hnode, hval, hn.entry_eq, hr]
      refine ⟨n.val, _, _, rfl, _, hc', ha.update hc hi (fun a hm _ => ?_) (fun a hm _ => ?_)
        (fun x hx => ?_) fun x hx => ?_⟩
      · apply hframe a
        simp only [addrs_cells, List.mem_cons, List.mem_append, not_or]
        simp only [he, List.map_append, List.map_cons, List.mem_append, List.mem_cons, not_or] at hm
        exact ⟨hm.2.1, hm.1, hm.2.2⟩
      · refine Function.update_of_ne ?_ _ _
        rintro rfl
        exact hm (by simp [he])
      · rw [he, List.mem_append, List.mem_cons, or_left_comm, ← List.mem_append] at hx
        rcases hx with rfl | hx
        · exact ⟨.inr hgone, .inr (Function.update_self ..)⟩
        · exact ⟨.inl (List.mem_map_of_mem hx), .inl (List.mem_map_of_mem hx)⟩
      · have hx' : x ∈ chains (hmapIndex map key) := by
          rw [he, List.mem_append, List.mem_cons, or_left_comm, ← List.mem_append]
          exact .inr hx
        exact ⟨.inl (List.mem_map_of_mem hx'), .inl (List.mem_map_of_mem hx')⟩

end Tidy

section Rehash

variable {h₀ h h' : HashHeap κ} {map : Hashmap κ} {chains : Nat → List (ChainEntry κ)}

-- What hmap_insert of an entry preserves, hmap_rehash preserves.
theorem rehashList_keeps {P : Rehash κ → Prop}
    (hP : ∀ {r entry r'}, P r → hmapReinsert r entry = some r' → P r') {steps cur : Nat} {r r' : Rehash κ}
    (hr : P r) (hre : hmapRehashList steps cur r = some r') : P r' := by
  induction steps generalizing cur r with
  | zero => cases hre
  | succ steps ih =>
    rw [hmapRehashList] at hre
    by_cases hcur : cur = 0
    · rw [if_pos hcur, Option.some.injEq] at hre
      exact hre ▸ hr
    · rw [if_neg hcur] at hre
      obtain ⟨node, -, hre⟩ := Option.bind_eq_some_iff.mp hre
      dsimp only at hre
      split at hre
      · obtain ⟨r₁, hsame, hre⟩ := Option.bind_eq_some_iff.mp hre
        obtain ⟨node', -, hre⟩ := Option.bind_eq_some_iff.mp hre
        exact ih (Option.some.inj hsame ▸ hr) hre
      · obtain ⟨r₁, hentry, hre⟩ := Option.bind_eq_some_iff.mp hre
        obtain ⟨node', -, hre⟩ := Option.bind_eq_some_iff.mp hre
        obtain ⟨entry, -, hentry⟩ := Option.bind_eq_some_iff.mp hentry
        exact ih (hP hr hentry) hre

theorem rehash_keeps {P : Rehash κ → Prop}
    (hP : ∀ {r entry r'}, P r → hmapReinsert r entry = some r' → P r') {buckets : List (Option ListHdr)}
    {i : Nat} {r r' : Rehash κ} (hr : P r)
    (hre : hmapEachBucket hmapRehashBucket buckets i r = some r') : P r' := by
  induction buckets generalizing i r with
  | nil => exact Option.some.inj hre ▸ hr
  | cons bucket buckets ih =>
    obtain ⟨r₁, hbucket, hre⟩ := Option.bind_eq_some_iff.mp hre
    split at hre
    · cases hre
    · refine ih ?_ hre
      cases bucket with
      | none => exact Option.some.inj hbucket ▸ hr
      | some list => exact rehashList_keeps hP hr hbucket

-- The new map while hmap_rehash is at work, in the heap `h` of its beginning.
structure Filling (h : HashHeap κ) (out : Hashmap κ) (r : Rehash κ) : Prop where
  tidy : Tidy h r.heap r.out
  out_eq : r.out = { out with buckets := r.out.buckets }
  fresh : FreshAddrs r.heap r.addrs

theorem Filling.reinsert {out : Hashmap κ} (hsize : 0 < out.size) {r r' : Rehash κ}
    {entry : Hashentry κ} (hf : Filling h out r) (hre : hmapReinsert r entry = some r') :
    Filling h out r' := by
  obtain ⟨ht, hout, hfresh⟩ := hf
  rw [hmapReinsert] at hre
  cases haddrs : r.addrs with
  | nil =>
    rw [haddrs] at hre
    cases hre
  | cons addr addrs =>
    rw [haddrs] at hre hfresh
    obtain ⟨⟨hpos, hnone⟩, hpos', hlt, hnone'⟩ := hfresh.2.2 addr List.mem_cons_self
    rw [Option.isNone_iff_eq_none] at hnone hnone'
    have hsize' : 0 < r.out.size := by
      rw [hout]
      exact hsize
    obtain ⟨h₁, bs, hr, ht', hsame, hsame'⟩ :=
      ht.insert hsize' ⟨hpos', hlt, hnone'⟩ ⟨hpos, hnone⟩ entry.key entry.val
    simp only [hr, Option.bind_eq_bind, Option.bind_some] at hre
    obtain rfl := Option.some.inj hre
    refine ⟨ht', ?_, hfresh.rest hsame hsame'⟩
    change ({ r.out with buckets := bs } : Hashmap κ) = _
    rw [hout]

namespace Chains

variable (hc : Chains h map chains)

include hc

theorem row_mem {i : Nat} (hi : i < map.size) : ∃ row ∈ rowsOf map chains, row.2 = chains i := by
  obtain ⟨b, hb, -⟩ := hc.bucket i hi
  exact ⟨(b, chains i), List.mem_map.mpr ⟨(b, i), List.mem_zipIdx_iff_getElem?.mpr hb, rfl⟩, rfl⟩

theorem elemOf_rows {row : Row κ} (hrow : row ∈ rowsOf map chains) {a : Nat}
    (ha : a ∈ row.2.map (·.elem)) : ElemOf map.size chains a := by
  obtain ⟨i, hi, -, he⟩ := hc.mem_rows hrow
  exact ⟨i, hi, he ▸ ha⟩

theorem entryOf_rows {row : Row κ} (hrow : row ∈ rowsOf map chains) {a : Nat}
    (ha : a ∈ row.2.map (·.entry)) : EntryOf map.size chains a := by
  obtain ⟨i, hi, -, he⟩ := hc.mem_rows hrow
  exact ⟨i, hi, he ▸ ha⟩

-- hmap_destroy of a map whose buckets are whole in the heap `h₁`.
theorem destroy {h₁ : HashHeap κ} (hrows : ∀ row ∈ rowsOf map chains, RowAt h₁ row)
    (hmax : map.size ≤ INT_MAX) :
    ∃ h', hmapDestroy h₁ map = some h' ∧ Released map.size chains h₁ h' := by
  obtain ⟨h', hr, helems, hentries⟩ := destroy_eq hrows hc.rows_apart (hc.rows_length ▸ hmax)
  obtain ⟨hgone, -⟩ := destroy_frees hrows hc.rows_apart hr
  rw [rows_fst] at hr
  refine ⟨h', hr, ⟨fun i hi => ?_, fun a hzero hm => ?_, fun a hm => ?_⟩⟩
  · obtain ⟨row, hrow, he⟩ := hc.row_mem hi
    exact he ▸ hgone row hrow
  · exact helems a hzero fun row hrow hmem => hm (hc.elemOf_rows hrow hmem)
  · exact hentries a fun row hrow hmem => hm (hc.entryOf_rows hrow hmem)

end Chains

-- hmap_destroy leaves the heap as it was before the map was made.
theorem Tidy.destroy (ht : Tidy h₀ h map) (hmax : map.size ≤ INT_MAX) : ∃ h', hmapDestroy h map = some h' ∧
    (∀ a, a ≠ 0 → h'.elems a = h₀.elems a) ∧ ∀ a, h'.entries a = h₀.entries a := by
  obtain ⟨chains, hc, ha⟩ := ht
  obtain ⟨h', hr, hreleased⟩ := hc.destroy (fun row hrow => hc.rowAt hrow) hmax
  refine ⟨h', hr, fun a hzero => ?_, fun a => ?_⟩
  · by_cases hm : ElemOf map.size chains a
    · rw [elem_none_of_gone hreleased.gone hm, elem_none_of_gone ha.free hm]
    · rw [hreleased.elems a hzero hm, ha.elems a hzero hm]
  · by_cases hm : EntryOf map.size chains a
    · rw [entry_none_of_gone hreleased.gone hm, entry_none_of_gone ha.free hm]
    · rw [hreleased.entries a hm, ha.entries a hm]

-- hmap_resize leaves nothing of the old buckets.
theorem Tidy.resize {size : Nat} {addrs : List (Nat × Nat)} {r : HashHeap κ × Hashmap κ}
    (ht : Tidy h₀ h map) (hsize : 0 < size) (hmax : map.size ≤ INT_MAX) (hfresh : FreshAddrs h addrs)
    (hr : hmapResize h map size addrs = some r) : Tidy h₀ r.1 r.2 := by
  obtain ⟨chains, hc, ha⟩ := ht
  rw [hmapResize] at hr
  split at hr
  swap
  · cases hr
  obtain ⟨r₁, hrehash, hr⟩ := Option.bind_eq_some_iff.mp hr
  obtain ⟨h', hdestroy, hr⟩ := Option.bind_eq_some_iff.mp hr
  obtain rfl := Option.some.inj hr
  have hstart : Filling h (hmapEmpty size map.hash map.compare)
      ⟨h, hmapEmpty size map.hash map.compare, addrs⟩ :=
    ⟨⟨_, HashRun.chains_empty h size map.hash map.compare, .empty h size⟩, rfl, hfresh⟩
  obtain ⟨⟨chains', hc', ha'⟩, -, -⟩ :=
    rehash_keeps (fun hf hre => Filling.reinsert hsize hf hre) hstart hrehash
  -- the new map lies where nothing was before, so that the old one is still whole
  have hapart : ∀ a, ElemOf map.size chains a → ¬ElemOf r₁.out.size chains' a :=
    fun a hm hm' => hc.elem_live hm (elem_none_of_gone ha'.free hm')
  have hapart' : ∀ a, EntryOf map.size chains a → ¬EntryOf r₁.out.size chains' a :=
    fun a hm hm' => hc.entry_live hm (entry_none_of_gone ha'.free hm')
  have hrows : ∀ row ∈ rowsOf map chains, RowAt r₁.heap row := by
    intro row hrow
    apply (hc.rowAt hrow).congr
    intro n hn
    have helem := hc.elemOf_rows hrow (List.mem_map_of_mem hn)
    have hentry := hc.entryOf_rows hrow (List.mem_map_of_mem hn)
    exact ⟨ha'.elems _ ((hc.rowAt hrow).elem_ne_zero hn) (hapart _ helem),
      ha'.entries _ (hapart' _ hentry)⟩
  obtain ⟨h₁, hr₁, hreleased⟩ := hc.destroy hrows hmax
  obtain rfl := Option.some.inj (hr₁.symm.trans hdestroy)
  refine ⟨chains', hc'.congr fun j hj n hn => ?_, ⟨fun a hzero hout => ?_, fun a hout => ?_,
    fun j hj n hn => ?_⟩⟩
  · have helem : ElemOf r₁.out.size chains' n.elem := ⟨j, hj, List.mem_map_of_mem hn⟩
    have hentry : EntryOf r₁.out.size chains' n.entry := ⟨j, hj, List.mem_map_of_mem hn⟩
    exact ⟨hreleased.elems _ (hc'.elem_ne_zero hj hn) fun hm => hapart _ hm helem,
      hreleased.entries _ fun hm => hapart' _ hm hentry⟩
  · by_cases hm : ElemOf map.size chains a
    · rw [elem_none_of_gone hreleased.gone hm, elem_none_of_gone ha.free hm]
    · rw [hreleased.elems a hzero hm, ha'.elems a hzero hout, ha.elems a hzero hm]
  · by_cases hm : EntryOf map.size chains a
    · rw [entry_none_of_gone hreleased.gone hm, entry_none_of_gone ha.free hm]
    · rw [hreleased.entries a hm, ha'.entries a hout, ha.entries a hm]
  · obtain ⟨helem, hentry⟩ := ha'.free j hj n hn
    have hm : ¬ElemOf map.size chains n.elem := fun hm => hc.elem_live hm helem
    have hm' : ¬EntryOf map.size chains n.entry := fun hm => hc.entry_live hm hentry
    rw [← ha.elems _ (hc'.elem_ne_zero hj hn) hm, ← ha.entries _ hm']
    exact ⟨helem, hentry⟩

end Rehash

namespace HashRun

variable {hash : κ → UInt32} {compare : κ → κ → Int} {st st' : HashRun κ} {h₀ : HashHeap κ} {size : Nat}

-- One operation or resize of a run.
def Next (st st' : HashRun κ) : Prop :=
  ∃ op result, st.ResizePermits op ∧ st.resizeStep op = some (result, st')

theorem resized_of_next (hsize : 0 < size)
    (hrun : ReflTransGen Next ⟨h₀, hmapEmpty size hash compare⟩ st) :
    ∃ held, Resized hash compare st held := by
  induction hrun with
  | refl => exact ⟨_, .created h₀ size hsize⟩
  | tail _ hnext ih =>
    obtain ⟨held, hr⟩ := ih
    obtain ⟨op, result, hop, hstep⟩ := hnext
    exact ⟨_, hr.step op hop hstep⟩

section Laws

variable (hsame : Equivalence fun a b => compare a b = 0) (hhash : ∀ a b, compare a b = 0 → hash a = hash b)

include hsame hhash

theorem Resized.tidy_step {held : κ → List Nat} (hr : Resized hash compare st held)
    (ht : Tidy h₀ st.heap st.map) (hnext : Next st st') : Tidy h₀ st'.heap st'.map := by
  obtain ⟨op, result, hop, hstep⟩ := hnext
  obtain ⟨hpos, hk⟩ := hr.kept hsame hhash
  have hlaw : st.map.Lawful := by
    rw [hk.map_eq]
    exact ⟨hsame, hhash⟩
  cases op with
  | resize size addrs =>
    obtain ⟨⟨hmax, -⟩, -⟩ := resize_kept hsame hhash hpos hk hop hstep
    obtain ⟨r, hresize, he⟩ := Option.bind_eq_some_iff.mp hstep
    obtain ⟨-, rfl⟩ := Prod.mk.inj (Option.some.inj he)
    exact ht.resize hop.1 hmax hop.2.2 hresize
  | call op =>
    cases op with
    | insert key val entry elem =>
      obtain ⟨helem, hentry, hnone⟩ := hop
      obtain ⟨h', bs, hr, ht', -⟩ :=
        ht.insert hpos helem ⟨hentry, Option.isNone_iff_eq_none.mp hnone⟩ key val
      obtain ⟨r, hinsert, he⟩ := Option.bind_eq_some_iff.mp hstep
      obtain rfl := Option.some.inj (hr.symm.trans hinsert)
      obtain ⟨-, rfl⟩ := Prod.mk.inj (Option.some.inj he)
      exact ht'
    | set key val entry elem =>
      obtain ⟨helem, hentry, hnone⟩ := hop
      obtain ⟨h', bs, hr, ht'⟩ :=
        ht.set hpos hlaw helem ⟨hentry, Option.isNone_iff_eq_none.mp hnone⟩ key val
      obtain ⟨r, hset, he⟩ := Option.bind_eq_some_iff.mp hstep
      obtain rfl := Option.some.inj (hr.symm.trans hset)
      obtain ⟨-, rfl⟩ := Prod.mk.inj (Option.some.inj he)
      exact ht'
    | remove key =>
      obtain ⟨val, h', bs, hr, ht'⟩ := ht.remove hpos hlaw key
      obtain ⟨r, hremove, he⟩ := Option.bind_eq_some_iff.mp hstep
      obtain rfl := Option.some.inj (hr.symm.trans hremove)
      obtain ⟨-, rfl⟩ := Prod.mk.inj (Option.some.inj he)
      exact ht'
    | get key =>
      obtain ⟨val, -, he⟩ := Option.bind_eq_some_iff.mp hstep
      obtain ⟨-, rfl⟩ := Prod.mk.inj (Option.some.inj he)
      exact ht
    | contains key =>
      obtain ⟨found, -, he⟩ := Option.bind_eq_some_iff.mp hstep
      obtain ⟨-, rfl⟩ := Prod.mk.inj (Option.some.inj he)
      exact ht

theorem tidy_run (hsize : 0 < size) (hrun : ReflTransGen Next ⟨h₀, hmapEmpty size hash compare⟩ st) :
    Tidy h₀ st.heap st.map := by
  induction hrun with
  | refl => exact ⟨_, chains_empty h₀ size hash compare, .empty h₀ size⟩
  | tail hrun hnext ih =>
    obtain ⟨held, hr⟩ := resized_of_next hsize hrun
    exact hr.tidy_step hsame hhash ih hnext

-- A map gives back all that it took: after any run of operations and resizes, hmap_destroy leaves the
-- list elements and hash entries that were there before the map was made, as they were, and no others.
theorem hmap_gives_back (hsize : 0 < size)
    (hrun : ReflTransGen Next ⟨h₀, hmapEmpty size hash compare⟩ st) (hmax : st.map.size ≤ INT_MAX) :
    ∃ h', hmapDestroy st.heap st.map = some h' ∧
      (∀ a, a ≠ 0 → h'.elems a = h₀.elems a) ∧ ∀ a, h'.entries a = h₀.entries a :=
  (tidy_run hsame hhash hsize hrun).destroy hmax

end Laws

-- A run that stops at an operation that is not permitted.
def resizeRun : List (ResizeOp κ) → HashRun κ → Option (HashRun κ)
  | [], st => some st
  | op :: ops, st =>
      if st.ResizePermits op then (st.resizeStep op).bind fun r => resizeRun ops r.2 else none

theorem next_of_run {ops : List (ResizeOp κ)} (hrun : resizeRun ops st = some st') :
    ReflTransGen Next st st' := by
  induction ops generalizing st with
  | nil => exact Option.some.inj hrun ▸ .refl
  | cons op ops ih =>
    obtain ⟨hop, r, hstep, hrest⟩ := guarded_eq_some hrun
    exact .head ⟨op, r.1, hop, hstep⟩ (ih hrest)

-- A map of three buckets beside a list of another program, with a collision, a removal and a resize.
theorem hmap_gives_back_resized : ∃ (st : HashRun Nat) (h' : HashHeap Nat),
    hmapGet st.heap st.map 2 = some 25 ∧ hmapDestroy st.heap st.map = some h' ∧
    h'.elems 50 = some ⟨0, 0, 60⟩ ∧ h'.elems 200 = none ∧ h'.entries 100 = none ∧
    h'.elems 400 = none := by
  let h₀ : HashHeap Nat := ⟨fun a => if a = 50 then some ⟨0, 0, 60⟩ else none, fun _ => none⟩
  have h : (resizeRun [.call (.insert 1 10 100 200), .call (.insert 2 20 101 201),
      .call (.set 2 25 102 202), .resize 5 [(300, 400), (301, 401)], .call (.remove 1)]
      ⟨h₀, hmapEmpty 3 (fun _ => 7) fun (a b : Nat) => (a : Int) - b⟩).map
        (fun st => (st.map.size, hmapGet st.heap st.map 2)) = some (5, some 25) := by decide +kernel
  obtain ⟨st, hrun, hst⟩ := Option.map_eq_some_iff.mp h
  obtain ⟨hsize, hget⟩ := Prod.mk.inj hst
  have hsame : Equivalence fun a b : Nat => (a : Int) - b = 0 :=
    ⟨fun a => by omega, fun hab => by omega, fun hab hbc => by omega⟩
  have hmax : st.map.size ≤ INT_MAX := by
    rw [hsize]
    decide
  obtain ⟨h', hr, helems, hentries⟩ :=
    hmap_gives_back hsame (fun _ _ _ => rfl) (by decide) (next_of_run hrun) hmax
  exact ⟨st, h', hget, hr, helems 50 (by decide), helems 200 (by decide), hentries 100,
    helems 400 (by decide)⟩

end HashRun

end Adventure

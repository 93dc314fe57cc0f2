import Adventure.Struct.Hashmap.Theorems

namespace Adventure

open Links Shadow Ends

section Loop

variable {σ ρ : Type} {body : Option ListHdr → σ → Option σ} {i : Nat} {s : σ}

-- The rule for a loop over the buckets, each with what is known of it. The invariant is one of the
-- buckets that are left.
theorem eachBucket_rule (bucketOf : ρ → Option ListHdr) (inv : List ρ → σ → Prop)
    (hbody : ∀ row rest s, inv (row :: rest) s → ∃ s', body (bucketOf row) s = some s' ∧ inv rest s')
    {rows : List ρ} (hi : i + rows.length ≤ INT_MAX) (h : inv rows s) :
    ∃ s', hmapEachBucket body (rows.map bucketOf) i s = some s' ∧ inv [] s' := by
  induction rows generalizing i s with
  | nil => exact ⟨s, rfl, h⟩
  | cons row rows ih =>
      rw [List.length_cons] at hi
      obtain ⟨s₁, hs₁, h₁⟩ := hbody row rows s h
      obtain ⟨s', hs', h'⟩ := ih (i := i + 1) (by omega) h₁
      refine ⟨s', ?_, h'⟩
      rw [List.map_cons, hmapEachBucket, hs₁, Option.bind_eq_bind, Option.bind_some,
        if_neg (by omega), hs']

theorem eachBucket_overflow (body : Option ListHdr → σ → Option σ) {buckets : List (Option ListHdr)}
    (hi : i ≤ INT_MAX) (hlt : INT_MAX < i + buckets.length) :
    hmapEachBucket body buckets i s = none := by
  induction buckets generalizing i s with
  | nil =>
      rw [List.length_nil] at hlt
      omega
  | cons bucket buckets ih =>
      rw [List.length_cons] at hlt
      rw [hmapEachBucket]
      cases body bucket s with
      | none => rfl
      | some s₁ =>
          rw [Option.bind_eq_bind, Option.bind_some]
          by_cases hmax : i = INT_MAX
          · rw [if_pos hmax]
          · rw [if_neg hmax, ih (by omega) (by omega)]

end Loop

variable {κ : Type}

-- A bucket with its entries.
abbrev Row (κ : Type) := Option ListHdr × List (ChainEntry κ)

structure RowAt (h : HashHeap κ) (row : Row κ) : Prop where
  bucket : IsBucket h.elems row.1 row.2
  entry : ∀ n ∈ row.2, n.entry ≠ 0 ∧ ∃ hash, h.entries n.entry = some ⟨n.key, n.val, hash⟩

-- No address is used in two rows.
def RowsApart (row row' : Row κ) : Prop :=
  ∀ n ∈ row.2, ∀ n' ∈ row'.2, n.elem ≠ n'.elem ∧ n.entry ≠ n'.entry

-- Two heaps agree on the elements and hash entries of a chain.
def Agrees (h h' : HashHeap κ) (chain : List (ChainEntry κ)) : Prop :=
  ∀ n ∈ chain, h'.elems n.elem = h.elems n.elem ∧ h'.entries n.entry = h.entries n.entry

-- The addresses of an entry are not those of a chain that it lies apart from.
theorem notMem_of_apart {chain : List (ChainEntry κ)} {n : ChainEntry κ}
    (h : ∀ x ∈ chain, x.elem ≠ n.elem ∧ x.entry ≠ n.entry) :
    n.elem ∉ chain.map (·.elem) ∧ n.entry ∉ chain.map (·.entry) := by
  constructor
  · intro hmem
    obtain ⟨x, hx, he⟩ := List.mem_map.mp hmem
    exact (h x hx).1 he
  · intro hmem
    obtain ⟨x, hx, he⟩ := List.mem_map.mp hmem
    exact (h x hx).2 he

theorem RowAt.congr {h h' : HashHeap κ} {row : Row κ} (hr : RowAt h row) (heq : Agrees h h' row.2) :
    RowAt h' row where
  bucket := hr.bucket.congr fun n hn => (heq n hn).1
  entry n hn := by
    obtain ⟨hne, hash, he⟩ := hr.entry n hn
    exact ⟨hne, hash, (heq n hn).2.trans he⟩

theorem RowAt.elem_ne_zero {h : HashHeap κ} {row : Row κ} (hr : RowAt h row) {n : ChainEntry κ}
    (hn : n ∈ row.2) : n.elem ≠ 0 := by
  rcases row with ⟨bucket, chain⟩
  cases bucket with
  | none =>
      have hnil : chain = [] := hr.bucket
      subst hnil
      cases hn
  | some list =>
      have hl : IsList h.elems list (chain.map (·.cell)) := hr.bucket
      exact (hl.addr n.elem (by rw [addrs_cells]; exact List.mem_map_of_mem hn)).1.ne'

section Destroy

variable {h : HashHeap κ} {chain : List (ChainEntry κ)}

-- list_clear frees the entries of a bucket and reads the elements only.
theorem clearFrom_eq {back first last steps : Nat}
    (hs : Segment h.elems back first (chain.map (·.cell)) last 0) (hpos : ∀ n ∈ chain, 0 < n.elem)
    (hsteps : chain.length < steps) : ∃ h', listClearFrom steps h first = some h' ∧
      h'.elems = h.elems ∧ ∀ a, a ∉ chain.map (·.entry) → h'.entries a = h.entries a := by
  induction chain generalizing h back first steps with
  | nil =>
      obtain ⟨steps, rfl⟩ : ∃ n, steps = n + 1 := ⟨steps - 1, by omega⟩
      rw [listClearFrom, if_pos hs.1]
      exact ⟨h, rfl, rfl, fun _ _ => rfl⟩
  | cons n chain ih =>
      rw [List.length_cons] at hsteps
      obtain ⟨steps, rfl⟩ : ∃ n, steps = n + 1 := ⟨steps - 1, by omega⟩
      obtain ⟨rfl, next, hnode, hrest⟩ := hs
      rw [List.forall_mem_cons] at hpos
      have hcell : n.cell.1 ≠ 0 := hpos.1.ne'
      rw [listClearFrom, if_neg hcell]
      simp only [hnode, Option.bind_eq_bind, Option.bind_some]
      obtain ⟨h', hr, helems, hentries⟩ := ih
        (h := { h with entries := Function.update h.entries n.cell.2 none }) hrest hpos.2
        (Nat.lt_of_succ_lt_succ hsteps)
      refine ⟨h', hr, helems, fun a ha => ?_⟩
      rw [List.map_cons, List.mem_cons, not_or] at ha
      rw [hentries a ha.2]
      exact Function.update_of_ne ha.1 _ _

theorem destroyBucket_eq {row : Row κ} (hr : RowAt h row) : ∃ h', hmapDestroyBucket row.1 h = some h' ∧
    (∀ a, a ≠ 0 → a ∉ row.2.map (·.elem) → h'.elems a = h.elems a) ∧
    ∀ a, a ∉ row.2.map (·.entry) → h'.entries a = h.entries a := by
  rcases row with ⟨bucket, chain⟩
  cases bucket with
  | none => exact ⟨h, rfl, fun _ _ _ => rfl, fun _ _ => rfl⟩
  | some list =>
      have hl : IsList h.elems list (chain.map (·.cell)) := hr.bucket
      have hpos : ∀ n ∈ chain, 0 < n.elem := fun n hn => Nat.pos_of_ne_zero (hr.elem_ne_zero hn)
      have hlen := IsList.length_lt hl.nodup hl.addr
      rw [List.length_map] at hlen
      obtain ⟨h₁, hclear, helems, hentries⟩ := clearFrom_eq hl.linked hpos hlen
      obtain ⟨elems, hdestroy, hframe⟩ := hl.destroy
      rw [← helems] at hdestroy
      refine ⟨{ h₁ with elems }, ?_, fun a hne ha => ?_, hentries⟩
      · simp only [hmapDestroyBucket, listClear, LIST_STEPS, hclear, hdestroy, Option.bind_eq_bind,
          Option.bind_some]
        rfl
      · apply hframe a
        rw [addrs_cells, List.mem_cons, not_or]
        exact ⟨hne, ha⟩

-- While hmap_destroy is at work: the rows that are left are whole, and nothing that belongs to no row
-- has changed.
structure Doomed (h : HashHeap κ) (rows rest : List (Row κ)) (h' : HashHeap κ) : Prop where
  sub : rest ⊆ rows
  whole : ∀ row ∈ rest, RowAt h' row
  apart : rest.Pairwise RowsApart
  elems : ∀ a, a ≠ 0 → (∀ row ∈ rows, a ∉ row.2.map (·.elem)) → h'.elems a = h.elems a
  entries : ∀ a, (∀ row ∈ rows, a ∉ row.2.map (·.entry)) → h'.entries a = h.entries a

-- hmap_destroy touches what belongs to the map only.
theorem destroy_eq {rows : List (Row κ)} (hrows : ∀ row ∈ rows, RowAt h row)
    (hapart : rows.Pairwise RowsApart) (hsize : rows.length ≤ INT_MAX) : ∃ h',
    hmapEachBucket hmapDestroyBucket (rows.map Prod.fst) 0 h = some h' ∧
    (∀ a, a ≠ 0 → (∀ row ∈ rows, a ∉ row.2.map (·.elem)) → h'.elems a = h.elems a) ∧
    ∀ a, (∀ row ∈ rows, a ∉ row.2.map (·.entry)) → h'.entries a = h.entries a := by
  have hbody : ∀ row rest h₁, Doomed h rows (row :: rest) h₁ →
      ∃ h₂, hmapDestroyBucket row.1 h₁ = some h₂ ∧ Doomed h rows rest h₂ := by
    rintro row rest h₁ ⟨hsub, hrows, hapart, helems, hentries⟩
    rw [List.forall_mem_cons] at hrows
    rw [List.pairwise_cons] at hapart
    rw [List.cons_subset] at hsub
    obtain ⟨h₂, hr, helems₂, hentries₂⟩ := destroyBucket_eq hrows.1
    refine ⟨h₂, hr, hsub.2, fun row' hrow' => ?_, hapart.2, fun a hne ha => ?_, fun a ha => ?_⟩
    · have hrow := hrows.2 row' hrow'
      apply hrow.congr
      intro n hn
      obtain ⟨helem, hentry⟩ := notMem_of_apart fun n' hn' => hapart.1 row' hrow' n' hn' n hn
      exact ⟨helems₂ _ (hrow.elem_ne_zero hn) helem, hentries₂ _ hentry⟩
    · rw [helems₂ a hne (ha row hsub.1), helems a hne ha]
    · rw [hentries₂ a (ha row hsub.1), hentries a ha]
  obtain ⟨h', hr, hd⟩ := eachBucket_rule (i := 0) Prod.fst (Doomed h rows) hbody (by omega)
    ⟨List.Subset.refl rows, hrows, hapart, fun _ _ _ => rfl, fun _ _ => rfl⟩
  exact ⟨h', hr, hd.elems, hd.entries⟩

end Destroy

-- The addresses that calloc returns are not in use.
def FreshAddrs (h : HashHeap κ) (addrs : List (Nat × Nat)) : Prop :=
  (addrs.map Prod.fst).Nodup ∧ (addrs.map Prod.snd).Nodup ∧
    ∀ a ∈ addrs, (0 < a.1 ∧ (h.entries a.1).isNone = true) ∧
      0 < a.2 ∧ a.2 < 2 ^ 64 ∧ (h.elems a.2).isNone = true

instance (h : HashHeap κ) (addrs : List (Nat × Nat)) : Decidable (FreshAddrs h addrs) :=
  inferInstanceAs (Decidable (_ ∧ _))

-- The addresses behind the first are not in use when those of the first are.
theorem FreshAddrs.rest {h h' : HashHeap κ} {addr : Nat × Nat} {addrs : List (Nat × Nat)}
    (hf : FreshAddrs h (addr :: addrs)) (helems : ∀ a ≠ addr.2, h.elems a = none → h'.elems a = none)
    (hentries : ∀ a ≠ addr.1, h'.entries a = h.entries a) : FreshAddrs h' addrs := by
  obtain ⟨hnodup, hnodup', hfresh⟩ := hf
  rw [List.map_cons, List.nodup_cons] at hnodup hnodup'
  refine ⟨hnodup.2, hnodup'.2, fun a ha => ?_⟩
  obtain ⟨⟨hpos, hnone⟩, hpos', hlt, hnone'⟩ := hfresh a (List.mem_cons_of_mem addr ha)
  have hne : a.1 ≠ addr.1 := fun he => hnodup.1 (he ▸ List.mem_map_of_mem ha)
  have hne' : a.2 ≠ addr.2 := fun he => hnodup'.1 (he ▸ List.mem_map_of_mem ha)
  rw [Option.isNone_iff_eq_none] at hnone'
  refine ⟨⟨hpos, (hentries _ hne).symm ▸ hnone⟩, hpos', hlt, ?_⟩
  exact Option.isNone_iff_eq_none.mpr (helems _ hne' hnone')

-- While hmap_rehash is at work: the old entries, `old`, are whole, and the new map holds `chains` at
-- other addresses.
structure Moving (old : List (ChainEntry κ)) (r : Rehash κ) (chains : Nat → List (ChainEntry κ)) :
    Prop where
  out : Chains r.heap r.out chains
  apart : ∀ n ∈ old, ∀ i < r.out.size, ∀ n' ∈ chains i, n.elem ≠ n'.elem ∧ n.entry ≠ n'.entry
  live : ∀ n ∈ old, r.heap.elems n.elem ≠ none ∧ r.heap.entries n.entry ≠ none
  fresh : FreshAddrs r.heap r.addrs

section Rehash

variable {old : List (ChainEntry κ)} {r : Rehash κ} {chains : Nat → List (ChainEntry κ)}

-- An entry goes to the new map and leaves the old ones alone.
theorem Moving.reinsert (hm : Moving old r chains) (hlaw : r.out.Lawful) (hsize : 0 < r.out.size)
    {addr : Nat × Nat} {addrs : List (Nat × Nat)} (haddrs : r.addrs = addr :: addrs)
    (entry : Hashentry κ) : ∃ h' bs chains',
    hmapReinsert r entry = some ⟨h', { r.out with buckets := bs }, addrs⟩ ∧
    Moving old ⟨h', { r.out with buckets := bs }, addrs⟩ chains' ∧ Agrees r.heap h' old ∧
    stacksOf r.out chains' =
      onClass r.out.compare entry.key (entry.val :: ·) (stacksOf r.out chains) := by
  have hfresh := hm.fresh
  rw [haddrs] at hfresh
  obtain ⟨⟨hpos, hnone⟩, hpos', hlt, hnone'⟩ := hfresh.2.2 addr List.mem_cons_self
  rw [Option.isNone_iff_eq_none] at hnone hnone'
  obtain ⟨h', bs, hr, hc, hsame, hsame'⟩ :=
    hm.out.insert_entry hsize ⟨hpos', hlt, hnone'⟩ ⟨hpos, hnone⟩ entry.key entry.val
  have hi := hmapIndex_lt hsize entry.key
  have hagrees : Agrees r.heap h' old := by
    intro n hn
    obtain ⟨hlive, hlive'⟩ := hm.live n hn
    refine ⟨hsame _ (fun he => hlive (he ▸ hnone')) fun hmem => ?_, hsame' _ fun he => hlive' (he ▸ hnone)⟩
    obtain ⟨n', hn', he⟩ := List.mem_map.mp hmem
    exact (hm.apart n hn _ hi n' hn').1 he.symm
  refine ⟨h', bs, _, ?_, ⟨hc, ?_, ?_, ?_⟩, hagrees,
    stacksOf_update hlaw (vals_cons entry.key entry.val _)⟩
  · unfold hmapReinsert
    rw [haddrs]
    simp only [hr, Option.bind_eq_bind, Option.bind_some]
    rfl
  · intro n hn j hj n' hn'
    obtain ⟨hlive, hlive'⟩ := hm.live n hn
    by_cases hji : j = hmapIndex r.out entry.key
    · rw [hji, Function.update_self, List.mem_cons] at hn'
      cases hn' with
      | inl hnew =>
          subst hnew
          exact ⟨fun he => hlive (he ▸ hnone'), fun he => hlive' (he ▸ hnone)⟩
      | inr hn' => exact hm.apart n hn _ hi n' hn'
    · rw [Function.update_of_ne hji] at hn'
      exact hm.apart n hn j hj n' hn'
  · intro n hn
    rw [(hagrees n hn).1, (hagrees n hn).2]
    exact hm.live n hn
  · apply hfresh.rest _ hsame'
    intro a hne hfree
    rw [hsame a hne fun hmem => ?_]
    · exact hfree
    · -- the elements of the new map are allocated
      obtain ⟨n', hn', he⟩ := List.mem_map.mp hmem
      obtain ⟨b, -, hbucket⟩ := hm.out.bucket _ hi
      obtain ⟨node, hnode⟩ := hbucket.allocated hn'
      rw [show n'.elem = a from he] at hnode
      rw [hnode] at hfree
      cases hfree

-- What is left to do for the entries `rest`, and what comes of it: `goal` is the stacks at the end.
structure Remains (map : Hashmap κ) (old : List (ChainEntry κ)) (h : HashHeap κ) (size : Nat)
    (goal : κ → List Nat) (rest : List (ChainEntry κ)) (r : Rehash κ) : Prop where
  out_eq : r.out = ⟨r.out.buckets, size, map.compare, map.hash⟩
  moving : ∃ chains, Moving old r chains ∧
    ∀ k, (valsIn map rest k).reverse ++ stacksOf r.out chains k = goal k
  agrees : Agrees h r.heap old
  addrs : rest.length ≤ r.addrs.length

variable {map : Hashmap κ} {h : HashHeap κ} {size : Nat} {goal : κ → List Nat}

theorem Remains.reinsert {n : ChainEntry κ} {rest : List (ChainEntry κ)} (hmap : map.Lawful)
    (hsize : 0 < size) (hr : Remains map old h size goal (n :: rest) r) (hash : UInt32) :
    ∃ r', hmapReinsert r ⟨n.key, n.val, hash⟩ = some r' ∧ Remains map old h size goal rest r' := by
  obtain ⟨hout, ⟨chains, hm, hgoal⟩, hagrees, haddrs⟩ := hr
  rw [List.length_cons] at haddrs
  cases hcons : r.addrs with
  | nil =>
      rw [hcons, List.length_nil] at haddrs
      omega
  | cons addr addrs =>
      have hlaw : r.out.Lawful := by
        rw [hout]
        exact ⟨hmap.same, hmap.hash_eq⟩
      have hpos : 0 < r.out.size := by
        rw [hout]
        exact hsize
      obtain ⟨h', bs, chains', hre, hm', hsame, hstacks⟩ :=
        hm.reinsert hlaw hpos hcons ⟨n.key, n.val, hash⟩
      refine ⟨_, hre, ⟨?_, ⟨chains', hm', fun k => ?_⟩, fun x hx => ?_, ?_⟩⟩
      · change (⟨bs, r.out.size, r.out.compare, r.out.hash⟩ : Hashmap κ) = _
        rw [hout]
      · rw [← hgoal k]
        change _ ++ stacksOf r.out chains' k = _
        rw [hstacks, onClass]
        have hcompare : r.out.compare = map.compare := by rw [hout]
        have hvals : valsIn map (n :: rest) k = if map.compare n.key k = 0
            then n.val :: valsIn map rest k else valsIn map rest k := vals_cons n.key n.val rest k
        rw [hcompare, hvals]
        by_cases hk : map.compare n.key k = 0
        · rw [if_pos hk, if_pos hk, List.reverse_cons, List.append_assoc]
          rfl
        · rw [if_neg hk, if_neg hk]
      · exact ⟨(hsame x hx).1.trans (hagrees x hx).1, (hsame x hx).2.trans (hagrees x hx).2⟩
      · rw [hcons, List.length_cons] at haddrs
        exact Nat.le_of_succ_le_succ haddrs

-- The walk over a bucket takes its entries from the first to the last.
theorem rehashList_eq (hmap : map.Lawful) (hsize : 0 < size) {chain rest : List (ChainEntry κ)}
    {back first last steps : Nat} (hs : Segment h.elems back first (chain.map (·.cell)) last 0)
    (hentry : ∀ n ∈ chain, n.elem ≠ 0 ∧ n.entry ≠ 0 ∧ ∃ hash, h.entries n.entry = some ⟨n.key, n.val, hash⟩)
    (hsub : chain ⊆ old) (hsteps : chain.length < steps)
    (hr : Remains map old h size goal (chain ++ rest) r) :
    ∃ r', hmapRehashList steps first r = some r' ∧ Remains map old h size goal rest r' := by
  induction chain generalizing back first steps r with
  | nil =>
      obtain ⟨steps, rfl⟩ : ∃ n, steps = n + 1 := ⟨steps - 1, by omega⟩
      rw [hmapRehashList, if_pos hs.1]
      exact ⟨r, rfl, hr⟩
  | cons n chain ih =>
      rw [List.length_cons] at hsteps
      obtain ⟨steps, rfl⟩ : ∃ n, steps = n + 1 := ⟨steps - 1, by omega⟩
      obtain ⟨rfl, next, hnode, hrest⟩ := hs
      rw [List.forall_mem_cons] at hentry
      rw [List.cons_subset] at hsub
      obtain ⟨⟨hne, hne', hash, he⟩, hentry⟩ := hentry
      obtain ⟨hnode₁, he₁⟩ := hr.agrees n hsub.1
      obtain ⟨r₁, hre, hr₁⟩ := hr.reinsert hmap hsize hash
      have hnode₂ := (hr₁.agrees n hsub.1).1
      obtain ⟨r', hr', hremains⟩ := ih hrest hentry hsub.2 (Nat.lt_of_succ_lt_succ hsteps) hr₁
      rw [hmapRehashList, if_neg (show n.cell.1 ≠ 0 from hne)]
      have hnode : h.elems n.elem = some ⟨back, next, n.entry⟩ := hnode
      simp only [ChainEntry.cell, hnode₁, hnode, he₁, he, if_neg hne', Option.bind_eq_bind,
        Option.bind_some, hre, hnode₂, hr']
      exact ⟨r', rfl, hremains⟩

theorem rehashBucket_eq (hmap : map.Lawful) (hsize : 0 < size) {row : Row κ}
    {rest : List (ChainEntry κ)} (hrow : RowAt h row) (hsub : row.2 ⊆ old)
    (hr : Remains map old h size goal (row.2 ++ rest) r) :
    ∃ r', hmapRehashBucket row.1 r = some r' ∧ Remains map old h size goal rest r' := by
  have hentry : ∀ n ∈ row.2, n.elem ≠ 0 ∧ n.entry ≠ 0 ∧
      ∃ hash, h.entries n.entry = some ⟨n.key, n.val, hash⟩ :=
    fun n hn => ⟨hrow.elem_ne_zero hn, hrow.entry n hn⟩
  rcases row with ⟨bucket, chain⟩
  cases bucket with
  | none =>
      have hnil : chain = [] := hrow.bucket
      subst hnil
      exact ⟨r, rfl, hr⟩
  | some list =>
      have hl : IsList h.elems list (chain.map (·.cell)) := hrow.bucket
      have hlen := IsList.length_lt hl.nodup hl.addr
      rw [List.length_map] at hlen
      exact rehashList_eq hmap hsize hl.linked hentry hsub hlen hr

-- hmap_rehash pushes all entries, bucket after bucket.
theorem rehash_eq (hmap : map.Lawful) (hsize : 0 < size) {rows : List (Row κ)}
    (hrows : ∀ row ∈ rows, RowAt h row ∧ row.2 ⊆ old) (hmax : rows.length ≤ INT_MAX)
    (hr : Remains map old h size goal (rows.flatMap Prod.snd) r) : ∃ r',
    hmapEachBucket hmapRehashBucket (rows.map Prod.fst) 0 r = some r' ∧
      Remains map old h size goal [] r' := by
  have hbody : ∀ (row : Row κ) rest r, ((∀ row' ∈ row :: rest, RowAt h row' ∧ row'.2 ⊆ old) ∧
      Remains map old h size goal ((row :: rest).flatMap Prod.snd) r) →
      ∃ r', hmapRehashBucket row.1 r = some r' ∧ (∀ row' ∈ rest, RowAt h row' ∧ row'.2 ⊆ old) ∧
        Remains map old h size goal (rest.flatMap Prod.snd) r' := by
    rintro row rest r ⟨hrows, hr⟩
    rw [List.forall_mem_cons] at hrows
    rw [List.flatMap_cons] at hr
    obtain ⟨r', hr', hremains⟩ := rehashBucket_eq hmap hsize hrows.1.1 hrows.1.2 hr
    exact ⟨r', hr', hrows.2, hremains⟩
  obtain ⟨r', hr', -, hremains⟩ := eachBucket_rule (i := 0) Prod.fst (fun rest r =>
    (∀ row' ∈ rest, RowAt h row' ∧ row'.2 ⊆ old) ∧
      Remains map old h size goal (rest.flatMap Prod.snd) r) hbody (by omega) ⟨hrows, hr⟩
  exact ⟨r', hr', hremains⟩

end Rehash

-- The buckets of a map in the order of the walk, each with its entries.
def rowsOf (map : Hashmap κ) (chains : Nat → List (ChainEntry κ)) : List (Row κ) :=
  map.buckets.zipIdx.map fun b => (b.1, chains b.2)

namespace Chains

variable {h : HashHeap κ} {map : Hashmap κ} {chains : Nat → List (ChainEntry κ)}

theorem rows_fst : (rowsOf map chains).map Prod.fst = map.buckets := by
  unfold rowsOf
  rw [List.map_map]
  exact List.zipIdx_map_fst 0 map.buckets

variable (hc : Chains h map chains)

include hc

theorem rows_length : (rowsOf map chains).length = map.size := by
  rw [← hc.length, ← List.length_map Prod.fst, rows_fst]

theorem mem_rows {row : Row κ} (hrow : row ∈ rowsOf map chains) :
    ∃ i < map.size, map.buckets[i]? = some row.1 ∧ row.2 = chains i := by
  obtain ⟨⟨b, i⟩, hb, rfl⟩ := List.mem_map.mp hrow
  have hget := List.mem_zipIdx_iff_getElem?.mp hb
  exact ⟨i, hc.length ▸ (List.getElem?_eq_some_iff.mp hget).1, hget, rfl⟩

theorem rowAt {row : Row κ} (hrow : row ∈ rowsOf map chains) : RowAt h row := by
  obtain ⟨i, hi, hget, hchain⟩ := hc.mem_rows hrow
  obtain ⟨b, hb, hbucket⟩ := hc.bucket i hi
  rw [hget, Option.some.injEq] at hb
  refine ⟨by rw [hb, hchain]; exact hbucket, fun n hn => ?_⟩
  have he := hc.entry i hi n (hchain ▸ hn)
  exact ⟨he.ne_zero, _, he.entry_eq⟩

theorem rows_apart : (rowsOf map chains).Pairwise RowsApart := by
  rw [List.pairwise_iff_getElem]
  intro i j hi hj hij
  have hsize := hc.rows_length
  have hget : ∀ k (hk : k < (rowsOf map chains).length), ((rowsOf map chains)[k]).2 = chains k := by
    intro k hk
    simp [rowsOf]
  unfold RowsApart
  rw [hget i hi, hget j hj]
  exact hc.apart i (by omega) j (by omega) hij.ne

theorem entries_eq : (rowsOf map chains).flatMap Prod.snd = (List.range map.size).flatMap chains := by
  have hsnd : (rowsOf map chains).map Prod.snd = (map.buckets.zipIdx.map Prod.snd).map chains := by
    unfold rowsOf
    rw [List.map_map, List.map_map]
    rfl
  rw [List.flatMap_def, List.flatMap_def, hsnd, List.zipIdx_map_snd, hc.length,
    List.range_eq_range']

theorem count_eq : ((rowsOf map chains).flatMap Prod.snd).length = hmapCount map := by
  have hlen : ∀ row ∈ rowsOf map chains, row.2.length = (row.1.map listCount).getD 0 := by
    intro row hrow
    have hbucket := (hc.rowAt hrow).bucket
    cases hb : row.1 with
    | none =>
        rw [hb] at hbucket
        exact congrArg List.length hbucket
    | some list =>
        rw [hb] at hbucket
        have hl : IsList h.elems list (row.2.map (·.cell)) := hbucket
        have hcount := hl.count
        rw [List.length_map] at hcount
        exact hcount.symm
  have hfst : (rowsOf map chains).map Prod.fst = map.buckets := rows_fst
  unfold hmapCount
  rw [← hfst, List.length_flatMap, List.map_map]
  exact congrArg List.sum (List.map_congr_left hlen)

-- The entries of a key all lie in its bucket.
theorem vals_entries (hmap : map.Lawful) (hsize : 0 < map.size) (k : κ) :
    valsIn map ((rowsOf map chains).flatMap Prod.snd) k = stacksOf map chains k := by
  have hi := hmapIndex_lt hsize k
  obtain ⟨before, after, hsplit⟩ := List.append_of_mem (List.mem_range.mpr hi)
  have hnodup : (before ++ hmapIndex map k :: after).Nodup := hsplit ▸ List.nodup_range
  rw [List.nodup_append', List.nodup_cons] at hnodup
  have hother : ∀ part : List Nat, part ⊆ List.range map.size → hmapIndex map k ∉ part →
      entriesOf (fun a b => map.compare a b = 0) (·.key) k (part.flatMap chains) = [] := by
    intro part hsub hout
    apply entriesOf_nil_of
    intro x hx hs
    obtain ⟨j, hj, hxj⟩ := List.mem_flatMap.mp hx
    have hindex := (hc.entry j (List.mem_range.mp (hsub hj)) x hxj).index_eq
    rw [← index_eq_of_same hmap hs] at hindex
    exact hout (hindex ▸ hj)
  rw [hc.entries_eq, hsplit, List.flatMap_append, List.flatMap_cons, valsIn, entriesOf_append,
    entriesOf_append, hother before (by simp [hsplit]) fun hm => hnodup.2.2 hm (by simp),
    hother after (by simp [hsplit]) hnodup.2.1.1, List.nil_append, List.append_nil]
  rfl

-- The elements of a map have addresses other than NULL.
theorem elem_ne_zero {i : Nat} (hi : i < map.size) {n : ChainEntry κ} (hn : n ∈ chains i) :
    n.elem ≠ 0 := by
  obtain ⟨b, hb, hbucket⟩ := hc.bucket i hi
  have he := hc.entry i hi
  have hrow : RowAt h (b, chains i) :=
    ⟨hbucket, fun n hn => ⟨(he n hn).ne_zero, _, (he n hn).entry_eq⟩⟩
  exact hrow.elem_ne_zero hn

-- hmap_resize turns the stack of every key around: the entries of a bucket are pushed from the first
-- to the last.
theorem resize {size : Nat} {addrs : List (Nat × Nat)} (hmap : map.Lawful) (hpos : 0 < map.size)
    (hmax : map.size ≤ INT_MAX) (hsize : 0 < size) (hbytes : size * SIZEOF_POINTER < 2 ^ 64)
    (hfresh : FreshAddrs h addrs) (hcount : hmapCount map ≤ addrs.length) : ∃ h' bs chains',
    hmapResize h map size addrs = some (h', ⟨bs, size, map.compare, map.hash⟩) ∧
    Chains h' ⟨bs, size, map.compare, map.hash⟩ chains' ∧
    stacksOf ⟨bs, size, map.compare, map.hash⟩ chains' = fun k => (stacksOf map chains k).reverse := by
  have hrows : ∀ row ∈ rowsOf map chains, RowAt h row ∧ row.2 ⊆ (rowsOf map chains).flatMap Prod.snd :=
    fun row hrow => ⟨hc.rowAt hrow, fun n hn => List.mem_flatMap.mpr ⟨row, hrow, hn⟩⟩
  have hlive : ∀ n ∈ (rowsOf map chains).flatMap Prod.snd,
      h.elems n.elem ≠ none ∧ h.entries n.entry ≠ none := by
    intro n hn
    obtain ⟨row, hrow, hn⟩ := List.mem_flatMap.mp hn
    obtain ⟨node, hnode⟩ := (hc.rowAt hrow).bucket.allocated hn
    obtain ⟨-, hash, he⟩ := (hc.rowAt hrow).entry n hn
    simp [hnode, he]
  have hlen : (rowsOf map chains).length ≤ INT_MAX := hc.rows_length ▸ hmax
  have hstart : Remains map ((rowsOf map chains).flatMap Prod.snd) h size
      (fun k => (stacksOf map chains k).reverse) ((rowsOf map chains).flatMap Prod.snd)
      ⟨h, hmapEmpty size map.hash map.compare, addrs⟩ := by
    refine ⟨rfl, ⟨fun _ => [], ⟨HashRun.chains_empty h size map.hash map.compare, by simp, hlive,
      hfresh⟩, fun k => ?_⟩, fun _ _ => ⟨rfl, rfl⟩, hc.count_eq ▸ hcount⟩
    rw [hc.vals_entries hmap hpos]
    exact List.append_nil _
  obtain ⟨⟨h₁, out, addrs'⟩, hrehash, hout, ⟨chains', hm, hgoal⟩, hagrees, -⟩ :=
    rehash_eq hmap hsize hrows hlen hstart
  obtain ⟨h', hdestroy, helems, hentries⟩ := destroy_eq
    (fun row hrow => (hc.rowAt hrow).congr fun n hn => hagrees n ((hrows row hrow).2 hn))
    hc.rows_apart hlen
  rcases out with ⟨bs, size', compare', hash'⟩
  obtain ⟨rfl, rfl, rfl⟩ : size' = size ∧ compare' = map.compare ∧ hash' = map.hash := by
    simpa using hout
  have hc' : Chains h' ⟨bs, size', map.compare, map.hash⟩ chains' := by
    apply hm.out.congr
    intro i hi n hn
    have hapart : ∀ row ∈ rowsOf map chains, n.elem ∉ row.2.map (·.elem) ∧ n.entry ∉ row.2.map (·.entry) :=
      fun row hrow => notMem_of_apart fun x hx => hm.apart x ((hrows row hrow).2 hx) i hi n hn
    exact ⟨helems _ (hm.out.elem_ne_zero hi hn) fun row hrow => (hapart row hrow).1,
      hentries _ fun row hrow => (hapart row hrow).2⟩
  refine ⟨h', bs, chains', ?_, hc', funext hgoal⟩
  rw [rows_fst] at hrehash hdestroy
  unfold hmapResize hmapRehash hmapDestroy
  rw [if_pos hbytes, hrehash, Option.bind_eq_bind, Option.bind_some, hdestroy]
  rfl

-- The loops over more than INT_MAX buckets have no end.
theorem resize_overflow {size : Nat} {addrs : List (Nat × Nat)} (hmax : INT_MAX < map.size) :
    hmapResize h map size addrs = none := by
  unfold hmapResize hmapRehash
  have hlt : INT_MAX < 0 + map.buckets.length := by
    rw [hc.length]
    omega
  rw [eachBucket_overflow hmapRehashBucket (Nat.zero_le _) hlt]
  split <;> rfl

end Chains

end Adventure

import Adventure.Struct.Hashmap.Chains

namespace Adventure

open Links Shadow Ends

-- `entry` and `elem` are what calloc returns if the operation needs a new entry.
inductive HashOp (κ : Type)
  | insert (key : κ) (val entry elem : Nat)
  | set (key : κ) (val entry elem : Nat)
  | remove (key : κ)
  | get (key : κ)
  | contains (key : κ)

inductive HashResult
  | done
  | val (v : Nat)
  | found (b : Bool)
deriving DecidableEq, Repr

section Reference

variable {κ : Type} (compare : κ → κ → Int)

-- The stacks of all keys, with a change to the stack that the keys equal to `key` share.
def onClass (key : κ) (f : List Nat → List Nat) (held : κ → List Nat) : κ → List Nat :=
  fun k => if compare key k = 0 then f (held k) else held k

-- The map that a hash map stands for: a stack of values for each class of keys.
def stacksStep (held : κ → List Nat) : HashOp κ → HashResult × (κ → List Nat)
  | .insert key val _ _ => (.done, onClass compare key (val :: ·) held)
  | .set key val _ _ => (.done, onClass compare key (fun vals => val :: vals.tail) held)
  | .remove key => (.val ((held key).head?.getD 0), onClass compare key List.tail held)
  | .get key => (.val ((held key).head?.getD 0), held)
  | .contains key => (.found (held key).head?.isSome, held)

end Reference

structure HashRun (κ : Type) where
  heap : HashHeap κ
  map : Hashmap κ

namespace HashRun

variable {κ : Type}

def step (st : HashRun κ) : HashOp κ → Option (HashResult × HashRun κ)
  | .insert key val entry elem => do
      let r ← hmapInsert st.heap st.map key val entry elem
      return (.done, ⟨r.1, r.2⟩)
  | .set key val entry elem => do
      let r ← hmapSet st.heap st.map key val entry elem
      return (.done, ⟨r.1, r.2⟩)
  | .remove key => do
      let r ← hmapRemove st.heap st.map key
      return (.val r.1, ⟨r.2.1, r.2.2⟩)
  | .get key => do
      let val ← hmapGet st.heap st.map key
      return (.val val, st)
  | .contains key => do
      let found ← hmapContains st.heap st.map key
      return (.found found, st)

-- calloc returns addresses that are not in use.
def Permits (st : HashRun κ) : HashOp κ → Prop
  | .insert _ _ entry elem | .set _ _ entry elem =>
      (0 < elem ∧ elem < 2 ^ 64 ∧ st.heap.elems elem = none) ∧
        0 < entry ∧ (st.heap.entries entry).isNone = true
  | .remove _ | .get _ | .contains _ => True

instance (st : HashRun κ) : (op : HashOp κ) → Decidable (st.Permits op)
  | .insert _ _ _ _ | .set _ _ _ _ => inferInstanceAs (Decidable (_ ∧ _))
  | .remove _ | .get _ | .contains _ => .isTrue trivial

-- The states of all runs on a map with `size` empty buckets, in a heap that may hold other
-- elements, with what the stacks are then.
inductive Reached (size : Nat) (hash : κ → UInt32) (compare : κ → κ → Int) :
    HashRun κ → (κ → List Nat) → Prop
  | created (h : HashHeap κ) : Reached size hash compare ⟨h, hmapEmpty size hash compare⟩ fun _ => []
  | step {st st' : HashRun κ} {held : κ → List Nat} {result : HashResult} (op : HashOp κ) :
      Reached size hash compare st held → st.Permits op → st.step op = some (result, st') →
      Reached size hash compare st' (stacksStep compare held op).2

-- A run that stops at an operation that is not permitted.
def run (compare : κ → κ → Int) :
    List (HashOp κ) → HashRun κ → (κ → List Nat) → Option (HashRun κ × (κ → List Nat))
  | [], st, held => some (st, held)
  | op :: ops, st, held =>
      if st.Permits op then
        (st.step op).bind fun r => run compare ops r.2 (stacksStep compare held op).2
      else none

theorem Reached.run {size : Nat} {hash : κ → UInt32} {compare : κ → κ → Int} {st : HashRun κ}
    {held : κ → List Nat} {ops : List (HashOp κ)} {r : HashRun κ × (κ → List Nat)}
    (hr : Reached size hash compare st held) (hrun : HashRun.run compare ops st held = some r) :
    Reached size hash compare r.1 r.2 := by
  induction ops generalizing st held with
  | nil => exact Option.some.inj hrun ▸ hr
  | cons op ops ih =>
      unfold HashRun.run at hrun
      obtain ⟨hop, r₁, hstep, hrest⟩ := guarded_eq_some hrun
      exact ih (.step op hr hop hstep) hrest

end HashRun

-- The values of a key in a bucket.
def valsIn {κ : Type} (map : Hashmap κ) (chain : List (ChainEntry κ)) (k : κ) : List Nat :=
  (entriesOf (fun a b => map.compare a b = 0) (·.key) k chain).map (·.val)

-- The values of a key in the bucket it belongs to.
def stacksOf {κ : Type} (map : Hashmap κ) (chains : Nat → List (ChainEntry κ)) (k : κ) : List Nat :=
  valsIn map (chains (hmapIndex map k)) k

section Stacks

variable {κ : Type} {map : Hashmap κ} {chains : Nat → List (ChainEntry κ)} {key : κ}

theorem vals_cons (key : κ) (val : Nat) (chain : List (ChainEntry κ)) {elem entry : Nat} (k : κ) :
    valsIn map (⟨elem, entry, key, val⟩ :: chain) k =
      if map.compare key k = 0 then val :: valsIn map chain k else valsIn map chain k := by
  rw [valsIn, entriesOf_cons]
  split <;> rfl

theorem vals_nil (hmap : map.Lawful) {chain : List (ChainEntry κ)}
    (hnone : ∀ n ∈ chain, map.compare n.key key ≠ 0) {k : κ} (hk : map.compare key k = 0) :
    valsIn map chain k = [] := by
  have hnil : entriesOf (fun a b => map.compare a b = 0) (·.key) k chain = [] :=
    entriesOf_nil_of fun x hx hs => hnone x hx (hmap.same.trans hs (hmap.same.symm hk))
  rw [valsIn, hnil]
  rfl

-- The keys that are the same as the key of `n` are those that are the same as the key searched for.
theorem same_iff (hmap : map.Lawful) {n : ChainEntry κ} (hn : map.compare n.key key = 0) (k : κ) :
    map.compare n.key k = 0 ↔ map.compare key k = 0 :=
  ⟨fun h => hmap.same.trans (hmap.same.symm hn) h, fun h => hmap.same.trans hn h⟩

theorem vals_erase (hmap : map.Lawful) {before after : List (ChainEntry κ)} {n : ChainEntry κ}
    (hbefore : ∀ x ∈ before, map.compare x.key key ≠ 0) (hn : map.compare n.key key = 0) (k : κ) :
    valsIn map (before ++ after) k = if map.compare key k = 0
      then (valsIn map (before ++ n :: after) k).tail else valsIn map (before ++ n :: after) k := by
  have hb : ∀ x ∈ before, ¬map.compare x.key n.key = 0 := fun x hx hs =>
    hbefore x hx (hmap.same.trans hs hn)
  rw [valsIn, valsIn, entriesOf_erase hmap.same hb]
  simp only [same_iff hmap hn]
  split
  · rw [List.map_tail]
  · rfl

theorem vals_replace (hmap : map.Lawful) {before after : List (ChainEntry κ)} {n : ChainEntry κ}
    (hbefore : ∀ x ∈ before, map.compare x.key key ≠ 0) (hn : map.compare n.key key = 0)
    (val : Nat) (k : κ) :
    valsIn map (before ++ { n with val } :: after) k = if map.compare key k = 0
      then val :: (valsIn map (before ++ n :: after) k).tail
      else valsIn map (before ++ n :: after) k := by
  have hb : ∀ x ∈ before, ¬map.compare x.key n.key = 0 := fun x hx hs =>
    hbefore x hx (hmap.same.trans hs hn)
  have hkey : ({ n with val } : ChainEntry κ).key = n.key := rfl
  rw [valsIn, valsIn, entriesOf_replace hmap.same hb hkey]
  simp only [same_iff hmap hn]
  split
  · rw [List.map_cons, List.map_tail]
  · rfl

theorem index_eq_of_same (hmap : map.Lawful) {k : κ} (h : map.compare key k = 0) :
    hmapIndex map k = hmapIndex map key := by
  rw [hmapIndex, hmapIndex, hmap.hash_eq key k h]

-- A change to the bucket of a key that only the entries of the key take part in.
theorem stacksOf_update (hmap : map.Lawful) {chain' : List (ChainEntry κ)} {f : List Nat → List Nat}
    (hf : ∀ k, valsIn map chain' k = if map.compare key k = 0
      then f (valsIn map (chains (hmapIndex map key)) k)
      else valsIn map (chains (hmapIndex map key)) k) :
    stacksOf map (Function.update chains (hmapIndex map key) chain') =
      onClass map.compare key f (stacksOf map chains) := by
  funext k
  rw [stacksOf, onClass, stacksOf]
  by_cases hi : hmapIndex map k = hmapIndex map key
  · rw [hi, Function.update_self]
    exact hf k
  · rw [Function.update_of_ne hi, if_neg fun h => hi (index_eq_of_same hmap h)]

-- There is nothing to pop for a key that no entry has.
theorem stacksOf_absent (hmap : map.Lawful)
    (hnone : ∀ n ∈ chains (hmapIndex map key), map.compare n.key key ≠ 0) :
    stacksOf map chains = onClass map.compare key List.tail (stacksOf map chains) := by
  have hu : ∀ k, valsIn map (chains (hmapIndex map key)) k = if map.compare key k = 0
      then (valsIn map (chains (hmapIndex map key)) k).tail
      else valsIn map (chains (hmapIndex map key)) k := by
    intro k
    by_cases hk : map.compare key k = 0
    · rw [if_pos hk, vals_nil hmap hnone hk]
      rfl
    · rw [if_neg hk]
  have hs := stacksOf_update hmap hu
  rwa [Function.update_eq_self] at hs

-- What a search finds is on top of the stack.
theorem head_stacksOf (key : κ) : (stacksOf map chains key).head? =
    ((chains (hmapIndex map key)).find? fun n => map.compare n.key key = 0).map (·.val) := by
  rw [stacksOf, valsIn, List.head?_map]
  exact congrArg _ (find_eq_head key _).symm

end Stacks

namespace Chains

variable {κ : Type} {h : HashHeap κ} {map : Hashmap κ} {chains : Nat → List (ChainEntry κ)} {key : κ}

section Modify

variable (hc : Chains h map chains) (hmap : map.Lawful) (hsize : 0 < map.size)

include hc hmap hsize

theorem get : hmapGet h map key = some ((stacksOf map chains key).head?.getD 0) := by
  have hi := hmapIndex_lt hsize key
  obtain ⟨b, hb, hbucket⟩ := hc.bucket _ hi
  rw [hmapGet, hb, head_stacksOf]
  simp only [Option.bind_eq_bind, Option.bind_some]
  cases b with
  | none =>
      rw [show chains (hmapIndex map key) = [] from hbucket]
      rfl
  | some list =>
      have hl : IsList h.elems list ((chains (hmapIndex map key)).map (·.cell)) := hbucket
      obtain ⟨hg, hf, -⟩ | ⟨before, n, after, node, he, hg, hf, hne, hnode, hval, -⟩ :=
        hc.getEntry_cases hmap hi hl key
      · simp only [hg, hf, Option.bind_some]
        rfl
      · have hn := hc.entry _ hi n (by simp [he])
        simp only [hg, hf, Option.bind_some, if_neg hne, hnode, hval, hn.entry_eq]
        rfl

theorem contains : hmapContains h map key = some (stacksOf map chains key).head?.isSome := by
  have hi := hmapIndex_lt hsize key
  obtain ⟨b, hb, hbucket⟩ := hc.bucket _ hi
  rw [hmapContains, hb, head_stacksOf]
  simp only [Option.bind_eq_bind, Option.bind_some]
  cases b with
  | none =>
      rw [show chains (hmapIndex map key) = [] from hbucket]
      rfl
  | some list =>
      have hl : IsList h.elems list ((chains (hmapIndex map key)).map (·.cell)) := hbucket
      obtain ⟨hg, hf, -⟩ | ⟨before, n, after, node, -, hg, hf, hne, -⟩ :=
        hc.getEntry_cases hmap hi hl key
      · simp only [hg, hf, Option.bind_some]
        rfl
      · simp [hg, hf, hne]

theorem insert {entry elem : Nat} (helem : 0 < elem ∧ elem < 2 ^ 64 ∧ h.elems elem = none)
    (hentry : 0 < entry ∧ h.entries entry = none) (val : Nat) : ∃ h' bs chains',
    hmapInsert h map key val entry elem = some (h', { map with buckets := bs }) ∧
    Chains h' { map with buckets := bs } chains' ∧
    stacksOf map chains' = onClass map.compare key (val :: ·) (stacksOf map chains) := by
  obtain ⟨h', bs, hr, hc', -⟩ := hc.insert_entry hsize helem hentry key val
  exact ⟨h', bs, _, hr, hc', stacksOf_update hmap (vals_cons key val _)⟩

theorem set {entry elem : Nat} (helem : 0 < elem ∧ elem < 2 ^ 64 ∧ h.elems elem = none)
    (hentry : 0 < entry ∧ h.entries entry = none) (val : Nat) : ∃ h' bs chains',
    hmapSet h map key val entry elem = some (h', { map with buckets := bs }) ∧
    Chains h' { map with buckets := bs } chains' ∧
    stacksOf map chains' = onClass map.compare key (fun vals => val :: vals.tail) (stacksOf map chains) := by
  have hi := hmapIndex_lt hsize key
  obtain ⟨list, bs, hb, hl, hbs, hc'⟩ := hc.getBucket hi
  simp only [hmapSet, hb, Option.bind_eq_bind, Option.bind_some]
  obtain ⟨hg, -, hnone⟩ | ⟨before, n, after, node, he, hg, -, hne, hnode, hval, hbefore, hn⟩ :=
    hc.getEntry_cases hmap hi hl key
  · obtain ⟨h', bs', hr, hc'', -⟩ := hc'.unshift hsize hl helem hentry val
    simp only [hg, Option.bind_some, ne_eq, not_true_eq_false, if_false]
    refine ⟨h', bs', _, hr, hc'', stacksOf_update hmap fun k => (vals_cons key val _ k).trans ?_⟩
    change (if map.compare key k = 0 then val :: valsIn map (chains (hmapIndex map key)) k else _) = _
    by_cases hk : map.compare key k = 0
    · rw [if_pos hk, if_pos hk, vals_nil hmap hnone hk]
      rfl
    · rw [if_neg hk, if_neg hk]
      rfl
  · have hn' := hc.entry _ hi n (by simp [he])
    have hc'' := hc'.assign hi he hl hbs val
    simp only [hg, Option.bind_some, if_pos hne, hnode, hval, if_neg hn'.ne_zero, hn'.entry_eq]
    refine ⟨_, bs, _, rfl, hc'', stacksOf_update hmap fun k => ?_⟩
    rw [vals_replace hmap hbefore hn, he]

theorem remove : ∃ h' bs chains',
    hmapRemove h map key =
      some ((stacksOf map chains key).head?.getD 0, h', { map with buckets := bs }) ∧
    Chains h' { map with buckets := bs } chains' ∧
    stacksOf map chains' = onClass map.compare key List.tail (stacksOf map chains) := by
  have hi := hmapIndex_lt hsize key
  obtain ⟨b, hb, hbucket⟩ := hc.bucket _ hi
  rw [hmapRemove, hb, head_stacksOf]
  simp only [Option.bind_eq_bind, Option.bind_some]
  cases b with
  | none =>
      have hnil : chains (hmapIndex map key) = [] := hbucket
      refine ⟨h, map.buckets, chains, ?_, hc, stacksOf_absent hmap (by simp [hnil])⟩
      rw [hnil]
      rfl
  | some list =>
      have hl : IsList h.elems list ((chains (hmapIndex map key)).map (·.cell)) := hbucket
      obtain ⟨hg, hf, hnone⟩ | ⟨before, n, after, node, he, hg, hf, hne, hnode, hval, hbefore, hn⟩ :=
        hc.getEntry_cases hmap hi hl key
      · simp only [hg, hf, Option.bind_some]
        exact ⟨h, map.buckets, chains, rfl, hc, stacksOf_absent hmap hnone⟩
      · have hn' := hc.entry _ hi n (by simp [he])
        obtain ⟨elems', list', hr, hc'⟩ := hc.erase hi he hl
        simp only [hg, hf, Option.bind_some, if_neg hne, hnode, hval, hn'.entry_eq, hr]
        refine ⟨_, _, _, rfl, hc', stacksOf_update hmap fun k => ?_⟩
        rw [vals_erase hmap hbefore hn, he]

end Modify

end Chains

namespace HashRun

variable {κ : Type} {size : Nat} {hash : κ → UInt32} {compare : κ → κ → Int} {st st' : HashRun κ}
  {held : κ → List Nat}

-- The invariant of a run: the buckets hold the stacks of all keys.
structure Kept (size : Nat) (hash : κ → UInt32) (compare : κ → κ → Int) (st : HashRun κ)
    (held : κ → List Nat) : Prop where
  map_eq : st.map = ⟨st.map.buckets, size, compare, hash⟩
  chains : ∃ chains, Chains st.heap st.map chains ∧ stacksOf st.map chains = held

theorem chains_empty (h : HashHeap κ) (size : Nat) (hash : κ → UInt32) (compare : κ → κ → Int) :
    Chains h (hmapEmpty size hash compare) fun _ => [] := by
  refine ⟨List.length_replicate, fun i hi => ⟨none, ?_, rfl⟩, ?_, ?_, ?_⟩
  · exact List.getElem?_replicate_of_lt hi
  · simp
  · simp
  · simp

theorem kept_created (h : HashHeap κ) :
    Kept size hash compare ⟨h, hmapEmpty size hash compare⟩ fun _ => [] :=
  ⟨rfl, fun _ => [], chains_empty h size hash compare, rfl⟩

section Laws

variable (hsize : 0 < size) (hsame : Equivalence fun a b => compare a b = 0)
  (hhash : ∀ a b, compare a b = 0 → hash a = hash b)

include hsize hsame hhash

-- One operation does to the map what it does to the stacks.
theorem step_kept (hk : Kept size hash compare st held) {op : HashOp κ} (hop : st.Permits op) :
    ∃ st', st.step op = some ((stacksStep compare held op).1, st') ∧
      Kept size hash compare st' (stacksStep compare held op).2 := by
  rcases st with ⟨h, buckets, size', compare', hash'⟩
  obtain ⟨hmap, chains, hc, rfl⟩ := hk
  obtain ⟨rfl, rfl, rfl⟩ : size' = size ∧ compare' = compare ∧ hash' = hash := by
    simpa using hmap
  have hlaw : Hashmap.Lawful ⟨buckets, size', compare', hash'⟩ := ⟨hsame, hhash⟩
  cases op with
  | insert key val entry elem =>
      obtain ⟨helem, hpos, hnone⟩ := hop
      obtain ⟨h', bs, chains', hr, hc', hs⟩ :=
        hc.insert hlaw hsize helem ⟨hpos, Option.isNone_iff_eq_none.mp hnone⟩ val
      exact ⟨⟨h', ⟨bs, size', compare', hash'⟩⟩, by rw [step, hr]; rfl, rfl, chains', hc', hs⟩
  | set key val entry elem =>
      obtain ⟨helem, hpos, hnone⟩ := hop
      obtain ⟨h', bs, chains', hr, hc', hs⟩ :=
        hc.set hlaw hsize helem ⟨hpos, Option.isNone_iff_eq_none.mp hnone⟩ val
      exact ⟨⟨h', ⟨bs, size', compare', hash'⟩⟩, by rw [step, hr]; rfl, rfl, chains', hc', hs⟩
  | remove key =>
      obtain ⟨h', bs, chains', hr, hc', hs⟩ := hc.remove hlaw hsize
      exact ⟨⟨h', ⟨bs, size', compare', hash'⟩⟩, by rw [step, hr]; rfl, rfl, chains', hc', hs⟩
  | get key => exact ⟨_, by rw [step, hc.get hlaw hsize]; rfl, rfl, chains, hc, rfl⟩
  | contains key => exact ⟨_, by rw [step, hc.contains hlaw hsize]; rfl, rfl, chains, hc, rfl⟩

theorem Reached.kept (hr : Reached size hash compare st held) : Kept size hash compare st held := by
  induction hr with
  | created h => exact kept_created h
  | step op _ hop hstep ih =>
      obtain ⟨st', hst', hk'⟩ := step_kept hsize hsame hhash ih hop
      rw [hst', Option.some.injEq, Prod.mk.injEq] at hstep
      exact hstep.2 ▸ hk'

-- A hash map is a map of stacks: in every state of a run, every operation returns what it returns
-- on the stacks and leaves the map with the stacks that it leaves.
theorem hmap_stacks (hr : Reached size hash compare st held) (op : HashOp κ) (hop : st.Permits op) :
    ∃ st', st.step op = some ((stacksStep compare held op).1, st') ∧
      Reached size hash compare st' (stacksStep compare held op).2 := by
  obtain ⟨st', hstep, -⟩ := step_kept hsize hsame hhash (hr.kept hsize hsame hhash) hop
  exact ⟨st', hstep, hr.step op hop hstep⟩

end Laws

-- Two keys with one hash, in a map with three buckets.
theorem hmap_stacks_collide : ∃ (st : HashRun Nat) (held : Nat → List Nat),
    Reached 3 (fun _ => 7) (fun (a b : Nat) => (a : Int) - b) st held ∧ held 1 = [30, 10] ∧ held 2 = [25] ∧
    ∃ st', st.step (.remove 1) = some (.val 30, st') := by
  have h : (run (fun (a b : Nat) => (a : Int) - b) [.insert 1 10 100 200, .insert 2 20 101 201,
      .insert 1 30 102 202, .set 2 25 103 203] ⟨⟨fun _ => none, fun _ => none⟩,
        hmapEmpty 3 (fun _ => 7) (fun (a b : Nat) => (a : Int) - b)⟩ fun _ => []).map
          (fun r => (r.2 1, r.2 2)) = some ([30, 10], [25]) := by decide +kernel
  obtain ⟨⟨st, held⟩, hrun, hheld⟩ := Option.map_eq_some_iff.mp h
  obtain ⟨h₁, h₂⟩ := Prod.mk.inj hheld
  have hr := (Reached.created ⟨fun _ => none, fun _ => none⟩).run hrun
  have hsame : Equivalence fun a b : Nat => (a : Int) - b = 0 :=
    ⟨fun a => by omega, fun hab => by omega, fun hab hbc => by omega⟩
  obtain ⟨st', hstep, -⟩ :=
    hmap_stacks (show 0 < 3 by decide) hsame (fun _ _ _ => rfl) hr (.remove 1) trivial
  refine ⟨st, held, hr, h₁, h₂, st', ?_⟩
  rw [hstep, stacksStep, h₁]
  rfl

end HashRun

end Adventure

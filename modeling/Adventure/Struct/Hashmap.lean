import Adventure.Struct.List

namespace Adventure

variable {κ : Type}

def DEFAULT_SIZE : Nat := 300

-- struct hashmap. A bucket of none is NULL. Keys are of any type; the map only passes them to the
-- functions `compare` and `hash`.
structure Hashmap (κ : Type) where
  buckets : List (Option ListHdr)
  size : Nat
  compare : κ → κ → Int
  hash : κ → UInt32

structure Hashentry (κ : Type) where
  key : κ
  val : Nat
  hash : UInt32

-- The list elements and hash entries that are allocated, by their addresses.
structure HashHeap (κ : Type) where
  elems : ListHeap
  entries : Nat → Option (Hashentry κ)

-- A map with `size` buckets, all NULL.
def hmapEmpty (size : Nat) (hash : κ → UInt32) (compare : κ → κ → Int) : Hashmap κ :=
  ⟨List.replicate size none, size, compare, hash⟩

def hmapCreate (hash : κ → UInt32) (compare : κ → κ → Int) : Hashmap κ :=
  hmapEmpty DEFAULT_SIZE hash compare

-- hash % map->size
def hmapIndex (map : Hashmap κ) (key : κ) : Nat := (map.hash key).toNat % map.size

-- `entry` is what calloc returns.
def hmapMakeEntry (h : HashHeap κ) (key : κ) (val : Nat) (hash : UInt32) (entry : Nat) : HashHeap κ :=
  { h with entries := Function.update h.entries entry (some ⟨key, val, hash⟩) }

-- The loop of hmap_get_entry. The element 0 is NULL.
def hmapGetEntryFrom (h : HashHeap κ) (key : κ) (hash : UInt32) (compare : κ → κ → Int) :
    Nat → Nat → Option Nat
  | 0, _ => none
  | steps + 1, cur =>
      if cur = 0 then some 0
      else do
        let node ← h.elems cur
        if node.val = 0 then hmapGetEntryFrom h key hash compare steps node.next
        else
          let entry ← h.entries node.val
          if entry.hash = hash ∧ compare entry.key key = 0 then some cur
          else hmapGetEntryFrom h key hash compare steps node.next

def hmapGetEntry (h : HashHeap κ) (bucket : ListHdr) (key : κ) (hash : UInt32)
    (compare : κ → κ → Int) : Option Nat :=
  hmapGetEntryFrom h key hash compare LIST_STEPS bucket.first

-- A bucket that is NULL is made.
def hmapGetBucket (map : Hashmap κ) (index : Nat) : Option (ListHdr × Hashmap κ) := do
  let bucket ← map.buckets[index]?
  match bucket with
  | some list => return (list, map)
  | none => return (listCreate, { map with buckets := map.buckets.set index (some listCreate) })

-- A new entry in front of a bucket.
def hmapUnshift (h : HashHeap κ) (map : Hashmap κ) (bucket : ListHdr) (key : κ) (val : Nat)
    (entry elem : Nat) : Option (HashHeap κ × Hashmap κ) := do
  let h := hmapMakeEntry h key val (map.hash key) entry
  let r ← listUnshift h.elems bucket entry elem
  return ({ h with elems := r.1 },
    { map with buckets := map.buckets.set (hmapIndex map key) (some r.2) })

def hmapInsert (h : HashHeap κ) (map : Hashmap κ) (key : κ) (val : Nat) (entry elem : Nat) :
    Option (HashHeap κ × Hashmap κ) := do
  let r ← hmapGetBucket map (hmapIndex map key)
  hmapUnshift h r.2 r.1 key val entry elem

-- list_clear on a bucket, whose values are hash entries.
def listClearFrom : Nat → HashHeap κ → Nat → Option (HashHeap κ)
  | 0, _, _ => none
  | steps + 1, h, cur =>
      if cur = 0 then some h
      else do
        let node ← h.elems cur
        listClearFrom steps { h with entries := Function.update h.entries node.val none } node.next

def listClear (h : HashHeap κ) (list : ListHdr) : Option (HashHeap κ) :=
  listClearFrom LIST_STEPS h list.first

def hmapDestroyBucket : Option ListHdr → HashHeap κ → Option (HashHeap κ)
  | none, h => some h
  | some list, h => do
      let h ← listClear h list
      let elems ← listDestroy h.elems list
      return { h with elems }

-- for (int i=0; i<map->size; i++). There is no result where i++ overflows.
def hmapEachBucket {σ : Type} (body : Option ListHdr → σ → Option σ) :
    List (Option ListHdr) → Nat → σ → Option σ
  | [], _, s => some s
  | bucket :: rest, i, s => do
      let s ← body bucket s
      if i = INT_MAX then none else hmapEachBucket body rest (i + 1) s

def hmapDestroy (h : HashHeap κ) (map : Hashmap κ) : Option (HashHeap κ) :=
  hmapEachBucket hmapDestroyBucket map.buckets 0 h

-- What hmap_rehash works on: the heap, the map that the entries go to, and the addresses that
-- calloc returns next, those of an entry and of a list element.
structure Rehash (κ : Type) where
  heap : HashHeap κ
  out : Hashmap κ
  addrs : List (Nat × Nat)

def hmapReinsert (r : Rehash κ) (entry : Hashentry κ) : Option (Rehash κ) :=
  match r.addrs with
  | [] => none
  | addr :: addrs => do
      let s ← hmapInsert r.heap r.out entry.key entry.val addr.1 addr.2
      return ⟨s.1, s.2, addrs⟩

def hmapRehashList : Nat → Nat → Rehash κ → Option (Rehash κ)
  | 0, _, _ => none
  | steps + 1, cur, r =>
      if cur = 0 then some r
      else do
        let node ← r.heap.elems cur
        let r ← if node.val = 0 then some r else (r.heap.entries node.val).bind (hmapReinsert r)
        let node ← r.heap.elems cur
        hmapRehashList steps node.next r

def hmapRehashBucket : Option ListHdr → Rehash κ → Option (Rehash κ)
  | none, r => some r
  | some list, r => hmapRehashList LIST_STEPS list.first r

def hmapRehash (map : Hashmap κ) (r : Rehash κ) : Option (Rehash κ) :=
  hmapEachBucket hmapRehashBucket map.buckets 0 r

-- The entries that the buckets count.
def hmapCount (map : Hashmap κ) : Nat := (map.buckets.map fun b => (b.map listCount).getD 0).sum

-- A table of 2^64 bytes or more is NULL, and no bucket can be taken from it.
def hmapResize (h : HashHeap κ) (map : Hashmap κ) (size : Nat) (addrs : List (Nat × Nat)) :
    Option (HashHeap κ × Hashmap κ) :=
  if size * SIZEOF_POINTER < 2 ^ 64 then do
    let r ← hmapRehash map ⟨h, hmapEmpty size map.hash map.compare, addrs⟩
    let h ← hmapDestroy r.heap map
    return (h, r.out)
  else none

def hmapRemove (h : HashHeap κ) (map : Hashmap κ) (key : κ) :
    Option (Nat × HashHeap κ × Hashmap κ) := do
  let bucket ← map.buckets[hmapIndex map key]?
  match bucket with
  | none => return (0, h, map)
  | some list =>
      let elem ← hmapGetEntry h list key (map.hash key) map.compare
      if elem = 0 then return (0, h, map)
      let node ← h.elems elem
      let entry ← h.entries node.val
      let h := { h with entries := Function.update h.entries node.val none }
      let r ← listRemove h.elems list elem
      return (entry.val, { h with elems := r.2.1 },
        { map with buckets := map.buckets.set (hmapIndex map key) (some r.2.2) })

def hmapContains (h : HashHeap κ) (map : Hashmap κ) (key : κ) : Option Bool := do
  let bucket ← map.buckets[hmapIndex map key]?
  match bucket with
  | none => return false
  | some list =>
      let elem ← hmapGetEntry h list key (map.hash key) map.compare
      return elem ≠ 0

def hmapSet (h : HashHeap κ) (map : Hashmap κ) (key : κ) (val : Nat) (entry elem : Nat) :
    Option (HashHeap κ × Hashmap κ) := do
  let r ← hmapGetBucket map (hmapIndex map key)
  let found ← hmapGetEntry h r.1 key (map.hash key) map.compare
  if found ≠ 0 then
    let node ← h.elems found
    if node.val = 0 then return (h, r.2)
    let entry ← h.entries node.val
    return ({ h with entries := Function.update h.entries node.val (some { entry with val }) }, r.2)
  else hmapUnshift h r.2 r.1 key val entry elem

def hmapGet (h : HashHeap κ) (map : Hashmap κ) (key : κ) : Option Nat := do
  let bucket ← map.buckets[hmapIndex map key]?
  match bucket with
  | none => return 0
  | some list =>
      let elem ← hmapGetEntry h list key (map.hash key) map.compare
      if elem = 0 then return 0
      let node ← h.elems elem
      let entry ← h.entries node.val
      return entry.val

end Adventure

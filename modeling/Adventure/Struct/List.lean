import Adventure.Library.Links
import Adventure.Store

namespace Adventure

open Links

-- struct listelem, with pointers as numbers; 0 is NULL.
abbrev Listelem := Link Nat Nat

-- The list elements that are allocated, by their addresses.
abbrev ListHeap := Heap Nat Nat

-- struct list
structure ListHdr where
  count : Nat
  first : Nat
  last : Nat
deriving DecidableEq, Repr

namespace ListHeap

-- calloc gives out the address `elem`, and the element is all zeros.
def calloc (h : ListHeap) (elem : Nat) : ListHeap := Function.update h elem (some ⟨0, 0, 0⟩)

def free (h : ListHeap) (elem : Nat) : ListHeap := Function.update h elem none

-- A write to an element. There is no result where the pointer is not to an element.
def setPrev (h : ListHeap) (elem prev : Nat) : Option ListHeap :=
  (h elem).map fun node => Function.update h elem (some { node with prev })

def setNext (h : ListHeap) (elem next : Nat) : Option ListHeap :=
  (h elem).map fun node => Function.update h elem (some { node with next })

def setVal (h : ListHeap) (elem val : Nat) : Option ListHeap :=
  (h elem).map fun node => Function.update h elem (some { node with val })

end ListHeap

def listCreate : ListHdr := ⟨0, 0, 0⟩

-- `elem` is what calloc returns.
def listPush (h : ListHeap) (list : ListHdr) (val elem : Nat) : Option (ListHeap × ListHdr) := do
  let h := h.calloc elem
  let h ← h.setVal elem val
  if list.last ≠ 0 then
    let h ← h.setPrev elem list.last
    let h ← h.setNext list.last elem
    return (h, { list with last := elem, count := add64 list.count 1 })
  else
    return (h, { list with first := elem, last := elem, count := add64 list.count 1 })

def listUnshift (h : ListHeap) (list : ListHdr) (val elem : Nat) : Option (ListHeap × ListHdr) := do
  let h := h.calloc elem
  let h ← h.setVal elem val
  let h ← h.setPrev elem 0
  let h ← h.setNext elem list.first
  if list.first ≠ 0 then
    let h ← h.setPrev list.first elem
    return (h, { list with first := elem, count := add64 list.count 1 })
  else
    return (h, { list with first := elem, last := elem, count := add64 list.count 1 })

-- The part of list_remove that takes the element out of the chain.
def listUnlink (h : ListHeap) (list : ListHdr) (elem : Nat) : Option (ListHeap × ListHdr) :=
  if elem = list.first ∧ elem = list.last then some (h, { list with first := 0, last := 0 })
  else if elem = list.last then do
    let node ← h elem
    let h ← h.setNext node.prev 0
    return (h, { list with last := node.prev })
  else if elem = list.first then do
    let node ← h elem
    let h ← h.setPrev node.next 0
    return (h, { list with first := node.next })
  else do
    let node ← h elem
    let h ← h.setNext node.prev node.next
    let node ← h elem
    let h ← h.setPrev node.next node.prev
    return (h, list)

-- An empty list gives the value NULL.
def listRemove (h : ListHeap) (list : ListHdr) (elem : Nat) : Option (Nat × ListHeap × ListHdr) := do
  if list.first = 0 then return (0, h, list)
  let (h, list) ← listUnlink h list elem
  let node ← h elem
  return (node.val, h.free elem, { list with count := sub64 list.count 1 })

def listPop (h : ListHeap) (list : ListHdr) : Option (Nat × ListHeap × ListHdr) :=
  listRemove h list list.last

def listShift (h : ListHeap) (list : ListHdr) : Option (Nat × ListHeap × ListHdr) :=
  listRemove h list list.first

def listCount (list : ListHdr) : Nat := list.count

def listFirst (h : ListHeap) (list : ListHdr) : Option Nat :=
  if list.first ≠ 0 then (h list.first).map (·.val) else some 0

def listLast (h : ListHeap) (list : ListHdr) : Option Nat :=
  if list.last ≠ 0 then (h list.last).map (·.val) else some 0

-- A loop over more elements than there are addresses is in a cycle.
def LIST_STEPS : Nat := 2 ^ 64

-- The loop of list_destroy frees the element before the current one.
def listDestroyFrom : Nat → ListHeap → Nat → Option ListHeap
  | 0, _, _ => none
  | steps + 1, h, cur =>
      if cur = 0 then some h
      else do
        let node ← h cur
        let h := if node.prev ≠ 0 then h.free node.prev else h
        let node ← h cur
        listDestroyFrom steps h node.next

def listDestroy (h : ListHeap) (list : ListHdr) : Option ListHeap := do
  let h ← listDestroyFrom LIST_STEPS h list.first
  return h.free list.last

-- The elements that a loop from `cur` along `link` comes to, with their values.
def listFollow (link : Listelem → Nat) (h : ListHeap) : Nat → Nat → Option (List (Nat × Nat))
  | 0, _ => none
  | steps + 1, cur =>
      if cur = 0 then some []
      else do
        let node ← h cur
        let rest ← listFollow link h steps (link node)
        return (cur, node.val) :: rest

end Adventure

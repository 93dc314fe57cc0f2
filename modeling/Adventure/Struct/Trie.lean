import Mathlib.Tactic.Common

namespace Adventure

-- A C string: its bytes before the NUL. Lengths are natural numbers here, as an int holds them.
abbrev CStr := List UInt8

def strlen (s : CStr) : Nat := s.length

-- The sign of strncmp.
def strncmp : CStr → CStr → Nat → Ordering
  | _, _, 0 => .eq
  | [], [], _ + 1 => .eq
  | [], _ :: _, _ + 1 => .lt
  | _ :: _, [], _ + 1 => .gt
  | a :: as, b :: bs, n + 1 => if a = b then strncmp as bs n else if a < b then .lt else .gt

-- struct trie. A key of none is NULL, and so are children of none.
inductive Trie
  | node (key : Option CStr) (val : Nat) (children : Option (List Trie))

namespace Trie

def key : Trie → Option CStr
  | node key _ _ => key

def val : Trie → Nat
  | node _ val _ => val

end Trie

def trieCreate : Trie := .node none 0 none

def trieMakeNode (key : CStr) (len : Nat) (val : Nat) : Trie := .node (some (key.take len)) val none

-- The loop over the children of a node ends at the first that takes the key.
def trieAddChildren (add : Trie → Option (Int × Trie)) : List Trie → Option (Int × List Trie)
  | [] => some (-1, [])
  | child :: rest => do
      let r ← add child
      if r.1 = 0 then return (0, r.2 :: rest)
      let rs ← trieAddChildren add rest
      return (rs.1, r.2 :: rs.2)

-- The recursion ends: it does not go below a node whose key is as long as `key`, and the key of a
-- child is longer than that of its parent.
def trieAddFrom : Nat → Trie → CStr → Nat → Option (Int × Trie)
  | 0, _, _, _ => none
  | steps + 1, .node tkey tval children, key, val => do
      let len := (tkey.map strlen).getD 0
      if strncmp (tkey.getD []) key len ≠ .eq then return (-1, .node tkey tval children)
      if len = strlen key then return (0, .node tkey tval children)
      let r ← trieAddChildren (fun child => trieAddFrom steps child key val) (children.getD [])
      if r.1 = 0 then return (0, .node tkey tval (some r.2))
      let added ← trieAddFrom steps (trieMakeNode key (len + 1) val) key val
      return (added.1, .node tkey tval (some (r.2 ++ [added.2])))

def trieAdd (trie : Trie) (key : CStr) (val : Nat) : Option (Int × Trie) :=
  trieAddFrom (strlen key + 2) trie key val

def trieGetChildren (get : Trie → Option (Option Trie)) : List Trie → Option (Option Trie)
  | [] => some none
  | child :: rest => do
      let res ← get child
      if res.isSome then return res
      trieGetChildren get rest

-- A result of `some none` is NULL.
def trieGetSubtrieFrom : Nat → Trie → CStr → Option (Option Trie)
  | 0, _, _ => none
  | steps + 1, .node tkey tval children, key =>
      let len := (tkey.map strlen).getD 0
      if strncmp (tkey.getD []) key len ≠ .eq then some none
      else
        match children with
        | none => some (if len = strlen key then some (.node tkey tval none) else none)
        | some cs => trieGetChildren (fun child => trieGetSubtrieFrom steps child key) cs

def trieGet (trie : Trie) (key : CStr) : Option Nat := do
  let res ← trieGetSubtrieFrom (strlen key + 2) trie key
  return (res.map Trie.val).getD 0

-- `list` is what the list holds: pointers to keys, and NULL if the root has no children.
mutual

def trieGetKeys : Trie → CStr → List (Option CStr) → List (Option CStr)
  | .node tkey _ children, pre, list =>
      let len := (tkey.map strlen).getD 0
      if len ≤ strlen pre ∧ strncmp (tkey.getD []) pre len ≠ .eq then list
      else
        match children with
        | some cs => trieGetKeysChildren cs pre list
        | none => list ++ [tkey]

def trieGetKeysChildren : List Trie → CStr → List (Option CStr) → List (Option CStr)
  | [], _, list => list
  | child :: rest, pre, list => trieGetKeysChildren rest pre (trieGetKeys child pre list)

end

end Adventure

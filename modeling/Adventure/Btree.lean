import Adventure.Bstack

namespace Adventure

def BTREE_DEF_PAGE_SIZE : Nat := 64
def BTREE_HEADER_SIZE : Nat := 8

def BTREE_ROOT : Nat := 1
def BTREE_LEAF : Nat := 2

-- PG_START of btree.c; it does not look at the header.
def btStart : Nat := BTREE_HEADER_SIZE

def isLeaf (hdr : Nat) : Bool := pgFlags hdr &&& BTREE_LEAF ≠ 0
def isBranch (hdr : Nat) : Bool := !isLeaf hdr

def keyGet (key : Nat) : Nat := key &&& (2 ^ 64 - 1 - 1 <<< 63)
def keyHasOverflow (key : Nat) : Bool := key &&& 1 <<< 63 ≠ 0
def keySetOverflow (key : Nat) : Nat := key ||| 1 <<< 63

-- The flags without BTREE_ROOT, as a 64-bit value.
def clearRoot (flags : Nat) : Nat := flags &&& (2 ^ 64 - 1 - BTREE_ROOT)

def btreeHdrWrite (s : Store) (page : Nat) (flags szPage nKeys used : Nat) : Store :=
  writeUi64 s page 0 (hdrWord flags szPage nKeys used)

-- An item_p that grows by 16 comes back to its start after 4096 steps, so a loop over a page
-- that is still running then never ends.
def ITEM_STEPS : Nat := 4097

def btreeBranchFindFrom (s : Store) (page : Nat) (key : Nat) (hdr : Nat) :
    Nat → Nat → Option Nat
  | 0, _ => none
  | steps + 1, item =>
      if item < sub64 (pgEnd hdr) 8 then
        if key < readUi64 s page (item + 8) then some item
        else btreeBranchFindFrom s page key hdr steps (toItem (item + 16))
      else some item

def btreeBranchFind (s : Store) (page : Nat) (key : Nat) : Option Nat :=
  btreeBranchFindFrom s page key (pgHeader s page) ITEM_STEPS btStart

def btreeLeafFindFrom (s : Store) (page : Nat) (key : Nat) (hdr : Nat) :
    Nat → Nat → Option Nat
  | 0, _ => none
  | steps + 1, item =>
      if item < pgEnd hdr then
        if key ≤ readUi64 s page item then some item
        else btreeLeafFindFrom s page key hdr steps (toItem (item + 16))
      else some item

def btreeLeafFind (s : Store) (page : Nat) (key : Nat) : Option Nat :=
  btreeLeafFindFrom s page key (pgHeader s page) ITEM_STEPS btStart

def btreeRootCreate (s : Store) (mid : Nat) (orig split : Nat) : Option (Nat × Store) := do
  let (root, s) ← storeAlloc s BTREE_DEF_PAGE_SIZE
  let s := btreeHdrWrite s root BTREE_ROOT BTREE_DEF_PAGE_SIZE 1 (BTREE_HEADER_SIZE + 24)
  let s := writeUi64 s root BTREE_HEADER_SIZE orig
  let s := writeUi64 s root (BTREE_HEADER_SIZE + 8) mid
  let s := writeUi64 s root (BTREE_HEADER_SIZE + 16) split
  return (root, s)

def btreeBranchCopyUp (s : Store) (dest src : Nat) (nKeys : Nat) (si ei : Nat) (key : Nat)
    (orig split : Nat) (i : Nat) : Store :=
  let hdr := pgHeader s src
  let copied :=
    if i ≥ si ∧ (si ≠ btStart ∨ i < ei) then
      let s := copy s dest btStart src si (subItem i si)
      let s := writeUi64 s dest (subItem (btStart + i) si) orig
      let s := writeUi64 s dest (subItem (btStart + i + 8) si) key
      let s := writeUi64 s dest (subItem (btStart + i + 16) si) split
      let i := toItem (i + 8)
      (nKeys + 1, copy s dest (subItem (btStart + i + 16) si) src i (subItem ei i))
    else (nKeys, copy s dest btStart src si (subItem ei si))
  btreeHdrWrite copied.2 dest (clearRoot (pgFlags hdr)) (pgSize hdr) copied.1
    (copied.1 * 16 + btStart + 8)

def btreeBranchSplit (s : Store) (branch : Nat) (idx : Nat) (key : Nat) (orig split : Nat) :
    Option (Nat × Nat × Nat × Store) := do
  let hdr := pgHeader s branch
  let (left, s) ← storeAlloc s (pgSize hdr)
  let (right, s) ← storeAlloc s (pgSize hdr)
  -- The median of the old page moves one key to the right when the new child lies after it.
  let nKeysLeft := pgNkeys hdr / 2
  let nKeysRight := pgNkeys hdr - nKeysLeft
  let m := toItem (16 * nKeysLeft + btStart + 8)
  let (nKeysLeft, nKeysRight, m) :=
    if idx > m then (nKeysLeft + 1, sub32 nKeysRight 1, toItem (m + 16)) else (nKeysLeft, nKeysRight, m)
  let mid := readUi64 s branch m
  let s := btreeBranchCopyUp s left branch nKeysLeft btStart m key orig split idx
  let s := btreeBranchCopyUp s right branch (sub32 nKeysRight 1) (toItem (m + 8)) (pgEnd hdr) key orig
    split idx
  return (mid, left, right, storeFree s branch)

-- Returns page 0 when a split child does not fit.
def btreeBranchAdd (s : Store) (branch : Nat) (idx : Nat) (key : Nat) (orig split : Nat) :
    Option (Nat × Store) := do
  let hdr := pgHeader s branch
  if split ≠ 0 ∧ pgFree hdr < 16 then return (0, s)
  let (branchCopy, s) ← storeAlloc s (pgSize hdr)
  let s := copy s branchCopy btStart branch btStart (subItem idx btStart)
  let s := writeUi64 s branchCopy idx orig
  let (nKeys, offset, s) :=
    if split ≠ 0 then
      (pgNkeys hdr + 1, 16, writeUi64 (writeUi64 s branchCopy (idx + 8) key) branchCopy (idx + 16) split)
    else (pgNkeys hdr, 0, s)
  let s := copy s branchCopy (idx + 8 + offset) branch (idx + 8) (subItem (pgEnd hdr) (idx + 8))
  let s := btreeHdrWrite s branchCopy (pgFlags hdr) (pgSize hdr) nKeys (pgUsed hdr + offset)
  return (branchCopy, storeFree s branch)

def btreeLeafCopyIn (s : Store) (dest src : Nat) (nKeys : Nat) (si ei : Nat) (key : Nat)
    (val : Nat) (i : Nat) : Store :=
  let hdr := pgHeader s src
  let copied :=
    if (si = btStart ∨ i > si) ∧ i ≤ ei then
      let s := copy s dest btStart src si (subItem i si)
      let s := writeUi64 s dest (subItem (btStart + i) si) key
      let s := writeUi64 s dest (subItem (btStart + i + 8) si) val
      (nKeys + 1, copy s dest (subItem (btStart + i + 16) si) src i (subItem ei i))
    else (nKeys, copy s dest btStart src si (subItem ei si))
  btreeHdrWrite copied.2 dest (clearRoot (pgFlags hdr)) (pgSize hdr) copied.1
    (copied.1 * 16 + btStart)

def btreeLeafSplit (s : Store) (leaf : Nat) (key : Nat) (val : Nat) :
    Option (Nat × Nat × Nat × Store) := do
  let hdr := pgHeader s leaf
  let i ← btreeLeafFind s leaf key
  let (orig, s) ← storeAlloc s (pgSize hdr)
  let (split, s) ← storeAlloc s (pgSize hdr)
  let nKeysLeft := pgNkeys hdr / 2
  let nKeysRight := pgNkeys hdr - nKeysLeft
  let m := toItem (16 * nKeysLeft + btStart)
  let (nKeysLeft, nKeysRight, m) :=
    if i > m then (nKeysLeft + 1, sub32 nKeysRight 1, toItem (m + 16)) else (nKeysLeft, nKeysRight, m)
  let mid := readUi64 s leaf m
  let s := btreeLeafCopyIn s orig leaf nKeysLeft btStart m (keyGet key) val i
  let s := btreeLeafCopyIn s split leaf nKeysRight m (pgEnd hdr) (keyGet key) val i
  return (mid, orig, split, storeFree s leaf)

def btreeLeafAddDup (s : Store) (page : Nat) (i : Nat) (key : Nat) (val : Nat) :
    Option (Nat × Store) := do
  let hdr := pgHeader s page
  let prevVal := readUi64 s page (i + 8)
  let (key, overflow, s) ←
    if !keyHasOverflow key then do
      let (overflow, s) ← bstackCreate s
      let (overflow, s) ← bstackAdd s overflow prevVal
      pure (keySetOverflow key, overflow, s)
    else pure (key, prevVal, s)
  let (overflow, s) ← bstackAdd s overflow val
  let (pageCopy, s) ← storeAlloc s (pgSize hdr)
  let s := copy s pageCopy 0 page 0 i
  let s := writeUi64 s pageCopy i key
  let s := writeUi64 s pageCopy (i + 8) overflow
  let i := toItem (i + 16)
  let s := copy s pageCopy i page i (subItem (pgEnd hdr) i)
  return (pageCopy, storeFree s page)

-- Returns page 0 when the leaf has no room.
def btreeLeafAdd (s : Store) (page : Nat) (key : Nat) (val : Nat) :
    Option (Nat × Store) := do
  let hdr := pgHeader s page
  let i ← btreeLeafFind s page key
  let nextKey := readUi64 s page i
  if i < pgEnd hdr ∧ keyGet nextKey = key then btreeLeafAddDup s page i nextKey val
  else if pgFree hdr < 16 then return (0, s)
  else
    let (pageCopy, s) ← storeAlloc s (pgSize hdr)
    let s := btreeHdrWrite s pageCopy (pgFlags hdr) (pgSize hdr) (pgNkeys hdr + 1) (pgUsed hdr + 16)
    let s := copy s pageCopy btStart page btStart (subItem i btStart)
    let s := writeUi64 s pageCopy i key
    let s := writeUi64 s pageCopy (i + 8) val
    let s := copy s pageCopy (i + 16) page i (subItem (pgEnd hdr) i)
    return (pageCopy, storeFree s page)

-- The result is (returned key, *orig, *split, store); `orig` and `split` are what the caller's
-- variables hold. The recursion ends: a descent longer than the file has bytes is in a cycle.
def btreeRecurAdd : Nat → Store → Nat → Nat → Nat → Nat → Nat →
    Option (Nat × Nat × Nat × Store)
  | 0, _, _, _, _, _, _ => none
  | depth + 1, s, page, key, val, orig, split => do
      let hdr := pgHeader s page
      if isLeaf hdr then
        let (orig, s) ← btreeLeafAdd s page key val
        if orig ≠ 0 then return (key, orig, split, s)
        btreeLeafSplit s page key val
      else
        let index ← btreeBranchFind s page key
        let sub := readUi64 s page index
        let (mid, orig, split, s) ← btreeRecurAdd depth s sub key val orig split
        let (branchCopy, s) ← btreeBranchAdd s page index mid orig split
        if branchCopy ≠ 0 then return (mid, branchCopy, 0, s)
        btreeBranchSplit s page index mid orig split

def btreeCreate (s : Store) : Option (Nat × Store) := do
  let (root, s) ← storeAlloc s BTREE_DEF_PAGE_SIZE
  return (root, btreeHdrWrite s root (BTREE_LEAF ||| BTREE_ROOT) BTREE_DEF_PAGE_SIZE 0
    BTREE_HEADER_SIZE)

def btreeDestroyItems (destroy : Store → Nat → Option Store) (page : Nat) (hdr : Nat) :
    Nat → Store → Nat → Option Store
  | 0, _, _ => none
  | steps + 1, s, item =>
      if item < pgEnd hdr then do
        let s ← destroy s (readUi64 s page (item + 8))
        btreeDestroyItems destroy page hdr steps s (toItem (item + 16))
      else some s

def btreeDestroyFrom : Nat → Store → Nat → Option Store
  | 0, _, _ => none
  | depth + 1, s, page => do
      let hdr := pgHeader s page
      if isLeaf hdr then return storeFree s page
      let s ← btreeDestroyFrom depth s (readUi64 s page btStart)
      let s ← btreeDestroyItems (btreeDestroyFrom depth) page hdr ITEM_STEPS s (toItem (btStart + 8))
      return storeFree s page

def btreeDestroy (s : Store) (page : Nat) : Option Store :=
  btreeDestroyFrom s.file.size s page

-- struct bt_cur
structure BtCur where
  page : Nat
  index : Nat
deriving DecidableEq, Repr

def btreeFindFrom : Nat → Store → Nat → Nat → Option BtCur
  | 0, _, _, _ => none
  | depth + 1, s, root, key =>
      if root = 0 then some ⟨0, 0⟩
      else if isBranch (pgHeader s root) then do
        let index ← btreeBranchFind s root key
        btreeFindFrom depth s (readUi64 s root index) key
      else do
        let index ← btreeLeafFind s root key
        return ⟨root, index⟩

def btreeFind (s : Store) (root : Nat) (key : Nat) : Option BtCur :=
  btreeFindFrom s.file.size s root key

def btreeAdd (s : Store) (root : Nat) (key : Nat) (val : Nat) : Option (Nat × Store) := do
  if root = 0 then return (root, s)
  let (mid, orig, split, s) ← btreeRecurAdd s.file.size s root key val 0 0
  if split ≠ 0 then btreeRootCreate s mid orig split else return (orig, s)

-- btree_leaf_walk: the pairs that its callback is given.
def btreeLeafWalkFrom (s : Store) (page : Nat) (hdr : Nat) :
    Nat → Nat → Option (List (Nat × Nat))
  | 0, _ => none
  | steps + 1, item =>
      if item < pgEnd hdr then do
        let items ← btreeLeafWalkFrom s page hdr steps (toItem (item + 16))
        return (readUi64 s page item, readUi64 s page (item + 8)) :: items
      else some []

def btreeLeafWalk (s : Store) (page : Nat) : Option (List (Nat × Nat)) :=
  btreeLeafWalkFrom s page (pgHeader s page) ITEM_STEPS btStart

-- btree_debug_recur: the pages in the order in which they are printed, a leaf with its items.
def btreeDebugItems (visit : Nat → Option (List (Nat × List (Nat × Nat)))) (s : Store)
    (page : Nat) (hdr : Nat) : Nat → Nat → Option (List (Nat × List (Nat × Nat)))
  | 0, _ => none
  | steps + 1, item =>
      if item < pgEnd hdr then do
        let first ← visit (readUi64 s page (item + 8))
        let rest ← btreeDebugItems visit s page hdr steps (toItem (item + 16))
        return first ++ rest
      else some []

def btreeDebugFrom : Nat → Store → Nat → Option (List (Nat × List (Nat × Nat)))
  | 0, _, _ => none
  | depth + 1, s, page => do
      let hdr := pgHeader s page
      if isBranch hdr then
        let first ← btreeDebugFrom depth s (readUi64 s page btStart)
        let rest ← btreeDebugItems (btreeDebugFrom depth s) s page hdr ITEM_STEPS
          (toItem (btStart + 8))
        return (page, []) :: (first ++ rest)
      else
        let items ← btreeLeafWalk s page
        return [(page, items)]

def btreeDebugRecur (s : Store) (page : Nat) : Option (List (Nat × List (Nat × Nat))) :=
  btreeDebugFrom s.file.size s page

end Adventure

import Adventure.Page

namespace Adventure

def BSTACK_DEF_PAGE_SIZE : Nat := 64
def BSTACK_HEADER_SIZE : Nat := 16

def pgNext (s : Store) (page : Nat) : Nat := readUi64 s page 8

-- PG_START of bstack.c
def bsStart : Nat := BSTACK_HEADER_SIZE

def bstackHdrWrite (s : Store) (page : Nat) (flags szPage nKeys used nextPtr : Nat) : Store :=
  writeUi64 (writeUi64 s page 0 (hdrWord flags szPage nKeys used)) page 8 nextPtr

-- bstack_page_walk: the values that its callback is given. An item_p that grows by 8 comes back
-- to its start after 8192 steps.
def bstackPageWalkFrom (s : Store) (page : Nat) (hdr : Nat) : Nat → Nat → Option (List Nat)
  | 0, _ => none
  | steps + 1, item =>
      if item < pgEnd hdr then do
        let vals ← bstackPageWalkFrom s page hdr steps (toItem (item + 8))
        return readUi64 s page item :: vals
      else some []

def bstackPageWalk (s : Store) (page : Nat) : Option (List Nat) :=
  bstackPageWalkFrom s page (pgHeader s page) 8193 bsStart

-- bstack_debug_page: the pages it visits, each with the values walked there.
def bstackDebugFrom : Nat → Store → Nat → Option (List (Nat × List Nat))
  | 0, _, _ => none
  | depth + 1, s, page => do
      let vals ← bstackPageWalk s page
      if pgNext s page ≠ 0 then
        let rest ← bstackDebugFrom depth s (pgNext s page)
        return (page, vals) :: rest
      return [(page, vals)]

def bstackDebugPage (s : Store) (page : Nat) : Option (List (Nat × List Nat)) :=
  bstackDebugFrom s.file.size s page

def bstackCreate (s : Store) : Option (Nat × Store) := do
  let (page, s) ← storeAlloc s BSTACK_DEF_PAGE_SIZE
  return (page, bstackHdrWrite s page 0 BSTACK_DEF_PAGE_SIZE 0 BSTACK_HEADER_SIZE 0)

def bstackAdd (s : Store) (page : Nat) (val : Nat) : Option (Nat × Store) := do
  if page = 0 then return (page, s)
  let hdr := pgHeader s page
  let next := pgNext s page
  let endp := toItem (pgEnd hdr)
  let (pageCopy, s) ← storeAlloc s (pgSize hdr)
  if pgFree hdr < 8 then
    let s := bstackHdrWrite s pageCopy (pgFlags hdr) (pgSize hdr) 1 (bsStart + 8) page
    return (pageCopy, writeUi64 s pageCopy bsStart val)
  else
    let s := bstackHdrWrite s pageCopy (pgFlags hdr) (pgSize hdr) (pgNkeys hdr + 1) (pgUsed hdr + 8)
      next
    let s := copy s pageCopy bsStart page bsStart endp
    let s := writeUi64 s pageCopy endp val
    return (pageCopy, storeFree s page)

end Adventure

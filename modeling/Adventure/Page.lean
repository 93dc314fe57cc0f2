import Adventure.Store

namespace Adventure

-- The page helpers and header macros that btree.c and bstack.c both define, word for word.
def readUi64 (s : Store) (page : Nat) (i : Nat) : Nat := storeReadUi64 s (add64 page (toItem i))

def writeUi64 (s : Store) (page : Nat) (i : Nat) (n : Nat) : Store :=
  storeWriteUi64 s (add64 page (toItem i)) n

def copy (s : Store) (dest : Nat) (di : Nat) (src : Nat) (si sz : Nat) : Store :=
  storeCopy s (add64 dest (toItem di)) (add64 src (toItem si)) (toItem sz)

-- Subtraction whose result is passed on as an item_p.
def subItem (a b : Nat) : Nat := toItem (a + (2 ^ 16 - toItem b))

def pgHeader (s : Store) (page : Nat) : Nat := readUi64 s page 0

def pgFlags (hdr : Nat) : Nat := (hdr >>> 56) &&& 0xFFFF
def pgSize (hdr : Nat) : Nat := (hdr >>> 32) &&& 0xFFFF
def pgNkeys (hdr : Nat) : Nat := (hdr >>> 16) &&& 0xFFFF
def pgUsed (hdr : Nat) : Nat := (hdr >>> 0) &&& 0xFFFF

def pgEnd (hdr : Nat) : Nat := pgUsed hdr
def pgFree (hdr : Nat) : Nat := sub64 (pgSize hdr) (pgUsed hdr)

-- The header word that btree_hdr_write and bstack_hdr_write build; `unused` is 16 in both.
def hdrWord (flags szPage nKeys used : Nat) : Nat :=
  (flags % 2 ^ 8) <<< 56 ||| 16 <<< 48 ||| (szPage % 2 ^ 16) <<< 32 |||
    (nKeys % 2 ^ 16) <<< 16 ||| (used % 2 ^ 16) <<< 0

end Adventure

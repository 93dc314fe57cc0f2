import Adventure.Util.Fs

namespace Adventure

-- store_p, page_p, edge_p and item_p are natural numbers here, and so are keys and values.

def STORE_O_CREAT : Nat := 0x1
def STORE_INIT_FILE_SIZE : Nat := 64
def STORE_HEADER_SIZE : Nat := 32

-- Unsigned machine arithmetic: 64 bits for size_t and uint64_t, 32 for uint32_t, 16 for item_p.
def add64 (a b : Nat) : Nat := (a + b) % 2 ^ 64
def sub64 (a b : Nat) : Nat := (a + (2 ^ 64 - b % 2 ^ 64)) % 2 ^ 64
def sub32 (a b : Nat) : Nat := (a + (2 ^ 32 - b % 2 ^ 32)) % 2 ^ 32
def mul64 (a b : Nat) : Nat := a * b % 2 ^ 64
def toItem (n : Nat) : Nat := n % 2 ^ 16

def INT_MAX : Nat := 2 ^ 31 - 1

-- sizeof(void *)
def SIZEOF_POINTER : Nat := 8

-- struct store. `endPos` is its field end. A free list of none is the NULL that the field holds
-- until store_open creates the list.
structure Store where
  magic : List UInt8
  endPos : Nat
  file : FsMap
  freeList : Option (List Nat)
  freeRoot : Nat

def Store.setData (s : Store) (data : Memory) : Store := { s with file := { s.file with data } }

def storeWrite (s : Store) (p : Nat) (data : List UInt8) (size : Nat) : Store :=
  if s.file.size > add64 s.endPos size then s.setData (s.file.data.write p (data.take size)) else s

def storeWriteUi64 (s : Store) (p : Nat) (n : Nat) : Store :=
  s.setData (s.file.data.write p
    [UInt8.ofNat (n >>> 56), UInt8.ofNat (n >>> 48), UInt8.ofNat (n >>> 40), UInt8.ofNat (n >>> 32),
      UInt8.ofNat (n >>> 24), UInt8.ofNat (n >>> 16), UInt8.ofNat (n >>> 8), UInt8.ofNat n])

-- The bytes at the pointer that store_read returns.
def storeRead (s : Store) (p : Nat) (size : Nat) : List UInt8 := s.file.data.read p size

def storeReadUi64 (s : Store) (p : Nat) : Nat :=
  let ptr i := (s.file.data (p + i)).toNat
  ptr 0 <<< 56 ||| ptr 1 <<< 48 ||| ptr 2 <<< 40 ||| ptr 3 <<< 32 |||
    ptr 4 <<< 24 ||| ptr 5 <<< 16 ||| ptr 6 <<< 8 ||| ptr 7 <<< 0

def storeCopy (s : Store) (di si : Nat) (size : Nat) : Store :=
  if size > 0 then s.setData (s.file.data.copy di si size) else s

-- "ADVDB!"
def STORE_MAGIC : List UInt8 := [65, 68, 86, 68, 66, 33]

def storeWriteHdr (s : Store) : Store :=
  storeWriteUi64 (storeWrite s 0 STORE_MAGIC 6) 6 STORE_HEADER_SIZE

def storeReadHdr (s : Store) : Store :=
  { s with magic := s.file.data.read 0 6, endPos := storeReadUi64 s 6 }

-- Shrinking is a no-op, and the result is 0 whatever the file system said.
def storeResize (s : Store) (size : Nat) : Nat × Store :=
  if size < s.file.size then (0, s)
  else (0, { s with file := fsRemap (fsResizeFile s.file size).2 })

def storeExtend (s : Store) : Nat × Store := storeResize s (mul64 s.file.size 2)

-- store_alloc calls itself after each extension. Without an answer the calls never end, or the header
-- of a file that is not mapped is written, which faults.
def storeAllocCalls : Nat → Store → Nat → Option (Nat × Store)
  | 0, _, _ => none
  | calls + 1, s, size =>
      let freeSpace := sub64 s.file.size s.endPos
      if size > freeSpace then
        let (code, s) := storeExtend s
        if code = 0 then storeAllocCalls calls s size else some (0, s)
      else
        match s.freeList with
        | some (p :: freeList) => some (p, { s with freeList := some freeList })
        | _ =>
            let endPos := add64 s.endPos size
            if s.file.mapped then some (s.endPos, storeWriteUi64 { s with endPos } 6 endPos) else none

-- Once the disk's answers are used up, 64 extensions either make room or leave the size as it is. A
-- page of the free list can come from a file that is not mapped. The callers access the page they are
-- given at once, which faults then, so there is no page here.
def storeAlloc (s : Store) (size : Nat) : Option (Nat × Store) :=
  (storeAllocCalls (s.file.disk.answers.length + 66) s size).filter fun r => r.2.file.mapped

def storeFree (s : Store) (p : Nat) : Store :=
  { s with freeList := s.freeList.map (p :: ·) }

def storeClose (s : Store) : FsMap := fsUnmap s.file

end Adventure

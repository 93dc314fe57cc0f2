import Adventure.Store

namespace Adventure

-- The conversions between int and size_t: an int keeps the low 32 bits, and a negative int is a
-- huge size_t.
def toInt (n : Nat) : Int := Int.bmod n (2 ^ 32)
def toSize (i : Int) : Nat := (i % 2 ^ 64).toNat

-- A block of memory for pointers. There is no result where an access is outside the block.
structure Block where
  cell : Nat → Nat
  length : Nat

namespace Block

def read (block : Block) (i : Nat) : Option Nat :=
  if i < block.length then some (block.cell i) else none

def put (block : Block) (i elem : Nat) : Block :=
  { block with cell := Function.update block.cell i elem }

def write (block : Block) (i elem : Nat) : Option Block :=
  if i < block.length then some (block.put i elem) else none

-- Memory is always found. `fresh` is what was in it before, and a request of no bytes gives a block
-- without cells.
def realloc (block : Block) (bytes : Nat) (fresh : Nat → Nat) : Block where
  cell i := if i < block.length then block.cell i else fresh i
  length := bytes / SIZEOF_POINTER

end Block

-- struct darray
structure Darray where
  data : Block
  size : Nat
  maxSize : Nat

-- calloc gives NULL where the product of its arguments is no size_t, and so does darray_create.
def darrayCreate (maxSize : Nat) : Option Darray :=
  if maxSize * SIZEOF_POINTER < 2 ^ 64 then some ⟨⟨fun _ => 0, maxSize⟩, 0, maxSize⟩ else none

-- The product that realloc gets is one of size_t.
def darrayReserve (arr : Darray) (size : Nat) (fresh : Nat → Nat) : Int × Darray :=
  if size > 0 then
    (0, { arr with maxSize := size, data := arr.data.realloc (mul64 size SIZEOF_POINTER) fresh })
  else (-1, arr)

-- The loop of darray_resize, whose index is an int. There is no result where i++ overflows.
def darrayFill (size val : Nat) : Nat → Int → Block → Option Block
  | 0, _, _ => none
  | steps + 1, i, data =>
      if toSize i < size then do
        let data ← data.write (toSize i) val
        if i = INT_MAX then none else darrayFill size val steps (i + 1) data
      else some data

def darrayResize (arr : Darray) (size val : Nat) (fresh : Nat → Nat) : Option (Int × Darray) :=
  let (code, arr) := darrayReserve arr size fresh
  if code = 0 then do
    let data ← darrayFill size val (2 ^ 32 + 1) (toInt arr.size) arr.data
    return (0, { arr with data, size })
  else some (-1, arr)

def darrayExpand (arr : Darray) (fresh : Nat → Nat) : Int × Darray :=
  darrayReserve arr (mul64 arr.maxSize 2) fresh

def darrayContract (arr : Darray) (fresh : Nat → Nat) : Int × Darray :=
  if arr.maxSize < 2 then (0, arr) else darrayReserve arr (arr.maxSize / 2) fresh

def darraySet (arr : Darray) (i elem : Nat) : Option Darray :=
  if i < arr.maxSize then do
    let size := if i > arr.size then i else arr.size
    let data ← arr.data.write i elem
    return { arr with data, size }
  else some arr

-- A result of 0 is NULL.
def darrayGet (arr : Darray) (i : Nat) : Option Nat :=
  if i < arr.size then arr.data.read i else some 0

def darrayPush (arr : Darray) (elem : Nat) (fresh : Nat → Nat) : Option (Int × Darray) :=
  let (code, arr) := if arr.size ≥ arr.maxSize then darrayExpand arr fresh else (0, arr)
  if code = 0 then do
    let data ← arr.data.write arr.size elem
    return (0, { arr with data, size := add64 arr.size 1 })
  else some (-1, arr)

def darrayPop (arr : Darray) : Option (Nat × Darray) :=
  if arr.size > 0 then do
    let size := sub64 arr.size 1
    let elem ← arr.data.read size
    return (elem, { arr with size })
  else some (0, arr)

end Adventure

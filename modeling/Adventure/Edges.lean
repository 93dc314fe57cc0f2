import Adventure.Store

namespace Adventure

-- An edge_p that grows by 8 comes back to its start after 2^61 steps, so a loop over a block that
-- is still running then never ends.
def EDGE_STEPS : Nat := 2 ^ 61 + 1

-- The parameter `start` is not used.
def edgesAdd (edges : Store) (eOld : Nat) (_start stop : Nat) : Option (Nat × Store) := do
  let (size, eNew, edges) ←
    if eOld = 0 then do
      let (eNew, edges) ← storeAlloc edges (add64 8 8)
      pure (8, eNew, edges)
    else do
      let size := storeReadUi64 edges eOld
      let (eNew, edges) ← storeAlloc edges (add64 size 8)
      pure (size, eNew, storeCopy edges eNew eOld size)
  let edges := storeWriteUi64 edges (add64 eNew size) stop
  let edges := storeWriteUi64 edges eNew (add64 size 8)
  return (eNew, storeFree edges eOld)

-- The loop of edges_remove: where the item is, or a place from `size` on.
def edgesRemoveFrom (edges : Store) (eOld size stop : Nat) : Nat → Nat → Option Nat
  | 0, _ => none
  | steps + 1, i =>
      if i < size then
        if storeReadUi64 edges (add64 eOld i) = stop then some i
        else edgesRemoveFrom edges eOld size stop steps (add64 i 8)
      else some i

def edgesRemove (edges : Store) (eOld : Nat) (_start stop : Nat) : Option (Nat × Store) := do
  if eOld = 0 then return (0, edges)
  let size := storeReadUi64 edges eOld
  let i ← edgesRemoveFrom edges eOld size stop EDGE_STEPS 8
  if i ≥ size then return (eOld, edges)
  -- the new size is negative as an int64_t
  let sizeNew := sub64 size 8
  if sizeNew ≥ 2 ^ 63 then return (eOld, edges)
  let (eNew, edges) ← storeAlloc edges sizeNew
  let edges := storeCopy edges eNew eOld i
  let edges := storeCopy edges (add64 eNew i) (add64 (add64 eOld i) 8) (sub64 (sub64 size i) 8)
  let edges := storeWriteUi64 edges eNew (sub64 size 8)
  return (eNew, storeFree edges eOld)

end Adventure

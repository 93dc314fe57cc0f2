import Adventure.Edges
import Adventure.Nodes
import Adventure.Store.Open

namespace Adventure

def ADV_CREATE : Nat := STORE_O_CREAT

-- struct adv_db
structure AdvDb where
  nodes : Store
  edges : Store

-- The directory of a database and the files in it.
structure DbDir where
  nodes : Option FsMap
  edges : Option FsMap

-- fs_create_dir in adv_open: it returns 0 whether it has made the directory or not, and one that is there
-- already is used.
def advDir (dir : Option DbDir) (flags : Nat) : Option DbDir :=
  if flags &&& ADV_CREATE ≠ 0 then some (dir.getD ⟨none, none⟩) else dir

-- In a directory that does not exist no file is found.
def advOpen (nodesDisk edgesDisk : Disk) (dir : Option DbDir) (flags : Nat) : Option AdvDb := do
  let dir ← advDir dir flags
  let nodes ← storeOpen nodesDisk dir.nodes flags
  let edges ← storeOpen edgesDisk dir.edges flags
  return ⟨nodes, edges⟩

-- What adv_open leaves behind where it fails: the directory, and the nodes file if that was opened.
def advOpenLeft (nodesDisk : Disk) (dir : Option DbDir) (flags : Nat) : Option DbDir :=
  (advDir dir flags).map fun dir =>
    match storeOpen nodesDisk dir.nodes flags with
    | none => dir
    | some nodes => { dir with nodes := some (storeClose nodes) }

def advClose (db : AdvDb) : DbDir := ⟨some (storeClose db.nodes), some (storeClose db.edges)⟩

def advNodeAdd (db : AdvDb) : Option (Nat × AdvDb) := do
  let (node, nodes) ← nodesAdd db.nodes
  return (node, { db with nodes })

def advEdgeAdd (db : AdvDb) (start stop : Nat) : Option AdvDb := do
  let prev := nodesEdgesFrom db.nodes start
  let (next, edges) ← edgesAdd db.edges prev start stop
  return ⟨nodesEdgesSet db.nodes start next, edges⟩

def advEdgeRemove (db : AdvDb) (start stop : Nat) : Option AdvDb := do
  let prev := nodesEdgesFrom db.nodes start
  let (next, edges) ← edgesRemove db.edges prev start stop
  return ⟨nodesEdgesSet db.nodes start next, edges⟩

-- The inner loop of adv_debug_print: the end nodes that are printed.
def advDebugEdgesFrom (edges : Store) (stop : Nat) : Nat → Nat → Option (List Nat)
  | 0, _ => none
  | steps + 1, p =>
      if p < stop then do
        let ends ← advDebugEdgesFrom edges stop steps (add64 p 8)
        return storeReadUi64 edges p :: ends
      else some []

def advDebugEdges (db : AdvDb) (node : Nat) : Option (List Nat) :=
  let e := nodesEdgesFrom db.nodes node
  if e ≠ 0 then
    advDebugEdgesFrom db.edges (add64 e (storeReadUi64 db.edges e)) EDGE_STEPS (add64 e 8)
  else some []

-- The mapping of a file is made of pages of 4096 bytes, and a read behind them does not return.
def storeReadMapped (s : Store) (p : Nat) : Option Nat :=
  if p + 8 ≤ (s.file.size + 4095) / 4096 * 4096 then some (storeReadUi64 s p) else none

-- The two loops of adv_debug_print, as they run.
def advDebugRowFrom (edges : Store) (stop : Nat) : Nat → Nat → Option (List Nat)
  | 0, _ => none
  | steps + 1, p =>
      if p < stop then do
        let node ← storeReadMapped edges p
        let ends ← advDebugRowFrom edges stop steps (add64 p 8)
        return node :: ends
      else some []

def advDebugRow (db : AdvDb) (node : Nat) : Option (List Nat) := do
  let e ← storeReadMapped db.nodes (add64 NODES_HEADER_SZ (mul64 NODES_ITEM_SZ node))
  if e ≠ 0 then
    let size ← storeReadMapped db.edges e
    advDebugRowFrom db.edges (add64 e size) EDGE_STEPS (add64 e 8)
  else some []

def advDebugPrint (db : AdvDb) : Option (List (Nat × List Nat)) :=
  (List.range (nodesCount db.nodes)).mapM fun node => do
    let ends ← advDebugRow db node
    return (node, ends)

end Adventure

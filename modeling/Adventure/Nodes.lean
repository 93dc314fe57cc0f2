import Adventure.Store

namespace Adventure

def NODES_HEADER_SZ : Nat := 32
def NODES_ITEM_SZ : Nat := 16

def nodesCount (nodes : Store) : Nat := sub64 nodes.endPos NODES_HEADER_SZ / NODES_ITEM_SZ

def nodesEdgesFrom (nodes : Store) (node : Nat) : Nat :=
  storeReadUi64 nodes (add64 NODES_HEADER_SZ (mul64 NODES_ITEM_SZ node))

def nodesEdgesSet (nodes : Store) (node e : Nat) : Store :=
  storeWriteUi64 nodes (add64 NODES_HEADER_SZ (mul64 NODES_ITEM_SZ node)) e

def nodesAdd (nodes : Store) : Option (Nat × Store) := do
  let node := sub64 nodes.endPos NODES_HEADER_SZ / NODES_ITEM_SZ
  let (p, nodes) ← storeAlloc nodes NODES_ITEM_SZ
  let nodes := storeWriteUi64 nodes p 0
  let nodes := storeWriteUi64 nodes (add64 p 8) 0
  return (node, nodes)

end Adventure

import Adventure.Library.SearchTree.Grow
import Adventure.Store.Open
import Adventure.Store.Pool
import Adventure.Page.Theorems
import Adventure.Btree.Leaf
import Adventure.Btree.Branch
import Adventure.Btree.Split
import Adventure.Btree.Split.Theorems
import Adventure.Btree.Tree
import Adventure.Btree.Add
import Adventure.Library.SearchTree.Insert
import Adventure.Library.SearchTree.Balance
import Adventure.Btree.Stacked
import Adventure.Btree.Multi
import Adventure.Btree.Visit
import Adventure.Btree.Destroy
import Adventure.Btree.Forest
import Adventure.Btree.Shape
import Adventure.Btree.Map
import Adventure.Btree.Occupancy
import Adventure.Btree.Theorems
import Adventure.Btree.Multimap
import Adventure.Btree.Marks
import Adventure.Library.Plots
import Adventure.Library.Links
import Adventure.Struct.List
import Adventure.Library.Shadow
import Adventure.Struct.Hashmap
import Adventure.Struct.Trie
import Adventure.Struct.Trie.Nodes
import Adventure.Struct.Trie.Theorems
import Adventure.Struct.Trie.Keys
import Adventure.Struct.Trie.Shape
import Adventure.Struct.Darray
import Adventure.Struct.Darray.Theorems
import Adventure.Struct.Hashmap.Chains
import Adventure.Struct.Hashmap.Theorems
import Adventure.Struct.Hashmap.Resize
import Adventure.Struct.Hashmap.Resize.Theorems
import Adventure.Struct.List.Cells
import Adventure.Struct.List.Theorems
import Adventure.Adv
import Adventure.Adv.Theorems
import Adventure.Edges.Theorems
import Adventure.Nodes.Theorems
import Adventure.Store.Regions
import Adventure.Store.Progress
import Adventure.Store.Full
import Adventure.Store.Bulk
import Adventure.Bstack.Theorems
import Adventure.Library.Nest
import Adventure.Jsmn
import Adventure.Jsmn.Codes
import Adventure.Repl.Theorems
import Adventure.Btree.Reopen
import Adventure.Struct.Hashmap.Default
import Adventure.Util.Murmur3.Theorems
import Adventure.Struct.Hashmap.Release
import Adventure.Util.Math
import Adventure.Library.Zipper
import Adventure.Library.Recent
import Adventure.Library.Wrap
import Adventure.Linenoise.Theorems
import Adventure.Linenoise.History
import Adventure.Linenoise.Pipe
import Adventure.Linenoise.Saved
import Adventure.Linenoise.Typed
import Adventure.Repl.Console
import Adventure.Repl.Session
import Adventure.Adv.Sketch
import Adventure.Repl.Script

import Adventure.Adv
import Adventure.Repl.Load
import Adventure.Struct.Trie.Theorems

namespace Adventure

-- The bytes of a word of the source.
def cstr (chars : List Char) : CStr := chars.map fun c => UInt8.ofNat c.toNat

-- strtok. `saved` is the text that it goes on with for NULL, and what it keeps for the next call.
def strtok (s : Option CStr) (delim : List UInt8) (saved : CStr) : Option CStr × CStr :=
  let s := (s.getD saved).dropWhile (· ∈ delim)
  if s = [] then (none, [])
  else (some (s.takeWhile (· ∉ delim)), (s.dropWhile (· ∉ delim)).tail)

def isSpace (c : UInt8) : Bool := c ∈ [32, 9, 10, 11, 12, 13]

def isDigit (c : UInt8) : Bool := 48 ≤ c ∧ c ≤ 57

def digitsVal : Nat → CStr → Nat
  | acc, [] => acc
  | acc, c :: cs => if isDigit c then digitsVal (10 * acc + (c.toNat - 48)) cs else acc

-- The value of strtol, which stays in the range of a long, cast to an int.
def atoi (s : CStr) : Int :=
  let s := s.dropWhile isSpace
  let long : Int :=
    if s.head? = some 45 then max (-(digitsVal 0 s.tail : Int)) (-2 ^ 63)
    else if s.head? = some 43 then min (digitsVal 0 s.tail : Int) (2 ^ 63 - 1)
    else min (digitsVal 0 s : Int) (2 ^ 63 - 1)
  long.bmod (2 ^ 32)

-- An int that is converted to a node_p.
def nodeP (n : Int) : Nat := (n % 2 ^ 64).toNat

inductive ReplFn
  | loadJson
  | status
  | sting
  | openDb
  | closeDb
  | createDb
  | addNode
  | addEdge
  | removeEdge
  | debugPrint
  deriving DecidableEq

def replFns : List ReplFn := [.loadJson, .status, .sting, .openDb, .closeDb, .createDb, .addNode,
  .addEdge, .removeEdge, .debugPrint]

-- The functions are at addresses that are not NULL.
def fnPtr (fn : ReplFn) : Nat := replFns.idxOf fn + 1

def fnAt (ptr : Nat) : Option ReplFn := if ptr = 0 then none else replFns[ptr - 1]?

-- register_cmds
def replCmds : List (CStr × ReplFn) := [
  (cstr ['l', 'o', 'a', 'd'], .loadJson),
  (cstr ['s', 't', 'a', 't', 'u', 's'], .status),
  (cstr ['s', 't', 'a', 't', 's'], .status),
  (cstr ['s', 't', 'i', 'n', 'g', '!'], .sting),
  (cstr ['c', 'r', 'e', 'a', 't', 'e'], .createDb),
  (cstr ['o', 'p', 'e', 'n'], .openDb),
  (cstr ['c', 'l', 'o', 's', 'e'], .closeDb),
  (cstr ['+', 'n'], .addNode),
  (cstr ['+', 'e'], .addEdge),
  (cstr ['-', 'e'], .removeEdge),
  (cstr ['d', 'e', 'b', 'u', 'g'], .debugPrint)]

def replAdds : List (CStr × Nat) := replCmds.map fun cmd => (cmd.1, fnPtr cmd.2)

-- The static pointer `db` of cmds.c. After adv_close it points to freed memory.
inductive DbHandle
  | null
  | live (place : CStr) (db : AdvDb)
  | freed

def DbHandle.isNull : DbHandle → Bool
  | .null => true
  | _ => false

-- `dirs` are the directories of the databases on the disk, by their places there.
structure ReplState where
  db : DbHandle
  dirs : CStr → Option DbDir

-- The files of a database in use are mapped as shared ones: they hold what the database does.
def ReplState.dir (s : ReplState) (place : CStr) : Option DbDir :=
  match s.db with
  | .live place' db => if place = place' then some (advClose db) else s.dirs place
  | _ => s.dirs place

-- What is printed. Colors are left out.
inductive ReplOut
  | text (s : String)
  | loading (path : CStr)
  | json (lines : List LoadLine)
  | graph (rows : List (Nat × List Nat))
  | unknown (line : CStr)
  deriving DecidableEq

-- What the process finds: the files that can be mapped, by their paths, what the array of streamJSON
-- happens to hold and the bytes that are left on the stack, and the place on the disk where the directory
-- of a database is, or can be made, by the name of the database. Names of one directory have one place.
-- Paths and names may lead into the directories of the databases.
structure ReplEnv where
  file : (CStr → Option DbDir) → CStr → Option FsMap
  tokens : List JsmnTok
  stack : Nat
  place : (CStr → Option DbDir) → CStr → Option CStr

-- No files, and a place for every name.
def bareEnv : ReplEnv := ⟨fun _ _ => none, [], 4096, fun _ name => some name⟩

-- Every resize of a file is granted, and the file is mapped again.
def grantingDisk : Disk := ⟨[], .granted⟩

def loadJson (env : ReplEnv) (line : Option CStr) (saved : CStr) (s : ReplState) :
    Option (Int × ReplState × List ReplOut) :=
  match (strtok line [32] saved).1 with
  | none => some (2, s, [.text "load requires a file path"])
  | some tok => do
    let (code, lines) ← load env.stack (env.file s.dir tok) env.tokens
    return (code, s, [.loading tok, .json lines])

-- The assignment of adv_open to `db`. A database that was open before is not closed.
def dbOpened (env : ReplEnv) (name : CStr) (flags : Nat) (s : ReplState) : ReplState :=
  match env.place s.dir name with
  | none => ⟨.null, s.dir⟩
  | some place =>
    match advOpen grantingDisk grantingDisk (s.dir place) flags with
    | none => ⟨.null, Function.update s.dir place (advOpenLeft grantingDisk (s.dir place) flags)⟩
    | some db => ⟨.live place db, s.dir⟩

def openDb (env : ReplEnv) (flags : Nat) (needed failed : String) (line : Option CStr) (saved : CStr)
    (s : ReplState) : Int × ReplState × List ReplOut :=
  match (strtok line [32] saved).1 with
  | none => (2, s, [.text needed])
  | some tok =>
    let s := dbOpened env tok flags s
    (0, s, if s.db.isNull then [.text failed] else [])

-- A freed database is closed once more: none.
def closeDb (s : ReplState) : Option (Int × ReplState × List ReplOut) :=
  match s.db with
  | .null => some (0, s, [.text "No database is open."])
  | .live _ _ => some (0, ⟨.freed, s.dir⟩, [])
  | .freed => none

def addNode (s : ReplState) : Option (Int × ReplState × List ReplOut) :=
  match s.db with
  | .null => some (-1, s, [])
  | .live place db => do
    let (_, db) ← advNodeAdd db
    return (0, { s with db := .live place db }, [])
  | .freed => none

-- add_edge and remove_edge. A token of NULL is not one that atoi can read.
def editEdge (edit : AdvDb → Nat → Nat → Option AdvDb) (line : Option CStr) (saved : CStr)
    (s : ReplState) : Option (Int × ReplState × List ReplOut) :=
  match s.db with
  | .null => some (-1, s, [])
  | .live place db => do
    let (tok, saved) := strtok line [32] saved
    let start ← tok.map fun tok => nodeP (atoi tok)
    let stop ← (strtok none [32] saved).1.map fun tok => nodeP (atoi tok)
    let db ← edit db start stop
    return (0, { s with db := .live place db }, [])
  | .freed => none

def debugPrint (s : ReplState) : Option (Int × ReplState × List ReplOut) :=
  match s.db with
  | .null => some (0, s, [.text "No database currently open."])
  | .live _ db => do
    let rows ← advDebugPrint db
    return (0, s, [.graph rows])
  | .freed => none

def callFn (env : ReplEnv) (fn : ReplFn) (line : Option CStr) (saved : CStr) (s : ReplState) :
    Option (Int × ReplState × List ReplOut) :=
  match fn with
  | .loadJson => loadJson env line saved s
  | .status => some (0, s, [.text "Connected. Ready."])
  | .sting => some (0, s, [.text "Ouch."])
  | .openDb => some (openDb env 0 "open requires a database name" "Error opening database" line saved s)
  | .closeDb => closeDb s
  | .createDb =>
    some (openDb env ADV_CREATE "create requires a database name" "Error creating database" line saved s)
  | .addNode => addNode s
  | .addEdge => editEdge advEdgeAdd line saved s
  | .removeEdge => editEdge advEdgeRemove line saved s
  | .debugPrint => debugPrint s

-- Without a first word the key is NULL, and trie_get compares the keys of the commands with it.
def replRouteCmd (env : ReplEnv) (line : CStr) (s : ReplState) :
    Option (Int × ReplState × List ReplOut) := do
  let (cmd, saved) := strtok (some line) [32] []
  let cmds ← trieAddAll replAdds trieCreate
  let ptr ← trieGet cmds (← cmd)
  match fnAt ptr with
  | none => return (-1, s, [])
  | some fn =>
    let (args, saved) := strtok none [] saved
    callFn env fn args saved s

def replWantsExit (line : CStr) : Bool :=
  line ∈ [cstr ['q'], cstr ['q', 'u', 'i', 't'], cstr ['e', 'x', 'i', 't']]

-- strtok has put a NUL behind the first word of the line.
def cutLine (line : CStr) : CStr :=
  line.takeWhile (· = 32) ++ ((strtok (some line) [32] []).1).getD []

-- The loop of repl, over the lines that are typed.
def repl (env : ReplEnv) : List CStr → ReplState → Option (ReplState × List ReplOut)
  | [], s => some (s, [])
  | line :: lines, s =>
    if line = [] then repl env lines s
    else if replWantsExit line then some (s, [])
    else do
      let (code, s, out) ← replRouteCmd env line s
      let (s, outs) ← repl env lines s
      return (s, out ++ (if code = -1 then [.unknown (cutLine line)] else []) ++ outs)

end Adventure

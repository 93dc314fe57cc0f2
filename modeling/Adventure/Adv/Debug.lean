import Adventure.Adv.Life

namespace Adventure

open Memory Ends

section Read

variable {s nodes edges : Store} {db : AdvDb} {p n e count : Nat} {ends : List Nat} {ptr : Nat → Nat}

theorem storeReadMapped_eq (h : p + 8 ≤ s.file.size) : storeReadMapped s p = some (s.file.data.word p) := by
  rw [storeReadMapped, if_pos (by omega), storeReadUi64_eq]

theorem storeReadMapped_far (h : s.file.size + 4096 ≤ p) : storeReadMapped s p = none := by
  rw [storeReadMapped, if_neg (by omega)]

-- A loop that stops inside the file reads nothing behind it.
theorem advDebugRowFrom_eq {stop : Nat} (hstop : stop ≤ edges.file.size) (hlt : stop < 2 ^ 63) (steps : Nat)
    (hp : p % 8 = stop % 8) : advDebugRowFrom edges stop steps p = advDebugEdgesFrom edges stop steps p := by
  induction steps generalizing p with
  | zero => rfl
  | succ steps ih =>
    rw [advDebugRowFrom, advDebugEdgesFrom]
    by_cases hin : p < stop
    · have hnext : add64 p 8 = p + 8 := add64_eq (by omega)
      rw [if_pos hin, if_pos hin, hnext, ih (by omega), storeReadMapped_eq (by omega), storeReadUi64_eq]
      rfl
    · rw [if_neg hin, if_neg hin]

theorem NodesAt.readMapped_eq (h : NodesAt nodes count ptr) (hn : n < FIRST_NODE + count) :
    storeReadMapped nodes (add64 NODES_HEADER_SZ (mul64 NODES_ITEM_SZ n)) =
      some (nodes.file.data.word (32 + 16 * n)) := by
  have hend := h.end_eq
  have hle := h.sound.end_le
  rw [h.slot_eq hn.le, storeReadMapped_eq (by omega)]

-- The row of a node is the list that its pointer stands for.
theorem advDebugRow_eq (hnodes : NodesAt db.nodes count ptr) (hlo : FIRST_NODE ≤ n) (hn : n < FIRST_NODE + count)
    (hs : db.edges.Sound) (hlist : DbRun.ListAt db.edges (ptr n) ends) : advDebugRow db n = some ends := by
  rw [advDebugRow, hnodes.readMapped_eq hn, hnodes.slots n hlo hn, Option.bind_eq_bind, Option.bind_some]
  have hrow := advDebugEdges_eq (hnodes.edgesFrom_eq hlo hn) hlist.edges_at
  rw [advDebugEdges, hnodes.edgesFrom_eq hlo hn] at hrow
  by_cases hzero : ptr n = 0
  · rw [if_neg (not_not.mpr hzero)]
    exact (if_neg (not_not.mpr hzero)).symm.trans hrow
  · obtain ⟨-, hin⟩ := hlist.inside hzero
    have hends := hlist.edges_at
    rw [EdgesAt, if_neg hzero] at hends
    have hle := hs.end_le
    have hlt := hs.size_lt
    have hfirst : add64 (ptr n) 8 = ptr n + 8 := add64_eq (by omega)
    have hlast : add64 (ptr n) (8 + 8 * ends.length) = ptr n + (8 + 8 * ends.length) := add64_eq (by omega)
    have hwalk := (if_pos hzero).symm.trans hrow
    rw [hends.size_eq, hfirst, hlast] at hwalk
    rw [if_pos hzero, storeReadMapped_eq (by omega), ← storeReadUi64_eq, hends.size_eq, Option.bind_some,
      hfirst, hlast, advDebugRowFrom_eq (by omega) (by omega) EDGE_STEPS (by omega), hwalk]

end Read

-- The header of the page of the free root: an empty leaf of 64 bytes.
def ROOT_WORD : Nat := 0x0310004000000008

-- What lies where the pointer of a node 0 would be.
theorem storeOpen_root {disk : Disk} {s : Store} (hopen : storeOpen disk none STORE_O_CREAT = some s) :
    s.file.data.word 32 = ROOT_WORD := by
  have hsound := freshStore_sound disk
  rw [storeOpen_fresh, Option.bind_eq_some_iff] at hopen
  obtain ⟨r, hr, hs⟩ := hopen
  obtain ⟨hpage, -⟩ := (btreeCreate_fresh hsound rfl).of_eq_some hr
  rw [btreeCreate, Option.bind_eq_bind, Option.bind_eq_some_iff] at hr
  obtain ⟨⟨d, s₁⟩, halloc, hr⟩ := hr
  obtain rfl := Option.some.inj hr
  have hd : d = 32 := hpage.trans (freshStore_endPos disk)
  obtain rfl := Option.some.inj hs
  simp only [btreeHdrWrite, writeUi64_eq s₁ _ (show 0 < 2 ^ 16 by omega) (show d + 0 < 2 ^ 64 by omega)]
  rw [setData_data, hd, word_setWord]
  rfl

-- No node is added in front of this page, and no pointer of a node is in it.
theorem NodesAt.add_root {nodes : Store} {count : Nat} {ptr : Nat → Nat} (h : NodesAt nodes count ptr)
    {r : Nat × Store} (hadd : nodesAdd nodes = some r) :
    r.2.file.data.word 32 = nodes.file.data.word 32 := by
  have hend := h.end_eq
  have hle := h.sound.end_le
  have hfirst : FIRST_NODE = 4 := rfl
  rw [nodesAdd, Option.bind_eq_bind, Option.bind_eq_some_iff] at hadd
  obtain ⟨⟨p, s⟩, halloc, hadd⟩ := hadd
  obtain ⟨hp, hend', -, ha⟩ := h.alloc_meets.of_eq_some halloc
  simp only at hp hend'
  obtain rfl := Option.some.inj hadd
  have hlt : s.file.size < 2 ^ 63 := (ha.sound h.sound).size_lt
  have hle' : s.endPos ≤ s.file.size := (ha.sound h.sound).end_le
  have hnext : add64 p 8 = p + 8 := add64_eq (by omega)
  simp only [storeWriteUi64_eq, setData_data, setData_setData, hnext]
  rw [word_congr ((setWord_only _ _ _).same (by omega)), word_congr ((setWord_only _ _ _).same (by omega)),
    word_congr (ha.same (by omega) (by omega))]

theorem nodesEdgesSet_root {nodes : Store} {count n : Nat} {ptr : Nat → Nat} (h : NodesAt nodes count ptr)
    (hlo : FIRST_NODE ≤ n) (hn : n < FIRST_NODE + count) (e : Nat) :
    (nodesEdgesSet nodes n e).file.data.word 32 = nodes.file.data.word 32 := by
  have hfirst : FIRST_NODE = 4 := rfl
  rw [nodesEdgesSet, h.slot_eq hn.le, storeWriteUi64_eq, setData_data]
  exact word_congr ((setWord_only _ _ _).same (by omega))

namespace DbRun

variable {st st' : DbRun} {nodesDisk edgesDisk : Disk}

-- The states of all runs with reopenings. A block that was freed may be handed out again, and then the lists
-- of two nodes are in one place.
inductive Ran (nodesDisk edgesDisk : Disk) : DbRun → Prop
  | opened {db : AdvDb} : advOpen nodesDisk edgesDisk none ADV_CREATE = some db →
      Ran nodesDisk edgesDisk ⟨db, [], fun _ => []⟩
  | step {st st' : DbRun} (op : DbOp) : Ran nodesDisk edgesDisk st → st.Permits op →
      st.step op = some st' → Ran nodesDisk edgesDisk st'
  | reopened {st : DbRun} {db : AdvDb} (disk disk' : Disk) (flags : Nat) : Ran nodesDisk edgesDisk st →
      flags &&& ADV_CREATE = 0 → advOpen disk disk' (some (advClose st.db)) flags = some db →
      Ran nodesDisk edgesDisk { st with db }

theorem Lived.ran (hst : Lived nodesDisk edgesDisk st) : Ran nodesDisk edgesDisk st := by
  induction hst with
  | opened hopen => exact .opened hopen
  | step op _ hop _ hstep ih => exact .step op ih hop hstep
  | reopened disk disk' flags _ hflags hopen ih => exact .reopened disk disk' flags ih hflags hopen

-- What is left of the invariant then: the nodes file is an array with the page of the free root in front.
structure Numbered (st : DbRun) : Prop where
  ids : st.ids = (List.range st.ids.length).map (FIRST_NODE + ·)
  nodes : ∃ ptr, NodesAt st.db.nodes st.ids.length ptr
  root : st.db.nodes.file.data.word 32 = ROOT_WORD

namespace Numbered

variable {n : Nat}

theorem bounds (h : Numbered st) (hn : n ∈ st.ids) : FIRST_NODE ≤ n ∧ n < FIRST_NODE + st.ids.length := by
  rwa [h.ids, ← List.range'_eq_map_range, List.mem_range'_1] at hn

theorem setEdges (h : Numbered st) (hn : n ∈ st.ids) (e : Nat) (edges : Store) (graph : Multigraph) :
    Numbered ⟨⟨nodesEdgesSet st.db.nodes n e, edges⟩, st.ids, graph⟩ := by
  obtain ⟨hlo, hhi⟩ := h.bounds hn
  obtain ⟨ptr, hnodes⟩ := h.nodes
  exact ⟨h.ids, ⟨_, hnodes.edgesSet_mod hhi e⟩, (nodesEdgesSet_root hnodes hlo hhi e).trans h.root⟩

theorem addNode (h : Numbered st) {r : Nat × Store} (hadd : nodesAdd st.db.nodes = some r) (graph : Multigraph) :
    Numbered ⟨⟨r.2, st.db.edges⟩, st.ids ++ [r.1], graph⟩ := by
  obtain ⟨ptr, hnodes⟩ := h.nodes
  obtain ⟨hid, hnodes', -⟩ := hnodes.add_meets.of_eq_some hadd
  have hlen : (st.ids ++ [r.1]).length = st.ids.length + 1 := by simp
  refine ⟨?_, ⟨_, hlen ▸ hnodes'⟩, (hnodes.add_root hadd).trans h.root⟩
  rw [hlen, List.range_succ, List.map_append, ← h.ids, hid]
  rfl

theorem step (h : Numbered st) {op : DbOp} (hop : st.Permits op) (hstep : st.step op = some st') : Numbered st' := by
  obtain ⟨r, rfl, hadd, rfl⟩ | ⟨a, b, r, rfl, -, rfl⟩ | ⟨a, b, r, rfl, -, rfl⟩ := step_cases hstep
  · exact h.addNode hadd _
  · exact h.setEdges hop.1 _ _ _
  · exact h.setEdges hop.1 _ _ _

theorem reopen (h : Numbered st) {disk disk' : Disk} {flags : Nat} (hflags : flags &&& ADV_CREATE = 0) {db : AdvDb}
    (hopen : advOpen disk disk' (some (advClose st.db)) flags = some db) : Numbered { st with db } := by
  obtain ⟨ptr, hnodes⟩ := h.nodes
  have hend := hnodes.end_eq
  have hle := hnodes.sound.end_le
  have hfirst : FIRST_NODE = 4 := rfl
  obtain ⟨nodes, hn, hr⟩ := hnodes.header.reopened hnodes.sound (by omega) disk flags
  rw [advOpen, advDir, if_neg (not_not.mpr hflags), Option.bind_eq_bind, Option.bind_some, advClose, hn,
    Option.bind_eq_bind, Option.bind_some, Option.bind_eq_some_iff] at hopen
  obtain ⟨edges, -, hdb⟩ := hopen
  obtain rfl := Option.some.inj hdb
  exact ⟨h.ids, ⟨ptr, hnodes.reopened hr⟩,
    (word_congr (hr.same.mono (Nat.zero_le _) (by omega))).trans h.root⟩

end Numbered

theorem Ran.numbered (hst : Ran nodesDisk edgesDisk st) : Numbered st := by
  induction hst with
  | opened hopen =>
    have hnodes := (open_inv hopen).1
    exact ⟨rfl, ⟨fun _ => 0, NodesAt.opened hnodes _⟩, storeOpen_root hnodes⟩
  | step op _ hop hstep ih => exact ih.step hop hstep
  | reopened disk disk' flags _ hflags hopen ih => exact ih.reopen hflags hopen

-- In no state of a run does adv_debug_print complete. It starts at node 0, which was never added: for its
-- pointer it takes the header of the page of the free root, and reads far behind the edges file. It would print
-- the right rows of all nodes, if edges were only changed while nothing was freed.
theorem debug_faults (hst : Ran nodesDisk edgesDisk st) (hsize : st.db.edges.file.size ≤ 2 ^ 57) :
    advDebugRow st.db 0 = none ∧ advDebugPrint st.db = none ∧
      (Lived nodesDisk edgesDisk st → ∀ n ∈ st.ids, advDebugRow st.db n = some (st.graph n)) := by
  have hnumbered := hst.numbered
  obtain ⟨ptr, hnodes⟩ := hnumbered.nodes
  have hzero : advDebugRow st.db 0 = none := by
    have hfar : storeReadMapped st.db.edges ROOT_WORD = none := storeReadMapped_far (by unfold ROOT_WORD; omega)
    rw [advDebugRow, hnodes.readMapped_eq (by unfold FIRST_NODE; omega), Nat.mul_zero, Nat.add_zero,
      hnumbered.root, Option.bind_eq_bind, Option.bind_some, if_pos (by decide), hfar]
    rfl
  refine ⟨hzero, ?_, fun hlived n hn => ?_⟩
  · have hcount : nodesCount st.db.nodes = st.ids.length + 3 + 1 := by
      rw [hnodes.count_eq, FIRST_NODE]
      omega
    rw [advDebugPrint, hcount, List.range_succ_eq_map, List.mapM_cons, hzero]
    rfl
  · obtain ⟨⟨ptr, hl⟩, -⟩ := hlived.lives
    exact advDebugRow_eq hl.nodes (hl.mem_ids.mp hn).1 (hl.mem_ids.mp hn).2 hl.sound (hl.lists n hn)

theorem debug_faults_two : ∃ st : DbRun, st.ids = [4, 5] ∧ advDebugPrint st.db = none ∧
    advDebugRow st.db 4 = some [5] := by
  have h : ((advOpen ⟨[], .granted⟩ ⟨[], .granted⟩ none ADV_CREATE).bind fun db =>
      (run Settled [.node, .node, .add 4 5] ⟨db, [], fun _ => []⟩).map fun st =>
        (st.ids, st.graph 4, st.db.edges.file.size)) = some ([4, 5], [5], 128) := by decide +kernel
  simp only [Option.map_eq_some_iff, Option.bind_eq_some_iff, Prod.mk.injEq] at h
  obtain ⟨db, hopen, st, hrun, hids, h₄, hsize⟩ := h
  have hlived := (Lived.opened hopen).run hrun
  obtain ⟨-, hprint, hrows⟩ := debug_faults hlived.ran (by rw [hsize]; decide)
  exact ⟨st, hids, hprint, h₄ ▸ hrows hlived 4 (by simp [hids])⟩

end DbRun

end Adventure

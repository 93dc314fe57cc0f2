import Adventure.Adv.Debug

namespace Adventure

open Memory Ends

-- What is done with a database: an operation, or it is closed and opened again.
inductive LifeOp
  | change (op : DbOp)
  | reopen

-- The reference of a whole life of a database: the number of its nodes, their lists, and whether an edge may be
-- changed before the database is opened again.
structure Sketch where
  count : Nat
  graph : Multigraph
  settled : Bool

namespace Sketch

def new : Sketch := ⟨0, fun _ => [], true⟩

def Has (g : Sketch) (n : Nat) : Prop := FIRST_NODE ≤ n ∧ n < FIRST_NODE + g.count

def Permits (g : Sketch) : DbOp → Prop
  | .node => True
  | .add a b => g.Has a ∧ g.Has b
  | .remove a b => g.Has a ∧ g.Has b

def Keeps (g : Sketch) : DbOp → Prop
  | .node => True
  | .add _ _ => False
  | .remove a b => b ∉ g.graph a

instance (g : Sketch) (n : Nat) : Decidable (g.Has n) :=
  inferInstanceAs (Decidable (FIRST_NODE ≤ n ∧ n < FIRST_NODE + g.count))

instance (g : Sketch) : (op : DbOp) → Decidable (g.Permits op)
  | .node => .isTrue trivial
  | .add a b => inferInstanceAs (Decidable (g.Has a ∧ g.Has b))
  | .remove a b => inferInstanceAs (Decidable (g.Has a ∧ g.Has b))

instance (g : Sketch) : (op : DbOp) → Decidable (g.Keeps op)
  | .node => .isTrue trivial
  | .add _ _ => .isFalse id
  | .remove a b => inferInstanceAs (Decidable (b ∉ g.graph a))

def draw (g : Sketch) : DbOp → Nat × Multigraph
  | .node => (g.count + 1, Function.update g.graph (FIRST_NODE + g.count) [])
  | .add a b => (g.count, g.graph.addEdge a b)
  | .remove a b => (g.count, g.graph.removeEdge a b)

def step (g : Sketch) : LifeOp → Option Sketch
  | .change op =>
    if g.Permits op ∧ (g.Keeps op ∨ g.settled) then
      some ⟨(g.draw op).1, (g.draw op).2, g.settled && decide (g.Keeps op)⟩
    else none
  | .reopen => some { g with settled := true }

end Sketch

namespace DbRun

variable {nodesDisk edgesDisk : Disk} {st : DbRun} {g g' : Sketch} {k n : Nat} {op : DbOp}

-- Lives of more operations than this are left out, so that the files have room.
def LIFE : Nat := 2 ^ 28

-- A database that stands for a sketch, after `k` operations.
structure Stands (nodesDisk edgesDisk : Disk) (st : DbRun) (g : Sketch) (k : Nat) : Prop where
  lived : Lived nodesDisk edgesDisk st
  count_eq : st.ids.length = g.count
  graph_eq : st.graph = g.graph
  settled : g.settled → st.db.edges.freeList = some []
  count_le : g.count ≤ k
  list_le : ∀ n, (g.graph n).length ≤ k
  end_le : st.db.edges.endPos ≤ 96 + k * (16 + 8 * LIFE)

namespace Stands

theorem opened {db : AdvDb} (hopen : advOpen nodesDisk edgesDisk none ADV_CREATE = some db) :
    Stands nodesDisk edgesDisk ⟨db, [], fun _ => []⟩ .new 0 := by
  obtain ⟨-, hend, hfree, -⟩ := (storeOpen_meets _).of_eq_some (open_inv hopen).2
  exact ⟨.opened hopen, rfl, rfl, fun _ => hfree, le_rfl, fun _ => le_rfl, hend.le⟩

theorem mem_ids (h : Stands nodesDisk edgesDisk st g k) : n ∈ st.ids ↔ g.Has n := by
  obtain ⟨⟨ptr, hl⟩, -⟩ := h.lived.lives
  rw [hl.mem_ids, h.count_eq]
  rfl

theorem permits (h : Stands nodesDisk edgesDisk st g k) (hop : g.Permits op) : st.Permits op := by
  cases op with
  | node => trivial
  | add a b => exact ⟨h.mem_ids.mpr hop.1, h.mem_ids.mpr hop.2⟩
  | remove a b => exact ⟨h.mem_ids.mpr hop.1, h.mem_ids.mpr hop.2⟩

theorem keeps_iff (h : Stands nodesDisk edgesDisk st g k) : st.Keeps op ↔ g.Keeps op := by
  cases op with
  | node => exact Iff.rfl
  | add a b => exact Iff.rfl
  | remove a b => rw [DbRun.Keeps, Sketch.Keeps, h.graph_eq]

theorem need_le (h : Stands nodesDisk edgesDisk st g k) (hk : k ≤ LIFE) (op : DbOp) :
    st.need op ≤ 16 + 8 * LIFE := by
  have hlist : ∀ n, (st.graph n).length ≤ k := h.graph_eq ▸ h.list_le
  cases op with
  | node => exact Nat.zero_le _
  | add a b =>
    have hle := hlist a
    change 16 + 8 * (st.graph a).length ≤ _
    omega
  | remove a b =>
    have hle := hlist a
    change 8 * (st.graph a).length ≤ _
    omega

theorem room (h : Stands nodesDisk edgesDisk st g k) (hk : k < LIFE) (op : DbOp) :
    st.db.nodes.endPos + 16 ≤ 2 ^ 62 ∧ st.db.edges.endPos + st.need op ≤ 2 ^ 62 := by
  obtain ⟨⟨ptr, hl⟩, -⟩ := h.lived.lives
  have hneed := h.need_le hk.le op
  have hend := h.end_le
  have hnodes := hl.nodes.end_eq
  have hcount := h.count_eq ▸ h.count_le
  unfold LIFE at hk hneed hend
  unfold FIRST_NODE at hnodes
  omega

theorem draw_eq {st' : DbRun} (h : Stands nodesDisk edgesDisk st g k) (hl' : ∃ ptr, Lives st' ptr)
    (hstep : st.step op = some st') : st'.ids.length = (g.draw op).1 ∧ st'.graph = (g.draw op).2 := by
  have hcount := h.count_eq
  have hgraph := h.graph_eq
  obtain ⟨r, rfl, -, rfl⟩ | ⟨a, b, r, rfl, -, rfl⟩ | ⟨a, b, r, rfl, -, rfl⟩ := step_cases hstep
  · obtain ⟨ptr, hl'⟩ := hl'
    have hlen : (st.ids ++ [r.1]).length = g.count + 1 := by simp [hcount]
    -- the last of the ids is the one that was returned
    have hids := hl'.ids
    simp only at hids
    rw [hlen, List.range_succ, List.map_append] at hids
    obtain ⟨-, hlast⟩ := List.append_inj' hids rfl
    have hid : r.1 = FIRST_NODE + g.count := by simpa using hlast
    refine ⟨hlen, ?_⟩
    simp only [Sketch.draw, hgraph, hid]
  · exact ⟨hcount, congrArg (Multigraph.addEdge · a b) hgraph⟩
  · exact ⟨hcount, congrArg (Multigraph.removeEdge · a b) hgraph⟩

theorem draw_le (h : Stands nodesDisk edgesDisk st g k) (op : DbOp) :
    (g.draw op).1 ≤ k + 1 ∧ ∀ n, ((g.draw op).2 n).length ≤ k + 1 := by
  have hcount := h.count_le
  have hupdate : ∀ a ends, ends.length ≤ k + 1 → ∀ n, (Function.update g.graph a ends n).length ≤ k + 1 := by
    intro a ends hends n
    by_cases hn : n = a
    · rwa [hn, Function.update_self]
    · rw [Function.update_of_ne hn]
      exact (h.list_le n).trans (Nat.le_succ k)
  cases op with
  | node => exact ⟨Nat.succ_le_succ hcount, hupdate _ _ (Nat.zero_le _)⟩
  | add a b =>
    refine ⟨hcount.trans (Nat.le_succ k), hupdate _ _ ?_⟩
    rw [List.length_append]
    exact Nat.succ_le_succ (h.list_le a)
  | remove a b =>
    exact ⟨hcount.trans (Nat.le_succ k),
      hupdate _ _ (List.length_erase_le.trans ((h.list_le a).trans (Nat.le_succ k)))⟩

-- An operation that the sketch permits is done, and the database stands for the new sketch.
theorem change (h : Stands nodesDisk edgesDisk st g k) (hnodes : nodesDisk.Grants) (hedges : edgesDisk.Grants)
    (hk : k < LIFE) (hstep : g.step (.change op) = some g') :
    ∃ st', st.step op = some st' ∧ Stands nodesDisk edgesDisk st' g' (k + 1) := by
  obtain ⟨⟨ptr, hl⟩, hgn, hge⟩ := h.lived.lives
  obtain ⟨hroom, hroom'⟩ := h.room hk op
  rw [Sketch.step] at hstep
  split at hstep
  case isFalse => cases hstep
  case isTrue hop =>
    obtain rfl := Option.some.inj hstep
    have hsettled : st.Settled op := hop.2.imp h.keeps_iff.mpr h.settled
    obtain ⟨st', hst', hstepped⟩ := (hl.step (h.permits hop.1) hsettled).exists_some
      (not_not.mpr ⟨⟨hgn hnodes, hroom⟩, hge hedges, hroom'⟩)
    obtain ⟨hcount, hgraph⟩ := h.draw_eq hstepped.lives hst'
    obtain ⟨hcount', hlists⟩ := h.draw_le op
    refine ⟨st', hst', .step op h.lived (h.permits hop.1) hsettled hst', hcount, hgraph, fun hs => ?_, hcount',
      hlists, ?_⟩
    · simp only [Bool.and_eq_true, decide_eq_true_eq] at hs
      rw [hstepped.keeps (h.keeps_iff.mpr hs.2)]
      exact h.settled hs.1
    · have hneed := h.need_le hk.le op
      have hend := hstepped.end_le
      have hend' := h.end_le
      rw [Nat.add_mul, Nat.one_mul]
      omega

theorem reopen (h : Stands nodesDisk edgesDisk st g k) (disk disk' : Disk) {flags : Nat}
    (hflags : flags &&& ADV_CREATE = 0) :
    ∃ db, advOpen disk disk' (some (advClose st.db)) flags = some db ∧
      Stands nodesDisk edgesDisk { st with db } { g with settled := true } k := by
  obtain ⟨⟨ptr, hl⟩, -⟩ := h.lived.lives
  obtain ⟨db, hdb, -, -, hre⟩ := hl.reopen disk disk' hflags
  exact ⟨db, hdb, .reopened disk disk' flags h.lived hflags hdb, h.count_eq, h.graph_eq, fun _ => hre.free_eq,
    h.count_le, h.list_le, hre.end_eq ▸ h.end_le⟩

theorem mono {l : Nat} (h : Stands nodesDisk edgesDisk st g k) (hkl : k ≤ l) :
    Stands nodesDisk edgesDisk st g l where
  __ := h
  count_le := h.count_le.trans hkl
  list_le n := (h.list_le n).trans hkl
  end_le := h.end_le.trans (Nat.add_le_add_left (Nat.mul_le_mul_right _ hkl) 96)

theorem nodesCount_eq (h : Stands nodesDisk edgesDisk st g k) : nodesCount st.db.nodes = FIRST_NODE + g.count := by
  obtain ⟨⟨ptr, hl⟩, -⟩ := h.lived.lives
  rw [hl.nodes.count_eq, h.count_eq]

-- What can be read of the database is the sketch.
theorem rows (h : Stands nodesDisk edgesDisk st g k) (hn : g.Has n) : advDebugRow st.db n = some (g.graph n) := by
  obtain ⟨⟨ptr, hl⟩, -⟩ := h.lived.lives
  have hmem := h.mem_ids.mpr hn
  rw [← h.graph_eq]
  exact advDebugRow_eq hl.nodes (hl.mem_ids.mp hmem).1 (hl.mem_ids.mp hmem).2 hl.sound (hl.lists n hmem)

end Stands

end DbRun

end Adventure

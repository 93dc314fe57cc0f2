import Adventure.Adv
import Adventure.Edges.Blocks
import Adventure.Nodes.Slots

namespace Adventure

open Memory Ends

section Read

variable {db : AdvDb} {n e : Nat} {ends before after : List Nat}

theorem advDebugEdgesFrom_eq {edges : Store} (steps : Nat)
    (h : BlockAt edges.file.data e (before ++ after)) (hsteps : after.length < steps) :
    advDebugEdgesFrom edges (e + (8 + 8 * (before ++ after).length)) steps
      (e + (8 + 8 * before.length)) = some after := by
  induction after generalizing before steps with
  | nil =>
      obtain ⟨steps, rfl⟩ : ∃ n, steps = n + 1 := ⟨steps - 1, by omega⟩
      rw [advDebugEdgesFrom, List.append_nil, if_neg (Nat.lt_irrefl _)]
  | cons x after ih =>
      obtain ⟨steps, rfl⟩ : ∃ n, steps = n + 1 := ⟨steps - 1, by omega⟩
      have hlt := h.addr_lt
      have hlen : (before ++ x :: after).length = before.length + after.length + 1 := by
        simp [Nat.add_assoc]
      have hread : storeReadUi64 edges (e + (8 + 8 * before.length)) = x := by
        rw [storeReadUi64_eq]
        exact h.split.2.1
      have hnext : add64 (e + (8 + 8 * before.length)) 8 = e + (8 + 8 * (before ++ [x]).length) := by
        rw [add64_eq (by omega), List.length_append, List.length_singleton]
        omega
      have ht := ih steps (show BlockAt edges.file.data e (before ++ [x] ++ after) by simpa using h)
        (by rw [List.length_cons] at hsteps; omega)
      rw [List.append_assoc, List.singleton_append] at ht
      rw [advDebugEdgesFrom, if_pos (by omega), hnext, ht, hread]
      rfl

-- adv_debug_print reads the list that the node's pointer stands for.
theorem advDebugEdges_eq (hfrom : nodesEdgesFrom db.nodes n = e) (he : EdgesAt db.edges.file.data e ends) :
    advDebugEdges db n = some ends := by
  rw [advDebugEdges, hfrom]
  by_cases hzero : e = 0
  · rw [EdgesAt, if_pos hzero] at he
    subst he hzero
    rfl
  · rw [EdgesAt, if_neg hzero] at he
    have hlt := he.addr_lt
    have hwalk := advDebugEdgesFrom_eq EDGE_STEPS (show BlockAt db.edges.file.data e ([] ++ ends) from he)
      (by rw [EDGE_STEPS]; omega)
    rw [List.nil_append, List.length_nil] at hwalk
    rw [he.size_eq, add64_eq (show e + (8 + 8 * ends.length) < 2 ^ 64 by omega),
      add64_eq (show e + 8 < 2 ^ 64 by omega)]
    exact (if_pos hzero).trans hwalk

end Read

-- The reference: a directed multigraph as the lists of end nodes of its nodes, in the order in
-- which the edges were added.
abbrev Multigraph := Nat → List Nat

def Multigraph.addEdge (g : Multigraph) (a b : Nat) : Multigraph := Function.update g a (g a ++ [b])
def Multigraph.removeEdge (g : Multigraph) (a b : Nat) : Multigraph :=
  Function.update g a ((g a).erase b)

-- A database in use, with the ids that adv_node_add has returned and the graph it stands for.
structure DbRun where
  db : AdvDb
  ids : List Nat
  graph : Multigraph

inductive DbOp
  | node
  | add (a b : Nat)
  | remove (a b : Nat)

namespace DbRun

def step (st : DbRun) : DbOp → Option DbRun
  | .node => do
      let r ← advNodeAdd st.db
      return ⟨r.2, st.ids ++ [r.1], Function.update st.graph r.1 []⟩
  | .add a b => do
      let db ← advEdgeAdd st.db a b
      return ⟨db, st.ids, st.graph.addEdge a b⟩
  | .remove a b => do
      let db ← advEdgeRemove st.db a b
      return ⟨db, st.ids, st.graph.removeEdge a b⟩

def Permits (st : DbRun) : DbOp → Prop
  | .node => True
  | .add a b => a ∈ st.ids ∧ b ∈ st.ids
  | .remove a b => a ∈ st.ids ∧ b ∈ st.ids

-- An edge is added only while the graph has none.
def Single (st : DbRun) : DbOp → Prop
  | .add _ _ => ∀ n ∈ st.ids, st.graph n = []
  | _ => True

-- And no edge is removed that is there.
def Untouched (st : DbRun) : DbOp → Prop
  | .node => True
  | .add _ _ => ∀ n ∈ st.ids, st.graph n = []
  | .remove a b => b ∉ st.graph a

theorem Untouched.single {st : DbRun} {op : DbOp} (h : st.Untouched op) : st.Single op := by
  cases op with
  | node => trivial
  | add a b => exact h
  | remove a b => trivial

instance (st : DbRun) : (op : DbOp) → Decidable (st.Permits op)
  | .node => .isTrue trivial
  | .add a b => inferInstanceAs (Decidable (a ∈ st.ids ∧ b ∈ st.ids))
  | .remove a b => inferInstanceAs (Decidable (a ∈ st.ids ∧ b ∈ st.ids))

instance (st : DbRun) : (op : DbOp) → Decidable (st.Single op)
  | .node => .isTrue trivial
  | .add _ _ => inferInstanceAs (Decidable (∀ n ∈ st.ids, st.graph n = []))
  | .remove _ _ => .isTrue trivial

instance (st : DbRun) : (op : DbOp) → Decidable (st.Untouched op)
  | .node => .isTrue trivial
  | .add _ _ => inferInstanceAs (Decidable (∀ n ∈ st.ids, st.graph n = []))
  | .remove a b => inferInstanceAs (Decidable (b ∉ st.graph a))

-- The states of all runs on a new database whose operations are all allowed.
inductive Reached (allowed : DbRun → DbOp → Prop) (nodesDisk edgesDisk : Disk) : DbRun → Prop
  | opened {db : AdvDb} : advOpen nodesDisk edgesDisk none ADV_CREATE = some db →
      Reached allowed nodesDisk edgesDisk ⟨db, [], fun _ => []⟩
  | step {st st' : DbRun} (op : DbOp) : Reached allowed nodesDisk edgesDisk st → st.Permits op →
      allowed st op → st.step op = some st' → Reached allowed nodesDisk edgesDisk st'

theorem Reached.mono {allowed allowed' : DbRun → DbOp → Prop} {nodesDisk edgesDisk : Disk} {st : DbRun}
    (h : Reached allowed nodesDisk edgesDisk st) (hsub : ∀ st op, allowed st op → allowed' st op) :
    Reached allowed' nodesDisk edgesDisk st := by
  induction h with
  | opened hopen => exact .opened hopen
  | step op _ hop hallowed hstep ih => exact .step op ih hop (hsub _ _ hallowed) hstep

-- A run that stops at an operation that is not allowed.
def run (allowed : DbRun → DbOp → Prop) [∀ st op, Decidable (allowed st op)] :
    List DbOp → DbRun → Option DbRun
  | [], st => some st
  | op :: ops, st =>
      if st.Permits op ∧ allowed st op then (st.step op).bind (run allowed ops) else none

theorem Reached.run {allowed : DbRun → DbOp → Prop} [∀ st op, Decidable (allowed st op)]
    {nodesDisk edgesDisk : Disk} {ops : List DbOp} {st st' : DbRun}
    (hst : Reached allowed nodesDisk edgesDisk st) (hrun : DbRun.run allowed ops st = some st') :
    Reached allowed nodesDisk edgesDisk st' :=
  guarded_rule (DbRun.run allowed) (fun st op => st.Permits op ∧ allowed st op) DbRun.step
    (Reached allowed nodesDisk edgesDisk) (fun _ => rfl) (fun _ _ _ => rfl)
    (fun _ op _ hst hop hstep => .step op hst hop.1 hop.2 hstep) hst hrun

-- What edges_add has made of the free list: it frees page 0 when there was no block before. While
-- page 0 is not handed out again, at most one block is in use.
inductive Space (st : DbRun) (ptr : Nat → Nat) : Prop
  | empty : st.db.edges.freeList = some [] ∧ st.db.edges.endPos = 96 ∨
        st.db.edges.freeList = some [96] ∧ st.db.edges.endPos = 112 →
      (∀ n ∈ st.ids, ptr n = 0 ∧ st.graph n = []) → Space st ptr
  | one (a b : Nat) : st.db.edges.freeList = some [0] → st.db.edges.endPos = 112 → a ∈ st.ids →
      ptr a = 96 → st.graph a = [b] → BlockAt st.db.edges.file.data 96 [b] →
      (∀ n ∈ st.ids, n ≠ a → ptr n = 0 ∧ st.graph n = []) → Space st ptr

-- The invariant of a run.
structure Kept (st : DbRun) (ptr : Nat → Nat) : Prop where
  ids : st.ids = (List.range st.ids.length).map (FIRST_NODE + ·)
  nodes : NodesAt st.db.nodes st.ids.length ptr
  sound : st.db.edges.Sound
  space : Space st ptr

section Step

variable {st : DbRun} {ptr : Nat → Nat} {a b n : Nat}

theorem Space.edgesAt (h : Space st ptr) (hn : n ∈ st.ids) :
    EdgesAt st.db.edges.file.data (ptr n) (st.graph n) := by
  have hnone : ptr n = 0 ∧ st.graph n = [] → EdgesAt st.db.edges.file.data (ptr n) (st.graph n) := by
    rintro ⟨hp, hg⟩
    rw [EdgesAt, if_pos hp, hg]
  cases h with
  | empty _ hz => exact hnone (hz n hn)
  | one a b _ _ _ hp hg hblock hz =>
      by_cases hna : n = a
      · subst hna
        rw [EdgesAt, hp, if_neg (by decide), hg]
        exact hblock
      · exact hnone (hz n hn hna)

theorem Space.ptr_lt (h : Space st ptr) (hn : n ∈ st.ids) : ptr n < 2 ^ 64 := by
  cases h with
  | empty _ hz => rw [(hz n hn).1]; decide
  | one a b _ _ _ hp hg hblock hz =>
      by_cases hna : n = a
      · rw [hna, hp]
        decide
      · rw [(hz n hn hna).1]
        decide

theorem Kept.mem_ids (h : Kept st ptr) :
    n ∈ st.ids ↔ FIRST_NODE ≤ n ∧ n < FIRST_NODE + st.ids.length := by
  rw [h.ids, ← List.range'_eq_map_range, List.mem_range'_1, List.length_range']

theorem Kept.edgesFrom_eq (h : Kept st ptr) (hn : n ∈ st.ids) : nodesEdgesFrom st.db.nodes n = ptr n :=
  h.nodes.edgesFrom_eq (h.mem_ids.mp hn).1 (h.mem_ids.mp hn).2

theorem Kept.node (h : Kept st ptr) : Meets (st.step .node) (¬st.db.nodes.Growable 16) fun st' =>
    (∃ ptr', Kept st' ptr') ∧ st'.db.edges = st.db.edges ∧ Spent st.db.nodes st'.db.nodes 16 := by
  simp only [DbRun.step, advNodeAdd, Option.bind_eq_bind, Option.bind_assoc, Option.pure_def,
    Option.bind_some]
  apply Meets.bind h.nodes.add_meets
  rintro ⟨n, nodes⟩ ⟨hn, hnodes, hspent⟩
  simp only at hn hnodes
  have hnew : ∀ m ∈ st.ids, m ≠ n := by
    intro m hm
    have := (h.mem_ids.mp hm).2
    omega
  have hlen : (st.ids ++ [n]).length = st.ids.length + 1 := by simp
  refine Meets.pure ⟨⟨Function.update ptr n 0, ⟨?_, ?_, h.sound, ?_⟩⟩, rfl, hspent⟩
  · rw [hlen, List.range_succ, List.map_append, ← h.ids, hn]
    rfl
  · rw [hlen, hn]
    exact hnodes
  · have hold : ∀ m ∈ st.ids, ptr m = 0 ∧ st.graph m = [] →
        Function.update ptr n 0 m = 0 ∧ Function.update st.graph n [] m = [] := by
      intro m hm hz
      rwa [Function.update_of_ne (hnew m hm), Function.update_of_ne (hnew m hm)]
    have hself : Function.update ptr n 0 n = 0 ∧ Function.update st.graph n [] n = [] := by
      simp
    cases h.space with
    | empty hf hz =>
        refine .empty hf fun m hm => ?_
        rcases List.mem_append.mp hm with hm | hm
        · exact hold m hm (hz m hm)
        · obtain rfl := List.mem_singleton.mp hm
          exact hself
    | one a b hf he ha hp hg hblock hz =>
        refine .one a b hf he (List.mem_append_left _ ha) ?_ ?_ hblock fun m hm hma => ?_
        · change Function.update ptr n 0 a = 96
          rwa [Function.update_of_ne (hnew a ha)]
        · change Function.update st.graph n [] a = [b]
          rwa [Function.update_of_ne (hnew a ha)]
        · rcases List.mem_append.mp hm with hm | hm
          · exact hold m hm (hz m hm hma)
          · obtain rfl := List.mem_singleton.mp hm
            exact hself

theorem Kept.add (h : Kept st ptr) (ha : a ∈ st.ids) (hb : b ∈ st.ids)
    (hsingle : ∀ n ∈ st.ids, st.graph n = []) :
    Meets (st.step (.add a b)) (¬st.db.edges.Growable 16) fun st' => (∃ ptr', Kept st' ptr') ∧
      (HeaderAt st.db.edges → HeaderAt st'.db.edges) ∧
      Spent st.db.edges st'.db.edges 16 ∧ st'.db.nodes.endPos = st.db.nodes.endPos ∧
        (st.db.nodes.file.Grants → st'.db.nodes.file.Grants) := by
  have hblt : b < 2 ^ 64 := by
    have := (h.mem_ids.mp hb).2
    have := h.nodes.end_eq
    have := h.nodes.sound.end_le
    have := h.nodes.sound.size_lt
    omega
  obtain ⟨hfree, hzero⟩ : (st.db.edges.freeList = some [] ∧ st.db.edges.endPos = 96 ∨
      st.db.edges.freeList = some [96] ∧ st.db.edges.endPos = 112) ∧
      ∀ n ∈ st.ids, ptr n = 0 ∧ st.graph n = [] := by
    cases h.space with
    | empty hf hz => exact ⟨hf, hz⟩
    | one a b _ _ ha _ hg => exact absurd ((hsingle a ha).symm.trans hg) (by simp)
  -- the new block lies at 96 either way
  have hpage : ∀ d s, Allocated st.db.edges (16 + 8 * ([] : List Nat).length) d s →
      d = 96 ∧ s.freeList = some [] ∧ s.endPos = 112 := by
    intro d s hal
    rcases hfree with ⟨hf, he⟩ | ⟨hf, he⟩
    · obtain ⟨hd, hse, hsf⟩ := hal.of_empty hf
      exact ⟨hd.trans he, hsf, by rw [hse, he]; rfl⟩
    · obtain ⟨hd, hse, hsf⟩ := hal.of_cons hf
      exact ⟨hd, hsf, hse.trans he⟩
  have hstart : EdgesAt st.db.edges.file.data 0 [] := by rw [EdgesAt, if_pos rfl]
  rw [DbRun.step, advEdgeAdd, h.edgesFrom_eq ha, (hzero a ha).1]
  simp only [Option.bind_eq_bind, Option.bind_assoc, Option.pure_def, Option.bind_some]
  refine Meets.bind ((edgesAdd_meets h.sound hstart (fun h => absurd rfl h) (fun d s hal => ?_) hblt a).mono
    (mt Or.inr) fun _ h => h) ?_
  · obtain ⟨rfl, -, -⟩ := hpage d s hal
    exact ⟨by decide, fun h => absurd rfl h⟩
  rintro ⟨d, edges⟩ ⟨s, data, hal, rfl, honly, hblock⟩
  obtain ⟨hd, hsf, hse⟩ := hpage d s hal
  simp only at hd hblock honly
  subst hd
  have hs : s.Sound := hal.sound h.sound
  have hroom : 14 ≤ st.db.edges.file.size := by
    have := h.sound.end_le
    omega
  refine Meets.pure ⟨⟨Function.update ptr a 96, ⟨h.ids, h.nodes.edgesSet (h.mem_ids.mp ha).2
    (show 96 < 2 ^ 64 by decide), ⟨hs.end_le, hs.size_pos, hs.size_lt⟩, ?_⟩⟩, fun hh => ?_,
    (hal.spent.setData data).free 0, rfl, id⟩
  · refine .one a b ?_ hse ha (Function.update_self _ _ _) ?_ hblock fun m hm hma => ?_
    · change (storeFree (s.setData data) 0).freeList = some [0]
      rw [storeFree, setData_freeList, hsf]
      rfl
    · change Function.update st.graph a (st.graph a ++ [b]) a = [b]
      rw [Function.update_self, hsingle a ha]
      rfl
    · change Function.update ptr a 96 m = 0 ∧ Function.update st.graph a _ m = []
      rw [Function.update_of_ne hma, Function.update_of_ne hma]
      exact hzero m hm
  · exact ((hh.allocated hroom hal).congr (honly.same (by omega))).free 0

theorem Kept.remove_absent (h : Kept st ptr) (ha : a ∈ st.ids) (hb : b ∉ st.graph a) :
    ∃ st', st.step (.remove a b) = some st' ∧ Kept st' ptr ∧ st'.db.edges = st.db.edges ∧
      st'.db.nodes.endPos = st.db.nodes.endPos ∧ (st.db.nodes.file.Grants → st'.db.nodes.file.Grants) := by
  have hremove := edgesRemove_absent (h.space.edgesAt ha) hb a
  have hnodes := h.nodes.edgesSet (e := ptr a) (h.mem_ids.mp ha).2 (h.space.ptr_lt ha)
  rw [Function.update_eq_self] at hnodes
  have hgraph : st.graph.removeEdge a b = st.graph := by
    rw [Multigraph.removeEdge, List.erase_of_not_mem hb, Function.update_eq_self]
  refine ⟨⟨⟨nodesEdgesSet st.db.nodes a (ptr a), st.db.edges⟩, st.ids, st.graph⟩, ?_,
    ⟨h.ids, hnodes, h.sound, ?_⟩, rfl, rfl, id⟩
  · rw [DbRun.step, advEdgeRemove, h.edgesFrom_eq ha, hremove, hgraph]
    rfl
  · cases h.space with
    | empty hf hz => exact .empty hf hz
    | one a b hf he ha hp hg hblock hz => exact .one a b hf he ha hp hg hblock hz

-- The only edge goes, and its list is read as empty again: the new pointer is page 0.
theorem Kept.remove_present (h : Kept st ptr) (ha : a ∈ st.ids) (hb : b ∈ st.graph a) :
    Meets (st.step (.remove a b)) (¬st.db.edges.Growable 8) fun st' => (∃ ptr', Kept st' ptr') ∧
      Spent st.db.edges st'.db.edges 8 ∧ st'.db.nodes.endPos = st.db.nodes.endPos ∧
        (st.db.nodes.file.Grants → st'.db.nodes.file.Grants) := by
  obtain ⟨hfree, hend, hp, hg, hblock, hzero⟩ : st.db.edges.freeList = some [0] ∧
      st.db.edges.endPos = 112 ∧ ptr a = 96 ∧ st.graph a = [b] ∧ BlockAt st.db.edges.file.data 96 [b] ∧
      ∀ n ∈ st.ids, n ≠ a → ptr n = 0 ∧ st.graph n = [] := by
    cases h.space with
    | empty _ hz =>
        rw [(hz a ha).2] at hb
        cases hb
    | one a' b' hf he _ hp hg hblock hz =>
        by_cases haa : a = a'
        · subst haa
          rw [hg, List.mem_singleton] at hb
          subst hb
          exact ⟨hf, he, hp, hg, hblock, hz⟩
        · rw [(hz a ha haa).2] at hb
          cases hb
  have hpage : ∀ d s, Allocated st.db.edges (8 + 8 * ([] ++ [] : List Nat).length) d s →
      d = 0 ∧ s.freeList = some [] ∧ s.endPos = 112 := by
    intro d s hal
    obtain ⟨hd, hse, hsf⟩ := hal.of_cons hfree
    exact ⟨hd, hsf, hse.trans hend⟩
  have hle := h.sound.end_le
  rw [DbRun.step, advEdgeRemove, h.edgesFrom_eq ha, hp]
  simp only [Option.bind_eq_bind, Option.bind_assoc, Option.pure_def, Option.bind_some]
  have hblock : BlockAt st.db.edges.file.data 96 ([] ++ b :: []) := hblock
  refine Meets.bind ((edgesRemove_meets h.sound (show 96 ≠ 0 by decide) hblock
    (List.not_mem_nil) ⟨by decide, ?_⟩ (fun d s hal => ?_) a).mono (mt Or.inr) fun _ h => h) ?_
  · change 96 + 16 ≤ st.db.edges.file.size
    omega
  · obtain ⟨rfl, -, -⟩ := hpage d s hal
    exact ⟨by decide, Or.inl (by decide)⟩
  rintro ⟨d, edges⟩ ⟨s, data, hal, rfl, -, -⟩
  obtain ⟨hd, hsf, hse⟩ := hpage d s hal
  subst hd
  have hs : s.Sound := hal.sound h.sound
  refine Meets.pure ⟨⟨Function.update ptr a 0, ⟨h.ids, h.nodes.edgesSet (h.mem_ids.mp ha).2
    (show 0 < 2 ^ 64 by decide), ⟨hs.end_le, hs.size_pos, hs.size_lt⟩, ?_⟩⟩,
    (hal.spent.setData data).free 96, rfl, id⟩
  refine .empty (Or.inr ⟨?_, hse⟩) fun m hm => ?_
  · change (storeFree (s.setData data) 96).freeList = some [96]
    rw [storeFree, setData_freeList, hsf]
    rfl
  · change Function.update ptr a 0 m = 0 ∧ Function.update st.graph a ((st.graph a).erase b) m = []
    by_cases hma : m = a
    · subst hma
      rw [Function.update_self, Function.update_self, hg, List.erase_cons_head]
      exact ⟨rfl, rfl⟩
    · rw [Function.update_of_ne hma, Function.update_of_ne hma]
      exact hzero m hm hma

end Step

end DbRun

end Adventure

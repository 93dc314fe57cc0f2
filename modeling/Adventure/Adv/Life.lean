import Adventure.Adv.Theorems

namespace Adventure

open Memory Ends

-- A new block at the end of the edges file. All that was allocated keeps its bytes.
structure Appended (edges edges' : Store) (d : Nat) (ends : List Nat) : Prop where
  sound : edges'.Sound
  header : HeaderAt edges'
  free : edges'.freeList ≠ none
  at_end : d = edges.endPos
  end_eq : edges'.endPos = d + (8 + 8 * ends.length)
  block : BlockAt edges'.file.data d ends
  same : Same edges.file.data edges'.file.data STORE_HEADER_SIZE (edges.endPos - STORE_HEADER_SIZE)
  grants : edges.file.Grants → edges'.file.Grants

section Edges

variable {edges s : Store} {d e stop : Nat} {ends before after : List Nat} {data : Memory}

-- What a page that comes from the end of the file is.
theorem Allocated.at_end {size : Nat} (ha : Allocated edges size d s) (hs : edges.Sound)
    (hfree : edges.freeList = some []) : d = edges.endPos ∧ d + size = s.endPos ∧ d + size < 2 ^ 63 := by
  obtain ⟨rfl, hend, -⟩ := ha.of_empty hfree
  have hle := (ha.sound hs).end_le
  have hlt := (ha.sound hs).size_lt
  exact ⟨rfl, hend.symm, by omega⟩

theorem Allocated.appended (ha : Allocated edges (8 + 8 * ends.length) d s) (hs : edges.Sound)
    (hh : HeaderAt edges) (hfree : edges.freeList = some []) (hlow : STORE_HEADER_SIZE ≤ edges.endPos)
    (honly : Only s.file.data data d (8 + 8 * ends.length)) (hb : BlockAt data d ends) (e : Nat) :
    Appended edges (storeFree (s.setData data) e) d ends := by
  obtain ⟨hd, hend, -⟩ := ha.at_end hs hfree
  have hle := hs.end_le
  have hsize : STORE_HEADER_SIZE = 32 := rfl
  have hsound := ha.sound hs
  have hheader := (hh.allocated (by omega) ha).congr (honly.same (by omega))
  refine ⟨⟨hsound.end_le, hsound.size_pos, hsound.size_lt⟩, hheader.free e, ?_, hd, hend.symm, hb, ?_, ha.grants⟩
  · rw [storeFree, setData_freeList, (ha.of_empty hfree).2.2]
    simp
  · exact (ha.same (by omega) (by omega)).trans (honly.same (by omega))

variable (hs : edges.Sound) (hh : HeaderAt edges) (hfree : edges.freeList = some [])
  (hlow : STORE_HEADER_SIZE ≤ edges.endPos)

include hs hh hfree hlow

theorem edgesAdd_appended (he : EdgesAt edges.file.data e ends)
    (hin : e ≠ 0 → STORE_HEADER_SIZE ≤ e ∧ e + (8 + 8 * ends.length) ≤ edges.endPos) (hstop : stop < 2 ^ 64)
    (start : Nat) :
    Meets (edgesAdd edges e start stop) (¬edges.Growable (16 + 8 * ends.length)) fun r =>
      Appended edges r.2 r.1 (ends ++ [stop]) := by
  have hle := hs.end_le
  have hsize : STORE_HEADER_SIZE = 32 := rfl
  have hlen : 8 + 8 * (ends ++ [stop]).length = 16 + 8 * ends.length := by
    simp
    omega
  refine (edgesAdd_meets hs he (fun hne => ?_) (fun d s ha => ?_) hstop start).mono (mt Or.inr) ?_
  · have hin' := hin hne
    omega
  · obtain ⟨hd, -, hlt⟩ := ha.at_end hs hfree
    exact ⟨hlt, fun hne => .inr (hd ▸ (hin hne).2)⟩
  · rintro ⟨d, edges'⟩ ⟨s, data, ha, rfl, honly, hb⟩
    rw [← hlen] at ha honly
    exact ha.appended hs hh hfree hlow honly hb e

theorem edgesRemove_appended (hne : e ≠ 0) (he : BlockAt edges.file.data e ends) (hmem : stop ∈ ends)
    (hin : STORE_HEADER_SIZE ≤ e ∧ e + (8 + 8 * ends.length) ≤ edges.endPos) (start : Nat) :
    Meets (edgesRemove edges e start stop) (¬edges.Growable (8 * ends.length)) fun r =>
      Appended edges r.2 r.1 (ends.erase stop) := by
  have hle := hs.end_le
  have hsize : STORE_HEADER_SIZE = 32 := rfl
  obtain ⟨before, after, hfirst, rfl, herase⟩ := List.exists_erase_eq hmem
  have hlen : 8 * (before ++ stop :: after).length = 8 + 8 * (before ++ after).length := by
    simp
    omega
  rw [herase, hlen]
  refine (edgesRemove_meets hs hne he hfirst ⟨by omega, by omega⟩ (fun d s ha => ?_) start).mono (mt Or.inr) ?_
  · obtain ⟨hd, -, hlt⟩ := ha.at_end hs hfree
    exact ⟨hlt, .inr (hd ▸ hin.2)⟩
  · rintro ⟨d, edges'⟩ ⟨s, data, ha, rfl, honly, hb⟩
    exact ha.appended hs hh hfree hlow honly hb e

end Edges

namespace DbRun

-- An operation that leaves the edges file as it is.
def Keeps (st : DbRun) : DbOp → Prop
  | .node => True
  | .add _ _ => False
  | .remove a b => b ∉ st.graph a

-- An edge is only changed when nothing was freed since the files were opened.
def Settled (st : DbRun) (op : DbOp) : Prop := st.Keeps op ∨ st.db.edges.freeList = some []

instance (st : DbRun) : (op : DbOp) → Decidable (st.Keeps op)
  | .node => .isTrue trivial
  | .add _ _ => .isFalse id
  | .remove a b => inferInstanceAs (Decidable (b ∉ st.graph a))

instance (st : DbRun) (op : DbOp) : Decidable (st.Settled op) :=
  inferInstanceAs (Decidable (st.Keeps op ∨ st.db.edges.freeList = some []))

-- The room that an operation takes in the edges file.
def need (st : DbRun) : DbOp → Nat
  | .node => 0
  | .add a _ => 16 + 8 * (st.graph a).length
  | .remove a _ => 8 * (st.graph a).length

-- What an operation makes of the two files, the ids and the graph.
theorem step_cases {st st' : DbRun} {op : DbOp} (hstep : st.step op = some st') :
    (∃ r, op = .node ∧ nodesAdd st.db.nodes = some r ∧
      st' = ⟨⟨r.2, st.db.edges⟩, st.ids ++ [r.1], Function.update st.graph r.1 []⟩) ∨
    (∃ a b r, op = .add a b ∧ edgesAdd st.db.edges (nodesEdgesFrom st.db.nodes a) a b = some r ∧
      st' = ⟨⟨nodesEdgesSet st.db.nodes a r.1, r.2⟩, st.ids, st.graph.addEdge a b⟩) ∨
    ∃ a b r, op = .remove a b ∧ edgesRemove st.db.edges (nodesEdgesFrom st.db.nodes a) a b = some r ∧
      st' = ⟨⟨nodesEdgesSet st.db.nodes a r.1, r.2⟩, st.ids, st.graph.removeEdge a b⟩ := by
  cases op with
  | node =>
    simp only [DbRun.step, advNodeAdd, Option.bind_eq_bind, Option.bind_eq_some_iff, Option.pure_def,
      Option.some.injEq] at hstep
    obtain ⟨-, ⟨r, hadd, rfl⟩, rfl⟩ := hstep
    exact .inl ⟨r, rfl, hadd, rfl⟩
  | add a b =>
    simp only [DbRun.step, advEdgeAdd, Option.bind_eq_bind, Option.bind_eq_some_iff, Option.pure_def,
      Option.some.injEq] at hstep
    obtain ⟨-, ⟨r, hadd, rfl⟩, rfl⟩ := hstep
    exact .inr (.inl ⟨a, b, r, rfl, hadd, rfl⟩)
  | remove a b =>
    simp only [DbRun.step, advEdgeRemove, Option.bind_eq_bind, Option.bind_eq_some_iff, Option.pure_def,
      Option.some.injEq] at hstep
    obtain ⟨-, ⟨r, hremove, rfl⟩, rfl⟩ := hstep
    exact .inr (.inr ⟨a, b, r, rfl, hremove, rfl⟩)

-- The states of all runs on a new database that may be closed and opened again at any moment.
inductive Lived (nodesDisk edgesDisk : Disk) : DbRun → Prop
  | opened {db : AdvDb} : advOpen nodesDisk edgesDisk none ADV_CREATE = some db →
      Lived nodesDisk edgesDisk ⟨db, [], fun _ => []⟩
  | step {st st' : DbRun} (op : DbOp) : Lived nodesDisk edgesDisk st → st.Permits op → st.Settled op →
      st.step op = some st' → Lived nodesDisk edgesDisk st'
  | reopened {st : DbRun} {db : AdvDb} (disk disk' : Disk) (flags : Nat) : Lived nodesDisk edgesDisk st →
      flags &&& ADV_CREATE = 0 → advOpen disk disk' (some (advClose st.db)) flags = some db →
      Lived nodesDisk edgesDisk { st with db }

theorem Lived.run {nodesDisk edgesDisk : Disk} {ops : List DbOp} {st st' : DbRun} (hst : Lived nodesDisk edgesDisk st)
    (hrun : DbRun.run Settled ops st = some st') : Lived nodesDisk edgesDisk st' :=
  guarded_rule (DbRun.run Settled) (fun st op => st.Permits op ∧ st.Settled op) DbRun.step
    (Lived nodesDisk edgesDisk) (fun _ => rfl) (fun _ _ _ => rfl)
    (fun _ op _ hst hop hstep => .step op hst hop.1 hop.2 hstep) hst hrun

-- The list of a node is in a block of its own, unless it is empty.
structure ListAt (edges : Store) (e : Nat) (ends : List Nat) : Prop where
  edges_at : EdgesAt edges.file.data e ends
  inside : e ≠ 0 → STORE_HEADER_SIZE ≤ e ∧ e + (8 + 8 * ends.length) ≤ edges.endPos

theorem ListAt.keep {edges edges' : Store} {e : Nat} {ends : List Nat} (h : ListAt edges e ends)
    (hle : edges.endPos ≤ edges'.endPos)
    (hsame : Same edges.file.data edges'.file.data STORE_HEADER_SIZE (edges.endPos - STORE_HEADER_SIZE)) :
    ListAt edges' e ends := by
  have hends := h.edges_at
  unfold EdgesAt at hends
  by_cases hzero : e = 0
  · rw [if_pos hzero] at hends
    exact ⟨by rw [EdgesAt, if_pos hzero, hends], fun hne => absurd hzero hne⟩
  · rw [if_neg hzero] at hends
    obtain ⟨hlo, hhi⟩ := h.inside hzero
    refine ⟨?_, fun _ => ⟨hlo, hhi.trans hle⟩⟩
    rw [EdgesAt, if_neg hzero]
    exact hends.congr (hsame.mono hlo (by omega))

-- The invariant of such a run.
structure Lives (st : DbRun) (ptr : Nat → Nat) : Prop where
  ids : st.ids = (List.range st.ids.length).map (FIRST_NODE + ·)
  nodes : NodesAt st.db.nodes st.ids.length ptr
  sound : st.db.edges.Sound
  header : HeaderAt st.db.edges
  end_ge : STORE_HEADER_SIZE ≤ st.db.edges.endPos
  lists : ∀ n ∈ st.ids, ListAt st.db.edges (ptr n) (st.graph n)

namespace Lives

variable {st : DbRun} {ptr : Nat → Nat} {a b n d : Nat} {ends : List Nat}

theorem mem_ids (h : Lives st ptr) : n ∈ st.ids ↔ FIRST_NODE ≤ n ∧ n < FIRST_NODE + st.ids.length := by
  rw [h.ids, ← List.range'_eq_map_range, List.mem_range'_1, List.length_range']

theorem edgesFrom_eq (h : Lives st ptr) (hn : n ∈ st.ids) : nodesEdgesFrom st.db.nodes n = ptr n :=
  h.nodes.edgesFrom_eq (h.mem_ids.mp hn).1 (h.mem_ids.mp hn).2

theorem id_lt (h : Lives st ptr) (hn : n ∈ st.ids) : n < 2 ^ 64 := by
  have hlt := (h.mem_ids.mp hn).2
  have hend := h.nodes.end_eq
  have hle := h.nodes.sound.end_le
  have hsize := h.nodes.sound.size_lt
  omega

theorem ptr_lt (h : Lives st ptr) (hn : n ∈ st.ids) : ptr n < 2 ^ 64 := by
  by_cases hzero : ptr n = 0
  · rw [hzero]
    decide
  · have hin := ((h.lists n hn).inside hzero).2
    have hle := h.sound.end_le
    have hlt := h.sound.size_lt
    omega

-- The pointer of a node goes to its new block.
theorem setEdges {edges : Store} (h : Lives st ptr) (ha : a ∈ st.ids)
    (happ : Appended st.db.edges edges d ends) :
    Lives ⟨⟨nodesEdgesSet st.db.nodes a d, edges⟩, st.ids, Function.update st.graph a ends⟩
      (Function.update ptr a d) := by
  have hlt := happ.block.addr_lt
  have hend := happ.at_end
  have hin := happ.end_eq
  have hge := h.end_ge
  have hsize : STORE_HEADER_SIZE = 32 := rfl
  refine ⟨h.ids, h.nodes.edgesSet (h.mem_ids.mp ha).2 (by omega), happ.sound, happ.header, ?_, fun n hn => ?_⟩
  · change STORE_HEADER_SIZE ≤ edges.endPos
    omega
  · change ListAt edges (Function.update ptr a d n) (Function.update st.graph a ends n)
    by_cases hna : n = a
    · subst hna
      rw [Function.update_self, Function.update_self]
      refine ⟨?_, fun _ => ⟨by omega, hin.ge⟩⟩
      rw [EdgesAt, if_neg (by omega)]
      exact happ.block
    · rw [Function.update_of_ne hna, Function.update_of_ne hna]
      exact (h.lists n hn).keep (by omega) happ.same

theorem node (h : Lives st ptr) : Meets (st.step .node) (¬st.db.nodes.Growable 16) fun st' =>
    (∃ ptr', Lives st' ptr') ∧ st'.db.edges = st.db.edges ∧
      (st.db.nodes.file.Grants → st'.db.nodes.file.Grants) := by
  simp only [DbRun.step, advNodeAdd, Option.bind_eq_bind, Option.bind_assoc, Option.pure_def,
    Option.bind_some]
  apply Meets.bind h.nodes.add_meets
  rintro ⟨n, nodes⟩ ⟨hn, hnodes, hspent⟩
  simp only at hn hnodes
  have hlen : (st.ids ++ [n]).length = st.ids.length + 1 := by simp
  refine Meets.pure ⟨⟨Function.update ptr n 0, ⟨?_, ?_, h.sound, h.header, h.end_ge, fun m hm => ?_⟩⟩, rfl,
    hspent.grants⟩
  · rw [hlen, List.range_succ, List.map_append, ← h.ids, hn]
    rfl
  · rw [hlen, hn]
    exact hnodes
  · change ListAt st.db.edges (Function.update ptr n 0 m) (Function.update st.graph n [] m)
    by_cases hmn : m = n
    · subst hmn
      rw [Function.update_self, Function.update_self]
      exact ⟨by rw [EdgesAt, if_pos rfl], fun hne => absurd rfl hne⟩
    · have hold : m ∈ st.ids := (List.mem_append.mp hm).resolve_right (by simp [hmn])
      rw [Function.update_of_ne hmn, Function.update_of_ne hmn]
      exact h.lists m hold

theorem add (h : Lives st ptr) (ha : a ∈ st.ids) (hb : b ∈ st.ids) (hfree : st.db.edges.freeList = some []) :
    Meets (st.step (.add a b)) (¬st.db.edges.Growable (st.need (.add a b))) fun st' =>
      (∃ ptr', Lives st' ptr') ∧ st'.db.edges.endPos = st.db.edges.endPos + st.need (.add a b) ∧
        (st.db.nodes.file.Grants → st'.db.nodes.file.Grants) ∧
        (st.db.edges.file.Grants → st'.db.edges.file.Grants) := by
  have hlist := h.lists a ha
  rw [DbRun.step, advEdgeAdd, h.edgesFrom_eq ha]
  simp only [Option.bind_eq_bind, Option.bind_assoc, Option.pure_def, Option.bind_some]
  refine Meets.bind (edgesAdd_appended h.sound h.header hfree h.end_ge hlist.edges_at hlist.inside (h.id_lt hb) a) ?_
  rintro ⟨d, edges⟩ happ
  refine Meets.pure ⟨⟨_, h.setEdges ha happ⟩, ?_, id, happ.grants⟩
  have hat := happ.at_end
  have hend := happ.end_eq
  simp only [List.length_append, List.length_singleton] at hat hend
  rw [hend, hat, need]
  omega

theorem remove (h : Lives st ptr) (ha : a ∈ st.ids) (hb : b ∈ st.graph a) (hfree : st.db.edges.freeList = some []) :
    Meets (st.step (.remove a b)) (¬st.db.edges.Growable (st.need (.remove a b))) fun st' =>
      (∃ ptr', Lives st' ptr') ∧ st'.db.edges.endPos = st.db.edges.endPos + st.need (.remove a b) ∧
        (st.db.nodes.file.Grants → st'.db.nodes.file.Grants) ∧
        (st.db.edges.file.Grants → st'.db.edges.file.Grants) := by
  have hlist := h.lists a ha
  have hends := hlist.edges_at
  rw [DbRun.step, advEdgeRemove, h.edgesFrom_eq ha]
  simp only [Option.bind_eq_bind, Option.bind_assoc, Option.pure_def, Option.bind_some]
  have hzero : ptr a ≠ 0 := by
    intro hzero
    rw [EdgesAt, if_pos hzero] at hends
    rw [hends] at hb
    cases hb
  rw [EdgesAt, if_neg hzero] at hends
  refine Meets.bind (edgesRemove_appended h.sound h.header hfree h.end_ge hzero hends hb (hlist.inside hzero) a) ?_
  rintro ⟨d, edges⟩ happ
  refine Meets.pure ⟨⟨_, h.setEdges ha happ⟩, ?_, id, happ.grants⟩
  have hat : d = st.db.edges.endPos := happ.at_end
  have hend : edges.endPos = d + (8 + 8 * ((st.graph a).erase b).length) := happ.end_eq
  have hlen := List.length_erase_of_mem hb
  have hpos := List.length_pos_of_mem hb
  rw [hend, hat, need]
  omega

-- Nothing changes but the pointer, which is written again.
theorem remove_absent (h : Lives st ptr) (ha : a ∈ st.ids) (hb : b ∉ st.graph a) :
    ∃ st', st.step (.remove a b) = some st' ∧ Lives st' ptr ∧ st'.db.edges = st.db.edges ∧
      (st.db.nodes.file.Grants → st'.db.nodes.file.Grants) := by
  have hnodes := h.nodes.edgesSet (e := ptr a) (h.mem_ids.mp ha).2 (h.ptr_lt ha)
  rw [Function.update_eq_self] at hnodes
  rw [DbRun.step, advEdgeRemove, h.edgesFrom_eq ha]
  simp only [Option.bind_eq_bind, Option.bind_assoc, Option.pure_def, Option.bind_some]
  rw [edgesRemove_absent (h.lists a ha).edges_at hb a, Option.bind_some, Multigraph.removeEdge,
    List.erase_of_not_mem hb, Function.update_eq_self]
  exact ⟨_, rfl, ⟨h.ids, hnodes, h.sound, h.header, h.end_ge, h.lists⟩, rfl, id⟩

-- What one operation does.
structure Stepped (st : DbRun) (op : DbOp) (st' : DbRun) : Prop where
  lives : ∃ ptr, Lives st' ptr
  end_le : st'.db.edges.endPos ≤ st.db.edges.endPos + st.need op
  keeps : st.Keeps op → st'.db.edges = st.db.edges
  nodes_grants : st.db.nodes.file.Grants → st'.db.nodes.file.Grants
  edges_grants : st.db.edges.file.Grants → st'.db.edges.file.Grants

theorem step {op : DbOp} (h : Lives st ptr) (hop : st.Permits op) (hsettled : st.Settled op) :
    Meets (st.step op) (¬(st.db.nodes.Growable 16 ∧ st.db.edges.Growable (st.need op))) (Stepped st op) := by
  cases op with
  | node =>
    refine h.node.mono (mt And.left) ?_
    rintro st' ⟨hl, hedges, hgrants⟩
    exact ⟨hl, by rw [hedges]; exact Nat.le_add_right _ _, fun _ => hedges, hgrants, hedges ▸ id⟩
  | add a b =>
    refine (h.add hop.1 hop.2 (hsettled.resolve_left id)).mono (mt And.right) ?_
    rintro st' ⟨hl, hend, hnodes, hgrants⟩
    exact ⟨hl, hend.le, fun hkeeps => hkeeps.elim, hnodes, hgrants⟩
  | remove a b =>
    by_cases hb : b ∈ st.graph a
    · refine (h.remove hop.1 hb (hsettled.resolve_left (not_not.mpr hb))).mono (mt And.right) ?_
      rintro st' ⟨hl, hend, hnodes, hgrants⟩
      exact ⟨hl, hend.le, fun hkeeps => absurd hb hkeeps, hnodes, hgrants⟩
    · obtain ⟨st', hstep, hl, hedges, hnodes⟩ := h.remove_absent hop.1 hb
      rw [hstep]
      exact Meets.pure ⟨⟨ptr, hl⟩, by rw [hedges]; exact Nat.le_add_right _ _, fun _ => hedges, hnodes,
        hedges ▸ id⟩

theorem reopen (h : Lives st ptr) (disk disk' : Disk) {flags : Nat} (hflags : flags &&& ADV_CREATE = 0) :
    ∃ db, advOpen disk disk' (some (advClose st.db)) flags = some db ∧ Lives { st with db } ptr ∧
      Reopened st.db.nodes db.nodes ∧ Reopened st.db.edges db.edges := by
  have hge := h.end_ge
  have hsize : STORE_HEADER_SIZE = 32 := rfl
  have hle := h.sound.end_le
  have hnle := h.nodes.sound.end_le
  have hend := h.nodes.end_eq
  obtain ⟨nodes, hnodes, hrn⟩ := h.nodes.header.reopened h.nodes.sound (by omega) disk flags
  obtain ⟨edges, hedges, hre⟩ := h.header.reopened h.sound (by omega) disk' flags
  refine ⟨⟨nodes, edges⟩, ?_, ⟨h.ids, h.nodes.reopened hrn, hre.sound, hre.header, hre.end_eq ▸ hge,
    fun n hn => ?_⟩, hrn, hre⟩
  · rw [advOpen, advDir, if_neg (not_not.mpr hflags), Option.bind_eq_bind, Option.bind_some, advClose, hnodes,
      Option.bind_eq_bind, Option.bind_some, hedges, Option.bind_some]
    rfl
  · exact (h.lists n hn).keep hre.end_eq.ge (hre.same.mono (Nat.zero_le _) (by omega))

end Lives

theorem Lived.lives {nodesDisk edgesDisk : Disk} {st : DbRun} (hst : Lived nodesDisk edgesDisk st) :
    (∃ ptr, Lives st ptr) ∧ (nodesDisk.Grants → st.db.nodes.file.Grants) ∧
      (edgesDisk.Grants → st.db.edges.file.Grants) := by
  induction hst with
  | opened hopen =>
    obtain ⟨hnodes, hedges⟩ := open_inv hopen
    obtain ⟨-, -, -, hgn⟩ := (storeOpen_meets _).of_eq_some hnodes
    obtain ⟨hpool, hend, -, hge⟩ := (storeOpen_meets _).of_eq_some hedges
    have hlow : STORE_HEADER_SIZE ≤ 96 := by decide
    exact ⟨⟨fun _ => 0, rfl, NodesAt.opened hnodes _, hpool.sound, storeOpen_header hedges, hend ▸ hlow, by simp⟩,
      hgn, hge⟩
  | step op _ hop hsettled hstep ih =>
    obtain ⟨⟨ptr, hl⟩, hgn, hge⟩ := ih
    have h := (hl.step hop hsettled).of_eq_some hstep
    exact ⟨h.lives, fun hg => h.nodes_grants (hgn hg), fun hg => h.edges_grants (hge hg)⟩
  | reopened disk disk' flags _ hflags hopen ih =>
    obtain ⟨⟨ptr, hl⟩, hgn, hge⟩ := ih
    obtain ⟨db, hdb, hl', hrn, hre⟩ := hl.reopen disk disk' hflags
    obtain rfl := Option.some.inj (hdb.symm.trans hopen)
    exact ⟨⟨ptr, hl'⟩, fun hg => hrn.grants (hgn hg), fun hg => hre.grants (hge hg)⟩

-- A database that is opened again for every change of an edge is the reference graph, however large. Opening
-- it brings back all lists, and then an edge may be changed again. An operation returns, as long as the files
-- have room to grow.
theorem graph_lives {nodesDisk edgesDisk : Disk} {st : DbRun} (hst : Lived nodesDisk edgesDisk st) :
    st.ids = (List.range st.ids.length).map (FIRST_NODE + ·) ∧
    (∀ n ∈ st.ids, advDebugEdges st.db n = some (st.graph n)) ∧
    (∀ disk disk' flags, flags &&& ADV_CREATE = 0 → ∃ db,
      advOpen disk disk' (some (advClose st.db)) flags = some db ∧
      (∀ op, DbRun.Settled { st with db } op) ∧ ∀ n ∈ st.ids, advDebugEdges db n = some (st.graph n)) ∧
    (nodesDisk.Grants → edgesDisk.Grants → ∀ op, st.Permits op → st.Settled op →
      st.db.nodes.endPos + 16 ≤ 2 ^ 62 → st.db.edges.endPos + st.need op ≤ 2 ^ 62 →
        ∃ st', st.step op = some st') := by
  obtain ⟨⟨ptr, hl⟩, hgn, hge⟩ := hst.lives
  refine ⟨hl.ids, fun n hn => advDebugEdges_eq (hl.edgesFrom_eq hn) (hl.lists n hn).edges_at,
    fun disk disk' flags hflags => ?_, fun hnodes hedges op hop hsettled hroom hroom' => ?_⟩
  · obtain ⟨db, hdb, hl', -, hre⟩ := hl.reopen disk disk' hflags
    exact ⟨db, hdb, fun _ => .inr hre.free_eq,
      fun n hn => advDebugEdges_eq (hl'.edgesFrom_eq hn) (hl'.lists n hn).edges_at⟩
  · obtain ⟨st', hst', -⟩ := (hl.step hop hsettled).exists_some
      (not_not.mpr ⟨⟨hgn hnodes, hroom⟩, hge hedges, hroom'⟩)
    exact ⟨st', hst'⟩

-- Three edges, of which one goes again, with the files opened before each change.
theorem graph_lives_three : ∃ st : DbRun, st.ids = [4, 5, 6] ∧ advDebugEdges st.db 4 = some [5] ∧
    advDebugEdges st.db 5 = some [4] := by
  have h : ((advOpen ⟨[], .granted⟩ ⟨[], .granted⟩ none ADV_CREATE).bind fun db =>
      (run Settled [.node, .node, .add 4 5] ⟨db, [], fun _ => []⟩).bind fun st =>
        (advOpen ⟨[], .granted⟩ ⟨[], .granted⟩ (some (advClose st.db)) 0).bind fun db =>
          (run Settled [.node, .add 4 6, .remove 5 6] { st with db }).bind fun st =>
            (advOpen ⟨[], .granted⟩ ⟨[], .granted⟩ (some (advClose st.db)) 0).bind fun db =>
              (run Settled [.add 5 4] { st with db }).bind fun st =>
                (advOpen ⟨[], .granted⟩ ⟨[], .granted⟩ (some (advClose st.db)) 0).bind fun db =>
                  (run Settled [.remove 4 6] { st with db }).map fun st =>
                    (st.ids, st.graph 4, st.graph 5)) = some ([4, 5, 6], [5], [4]) := by decide +kernel
  simp only [Option.map_eq_some_iff, Option.bind_eq_some_iff, Prod.mk.injEq] at h
  obtain ⟨db, hopen, st₁, hrun₁, db₁, hopen₁, st₂, hrun₂, db₂, hopen₂, st₃, hrun₃, db₃, hopen₃, st, hrun, hids,
    h₄, h₅⟩ := h
  have hlive₁ := ((Lived.opened hopen).run hrun₁).reopened _ _ 0 rfl hopen₁
  have hlive₂ := (hlive₁.run hrun₂).reopened _ _ 0 rfl hopen₂
  have hlive₃ := (hlive₂.run hrun₃).reopened _ _ 0 rfl hopen₃
  obtain ⟨-, hread, -⟩ := graph_lives (hlive₃.run hrun)
  exact ⟨st, hids, h₄ ▸ hread 4 (by simp [hids]), h₅ ▸ hread 5 (by simp [hids])⟩

end DbRun

end Adventure

import Adventure.Adv.Graph

namespace Adventure

open Memory Ends

namespace DbRun

variable {st st' : DbRun} {ptr : Nat → Nat} {nodesDisk edgesDisk : Disk}

theorem Space.room (h : Space st ptr) : 32 ≤ st.db.edges.endPos ∧ st.db.edges.endPos ≤ 112 := by
  cases h with
  | empty hf _ => omega
  | one _ _ _ he _ _ _ _ _ => omega

theorem Space.inside (h : Space st ptr) {n : Nat} (hn : n ∈ st.ids) (hptr : ptr n ≠ 0) :
    ptr n + (8 + 8 * (st.graph n).length) ≤ st.db.edges.endPos := by
  cases h with
  | empty _ hz => exact absurd (hz n hn).1 hptr
  | one a b _ he _ hp hg _ hz =>
      by_cases hna : n = a
      · subst hna
        rw [hp, hg, he, List.length_singleton]
      · exact absurd (hz n hn hna).1 hptr

-- What one operation does to the invariant.
theorem Kept.step {op : DbOp} (h : Kept st ptr) (hop : st.Permits op) (hsingle : st.Single op) :
    Meets (st.step op) (¬(st.db.nodes.Growable 16 ∧ st.db.edges.file.Grants)) fun st' =>
      (∃ ptr', Kept st' ptr') ∧
      (st.Untouched op → HeaderAt st.db.edges → HeaderAt st'.db.edges) ∧
      (st.db.nodes.file.Grants → st'.db.nodes.file.Grants) ∧
      (st.db.edges.file.Grants → st'.db.edges.file.Grants) := by
  have hroom := h.space.room
  have hgrow : ∀ n ≤ 16, st.db.edges.file.Grants → st.db.edges.Growable n :=
    fun n hn hg => ⟨hg, by omega⟩
  cases op with
  | node =>
      apply h.node.mono (mt And.left)
      rintro st' ⟨hk, he, hspent⟩
      rw [he]
      exact ⟨hk, fun _ hh => hh, hspent.grants, id⟩
  | add a b =>
      refine (h.add hop.1 hop.2 hsingle).mono (mt fun hg => hgrow 16 le_rfl hg.2) ?_
      rintro st' ⟨hk, hh, hspent, -, hgrants⟩
      exact ⟨hk, fun _ => hh, hgrants, hspent.grants⟩
  | remove a b =>
      by_cases hb : b ∈ st.graph a
      · refine (h.remove_present hop.1 hb).mono (mt fun hg => hgrow 8 (by omega) hg.2) ?_
        rintro st' ⟨hk, hspent, -, hgrants⟩
        exact ⟨hk, fun hu => absurd hb hu, hgrants, hspent.grants⟩
      · obtain ⟨st', hstep, hk, he, -, hgrants⟩ := h.remove_absent hop.1 hb
        rw [hstep]
        refine Meets.pure ⟨⟨ptr, hk⟩, ?_⟩
        rw [he]
        exact ⟨fun _ hh => hh, hgrants, id⟩

theorem open_inv {db : AdvDb} (hopen : advOpen nodesDisk edgesDisk none ADV_CREATE = some db) :
    storeOpen nodesDisk none STORE_O_CREAT = some db.nodes ∧
      storeOpen edgesDisk none STORE_O_CREAT = some db.edges := by
  have hdir : advDir none ADV_CREATE = some ⟨none, none⟩ := rfl
  have hflags : ADV_CREATE = STORE_O_CREAT := rfl
  rw [advOpen, hdir, Option.bind_eq_bind, Option.bind_some, Option.bind_eq_bind,
    Option.bind_eq_some_iff] at hopen
  obtain ⟨nodes, hnodes, hopen⟩ := hopen
  rw [Option.bind_eq_some_iff] at hopen
  obtain ⟨edges, hedges, hopen⟩ := hopen
  have hdb := Option.some.inj hopen
  rw [hflags] at hnodes hedges
  rw [← hdb]
  exact ⟨hnodes, hedges⟩

theorem Reached.kept (hst : Reached Single nodesDisk edgesDisk st) : (∃ ptr, Kept st ptr) ∧
    (nodesDisk.Grants → st.db.nodes.file.Grants) ∧
    (edgesDisk.Grants → st.db.edges.file.Grants) := by
  induction hst with
  | opened hopen =>
      obtain ⟨hnodes, hedges⟩ := open_inv hopen
      obtain ⟨-, -, -, hgn⟩ := (storeOpen_meets _).of_eq_some hnodes
      obtain ⟨hpool, he, hf, hge⟩ := (storeOpen_meets _).of_eq_some hedges
      exact ⟨⟨fun _ => 0, rfl, NodesAt.opened hnodes _, hpool.sound, .empty (Or.inl ⟨hf, he⟩)
        (by simp)⟩, hgn, hge⟩
  | step op _ hop hsingle hstep ih =>
      rcases ih with ⟨⟨ptr, hk⟩, hgn, hge⟩
      obtain ⟨hk', -, hgn', hge'⟩ := (hk.step hop hsingle).of_eq_some hstep
      exact ⟨hk', fun hg => hgn' (hgn hg), fun hg => hge' (hge hg)⟩

theorem Reached.header (hst : Reached Untouched nodesDisk edgesDisk st) : HeaderAt st.db.edges := by
  induction hst with
  | opened hopen => exact storeOpen_header (open_inv hopen).2
  | step op hst hop hu hstep ih =>
      obtain ⟨⟨ptr, hk⟩, -⟩ := (hst.mono fun _ _ => Untouched.single).kept
      obtain ⟨-, hheader, -⟩ := (hk.step hop hu.single).of_eq_some hstep
      exact hheader hu ih

-- The database is the reference graph, as long as an edge is only added while there is no other. An
-- operation returns, except where the nodes file would have to grow beyond 2^62 bytes.
theorem graph_refined (hst : Reached Single nodesDisk edgesDisk st) :
    (∀ n ∈ st.ids, advDebugEdges st.db n = some (st.graph n)) ∧
    (nodesDisk.Grants → edgesDisk.Grants → ∀ op, st.Permits op → st.Single op →
      st.db.nodes.endPos + 16 ≤ 2 ^ 62 → ∃ st', st.step op = some st') := by
  obtain ⟨⟨ptr, hk⟩, hgn, hge⟩ := hst.kept
  refine ⟨fun n hn => advDebugEdges_eq (hk.edgesFrom_eq hn) (hk.space.edgesAt hn),
    fun hnodes hedges op hop hsingle hroom => ?_⟩
  obtain ⟨st', hst', -⟩ := (hk.step hop hsingle).exists_some
    (not_not.mpr ⟨⟨hgn hnodes, hroom⟩, hge hedges⟩)
  exact ⟨st', hst'⟩

-- An edge goes and another one comes.
theorem graph_refined_two : ∃ st : DbRun, st.ids = [4, 5] ∧ advDebugEdges st.db 4 = some [] ∧
    advDebugEdges st.db 5 = some [4] := by
  have h : ((advOpen ⟨[], .granted⟩ ⟨[], .granted⟩ none ADV_CREATE).bind fun db =>
      run Single [.node, .node, .add 4 5, .remove 4 4, .remove 4 5, .add 5 4] ⟨db, [], fun _ => []⟩).map
        (fun st => (st.ids, st.graph 4, st.graph 5)) = some ([4, 5], [], [4]) := by decide +kernel
  simp only [Option.map_eq_some_iff, Option.bind_eq_some_iff, Prod.mk.injEq] at h
  obtain ⟨st, ⟨db, hopen, hrun⟩, hids, h₄, h₅⟩ := h
  obtain ⟨hread, -⟩ := graph_refined ((Reached.opened hopen).run hrun)
  exact ⟨st, hids, h₄ ▸ hread 4 (by simp [hids]), h₅ ▸ hread 5 (by simp [hids])⟩

-- The second edge gets page 0, which the first call freed, and its list is read as empty.
theorem graph_second_edge_lost : ∃ db st, advOpen ⟨[], .granted⟩ ⟨[], .granted⟩ none ADV_CREATE = some db ∧
    run (fun _ _ => True) [.node, .node, .add 4 5, .add 5 4] ⟨db, [], fun _ => []⟩ = some st ∧
    st.ids = [4, 5] ∧ st.graph 5 = [4] ∧ advDebugEdges st.db 5 = some [] := by
  have h : ((advOpen ⟨[], .granted⟩ ⟨[], .granted⟩ none ADV_CREATE).bind fun db =>
      (run (fun _ _ => True) [.node, .node, .add 4 5, .add 5 4] ⟨db, [], fun _ => []⟩).map
        (fun st => (st.ids, st.graph 5, advDebugEdges st.db 5))) = some ([4, 5], [4], some []) := by
    decide +kernel
  simp only [Option.map_eq_some_iff, Option.bind_eq_some_iff, Prod.mk.injEq] at h
  obtain ⟨db, hopen, st, hrun, hids, hgraph, hread⟩ := h
  exact ⟨db, st, hopen, hrun, hids, hgraph, hread⟩

-- The files hold their end pointers, and opening them again brings back all lists, as long as
-- there is no edge when one is added, and no edge that is removed.
theorem reopen_restores (hst : Reached Untouched nodesDisk edgesDisk st) :
    st.db.nodes.file.data.read 0 14 = STORE_MAGIC ++ encode 8 st.db.nodes.endPos ∧
    st.db.edges.file.data.read 0 14 = STORE_MAGIC ++ encode 8 st.db.edges.endPos ∧
    ∀ disk disk' flags, flags &&& ADV_CREATE = 0 → ∃ db,
      advOpen disk disk' (some (advClose st.db)) flags = some db ∧
      db.nodes.endPos = st.db.nodes.endPos ∧ db.edges.endPos = st.db.edges.endPos ∧
      ∀ n ∈ st.ids, advDebugEdges db n = some (st.graph n) ∧
        advDebugEdges st.db n = some (st.graph n) := by
  obtain ⟨⟨ptr, hk⟩, -⟩ := (hst.mono fun _ _ => Untouched.single).kept
  have hroom := hk.space.room
  have hne := hk.nodes.end_eq
  have hnle := hk.nodes.sound.end_le
  have hele := hk.sound.end_le
  refine ⟨hk.nodes.header.bytes, hst.header.bytes, fun disk disk' flags hflags => ?_⟩
  obtain ⟨nodes, hnodes, -, hnend, hnsize, hnsame⟩ :=
    hk.nodes.header.reopen hk.nodes.sound (by omega) disk flags
  obtain ⟨edges, hedges, -, heend, hesize, hesame⟩ := hst.header.reopen hk.sound (by omega) disk' flags
  refine ⟨⟨nodes, edges⟩, ?_, hnend, heend, fun n hn => ⟨advDebugEdges_eq (e := ptr n) ?_ ?_,
    advDebugEdges_eq (hk.edgesFrom_eq hn) (hk.space.edgesAt hn)⟩⟩
  · rw [advOpen, advDir, if_neg (not_not.mpr hflags), Option.bind_eq_bind, Option.bind_some, advClose,
      hnodes, Option.bind_eq_bind, Option.bind_some, hedges, Option.bind_some]
    rfl
  · have hlt := (hk.mem_ids.mp hn).2
    have hfrom := hk.edgesFrom_eq hn
    rw [nodesEdgesFrom, hk.nodes.slot_eq hlt.le, storeReadUi64_eq] at hfrom ⊢
    rw [← hfrom]
    exact word_congr (hnsame.mono (by omega) (by omega))
  · have he := hk.space.edgesAt hn
    unfold EdgesAt at he ⊢
    split
    · rwa [if_pos ‹_›] at he
    · rw [if_neg ‹_›] at he
      have hin := hk.space.inside hn ‹_›
      exact he.congr (hesame.mono (Nat.zero_le _) (by omega))

theorem reopen_restores_one : ∃ st : DbRun, st.graph 4 = [5] ∧
    st.db.edges.file.data.read 0 14 = STORE_MAGIC ++ encode 8 st.db.edges.endPos ∧
    ∃ db, advOpen ⟨[], .granted⟩ ⟨[], .granted⟩ (some (advClose st.db)) 0 = some db ∧
      advDebugEdges db 4 = some [5] := by
  have h : ((advOpen ⟨[], .granted⟩ ⟨[], .granted⟩ none ADV_CREATE).bind fun db =>
      run Untouched [.node, .node, .remove 4 5, .add 4 5, .remove 5 4] ⟨db, [], fun _ => []⟩).map
        (fun st => (st.ids, st.graph 4)) = some ([4, 5], [5]) := by decide +kernel
  simp only [Option.map_eq_some_iff, Option.bind_eq_some_iff, Prod.mk.injEq] at h
  obtain ⟨st, ⟨db, hopen, hrun⟩, hids, hgraph⟩ := h
  obtain ⟨-, hedges, hreopen⟩ := reopen_restores ((Reached.opened hopen).run hrun)
  obtain ⟨db', hdb', -, -, hread⟩ := hreopen ⟨[], .granted⟩ ⟨[], .granted⟩ 0 (by decide)
  exact ⟨st, hgraph, hedges, db', hdb', hgraph ▸ (hread 4 (by simp [hids])).1⟩

-- Removing the edge again writes a block over the magic string, and the database does not come back
-- with the same end.
theorem header_overwritten : ∃ db st, advOpen ⟨[], .granted⟩ ⟨[], .granted⟩ none ADV_CREATE = some db ∧
    run (fun _ _ => True) [.node, .node, .add 4 5, .remove 4 5] ⟨db, [], fun _ => []⟩ = some st ∧
    st.db.edges.file.data.read 0 14 ≠ STORE_MAGIC ++ encode 8 st.db.edges.endPos ∧
    ∃ db', advOpen ⟨[], .granted⟩ ⟨[], .granted⟩ (some (advClose st.db)) 0 = some db' ∧
      db'.edges.endPos ≠ st.db.edges.endPos := by
  have h : ((advOpen ⟨[], .granted⟩ ⟨[], .granted⟩ none ADV_CREATE).bind fun db =>
      (run (fun _ _ => True) [.node, .node, .add 4 5, .remove 4 5] ⟨db, [], fun _ => []⟩).bind fun st =>
        (advOpen ⟨[], .granted⟩ ⟨[], .granted⟩ (some (advClose st.db)) 0).map fun db' =>
          (decide (st.db.edges.file.data.read 0 14 ≠ STORE_MAGIC ++ encode 8 st.db.edges.endPos),
            decide (db'.edges.endPos ≠ st.db.edges.endPos))) = some (true, true) := by decide +kernel
  simp only [Option.map_eq_some_iff, Option.bind_eq_some_iff, Prod.mk.injEq, decide_eq_true_eq] at h
  obtain ⟨db, hopen, st, hrun, db', hdb', hbytes, hend⟩ := h
  exact ⟨db, st, hopen, hrun, hbytes, db', hdb', hend⟩

end DbRun

end Adventure

import Adventure.Nodes.Slots

namespace Adventure

open Memory Ends

-- A nodes store in use: for each call of nodes_add the id it returned and the address that
-- store_alloc returned to it, and the array that the store stands for.
structure NodesRun where
  nodes : Store
  slots : List (Nat × Nat)
  ptr : Nat → Nat

inductive NodesOp
  | add
  | set (n e : Nat)

namespace NodesRun

def ids (st : NodesRun) : List Nat := st.slots.map Prod.fst

def step (st : NodesRun) : NodesOp → Option NodesRun
  | .add => do
      let page ← storeAlloc st.nodes NODES_ITEM_SZ
      let r ← nodesAdd st.nodes
      return ⟨r.2, st.slots ++ [(r.1, page.1)], Function.update st.ptr r.1 0⟩
  | .set n e => some ⟨nodesEdgesSet st.nodes n e, st.slots, Function.update st.ptr n e⟩

def Permits (st : NodesRun) : NodesOp → Prop
  | .add => True
  | .set n e => n ∈ st.ids ∧ e < 2 ^ 64

instance (st : NodesRun) : (op : NodesOp) → Decidable (st.Permits op)
  | .add => .isTrue trivial
  | .set n e => inferInstanceAs (Decidable (n ∈ st.ids ∧ e < 2 ^ 64))

-- The states of all runs on a new file.
inductive Reached (disk : Disk) : NodesRun → Prop
  | opened {s : Store} : storeOpen disk none STORE_O_CREAT = some s → Reached disk ⟨s, [], fun _ => 0⟩
  | step {st st' : NodesRun} (op : NodesOp) : Reached disk st → st.Permits op → st.step op = some st' →
      Reached disk st'

-- A run that stops at an operation that is not permitted.
def run (st : NodesRun) : List NodesOp → Option NodesRun
  | [] => some st
  | op :: ops => if st.Permits op then (st.step op).bind (run · ops) else none

theorem Reached.run {disk : Disk} {ops : List NodesOp} {st st' : NodesRun} (hst : Reached disk st)
    (hrun : st.run ops = some st') : Reached disk st' :=
  guarded_rule (fun ops st => st.run ops) NodesRun.Permits NodesRun.step (Reached disk) (fun _ => rfl) (fun _ _ _ => rfl)
    (fun _ op _ hst hop hstep => .step op hst hop hstep) hst hrun

-- The invariant of a run: ids are given out in order, each for the next 16 bytes of the file.
structure Kept (st : NodesRun) : Prop where
  nodes : NodesAt st.nodes st.slots.length st.ptr
  slots : st.slots = (List.range st.slots.length).map fun i => (FIRST_NODE + i, 32 + 16 * (FIRST_NODE + i))

variable {st st' : NodesRun}

theorem Kept.ids_eq (h : Kept st) : st.ids = (List.range st.slots.length).map (FIRST_NODE + ·) := by
  have hs := congrArg (List.map Prod.fst) h.slots
  rw [List.map_map] at hs
  exact hs

theorem Kept.mem_ids (h : Kept st) {n : Nat} :
    n ∈ st.ids ↔ FIRST_NODE ≤ n ∧ n < FIRST_NODE + st.slots.length := by
  rw [h.ids_eq, ← List.range'_eq_map_range, List.mem_range'_1]

theorem Kept.add (h : Kept st) : Meets (st.step .add) (¬st.nodes.Growable 16) fun st' => Kept st' ∧
    (st.nodes.file.Grants → st'.nodes.file.Grants) := by
  apply Meets.bind h.nodes.alloc_meets
  rintro ⟨p, s⟩ ⟨hp, -⟩
  apply Meets.bind h.nodes.add_meets
  rintro ⟨n, nodes⟩ ⟨hn, hnodes, hspent⟩
  simp only at hp hn hnodes
  subst hp hn
  refine Meets.pure ⟨⟨?_, ?_⟩, hspent.grants⟩
  · rw [List.length_append, List.length_singleton]
    exact hnodes
  · rw [List.length_append, List.length_singleton, List.range_succ, List.map_append, ← h.slots]
    rfl

theorem Kept.step {op : NodesOp} (h : Kept st) (hop : st.Permits op) (hstep : st.step op = some st') :
    Kept st' ∧ (st.nodes.file.Grants → st'.nodes.file.Grants) := by
  cases op with
  | add => exact h.add.of_eq_some hstep
  | set n e =>
      obtain rfl := Option.some.inj hstep
      exact ⟨⟨h.nodes.edgesSet (h.mem_ids.mp hop.1).2 hop.2, h.slots⟩, id⟩

theorem Reached.kept {disk : Disk} (hst : Reached disk st) :
    Kept st ∧ (disk.Grants → st.nodes.file.Grants) := by
  induction hst with
  | opened hopen => exact ⟨⟨NodesAt.opened hopen _, rfl⟩, ((storeOpen_meets disk).of_eq_some hopen).2.2.2⟩
  | step op _ hop hstep ih =>
      obtain ⟨hk, hg⟩ := ih.1.step hop hstep
      exact ⟨hk, fun h => hg (ih.2 h)⟩

-- The slots of the nodes are an array. A call of nodes_add returns, except where the file would
-- have to grow beyond 2^62 bytes.
theorem nodes_array {disk : Disk} (hdisk : disk.Grants) (hst : Reached disk st) :
    st.ids.Nodup ∧
    (∀ slot ∈ st.slots, add64 NODES_HEADER_SZ (mul64 NODES_ITEM_SZ slot.1) = slot.2 ∧
      slot.2 = 32 + 16 * slot.1 ∧ slot.2 + NODES_ITEM_SZ ≤ st.nodes.endPos) ∧
    (∀ n ∈ st.ids, nodesEdgesFrom st.nodes n = st.ptr n) ∧
    (st.nodes.endPos + 16 ≤ 2 ^ 62 → ∃ st', st.step .add = some st') := by
  obtain ⟨hk, hgrants⟩ := hst.kept
  have hend := hk.nodes.end_eq
  refine ⟨?_, ?_, ?_, fun hroom => ?_⟩
  · rw [hk.ids_eq]
    exact List.nodup_range.map fun i j hij => Nat.add_left_cancel hij
  · intro slot hslot
    rw [hk.slots, List.mem_map] at hslot
    obtain ⟨i, hi, rfl⟩ := hslot
    have hlt := List.mem_range.mp hi
    have hsz : NODES_ITEM_SZ = 16 := rfl
    exact ⟨hk.nodes.slot_eq (by omega), rfl, by omega⟩
  · intro n hn
    obtain ⟨hlo, hhi⟩ := hk.mem_ids.mp hn
    exact hk.nodes.edgesFrom_eq hlo hhi
  · obtain ⟨st', hst', -⟩ := hk.add.exists_some (not_not.mpr ⟨hgrants hdisk, hroom⟩)
    exact ⟨st', hst'⟩

theorem nodes_array_three : ∃ st : NodesRun, st.slots = [(4, 96), (5, 112), (6, 128)] ∧
    (nodesEdgesFrom st.nodes 4, nodesEdgesFrom st.nodes 5, nodesEdgesFrom st.nodes 6) = (9, 8, 0) := by
  have h : ((storeOpen ⟨[], .granted⟩ none STORE_O_CREAT).bind fun s =>
      run ⟨s, [], fun _ => 0⟩ [.add, .set 4 7, .add, .add, .set 5 8, .set 4 9]).map
        (fun st => (st.slots, st.ptr 4, st.ptr 5, st.ptr 6)) =
          some ([(4, 96), (5, 112), (6, 128)], 9, 8, 0) := by decide +kernel
  simp only [Option.map_eq_some_iff, Option.bind_eq_some_iff, Prod.mk.injEq] at h
  obtain ⟨st, ⟨s, hopen, hrun⟩, hslots, h₄, h₅, h₆⟩ := h
  obtain ⟨-, -, hfrom, -⟩ := nodes_array ⟨rfl, by simp⟩ ((Reached.opened hopen).run hrun)
  have hids : st.ids = [4, 5, 6] := by rw [ids, hslots]; rfl
  refine ⟨st, hslots, ?_⟩
  rw [hfrom 4 (by simp [hids]), hfrom 5 (by simp [hids]), hfrom 6 (by simp [hids]), h₄, h₅, h₆]

-- nodes_count takes the page of the free root for four more nodes, and nodes_add numbers from 4 on.
-- So the loop of adv_debug_print visits what is not a node.
theorem nodes_count_off {disk : Disk} (hst : Reached disk st) :
    nodesCount st.nodes = st.slots.length + 4 ∧
    st.ids = (List.range st.slots.length).map (4 + ·) ∧
    nodesCount st.nodes ≠ st.slots.length ∧
    (st.slots ≠ [] → st.ids ≠ List.range st.slots.length) ∧
    ∃ n ∈ List.range (nodesCount st.nodes), n ∉ st.ids := by
  obtain ⟨hk, -⟩ := hst.kept
  have hcount : nodesCount st.nodes = 4 + st.slots.length := hk.nodes.count_eq
  refine ⟨by omega, hk.ids_eq, by omega, fun hne he => ?_, 0, List.mem_range.mpr (by omega), ?_⟩
  · have hpos := List.length_pos_iff.mpr hne
    have hzero : 0 ∈ st.ids := he ▸ List.mem_range.mpr hpos
    exact absurd (hk.mem_ids.mp hzero).1 (by decide)
  · exact fun hzero => absurd (hk.mem_ids.mp hzero).1 (by decide)

theorem nodes_count_off_two : ∃ st : NodesRun, st.slots.length = 2 ∧ nodesCount st.nodes = 6 ∧
    st.ids = [4, 5] := by
  have h : ((storeOpen ⟨[], .granted⟩ none STORE_O_CREAT).bind fun s =>
      run ⟨s, [], fun _ => 0⟩ [.add, .set 4 7, .add]).map (fun st => st.slots.length) = some 2 := by
    decide +kernel
  simp only [Option.map_eq_some_iff, Option.bind_eq_some_iff] at h
  obtain ⟨st, ⟨s, hopen, hrun⟩, hlen⟩ := h
  obtain ⟨hcount, hids, -⟩ := nodes_count_off ((Reached.opened hopen).run hrun)
  rw [hlen] at hcount hids
  exact ⟨st, hlen, hcount, hids⟩

-- The first id is 4, and a store with one node counts five.
theorem nodes_add_first : ∃ s r, storeOpen ⟨[], .granted⟩ none STORE_O_CREAT = some s ∧
    nodesAdd s = some r ∧ r.1 = 4 ∧ nodesCount r.2 = 5 := by
  have h : ((storeOpen ⟨[], .granted⟩ none STORE_O_CREAT).bind fun s =>
      (nodesAdd s).map fun r => (r.1, nodesCount r.2)) = some (4, 5) := by decide +kernel
  simp only [Option.map_eq_some_iff, Option.bind_eq_some_iff, Prod.mk.injEq] at h
  obtain ⟨s, hopen, r, hr, hid, hcount⟩ := h
  exact ⟨s, r, hopen, hr, hid, hcount⟩

end NodesRun

end Adventure

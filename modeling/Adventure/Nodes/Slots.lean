import Adventure.Nodes
import Adventure.Store.Header
import Mathlib.Logic.Function.Basic

namespace Adventure

open Memory Ends

-- The page of the free root lies where the slots of the nodes below this one would be.
def FIRST_NODE : Nat := 4

-- A nodes store with `count` nodes, as an array of the pointers to their edges.
structure NodesAt (nodes : Store) (count : Nat) (ptr : Nat → Nat) : Prop where
  sound : nodes.Sound
  header : HeaderAt nodes
  free : nodes.freeList = some []
  end_eq : nodes.endPos = 32 + 16 * (FIRST_NODE + count)
  slots : ∀ n, FIRST_NODE ≤ n → n < FIRST_NODE + count → nodes.file.data.word (32 + 16 * n) = ptr n

namespace NodesAt

variable {nodes : Store} {count n e : Nat} {ptr : Nat → Nat}

theorem slot_eq (h : NodesAt nodes count ptr) (hn : n ≤ FIRST_NODE + count) :
    add64 NODES_HEADER_SZ (mul64 NODES_ITEM_SZ n) = 32 + 16 * n := by
  have hend := h.end_eq
  have hle := h.sound.end_le
  have hlt := h.sound.size_lt
  rw [NODES_HEADER_SZ, NODES_ITEM_SZ, mul64_eq (by omega), add64_eq (by omega)]

theorem count_eq (h : NodesAt nodes count ptr) : nodesCount nodes = FIRST_NODE + count := by
  have hend := h.end_eq
  have hle := h.sound.end_le
  have hlt := h.sound.size_lt
  rw [nodesCount, NODES_HEADER_SZ, NODES_ITEM_SZ, sub64_eq (by omega) (by omega)]
  omega

theorem edgesFrom_eq (h : NodesAt nodes count ptr) (hlo : FIRST_NODE ≤ n) (hn : n < FIRST_NODE + count) :
    nodesEdgesFrom nodes n = ptr n := by
  rw [nodesEdgesFrom, h.slot_eq hn.le, storeReadUi64_eq, h.slots n hlo hn]

theorem edgesSet_mod (h : NodesAt nodes count ptr) (hn : n < FIRST_NODE + count) (e : Nat) :
    NodesAt (nodesEdgesSet nodes n e) count (Function.update ptr n (e % 2 ^ 64)) := by
  have hw := setWord_only nodes.file.data (32 + 16 * n) e
  rw [nodesEdgesSet, h.slot_eq hn.le, storeWriteUi64_eq]
  refine ⟨⟨h.sound.end_le, h.sound.size_pos, h.sound.size_lt⟩, h.header.congr (hw.same (by omega)),
    h.free, h.end_eq, fun m hlo hm => ?_⟩
  rw [setData_data]
  by_cases hnm : m = n
  · subst hnm
    rw [Function.update_self, word_setWord]
  · rw [Function.update_of_ne hnm, ← h.slots m hlo hm]
    exact word_congr (hw.same (by omega))

theorem edgesSet (h : NodesAt nodes count ptr) (hn : n < FIRST_NODE + count) (he : e < 2 ^ 64) :
    NodesAt (nodesEdgesSet nodes n e) count (Function.update ptr n e) := by
  have hset := h.edgesSet_mod hn e
  rwa [Nat.mod_eq_of_lt he] at hset

-- What store_alloc hands out for a node is the slot of its id.
theorem alloc_meets (h : NodesAt nodes count ptr) :
    Meets (storeAlloc nodes NODES_ITEM_SZ) (¬nodes.Growable 16) fun r =>
      r.1 = 32 + 16 * (FIRST_NODE + count) ∧ r.2.endPos = 32 + 16 * (FIRST_NODE + (count + 1)) ∧
        r.2.freeList = some [] ∧ Allocated nodes 16 r.1 r.2 := by
  apply (storeAlloc_meets h.sound 16).mono id
  rintro ⟨p, s⟩ ha
  obtain ⟨hp, he, hfree⟩ := ha.of_empty h.free
  have hend := h.end_eq
  exact ⟨hp.trans hend, by omega, hfree, ha⟩

theorem add_meets (h : NodesAt nodes count ptr) :
    Meets (nodesAdd nodes) (¬nodes.Growable 16) fun r => r.1 = FIRST_NODE + count ∧
      NodesAt r.2 (count + 1) (Function.update ptr (FIRST_NODE + count) 0) ∧ Spent nodes r.2 16 := by
  have hid : sub64 nodes.endPos NODES_HEADER_SZ / NODES_ITEM_SZ = FIRST_NODE + count := h.count_eq
  have hend := h.end_eq
  have hle := h.sound.end_le
  rw [nodesAdd, hid]
  apply Meets.bind h.alloc_meets
  rintro ⟨p, s⟩ ⟨hp, he, hfree, ha⟩
  simp only at hp he hfree
  have hs : s.Sound := ha.sound h.sound
  have hsle := hs.end_le
  have hslt := hs.size_lt
  have hh := h.header.allocated (by omega) ha
  have hw₁ := setWord_only s.file.data p 0
  have hw₂ := setWord_only (s.file.data.setWord p 0) (p + 8) 0
  have hw : Only s.file.data ((s.file.data.setWord p 0).setWord (p + 8) 0) p 16 :=
    (hw₁.mono le_rfl (by omega)).trans (hw₂.mono (by omega) (by omega))
  simp only [storeWriteUi64_eq, setData_data, setData_setData, add64_eq (show p + 8 < 2 ^ 64 by omega)]
  refine Meets.pure ⟨rfl, ⟨⟨hsle, hs.size_pos, hslt⟩, hh.congr (hw.same (by omega)), hfree, he,
    fun m hlo hm => ?_⟩, ha.spent.setData _⟩
  rw [setData_data]
  by_cases hnew : m = FIRST_NODE + count
  · subst hnew
    rw [Function.update_self, ← hp, word_congr (hw₂.same (by omega)), word_setWord,
      Nat.zero_mod]
  · rw [Function.update_of_ne hnew, ← h.slots m hlo (by omega),
      word_congr (hw.same (by omega)), word_congr (ha.same (by omega) (by omega))]

theorem reopened {s : Store} (h : NodesAt nodes count ptr) (hr : Reopened nodes s) : NodesAt s count ptr := by
  have hend := h.end_eq
  have hle := h.sound.end_le
  refine ⟨hr.sound, hr.header, hr.free_eq, hr.end_eq.trans hend, fun m hlo hm => ?_⟩
  rw [← h.slots m hlo hm]
  exact word_congr (hr.same.mono (Nat.zero_le _) (by omega))

theorem opened {disk : Disk} {s : Store} (hopen : storeOpen disk none STORE_O_CREAT = some s)
    (ptr : Nat → Nat) : NodesAt s 0 ptr := by
  obtain ⟨hpool, hend, hfree, -⟩ := (storeOpen_meets disk).of_eq_some hopen
  exact ⟨hpool.sound, storeOpen_header hopen, hfree, hend, fun n hlo hn => by omega⟩

end NodesAt

end Adventure

import Adventure.Struct.List
import Adventure.Store.Alloc
import Mathlib.Data.Finset.Card
import Mathlib.Data.Finset.Range

namespace Adventure

open Links

-- The list with the elements and values `cells`, from the first to the last.
structure IsList (h : ListHeap) (list : ListHdr) (cells : List (Nat × Nat)) : Prop where
  linked : Segment h 0 list.first cells list.last 0
  nodup : (addrs cells).Nodup
  addr : ∀ a ∈ addrs cells, 0 < a ∧ a < 2 ^ 64
  count : list.count = cells.length

section Heap

variable (h : ListHeap) (elem val : Nat)

theorem calloc_setVal : (h.calloc elem).setVal elem val =
    some (Function.update h elem (some ⟨0, 0, val⟩)) := by
  simp [ListHeap.calloc, ListHeap.setVal]

theorem setPrev_update (node : Listelem) (prev : Nat) :
    ListHeap.setPrev (Function.update h elem (some node)) elem prev =
      some (Function.update h elem (some { node with prev })) := by
  simp [ListHeap.setPrev]

theorem setNext_update (node : Listelem) (next : Nat) :
    ListHeap.setNext (Function.update h elem (some node)) elem next =
      some (Function.update h elem (some { node with next })) := by
  simp [ListHeap.setNext]

variable {h elem} {node : Listelem}

theorem setPrev_eq (hnode : h elem = some node) (prev : Nat) :
    h.setPrev elem prev = some (Function.update h elem (some { node with prev })) := by
  rw [ListHeap.setPrev, hnode]
  rfl

theorem setNext_eq (hnode : h elem = some node) (next : Nat) :
    h.setNext elem next = some (Function.update h elem (some { node with next })) := by
  rw [ListHeap.setNext, hnode]
  rfl

end Heap

theorem isList_create (h : ListHeap) : IsList h listCreate [] where
  linked := ⟨rfl, rfl⟩
  nodup := List.nodup_nil
  addr := by simp
  count := rfl

namespace IsList

variable {h : ListHeap} {list : ListHdr} {cells before after : List (Nat × Nat)} {elem val : Nat}

theorem congr {h' : ListHeap} (hl : IsList h list cells) (heq : ∀ a ∈ addrs cells, h' a = h a) :
    IsList h' list cells :=
  { hl with linked := hl.linked.congr_of_eq heq }

-- There are fewer elements than addresses, so that the count does not wrap around.
theorem length_lt (hnodup : (addrs cells).Nodup) (haddr : ∀ a ∈ addrs cells, 0 < a ∧ a < 2 ^ 64) :
    cells.length < 2 ^ 64 := by
  have hsub : insert 0 (addrs cells).toFinset ⊆ Finset.range (2 ^ 64) := by
    intro a ha
    rw [Finset.mem_insert, List.mem_toFinset] at ha
    rw [Finset.mem_range]
    rcases ha with rfl | ha
    · exact Nat.two_pow_pos 64
    · exact (haddr a ha).2
  have hcard := Finset.card_le_card hsub
  have hzero : 0 ∉ (addrs cells).toFinset := fun hm =>
    absurd (haddr 0 (List.mem_toFinset.mp hm)).1 (Nat.lt_irrefl 0)
  rw [Finset.card_insert_of_notMem hzero, Finset.card_range, List.toFinset_card_of_nodup hnodup,
    addrs, List.length_map] at hcard
  omega

theorem notMem_of_fresh (hl : IsList h list cells) (hfresh : h elem = none) : elem ∉ addrs cells := by
  intro hm
  obtain ⟨node, hnode⟩ := hl.linked.exists_node hm
  rw [hfresh] at hnode
  cases hnode

theorem first_ne_zero (hl : IsList h list cells) (hne : cells ≠ []) : list.first ≠ 0 := by
  cases cells with
  | nil => exact absurd rfl hne
  | cons cell cells =>
      have hpos := (hl.addr cell.1 (by simp)).1
      rw [hl.linked.first_eq]
      omega

theorem last_ne_zero (hl : IsList h list cells) (hne : cells ≠ []) : list.last ≠ 0 := by
  cases cells using List.reverseRecOn with
  | nil => exact absurd rfl hne
  | append_singleton cells cell _ =>
      have hpos := (hl.addr cell.1 (by simp)).1
      rw [hl.linked.last_eq]
      omega

theorem first_eq_zero (hl : IsList h list []) : list.first = 0 := hl.linked.1

theorem last_eq_zero (hl : IsList h list []) : list.last = 0 := hl.linked.2

section Add

variable (hl : IsList h list cells) (hpos : 0 < elem) (hlt : elem < 2 ^ 64) (hfresh : h elem = none)

include hl hpos hlt hfresh

theorem push (val : Nat) : ∃ h' list', listPush h list val elem = some (h', list') ∧
    IsList h' list' (cells ++ [(elem, val)]) ∧ Frame h h' (elem :: addrs cells) := by
  have hout := hl.notMem_of_fresh hfresh
  have hnodup : (addrs (cells ++ [(elem, val)])).Nodup := by
    rw [addrs_append, List.nodup_append']
    exact ⟨hl.nodup, by simp, by simpa using hout⟩
  have haddr : ∀ a ∈ addrs (cells ++ [(elem, val)]), 0 < a ∧ a < 2 ^ 64 := by
    simp only [addrs_append, List.forall_mem_append]
    exact ⟨hl.addr, by simpa using ⟨hpos, hlt⟩⟩
  have hcount : add64 list.count 1 = (cells ++ [(elem, val)]).length := by
    have hlen := length_lt hnodup haddr
    rw [List.length_append, List.length_singleton] at hlen ⊢
    rw [hl.count, add64_eq hlen]
  simp only [listPush, calloc_setVal, Option.bind_eq_bind, Option.bind_some]
  cases cells using List.reverseRecOn with
  | nil =>
      rw [if_neg (not_not.mpr hl.last_eq_zero)]
      refine ⟨_, _, rfl, ⟨?_, hnodup, haddr, hcount⟩, .mono (.update h elem _) (by simp)⟩
      exact Segment.singleton_iff.mpr ⟨rfl, rfl, Function.update_self ..⟩
  | append_singleton cells cell _ =>
      have hlast := hl.linked.last_eq
      have hself : elem ≠ list.last := by
        rw [hlast]
        rintro rfl
        exact hout (by simp)
      obtain ⟨node, hnode, hlinked⟩ := (hl.linked.congr (.update h elem (some ⟨list.last, 0, val⟩))
        (by simpa using hout)).set_next hl.nodup elem
      rw [if_pos (hl.last_ne_zero (by simp)), setPrev_update, Option.bind_some, setNext_eq hnode]
      refine ⟨_, _, rfl, ⟨?_, hnodup, haddr, hcount⟩,
        .mono ((Frame.update h elem _).trans (.update _ list.last _)) (by simp [hlast])⟩
      refine Segment.append_iff.mpr ⟨_, _, hlinked, Segment.singleton_iff.mpr ⟨rfl, rfl, ?_⟩⟩
      rw [Function.update_of_ne hself, Function.update_self]

theorem unshift (val : Nat) : ∃ h' list', listUnshift h list val elem = some (h', list') ∧
    IsList h' list' ((elem, val) :: cells) ∧ Frame h h' (elem :: addrs cells) := by
  have hout := hl.notMem_of_fresh hfresh
  have hnodup : (addrs ((elem, val) :: cells)).Nodup := List.nodup_cons.mpr ⟨hout, hl.nodup⟩
  have haddr : ∀ a ∈ addrs ((elem, val) :: cells), 0 < a ∧ a < 2 ^ 64 :=
    List.forall_mem_cons.mpr ⟨⟨hpos, hlt⟩, hl.addr⟩
  have hcount : add64 list.count 1 = ((elem, val) :: cells).length := by
    have hlen := length_lt hnodup haddr
    rw [List.length_cons] at hlen ⊢
    rw [hl.count, add64_eq hlen]
  simp only [listUnshift, calloc_setVal, setPrev_update, setNext_update, Option.bind_eq_bind,
    Option.bind_some]
  cases cells with
  | nil =>
      rw [if_neg (not_not.mpr hl.first_eq_zero)]
      refine ⟨_, _, rfl, ⟨?_, hnodup, haddr, hcount⟩, .mono (.update h elem _) (by simp)⟩
      refine Segment.singleton_iff.mpr ⟨rfl, rfl, ?_⟩
      rw [Function.update_self, hl.first_eq_zero]
  | cons cell cells =>
      have hfirst := hl.linked.first_eq
      have hself : elem ≠ list.first := by
        rw [hfirst]
        rintro rfl
        exact hout (by simp)
      obtain ⟨node, hnode, hlinked⟩ := (hl.linked.congr (.update h elem (some ⟨0, list.first, val⟩))
        (by simpa using hout)).set_prev hl.nodup elem
      rw [if_pos (hl.first_ne_zero (List.cons_ne_nil _ _)), setPrev_eq hnode]
      refine ⟨_, _, rfl, ⟨?_, hnodup, haddr, hcount⟩,
        .mono ((Frame.update h elem _).trans (.update _ list.first _)) (by simp [hfirst])⟩
      refine ⟨rfl, list.first, ?_, hlinked⟩
      rw [Function.update_of_ne hself, Function.update_self]

end Add

section Remove

variable (hl : IsList h list (before ++ (elem, val) :: after))

include hl

-- The removed element between its neighbours.
theorem around : ∃ l f, Segment h 0 list.first before l elem ∧
    h elem = some ⟨l, f, val⟩ ∧ Segment h elem f after list.last 0 := by
  obtain ⟨l, f, hb, rfl, next, hnode, ha⟩ := Segment.append_iff.mp hl.linked
  exact ⟨l, next, hb, hnode, ha⟩

theorem notMem_middle : elem ∉ addrs before ∧ elem ∉ addrs after := by
  have hn := hl.nodup
  rw [addrs_append, addrs_cons, List.nodup_append', List.nodup_cons] at hn
  exact ⟨fun hm => hn.2.2 hm (by simp), hn.2.1.1⟩

theorem nodup_rest : (addrs (before ++ after)).Nodup := by
  have hsub : (before ++ after).Sublist (before ++ (elem, val) :: after) := by simp
  exact hl.nodup.sublist (hsub.map _)

theorem eq_first_iff : elem = list.first ↔ before = [] := by
  cases before with
  | nil => exact iff_of_true hl.linked.first_eq.symm rfl
  | cons cell before =>
      refine iff_of_false (fun he => ?_) (List.cons_ne_nil _ _)
      rw [hl.linked.first_eq] at he
      exact hl.notMem_middle.1 (by simp [he])

theorem eq_last_iff : elem = list.last ↔ after = [] := by
  cases after using List.reverseRecOn with
  | nil => exact iff_of_true hl.linked.last_eq.symm rfl
  | append_singleton after cell _ =>
      have hlinked : Segment h 0 list.first (before ++ (elem, val) :: after ++ [cell]) list.last 0 := by
        simpa using hl.linked
      have hlast := hlinked.last_eq
      refine iff_of_false (fun he => ?_) (by simp)
      exact hl.notMem_middle.2 (by simp [he, hlast])

-- list_remove links the neighbours with each other, in each of its four cases.
theorem unlink : ∃ h' list', listUnlink h list elem = some (h', list') ∧
    Segment h' 0 list'.first (before ++ after) list'.last 0 ∧
    Frame h h' (addrs before ++ addrs after) ∧ list'.count = list.count := by
  obtain ⟨l, f, hb, hnode, ha⟩ := hl.around
  obtain ⟨hmb, hma⟩ := hl.notMem_middle
  have hnodup : (addrs (before ++ after)).Nodup := hl.nodup_rest
  have hn := hnodup
  rw [addrs_append, List.nodup_append'] at hn
  obtain ⟨hnb, hna, -⟩ := hn
  unfold listUnlink
  by_cases hfirst : elem = list.first
  · have hbefore := hl.eq_first_iff.mp hfirst
    subst hbefore
    obtain ⟨-, rfl⟩ := hb
    by_cases hlast : elem = list.last
    · -- the only element
      have hafter := hl.eq_last_iff.mp hlast
      subst hafter
      rw [if_pos ⟨hfirst, hlast⟩]
      exact ⟨h, _, rfl, ⟨rfl, rfl⟩, (Frame.refl h).mono (by simp), rfl⟩
    · -- the first one of several
      rw [if_neg fun hand => hlast hand.2, if_neg hlast, if_pos hfirst]
      simp only [hnode, Option.bind_eq_bind, Option.bind_some]
      cases after with
      | nil => exact absurd (hl.eq_last_iff.mpr rfl) hlast
      | cons cell after =>
          obtain ⟨node, hf, hs⟩ := ha.set_prev hna 0
          rw [setPrev_eq hf]
          refine ⟨_, _, rfl, hs, (Frame.update h f _).mono ?_, rfl⟩
          rw [ha.first_eq]
          simp
  · rw [if_neg fun hand => hfirst hand.1]
    cases before using List.reverseRecOn with
    | nil => exact absurd (hl.eq_first_iff.mpr rfl) hfirst
    | append_singleton before cell _ =>
        have hcell : l = cell.1 := hb.last_eq
        by_cases hlast : elem = list.last
        · -- the last one of several
          have hafter := hl.eq_last_iff.mp hlast
          subst hafter
          rw [if_pos hlast]
          simp only [hnode, Option.bind_eq_bind, Option.bind_some]
          obtain ⟨node, hl', hs⟩ := hb.set_next hnb 0
          rw [setNext_eq hl']
          refine ⟨_, _, rfl, by simpa using hs, (Frame.update h l _).mono ?_, rfl⟩
          simp [hcell]
        · -- one in the middle
          rw [if_neg hlast, if_neg hfirst]
          simp only [hnode, Option.bind_eq_bind, Option.bind_some]
          cases after with
          | nil => exact absurd (hl.eq_last_iff.mpr rfl) hlast
          | cons next after =>
              have hnext : f = next.1 := ha.first_eq
              have hself : elem ≠ l := by
                rintro rfl
                exact hmb (by simp [hcell])
              obtain ⟨node, node', hl', hf, hs⟩ := hb.bridge ha hnodup
              rw [setNext_eq hl', Option.bind_some, Function.update_of_ne hself, hnode,
                Option.bind_some, setPrev_eq hf]
              refine ⟨_, _, rfl, hs, ((Frame.update h l _).trans (.update _ f _)).mono ?_, rfl⟩
              simp [hcell, hnext]

theorem remove : ∃ h' list', listRemove h list elem = some (val, h', list') ∧
    IsList h' list' (before ++ after) ∧ h' elem = none ∧
    Frame h h' (elem :: (addrs before ++ addrs after)) := by
  obtain ⟨h₁, list₁, hunlink, hs, hf, hcount⟩ := hl.unlink
  obtain ⟨l, f, -, hnode, -⟩ := hl.around
  obtain ⟨hmb, hma⟩ := hl.notMem_middle
  have hout : elem ∉ addrs before ++ addrs after := by simp [hmb, hma]
  have hlen := length_lt hl.nodup hl.addr
  rw [listRemove, if_neg (hl.first_ne_zero (by simp)), hunlink]
  simp only [Option.bind_eq_bind, Option.bind_some, hf elem hout, hnode]
  refine ⟨_, _, rfl, ⟨?_, hl.nodup_rest, ?_, ?_⟩, Function.update_self .., ?_⟩
  · exact hs.congr (.update h₁ elem none) (by simpa using hout)
  · intro a ha
    apply hl.addr a
    simp only [addrs_append, addrs_cons, List.mem_append, List.mem_cons] at ha ⊢
    tauto
  · change sub64 list₁.count 1 = _
    rw [hcount, hl.count]
    simp only [List.length_append, List.length_cons] at hlen ⊢
    rw [sub64_eq (by omega) (by omega)]
    omega
  · exact (hf.trans (.update h₁ elem none)).mono (by simp)

end Remove

theorem pop (hl : IsList h list (cells ++ [(elem, val)])) : ∃ h' list',
    listPop h list = some (val, h', list') ∧ IsList h' list' cells := by
  have hl' : IsList h list (cells ++ (elem, val) :: []) := hl
  obtain ⟨h', list', hr, hl'', -, -⟩ := hl'.remove
  rw [listPop, hl.linked.last_eq]
  exact ⟨h', list', hr, by simpa using hl''⟩

theorem shift (hl : IsList h list ((elem, val) :: cells)) : ∃ h' list',
    listShift h list = some (val, h', list') ∧ IsList h' list' cells := by
  have hl' : IsList h list ([] ++ (elem, val) :: cells) := hl
  obtain ⟨h', list', hr, hl'', -, -⟩ := hl'.remove
  rw [listShift, hl.linked.first_eq]
  exact ⟨h', list', hr, hl''⟩

section Destroy

-- The loop of list_destroy frees the element before the current one, and so leaves the last one.
theorem destroyFrom {back first last steps : Nat} (hs : Segment h back first cells last 0)
    (hnodup : (back :: addrs cells).Nodup) (hpos : ∀ a ∈ addrs cells, 0 < a)
    (hsteps : cells.length < steps) : ∃ h', listDestroyFrom steps h first = some h' ∧
      Frame h h' (back :: addrs cells) := by
  induction cells generalizing h back first steps with
  | nil =>
      obtain ⟨steps, rfl⟩ : ∃ n, steps = n + 1 := ⟨steps - 1, by omega⟩
      rw [listDestroyFrom, if_pos hs.1]
      exact ⟨h, rfl, (Frame.refl h).mono (by simp)⟩
  | cons cell cells ih =>
      rw [List.length_cons] at hsteps
      obtain ⟨steps, rfl⟩ : ∃ n, steps = n + 1 := ⟨steps - 1, by omega⟩
      obtain ⟨rfl, next, hnode, hrest⟩ := hs
      rw [addrs_cons, List.nodup_cons] at hnodup
      rw [addrs_cons, List.forall_mem_cons] at hpos
      obtain ⟨hback, hnodup⟩ := hnodup
      obtain ⟨h₁, hh₁, hframe⟩ : ∃ h₁ : ListHeap, (if back ≠ 0 then h.free back else h) = h₁ ∧
          Frame h h₁ [back] := by
        by_cases hzero : back ≠ 0
        · exact ⟨_, if_pos hzero, .update h back none⟩
        · exact ⟨_, if_neg hzero, (Frame.refl h).mono (by simp)⟩
      have hnode₁ : h₁ cell.1 = some ⟨back, next, cell.2⟩ := by
        rw [hframe cell.1 (by simpa using Ne.symm (List.ne_of_not_mem_cons hback)), hnode]
      have hrest₁ : Segment h₁ cell.1 next cells last 0 :=
        hrest.congr hframe (by simpa using List.not_mem_of_not_mem_cons hback)
      obtain ⟨h', hr, hframe'⟩ := ih hrest₁ hnodup hpos.2
        (Nat.lt_of_succ_lt_succ hsteps)
      rw [listDestroyFrom, if_neg hpos.1.ne']
      simp only [hnode, Option.bind_eq_bind, Option.bind_some, hh₁, hnode₁]
      exact ⟨h', hr, hframe.trans hframe'⟩

theorem destroy (hl : IsList h list cells) : ∃ h', listDestroy h list = some h' ∧
    Frame h h' (0 :: addrs cells) := by
  have hpos : ∀ a ∈ addrs cells, 0 < a := fun a ha => (hl.addr a ha).1
  have hnodup : (0 :: addrs cells).Nodup :=
    List.nodup_cons.mpr ⟨fun hm => Nat.lt_irrefl 0 (hpos 0 hm), hl.nodup⟩
  obtain ⟨h', hr, hframe⟩ := destroyFrom hl.linked hnodup hpos (length_lt hl.nodup hl.addr)
  have hlast : list.last ∈ 0 :: addrs cells := by
    cases cells using List.reverseRecOn with
    | nil => simp [hl.last_eq_zero]
    | append_singleton cells cell _ => simp [hl.linked.last_eq]
  unfold listDestroy LIST_STEPS
  rw [hr]
  refine ⟨_, rfl, (hframe.trans (.update h' list.last none)).mono ?_⟩
  simpa using hlast

end Destroy

-- Nothing happens to an empty list.
theorem remove_nil (hl : IsList h list []) (elem : Nat) : listRemove h list elem = some (0, h, list) := by
  rw [listRemove, if_pos hl.first_eq_zero]
  rfl

end IsList

end Adventure

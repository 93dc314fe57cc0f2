import Adventure.Struct.List.Cells

namespace Adventure

open Links Ends

inductive ListOp
  | push (val elem : Nat)
  | pop
  | unshift (val elem : Nat)
  | shift
  | remove (elem : Nat)

-- The double-ended queue that a list stands for: elements with their values. An operation returns
-- a value or nothing.
def dequeStep (cells : List (Nat × Nat)) : ListOp → Option Nat × List (Nat × Nat)
  | .push val elem => (none, cells ++ [(elem, val)])
  | .pop => (some ((cells.getLast?.map Prod.snd).getD 0), cells.dropLast)
  | .unshift val elem => (none, (elem, val) :: cells)
  | .shift => (some ((cells.head?.map Prod.snd).getD 0), cells.tail)
  | .remove elem => (some ((cells.lookup elem).getD 0), cells.filter (·.1 ≠ elem))

structure ListRun where
  heap : ListHeap
  list : ListHdr

namespace ListRun

def step (st : ListRun) : ListOp → Option (Option Nat × ListRun)
  | .push val elem => do
      let r ← listPush st.heap st.list val elem
      return (none, ⟨r.1, r.2⟩)
  | .pop => do
      let r ← listPop st.heap st.list
      return (some r.1, ⟨r.2.1, r.2.2⟩)
  | .unshift val elem => do
      let r ← listUnshift st.heap st.list val elem
      return (none, ⟨r.1, r.2⟩)
  | .shift => do
      let r ← listShift st.heap st.list
      return (some r.1, ⟨r.2.1, r.2.2⟩)
  | .remove elem => do
      let r ← listRemove st.heap st.list elem
      return (some r.1, ⟨r.2.1, r.2.2⟩)

-- calloc returns an address that is not in use, and what is removed is in the list.
def Permits (st : ListRun) (cells : List (Nat × Nat)) : ListOp → Prop
  | .push _ elem | .unshift _ elem => 0 < elem ∧ elem < 2 ^ 64 ∧ st.heap elem = none
  | .remove elem => elem ∈ addrs cells
  | .pop | .shift => True

instance (st : ListRun) (cells : List (Nat × Nat)) : (op : ListOp) → Decidable (st.Permits cells op)
  | .push _ _ | .unshift _ _ => inferInstanceAs (Decidable (_ ∧ _ ∧ _))
  | .remove _ => inferInstanceAs (Decidable (_ ∈ _))
  | .pop | .shift => .isTrue trivial

-- The states of all runs from list_create, in a heap that may hold other elements, with what the
-- queue is then.
inductive Reached : ListRun → List (Nat × Nat) → Prop
  | created (h : ListHeap) : Reached ⟨h, listCreate⟩ []
  | step {st st' : ListRun} {cells : List (Nat × Nat)} {val : Option Nat} (op : ListOp) :
      Reached st cells → st.Permits cells op → st.step op = some (val, st') →
      Reached st' (dequeStep cells op).2

-- A run that stops at an operation that is not permitted.
def run : List ListOp → ListRun → List (Nat × Nat) → Option (ListRun × List (Nat × Nat))
  | [], st, cells => some (st, cells)
  | op :: ops, st, cells =>
      if st.Permits cells op then (st.step op).bind fun r => run ops r.2 (dequeStep cells op).2
      else none

theorem Reached.run {st : ListRun} {cells : List (Nat × Nat)} {ops : List ListOp}
    {r : ListRun × List (Nat × Nat)} (hr : Reached st cells)
    (hrun : ListRun.run ops st cells = some r) : Reached r.1 r.2 := by
  induction ops generalizing st cells with
  | nil => exact Option.some.inj hrun ▸ hr
  | cons op ops ih =>
      unfold ListRun.run at hrun
      obtain ⟨hop, r₁, hstep, hrest⟩ := guarded_eq_some hrun
      exact ih (.step op hr hop hstep) hrest

end ListRun

section Follow

variable {h : ListHeap} {list : ListHdr} {cells : List (Nat × Nat)} {back first last front : Nat}

theorem follow_next (hs : Segment h back first cells last 0) (hpos : ∀ a ∈ addrs cells, 0 < a)
    {steps : Nat} (hsteps : cells.length < steps) :
    listFollow (·.next) h steps first = some cells := by
  induction cells generalizing back first steps with
  | nil =>
      obtain ⟨steps, rfl⟩ : ∃ n, steps = n + 1 := ⟨steps - 1, by omega⟩
      rw [listFollow, if_pos hs.1]
  | cons cell cells ih =>
      rw [List.length_cons] at hsteps
      obtain ⟨steps, rfl⟩ : ∃ n, steps = n + 1 := ⟨steps - 1, by omega⟩
      obtain ⟨rfl, next, hnode, hrest⟩ := hs
      simp only [addrs_cons, List.forall_mem_cons] at hpos
      have hi := ih hrest hpos.2 (show cells.length < steps by omega)
      rw [listFollow, if_neg (by omega), hnode]
      simp only [Option.bind_eq_bind, Option.bind_some, hi]
      rfl

theorem follow_prev (hs : Segment h 0 first cells last front) (hpos : ∀ a ∈ addrs cells, 0 < a)
    {steps : Nat} (hsteps : cells.length < steps) :
    listFollow (·.prev) h steps last = some cells.reverse := by
  induction cells using List.reverseRecOn generalizing last front steps with
  | nil =>
      obtain ⟨steps, rfl⟩ : ∃ n, steps = n + 1 := ⟨steps - 1, by omega⟩
      rw [listFollow, if_pos hs.2]
      rfl
  | append_singleton cells cell ih =>
      rw [List.length_append, List.length_singleton] at hsteps
      obtain ⟨steps, rfl⟩ : ∃ n, steps = n + 1 := ⟨steps - 1, by omega⟩
      obtain ⟨l, f, hrest, hs'⟩ := Segment.append_iff.mp hs
      obtain ⟨rfl, rfl, hnode⟩ := Segment.singleton_iff.mp hs'
      simp only [addrs_append, List.forall_mem_append, addrs_cons, List.forall_mem_cons] at hpos
      have hi := ih hrest hpos.1 (show cells.length < steps by omega)
      have hcell := hpos.2.1
      rw [listFollow, if_neg (by omega), hnode]
      simp only [Option.bind_eq_bind, Option.bind_some, hi, List.reverse_append,
        List.reverse_singleton, List.singleton_append]
      rfl

end Follow

-- What the code shows of a list: the loops in both directions, the pointers beyond the ends, the
-- count and the values at the ends.
structure ShowsDeque (st : ListRun) (cells : List (Nat × Nat)) : Prop where
  forward : listFollow (·.next) st.heap LIST_STEPS st.list.first = some cells
  backward : listFollow (·.prev) st.heap LIST_STEPS st.list.last = some cells.reverse
  ends : ∀ node, (st.heap st.list.first = some node → cells ≠ [] → node.prev = 0) ∧
    (st.heap st.list.last = some node → cells ≠ [] → node.next = 0)
  count : listCount st.list = cells.length
  first : listFirst st.heap st.list = some ((cells.head?.map Prod.snd).getD 0)
  last : listLast st.heap st.list = some ((cells.getLast?.map Prod.snd).getD 0)

theorem IsList.showsDeque {st : ListRun} {cells : List (Nat × Nat)}
    (hl : IsList st.heap st.list cells) : ShowsDeque st cells := by
  have hpos : ∀ a ∈ addrs cells, 0 < a := fun a ha => (hl.addr a ha).1
  have hlen : cells.length < LIST_STEPS := IsList.length_lt hl.nodup hl.addr
  have hfirst : cells ≠ [] → (st.heap st.list.first).map (fun node => (node.prev, node.val)) =
      some (0, (cells.head?.map Prod.snd).getD 0) := by
    intro hne
    cases cells with
    | nil => exact absurd rfl hne
    | cons cell cells =>
        obtain ⟨he, next, hnode, -⟩ := hl.linked
        rw [he, hnode]
        rfl
  have hlast : cells ≠ [] → (st.heap st.list.last).map (fun node => (node.next, node.val)) =
      some (0, (cells.getLast?.map Prod.snd).getD 0) := by
    intro hne
    cases cells using List.reverseRecOn with
    | nil => exact absurd rfl hne
    | append_singleton cells cell _ =>
        obtain ⟨l, f, -, hs⟩ := Segment.append_iff.mp hl.linked
        obtain ⟨-, he, hnode⟩ := Segment.singleton_iff.mp hs
        rw [he, hnode]
        simp
  refine ⟨follow_next hl.linked hpos hlen, follow_prev hl.linked hpos hlen, fun node => ⟨?_, ?_⟩,
    hl.count, ?_, ?_⟩
  · intro hnode hne
    have hf := hfirst hne
    rw [hnode] at hf
    exact (Prod.mk.inj (Option.some.inj hf)).1
  · intro hnode hne
    have hf := hlast hne
    rw [hnode] at hf
    exact (Prod.mk.inj (Option.some.inj hf)).1
  · by_cases hne : cells = []
    · subst hne
      rw [listFirst, if_neg (not_not.mpr hl.first_eq_zero)]
      rfl
    · obtain ⟨node, hnode, hv⟩ := Option.map_eq_some_iff.mp (hfirst hne)
      rw [listFirst, if_pos (hl.first_ne_zero hne), hnode, ← (Prod.mk.inj hv).2]
      rfl
  · by_cases hne : cells = []
    · subst hne
      rw [listLast, if_neg (not_not.mpr hl.last_eq_zero)]
      rfl
    · obtain ⟨node, hnode, hv⟩ := Option.map_eq_some_iff.mp (hlast hne)
      rw [listLast, if_pos (hl.last_ne_zero hne), hnode, ← (Prod.mk.inj hv).2]
      rfl

namespace ListRun

variable {st st' : ListRun} {cells before after : List (Nat × Nat)} {elem val : Nat}

theorem lookup_append (hb : ∀ x ∈ before, x.1 ≠ elem) :
    (before ++ (elem, val) :: after).lookup elem = some val := by
  induction before with
  | nil => simp
  | cons x before ih =>
      simp only [List.forall_mem_cons] at hb
      have hx : (elem == x.1) = false := by simpa using Ne.symm hb.1
      rw [List.cons_append, List.lookup_cons, hx]
      exact ih hb.2

theorem lookup_middle (hn : (addrs (before ++ (elem, val) :: after)).Nodup) :
    (before ++ (elem, val) :: after).lookup elem = some val ∧
      (before ++ (elem, val) :: after).filter (·.1 ≠ elem) = before ++ after := by
  rw [addrs_append, addrs_cons, List.nodup_append', List.nodup_cons] at hn
  have hb : ∀ x ∈ before, x.1 ≠ elem := fun x hx he =>
    hn.2.2 (he ▸ List.mem_map_of_mem hx : elem ∈ addrs before) (by simp)
  have ha : ∀ x ∈ after, x.1 ≠ elem := fun x hx he =>
    hn.2.1.1 (he ▸ List.mem_map_of_mem hx : elem ∈ addrs after)
  refine ⟨lookup_append hb, ?_⟩
  rw [List.filter_append, List.filter_cons, List.filter_eq_self.mpr (by simpa using hb),
    List.filter_eq_self.mpr (by simpa using ha)]
  simp

-- One operation does to the list what it does to the queue.
theorem step_isList (hl : IsList st.heap st.list cells) {op : ListOp} (hop : st.Permits cells op) :
    ∃ st', st.step op = some ((dequeStep cells op).1, st') ∧
      IsList st'.heap st'.list (dequeStep cells op).2 := by
  cases op with
  | push val elem =>
      obtain ⟨hpos, hlt, hfresh⟩ := hop
      obtain ⟨h', list', hr, hl', -⟩ := hl.push hpos hlt hfresh val
      exact ⟨⟨h', list'⟩, by rw [step, hr]; rfl, hl'⟩
  | unshift val elem =>
      obtain ⟨hpos, hlt, hfresh⟩ := hop
      obtain ⟨h', list', hr, hl', -⟩ := hl.unshift hpos hlt hfresh val
      exact ⟨⟨h', list'⟩, by rw [step, hr]; rfl, hl'⟩
  | pop =>
      cases cells using List.reverseRecOn with
      | nil => exact ⟨st, by rw [step, listPop, hl.remove_nil]; rfl, hl⟩
      | append_singleton cells cell _ =>
          obtain ⟨h', list', hr, hl'⟩ := hl.pop
          exact ⟨⟨h', list'⟩, by rw [step, hr]; simp [dequeStep], by simpa [dequeStep] using hl'⟩
  | shift =>
      cases cells with
      | nil => exact ⟨st, by rw [step, listShift, hl.remove_nil]; rfl, hl⟩
      | cons cell cells =>
          obtain ⟨h', list', hr, hl'⟩ := hl.shift
          exact ⟨⟨h', list'⟩, by rw [step, hr]; rfl, hl'⟩
  | remove elem =>
      obtain ⟨⟨elem, val⟩, hmem, rfl⟩ := List.mem_map.mp hop
      obtain ⟨before, after, rfl⟩ := List.append_of_mem hmem
      obtain ⟨hlookup, hfilter⟩ := lookup_middle hl.nodup
      obtain ⟨h', list', hr, hl', -, -⟩ := hl.remove
      refine ⟨⟨h', list'⟩, ?_, ?_⟩
      · rw [step, hr, dequeStep, hlookup]
        rfl
      · rw [dequeStep, hfilter]
        exact hl'

theorem Reached.isList (hr : Reached st cells) : IsList st.heap st.list cells := by
  induction hr with
  | created h => exact isList_create h
  | step op _ hop hstep ih =>
      obtain ⟨st', hst', hl'⟩ := step_isList ih hop
      rw [hst', Option.some.injEq, Prod.mk.injEq] at hstep
      exact hstep.2 ▸ hl'

-- A list is a double-ended queue: in every state of a run it shows the queue that the operations
-- made, each operation returns what the queue's does, and a removal leaves the rest in order.
theorem list_deque (hr : Reached st cells) : ShowsDeque st cells ∧
    (∀ op, st.Permits cells op → ∃ st', st.step op = some ((dequeStep cells op).1, st') ∧
      Reached st' (dequeStep cells op).2) ∧
    ∀ before elem val after, cells = before ++ (elem, val) :: after → ∃ st',
      st.step (.remove elem) = some (some val, st') ∧ Reached st' (before ++ after) := by
  have hl := hr.isList
  refine ⟨hl.showsDeque, fun op hop => ?_, ?_⟩
  · obtain ⟨st', hstep, -⟩ := step_isList hl hop
    exact ⟨st', hstep, hr.step op hop hstep⟩
  · rintro before elem val after rfl
    have hop : st.Permits (before ++ (elem, val) :: after) (.remove elem) := by simp [Permits]
    obtain ⟨hlookup, hfilter⟩ := lookup_middle hl.nodup
    obtain ⟨st', hstep, -⟩ := step_isList hl hop
    have hr' := hr.step _ hop hstep
    rw [dequeStep, hfilter] at hr'
    rw [dequeStep, hlookup] at hstep
    exact ⟨st', hstep, hr'⟩

-- Three elements, one of them in front, and the middle one removed.
theorem list_deque_three : ∃ st, Reached st [(300, 30), (200, 20)] ∧
    ShowsDeque st [(300, 30), (200, 20)] ∧ ∃ st', st.step .pop = some (some 20, st') := by
  have h : (run [.push 10 100, .push 20 200, .unshift 30 300, .remove 100]
      ⟨fun _ => none, listCreate⟩ []).map Prod.snd = some [(300, 30), (200, 20)] := by decide +kernel
  obtain ⟨⟨st, cells⟩, hrun, rfl⟩ := Option.map_eq_some_iff.mp h
  have hr := (Reached.created fun _ => none).run hrun
  obtain ⟨hshows, hstep, -⟩ := list_deque hr
  obtain ⟨st', hst', -⟩ := hstep .pop trivial
  exact ⟨st, hr, hshows, st', hst'⟩

end ListRun

end Adventure

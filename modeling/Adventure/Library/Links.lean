import Mathlib.Data.List.Induction
import Mathlib.Data.List.Nodup
import Mathlib.Logic.Function.Basic
import Mathlib.Tactic.Common

-- A heap of nodes that are linked in both directions. An address without a node has no value.
namespace Links

universe u v
variable {α : Type u} {ν : Type v}

structure Link (α : Type u) (ν : Type v) where
  prev : α
  next : α
  val : ν

abbrev Heap (α : Type u) (ν : Type v) := α → Option (Link α ν)

-- A chain of nodes, given by their addresses and values. `back` is what the first node has as its
-- previous one, and `front` what the last node has as its next one.
def Segment (h : Heap α ν) : α → α → List (α × ν) → α → α → Prop
  | back, first, [], last, front => first = front ∧ last = back
  | back, first, cell :: cells, last, front => first = cell.1 ∧
      ∃ next, h cell.1 = some ⟨back, next, cell.2⟩ ∧ Segment h cell.1 next cells last front

def addrs (cells : List (α × ν)) : List α := cells.map Prod.fst

@[simp] theorem addrs_nil : addrs ([] : List (α × ν)) = [] := rfl

@[simp] theorem addrs_cons (cell : α × ν) (cells : List (α × ν)) :
    addrs (cell :: cells) = cell.1 :: addrs cells := rfl

@[simp] theorem addrs_append (cells cells' : List (α × ν)) :
    addrs (cells ++ cells') = addrs cells ++ addrs cells' := List.map_append

-- Two heaps agree at all addresses but those of a list.
def Frame (h h' : Heap α ν) (touched : List α) : Prop := ∀ a, a ∉ touched → h' a = h a

namespace Frame

variable {h h' h'' : Heap α ν} {touched touched' : List α}

theorem refl (h : Heap α ν) : Frame h h [] := fun _ _ => rfl

theorem mono (hf : Frame h h' touched) (hsub : touched ⊆ touched') : Frame h h' touched' :=
  fun a ha => hf a fun hm => ha (hsub hm)

theorem trans (hf : Frame h h' touched) (hf' : Frame h' h'' touched') :
    Frame h h'' (touched ++ touched') := by
  intro a ha
  rw [List.mem_append, not_or] at ha
  rw [hf' a ha.2, hf a ha.1]

theorem update [DecidableEq α] (h : Heap α ν) (a : α) (node : Option (Link α ν)) :
    Frame h (Function.update h a node) [a] := by
  intro b hb
  exact Function.update_of_ne (by simpa using hb) _ _

end Frame

namespace Segment

variable {h h' : Heap α ν} {back first last front l f : α} {cells cells' : List (α × ν)}
  {cell : α × ν}

theorem congr_of_eq (hs : Segment h back first cells last front)
    (heq : ∀ a ∈ addrs cells, h' a = h a) : Segment h' back first cells last front := by
  induction cells generalizing back first with
  | nil => exact hs
  | cons cell cells ih =>
      obtain ⟨hfirst, next, hnode, hrest⟩ := hs
      simp only [addrs_cons, List.forall_mem_cons] at heq
      exact ⟨hfirst, next, heq.1.trans hnode, ih hrest heq.2⟩

theorem congr (hs : Segment h back first cells last front) {touched : List α}
    (hf : Frame h h' touched) (hdis : ∀ a ∈ touched, a ∉ addrs cells) :
    Segment h' back first cells last front :=
  hs.congr_of_eq fun a ha => hf a fun hm => hdis a hm ha

-- A chain of two parts is linked where they meet.
theorem append_iff : Segment h back first (cells ++ cells') last front ↔
    ∃ l f, Segment h back first cells l f ∧ Segment h l f cells' last front := by
  induction cells generalizing back first with
  | nil =>
      constructor
      · intro hs
        exact ⟨back, first, ⟨rfl, rfl⟩, hs⟩
      · rintro ⟨l, f, ⟨rfl, rfl⟩, hs⟩
        exact hs
  | cons cell cells ih =>
      constructor
      · rintro ⟨hfirst, next, hnode, hrest⟩
        obtain ⟨l, f, hs, hs'⟩ := ih.mp hrest
        exact ⟨l, f, ⟨hfirst, next, hnode, hs⟩, hs'⟩
      · rintro ⟨l, f, ⟨hfirst, next, hnode, hs⟩, hs'⟩
        exact ⟨hfirst, next, hnode, ih.mpr ⟨l, f, hs, hs'⟩⟩

theorem singleton_iff : Segment h back first [cell] last front ↔
    first = cell.1 ∧ last = cell.1 ∧ h cell.1 = some ⟨back, front, cell.2⟩ := by
  constructor
  · rintro ⟨hfirst, next, hnode, rfl, hlast⟩
    exact ⟨hfirst, hlast, hnode⟩
  · rintro ⟨hfirst, hlast, hnode⟩
    exact ⟨hfirst, front, hnode, rfl, hlast⟩

theorem first_eq (hs : Segment h back first (cell :: cells) last front) : first = cell.1 := hs.1

theorem last_eq (hs : Segment h back first (cells ++ [cell]) last front) : last = cell.1 := by
  obtain ⟨l, f, -, hs'⟩ := append_iff.mp hs
  exact (singleton_iff.mp hs').2.1

theorem exists_node (hs : Segment h back first cells last front) {a : α} (ha : a ∈ addrs cells) :
    ∃ node, h a = some node := by
  induction cells generalizing back first with
  | nil => cases ha
  | cons cell cells ih =>
      obtain ⟨-, next, hnode, hrest⟩ := hs
      rcases List.mem_cons.mp ha with rfl | ha
      · exact ⟨_, hnode⟩
      · exact ih hrest ha

section Update

variable [DecidableEq α]

-- The next one of the last node is set.
theorem set_next (hs : Segment h back first (cells ++ [cell]) last front)
    (hnodup : (addrs (cells ++ [cell])).Nodup) (n : α) : ∃ node, h last = some node ∧
      Segment (Function.update h last (some { node with next := n })) back first
        (cells ++ [cell]) last n := by
  obtain ⟨l, f, hs₁, hs₂⟩ := append_iff.mp hs
  obtain ⟨rfl, rfl, hnode⟩ := singleton_iff.mp hs₂
  refine ⟨_, hnode, append_iff.mpr ⟨l, cell.1, hs₁.congr (.update h _ _) ?_, ?_⟩⟩
  · rw [addrs_append, List.nodup_append'] at hnodup
    intro a ha hm
    exact hnodup.2.2 hm (by simpa using ha)
  · exact singleton_iff.mpr ⟨rfl, rfl, Function.update_self ..⟩

-- The previous one of the first node is set.
theorem set_prev (hs : Segment h back first (cell :: cells) last front)
    (hnodup : (addrs (cell :: cells)).Nodup) (p : α) : ∃ node, h first = some node ∧
      Segment (Function.update h first (some { node with prev := p })) p first
        (cell :: cells) last front := by
  obtain ⟨rfl, next, hnode, hrest⟩ := hs
  rw [addrs_cons, List.nodup_cons] at hnodup
  refine ⟨_, hnode, rfl, next, Function.update_self .., hrest.congr (.update h _ _) ?_⟩
  intro a ha hm
  rw [List.mem_singleton] at ha
  exact hnodup.1 (ha ▸ hm)

-- Two chains that are linked with each other: the last node of the first one gets the first node of
-- the second one as its next, and that the other one as its previous.
theorem bridge {next : α × ν} {p n : α} (hs : Segment h back first (cells ++ [cell]) l n)
    (hs' : Segment h p f (next :: cells') last front)
    (hnodup : (addrs (cells ++ [cell] ++ next :: cells')).Nodup) :
    ∃ node node', h l = some node ∧
      Function.update h l (some { node with next := f }) f = some node' ∧
      Segment (Function.update (Function.update h l (some { node with next := f })) f
        (some { node' with prev := l })) back first (cells ++ [cell] ++ next :: cells') last front := by
  rw [addrs_append, List.nodup_append'] at hnodup
  obtain ⟨hn, hn', hdis⟩ := hnodup
  have hl : l ∈ addrs (cells ++ [cell]) := by simp [hs.last_eq]
  have hf : f ∈ addrs (next :: cells') := by simp [hs'.first_eq]
  obtain ⟨node, hnode, hset⟩ := hs.set_next hn f
  have hkeep := hs'.congr (.update h l (some { node with next := f })) (by
    rw [List.forall_mem_singleton]
    exact fun hm => hdis hl hm)
  obtain ⟨node', hnode', hset'⟩ := hkeep.set_prev hn' l
  refine ⟨node, node', hnode, hnode', append_iff.mpr ⟨l, f, hset.congr (.update _ f _) ?_, hset'⟩⟩
  rw [List.forall_mem_singleton]
  exact fun hm => hdis hm hf

end Update

end Segment

end Links

import Mathlib.Algebra.GroupWithZero.Nat
import Mathlib.Data.List.Basic
import Mathlib.Tactic.Common

-- Nested text: single items, and groups of them between an opening and a closing mark. A stack of
-- the groups that are open reads it from the left.
namespace Nest

universe u v w
variable {α : Type u} {γ : Type v} {κ : Type w}

-- The first child of each node and its next sibling. An item is a node without children.
inductive Forest (α : Type u)
  | nil
  | cons (label : α) (kids rest : Forest α)

inductive Mark (α : Type u) (γ : Type v) (κ : Type w)
  | leaf (label : α)
  | enter (opened : γ)
  | leave (closed : κ)

namespace Forest

-- The number of trees, and that of nodes.
def width : Forest α → Nat
  | nil => 0
  | cons _ _ rest => rest.width + 1

def count : Forest α → Nat
  | nil => 0
  | cons _ kids rest => 1 + kids.count + rest.count

def append : Forest α → Forest α → Forest α
  | nil, g => g
  | cons label kids rest, g => cons label kids (rest.append g)

instance : Append (Forest α) := ⟨append⟩

variable {label : α} {kids rest f g h : Forest α}

@[simp] theorem width_nil : (nil : Forest α).width = 0 := rfl

@[simp] theorem width_cons : (cons label kids rest).width = rest.width + 1 := rfl

@[simp] theorem count_nil : (nil : Forest α).count = 0 := rfl

@[simp] theorem count_cons : (cons label kids rest).count = 1 + kids.count + rest.count := rfl

@[simp] theorem nil_append (g : Forest α) : nil ++ g = g := rfl

@[simp] theorem cons_append (label : α) (kids rest g : Forest α) :
    cons label kids rest ++ g = cons label kids (rest ++ g) := rfl

@[simp] theorem append_nil (f : Forest α) : f ++ nil = f := by
  induction f with
  | nil => rfl
  | cons label kids rest _ ih => rw [cons_append, ih]

theorem append_assoc (f g h : Forest α) : f ++ g ++ h = f ++ (g ++ h) := by
  induction f with
  | nil => rfl
  | cons label kids rest _ ih => rw [cons_append, cons_append, ih, cons_append]

@[simp] theorem count_append (f g : Forest α) : (f ++ g).count = f.count + g.count := by
  induction f with
  | nil => simp
  | cons label kids rest _ ih =>
    rw [cons_append, count_cons, ih, count_cons]
    omega

@[simp] theorem width_append (f g : Forest α) : (f ++ g).width = f.width + g.width := by
  induction f with
  | nil => simp
  | cons label kids rest _ ih =>
    rw [cons_append, width_cons, ih, width_cons]
    omega

-- Each node with the number of its children, a node before its children and these before the
-- siblings that follow it.
def flat (f : Forest α) : List (α × Nat) :=
  match f with
  | nil => []
  | cons label kids rest => (label, kids.width) :: (kids.flat ++ rest.flat)

@[simp] theorem flat_nil : (nil : Forest α).flat = [] := rfl

@[simp] theorem flat_cons :
    (cons label kids rest).flat = (label, kids.width) :: (kids.flat ++ rest.flat) := rfl

@[simp] theorem flat_append (f g : Forest α) : (f ++ g).flat = f.flat ++ g.flat := by
  induction f with
  | nil => rfl
  | cons label kids rest _ ih => simp [ih]

@[simp] theorem length_flat (f : Forest α) : f.flat.length = f.count := by
  induction f with
  | nil => rfl
  | cons label kids rest ihk ihr =>
    rw [flat_cons, List.length_cons, List.length_append, ihk, ihr, count_cons]
    omega

end Forest

section Reads

-- The label of the group that is opened and closed by two marks. None, and they do not match.
variable (close : γ → κ → Option α)

inductive Reads : List (Mark α γ κ) → Forest α → Prop
  | nil : Reads [] .nil
  | leaf {label : α} {ms : List (Mark α γ κ)} {f : Forest α} (rest : Reads ms f) :
      Reads (.leaf label :: ms) (.cons label .nil f)
  | group {o : γ} {c : κ} {label : α} {ks ms : List (Mark α γ κ)} {kids f : Forest α}
      (within : Reads ks kids) (hclose : close o c = some label) (rest : Reads ms f) :
      Reads (.enter o :: (ks ++ .leave c :: ms)) (.cons label kids f)

-- A group that is open, and what was read at its level before it.
structure Frame (α : Type u) (γ : Type v) where
  before : Forest α
  opened : γ

-- The open groups, the innermost first, and what was read in the innermost one.
structure Reading (α : Type u) (γ : Type v) where
  frames : List (Frame α γ)
  done : Forest α

def Reading.start : Reading α γ := ⟨[], .nil⟩

def Reading.take (r : Reading α γ) : Mark α γ κ → Option (Reading α γ)
  | .leaf label => some { r with done := r.done ++ .cons label .nil .nil }
  | .enter o => some ⟨⟨r.done, o⟩ :: r.frames, .nil⟩
  | .leave c =>
    match r.frames with
    | [] => none
    | frame :: frames => (close frame.opened c).map fun label =>
        ⟨frames, frame.before ++ .cons label r.done .nil⟩

def Reading.takes (r : Reading α γ) (ms : List (Mark α γ κ)) : Option (Reading α γ) :=
  ms.foldlM (Reading.take close) r

-- The number of slots that the open groups, and what was read before each of them, take up.
def framesCount : List (Frame α γ) → Nat
  | [] => 0
  | frame :: frames => framesCount frames + (frame.before.count + 1)

def Reading.count (r : Reading α γ) : Nat := framesCount r.frames + r.done.count

-- The slots that a mark takes up.
def Mark.count : Mark α γ κ → Nat
  | leaf _ => 1
  | enter _ => 1
  | leave _ => 0

variable {close} {r r' : Reading α γ} {m : Mark α γ κ} {ms ns : List (Mark α γ κ)} {f g : Forest α}

@[simp] theorem Reading.takes_nil : r.takes close ([] : List (Mark α γ κ)) = some r := rfl

theorem Reading.takes_cons (r : Reading α γ) (m : Mark α γ κ) (ms : List (Mark α γ κ)) :
    r.takes close (m :: ms) = (r.take close m).bind fun r => r.takes close ms := rfl

theorem Reading.takes_append (r : Reading α γ) (ms ns : List (Mark α γ κ)) :
    r.takes close (ms ++ ns) = (r.takes close ms).bind fun r => r.takes close ns :=
  List.foldlM_append

@[simp] theorem Reading.count_start : (Reading.start : Reading α γ).count = 0 := rfl

@[simp] theorem Reading.count_nil (f : Forest α) : (⟨[], f⟩ : Reading α γ).count = f.count :=
  Nat.zero_add _

theorem Reading.count_take (h : r.take close m = some r') : r'.count = r.count + m.count := by
  cases m with
  | leaf label =>
    obtain rfl := Option.some.inj h
    simp [count, Mark.count, Nat.add_assoc]
  | enter o =>
    obtain rfl := Option.some.inj h
    simp [count, framesCount, Mark.count, Nat.add_assoc]
  | leave c =>
    obtain ⟨frames, done⟩ := r
    cases frames with
    | nil => cases h
    | cons frame frames =>
      obtain ⟨label, -, rfl⟩ := Option.map_eq_some_iff.mp h
      simp only [count, framesCount, Forest.count_append, Forest.count_cons, Forest.count_nil,
        Mark.count]
      omega

theorem Reading.count_takes_le (h : r.takes close ms = some r') : r.count ≤ r'.count := by
  induction ms generalizing r with
  | nil =>
    obtain rfl := Option.some.inj h
    exact Nat.le_refl _
  | cons m ms ih =>
    rw [Reading.takes_cons, Option.bind_eq_some_iff] at h
    obtain ⟨r₁, htake, h⟩ := h
    have := count_take htake
    have := ih h
    omega

namespace Reads

theorem append (hf : Reads close ms f) (hg : Reads close ns g) :
    Reads close (ms ++ ns) (f ++ g) := by
  induction hf with
  | nil => exact hg
  | leaf _ ih => exact leaf ih
  | group within hclose _ _ ih =>
    rw [List.cons_append, List.append_assoc, List.cons_append]
    exact group within hclose ih

theorem count_marks (hf : Reads close ms f) : (ms.map Mark.count).sum = f.count := by
  induction hf with
  | nil => rfl
  | leaf _ ih => simp [Mark.count, ih]
  | group _ _ _ ihk ih =>
    simp only [List.map_cons, List.map_append, List.sum_cons, List.sum_append, Mark.count, ihk, ih,
      Forest.count_cons]
    omega

-- Whatever is open, what reads as a forest adds it at the innermost level.
theorem takes_eq (hf : Reads close ms f) (r : Reading α γ) :
    r.takes close ms = some { r with done := r.done ++ f } := by
  induction hf generalizing r with
  | nil => simp
  | leaf _ ih => simp [Reading.takes_cons, Reading.take, ih, Forest.append_assoc]
  | group _ hclose _ ihk ih =>
    rw [Reading.takes_cons]
    simp only [Reading.take, Option.bind_some, Reading.takes_append, ihk, Reading.takes_cons]
    simp [hclose, ih, Forest.append_assoc]

end Reads

-- What was read before: each open group stands after what reads as the forest of its frame.
inductive Held (close : γ → κ → Option α) : List (Mark α γ κ) → Reading α γ → Prop
  | base {ms : List (Mark α γ κ)} {f : Forest α} (hf : Reads close ms f) : Held close ms ⟨[], f⟩
  | frame {ms ns : List (Mark α γ κ)} {frames : List (Frame α γ)} {b f : Forest α} {o : γ}
      (outer : Held close ms ⟨frames, b⟩) (hf : Reads close ns f) :
      Held close (ms ++ .enter o :: ns) ⟨⟨b, o⟩ :: frames, f⟩

namespace Held

theorem add (h : Held close ms r) (hf : Reads close ns f) :
    Held close (ms ++ ns) { r with done := r.done ++ f } := by
  cases h with
  | base h => exact base (h.append hf)
  | frame outer h =>
    rw [List.append_assoc, List.cons_append]
    exact frame outer (h.append hf)

theorem take (h : Held close ms r) (ht : r.take close m = some r') :
    Held close (ms ++ [m]) r' := by
  cases m with
  | leaf label =>
    obtain rfl := Option.some.inj ht
    exact h.add (.leaf .nil)
  | enter o =>
    obtain rfl := Option.some.inj ht
    exact frame h .nil
  | leave c =>
    cases h with
    | base h => simp [Reading.take] at ht
    | @frame ms ns frames b f o outer hf =>
      obtain ⟨label, hclose, rfl⟩ := Option.map_eq_some_iff.mp ht
      have hgroup : Reads close (.enter o :: (ns ++ [.leave c])) (.cons label f .nil) :=
        .group hf hclose .nil
      simpa using outer.add hgroup

theorem takes (h : Held close ms r) (ht : r.takes close ns = some r') :
    Held close (ms ++ ns) r' := by
  induction ns generalizing ms r with
  | nil =>
    obtain rfl := Option.some.inj ht
    simpa using h
  | cons n ns ih =>
    rw [Reading.takes_cons, Option.bind_eq_some_iff] at ht
    obtain ⟨r₁, h₁, h₂⟩ := ht
    simpa using ih (h.take h₁) h₂

theorem start : Held close ([] : List (Mark α γ κ)) (Reading.start : Reading α γ) := base .nil

end Held

-- The stack of open groups ends empty with a forest just if the marks read as that forest.
theorem takes_start_iff :
    (Reading.start : Reading α γ).takes close ms = some ⟨[], f⟩ ↔ Reads close ms f := by
  constructor
  · intro h
    cases Held.start.takes h with
    | base hf => exact hf
  · intro h
    simpa [Reading.start] using h.takes_eq Reading.start

end Reads

section Slots

-- The slots of an array: one for each node, and one for each open group and what it holds so far.
variable {τ : Type*} (full : α → Nat → τ) (half : γ → Nat → τ)

def Forest.slots (f : Forest α) : List τ := f.flat.map fun node => full node.1 node.2

-- Up to the slot of the innermost open group, which holds `n` trees.
def spine : List (Frame α γ) → Nat → List τ
  | [], _ => []
  | frame :: frames, n =>
    spine frames (frame.before.width + 1) ++ frame.before.slots full ++ [half frame.opened n]

def Reading.slots (r : Reading α γ) : List τ :=
  spine full half r.frames r.done.width ++ r.done.slots full

-- The slots once the innermost group, if there is one, counts one more tree.
def Reading.grown (r : Reading α γ) : List τ :=
  spine full half r.frames (r.done.width + 1) ++ r.done.slots full

variable {full half}

@[simp] theorem Forest.slots_nil : (Forest.nil : Forest α).slots full = [] := rfl

@[simp] theorem Forest.slots_cons (label : α) (kids rest : Forest α) :
    (Forest.cons label kids rest).slots full =
      full label kids.width :: (kids.slots full ++ rest.slots full) := by
  simp [Forest.slots]

@[simp] theorem Forest.slots_append (f g : Forest α) :
    (f ++ g).slots full = f.slots full ++ g.slots full := by
  simp [Forest.slots]

@[simp] theorem Forest.length_slots (f : Forest α) : (f.slots full).length = f.count := by
  simp [Forest.slots]

theorem spine_cons (frame : Frame α γ) (frames : List (Frame α γ)) (n : Nat) :
    spine full half (frame :: frames) n =
      spine full half frames (frame.before.width + 1) ++ frame.before.slots full ++
        [half frame.opened n] := rfl

@[simp] theorem length_spine (full : α → Nat → τ) (half : γ → Nat → τ) (frames : List (Frame α γ)) (n : Nat) :
    (spine full half frames n).length = framesCount frames := by
  induction frames generalizing n with
  | nil => rfl
  | cons frame frames ih => simp [spine_cons, ih, framesCount]

namespace Reading

@[simp] theorem length_slots (r : Reading α γ) : (r.slots full half).length = r.count := by
  simp [slots, count]

@[simp] theorem length_grown (r : Reading α γ) : (r.grown full half).length = r.count := by
  simp [grown, count]

theorem slots_nil (f : Forest α) : (⟨[], f⟩ : Reading α γ).slots full half = f.slots full := rfl

theorem grown_nil (f : Forest α) :
    (⟨[], f⟩ : Reading α γ).grown full half = (⟨[], f⟩ : Reading α γ).slots full half := rfl

theorem slots_cons (frame : Frame α γ) (frames : List (Frame α γ)) (f : Forest α) :
    (⟨frame :: frames, f⟩ : Reading α γ).slots full half =
      (⟨frames, frame.before⟩ : Reading α γ).grown full half ++
        half frame.opened f.width :: f.slots full := by
  simp [slots, grown, spine_cons]

theorem grown_cons (frame : Frame α γ) (frames : List (Frame α γ)) (f : Forest α) :
    (⟨frame :: frames, f⟩ : Reading α γ).grown full half =
      (⟨frames, frame.before⟩ : Reading α γ).grown full half ++
        half frame.opened (f.width + 1) :: f.slots full := by
  simp [grown, spine_cons]

theorem slots_leaf (r : Reading α γ) (label : α) :
    ({ r with done := r.done ++ .cons label .nil .nil } : Reading α γ).slots full half =
      r.grown full half ++ [full label 0] := by
  simp [slots, grown]

theorem slots_enter (r : Reading α γ) (o : γ) :
    (⟨⟨r.done, o⟩ :: r.frames, .nil⟩ : Reading α γ).slots full half =
      r.grown full half ++ [half o 0] := by
  simp [slots_cons]

-- A group that ends keeps its slot, and so do the nodes in it.
theorem slots_leave (frame : Frame α γ) (frames : List (Frame α γ)) (f : Forest α) (label : α) :
    (⟨frames, frame.before ++ .cons label f .nil⟩ : Reading α γ).slots full half =
      (⟨frames, frame.before⟩ : Reading α γ).grown full half ++
        full label f.width :: f.slots full := by
  simp [slots, grown]

end Reading

end Slots

end Nest

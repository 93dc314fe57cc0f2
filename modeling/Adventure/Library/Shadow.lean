import Mathlib.Data.List.Basic
import Mathlib.Tactic.Common

-- Entries in a chain where an entry hides those with the same key behind it. Keys are the same up
-- to an equivalence, and `key` is that of an entry.
namespace Shadow

universe u v
variable {κ : Type u} {β : Type v} (same : κ → κ → Prop) [DecidableRel same] (key : β → κ)

-- The entries of a key, the one that is seen first.
def entriesOf (k : κ) (chain : List β) : List β := chain.filter fun b => same (key b) k

variable {same key} {k : κ} {b b' : β} {before after : List β}

theorem entriesOf_cons (k : κ) (b : β) (chain : List β) : entriesOf same key k (b :: chain) =
    if same (key b) k then b :: entriesOf same key k chain else entriesOf same key k chain := by
  rw [entriesOf, List.filter_cons]
  simp only [decide_eq_true_eq]
  rfl

theorem entriesOf_append (before after : List β) : entriesOf same key k (before ++ after) =
    entriesOf same key k before ++ entriesOf same key k after := List.filter_append ..

theorem entriesOf_nil_of (h : ∀ x ∈ before, ¬same (key x) k) : entriesOf same key k before = [] := by
  rw [entriesOf, List.filter_eq_nil_iff]
  simpa using h

-- The first entry that a search for a key finds is the one that is seen.
theorem find_eq_head (k : κ) (chain : List β) :
    chain.find? (fun b => same (key b) k) = (entriesOf same key k chain).head? := by
  rw [entriesOf, List.head?_filter]

section Equivalence

variable (hsame : Equivalence same)

include hsame

-- A key that is the same as that of `b` has none of the entries in front of `b`.
theorem entriesOf_before (hb : ∀ x ∈ before, ¬same (key x) (key b)) (hk : same (key b) k) :
    entriesOf same key k before = [] :=
  entriesOf_nil_of fun x hx hs => hb x hx (hsame.trans hs (hsame.symm hk))

-- Without the entry `b`, its key sees what `b` hid, and the other keys see what they saw.
theorem entriesOf_erase (hb : ∀ x ∈ before, ¬same (key x) (key b)) (after : List β) (k : κ) :
    entriesOf same key k (before ++ after) = if same (key b) k
      then (entriesOf same key k (before ++ b :: after)).tail
      else entriesOf same key k (before ++ b :: after) := by
  by_cases hk : same (key b) k
  · rw [if_pos hk, entriesOf_append, entriesOf_append, entriesOf_before hsame hb hk,
      entriesOf_cons, if_pos hk]
    rfl
  · rw [if_neg hk, entriesOf_append, entriesOf_append, entriesOf_cons, if_neg hk]

-- With another entry in the place of `b`, its key sees that one.
theorem entriesOf_replace (hb : ∀ x ∈ before, ¬same (key x) (key b)) (hkey : key b' = key b)
    (after : List β) (k : κ) :
    entriesOf same key k (before ++ b' :: after) = if same (key b) k
      then b' :: (entriesOf same key k (before ++ b :: after)).tail
      else entriesOf same key k (before ++ b :: after) := by
  by_cases hk : same (key b) k
  · rw [if_pos hk, entriesOf_append, entriesOf_append, entriesOf_before hsame hb hk,
      entriesOf_cons, entriesOf_cons, hkey, if_pos hk, if_pos hk]
    rfl
  · rw [if_neg hk, entriesOf_append, entriesOf_append, entriesOf_cons, entriesOf_cons, hkey,
      if_neg hk, if_neg hk]

end Equivalence

end Shadow

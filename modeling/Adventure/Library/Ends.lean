import Mathlib.Order.Basic
import Mathlib.Tactic.Common

namespace Ends

universe u
variable {α β : Type u}

-- A call that may fail to come back. `Meets x stuck post` is its total specification: a result
-- satisfies `post`, and there is no result only if `stuck` holds.
def Meets (x : Option α) (stuck : Prop) (post : α → Prop) : Prop :=
  match x with
  | none => stuck
  | some a => post a

theorem Meets.pure {a : α} {stuck : Prop} {post : α → Prop} (h : post a) :
    Meets (some a) stuck post := h

-- Sequencing: the second call starts in any state that the first may end in.
theorem Meets.bind {x : Option α} {f : α → Option β} {stuck : Prop} {mid : α → Prop}
    {post : β → Prop} (hx : Meets x stuck mid) (hf : ∀ a, mid a → Meets (f a) stuck post) :
    Meets (x >>= f) stuck post := by
  cases x with
  | none => exact hx
  | some a => exact hf a hx

theorem Meets.mono {x : Option α} {stuck stuck' : Prop} {post post' : α → Prop}
    (hx : Meets x stuck post) (hs : stuck → stuck') (hp : ∀ a, post a → post' a) :
    Meets x stuck' post' := by
  cases x with
  | none => exact hs hx
  | some a => exact hp a hx

theorem Meets.with_eq {x : Option α} {stuck : Prop} {post : α → Prop} (hx : Meets x stuck post) :
    Meets x stuck fun a => x = some a ∧ post a := by
  cases x with
  | none => exact hx
  | some a => exact ⟨rfl, hx⟩

theorem Meets.of_eq_some {x : Option α} {stuck : Prop} {post : α → Prop} {a : α}
    (hx : Meets x stuck post) (h : x = some a) : post a := by
  subst h
  exact hx

theorem Meets.exists_some {x : Option α} {stuck : Prop} {post : α → Prop}
    (hx : Meets x stuck post) (h : ¬stuck) : ∃ a, x = some a ∧ post a := by
  cases x with
  | none => exact absurd hx h
  | some a => exact ⟨a, rfl, hx⟩

theorem Meets.and {x : Option α} {stuck : Prop} {post post' : α → Prop} (hx : Meets x stuck post)
    (hx' : Meets x True post') : Meets x stuck fun a => post a ∧ post' a := by
  cases x with
  | none => exact hx
  | some a => exact ⟨hx, hx'⟩

theorem meets_iff {x : Option α} {stuck : Prop} {post : α → Prop} :
    Meets x stuck post ↔ (∀ a, x = some a → post a) ∧ (x = none → stuck) := by
  cases x <;> simp [Meets]

-- A call that is only made when it is permitted, with what follows it.
theorem guarded_eq_some {permits : Prop} [Decidable permits] {x : Option α} {f : α → Option β} {b : β}
    (h : (if permits then x.bind f else none) = some b) :
    permits ∧ ∃ a, x = some a ∧ f a = some b := by
  split at h
  · rename_i hpermits
    exact ⟨hpermits, Option.bind_eq_some_iff.mp h⟩
  · cases h

-- The rule for a run that stops at a call that is not permitted: what each permitted call keeps holds
-- at the end.
theorem guarded_rule {σ ι : Type} (run : List ι → σ → Option σ) (permits : σ → ι → Prop)
    [∀ s op, Decidable (permits s op)] (step : σ → ι → Option σ) (inv : σ → Prop)
    (hnil : ∀ s, run [] s = some s)
    (hcons : ∀ op ops s, run (op :: ops) s = if permits s op then (step s op).bind (run ops) else none)
    (hstep : ∀ s op s', inv s → permits s op → step s op = some s' → inv s')
    {ops : List ι} {s s' : σ} (hs : inv s) (hrun : run ops s = some s') : inv s' := by
  induction ops generalizing s with
  | nil =>
      rw [hnil] at hrun
      exact Option.some.inj hrun ▸ hs
  | cons op ops ih =>
      rw [hcons] at hrun
      obtain ⟨hop, s₁, hs₁, hrest⟩ := guarded_eq_some hrun
      exact ih (hstep s op s₁ hs hop hs₁) hrest

end Ends

import Adventure.Struct.Trie
import Mathlib.Data.List.Infix
import Mathlib.Data.List.Nodup

namespace Adventure

theorem keyLen_eq (tkey : Option CStr) : (tkey.map strlen).getD 0 = (tkey.getD []).length := by
  cases tkey <;> rfl

theorem key_eq_some {tkey : Option CStr} {p : CStr} (h : tkey.getD [] = p) (hp : p ≠ []) :
    tkey = some p := by
  cases tkey with
  | none => exact absurd h.symm hp
  | some k => exact congrArg some h

theorem strncmp_eq_iff (a b : CStr) : strncmp a b a.length = .eq ↔ a <+: b := by
  induction a generalizing b with
  | nil => exact iff_of_true rfl List.nil_prefix
  | cons x a ih =>
      cases b with
      | nil => simp [strncmp]
      | cons y b =>
          rw [List.length_cons, strncmp, List.cons_prefix_cons]
          by_cases hxy : x = y
          · rw [if_pos hxy, ih]
            simp [hxy]
          · rw [if_neg hxy]
            split <;> simp [hxy]

theorem not_prefix_longer (p : CStr) (a : UInt8) : ¬p ++ [a] <+: p := by
  intro h
  have hle := h.length_le
  rw [List.length_append, List.length_singleton] at hle
  omega

namespace Trie

theorem not_prefix_of_ne {a b : UInt8} {p : CStr} (hne : b ≠ a) (rest : CStr) :
    ¬p ++ [b] <+: p ++ a :: rest := by
  rw [List.prefix_append_right_inj, List.cons_prefix_cons]
  exact fun h => hne h.1

theorem prefix_of_next (p : CStr) (a : UInt8) (rest : CStr) : p ++ [a] <+: p ++ a :: rest := by
  rw [List.prefix_append_right_inj, List.cons_prefix_cons]
  exact ⟨rfl, List.nil_prefix⟩

-- A string goes on with one letter only.
theorem letter_eq {a b : UInt8} {p k : CStr} (ha : p ++ [a] <+: k) (hb : p ++ [b] <+: k) : a = b := by
  have hab := List.prefix_of_prefix_length_le ha hb (by simp)
  rw [List.prefix_append_right_inj, List.cons_prefix_cons] at hab
  exact hab.1

-- The trie below the prefix `p`: its nodes and their values are those of `f`, which gives every
-- prefix with a node the value of the node. `n` bounds the height. A node has a child for each
-- letter that goes on, and no list of children when there is none.
def Below (f : CStr → Option Nat) : Nat → CStr → Trie → Prop
  | 0, _, _ => False
  | n + 1, p, .node key _ children => key.getD [] = p ∧ ∃ kids : List (UInt8 × Trie),
      children = (if kids = [] then none else some (kids.map Prod.snd)) ∧
      (kids.map Prod.fst).Nodup ∧ (∀ a, a ∈ kids.map Prod.fst ↔ f (p ++ [a]) ≠ none) ∧
      ∀ x ∈ kids, f (p ++ [x.1]) = some x.2.val ∧ Below f n (p ++ [x.1]) x.2

namespace Below

variable {f f' : CStr → Option Nat} {n m : Nat} {p q key : CStr} {t : Trie} {val : Nat}

theorem key_eq (h : Below f n p t) : t.key.getD [] = p := by
  cases n with
  | zero => cases h
  | succ n =>
      rcases t with ⟨tkey, tval, children⟩
      exact h.1

theorem mono (h : Below f n p t) (hnm : n ≤ m) : Below f m p t := by
  induction n generalizing m p t with
  | zero => cases h
  | succ n ih =>
      obtain ⟨m, rfl⟩ : ∃ k, m = k + 1 := ⟨m - 1, by omega⟩
      rcases t with ⟨tkey, tval, children⟩
      obtain ⟨hkey, kids, hc, hnodup, hletters, hkids⟩ := h
      exact ⟨hkey, kids, hc, hnodup, hletters, fun x hx =>
        ⟨(hkids x hx).1, ih (hkids x hx).2 (by omega)⟩⟩

-- Only the prefixes below `p` count.
theorem congr (h : Below f n p t) (heq : ∀ q, p <+: q → q ≠ p → f' q = f q) : Below f' n p t := by
  induction n generalizing p t with
  | zero => cases h
  | succ n ih =>
      rcases t with ⟨tkey, tval, children⟩
      obtain ⟨hkey, kids, hc, hnodup, hletters, hkids⟩ := h
      have hone : ∀ a, f' (p ++ [a]) = f (p ++ [a]) := fun a =>
        heq _ (List.prefix_append _ _) (by simp)
      refine ⟨hkey, kids, hc, hnodup, fun a => by rw [hone, hletters], fun x hx => ?_⟩
      refine ⟨(hone x.1).trans (hkids x hx).1, ih (hkids x hx).2 fun q hq hne => heq q ?_ ?_⟩
      · exact (List.prefix_append _ _).trans hq
      · rintro rfl
        exact not_prefix_longer _ _ hq

end Below

-- The children of a node other than the one for the letter `a`.
structure Siblings (f : CStr → Option Nat) (n : Nat) (p : CStr) (a : UInt8) (kids : List (UInt8 × Trie)) :
    Prop where
  out : a ∉ kids.map Prod.fst
  nodup : (kids.map Prod.fst).Nodup
  letters : ∀ b, b ≠ a → (b ∈ kids.map Prod.fst ↔ f (p ++ [b]) ≠ none)
  below : ∀ x ∈ kids, f (p ++ [x.1]) = some x.2.val ∧ Below f n (p ++ [x.1]) x.2

-- A node has a child for the letter, or the letter does not go on.
theorem Below.split {f : CStr → Option Nat} {n tval : Nat} {p : CStr} {tkey : Option CStr}
    {children : Option (List Trie)} (h : Below f (n + 1) p (.node tkey tval children)) (a : UInt8) :
    ∃ before after : List (UInt8 × Trie), Siblings f n p a (before ++ after) ∧
      ((∃ c, children = some (before.map Prod.snd ++ c :: after.map Prod.snd) ∧
          f (p ++ [a]) = some c.val ∧ Below f n (p ++ [a]) c) ∨
        after = [] ∧ children.getD [] = before.map Prod.snd ∧ f (p ++ [a]) = none) := by
  obtain ⟨-, kids, hc, hnodup, hletters, hkids⟩ := h
  by_cases ha : a ∈ kids.map Prod.fst
  · obtain ⟨⟨a, c⟩, hmem, rfl⟩ := List.mem_map.mp ha
    obtain ⟨before, after, rfl⟩ := List.append_of_mem hmem
    have hperm : (before ++ (a, c) :: after).Perm ((a, c) :: (before ++ after)) := List.perm_middle
    rw [(hperm.map Prod.fst).nodup_iff, List.map_cons, List.nodup_cons] at hnodup
    obtain ⟨hval, hbelow⟩ := hkids (a, c) (by simp)
    refine ⟨before, after, ⟨hnodup.1, hnodup.2, fun b hb => ?_, fun x hx => hkids x ?_⟩,
      Or.inl ⟨c, by simpa using hc, hval, hbelow⟩⟩
    · rw [← hletters b, (hperm.map Prod.fst).mem_iff, List.map_cons, List.mem_cons]
      simp [hb]
    · exact hperm.mem_iff.mpr (List.mem_cons_of_mem _ hx)
  · refine ⟨kids, [], ?_, Or.inr ⟨rfl, ?_, ?_⟩⟩
    · rw [List.append_nil]
      exact ⟨ha, hnodup, fun b _ => hletters b, hkids⟩
    · rw [hc]
      split
      · simp [*]
      · rfl
    · by_contra hsome
      exact ha ((hletters a).mpr hsome)

section Add

variable {f f' : CStr → Option Nat} {n steps : Nat} {p key : CStr} {t : Trie} {val : Nat}

-- A key elsewhere is refused.
theorem add_elsewhere (h : Below f n p t) (hp : ¬p <+: key) (hsteps : 0 < steps) :
    trieAddFrom steps t key val = some (-1, t) := by
  obtain ⟨steps, rfl⟩ : ∃ k, steps = k + 1 := ⟨steps - 1, by omega⟩
  have hkey := h.key_eq
  rcases t with ⟨tkey, tval, children⟩
  unfold Trie.key at hkey
  rw [trieAddFrom, keyLen_eq, hkey, if_pos (mt (strncmp_eq_iff p key).mp hp)]
  rfl

theorem addChildren_skip {add : Trie → Option (Int × Trie)} {cs : List Trie}
    (h : ∀ c ∈ cs, add c = some (-1, c)) (rest : List Trie) : trieAddChildren add (cs ++ rest) =
      (trieAddChildren add rest).map fun r => (r.1, cs ++ r.2) := by
  induction cs with
  | nil => simp
  | cons c cs ih =>
      simp only [List.forall_mem_cons] at h
      rw [List.cons_append, trieAddChildren, h.1, Option.bind_eq_bind, Option.bind_some,
        if_neg (show ¬(-1 : Int) = 0 by decide), ih h.2]
      cases trieAddChildren add rest <;> rfl

-- What an addition makes of the values: a prefix of the key that has no node gets one.
structure Extends (f f' : CStr → Option Nat) (key : CStr) (val : Nat) : Prop where
  other : ∀ q, ¬q <+: key → f' q = f q
  new : ∀ q, q <+: key → f' q = some ((f q).getD val)
  closed : ∀ q r, q <+: r → f q = none → f r = none

-- The node at `p` with the child for the next letter of the key set to `c`.
theorem Siblings.below_child {rest : CStr} {a : UInt8} {m tval : Nat} {tkey : Option CStr} {c : Trie}
    {before after : List (UInt8 × Trie)} (hs : Siblings f n p a (before ++ after))
    (he : Extends f f' (p ++ a :: rest) val) (hkey : tkey.getD [] = p)
    (hval : f' (p ++ [a]) = some c.val) (hc : Below f' m (p ++ [a]) c) :
    Below f' (max n m + 1) p
      (.node tkey tval (some (before.map Prod.snd ++ c :: after.map Prod.snd))) := by
  have hone : ∀ b, b ≠ a → f' (p ++ [b]) = f (p ++ [b]) := fun b hb =>
    he.other _ (not_prefix_of_ne hb rest)
  have hperm : (before ++ (a, c) :: after).Perm ((a, c) :: (before ++ after)) := List.perm_middle
  refine ⟨hkey, before ++ (a, c) :: after, by simp, ?_, fun b => ?_, fun x hx => ?_⟩
  · rw [(hperm.map Prod.fst).nodup_iff]
    exact List.nodup_cons.mpr ⟨hs.out, hs.nodup⟩
  · rw [(hperm.map Prod.fst).mem_iff, List.map_cons, List.mem_cons]
    by_cases hb : b = a
    · subst hb
      rw [hval]
      simp
    · rw [hone b hb, ← hs.letters b hb]
      simp [hb]
  · rcases List.mem_cons.mp (hperm.mem_iff.mp hx) with rfl | hx
    · exact ⟨hval, hc.mono (le_max_right _ _)⟩
    · have hxa : x.1 ≠ a := fun h => hs.out (h ▸ List.mem_map_of_mem hx)
      obtain ⟨hv, hbelow⟩ := hs.below x hx
      refine ⟨(hone _ hxa).trans hv, (hbelow.congr fun q hq _ => ?_).mono (le_max_left _ _)⟩
      exact he.other q fun hq' => not_prefix_of_ne hxa rest (hq.trans hq')

-- The node that a letter of the key gets.
theorem make_below (hclosed : ∀ q r, q <+: r → f q = none → f r = none) {a : UInt8}
    (hnone : f (p ++ [a]) = none) (rest : CStr) (val : Nat) :
    Below f 1 (p ++ [a]) (trieMakeNode (p ++ a :: rest) (p.length + 1) val) := by
  refine ⟨?_, [], rfl, List.nodup_nil, fun b => iff_of_false (by simp) ?_, by simp⟩
  · simp [List.take_append]
  · exact not_not.mpr (hclosed _ _ (List.prefix_append _ [b]) hnone)

-- The siblings refuse the key.
theorem Siblings.skip {a : UInt8} {kids before : List (UInt8 × Trie)} (hs : Siblings f n p a kids)
    (hsub : before ⊆ kids) (hsteps : 0 < steps) (rest : CStr) (val : Nat) :
    ∀ c ∈ before.map Prod.snd, trieAddFrom steps c (p ++ a :: rest) val = some (-1, c) := by
  intro c hc
  obtain ⟨x, hx, rfl⟩ := List.mem_map.mp hc
  have hxa : x.1 ≠ a := fun h => hs.out (h ▸ List.mem_map_of_mem (hsub hx))
  exact add_elsewhere (hs.below x (hsub hx)).2 (not_prefix_of_ne hxa rest) hsteps

theorem add_below (he : Extends f f' key val) (h : Below f n p t) (hp : p <+: key)
    (hsteps : key.length < steps + p.length) : ∃ t', trieAddFrom steps t key val = some (0, t') ∧
      t'.val = t.val ∧ Below f' (max n (key.length - p.length + 1)) p t' := by
  induction steps generalizing n p t with
  | zero =>
      have hle := hp.length_le
      omega
  | succ steps ih =>
      have hkey := h.key_eq
      obtain ⟨rest, rfl⟩ := hp
      rcases t with ⟨tkey, tval, children⟩
      unfold Trie.key at hkey
      rw [trieAddFrom, keyLen_eq, hkey,
        if_neg (not_not.mpr ((strncmp_eq_iff p _).mpr (List.prefix_append _ _)))]
      cases rest with
      | nil =>
          -- the node is there already
          rw [if_pos (by simp [strlen])]
          refine ⟨_, rfl, rfl,
            (h.congr fun q hq hne => he.other q fun hq' => hne ?_).mono (le_max_left _ _)⟩
          rw [List.append_nil] at hq'
          exact hq'.eq_of_length_le hq.length_le
      | cons a rest =>
          cases n with
          | zero => cases h
          | succ n =>
              have hpre := prefix_of_next p a rest
              have hlen' : (p ++ a :: rest).length < steps + (p ++ [a]).length := by
                simp only [List.length_append, List.length_cons, List.length_nil] at hsteps ⊢
                omega
              have hpos : 0 < steps := by
                simp only [List.length_append, List.length_cons] at hsteps
                omega
              have hheight : max (n + 1) ((p ++ a :: rest).length - p.length + 1) =
                  max n (rest.length + 1) + 1 := by
                rw [List.length_append, List.length_cons]
                omega
              have hheight' : (p ++ a :: rest).length - (p ++ [a]).length + 1 = rest.length + 1 := by
                simp only [List.length_append, List.length_cons, List.length_nil]
                omega
              rw [if_neg (by simp [strlen]), hheight]
              rcases h.split a with ⟨before, after, hs, ⟨c, rfl, hcval, hbelow⟩ | ⟨rfl, hcs, hnone⟩⟩
              · -- the child for the letter takes the key
                obtain ⟨c', hadd, hval', hbelow'⟩ := ih hbelow hpre hlen'
                have hskip := addChildren_skip
                  (hs.skip (List.subset_append_left before after) hpos rest val)
                  (c :: after.map Prod.snd)
                rw [Option.getD_some, hskip, trieAddChildren, hadd]
                refine ⟨_, rfl, rfl, ?_⟩
                rw [hheight'] at hbelow'
                have hnew : f' (p ++ [a]) = some c'.val := by
                  rw [he.new _ hpre, hcval, hval']
                  rfl
                exact (hs.below_child he hkey hnew hbelow').mono (by omega)
              · -- a new child, with the rest of the key below it
                rw [List.append_nil] at hs
                obtain ⟨c', hadd, hval', hbelow'⟩ := ih (make_below he.closed hnone rest val) hpre hlen'
                have hskip := addChildren_skip (hs.skip (List.Subset.refl before) hpos rest val) []
                rw [List.append_nil] at hskip
                rw [hcs, hskip]
                simp only [trieAddChildren, Option.map_some, List.append_nil, Option.bind_eq_bind,
                  Option.bind_some, if_neg (show ¬(-1 : Int) = 0 by decide), hadd]
                refine ⟨_, rfl, rfl, ?_⟩
                rw [hheight'] at hbelow'
                have hnew : f' (p ++ [a]) = some c'.val := by
                  rw [he.new _ hpre, hnone, hval']
                  rfl
                have hs' : Siblings f n p a (before ++ []) := by rwa [List.append_nil]
                exact (hs'.below_child he hkey hnew hbelow').mono (by omega)

end Add

section Get

variable {f : CStr → Option Nat} {n steps : Nat} {p q : CStr} {t : Trie}

-- A node whose key the string does not begin with gives NULL, ...
theorem get_elsewhere (h : Below f n p t) (hp : ¬p <+: q) (hsteps : 0 < steps) :
    trieGetSubtrieFrom steps t q = some none := by
  obtain ⟨steps, rfl⟩ : ∃ k, steps = k + 1 := ⟨steps - 1, by omega⟩
  have hkey := h.key_eq
  rcases t with ⟨tkey, tval, children⟩
  unfold Trie.key at hkey
  have hne := mt (strncmp_eq_iff p q).mp hp
  cases children <;> rw [trieGetSubtrieFrom, keyLen_eq, hkey, if_pos hne]

-- ... one without children its own value for its own key, ...
theorem get_leaf {tkey : Option CStr} (hkey : tkey.getD [] = p) (hp : p <+: q) (tval : Nat) :
    trieGetSubtrieFrom (steps + 1) (.node tkey tval none) q =
      some (if p.length = strlen q then some (.node tkey tval none) else none) := by
  rw [trieGetSubtrieFrom, keyLen_eq, hkey, if_neg (not_not.mpr ((strncmp_eq_iff p q).mpr hp))]

-- ... and one with children what they give.
theorem get_children {tkey : Option CStr} (hkey : tkey.getD [] = p) (hp : p <+: q) (tval : Nat)
    (cs : List Trie) : trieGetSubtrieFrom (steps + 1) (.node tkey tval (some cs)) q =
      trieGetChildren (fun child => trieGetSubtrieFrom steps child q) cs := by
  rw [trieGetSubtrieFrom, keyLen_eq, hkey, if_neg (not_not.mpr ((strncmp_eq_iff p q).mpr hp))]

theorem getChildren_skip {get : Trie → Option (Option Trie)} {cs : List Trie}
    (h : ∀ c ∈ cs, get c = some none) (rest : List Trie) :
    trieGetChildren get (cs ++ rest) = trieGetChildren get rest := by
  induction cs with
  | nil => rfl
  | cons c cs ih =>
      simp only [List.forall_mem_cons] at h
      rw [List.cons_append, trieGetChildren, h.1, Option.bind_eq_bind, Option.bind_some,
        if_neg (by simp), ih h.2]

theorem getChildren_null {get : Trie → Option (Option Trie)} {cs : List Trie}
    (h : ∀ c ∈ cs, get c = some none) : trieGetChildren get cs = some none := by
  have hs := getChildren_skip h []
  rwa [List.append_nil] at hs

-- The siblings have no node for the key.
theorem Siblings.get_skip {a : UInt8} {kids part : List (UInt8 × Trie)} (hs : Siblings f n p a kids)
    (hsub : part ⊆ kids) (hsteps : 0 < steps) (rest : CStr) :
    ∀ c ∈ part.map Prod.snd, trieGetSubtrieFrom steps c (p ++ a :: rest) = some none := by
  intro c hc
  obtain ⟨x, hx, rfl⟩ := List.mem_map.mp hc
  have hxa : x.1 ≠ a := fun h => hs.out (h ▸ List.mem_map_of_mem (hsub hx))
  exact get_elsewhere (hs.below x (hsub hx)).2 (not_prefix_of_ne hxa rest) hsteps

theorem get_self (h : Below f n p t) (hval : f p = some t.val) (hsteps : 1 < steps) :
    ∃ res, trieGetSubtrieFrom steps t p = some res ∧
      ∀ v, res.map Trie.val = some v ↔ f p = some v ∧ ∀ a, f (p ++ [a]) = none := by
  obtain ⟨steps, rfl⟩ : ∃ k, steps = k + 1 := ⟨steps - 1, by omega⟩
  have hkey := h.key_eq
  rcases t with ⟨tkey, tval, children⟩
  unfold Trie.key at hkey
  cases n with
  | zero => cases h
  | succ n =>
      obtain ⟨-, kids, rfl, hnodup, hletters, hkids⟩ := h
      by_cases hnil : kids = []
      · subst hnil
        have hleaf : ∀ a, f (p ++ [a]) = none := fun a => by simpa using hletters a
        rw [if_pos rfl, get_leaf hkey (List.prefix_refl p), if_pos (show p.length = strlen p from rfl)]
        refine ⟨_, rfl, fun v => ?_⟩
        rw [hval]
        simp [hleaf, Trie.val]
      · -- the keys of all children are longer
        have hnull : ∀ c ∈ kids.map Prod.snd, trieGetSubtrieFrom steps c p = some none := by
          intro c hc
          obtain ⟨x, hx, rfl⟩ := List.mem_map.mp hc
          exact get_elsewhere (hkids x hx).2 (not_prefix_longer p x.1) (by omega)
        obtain ⟨x, hx⟩ := List.exists_mem_of_ne_nil kids hnil
        rw [if_neg hnil, get_children hkey (List.prefix_refl p), getChildren_null hnull]
        refine ⟨none, rfl, fun v => iff_of_false (by simp) fun hf => ?_⟩
        exact (hletters x.1).mp (List.mem_map_of_mem hx) (hf.2 x.1)

-- A lookup finds the node of a key if that has no children.
theorem get_below (hclosed : ∀ q r, q <+: r → f q = none → f r = none) (h : Below f n p t)
    (hval : f p = some t.val) (hp : p <+: q) (hsteps : q.length + 1 < steps + p.length) :
    ∃ res, trieGetSubtrieFrom steps t q = some res ∧
      ∀ v, res.map Trie.val = some v ↔ f q = some v ∧ ∀ a, f (q ++ [a]) = none := by
  induction steps generalizing n p t with
  | zero =>
      have hle := hp.length_le
      omega
  | succ steps ih =>
      obtain ⟨rest, rfl⟩ := hp
      rw [List.length_append] at hsteps
      cases rest with
      | nil =>
          rw [List.append_nil]
          exact get_self h hval (by rw [List.length_nil] at hsteps; omega)
      | cons a rest =>
          have hkey := h.key_eq
          have hpre := prefix_of_next p a rest
          have hself := List.prefix_append p (a :: rest)
          rcases t with ⟨tkey, tval, children⟩
          unfold Trie.key at hkey
          rw [List.length_cons] at hsteps
          have hpos : 0 < steps := by omega
          cases n with
          | zero => cases h
          | succ n =>
              rcases h.split a with ⟨before, after, hs, ⟨c, rfl, hcval, hbelow⟩ | ⟨rfl, hcs, hnone⟩⟩
              · -- what the child for the letter gives; the others give NULL
                obtain ⟨res, hres, hiff⟩ := ih hbelow hcval hpre (by
                  simp only [List.length_append, List.length_cons, List.length_nil]
                  omega)
                have hb := hs.get_skip (List.subset_append_left before after) hpos rest
                have ha := hs.get_skip (List.subset_append_right before after) hpos rest
                refine ⟨res, ?_, hiff⟩
                rw [get_children hkey hself, getChildren_skip hb, trieGetChildren, hres]
                cases res with
                | none => exact getChildren_null ha
                | some t => rfl
              · refine ⟨none, ?_, fun v => iff_of_false (by simp) fun hf => ?_⟩
                · cases children with
                  | none =>
                      rw [get_leaf hkey hself, if_neg (by simp [strlen])]
                  | some cs =>
                      obtain rfl : cs = before.map Prod.snd := hcs
                      rw [List.append_nil] at hs
                      rw [get_children hkey hself,
                        getChildren_null (hs.get_skip (List.Subset.refl before) hpos rest)]
                · rw [hclosed _ _ hpre hnone] at hf
                  cases hf.1

end Get

end Trie

end Adventure

import Mathlib.Data.List.Induction
import Mathlib.Order.Lattice
import Mathlib.Order.Defs.LinearOrder

universe u v w

-- The content of a branch of a search tree: children with a separator between each two.
inductive Row (σ : Type u) (κ : Type v)
  | last (child : σ)
  | cons (child : σ) (sep : κ) (row : Row σ κ)

-- What an insertion makes of one child: a new child, or two with a separator between them.
inductive Growth (σ : Type u) (κ : Type v)
  | one (child : σ)
  | two (left : σ) (sep : κ) (right : σ)

namespace Growth

variable {σ : Type u} {τ : Type w} {κ : Type v}

def kids : Growth σ κ → List σ
  | one child => [child]
  | two left _ right => [left, right]

def map (f : σ → τ) : Growth σ κ → Growth τ κ
  | one child => one (f child)
  | two left sep right => two (f left) sep (f right)

-- Children and separators in their order, for children that are written like separators.
def flat : Growth κ κ → List κ
  | one child => [child]
  | two left sep right => [left, sep, right]

end Growth

namespace Row

variable {σ : Type u} {τ : Type w} {κ : Type v}

def kids : Row σ κ → List σ
  | last child => [child]
  | cons child _ row => child :: row.kids

def seps : Row σ κ → List κ
  | last _ => []
  | cons _ sep row => sep :: row.seps

def map (f : σ → τ) : Row σ κ → Row τ κ
  | last child => last (f child)
  | cons child sep row => cons (f child) sep (row.map f)

def flat : Row κ κ → List κ
  | last child => [child]
  | cons child sep row => child :: sep :: row.flat

-- Two rows with a separator between them.
def join : Row σ κ → κ → Row σ κ → Row σ κ
  | last child, mid, right => cons child mid right
  | cons child sep row, mid, right => cons child sep (row.join mid right)

@[simp] theorem kids_map (f : σ → τ) (row : Row σ κ) : (row.map f).kids = row.kids.map f := by
  induction row with
  | last child => rfl
  | cons child sep row ih => simp [map, kids, ih]

@[simp] theorem seps_map (f : σ → τ) (row : Row σ κ) : (row.map f).seps = row.seps := by
  induction row with
  | last child => rfl
  | cons child sep row ih => simp [map, seps, ih]

@[simp] theorem kids_join (left right : Row σ κ) (mid : κ) :
    (left.join mid right).kids = left.kids ++ right.kids := by
  induction left with
  | last child => rfl
  | cons child sep row ih => simp [join, kids, ih]

@[simp] theorem seps_join (left right : Row σ κ) (mid : κ) :
    (left.join mid right).seps = left.seps ++ mid :: right.seps := by
  induction left with
  | last child => rfl
  | cons child sep row ih => simp [join, seps, ih]

theorem flat_join (left right : Row κ κ) (mid : κ) :
    (left.join mid right).flat = left.flat ++ mid :: right.flat := by
  induction left with
  | last child => rfl
  | cons child sep row ih => simp [join, flat, ih]

theorem exists_first (f : σ → κ) (row : Row σ κ) : ∃ child kids rest, row.kids = child :: kids ∧
    (row.map f).flat = f child :: rest := by
  cases row with
  | last child => exact ⟨child, [], [], rfl, rfl⟩
  | cons child sep row => exact ⟨child, row.kids, sep :: (row.map f).flat, rfl, rfl⟩

theorem length_flat (row : Row κ κ) : row.flat.length = 2 * row.seps.length + 1 := by
  induction row with
  | last child => rfl
  | cons child sep row ih => simp [flat, seps, ih]; omega

theorem length_kids (row : Row σ κ) : row.kids.length = row.seps.length + 1 := by
  induction row with
  | last child => rfl
  | cons child sep row ih => simp [kids, seps, ih]

-- The flat form determines the row.
theorem flat_injective : Function.Injective (flat : Row κ κ → List κ) := by
  intro row row' h
  induction row generalizing row' with
  | last child =>
      cases row' with
      | last child' => simpa [flat] using h
      | cons child' sep' row' => cases row' <;> simp [flat] at h
  | cons child sep row ih =>
      cases row' with
      | last child' => cases row <;> simp [flat] at h
      | cons child' sep' row' =>
          simp only [flat, List.cons.injEq] at h
          obtain ⟨rfl, rfl, h⟩ := h
          rw [ih h]

-- Child number `i` is entry number `2 * i` of the flat form, ...
theorem flat_of_kids {row : Row κ κ} {i : ℕ} {child : κ} (h : row.kids[i]? = some child) :
    ∃ before after, row.flat = before ++ child :: after ∧ before.length = 2 * i := by
  induction row generalizing i with
  | last child' =>
      cases i with
      | zero => exact ⟨[], [], by simpa [kids, flat] using h, rfl⟩
      | succ i => simp [kids] at h
  | cons child' sep row ih =>
      cases i with
      | zero => exact ⟨[], sep :: row.flat, by simpa [kids, flat] using h, rfl⟩
      | succ i =>
          obtain ⟨before, after, hf, hl⟩ := ih (by simpa [kids] using h)
          exact ⟨child' :: sep :: before, after, by simp [flat, hf], by simp [hl]; omega⟩

-- ... and separator number `i` follows it.
theorem flat_of_seps {row : Row κ κ} {i : ℕ} {sep : κ} (h : row.seps[i]? = some sep) :
    ∃ before after, row.flat = before ++ sep :: after ∧ before.length = 2 * i + 1 := by
  induction row generalizing i with
  | last child' => simp [seps] at h
  | cons child' sep' row ih =>
      cases i with
      | zero => exact ⟨[child'], row.flat, by simpa [seps, flat] using h, rfl⟩
      | succ i =>
          obtain ⟨before, after, hf, hl⟩ := ih (by simpa [seps] using h)
          exact ⟨child' :: sep' :: before, after, by simp [flat, hf], by simp [hl]; omega⟩

-- Cutting a row at its separator number `cut`.
theorem exists_join (row : Row σ κ) (cut : ℕ) (h : cut < row.seps.length) :
    ∃ left mid right, row = join left mid right ∧ left.seps.length = cut := by
  induction row generalizing cut with
  | last child => simp [seps] at h
  | cons child sep row ih =>
      cases cut with
      | zero => exact ⟨last child, sep, row, rfl, rfl⟩
      | succ cut =>
          obtain ⟨left, mid, right, rfl, hl⟩ := ih cut (by simpa [seps] using h)
          exact ⟨cons child sep left, mid, right, rfl, by simp [seps, hl]⟩

-- A cut of the image of a row is the image of a cut.
theorem exists_join_of_map {f : σ → τ} {row : Row σ κ} {left right : Row τ κ} {mid : κ}
    (h : row.map f = left.join mid right) :
    ∃ l r, row = join l mid r ∧ l.map f = left ∧ r.map f = right := by
  induction left generalizing row with
  | last child =>
      cases row with
      | last child' => simp [map, join] at h
      | cons child' sep row =>
          simp only [map, join, cons.injEq] at h
          obtain ⟨rfl, rfl, rfl⟩ := h
          exact ⟨last child', row, rfl, rfl, rfl⟩
  | cons child sep left ih =>
      cases row with
      | last child' => simp [map, join] at h
      | cons child' sep' row =>
          simp only [map, join, cons.injEq] at h
          obtain ⟨rfl, rfl, h⟩ := h
          obtain ⟨l, r, rfl, rfl, rfl⟩ := ih h
          exact ⟨cons child' sep' l, r, rfl, rfl, rfl⟩

section Grown

variable {l r row' : Row κ κ} {mid child left sep right : κ} {before after : List κ}

-- A row that is cut at a separator, and a child of it that two children and a separator take the
-- place of. If the child lies left of the cut, only the part there grows, ...
theorem exists_join_left (hf : (l.join mid r).flat = before ++ child :: after)
    (hf' : row'.flat = before ++ [left, sep, right] ++ after) (hle : before.length < l.flat.length) :
    ∃ (l' : Row κ κ) (rest : List κ), row' = l'.join mid r ∧ l.flat = before ++ child :: rest ∧
      l'.flat = before ++ [left, sep, right] ++ rest := by
  rw [flat_join] at hf
  obtain ⟨rest, hl, hrest⟩ : ∃ rest, l.flat = before ++ child :: rest ∧ after = rest ++ mid :: r.flat := by
    rcases List.append_eq_append_iff.mp hf with ⟨c, hc, -⟩ | ⟨c, hc, hr⟩
    · have hlen := congrArg List.length hc
      rw [List.length_append] at hlen
      omega
    · cases c with
      | nil =>
          rw [List.append_nil] at hc
          rw [hc] at hle
          omega
      | cons w c =>
          obtain ⟨rfl, rfl⟩ := List.cons.inj hr
          exact ⟨c, hc, rfl⟩
  have hcount := congrArg List.length hl
  have hcount' := congrArg List.length hf'
  rw [hrest] at hcount'
  simp only [List.length_append, List.length_cons, List.length_nil, length_flat] at hcount hcount'
  obtain ⟨l', mid', r', rfl, hl'⟩ := row'.exists_join (l.seps.length + 1) (by omega)
  have hcut : l'.flat ++ mid' :: r'.flat = (before ++ [left, sep, right] ++ rest) ++ mid :: r.flat := by
    rw [← flat_join, hf', hrest]
    simp
  obtain ⟨hleft, hright⟩ := List.append_inj hcut (by
    simp only [length_flat, List.length_append, List.length_cons, List.length_nil]
    omega)
  obtain ⟨rfl, hr⟩ := List.cons.inj hright
  rw [flat_injective hr]
  exact ⟨l', rest, rfl, hl, hleft⟩

-- ... and if it lies right of the cut, only the part there.
theorem exists_join_right (hf : (l.join mid r).flat = before ++ child :: after)
    (hf' : row'.flat = before ++ [left, sep, right] ++ after) (hlt : l.flat.length < before.length) :
    ∃ (first : List κ) (r' : Row κ κ), row' = l.join mid r' ∧
      before = l.flat ++ mid :: first ∧ r.flat = first ++ child :: after ∧
      r'.flat = first ++ [left, sep, right] ++ after := by
  rw [flat_join] at hf
  obtain ⟨first, rfl, hr⟩ :
      ∃ first, before = l.flat ++ mid :: first ∧ r.flat = first ++ child :: after := by
    rcases List.append_eq_append_iff.mp hf with ⟨c, rfl, hr⟩ | ⟨c, hc, -⟩
    · cases c with
      | nil =>
          rw [List.append_nil] at hlt
          omega
      | cons w c =>
          obtain ⟨rfl, hr'⟩ := List.cons.inj hr
          exact ⟨c, rfl, hr'⟩
    · have hlen := congrArg List.length hc
      rw [List.length_append] at hlen
      omega
  have hcount := congrArg List.length hf'
  simp only [List.length_append, List.length_cons, List.length_nil, length_flat] at hcount
  obtain ⟨l', mid', r', rfl, hl'⟩ := row'.exists_join l.seps.length (by omega)
  have hcut : l'.flat ++ mid' :: r'.flat = l.flat ++ mid :: (first ++ [left, sep, right] ++ after) := by
    rw [← flat_join, hf']
    simp
  obtain ⟨hleft, hright⟩ := List.append_inj hcut (by rw [length_flat, length_flat, hl'])
  obtain ⟨rfl, hr'⟩ := List.cons.inj hright
  rw [flat_injective hleft]
  exact ⟨first, r', rfl, rfl, hr, hr'⟩

end Grown

section Search

variable [LinearOrder κ]

-- The child that a search for `key` goes to: the one left of the first separator above the key.
def pick (key : κ) : Row σ κ → σ
  | last child => child
  | cons child sep row => if key < sep then child else row.pick key

-- Its position.
def index (key : κ) : Row σ κ → ℕ
  | last _ => 0
  | cons _ sep row => if key < sep then 0 else row.index key + 1

-- The row with that child replaced by what it grew into.
def graft (key : κ) (g : Growth σ κ) : Row σ κ → Row σ κ
  | last _ =>
      match g with
      | .one child => last child
      | .two left mid right => cons left mid (last right)
  | cons child sep row =>
      if key < sep then
        match g with
        | .one child => cons child sep row
        | .two left mid right => cons left mid (cons right sep row)
      else cons child sep (row.graft key g)

theorem pick_mem (key : κ) (row : Row σ κ) : row.pick key ∈ row.kids := by
  induction row with
  | last child => simp [pick, kids]
  | cons child sep row ih =>
      by_cases h : key < sep
      · simp [pick, kids, h]
      · simp [pick, kids, h, ih]

theorem pick_map (f : σ → τ) (key : κ) (row : Row σ κ) :
    (row.map f).pick key = f (row.pick key) := by
  induction row with
  | last child => rfl
  | cons child sep row ih =>
      simp only [map, pick, ih]
      split <;> rfl

@[simp] theorem index_map (f : σ → τ) (key : κ) (row : Row σ κ) :
    (row.map f).index key = row.index key := by
  induction row with
  | last child => rfl
  | cons child sep row ih => simp only [map, index, ih]

theorem index_le (key : κ) (row : Row σ κ) : row.index key ≤ row.seps.length := by
  induction row with
  | last child => exact le_rfl
  | cons child sep row ih =>
      simp only [index, seps, List.length_cons]
      split <;> omega

theorem map_graft (f : σ → τ) (key : κ) (g : Growth σ κ) (row : Row σ κ) :
    (row.graft key g).map f = (row.map f).graft key (g.map f) := by
  induction row with
  | last child => cases g <;> rfl
  | cons child sep row ih =>
      simp only [graft, map]
      split
      · cases g <;> rfl
      · rw [map, ih]

-- The children around the one that a search picks stay as they are.
theorem kids_graft (key : κ) (row : Row σ κ) : ∃ before after,
    row.kids = before ++ row.pick key :: after ∧
      ∀ g, (row.graft key g).kids = before ++ g.kids ++ after := by
  induction row with
  | last child => exact ⟨[], [], rfl, fun g => by cases g <;> rfl⟩
  | cons child sep row ih =>
      by_cases h : key < sep
      · refine ⟨[], row.kids, by simp [pick, kids, h], fun g => ?_⟩
        cases g <;> simp [graft, h, kids, Growth.kids]
      · rcases ih with ⟨before, after, hk, hg⟩
        refine ⟨child :: before, after, by simp [pick, kids, h, hk], fun g => ?_⟩
        simp [graft, h, kids, hg]

-- The same for the flat form, where the child at position `i` is entry number `2 * i`.
theorem flat_graft (key : κ) (row : Row κ κ) : ∃ before after,
    row.flat = before ++ row.pick key :: after ∧ before.length = 2 * row.index key ∧
      ∀ g, (row.graft key g).flat = before ++ g.flat ++ after := by
  induction row with
  | last child => exact ⟨[], [], rfl, rfl, fun g => by cases g <;> rfl⟩
  | cons child sep row ih =>
      by_cases h : key < sep
      · refine ⟨[], sep :: row.flat, by simp [pick, flat, h], by simp [index, h], fun g => ?_⟩
        cases g <;> simp [graft, h, flat, Growth.flat]
      · rcases ih with ⟨before, after, hf, hl, hg⟩
        refine ⟨child :: sep :: before, after, by simp [pick, flat, h, hf], ?_, fun g => ?_⟩
        · simp [index, h, hl]
          omega
        · simp [graft, h, flat, hg]

theorem length_seps_graft_one (key : κ) (child : σ) (row : Row σ κ) :
    (row.graft key (.one child)).seps.length = row.seps.length := by
  induction row with
  | last => rfl
  | cons child' sep row ih =>
      simp only [graft]
      split <;> simp [seps, ih]

theorem length_seps_graft_two (key mid : κ) (left right : σ) (row : Row σ κ) :
    (row.graft key (.two left mid right)).seps.length = row.seps.length + 1 := by
  induction row with
  | last => rfl
  | cons child' sep row ih =>
      simp only [graft]
      split <;> simp [seps, ih]

end Search

section Ordered

variable [LinearOrder κ]

-- Every separator lies above the keys of the children left of it and not above those right of it.
def Ordered (keys : σ → List κ) : Row σ κ → Prop
  | last _ => True
  | cons child sep row => (∀ x ∈ keys child, x < sep) ∧
      (∀ kid ∈ row.kids, ∀ x ∈ keys kid, sep ≤ x) ∧ row.Ordered keys

variable {keys : σ → List κ}

-- What only a child with the key can have, the child that a search for the key picks has.
theorem Ordered.exists_iff_pick {row : Row σ κ} (h : row.Ordered keys) {key : κ} {P : σ → Prop}
    (hP : ∀ kid, P kid → key ∈ keys kid) : (∃ kid ∈ row.kids, P kid) ↔ P (row.pick key) := by
  refine ⟨?_, fun hp => ⟨_, pick_mem key row, hp⟩⟩
  induction row with
  | last child =>
      rintro ⟨kid, hkid, hp⟩
      simp only [kids, List.mem_singleton] at hkid
      exact hkid ▸ hp
  | cons child sep row ih =>
      rintro ⟨kid, hkid, hp⟩
      obtain ⟨hlt, hle, hrow⟩ := h
      rcases List.mem_cons.mp hkid with rfl | hkid
      · rwa [pick, if_pos (hlt key (hP _ hp))]
      · rw [pick, if_neg (not_lt.mpr (hle kid hkid key (hP _ hp)))]
        exact ih hrow ⟨kid, hkid, hp⟩

-- The keys of all children ascend when those of each child do.
theorem Ordered.pairwise_flatMap {row : Row σ κ} (h : row.Ordered keys)
    (hkids : ∀ kid ∈ row.kids, (keys kid).Pairwise (· < ·)) :
    (row.kids.flatMap keys).Pairwise (· < ·) := by
  induction row with
  | last child => simpa [kids] using hkids
  | cons child sep row ih =>
      obtain ⟨hlt, hle, hrow⟩ := h
      simp only [kids, List.forall_mem_cons] at hkids
      simp only [kids, List.flatMap_cons, List.pairwise_append, List.mem_flatMap]
      refine ⟨hkids.1, ih hrow hkids.2, ?_⟩
      rintro x hx y ⟨kid, hkid, hy⟩
      exact (hlt x hx).trans_le (hle kid hkid y hy)

theorem Ordered.join_inv {left right : Row σ κ} {mid : κ}
    (h : (left.join mid right).Ordered keys) (hne : ∀ kid ∈ left.kids, keys kid ≠ []) :
    left.Ordered keys ∧ right.Ordered keys ∧ (∀ kid ∈ left.kids, ∀ x ∈ keys kid, x < mid) ∧
      ∀ kid ∈ right.kids, ∀ x ∈ keys kid, mid ≤ x := by
  induction left with
  | last child =>
      obtain ⟨hlt, hle, hright⟩ := h
      refine ⟨trivial, hright, fun kid hkid => ?_, hle⟩
      simp only [kids, List.mem_singleton] at hkid
      exact hkid ▸ hlt
  | cons child sep row ih =>
      obtain ⟨hlt, hle, hrest⟩ := h
      simp only [kids, List.forall_mem_cons] at hne
      obtain ⟨hl, hr, hlm, hmr⟩ := ih hrest hne.2
      simp only [kids_join, List.mem_append] at hle
      refine ⟨⟨hlt, fun kid hkid => hle kid (Or.inl hkid), hl⟩, hr, ?_, hmr⟩
      -- a key between `sep` and `mid` shows that the first child lies below `mid` too
      have hsep : sep < mid := by
        have hm := pick_mem sep row
        obtain ⟨y, hy⟩ := List.exists_mem_of_ne_nil _ (hne.2 _ hm)
        exact (hle _ (Or.inl hm) y hy).trans_lt (hlm _ hm y hy)
      simp only [kids, List.forall_mem_cons]
      exact ⟨fun x hx => (hlt x hx).trans hsep, hlm⟩

-- The separators ascend when no child is empty.
theorem Ordered.pairwise_seps {row : Row σ κ} (h : row.Ordered keys)
    (hne : ∀ kid ∈ row.kids, keys kid ≠ []) :
    row.seps.Pairwise (· < ·) ∧ ∀ sep ∈ row.seps, ∃ kid ∈ row.kids, ∃ x ∈ keys kid, x < sep := by
  induction row with
  | last child => simp [seps]
  | cons child sep row ih =>
      obtain ⟨hlt, hle, hrow⟩ := h
      simp only [kids, List.forall_mem_cons] at hne
      obtain ⟨hp, hex⟩ := ih hrow hne.2
      obtain ⟨y, hy⟩ := List.exists_mem_of_ne_nil _ hne.1
      simp only [seps, List.pairwise_cons, kids, List.forall_mem_cons]
      refine ⟨⟨fun sep' hs => ?_, hp⟩, ⟨child, List.mem_cons_self, y, hy, hlt y hy⟩,
        fun sep' hs => ?_⟩
      · obtain ⟨kid, hkid, x, hx, hxs⟩ := hex sep' hs
        exact (hle kid hkid x hx).trans_lt hxs
      · obtain ⟨kid, hkid, hx⟩ := hex sep' hs
        exact ⟨kid, List.mem_cons_of_mem _ hkid, hx⟩

-- A separator lies above all keys left of it and not above any key right of it.
theorem Ordered.between {row : Row σ κ} (h : row.Ordered keys)
    (hne : ∀ kid ∈ row.kids, keys kid ≠ []) {i j : ℕ} {kid : σ} {sep : κ}
    (hkid : row.kids[j]? = some kid) (hsep : row.seps[i]? = some sep) {x : κ} (hx : x ∈ keys kid) :
    (j ≤ i → x < sep) ∧ (i < j → sep ≤ x) := by
  induction row generalizing i j with
  | last child => simp [seps] at hsep
  | cons child sep' row ih =>
      have hseps := h.pairwise_seps hne
      obtain ⟨hlt, hle, hrow⟩ := h
      simp only [kids, List.forall_mem_cons] at hne
      simp only [seps, List.pairwise_cons] at hseps
      cases j with
      | zero =>
          obtain rfl : child = kid := by simpa [kids] using hkid
          refine ⟨fun _ => ?_, fun hij => absurd hij (Nat.not_lt_zero i)⟩
          cases i with
          | zero =>
              obtain rfl : sep' = sep := by simpa [seps] using hsep
              exact hlt x hx
          | succ i =>
              have hm : sep ∈ row.seps := List.mem_of_getElem? (by simpa [seps] using hsep)
              exact (hlt x hx).trans (hseps.1.1 sep hm)
      | succ j =>
          have hk : row.kids[j]? = some kid := by simpa [kids] using hkid
          cases i with
          | zero =>
              obtain rfl : sep' = sep := by simpa [seps] using hsep
              exact ⟨fun hij => absurd hij (by omega), fun _ => hle kid (List.mem_of_getElem? hk) x hx⟩
          | succ i =>
              have hi := ih hrow hne.2 hk (i := i) (by simpa [seps] using hsep)
              exact ⟨fun hij => hi.1 (by omega), fun hij => hi.2 (by omega)⟩

-- Order is kept when the picked child grows by nothing but the key searched for.
theorem Ordered.graft {row : Row σ κ} (h : row.Ordered keys) {key : κ} {g : Growth σ κ}
    (hkeys : ∀ kid ∈ g.kids, ∀ x ∈ keys kid, x ∈ keys (row.pick key) ∨ x = key)
    (htwo : ∀ left mid right, g = .two left mid right →
      (∀ x ∈ keys left, x < mid) ∧ (∀ x ∈ keys right, mid ≤ x) ∧ keys right ≠ []) :
    (row.graft key g).Ordered keys := by
  induction row with
  | last child =>
      cases g with
      | one child' => trivial
      | two left mid right =>
          obtain ⟨hl, hr, -⟩ := htwo left mid right rfl
          refine ⟨hl, fun kid hkid => ?_, trivial⟩
          simp only [kids, List.mem_singleton] at hkid
          exact hkid ▸ hr
  | cons child sep row ih =>
      obtain ⟨hlt, hle, hrow⟩ := h
      by_cases hk : key < sep
      · simp only [pick, if_pos hk] at hkeys
        have hbelow : ∀ kid ∈ g.kids, ∀ x ∈ keys kid, x < sep := by
          intro kid hkid x hx
          rcases hkeys kid hkid x hx with hm | rfl
          · exact hlt x hm
          · exact hk
        simp only [Row.graft, if_pos hk]
        cases g with
        | one child' => exact ⟨hbelow child' (by simp [Growth.kids]), hle, hrow⟩
        | two left mid right =>
            obtain ⟨hl, hr, hne⟩ := htwo left mid right rfl
            obtain ⟨y, hy⟩ := List.exists_mem_of_ne_nil _ hne
            have hmid : mid < sep := (hr y hy).trans_lt (hbelow right (by simp [Growth.kids]) y hy)
            refine ⟨hl, ?_, hbelow right (by simp [Growth.kids]), hle, hrow⟩
            simp only [kids, List.forall_mem_cons]
            exact ⟨hr, fun kid hkid x hx => hmid.le.trans (hle kid hkid x hx)⟩
      · simp only [pick, if_neg hk] at hkeys
        simp only [Row.graft, if_neg hk]
        refine ⟨hlt, ?_, ih hrow hkeys⟩
        obtain ⟨before, after, hkids, hg⟩ := kids_graft key row
        have hpick := hle _ (pick_mem key row)
        rw [hkids] at hle
        rw [hg]
        simp only [List.forall_mem_append, List.forall_mem_cons] at hle ⊢
        refine ⟨⟨hle.1, fun kid hkid x hx => ?_⟩, hle.2.2⟩
        rcases hkeys kid hkid x hx with hm | rfl
        · exact hpick x hm
        · exact not_lt.mp hk

end Ordered

end Row

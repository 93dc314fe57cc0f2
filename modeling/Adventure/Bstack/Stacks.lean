import Adventure.Bstack.Add
import Adventure.Library.Plots

namespace Adventure

open Memory Ends Plots

-- A stack is a chain of pages, the top first. Each page below the top is full.
inductive Chain (m : Memory) : Nat → List (Nat × List Nat) → Prop
  | last {p flags : Nat} {vals : List Nat} : StackAt m p flags 0 vals → Chain m p [(p, vals)]
  | link {p flags next : Nat} {vals : List Nat} {below : List (Nat × List Nat)} :
      StackAt m p flags next vals → next ≠ 0 → (∀ x ∈ below, x.2.length = 6) → Chain m next below →
      Chain m p ((p, vals) :: below)

def chainPages (pages : List (Nat × List Nat)) : Multiset Nat := (pages.map Prod.fst : List Nat)

namespace Chain

variable {m m' : Memory} {s : Store} {p : Nat} {pages : List (Nat × List Nat)}

theorem congr (h : Chain m p pages) (hs : ∀ q ∈ chainPages pages, Same m m' q 64) :
    Chain m' p pages := by
  induction h with
  | last hp => exact .last (hp.congr (hs _ (by simp [chainPages])))
  | link hp hne hfull _ ih =>
      refine .link (hp.congr (hs _ (by simp [chainPages]))) hne hfull (ih fun q hq => hs q ?_)
      exact Multiset.mem_cons_of_mem hq

-- The page on top.
theorem top (h : Chain m p pages) : ∃ flags next vals below, pages = (p, vals) :: below ∧
    StackAt m p flags next vals ∧ ∀ x ∈ below, x.2.length = 6 := by
  cases h with
  | last hp => exact ⟨_, _, _, _, rfl, hp, by simp⟩
  | link hp _ hfull _ => exact ⟨_, _, _, _, rfl, hp, hfull⟩

theorem mem_pages (h : Chain m p pages) : p ∈ chainPages pages := by
  obtain ⟨flags, next, vals, below, rfl, -⟩ := h.top
  simp [chainPages]

-- The same chain with more on its top page.
theorem replace {vals : List Nat} {below : List (Nat × List Nat)} {flags next d : Nat}
    {vals' : List Nat} (h : Chain m p ((p, vals) :: below)) (hp : StackAt m p flags next vals)
    (hkeep : ∀ q ∈ chainPages below, Same m m' q 64) (hd : StackAt m' d flags next vals') :
    Chain m' d ((d, vals') :: below) := by
  cases h with
  | last hp' =>
      obtain rfl : next = 0 := hp.next_eq.symm.trans hp'.next_eq
      exact .last hd
  | link hp' hne hfull hbelow =>
      obtain rfl := hp'.next_eq.symm.trans hp.next_eq
      exact .link hd hne hfull (hbelow.congr hkeep)

theorem page (h : Chain m p pages) : ∀ x ∈ pages, ∃ flags next, StackAt m x.1 flags next x.2 := by
  induction h with
  | last hp => exact List.forall_mem_singleton.mpr ⟨_, _, hp⟩
  | link hp _ _ _ ih => exact List.forall_mem_cons.mpr ⟨⟨_, _, hp⟩, ih⟩

-- The pages in the order in which bstack_debug_page comes to them.
theorem debug_eq (h : Chain s.file.data p pages) {depth : Nat} (hdepth : pages.length ≤ depth) :
    bstackDebugFrom depth s p = some pages := by
  induction h generalizing depth with
  | last hp =>
      obtain ⟨depth, rfl⟩ : ∃ n, depth = n + 1 := ⟨depth - 1, by simp at hdepth; omega⟩
      simp only [bstackDebugFrom, hp.walk_eq, hp.pgNext_eq]
      rfl
  | link hp hne _ _ ih =>
      obtain ⟨depth, rfl⟩ : ∃ n, depth = n + 1 := ⟨depth - 1, by simp at hdepth; omega⟩
      have hd := ih (show _ ≤ depth by simpa using hdepth)
      simp only [bstackDebugFrom, hp.walk_eq, hp.pgNext_eq, hd, Option.bind_eq_bind, Option.bind_some,
        ne_eq, hne, not_false_eq_true, if_true]
      rfl

end Chain

section Add

variable {base : Base} {s : Store} {live : Multiset Nat} {p : Nat} {pages : List (Nat × List Nat)}

-- One call on a stack whose top page is not one value short of full.
theorem Chain.add (h : Chain s.file.data p pages) (hp : Pool base s (chainPages pages + live))
    (hfits : pgUsed (pgHeader s p) ≠ 56) {val : Nat} (hval : val < 2 ^ 64) :
    Meets (bstackAdd s p val) (¬s.Growable 64) fun r => ∃ pages', Chain r.2.file.data r.1 pages' ∧
      Pool base r.2 (chainPages pages' + live) ∧ Keeps (chainPages pages + live) s r.2 ∧
      Spent s r.2 64 ∧ r.1 ∉ chainPages pages + live ∧
      (pages'.flatMap Prod.snd).Perm (val :: pages.flatMap Prod.snd) := by
  obtain ⟨flags, next, vals, below, rfl, htop, hfull⟩ := h.top
  have hlen := htop.length_le
  have hpages : chainPages ((p, vals) :: below) = p ::ₘ chainPages below := rfl
  rw [htop.page.used_eq] at hfits
  rw [hpages, Multiset.cons_add] at hp ⊢
  rcases Nat.lt_or_ge vals.length 5 with hroom | hroom
  · apply (bstackAdd_meets hp htop hroom hval).mono id
    rintro ⟨d, s'⟩ ⟨hp', hk, hspent, hnew, hd⟩
    refine ⟨(d, vals ++ [val]) :: below, h.replace htop (fun q hq => hk q (by simp [hq])) hd, ?_, hk,
      hspent, hnew, ?_⟩
    · rwa [show chainPages ((d, vals ++ [val]) :: below) = d ::ₘ chainPages below from rfl,
        Multiset.cons_add]
    · simp only [List.flatMap_cons, List.append_assoc, List.singleton_append]
      exact List.perm_middle
  · -- the top page is full, and stays in the chain as it is
    have hsix : vals.length = 6 := by omega
    apply (bstackAdd_full hp htop hsix hval).mono id
    rintro ⟨d, s'⟩ ⟨hp', hk, hspent, hnew, hd⟩
    have hb := hp.bounds (Multiset.mem_cons_self _ _)
    refine ⟨(d, [val]) :: (p, vals) :: below, .link hd (by omega) ?_ (h.congr fun q hq => ?_), ?_, hk,
      hspent, hnew, .refl _⟩
    · exact List.forall_mem_cons.mpr ⟨hsix, hfull⟩
    · apply hk q
      rw [hpages, Multiset.mem_cons] at hq
      simpa [or_assoc] using Or.imp_right Or.inl hq
    · simp only [chainPages, List.map_cons, ← Multiset.cons_coe, Multiset.cons_add] at hp' ⊢
      exact hp'

end Add

-- Any number of stacks in one store, by their top pages.
structure Stacks where
  store : Store
  tops : List Nat

namespace Stacks

def add (st : Stacks) (i val : Nat) : Option Stacks := do
  let page ← st.tops[i]?
  let r ← bstackAdd st.store page val
  return ⟨r.2, st.tops.set i r.1⟩

-- The call does not find exactly 56 bytes of the page in use.
def Fits (st : Stacks) (i : Nat) : Prop :=
  ∃ page, st.tops[i]? = some page ∧ pgUsed (pgHeader st.store page) ≠ 56

instance (st : Stacks) (i : Nat) : Decidable (st.Fits i) :=
  decidable_of_iff (∃ page ∈ st.tops[i]?, pgUsed (pgHeader st.store page) ≠ 56) Iff.rfl

-- The states of all runs from `start` in which every call fits.
inductive Reached (start : Stacks) : Stacks → Prop
  | start : Reached start start
  | add {st st' : Stacks} (i val : Nat) : Reached start st → st.Fits i → val < 2 ^ 64 →
      st.add i val = some st' → Reached start st'

-- A run that stops at a call that does not fit.
def run (st : Stacks) : List (Nat × Nat) → Option Stacks
  | [] => some st
  | (i, val) :: calls =>
      if st.Fits i ∧ val < 2 ^ 64 then (st.add i val).bind (run · calls) else none

theorem Reached.run {calls : List (Nat × Nat)} {start st st' : Stacks} (h : Reached start st)
    (hrun : st.run calls = some st') : Reached start st' :=
  guarded_rule (fun calls st => st.run calls) (fun st call => st.Fits call.1 ∧ call.2 < 2 ^ 64)
    (fun st call => st.add call.1 call.2) (Reached start) (fun _ => rfl) (fun _ _ _ => rfl)
    (fun _ call _ hst hfits hadd => .add call.1 call.2 hst hfits.1 hfits.2 hadd) h hrun

-- The pages in use: those of the stacks, and others.
def used (chains : List (Nat × List (Nat × List Nat))) (others : Multiset Nat) : Multiset Nat :=
  total (fun c => chainPages c.2) chains + others

-- The invariant of a run.
structure Kept (base : Base) (st : Stacks) (chains : List (Nat × List (Nat × List Nat)))
    (others : Multiset Nat) : Prop where
  tops : st.tops = chains.map Prod.fst
  chain : ∀ c ∈ chains, Chain st.store.file.data c.1 c.2
  pool : Pool base st.store (used chains others)

variable {base : Base} {st : Stacks} {others : Multiset Nat}
  {chains : List (Nat × List (Nat × List Nat))} {p : Nat} {pages : List (Nat × List Nat)}

theorem le_used {c : Nat × List (Nat × List Nat)} (h : c ∈ chains) : chainPages c.2 ≤ used chains others :=
  (show chainPages c.2 ≤ total (fun c => chainPages c.2) chains from le_total h).trans
    (Multiset.le_add_right _ _)

theorem used_middle (before after : List (Nat × List (Nat × List Nat))) :
    used (before ++ (p, pages) :: after) others = chainPages pages + used (before ++ after) others := by
  rw [used, total_middle, add_assoc]
  rfl

theorem Kept.chain_congr (h : Kept base st chains others) {s : Store}
    (hk : Keeps (used chains others) st.store s) : ∀ c ∈ chains, Chain s.file.data c.1 c.2 :=
  fun c hc => (h.chain c hc).congr fun q hq => hk q (Multiset.mem_of_le (le_used hc) hq)

theorem Kept.create (h : Kept base st chains others) :
    Meets (bstackCreate st.store) (¬st.store.Growable 64) fun r =>
      Kept base ⟨r.2, r.1 :: st.tops⟩ ((r.1, [(r.1, [])]) :: chains) others := by
  apply (bstackCreate_meets h.pool).mono id
  rintro ⟨d, s⟩ ⟨hpool, hk, -, hd⟩
  refine ⟨by rw [h.tops]; rfl, List.forall_mem_cons.mpr ⟨.last hd, h.chain_congr hk⟩, ?_⟩
  rwa [show used ((d, [(d, [])]) :: chains) others = _ from used_middle [] chains,
    show chainPages [(d, [])] = {d} from rfl, Multiset.singleton_add]

theorem Kept.add (before after : List (Nat × List (Nat × List Nat)))
    (h : Kept base st (before ++ (p, pages) :: after) others)
    (hfits : pgUsed (pgHeader st.store p) ≠ 56) {val : Nat} (hval : val < 2 ^ 64) :
    Meets (bstackAdd st.store p val) (¬st.store.Growable 64) fun r => ∃ pages' : List (Nat × List Nat),
      Kept base ⟨r.2, (before ++ (r.1, pages') :: after).map Prod.fst⟩
        (before ++ (r.1, pages') :: after) others ∧
      Keeps (used (before ++ (p, pages) :: after) others) st.store r.2 ∧
      r.1 ∉ used (before ++ (p, pages) :: after) others ∧
      (pages'.flatMap Prod.snd).Perm (val :: pages.flatMap Prod.snd) := by
  obtain ⟨hchain, -⟩ := forall_middle.mp h.chain
  have hpool := h.pool
  rw [used_middle] at hpool
  apply (hchain.add hpool hfits hval).mono id
  rintro ⟨d, s'⟩ ⟨pages', hchain', hpool', hk, -, hnew, hperm⟩
  rw [← used_middle] at hpool' hk hnew
  have hrest := forall_middle.mp (h.chain_congr hk)
  exact ⟨pages', ⟨rfl, forall_middle.mpr ⟨hchain', hrest.2⟩, hpool'⟩, hk, hnew, hperm⟩

-- A stack by its number.
theorem Kept.split (h : Kept base st chains others) {i : Nat} (ht : st.tops[i]? = some p) :
    ∃ before pages after, chains = before ++ (p, pages) :: after ∧ before.length = i := by
  rw [h.tops] at ht
  obtain ⟨before, ⟨p, pages⟩, after, hchains, hi, rfl⟩ := exists_split ht
  exact ⟨before, pages, after, hchains, hi⟩

theorem Kept.step (h : Kept base st chains others) {i val : Nat} {st' : Stacks} (hfits : st.Fits i)
    (hval : val < 2 ^ 64) (hadd : st.add i val = some st') : ∃ chains', Kept base st' chains' others := by
  obtain ⟨p, ht, hused⟩ := hfits
  obtain ⟨before, pages, after, rfl, rfl⟩ := h.split ht
  simp only [Stacks.add, ht, Option.bind_eq_bind, Option.bind_some, Option.pure_def,
    Option.bind_eq_some_iff, Option.some.injEq] at hadd
  obtain ⟨r, hr, rfl⟩ := hadd
  obtain ⟨pages', hk, -⟩ := (h.add before after hused hval).of_eq_some hr
  have hset := set_middle Prod.fst before after (p, pages) (r.1, pages')
  rw [h.tops, hset]
  exact ⟨_, hk⟩

theorem Reached.kept {start : Stacks} (hst : Reached start st) (h : Kept base start chains others) :
    ∃ chains', Kept base st chains' others := by
  induction hst with
  | start => exact ⟨chains, h⟩
  | add i val _ hfits hval hadd ih =>
      rcases ih with ⟨chains', hk⟩
      exact hk.step hfits hval hadd

end Stacks

end Adventure

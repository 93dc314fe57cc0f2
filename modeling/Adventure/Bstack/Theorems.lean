import Adventure.Bstack.Stacks
import Adventure.Store.Open

namespace Adventure

open Memory Ends Plots

-- A well-formed stack as bstack_debug_page sees it: every page counts its own values, and the
-- pages below the top have no room left.
structure IsStack (s : Store) (page : Nat) (pages : List (Nat × List Nat)) : Prop where
  walk : bstackDebugPage s page = some pages
  counts : ∀ x ∈ pages, pgUsed (pgHeader s x.1) = BSTACK_HEADER_SIZE + 8 * pgNkeys (pgHeader s x.1) ∧
    pgUsed (pgHeader s x.1) ≤ pgSize (pgHeader s x.1)
  full : ∀ x ∈ pages.tail, pgFree (pgHeader s x.1) = 0

namespace Stacks

variable {base : Base} {st : Stacks} {others : Multiset Nat}
  {chains : List (Nat × List (Nat × List Nat))}

theorem Kept.isStack (h : Kept base st chains others) {c : Nat × List (Nat × List Nat)}
    (hc : c ∈ chains) : IsStack st.store c.1 c.2 where
  walk := by
    apply (h.chain c hc).debug_eq
    have hle := Multiset.card_le_card (show chainPages c.2 ≤ used chains others from le_used hc)
    rw [chainPages, Multiset.coe_card, List.length_map] at hle
    exact hle.trans h.pool.card_le
  counts x hx := by
    obtain ⟨flags, next, hp⟩ := (h.chain c hc).page x hx
    rw [hp.page.used_eq, hp.page.nkeys_eq, hp.page.size_eq]
    exact ⟨rfl, hp.page.fits⟩
  full x hx := by
    obtain ⟨flags, next, vals, below, he, -, hfull⟩ := (h.chain c hc).top
    obtain ⟨flags', next', hp⟩ := (h.chain c hc).page x (List.mem_of_mem_tail hx)
    rw [he, List.tail_cons] at hx
    rw [hp.page.free_eq, hfull x hx]

-- In a run whose calls all fit, every call adds its value to the one stack and leaves the bytes of
-- all pages in use alone.
theorem bstack_run (h : Kept base st chains others) {st' : Stacks} (hst : Reached st st') :
    ∃ chains', Kept base st' chains' others ∧ (∀ c ∈ chains', IsStack st'.store c.1 c.2) ∧
      ∀ (i top : Nat) (pages : List (Nat × List Nat)) (val : Nat), chains'[i]? = some (top, pages) →
        pgUsed (pgHeader st'.store top) ≠ 56 → val < 2 ^ 64 →
        Meets (bstackAdd st'.store top val) (¬st'.store.Growable 64) fun r =>
          ∃ pages', IsStack r.2 r.1 pages' ∧
            (pages'.flatMap Prod.snd).Perm (val :: pages.flatMap Prod.snd) ∧
            r.1 ∉ used chains' others ∧
            ∀ page ∈ used chains' others, Same st'.store.file.data r.2.file.data page 64 := by
  obtain ⟨chains', hk⟩ := hst.kept h
  refine ⟨chains', hk, fun c hc => hk.isStack hc, fun i top pages val hi hused hval => ?_⟩
  have ht : st'.tops[i]? = some top := by rw [hk.tops, List.getElem?_map, hi]; rfl
  obtain ⟨before, ⟨top, pages⟩, after, rfl, rfl, he⟩ := exists_split
    (show (chains'.map id)[i]? = some (top, pages) by rwa [List.map_id])
  cases he
  apply (hk.add before after hused hval).mono id
  rintro r ⟨pages', hk', hsame, hnew, hperm⟩
  exact ⟨pages', hk'.isStack (c := (r.1, pages')) (by simp), hperm, hnew, hsame⟩

-- Two empty stacks side by side in a new store.
def twoStacks : Option Stacks := do
  let s ← storeOpen ⟨[], .granted⟩ none STORE_O_CREAT
  let a ← bstackCreate s
  let b ← bstackCreate a.2
  return ⟨b.2, [b.1, a.1]⟩

theorem kept_of_twoStacks (h : twoStacks = some st) :
    ∃ chains others, Kept Base.empty st chains others := by
  simp only [twoStacks, Option.bind_eq_bind, Option.bind_eq_some_iff, Option.pure_def,
    Option.some.injEq] at h
  obtain ⟨s, hs, a, ha, b, hb, rfl⟩ := h
  obtain ⟨hpool, -⟩ := (storeOpen_meets _).of_eq_some hs
  have h₀ : Kept Base.empty ⟨s, []⟩ [] {s.freeRoot} := ⟨rfl, by simp, by simpa [used, total] using hpool⟩
  have h₁ := h₀.create.of_eq_some ha
  exact ⟨_, _, h₁.create.of_eq_some hb⟩

theorem bstack_run_two : ∃ (st st' : Stacks) (chains : List (Nat × List (Nat × List Nat))),
    twoStacks = some st ∧ st.run [(0, 1), (1, 7), (0, 2), (1, 8), (0, 3)] = some st' ∧
    chains.map Prod.fst = st'.tops ∧ st'.tops.length = 2 ∧
    ∀ c ∈ chains, IsStack st'.store c.1 c.2 := by
  have h : (twoStacks.bind fun st => st.run [(0, 1), (1, 7), (0, 2), (1, 8), (0, 3)]).map
      (·.tops.length) = some 2 := by decide +kernel
  simp only [Option.map_eq_some_iff, Option.bind_eq_some_iff] at h
  obtain ⟨st', ⟨st, hst, hrun⟩, hlen⟩ := h
  obtain ⟨chains, others, hk⟩ := kept_of_twoStacks hst
  obtain ⟨chains', hk', hstack, -⟩ := bstack_run hk (Reached.start.run hrun)
  exact ⟨st, st', chains', hst, hrun, hk'.tops.symm, hlen, hstack⟩

-- The sixth value of one stack overwrites the header of the other one: the copy begins 16 bytes
-- into the new page and is as long as the used part of the old one, 56 bytes.
theorem bstack_overrun : ∃ st chains others r, Kept Base.empty st chains others ∧
    st.tops = [160, 224] ∧ bstackAdd st.store 224 6 = some r ∧ 160 ∈ used chains others ∧
    pgHeader st.store 160 = hdrWord 0 64 0 16 ∧ pgHeader r.2 160 = 0 ∧
    ¬Same st.store.file.data r.2.file.data 160 64 := by
  have h : (twoStacks.bind fun st₀ => (st₀.run [(1, 1), (1, 2), (1, 3), (1, 4), (1, 5)]).bind fun st =>
      (bstackAdd st.store 224 6).map fun r => (st.tops, pgHeader st.store 160, pgHeader r.2 160)) =
        some ([160, 224], hdrWord 0 64 0 16, 0) := by decide +kernel
  simp only [Option.bind_eq_some_iff, Option.map_eq_some_iff, Prod.mk.injEq] at h
  obtain ⟨st₀, hst, st, hrun, r, hr, htops, hhdr, hhdr'⟩ := h
  obtain ⟨chains₀, others, hk₀⟩ := kept_of_twoStacks hst
  obtain ⟨chains, hk⟩ := (Reached.start.run hrun).kept hk₀
  obtain ⟨before, pages, after, rfl, -⟩ := hk.split (i := 0) (show st.tops[0]? = some 160 by simp [htops])
  have hchain : Chain st.store.file.data 160 pages := (forall_middle.mp hk.chain).1
  refine ⟨st, _, others, r, hk, htops, hr, ?_, hhdr, hhdr', fun hsame => ?_⟩
  · exact Multiset.mem_of_le (le_used (c := (160, pages)) (by simp)) hchain.mem_pages
  · have hword : pgHeader r.2 160 = pgHeader st.store 160 := by
      rw [pgHeader, pgHeader, readUi64_eq _ (by omega) (by omega), readUi64_eq _ (by omega) (by omega)]
      exact word_congr (hsame.mono le_rfl (by omega))
    rw [hhdr, hhdr'] at hword
    exact absurd hword (by decide)

end Stacks

end Adventure

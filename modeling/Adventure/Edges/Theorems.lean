import Adventure.Edges.Blocks
import Adventure.Store.Open

namespace Adventure

open Memory Ends

-- The operations on edge blocks are those on lists, in a store with nothing on its free list: the
-- new block comes from the end, and all that was allocated keeps its bytes. A call returns if the file
-- has room for the new block or can grow.
theorem edges_list {edges : Store} (hs : edges.Sound) (hfree : edges.freeList = some [])
    (hheader : STORE_HEADER_SIZE ≤ edges.endPos) {e : Nat} {ends : List Nat}
    (he : EdgesAt edges.file.data e ends)
    (hin : e ≠ 0 → STORE_HEADER_SIZE ≤ e ∧ e + (8 + 8 * ends.length) ≤ edges.endPos) (start : Nat)
    {x : Nat} (hx : x < 2 ^ 64) :
    (Meets (edgesAdd edges e start x) (¬edges.Serves (16 + 8 * ends.length)) fun r =>
      r.1 ≠ 0 ∧ BlockAt r.2.file.data r.1 (ends ++ [x]) ∧ edges.endPos ≤ r.1 ∧
      r.1 + (16 + 8 * ends.length) ≤ r.2.endPos ∧
      Same edges.file.data r.2.file.data STORE_HEADER_SIZE (edges.endPos - STORE_HEADER_SIZE)) ∧
    (x ∈ ends → Meets (edgesRemove edges e start x) (¬edges.Serves (8 * ends.length)) fun r =>
      r.1 ≠ 0 ∧ BlockAt r.2.file.data r.1 (ends.erase x) ∧ edges.endPos ≤ r.1 ∧
      r.1 + 8 * ends.length ≤ r.2.endPos ∧
      Same edges.file.data r.2.file.data STORE_HEADER_SIZE (edges.endPos - STORE_HEADER_SIZE)) ∧
    (x ∉ ends → edgesRemove edges e start x = some (e, edges)) := by
  have hh : STORE_HEADER_SIZE = 32 := rfl
  have hend := hs.end_le
  -- a new page of any size, and what is left alone when it is written
  have hnew : ∀ size d s, Allocated edges size d s → d = edges.endPos ∧ d + size = s.endPos ∧
      d + size < 2 ^ 63 := by
    intro size d s ha
    obtain ⟨rfl, hse, -⟩ := ha.of_empty hfree
    have hsle := (ha.sound hs).end_le
    have hslt := (ha.sound hs).size_lt
    omega
  have hkeep : ∀ size d s data, Allocated edges size d s → Only s.file.data data d size →
      Same edges.file.data data STORE_HEADER_SIZE (edges.endPos - STORE_HEADER_SIZE) := by
    intro size d s data ha honly
    obtain ⟨hd, -⟩ := hnew size d s ha
    exact (ha.same (by omega) (by omega)).trans (honly.same (by omega))
  refine ⟨?_, fun hmem => ?_, fun hnot => edgesRemove_absent he hnot start⟩
  · refine (edgesAdd_meets hs he (fun h => ?_) (fun d s ha => ?_) hx start).mono id ?_
    · have := hin h
      omega
    · obtain ⟨hd, -, hlt⟩ := hnew _ d s ha
      exact ⟨hlt, fun h => Or.inr (hd ▸ (hin h).2)⟩
    · rintro ⟨d, s'⟩ ⟨s, data, ha, rfl, honly, hb⟩
      obtain ⟨hd, hse, -⟩ := hnew _ d s ha
      refine ⟨?_, hb, hd.ge, hse.le, hkeep _ d s data ha honly⟩
      change d ≠ 0
      omega
  · have hzero : e ≠ 0 := by
      rintro rfl
      rw [EdgesAt, if_pos rfl] at he
      subst he
      cases hmem
    rw [EdgesAt, if_neg hzero] at he
    obtain ⟨before, after, hfirst, rfl, herase⟩ := List.exists_erase_eq hmem
    obtain ⟨hlo, hhi⟩ := hin hzero
    have hlen : 8 * (before ++ x :: after).length = 8 + 8 * (before ++ after).length := by
      simp
      omega
    rw [herase, hlen]
    refine (edgesRemove_meets hs hzero he hfirst ⟨by omega, by omega⟩ (fun d s ha => ?_) start).mono id ?_
    · obtain ⟨hd, -, hlt⟩ := hnew _ d s ha
      exact ⟨hlt, Or.inr (hd ▸ hhi)⟩
    · rintro ⟨d, s'⟩ ⟨s, data, ha, rfl, honly, hb⟩
      obtain ⟨hd, hse, -⟩ := hnew _ d s ha
      refine ⟨?_, hb, hd.ge, hse.le, hkeep _ d s data ha honly⟩
      change d ≠ 0
      omega

-- A store with one block of two end nodes.
def edgesPair : Store where
  magic := STORE_MAGIC
  endPos := 120
  file := ⟨setWord (setWord (setWord (fun _ => 0) 96 24) 104 7) 112 8, 256, true, ⟨[], .granted⟩⟩
  freeList := some []
  freeRoot := 32

theorem edges_list_pair : ∃ r r', edgesAdd edgesPair 96 4 7 = some r ∧
    BlockAt r.2.file.data r.1 [7, 8, 7] ∧ edgesRemove edgesPair 96 4 7 = some r' ∧
    BlockAt r'.2.file.data r'.1 [8] := by
  have hs : edgesPair.Sound := ⟨by decide, by decide, by decide⟩
  have hb : EdgesAt edgesPair.file.data 96 [7, 8] := by
    rw [EdgesAt, if_neg (by decide)]
    exact ⟨⟨by decide +kernel, by decide +kernel, by decide +kernel, trivial⟩, by decide⟩
  obtain ⟨hadd, hremove, -⟩ := edges_list hs rfl (by decide) hb (by decide) 4 (show 7 < 2 ^ 64 by decide)
  have hroom : ∀ n ≤ 32, ¬¬edgesPair.Serves n := fun n hn => not_not.mpr
    (.inl ⟨rfl, show 120 + n ≤ 256 by omega⟩)
  obtain ⟨r, hr, -, hb₁, -⟩ := hadd.exists_some (hroom _ (by decide))
  obtain ⟨r', hr', -, hb₂, -⟩ := (hremove (by decide)).exists_some (hroom _ (by decide))
  exact ⟨r, r', hr, hb₁, hr', hb₂⟩

-- The same block in a file that is full, on a disk that refuses every resize.
def edgesFull : Store :=
  { edgesPair with file := { edgesPair.file with size := 128, disk := ⟨[], .refused⟩ } }

theorem edges_add_full : edgesFull.Sound ∧ edgesFull.freeList = some [] ∧
    BlockAt edgesFull.file.data 96 [7, 8] ∧ 96 + (8 + 8 * 2) ≤ edgesFull.endPos ∧
    edgesAdd edgesFull 96 4 7 = none := by
  refine ⟨⟨by decide, by decide, by decide⟩, rfl, ?_, by decide, by decide +kernel⟩
  exact ⟨⟨by decide +kernel, by decide +kernel, by decide +kernel, trivial⟩, by decide⟩

end Adventure

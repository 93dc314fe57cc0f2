import Adventure.Edges
import Adventure.Store.Alloc

namespace Adventure

open Memory Ends

-- A block of end nodes: its size in bytes, then the nodes.
structure BlockAt (m : Memory) (e : Nat) (ends : List Nat) : Prop where
  words : m.WordsAt e ((8 + 8 * ends.length) :: ends)
  addr_lt : e + (8 + 8 * ends.length) < 2 ^ 63

namespace BlockAt

variable {m m' : Memory} {s : Store} {e : Nat} {ends before after : List Nat}

theorem congr (h : BlockAt m e ends) (hs : Same m m' e (8 + 8 * ends.length)) : BlockAt m' e ends :=
  ⟨wordsAt_congr h.words (by rw [List.length_cons]; exact hs.mono le_rfl (by omega)), h.addr_lt⟩

theorem size_eq (h : BlockAt s.file.data e ends) : storeReadUi64 s e = 8 + 8 * ends.length := by
  rw [storeReadUi64_eq]
  exact h.words.1

theorem nodes_at (h : BlockAt m e ends) : m.WordsAt (e + 8) ends := h.words.2

theorem split (h : BlockAt m e (before ++ after)) : m.WordsAt (e + 8) before ∧
    m.WordsAt (e + (8 + 8 * before.length)) after := by
  obtain ⟨hb, ha⟩ := wordsAt_append.mp h.nodes_at
  exact ⟨hb, by rwa [Nat.add_assoc] at ha⟩

-- The search of edges_remove goes on behind the items it has passed.
theorem removeFrom_eq (stop steps : Nat) (h : BlockAt s.file.data e (before ++ after))
    (hsteps : after.length < steps) :
    edgesRemoveFrom s e (8 + 8 * (before ++ after).length) stop steps (8 + 8 * before.length) =
      some (8 + 8 * (before.length + after.findIdx (· = stop))) := by
  induction after generalizing before steps with
  | nil =>
      obtain ⟨steps, rfl⟩ : ∃ n, steps = n + 1 := ⟨steps - 1, by omega⟩
      rw [edgesRemoveFrom, List.append_nil, if_neg (Nat.lt_irrefl _)]
      rfl
  | cons x after ih =>
      obtain ⟨steps, rfl⟩ : ∃ n, steps = n + 1 := ⟨steps - 1, by omega⟩
      have hlt := h.addr_lt
      have hlen : (before ++ x :: after).length = before.length + after.length + 1 := by
        simp [Nat.add_assoc]
      have hread : storeReadUi64 s (add64 e (8 + 8 * before.length)) = x := by
        rw [add64_eq (by omega), storeReadUi64_eq]
        exact h.split.2.1
      rw [edgesRemoveFrom, if_pos (by omega), hread, List.findIdx_cons]
      by_cases hx : x = stop
      · simp [hx]
      · have hnext : add64 (8 + 8 * before.length) 8 = 8 + 8 * (before ++ [x]).length := by
          rw [add64_eq (by omega), List.length_append, List.length_singleton]
          omega
        have ht := ih steps (show BlockAt s.file.data e (before ++ [x] ++ after) by simpa using h)
          (by rw [List.length_cons] at hsteps; omega)
        rw [List.append_assoc, List.singleton_append] at ht
        rw [if_neg hx, hnext, ht, List.length_append, List.length_singleton]
        simp [hx]
        omega

theorem search_eq (h : BlockAt s.file.data e ends) (stop : Nat) :
    edgesRemoveFrom s e (8 + 8 * ends.length) stop EDGE_STEPS 8 =
      some (8 + 8 * ends.findIdx (· = stop)) := by
  have hlt := h.addr_lt
  have hf := removeFrom_eq stop EDGE_STEPS (show BlockAt s.file.data e ([] ++ ends) from h)
    (by rw [EDGE_STEPS]; omega)
  rwa [List.nil_append, List.length_nil, Nat.zero_add] at hf

-- The size is written last, before the end nodes.
theorem of_filled {d : Nat} (h : Filled m m' d 8 (8 + 8 * ends.length) ends)
    (hd : d + (8 + 8 * ends.length) < 2 ^ 63) :
    Only m (m'.setWord d (8 + 8 * ends.length)) d (8 + 8 * ends.length) ∧
      BlockAt (m'.setWord d (8 + 8 * ends.length)) d ends := by
  have hf := h.setWord (q := d) (8 + 8 * ends.length) le_rfl (by omega) (by omega)
  refine ⟨hf.only, ⟨⟨?_, hf.words⟩, hd⟩⟩
  rw [word_setWord, Nat.mod_eq_of_lt (by omega)]

-- What edges_add writes into the new page.
theorem add_first (s : Store) {d stop : Nat} (hd : d + 16 < 2 ^ 63) (hstop : stop < 2 ^ 64) :
    ∃ data, storeWriteUi64 (storeWriteUi64 s (add64 d 8) stop) d (add64 8 8) = s.setData data ∧
      Only s.file.data data d 16 ∧ BlockAt data d [stop] := by
  have hlen : 8 + 8 * [stop].length = 16 := rfl
  have hsize : add64 8 8 = 16 := rfl
  simp only [storeWriteUi64_eq, setData_data, setData_setData, add64_eq (show d + 8 < 2 ^ 64 by omega),
    hsize]
  have hf := (Filled.nil s.file.data d 8 (8 + 8 * [stop].length)).push hstop (q := d + 8) rfl (by simp)
  have hb := of_filled hf (by omega)
  rw [hlen] at hb
  exact ⟨_, rfl, hb⟩

theorem add_copy {d stop : Nat} (h : BlockAt s.file.data e ends)
    (hapart : d + (16 + 8 * ends.length) ≤ e ∨ e + (8 + 8 * ends.length) ≤ d)
    (hd : d + (16 + 8 * ends.length) < 2 ^ 63) (hstop : stop < 2 ^ 64) :
    ∃ data, storeWriteUi64 (storeWriteUi64 (storeCopy s d e (8 + 8 * ends.length))
        (add64 d (8 + 8 * ends.length)) stop) d (add64 (8 + 8 * ends.length) 8) = s.setData data ∧
      Only s.file.data data d (16 + 8 * ends.length) ∧ BlockAt data d (ends ++ [stop]) := by
  have hlen : 8 + 8 * (ends ++ [stop]).length = 8 + 8 * ends.length + 8 := by simp; omega
  have hsize : 16 + 8 * ends.length = 8 + 8 * ends.length + 8 := by omega
  simp only [storeCopy_eq, storeWriteUi64_eq, setData_data, setData_setData,
    add64_eq (show d + (8 + 8 * ends.length) < 2 ^ 64 by omega),
    add64_eq (show 8 + 8 * ends.length + 8 < 2 ^ 64 by omega)]
  have hf := ((Filled.nil s.file.data d 0 (8 + 8 * ends.length + 8)).extend h.words
    (by rw [List.length_cons]; omega) (q := d) rfl (n := 8 + 8 * ends.length)
    (by rw [List.length_cons]; omega) (by simp; omega)).push hstop (q := d + (8 + 8 * ends.length))
    (by simp; omega) (by simp; omega)
  rw [List.nil_append, List.cons_append] at hf
  have hf := hf.tail
  rw [← hlen] at hf ⊢
  rw [hsize, ← hlen]
  exact ⟨_, rfl, of_filled hf (by omega)⟩

-- What edges_remove writes into the new page.
theorem remove_copy {d x : Nat} (h : BlockAt s.file.data e (before ++ x :: after))
    (hapart : d + (8 + 8 * (before ++ after).length) ≤ e ∨
      e + (8 + 8 * (before ++ x :: after).length) ≤ d)
    (hd : d + (8 + 8 * (before ++ after).length) < 2 ^ 63) {i size : Nat}
    (hi : i = 8 + 8 * before.length) (hsize : size = 8 + 8 * (before ++ x :: after).length) :
    ∃ data, storeWriteUi64 (storeCopy (storeCopy s d e i) (add64 d i) (add64 (add64 e i) 8)
        (sub64 (sub64 size i) 8)) d (sub64 size 8) = s.setData data ∧
      Only s.file.data data d (8 + 8 * (before ++ after).length) ∧
      BlockAt data d (before ++ after) := by
  have hlt := h.addr_lt
  have hlen : (before ++ x :: after).length = before.length + after.length + 1 := by
    simp [Nat.add_assoc]
  have hlen' : (before ++ after).length = before.length + after.length := List.length_append
  subst hi hsize
  rw [hlen] at hapart hlt ⊢
  rw [sub64_eq (show 8 + 8 * before.length ≤ _ by omega) (by omega),
    sub64_eq (show 8 ≤ 8 + 8 * (before.length + after.length + 1) by omega) (by omega),
    sub64_eq (by omega) (by omega), add64_eq (by omega), add64_eq (show e + _ < 2 ^ 64 by omega),
    add64_eq (by omega)]
  simp only [storeCopy_eq, storeWriteUi64_eq, setData_data, setData_setData]
  have hb : s.file.data.WordsAt e ((8 + 8 * (before ++ x :: after).length) :: before) :=
    ⟨h.words.1, h.split.1⟩
  have ha : s.file.data.WordsAt (e + (8 + 8 * before.length) + 8) after := h.split.2.2
  have hf := ((Filled.nil s.file.data d 0 (8 + 8 * (before ++ after).length)).extend hb
    (by rw [List.length_cons]; omega) (q := d) rfl (n := 8 + 8 * before.length)
    (by rw [List.length_cons]; omega) (by simp; omega)).extend ha (by omega)
    (q := d + (8 + 8 * before.length)) (by simp; omega)
    (n := 8 + 8 * (before.length + after.length + 1) - (8 + 8 * before.length) - 8) (by omega)
    (by simp; omega)
  rw [List.nil_append, List.cons_append] at hf
  have hf := of_filled hf.tail (by omega)
  rw [show 8 + 8 * (before.length + after.length + 1) - 8 = 8 + 8 * (before ++ after).length by omega]
  exact ⟨_, rfl, hf⟩

end BlockAt

-- The end nodes that a pointer stands for. The pointer 0 stands for none.
def EdgesAt (m : Memory) (e : Nat) (ends : List Nat) : Prop :=
  if e = 0 then ends = [] else BlockAt m e ends

section Ops

variable {edges : Store} {e stop : Nat} {ends before after : List Nat}

-- The specification of edges_add, for a new page that does not meet the old block.
theorem edgesAdd_meets (hs : edges.Sound) (he : EdgesAt edges.file.data e ends)
    (hin : e ≠ 0 → 14 ≤ e ∧ e + (8 + 8 * ends.length) ≤ edges.file.size)
    (hpage : ∀ d s', Allocated edges (16 + 8 * ends.length) d s' → d + (16 + 8 * ends.length) < 2 ^ 63 ∧
      (e ≠ 0 → d + (16 + 8 * ends.length) ≤ e ∨ e + (8 + 8 * ends.length) ≤ d))
    (hstop : stop < 2 ^ 64) (start : Nat) :
    Meets (edgesAdd edges e start stop) (¬edges.Serves (16 + 8 * ends.length)) fun r => ∃ s data,
      Allocated edges (16 + 8 * ends.length) r.1 s ∧ r.2 = storeFree (s.setData data) e ∧
      Only s.file.data data r.1 (16 + 8 * ends.length) ∧ BlockAt data r.1 (ends ++ [stop]) := by
  unfold edgesAdd
  by_cases hzero : e = 0
  · rw [EdgesAt, if_pos hzero] at he
    subst he
    have hsize : add64 8 8 = 16 := rfl
    simp only [if_pos hzero, Option.bind_eq_bind, Option.pure_def, Option.bind_some,
      hsize]
    apply Meets.bind (storeAlloc_returns hs 16)
    rintro ⟨d, s⟩ ha
    obtain ⟨data, hw, honly, hb⟩ := BlockAt.add_first s (hpage d s ha).1 hstop
    rw [hsize] at hw
    simp only [hw]
    exact Meets.pure ⟨s, data, ha, rfl, honly, hb⟩
  · rw [EdgesAt, if_neg hzero] at he
    obtain ⟨hlo, hhi⟩ := hin hzero
    have hlt := he.addr_lt
    have hsize : add64 (8 + 8 * ends.length) 8 = 16 + 8 * ends.length := by
      rw [add64_eq (by omega)]
      omega
    simp only [if_neg hzero, Option.bind_eq_bind, Option.pure_def, Option.bind_some,
      he.size_eq, hsize]
    apply Meets.bind (storeAlloc_returns hs _)
    rintro ⟨d, s⟩ ha
    obtain ⟨hd, hapart⟩ := hpage d s ha
    obtain ⟨data, hw, honly, hb⟩ :=
      (he.congr (ha.same hlo hhi)).add_copy (hapart hzero) hd hstop
    rw [hsize] at hw
    simp only [hw]
    exact Meets.pure ⟨s, data, ha, rfl, honly, hb⟩

theorem findIdx_of_notMem (hnot : stop ∉ ends) : ends.findIdx (· = stop) = ends.length := by
  apply List.findIdx_eq_length_of_false
  intro x hx
  rw [decide_eq_false_iff_not]
  rintro rfl
  exact hnot hx

theorem edgesRemove_absent (he : EdgesAt edges.file.data e ends) (hnot : stop ∉ ends) (start : Nat) :
    edgesRemove edges e start stop = some (e, edges) := by
  unfold edgesRemove
  by_cases hzero : e = 0
  · rw [if_pos hzero, hzero]
    rfl
  · rw [EdgesAt, if_neg hzero] at he
    have hpos := findIdx_of_notMem hnot
    simp only [if_neg hzero, he.size_eq, he.search_eq, hpos, Option.bind_eq_bind, Option.bind_some,
      ge_iff_le, le_refl, if_true]
    rfl

-- The specification of edges_remove where there is something to remove.
theorem edgesRemove_meets (hs : edges.Sound) (hzero : e ≠ 0)
    (he : BlockAt edges.file.data e (before ++ stop :: after)) (hfirst : stop ∉ before)
    (hin : 14 ≤ e ∧ e + (8 + 8 * (before ++ stop :: after).length) ≤ edges.file.size)
    (hpage : ∀ d s', Allocated edges (8 + 8 * (before ++ after).length) d s' →
      d + (8 + 8 * (before ++ after).length) < 2 ^ 63 ∧ (d + (8 + 8 * (before ++ after).length) ≤ e ∨
        e + (8 + 8 * (before ++ stop :: after).length) ≤ d)) (start : Nat) :
    Meets (edgesRemove edges e start stop) (¬edges.Serves (8 + 8 * (before ++ after).length))
      fun r => ∃ s data, Allocated edges (8 + 8 * (before ++ after).length) r.1 s ∧
        r.2 = storeFree (s.setData data) e ∧
        Only s.file.data data r.1 (8 + 8 * (before ++ after).length) ∧
        BlockAt data r.1 (before ++ after) := by
  have hlt := he.addr_lt
  have hlen : (before ++ stop :: after).length = (before ++ after).length + 1 := by
    simp [Nat.add_assoc]
  have hpos : (before ++ stop :: after).findIdx (· = stop) = before.length := by
    rw [List.findIdx_append, findIdx_of_notMem hfirst]
    simp [List.findIdx_cons]
  have hsub : sub64 (8 + 8 * (before ++ stop :: after).length) 8 = 8 + 8 * (before ++ after).length := by
    rw [sub64_eq (by omega) (by omega)]
    omega
  have hi : ¬8 + 8 * before.length ≥ 8 + 8 * (before ++ stop :: after).length := by
    rw [List.length_append, List.length_cons]
    omega
  rw [edgesRemove, if_neg hzero]
  simp only [he.size_eq, he.search_eq, hpos, Option.bind_eq_bind, Option.bind_some, if_neg hi, hsub,
    if_neg (show ¬8 + 8 * (before ++ after).length ≥ 2 ^ 63 by omega)]
  apply Meets.bind (storeAlloc_returns hs _)
  rintro ⟨d, s⟩ ha
  obtain ⟨hd, hapart⟩ := hpage d s ha
  obtain ⟨data, hw, honly, hb⟩ :=
    (he.congr (ha.same hin.1 hin.2)).remove_copy hapart hd rfl rfl
  rw [hsub] at hw
  simp only [hw]
  exact Meets.pure ⟨s, data, ha, rfl, honly, hb⟩

end Ops

end Adventure

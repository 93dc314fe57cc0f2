import Adventure.Bstack
import Adventure.Page.Theorems
import Adventure.Store.Pool

namespace Adventure

open Memory Ends

-- A 64-byte stack page: the header word, the pointer to the next page, and then the values, the
-- oldest one first.
structure StackAt (m : Memory) (p flags next : Nat) (vals : List Nat) : Prop where
  page : PageAt m p flags 64 vals.length 16 vals
  next_eq : m.word (p + 8) = next

theorem bstackHdrWrite_eq (s : Store) {page : Nat} (hp : page < 2 ^ 63)
    (flags size n used next : Nat) :
    bstackHdrWrite s page flags size n used next =
      s.setData ((s.file.data.setWord page (hdrWord flags size n used)).setWord (page + 8) next) := by
  rw [bstackHdrWrite, writeUi64_eq _ _ (by omega) (by omega),
    writeUi64_eq _ _ (by omega) (by omega), Nat.add_zero]
  simp only [setData_setData, setData_data]

-- What bstack_hdr_write leaves in the page, with values written below it afterwards.
theorem stackAt_of_written {m m₁ m' : Memory} {d flags next : Nat} {vals : List Nat}
    (hm : (m.setWord d (hdrWord flags 64 vals.length (16 + 8 * vals.length))).setWord (d + 8) next =
      m₁) (hw : Only m₁ m' (d + 16) 48)
    (hv : m'.WordsAt (d + 16) vals) (hflags : flags < 2 ^ 8) (hlen : vals.length ≤ 6)
    (hnext : next < 2 ^ 64) (hd : d + 64 < 2 ^ 63) :
    Only m m' d 64 ∧ StackAt m' d flags next vals := by
  have h₀ := setWord_only m d (hdrWord flags 64 vals.length (16 + 8 * vals.length))
  have h₁ := setWord_only (m.setWord d (hdrWord flags 64 vals.length (16 + 8 * vals.length)))
    (d + 8) next
  rw [hm] at h₁
  refine ⟨(h₀.mono le_rfl (by omega)).trans
    ((h₁.mono (by omega) (by omega)).trans (hw.mono (by omega) (by omega))), ⟨?_, ?_⟩⟩
  · refine ⟨?_, hv, hflags, by omega, by omega, by omega, by omega, hd⟩
    rw [word_congr (hw.same (by omega)), word_congr (h₁.same (by omega)), word_setWord,
      Nat.mod_eq_of_lt (hdrWord_lt _ _ _ _)]
  · rw [word_congr (hw.same (by omega)), ← hm, word_setWord, Nat.mod_eq_of_lt hnext]

namespace StackAt

variable {m m' : Memory} {s : Store} {p flags next : Nat} {vals : List Nat}

theorem congr (h : StackAt m p flags next vals) (hs : Same m m' p 64) :
    StackAt m' p flags next vals :=
  ⟨h.page.congr hs, (word_congr (hs.mono (by omega) (by omega))).trans h.next_eq⟩

theorem length_le (h : StackAt m p flags next vals) : vals.length ≤ 6 := by
  have := h.page.fits
  omega

theorem pgNext_eq (h : StackAt s.file.data p flags next vals) : pgNext s p = next := by
  have := h.page.addr_lt
  rw [pgNext, readUi64_eq s (by omega) (by omega), h.next_eq]

theorem next_lt (h : StackAt m p flags next vals) : next < 2 ^ 64 := h.next_eq ▸ word_lt m _

section Walk

theorem walkFrom_eq (before after : List Nat) (steps : Nat)
    (h : StackAt s.file.data p flags next (before ++ after)) (hsteps : after.length < steps) :
    bstackPageWalkFrom s p (pgHeader s p) steps (16 + 8 * before.length) = some after := by
  have hlen := h.length_le
  have hend := h.page.end_eq
  rw [List.length_append] at hlen hend
  induction after generalizing before steps with
  | nil =>
      obtain ⟨steps, rfl⟩ : ∃ n, steps = n + 1 := ⟨steps - 1, by omega⟩
      rw [List.length_nil, Nat.add_zero] at hend
      rw [bstackPageWalkFrom, hend, if_neg (Nat.lt_irrefl _)]
  | cons val after ih =>
      rw [List.length_cons] at hsteps hlen hend
      obtain ⟨steps, rfl⟩ : ∃ n, steps = n + 1 := ⟨steps - 1, by omega⟩
      have hread : readUi64 s p (16 + 8 * before.length) = val := by
        rw [h.page.read_eq before.length (by simp)]
        simp
      have hnext : toItem (16 + 8 * before.length + 8) = 16 + 8 * (before ++ [val]).length := by
        rw [toItem_eq (by omega), List.length_append, List.length_singleton]
        omega
      have hi := ih (before ++ [val]) steps (by simpa using h) (by omega)
        (by rw [List.length_append, List.length_singleton]; omega)
        (by rw [hend, List.length_append, List.length_singleton]; omega)
      rw [bstackPageWalkFrom, hend, if_pos (by omega), hnext, hi, hread]
      rfl

theorem walk_eq (h : StackAt s.file.data p flags next vals) : bstackPageWalk s p = some vals := by
  have hlen := h.length_le
  exact walkFrom_eq [] vals 8193 h (by omega)

end Walk

end StackAt

section Add

variable {base : Base} {s : Store} {live : Multiset Nat} {p flags next : Nat} {vals : List Nat}

theorem bstackCreate_meets (hp : Pool base s live) :
    Meets (bstackCreate s) (¬s.Growable 64) fun r =>
      Pool base r.2 (r.1 ::ₘ live) ∧ Keeps live s r.2 ∧ Spent s r.2 64 ∧
        StackAt r.2.file.data r.1 0 0 [] := by
  unfold bstackCreate
  apply Meets.bind hp.alloc_meets
  rintro ⟨d, s₁⟩ ⟨hp₁, hk₁, ha⟩
  have hbd := hp₁.bounds (p := d) (by simp)
  simp only [bstackHdrWrite_eq s₁ (show d < 2 ^ 63 by omega)]
  obtain ⟨ho, hd⟩ := stackAt_of_written (m := s₁.file.data) (d := d) rfl (Only.refl _ _ _)
    wordsAt_nil (show 0 < 2 ^ 8 by omega) (Nat.zero_le _) (show 0 < 2 ^ 64 by omega) (by omega)
  obtain ⟨hp₂, hk₂⟩ := hp₁.written ho
  exact Meets.pure ⟨hp₂, hk₁.trans hk₂, ha.spent.setData _, hd⟩

-- bstack_add copies as many bytes as the page has in use, header included, to behind the header of
-- the new page. The copy ends inside that page unless exactly 56 bytes are in use.
theorem bstackAdd_meets {val : Nat} (hp : Pool base s (p ::ₘ live))
    (hs : StackAt s.file.data p flags next vals) (hroom : vals.length < 5) (hval : val < 2 ^ 64) :
    Meets (bstackAdd s p val) (¬s.Growable 64) fun r =>
      Pool base r.2 (r.1 ::ₘ live) ∧ Keeps (p ::ₘ live) s r.2 ∧ Spent s r.2 64 ∧ r.1 ∉ p ::ₘ live ∧
        StackAt r.2.file.data r.1 flags next (vals ++ [val]) := by
  have hb := hp.bounds (Multiset.mem_cons_self p live)
  have hfree : ¬pgFree (pgHeader s p) < 8 := by
    rw [hs.page.free_eq]
    omega
  rw [bstackAdd, if_neg (by omega)]
  simp only [hs.page.size_eq, if_neg hfree, hs.page.flags_eq, hs.page.nkeys_eq, hs.page.used_eq,
    hs.page.end_eq, hs.pgNext_eq, toItem_eq (show 16 + 8 * vals.length < 2 ^ 16 by omega)]
  apply Meets.bind hp.alloc_meets
  rintro ⟨d, s₁⟩ ⟨hp₁, hk₁, ha⟩
  have hs₁ := hs.congr (hk₁ p (Multiset.mem_cons_self _ _))
  have hbd := hp₁.bounds (p := d) (by simp)
  have hdp := hp₁.apart_of_cons (Multiset.mem_cons_self p live)
  have hstart : bsStart = 16 := rfl
  simp only [bstackHdrWrite_eq s₁ (show d < 2 ^ 63 by omega), hstart]
  rw [copy_eq _ (by omega) (by omega) (by omega) (by omega) (by omega),
    writeUi64_eq _ _ (by omega) (by omega)]
  simp only [setData_setData, setData_data]
  have hlen : (vals ++ [val]).length = vals.length + 1 := by simp
  have hused : 16 + 8 * vals.length + 8 = 16 + 8 * (vals ++ [val]).length := by
    rw [hlen]
    omega
  rw [hused, ← hlen]
  generalize hm : (s₁.file.data.setWord d (hdrWord flags 64 (vals ++ [val]).length
    (16 + 8 * (vals ++ [val]).length))).setWord (d + 8) next = m
  -- the header is on the new page, so the old one can still be read from
  have hhdr : Only s₁.file.data m d 64 := by
    rw [← hm]
    exact ((setWord_only _ _ _).mono le_rfl (by omega)).trans
      ((setWord_only _ _ _).mono (by omega) (by omega))
  have hv := (hs₁.congr (hhdr.same (by omega))).page.content
  have hc := copy_only m (d + 16) (p + 16) (16 + 8 * vals.length)
  have hw := setWord_only (m.copy (d + 16) (p + 16) (16 + 8 * vals.length))
    (d + (16 + 8 * vals.length)) val
  have hbody : Only m ((m.copy (d + 16) (p + 16) (16 + 8 * vals.length)).setWord
      (d + (16 + 8 * vals.length)) val) (d + 16) 48 :=
    (hc.mono le_rfl (by omega)).trans (hw.mono (by omega) (by omega))
  have hvals : ((m.copy (d + 16) (p + 16) (16 + 8 * vals.length)).setWord
      (d + (16 + 8 * vals.length)) val).WordsAt (d + 16) (vals ++ [val]) := by
    refine wordsAt_append.mpr ⟨?_, ?_, trivial⟩
    · exact wordsAt_congr (wordsAt_copy hv (by omega)) (hw.same (by omega))
    · rw [Nat.add_assoc, word_setWord, Nat.mod_eq_of_lt hval]
  obtain ⟨ho, hd⟩ := stackAt_of_written hm hbody hvals hs.page.flags_lt (by omega) hs.next_lt
    (by omega)
  obtain ⟨hp₂, hk₂⟩ := hp₁.written ho
  refine Meets.pure ⟨?_, hk₁.trans hk₂, (ha.spent.setData _).free p, ?_, hd⟩
  · exact Pool.free (by rwa [Multiset.cons_swap] at hp₂)
  · exact (Multiset.nodup_cons.mp hp₁.nodup).1

-- A full page stays where it is, and a new page that points to it is put on top.
theorem bstackAdd_full {val : Nat} (hp : Pool base s (p ::ₘ live))
    (hs : StackAt s.file.data p flags next vals) (hfull : vals.length = 6) (hval : val < 2 ^ 64) :
    Meets (bstackAdd s p val) (¬s.Growable 64) fun r =>
      Pool base r.2 (r.1 ::ₘ p ::ₘ live) ∧ Keeps (p ::ₘ live) s r.2 ∧ Spent s r.2 64 ∧
        r.1 ∉ p ::ₘ live ∧ StackAt r.2.file.data r.1 flags p [val] := by
  have hb := hp.bounds (Multiset.mem_cons_self p live)
  have hfree : pgFree (pgHeader s p) < 8 := by
    rw [hs.page.free_eq]
    omega
  rw [bstackAdd, if_neg (by omega)]
  simp only [hs.page.size_eq, if_pos hfree, hs.page.flags_eq]
  apply Meets.bind hp.alloc_meets
  rintro ⟨d, s₁⟩ ⟨hp₁, hk₁, ha⟩
  have hbd := hp₁.bounds (p := d) (by simp)
  have hstart : bsStart = 16 := rfl
  simp only [bstackHdrWrite_eq s₁ (show d < 2 ^ 63 by omega), hstart]
  rw [writeUi64_eq _ _ (by omega) (by omega)]
  simp only [setData_setData, setData_data]
  have hone : hdrWord flags 64 1 (16 + 8) = hdrWord flags 64 [val].length (16 + 8 * [val].length) := by
    rw [List.length_singleton]
  rw [hone]
  generalize hm : (s₁.file.data.setWord d
    (hdrWord flags 64 [val].length (16 + 8 * [val].length))).setWord (d + 8) p = m
  have hvals : (m.setWord (d + 16) val).WordsAt (d + 16) [val] :=
    ⟨by rw [word_setWord, Nat.mod_eq_of_lt hval], trivial⟩
  obtain ⟨ho, hd⟩ := stackAt_of_written hm ((setWord_only m (d + 16) val).mono le_rfl (by omega)) hvals
    hs.page.flags_lt (by simp) (by omega) (by omega)
  obtain ⟨hp₂, hk₂⟩ := hp₁.written ho
  exact Meets.pure ⟨hp₂, hk₁.trans hk₂, ha.spent.setData _,
    (Multiset.nodup_cons.mp hp₁.nodup).1, hd⟩

end Add

end Adventure

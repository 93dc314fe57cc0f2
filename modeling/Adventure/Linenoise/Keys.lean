import Adventure.Linenoise.Editor

namespace Adventure

open Editor

variable {junk : UInt8 × UInt8 × UInt8}

theorem eq_of_toNat {c : UInt8} {n : Nat} (h : c.toNat = n) : c = UInt8.ofNat n := by
  rw [← h, UInt8.ofNat_toNat]

theorem mem_of_lookup {α : Type} [BEq α] [LawfulBEq α] {table : List (α × EditKey)} {a : α} {k : EditKey}
    (h : table.lookup a = some k) : (a, k) ∈ table := by
  obtain ⟨before, behind, rfl, -⟩ := List.lookup_eq_some_iff.mp h
  exact List.mem_append_right _ List.mem_cons_self

theorem escapes_digit (b c : UInt8) :
    (escapes.lookup [91, b, c]).getD .nothing = if c = 126 ∧ b = 51 then .delete else .nothing := by
  by_cases h : c = 126 ∧ b = 51
  · obtain ⟨rfl, rfl⟩ := h
    rfl
  · have hnone : escapes.lookup [91, b, c] = none := by
      simpa [escapes, List.lookup_eq_none_iff] using fun hb hc => h ⟨hc, hb⟩
    rw [hnone, if_neg h]
    rfl

theorem escapes_bracket (b : UInt8) :
    (escapes.lookup [91, b]).getD .nothing =
      match b.toNat with
      | 65 => .prev
      | 66 => .next
      | 67 => .right
      | 68 => .left
      | 72 => .home
      | 70 => .stop
      | _ => .nothing := by
  generalize hk : (escapes.lookup [91, b]).getD .nothing = k
  split
  case h_7 =>
    have hnone : escapes.lookup [91, b] = none := by
      simp_all [escapes, List.lookup_eq_none_iff, ← UInt8.toNat_inj]
    rw [hnone] at hk
    exact hk.symm
  all_goals
    next h =>
      obtain rfl := eq_of_toNat h
      exact hk.symm

theorem escapes_o (b : UInt8) :
    (escapes.lookup [79, b]).getD .nothing =
      match b.toNat with
      | 72 => .home
      | 70 => .stop
      | _ => .nothing := by
  generalize hk : (escapes.lookup [79, b]).getD .nothing = k
  split
  case h_3 =>
    have hnone : escapes.lookup [79, b] = none := by
      simp_all [escapes, List.lookup_eq_none_iff, ← UInt8.toNat_inj]
    rw [hnone] at hk
    exact hk.symm
  all_goals
    next h =>
      obtain rfl := eq_of_toNat h
      exact hk.symm

theorem escapes_other {a : UInt8} (ha : a ≠ 91) (ho : a ≠ 79) (b : UInt8) :
    (escapes.lookup [a, b]).getD .nothing = .nothing := by
  have hnone : escapes.lookup [a, b] = none := by
    simp [escapes, List.lookup_eq_none_iff, ha, ho]
  rw [hnone]
  rfl

-- The sequence, with the inputs behind two and three bytes of it.
theorem escape_same (a b c : UInt8) (t input₂ input₃ : List UInt8) :
    (if a = 91 then
      if 48 ≤ b ∧ b ≤ 57 then (if c = 126 ∧ b = 51 then EditKey.delete else .nothing, input₃)
      else
        match b.toNat with
        | 65 => (.prev, input₂)
        | 66 => (.next, input₂)
        | 67 => (.right, input₂)
        | 68 => (.left, input₂)
        | 72 => (.home, input₂)
        | 70 => (.stop, input₂)
        | _ => (.nothing, input₂)
    else if a = 79 then
      match b.toNat with
      | 72 => (.home, input₂)
      | 70 => (.stop, input₂)
      | _ => (.nothing, input₂)
    else (.nothing, input₂)) =
    ((escapes.lookup ((a :: b :: c :: t).take (escapeLength (a :: b :: c :: t)))).getD .nothing,
      if escapeLength (a :: b :: c :: t) = 3 then input₃ else input₂) := by
  by_cases ha : a = 91
  · subst ha
    rw [if_pos rfl]
    by_cases hb : 48 ≤ b ∧ b ≤ 57
    · have hlen : escapeLength (91 :: b :: c :: t) = 3 := if_pos hb
      rw [if_pos hb, hlen, if_pos rfl, ← escapes_digit]
      rfl
    · have hlen : escapeLength (91 :: b :: c :: t) = 2 := if_neg hb
      rw [if_neg hb, hlen, if_neg (by decide : ¬2 = 3)]
      refine Eq.trans ?_ (congrArg (·, input₂) (escapes_bracket b).symm)
      split <;> rfl
  · have hlen : escapeLength (a :: b :: c :: t) = 2 := by
      unfold escapeLength
      split
      · simp_all
      · rfl
    rw [if_neg ha, hlen, if_neg (by decide : ¬2 = 3)]
    by_cases ho : a = 79
    · subst ho
      rw [if_pos rfl]
      refine Eq.trans ?_ (congrArg (·, input₂) (escapes_o b).symm)
      split <;> rfl
    · rw [if_neg ho]
      exact congrArg (·, input₂) (escapes_other ha ho b).symm

theorem escapeLength_eq (seq : List UInt8) : escapeLength seq = 2 ∨ escapeLength seq = 3 := by
  unfold escapeLength
  split
  · split <;> simp
  · exact .inl rfl

-- What the switch reads is in the table.
theorem escapeKey_stroke (input : List UInt8) : escapeKey junk input = stroke junk 27 input := by
  rw [stroke, if_pos rfl]
  rcases input with _ | ⟨a, _ | ⟨b, _ | ⟨c, rest⟩⟩⟩
  · refine (escape_same junk.1 junk.2.1 junk.2.2 [] [] []).trans ?_
    simp
  · refine (escape_same a junk.2.1 junk.2.2 [] [] []).trans ?_
    obtain h | h := escapeLength_eq [a, junk.2.1, junk.2.2] <;> simp [h]
  · refine (escape_same a b junk.2.2 [] [] []).trans ?_
    obtain h | h := escapeLength_eq [a, b, junk.2.2] <;> simp [h]
  · refine (escape_same a b c rest (c :: rest) rest).trans ?_
    obtain h | h := escapeLength_eq (a :: b :: c :: rest) <;> simp [h]

theorem editKey_stroke (c : UInt8) (input : List UInt8) : editKey junk c input = stroke junk c input := by
  unfold editKey
  split
  case h_11 h =>
    obtain rfl := eq_of_toNat h
    exact escapeKey_stroke input
  case h_18 =>
    have hesc : c ≠ 27 := by
      rintro rfl
      simp_all
    have hnone : controls.lookup c = none := by
      simp only [controls, List.lookup_eq_none_iff, List.forall_mem_cons, List.not_mem_nil]
      simp only [bne_iff_ne, ne_eq, ← UInt8.toNat_inj]
      simp_all
    rw [stroke, if_neg hesc, hnone]
    rfl
  all_goals
    next h =>
      obtain rfl := eq_of_toNat h
      rfl

theorem Editor.stroke_suffix (junk : UInt8 × UInt8 × UInt8) (c : UInt8) (input : List UInt8) :
    (stroke junk c input).2 <:+ input := by
  unfold stroke
  split
  · exact List.drop_suffix _ _
  · exact List.suffix_refl _

-- Only a byte that is not in the tables is inserted.
theorem Editor.stroke_insert {c d : UInt8} {input : List UInt8} (h : (stroke junk c input).1 = .insert d) :
    d = c ∧ c ≠ 27 ∧ controls.lookup c = none := by
  unfold stroke at h
  split at h
  · have hnone : ∀ seq, (escapes.lookup seq).getD .nothing ≠ .insert d := by
      intro seq
      cases hk : escapes.lookup seq with
      | none => simp
      | some k =>
        have hmem := mem_of_lookup hk
        rintro rfl
        simp [escapes] at hmem
    exact absurd h (hnone _)
  · next hesc =>
    cases hk : controls.lookup c with
    | none =>
      rw [hk] at h
      exact ⟨(EditKey.insert.inj h).symm, hesc, rfl⟩
    | some k =>
      have hmem := mem_of_lookup hk
      rw [hk] at h
      obtain rfl : k = .insert d := h
      simp [controls] at hmem

-- A byte that is a key, or may be in the text.
def Window.Key (w : Window) (c : UInt8) : Prop := c = 9 ∨ c = 27 ∨ (controls.lookup c).isSome ∨ w.plain c

theorem Window.Key.insert {w : Window} {c d : UInt8} {input : List UInt8} (hc : w.Key c) (htab : c ≠ 9)
    (h : (stroke junk c input).1 = .insert d) : w.plain d := by
  obtain ⟨rfl, hesc, hnone⟩ := stroke_insert h
  obtain rfl | rfl | hkey | hplain := hc
  · exact absurd rfl htab
  · exact absurd rfl hesc
  · rw [hnone] at hkey
    cases hkey
  · exact hplain

end Adventure

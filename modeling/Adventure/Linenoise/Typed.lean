import Adventure.Linenoise.Theorems

namespace Adventure

-- A byte that a key inserts.
def Printable (c : UInt8) : Prop := 32 ≤ c ∧ c ≠ 127

instance : DecidablePred Printable := fun c => inferInstanceAs (Decidable (32 ≤ c ∧ c ≠ 127))

-- The line that tabs lead to: a completion, or the text again.
def picked (keys : CStr → List CStr) (text : CStr) : Nat → CStr
  | 0 => text
  | tabs + 1 => ((keys text ++ [text])[tabs % ((keys text).length + 1)]?).getD text

-- A line that is typed, with tabs behind it.
def lineKeys (text : CStr) (tabs : Nat) : List UInt8 := text ++ List.replicate tabs 9 ++ [13]

theorem Printable.ne {c : UInt8} (hc : Printable c) {d : UInt8} (hd : d < 32) : c ≠ d := by
  rintro rfl
  exact absurd hd (UInt8.not_lt.mpr hc.1)

theorem stroke_printable (junk : UInt8 × UInt8 × UInt8) {c : UInt8} (hc : Printable c) (input : List UInt8) :
    Editor.stroke junk c input = (.insert c, input) := by
  have hnone : Editor.controls.lookup c = none := by
    rw [List.lookup_eq_none_iff]
    intro p hp
    rw [bne_iff_ne]
    simp only [Editor.controls, List.mem_cons, List.not_mem_nil, or_false] at hp
    rcases hp with rfl | rfl | rfl | rfl | rfl | rfl | rfl | rfl | rfl | rfl | rfl | rfl | rfl | rfl | rfl | rfl
    case inr.inr.inl => exact hc.2
    all_goals exact hc.ne (by decide)
  rw [Editor.stroke, if_neg (hc.ne (by decide)), hnone]
  rfl

namespace Editor

variable {callback : CStr → List CStr} {limit : Nat} {junk : UInt8 × UInt8 × UInt8} {e : Editor}

-- The text with the cursor at its end.
def onEnd (e : Editor) (text : CStr) : Editor := { e with text := .ofList text }

theorem loop_insert (steps : Nat) (text : CStr) {c : UInt8} (hc : Printable c) (hroom : text.length < limit)
    (input : List UInt8) :
    loop callback limit junk (steps + 1) (e.onEnd text) (c :: input) =
      loop callback limit junk steps (e.onEnd (text ++ [c])) input := by
  have hroom' : (e.onEnd text).len < limit := by simpa [len, onEnd] using hroom
  have hinsert : (e.onEnd text).onText (.insert c) = e.onEnd (text ++ [c]) := by
    simp [onText, onEnd, Zipper.insert, Zipper.ofList]
  rw [loop, if_neg (hc.ne (by decide)), stroke_printable junk hc]
  simp only [key, if_pos hroom', hinsert]

theorem loop_text (steps : Nat) (before text : CStr) (hprint : ∀ c ∈ text, Printable c)
    (hroom : before.length + text.length ≤ limit) (input : List UInt8) :
    loop callback limit junk (text.length + steps) (e.onEnd before) (text ++ input) =
      loop callback limit junk steps (e.onEnd (before ++ text)) input := by
  induction text generalizing before with
  | nil => rw [List.length_nil, Nat.zero_add, List.append_nil, List.nil_append]
  | cons c text ih =>
    rw [List.length_cons] at hroom ⊢
    rw [Nat.add_right_comm, List.cons_append, loop_insert _ _ (hprint c List.mem_cons_self) (by omega),
      ih _ (fun d hd => hprint d (List.mem_cons_of_mem _ hd)) (by simp; omega), List.append_assoc,
      List.singleton_append]

-- ENTER ends the line, and CTRL-D an empty one.
theorem loop_enter (steps : Nat) (e : Editor) (input : List UInt8) :
    loop callback limit junk (steps + 1) e (13 :: input) =
      some ((e.len : Int), { e with popped := true }, input) := rfl

theorem loop_eof (steps : Nat) (input : List UInt8) :
    loop callback limit junk (steps + 1) (e.onEnd []) (4 :: input) =
      some (-1, { e.onEnd [] with popped := true }, input) := rfl

theorem cycle_tabs (cvec : List CStr) (z : Zipper UInt8) (tabs i : Nat) (hi : i ≤ cvec.length)
    (input : List UInt8) :
    cycle cvec z (List.replicate tabs 9 ++ 13 :: input) i =
      ((cvec[(i + tabs) % (cvec.length + 1)]?.map Zipper.ofList).getD z, 13 :: input) := by
  induction tabs generalizing i with
  | zero =>
    rw [Nat.add_zero, Nat.mod_eq_of_lt (Nat.lt_succ_of_le hi), List.replicate_zero, List.nil_append, cycle,
      if_neg (by decide), if_neg (by decide)]
  | succ tabs ih =>
    have hnext : (i + 1) % (cvec.length + 1) ≤ cvec.length := Nat.le_of_lt_succ (Nat.mod_lt _ (Nat.succ_pos _))
    rw [List.replicate_succ, List.cons_append, cycle, if_pos rfl, ih _ hnext, Nat.mod_add_mod,
      Nat.add_right_comm, Nat.add_assoc i]

theorem line_onEnd {text : CStr} (htext : 0 ∉ text) : (e.onEnd text).line = text := by
  rw [line, onEnd, Zipper.toList_ofList, takeWhile_of_clean htext]

theorem picked_nil {text : CStr} (hnil : callback text = []) (tabs : Nat) : picked callback text tabs = text := by
  cases tabs with
  | zero => rfl
  | succ tabs => simp [picked, hnil, Nat.mod_one]

theorem picked_succ (text : CStr) (tabs : Nat) :
    ((callback text)[tabs % ((callback text).length + 1)]?.map Zipper.ofList).getD (.ofList text) =
      .ofList (picked callback text (tabs + 1)) := by
  have hlt : tabs % ((callback text).length + 1) < (callback text).length + 1 := Nat.mod_lt _ (Nat.succ_pos _)
  rw [picked]
  generalize tabs % ((callback text).length + 1) = i at hlt
  by_cases hi : i < (callback text).length
  · rw [List.getElem?_append_left hi, List.getElem?_eq_getElem hi]
    rfl
  · obtain rfl : i = (callback text).length := by omega
    simp

-- Without completions the tabs do nothing.
theorem loop_beeps {text : CStr} (htext : 0 ∉ text) (hnil : callback text = []) (tabs steps : Nat)
    (input : List UInt8) :
    loop callback limit junk (tabs + steps) (e.onEnd text) (List.replicate tabs 9 ++ input) =
      loop callback limit junk steps (e.onEnd text) input := by
  induction tabs with
  | zero => rw [Nat.zero_add, List.replicate_zero, List.nil_append]
  | succ tabs ih =>
    have hnil' : callback (e.onEnd text).line = [] := by rw [line_onEnd htext, hnil]
    rw [Nat.add_right_comm, List.replicate_succ, List.cons_append, loop, if_pos rfl, if_pos hnil']
    exact ih

-- What the line is when ENTER comes behind the tabs.
theorem loop_tabs {text : CStr} (htext : 0 ∉ text) (tabs steps : Nat) (input : List UInt8) :
    loop callback limit junk (tabs + (steps + 1)) (e.onEnd text) (List.replicate tabs 9 ++ 13 :: input) =
      some (((picked callback text tabs).length : Int),
        { e.onEnd (picked callback text tabs) with popped := true }, input) := by
  by_cases hnil : callback text = []
  · rw [loop_beeps htext hnil, loop_enter, picked_nil hnil]
    simp [len, onEnd]
  cases tabs with
  | zero =>
    rw [Nat.zero_add, List.replicate_zero, List.nil_append, loop_enter]
    simp [len, onEnd, picked]
  | succ tabs =>
    have hline := line_onEnd (e := e) htext
    have hcycle : cycle (callback (e.onEnd text).line) (e.onEnd text).text (List.replicate tabs 9 ++ 13 :: input) 0 =
        (.ofList (picked callback text (tabs + 1)), 13 :: input) := by
      rw [hline, cycle_tabs _ _ _ _ (Nat.zero_le _), Nat.zero_add]
      exact congrArg (·, 13 :: input) (picked_succ text tabs)
    rw [Nat.add_right_comm, List.replicate_succ, List.cons_append, loop, if_pos rfl, if_neg (hline.symm ▸ hnil),
      hcycle]
    dsimp only
    rw [if_neg (by decide), if_neg (by decide)]
    refine (loop_enter (tabs + steps) _ input).trans ?_
    simp [len, onEnd]

end Editor

section Typed

variable (env : LineEnv) {prompt : CStr} {h : LineHistory} {callback : CStr → List CStr}

theorem lookBack_of_popped {s : LineEdit} {e : Editor} {w : Window}
    (hend : Ended w h.maxLen callback s e) {text : Zipper UInt8}
    (he : e = { Editor.start h.maxLen h.lines with text, popped := true }) : s.history = lookBack h := by
  refine LineHistory.ext ?_ hend.maxLen_eq
  rw [hend.lines_eq, he, Editor.history, if_pos rfl]
  change List.dropLast ((Editor.below h.maxLen h.lines).reverse.reverse ++ [[]]) = Editor.below h.maxLen h.lines
  rw [List.reverse_reverse, List.dropLast_concat]

theorem picked_clean (hkeys : ∀ line, ∀ text ∈ callback line, 0 ∉ text) {text : CStr} (htext : 0 ∉ text)
    (tabs : Nat) : 0 ∉ picked callback text tabs := by
  cases tabs with
  | zero => exact htext
  | succ tabs =>
    rw [picked]
    cases hget : (callback text ++ [text])[tabs % ((callback text).length + 1)]? with
    | none => exact htext
    | some found =>
      obtain hmem | hmem := List.mem_append.mp (List.mem_of_getElem? hget)
      · exact hkeys text found hmem
      · rwa [Option.getD_some, List.mem_singleton.mp hmem]

variable (hbuf : env.buf.length = LINENOISE_MAX_LINE) (hwide : prompt.length < env.cols)
  (hcall : ∀ line, env.callback line = some (callback line))
  (hshort : ∀ line, ∀ text ∈ callback line, text.length < 4095)
  (hclean : ∀ line ∈ h.lines, 0 ∉ line)

include hbuf hwide hcall hshort hclean

-- A typed line is what linenoise returns, or what the tabs make of it.
theorem linenoise_typed (hkeys : ∀ line, ∀ text ∈ callback line, 0 ∉ text) {text : CStr}
    (hprint : ∀ c ∈ text, Printable c) (hlen : text.length ≤ 4095) (tabs : Nat) {late : List UInt8}
    (htyped : env.typed = lineKeys text tabs ++ late) (input : List UInt8) :
    linenoise env .tty prompt h input = some (some (picked callback text tabs), lookBack h, []) := by
  have htext : 0 ∉ text := fun hmem => (hprint 0 hmem).ne (by decide : (0 : UInt8) < 32) rfl
  have hline := picked_clean hkeys htext tabs
  obtain ⟨count, s, e, rest, hs, he, hend⟩ := linenoiseEdit_follows hbuf hwide hcall hshort hclean env.typed
  have hsteps : env.typed.length + 1 = text.length + (tabs + (late.length + 1 + 1)) := by
    rw [htyped]
    simp [lineKeys]
    omega
  have hrun : Editor.edit callback 4095 env.junk (Editor.start h.maxLen h.lines) env.typed =
      some (((picked callback text tabs).length : Int),
        { (Editor.start h.maxLen h.lines).onEnd (picked callback text tabs) with popped := true }, late) := by
    have htext' : Editor.loop callback 4095 env.junk (text.length + (tabs + (late.length + 1 + 1)))
        (Editor.start h.maxLen h.lines) (text ++ (List.replicate tabs 9 ++ 13 :: late)) =
          Editor.loop callback 4095 env.junk (tabs + (late.length + 1 + 1))
            ((Editor.start h.maxLen h.lines).onEnd text) (List.replicate tabs 9 ++ 13 :: late) :=
      Editor.loop_text (e := Editor.start h.maxLen h.lines) _ [] text hprint (by simpa using hlen) _
    rw [Editor.edit, hsteps, htyped, lineKeys, List.append_assoc, List.append_assoc, List.singleton_append]
    exact htext'.trans (Editor.loop_tabs htext tabs (late.length + 1) late)
  rw [hrun] at he
  simp only [Option.some.injEq, Prod.mk.injEq] at he
  obtain ⟨rfl, rfl, rfl⟩ := he
  have hdup := hend.strdup
  rw [Editor.line, Editor.onEnd, Zipper.toList_ofList, takeWhile_of_clean hline] at hdup
  have hnot : ¬((picked callback text tabs).length : Int) = -1 := by omega
  rw [linenoise, hs]
  simp only [Option.bind_eq_bind, Option.bind_some, if_neg hnot, hdup, lookBack_of_popped hend rfl]
  rfl

-- CTRL-D on an empty line ends the input.
theorem linenoise_eof {late : List UInt8} (htyped : env.typed = 4 :: late) (input : List UInt8) :
    linenoise env .tty prompt h input = some (none, lookBack h, []) := by
  obtain ⟨count, s, e, rest, hs, he, hend⟩ := linenoiseEdit_follows hbuf hwide hcall hshort hclean env.typed
  have hrun : Editor.edit callback 4095 env.junk (Editor.start h.maxLen h.lines) env.typed =
      some (-1, { Editor.start h.maxLen h.lines with popped := true }, late) := by
    rw [htyped]
    exact Editor.loop_eof (e := Editor.start h.maxLen h.lines) (late.length + 1) late
  rw [hrun] at he
  simp only [Option.some.injEq, Prod.mk.injEq] at he
  obtain ⟨rfl, rfl, rfl⟩ := he
  rw [linenoise, hs]
  simp only [Option.bind_eq_bind, Option.bind_some, if_true, lookBack_of_popped hend rfl]
  rfl

end Typed

end Adventure

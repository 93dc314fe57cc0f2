import Adventure.Linenoise.Follows

namespace Adventure

section Complete

variable {w : Window} {maxLen : Nat} {cvec : List CStr} {l : LinenoiseState} {z : Zipper UInt8}

-- What the row shows among the completions.
def shownText (cvec : List CStr) (z : Zipper UInt8) (i : Nat) : Zipper UInt8 :=
  match cvec[i]? with
  | some text => .ofList text
  | none => z

theorem shownText_plain (hcvec : ∀ text ∈ cvec, ∀ c ∈ text, w.plain c) (hz : ∀ c ∈ z.toList, w.plain c) (i : Nat) :
    ∀ c ∈ (shownText cvec z i).toList, w.plain c := by
  unfold shownText
  cases htext : cvec[i]? with
  | some text =>
    rw [Zipper.toList_ofList]
    exact hcvec text (List.mem_of_getElem? htext)
  | none => exact hz

-- The row may show a completion, and the line is still what it was.
theorem Edits.showRow (he : Edits w l z) (hcvec : ∀ text ∈ cvec, ∀ c ∈ text, w.plain c) (i : Nat) :
    ∃ l', Adventure.showRow cvec i l = some l' ∧ Edits w l' z ∧ l'.historyIndex = l.historyIndex ∧
      w.Shown l'.out (shownText cvec z i) := by
  have hshown := w.shown_draw (shownText_plain hcvec he.plain i) he.usable
  refine ⟨_, ?_, he.print fun hlegible => (hshown hlegible).usable, rfl, hshown⟩
  rw [shownText, Adventure.showRow]
  cases cvec[i]? with
  | some text =>
    have hdraw := refreshSingleLine_eq (l := { l with buf := text, pos := strlen text, len := strlen text })
      (z := .ofList text) he.prompt_eq he.cols_eq (by simp [strlen]) (by simp [strlen, Zipper.ofList])
    simp only [showCompletion, hdraw, Option.bind_eq_bind, Option.bind_some]
    rfl
  | none => exact refreshSingleLine_eq he.prompt_eq he.cols_eq he.take_eq he.pos_eq

theorem snprintf_eq {buf : List UInt8} {size : Nat} {text : CStr} (htext : text.length < size)
    (hle : size ≤ buf.length) :
    snprintf buf size text = some (text ++ 0 :: buf.drop (text.length + 1)) := by
  have htake : text.take (size - 1) = text := List.take_of_length_le (by omega)
  rw [snprintf, if_pos ⟨by omega, by simp; omega⟩, htake]
  simp

-- What completion leaves: no input, or a byte that ends it. At the end of the input the row may still show a
-- completion.
inductive Cycled (w : Window) (cvec : List CStr) (z : Zipper UInt8) (input : List UInt8) :
    Int × LinenoiseState × List UInt8 → Zipper UInt8 × List UInt8 → Prop
  | stopped {l : LinenoiseState} (edits : Edits w l z)
      (shown : w.Shown l.out z ∨ ∃ text ∈ cvec, w.Shown l.out (.ofList text)) :
      Cycled w cvec z input (-1, l, []) (z, [])
  | taken {l : LinenoiseState} {z' : Zipper UInt8} {c : UInt8} {rest : List UInt8} (tab : c ≠ 9)
      (suffix : c :: rest <:+ input) (drawn : Drawn w l z') :
      Cycled w cvec z input (charVal c, l, rest) (z', c :: rest)

theorem Cycled.cons {input : List UInt8} {r : Int × LinenoiseState × List UInt8} {r' : Zipper UInt8 × List UInt8}
    (h : Cycled w cvec z input r r') (c : UInt8) :
    Cycled w cvec z (c :: input) r r' := by
  cases h with
  | stopped hedits hshown => exact .stopped hedits hshown
  | taken htab hsuffix hd => exact .taken htab (hsuffix.trans (List.suffix_cons c input)) hd

theorem Edits.cycle (he : Edits w l z) (hcvec : ∀ text ∈ cvec, ∀ c ∈ text, w.plain c)
    (hshort : ∀ text ∈ cvec, text.length < w.limit) (input : List UInt8) (i : Nat) :
    ∃ c l' rest, completeLineFrom cvec input i l = some (c, l', rest) ∧ l'.historyIndex = l.historyIndex ∧
      Cycled w cvec z input (c, l', rest) (Editor.cycle cvec z input i) := by
  induction input generalizing l i with
  | nil =>
    obtain ⟨l₁, hl, he₁, hindex, hshown⟩ := he.showRow hcvec i
    refine ⟨-1, l₁, [], by rw [completeLineFrom, hl]; rfl, hindex, .stopped he₁ ?_⟩
    unfold shownText at hshown
    cases htext : cvec[i]? with
    | none =>
      rw [htext] at hshown
      exact .inl hshown
    | some text =>
      rw [htext] at hshown
      exact .inr ⟨text, List.mem_of_getElem? htext, hshown⟩
  | cons c input ih =>
    obtain ⟨l₁, hl, he₁, hindex₁, hshown⟩ := he.showRow hcvec i
    rw [completeLineFrom, hl, Option.bind_eq_bind, Option.bind_some, Editor.cycle]
    by_cases htab : c = 9
    · -- on to the next completion
      simp only [if_pos htab]
      have hedits : Edits w
          (if (i + 1) % (cvec.length + 1) = cvec.length then linenoiseBeep l₁ else l₁) z := by
        split
        · exact he₁.print fun hlegible => (he₁.usable hlegible).bell
        · exact he₁
      obtain ⟨c', l', rest, hcomplete, hindex, hcycled⟩ := ih hedits ((i + 1) % (cvec.length + 1))
      refine ⟨c', l', rest, hcomplete, hindex.trans ?_, hcycled.cons c⟩
      split
      · exact hindex₁
      · exact hindex₁
    simp only [if_neg htab]
    by_cases hesc : c = 27
    · simp only [if_pos hesc]
      by_cases hi : i < cvec.length
      · -- the line is drawn again
        obtain ⟨l', hl', hd, hindex⟩ := he₁.refresh
        exact ⟨charVal c, l', input, by rw [if_pos hi, hl']; rfl, hindex.trans hindex₁,
          .taken htab (List.suffix_refl _) hd⟩
      · have hnone : cvec[i]? = none := List.getElem?_eq_none (Nat.not_lt.mp hi)
        rw [shownText, hnone] at hshown
        exact ⟨charVal c, l₁, input, by rw [if_neg hi]; rfl, hindex₁,
          .taken htab (List.suffix_refl _) ⟨he₁, hshown⟩⟩
    simp only [if_neg hesc]
    unfold shownText at hshown
    cases htext : cvec[i]? with
    | none =>
      rw [htext] at hshown
      exact ⟨charVal c, l₁, input, rfl, hindex₁, .taken htab (List.suffix_refl _) ⟨he₁, hshown⟩⟩
    | some text =>
      rw [htext] at hshown
      have hsize := he₁.size
      have hbuflen := he₁.buflen_eq
      have hfits : text.length < l₁.buflen := by
        rw [hbuflen]
        exact hshort text (List.mem_of_getElem? htext)
      have htext' := hcvec text (List.mem_of_getElem? htext)
      have hcopy := snprintf_eq hfits (by omega : l₁.buflen ≤ l₁.buf.length)
      let buf := text ++ 0 :: l₁.buf.drop (text.length + 1)
      refine ⟨charVal c, { l₁ with buf, pos := text.length, len := text.length }, input,
        by simp only [hcopy]; rfl, hindex₁, .taken htab (List.suffix_refl _) ⟨?_, hshown⟩⟩
      exact ⟨he₁.prompt_eq, he₁.cols_eq, hbuflen, by simp [buf]; omega,
        ⟨l₁.buf.drop (text.length + 1), by simp [buf]⟩, by simp [Zipper.ofList], by simp, by simpa using htext',
        he₁.usable⟩

variable {callback : CStr → List CStr} {s : LineEdit} {e : Editor}

-- Without completions there is only a beep.
theorem Follows.complete_nil (hf : Follows w maxLen s e) {call : CStr → Option (List CStr)}
    (hcall : call e.line = some (callback e.line)) (hnil : callback e.line = []) (input : List UInt8) :
    ∃ s', s.complete call input = some (0, s', input) ∧ Follows w maxLen s' e := by
  have hd : Drawn w (linenoiseBeep s.line) e.text :=
    ⟨hf.drawn.print fun hlegible => (hf.drawn.usable hlegible).bell, fun hlegible => (hf.drawn.shown hlegible).bell⟩
  refine ⟨{ s with line := linenoiseBeep s.line }, ?_, hd, hf.lines_eq, hf.maxLen_eq, hf.index_eq, hf.clean, hf.kept⟩
  simp only [LineEdit.complete, completeLine, hf.strdup, hcall, Option.bind_eq_bind, Option.bind_some, if_pos hnil]
  rfl

-- The states after completion, with the input that is left.
inductive Completed (w : Window) (maxLen : Nat) (callback : CStr → List CStr) (e : Editor)
    (input : List UInt8) : Int × LineEdit × List UInt8 → Zipper UInt8 × List UInt8 → Prop
  | stopped {s : LineEdit} (ended : Ended w maxLen callback s e) :
      Completed w maxLen callback e input (-1, s, []) (e.text, [])
  | taken {s : LineEdit} {text : Zipper UInt8} {c : UInt8} {rest : List UInt8} (tab : c ≠ 9)
      (suffix : c :: rest <:+ input) (follows : Follows w maxLen s { e with text }) :
      Completed w maxLen callback e input (charVal c, s, rest) (text, c :: rest)

theorem Follows.completed (hf : Follows w maxLen s e) {input : List UInt8}
    {r : Int × LinenoiseState × List UInt8} {r' : Zipper UInt8 × List UInt8}
    (hindex : r.2.1.historyIndex = s.line.historyIndex)
    (hcycled : Cycled w (callback e.line) e.text input r r') :
    Completed w maxLen callback e input (r.1, { s with line := r.2.1 }, r.2.2) r' := by
  cases hcycled with
  | stopped hedits hshown =>
    have hend : Ended w maxLen callback s e := hf.ended
    exact .stopped ⟨hedits, hend.lines_eq, hend.maxLen_eq, hshown⟩
  | @taken l text c rest htab hsuffix hd =>
    have hf' : Follows w maxLen { s with line := l } { e with text } :=
      ⟨hd, hf.lines_eq, hf.maxLen_eq, hindex.trans hf.index_eq, hf.clean, hf.kept⟩
    dsimp only
    exact .taken htab hsuffix hf'

theorem Follows.complete (hf : Follows w maxLen s e) {call : CStr → Option (List CStr)}
    (hcall : call e.line = some (callback e.line)) (hplain : ∀ text ∈ callback e.line, ∀ c ∈ text, w.plain c)
    (hshort : ∀ text ∈ callback e.line, text.length < w.limit) (hne : callback e.line ≠ []) (input : List UInt8) :
    ∃ r, s.complete call input = some r ∧
      Completed w maxLen callback e input r (Editor.cycle (callback e.line) e.text input 0) := by
  obtain ⟨c, l, rest, hl, hindex, hcycled⟩ := hf.drawn.toEdits.cycle hplain hshort input 0
  refine ⟨(c, { s with line := l }, rest), ?_, hf.completed hindex hcycled⟩
  simp only [LineEdit.complete, completeLine, hf.strdup, hcall, Option.bind_eq_bind, Option.bind_some, if_neg hne, hl]
  rfl

end Complete

end Adventure

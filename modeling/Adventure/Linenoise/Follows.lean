import Adventure.Linenoise.Editor

namespace Adventure

section History

variable {w : Window} {maxLen : Nat}

-- The editor is what the line and the history stand for.
structure Follows (w : Window) (maxLen : Nat) (s : LineEdit) (e : Editor) : Prop where
  drawn : Drawn w s.line e.text
  lines_eq : s.history.lines = e.rows
  maxLen_eq : s.history.maxLen = maxLen
  index_eq : s.line.historyIndex = e.newer.length
  clean : ∀ row ∈ e.rows, w.Line row
  kept : e.popped = false

-- strncpy and the NUL behind it.
theorem strncpy_eq {buf : List UInt8} {n : Nat} (text : CStr) (hn : 0 < n) (hle : n ≤ buf.length) :
    ∃ buf' rest, strncpy buf text n = some buf' ∧
      poke buf' (n - 1) 0 = some (text.take (n - 1) ++ 0 :: rest) ∧
      (text.take (n - 1) ++ 0 :: rest).length = buf.length := by
  obtain ⟨m, rfl⟩ : ∃ m, n = m + 1 := ⟨n - 1, by omega⟩
  rw [strncpy, if_pos hle, Nat.add_sub_cancel]
  by_cases hlong : m < text.length
  · -- the text is cut
    have htake : text.take (m + 1) = text.take m ++ [text[m]] := (List.take_append_getElem hlong).symm
    have hzero : m + 1 - text.length = 0 := by omega
    refine ⟨_, buf.drop (m + 1), rfl, ?_, ?_⟩
    · rw [htake, hzero, List.replicate_zero, List.append_nil, List.append_assoc, List.singleton_append]
      exact poke_append _ _ _ 0 (by simp; omega)
    · simp; omega
  · -- there are NULs behind it
    have htake : text.take (m + 1) = text := List.take_of_length_le (by omega)
    have htake' : text.take m = text := List.take_of_length_le (by omega)
    have hpad : List.replicate (m + 1 - text.length) (0 : UInt8) =
        List.replicate (m - text.length) 0 ++ [0] := by
      rw [show m + 1 - text.length = m - text.length + 1 by omega, List.replicate_succ']
    have hpad' : List.replicate (m - text.length) (0 : UInt8) ++ [0] =
        0 :: List.replicate (m - text.length) 0 := by
      rw [← List.replicate_succ', List.replicate_succ]
    refine ⟨_, List.replicate (m - text.length) 0 ++ buf.drop (m + 1), rfl, ?_, ?_⟩
    · have h := poke_append (text ++ List.replicate (m - text.length) 0) (buf.drop (m + 1)) 0 0
        (by simp; omega : m = _)
      rw [htake, htake', hpad, ← List.append_assoc, List.append_assoc _ [0], List.singleton_append, h,
        Option.some.injEq, List.append_assoc, ← List.cons_append, ← hpad', List.append_assoc]
      rfl
    · rw [htake']
      simp; omega

theorem Drawn.showEntry {l : LinenoiseState} {z : Zipper UInt8} (hd : Drawn w l z)
    {entry : CStr} (hentry : w.Line entry) :
    Does w l (.ofList (entry.take (w.limit - 1))) (showEntry l entry) := by
  have hsize := hd.size
  have hlimit := w.limit_pos
  have hsmall := w.limit_lt
  rw [← hd.buflen_eq] at hsize hlimit hsmall ⊢
  obtain ⟨buf, rest, hcopy, hpoke, hlen⟩ :=
    strncpy_eq entry hlimit (by omega : l.buflen ≤ l.buf.length)
  have hclean : 0 ∉ entry.take (l.buflen - 1) := fun h => hentry.1 (List.mem_of_mem_take h)
  have hsub : sub64 l.buflen 1 = l.buflen - 1 := sub64_eq hlimit hsmall
  unfold Adventure.showEntry
  simp only [hcopy, hsub, hpoke, strdup_append, takeWhile_of_clean hclean, Option.bind_eq_bind,
    Option.bind_some]
  refine hd.redraw ⟨rest, by rw [Zipper.toList_ofList]⟩ hlen ?_ ?_ ?_
  · simp [strlen, Zipper.ofList]
  · simp [strlen]
  · rw [Zipper.toList_ofList]
    exact fun c hc => hentry.2 c (List.mem_of_mem_take hc)

-- A row of the history, counted from the newest.
theorem historyGet_eq {h : LineHistory} {older newer : List CStr} {row : CStr} {index : Int}
    (hlines : h.lines = older.reverse ++ row :: newer) (hindex : index = newer.length) :
    historyGet h (h.lines.length - 1 - index) = some row := by
  have hslot : (h.lines.length : Int) - 1 - index = older.length := by
    rw [hlines, hindex]
    simp
    omega
  rw [historyGet, hslot, if_pos (by omega), hlines, Int.toNat_natCast, List.getElem?_append_right (by simp)]
  simp

theorem historySet_eq {h : LineHistory} {older newer : List CStr} {row : CStr} {index : Int}
    (hlines : h.lines = older.reverse ++ row :: newer) (hindex : index = newer.length) (line : CStr) :
    ∃ h', historySet h (h.lines.length - 1 - index) line = some h' ∧
      h'.lines = older.reverse ++ line :: newer ∧ h'.maxLen = h.maxLen := by
  have hslot : (h.lines.length : Int) - 1 - index = older.length := by
    rw [hlines, hindex, List.length_append, List.length_cons, List.length_reverse]
    omega
  have hlt : (older.length : Int) < h.lines.length := by
    rw [hlines, List.length_append, List.length_cons, List.length_reverse]
    omega
  rw [historySet, hslot, if_pos ⟨by omega, hlt⟩]
  refine ⟨_, rfl, ?_, rfl⟩
  simp [hlines]

variable {s : LineEdit} {e : Editor}

-- A move in the history, with what the editor does.
def Goes (w : Window) (maxLen : Nat) (r : Option (LinenoiseState × LineHistory)) (e : Editor) : Prop :=
  ∃ l h, r = some (l, h) ∧ Follows w maxLen ⟨l, h⟩ e

theorem Follows.strdup (hf : Follows w maxLen s e) :
    Adventure.strdup s.line.buf = some e.line := by
  obtain ⟨rest, hbuf⟩ := hf.drawn.buf_eq
  rw [hbuf, strdup_append]
  rfl

theorem Follows.line (hf : Follows w maxLen s e) : w.Line e.line :=
  ⟨takeWhile_clean _ 0, fun c hc => hf.drawn.plain c ((List.takeWhile_prefix _).subset hc)⟩

theorem clean_set {older newer : List CStr} {row line : CStr}
    (hclean : ∀ x ∈ older.reverse ++ row :: newer, w.Line x) (hline : w.Line line) :
    ∀ x ∈ older.reverse ++ line :: newer, w.Line x := by
  intro x hx
  simp only [List.mem_append, List.mem_cons] at hx hclean
  rcases hx with hx | rfl | hx
  · exact hclean x (.inl hx)
  · exact hline
  · exact hclean x (.inr (.inr hx))

-- The cursor stays on its row, at one end of the history.
theorem Drawn.reindex {l : LinenoiseState} {z : Zipper UInt8} (hd : Drawn w l z) (index : Int) :
    Drawn w { l with historyIndex := index } z :=
  ⟨⟨hd.prompt_eq, hd.cols_eq, hd.buflen_eq, hd.size, hd.buf_eq, hd.pos_eq, hd.len_eq, hd.plain, hd.usable⟩, hd.shown⟩

-- The cursor goes to another row, which is shown.
theorem Drawn.recall {l : LinenoiseState} {z : Zipper UInt8} {h : LineHistory} {older newer : List CStr} {row : CStr}
    {index : Int} (hd : Drawn w l z) (hlines : h.lines = older.reverse ++ row :: newer) (hmax : h.maxLen = maxLen)
    (hindex : index = newer.length) (hclean : ∀ x ∈ older.reverse ++ row :: newer, w.Line x) :
    ∃ l', historyGet h (h.lines.length - 1 - index) = some row ∧
      Adventure.showEntry { l with historyIndex := index } row = some l' ∧
      Follows w maxLen ⟨l', h⟩ ⟨.ofList (row.take (w.limit - 1)), older, row, newer, false⟩ := by
  obtain ⟨l', hshow, hd', hindex'⟩ := (hd.reindex index).showEntry (hclean row (by simp))
  exact ⟨l', historyGet_eq hlines hindex, hshow, hd', hlines, hmax, hindex'.trans hindex, hclean, rfl⟩

theorem Follows.prev (hf : Follows w maxLen s e) :
    Goes w maxLen (linenoiseEditHistoryNext s.line s.history .prev) (e.prev w.limit) := by
  obtain ⟨l, h⟩ := s
  have hline := hf.strdup
  have hline' := hf.line
  obtain ⟨hd, hlines, hmax, hindex, hclean, hkept⟩ := hf
  obtain ⟨text, older, row, newer, popped⟩ := e
  generalize hcur : Editor.line ⟨text, older, row, newer, popped⟩ = cur at hline hline'
  obtain ⟨h', hset, hlines', hmax'⟩ := historySet_eq hlines hindex cur
  have hclean' := clean_set hclean hline'
  simp only [Editor.rows] at hd hindex hline hmax hmax' hset hlines hlines' hclean hclean'
  unfold linenoiseEditHistoryNext
  cases older with
  | nil =>
    cases newer with
    | nil =>
      rw [if_neg (by simp [hlines])]
      exact ⟨l, h, rfl, hd, hlines, hmax, hindex, hclean, hkept⟩
    | cons line newer =>
      have hprev : Editor.prev w.limit ⟨text, [], row, line :: newer, popped⟩ =
          ⟨text, [], cur, line :: newer, popped⟩ := by
        rw [Editor.prev, if_neg (List.cons_ne_nil _ _), hcur]
      have hlow : ¬l.historyIndex + 1 < 0 := by omega
      have hend : l.historyIndex + 1 ≥ h'.lines.length := by simp [hlines', hindex]
      rw [if_pos (by simp [hlines]), hprev]
      simp only [hline, hset, Option.bind_eq_bind, Option.bind_some, if_neg hlow, if_pos hend]
      exact ⟨_, h', rfl, hd.reindex _, hlines', hmax'.trans hmax, by simp [hlines'], hclean', hkept⟩
  | cons line older =>
    have hprev : Editor.prev w.limit ⟨text, line :: older, row, newer, popped⟩ =
        ⟨.ofList (line.take (w.limit - 1)), older, line, cur :: newer, popped⟩ := by
      rw [Editor.prev, hcur]
    have hlow : ¬l.historyIndex + 1 < 0 := by omega
    have hgo : ¬l.historyIndex + 1 ≥ h'.lines.length := by
      simp [hlines', hindex]
      omega
    have hlines₁ : h'.lines = older.reverse ++ line :: cur :: newer := by simp [hlines']
    have hindex₁ : l.historyIndex + 1 = (cur :: newer).length := by simp [hindex]
    obtain ⟨l', hget, hshow, hf'⟩ := hd.recall hlines₁ (hmax'.trans hmax) hindex₁
      (by simpa using hclean')
    rw [if_pos (by simp [hlines]; omega), hprev]
    simp only [hline, hset, Option.bind_eq_bind, Option.bind_some, if_neg hlow, if_neg hgo, hget, hshow]
    rw [show popped = false from hkept]
    exact ⟨l', h', rfl, hf'⟩

theorem Follows.next (hf : Follows w maxLen s e) :
    Goes w maxLen (linenoiseEditHistoryNext s.line s.history .next) (e.next w.limit) := by
  obtain ⟨l, h⟩ := s
  have hline := hf.strdup
  have hline' := hf.line
  obtain ⟨hd, hlines, hmax, hindex, hclean, hkept⟩ := hf
  obtain ⟨text, older, row, newer, popped⟩ := e
  generalize hcur : Editor.line ⟨text, older, row, newer, popped⟩ = cur at hline hline'
  obtain ⟨h', hset, hlines', hmax'⟩ := historySet_eq hlines hindex cur
  have hclean' := clean_set hclean hline'
  simp only [Editor.rows] at hd hindex hline hmax hmax' hset hlines hlines' hclean hclean'
  unfold linenoiseEditHistoryNext
  cases newer with
  | nil =>
    cases older with
    | nil =>
      rw [if_neg (by simp [hlines])]
      exact ⟨l, h, rfl, hd, hlines, hmax, hindex, hclean, hkept⟩
    | cons line older =>
      have hnext : Editor.next w.limit ⟨text, line :: older, row, [], popped⟩ =
          ⟨text, line :: older, cur, [], popped⟩ := by
        rw [Editor.next, if_neg (List.cons_ne_nil _ _), hcur]
      have hlow : l.historyIndex + -1 < 0 := by simp [hindex]
      rw [if_pos (by simp [hlines]), hnext]
      simp only [hline, hset, Option.bind_eq_bind, Option.bind_some, if_pos hlow]
      exact ⟨_, h', rfl, hd.reindex _, hlines', hmax'.trans hmax, rfl, hclean', hkept⟩
  | cons line newer =>
    have hnext : Editor.next w.limit ⟨text, older, row, line :: newer, popped⟩ =
        ⟨.ofList (line.take (w.limit - 1)), cur :: older, line, newer, popped⟩ := by
      rw [Editor.next, hcur]
    have hindex₁ : l.historyIndex + -1 = newer.length := by simp [hindex]
    have hlow : ¬l.historyIndex + -1 < 0 := by omega
    have hlines₁ : h'.lines = (cur :: older).reverse ++ line :: newer := by simp [hlines']
    have hgo : ¬l.historyIndex + -1 ≥ h'.lines.length := by
      simp [hlines', hindex₁]
      omega
    obtain ⟨l', hget, hshow, hf'⟩ := hd.recall hlines₁ (hmax'.trans hmax) hindex₁
      (by simpa using hclean')
    rw [if_pos (by simp [hlines]; omega), hnext]
    simp only [hline, hset, Option.bind_eq_bind, Option.bind_some, if_neg hlow, if_neg hgo, hget, hshow]
    rw [show popped = false from hkept]
    exact ⟨l', h', rfl, hf'⟩

end History

section Keys

variable {w : Window} {maxLen : Nat} {callback : CStr → List CStr} {s : LineEdit} {e : Editor}

-- What is left at the end. When the input ends among completions, one of them is shown.
structure Ended (w : Window) (maxLen : Nat) (callback : CStr → List CStr) (s : LineEdit) (e : Editor) : Prop where
  edits : Edits w s.line e.text
  lines_eq : s.history.lines = e.history
  maxLen_eq : s.history.maxLen = maxLen
  shown : w.Shown s.line.out e.text ∨ ∃ text ∈ callback e.line, w.Shown s.line.out (.ofList text)

theorem Ended.strdup (hend : Ended w maxLen callback s e) :
    Adventure.strdup s.line.buf = some e.line := by
  obtain ⟨rest, hbuf⟩ := hend.edits.buf_eq
  rw [hbuf, strdup_append]
  rfl

theorem Follows.ended (hf : Follows w maxLen s e) :
    Ended w maxLen callback s e where
  edits := hf.drawn.toEdits
  lines_eq := by
    rw [hf.lines_eq, Editor.history, hf.kept]
    rfl
  maxLen_eq := hf.maxLen_eq
  shown := .inl hf.drawn.shown

-- Two replies that go on from states that `R` relates, or end in states that `R'` relates.
def Replies {σ τ : Type} (R R' : σ → τ → Prop) (r : Option (Reply σ)) : Reply τ → Prop
  | .more t => ∃ s, r = some (.more s) ∧ R s t
  | .done t count => ∃ s, r = some (.done s count) ∧ R' s t

-- The reply of linenoise to a key, with the editor's.
abbrev KeyReply (w : Window) (maxLen : Nat) (callback : CStr → List CStr) :=
  Replies (Follows w maxLen) (Ended w maxLen callback)

theorem Follows.onLine (hf : Follows w maxLen s e)
    {f : LinenoiseState → Option LinenoiseState} {g : Zipper UInt8 → Zipper UInt8}
    (hdoes : Does w s.line (g e.text) (f s.line)) :
    KeyReply w maxLen callback (s.onLine f) (.more (e.onText g)) := by
  obtain ⟨l, hl, hd, hindex⟩ := hdoes
  refine ⟨{ s with line := l }, ?_, hd, hf.lines_eq, hf.maxLen_eq, hindex.trans hf.index_eq, hf.clean, hf.kept⟩
  rw [LineEdit.onLine, hl]
  rfl

-- ENTER takes the row of the text off the history, if it is the newest.
theorem Follows.pop (hf : Follows w maxLen s e) (count : Int) :
    KeyReply w maxLen callback
      ((historyPop s.history).map fun history => .done { s with history } count)
      (.done { e with popped := true } count) := by
  have hne : s.history.lines ≠ [] := by
    rw [hf.lines_eq, Editor.rows]
    simp
  rw [historyPop, if_neg hne]
  refine ⟨_, rfl, ⟨hf.drawn.toEdits, ?_, hf.maxLen_eq, .inl hf.drawn.shown⟩⟩
  simp [Editor.history, hf.lines_eq, Editor.rows]

-- linenoise does for every key what the editor does.
theorem Follows.key (hf : Follows w maxLen s e) (k : EditKey) (hk : ∀ c, k = .insert c → w.plain c) :
    KeyReply w maxLen callback (s.key k) (e.key w.limit k) := by
  have hd := hf.drawn
  cases k with
  | enter =>
    have hlen : (s.line.len : Int) = e.len := by rw [hd.len_eq, Editor.len]
    rw [LineEdit.key, hlen]
    exact hf.pop e.len
  | interrupt => exact ⟨s, rfl, hf.ended⟩
  | backspace => exact hf.onLine (hd.backspace)
  | deleteOrEnd =>
    rw [LineEdit.key, Editor.key]
    by_cases hnil : e.text.toList = []
    · rw [if_neg (by simp [hd.len_eq, hnil]), if_pos hnil]
      exact hf.pop (-1)
    · rw [if_pos (by rw [hd.len_eq]; exact List.length_pos_of_ne_nil hnil), if_neg hnil]
      exact hf.onLine (hd.delete)
  | swap => exact hf.onLine (hd.swap)
  | left => exact hf.onLine (hd.moveLeft)
  | right => exact hf.onLine (hd.moveRight)
  | prev =>
    obtain ⟨l, h, hgo, hf'⟩ := hf.prev
    exact ⟨⟨l, h⟩, by rw [LineEdit.key, LineEdit.onHistory, hgo]; rfl, hf'⟩
  | next =>
    obtain ⟨l, h, hgo, hf'⟩ := hf.next
    exact ⟨⟨l, h⟩, by rw [LineEdit.key, LineEdit.onHistory, hgo]; rfl, hf'⟩
  | delete => exact hf.onLine (hd.delete)
  | home => exact hf.onLine (hd.moveHome)
  | stop => exact hf.onLine (hd.moveEnd)
  | killLine => exact hf.onLine (hd.killLine)
  | killEnd => exact hf.onLine (hd.killEnd)
  | clearScreen =>
    have he : Edits w (linenoiseClearScreen s.line) e.text :=
      hd.print fun hlegible => (hd.usable hlegible).clear
    obtain ⟨l, hl, hd', hindex⟩ := he.refresh
    refine ⟨{ s with line := l }, ?_, hd', hf.lines_eq, hf.maxLen_eq, hindex.trans hf.index_eq, hf.clean, hf.kept⟩
    rw [LineEdit.key, LineEdit.onLine, hl]
    rfl
  | deletePrevWord => exact hf.onLine (hd.deletePrevWord)
  | insert c =>
    have hinsert := hd.insert (hk c rfl)
    rw [Editor.key]
    by_cases hroom : e.len < w.limit
    · have hroom' : e.text.toList.length < w.limit := hroom
      rw [if_pos hroom]
      rw [if_pos hroom'] at hinsert
      exact hf.onLine (f := fun l => linenoiseEditInsert l c) hinsert
    · have hroom' : ¬e.text.toList.length < w.limit := hroom
      rw [if_neg hroom]
      rw [if_neg hroom'] at hinsert
      exact hf.onLine (f := fun l => linenoiseEditInsert l c) (g := id) hinsert
  | nothing => exact ⟨s, rfl, hf⟩

end Keys

end Adventure

import Adventure.Linenoise.History
import Adventure.Linenoise.Pipe

namespace Adventure

-- A line that a file keeps as it is.
structure Savable (line : CStr) : Prop where
  no_nul : 0 ∉ line
  no_newline : 10 ∉ line
  no_return : 13 ∉ line
  short : line.length < 4095

variable {h : LineHistory} {line : CStr} {lines : List CStr} {rest : List UInt8}

theorem readLine_line (hclean : 10 ∉ line) {n : Nat} (hshort : line.length < n) (rest : List UInt8) :
    readLine n (line ++ 10 :: rest) = (line ++ [10], rest) := by
  induction line generalizing n with
  | nil =>
    obtain ⟨n, rfl⟩ : ∃ m, n = m + 1 := ⟨n - 1, by rw [List.length_nil] at hshort; omega⟩
    rfl
  | cons c line ih =>
    obtain ⟨n, rfl⟩ : ∃ m, n = m + 1 := ⟨n - 1, by rw [List.length_cons] at hshort; omega⟩
    rw [List.mem_cons, not_or] at hclean
    rw [List.cons_append, readLine, if_neg fun h => hclean.1 h.symm, ih hclean.2 (Nat.lt_of_succ_lt_succ hshort)]
    rfl

theorem fgets_savable (hs : Savable line) (rest : List UInt8) :
    fgets LINENOISE_MAX_LINE (line ++ 10 :: rest) = some (line ++ [10], rest) := by
  have hne : line ++ 10 :: rest ≠ [] := by simp
  have hclean : 0 ∉ line ++ [10] := by simp [hs.no_nul]
  have hread : readLine (LINENOISE_MAX_LINE - 1) (line ++ 10 :: rest) = (line ++ [10], rest) :=
    readLine_line hs.no_newline hs.short rest
  rw [fgets, if_neg hne, hread]
  simp only [takeWhile_of_clean hclean]

theorem cutReturn_savable (hs : Savable line) : cutReturn (line ++ [10]) = line := by
  have hnone : 13 ∉ line ++ [10] := by simp [hs.no_return]
  rw [cutReturn, if_neg hnone, List.takeWhile_append_of_pos]
  · simp
  · intro c hc
    simp only [ne_eq, decide_eq_true_eq]
    rintro rfl
    exact hs.no_newline hc

-- The lines of a file are added one by one.
def addLines (lines : List CStr) (h : LineHistory) : LineHistory :=
  lines.foldl (fun h line => (linenoiseHistoryAdd h line).2) h

theorem addLines_recent {kept : Nat} {log : List CStr} (hr : Recent kept log h.lines) (hpos : 0 < kept)
    (hle : kept ≤ h.maxLen) (lines : List CStr) :
    Recent kept (log ++ lines) (addLines lines h).lines ∧ (addLines lines h).maxLen = h.maxLen := by
  induction lines generalizing h log with
  | nil => exact ⟨(List.append_nil log).symm ▸ hr, rfl⟩
  | cons line lines ih =>
    have hmax := linenoiseHistoryAdd_maxLen h line
    have hnext := ih (historyAdd_recent hr hpos hle line) (hmax ▸ hle)
    rw [List.append_assoc] at hnext
    exact ⟨hnext.1, hnext.2.trans hmax⟩

theorem historyLoadFrom_lines (hs : ∀ line ∈ lines, Savable line) {steps : Nat} (hsteps : lines.length < steps)
    (h : LineHistory) :
    historyLoadFrom steps h (lines.flatMap fun line => line ++ [10]) = some (addLines lines h) := by
  induction lines generalizing h steps with
  | nil =>
    obtain ⟨steps, rfl⟩ : ∃ n, steps = n + 1 := ⟨steps - 1, by omega⟩
    rfl
  | cons line lines ih =>
    obtain ⟨steps, rfl⟩ : ∃ n, steps = n + 1 := ⟨steps - 1, by omega⟩
    have hline := hs line List.mem_cons_self
    rw [List.flatMap_cons, List.append_assoc, List.singleton_append, historyLoadFrom, fgets_savable hline]
    simp only [cutReturn_savable hline]
    exact ih (fun line hmem => hs line (List.mem_cons_of_mem _ hmem)) (by simpa using hsteps) _

theorem length_le_save (h : LineHistory) : h.lines.length ≤ (linenoiseHistorySave h).length := by
  unfold linenoiseHistorySave
  induction h.lines with
  | nil => exact Nat.le_refl _
  | cons line lines ih =>
    rw [List.flatMap_cons, List.length_append, List.length_append, List.length_cons, List.length_singleton]
    omega

-- A history that was built up by calls comes back from its file, down to the length of a new one.
theorem history_saved (calls : List HistoryCall) (hs : ∀ line, .add line ∈ calls → Savable line) :
    let h := calls.foldl HistoryCall.run .empty
    ∃ h', linenoiseHistoryLoad .empty (some (linenoiseHistorySave h)) = some (0, h') ∧
      h'.lines = h.lines.rtake LINENOISE_DEFAULT_HISTORY_MAX_LEN := by
  intro h
  -- every call keeps to a length of one
  have hkeeps : ∀ call ∈ calls, call.Keeps 1 := by
    intro call _
    cases call with
    | add line => trivial
    | setMaxLen len => exact fun hlen => hlen
  have hstart : Recent 1 [] LineHistory.empty.lines := .nil 1
  have hsuffix := (historyRun_recent hstart Nat.one_pos (by decide) hkeeps).suffix
  have hsavable : ∀ line ∈ h.lines, Savable line := by
    intro line hmem
    have hadded := unrepeated_subset (hsuffix.subset hmem)
    rw [List.nil_append, List.mem_filterMap] at hadded
    obtain ⟨call, hcall, hline⟩ := hadded
    cases call with
    | add added =>
      obtain rfl := Option.some.inj hline
      exact hs _ hcall
    | setMaxLen len => cases hline
  refine ⟨addLines h.lines .empty, ?_, ?_⟩
  · rw [linenoiseHistoryLoad]
    have hload := historyLoadFrom_lines hsavable (Nat.lt_succ_of_le (length_le_save h)) .empty
    exact congrArg (Option.map fun h => ((0 : Int), h)) hload
  · have hempty : Recent LINENOISE_DEFAULT_HISTORY_MAX_LEN [] LineHistory.empty.lines := .nil _
    obtain ⟨hrecent, hmax⟩ := addLines_recent hempty (by decide) (Nat.le_refl _) h.lines
    have hfits := (addLines h.lines .empty).fits
    rw [List.nil_append] at hrecent
    rw [hrecent.eq_rtake (hfits.trans_eq hmax), unrepeated_of_suffix hsuffix]

-- Two lines of three, written and read.
theorem history_saved_two : ∃ h', linenoiseHistoryLoad .empty (some (linenoiseHistorySave
    ([.add [97], .add [97, 98], .setMaxLen 2, .add [99]].foldl HistoryCall.run .empty))) = some (0, h') ∧
      h'.lines = [[97, 98], [99]] :=
  history_saved [.add [97], .add [97, 98], .setMaxLen 2, .add [99]] (by
    intro line hmem
    simp only [List.mem_cons, HistoryCall.add.injEq, List.not_mem_nil, or_false, reduceCtorEq, false_or] at hmem
    rcases hmem with rfl | rfl | rfl
    all_goals exact ⟨by decide, by decide, by decide, by decide⟩)

end Adventure

import Adventure.Library.Recent
import Adventure.Linenoise.Editor

namespace Adventure

variable {h : LineHistory} {kept : Nat} {log : List CStr}

theorem historyRoom_eq (h : LineHistory) : historyRoom h = h.lines.drop (h.lines.length + 1 - h.maxLen) := by
  have hfits := h.fits
  unfold historyRoom
  split
  · next hfull => rw [hfull, Nat.add_sub_cancel_left, List.drop_one]
  · rw [show h.lines.length + 1 - h.maxLen = 0 by omega, List.drop_zero]

-- A new line goes behind the others, and the oldest one may be too much then.
theorem linenoiseHistoryAdd_lines (h : LineHistory) (line : CStr) :
    (linenoiseHistoryAdd h line).2.lines =
      let lines := if h.lines.getLast? = some line then h.lines else h.lines ++ [line]
      lines.drop (lines.length - h.maxLen) := by
  have hfits := h.fits
  have hpos := h.maxLen_pos
  unfold linenoiseHistoryAdd
  by_cases hsame : h.lines.getLast? = some line
  · simp only [if_pos hsame, Nat.sub_eq_zero_of_le hfits, List.drop_zero]
  · simp only [if_neg hsame, historyRoom_eq, List.length_append, List.length_singleton]
    rw [List.drop_append_of_le_length (by omega)]

theorem linenoiseHistoryAdd_maxLen (h : LineHistory) (line : CStr) :
    (linenoiseHistoryAdd h line).2.maxLen = h.maxLen := by
  unfold linenoiseHistoryAdd
  split
  · rfl
  · rfl

theorem historyAdd_recent (hr : Recent kept log h.lines) (hpos : 0 < kept) (hle : kept ≤ h.maxLen)
    (line : CStr) : Recent kept (log ++ [line]) (linenoiseHistoryAdd h line).2.lines := by
  rw [linenoiseHistoryAdd_lines]
  exact (hr.add hpos line).drop (by omega)

theorem historySetMaxLen_recent (hr : Recent kept log h.lines) {len : Int} (hle : 0 < len → kept ≤ len) :
    Recent kept log (linenoiseHistorySetMaxLen h len).2.lines := by
  unfold linenoiseHistorySetMaxLen
  split
  · exact hr
  · exact hr.drop (by omega)

theorem Editor.below_subset {maxLen : Nat} {lines : List CStr} {line : CStr}
    (hmem : line ∈ Editor.below maxLen lines) : line ∈ lines := by
  unfold Editor.below at hmem
  split at hmem
  · exact List.dropLast_subset _ hmem
  · exact List.mem_of_mem_drop hmem

-- The history after a line that was not added to it.
def lookBack (h : LineHistory) : LineHistory :=
  { h with
    lines := Editor.below h.maxLen h.lines
    fits := by
      have hfits := h.fits
      unfold Editor.below
      split
      · rw [List.length_dropLast]
        omega
      · rw [List.length_drop]
        omega }

-- The oldest line is lost when the history is full.
theorem lookBack_recent (hr : Recent kept log h.lines) (hempty : [] ∉ log) (hpos : 0 < kept)
    (hlt : kept < h.maxLen) : Recent kept log (lookBack h).lines := by
  have hlast : h.lines.getLast? ≠ some [] := by
    rw [hr.getLast?_eq hpos]
    exact fun hlast => hempty (List.mem_of_getLast? hlast)
  have hfits := h.fits
  change Recent kept log (Editor.below h.maxLen h.lines)
  rw [Editor.below, if_neg hlast]
  exact hr.drop (by omega)

-- The calls that change the history.
inductive HistoryCall
  | add (line : CStr)
  | setMaxLen (len : Int)

def HistoryCall.run (h : LineHistory) : HistoryCall → LineHistory
  | .add line => (linenoiseHistoryAdd h line).2
  | .setMaxLen len => (linenoiseHistorySetMaxLen h len).2

def HistoryCall.line? : HistoryCall → Option CStr
  | .add line => some line
  | .setMaxLen _ => none

-- A length that is kept to by every call.
def HistoryCall.Keeps (kept : Nat) : HistoryCall → Prop
  | .add _ => True
  | .setMaxLen len => 0 < len → kept ≤ len

theorem historyRun_recent {calls : List HistoryCall} (hr : Recent kept log h.lines) (hpos : 0 < kept)
    (hle : kept ≤ h.maxLen) (hcalls : ∀ call ∈ calls, call.Keeps kept) :
    Recent kept (log ++ calls.filterMap HistoryCall.line?) (calls.foldl HistoryCall.run h).lines := by
  induction calls generalizing h log with
  | nil => simpa using hr
  | cons call calls ih =>
    have hrest : ∀ call ∈ calls, call.Keeps kept := fun c hc => hcalls c (List.mem_cons_of_mem _ hc)
    cases call with
    | add line =>
      have hnext := ih (historyAdd_recent hr hpos hle line) (linenoiseHistoryAdd_maxLen h line ▸ hle) hrest
      rw [List.append_assoc] at hnext
      exact hnext
    | setMaxLen len =>
      have hlen : 0 < len → kept ≤ len := hcalls (.setMaxLen len) List.mem_cons_self
      refine ih (historySetMaxLen_recent hr hlen) ?_ hrest
      change kept ≤ (linenoiseHistorySetMaxLen h len).2.maxLen
      unfold linenoiseHistorySetMaxLen
      split
      · exact hle
      · dsimp only
        omega

-- The length that a call sets.
def HistoryCall.length? : HistoryCall → Option Nat
  | .add _ => none
  | .setMaxLen len => if 0 < len then some len.toNat else none

theorem historyRun_maxLen (calls : List HistoryCall) (h : LineHistory) :
    (calls.foldl HistoryCall.run h).maxLen =
      (calls.filterMap HistoryCall.length?).getLast?.getD h.maxLen := by
  induction calls generalizing h with
  | nil => rfl
  | cons call calls ih =>
    rw [List.foldl_cons, ih]
    cases call with
    | add line => exact congrArg _ (linenoiseHistoryAdd_maxLen h line)
    | setMaxLen len =>
      by_cases hlen : 0 < len
      · have hset : (HistoryCall.run h (.setMaxLen len)).maxLen = len.toNat := by
          change (linenoiseHistorySetMaxLen h len).2.maxLen = len.toNat
          rw [linenoiseHistorySetMaxLen, dif_neg (by omega)]
        have hlength : HistoryCall.length? (.setMaxLen len) = some len.toNat := if_pos hlen
        rw [hset, List.filterMap_cons_some hlength, List.getLast?_cons]
        rfl
      · have hset : (HistoryCall.run h (.setMaxLen len)).maxLen = h.maxLen := by
          change (linenoiseHistorySetMaxLen h len).2.maxLen = h.maxLen
          rw [linenoiseHistorySetMaxLen, dif_pos (by omega)]
        have hlength : HistoryCall.length? (.setMaxLen len) = none := if_neg hlen
        rw [hset, List.filterMap_cons_none hlength]

-- The history holds the latest lines without repeats: at least as many as every length it was given, and not
-- more than the last length that is one, or the default.
theorem history_latest (calls : List HistoryCall) (kept : Nat) (hpos : 0 < kept)
    (hle : kept ≤ LINENOISE_DEFAULT_HISTORY_MAX_LEN) (hcalls : ∀ call ∈ calls, call.Keeps kept) :
    let h := calls.foldl HistoryCall.run .empty
    let lines := unrepeated (calls.filterMap HistoryCall.line?)
    h.lines <:+ lines ∧ lines.rtake kept <:+ h.lines ∧ h.lines.length ≤
      (calls.filterMap HistoryCall.length?).getLast?.getD LINENOISE_DEFAULT_HISTORY_MAX_LEN := by
  have hr : Recent kept [] LineHistory.empty.lines := .nil kept
  have hrun := historyRun_recent hr hpos hle hcalls
  have hfits := (calls.foldl HistoryCall.run .empty).fits
  rw [historyRun_maxLen] at hfits
  exact ⟨hrun.suffix, hrun.latest, hfits⟩

-- Three lines, of which one comes twice, in a history of two.
theorem history_latest_two : (List.foldl HistoryCall.run LineHistory.empty
    [.add [97], .add [97], .setMaxLen 2, .add [98], .setMaxLen 0, .add [99]]).lines = [[98], [99]] := by
  obtain ⟨hsuffix, hlatest, hfits⟩ := history_latest
    [.add [97], .add [97], .setMaxLen 2, .add [98], .setMaxLen 0, .add [99]] 2 (by decide) (by decide)
    (by simp [HistoryCall.Keeps])
  exact (hlatest.eq_of_length_le hfits).symm

end Adventure

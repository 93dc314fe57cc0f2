import Adventure.Linenoise.Pipe
import Adventure.Linenoise.Typed
import Adventure.Repl.Console
import Adventure.Struct.Trie.Keys

namespace Adventure

variable {env : ReplEnv} {term : Terminal} {prompt : CStr} {frame : LineEnv} {frames : List LineEnv}
  {h : LineHistory} {input : List UInt8} {s : ReplState} {lines : List CStr} {line : CStr}

-- The lines of a session that are commands.
def taken (lines : List CStr) : List CStr :=
  (lines.takeWhile fun line => ¬replWantsExit line).filter (· ≠ [])

-- The history after a session, with what reading a line does to it.
def sessionHistory (look : LineHistory → LineHistory) : List CStr → LineHistory → LineHistory
  | [], h => look h
  | line :: lines, h =>
      if line = [] then sessionHistory look lines (look h)
      else if replWantsExit line then look h
      else sessionHistory look lines (linenoiseHistoryAdd (look h) line).2

-- The session with its lines, and the history that it leaves.
def sessionOf (env : ReplEnv) (look : LineHistory → LineHistory) (lines : List CStr) (h : LineHistory)
    (s : ReplState) : Option (ReplState × LineHistory × List ReplOut) :=
  (repl env lines s).map fun r => (r.1, sessionHistory look lines h, r.2)

section Read

-- The trie of the commands.
theorem exists_cmds : ∃ cmds, trieAddAll replAdds trieCreate = some cmds := by
  obtain ⟨cmds, hadd, -⟩ := addAll_create replAdds
  exact ⟨cmds, hadd⟩

variable {cmds : Trie} (hcmds : trieAddAll replAdds trieCreate = some cmds) {look : LineHistory → LineHistory}
  {rest : List UInt8}

include hcmds

theorem replLoop_end
    (hread : linenoise { frame with callback := completion cmds } term prompt h input =
      some (none, look h, rest)) (s : ReplState) :
    replLoop env term prompt (frame :: frames) h input s = sessionOf env look [] h s := by
  rw [replLoop, hcmds]
  simp only [Option.bind_eq_bind, Option.bind_some, hread]
  rfl

-- A line that was read is the first one of the session.
theorem replLoop_line
    (hread : linenoise { frame with callback := completion cmds } term prompt h input =
      some (some line, look h, rest))
    (hrest : ∀ h', h' = look h ∨ h' = (linenoiseHistoryAdd (look h) line).2 → ∀ s,
      replLoop env term prompt frames h' rest s = sessionOf env look lines h' s) (s : ReplState) :
    replLoop env term prompt (frame :: frames) h input s = sessionOf env look (line :: lines) h s := by
  rw [replLoop, hcmds]
  simp only [Option.bind_eq_bind, Option.bind_some, hread]
  unfold sessionOf repl sessionHistory
  by_cases hnil : line = []
  · simp only [if_pos hnil]
    exact hrest _ (.inl rfl) s
  simp only [if_neg hnil]
  by_cases hexit : replWantsExit line
  · simp only [if_pos hexit]
    rfl
  simp only [if_neg hexit]
  cases replRouteCmd env line s with
  | none => rfl
  | some r =>
    obtain ⟨code, s, out⟩ := r
    simp only [Option.bind_eq_bind, Option.bind_some, hrest _ (.inr rfl) s, sessionOf]
    cases repl env lines s <;> rfl

end Read

section History

theorem replWantsExit_nil : ¬replWantsExit [] := by decide

theorem taken_exit (hexit : replWantsExit line) (lines : List CStr) : taken (line :: lines) = [] := by
  simp [taken, hexit]

theorem taken_nil_cons (lines : List CStr) : taken ([] :: lines) = taken lines := by
  simp [taken, replWantsExit_nil]

theorem taken_cons (hne : line ≠ []) (hexit : ¬replWantsExit line) (lines : List CStr) :
    taken (line :: lines) = line :: taken lines := by
  simp [taken, hexit, hne]

-- The history holds the last commands of the session, if reading keeps them.
theorem sessionHistory_recent {look : LineHistory → LineHistory} {kept maxLen : Nat}
    (hlook : ∀ {h log}, Recent kept log h.lines → [] ∉ log → h.maxLen = maxLen → Recent kept log (look h).lines)
    (hmax : ∀ h, (look h).maxLen = h.maxLen) (hpos : 0 < kept) (hle : kept ≤ maxLen) {log : List CStr}
    (hr : Recent kept log h.lines) (hempty : [] ∉ log) (hlen : h.maxLen = maxLen) (lines : List CStr) :
    Recent kept (log ++ taken lines) (sessionHistory look lines h).lines := by
  induction lines generalizing h log with
  | nil => simpa [taken, sessionHistory] using hlook hr hempty hlen
  | cons line lines ih =>
    have hr' := hlook hr hempty hlen
    have hlen' : (look h).maxLen = maxLen := (hmax h).trans hlen
    unfold sessionHistory
    by_cases hnil : line = []
    · subst hnil
      rw [if_pos rfl, taken_nil_cons]
      exact ih hr' hempty hlen'
    rw [if_neg hnil]
    by_cases hexit : replWantsExit line
    · rw [if_pos hexit, taken_exit hexit, List.append_nil]
      exact hr'
    · rw [if_neg hexit, taken_cons hnil hexit, List.append_cons]
      refine ih (historyAdd_recent hr' hpos (hlen'.symm ▸ hle) line) ?_
        ((linenoiseHistoryAdd_maxLen _ line).trans hlen')
      rw [List.mem_append, List.mem_singleton, not_or]
      exact ⟨hempty, fun h => hnil h.symm⟩

theorem sessionHistory_maxLen {look : LineHistory → LineHistory} (hmax : ∀ h, (look h).maxLen = h.maxLen)
    (lines : List CStr) (h : LineHistory) : (sessionHistory look lines h).maxLen = h.maxLen := by
  induction lines generalizing h with
  | nil => exact hmax h
  | cons line lines ih =>
    unfold sessionHistory
    split
    · exact (ih _).trans (hmax h)
    · split
      · exact hmax h
      · exact (ih _).trans ((linenoiseHistoryAdd_maxLen _ line).trans (hmax h))

end History

section Pipe

theorem replLoop_file (hterm : term ≠ .tty) (hframes : input.length < frames.length) (s : ReplState) :
    replLoop env term prompt frames h input s = sessionOf env id (fileLines term input) h s := by
  obtain ⟨cmds, hcmds⟩ := exists_cmds
  induction frames generalizing h input s with
  | nil => cases hframes
  | cons frame frames ih =>
    by_cases hnil : input = []
    · subst hnil
      have hread : linenoise { frame with callback := completion cmds } term prompt h [] =
          some (none, id h, []) := by
        cases term with
        | unsupported => rfl
        | pipe => rfl
        | tty => cases hterm rfl
      rw [replLoop_end hcmds hread, fileLines, wrapLines_nil, List.map_nil]
    · obtain ⟨line, rest, hread, hless, hlines⟩ :=
        linenoise_file { frame with callback := completion cmds } hterm prompt h hnil
      rw [List.length_cons] at hframes
      have hrest : ∀ h' s, replLoop env term prompt frames h' rest s =
          sessionOf env id (fileLines term rest) h' s := fun h' s => ih (by omega) s
      have hread' : linenoise { frame with callback := completion cmds } term prompt h input =
          some (some line, id h, rest) := hread
      rw [replLoop_line hcmds hread' fun h' _ s => hrest h' s]
      obtain hline | ⟨hline, hsame⟩ := hlines
      · rw [hline]
      · rw [hline, hsame]
        rfl

-- A file, or a terminal that linenoise does not know, is read line by line. The session is the one with these
-- lines, and the history keeps the last 100 commands.
theorem replLoop_reads (env : ReplEnv) (term : Terminal) (prompt : CStr) (frames : List LineEnv) (input : List UInt8)
    (s : ReplState) (hterm : term ≠ .tty) (hframes : input.length < frames.length) :
    ∃ h : LineHistory, h.lines = (unrepeated (taken (fileLines term input))).rtake 100 ∧
      replLoop env term prompt frames .empty input s =
        (repl env (fileLines term input) s).map fun r => (r.1, h, r.2) := by
  have hrecent : Recent 100 ([] ++ taken (fileLines term input))
      (sessionHistory id (fileLines term input) .empty).lines :=
    sessionHistory_recent (fun hr _ _ => hr) (fun _ => rfl) (by decide) (Nat.le_refl 100) (.nil 100)
      List.not_mem_nil rfl _
  refine ⟨sessionHistory id (fileLines term input) .empty, hrecent.eq_rtake ?_, replLoop_file hterm hframes s⟩
  have hfits := (sessionHistory id (fileLines term input) .empty).fits
  have hmax := sessionHistory_maxLen (fun _ => rfl : ∀ h : LineHistory, (id h).maxLen = h.maxLen)
    (fileLines term input) .empty
  exact hfits.trans_eq hmax

-- Two lines and a command that the end of the file cuts off.
theorem replLoop_reads_two : ∃ h : LineHistory, h.lines = [cstr ['s', 't', 'a', 't', 's']] ∧
    replLoop bareEnv .pipe [] (List.replicate 20 (plainTerm 80 [])) .empty
        (cstr ['\n', 's', 't', 'a', 't', 's', '\n', 'q', '\n', 'x']) ⟨.null, fun _ => none⟩ =
      some (⟨.null, fun _ => none⟩, h, [.text "Connected. Ready."]) := by
  obtain ⟨h, hlines, hloop⟩ := replLoop_reads bareEnv .pipe [] (List.replicate 20 (plainTerm 80 []))
    (cstr ['\n', 's', 't', 'a', 't', 's', '\n', 'q', '\n', 'x']) ⟨.null, fun _ => none⟩ (by decide) (by decide)
  have hfile : fileLines .pipe (cstr ['\n', 's', 't', 'a', 't', 's', '\n', 'q', '\n', 'x']) =
      [cstr ['s', 't', 'a', 't', 's'], cstr ['q'], cstr ['x']] := by
    have hsplit : (cstr ['\n', 's', 't', 'a', 't', 's', '\n', 'q', '\n', 'x']).splitOn 10 =
        [[], cstr ['s', 't', 'a', 't', 's'], cstr ['q'], cstr ['x']] := rfl
    rw [fileLines, wrapLines, hsplit]
    simp [cstr, wrap, trimLine]
  rw [hfile] at hlines hloop
  exact ⟨h, hlines, hloop⟩

end Pipe

section Typed

-- The commands that completion gives for a text.
def replKeys (text : CStr) : List CStr :=
  ((trieAddAll replAdds trieCreate).bind fun cmds => completion cmds text).getD []

theorem completion_replKeys {cmds : Trie} (hcmds : trieAddAll replAdds trieCreate = some cmds) (text : CStr) :
    completion cmds text = some (replKeys text) ∧ (replKeys text).Nodup ∧
      ∀ key, key ∈ replKeys text ↔ key ∈ replCmds.map Prod.fst ∧ (key <+: text ∨ text <+: key) := by
  obtain ⟨cmds', hcmds', keys, hkeys, hnodup, hmem⟩ := getKeys_adds (by decide : replAdds ≠ []) (by decide)
    (by decide) text []
  obtain rfl : cmds = cmds' := Option.some.inj (hcmds.symm.trans hcmds')
  have hcompletion : completion cmds text = some keys := by
    rw [completion, hkeys, List.nil_append, List.mapM_map]
    exact List.mapM_pure.trans (congrArg some (List.map_id keys))
  have hreplKeys : replKeys text = keys := by
    rw [replKeys, hcmds, Option.bind_some, hcompletion]
    rfl
  rw [hreplKeys]
  refine ⟨hcompletion, hnodup, fun key => (hmem key).trans ?_⟩
  rw [replAdds, List.map_map]
  rfl

theorem replKeys_clean {text key : CStr} (hkey : key ∈ replKeys text) : key.length < 4095 ∧ 0 ∉ key := by
  obtain ⟨cmds, hcmds⟩ := exists_cmds
  obtain ⟨-, -, hmem⟩ := completion_replKeys hcmds text
  have hall : ∀ key ∈ replCmds.map Prod.fst, key.length < 4095 ∧ 0 ∉ key := by decide
  exact hall key ((hmem key).mp hkey).1

theorem lookBack_clean (hclean : ∀ line ∈ h.lines, 0 ∉ line) : ∀ line ∈ (lookBack h).lines, 0 ∉ line :=
  fun line hmem => hclean line (Editor.below_subset hmem)

theorem historyAdd_clean (hclean : ∀ line ∈ h.lines, 0 ∉ line) (hline : 0 ∉ line) :
    ∀ line' ∈ (linenoiseHistoryAdd h line).2.lines, 0 ∉ line' := by
  intro line' hmem
  rw [linenoiseHistoryAdd_lines] at hmem
  have hmem' := List.mem_of_mem_drop hmem
  split at hmem'
  · exact hclean line' hmem'
  · obtain hmem' | hmem' := List.mem_append.mp hmem'
    · exact hclean line' hmem'
    · rwa [List.mem_singleton.mp hmem']

-- A text that can be typed, with the tabs behind it.
structure Typable (entry : CStr × Nat) : Prop where
  print : ∀ c ∈ entry.1, Printable c
  short : entry.1.length ≤ 4095

theorem Typable.clean {entry : CStr × Nat} (ht : Typable entry) : 0 ∉ entry.1 :=
  fun hmem => (ht.print 0 hmem).ne (by decide : (0 : UInt8) < 32) rfl

-- A call to linenoise during which these bytes are typed first.
structure Gets (prompt : CStr) (keys : List UInt8) (frame : LineEnv) : Prop where
  buf : frame.buf.length = LINENOISE_MAX_LINE
  wide : prompt.length < frame.cols
  typed : keys <+: frame.typed

def sessionLines (entries : List (CStr × Nat)) : List CStr := entries.map fun x => picked replKeys x.1 x.2

theorem replLoop_keys {entries : List (CStr × Nat)} {last : LineEnv} (hentries : ∀ x ∈ entries, Typable x)
    (hframes : List.Forall₂ (fun x => Gets prompt (lineKeys x.1 x.2)) entries frames) (hlast : Gets prompt [4] last)
    (hclean : ∀ line ∈ h.lines, 0 ∉ line) (more : List LineEnv) (input : List UInt8) (s : ReplState) :
    replLoop env .tty prompt (frames ++ last :: more) h input s =
      sessionOf env lookBack (sessionLines entries) h s := by
  obtain ⟨cmds, hcmds⟩ := exists_cmds
  have hcall := fun text => (completion_replKeys hcmds text).1
  have hshort : ∀ text, ∀ key ∈ replKeys text, key.length < 4095 := fun text key hkey => (replKeys_clean hkey).1
  have hkeys : ∀ text, ∀ key ∈ replKeys text, 0 ∉ key := fun text key hkey => (replKeys_clean hkey).2
  induction hframes generalizing h input s with
  | nil =>
    obtain ⟨late, htyped⟩ := hlast.typed
    have hread : linenoise { last with callback := completion cmds } .tty prompt h input =
        some (none, lookBack h, []) :=
      linenoise_eof { last with callback := completion cmds } hlast.buf hlast.wide hcall hshort hclean htyped.symm input
    exact replLoop_end hcmds hread s
  | @cons x frame entries frames hgets _ ih =>
    have hx := hentries x List.mem_cons_self
    obtain ⟨late, htyped⟩ := hgets.typed
    have hread : linenoise { frame with callback := completion cmds } .tty prompt h input =
        some (some (picked replKeys x.1 x.2), lookBack h, []) :=
      linenoise_typed { frame with callback := completion cmds } hgets.buf hgets.wide hcall hshort hclean hkeys
        hx.print hx.short x.2 htyped.symm input
    have hline := picked_clean hkeys hx.clean x.2
    refine replLoop_line hcmds hread (fun h' hh' s => ?_) s
    refine ih (fun y hy => hentries y (List.mem_cons_of_mem x hy)) ?_ [] s
    rcases hh' with rfl | rfl
    · exact lookBack_clean hclean
    · exact historyAdd_clean (lookBack_clean hclean) hline

end Typed

end Adventure

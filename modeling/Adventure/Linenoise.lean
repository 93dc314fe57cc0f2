import Adventure.Library.Screen
import Adventure.Store
import Adventure.Struct.Trie
import Mathlib.Data.List.DropRight

namespace Adventure

def LINENOISE_DEFAULT_HISTORY_MAX_LEN : Nat := 100
def LINENOISE_MAX_LINE : Nat := 4096

-- The text of a buffer. There is no result without a NUL in it.
def strdup (buf : List UInt8) : Option CStr :=
  if 0 ∈ buf then some (buf.takeWhile (· ≠ 0)) else none

-- history, history_len and history_max_len, which is never 0. The array has room for history_max_len
-- lines.
@[ext] structure LineHistory where
  lines : List CStr
  maxLen : Nat
  maxLen_pos : 0 < maxLen
  fits : lines.length ≤ maxLen

def LineHistory.empty : LineHistory := ⟨[], LINENOISE_DEFAULT_HISTORY_MAX_LEN, by decide, by decide⟩

-- The oldest line makes room.
def historyRoom (h : LineHistory) : List CStr :=
  if h.lines.length = h.maxLen then h.lines.tail else h.lines

theorem historyRoom_lt (h : LineHistory) : (historyRoom h).length < h.maxLen := by
  have hfits := h.fits
  have hpos := h.maxLen_pos
  unfold historyRoom
  split
  · rw [List.length_tail]
    omega
  · omega

def linenoiseHistoryAdd (h : LineHistory) (line : CStr) : Int × LineHistory :=
  if h.lines.getLast? = some line then (0, h)
  else (1, { h with
    lines := historyRoom h ++ [line]
    fits := by
      rw [List.length_append]
      exact historyRoom_lt h })

def linenoiseHistorySetMaxLen (h : LineHistory) (len : Int) : Int × LineHistory :=
  if hlen : len < 1 then (0, h)
  else
    let tocopy := min len.toNat h.lines.length
    (1, {
      lines := h.lines.drop (h.lines.length - tocopy)
      maxLen := len.toNat
      maxLen_pos := by omega
      fits := by
        rw [List.length_drop]
        omega })

-- history_len--, and the line that was the last is freed.
def historyPop (h : LineHistory) : Option LineHistory :=
  if h.lines = [] then none
  else some { h with
    lines := h.lines.dropLast
    fits := by
      rw [List.length_dropLast]
      exact Nat.le_trans (Nat.sub_le _ 1) h.fits }

-- history[i] = line
def historySet (h : LineHistory) (i : Int) (line : CStr) : Option LineHistory :=
  if 0 ≤ i ∧ i < h.lines.length then
    some { h with
      lines := h.lines.set i.toNat line
      fits := by
        rw [List.length_set]
        exact h.fits }
  else none

def historyGet (h : LineHistory) (i : Int) : Option CStr := if 0 ≤ i then h.lines[i.toNat]? else none

-- struct linenoiseState, in single line mode. `out` are the bytes that were written to the terminal.
structure LinenoiseState where
  buf : List UInt8
  buflen : Nat
  prompt : CStr
  pos : Nat
  len : Nat
  cols : Nat
  historyIndex : Int
  out : List UInt8

-- A write to the buffer. There is none beyond its end.
def poke (buf : List UInt8) (i : Nat) (c : UInt8) : Option (List UInt8) :=
  if i < buf.length then some (buf.set i c) else none

def memmove (buf : List UInt8) (dst src n : Nat) : Option (List UInt8) :=
  if src + n ≤ buf.length ∧ dst + n ≤ buf.length then
    some (buf.take dst ++ (buf.drop src).take n ++ buf.drop (dst + n))
  else none

-- snprintf(buf, size, "%s", text)
def snprintf (buf : List UInt8) (size : Nat) (text : CStr) : Option (List UInt8) :=
  let written := text.take (size - 1) ++ [0]
  if 0 < size ∧ written.length ≤ buf.length then some (written ++ buf.drop written.length) else none

-- strncpy fills up with NULs.
def strncpy (buf : List UInt8) (text : CStr) (n : Nat) : Option (List UInt8) :=
  if n ≤ buf.length then
    some (text.take n ++ List.replicate (n - text.length) 0 ++ buf.drop n)
  else none

-- The first loop of refreshSingleLine moves the text to the left until the cursor is in the row. With a
-- prompt as wide as the row it goes on beyond the text.
def scrollText (plen cols : Nat) : List UInt8 → Nat → Option (List UInt8 × Nat)
  | text, 0 => if plen < cols then some (text, 0) else none
  | text, pos + 1 => if plen + (pos + 1) ≥ cols then scrollText plen cols text.tail pos else some (text, pos + 1)

-- Cursor to left edge, the prompt and the current buffer content, erase to right, move cursor to original
-- position.
def refreshSingleLine (l : LinenoiseState) : Option LinenoiseState := do
  let plen := strlen l.prompt
  let (text, pos) ← scrollText plen l.cols (l.buf.take l.len) l.pos
  let text := text.take (l.cols - plen)
  let ab := [27, 91, 48, 71] ++ l.prompt ++ text ++ [27, 91, 48, 75] ++
    ([27, 91, 48, 71, 27, 91] ++ decimal (pos + plen) ++ [67])
  return { l with out := l.out ++ ab }

def linenoiseEditInsert (l : LinenoiseState) (c : UInt8) : Option LinenoiseState :=
  if l.len < l.buflen then
    if l.len = l.pos then do
      let buf ← poke l.buf l.pos c
      let buf ← poke buf (l.len + 1) 0
      let l := { l with buf, pos := l.pos + 1, len := l.len + 1 }
      if strlen l.prompt + l.len < l.cols then return { l with out := l.out ++ [c] }
      else refreshSingleLine l
    else do
      let buf ← memmove l.buf (l.pos + 1) l.pos (sub64 l.len l.pos)
      let buf ← poke buf l.pos c
      let buf ← poke buf (l.len + 1) 0
      refreshSingleLine { l with buf, pos := l.pos + 1, len := l.len + 1 }
  else some l

def linenoiseEditMoveLeft (l : LinenoiseState) : Option LinenoiseState :=
  if l.pos > 0 then refreshSingleLine { l with pos := l.pos - 1 } else some l

def linenoiseEditMoveRight (l : LinenoiseState) : Option LinenoiseState :=
  if l.pos ≠ l.len then refreshSingleLine { l with pos := l.pos + 1 } else some l

def linenoiseEditMoveHome (l : LinenoiseState) : Option LinenoiseState :=
  if l.pos ≠ 0 then refreshSingleLine { l with pos := 0 } else some l

def linenoiseEditMoveEnd (l : LinenoiseState) : Option LinenoiseState :=
  if l.pos ≠ l.len then refreshSingleLine { l with pos := l.len } else some l

-- LINENOISE_HISTORY_NEXT and LINENOISE_HISTORY_PREV
inductive HistoryDir
  | next
  | prev

-- The line becomes an entry of the history.
def showEntry (l : LinenoiseState) (entry : CStr) : Option LinenoiseState := do
  let buf ← strncpy l.buf entry l.buflen
  let buf ← poke buf (sub64 l.buflen 1) 0
  let len := strlen (← strdup buf)
  refreshSingleLine { l with buf, pos := len, len }

def linenoiseEditHistoryNext (l : LinenoiseState) (h : LineHistory) (dir : HistoryDir) :
    Option (LinenoiseState × LineHistory) :=
  if h.lines.length > 1 then do
    let line ← strdup l.buf
    let h ← historySet h (h.lines.length - 1 - l.historyIndex) line
    let index := l.historyIndex + match dir with
      | .prev => 1
      | .next => -1
    if index < 0 then return ({ l with historyIndex := 0 }, h)
    else if index ≥ h.lines.length then return ({ l with historyIndex := h.lines.length - 1 }, h)
    else
      let entry ← historyGet h (h.lines.length - 1 - index)
      let l ← showEntry { l with historyIndex := index } entry
      return (l, h)
  else some (l, h)

def linenoiseEditDelete (l : LinenoiseState) : Option LinenoiseState :=
  if l.len > 0 ∧ l.pos < l.len then do
    let buf ← memmove l.buf l.pos (l.pos + 1) (sub64 (sub64 l.len l.pos) 1)
    let buf ← poke buf (l.len - 1) 0
    refreshSingleLine { l with buf, len := l.len - 1 }
  else some l

def linenoiseEditBackspace (l : LinenoiseState) : Option LinenoiseState :=
  if l.pos > 0 ∧ l.len > 0 then do
    let buf ← memmove l.buf (l.pos - 1) l.pos (sub64 l.len l.pos)
    let buf ← poke buf (l.len - 1) 0
    refreshSingleLine { l with buf, pos := l.pos - 1, len := l.len - 1 }
  else some l

-- The loops of linenoiseEditDeletePrevWord.
def skipBack (p : UInt8 → Bool) (buf : List UInt8) : Nat → Option Nat
  | 0 => some 0
  | pos + 1 => do
      let c ← buf[pos]?
      if p c then skipBack p buf pos else return pos + 1

def linenoiseEditDeletePrevWord (l : LinenoiseState) : Option LinenoiseState := do
  let pos ← skipBack (· = 32) l.buf l.pos
  let pos ← skipBack (· ≠ 32) l.buf pos
  let diff := l.pos - pos
  let buf ← memmove l.buf pos l.pos (sub64 l.len l.pos + 1)
  refreshSingleLine { l with buf, pos, len := sub64 l.len diff }

-- The bell goes to stderr, which is the terminal as well.
def linenoiseBeep (l : LinenoiseState) : LinenoiseState := { l with out := l.out ++ [7] }

def linenoiseClearScreen (l : LinenoiseState) : LinenoiseState :=
  { l with out := l.out ++ [27, 91, 72, 27, 91, 50, 74] }

-- A character is negative from 128 on.
def charVal (c : UInt8) : Int := (c.toNat : Int).bmod (2 ^ 8)

-- The row with a completion in place of the text.
def showCompletion (l : LinenoiseState) (text : CStr) : Option LinenoiseState := do
  let shown ← refreshSingleLine { l with buf := text, pos := strlen text, len := strlen text }
  return { l with out := shown.out }

-- Show completion or original buffer
def showRow (cvec : List CStr) (i : Nat) (l : LinenoiseState) : Option LinenoiseState :=
  match cvec[i]? with
  | some text => showCompletion l text
  | none => refreshSingleLine l

-- The loop of completeLine. The result is the character that was read last, or -1.
def completeLineFrom (cvec : List CStr) :
    List UInt8 → Nat → LinenoiseState → Option (Int × LinenoiseState × List UInt8)
  | input, i, l => do
      let l ← showRow cvec i l
      match input with
      | [] => return (-1, l, [])
      | c :: input =>
          if c = 9 then
            let i := (i + 1) % (cvec.length + 1)
            completeLineFrom cvec input i (if i = cvec.length then linenoiseBeep l else l)
          else if c = 27 then do
            let l ← if i < cvec.length then refreshSingleLine l else some l
            return (charVal c, l, input)
          else
            match cvec[i]? with
            | none => return (charVal c, l, input)
            | some text => do
                let buf ← snprintf l.buf l.buflen text
                return (charVal c, { l with buf, pos := strlen text, len := strlen text }, input)

-- `complete` is the completion callback.
def completeLine (complete : CStr → Option (List CStr)) (l : LinenoiseState) (input : List UInt8) :
    Option (Int × LinenoiseState × List UInt8) := do
  let cvec ← complete (← strdup l.buf)
  if cvec = [] then return (0, linenoiseBeep l, input)
  else completeLineFrom cvec input 0 l

-- What the switch of linenoiseEdit does for a key.
inductive EditKey
  | enter
  | interrupt
  | backspace
  | deleteOrEnd
  | swap
  | left
  | right
  | prev
  | next
  | delete
  | home
  | stop
  | killLine
  | killEnd
  | clearScreen
  | deletePrevWord
  | insert (c : UInt8)
  | nothing
  deriving DecidableEq, Repr

-- At the end of the input the byte keeps what it happens to hold.
def readByte (junk : UInt8) : List UInt8 → UInt8 × List UInt8
  | [] => (junk, [])
  | c :: input => (c, input)

-- The bytes behind ESC. `junk` is what the array seq holds.
def escapeKey (junk : UInt8 × UInt8 × UInt8) (input : List UInt8) : EditKey × List UInt8 :=
  let (seq₀, input) := readByte junk.1 input
  let (seq₁, input) := readByte junk.2.1 input
  if seq₀ = 91 then
    if 48 ≤ seq₁ ∧ seq₁ ≤ 57 then
      let (seq₂, input) := readByte junk.2.2 input
      (if seq₂ = 126 ∧ seq₁ = 51 then .delete else .nothing, input)
    else
      match seq₁.toNat with
      | 65 => (.prev, input)
      | 66 => (.next, input)
      | 67 => (.right, input)
      | 68 => (.left, input)
      | 72 => (.home, input)
      | 70 => (.stop, input)
      | _ => (.nothing, input)
  else if seq₀ = 79 then
    match seq₁.toNat with
    | 72 => (.home, input)
    | 70 => (.stop, input)
    | _ => (.nothing, input)
  else (.nothing, input)

-- enum KEY_ACTION
def editKey (junk : UInt8 × UInt8 × UInt8) (c : UInt8) (input : List UInt8) : EditKey × List UInt8 :=
  match c.toNat with
  | 13 => (.enter, input)
  | 3 => (.interrupt, input)
  | 127 => (.backspace, input)
  | 8 => (.backspace, input)
  | 4 => (.deleteOrEnd, input)
  | 20 => (.swap, input)
  | 2 => (.left, input)
  | 6 => (.right, input)
  | 16 => (.prev, input)
  | 14 => (.next, input)
  | 27 => escapeKey junk input
  | 21 => (.killLine, input)
  | 11 => (.killEnd, input)
  | 1 => (.home, input)
  | 5 => (.stop, input)
  | 12 => (.clearScreen, input)
  | 23 => (.deletePrevWord, input)
  | _ => (.insert c, input)

-- What is edited: the line and the history.
structure LineEdit where
  line : LinenoiseState
  history : LineHistory

-- Editing goes on, or it ends with a count.
inductive Reply (σ : Type)
  | more (s : σ)
  | done (s : σ) (count : Int)

def linenoiseSwap (l : LinenoiseState) : Option LinenoiseState :=
  if l.pos > 0 ∧ l.pos < l.len then do
    let aux ← l.buf[l.pos - 1]?
    let c ← l.buf[l.pos]?
    let buf ← poke l.buf (l.pos - 1) c
    let buf ← poke buf l.pos aux
    refreshSingleLine { l with buf, pos := if l.pos ≠ l.len - 1 then l.pos + 1 else l.pos }
  else some l

def linenoiseKillLine (l : LinenoiseState) : Option LinenoiseState := do
  let buf ← poke l.buf 0 0
  refreshSingleLine { l with buf, pos := 0, len := 0 }

def linenoiseKillEnd (l : LinenoiseState) : Option LinenoiseState := do
  let buf ← poke l.buf l.pos 0
  refreshSingleLine { l with buf, len := l.pos }

namespace LineEdit

-- A key that changes the line only.
def onLine (s : LineEdit) (f : LinenoiseState → Option LinenoiseState) : Option (Reply LineEdit) :=
  (f s.line).map fun line => .more { s with line }

def onHistory (s : LineEdit) (dir : HistoryDir) : Option (Reply LineEdit) :=
  (linenoiseEditHistoryNext s.line s.history dir).map fun r => .more ⟨r.1, r.2⟩

def key (s : LineEdit) : EditKey → Option (Reply LineEdit)
  | .enter => (historyPop s.history).map fun history => .done { s with history } s.line.len
  | .interrupt => some (.done s (-1))
  | .backspace => s.onLine linenoiseEditBackspace
  | .deleteOrEnd =>
      if s.line.len > 0 then s.onLine linenoiseEditDelete
      else (historyPop s.history).map fun history => .done { s with history } (-1)
  | .swap => s.onLine linenoiseSwap
  | .left => s.onLine linenoiseEditMoveLeft
  | .right => s.onLine linenoiseEditMoveRight
  | .prev => s.onHistory .prev
  | .next => s.onHistory .next
  | .delete => s.onLine linenoiseEditDelete
  | .home => s.onLine linenoiseEditMoveHome
  | .stop => s.onLine linenoiseEditMoveEnd
  | .killLine => s.onLine linenoiseKillLine
  | .killEnd => s.onLine linenoiseKillEnd
  | .clearScreen => s.onLine fun l => refreshSingleLine (linenoiseClearScreen l)
  | .deletePrevWord => s.onLine linenoiseEditDeletePrevWord
  | .insert c => s.onLine fun l => linenoiseEditInsert l c
  | .nothing => some (.more s)

def complete (callback : CStr → Option (List CStr)) (s : LineEdit) (input : List UInt8) :
    Option (Int × LineEdit × List UInt8) :=
  (completeLine callback s.line input).map fun r => (r.1, { s with line := r.2.1 }, r.2.2)

end LineEdit

-- The switch of linenoiseEdit, with what comes after it.
def onKey (junk : UInt8 × UInt8 × UInt8) (rest : LineEdit → List UInt8 → Option (Int × LineEdit × List UInt8))
    (s : LineEdit) (c : UInt8) (input : List UInt8) : Option (Int × LineEdit × List UInt8) := do
  let (k, input) := editKey junk c input
  match ← s.key k with
  | .more s => rest s input
  | .done s count => return (count, s, input)

-- The loop of linenoiseEdit. Each round reads a byte.
def editLoop (callback : CStr → Option (List CStr)) (junk : UInt8 × UInt8 × UInt8) :
    Nat → LineEdit → List UInt8 → Option (Int × LineEdit × List UInt8)
  | 0, _, _ => none
  | _ + 1, s, [] => some (s.line.len, s, [])
  | steps + 1, s, c :: input =>
      if c = 9 then do
        let (c, s, input) ← s.complete callback input
        if c < 0 then return (s.line.len, s, input)
        else if c = 0 then editLoop callback junk steps s input
        else onKey junk (editLoop callback junk steps) s (UInt8.ofNat c.toNat) input
      else onKey junk (editLoop callback junk steps) s c input

-- What a call to linenoise finds: the completion callback, the terminal, what the arrays buf and seq
-- happen to hold, and what is typed on the terminal until the call returns.
structure LineEnv where
  callback : CStr → Option (List CStr)
  cols : Nat
  buf : List UInt8
  junk : UInt8 × UInt8 × UInt8
  typed : List UInt8

def linenoiseEdit (env : LineEnv) (prompt : CStr) (h : LineHistory) (input : List UInt8) :
    Option (Int × LineEdit × List UInt8) := do
  let buf ← poke env.buf 0 0
  let l : LinenoiseState :=
    ⟨buf, sub64 buf.length 1, prompt, 0, 0, env.cols, 0, prompt⟩
  editLoop env.callback env.junk (input.length + 1) ⟨l, (linenoiseHistoryAdd h []).2⟩ input

-- Up to `n` bytes of a file, to the end of a line.
def readLine : Nat → List UInt8 → List UInt8 × List UInt8
  | 0, input => ([], input)
  | _, [] => ([], [])
  | n + 1, c :: input =>
      if c = 10 then ([c], input)
      else
        let r := readLine n input
        (c :: r.1, r.2)

-- A result of none is NULL.
def fgets (n : Nat) (input : List UInt8) : Option (CStr × List UInt8) :=
  if input = [] then none
  else
    let r := readLine (n - 1) input
    some (r.1.takeWhile (· ≠ 0), r.2)

-- The bytes of the file.
def linenoiseHistorySave (h : LineHistory) : List UInt8 := h.lines.flatMap fun line => line ++ [10]

-- A line ends at the first return, or at the newline if there is none.
def cutReturn (buf : CStr) : CStr :=
  if 13 ∈ buf then buf.takeWhile (· ≠ 13) else buf.takeWhile (· ≠ 10)

-- The loop of linenoiseHistoryLoad.
def historyLoadFrom : Nat → LineHistory → List UInt8 → Option LineHistory
  | 0, _, _ => none
  | steps + 1, h, input =>
      match fgets LINENOISE_MAX_LINE input with
      | none => some h
      | some (buf, input) => historyLoadFrom steps (linenoiseHistoryAdd h (cutReturn buf)).2 input

-- The file may not exist.
def linenoiseHistoryLoad (h : LineHistory) (file : Option (List UInt8)) : Option (Int × LineHistory) :=
  match file with
  | none => some (-1, h)
  | some input => (historyLoadFrom (input.length + 1) h input).map fun h => (0, h)

inductive Terminal
  | unsupported
  | pipe
  | tty
  deriving DecidableEq, Repr

-- The line, which may be NULL, the history, and what is left of the input. On a terminal nothing is:
-- enableRawMode discards what was typed before the call, and disableRawMode what the editor has not read.
def linenoise (env : LineEnv) (term : Terminal) (prompt : CStr) (h : LineHistory) (input : List UInt8) :
    Option (Option CStr × LineHistory × List UInt8) :=
  match term with
  | .unsupported =>
      match fgets LINENOISE_MAX_LINE input with
      | none => some (none, h, input)
      | some (line, input) => some (some (line.rdropWhile fun c => c = 10 ∨ c = 13), h, input)
  | .pipe =>
      match fgets LINENOISE_MAX_LINE input with
      | none => some (none, h, input)
      | some (line, input) =>
          some (some (if line.getLast? = some 10 then line.dropLast else line), h, input)
  | .tty => do
      let (count, s, _) ← linenoiseEdit env prompt h env.typed
      if count = -1 then return (none, s.history, [])
      else return (some (← strdup s.line.buf), s.history, [])

end Adventure

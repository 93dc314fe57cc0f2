import Adventure.Library.Zipper
import Adventure.Linenoise
import Adventure.Store.Alloc

namespace Adventure

-- The editor that linenoise stands for: a text with a cursor, on a row of the history. `row` is what the
-- history has there, and `older` and `newer` are the rows around it, the nearest first. At the end the
-- newest row may be taken off. It has its own tables of the keys.
structure Editor where
  text : Zipper UInt8
  older : List CStr
  row : CStr
  newer : List CStr
  popped : Bool
  deriving DecidableEq, Repr

namespace Editor

def len (e : Editor) : Nat := e.text.toList.length

-- The text as a C string.
def line (e : Editor) : CStr := e.text.toList.takeWhile (· ≠ 0)

def rows (e : Editor) : List CStr := e.older.reverse ++ e.row :: e.newer

def history (e : Editor) : List CStr := if e.popped then e.rows.dropLast else e.rows

def onText (f : Zipper UInt8 → Zipper UInt8) (e : Editor) : Editor := { e with text := f e.text }

-- A row of the history gets the text when the editor leaves it, and also when there is no other row in the
-- direction. A row that fills the line loses its last byte.
def prev (limit : Nat) (e : Editor) : Editor :=
  match e.older with
  | [] => if e.newer = [] then e else { e with row := e.line }
  | line :: older =>
      ⟨.ofList (line.take (limit - 1)), older, line, e.line :: e.newer, e.popped⟩

def next (limit : Nat) (e : Editor) : Editor :=
  match e.newer with
  | [] => if e.older = [] then e else { e with row := e.line }
  | line :: newer =>
      ⟨.ofList (line.take (limit - 1)), e.line :: e.older, line, newer, e.popped⟩

def key (limit : Nat) (e : Editor) : EditKey → Reply Editor
  | .enter => .done { e with popped := true } e.len
  | .interrupt => .done e (-1)
  | .backspace => .more (e.onText .deleteLeft)
  | .deleteOrEnd =>
      if e.text.toList = [] then .done { e with popped := true } (-1)
      else .more (e.onText .deleteRight)
  | .swap => .more (e.onText .swap)
  | .left => .more (e.onText .moveLeft)
  | .right => .more (e.onText .moveRight)
  | .prev => .more (e.prev limit)
  | .next => .more (e.next limit)
  | .delete => .more (e.onText .deleteRight)
  | .home => .more (e.onText .moveHome)
  | .stop => .more (e.onText .moveEnd)
  | .killLine => .more (e.onText fun _ => .ofList [])
  | .killEnd => .more (e.onText .cutRight)
  | .clearScreen => .more e
  | .deletePrevWord => .more (e.onText fun z => (z.dropLeft (· = 32)).dropLeft (· ≠ 32))
  | .insert c => .more (if e.len < limit then e.onText (.insert c) else e)
  | .nothing => .more e

-- The control characters that are keys.
def controls : List (UInt8 × EditKey) := [
  (13, .enter), (3, .interrupt), (127, .backspace), (8, .backspace), (4, .deleteOrEnd), (20, .swap), (2, .left),
  (6, .right), (16, .prev), (14, .next), (21, .killLine), (11, .killEnd), (1, .home), (5, .stop),
  (12, .clearScreen), (23, .deletePrevWord)]

-- What a terminal sends behind ESC for the arrows, Home, End and Delete.
def escapes : List (List UInt8 × EditKey) := [
  ([91, 65], .prev), ([91, 66], .next), ([91, 67], .right), ([91, 68], .left), ([91, 72], .home), ([91, 70], .stop),
  ([79, 72], .home), ([79, 70], .stop), ([91, 51, 126], .delete)]

-- A sequence with a digit has one more byte.
def escapeLength : List UInt8 → Nat
  | 91 :: c :: _ => if 48 ≤ c ∧ c ≤ 57 then 3 else 2
  | _ => 2

-- What a byte and the input behind it are a key for. Other bytes are inserted, and other sequences are
-- skipped. A sequence that the input does not have whole goes on in what the array held.
def stroke (junk : UInt8 × UInt8 × UInt8) (c : UInt8) (input : List UInt8) : EditKey × List UInt8 :=
  if c = 27 then
    let seq := input ++ [junk.1, junk.2.1, junk.2.2].drop input.length
    let n := escapeLength seq
    ((escapes.lookup (seq.take n)).getD .nothing, input.drop n)
  else ((controls.lookup c).getD (.insert c), input)

-- Tabs go through the completions and the text itself, over and over. ESC takes the text, and any other
-- byte what is shown. It is a key then.
def cycle (cvec : List CStr) (z : Zipper UInt8) : List UInt8 → Nat → Zipper UInt8 × List UInt8
  | [], _ => (z, [])
  | c :: input, i =>
      if c = 9 then cycle cvec z input ((i + 1) % (cvec.length + 1))
      else if c = 27 then (z, c :: input)
      else ((cvec[i]?.map .ofList).getD z, c :: input)

-- The history below a new line. The oldest line makes room for it.
def below (maxLen : Nat) (lines : List CStr) : List CStr :=
  if lines.getLast? = some [] then lines.dropLast else lines.drop (lines.length + 1 - maxLen)

def start (maxLen : Nat) (lines : List CStr) : Editor :=
  ⟨.ofList [], (below maxLen lines).reverse, [], [], false⟩

-- Keys up to the one that ends the line, or the end of the input. Behind completions a NUL is dropped, and a
-- byte from 128 on ends the line, for it is a negative character.
def loop (callback : CStr → List CStr) (limit : Nat) (junk : UInt8 × UInt8 × UInt8) :
    Nat → Editor → List UInt8 → Option (Int × Editor × List UInt8)
  | 0, _, _ => none
  | _ + 1, e, [] => some (e.len, e, [])
  | steps + 1, e, c :: input =>
      if c = 9 then
        if callback e.line = [] then loop callback limit junk steps e input
        else
          let (text, input) := cycle (callback e.line) e.text input 0
          let e := { e with text }
          match input with
          | [] => some (e.len, e, [])
          | c :: input =>
              if c = 0 then loop callback limit junk steps e input
              else if 128 ≤ c then some (e.len, e, input)
              else loop callback limit junk steps e (c :: input)
      else
        let (k, input) := stroke junk c input
        match e.key limit k with
        | .more e => loop callback limit junk steps e input
        | .done e count => some (count, e, input)

def edit (callback : CStr → List CStr) (limit : Nat) (junk : UInt8 × UInt8 × UInt8) (e : Editor)
    (input : List UInt8) : Option (Int × Editor × List UInt8) :=
  loop callback limit junk (input.length + 1) e input

end Editor

section Buffer

variable {buf pre mid post : List UInt8}

theorem takeWhile_clean (text : List UInt8) (c : UInt8) : c ∉ text.takeWhile (· ≠ c) := by
  intro hm
  have h := List.mem_takeWhile_imp hm
  simp at h

theorem takeWhile_of_clean {text : List UInt8} {c : UInt8} (h : c ∉ text) : text.takeWhile (· ≠ c) = text := by
  rw [List.takeWhile_eq_self_iff]
  intro d hd
  simp only [ne_eq, decide_eq_true_eq]
  rintro rfl
  exact h hd

theorem strdup_append (text rest : List UInt8) :
    strdup (text ++ 0 :: rest) = some (text.takeWhile (· ≠ 0)) := by
  have hmem : (0 : UInt8) ∈ text ++ 0 :: rest := by simp
  rw [strdup, if_pos hmem, List.takeWhile_append]
  split
  · next h =>
    rw [(List.takeWhile_prefix _).eq_of_length h]
    simp
  · rfl

theorem poke_append (pre post : List UInt8) (x c : UInt8) {i : Nat} (hi : i = pre.length) :
    poke (pre ++ x :: post) i c = some (pre ++ c :: post) := by
  subst hi
  rw [poke, if_pos (by simp)]
  simp

-- The bytes `mid` go to where the bytes `old` are.
theorem memmove_eq {pre' old post' : List UInt8} {dst src n : Nat} (hsrc : buf = pre ++ mid ++ post)
    (hdst : buf = pre' ++ old ++ post') (hpre : src = pre.length) (hpre' : dst = pre'.length)
    (hmid : n = mid.length) (hold : n = old.length) :
    memmove buf dst src n = some (pre' ++ mid ++ post') := by
  have htake : buf.take dst = pre' := by
    rw [hdst, hpre', List.append_assoc, List.take_left]
  have hdrop : buf.drop (dst + n) = post' := by
    rw [hdst, hpre', hold, ← List.length_append, List.drop_left]
  have hcopy : (buf.drop src).take n = mid := by
    rw [hsrc, hpre, hmid, List.append_assoc, List.drop_left, List.take_left]
  have hle : src + n ≤ buf.length := by
    rw [hsrc, hpre, hmid]
    simp
  have hle' : dst + n ≤ buf.length := by
    rw [hdst, hpre', hold]
    simp
  rw [memmove, if_pos ⟨hle, hle'⟩, htake, hdrop, hcopy]

-- The buffer from the last byte of the text on.
theorem exists_last {text : List UInt8} (h : text ≠ []) (rest : List UInt8) :
    ∃ x, text ++ 0 :: rest = text.dropLast ++ x :: 0 :: rest := by
  refine ⟨text.getLast h, ?_⟩
  conv_lhs => rw [← List.dropLast_append_getLast h]
  simp

-- The text behind a byte moves one to the front, and the byte that it is shorter by stays behind it.
theorem close_gap {left right rest : List UInt8} {c : UInt8} {dst src n stop : Nat}
    (hbuf : buf = left.reverse ++ c :: (right ++ 0 :: rest)) (hdst : dst = left.length)
    (hsrc : src = left.length + 1) (hn : n = right.length) (hstop : stop = left.length + right.length) :
    ∃ buf', memmove buf dst src n = some buf' ∧
      poke buf' stop 0 = some (left.reverse ++ right ++ 0 :: 0 :: rest) := by
  obtain ⟨x, hx⟩ := exists_last (List.cons_ne_nil c right) rest
  refine ⟨left.reverse ++ right ++ x :: 0 :: rest, ?_, ?_⟩
  · exact memmove_eq (by simp [hbuf] : buf = left.reverse ++ [c] ++ right ++ 0 :: rest)
      (by rw [hbuf, List.append_assoc, ← hx, List.cons_append]) (by simp [hsrc]) (by simp [hdst]) hn
      (by simp [hn])
  · exact poke_append (left.reverse ++ right) (0 :: rest) x 0 (by simp [hstop])

theorem skipBack_eq (p : UInt8 → Bool) {left rest : List UInt8} {pos : Nat}
    (hbuf : buf = left.reverse ++ rest) (hpos : pos = left.length) :
    skipBack p buf pos = some (left.dropWhile p).length := by
  subst hpos
  induction left generalizing rest with
  | nil => rfl
  | cons c left ih =>
    rw [List.reverse_cons, List.append_assoc, List.singleton_append] at hbuf
    have hget : buf[left.length]? = some c := by simp [hbuf]
    rw [List.length_cons, skipBack, hget]
    simp only [Option.bind_eq_bind, Option.bind_some]
    rw [List.dropWhile_cons]
    by_cases hp : p c
    · rw [if_pos hp, if_pos hp]
      exact ih hbuf
    · rw [if_neg hp, if_neg hp]
      rfl

-- A part of the text before the cursor goes away.
theorem cut_back {gone kept right rest : List UInt8} {dst src n : Nat}
    (hbuf : buf = (gone ++ kept).reverse ++ (right ++ 0 :: rest)) (hdst : dst = kept.length)
    (hsrc : src = (gone ++ kept).length) (hn : n = right.length + 1) :
    ∃ rest', memmove buf dst src n = some (kept.reverse ++ right ++ 0 :: rest') ∧
      (kept.reverse ++ right ++ 0 :: rest').length = buf.length := by
  -- what lies behind the part that is kept
  let behind := gone.reverse ++ (right ++ 0 :: rest)
  have hlen : n ≤ behind.length := by
    simp only [behind, List.length_append, List.length_cons]
    omega
  have hmove : memmove buf dst src n = some (kept.reverse ++ (right ++ [0]) ++ behind.drop n) :=
    memmove_eq (by simp [hbuf] : buf = (gone ++ kept).reverse ++ (right ++ [0]) ++ rest)
      (by simp [hbuf, behind] : buf = kept.reverse ++ behind.take n ++ behind.drop n)
      (by rw [hsrc, List.length_reverse])
      (by simp [hdst]) (by simp [hn]) (by rw [List.length_take, Nat.min_eq_left hlen])
  refine ⟨behind.drop n, by simpa using hmove, ?_⟩
  have hdrop : (behind.drop n).length = behind.length - n := List.length_drop
  simp only [behind, List.length_append, List.length_cons, List.length_reverse] at hdrop hlen
  simp only [hbuf, List.length_append, List.length_cons, List.length_reverse, behind, hdrop]
  omega

-- The first loop of refreshSingleLine keeps the last column for the cursor.
theorem scrollText_eq {plen cols : Nat} (hcols : plen < cols) (text : List UInt8) (pos : Nat) :
    scrollText plen cols text pos =
      some (text.drop (pos + 1 - (cols - plen)), min pos (cols - plen - 1)) := by
  induction pos generalizing text with
  | zero =>
    rw [scrollText, if_pos hcols, show 0 + 1 - (cols - plen) = 0 by omega]
    simp
  | succ pos ih =>
    rw [scrollText]
    by_cases hge : plen + (pos + 1) ≥ cols
    · rw [if_pos hge, ih, ← List.drop_one, List.drop_drop,
        show 1 + (pos + 1 - (cols - plen)) = pos + 1 + 1 - (cols - plen) by omega,
        show min pos (cols - plen - 1) = min (pos + 1) (cols - plen - 1) by omega]
    · rw [if_neg hge, show pos + 1 + 1 - (cols - plen) = 0 by omega,
        show min (pos + 1) (cols - plen - 1) = pos + 1 by omega, List.drop_zero]

end Buffer

-- What there is room for of a text: the part that ends with the cursor in the last column, if the text
-- before the cursor does not fit.
def windowOf (prompt : CStr) (cols : Nat) (z : Zipper UInt8) : CStr × Nat :=
  let width := cols - prompt.length
  (prompt ++ (z.toList.drop (z.left.length + 1 - width)).take width,
    min z.left.length (width - 1) + prompt.length)

-- A text that fits is shown whole.
theorem windowOf_fits {prompt : CStr} {cols : Nat} {z : Zipper UInt8}
    (hleft : z.left.length < cols - prompt.length)
    (hfits : z.toList.length ≤ cols - prompt.length) :
    windowOf prompt cols z = (prompt ++ z.toList, z.left.length + prompt.length) := by
  rw [windowOf, show z.left.length + 1 - (cols - prompt.length) = 0 by omega, List.drop_zero,
    List.take_of_length_le hfits, Nat.min_eq_left (by omega)]

-- The cursor is in the row, between the text before it and the text behind it. A part of them that is left
-- out does not fit.
theorem windowOf_cursor {prompt : CStr} {cols : Nat} (hwide : prompt.length < cols) (z : Zipper UInt8) :
    ∃ before behind, windowOf prompt cols z =
        (prompt ++ before ++ behind, (prompt ++ before).length) ∧
      before <:+ z.left.reverse ∧ behind <+: z.right ∧
      (prompt ++ before).length < cols ∧ (prompt ++ before ++ behind).length ≤ cols ∧
      (before = z.left.reverse ∨ (prompt ++ before).length + 1 = cols) ∧
      (behind = z.right ∨ (prompt ++ before ++ behind).length = cols) := by
  obtain ⟨width, rfl⟩ : ∃ width, cols = prompt.length + (width + 1) := ⟨cols - prompt.length - 1, by omega⟩
  have hwidth : prompt.length + (width + 1) - prompt.length = width + 1 := Nat.add_sub_cancel_left _ _
  let gone := z.left.length + 1 - (width + 1)
  let before := z.left.reverse.drop gone
  let behind := z.right.take (width + 1 - before.length)
  have hbefore : before.length = min z.left.length width := by
    simp only [before, List.length_drop, List.length_reverse]
    omega
  have hbehind : behind.length = min (width + 1 - before.length) z.right.length := List.length_take
  refine ⟨before, behind, ?_, List.drop_suffix _ _, List.take_prefix _ _, ?_, ?_, ?_, ?_⟩
  · have hdrop : z.toList.drop gone = before ++ z.right :=
      List.drop_append_of_le_length (by rw [List.length_reverse]; omega)
    have hshort : before.length ≤ width + 1 := by omega
    rw [windowOf, hwidth, hdrop, List.take_append, List.take_of_length_le hshort]
    refine Prod.ext (List.append_assoc _ _ _).symm ?_
    rw [List.length_append, hbefore]
    exact Nat.add_comm _ _
  · rw [List.length_append]
    omega
  · simp only [List.length_append]
    omega
  · by_cases hfits : z.left.length ≤ width
    · exact .inl (by simp only [before, gone, Nat.sub_eq_zero_of_le (Nat.succ_le_succ hfits), List.drop_zero])
    · right
      rw [List.length_append]
      omega
  · by_cases hfits : z.right.length ≤ width + 1 - before.length
    · exact .inl (List.take_of_length_le hfits)
    · right
      simp only [List.length_append]
      omega

-- The row that linenoise edits in: the prompt, the columns, how long the text may be, and the characters that
-- it may have.
structure Window where
  prompt : CStr
  cols : Nat
  limit : Nat
  plain : UInt8 → Prop
  wide : prompt.length < cols
  limit_pos : 0 < limit
  limit_lt : limit < 2 ^ 64

namespace Window

-- Every character takes one column, and there is a prompt, for the sequence that moves the cursor to the right
-- cannot move it by nothing.
structure Legible (w : Window) : Prop where
  prompt_ne : w.prompt ≠ []
  prompt_visible : ∀ c ∈ w.prompt, Visible c
  visible : ∀ c, w.plain c → Visible c

-- A line of the history.
def Line (w : Window) (line : CStr) : Prop := 0 ∉ line ∧ ∀ c ∈ line, w.plain c

-- The terminal shows a text, if it can.
def Shown (w : Window) (out : List UInt8) (z : Zipper UInt8) : Prop :=
  w.Legible → Screen.Renders w.cols out (windowOf w.prompt w.cols z).1 (windowOf w.prompt w.cols z).2

end Window

-- The state holds a text, with a NUL behind it.
structure Edits (w : Window) (l : LinenoiseState) (z : Zipper UInt8) : Prop where
  prompt_eq : l.prompt = w.prompt
  cols_eq : l.cols = w.cols
  buflen_eq : l.buflen = w.limit
  size : l.buf.length = w.limit + 1
  buf_eq : ∃ rest, l.buf = z.toList ++ 0 :: rest
  pos_eq : l.pos = z.left.length
  len_eq : l.len = z.toList.length
  plain : ∀ c ∈ z.toList, w.plain c
  usable : w.Legible → Screen.Usable w.cols l.out

-- And the terminal shows it.
structure Drawn (w : Window) (l : LinenoiseState) (z : Zipper UInt8) : Prop extends Edits w l z where
  shown : w.Shown l.out z

section Ops

variable {w : Window} {l : LinenoiseState} {z : Zipper UInt8}

-- A row that is drawn behind some output.
theorem Window.shown_draw {out : List UInt8} (hplain : ∀ c ∈ z.toList, w.plain c)
    (husable : w.Legible → Screen.Usable w.cols out) :
    w.Shown (out ++ Screen.draw (windowOf w.prompt w.cols z).1 (windowOf w.prompt w.cols z).2) z := by
  intro hlegible
  have hwide := w.wide
  have hprompt := List.length_pos_of_ne_nil hlegible.prompt_ne
  refine (husable hlegible).draw ?_ ?_ ?_ ?_
  · intro c hc
    obtain hc | hc := List.mem_append.mp hc
    · exact hlegible.prompt_visible c hc
    · exact hlegible.visible c (hplain c (List.mem_of_mem_drop (List.mem_of_mem_take hc)))
  · simp only [windowOf, List.length_append, List.length_take]
    omega
  · simp only [windowOf]
    omega
  · simp only [windowOf]
    omega

theorem Edits.len_le (he : Edits w l z) : z.toList.length ≤ w.limit := by
  obtain ⟨rest, hbuf⟩ := he.buf_eq
  have hsize := he.size
  rw [hbuf, List.length_append, List.length_cons] at hsize
  omega

-- What is left of the text is plain.
theorem Edits.sub (he : Edits w l z) {z' : Zipper UInt8} (hsub : z'.toList ⊆ z.toList) :
    ∀ c ∈ z'.toList, w.plain c :=
  fun c hc => he.plain c (hsub hc)

-- Only the terminal changes.
theorem Edits.print (he : Edits w l z) {out : List UInt8} (husable : w.Legible → Screen.Usable w.cols out) :
    Edits w { l with out } z :=
  ⟨he.prompt_eq, he.cols_eq, he.buflen_eq, he.size, he.buf_eq, he.pos_eq, he.len_eq, he.plain, husable⟩

-- A state after an operation on the text.
def Does (w : Window) (l : LinenoiseState) (z : Zipper UInt8) (r : Option LinenoiseState) : Prop :=
  ∃ l', r = some l' ∧ Drawn w l' z ∧ l'.historyIndex = l.historyIndex

-- What refreshSingleLine writes.
theorem refreshSingleLine_eq (hprompt : l.prompt = w.prompt) (hcols : l.cols = w.cols)
    (htext : l.buf.take l.len = z.toList) (hpos : l.pos = z.left.length) :
    refreshSingleLine l = some { l with
      out := l.out ++ Screen.draw (windowOf w.prompt w.cols z).1 (windowOf w.prompt w.cols z).2 } := by
  rw [refreshSingleLine, htext, hpos, hprompt, hcols, strlen, scrollText_eq w.wide]
  simp [Screen.draw, Screen.toLeft, Screen.eraseRight, Screen.toRight, windowOf]

theorem Edits.take_eq (he : Edits w l z) : l.buf.take l.len = z.toList := by
  obtain ⟨rest, hbuf⟩ := he.buf_eq
  rw [hbuf, he.len_eq, List.take_left]

theorem Edits.refresh (he : Edits w l z) : Does w l z (refreshSingleLine l) := by
  have hshown := w.shown_draw he.plain he.usable
  exact ⟨_, refreshSingleLine_eq he.prompt_eq he.cols_eq he.take_eq he.pos_eq,
    ⟨he.print fun hlegible => (hshown hlegible).usable, hshown⟩, rfl⟩

variable (hd : Drawn w l z)

include hd

theorem Drawn.same {z' : Zipper UInt8} (hz : z' = z) : Does w l z' (some l) :=
  ⟨l, rfl, hz ▸ hd, rfl⟩

-- A new buffer, drawn.
theorem Drawn.redraw {buf : List UInt8} {pos len : Nat} {z' : Zipper UInt8}
    (hbuf : ∃ rest, buf = z'.toList ++ 0 :: rest) (hlen : buf.length = l.buf.length)
    (hpos : pos = z'.left.length) (hlen' : len = z'.toList.length) (hplain : ∀ c ∈ z'.toList, w.plain c) :
    Does w l z' (refreshSingleLine { l with buf, pos, len }) := by
  have he : Edits w { l with buf, pos, len } z' :=
    ⟨hd.prompt_eq, hd.cols_eq, hd.buflen_eq, hlen.trans hd.size, hbuf, hpos, hlen', hplain, hd.usable⟩
  exact he.refresh

-- The cursor moves and the text stays.
theorem Drawn.move {pos : Nat} {z' : Zipper UInt8} (hz : z'.toList = z.toList)
    (hpos : pos = z'.left.length) :
    Does w l z' (refreshSingleLine { l with pos }) := by
  have he : Edits w { l with pos } z' :=
    ⟨hd.prompt_eq, hd.cols_eq, hd.buflen_eq, hd.size, hz ▸ hd.buf_eq, hpos, hz ▸ hd.len_eq, hz ▸ hd.plain, hd.usable⟩
  exact he.refresh

theorem Drawn.moveLeft : Does w l z.moveLeft (linenoiseEditMoveLeft l) := by
  have hpos := hd.pos_eq
  unfold linenoiseEditMoveLeft
  rcases z with ⟨_ | ⟨c, left⟩, right⟩
  · rw [hpos]
    exact hd.same rfl
  · rw [if_pos (by rw [hpos]; exact Nat.succ_pos _)]
    exact hd.move (Zipper.toList_moveLeft _) (by rw [hpos]; rfl)

theorem Drawn.moveRight : Does w l z.moveRight (linenoiseEditMoveRight l) := by
  have hpos := hd.pos_eq
  have hlen := hd.len_eq
  unfold linenoiseEditMoveRight
  rcases z with ⟨left, _ | ⟨c, right⟩⟩
  · rw [if_neg (by simp [hpos, hlen])]
    exact hd.same rfl
  · rw [if_pos (by simp [hpos, hlen])]
    exact hd.move (Zipper.toList_moveRight _) (by rw [hpos]; rfl)

theorem Drawn.moveHome : Does w l z.moveHome (linenoiseEditMoveHome l) := by
  unfold linenoiseEditMoveHome
  by_cases hzero : l.pos ≠ 0
  · rw [if_pos hzero]
    exact hd.move rfl rfl
  · rw [if_neg hzero]
    rw [not_not, hd.pos_eq] at hzero
    apply hd.same
    rcases z with ⟨left, right⟩
    obtain rfl := List.length_eq_zero_iff.mp hzero
    rfl

theorem Drawn.moveEnd : Does w l z.moveEnd (linenoiseEditMoveEnd l) := by
  unfold linenoiseEditMoveEnd
  by_cases hend : l.pos ≠ l.len
  · rw [if_pos hend]
    exact hd.move (Zipper.toList_moveEnd _) (by simp [hd.len_eq, Zipper.moveEnd, Zipper.ofList])
  · rw [if_neg hend]
    rw [not_not, hd.pos_eq, hd.len_eq, Zipper.length_toList] at hend
    apply hd.same
    rcases z with ⟨left, right⟩
    obtain rfl : right = [] := List.length_eq_zero_iff.mp (Nat.left_eq_add.mp hend)
    simp [Zipper.moveEnd, Zipper.ofList, Zipper.toList]

theorem Drawn.killLine : Does w l (.ofList []) (linenoiseKillLine l) := by
  have hsize := hd.size
  cases hbuf : l.buf with
  | nil =>
    rw [hbuf] at hsize
    cases hsize
  | cons c rest =>
    have hpoke : poke (c :: rest) 0 0 = some (0 :: rest) := poke_append [] rest c 0 rfl
    rw [linenoiseKillLine, hbuf, hpoke]
    exact hd.redraw ⟨rest, rfl⟩ (by simp [hbuf]) rfl rfl (hd.sub (List.nil_subset _))

theorem Drawn.killEnd : Does w l z.cutRight (linenoiseKillEnd l) := by
  obtain ⟨rest, hbuf⟩ := hd.buf_eq
  -- what lies behind the cursor is never nothing, for the NUL is there
  obtain ⟨c, rest', hrest⟩ : ∃ c rest', z.right ++ 0 :: rest = c :: rest' := by
    cases z.right with
    | nil => exact ⟨0, rest, rfl⟩
    | cons c right => exact ⟨c, right ++ 0 :: rest, rfl⟩
  rw [Zipper.toList, List.append_assoc, hrest] at hbuf
  rw [linenoiseKillEnd, hbuf, poke_append _ rest' c 0 (by rw [hd.pos_eq, List.length_reverse])]
  refine hd.redraw (l := l) ⟨rest', ?_⟩ ?_ hd.pos_eq ?_ (hd.sub (Zipper.cutRight_subset z))
  · simp [Zipper.cutRight, Zipper.toList]
  · simp [hbuf]
  · simp [hd.pos_eq, Zipper.cutRight]

theorem Drawn.swap : Does w l z.swap (linenoiseSwap l) := by
  obtain ⟨rest, hbuf⟩ := hd.buf_eq
  have hpos := hd.pos_eq
  have hlen := hd.len_eq
  rw [Zipper.length_toList] at hlen
  unfold linenoiseSwap
  rcases z with ⟨_ | ⟨a, left⟩, _ | ⟨b, right⟩⟩
  · rw [if_neg (by simp [hpos])]
    exact hd.same rfl
  · rw [if_neg (by simp [hpos])]
    exact hd.same rfl
  · rw [if_neg (by simp [hpos, hlen])]
    exact hd.same rfl
  · have hbuf' : l.buf = left.reverse ++ a :: b :: (right ++ 0 :: rest) := by
      rw [hbuf]
      simp [Zipper.toList]
    have hleft : l.pos - 1 = left.reverse.length := by simp [hpos]
    have ha : l.buf[l.pos - 1]? = some a := by simp [hbuf', hleft]
    have hb : l.buf[l.pos]? = some b := by simp [hbuf', hpos]
    have hpoke : poke l.buf (l.pos - 1) b = some (left.reverse ++ b :: b :: (right ++ 0 :: rest)) := by
      rw [hbuf']
      exact poke_append left.reverse _ a b hleft
    have hpoke' : poke (left.reverse ++ b :: b :: (right ++ 0 :: rest)) l.pos a =
        some (left.reverse ++ b :: a :: (right ++ 0 :: rest)) := by
      have h := poke_append (left.reverse ++ [b]) (right ++ 0 :: rest) b a (by simp [hpos] : l.pos = _)
      rwa [List.append_assoc, List.append_assoc] at h
    rw [if_pos (by simp [hpos, hlen])]
    simp only [ha, hb, hpoke, hpoke', Option.bind_eq_bind, Option.bind_some]
    have hsize : (left.reverse ++ b :: a :: (right ++ 0 :: rest)).length = l.buf.length := by
      simp [hbuf']
    -- the cursor moves on unless it would be at the end
    cases right with
    | nil =>
      rw [if_neg (by simp [hpos, hlen])]
      exact hd.redraw ⟨rest, by simp [Zipper.swap, Zipper.toList]⟩ hsize (by simp [hpos, Zipper.swap])
        (by simp [hlen, Zipper.swap]) (hd.sub (Zipper.swap_subset _))
    | cons c right =>
      rw [if_pos (by simp [hpos, hlen])]
      exact hd.redraw ⟨rest, by simp [Zipper.swap, Zipper.toList]⟩ hsize (by simp [hpos, Zipper.swap])
        (by simp [hlen, Zipper.swap]; omega) (hd.sub (Zipper.swap_subset _))

theorem Drawn.insert {c : UInt8} (hc : w.plain c) :
    Does w l (if z.toList.length < w.limit then z.insert c else z)
      (linenoiseEditInsert l c) := by
  obtain ⟨rest, hbuf⟩ := hd.buf_eq
  have hpos := hd.pos_eq
  have hlen := hd.len_eq
  have hsize := hd.size
  have hsmall := w.limit_lt
  unfold linenoiseEditInsert
  by_cases hroom : z.toList.length < w.limit
  swap
  · rw [if_neg hroom, if_neg (by rwa [hlen, hd.buflen_eq])]
    exact hd.same rfl
  rw [if_pos hroom, if_pos (by rwa [hlen, hd.buflen_eq])]
  -- there is one more byte behind the NUL
  obtain ⟨x, rest', rfl⟩ : ∃ x rest', rest = x :: rest' := by
    cases rest with
    | nil =>
      rw [hbuf, List.length_append, List.length_singleton] at hsize
      omega
    | cons x rest' => exact ⟨x, rest', rfl⟩
  have hplain : ∀ a ∈ (z.insert c).toList, w.plain a := by
    intro a ha
    obtain rfl | ha := Zipper.mem_insert ha
    · exact hc
    · exact hd.plain a ha
  rcases z with ⟨left, right⟩
  simp only [Zipper.length_toList] at hroom hlen hpos
  have hbuf' : l.buf = left.reverse ++ (right ++ 0 :: x :: rest') := by
    rw [hbuf]
    simp [Zipper.toList]
  cases right with
  | nil =>
    have hpoke : poke l.buf l.pos c = some (left.reverse ++ c :: x :: rest') := by
      rw [hbuf']
      exact poke_append left.reverse (x :: rest') 0 c (by simp [hpos])
    have hpoke' : poke (left.reverse ++ c :: x :: rest') (l.len + 1) 0 =
        some (left.reverse ++ c :: 0 :: rest') := by
      have h := poke_append (left.reverse ++ [c]) rest' x 0 (by simp [hlen] : l.len + 1 = _)
      rwa [List.append_assoc, List.append_assoc] at h
    have hsize' : (left.reverse ++ c :: 0 :: rest').length = l.buf.length := by simp [hbuf']
    rw [if_pos (by simp [hpos, hlen])]
    simp only [hpoke, hpoke', Option.bind_eq_bind, Option.bind_some]
    by_cases hfast : strlen l.prompt + (l.len + 1) < l.cols
    · -- the row is whole, and the character is written behind it
      rw [if_pos hfast]
      rw [hd.prompt_eq, hd.cols_eq, strlen, hlen, List.length_nil] at hfast
      have hshown : w.Shown (l.out ++ [c]) ((⟨left, []⟩ : Zipper UInt8).insert c) := by
        intro hlegible
        have hrow := hd.shown hlegible
        have hcol : left.length + w.prompt.length = (w.prompt ++ left.reverse).length := by simp [Nat.add_comm]
        rw [windowOf_fits (by simp; omega) (by simp; omega)] at hrow
        rw [windowOf_fits (by simp [Zipper.insert]; omega) (by simp [Zipper.insert]; omega)]
        simp only [Zipper.toList, List.append_nil, hcol] at hrow
        have hnext := hrow.char (hlegible.visible c hc) (by simp; omega)
        simpa [Zipper.toList, Zipper.insert, Nat.add_comm, Nat.add_left_comm, Nat.add_assoc] using hnext
      exact ⟨_, rfl, ⟨⟨hd.prompt_eq, hd.cols_eq, hd.buflen_eq, hsize'.trans hsize,
        ⟨rest', by simp [Zipper.insert, Zipper.toList]⟩, by simp [hpos, Zipper.insert],
        by simp [hlen, Zipper.insert], hplain, fun hlegible => (hshown hlegible).usable⟩, hshown⟩, rfl⟩
    · rw [if_neg hfast]
      exact hd.redraw ⟨rest', by simp [Zipper.insert, Zipper.toList]⟩ hsize'
        (by simp [hpos, Zipper.insert]) (by simp [hlen, Zipper.insert]) hplain
  | cons b right =>
    have hsub : sub64 l.len l.pos = (b :: right).length := by
      rw [hlen, hpos, sub64_eq (by omega) (by omega), Nat.add_sub_cancel_left]
    have hmove : memmove l.buf (l.pos + 1) l.pos (sub64 l.len l.pos) =
        some (left.reverse ++ [b] ++ b :: right ++ x :: rest') :=
      memmove_eq (by simp [hbuf'] : l.buf = left.reverse ++ b :: right ++ 0 :: x :: rest')
        (by simp [hbuf'] : l.buf = left.reverse ++ [b] ++ (right ++ [0]) ++ x :: rest')
        (by simp [hpos]) (by simp [hpos]) hsub (by simp [hsub])
    have hpoke : poke (left.reverse ++ [b] ++ b :: right ++ x :: rest') l.pos c =
        some (left.reverse ++ c :: (b :: right ++ x :: rest')) := by
      have h := poke_append left.reverse (b :: right ++ x :: rest') b c (by simp [hpos] : l.pos = _)
      simpa using h
    have hpoke' : poke (left.reverse ++ c :: (b :: right ++ x :: rest')) (l.len + 1) 0 =
        some (left.reverse ++ c :: (b :: right ++ 0 :: rest')) := by
      have h := poke_append (left.reverse ++ c :: b :: right) rest' x 0
        (by simp [hlen]; omega : l.len + 1 = _)
      simpa using h
    rw [if_neg (by simp [hpos, hlen])]
    simp only [hmove, hpoke, hpoke', Option.bind_eq_bind, Option.bind_some]
    exact hd.redraw ⟨rest', by simp [Zipper.insert, Zipper.toList]⟩ (by simp [hbuf']; omega)
      (by simp [hpos, Zipper.insert]) (by simp [hlen, Zipper.insert]; omega) hplain

theorem Drawn.delete : Does w l z.deleteRight (linenoiseEditDelete l) := by
  obtain ⟨rest, hbuf⟩ := hd.buf_eq
  have hpos := hd.pos_eq
  have hlen := hd.len_eq
  have hle := hd.len_le
  have hsmall := w.limit_lt
  unfold linenoiseEditDelete
  rcases z with ⟨left, _ | ⟨c, right⟩⟩
  · rw [if_neg (by simp [hpos, hlen])]
    exact hd.same rfl
  · simp only [Zipper.length_toList, List.length_cons] at hlen hpos hle
    rw [if_pos (by omega)]
    have hbuf' : l.buf = left.reverse ++ c :: (right ++ 0 :: rest) := by
      rw [hbuf]
      simp [Zipper.toList]
    have hsub : sub64 l.len l.pos = right.length + 1 := by
      rw [hlen, hpos, sub64_eq (by omega) (by omega)]
      omega
    have hsub' : sub64 (sub64 l.len l.pos) 1 = right.length := by
      rw [hsub, sub64_eq (by omega) (by omega), Nat.add_sub_cancel]
    obtain ⟨buf, hmove, hpoke⟩ := close_gap hbuf' hpos (by omega : l.pos + 1 = left.length + 1) hsub'
      (by omega : l.len - 1 = left.length + right.length)
    simp only [hmove, hpoke, Option.bind_eq_bind, Option.bind_some]
    exact hd.redraw ⟨0 :: rest, rfl⟩ (by simp [hbuf']; omega) hpos
      (by simp [hlen, Zipper.deleteRight]) (hd.sub (Zipper.deleteRight_subset _))

theorem Drawn.backspace : Does w l z.deleteLeft (linenoiseEditBackspace l) := by
  obtain ⟨rest, hbuf⟩ := hd.buf_eq
  have hpos := hd.pos_eq
  have hlen := hd.len_eq
  have hle := hd.len_le
  have hsmall := w.limit_lt
  unfold linenoiseEditBackspace
  rcases z with ⟨_ | ⟨c, left⟩, right⟩
  · rw [if_neg (by simp [hpos])]
    exact hd.same rfl
  · simp only [Zipper.length_toList, List.length_cons] at hlen hpos hle
    rw [if_pos (by omega)]
    have hbuf' : l.buf = left.reverse ++ c :: (right ++ 0 :: rest) := by
      rw [hbuf]
      simp [Zipper.toList]
    have hsub : sub64 l.len l.pos = right.length := by
      rw [hlen, hpos, sub64_eq (by omega) (by omega)]
      omega
    obtain ⟨buf, hmove, hpoke⟩ := close_gap hbuf' (by omega : l.pos - 1 = left.length) hpos hsub
      (by omega : l.len - 1 = left.length + right.length)
    simp only [hmove, hpoke, Option.bind_eq_bind, Option.bind_some]
    exact hd.redraw ⟨0 :: rest, rfl⟩ (by simp [hbuf']; omega) (by simp [hpos, Zipper.deleteLeft])
      (by simp [hlen, Zipper.deleteLeft]) (hd.sub (Zipper.deleteLeft_subset _))

theorem Drawn.deletePrevWord :
    Does w l ((z.dropLeft (· = 32)).dropLeft (· ≠ 32)) (linenoiseEditDeletePrevWord l) := by
  obtain ⟨rest, hbuf⟩ := hd.buf_eq
  have hpos := hd.pos_eq
  have hlen := hd.len_eq
  have hle := hd.len_le
  have hsmall := w.limit_lt
  rcases z with ⟨left, right⟩
  simp only [Zipper.length_toList] at hlen hpos hle
  have hbuf' : l.buf = left.reverse ++ (right ++ 0 :: rest) := by
    rw [hbuf]
    simp [Zipper.toList]
  -- the loops skip the spaces, and then the word
  obtain ⟨spaces, hspaces⟩ := List.dropWhile_suffix (l := left) (· = 32)
  have hskip := skipBack_eq (· = 32) hbuf' hpos
  have hbuf₁ : l.buf = (left.dropWhile (· = 32)).reverse ++ (spaces.reverse ++ (right ++ 0 :: rest)) := by
    rw [← List.append_assoc, ← List.reverse_append, hspaces, hbuf']
  have hskip' := skipBack_eq (· ≠ 32) hbuf₁ rfl
  obtain ⟨gone, hgone⟩ : ∃ gone, gone ++ (left.dropWhile (· = 32)).dropWhile (· ≠ 32) = left :=
    (List.dropWhile_suffix _).trans (List.dropWhile_suffix _)
  have hleft := List.Subset.trans (Zipper.dropLeft_subset (· ≠ 32) _) (Zipper.dropLeft_subset (· = 32) ⟨left, right⟩)
  have hz : ((⟨left, right⟩ : Zipper UInt8).dropLeft (· = 32)).dropLeft (· ≠ 32) =
      ⟨(left.dropWhile (· = 32)).dropWhile (· ≠ 32), right⟩ := rfl
  rw [hz] at hleft ⊢
  generalize (left.dropWhile (· = 32)).dropWhile (· ≠ 32) = kept at hskip' hgone hleft ⊢
  subst hgone
  have hsub : sub64 l.len l.pos + 1 = right.length + 1 := by
    rw [hlen, hpos, sub64_eq (by omega) (by omega), Nat.add_sub_cancel_left]
  obtain ⟨rest', hmove, hsize⟩ := cut_back hbuf' rfl hpos hsub
  have hsub' : sub64 l.len (l.pos - kept.length) = kept.length + right.length := by
    rw [List.length_append] at hlen hpos hle
    rw [hlen, hpos, sub64_eq (by omega) (by omega)]
    omega
  unfold linenoiseEditDeletePrevWord
  simp only [hskip, hskip', hmove, hsub', Option.bind_eq_bind, Option.bind_some]
  exact hd.redraw ⟨rest', rfl⟩ hsize rfl (by simp) (hd.sub hleft)

end Ops

end Adventure

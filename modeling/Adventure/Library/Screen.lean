import Mathlib.Data.List.GetD
import Mathlib.Logic.Function.Basic
import Mathlib.Tactic.Common

-- A character of one column.
def Visible (c : UInt8) : Prop := 32 ≤ c ∧ c < 127

instance : DecidablePred Visible := fun c => inferInstanceAs (Decidable (32 ≤ c ∧ c < 127))

-- The decimal digits of a number.
def decimal (n : Nat) : List UInt8 := (Nat.toDigits 10 n).map fun c => UInt8.ofNat c.toNat

-- A terminal, as the bytes that are written change it, with what can be seen of the row of the cursor: the
-- characters of its columns, and the column of the cursor. It is idle between characters and sequences, and
-- ready if a character would come to the column of the cursor: behind the last column it may go elsewhere.
structure Screen (σ : Type) where
  write : σ → UInt8 → σ
  cell : σ → Nat → UInt8
  col : σ → Nat
  idle : σ → Prop
  ready : σ → Prop

namespace Screen

def toLeft : List UInt8 := [27, 91, 48, 71]

def eraseRight : List UInt8 := [27, 91, 48, 75]

def toRight (n : Nat) : List UInt8 := [27, 91] ++ decimal n ++ [67]

def clear : List UInt8 := [27, 91, 72, 27, 91, 50, 74]

def bell : List UInt8 := [7]

-- A row of text, with the cursor in column `n`.
def draw (row : List UInt8) (n : Nat) : List UInt8 := toLeft ++ row ++ eraseRight ++ toLeft ++ toRight n

variable {σ : Type} (t : Screen σ)

def feed (s : σ) (bytes : List UInt8) : σ := bytes.foldl t.write s

@[simp] theorem feed_append (s : σ) (bytes bytes' : List UInt8) :
    t.feed s (bytes ++ bytes') = t.feed (t.feed s bytes) bytes' := List.foldl_append

@[simp] theorem feed_cons (s : σ) (c : UInt8) (bytes : List UInt8) :
    t.feed s (c :: bytes) = t.feed (t.write s c) bytes := rfl

@[simp] theorem feed_nil (s : σ) : t.feed s [] = s := rfl

-- What a terminal of `cols` columns makes of characters and of these control sequences. A character in the last
-- column leaves the cursor there, or just behind.
structure Ansi (cols : Nat) : Prop where
  idle : ∀ s, t.ready s → t.idle s
  char : ∀ s c, t.ready s → Visible c → t.col s < cols →
    t.cell (t.write s c) = Function.update (t.cell s) (t.col s) c ∧
    if t.col s + 1 < cols then t.ready (t.write s c) ∧ t.col (t.write s c) = t.col s + 1
    else t.idle (t.write s c) ∧ cols ≤ t.col (t.write s c) + 1
  left : ∀ s, t.idle s →
    t.ready (t.feed s toLeft) ∧ t.cell (t.feed s toLeft) = t.cell s ∧ t.col (t.feed s toLeft) = 0
  erase : ∀ s, t.idle s →
    t.idle (t.feed s eraseRight) ∧ ∀ i, t.cell (t.feed s eraseRight) i = if i < t.col s then t.cell s i else 32
  right : ∀ s n, t.ready s → 0 < n → t.col s + n < cols → t.ready (t.feed s (toRight n)) ∧
    t.cell (t.feed s (toRight n)) = t.cell s ∧ t.col (t.feed s (toRight n)) = t.col s + n
  clear : ∀ s, t.idle s → t.idle (t.feed s clear)
  bell : ∀ s, t.idle s → t.idle (t.feed s bell) ∧ (t.ready s → t.ready (t.feed s bell)) ∧
    t.cell (t.feed s bell) = t.cell s ∧ t.col (t.feed s bell) = t.col s

-- The row is blank but for a text. When the text fills the row, its last column may be blank as well, for it is
-- the one that is erased then.
structure Shows (cols : Nat) (s : σ) (row : List UInt8) (col : Nat) : Prop where
  ready : t.ready s
  cells : ∀ i < cols, i + 1 < cols ∨ row.length < cols → t.cell s i = row.getD i 32
  col_eq : t.col s = col

variable {t} {cols n : Nat} {s : σ} {row : List UInt8} {c : UInt8}

-- The cells with a text from a column on.
def overlay (cells : Nat → UInt8) (col : Nat) (text : List UInt8) (i : Nat) : UInt8 :=
  if col ≤ i then (text[i - col]?).getD (cells i) else cells i

@[simp] theorem overlay_nil (cells : Nat → UInt8) (col : Nat) : overlay cells col [] = cells := by
  funext i
  simp [overlay]

theorem overlay_cons (cells : Nat → UInt8) (col : Nat) (c : UInt8) (text : List UInt8) :
    overlay cells col (c :: text) = overlay (Function.update cells col c) (col + 1) text := by
  funext i
  unfold overlay
  by_cases hi : col ≤ i
  · rw [if_pos hi]
    obtain rfl | hi' := Nat.eq_or_lt_of_le hi
    · rw [if_neg (by omega), Function.update_self, Nat.sub_self]
      rfl
    · rw [if_pos (by omega), Function.update_of_ne (Nat.ne_of_gt hi'), show i - col = i - (col + 1) + 1 by omega,
        List.getElem?_cons_succ]
  · rw [if_neg hi, if_neg (by omega), Function.update_of_ne (by omega)]

theorem overlay_zero (cells : Nat → UInt8) (text : List UInt8) (i : Nat) :
    overlay cells 0 text i = (text[i]?).getD (cells i) :=
  if_pos (Nat.zero_le i)

namespace Ansi

variable (ht : t.Ansi cols)

include ht

-- Behind a text the cursor is in the next column, or it has reached the last one.
theorem text (text : List UInt8) (hs : t.ready s) (hvisible : ∀ c ∈ text, Visible c)
    (hfits : t.col s + text.length ≤ cols) :
    t.cell (t.feed s text) = overlay (t.cell s) (t.col s) text ∧ t.idle (t.feed s text) ∧
      (t.col s + text.length < cols → t.ready (t.feed s text) ∧ t.col (t.feed s text) = t.col s + text.length) ∧
      (cols ≤ t.col s + text.length → cols ≤ t.col (t.feed s text) + 1) := by
  induction text generalizing s with
  | nil => exact ⟨(overlay_nil _ _).symm, ht.idle s hs, fun _ => ⟨hs, rfl⟩, fun h => Nat.le_succ_of_le h⟩
  | cons c text ih =>
    rw [List.forall_mem_cons] at hvisible
    rw [List.length_cons] at hfits ⊢
    obtain ⟨hcell, hcol⟩ := ht.char s c hs hvisible.1 (by omega)
    rw [feed_cons, overlay_cons, ← hcell]
    by_cases hlast : t.col s + 1 < cols
    · rw [if_pos hlast] at hcol
      obtain ⟨hready, hcol⟩ := hcol
      obtain ⟨hcell', hidle, hlt, hge⟩ := ih hready hvisible.2 (by omega)
      refine ⟨by rw [hcell', hcol], hidle, fun h => ?_, fun h => hge (by omega)⟩
      obtain ⟨hready', hcol'⟩ := hlt (by omega)
      exact ⟨hready', by omega⟩
    · -- there was one column left
      obtain rfl : text = [] := List.length_eq_zero_iff.mp (by omega)
      rw [if_neg hlast] at hcol
      exact ⟨(overlay_nil _ _).symm, hcol.1, fun h => absurd h hlast, fun _ => hcol.2⟩

-- A row is drawn over whatever was there.
theorem draw (hs : t.idle s) (hvisible : ∀ c ∈ row, Visible c) (hfits : row.length ≤ cols) (hpos : 0 < n)
    (hn : n < cols) : t.Shows cols (t.feed s (Screen.draw row n)) row n := by
  obtain ⟨hready₁, -, hcol₁⟩ := ht.left s hs
  obtain ⟨hcell₂, hidle₂, hlt₂, hge₂⟩ := ht.text row hready₁ hvisible (by omega)
  rw [hcol₁, Nat.zero_add] at hlt₂ hge₂
  obtain ⟨hidle₃, hcell₃⟩ := ht.erase _ hidle₂
  obtain ⟨hready₄, hcell₄, hcol₄⟩ := ht.left _ hidle₃
  obtain ⟨hready₅, hcell₅, hcol₅⟩ := ht.right _ n hready₄ hpos (by omega)
  simp only [Screen.draw, feed_append]
  refine ⟨hready₅, fun i hi hshown => ?_, by omega⟩
  rw [hcell₅, hcell₄, hcell₃, hcell₂, hcol₁, overlay_zero, List.getD_eq_getElem?_getD]
  by_cases hin : i < row.length
  · rw [List.getElem?_eq_getElem hin]
    refine if_pos ?_
    by_cases hfull : row.length < cols
    · rw [(hlt₂ hfull).2]
      exact hin
    · have hlast := hge₂ (by omega)
      obtain hshown | hshown := hshown <;> omega
  · rw [List.getElem?_eq_none (by omega)]
    exact if_neg (by rw [(hlt₂ (by omega)).2]; exact hin)

end Ansi

-- One more character behind the text.
theorem Shows.char (h : t.Shows cols s row row.length) (ht : t.Ansi cols) (hc : Visible c)
    (hfits : row.length + 1 < cols) : t.Shows cols (t.feed s [c]) (row ++ [c]) (row.length + 1) := by
  have hcol := h.col_eq
  obtain ⟨hcell, hcol'⟩ := ht.char s c h.ready hc (by omega)
  rw [if_pos (by omega)] at hcol'
  refine ⟨hcol'.1, fun i hi _ => ?_, hcol'.2.trans (by rw [hcol])⟩
  rw [feed_cons, feed_nil, hcell, hcol]
  by_cases hlast : i = row.length
  · subst hlast
    rw [Function.update_self]
    simp
  · rw [Function.update_of_ne hlast, h.cells i hi (.inr (by omega))]
    by_cases hin : i < row.length
    · rw [List.getD_append _ _ _ _ hin]
    · rw [List.getD_eq_default _ _ (by omega), List.getD_eq_default _ _ (by simp; omega)]

theorem Shows.bell (h : t.Shows cols s row n) (ht : t.Ansi cols) : t.Shows cols (t.feed s bell) row n := by
  obtain ⟨-, hready, hcell, hcol⟩ := ht.bell s (ht.idle s h.ready)
  exact ⟨hready h.ready, fun i hi hshown => by rw [hcell, h.cells i hi hshown], hcol.trans h.col_eq⟩

-- A text behind nothing.
theorem Shows.first (h : t.Shows cols s [] 0) (ht : t.Ansi cols) (hvisible : ∀ c ∈ row, Visible c)
    (hfits : row.length < cols) : t.Shows cols (t.feed s row) row row.length := by
  have hcol := h.col_eq
  obtain ⟨hcell, -, hlt, -⟩ := ht.text row h.ready hvisible (by omega)
  obtain ⟨hready, hcol'⟩ := hlt (by omega)
  refine ⟨hready, fun i hi _ => ?_, by rw [hcol', hcol, Nat.zero_add]⟩
  rw [hcell, hcol, overlay_zero, h.cells i hi (.inr (Nat.zero_lt_of_lt hi)), List.getD_nil,
    List.getD_eq_getElem?_getD]

-- After some output, a terminal whose row was blank can have more, whatever terminal it is.
def Usable (cols : Nat) (out : List UInt8) : Prop :=
  ∀ (σ : Type) (t : Screen σ) (s : σ), t.Ansi cols → t.Shows cols s [] 0 → t.idle (t.feed s out)

-- And it shows a row.
def Renders (cols : Nat) (out row : List UInt8) (col : Nat) : Prop :=
  ∀ (σ : Type) (t : Screen σ) (s : σ), t.Ansi cols → t.Shows cols s [] 0 → t.Shows cols (t.feed s out) row col

variable {out : List UInt8}

theorem Renders.usable (h : Renders cols out row n) : Usable cols out :=
  fun σ t s ht hs => ht.idle _ (h σ t s ht hs).ready

theorem Renders.first (hvisible : ∀ c ∈ row, Visible c) (hfits : row.length < cols) :
    Renders cols row row row.length :=
  fun _ _ _ ht hs => hs.first ht hvisible hfits

theorem Renders.char (h : Renders cols out row row.length) (hc : Visible c) (hfits : row.length + 1 < cols) :
    Renders cols (out ++ [c]) (row ++ [c]) (row.length + 1) := by
  intro σ t s ht hs
  rw [feed_append]
  exact (h σ t s ht hs).char ht hc hfits

theorem Renders.bell (h : Renders cols out row n) : Renders cols (out ++ Screen.bell) row n := by
  intro σ t s ht hs
  rw [feed_append]
  exact (h σ t s ht hs).bell ht

theorem Usable.bell (h : Usable cols out) : Usable cols (out ++ Screen.bell) := by
  intro σ t s ht hs
  rw [feed_append]
  exact (ht.bell _ (h σ t s ht hs)).1

theorem Usable.clear (h : Usable cols out) : Usable cols (out ++ Screen.clear) := by
  intro σ t s ht hs
  rw [feed_append]
  exact ht.clear _ (h σ t s ht hs)

theorem Usable.draw (h : Usable cols out) (hvisible : ∀ c ∈ row, Visible c) (hfits : row.length ≤ cols) (hpos : 0 < n)
    (hn : n < cols) : Renders cols (out ++ Screen.draw row n) row n := by
  intro σ t s ht hs
  rw [feed_append]
  exact ht.draw (h σ t s ht hs) hvisible hfits hpos hn

end Screen

-- Where a terminal is in its input: between sequences, behind ESC, or in a sequence with the value of the
-- digits that it has read.
inductive VtInput
  | ground
  | esc
  | csi (n : Nat)
  deriving DecidableEq

-- A terminal with one row. Behind the last column, the next character is the first one of a new row.
structure Vt where
  cells : Nat → UInt8
  col : Nat
  input : VtInput

namespace Vt

-- The last byte of a sequence.
def run (cols : Nat) (s : Vt) (n : Nat) (c : UInt8) : Vt :=
  match c.toNat with
  | 71 => { s with col := min (n - 1) (cols - 1), input := .ground }
  | 67 => { s with col := min (s.col + max n 1) (cols - 1), input := .ground }
  | 75 => { s with cells := fun i => if i < s.col then s.cells i else 32, input := .ground }
  | 72 => { s with col := 0, input := .ground }
  | 74 => { s with cells := fun _ => 32, input := .ground }
  | _ => { s with input := .ground }

def write (cols : Nat) (s : Vt) (c : UInt8) : Vt :=
  match s.input with
  | .ground =>
      if c = 27 then { s with input := .esc }
      else if Visible c then
        if s.col < cols then { s with cells := Function.update s.cells s.col c, col := s.col + 1 }
        else { s with cells := Function.update (fun _ => 32) 0 c, col := 1 }
      else s
  | .esc => if c = 91 then { s with input := .csi 0 } else { s with input := .ground }
  | .csi n => if 48 ≤ c ∧ c ≤ 57 then { s with input := .csi (10 * n + (c.toNat - 48)) } else s.run cols n c

def screen (cols : Nat) : Screen Vt where
  write := write cols
  cell := cells
  col := col
  idle s := s.input = .ground
  ready s := s.input = .ground ∧ s.col < cols

variable {cols : Nat} {s : Vt}

theorem feed_digits (digits : List Char) (hdigits : ∀ c ∈ digits, c.isDigit) (n : Nat) :
    (screen cols).feed { s with input := .csi n } (digits.map fun c => UInt8.ofNat c.toNat) =
      { s with input := .csi (Nat.ofDigitChars 10 digits n) } := by
  induction digits generalizing n with
  | nil => rfl
  | cons c digits ih =>
    rw [List.forall_mem_cons, Char.isDigit_iff_toNat] at hdigits
    have hlow : 48 ≤ c.toNat := hdigits.1.1
    have hhigh : c.toNat ≤ 57 := hdigits.1.2
    have hval : (UInt8.ofNat c.toNat).toNat = c.toNat := UInt8.toNat_ofNat_of_lt' (by change c.toNat < 256; omega)
    have hdigit : 48 ≤ UInt8.ofNat c.toNat ∧ UInt8.ofNat c.toNat ≤ 57 := by
      rw [UInt8.le_iff_toNat_le, UInt8.le_iff_toNat_le, hval]
      exact ⟨hlow, hhigh⟩
    have hwrite : (screen cols).write { s with input := .csi n } (UInt8.ofNat c.toNat) =
        { s with input := .csi (10 * n + (c.toNat - 48)) } := by
      change (if 48 ≤ UInt8.ofNat c.toNat ∧ UInt8.ofNat c.toNat ≤ 57 then _ else _) = _
      rw [if_pos hdigit, hval]
    rw [List.map_cons, Screen.feed_cons, hwrite, ih hdigits.2, Nat.ofDigitChars_cons]
    rfl

theorem feed_right (h : s.input = .ground) (n : Nat) : (screen cols).feed s (Screen.toRight n) =
    { s with col := min (s.col + max n 1) (cols - 1) } := by
  have hstart : (screen cols).feed s [27, 91] = { s with input := .csi 0 } := by
    simp [screen, write, h]
  have hdigits : (screen cols).feed { s with input := .csi 0 } (decimal n) = { s with input := .csi n } := by
    rw [decimal, feed_digits _ (fun c hc => Nat.isDigit_of_mem_toDigits (by decide) (by decide) hc),
      Nat.ofDigitChars_ten_toDigits]
  rw [Screen.toRight, Screen.feed_append, Screen.feed_append, hstart, hdigits]
  simp [screen, write, run, ← h]

-- It is a terminal of the kind above.
theorem ansi (hcols : 0 < cols) : (screen cols).Ansi cols where
  idle s hs := hs.1
  char s c hs hc hcol := by
    have hesc : c ≠ 27 := by
      rintro rfl
      exact absurd hc (by decide)
    have hwrite : (screen cols).write s c =
        { s with cells := Function.update s.cells s.col c, col := s.col + 1 } := by
      change write cols s c = _
      rw [write, hs.1]
      simp only [if_neg hesc, if_pos hc, if_pos hs.2]
    rw [hwrite]
    refine ⟨rfl, ?_⟩
    split
    · next hlast => exact ⟨⟨hs.1, hlast⟩, rfl⟩
    · next hlast => exact ⟨hs.1, Nat.le_succ_of_le (Nat.not_lt.mp hlast)⟩
  left s hs := by
    obtain ⟨cells, col, input⟩ := s
    obtain rfl : input = .ground := hs
    have hfeed : (screen cols).feed ⟨cells, col, .ground⟩ Screen.toLeft = ⟨cells, 0, .ground⟩ := by
      simp [Screen.toLeft, screen, write, run]
    rw [hfeed]
    exact ⟨⟨rfl, hcols⟩, rfl, rfl⟩
  erase s hs := by
    obtain ⟨cells, col, input⟩ := s
    obtain rfl : input = .ground := hs
    have hfeed : (screen cols).feed ⟨cells, col, .ground⟩ Screen.eraseRight =
        ⟨fun i => if i < col then cells i else 32, col, .ground⟩ := by
      simp [Screen.eraseRight, screen, write, run]
    rw [hfeed]
    exact ⟨rfl, fun _ => rfl⟩
  right s n hs hpos hn := by
    have hlt : s.col + n < cols := hn
    have hcol : min (s.col + max n 1) (cols - 1) = s.col + n := by omega
    rw [feed_right hs.1 n, hcol]
    exact ⟨⟨hs.1, hlt⟩, rfl, rfl⟩
  clear s hs := by
    obtain ⟨cells, col, input⟩ := s
    obtain rfl : input = .ground := hs
    have hfeed : (screen cols).feed ⟨cells, col, .ground⟩ Screen.clear = ⟨fun _ => 32, 0, .ground⟩ := by
      simp [Screen.clear, screen, write, run]
    rw [hfeed]
    rfl
  bell s hs := by
    obtain ⟨cells, col, input⟩ := s
    obtain rfl : input = .ground := hs
    have hfeed : (screen cols).feed ⟨cells, col, .ground⟩ Screen.bell = ⟨cells, col, .ground⟩ := by
      simp [Screen.bell, screen, write, Visible]
    rw [hfeed]
    exact ⟨rfl, id, rfl, rfl⟩

end Vt

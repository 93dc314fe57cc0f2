import Adventure.Jsmn
import Adventure.Library.Nest
import Mathlib.Data.List.TakeWhile

namespace Adventure

-- What jsmn_parse is given to read: `len` bytes, or those before the NUL.
def jsmnText (js : CStr) (len : Nat) : List UInt8 := (js.take len).takeWhile (· ≠ 0)

-- A call on a text whose positions are ints.
structure JsmnInput where
  js : CStr
  len : Nat
  short : (jsmnText js len).length < 2 ^ 31

-- num_tokens is an unsigned int.
abbrev JsmnArray := { tokens : List JsmnTok // tokens.length < 2 ^ 32 }

structure JsonSpan where
  type : JsmnType
  start : Nat
  stop : Nat
  deriving DecidableEq

-- An opening bracket with its position, and a closing one with the position after it.
abbrev JsonMark := Nest.Mark JsonSpan (JsmnType × Nat) (JsmnType × Nat)

def brackets : List (JsmnType × UInt8 × UInt8) := [(.object, 123, 125), (.array, 91, 93)]

def isPrimitive (c : UInt8) : Bool := !endsPrimitive c && 32 ≤ c && c < 127

section Grammar

variable (text : List UInt8)

-- Between the quotes of a string.
inductive JsonChars : Nat → Nat → Prop
  | done {i : Nat} : JsonChars i i
  | plain {i j : Nat} {c : UInt8} (hc : text[i]? = some c) (hquote : c ≠ 34) (hslash : c ≠ 92)
      (rest : JsonChars (i + 1) j) : JsonChars i j
  | escape {i j : Nat} {e : UInt8} (hc : text[i]? = some 92) (he : text[i + 1]? = some e)
      (hescape : isEscape e) (rest : JsonChars (i + 2) j) : JsonChars i j
  | unicode {i j : Nat} (hc : text[i]? = some 92) (hu : text[i + 1]? = some 117)
      (hhex : ∀ d < 4, ∃ h, text[i + 2 + d]? = some h ∧ isHexDigit h)
      (rest : JsonChars (i + 6) j) : JsonChars i j

-- Where the bytes between the quotes come to an end before there is a quote, with the error for it.
inductive JsonBreak : Nat → Int → Prop
  | ended {i : Nat} (hi : text[i]? = none) : JsonBreak i JSMN_ERROR_PART
  | short {i n : Nat} (hc : text[i]? = some 92) (hu : text[i + 1]? = some 117) (hn : n < 4)
      (hhex : ∀ d < n, ∃ h, text[i + 2 + d]? = some h ∧ isHexDigit h)
      (hend : text[i + 2 + n]? = none) : JsonBreak i JSMN_ERROR_PART
  -- A backslash at the very end is taken for one before the NUL.
  | slash {i : Nat} (hc : text[i]? = some 92) (he : text[i + 1]? = none) :
      JsonBreak i JSMN_ERROR_INVAL
  | escape {i : Nat} {e : UInt8} (hc : text[i]? = some 92) (he : text[i + 1]? = some e)
      (hescape : ¬isEscape e) (hu : e ≠ 117) : JsonBreak i JSMN_ERROR_INVAL
  | digit {i n : Nat} {h : UInt8} (hc : text[i]? = some 92) (hu : text[i + 1]? = some 117)
      (hn : n < 4) (hh : text[i + 2 + n]? = some h) (hhex : ¬isHexDigit h) :
      JsonBreak i JSMN_ERROR_INVAL

-- The mark that stands from one position to another.
inductive JsonWord : Nat → JsonMark → Nat → Prop
  | enter {i : Nat} {type : JsmnType} {o c : UInt8} (hb : (type, o, c) ∈ brackets)
      (hi : text[i]? = some o) : JsonWord i (.enter (type, i)) (i + 1)
  | leave {i : Nat} {type : JsmnType} {o c : UInt8} (hb : (type, o, c) ∈ brackets)
      (hi : text[i]? = some c) : JsonWord i (.leave (type, i + 1)) (i + 1)
  | string {i j : Nat} (hi : text[i]? = some 34) (hchars : JsonChars text (i + 1) j)
      (hj : text[j]? = some 34) : JsonWord i (.leaf ⟨.string, i + 1, j⟩) (j + 1)
  -- Of as many bytes as there are. The bytes that open something else do not begin one.
  | primitive {i j : Nat} {c : UInt8} (hi : text[i]? = some c) (hc : c ∉ [123, 91, 34])
      (hlt : i < j) (hmid : ∀ k, i ≤ k → k < j → ∃ c, text[k]? = some c ∧ isPrimitive c)
      (hend : ∀ c, text[j]? = some c → endsPrimitive c) :
      JsonWord i (.leaf ⟨.primitive, i, j⟩) j

end Grammar

variable {js js' : CStr} {len len' pos pos' start steps k : Nat} {c : UInt8}

section Text

-- A position that the parser may be at: no byte of the text was left out before it.
def Within (js : CStr) (len pos : Nat) : Prop := pos ≤ (jsmnText js len).length ∨ len ≤ pos

theorem byteAt_isSome (h : pos ≤ js.length) : ∃ c, byteAt js pos = some c := by
  unfold byteAt
  exact ⟨_, List.getElem?_eq_getElem (by simp; omega)⟩

theorem lt_of_byteAt (hc : byteAt js pos = some c) (h0 : c ≠ 0) : pos < js.length := by
  unfold byteAt at hc
  by_contra hge
  rw [List.getElem?_append_right (by omega)] at hc
  cases hsub : pos - js.length with
  | zero =>
    rw [hsub] at hc
    exact h0 (Option.some.inj hc).symm
  | succ n =>
    rw [hsub] at hc
    cases hc

theorem jsmnText_prefix_take (js : CStr) (len : Nat) : jsmnText js len <+: js.take len :=
  List.takeWhile_prefix _

theorem length_jsmnText_le (js : CStr) (len : Nat) : (jsmnText js len).length ≤ len :=
  (jsmnText_prefix_take js len).length_le.trans (List.length_take_le len js)

theorem length_jsmnText_le_length (js : CStr) (len : Nat) :
    (jsmnText js len).length ≤ js.length :=
  (jsmnText_prefix_take js len).length_le.trans (List.length_take_le' len js)

theorem jsmnText_getElem? (h : (jsmnText js len)[pos]? = some c) :
    pos < len ∧ byteAt js pos = some c ∧ c ≠ 0 := by
  obtain ⟨hpos, hget⟩ := List.getElem?_eq_some_iff.mp h
  have hlen := (jsmnText_prefix_take js len).length_le
  have hmem := List.mem_takeWhile_imp (List.mem_of_getElem? h)
  have hjs := (jsmnText_prefix_take js len).getElem hpos
  rw [List.length_take] at hlen
  rw [List.getElem_take, hget] at hjs
  refine ⟨by omega, ?_, by simpa using hmem⟩
  rw [byteAt, List.getElem?_append_left (by omega), hjs, List.getElem?_eq_getElem]

theorem Within.getElem? (hw : Within js len pos) (hlt : pos < len) (hc : byteAt js pos = some c)
    (h0 : c ≠ 0) : (jsmnText js len)[pos]? = some c := by
  have hjs := lt_of_byteAt hc h0
  have hget : (js.take len)[pos]? = some c := by
    rw [byteAt, List.getElem?_append_left hjs] at hc
    rw [List.getElem?_take_of_lt hlt, hc]
  rw [← List.takeWhile_append_dropWhile (p := fun c : UInt8 => decide (c ≠ 0)) (l := js.take len)] at hget
  change (jsmnText js len ++ _)[pos]? = some c at hget
  rcases hw with hle | hge
  · rcases Nat.lt_or_eq_of_le hle with hlt' | heq
    · rwa [List.getElem?_append_left hlt'] at hget
    -- The first byte that is left out is the NUL.
    · rw [heq, List.getElem?_append_right le_rfl, Nat.sub_self, ← List.head?_eq_getElem?] at hget
      have := List.head?_dropWhile_not (fun c : UInt8 => decide (c ≠ 0)) (js.take len)
      rw [hget] at this
      simp [h0] at this
  · omega

theorem jsmnText_eq_none_of_zero (len : Nat) (hc : byteAt js pos = some 0) : (jsmnText js len)[pos]? = none := by
  cases h : (jsmnText js len)[pos]? with
  | none => rfl
  | some c =>
    obtain ⟨-, hb, h0⟩ := jsmnText_getElem? h
    rw [hc, Option.some.injEq] at hb
    exact absurd hb.symm h0

theorem jsmnText_eq_none_of_le (js : CStr) (h : len ≤ pos) : (jsmnText js len)[pos]? = none :=
  List.getElem?_eq_none ((length_jsmnText_le js len).trans h)

theorem Within.zero : Within js len 0 := .inl (Nat.zero_le _)

theorem Within.succ (hw : Within js len pos) (hc : byteAt js pos = some c) (h0 : c ≠ 0) :
    Within js len (pos + 1) := by
  by_cases hlt : pos < len
  · obtain ⟨hpos, -⟩ := List.getElem?_eq_some_iff.mp (hw.getElem? hlt hc h0)
    exact .inl hpos
  · exact .inr (by omega)

theorem Within.add {n : Nat} (hw : Within js len pos)
    (hn : ∀ d < n, ∃ c, byteAt js (pos + d) = some c ∧ c ≠ 0) : Within js len (pos + n) := by
  induction n with
  | zero => exact hw
  | succ n ih =>
    obtain ⟨c, hc, h0⟩ := hn n (Nat.lt_succ_self n)
    exact (ih fun d hd => hn d (Nat.lt_succ_of_lt hd)).succ hc h0

end Text

section Primitive

theorem isPrimitive_iff : isPrimitive c ↔ ¬endsPrimitive c ∧ ¬(c < 32 ∨ 127 ≤ c) := by
  simp [isPrimitive, and_assoc]

-- The loop ends where the bytes of the primitive do, or at a byte that none may have.
theorem jsmnPrimitiveLoop_spec (start : Nat) (hw : Within js len pos) (hlen : pos ≤ js.length)
    (hsteps : len - pos < steps) :
    ∃ e, pos ≤ e ∧
      (∀ k, pos ≤ k → k < e → ∃ c, (jsmnText js len)[k]? = some c ∧ isPrimitive c) ∧
      (jsmnPrimitiveLoop js len start steps pos = some (0, e) ∧
          (∀ c, (jsmnText js len)[e]? = some c → endsPrimitive c) ∨
        jsmnPrimitiveLoop js len start steps pos = some (JSMN_ERROR_INVAL, start) ∧
          ∃ c, (jsmnText js len)[e]? = some c ∧ ¬endsPrimitive c ∧ ¬isPrimitive c) := by
  induction steps generalizing pos with
  | zero => omega
  | succ steps ih =>
    unfold jsmnPrimitiveLoop
    by_cases hlt : pos < len
    · obtain ⟨c, hc⟩ := byteAt_isSome hlen
      simp only [hlt, if_true, hc, Option.bind_eq_bind, Option.bind_some]
      by_cases h0 : c = 0
      · refine ⟨pos, le_rfl, fun k hk hk' => by omega, .inl ⟨by rw [if_pos h0]; rfl, ?_⟩⟩
        intro c' hc'
        obtain ⟨-, hb, hne⟩ := jsmnText_getElem? hc'
        rw [hc, Option.some.injEq] at hb
        exact absurd (hb ▸ h0) hne
      · have htext := hw.getElem? hlt hc h0
        rw [if_neg h0]
        by_cases hends : endsPrimitive c
        · refine ⟨pos, le_rfl, fun k hk hk' => by omega, .inl ⟨by rw [if_pos hends]; rfl, ?_⟩⟩
          intro c' hc'
          rw [htext, Option.some.injEq] at hc'
          exact hc' ▸ hends
        · rw [if_neg hends]
          by_cases hbad : c < 32 ∨ 127 ≤ c
          · refine ⟨pos, le_rfl, fun k hk hk' => by omega, .inr ⟨by rw [if_pos hbad]; rfl, c, htext, hends, ?_⟩⟩
            rw [isPrimitive_iff]
            exact fun h => h.2 hbad
          · rw [if_neg hbad]
            obtain ⟨e, hle, hmid, hres⟩ := ih (hw.succ hc h0) (lt_of_byteAt hc h0) (by omega)
            refine ⟨e, by omega, ?_, hres⟩
            intro k hk hke
            rcases Nat.lt_or_eq_of_le hk with hlt' | rfl
            · exact hmid k hlt' hke
            · exact ⟨c, htext, isPrimitive_iff.mpr ⟨hends, hbad⟩⟩
    · rw [if_neg hlt]
      refine ⟨pos, le_rfl, fun k hk hk' => by omega, .inl ⟨rfl, ?_⟩⟩
      intro c hc
      exact absurd (jsmnText_getElem? hc).1 hlt

end Primitive

section Strings

theorem part_neg : JSMN_ERROR_PART < 0 := by decide

theorem inval_neg : JSMN_ERROR_INVAL < 0 := by decide

theorem ne_zero_of_isHexDigit (h : isHexDigit c) : c ≠ 0 := by
  rintro rfl
  exact absurd h (by decide)

theorem ne_zero_of_isEscape (h : isEscape c) : c ≠ 0 := by
  rintro rfl
  exact absurd h (by decide)

theorem jsmnHexLoop_spec (left : Nat) (hlen : pos ≤ js.length) :
    (∃ n < left, ∃ h p, jsmnHexLoop js left pos = some (JSMN_ERROR_INVAL, p) ∧
        (∀ d < n, ∃ h, byteAt js (pos + d) = some h ∧ isHexDigit h) ∧
        byteAt js (pos + n) = some h ∧ h ≠ 0 ∧ ¬isHexDigit h) ∨
      ∃ n ≤ left, jsmnHexLoop js left pos = some (0, pos + n) ∧ pos + n ≤ js.length ∧
        (∀ d < n, ∃ h, byteAt js (pos + d) = some h ∧ isHexDigit h) ∧
        (n < left → byteAt js (pos + n) = some 0) := by
  induction left generalizing pos with
  | zero => exact .inr ⟨0, le_rfl, rfl, hlen, fun d hd => by omega, fun h => by omega⟩
  | succ left ih =>
    unfold jsmnHexLoop
    obtain ⟨c, hc⟩ := byteAt_isSome hlen
    simp only [hc, Option.bind_eq_bind, Option.bind_some]
    by_cases h0 : c = 0
    · rw [if_pos h0]
      exact .inr ⟨0, Nat.zero_le _, rfl, hlen, fun d hd => by omega, fun _ => h0 ▸ hc⟩
    · rw [if_neg h0]
      by_cases hhex : isHexDigit c
      · simp only [hhex, Bool.not_true, Bool.false_eq_true, if_false]
        have hlen1 : pos + 1 ≤ js.length := lt_of_byteAt hc h0
        rcases ih hlen1 with ⟨n, hn, h, p, hres, hall, hb, hne, hbad⟩ | ⟨n, hn, hres, hle, hall, hnul⟩
        · refine .inl ⟨n + 1, by omega, h, p, hres, ?_, ?_, hne, hbad⟩
          · intro d hd
            cases d with
            | zero => exact ⟨c, hc, hhex⟩
            | succ d =>
              rw [← Nat.add_assoc, Nat.add_right_comm]
              exact hall d (by omega)
          · rw [← Nat.add_assoc, Nat.add_right_comm]
            exact hb
        · refine .inr ⟨n + 1, by omega, ?_, by omega, ?_, ?_⟩
          · rw [hres, Nat.add_assoc, Nat.add_comm 1 n]
          · intro d hd
            cases d with
            | zero => exact ⟨c, hc, hhex⟩
            | succ d =>
              rw [← Nat.add_assoc, Nat.add_right_comm]
              exact hall d (by omega)
          · intro hlt
            rw [← Nat.add_assoc, Nat.add_right_comm]
            exact hnul (by omega)
      · exact .inl ⟨0, Nat.succ_pos left, c, pos, by simp [hhex], fun d hd => by omega, hc, h0, hhex⟩

theorem jsmnHexLoop_of_digits {left : Nat}
    (hall : ∀ d < left, ∃ h, byteAt js (pos + d) = some h ∧ isHexDigit h) :
    jsmnHexLoop js left pos = some (0, pos + left) := by
  induction left generalizing pos with
  | zero => rfl
  | succ left ih =>
    obtain ⟨c, hc, hhex⟩ := hall 0 (Nat.succ_pos left)
    have hrest : ∀ d < left, ∃ h, byteAt js (pos + 1 + d) = some h ∧ isHexDigit h := by
      intro d hd
      rw [Nat.add_assoc, Nat.add_comm 1 d]
      exact hall (d + 1) (by omega)
    unfold jsmnHexLoop
    rw [Nat.add_zero] at hc
    simp only [hc, Option.bind_eq_bind, Option.bind_some, if_neg (ne_zero_of_isHexDigit hhex), hhex,
      Bool.not_true, Bool.false_eq_true, if_false]
    rw [ih hrest, Nat.add_assoc, Nat.add_comm 1 left]

theorem jsmnStringLoop_nul (hc : byteAt js pos = some 0) :
    jsmnStringLoop js len start (steps + 1) pos = some (JSMN_ERROR_PART, start) := by
  unfold jsmnStringLoop
  by_cases hlt : pos < len
  · simp [hlt, hc]
  · simp [hlt]

-- At the quote after the bytes of the string, or back at its start with the error for what broke it.
-- If the NUL comes before `len` is over, this is found in the text.
def StringEnds (js : CStr) (len start pos : Nat) (r : Int × Nat) : Prop :=
  (r.1 < 0 ∧ r.2 = start ∧ (js.length ≤ len →
      ∃ k, JsonChars (jsmnText js len) pos k ∧ JsonBreak (jsmnText js len) k r.1)) ∨
    (r.1 = 0 ∧ pos ≤ r.2 ∧ JsonChars (jsmnText js len) pos r.2 ∧ (jsmnText js len)[r.2]? = some 34)

namespace StringEnds

theorem broken {code : Int} (hneg : code < 0)
    (h : js.length ≤ len → JsonBreak (jsmnText js len) pos code) :
    StringEnds js len start pos (code, start) :=
  .inl ⟨hneg, rfl, fun hfull => ⟨pos, .done, h hfull⟩⟩

-- The bytes before `pos'` are ones of the string, unless `len` was over before them.
theorem before {r : Int × Nat} (h : StringEnds js len start pos' r) (hle : pos ≤ pos')
    (hchars : js.length ≤ len ∨ pos' < len →
      ∀ k, JsonChars (jsmnText js len) pos' k → JsonChars (jsmnText js len) pos k) :
    StringEnds js len start pos r := by
  rcases h with ⟨hneg, hstart, hbreak⟩ | ⟨h0, hle', hrest, hend⟩
  · refine .inl ⟨hneg, hstart, fun hfull => ?_⟩
    obtain ⟨k, hrest, hbreak⟩ := hbreak hfull
    exact ⟨k, hchars (.inl hfull) k hrest, hbreak⟩
  · have hk := (jsmnText_getElem? hend).1
    exact .inr ⟨h0, by omega, hchars (.inr (by omega)) _ hrest, hend⟩

end StringEnds

-- A digit that the loop over digits has read is one of the text.
theorem Within.digit {n : Nat} {h : UInt8} (hw : Within js len pos)
    (hall : ∀ d < n, ∃ h, byteAt js (pos + d) = some h ∧ isHexDigit h)
    (hb : byteAt js (pos + n) = some h) (h0 : h ≠ 0) (hlt : pos + n < len) :
    (jsmnText js len)[pos + n]? = some h :=
  (hw.add fun d hd => (hall d hd).imp fun _ hh => ⟨hh.1, ne_zero_of_isHexDigit hh.2⟩).getElem?
    hlt hb h0

theorem Within.digits {n : Nat} (hw : Within js len pos)
    (hall : ∀ d < n, ∃ h, byteAt js (pos + d) = some h ∧ isHexDigit h) (hlt : pos + n ≤ len) :
    ∀ d < n, ∃ h, (jsmnText js len)[pos + d]? = some h ∧ isHexDigit h := by
  intro d hd
  obtain ⟨h, hb, hhex⟩ := hall d hd
  exact ⟨h, hw.digit (fun d' hd' => hall d' (by omega)) hb (ne_zero_of_isHexDigit hhex) (by omega),
    hhex⟩

-- After a backslash and a `u`.
theorem jsmnStringLoop_unicode (hw : Within js len (pos + 1)) (hc : (jsmnText js len)[pos]? = some 92)
    (hu : byteAt js (pos + 1) = some 117) (hsteps : 0 < steps)
    (ih : ∀ pos', pos < pos' → Within js len pos' → pos' ≤ js.length →
      ∃ r, jsmnStringLoop js len start steps pos' = some r ∧ StringEnds js len start pos' r) :
    ∃ r, (do
      let r ← jsmnHexLoop js 4 (pos + 2)
      if r.1 < 0 then return (r.1, start)
      jsmnStringLoop js len start steps (r.2 - 1 + 1)) = some r ∧ StringEnds js len start pos r := by
  have hw2 := hw.succ hu (by decide)
  have hlen2 : pos + 2 ≤ js.length := lt_of_byteAt hu (by decide)
  rcases jsmnHexLoop_spec 4 hlen2 with ⟨n, hn, h, p, hres, hall, hb, hne, hhex⟩ |
    ⟨n, hn, hres, hle, hall, hnul⟩
  · rw [hres]
    refine ⟨_, rfl, .broken inval_neg fun hfull => ?_⟩
    have hjs := lt_of_byteAt hb hne
    exact .digit hc (hw.getElem? (by omega) hu (by decide)) hn
      (hw2.digit hall hb hne (by omega)) hhex
  · rw [hres]
    change ∃ r, jsmnStringLoop js len start steps (pos + 2 + n - 1 + 1) = some r ∧ _
    rw [Nat.sub_add_cancel (by omega)]
    by_cases hfour : n = 4
    · subst hfour
      obtain ⟨r, hr, hends⟩ := ih (pos + 6) (by omega)
        (hw2.add fun d hd => (hall d hd).imp fun _ hh => ⟨hh.1, ne_zero_of_isHexDigit hh.2⟩) hle
      refine ⟨r, hr, hends.before (by omega) fun hor k hrest => ?_⟩
      exact .unicode hc (hw.getElem? (by omega) hu (by decide)) (hw2.digits hall (by omega)) hrest
    -- The digits stop at the NUL, and so does the string.
    · cases steps with
      | zero => omega
      | succ steps =>
        have hend := jsmnText_eq_none_of_zero len (hnul (by omega))
        rw [jsmnStringLoop_nul (hnul (by omega))]
        refine ⟨_, rfl, .broken part_neg fun hfull => ?_⟩
        exact .short hc (hw.getElem? (by omega) hu (by decide)) (by omega)
          (hw2.digits hall (by omega)) hend

theorem jsmnStringLoop_spec (start : Nat) (hw : Within js len pos) (hlen : pos ≤ js.length)
    (hsteps : len - pos < steps) :
    ∃ r, jsmnStringLoop js len start steps pos = some r ∧ StringEnds js len start pos r := by
  induction steps generalizing pos with
  | zero => omega
  | succ steps ih =>
    unfold jsmnStringLoop
    by_cases hlt : pos < len
    · obtain ⟨c, hc⟩ := byteAt_isSome hlen
      simp only [hlt, if_true, hc, Option.bind_eq_bind, Option.bind_some]
      by_cases h0 : c = 0
      · rw [if_pos h0]
        have hend := jsmnText_eq_none_of_zero len (h0 ▸ hc)
        exact ⟨_, rfl, .broken part_neg fun _ => .ended hend⟩
      · have htext := hw.getElem? hlt hc h0
        have hw1 := hw.succ hc h0
        have hlen1 := lt_of_byteAt hc h0
        rw [if_neg h0]
        by_cases hquote : c = 34
        · rw [if_pos hquote]
          exact ⟨_, rfl, .inr ⟨rfl, le_rfl, .done, hquote ▸ htext⟩⟩
        · rw [if_neg hquote]
          by_cases hslash : c = 92
          · rw [if_pos hslash]
            subst hslash
            obtain ⟨e, he⟩ := byteAt_isSome hlen1
            simp only [he, Option.bind_some]
            by_cases hesc : isEscape e
            · have he0 := ne_zero_of_isEscape hesc
              have hjs := lt_of_byteAt he he0
              rw [if_pos hesc]
              obtain ⟨r, hr, hends⟩ := ih (hw1.succ he he0) hjs (by omega)
              refine ⟨r, hr, hends.before (by omega) fun hor k hrest => ?_⟩
              exact .escape htext (hw1.getElem? (by omega) he he0) hesc hrest
            · rw [if_neg hesc]
              by_cases hu : e = 117
              · subst hu
                rw [if_pos rfl]
                exact jsmnStringLoop_unicode hw1 htext he (by omega)
                  fun pos' hpos' hw' hlen' => ih hw' hlen' (by omega)
              · rw [if_neg hu]
                refine ⟨_, rfl, .broken inval_neg fun hfull => ?_⟩
                by_cases he0 : e = 0
                · exact .slash htext (jsmnText_eq_none_of_zero len (he0 ▸ he))
                · have hjs := lt_of_byteAt he he0
                  exact .escape htext (hw1.getElem? (by omega) he he0) hesc hu
          · rw [if_neg hslash]
            obtain ⟨r, hr, hends⟩ := ih hw1 hlen1 (by omega)
            exact ⟨r, hr, hends.before (by omega) fun _ k hrest => .plain htext hquote hslash hrest⟩
    · rw [if_neg hlt]
      have hend := jsmnText_eq_none_of_le js (Nat.le_of_not_lt hlt)
      exact ⟨_, rfl, .broken part_neg fun _ => .ended hend⟩

theorem jsmnStringLoop_of_chars (h : JsonChars (jsmnText js len) pos k)
    (hk : (jsmnText js len)[k]? = some 34) (hsteps : len - pos < steps) :
    jsmnStringLoop js len start steps pos = some (0, k) := by
  induction h generalizing steps with
  | @done i =>
    obtain ⟨hlt, hc, -⟩ := jsmnText_getElem? hk
    cases steps with
    | zero => omega
    | succ steps => simp [jsmnStringLoop, hlt, hc]
  | @plain i j c hc hquote hslash rest ih =>
    obtain ⟨hlt, hc, h0⟩ := jsmnText_getElem? hc
    cases steps with
    | zero => omega
    | succ steps => simp [jsmnStringLoop, hlt, hc, h0, hquote, hslash, ih hk (by omega : len - (i + 1) < steps)]
  | @escape i j e hc he hesc rest ih =>
    obtain ⟨hlt, hc, h0⟩ := jsmnText_getElem? hc
    obtain ⟨-, he, -⟩ := jsmnText_getElem? he
    cases steps with
    | zero => omega
    | succ steps => simp [jsmnStringLoop, hlt, hc, he, hesc, ih hk (by omega : len - (i + 2) < steps)]
  | @unicode i j hc hu hhex rest ih =>
    obtain ⟨hlt, hc, h0⟩ := jsmnText_getElem? hc
    obtain ⟨-, hu, -⟩ := jsmnText_getElem? hu
    have hloop : jsmnHexLoop js 4 (i + 2) = some (0, i + 2 + 4) := jsmnHexLoop_of_digits fun d hd =>
      (hhex d hd).imp fun h hh => ⟨(jsmnText_getElem? hh.1).2.1, hh.2⟩
    have hesc : isEscape 117 = false := by decide
    cases steps with
    | zero => omega
    | succ steps => simp [jsmnStringLoop, hlt, hc, hu, hesc, hloop, ih hk (by omega : len - (i + 6) < steps)]

end Strings

end Adventure

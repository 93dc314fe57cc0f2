import Adventure.Jsmn.Tokens
import Mathlib.Logic.Relation

namespace Adventure

open Nest Relation

variable {js js' : CStr} {len len' i j j' next : Nat} {c : UInt8} {m m' : JsonMark} {s : JsmnState}

section Words

variable {text text' : List UInt8}

theorem mem_brackets {type : JsmnType} {o c : UInt8} (h : (type, o, c) ∈ brackets) :
    type = .object ∧ o = 123 ∧ c = 125 ∨ type = .array ∧ o = 91 ∧ c = 93 := by
  simpa [brackets] using h

theorem byte_unique {c c' : UInt8} (h : text[i]? = some c) (h' : text[i]? = some c') : c = c' :=
  Option.some.inj (h.symm.trans h')

theorem JsonChars.le (h : JsonChars text i j) : i ≤ j := by
  induction h with
  | done => exact le_rfl
  | plain _ _ _ _ ih => omega
  | escape _ _ _ _ ih => omega
  | unicode _ _ _ _ ih => omega

theorem JsonWord.lt (h : JsonWord text i m j) : i < j := by
  cases h with
  | enter => exact Nat.lt_succ_self i
  | leave => exact Nat.lt_succ_self i
  | string hi hchars hj => exact Nat.lt_succ_of_lt hchars.le
  | primitive hi hc hlt => exact hlt

-- A string ends at the first quote that is not escaped.
theorem JsonChars.unique (h : JsonChars text i j) (hj : text[j]? = some 34)
    (h' : JsonChars text i j') (hj' : text[j']? = some 34) : j = j' := by
  induction h with
  | done =>
    cases h' with
    | done => rfl
    | plain hc hquote => exact absurd (byte_unique hc hj) hquote
    | escape hc => exact absurd (byte_unique hc hj) (by decide)
    | unicode hc => exact absurd (byte_unique hc hj) (by decide)
  | plain hc hquote hslash rest ih =>
    cases h' with
    | done => exact absurd (byte_unique hc hj') hquote
    | plain _ _ _ rest' => exact ih hj rest'
    | escape hc' => exact absurd (byte_unique hc hc') hslash
    | unicode hc' => exact absurd (byte_unique hc hc') hslash
  | escape hc he hesc rest ih =>
    cases h' with
    | done => exact absurd (byte_unique hc hj') (by decide)
    | plain hc' _ hslash => exact absurd (byte_unique hc' hc) hslash
    | escape _ _ _ rest' => exact ih hj rest'
    | unicode _ hu => exact absurd (byte_unique he hu ▸ hesc) (by decide)
  | unicode hc hu hhex rest ih =>
    cases h' with
    | done => exact absurd (byte_unique hc hj') (by decide)
    | plain hc' _ hslash => exact absurd (byte_unique hc' hc) hslash
    | escape _ he hesc => exact absurd (byte_unique he hu ▸ hesc) (by decide)
    | unicode _ _ _ rest' => exact ih hj rest'

theorem isPrimitive_not_bracket {c : UInt8} (h : isPrimitive c) : c ≠ 125 ∧ c ≠ 93 := by
  constructor
  · rintro rfl
    exact absurd h (by decide)
  · rintro rfl
    exact absurd h (by decide)

theorem primitive_end_le (hmid : ∀ k, i ≤ k → k < j → ∃ c, text[k]? = some c ∧ isPrimitive c)
    (hi : i ≤ j') (hend : ∀ c, text[j']? = some c → endsPrimitive c) : j ≤ j' := by
  by_contra hlt
  obtain ⟨c, hc, hprim⟩ := hmid j' hi (by omega)
  exact (isPrimitive_iff.mp hprim).1 (hend c hc)

-- At a position stands one mark at most.
theorem JsonWord.unique (h : JsonWord text i m j) (h' : JsonWord text i m' j') :
    m = m' ∧ j = j' := by
  cases h with
  | enter => cases h' <;> grind [isPrimitive_not_bracket, mem_brackets]
  | leave => cases h' <;> grind [isPrimitive_not_bracket, mem_brackets]
  | string => cases h' <;> grind [isPrimitive_not_bracket, mem_brackets, JsonChars.unique]
  | primitive hi hc hlt hmid hend =>
    cases h' with
    | primitive _ _ hlt' hmid' hend' =>
      have hj := primitive_end_le hmid (Nat.le_of_lt hlt') hend'
      have hj' := primitive_end_le hmid' (Nat.le_of_lt hlt) hend
      rw [Nat.le_antisymm hj hj']
      exact ⟨rfl, rfl⟩
    | _ => grind [isPrimitive_not_bracket, mem_brackets]

theorem mem_isBlank {c : UInt8} (h : isBlank c) :
    c = 9 ∨ c = 13 ∨ c = 10 ∨ c = 58 ∨ c = 44 ∨ c = 32 := by
  simpa [isBlank] using h

theorem isBlank_endsPrimitive {c : UInt8} (h : isBlank c) : endsPrimitive c := by
  rcases mem_isBlank h with rfl | rfl | rfl | rfl | rfl | rfl <;> rfl

theorem endsPrimitive_cases {c : UInt8} (h : endsPrimitive c) : isBlank c ∨ c = 125 ∨ c = 93 := by
  simp only [endsPrimitive, isBlank, List.mem_cons, decide_eq_true_eq, List.not_mem_nil] at h ⊢
  tauto

-- A blank stands for nothing.
theorem JsonWord.not_blank (h : JsonWord text i m j) {c : UInt8} (hc : text[i]? = some c) :
    ¬isBlank c := by
  intro hblank
  cases h with
  | primitive hi hmem hlt hmid hend =>
    obtain ⟨c', hc', hprim⟩ := hmid i le_rfl hlt
    rw [byte_unique hc' hc] at hprim
    exact (isPrimitive_iff.mp hprim).1 (isBlank_endsPrimitive hblank)
  | _ => grind [mem_isBlank, mem_brackets]

end Words

section Switch

theorem jsmnSwitch_blank (h : isBlank c) : jsmnSwitch js len c s = some (0, s) := by
  rcases mem_isBlank h with rfl | rfl | rfl | rfl | rfl | rfl <;> rfl

theorem setPos_self (s : JsmnState) : s.setPos s.parser.pos = s := rfl

theorem jsmnParseString_chars {k : Nat}
    (h : JsonChars (jsmnText js len) (s.parser.pos + 1) k) (hk : (jsmnText js len)[k]? = some 34) :
    jsmnParseString js len s = some (jsmnStore ⟨.string, s.parser.pos + 1, k⟩ k s) := by
  unfold jsmnStore
  simp only [jsmnParseString, jsmnStringLoop_of_chars h hk
    (by omega : len - (s.parser.pos + 1) < len - s.parser.pos + 1)]
  cases s.tokens with
  | none => rfl
  | some tokens =>
    simp only [Option.bind_eq_bind, Option.bind_some]
    cases jsmnAllocToken s.parser tokens <;> rfl

theorem jsmnParsePrimitive_word {e : Nat} (hlt : s.parser.pos < e)
    (hmid : ∀ k, s.parser.pos ≤ k → k < e → ∃ c, (jsmnText js len)[k]? = some c ∧ isPrimitive c)
    (hend : ∀ c, (jsmnText js len)[e]? = some c → endsPrimitive c) :
    jsmnParsePrimitive js len s = some (jsmnStore ⟨.primitive, s.parser.pos, e⟩ (e - 1) s) := by
  obtain ⟨c, hc, -⟩ := hmid _ le_rfl hlt
  obtain ⟨hpos, -⟩ := List.getElem?_eq_some_iff.mp hc
  have hw : Within js len s.parser.pos := .inl (Nat.le_of_lt hpos)
  have hjs := length_jsmnText_le_length js len
  obtain ⟨e', hle, hmid', ⟨hloop, hend'⟩ | ⟨-, c, hc, hends, hprim⟩⟩ :=
    jsmnPrimitiveLoop_spec s.parser.pos hw (by omega)
      (by omega : len - s.parser.pos < len - s.parser.pos + 1)
  · have h1 := primitive_end_le hmid hle hend'
    have h2 := primitive_end_le hmid' (Nat.le_of_lt hlt) hend
    obtain rfl := Nat.le_antisymm h1 h2
    unfold jsmnStore
    simp only [jsmnParsePrimitive, hloop]
    cases s.tokens with
    | none => rfl
    | some tokens =>
      simp only [Option.bind_eq_bind, Option.bind_some]
      cases jsmnAllocToken s.parser tokens <;> rfl
  -- The loop does not stop at a byte of the primitive, nor behind it.
  · rcases Nat.lt_or_ge e' e with hlt' | hge
    · obtain ⟨c', hc', hprim'⟩ := hmid e' hle hlt'
      exact absurd (byte_unique hc' hc ▸ hprim') hprim
    · have h2 := primitive_end_le hmid' (Nat.le_of_lt hlt) hend
      obtain rfl := Nat.le_antisymm h2 hge
      exact absurd (hend c hc) hends

theorem jsmnSwitch_word (h : JsonWord (jsmnText js len) s.parser.pos m next)
    (hc : (jsmnText js len)[s.parser.pos]? = some c) :
    jsmnSwitch js len c s = jsmnPut m next s := by
  cases h with
  | enter hb hi =>
    obtain rfl := byte_unique hc hi
    rcases mem_brackets hb with ⟨rfl, rfl, -⟩ | ⟨rfl, rfl, -⟩ <;> rfl
  | leave hb hi =>
    obtain rfl := byte_unique hc hi
    rcases mem_brackets hb with ⟨rfl, -, rfl⟩ | ⟨rfl, -, rfl⟩ <;> rfl
  | string hi hchars hj =>
    obtain rfl := byte_unique hc hi
    have hparse := jsmnParseString_chars hchars hj
    simp [jsmnSwitch, hparse, jsmnPut]
  | primitive hi hmem hlt hmid hend =>
    obtain rfl := byte_unique hc hi
    obtain ⟨c', hc', hprim⟩ := hmid _ le_rfl hlt
    rw [byte_unique hc' hc] at hprim
    have hne := isPrimitive_not_bracket hprim
    have hblank : ¬isBlank c := fun hb => (isPrimitive_iff.mp hprim).1 (isBlank_endsPrimitive hb)
    have hparse := jsmnParsePrimitive_word hlt hmid hend
    simp only [List.mem_cons, List.not_mem_nil, or_false, not_or] at hmem
    simp [jsmnSwitch, hmem, hne, hblank, hparse, jsmnPut]

-- The error where no mark stands. It is found in the text alone.
def jsmnBad (js : CStr) (len pos : Nat) : Option Int := do
  let c ← byteAt js pos
  if c = 34 then return (← jsmnStringLoop js len pos (len - pos + 1) (pos + 1)).1
  else return JSMN_ERROR_INVAL

-- A byte that nothing begins with is not of a primitive, or the primitive has such a byte.
theorem jsmnPrimitive_broken (hc : (jsmnText js len)[i]? = some c) (hblank : ¬isBlank c)
    (hquote : c ≠ 34) (hnone : ∀ m next, ¬JsonWord (jsmnText js len) i m next) :
    (c ≠ 123 ∧ c ≠ 91) ∧ (c ≠ 125 ∧ c ≠ 93) ∧
      jsmnPrimitiveLoop js len i (len - i + 1) i = some (JSMN_ERROR_INVAL, i) ∧
      ∃ e c', i ≤ e ∧
        (∀ k, i ≤ k → k < e → ∃ c, (jsmnText js len)[k]? = some c ∧ isPrimitive c) ∧
        (jsmnText js len)[e]? = some c' ∧ ¬endsPrimitive c' ∧ ¬isPrimitive c' := by
  obtain ⟨hpos, -⟩ := List.getElem?_eq_some_iff.mp hc
  have hw : Within js len i := .inl (Nat.le_of_lt hpos)
  have hjs := length_jsmnText_le_length js len
  have hobject : (JsmnType.object, 123, 125) ∈ brackets := by decide
  have harray : (JsmnType.array, 91, 93) ∈ brackets := by decide
  have hopen : c ≠ 123 ∧ c ≠ 91 := by
    constructor
    · rintro rfl
      exact hnone _ _ (.enter hobject hc)
    · rintro rfl
      exact hnone _ _ (.enter harray hc)
  have hclose : c ≠ 125 ∧ c ≠ 93 := by
    constructor
    · rintro rfl
      exact hnone _ _ (.leave hobject hc)
    · rintro rfl
      exact hnone _ _ (.leave harray hc)
  obtain ⟨e, hle, hmid, ⟨-, hend⟩ | ⟨hloop, c', hc', hends, hprim⟩⟩ :=
    jsmnPrimitiveLoop_spec i hw (by omega) (by omega : len - i < len - i + 1)
  · rcases Nat.lt_or_eq_of_le hle with hlt' | rfl
    · exact absurd (.primitive hc (by simp [hopen, hquote]) hlt' hmid hend) (hnone _ _)
    · rcases endsPrimitive_cases (hend c hc) with hb | rfl | rfl
      · exact absurd hb hblank
      · exact absurd rfl hclose.1
      · exact absurd rfl hclose.2
  · exact ⟨hopen, hclose, hloop, e, c', hle, hmid, hc', hends, hprim⟩

-- The parser stays where it is then.
theorem jsmnSwitch_none (hc : (jsmnText js len)[s.parser.pos]? = some c) (hblank : ¬isBlank c)
    (hnone : ∀ m next, ¬JsonWord (jsmnText js len) s.parser.pos m next) :
    ∃ code, jsmnBad js len s.parser.pos = some code ∧ code < 0 ∧
      jsmnSwitch js len c s = some (code, s) := by
  obtain ⟨hlt, hbyte, h0⟩ := jsmnText_getElem? hc
  obtain ⟨hpos, -⟩ := List.getElem?_eq_some_iff.mp hc
  have hw : Within js len s.parser.pos := .inl (Nat.le_of_lt hpos)
  have hjs := length_jsmnText_le_length js len
  by_cases hquote : c = 34
  · subst hquote
    obtain ⟨r, hr, ⟨hneg, hstart, -⟩ | ⟨-, -, hchars, hend⟩⟩ := jsmnStringLoop_spec
      s.parser.pos (hw.succ hbyte h0) (by omega)
      (by omega : len - (s.parser.pos + 1) < len - s.parser.pos + 1)
    · refine ⟨r.1, ?_, hneg, ?_⟩
      · simp [jsmnBad, hbyte, hr]
      · simp [jsmnSwitch, jsmnParseString, hr, hneg, jsmnCounted, hstart, setPos_self]
    · exact absurd (.string hc hchars hend) (hnone _ _)
  · obtain ⟨hopen, hclose, hloop, -⟩ := jsmnPrimitive_broken hc hblank hquote hnone
    refine ⟨JSMN_ERROR_INVAL, ?_, inval_neg, ?_⟩
    · simp [jsmnBad, hbyte, hquote]
    · simp [jsmnSwitch, hopen, hclose, hquote, hblank, jsmnParsePrimitive, hloop, jsmnCounted,
        setPos_self, inval_neg]

end Switch

section Run

-- A position in the text, and what was read before it.
abbrev JsonPoint := Nat × JsonReading

-- One step of reading a text, as long as there is room for what is read.
inductive JsonStep (text : List UInt8) (room : Nat) : JsonPoint → JsonPoint → Prop
  | blank {i : Nat} {r : JsonReading} {c : UInt8} (hc : text[i]? = some c) (hblank : isBlank c) :
      JsonStep text room (i, r) (i + 1, r)
  | word {i j : Nat} {r r' : JsonReading} {m : JsonMark} (hword : JsonWord text i m j)
      (htake : r.take jsonClose m = some r') (hroom : r'.count ≤ room) :
      JsonStep text room (i, r) (j, r')

-- Why the parser ends its loop at a point, and with which code.
inductive JsmnStop (js : CStr) (len room : Nat) : JsonPoint → Int → Prop
  | done {r : JsonReading} : JsmnStop js len room ((jsmnText js len).length, r) 0
  | bad {i : Nat} {r : JsonReading} {c : UInt8} {code : Int} (hc : (jsmnText js len)[i]? = some c)
      (hblank : ¬isBlank c) (hnone : ∀ m j, ¬JsonWord (jsmnText js len) i m j)
      (hcode : jsmnBad js len i = some code) (hneg : code < 0) : JsmnStop js len room (i, r) code
  | mismatch {i j : Nat} {r : JsonReading} {m : JsonMark} (hword : JsonWord (jsmnText js len) i m j)
      (htake : r.take jsonClose m = none) : JsmnStop js len room (i, r) JSMN_ERROR_INVAL
  | full {i j : Nat} {r r' : JsonReading} {m : JsonMark} (hword : JsonWord (jsmnText js len) i m j)
      (htake : r.take jsonClose m = some r') (hroom : room < r'.count) :
      JsmnStop js len room (i, r) JSMN_ERROR_NOMEM

variable {text : List UInt8} {r r' : JsonReading} {free : List JsmnTok} {p q q' : JsonPoint}
  {room steps : Nat} {code code' : Int}

theorem JsonWord.getElem? (h : JsonWord text i m j) : ∃ c, text[i]? = some c := by
  cases h with
  | enter _ hi => exact ⟨_, hi⟩
  | leave _ hi => exact ⟨_, hi⟩
  | string hi => exact ⟨_, hi⟩
  | primitive hi => exact ⟨_, hi⟩

theorem JsonWord.le_length (h : JsonWord text i m j) : j ≤ text.length := by
  cases h with
  | enter _ hi => exact (List.getElem?_eq_some_iff.mp hi).1
  | leave _ hi => exact (List.getElem?_eq_some_iff.mp hi).1
  | string _ _ hj => exact (List.getElem?_eq_some_iff.mp hj).1
  | primitive _ _ hlt hmid =>
    obtain ⟨c, hc, -⟩ := hmid (j - 1) (by omega) (by omega)
    have := (List.getElem?_eq_some_iff.mp hc).1
    omega

theorem JsonStep.unique (h : JsonStep text room p q) (h' : JsonStep text room p q') : q = q' := by
  cases h with
  | blank hc hblank =>
    cases h' with
    | blank => rfl
    | word hword => exact absurd hblank (hword.not_blank hc)
  | word hword htake =>
    cases h' with
    | blank hc hblank => exact absurd hblank (hword.not_blank hc)
    | word hword' htake' =>
      obtain ⟨rfl, rfl⟩ := hword.unique hword'
      rw [Option.some.inj (htake.symm.trans htake')]

theorem JsmnStop.not_step (h : JsmnStop js len room p code) :
    ¬JsonStep (jsmnText js len) room p q := by
  intro hstep
  cases h with
  | done =>
    cases hstep with
    | blank hc => simp at hc
    | word hword =>
      obtain ⟨c, hc⟩ := hword.getElem?
      simp at hc
  | bad hc hblank hnone =>
    cases hstep with
    | blank hc' hblank' => exact hblank (byte_unique hc hc' ▸ hblank')
    | word hword => exact hnone _ _ hword
  | mismatch hword htake =>
    cases hstep with
    | blank hc hblank => exact hword.not_blank hc hblank
    | word hword' htake' =>
      obtain ⟨rfl, -⟩ := hword.unique hword'
      rw [htake] at htake'
      cases htake'
  | full hword htake hroom =>
    cases hstep with
    | blank hc hblank => exact hword.not_blank hc hblank
    | word hword' htake' hroom' =>
      obtain ⟨rfl, -⟩ := hword.unique hword'
      rw [Option.some.inj (htake.symm.trans htake')] at hroom
      omega

theorem JsmnStop.unique (h : JsmnStop js len room p code) (h' : JsmnStop js len room p code') :
    code = code' := by
  cases h with
  | done => cases h' <;> grind [JsonWord.getElem?]
  | bad hc hblank hnone hcode =>
    cases h' with
    | bad _ _ _ hcode' => exact Option.some.inj (hcode.symm.trans hcode')
    | _ => grind
  | mismatch hword htake =>
    cases h' with
    | full hword' htake' =>
      obtain ⟨rfl, -⟩ := hword.unique hword'
      rw [htake] at htake'
      cases htake'
    | _ => grind [JsonWord.getElem?]
  | full hword htake =>
    cases h' with
    | mismatch hword' htake' =>
      obtain ⟨rfl, -⟩ := hword.unique hword'
      rw [htake] at htake'
      cases htake'
    | _ => grind [JsonWord.getElem?]

-- There is one way to read on, and one end of it.
theorem JsmnStop.reached_unique {p q q' : JsonPoint}
    (hq : ReflTransGen (JsonStep (jsmnText js len) room) p q) (h : JsmnStop js len room q code)
    (hq' : ReflTransGen (JsonStep (jsmnText js len) room) p q') (h' : JsmnStop js len room q' code') :
    q = q' ∧ code = code' := by
  have heq : q = q' := by
    rcases hq.total_of_right_unique (fun _ _ _ h h' => h.unique h') hq' with hqq | hqq
    · rcases hqq.cases_head with rfl | ⟨_, hstep, -⟩
      · rfl
      · exact absurd hstep h.not_step
    · rcases hqq.cases_head with rfl | ⟨_, hstep, -⟩
      · rfl
      · exact absurd hstep h'.not_step
  subst heq
  exact ⟨rfl, h.unique h'⟩

theorem TokensHold.setPos (h : TokensHold s r free) (pos : Nat) : TokensHold (s.setPos pos) r free :=
  ⟨h.tokens, h.toknext, h.toksuper⟩

-- At a mark, the tokens follow what is read.
theorem TokensHold.put_some (h : TokensHold s r free)
    (hword : JsonWord text s.parser.pos m j) (htake : r.take jsonClose m = some r')
    (hroom : m.count ≤ free.length) :
    ∃ s', jsmnPut m j s = some (0, s') ∧ s'.parser.pos + 1 = j ∧ s'.count = s.count + m.count ∧
      TokensHold s' r' (free.drop m.count) := by
  have hlt := hword.lt
  cases m with
  | leaf a =>
    obtain rfl := Option.some.inj htake
    cases free with
    | nil => simp [Mark.count] at hroom
    | cons tok free =>
      obtain ⟨s', hput, hpos, hcount, hh⟩ := h.leaf_cons a (j - 1)
      exact ⟨s', hput, by omega, hcount, hh⟩
  | enter o =>
    obtain rfl := Option.some.inj htake
    cases hword
    cases free with
    | nil => simp [Mark.count] at hroom
    | cons tok free =>
      rename_i type _ _ _ _
      obtain ⟨s', hput, hpos, hcount, hh⟩ := h.enter_cons type
      exact ⟨s', hput, by omega, hcount, hh⟩
  | leave c =>
    cases hword
    obtain ⟨s', hput, hpos, hcount, hh⟩ := h.leave_some htake
    exact ⟨s', hput, by omega, hcount, hh⟩

-- The marks that take no slot always have room.
theorem TokensHold.put_full (h : TokensHold s r free) (hroom : free.length < m.count) (next : Nat) :
    ∃ s', jsmnPut m next s = some (JSMN_ERROR_NOMEM, s') ∧ s'.parser = s.parser ∧
      s'.tokens = s.tokens := by
  cases m with
  | leaf a =>
    obtain rfl : free = [] := by simpa [Mark.count] using hroom
    exact ⟨s, h.leaf_nil a _, rfl, rfl⟩
  | enter o =>
    obtain rfl : free = [] := by simpa [Mark.count] using hroom
    exact ⟨_, h.enter_nil o.1, rfl, rfl⟩
  | leave c => cases hroom

theorem TokensHold.put_none (h : TokensHold s r free) (htake : r.take jsonClose m = none)
    (next : Nat) : jsmnPut m next s = some (JSMN_ERROR_INVAL, s) := by
  cases m with
  | leaf a => cases htake
  | enter o => cases htake
  | leave c => exact h.leave_none htake

theorem jsmnLoop_succ (hc : (jsmnText js len)[s.parser.pos]? = some c) (steps : Nat) :
    jsmnLoop js len (steps + 1) s = (jsmnSwitch js len c s).bind fun r =>
      if r.1 < 0 then some r else jsmnLoop js len steps (r.2.setPos (r.2.parser.pos + 1)) := by
  obtain ⟨hlt, hbyte, h0⟩ := jsmnText_getElem? hc
  rw [jsmnLoop, if_pos hlt, hbyte]
  simp only [Option.bind_eq_bind, Option.bind_some, if_neg h0]
  rfl

theorem jsmnLoop_end (hpos : s.parser.pos = (jsmnText js len).length) (steps : Nat) :
    jsmnLoop js len (steps + 1) s = some (0, s) := by
  rw [jsmnLoop]
  by_cases hlt : s.parser.pos < len
  · have hjs := length_jsmnText_le_length js len
    obtain ⟨c, hc⟩ := byteAt_isSome (by omega : s.parser.pos ≤ js.length)
    have h0 : c = 0 := by
      by_contra h0
      have hget := Within.getElem? (.inl (Nat.le_of_eq hpos)) hlt hc h0
      rw [hpos] at hget
      simp at hget
    simp only [if_pos hlt, hc, Option.bind_eq_bind, Option.bind_some, if_pos h0]
    rfl
  · rw [if_neg hlt]

-- A loop from `s` ends in a state that holds the last point there is to reach.
def LoopReads (js : CStr) (len : Nat) (loop : Option (Int × JsmnState)) (s : JsmnState)
    (r : JsonReading) (free : List JsmnTok) : Prop :=
  ∃ code s' r', loop = some (code, s') ∧
    ReflTransGen (JsonStep (jsmnText js len) (r.count + free.length)) (s.parser.pos, r)
      (s'.parser.pos, r') ∧
    JsmnStop js len (r.count + free.length) (s'.parser.pos, r') code ∧
    TokensHold s' r' (free.drop (r'.count - r.count)) ∧ r.count ≤ r'.count ∧
    (code = 0 → s'.count + r.count = s.count + r'.count)

theorem LoopReads.stop {s' : JsmnState} (h : TokensHold s r free)
    (hstop : JsmnStop js len (r.count + free.length) (s.parser.pos, r) code)
    (hparser : s'.parser = s.parser) (htokens : s'.tokens = s.tokens)
    (hcount : code = 0 → s'.count = s.count) : LoopReads js len (some (code, s')) s r free := by
  refine ⟨code, s', r, rfl, hparser ▸ .refl, hparser ▸ hstop, ?_, le_rfl, fun h0 => by rw [hcount h0]⟩
  rw [Nat.sub_self, List.drop_zero]
  exact ⟨htokens ▸ h.tokens, hparser ▸ h.toknext, hparser ▸ h.toksuper⟩

theorem LoopReads.step {loop : Option (Int × JsmnState)} (s' : JsmnState)
    (hstep : JsonStep (jsmnText js len) (r.count + free.length) (s.parser.pos, r) (j, r'))
    (hj : s'.parser.pos = j) (hcount : r.count ≤ r'.count) (hroom : r'.count ≤ r.count + free.length)
    (hcounted : s'.count + r.count = s.count + r'.count)
    (h : LoopReads js len loop s' r' (free.drop (r'.count - r.count))) :
    LoopReads js len loop s r free := by
  obtain ⟨code, s'', r'', hloop, hreach, hstop, hhold, hcount', hcounted'⟩ := h
  have hroom' : r'.count + (free.drop (r'.count - r.count)).length = r.count + free.length := by
    rw [List.length_drop]
    omega
  have hsub : r'.count - r.count + (r''.count - r'.count) = r''.count - r.count := by omega
  rw [hroom', hj] at hreach
  rw [hroom'] at hstop
  rw [List.drop_drop, hsub] at hhold
  refine ⟨code, s'', r'', hloop, .head hstep hreach, hstop, hhold, by omega, fun h0 => ?_⟩
  have := hcounted' h0
  omega

-- The loop of jsmn_parse reads as far as the text and the array allow.
theorem TokensHold.run (h : TokensHold s r free) (hpos : s.parser.pos ≤ (jsmnText js len).length)
    (hsteps : len - s.parser.pos < steps) :
    LoopReads js len (jsmnLoop js len steps s) s r free := by
  induction steps generalizing s r free with
  | zero => omega
  | succ steps ih =>
    rcases Nat.lt_or_eq_of_le hpos with hlt | heq
    · obtain ⟨c, hc⟩ : ∃ c, (jsmnText js len)[s.parser.pos]? = some c :=
        ⟨_, List.getElem?_eq_getElem hlt⟩
      have hlen := length_jsmnText_le js len
      rw [jsmnLoop_succ hc]
      by_cases hblank : isBlank c
      · rw [jsmnSwitch_blank hblank]
        have hhold : TokensHold s r (free.drop (r.count - r.count)) := by simpa using h
        refine LoopReads.step (s.setPos (s.parser.pos + 1)) (.blank hc hblank) rfl le_rfl (by omega) rfl ?_
        exact ih (hhold.setPos _) hlt (by change len - (s.parser.pos + 1) < steps; omega)
      by_cases hword : ∃ m j, JsonWord (jsmnText js len) s.parser.pos m j
      · obtain ⟨m, j, hword⟩ := hword
        rw [jsmnSwitch_word hword hc]
        cases htake : r.take jsonClose m with
        | none =>
          rw [h.put_none htake]
          exact LoopReads.stop h (.mismatch hword htake) rfl rfl fun _ => rfl
        | some r' =>
          have hcount := Reading.count_take htake
          rcases Nat.lt_or_ge free.length m.count with hfull | hroom
          · obtain ⟨s', hput, hparser, htokens⟩ := h.put_full hfull j
            rw [hput]
            exact LoopReads.stop h (.full hword htake (by omega)) hparser htokens
              fun h0 => absurd h0 (by decide)
          · obtain ⟨s', hput, hj, hcounted, hhold⟩ := h.put_some hword htake hroom
            have hsub : r'.count - r.count = m.count := by omega
            have hlt' := hword.lt
            rw [hput]
            refine LoopReads.step (s'.setPos (s'.parser.pos + 1)) (.word hword htake (by omega)) hj (by omega)
              (by omega) ?_ ?_
            · change s'.count + r.count = s.count + r'.count
              omega
            · exact ih (hsub ▸ hhold.setPos _) (hj ▸ hword.le_length)
                (by change len - (s'.parser.pos + 1) < steps; omega)
      · have hnone : ∀ m j, ¬JsonWord (jsmnText js len) s.parser.pos m j :=
          fun m j hw => hword ⟨m, j, hw⟩
        obtain ⟨code, hcode, hneg, hswitch⟩ := jsmnSwitch_none hc hblank hnone
        rw [hswitch, Option.bind_some, if_pos hneg]
        exact LoopReads.stop h (.bad hc hblank hnone hcode hneg) rfl rfl fun _ => rfl
    · rw [jsmnLoop_end heq]
      refine LoopReads.stop h ?_ rfl rfl fun _ => rfl
      rw [heq]
      exact .done

end Run

end Adventure

import Adventure.Jsmn.Theorems

namespace Adventure

open Nest Relation

variable {js js' : CStr} {len len' i j k : Nat} {text text' : List UInt8} {ms : List JsonMark}
  {m : JsonMark} {r r' : JsonReading} {f : JsonForest} {free free' tokens tokens' : List JsmnTok}
  {p p' : JsmnParser} {room room' : Nat} {code code' : Int} {q q' : JsonPoint}

section Growth

theorem getElem?_longer {c : UInt8} (h : text <+: text') (hi : text[i]? = some c) :
    text'[i]? = some c := by
  obtain ⟨rest, rfl⟩ := h
  rw [List.getElem?_append_left (List.getElem?_eq_some_iff.mp hi).1, hi]

theorem JsonChars.longer (h : text <+: text') (hchars : JsonChars text i j) :
    JsonChars text' i j := by
  induction hchars with
  | done => exact .done
  | plain hc hquote hslash _ ih => exact .plain (getElem?_longer h hc) hquote hslash ih
  | escape hc he hesc _ ih =>
    exact .escape (getElem?_longer h hc) (getElem?_longer h he) hesc ih
  | unicode hc hu hhex _ ih =>
    exact .unicode (getElem?_longer h hc) (getElem?_longer h hu)
      (fun d hd => (hhex d hd).imp fun _ hh => ⟨getElem?_longer h hh.1, hh.2⟩) ih

-- A primitive goes on if the text does with a byte that does not end it.
def Uncut (text text' : List UInt8) (a : JsonSpan) : Prop :=
  a.type = .primitive → a.stop = text.length → ∀ c, text'[text.length]? = some c → endsPrimitive c

theorem JsonWord.longer (h : text <+: text') (hword : JsonWord text i m j)
    (hcut : ∀ a, m = .leaf a → Uncut text text' a) : JsonWord text' i m j := by
  cases hword with
  | enter hb hi => exact .enter hb (getElem?_longer h hi)
  | leave hb hi => exact .leave hb (getElem?_longer h hi)
  | string hi hchars hj =>
    exact .string (getElem?_longer h hi) (hchars.longer h) (getElem?_longer h hj)
  | primitive hi hmem hlt hmid hend =>
    refine .primitive (getElem?_longer h hi) hmem hlt
      (fun k hk hkj => (hmid k hk hkj).imp fun _ hc => ⟨getElem?_longer h hc.1, hc.2⟩) ?_
    have hj : j ≤ text.length := JsonWord.le_length (.primitive hi hmem hlt hmid hend)
    intro c hc
    rcases Nat.lt_or_eq_of_le hj with hlt' | rfl
    · rw [List.getElem?_eq_getElem hlt', ] at hend
      have hget := getElem?_longer h (List.getElem?_eq_getElem hlt')
      rw [hget] at hc
      exact hend c hc
    · exact hcut _ rfl rfl rfl c hc

theorem JsonStep.lt_length (h : JsonStep text room q q') : q.1 < text.length := by
  cases h with
  | blank hc => exact (List.getElem?_eq_some_iff.mp hc).1
  | word hword =>
    obtain ⟨c, hc⟩ := hword.getElem?
    exact (List.getElem?_eq_some_iff.mp hc).1

-- With more text and more room the same step is taken, unless it was a primitive that was cut.
theorem JsonStep.grow (htext : text <+: text') (hroom : room ≤ room')
    (h : JsonStep text room q q')
    (hcut : ∀ a : JsonSpan, jsonTok a 0 ∈ q'.2.slots jsonTok jsonOpenTok → Uncut text text' a) :
    JsonStep text' room' q q' := by
  cases h with
  | blank hc hblank => exact .blank (getElem?_longer htext hc) hblank
  | word hword htake hcount =>
    refine .word (hword.longer htext ?_) htake (hcount.trans hroom)
    rintro a rfl
    obtain rfl := Option.some.inj htake
    apply hcut
    rw [Reading.slots_leaf]
    simp

theorem JsonWord.stop_eq {a : JsonSpan} (h : JsonWord text i (.leaf a) j) (ha : a.type = .primitive) :
    a.stop = j := by
  cases h with
  | string => cases ha
  | primitive => rfl

theorem JsonStep.grow_of_lt (htext : text <+: text') (hroom : room ≤ room')
    (h : JsonStep text room q q') (hlt : q'.1 < text.length) : JsonStep text' room' q q' := by
  cases h with
  | blank hc hblank => exact .blank (getElem?_longer htext hc) hblank
  | word hword htake hcount =>
    refine .word (hword.longer htext ?_) htake (hcount.trans hroom)
    rintro a rfl ha hstop
    rw [hword.stop_eq ha] at hstop
    exact absurd hstop (Nat.ne_of_lt hlt)

theorem JsonStep.reach_grow_of_lt (htext : text <+: text') (hroom : room ≤ room')
    (h : ReflTransGen (JsonStep text room) q q') (hlt : q'.1 < text.length) :
    ReflTransGen (JsonStep text' room') q q' := by
  induction h with
  | refl => exact .refl
  | tail _ hstep ih => exact (ih hstep.lt_length).tail (hstep.grow_of_lt htext hroom hlt)

-- Only the last step of a reading can end where the text does.
theorem JsonStep.reach_grow (htext : text <+: text') (hroom : room ≤ room')
    (h : ReflTransGen (JsonStep text room) q q')
    (hcut : ∀ a : JsonSpan, jsonTok a 0 ∈ q'.2.slots jsonTok jsonOpenTok → Uncut text text' a) :
    ReflTransGen (JsonStep text' room') q q' := by
  rcases h.cases_tail with rfl | ⟨q₁, hreach, hstep⟩
  · exact .refl
  · exact (reach_grow_of_lt htext hroom hreach hstep.lt_length).tail (hstep.grow htext hroom hcut)

end Growth

section Presize

variable {s : JsmnState} {c : UInt8} {steps : Nat}

theorem jsmnPut_null (hs : s.tokens = none) (hword : JsonWord text s.parser.pos m j) :
    jsmnPut m j s =
      some (0, ⟨{ s.parser with pos := j - 1 }, none, s.count + m.count⟩) := by
  obtain ⟨parser, tokens, count⟩ := s
  obtain rfl : tokens = none := hs
  cases m with
  | leaf a => rfl
  | enter o => cases hword; rfl
  | leave c => cases hword; rfl

-- Without an array, the marks are counted.
theorem JsonMarks.loop_null (h : JsonMarks (jsmnText js len) i ms (jsmnText js len).length)
    (hs : s.tokens = none) (hi : s.parser.pos = i) (hsteps : len - i < steps) :
    jsmnLoop js len steps s = some (0,
      ⟨{ s.parser with pos := (jsmnText js len).length }, none,
        s.count + (ms.map Mark.count).sum⟩) := by
  generalize hend : (jsmnText js len).length = n at h
  induction h generalizing s steps with
  | done =>
    subst hend
    cases steps with
    | zero => omega
    | succ steps =>
      rw [jsmnLoop_end hi, ← hs, ← hi]
      rfl
  | @blank i j c ms hc hblank _ ih =>
    subst hi
    obtain ⟨hlt, -⟩ := jsmnText_getElem? hc
    cases steps with
    | zero => omega
    | succ steps =>
      rw [jsmnLoop_succ hc, jsmnSwitch_blank hblank]
      exact ih hs rfl (by omega) hend
  | @word i j k m ms hword _ ih =>
    subst hi
    obtain ⟨c, hc⟩ := hword.getElem?
    obtain ⟨hlt, -⟩ := jsmnText_getElem? hc
    have hj := hword.lt
    cases steps with
    | zero => omega
    | succ steps =>
      rw [jsmnLoop_succ hc, jsmnSwitch_word hword hc, jsmnPut_null hs hword]
      have hpos : j - 1 + 1 = j := by omega
      refine (ih rfl hpos (by omega) hend).trans ?_
      simp [JsmnState.setPos, Nat.add_assoc]

-- A text with more tokens than there is room for ends a reading at one of them.
theorem JsmnStop.eq_full (hstop : JsmnStop js len room (i, r) code)
    (hreach : ReflTransGen (JsonStep (jsmnText js len) room) (0, Reading.start) (i, r))
    (h : JsonReads (jsmnText js len) f) (hroom : room < f.count) : code = JSMN_ERROR_NOMEM := by
  have hcount : r.count ≤ room := JsonStep.count_le hreach (Nat.zero_le _)
  have hgrown := JsonStep.reach_grow (List.prefix_refl _) (Nat.le_of_lt hroom) hreach
    fun a _ _ _ c hc => by simp at hc
  have hall := (jsonReads_iff_reach le_rfl).mp h
  -- The reading of the whole text goes on from the one that ended.
  have hstep : ∃ q, JsonStep (jsmnText js len) f.count (i, r) q := by
    rcases hgrown.total_of_right_unique (fun _ _ _ h h' => h.unique h') hall with hmore | hback
    · rcases hmore.cases_head with heq | ⟨q, hstep, -⟩
      · obtain ⟨-, rfl⟩ := Prod.mk.inj heq
        rw [Reading.count_nil] at hcount
        omega
      · exact ⟨q, hstep⟩
    · obtain ⟨ms, -, htakes⟩ := JsonMarks.of_reach hback
      have hle : f.count ≤ r.count := by simpa using Reading.count_takes_le htakes
      omega
  obtain ⟨q, hstep⟩ := hstep
  cases hstop with
  | done => exact absurd hstep JsmnStop.done.not_step
  | bad hc hblank hnone hcode hneg =>
    exact absurd hstep (JsmnStop.bad hc hblank hnone hcode hneg).not_step
  | mismatch hword htake => exact absurd hstep (JsmnStop.mismatch hword htake).not_step
  | full => rfl

-- A call without an array tells how many tokens a text has, and an array makes the parser accept it
-- just if it has so many.
theorem jsmnParse_presize (input : JsmnInput) (f : JsonForest) (h : JsonReads (jsmnText input.js input.len) f) :
    jsmnParse jsmnInit input.js input.len none =
        some ((f.count : Int), ⟨(jsmnText input.js input.len).length, 0, -1⟩, none) ∧
      ∀ array : JsmnArray, ∃ p tokens', jsmnParse jsmnInit input.js input.len (some array.1) =
        some (if f.count ≤ array.1.length then (f.count : Int) else JSMN_ERROR_NOMEM, p, some tokens') := by
  obtain ⟨js, len, hshort⟩ := input
  constructor
  · obtain ⟨ms, hms, hreads⟩ := h
    have hloop := hms.loop_null (s := ⟨jsmnInit, none, 0⟩) rfl rfl
      (Nat.lt_succ_self _)
    rw [hreads.count_marks] at hloop
    unfold jsmnParse
    simp only [jsmnInit, Nat.succ_eq_add_one] at hloop ⊢
    rw [hloop]
    simp [jsmnLastOpen]
  · rintro ⟨tokens, htokens⟩
    dsimp only
    obtain ⟨code, p, tokens', r, hparse, hreach, hstop, hhold⟩ := jsmnParse_init js len tokens
    refine ⟨p, tokens', ?_⟩
    rw [hparse]
    split
    · rename_i hroom
      obtain ⟨heq, rfl⟩ := hstop.reached_unique hreach ((jsonReads_iff_reach hroom).mp h) .done
      obtain ⟨-, rfl⟩ := Prod.mk.inj heq
      simp [jsmnResult]
    · rename_i hroom
      rw [hstop.eq_full hreach h (by omega)]
      rfl

theorem jsonReads_array : JsonReads (jsmnText [91, 49, 93] 3)
    (.cons ⟨.array, 0, 3⟩ (.cons ⟨.primitive, 1, 2⟩ .nil .nil) .nil) := by
  have hb : (JsmnType.array, 91, 93) ∈ brackets := by decide
  have hi : (jsmnText [91, 49, 93] 3)[1]? = some 49 := rfl
  have hone : JsonWord (jsmnText [91, 49, 93] 3) 1 (.leaf ⟨.primitive, 1, 2⟩) 2 := by
    refine .primitive hi (by decide) (by decide) ?_ ?_
    · intro k hk hk'
      obtain rfl : k = 1 := by omega
      exact ⟨49, rfl, by decide⟩
    · intro c hc
      obtain rfl := Option.some.inj hc
      decide
  exact ⟨_, .word (.enter hb rfl) (.word hone (.word (.leave hb rfl) .done)),
    .group (.leaf .nil) (if_pos rfl) .nil⟩

theorem jsmnParse_presize_array :
    jsmnParse jsmnInit [91, 49, 93] 3 none = some (2, ⟨3, 0, -1⟩, none) ∧
      ∀ array : JsmnArray, ∃ p tokens', jsmnParse jsmnInit [91, 49, 93] 3 (some array.1) =
        some (if 2 ≤ array.1.length then 2 else JSMN_ERROR_NOMEM, p, some tokens') :=
  jsmnParse_presize ⟨[91, 49, 93], 3, by decide⟩ _ jsonReads_array

end Presize

section Session

-- A parser that was called again and again: each time with a text that goes on from the last one,
-- and with an array that more tokens may have been added to.
inductive JsmnFed : JsmnInput → JsmnParser → List JsmnTok → Int → Prop
  | first (input : JsmnInput) (array : JsmnArray) {p : JsmnParser} {tokens' : List JsmnTok} {code : Int}
      (hparse : jsmnParse jsmnInit input.js input.len (some array.1) = some (code, p, some tokens')) :
      JsmnFed input p tokens' code
  | again {input : JsmnInput} (input' : JsmnInput) {p p' : JsmnParser} {tokens tokens' more : List JsmnTok}
      {code code' : Int} (hfed : JsmnFed input p tokens code)
      (htext : jsmnText input.js input.len <+: jsmnText input'.js input'.len)
      -- No primitive that ends with the text before goes on in the new one.
      (hcut : ∀ tok ∈ tokens.take p.toknext, tok.type = .primitive →
        tok.stop = (jsmnText input.js input.len).length →
        ∀ c, (jsmnText input'.js input'.len)[(jsmnText input.js input.len).length]? = some c → endsPrimitive c)
      (hmore : (tokens ++ more).length < 2 ^ 32)
      (hparse : jsmnParse p input'.js input'.len (some (tokens ++ more)) = some (code', p', some tokens')) :
      JsmnFed input' p' tokens' code'

theorem TokensHold.append (h : TokensHold ⟨p, some tokens, 0⟩ r free) (more : List JsmnTok) :
    TokensHold ⟨p, some (tokens ++ more), 0⟩ r (free ++ more) := by
  refine ⟨?_, h.toknext, h.toksuper⟩
  rw [Option.some.inj h.tokens, List.append_assoc]

theorem TokensHold.take_eq (h : TokensHold ⟨p, some tokens, 0⟩ r free) :
    tokens.take p.toknext = r.slots jsonTok jsonOpenTok := by
  rw [Option.some.inj h.tokens, h.toknext]
  simp

theorem TokensHold.length_eq (h : TokensHold ⟨p, some tokens, 0⟩ r free) :
    tokens.length = r.count + free.length := by
  rw [Option.some.inj h.tokens]
  simp

theorem jsmnResult_base {base : Nat} (hbase : base ≤ r.count) : jsmnResult code r 0 =
    if jsmnResult code r base < 0 then jsmnResult code r base else (r.count : Int) := by
  unfold jsmnResult
  by_cases hneg : code < 0
  · simp [hneg]
  · by_cases hframes : r.frames ≠ []
    · simp [hneg, hframes, part_neg]
    · have hle : ¬(r.count : Int) - base < 0 := by omega
      simp [hneg, hframes, hle]

-- Whatever the calls were, the parser stands where a single one would.
theorem JsmnFed.reached {input : JsmnInput} (h : JsmnFed input p tokens code) :
    ∃ r free stop base, TokensHold ⟨p, some tokens, 0⟩ r free ∧
      ReflTransGen (JsonStep (jsmnText input.js input.len) tokens.length) (0, Reading.start) (p.pos, r) ∧
      JsmnStop input.js input.len tokens.length (p.pos, r) stop ∧ code = jsmnResult stop r base ∧
      base ≤ r.count := by
  induction h with
  | @first input array p tokens' code hparse =>
    obtain ⟨js, len, hshort⟩ := input
    obtain ⟨tokens, htokens⟩ := array
    obtain ⟨stop, p', tokens'', r, hparse', hreach, hstop, hhold⟩ := jsmnParse_init js len tokens
    rw [hparse'] at hparse
    simp only [Option.some.injEq, Prod.mk.injEq] at hparse
    obtain ⟨rfl, rfl, rfl⟩ := hparse
    have hcount : r.count ≤ tokens.length := JsonStep.count_le hreach (Nat.zero_le _)
    have hlen : tokens''.length = tokens.length := by
      rw [hhold.length_eq, List.length_drop]
      omega
    rw [← hlen] at hreach hstop
    exact ⟨r, _, stop, 0, hhold, hreach, hstop, rfl, Nat.zero_le _⟩
  | @again input input' p p' tokens tokens' more code code' hfed htext hcut _ hparse ih =>
    obtain ⟨js, len, hshort⟩ := input
    obtain ⟨js', len', hshort'⟩ := input'
    obtain ⟨r, free, -, -, hhold, hreach, -⟩ := ih
    have hpos : p.pos ≤ (jsmnText js' len').length :=
      (JsonStep.pos_le hreach (Nat.zero_le _)).trans htext.length_le
    obtain ⟨stop, p'', tokens'', r', hparse', hreach', hstop, hhold', hcount⟩ :=
      TokensHold.parse js' len' (hhold.append more) hpos
    rw [hparse'] at hparse
    simp only [Option.some.injEq, Prod.mk.injEq] at hparse
    obtain ⟨rfl, rfl, rfl⟩ := hparse
    have hroom : r.count + (free ++ more).length = tokens.length + more.length := by
      rw [List.length_append, hhold.length_eq]
      omega
    rw [hroom] at hreach' hstop
    have hreach₀ := JsonStep.reach_grow htext (Nat.le_add_right _ more.length) hreach ?_
    · have hreached := hreach₀.trans hreach'
      have hle : r'.count ≤ tokens.length + more.length :=
        JsonStep.count_le hreached (Nat.zero_le _)
      have hlen : tokens''.length = tokens.length + more.length := by
        rw [hhold'.length_eq, List.length_drop]
        omega
      rw [← hlen] at hreached hstop
      exact ⟨r', _, stop, r.count, hhold', hreached, hstop, rfl, hcount⟩
    · intro a ha htype hstop
      rw [← hhold.take_eq] at ha
      exact hcut _ ha htype (congrArg Nat.cast hstop)

-- However a text is fed to the parser, the tokens are those of a single call with all of it and the
-- whole array, and so is the result, but that a call counts only the tokens it has added.
theorem jsmnParse_fed (input : JsmnInput) (p : JsmnParser) (tokens : List JsmnTok) (code : Int)
    (h : JsmnFed input p tokens code) (array : List JsmnTok) (harray : array.length = tokens.length) :
    ∃ array', jsmnParse jsmnInit input.js input.len (some array) =
        some (if code < 0 then code else p.toknext, p, some array') ∧
      array'.take p.toknext = tokens.take p.toknext := by
  obtain ⟨r, free, stop, base, hhold, hreach, hstop, rfl, hbase⟩ := h.reached
  obtain ⟨js, len, hshort⟩ := input
  obtain ⟨stop', p', array', r', hparse, hreach', hstop', hhold'⟩ := jsmnParse_init js len array
  rw [harray] at hreach' hstop'
  obtain ⟨heq, rfl⟩ := hstop.reached_unique hreach hreach' hstop'
  obtain ⟨hpos, rfl⟩ := Prod.mk.inj heq
  obtain rfl := hhold.parser_eq hhold' hpos
  refine ⟨array', ?_, ?_⟩
  · rw [hparse, hhold.toknext, jsmnResult_base hbase]
  · rw [hhold.take_eq, hhold'.take_eq]

-- First the array is full at the number, and then the text goes on.
theorem jsmnParse_fed_twice : ∃ array',
    jsmnParse jsmnInit [91, 49, 32, 93] 4 (some [⟨.string, 0, 0, 0⟩, ⟨.string, 0, 0, 0⟩]) =
      some (2, ⟨4, 2, -1⟩, some array') ∧
    array'.take 2 = [⟨.array, 0, 4, 1⟩, ⟨.primitive, 1, 2, 0⟩] := by
  have h1 : jsmnParse jsmnInit [91, 49, 32] 3 (some [⟨.string, 0, 0, 0⟩]) =
      some (-1, ⟨1, 1, 0⟩, some [⟨.array, 0, -1, 0⟩]) := by decide +kernel
  have h2 : jsmnParse ⟨1, 1, 0⟩ [91, 49, 32, 93] 4
      (some ([⟨.array, 0, -1, 0⟩] ++ [⟨.string, 0, 0, 0⟩])) =
      some (1, ⟨4, 2, -1⟩, some [⟨.array, 0, 4, 1⟩, ⟨.primitive, 1, 2, 0⟩]) := by decide +kernel
  have hfed := JsmnFed.again ⟨[91, 49, 32, 93], 4, by decide⟩
    (.first ⟨[91, 49, 32], 3, by decide⟩ ⟨[⟨.string, 0, 0, 0⟩], by decide⟩ h1) (by decide) (by
    intro tok htok htype
    obtain rfl : tok = ⟨.array, 0, -1, 0⟩ := by simpa using htok
    cases htype) (by decide) h2
  exact jsmnParse_fed _ _ _ _ hfed [⟨.string, 0, 0, 0⟩, ⟨.string, 0, 0, 0⟩] rfl

end Session

end Adventure

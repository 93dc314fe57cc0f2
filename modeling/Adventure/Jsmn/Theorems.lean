import Adventure.Jsmn.Steps

namespace Adventure

open Nest Relation

variable {js js' : CStr} {len len' i j k : Nat} {text text' : List UInt8} {ms : List JsonMark}
  {m : JsonMark} {r r' : JsonReading} {f : JsonForest} {free free' tokens tokens' : List JsmnTok}
  {p p' : JsmnParser} {room room' : Nat} {code code' : Int} {q q' : JsonPoint}

-- The marks of a text from one position to another, without the blanks.
inductive JsonMarks (text : List UInt8) : Nat → List JsonMark → Nat → Prop
  | done {i : Nat} : JsonMarks text i [] i
  | blank {i j : Nat} {c : UInt8} {ms : List JsonMark} (hc : text[i]? = some c) (hblank : isBlank c)
      (rest : JsonMarks text (i + 1) ms j) : JsonMarks text i ms j
  | word {i j k : Nat} {m : JsonMark} {ms : List JsonMark} (hword : JsonWord text i m j)
      (rest : JsonMarks text j ms k) : JsonMarks text i (m :: ms) k

-- A text is a forest if all of its brackets match.
def JsonReads (text : List UInt8) (f : JsonForest) : Prop :=
  ∃ ms, JsonMarks text 0 ms text.length ∧ Reads jsonClose ms f

section Points

theorem JsonMarks.reach (h : JsonMarks text i ms j) (htakes : r.takes jsonClose ms = some r')
    (hroom : r'.count ≤ room) : ReflTransGen (JsonStep text room) (i, r) (j, r') := by
  induction h generalizing r with
  | done =>
    obtain rfl := Option.some.inj htakes
    exact .refl
  | blank hc hblank _ ih => exact .head (.blank hc hblank) (ih htakes)
  | word hword _ ih =>
    rw [Reading.takes_cons, Option.bind_eq_some_iff] at htakes
    obtain ⟨r₁, htake, htakes⟩ := htakes
    exact .head (.word hword htake ((Reading.count_takes_le htakes).trans hroom)) (ih htakes)

theorem JsonMarks.of_reach (h : ReflTransGen (JsonStep text room) q q') :
    ∃ ms, JsonMarks text q.1 ms q'.1 ∧ q.2.takes jsonClose ms = some q'.2 := by
  induction h using ReflTransGen.head_induction_on with
  | refl => exact ⟨[], .done, rfl⟩
  | head hstep _ ih =>
    obtain ⟨ms, hms, htakes⟩ := ih
    cases hstep with
    | blank hc hblank => exact ⟨ms, .blank hc hblank hms, htakes⟩
    | @word i j r r' m hword htake =>
      refine ⟨m :: ms, .word hword hms, ?_⟩
      rw [Reading.takes_cons, htake]
      exact htakes

-- A text is a forest just if it can be read to its end with no group left open.
theorem jsonReads_iff_reach (hroom : f.count ≤ room) : JsonReads text f ↔
    ReflTransGen (JsonStep text room) (0, Reading.start) (text.length, ⟨[], f⟩) := by
  constructor
  · rintro ⟨ms, hms, hreads⟩
    exact hms.reach (takes_start_iff.mpr hreads) (by simpa using hroom)
  · intro h
    obtain ⟨ms, hms, htakes⟩ := JsonMarks.of_reach h
    exact ⟨ms, hms, takes_start_iff.mp htakes⟩

end Points

section Parse

-- The result that follows from the end of the loop and what is still open there.
def jsmnResult (code : Int) (r : JsonReading) (base : Nat) : Int :=
  if code < 0 then code
  else if r.frames ≠ [] then JSMN_ERROR_PART
  else r.count - base

theorem framesCount_pos {frames : List (Frame JsonSpan (JsmnType × Nat))} :
    0 ≤ (framesCount frames : Int) - 1 ↔ frames ≠ [] := by
  cases frames with
  | nil => simp [framesCount]
  | cons frame frames =>
    simp only [framesCount, ne_eq, reduceCtorEq, not_false_eq_true, iff_true]
    omega

theorem JsmnStop.eq_zero (h : JsmnStop js len room q code) (hneg : ¬code < 0) :
    code = 0 ∧ q.1 = (jsmnText js len).length := by
  cases h with
  | done => exact ⟨rfl, rfl⟩
  | bad _ _ _ _ hneg' => exact absurd hneg' hneg
  | mismatch => exact absurd inval_neg hneg
  | full => exact absurd (by decide) hneg

-- One call, from wherever the one before it stopped.
theorem TokensHold.parse (js : CStr) (len : Nat) (h : TokensHold ⟨p, some tokens, 0⟩ r free)
    (hpos : p.pos ≤ (jsmnText js len).length) :
    ∃ code p' tokens' r', jsmnParse p js len (some tokens) =
        some (jsmnResult code r' r.count, p', some tokens') ∧
      ReflTransGen (JsonStep (jsmnText js len) (r.count + free.length)) (p.pos, r) (p'.pos, r') ∧
      JsmnStop js len (r.count + free.length) (p'.pos, r') code ∧
      TokensHold ⟨p', some tokens', 0⟩ r' (free.drop (r'.count - r.count)) ∧
      r.count ≤ r'.count := by
  obtain ⟨code, s', r', hloop, hreach, hstop, hhold, hcount, hcounted⟩ :=
    h.run hpos (by exact Nat.lt_succ_self (len - p.pos))
  have hparse : jsmnParse p js len (some tokens) =
      some (jsmnResult code r' r.count, s'.parser, s'.tokens) := by
    have hlast := hhold.lastOpen
    have htokens : s'.tokens.getD [] =
        r'.slots jsonTok jsonOpenTok ++ free.drop (r'.count - r.count) := by
      rw [hhold.tokens]
      rfl
    unfold jsmnParse jsmnResult
    rw [hloop]
    by_cases hneg : code < 0
    · rw [if_pos hneg]
      simp [hneg]
    · simp only [Option.bind_eq_bind, Option.bind_some, if_neg hneg, htokens, hlast,
        framesCount_pos]
      have hs := hcounted (hstop.eq_zero hneg).1
      have hcounts : (s'.count : Int) = r'.count - r.count := by
        change s'.count + r.count = 0 + r'.count at hs
        omega
      rw [hcounts]
      split <;> rfl
  rw [hhold.tokens] at hparse
  exact ⟨code, s'.parser, _, r', hparse, hreach, hstop,
    ⟨rfl, hhold.toknext, hhold.toksuper⟩, hcount⟩

theorem TokensHold.init (tokens : List JsmnTok) :
    TokensHold ⟨jsmnInit, some tokens, 0⟩ Reading.start tokens := ⟨rfl, rfl, rfl⟩

-- A first call.
theorem jsmnParse_init (js : CStr) (len : Nat) (tokens : List JsmnTok) :
    ∃ code p' tokens' r', jsmnParse jsmnInit js len (some tokens) =
        some (jsmnResult code r' 0, p', some tokens') ∧
      ReflTransGen (JsonStep (jsmnText js len) tokens.length) (0, Reading.start) (p'.pos, r') ∧
      JsmnStop js len tokens.length (p'.pos, r') code ∧
      TokensHold ⟨p', some tokens', 0⟩ r' (tokens.drop r'.count) := by
  obtain ⟨code, p', tokens', r', hparse, hreach, hstop, hhold, -⟩ :=
    TokensHold.parse js len (TokensHold.init tokens) (Nat.zero_le _)
  rw [Reading.count_start, Nat.zero_add] at hreach hstop
  exact ⟨code, p', tokens', r', hparse, hreach, hstop, hhold⟩

theorem TokensHold.parser_eq (h : TokensHold ⟨p, some tokens, 0⟩ r free)
    (h' : TokensHold ⟨p', some tokens', 0⟩ r free') (hpos : p.pos = p'.pos) : p = p' := by
  obtain ⟨pos, toknext, toksuper⟩ := p
  obtain ⟨pos', toknext', toksuper'⟩ := p'
  have h1 := h.toknext.trans h'.toknext.symm
  have h2 := h.toksuper.trans h'.toksuper.symm
  simp_all

theorem JsonStep.lt (h : JsonStep text room q q') : q.1 < q'.1 := by
  cases h with
  | blank => exact Nat.lt_succ_self _
  | word hword => exact hword.lt

theorem JsonStep.count_le (h : ReflTransGen (JsonStep text room) q q') (hq : q.2.count ≤ room) :
    q'.2.count ≤ room := by
  induction h with
  | refl => exact hq
  | tail _ hstep ih =>
    cases hstep with
    | blank => exact ih
    | word _ _ hroom => exact hroom

theorem JsonStep.pos_le (h : ReflTransGen (JsonStep text room) q q') (hq : q.1 ≤ text.length) :
    q'.1 ≤ text.length := by
  induction h with
  | refl => exact hq
  | tail _ hstep ih =>
    cases hstep with
    | blank hc => exact (List.getElem?_eq_some_iff.mp hc).1
    | word hword => exact hword.le_length

-- What is left once a text was read to its end with no group left open.
theorem TokensHold.closed (h : TokensHold ⟨p, some tokens, 0⟩ ⟨[], f⟩ free) :
    p = ⟨p.pos, f.count, -1⟩ ∧ tokens = f.slots jsonTok ++ free := by
  have htokens := Option.some.inj h.tokens
  have hnext := h.toknext
  have hsuper := h.toksuper
  obtain ⟨pos, toknext, toksuper⟩ := p
  simp only [Reading.count_nil] at hnext
  simp only [framesCount] at hsuper
  rw [Reading.slots_nil] at htokens
  refine ⟨?_, htokens⟩
  rw [hnext, hsuper]
  rfl

-- The parser accepts just the texts whose brackets match, if the array has room, and then each
-- token of the array is a node of the text, in the order of the text.
theorem jsmnParse_accepts (input : JsmnInput) (array : JsmnArray) :
    ∃ result p tokens', jsmnParse jsmnInit input.js input.len (some array.1) = some (result, p, some tokens') ∧
      (0 ≤ result ↔ ∃ f, JsonReads (jsmnText input.js input.len) f ∧ f.count ≤ array.1.length) ∧
      ∀ f, JsonReads (jsmnText input.js input.len) f → f.count ≤ array.1.length →
        result = f.count ∧ p = ⟨(jsmnText input.js input.len).length, f.count, -1⟩ ∧
          tokens' = f.slots jsonTok ++ array.1.drop f.count := by
  obtain ⟨js, len, -⟩ := input
  obtain ⟨tokens, -⟩ := array
  obtain ⟨code, p, tokens', r, hparse, hreach, hstop, hhold⟩ := jsmnParse_init js len tokens
  have hreads : ∀ f, JsonReads (jsmnText js len) f → f.count ≤ tokens.length →
      r = ⟨[], f⟩ ∧ p.pos = (jsmnText js len).length ∧ code = 0 := by
    intro f hf hroom
    obtain ⟨heq, rfl⟩ := hstop.reached_unique hreach ((jsonReads_iff_reach hroom).mp hf) .done
    obtain ⟨hpos, rfl⟩ := Prod.mk.inj heq
    exact ⟨rfl, hpos, rfl⟩
  refine ⟨_, p, tokens', hparse, ⟨?_, ?_⟩, ?_⟩
  · intro h0
    have hcount := JsonStep.count_le hreach (Nat.zero_le _)
    obtain ⟨frames, f⟩ := r
    unfold jsmnResult at h0
    split at h0
    · omega
    · rename_i hneg
      split at h0
      · exact absurd h0 (by decide)
      · rename_i hframes
        obtain rfl : frames = [] := by simpa using hframes
        rw [Reading.count_nil] at hcount
        refine ⟨f, (jsonReads_iff_reach hcount).mpr ?_, hcount⟩
        rwa [← (hstop.eq_zero hneg).2]
  · rintro ⟨f, hf, hroom⟩
    obtain ⟨rfl, -, rfl⟩ := hreads f hf hroom
    simp [jsmnResult]
  · intro f hf hroom
    obtain ⟨rfl, hpos, rfl⟩ := hreads f hf hroom
    obtain ⟨hp, htokens⟩ := hhold.closed
    rw [Reading.count_nil] at htokens
    exact ⟨by simp [jsmnResult], hpos ▸ hp, htokens⟩

end Parse

end Adventure

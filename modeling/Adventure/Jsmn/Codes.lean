import Adventure.Jsmn.Feed

namespace Adventure

open Nest Relation

variable {js js' : CStr} {len len' i j k : Nat} {text text' : List UInt8} {ms : List JsonMark}
  {m : JsonMark} {r r' : JsonReading} {f : JsonForest} {free free' tokens tokens' : List JsmnTok}
  {p p' : JsmnParser} {room room' : Nat} {code code' : Int} {q q' : JsonPoint}

section Codes

-- The closing brackets of the open groups, and what they leave.
def closer : JsmnType → UInt8
  | .object => 125
  | _ => 93

def Bracketed (r : JsonReading) : Prop :=
  ∀ frame ∈ r.frames, frame.opened.1 = .object ∨ frame.opened.1 = .array

theorem JsonStep.bracketed (h : ReflTransGen (JsonStep text room) q q') (hq : Bracketed q.2) :
    Bracketed q'.2 := by
  induction h with
  | refl => exact hq
  | tail _ hstep ih =>
    cases hstep with
    | blank => exact ih
    | @word i j r r' m hword htake =>
      cases m with
      | leaf a =>
        obtain rfl := Option.some.inj htake
        exact ih
      | enter o =>
        obtain rfl := Option.some.inj htake
        cases hword with
        | enter hb _ =>
          refine List.forall_mem_cons.mpr ⟨?_, ih⟩
          exact (mem_brackets hb).imp And.left And.left
      | leave c =>
        obtain ⟨frames, done⟩ := r
        cases frames with
        | nil => cases htake
        | cons frame frames =>
          obtain ⟨a, -, rfl⟩ := Option.map_eq_some_iff.mp htake
          exact fun fr hfr => ih fr (List.mem_cons_of_mem _ hfr)

theorem closer_word {type : JsmnType} (htype : type = .object ∨ type = .array)
    (hi : text[i]? = some (closer type)) : JsonWord text i (.leave (type, i + 1)) (i + 1) := by
  rcases htype with rfl | rfl
  · exact .leave (show (JsmnType.object, 123, 125) ∈ brackets by decide) hi
  · exact .leave (show (JsmnType.array, 91, 93) ∈ brackets by decide) hi

-- With the closing brackets of what is open, a reading goes to the end.
theorem reach_closers (hb : Bracketed r) (hcount : r.count ≤ room)
    (htext : text.drop i = r.frames.map fun frame => closer frame.opened.1) (hi : i ≤ text.length) :
    ∃ f, f.count = r.count ∧
      ReflTransGen (JsonStep text room) (i, r) (text.length, ⟨[], f⟩) := by
  obtain ⟨frames, done⟩ := r
  induction frames generalizing i done with
  | nil =>
    have hlen : text.length ≤ i := by simpa using htext
    obtain rfl := Nat.le_antisymm hi hlen
    exact ⟨done, by simp, .refl⟩
  | cons frame frames ih =>
    have hget : text[i]? = some (closer frame.opened.1) := by
      rw [← Nat.add_zero i, ← List.getElem?_drop, htext]
      rfl
    have hlt := (List.getElem?_eq_some_iff.mp hget).1
    have hdrop : text.drop (i + 1) = frames.map fun frame => closer frame.opened.1 := by
      rw [← List.drop_drop, htext]
      rfl
    have hword := closer_word (hb frame List.mem_cons_self) hget
    have htake : Reading.take jsonClose ⟨frame :: frames, done⟩ (.leave (frame.opened.1, i + 1)) =
        some ⟨frames, frame.before ++ .cons ⟨frame.opened.1, frame.opened.2, i + 1⟩ done .nil⟩ := by
      simp [Reading.take, jsonClose]
    have hsame := Reading.count_take htake
    obtain ⟨f, hf, hreach⟩ := ih hlt _ (fun fr hfr => hb fr (List.mem_cons_of_mem _ hfr))
      (hsame.trans_le hcount) hdrop
    exact ⟨f, hf.trans hsame, .head (.word hword htake (hsame.trans_le hcount)) hreach⟩

theorem JsonChars.le_length (h : JsonChars text i j) (hi : i ≤ text.length) : j ≤ text.length := by
  induction h with
  | done => exact hi
  | plain hc _ _ _ ih => exact ih (List.getElem?_eq_some_iff.mp hc).1
  | escape _ he _ _ ih => exact ih (List.getElem?_eq_some_iff.mp he).1
  | unicode _ _ hhex _ ih =>
    obtain ⟨h, hh, -⟩ := hhex 3 (by omega)
    exact ih (List.getElem?_eq_some_iff.mp hh).1

theorem JsonChars.trans (h : JsonChars text i j) (h' : JsonChars text j k) : JsonChars text i k := by
  induction h with
  | done => exact h'
  | plain hc hquote hslash _ ih => exact .plain hc hquote hslash (ih h')
  | escape hc he hesc _ ih => exact .escape hc he hesc (ih h')
  | unicode hc hu hhex _ ih => exact .unicode hc hu hhex (ih h')

-- A string that only ends too early can be gone on with: the digits that are missing are added.
theorem JsonBreak.mend (h : JsonBreak text k JSMN_ERROR_PART) (hk : k ≤ text.length) :
    ∃ digits, digits.length ≤ 4 ∧ JsonChars (text ++ digits) k (text ++ digits).length := by
  generalize hcode : JSMN_ERROR_PART = code at h
  cases h with
  | ended hi =>
    obtain rfl := Nat.le_antisymm hk (List.getElem?_eq_none_iff.mp hi)
    exact ⟨[], by simp, by simpa using JsonChars.done⟩
  | @short n hc hu hn hhex hend =>
    have hlen : text.length = k + 2 + n := by
      have hle := List.getElem?_eq_none_iff.mp hend
      cases n with
      | zero =>
        have := (List.getElem?_eq_some_iff.mp hu).1
        omega
      | succ n =>
        obtain ⟨h, hh, -⟩ := hhex n (Nat.lt_succ_self n)
        have := (List.getElem?_eq_some_iff.mp hh).1
        omega
    have hlonger := List.prefix_append text (List.replicate (4 - n) 48)
    refine ⟨List.replicate (4 - n) 48, by rw [List.length_replicate]; omega,
      .unicode (getElem?_longer hlonger hc) (getElem?_longer hlonger hu) ?_ ?_⟩
    · intro d hd
      rcases Nat.lt_or_ge d n with hlt | hge
      · exact (hhex d hlt).imp fun _ hh => ⟨getElem?_longer hlonger hh.1, hh.2⟩
      · refine ⟨48, ?_, by decide⟩
        rw [List.getElem?_append_right (by omega), List.getElem?_replicate, if_pos (by omega)]
    · have hend : k + 6 = (text ++ List.replicate (4 - n) 48).length := by
        rw [List.length_append, List.length_replicate]
        omega
      rw [hend]
      exact .done
  | slash => cases hcode
  | escape => cases hcode
  | digit => cases hcode

-- No string goes over a backslash that stands for nothing.
theorem JsonChars.not_over (hi : JsonChars text i k) (hk : text[k]? = some 92)
    (hescape : ∀ e, text[k + 1]? = some e → ¬isEscape e)
    (hhex : text[k + 1]? = some 117 → ∃ d < 4, ∀ h, text[k + 2 + d]? = some h → ¬isHexDigit h)
    (hj : text[j]? = some 34) : ¬JsonChars text i j := by
  intro h
  induction hi with
  | done =>
    cases h with
    | done => exact absurd (byte_unique hk hj) (by decide)
    | plain hc _ hslash => exact hslash (byte_unique hc hk)
    | escape _ he hesc => exact hescape _ he hesc
    | unicode _ hu hdigits =>
      obtain ⟨d, hd, hbad⟩ := hhex hu
      obtain ⟨h, hh, hdigit⟩ := hdigits d hd
      exact hbad h hh hdigit
  | plain hc hquote hslash _ ih =>
    cases h with
    | done => exact hquote (byte_unique hc hj)
    | plain _ _ _ rest => exact ih hk hescape hhex rest
    | escape hc' => exact hslash (byte_unique hc hc')
    | unicode hc' => exact hslash (byte_unique hc hc')
  | escape hc he hesc _ ih =>
    cases h with
    | done => exact absurd (byte_unique hc hj) (by decide)
    | plain hc' _ hslash => exact hslash (byte_unique hc' hc)
    | escape _ _ _ rest => exact ih hk hescape hhex rest
    | unicode _ hu => exact absurd (byte_unique he hu ▸ hesc) (by decide)
  | unicode hc hu hdigits _ ih =>
    cases h with
    | done => exact absurd (byte_unique hc hj) (by decide)
    | plain hc' _ hslash => exact hslash (byte_unique hc' hc)
    | escape _ he hesc => exact absurd (byte_unique he hu ▸ hesc) (by decide)
    | unicode _ _ _ rest => exact ih hk hescape hhex rest

-- A string that the text ends in, right after a backslash.
def CutEscape (text : List UInt8) (i : Nat) : Prop :=
  text[i]? = some 34 ∧ ∃ k, JsonChars text (i + 1) k ∧ text[k]? = some 92 ∧ text[k + 1]? = none

theorem CutEscape.mend (hc : text[k]? = some 92) (hend : text[k + 1]? = none) :
    JsonChars (text ++ [110]) k (text ++ [110]).length := by
  have hlt := (List.getElem?_eq_some_iff.mp hc).1
  have hle := List.getElem?_eq_none_iff.mp hend
  have hn : (text ++ [110])[k + 1]? = some 110 := by
    rw [List.getElem?_append_right hle, Nat.sub_eq_zero_of_le hlt]
    rfl
  refine .escape (getElem?_longer (List.prefix_append _ _) hc) hn (by decide) ?_
  have hlen : k + 2 = (text ++ [110]).length := by
    rw [List.length_append, List.length_singleton]
    omega
  rw [hlen]
  exact .done

-- What is no string for its bytes is none in a longer text.
theorem JsonBreak.not_chars (h : JsonBreak text k JSMN_ERROR_INVAL) (hquote : text[i]? = some 34)
    (hslash : ¬CutEscape text i) (htext : text <+: text') (hi : JsonChars text (i + 1) k)
    (hj : text'[j]? = some 34) : ¬JsonChars text' (i + 1) j := by
  generalize hcode : JSMN_ERROR_INVAL = code at h
  cases h with
  | ended => cases hcode
  | short => cases hcode
  | slash hc he => exact absurd ⟨hquote, k, hi, hc, he⟩ hslash
  | escape hc he hescape hu =>
    refine (hi.longer htext).not_over (getElem?_longer htext hc) ?_ ?_ hj
    · intro e' he'
      rwa [byte_unique he' (getElem?_longer htext he)]
    · intro hu'
      exact absurd (byte_unique (getElem?_longer htext he) hu') hu
  | digit hc hu hn hh hhex =>
    refine (hi.longer htext).not_over (getElem?_longer htext hc) ?_ ?_ hj
    · intro e' he'
      rw [byte_unique he' (getElem?_longer htext hu)]
      decide
    · intro _
      refine ⟨_, hn, fun h' hh' => ?_⟩
      rwa [byte_unique hh' (getElem?_longer htext hh)]

-- What stands where there is no mark.
theorem jsmnBad_reason {c : UInt8} (hfull : js.length ≤ len) (hc : (jsmnText js len)[i]? = some c)
    (hblank : ¬isBlank c) (hnone : ∀ m j, ¬JsonWord (jsmnText js len) i m j)
    (hcode : jsmnBad js len i = some code) :
    (c = 34 ∧ ∃ k, JsonChars (jsmnText js len) (i + 1) k ∧ JsonBreak (jsmnText js len) k code) ∨
      (c ≠ 34 ∧ code = JSMN_ERROR_INVAL ∧ ∃ e c', i ≤ e ∧
        (∀ k, i ≤ k → k < e → ∃ c, (jsmnText js len)[k]? = some c ∧ isPrimitive c) ∧
        (jsmnText js len)[e]? = some c' ∧ ¬endsPrimitive c' ∧ ¬isPrimitive c') := by
  obtain ⟨hlt, hbyte, h0⟩ := jsmnText_getElem? hc
  obtain ⟨hpos, -⟩ := List.getElem?_eq_some_iff.mp hc
  have hw : Within js len i := .inl (Nat.le_of_lt hpos)
  have hjs := length_jsmnText_le_length js len
  simp only [jsmnBad, hbyte, Option.bind_eq_bind, Option.bind_some] at hcode
  by_cases hquote : c = 34
  · subst hquote
    obtain ⟨r, hr, ⟨hneg, -, hbreak⟩ | ⟨-, -, hchars, hend⟩⟩ := jsmnStringLoop_spec
      i (hw.succ hbyte h0) (by omega) (by omega : len - (i + 1) < len - i + 1)
    · rw [if_pos rfl, hr] at hcode
      obtain rfl := Option.some.inj hcode
      exact .inl ⟨rfl, hbreak hfull⟩
    · exact absurd (.string hc hchars hend) (hnone _ _)
  · rw [if_neg hquote] at hcode
    obtain ⟨-, -, -, hbroken⟩ := jsmnPrimitive_broken hc hblank hquote hnone
    exact .inr ⟨hquote, (Option.some.inj hcode).symm, hbroken⟩

def closers (r : JsonReading) : List UInt8 := r.frames.map fun frame => closer frame.opened.1

theorem mem_closers {c : UInt8} (h : c ∈ closers r) : endsPrimitive c := by
  obtain ⟨frame, -, rfl⟩ := List.mem_map.mp h
  unfold closer
  split <;> decide

theorem uncut_closers (text : List UInt8) (r : JsonReading) (a : JsonSpan) :
    Uncut text (text ++ closers r) a := by
  intro _ _ c hc
  rw [List.getElem?_append_right le_rfl] at hc
  exact mem_closers (List.mem_of_getElem? hc)

-- A bracket is opened for each group that is open.
theorem JsonStep.frames_le (h : ReflTransGen (JsonStep text room) q q') :
    q'.2.frames.length + q.1 ≤ q'.1 + q.2.frames.length := by
  induction h with
  | refl => omega
  | @tail q₁ q₂ _ hstep ih =>
    have hlt := hstep.lt
    cases hstep with
    | blank =>
      dsimp only at ih hlt ⊢
      omega
    | @word i j r r' m hword htake =>
      have hframes : r'.frames.length ≤ r.frames.length + 1 := by
        cases m with
        | leaf a =>
          obtain rfl := Option.some.inj htake
          exact Nat.le_succ _
        | enter o =>
          obtain rfl := Option.some.inj htake
          exact le_rfl
        | leave c =>
          obtain ⟨frames, done⟩ := r
          cases frames with
          | nil => cases htake
          | cons frame frames =>
            obtain ⟨a, -, rfl⟩ := Option.map_eq_some_iff.mp htake
            simp only [List.length_cons]
            omega
      dsimp only at ih hlt ⊢
      omega

theorem length_closers_le (h : ReflTransGen (JsonStep text room) (0, Reading.start) (i, r)) :
    (closers r).length ≤ i := by
  have hframes := JsonStep.frames_le h
  unfold closers
  rw [List.length_map]
  simpa [Reading.start] using hframes

-- A text that was read to its end only misses the closing brackets.
theorem reads_closers (h : ReflTransGen (JsonStep text room) (0, Reading.start) (text.length, r)) :
    ∃ f, JsonReads (text ++ closers r) f := by
  have hcount : r.count ≤ room := JsonStep.count_le h (Nat.zero_le _)
  have hb : Bracketed r := JsonStep.bracketed h (fun _ hfr => nomatch hfr)
  have hgrown := JsonStep.reach_grow (List.prefix_append text (closers r)) le_rfl h
    fun a _ => uncut_closers text r a
  obtain ⟨f, hf, hreach⟩ := reach_closers hb hcount
    (List.drop_left : (text ++ closers r).drop text.length = closers r)
    (List.prefix_append text (closers r)).length_le
  exact ⟨f, (jsonReads_iff_reach (hf.trans_le hcount)).mpr (hgrown.trans hreach)⟩

-- The text can be gone on with to one that is read, with no more than its own length and five bytes.
def JsonCompletes (text : List UInt8) : Prop :=
  ∃ rest f, (text ++ rest).length ≤ 2 * text.length + 5 ∧ JsonReads (text ++ rest) f

-- A string that can be gone on with is ended, and what is open is closed then.
theorem string_completes {more : List UInt8} (hc : text[i]? = some 34)
    (hchars : JsonChars text (i + 1) k) (hmore : JsonChars (text ++ more) k (text ++ more).length)
    (hfew : more.length ≤ 4)
    (hreach : ReflTransGen (JsonStep text room) (0, Reading.start) (i, r)) : JsonCompletes text := by
  have hlonger := List.prefix_append text (more ++ [34])
  have hend : (text ++ (more ++ [34]))[(text ++ more).length]? = some 34 := by simp
  have hword : JsonWord (text ++ (more ++ [34])) i
      (.leaf ⟨.string, i + 1, (text ++ more).length⟩) ((text ++ more).length + 1) := by
    refine .string (getElem?_longer hlonger hc) ?_ hend
    rw [← List.append_assoc]
    exact ((hchars.longer (List.prefix_append _ more)).trans hmore).longer
      (List.prefix_append _ [34])
  have hcount : r.count ≤ room := JsonStep.count_le hreach (Nat.zero_le _)
  have hgrown := JsonStep.reach_grow_of_lt hlonger (Nat.le_succ room) hreach
    (List.getElem?_eq_some_iff.mp hc).1
  have htake : r.take jsonClose (.leaf ⟨.string, i + 1, (text ++ more).length⟩) =
      some { r with done := r.done ++ .cons _ .nil .nil } := rfl
  have hread := hgrown.tail
    (.word hword htake ((Reading.count_take htake).trans_le (Nat.succ_le_succ hcount)))
  have hlen : (text ++ more).length + 1 = (text ++ (more ++ [34])).length := by
    simp [Nat.add_assoc]
  have hi := (List.getElem?_eq_some_iff.mp hc).1
  have hclosers := length_closers_le hreach
  have hsame : ∀ done, (closers ⟨r.frames, done⟩).length = (closers r).length := fun _ => rfl
  rw [hlen] at hread
  obtain ⟨f, hf⟩ := reads_closers hread
  rw [List.append_assoc] at hf
  refine ⟨_, f, ?_, hf⟩
  simp only [List.length_append, List.length_singleton, hsame]
  omega

theorem JsmnStop.part_completes (hfull : js.length ≤ len)
    (hstop : JsmnStop js len room (i, r) JSMN_ERROR_PART)
    (hreach : ReflTransGen (JsonStep (jsmnText js len) room) (0, Reading.start) (i, r)) :
    JsonCompletes (jsmnText js len) := by
  generalize hcode : JSMN_ERROR_PART = code at hstop
  cases hstop with
  | done => cases hcode
  | mismatch => cases hcode
  | full => cases hcode
  | bad hc hblank hnone hbad =>
    subst hcode
    rcases jsmnBad_reason hfull hc hblank hnone hbad with ⟨rfl, k, hchars, hbreak⟩ | ⟨-, hcode, -⟩
    · obtain ⟨digits, hfew, hdigits⟩ := hbreak.mend (hchars.le_length (List.getElem?_eq_some_iff.mp hc).1)
      exact string_completes hc hchars hdigits hfew hreach
    · cases hcode

theorem JsonStep.reach_le (h : ReflTransGen (JsonStep text room) q q') : q.1 ≤ q'.1 := by
  induction h with
  | refl => exact le_rfl
  | tail _ hstep ih => exact ih.trans (Nat.le_of_lt hstep.lt)

-- A text is not read at all if it is not read on from a point before its end.
theorem not_reads_of_stuck (hreach : ReflTransGen (JsonStep text room) (0, Reading.start) (i, r))
    (hi : i < text.length) (hstuck : ∀ q, ¬JsonStep text room (i, r) q) (hroom : f.count ≤ room) :
    ¬JsonReads text f := by
  intro hf
  have hall := (jsonReads_iff_reach hroom).mp hf
  rcases hreach.total_of_right_unique (fun _ _ _ h h' => h.unique h') hall with hon | hback
  · rcases hon.cases_head with heq | ⟨q, hstep, -⟩
    · obtain ⟨rfl, -⟩ := Prod.mk.inj heq
      exact absurd hi (Nat.lt_irrefl _)
    · exact hstuck q hstep
  · exact absurd hi (Nat.not_lt.mpr (JsonStep.reach_le hback))

-- A byte that nothing begins with in a text begins nothing in a longer one.
theorem jsmnBad_not_word {c : UInt8} (hfull : js.length ≤ len) (hc : (jsmnText js len)[i]? = some c)
    (hblank : ¬isBlank c) (hnone : ∀ m j, ¬JsonWord (jsmnText js len) i m j)
    (hcode : jsmnBad js len i = some JSMN_ERROR_INVAL)
    (hslash : ¬CutEscape (jsmnText js len) i) (htext : jsmnText js len <+: text) :
    ¬JsonWord text i m j := by
  intro hword
  have hc' := getElem?_longer htext hc
  rcases jsmnBad_reason hfull hc hblank hnone hcode with
    ⟨rfl, k, hchars, hbreak⟩ | ⟨hquote, -, e, c', hle, hmid, he, hends, hprim⟩
  · cases hword with
    | enter hb hi => 
      rcases mem_brackets hb with ⟨-, rfl, -⟩ | ⟨-, rfl, -⟩ <;> exact absurd (byte_unique hc' hi) (by decide)
    | leave hb hi =>
      rcases mem_brackets hb with ⟨-, -, rfl⟩ | ⟨-, -, rfl⟩ <;> exact absurd (byte_unique hc' hi) (by decide)
    | string hi hchars' hj => exact hbreak.not_chars hc hslash htext hchars hj hchars'
    | primitive hi hmem =>
      rw [byte_unique hi hc'] at hmem
      exact hmem (by simp)
  · cases hword with
    | enter hb hi =>
      obtain rfl := byte_unique hc' hi
      exact hnone _ _ (.enter hb hc)
    | leave hb hi =>
      obtain rfl := byte_unique hc' hi
      exact hnone _ _ (.leave hb hc)
    | string hi => exact hquote (byte_unique hc' hi)
    | primitive hi hmem hlt hmid' hend =>
      have he' := getElem?_longer htext he
      rcases Nat.lt_or_ge e j with hlt' | hge
      · obtain ⟨b, hb, hbprim⟩ := hmid' e hle hlt'
        exact hprim (byte_unique hb he' ▸ hbprim)
      · rcases Nat.lt_or_eq_of_le hge with hlt' | rfl
        · obtain ⟨b, hb, hbprim⟩ := hmid j (Nat.le_of_lt hlt) hlt'
          exact (isPrimitive_iff.mp hbprim).1 (hend b (getElem?_longer htext hb))
        · exact hends (hend c' he')

theorem JsmnStop.inval_ends (hfull : js.length ≤ len)
    (hstop : JsmnStop js len room (i, r) JSMN_ERROR_INVAL)
    (hslash : ¬CutEscape (jsmnText js len) i)
    (hreach : ReflTransGen (JsonStep (jsmnText js len) room) (0, Reading.start) (i, r))
    (rest : List UInt8) (f : JsonForest) : ¬JsonReads (jsmnText js len ++ rest) f := by
  have hlonger := List.prefix_append (jsmnText js len) rest
  have hstuck : i < (jsmnText js len).length ∧
      ∀ q, ¬JsonStep (jsmnText js len ++ rest) (room + f.count) (i, r) q := by
    generalize hcode : JSMN_ERROR_INVAL = code at hstop
    cases hstop with
    | done => cases hcode
    | full => cases hcode
    | bad hc hblank hnone hbad =>
      subst hcode
      refine ⟨(List.getElem?_eq_some_iff.mp hc).1, fun q hstep => ?_⟩
      cases hstep with
      | blank hc' hblank' =>
        exact hblank (byte_unique hc' (getElem?_longer hlonger hc) ▸ hblank')
      | word hword => exact jsmnBad_not_word hfull hc hblank hnone hbad hslash hlonger hword
    | mismatch hword htake =>
      obtain ⟨c, hc⟩ := hword.getElem?
      have hword' := hword.longer hlonger (by
        rintro a rfl
        cases htake)
      refine ⟨(List.getElem?_eq_some_iff.mp hc).1, fun q hstep => ?_⟩
      cases hstep with
      | blank hc' hblank => exact hword'.not_blank hc' hblank
      | word hword'' htake' =>
        obtain ⟨rfl, -⟩ := hword'.unique hword''
        rw [htake] at htake'
        cases htake'
  have hgrown := JsonStep.reach_grow_of_lt hlonger (Nat.le_add_right room f.count) hreach hstuck.1
  exact not_reads_of_stuck hgrown (hstuck.1.trans_le hlonger.length_le) hstuck.2
    (Nat.le_add_left _ _)

-- What the errors tell: after JSMN_ERROR_PART the text can be gone on with to one that is read, and
-- after JSMN_ERROR_INVAL it cannot, but if it ends inside an escape sequence. The longer text is short
-- enough as well.
theorem jsmnParse_codes (input : JsmnInput) (hlen : strlen input.js ≤ input.len)
    (hhalf : 2 * (jsmnText input.js input.len).length + 5 < 2 ^ 31) (array : JsmnArray) :
    let text := jsmnText input.js input.len
    let Completes := ∃ rest f, (text ++ rest).length < 2 ^ 31 ∧ JsonReads (text ++ rest) f
    ∃ result p tokens', jsmnParse jsmnInit input.js input.len (some array.1) = some (result, p, some tokens') ∧
      (result = JSMN_ERROR_PART → Completes) ∧
      (result = JSMN_ERROR_INVAL → (Completes ↔ CutEscape text p.pos)) := by
  obtain ⟨js, len, hshort⟩ := input
  obtain ⟨tokens, htokens⟩ := array
  have hcompletes : JsonCompletes (jsmnText js len) → ∃ rest f, (jsmnText js len ++ rest).length < 2 ^ 31 ∧
      JsonReads (jsmnText js len ++ rest) f := by
    rintro ⟨rest, f, hle, hf⟩
    exact ⟨rest, f, hle.trans_lt hhalf, hf⟩
  obtain ⟨stop, p, tokens', r, hparse, hreach, hstop, hhold⟩ := jsmnParse_init js len tokens
  refine ⟨_, p, tokens', hparse, fun hresult => hcompletes ?_, fun hresult => ?_⟩
  · unfold jsmnResult at hresult
    split at hresult
    · subst hresult
      exact hstop.part_completes hlen hreach
    · rename_i hneg
      have hpos : p.pos = (jsmnText js len).length := (hstop.eq_zero hneg).2
      rw [hpos] at hreach
      have hclosers := length_closers_le hreach
      obtain ⟨f, hf⟩ := reads_closers hreach
      refine ⟨_, f, ?_, hf⟩
      rw [List.length_append]
      omega
  · have hcode : stop = JSMN_ERROR_INVAL := by
      unfold jsmnResult at hresult
      split at hresult
      · exact hresult
      · split at hresult
        · cases hresult
        · have hinval : JSMN_ERROR_INVAL = -2 := rfl
          omega
    subst hcode
    constructor
    · rintro ⟨rest, f, -, hf⟩
      by_contra hslash
      exact hstop.inval_ends hlen hslash hreach rest f hf
    · rintro ⟨hquote, k, hchars, hslash, hend⟩
      exact hcompletes (string_completes hquote hchars (CutEscape.mend hslash hend) (by decide) hreach)

theorem jsmnParse_codes_open :
    (jsmnParse jsmnInit [91, 34, 92] 3 (some [⟨.string, 0, 0, 0⟩])).map Prod.fst = some JSMN_ERROR_INVAL ∧
    ∃ rest f, ([91, 34, 92] ++ rest).length < 2 ^ 31 ∧ JsonReads ([91, 34, 92] ++ rest) f := by
  obtain ⟨result, p, tokens', hparse, -, hinval⟩ :=
    jsmnParse_codes ⟨[91, 34, 92], 3, by decide⟩ (by decide) (by decide) ⟨[⟨.string, 0, 0, 0⟩], by decide⟩
  have hrun : (jsmnParse jsmnInit [91, 34, 92] 3 (some [⟨.string, 0, 0, 0⟩])).map
      (fun r => (r.1, r.2.1.pos)) = some (JSMN_ERROR_INVAL, 1) := by decide +kernel
  rw [hparse] at hrun ⊢
  simp only [Option.map_some, Option.some.injEq, Prod.mk.injEq] at hrun
  obtain ⟨rfl, hpos⟩ := hrun
  refine ⟨rfl, (hinval rfl).mpr ?_⟩
  rw [hpos]
  exact ⟨rfl, 2, .done, rfl, rfl⟩

end Codes

end Adventure

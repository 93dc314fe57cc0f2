import Adventure.Jsmn.Words
import Mathlib.Data.List.Induction

namespace Adventure

open Nest

def jsonTok (a : JsonSpan) (size : Nat) : JsmnTok := ⟨a.type, a.start, a.stop, size⟩

def jsonOpenTok (o : JsmnType × Nat) (size : Nat) : JsmnTok := ⟨o.1, o.2, -1, size⟩

def jsonClose (o c : JsmnType × Nat) : Option JsonSpan :=
  if o.1 = c.1 then some ⟨o.1, o.2, c.2⟩ else none

abbrev JsonForest := Forest JsonSpan

abbrev JsonReading := Reading JsonSpan (JsmnType × Nat)

-- The token of a string or a primitive is stored, and the parser goes to its last byte.
def jsmnStore (a : JsonSpan) (last : Nat) (s : JsmnState) : Int × JsmnState :=
  match s.tokens with
  | none => (0, s.setPos last)
  | some tokens =>
    match jsmnAllocToken s.parser tokens with
    | none => (JSMN_ERROR_NOMEM, s)
    | some (parser, tokens) => (0, ⟨{ parser with pos := last },
        some (jsmnFillToken tokens (parser.toknext - 1) a.type a.start a.stop), s.count⟩)

-- What the switch does at a mark. It does not look at the text for it.
def jsmnPut (m : JsonMark) (next : Nat) (s : JsmnState) : Option (Int × JsmnState) :=
  match m with
  | .leaf a => jsmnCounted (jsmnStore a (next - 1) s)
  | .enter o => jsmnOpen o.1 s
  | .leave c => jsmnClose c.1 s

-- The array of the tokens holds what was read, in front of the free ones.
structure TokensHold (s : JsmnState) (r : JsonReading) (free : List JsmnTok) : Prop where
  tokens : s.tokens = some (r.slots jsonTok jsonOpenTok ++ free)
  toknext : s.parser.toknext = r.count
  toksuper : s.parser.toksuper = (framesCount r.frames : Int) - 1

section LastOpen

theorem jsonTok_closed (a : JsonSpan) (size : Nat) :
    ¬((jsonTok a size).start ≠ -1 ∧ (jsonTok a size).stop = -1) := by
  simp only [jsonTok]
  omega

theorem jsonOpenTok_open (o : JsmnType × Nat) (size : Nat) :
    (jsonOpenTok o size).start ≠ -1 ∧ (jsonOpenTok o size).stop = -1 := by
  refine ⟨?_, rfl⟩
  simp only [jsonOpenTok]
  omega

theorem mem_slots_closed {f : JsonForest} {tok : JsmnTok} (h : tok ∈ f.slots jsonTok) :
    ¬(tok.start ≠ -1 ∧ tok.stop = -1) := by
  obtain ⟨node, -, rfl⟩ := List.mem_map.mp h
  exact jsonTok_closed node.1 node.2

variable {front closed rest : List JsmnTok}

-- Tokens that have ended are passed over.
theorem jsmnLastOpen_append (hclosed : ∀ tok ∈ closed, ¬(tok.start ≠ -1 ∧ tok.stop = -1)) :
    jsmnLastOpen (front ++ (closed ++ rest)) (front.length + closed.length) =
      jsmnLastOpen (front ++ (closed ++ rest)) front.length := by
  induction closed using List.reverseRecOn generalizing rest with
  | nil => rfl
  | append_singleton closed tok ih =>
    have htok := hclosed tok (by simp)
    have hget : (front ++ (closed ++ [tok] ++ rest))[front.length + closed.length]? = some tok := by
      simp
    rw [List.length_append, List.length_singleton, ← Nat.add_assoc, jsmnLastOpen, hget]
    simp only [Option.bind_eq_bind, Option.bind_some, if_neg htok]
    rw [List.append_assoc closed]
    exact ih fun t ht => hclosed t (by simp [ht])

-- The search ends at the innermost open group.
theorem jsmnLastOpen_spine (frames : List (Frame JsonSpan (JsmnType × Nat))) (n : Nat)
    (rest : List JsmnTok)
    (hclosed : ∀ tok ∈ closed, ¬(tok.start ≠ -1 ∧ tok.stop = -1)) :
    jsmnLastOpen (spine jsonTok jsonOpenTok frames n ++ (closed ++ rest))
      (framesCount frames + closed.length) = some ((framesCount frames : Int) - 1) := by
  rw [← length_spine jsonTok jsonOpenTok frames n, jsmnLastOpen_append hclosed]
  cases frames with
  | nil => rfl
  | cons frame frames =>
    rw [spine_cons, List.length_append, List.length_singleton, jsmnLastOpen, List.append_assoc,
      List.append_assoc, List.getElem?_append_right (by simp)]
    simp [jsonOpenTok_open]

end LastOpen

section Put

variable {s : JsmnState} {r r' : JsonReading} {free rest : List JsmnTok} {parser : JsmnParser}
  {tok : JsmnTok} {front : List JsmnTok}

theorem slotAt_append (front : List JsmnTok) (tok : JsmnTok) (rest : List JsmnTok) :
    slotAt (front ++ tok :: rest) front.length = some tok := by
  simp [slotAt]

-- The group that is innermost counts one more token, if there is a group.
theorem jsmnGrowSuper_slots (parser : JsmnParser) (h : parser.toksuper = (framesCount r.frames : Int) - 1)
    (rest : List JsmnTok) :
    jsmnGrowSuper parser (r.slots jsonTok jsonOpenTok ++ rest) =
      some (r.grown jsonTok jsonOpenTok ++ rest) := by
  obtain ⟨frames, done⟩ := r
  unfold jsmnGrowSuper
  cases frames with
  | nil =>
    have hsuper : parser.toksuper = -1 := h
    rw [if_pos hsuper, Reading.grown_nil]
  | cons frame frames =>
    have hsuper : parser.toksuper = ((⟨frames, frame.before⟩ : JsonReading).grown
        jsonTok jsonOpenTok).length := by
      rw [h, Reading.length_grown]
      simp only [framesCount, Reading.count]
      omega
    rw [if_neg (by omega), hsuper, Reading.slots_cons, Reading.grown_cons, List.append_assoc,
      List.cons_append, slotAt_append]
    simp [jsonOpenTok]

namespace TokensHold

theorem alloc_nil (h : TokensHold s r []) : jsmnAllocToken s.parser (r.slots jsonTok jsonOpenTok) = none := by
  have hget : (r.slots jsonTok jsonOpenTok)[s.parser.toknext]? = none := by
    rw [h.toknext]
    simp
  rw [jsmnAllocToken, hget]

theorem alloc_cons (h : TokensHold s r (tok :: free)) :
    jsmnAllocToken s.parser (r.slots jsonTok jsonOpenTok ++ tok :: free) =
      some ({ s.parser with toknext := r.count + 1 },
        r.slots jsonTok jsonOpenTok ++ ⟨tok.type, -1, -1, 0⟩ :: free) := by
  have hget : (r.slots jsonTok jsonOpenTok ++ tok :: free)[s.parser.toknext]? = some tok := by
    rw [h.toknext]
    simp
  rw [jsmnAllocToken, hget]
  simp [h.toknext]

theorem leaf_nil (h : TokensHold s r []) (a : JsonSpan) (last : Nat) :
    jsmnCounted (jsmnStore a last s) = some (JSMN_ERROR_NOMEM, s) := by
  have ht := h.tokens
  rw [List.append_nil] at ht
  simp only [jsmnStore, ht, h.alloc_nil, jsmnCounted]
  rfl

theorem leaf_cons (h : TokensHold s r (tok :: free)) (a : JsonSpan) (last : Nat) :
    ∃ s', jsmnCounted (jsmnStore a last s) = some (0, s') ∧ s'.parser.pos = last ∧
      s'.count = s.count + 1 ∧ TokensHold s' { r with done := r.done ++ .cons a .nil .nil } free := by
  have hset : jsmnFillToken (r.slots jsonTok jsonOpenTok ++ ⟨tok.type, -1, -1, 0⟩ :: free) r.count
      a.type a.start a.stop = r.slots jsonTok jsonOpenTok ++ jsonTok a 0 :: free := by
    simp [jsmnFillToken, jsonTok]
  have hgrow := jsmnGrowSuper_slots
    { s.parser with pos := last, toknext := r.count + 1 } h.toksuper (jsonTok a 0 :: free)
  simp only [jsmnStore, h.tokens, h.alloc_cons, jsmnCounted, Nat.add_sub_cancel, hset]
  rw [if_neg (by decide), hgrow]
  refine ⟨_, rfl, rfl, rfl, ?_, ?_, h.toksuper⟩
  · rw [Reading.slots_leaf]
    simp
  · simp [Reading.count, Nat.add_assoc]

theorem enter_nil (h : TokensHold s r []) (type : JsmnType) :
    jsmnOpen type s = some (JSMN_ERROR_NOMEM, { s with count := s.count + 1 }) := by
  have ht := h.tokens
  rw [List.append_nil] at ht
  simp only [jsmnOpen, ht, h.alloc_nil]

theorem enter_cons (h : TokensHold s r (tok :: free)) (type : JsmnType) :
    ∃ s', jsmnOpen type s = some (0, s') ∧ s'.parser.pos = s.parser.pos ∧
      s'.count = s.count + 1 ∧
      TokensHold s' ⟨⟨r.done, (type, s.parser.pos)⟩ :: r.frames, .nil⟩ free := by
  have hgrow := jsmnGrowSuper_slots { s.parser with toknext := r.count + 1 } h.toksuper
    (⟨tok.type, -1, -1, 0⟩ :: free)
  have hget : (r.grown jsonTok jsonOpenTok ++ ⟨tok.type, -1, -1, 0⟩ :: free)[r.count]? =
      some ⟨tok.type, -1, -1, 0⟩ := by simp
  simp only [jsmnOpen, h.tokens, h.alloc_cons, hgrow, Option.bind_eq_bind, Option.bind_some,
    Nat.add_sub_cancel, hget]
  refine ⟨_, rfl, rfl, rfl, ?_, ?_, ?_⟩
  · rw [Reading.slots_enter]
    simp [jsonOpenTok]
  · simp [Reading.count, framesCount, Nat.add_assoc]
  · simp [Reading.count, framesCount, Nat.add_assoc]

-- The search for the group to close, with any tokens behind those that are taken.
theorem lastOpen (h : TokensHold s r free) :
    jsmnLastOpen (r.slots jsonTok jsonOpenTok ++ free) s.parser.toknext =
      some ((framesCount r.frames : Int) - 1) := by
  have hlast := jsmnLastOpen_spine r.frames r.done.width free
    fun _ => mem_slots_closed (f := r.done)
  rwa [Forest.length_slots, ← List.append_assoc, ← Reading.count, ← h.toknext] at hlast

-- The token of the group ends if it has the type, and the group around it becomes the innermost.
theorem close_frame {frame : Frame JsonSpan (JsmnType × Nat)}
    {frames : List (Frame JsonSpan (JsmnType × Nat))} {done : JsonForest}
    (h : TokensHold s ⟨frame :: frames, done⟩ free) (type : JsmnType) :
    jsmnClose type s = if frame.opened.1 ≠ type then some (JSMN_ERROR_INVAL, s)
      else some (0, ⟨{ s.parser with toksuper := (framesCount frames : Int) - 1 },
        some ((⟨frames, frame.before⟩ : JsonReading).grown jsonTok jsonOpenTok ++
          jsonTok ⟨frame.opened.1, frame.opened.2, s.parser.pos + 1⟩ done.width ::
            (done.slots jsonTok ++ free)), s.count⟩) := by
  have hi : (framesCount (frame :: frames) : Int) - 1 =
      ((⟨frames, frame.before⟩ : JsonReading).grown jsonTok jsonOpenTok).length := by
    rw [Reading.length_grown]
    simp only [framesCount, Reading.count]
    omega
  have hclosed : ∀ tok ∈ frame.before.slots jsonTok ++
      [jsonTok ⟨frame.opened.1, frame.opened.2, s.parser.pos + 1⟩ done.width],
      ¬(tok.start ≠ -1 ∧ tok.stop = -1) := by
    intro tok htok
    rcases List.mem_append.mp htok with hmem | hmem
    · exact mem_slots_closed hmem
    · rw [List.mem_singleton.mp hmem]
      exact jsonTok_closed _ _
  have hsuper := jsmnLastOpen_spine frames (frame.before.width + 1)
    (done.slots jsonTok ++ free) hclosed
  have hlist : spine jsonTok jsonOpenTok frames (frame.before.width + 1) ++
      (frame.before.slots jsonTok ++ [jsonTok ⟨frame.opened.1, frame.opened.2, s.parser.pos + 1⟩
        done.width] ++ (done.slots jsonTok ++ free)) =
      (⟨frames, frame.before⟩ : JsonReading).grown jsonTok jsonOpenTok ++
        jsonTok ⟨frame.opened.1, frame.opened.2, s.parser.pos + 1⟩ done.width ::
          (done.slots jsonTok ++ free) := by
    simp [Reading.grown]
  have hcount : framesCount frames + (frame.before.slots jsonTok ++
      [jsonTok ⟨frame.opened.1, frame.opened.2, s.parser.pos + 1⟩ done.width]).length =
      ((⟨frames, frame.before⟩ : JsonReading).grown jsonTok jsonOpenTok).length + 1 := by
    simp [Reading.count, Nat.add_assoc]
  rw [hlist, hcount] at hsuper
  have hlast := h.lastOpen
  rw [hi] at hlast
  unfold jsmnClose
  simp only [h.tokens, hlast, Option.bind_eq_bind, Option.bind_some]
  rw [if_neg (by omega), Reading.slots_cons, List.append_assoc, List.cons_append, slotAt_append,
    Option.bind_some]
  by_cases htype : frame.opened.1 = type
  · rw [if_neg (by simpa [jsonOpenTok] using htype), if_neg (by simpa using htype)]
    simp only [Int.toNat_natCast, List.set_append_right _ _ le_rfl, Nat.sub_self, List.set_cons_zero]
    have htok : (⟨(jsonOpenTok frame.opened done.width).type,
        (jsonOpenTok frame.opened done.width).start, s.parser.pos + 1,
        (jsonOpenTok frame.opened done.width).size⟩ : JsmnTok) =
        jsonTok ⟨frame.opened.1, frame.opened.2, s.parser.pos + 1⟩ done.width := by
      simp [jsonTok, jsonOpenTok]
    rw [htok, hsuper]
    rfl
  · rw [if_pos (by simpa [jsonOpenTok] using htype), if_pos htype]
    rfl

theorem leave_none {c : JsmnType × Nat} (h : TokensHold s r free)
    (ht : r.take jsonClose (.leave c) = none) :
    jsmnClose c.1 s = some (JSMN_ERROR_INVAL, s) := by
  obtain ⟨frames, done⟩ := r
  cases frames with
  | nil =>
    simp only [jsmnClose, h.tokens, h.lastOpen, Option.bind_eq_bind, Option.bind_some]
    rfl
  | cons frame frames =>
    rw [h.close_frame, if_pos]
    intro htype
    simp [Reading.take, jsonClose, htype] at ht

theorem leave_some {type : JsmnType} (h : TokensHold s r free)
    (ht : r.take jsonClose (.leave (type, s.parser.pos + 1)) = some r') :
    ∃ s', jsmnClose type s = some (0, s') ∧ s'.parser.pos = s.parser.pos ∧ s'.count = s.count ∧
      TokensHold s' r' free := by
  have hcount := Reading.count_take ht
  obtain ⟨frames, done⟩ := r
  cases frames with
  | nil => cases ht
  | cons frame frames =>
    obtain ⟨a, ha, rfl⟩ := Option.map_eq_some_iff.mp ht
    unfold jsonClose at ha
    split at ha
    · rename_i htype
      obtain rfl := Option.some.inj ha
      rw [h.close_frame, if_neg (by simpa using htype)]
      refine ⟨_, rfl, rfl, rfl, ?_, ?_, rfl⟩
      · rw [Reading.slots_leave]
        simp
      · rw [hcount]
        exact h.toknext
    · cases ha

end TokensHold

end Put

end Adventure

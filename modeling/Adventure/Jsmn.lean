import Adventure.Struct.Trie

namespace Adventure

def JSMN_ERROR_NOMEM : Int := -1
def JSMN_ERROR_INVAL : Int := -2
def JSMN_ERROR_PART : Int := -3

inductive JsmnType
  | primitive
  | object
  | array
  | string
  deriving DecidableEq

-- jsmntok_t, with its end as `stop`.
structure JsmnTok where
  type : JsmnType
  start : Int
  stop : Int
  size : Int
  deriving DecidableEq

-- Positions, counts and toknext are unsigned or signed ints. They are those of this model for texts of
-- fewer than 2^31 bytes; in a longer text they wrap around.
structure JsmnParser where
  pos : Nat
  toknext : Nat
  toksuper : Int
  deriving DecidableEq

def jsmnInit : JsmnParser := ⟨0, 0, -1⟩

-- js[pos]. The byte after those of the string is its NUL, and there is none after that.
def byteAt (js : CStr) (pos : Nat) : Option UInt8 := (js ++ [0])[pos]?

def slotAt (tokens : List JsmnTok) (i : Int) : Option JsmnTok :=
  if i < 0 then none else tokens[i.toNat]?

-- The array is as long as num_tokens says. Without a free token there is none: NULL.
def jsmnAllocToken (parser : JsmnParser) (tokens : List JsmnTok) :
    Option (JsmnParser × List JsmnTok) :=
  match tokens[parser.toknext]? with
  | none => none
  | some tok => some ({ parser with toknext := parser.toknext + 1 },
      tokens.set parser.toknext { tok with start := -1, stop := -1, size := 0 })

def jsmnFillToken (tokens : List JsmnTok) (i : Nat) (type : JsmnType) (start stop : Nat) :
    List JsmnTok :=
  tokens.set i ⟨type, start, stop, 0⟩

-- What a step of the parser changes. An array of none is NULL.
structure JsmnState where
  parser : JsmnParser
  tokens : Option (List JsmnTok)
  count : Nat
  deriving DecidableEq

def JsmnState.setPos (s : JsmnState) (pos : Nat) : JsmnState :=
  { s with parser := { s.parser with pos := pos } }

-- ':', '\t', '\r', '\n', ' ', ',', ']' and '}'.
def endsPrimitive (c : UInt8) : Bool := c ∈ [58, 9, 13, 10, 32, 44, 93, 125]

-- The loop of jsmn_parse_primitive: the error or 0, and the position it leaves. `none` is a read
-- outside the string, or a loop that does not end.
def jsmnPrimitiveLoop (js : CStr) (len start : Nat) : Nat → Nat → Option (Int × Nat)
  | 0, _ => none
  | steps + 1, pos =>
    if pos < len then do
      let c ← byteAt js pos
      if c = 0 then return (0, pos)
      if endsPrimitive c then return (0, pos)
      -- A char is signed: a byte from 128 on is negative.
      if c < 32 ∨ 127 ≤ c then return (JSMN_ERROR_INVAL, start)
      jsmnPrimitiveLoop js len start steps (pos + 1)
    else some (0, pos)

def jsmnParsePrimitive (js : CStr) (len : Nat) (s : JsmnState) : Option (Int × JsmnState) := do
  let start := s.parser.pos
  let r ← jsmnPrimitiveLoop js len start (len - start + 1) start
  if r.1 < 0 then return (r.1, s.setPos r.2)
  match s.tokens with
  | none => return (0, s.setPos (r.2 - 1))
  | some tokens =>
    match jsmnAllocToken s.parser tokens with
    | none => return (JSMN_ERROR_NOMEM, s.setPos start)
    | some (parser, tokens) =>
      let tokens := jsmnFillToken tokens (parser.toknext - 1) .primitive start r.2
      return (0, ⟨{ parser with pos := r.2 - 1 }, some tokens, s.count⟩)

def isHexDigit (c : UInt8) : Bool := 48 ≤ c ∧ c ≤ 57 ∨ 65 ≤ c ∧ c ≤ 70 ∨ 97 ≤ c ∧ c ≤ 102

-- '\"', '/', '\\', 'b', 'f', 'r', 'n' and 't'.
def isEscape (c : UInt8) : Bool := c ∈ [34, 47, 92, 98, 102, 114, 110, 116]

-- The digits after \u: `left` more of them, but not over the NUL.
def jsmnHexLoop (js : CStr) : Nat → Nat → Option (Int × Nat)
  | 0, pos => some (0, pos)
  | left + 1, pos => do
    let c ← byteAt js pos
    if c = 0 then return (0, pos)
    if !isHexDigit c then return (JSMN_ERROR_INVAL, pos)
    jsmnHexLoop js left (pos + 1)

def jsmnStringLoop (js : CStr) (len start : Nat) : Nat → Nat → Option (Int × Nat)
  | 0, _ => none
  | steps + 1, pos =>
    if pos < len then do
      let c ← byteAt js pos
      if c = 0 then return (JSMN_ERROR_PART, start)
      if c = 34 then return (0, pos)
      if c = 92 then
        let e ← byteAt js (pos + 1)
        if isEscape e then jsmnStringLoop js len start steps (pos + 2)
        else if e = 117 then
          let r ← jsmnHexLoop js 4 (pos + 2)
          if r.1 < 0 then return (r.1, start)
          jsmnStringLoop js len start steps (r.2 - 1 + 1)
        else return (JSMN_ERROR_INVAL, start)
      else jsmnStringLoop js len start steps (pos + 1)
    else some (JSMN_ERROR_PART, start)

def jsmnParseString (js : CStr) (len : Nat) (s : JsmnState) : Option (Int × JsmnState) := do
  let start := s.parser.pos
  let r ← jsmnStringLoop js len start (len - start + 1) (start + 1)
  if r.1 < 0 then return (r.1, s.setPos r.2)
  match s.tokens with
  | none => return (0, s.setPos r.2)
  | some tokens =>
    match jsmnAllocToken s.parser tokens with
    | none => return (JSMN_ERROR_NOMEM, s.setPos start)
    | some (parser, tokens) =>
      let tokens := jsmnFillToken tokens (parser.toknext - 1) .string (start + 1) r.2
      return (0, ⟨{ parser with pos := r.2 }, some tokens, s.count⟩)

-- tokens[parser->toksuper].size++, if there is such a token.
def jsmnGrowSuper (parser : JsmnParser) (tokens : List JsmnTok) : Option (List JsmnTok) :=
  if parser.toksuper = -1 then some tokens
  else do
    let tok ← slotAt tokens parser.toksuper
    return tokens.set parser.toksuper.toNat { tok with size := tok.size + 1 }

-- case '{': case '[':
def jsmnOpen (type : JsmnType) (s : JsmnState) : Option (Int × JsmnState) :=
  let count := s.count + 1
  match s.tokens with
  | none => some (0, { s with count := count })
  | some tokens =>
    match jsmnAllocToken s.parser tokens with
    | none => some (JSMN_ERROR_NOMEM, { s with count := count })
    | some (parser, tokens) => do
      let tokens ← jsmnGrowSuper parser tokens
      let tok ← tokens[parser.toknext - 1]?
      let tokens := tokens.set (parser.toknext - 1) { tok with type := type, start := parser.pos }
      return (0, ⟨{ parser with toksuper := parser.toknext - 1 }, some tokens, count⟩)

-- The last of the first `n` tokens that has begun and not ended, or -1.
def jsmnLastOpen (tokens : List JsmnTok) : Nat → Option Int
  | 0 => some (-1)
  | n + 1 => do
    let token ← tokens[n]?
    if token.start ≠ -1 ∧ token.stop = -1 then return n
    jsmnLastOpen tokens n

-- case '}': case ']':
def jsmnClose (type : JsmnType) (s : JsmnState) : Option (Int × JsmnState) :=
  match s.tokens with
  | none => some (0, s)
  | some tokens => do
    let i ← jsmnLastOpen tokens s.parser.toknext
    if i = -1 then return (JSMN_ERROR_INVAL, s)
    let token ← slotAt tokens i
    if token.type ≠ type then return (JSMN_ERROR_INVAL, s)
    let tokens := tokens.set i.toNat { token with stop := s.parser.pos + 1 }
    -- The search goes on from the token that has just ended.
    let super ← jsmnLastOpen tokens (i.toNat + 1)
    return (0, ⟨{ s.parser with toksuper := super }, some tokens, s.count⟩)

-- What follows a string or a primitive.
def jsmnCounted (r : Int × JsmnState) : Option (Int × JsmnState) :=
  if r.1 < 0 then some r
  else
    match r.2.tokens with
    | none => some (0, { r.2 with count := r.2.count + 1 })
    | some tokens => do
      let tokens ← jsmnGrowSuper r.2.parser tokens
      return (0, { r.2 with tokens := some tokens, count := r.2.count + 1 })

-- '\t', '\r', '\n', ':', ',' and ' '.
def isBlank (c : UInt8) : Bool := c ∈ [9, 13, 10, 58, 44, 32]

-- The switch over the byte at the position: an error, or 0.
def jsmnSwitch (js : CStr) (len : Nat) (c : UInt8) (s : JsmnState) : Option (Int × JsmnState) :=
  if c = 123 ∨ c = 91 then jsmnOpen (if c = 123 then .object else .array) s
  else if c = 125 ∨ c = 93 then jsmnClose (if c = 125 then .object else .array) s
  else if c = 34 then do jsmnCounted (← jsmnParseString js len s)
  else if isBlank c then some (0, s)
  else do jsmnCounted (← jsmnParsePrimitive js len s)

def jsmnLoop (js : CStr) (len : Nat) : Nat → JsmnState → Option (Int × JsmnState)
  | 0, _ => none
  | steps + 1, s =>
    if s.parser.pos < len then do
      let c ← byteAt js s.parser.pos
      if c = 0 then return (0, s)
      let r ← jsmnSwitch js len c s
      if r.1 < 0 then return r
      jsmnLoop js len steps (r.2.setPos (r.2.parser.pos + 1))
    else some (0, s)

-- The result, and the parser and the tokens as they are left.
def jsmnParse (parser : JsmnParser) (js : CStr) (len : Nat) (tokens : Option (List JsmnTok)) :
    Option (Int × JsmnParser × Option (List JsmnTok)) := do
  let r ← jsmnLoop js len (len - parser.pos + 1) ⟨parser, tokens, 0⟩
  if r.1 < 0 then return (r.1, r.2.parser, r.2.tokens)
  let i ← jsmnLastOpen (r.2.tokens.getD []) r.2.parser.toknext
  if 0 ≤ i then return (JSMN_ERROR_PART, r.2.parser, r.2.tokens)
  return (r.2.count, r.2.parser, r.2.tokens)

end Adventure

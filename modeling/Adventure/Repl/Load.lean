import Adventure.Jsmn.Feed
import Adventure.Util.Fs

namespace Adventure

open Nest Relation

-- What is printed: the JSON text, the result code, the last open token and the text of a token.
inductive LoadLine
  | json (text : CStr)
  | code (n : Int)
  | toksuper (i : Int)
  | key (text : CStr)
  deriving DecidableEq

-- memcpy of the text of a token to an array on the stack, which has `stack` bytes left. The length is
-- unsigned, and the NUL is the last byte there is.
def keyString (stack : Nat) (json : CStr) (key : JsmnTok) : Option CStr :=
  let keyLen := ((key.stop - key.start) % 2 ^ 32).toNat
  if keyLen < stack ∧ key.start.toNat + keyLen ≤ strlen json + 1 then
    some (((json ++ [0]).drop key.start.toNat).take keyLen)
  else none

def printKeys (stack : Nat) (json : CStr) : List JsmnTok → Option (List LoadLine)
  | [] => some []
  | key :: tokens => do
    if key.start < 0 ∨ key.stop < 0 then printKeys stack json tokens
    else
      let keyText ← keyString stack json key
      return .key keyText :: (← printKeys stack json tokens)

-- `tokens` is what the array on the stack happens to hold. `none` is a read outside of it or of the
-- text, or a stack that runs over.
def streamJSON (stack : Nat) (tokens : List JsmnTok) (json : CStr) : Option (Int × List LoadLine) := do
  let (resultCode, p, tokens) ← jsmnParse jsmnInit json (strlen json) (some tokens)
  let len := if p.toksuper < 0 then resultCode else p.toksuper
  if (tokens.getD []).length < len then none
  else
    let keys ← printKeys stack json ((tokens.getD []).take len.toNat)
    return (resultCode, .json json :: .code resultCode :: .toksuper p.toksuper :: keys)

-- The bytes of a mapping up to the first NUL. The rest of its last page is zero. What is behind it is
-- not the file's, and need not be mapped.
def mappedString (file : FsMap) : Option CStr :=
  let bytes := file.data.read 0 file.size
  if 0 ∈ bytes then some (bytes.takeWhile (· ≠ 0))
  else if file.size % 4096 = 0 then none
  else some bytes

-- A file of none could not be mapped: fs_map is NULL then, and load looks at its data.
def load (stack : Nat) (file : Option FsMap) (tokens : List JsmnTok) : Option (Int × List LoadLine) := do
  let file ← file
  let buf ← mappedString file
  streamJSON stack tokens buf

variable {json : CStr} {text : List UInt8} {room i : Nat} {r r' : JsonReading} {q q' : JsonPoint}
  {tok tok' : JsmnTok} {f : JsonForest} {tokens tokens' : List JsmnTok} {stack : Nat}

section Spans

-- A token begins in the text, and if it has ended, then it did so at a byte that was read.
def Spanned (pos : Nat) (tok : JsmnTok) : Prop :=
  0 ≤ tok.start ∧ tok.start ≤ pos ∧ (tok.stop = -1 ∨ tok.start ≤ tok.stop ∧ tok.stop ≤ pos)

theorem Spanned.mono {pos pos' : Nat} (h : Spanned pos tok) (hle : pos ≤ pos') :
    Spanned pos' tok := by
  unfold Spanned at *
  omega

theorem spanned_grown (pos : Nat)
    (h : ∀ tok ∈ r.slots jsonTok jsonOpenTok, Spanned pos tok) :
    ∀ tok ∈ r.grown jsonTok jsonOpenTok, Spanned pos tok := by
  obtain ⟨frames, done⟩ := r
  cases frames with
  | nil => exact h
  | cons frame frames =>
    rw [Reading.slots_cons, List.forall_mem_append, List.forall_mem_cons] at h
    rw [Reading.grown_cons, List.forall_mem_append, List.forall_mem_cons]
    exact h

theorem JsonStep.spanned (h : JsonStep text room q q')
    (hq : ∀ tok ∈ q.2.slots jsonTok jsonOpenTok, Spanned q.1 tok) :
    ∀ tok ∈ q'.2.slots jsonTok jsonOpenTok, Spanned q'.1 tok := by
  have hle := h.lt
  cases h with
  | blank => exact fun tok htok => (hq tok htok).mono (Nat.le_succ _)
  | @word i j r r' m hword htake =>
    have hgrown := spanned_grown j fun tok htok => (hq tok htok).mono (Nat.le_of_lt hle)
    cases m with
    | leaf a =>
      obtain rfl := Option.some.inj htake
      have ha : Spanned j (jsonTok a 0) := by
        cases hword with
        | string _ hchars _ =>
          have := hchars.le
          refine ⟨?_, ?_, .inr ?_⟩ <;> simp only [jsonTok] <;> omega
        | primitive =>
          refine ⟨?_, ?_, .inr ?_⟩ <;> simp only [jsonTok] <;> omega
      rw [Reading.slots_leaf, List.forall_mem_append]
      exact ⟨hgrown, by simpa using ha⟩
    | enter o =>
      obtain rfl := Option.some.inj htake
      have ho : Spanned j (jsonOpenTok o 0) := by
        cases hword
        exact ⟨by simp [jsonOpenTok], by simp only [jsonOpenTok]; omega, .inl rfl⟩
      rw [Reading.slots_enter, List.forall_mem_append]
      exact ⟨hgrown, by simpa using ho⟩
    | leave c =>
      cases hword
      obtain ⟨frames, done⟩ := r
      cases frames with
      | nil => cases htake
      | cons frame frames =>
        obtain ⟨a, hclose, rfl⟩ := Option.map_eq_some_iff.mp htake
        rw [Reading.slots_cons, List.forall_mem_append, List.forall_mem_cons] at hq
        obtain ⟨hbefore, hopen, hdone⟩ := hq
        rw [Reading.slots_leave, List.forall_mem_append, List.forall_mem_cons]
        refine ⟨fun tok htok => (hbefore tok htok).mono (Nat.le_succ _), ?_,
          fun tok htok => (hdone tok htok).mono (Nat.le_succ _)⟩
        unfold jsonClose at hclose
        split at hclose
        · obtain rfl := Option.some.inj hclose
          obtain ⟨h0, hle', -⟩ := hopen
          simp only [jsonOpenTok] at h0 hle'
          refine ⟨?_, ?_, .inr ?_⟩ <;> simp only [jsonTok] <;> omega
        · cases hclose

theorem reach_spanned (h : ReflTransGen (JsonStep text room) (0, Reading.start) q) :
    ∀ tok ∈ q.2.slots jsonTok jsonOpenTok, Spanned q.1 tok := by
  induction h with
  | refl => exact fun _ htok => nomatch htok
  | tail _ hstep ih => exact hstep.spanned ih

end Spans

section Keys

-- The text of a token of the JSON text.
def spanText (json : CStr) (a : JsonSpan) : CStr := (json.drop a.start).take (a.stop - a.start)

theorem keyString_of_span {start stop : Nat} {type : JsmnType} {size : Int} (hle : start ≤ stop)
    (hstop : stop ≤ strlen json) (hlen : strlen json < 2 ^ 31) (hstack : strlen json < stack) :
    keyString stack json ⟨type, start, stop, size⟩ = some ((json.drop start).take (stop - start)) := by
  have hkey : (((stop : Int) - start) % 2 ^ 32).toNat = stop - start := by omega
  unfold keyString
  simp only [hkey, Int.toNat_natCast]
  unfold strlen at *
  rw [if_pos (by omega), List.drop_append_of_le_length (by omega), List.take_append_of_le_length]
  rw [List.length_drop]
  omega

theorem printKeys_isSome (hlen : strlen json < 2 ^ 31) (hstack : strlen json < stack)
    (h : ∀ tok ∈ tokens, Spanned (strlen json) tok) : ∃ keys, printKeys stack json tokens = some keys := by
  induction tokens with
  | nil => exact ⟨[], rfl⟩
  | cons tok tokens ih =>
    obtain ⟨htok, htokens⟩ := List.forall_mem_cons.mp h
    obtain ⟨keys, hkeys⟩ := ih htokens
    unfold printKeys
    by_cases hneg : tok.start < 0 ∨ tok.stop < 0
    · exact ⟨keys, by rw [if_pos hneg, hkeys]⟩
    · obtain ⟨type, start, stop, size⟩ := tok
      obtain ⟨h0, hstart, hstop⟩ := htok
      simp only at h0 hstart hstop hneg
      obtain ⟨a, rfl⟩ := Int.eq_ofNat_of_zero_le h0
      obtain ⟨b, rfl⟩ := Int.eq_ofNat_of_zero_le (by omega : 0 ≤ stop)
      rw [if_neg hneg, keyString_of_span (by omega) (by omega) hlen hstack, hkeys]
      exact ⟨_, rfl⟩

-- All nodes of a text that was read are printed, in their order.
theorem printKeys_slots (hlen : strlen json < 2 ^ 31) (hstack : strlen json < stack)
    (h : ∀ tok ∈ f.slots jsonTok, Spanned (strlen json) tok) :
    printKeys stack json (f.slots jsonTok) = some (f.flat.map fun node => .key (spanText json node.1)) := by
  unfold Forest.slots at *
  generalize f.flat = nodes at *
  induction nodes with
  | nil => rfl
  | cons node nodes ih =>
    rw [List.map_cons, List.forall_mem_cons] at h
    obtain ⟨⟨-, -, hstop⟩, hnodes⟩ := h
    simp only [jsonTok] at hstop
    have hneg : ¬((jsonTok node.1 node.2).start < 0 ∨ (jsonTok node.1 node.2).stop < 0) := by
      simp only [jsonTok]
      omega
    have hkey : keyString stack json (jsonTok node.1 node.2) = some (spanText json node.1) :=
      keyString_of_span (by omega) (by omega) hlen hstack
    rw [List.map_cons, printKeys, if_neg hneg, ih hnodes, hkey]
    rfl

end Keys

section Stream

-- The tokens that are printed: all of them, or those before the last one that is open.
def printed (result : Int) (r : JsonReading) : Nat :=
  if framesCount r.frames = 0 then result.toNat else framesCount r.frames - 1

theorem printed_le (stop : Int) (r : JsonReading) : printed (jsmnResult stop r 0) r ≤ r.count := by
  unfold printed
  split
  · unfold jsmnResult
    split
    · omega
    · split
      · exact Nat.zero_le _
      · omega
  · unfold Reading.count
    omega

theorem streamJSON_of_parse {p : JsmnParser} {stop : Int} {free : List JsmnTok}
    (hparse : jsmnParse jsmnInit json (strlen json) (some tokens) =
      some (jsmnResult stop r 0, p, some tokens'))
    (hhold : TokensHold ⟨p, some tokens', 0⟩ r free) :
    streamJSON stack tokens json =
      (printKeys stack json ((r.slots jsonTok jsonOpenTok).take (printed (jsmnResult stop r 0) r))).map
        fun keys => (jsmnResult stop r 0, .json json :: .code (jsmnResult stop r 0) ::
          .toksuper ((framesCount r.frames : Int) - 1) :: keys) := by
  have hle := printed_le stop r
  have hsuper : p.toksuper = (framesCount r.frames : Int) - 1 := hhold.toksuper
  have htokens : tokens' = r.slots jsonTok jsonOpenTok ++ free := Option.some.inj hhold.tokens
  have hlen : (if p.toksuper < 0 then jsmnResult stop r 0 else p.toksuper).toNat =
      printed (jsmnResult stop r 0) r := by
    rw [hsuper]
    unfold printed
    by_cases h0 : framesCount r.frames = 0
    · simp [h0]
    · rw [if_neg (by omega), if_neg h0]
      omega
  have hroom : ¬((tokens'.length : Int) <
      if p.toksuper < 0 then jsmnResult stop r 0 else p.toksuper) := by
    have hcount : r.count ≤ tokens'.length := by simp [htokens]
    omega
  have htake : tokens'.take (printed (jsmnResult stop r 0) r) =
      (r.slots jsonTok jsonOpenTok).take (printed (jsmnResult stop r 0) r) := by
    rw [htokens, List.take_append_of_le_length (by simpa using hle)]
  unfold streamJSON
  rw [hparse]
  simp only [Option.bind_eq_bind, Option.bind_some, Option.getD_some, if_neg hroom, hlen, htake]
  rw [hsuper]
  cases printKeys stack json ((r.slots jsonTok jsonOpenTok).take (printed (jsmnResult stop r 0) r)) <;> rfl

-- streamJSON prints the same whatever the array holds before, and where the brackets of the text
-- match and there is room for its tokens, it prints the text of each of them in order.
theorem streamJSON_prints (json : CStr) (hlen : strlen json < 2 ^ 31) (hstack : strlen json < stack) :
    ∃ code lines,
      (∀ tokens : List JsmnTok, tokens.length = 256 → streamJSON stack tokens json = some (code, lines)) ∧
      ∀ f, JsonReads (jsmnText json (strlen json)) f → f.count ≤ 256 →
        code = f.count ∧ lines = .json json :: .code f.count :: .toksuper (-1) ::
          f.flat.map fun node => .key (spanText json node.1) := by
  obtain ⟨stop, p, tokens', r, hparse, hreach, hstop, hhold⟩ :=
    jsmnParse_init json (strlen json) (List.replicate 256 ⟨.string, 0, 0, 0⟩)
  rw [List.length_replicate] at hreach hstop
  have hspans : ∀ tok ∈ r.slots jsonTok jsonOpenTok, Spanned (strlen json) tok := fun tok htok =>
    (reach_spanned hreach tok htok).mono
      ((JsonStep.pos_le hreach (Nat.zero_le _)).trans (length_jsmnText_le json (strlen json)))
  obtain ⟨keys, hkeys⟩ : ∃ keys, printKeys stack json ((r.slots jsonTok jsonOpenTok).take
      (printed (jsmnResult stop r 0) r)) = some keys :=
    printKeys_isSome hlen hstack fun tok htok => hspans tok (List.mem_of_mem_take htok)
  refine ⟨jsmnResult stop r 0, .json json :: .code (jsmnResult stop r 0) ::
    .toksuper ((framesCount r.frames : Int) - 1) :: keys, fun tokens htokens => ?_, fun f hf hroom => ?_⟩
  · obtain ⟨stop', p', tokens'', r', hparse', hreach', hstop', hhold'⟩ :=
      jsmnParse_init json (strlen json) tokens
    rw [htokens] at hreach' hstop'
    obtain ⟨heq, rfl⟩ := hstop.reached_unique hreach hreach' hstop'
    obtain ⟨-, rfl⟩ := Prod.mk.inj heq
    rw [streamJSON_of_parse hparse' hhold', hkeys]
    rfl
  · obtain ⟨heq, rfl⟩ := hstop.reached_unique hreach ((jsonReads_iff_reach hroom).mp hf) .done
    obtain ⟨-, rfl⟩ := Prod.mk.inj heq
    have hresult : jsmnResult 0 (⟨[], f⟩ : JsonReading) 0 = f.count := by simp [jsmnResult]
    have hall : ((⟨[], f⟩ : JsonReading).slots jsonTok jsonOpenTok).take
        (printed (jsmnResult 0 (⟨[], f⟩ : JsonReading) 0) ⟨[], f⟩) = f.slots jsonTok := by
      have hn : printed (f.count : Int) (⟨[], f⟩ : JsonReading) = f.count := by
        simp [printed, framesCount]
      rw [hresult, hn, Reading.slots_nil, List.take_of_length_le (by simp)]
    rw [hall, printKeys_slots hlen hstack hspans] at hkeys
    obtain rfl := Option.some.inj hkeys
    rw [hresult]
    exact ⟨rfl, rfl⟩

end Stream

section File

-- What a file holds in front of its first NUL.
def fileText (file : FsMap) : CStr := (file.data.read 0 file.size).takeWhile (· ≠ 0)

theorem mappedString_fsMap {file : FsMap} (h : file.size ≠ 0) :
    (fsMap file).bind mappedString =
      if 0 ∉ file.data.read 0 file.size ∧ file.size % 4096 = 0 then none
      else some (fileText file) := by
  have hread : Memory.read (fun i => if i < file.size then file.data i else 0) 0 file.size =
      file.data.read 0 file.size :=
    Memory.read_shift fun i hi => by simp [hi]
  rw [fsMap, if_neg h, Option.bind_some, mappedString, hread, fileText]
  by_cases hnul : 0 ∈ file.data.read 0 file.size
  · rw [if_pos hnul, if_neg fun hor => hor.1 hnul]
  · have hall : (file.data.read 0 file.size).takeWhile (· ≠ 0) = file.data.read 0 file.size := by
      rw [List.takeWhile_eq_self_iff]
      intro c hc
      simpa using fun h0 : c = 0 => hnul (h0 ▸ hc)
    rw [if_neg hnul, hall]
    by_cases hpage : file.size % 4096 = 0
    · rw [if_pos hpage, if_pos ⟨hnul, hpage⟩]
    · rw [if_neg hpage, if_neg fun hand => hpage hand.2]

theorem jsmnText_fileText (file : FsMap) :
    jsmnText (fileText file) (strlen (fileText file)) = fileText file := by
  unfold jsmnText strlen fileText
  rw [List.take_length, List.takeWhile_takeWhile]
  simp

theorem length_fileText_le (file : FsMap) : strlen (fileText file) ≤ file.size := by
  have h := (List.takeWhile_prefix (l := file.data.read 0 file.size)
    fun c : UInt8 => decide (c ≠ 0)).length_le
  rwa [Memory.length_read] at h

-- Loading a file that has bytes, and a NUL among them or a last page that is not full, comes back, whatever
-- the array holds. A file with a JSON text has the text of each of its tokens printed.
theorem load_prints (file : FsMap) (hpos : file.size ≠ 0) (hsize : file.size < 2 ^ 31)
    (hends : 0 ∈ file.data.read 0 file.size ∨ file.size % 4096 ≠ 0) (stack : Nat) (hstack : file.size < stack) :
    ∃ code lines,
      (∀ tokens : List JsmnTok, tokens.length = 256 → load stack (fsMap file) tokens = some (code, lines)) ∧
      ∀ f, JsonReads (fileText file) f → f.count ≤ 256 →
        code = f.count ∧ lines = .json (fileText file) :: .code f.count :: .toksuper (-1) ::
          f.flat.map fun node => .key (spanText (fileText file) node.1) := by
  have hle := length_fileText_le file
  obtain ⟨code, lines, hstream, hreads⟩ :=
    streamJSON_prints (fileText file) (hle.trans_lt hsize) (hle.trans_lt hstack)
  have hnot : ¬(0 ∉ file.data.read 0 file.size ∧ file.size % 4096 = 0) :=
    fun hfull => hends.elim hfull.1 (fun hpage => hpage hfull.2)
  rw [jsmnText_fileText] at hreads
  refine ⟨code, lines, fun tokens htokens => ?_, hreads⟩
  have hload : load stack (fsMap file) tokens =
      ((fsMap file).bind mappedString).bind (streamJSON stack tokens) := by
    unfold load
    cases fsMap file <;> rfl
  rw [hload, mappedString_fsMap hpos, if_neg hnot, Option.bind_some, hstream tokens htokens]

-- The file holds the text [1].
def arrayFile : FsMap := ⟨fun i => [91, 49, 93].getD i 0, 3, true, ⟨[], .granted⟩⟩

theorem load_prints_array : load 4096 (fsMap arrayFile) (List.replicate 256 ⟨.string, 0, 0, 0⟩) =
    some (2, [.json [91, 49, 93], .code 2, .toksuper (-1), .key [91, 49, 93], .key [49]]) := by
  obtain ⟨code, lines, hload, hprints⟩ :=
    load_prints arrayFile (by decide) (by decide) (.inr (by decide)) 4096 (by decide)
  obtain ⟨rfl, rfl⟩ := hprints _ jsonReads_array (by decide)
  exact hload _ List.length_replicate

end File

end Adventure

import Adventure.Repl

namespace Adventure

variable {env : ReplEnv} {s : ReplState} {line text : CStr} {w : CStr}

-- The words of a line.
def words (line : CStr) : List CStr := (line.splitOn 32).filter (· ≠ [])

section Words

@[simp] theorem words_nil : words [] = [] := by simp [words]

theorem words_append (before after : CStr) :
    words (before ++ 32 :: after) = words before ++ words after := by
  unfold words
  rw [List.splitOn_append_cons_of_beq before after (by rfl), List.filter_append]

theorem words_of_not_mem (hne : w ≠ []) (h : 32 ∉ w) : words w = [w] := by
  rw [words, List.splitOn_eq_singleton h]
  simp [hne]

theorem words_dropWhile (text : CStr) : words (text.dropWhile (· ∈ [32])) = words text := by
  induction text with
  | nil => rfl
  | cons c text ih =>
    by_cases hc : c = 32
    · subst hc
      have hspace : words (32 :: text) = words text := words_append [] text
      rw [hspace, ← ih]
      simp
    · simp [hc]

-- strtok gives the words one by one.
theorem strtok_words (text saved : CStr) :
    (strtok (some text) [32] saved).1 = (words text).head? ∧
      words (strtok (some text) [32] saved).2 = (words text).tail := by
  unfold strtok
  rw [← words_dropWhile text, Option.getD_some]
  generalize hs : text.dropWhile (· ∈ [32]) = t
  cases t with
  | nil => simp
  | cons c t =>
    have hc : c ≠ 32 := by
      have hhead := List.head?_dropWhile_not (· ∈ [(32 : UInt8)]) text
      rw [hs] at hhead
      simpa using hhead
    have hsplit : (c :: t).takeWhile (· ∉ [32]) ++ (c :: t).dropWhile (· ∉ [32]) = c :: t :=
      List.takeWhile_append_dropWhile
    have hne : (c :: t).takeWhile (· ∉ [32]) ≠ [] := by simp [hc]
    have hmem : 32 ∉ (c :: t).takeWhile (· ∉ [32]) := by
      intro hmem
      have := List.mem_takeWhile_imp hmem
      simp at this
    rw [if_neg (List.cons_ne_nil c t)]
    cases hrest : (c :: t).dropWhile (· ∉ [32]) with
    | nil =>
      rw [hrest, List.append_nil] at hsplit
      rw [hsplit] at hmem ⊢
      rw [words_of_not_mem (List.cons_ne_nil c t) hmem]
      simp
    | cons d rest =>
      have hd : d = 32 := by
        have hhead := List.head?_dropWhile_not (· ∉ [(32 : UInt8)]) (c :: t)
        rw [hrest] at hhead
        simpa using hhead
      subst hd
      rw [hrest] at hsplit
      rw [← hsplit, words_append, words_of_not_mem hne hmem, hsplit]
      exact ⟨rfl, rfl⟩

end Words

section Lookup

-- Keys of which none begins another are all found.
theorem trieGet_adds {adds : List (CStr × Nat)} (hnodup : (adds.map Prod.fst).Nodup)
    (hfree : ∀ x ∈ adds, ∀ y ∈ adds, x.1 <+: y.1 → x.1 = y.1) {q : CStr} (hq : q ≠ []) :
    ∃ t, trieAddAll adds trieCreate = some t ∧ trieGet t q = some ((adds.lookup q).getD 0) := by
  obtain ⟨t, hadd, hval, n, h⟩ := addAll_create adds
  have hroot : nodeVal adds [] = some t.val := by
    rw [hval]
    rfl
  have hsteps : q.length + 1 < strlen q + 2 + ([] : CStr).length := by
    unfold strlen
    omega
  obtain ⟨res, hres, hiff⟩ :=
    Trie.get_below (fun _ _ => nodeVal_closed) h hroot (List.nil_prefix (l := q)) hsteps
  have hlookup : res.map Trie.val = adds.lookup q := by
    apply Option.ext
    intro v
    rw [hiff, nodeVal_leaf, lookup_eq_some hnodup]
    constructor
    · rintro ⟨hv, hlast⟩
      obtain ⟨x, hx, rfl, hqx⟩ := mem_of_nodeVal hq hv
      obtain rfl := hlast x hx hqx
      exact hx
    · intro hmem
      have hlast := hfree (q, v) hmem
      exact ⟨nodeVal_of_mem hnodup hmem hq hlast, hlast⟩
  refine ⟨t, hadd, ?_⟩
  rw [trieGet, hres, ← hlookup]
  rfl

theorem fnAt_fnPtr (fn : ReplFn) : fnAt (fnPtr fn) = some fn := by
  cases fn <;> rfl

theorem lookup_replAdds (cmd : CStr) :
    fnAt ((replAdds.lookup cmd).getD 0) = replCmds.lookup cmd := by
  unfold replAdds
  induction replCmds with
  | nil => rfl
  | cons c cs ih =>
    obtain ⟨key, fn⟩ := c
    rw [List.map_cons, List.lookup_cons, List.lookup_cons]
    cases cmd == key with
    | true => exact fnAt_fnPtr fn
    | false => exact ih

-- The commands are found by their whole names, as none of them begins another one.
theorem trieGet_replAdds {cmd : CStr} (hcmd : cmd ≠ []) :
    ∃ cmds ptr, trieAddAll replAdds trieCreate = some cmds ∧ trieGet cmds cmd = some ptr ∧
      fnAt ptr = replCmds.lookup cmd := by
  obtain ⟨cmds, hadd, hget⟩ := trieGet_adds
    (by decide : (replAdds.map Prod.fst).Nodup) (by decide) hcmd
  exact ⟨cmds, _, hadd, hget, lookup_replAdds cmd⟩

end Lookup

section Lines

-- What a command does with the words behind it.
def execFn (env : ReplEnv) (fn : ReplFn) (args : List CStr) (s : ReplState) :
    Option (Int × ReplState × List ReplOut) :=
  match fn, args with
  | .loadJson, [] => some (2, s, [.text "load requires a file path"])
  | .loadJson, path :: _ =>
    (load env.stack (env.file s.dir path) env.tokens).map fun r => (r.1, s, [.loading path, .json r.2])
  | .status, _ => some (0, s, [.text "Connected. Ready."])
  | .sting, _ => some (0, s, [.text "Ouch."])
  | .openDb, [] => some (2, s, [.text "open requires a database name"])
  | .openDb, name :: _ =>
    let s := dbOpened env name 0 s
    some (0, s, if s.db.isNull then [.text "Error opening database"] else [])
  | .createDb, [] => some (2, s, [.text "create requires a database name"])
  | .createDb, name :: _ =>
    let s := dbOpened env name ADV_CREATE s
    some (0, s, if s.db.isNull then [.text "Error creating database"] else [])
  | .closeDb, _ => closeDb s
  | .addNode, _ => addNode s
  | .addEdge, args => execEdge advEdgeAdd args s
  | .removeEdge, args => execEdge advEdgeRemove args s
  | .debugPrint, _ => debugPrint s
where
  execEdge (edit : AdvDb → Nat → Nat → Option AdvDb) (args : List CStr) (s : ReplState) :
      Option (Int × ReplState × List ReplOut) :=
    match s.db, args with
    | .null, _ => some (-1, s, [])
    | .live place db, a :: b :: _ => (edit db (nodeP (atoi a)) (nodeP (atoi b))).map fun db =>
        (0, { s with db := .live place db }, [])
    | _, _ => none

theorem strtok_none (saved : CStr) (delim : List UInt8) :
    strtok none delim saved = strtok (some saved) delim [] := rfl

-- With no delimiters the rest of the line is the next token, unless there is none.
theorem strtok_args (saved : CStr) (delim : List UInt8) :
    strtok (strtok none [] saved).1 delim (strtok none [] saved).2 =
      strtok (some saved) delim [] := by
  have hskip : saved.dropWhile (· ∈ ([] : List UInt8)) = saved := by cases saved <;> simp
  have htoken : saved.takeWhile (· ∉ ([] : List UInt8)) = saved :=
    List.takeWhile_eq_self_iff.mpr fun c _ => by simp
  have hend : saved.dropWhile (· ∉ ([] : List UInt8)) = [] :=
    List.dropWhile_eq_nil_iff.mpr fun c _ => by simp
  have hrest : strtok none [] saved = if saved = [] then (none, []) else (some saved, []) := by
    unfold strtok
    simp only [Option.getD_none, hskip, htoken, hend]
    rfl
  rw [hrest]
  by_cases hnil : saved = []
  · rw [if_pos hnil, hnil]
    rfl
  · rw [if_neg hnil]

theorem editEdge_eq (edit : AdvDb → Nat → Nat → Option AdvDb) (saved : CStr) (s : ReplState) :
    editEdge edit (strtok none [] saved).1 (strtok none [] saved).2 s =
      execFn.execEdge edit (words saved) s := by
  obtain ⟨hfirst, hrest⟩ := strtok_words saved []
  obtain ⟨hsecond, -⟩ := strtok_words (strtok (some saved) [32] []).2 []
  rw [hrest] at hsecond
  unfold editEdge execFn.execEdge
  rw [strtok_args]
  cases s.db with
  | null => rfl
  | freed => cases words saved <;> rfl
  | live place db =>
    simp only [strtok_none, hfirst, hsecond]
    cases words saved with
    | nil => rfl
    | cons a rest =>
      cases rest with
      | nil => rfl
      | cons b rest =>
        simp only [List.head?_cons, List.tail_cons, Option.map_some, Option.bind_eq_bind,
          Option.bind_some]
        cases edit db (nodeP (atoi a)) (nodeP (atoi b)) <;> rfl

theorem callFn_eq (env : ReplEnv) (fn : ReplFn) (saved : CStr) (s : ReplState) :
    callFn env fn (strtok none [] saved).1 (strtok none [] saved).2 s =
      execFn env fn (words saved) s := by
  obtain ⟨hfirst, -⟩ := strtok_words saved []
  cases fn with
  | loadJson =>
    simp only [callFn, loadJson, strtok_args, hfirst]
    cases words saved with
    | nil => rfl
    | cons path rest =>
      simp only [List.head?_cons, execFn]
      cases load env.stack (env.file s.dir path) env.tokens <;> rfl
  | openDb =>
    simp only [callFn, openDb, strtok_args, hfirst]
    cases words saved <;> rfl
  | createDb =>
    simp only [callFn, openDb, strtok_args, hfirst]
    cases words saved <;> rfl
  | addEdge => exact editEdge_eq advEdgeAdd saved s
  | removeEdge => exact editEdge_eq advEdgeRemove saved s
  | status => cases words saved <;> rfl
  | sting => cases words saved <;> rfl
  | closeDb => cases words saved <;> rfl
  | addNode => cases words saved <;> rfl
  | debugPrint => cases words saved <;> rfl

-- A line is the command that its first word names, on the words behind it.
def execWords (env : ReplEnv) (ws : List CStr) (s : ReplState) :
    Option (Int × ReplState × List ReplOut) :=
  match ws with
  | [] => none
  | cmd :: args =>
    match replCmds.lookup cmd with
    | none => some (-1, s, [])
    | some fn => execFn env fn args s

theorem words_ne_nil (h : w ∈ words text) : w ≠ [] := by
  simpa using (List.mem_filter.mp h).2

theorem replRouteCmd_eq (env : ReplEnv) (line : CStr) (s : ReplState) :
    replRouteCmd env line s = execWords env (words line) s := by
  obtain ⟨hfirst, hrest⟩ := strtok_words line []
  unfold replRouteCmd execWords
  cases hws : words line with
  | nil =>
    rw [hws] at hfirst
    obtain ⟨cmds, hadd, -⟩ := addAll_create replAdds
    simp only [hfirst, hadd, List.head?_nil, Option.bind_eq_bind, Option.bind_some, Option.bind_none]
  | cons cmd args =>
    rw [hws] at hfirst hrest
    have hne : cmd ≠ [] := words_ne_nil (hws ▸ List.mem_cons_self)
    obtain ⟨cmds, ptr, hadd, hget, hfn⟩ := trieGet_replAdds hne
    simp only [hfirst, hadd, hget, hfn, List.head?_cons, Option.bind_eq_bind, Option.bind_some]
    cases replCmds.lookup cmd with
    | none => rfl
    | some fn =>
      rw [List.tail_cons] at hrest
      rw [← hrest]
      exact callFn_eq env fn _ s

-- A session, read word by word.
def execLines (env : ReplEnv) : List CStr → ReplState → Option (ReplState × List ReplOut)
  | [], s => some (s, [])
  | line :: lines, s =>
    if line = [] then execLines env lines s
    else if replWantsExit line then some (s, [])
    else do
      let (code, s, out) ← execWords env (words line) s
      let (s, outs) ← execLines env lines s
      return (s, out ++ (if code = -1 then [.unknown (cutLine line)] else []) ++ outs)

-- Whatever is typed, the commands are looked up in the trie, and called with the words of the lines.
theorem repl_execLines (env : ReplEnv) (lines : List CStr) (s : ReplState) :
    repl env lines s = execLines env lines s := by
  induction lines generalizing s with
  | nil => rfl
  | cons line lines ih => simp only [repl, execLines, replRouteCmd_eq, ih]

end Lines

end Adventure

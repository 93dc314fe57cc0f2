import Adventure.Linenoise.Complete
import Adventure.Linenoise.History
import Adventure.Linenoise.Keys

namespace Adventure

section Loop

theorem charVal_low {c : UInt8} (hlow : ¬128 ≤ c) : charVal c = c.toNat := by
  have hlt : c.toNat < 128 := by simpa [UInt8.le_iff_toNat_le] using hlow
  unfold charVal
  exact Int.bmod_eq_of_le (by omega) (by omega)

theorem charVal_high {c : UInt8} (hhigh : 128 ≤ c) : charVal c < 0 := by
  have hge : 128 ≤ c.toNat := by simpa [UInt8.le_iff_toNat_le] using hhigh
  have hlt := c.toNat_lt
  unfold charVal
  rw [Int.bmod_def]
  omega

variable {w : Window} {maxLen : Nat} {callback : CStr → List CStr}
  {call : CStr → Option (List CStr)} {junk : UInt8 × UInt8 × UInt8} {s : LineEdit} {e : Editor}

-- Two loops that end alike.
def SameReply {σ τ : Type} (R : σ → τ → Prop) (r : Option (Int × σ × List UInt8))
    (r' : Option (Int × τ × List UInt8)) : Prop :=
  ∃ count s t rest, r = some (count, s, rest) ∧ r' = some (count, t, rest) ∧ R s t

-- The loops do the same for a key, if they do from there on.
theorem onKey_same {go : LineEdit → List UInt8 → Option (Int × LineEdit × List UInt8)} {steps : Nat} {c : UInt8}
    {input : List UInt8} (hf : Follows w maxLen s e) (htab : c ≠ 9) (hc : w.Key c)
    (hgo : ∀ {s e input'}, Follows w maxLen s e → input' <:+ input →
      SameReply (Ended w maxLen callback) (go s input')
        (Editor.loop callback w.limit junk steps e input')) :
    SameReply (Ended w maxLen callback) (onKey junk go s c input)
      (Editor.loop callback w.limit junk (steps + 1) e (c :: input)) := by
  have hsuffix := Editor.stroke_suffix junk c input
  have hinsert : ∀ d, (Editor.stroke junk c input).1 = .insert d → w.plain d := fun d h => hc.insert htab h
  rw [onKey, Editor.loop, if_neg htab, editKey_stroke]
  generalize Editor.stroke junk c input = r at hsuffix hinsert
  obtain ⟨k, input'⟩ := r
  have hreply : KeyReply w maxLen callback (s.key k) (e.key w.limit k) :=
    hf.key k hinsert
  simp only [Option.bind_eq_bind]
  cases hk : e.key w.limit k with
  | more e' =>
    rw [hk] at hreply
    obtain ⟨s', hs, hf'⟩ := hreply
    simp only [hs, Option.bind_some]
    exact hgo hf' hsuffix
  | done e' count =>
    rw [hk] at hreply
    obtain ⟨s', hs, hend⟩ := hreply
    simp only [hs, Option.bind_some]
    exact ⟨count, s', e', input', rfl, rfl, hend⟩

variable (hcall : ∀ line, call line = some (callback line))
  (hshort : ∀ line, ∀ text ∈ callback line, text.length < w.limit)
  (hplain : ∀ line, ∀ text ∈ callback line, ∀ c ∈ text, w.plain c)

include hcall hshort hplain

-- linenoise and the editor end alike, each after as many rounds as it needs.
theorem editLoop_same {steps steps' : Nat} {input : List UInt8} (hf : Follows w maxLen s e)
    (hinput : ∀ c ∈ input, w.Key c) (hsteps : input.length < steps) (hsteps' : input.length < steps') :
    SameReply (Ended w maxLen callback) (editLoop call junk steps s input)
      (Editor.loop callback w.limit junk steps' e input) := by
  induction steps generalizing s e input steps' with
  | zero => cases hsteps
  | succ steps ih =>
    obtain ⟨steps', rfl⟩ : ∃ n, steps' = n + 1 := ⟨steps' - 1, by omega⟩
    cases input with
    | nil =>
      refine ⟨s.line.len, s, e, [], rfl, ?_, hf.ended⟩
      rw [hf.drawn.len_eq]
      rfl
    | cons c input =>
      rw [List.length_cons] at hsteps hsteps'
      have hnext : ∀ {n s e input'}, Follows w maxLen s e → input' <:+ input → input'.length < n →
          SameReply (Ended w maxLen callback) (editLoop call junk steps s input')
            (Editor.loop callback w.limit junk n e input') :=
        fun hf hsuffix hlen => ih hf (fun c hc => hinput c (List.mem_cons_of_mem _ (hsuffix.subset hc)))
          (by have := hsuffix.length_le; omega) hlen
      by_cases htab : c = 9
      swap
      · rw [editLoop, if_neg htab]
        exact onKey_same hf htab (hinput c List.mem_cons_self) fun hf' hsuffix =>
          hnext hf' hsuffix (by have := hsuffix.length_le; omega)
      rw [editLoop, if_pos htab, Editor.loop, if_pos htab]
      by_cases hnil : callback e.line = []
      · obtain ⟨s', hs, hf'⟩ := hf.complete_nil (hcall e.line) hnil input
        rw [hs, if_pos hnil]
        exact hnext hf' (List.suffix_refl _) (by omega)
      obtain ⟨r, hr, hcompleted⟩ := hf.complete (hcall e.line) (hplain e.line) (hshort e.line) hnil input
      rw [hr, if_neg hnil]
      generalize Editor.cycle (callback e.line) e.text input 0 = r' at hcompleted
      cases hcompleted with
      | @stopped s' hend =>
        refine ⟨s'.line.len, s', e, [], rfl, ?_, hend⟩
        rw [hend.edits.len_eq]
        rfl
      | @taken s' text c rest htab' hsuffix hf' =>
        have hlen := hsuffix.length_le
        have hkey : w.Key c := hinput c (List.mem_cons_of_mem _ (hsuffix.subset List.mem_cons_self))
        rw [List.length_cons] at hlen
        simp only [Option.bind_eq_bind, Option.bind_some]
        by_cases hhigh : 128 ≤ c
        · have hnul : c ≠ 0 := by
            rintro rfl
            exact absurd hhigh (by decide)
          rw [if_pos (charVal_high hhigh), if_neg hnul, if_pos hhigh]
          refine ⟨s'.line.len, s', { e with text }, rest, rfl, ?_, hf'.ended⟩
          rw [hf'.drawn.len_eq]
          rfl
        have hval := charVal_low hhigh
        rw [if_neg (by omega), if_neg hhigh]
        by_cases hnul : c = 0
        · rw [if_pos (by rw [hval, hnul]; rfl), if_pos hnul]
          exact hnext hf' ((List.suffix_cons c rest).trans hsuffix) (by omega)
        · have hpos : charVal c ≠ 0 := by
            rw [hval, Int.natCast_ne_zero]
            exact fun h => hnul (UInt8.toNat_inj.mp h)
          obtain ⟨steps', rfl⟩ : ∃ n, steps' = n + 1 := ⟨steps' - 1, by omega⟩
          rw [if_neg hpos, if_neg hnul, hval, Int.toNat_natCast, UInt8.ofNat_toNat]
          exact onKey_same hf' htab' hkey fun hf'' hsuffix' =>
            hnext hf'' (hsuffix'.trans ((List.suffix_cons c rest).trans hsuffix))
              (by have := hsuffix'.length_le; omega)

end Loop

-- The new line is in the history while it is edited.
theorem linenoiseHistoryAdd_start (h : LineHistory) :
    (linenoiseHistoryAdd h []).2.lines = (Editor.start h.maxLen h.lines).rows ∧
      (linenoiseHistoryAdd h []).2.maxLen = h.maxLen := by
  unfold linenoiseHistoryAdd Editor.start Editor.rows Editor.below
  by_cases hlast : h.lines.getLast? = some []
  · rw [if_pos hlast, if_pos hlast]
    obtain ⟨lines, hlines⟩ := List.getLast?_eq_some_iff.mp hlast
    exact ⟨by simp [hlines], rfl⟩
  · rw [if_neg hlast, if_neg hlast]
    exact ⟨by simp [historyRoom_eq], rfl⟩

section Edit

-- linenoise leaves room for a NUL.
def LineEnv.window (env : LineEnv) (prompt : CStr) (hwide : prompt.length < env.cols) (plain : UInt8 → Prop) :
    Window :=
  ⟨prompt, env.cols, 4095, plain, hwide, by decide, by decide⟩

variable {env : LineEnv} {prompt : CStr} {h : LineHistory} {callback : CStr → List CStr} {plain : UInt8 → Prop}

-- At the start there is nothing but the prompt.
theorem start_follows (hbuf : env.buf.length = LINENOISE_MAX_LINE) (hwide : prompt.length < env.cols)
    (hclean : ∀ line ∈ h.lines, (env.window prompt hwide plain).Line line) :
    ∃ buf, poke env.buf 0 0 = some buf ∧
      Follows (env.window prompt hwide plain) h.maxLen
        ⟨⟨buf, sub64 buf.length 1, prompt, 0, 0, env.cols, 0, prompt⟩, (linenoiseHistoryAdd h []).2⟩
        (Editor.start h.maxLen h.lines) := by
  obtain ⟨c, rest, hrest⟩ : ∃ c rest, env.buf = c :: rest :=
    List.exists_cons_of_length_pos (by rw [hbuf]; decide)
  have hlen : rest.length = 4095 := by simpa [hrest, LINENOISE_MAX_LINE] using hbuf
  obtain ⟨hlines, hmax⟩ := linenoiseHistoryAdd_start h
  have hshown : (env.window prompt hwide plain).Shown prompt (Editor.start h.maxLen h.lines).text := by
    intro hlegible
    simpa [windowOf, LineEnv.window, Editor.start, Zipper.ofList, Zipper.toList] using
      Screen.Renders.first hlegible.prompt_visible hwide
  refine ⟨0 :: rest, by rw [hrest]; exact poke_append [] rest c 0 rfl, ⟨?_, hshown⟩, hlines, hmax, rfl, ?_, rfl⟩
  · exact ⟨rfl, rfl, by rw [List.length_cons, hlen]; rfl, by rw [List.length_cons, hlen]; rfl, ⟨rest, rfl⟩, rfl, rfl,
      fun _ hc => absurd hc List.not_mem_nil, fun hlegible => (hshown hlegible).usable⟩
  · intro row hrow
    simp only [Editor.start, Editor.rows, List.reverse_reverse, List.mem_append, List.mem_singleton] at hrow
    obtain hrow | rfl := hrow
    · exact hclean row (Editor.below_subset hrow)
    · exact ⟨List.not_mem_nil, fun _ hc => by cases hc⟩

theorem linenoiseEdit_same (plain : UInt8 → Prop) (hbuf : env.buf.length = LINENOISE_MAX_LINE)
    (hwide : prompt.length < env.cols) (hcall : ∀ line, env.callback line = some (callback line))
    (hshort : ∀ line, ∀ text ∈ callback line, text.length < 4095)
    (hplain : ∀ line, ∀ text ∈ callback line, ∀ c ∈ text, plain c)
    (hclean : ∀ line ∈ h.lines, (env.window prompt hwide plain).Line line) {input : List UInt8}
    (hinput : ∀ c ∈ input, (env.window prompt hwide plain).Key c) :
    SameReply (Ended (env.window prompt hwide plain) h.maxLen callback) (linenoiseEdit env prompt h input)
      (Editor.edit callback 4095 env.junk (Editor.start h.maxLen h.lines) input) := by
  obtain ⟨buf, hpoke, hf⟩ := start_follows hbuf hwide hclean
  rw [linenoiseEdit, hpoke]
  exact editLoop_same hcall hshort hplain hf hinput (Nat.lt_succ_self _) (Nat.lt_succ_self _)

-- Whatever the characters are.
theorem linenoiseEdit_follows (hbuf : env.buf.length = LINENOISE_MAX_LINE) (hwide : prompt.length < env.cols)
    (hcall : ∀ line, env.callback line = some (callback line))
    (hshort : ∀ line, ∀ text ∈ callback line, text.length < 4095)
    (hclean : ∀ line ∈ h.lines, 0 ∉ line) (input : List UInt8) :
    SameReply (Ended (env.window prompt hwide fun _ => True) h.maxLen callback) (linenoiseEdit env prompt h input)
      (Editor.edit callback 4095 env.junk (Editor.start h.maxLen h.lines) input) :=
  linenoiseEdit_same (fun _ => True) hbuf hwide hcall hshort (fun _ _ _ _ _ => trivial)
    (fun line hline => ⟨hclean line hline, fun _ _ => trivial⟩) fun _ _ => .inr (.inr (.inr trivial))

-- A terminal without completions.
def plainTerm (cols : Nat) (typed : List UInt8) : LineEnv :=
  ⟨fun _ => some [], cols, List.replicate LINENOISE_MAX_LINE 0, (0, 0, 0), typed⟩

theorem plainTerm_callback (cols : Nat) (typed : List UInt8) (line : CStr) :
    (plainTerm cols typed).callback line = some [] := rfl

end Edit

end Adventure

import Adventure.Adv.Sketch
import Adventure.Repl.Theorems

namespace Adventure

open DbRun (Stands LIFE)

variable {env : ReplEnv} {s : ReplState} {line name place w : CStr} {lines : List CStr} {st : DbRun} {n : Nat}

-- The decimal digits of a number that fits into an int.
def Numeral (w : CStr) (n : Nat) : Prop := (∀ c ∈ w, isDigit c) ∧ digitsVal 0 w = n ∧ n < 2 ^ 31

-- The first words of a line are those of an operation.
def Says (line : CStr) : DbOp → Prop
  | .node => ∃ rest, words line = cstr ['+', 'n'] :: rest
  | .add a b => ∃ wa wb rest, words line = cstr ['+', 'e'] :: wa :: wb :: rest ∧
      Numeral wa a ∧ Numeral wb b
  | .remove a b => ∃ wa wb rest, words line = cstr ['-', 'e'] :: wa :: wb :: rest ∧
      Numeral wa a ∧ Numeral wb b

theorem isDigit_bounds {c : UInt8} (h : isDigit c) : ¬isSpace c ∧ c ≠ 45 ∧ c ≠ 43 := by
  simp only [isDigit, decide_eq_true_eq] at h
  refine ⟨?_, ?_, ?_⟩
  · intro hspace
    simp only [isSpace, decide_eq_true_eq, List.mem_cons, List.not_mem_nil, or_false] at hspace
    rcases hspace with rfl | rfl | rfl | rfl | rfl | rfl
    all_goals exact absurd h.1 (by decide)
  · rintro rfl
    exact absurd h.1 (by decide)
  · rintro rfl
    exact absurd h.1 (by decide)

-- atoi reads a numeral back.
theorem nodeP_atoi (h : Numeral w n) : nodeP (atoi w) = n := by
  obtain ⟨hdigits, hval, hlt⟩ := h
  have hskip : w.dropWhile isSpace = w := by
    cases w with
    | nil => rfl
    | cons c w => simp [(isDigit_bounds (hdigits c List.mem_cons_self)).1]
  have hneg : w.head? ≠ some 45 := by
    intro hhead
    exact (isDigit_bounds (hdigits _ (List.mem_of_mem_head? hhead))).2.1 rfl
  have hplus : w.head? ≠ some 43 := by
    intro hhead
    exact (isDigit_bounds (hdigits _ (List.mem_of_mem_head? hhead))).2.2 rfl
  have hatoi : atoi w = n := by
    unfold atoi
    simp only [hskip, if_neg hneg, if_neg hplus, hval]
    rw [min_eq_left (by omega), Int.bmod_eq_of_le (by omega) (by omega)]
  rw [hatoi, nodeP]
  omega

-- None of the words that end a session is the first one of such a line.
theorem exit_words (h : replWantsExit line) :
    words line = [cstr ['q']] ∨ words line = [cstr ['q', 'u', 'i', 't']] ∨
      words line = [cstr ['e', 'x', 'i', 't']] := by
  have hmem : line = cstr ['q'] ∨ line = cstr ['q', 'u', 'i', 't'] ∨
      line = cstr ['e', 'x', 'i', 't'] := by
    simpa [replWantsExit] using h
  rcases hmem with rfl | rfl | rfl
  · exact .inl (words_of_not_mem (by decide) (by decide))
  · exact .inr (.inl (words_of_not_mem (by decide) (by decide)))
  · exact .inr (.inr (words_of_not_mem (by decide) (by decide)))

-- A line with a command is not one that is skipped or ends the session.
theorem execLines_cmd {cmd : CStr} {args : List CStr} {fn : ReplFn} (hws : words line = cmd :: args)
    (hfn : replCmds.lookup cmd = some fn) (s : ReplState) :
    execLines env (line :: lines) s = do
      let (code, s, out) ← execFn env fn args s
      let (s, outs) ← execLines env lines s
      return (s, out ++ (if code = -1 then [.unknown (cutLine line)] else []) ++ outs) := by
  have hline : line ≠ [] := by
    rintro rfl
    rw [words_nil] at hws
    cases hws
  have hexit : ¬replWantsExit line := by
    intro hexit
    rcases exit_words hexit with h | h | h
    all_goals
      rw [hws] at h
      obtain ⟨rfl, -⟩ := List.cons.inj h
      have hnone := hfn.symm.trans (by decide : _ = none)
      cases hnone
  rw [execLines, if_neg hline, if_neg hexit]
  simp only [execWords, hws, hfn]

theorem execEdge_op {edit : AdvDb → Nat → Nat → Option AdvDb} {wa wb : CStr} {a b : Nat}
    (ha : Numeral wa a) (hb : Numeral wb b) (rest : List CStr) (hdb : s.db = .live place st.db) :
    execFn.execEdge edit (wa :: wb :: rest) s =
      (edit st.db a b).map fun db => (0, { s with db := .live place db }, []) := by
  simp only [execFn.execEdge, hdb, nodeP_atoi ha, nodeP_atoi hb]

-- A line that says an operation does this operation on the open database, and prints nothing.
theorem execLines_op {op : DbOp} (hop : Says line op) (hdb : s.db = .live place st.db) :
    execLines env (line :: lines) s = (st.step op).bind fun st' =>
      execLines env lines { s with db := .live place st'.db } := by
  have hrest : ∀ s' : ReplState,
      ((execLines env lines s').bind fun r =>
        some (r.1, [] ++ (if (0 : Int) = -1 then [.unknown (cutLine line)] else []) ++ r.2)) =
          execLines env lines s' := by
    intro s'
    cases execLines env lines s' <;> rfl
  cases op with
  | node =>
    obtain ⟨rest, hws⟩ := hop
    rw [execLines_cmd hws (by decide : _ = some ReplFn.addNode)]
    simp only [execFn, addNode, hdb, DbRun.step]
    cases advNodeAdd st.db with
    | none => rfl
    | some r => exact hrest _
  | add a b =>
    obtain ⟨wa, wb, rest, hws, ha, hb⟩ := hop
    rw [execLines_cmd hws (by decide : _ = some ReplFn.addEdge)]
    simp only [execFn, execEdge_op ha hb rest hdb, DbRun.step]
    cases advEdgeAdd st.db a b with
    | none => rfl
    | some db => exact hrest _
  | remove a b =>
    obtain ⟨wa, wb, rest, hws, ha, hb⟩ := hop
    rw [execLines_cmd hws (by decide : _ = some ReplFn.removeEdge)]
    simp only [execFn, execEdge_op ha hb rest hdb, DbRun.step]
    cases advEdgeRemove st.db a b with
    | none => rfl
    | some db => exact hrest _

-- The lines of a session on one database.
inductive Script (name : CStr) : List CStr → List LifeOp → Prop
  | nil : Script name [] []
  | change {line : CStr} {lines : List CStr} {op : DbOp} {ops : List LifeOp} : Says line op →
      Script name lines ops → Script name (line :: lines) (.change op :: ops)
  | reopen {shut again : CStr} {lines args args' : List CStr} {ops : List LifeOp} :
      words shut = cstr ['c', 'l', 'o', 's', 'e'] :: args →
      words again = cstr ['o', 'p', 'e', 'n'] :: name :: args' →
      Script name lines ops → Script name (shut :: again :: lines) (.reopen :: ops)

theorem granting_grants : grantingDisk.Grants := ⟨rfl, by simp [grantingDisk]⟩

-- Closing leaves the files behind, and opening finds them.
theorem execLines_reopen {shut again : CStr} {args args' : List CStr} {db : AdvDb}
    (hshut : words shut = cstr ['c', 'l', 'o', 's', 'e'] :: args)
    (hagain : words again = cstr ['o', 'p', 'e', 'n'] :: name :: args')
    (hplace : ∀ dirs, env.place dirs name = some place) (hdb : s.db = .live place st.db)
    (hopen : advOpen grantingDisk grantingDisk (some (advClose st.db)) 0 = some db) :
    execLines env (shut :: again :: lines) s = execLines env lines ⟨.live place db, s.dir⟩ := by
  have hdir : s.dir place = some (advClose st.db) := by
    rw [ReplState.dir, hdb]
    exact if_pos rfl
  have hfreed : (⟨.freed, s.dir⟩ : ReplState).dir = s.dir := rfl
  rw [execLines_cmd hshut (by decide : _ = some ReplFn.closeDb)]
  simp only [execFn, closeDb, hdb, Option.bind_eq_bind, Option.bind_some]
  rw [execLines_cmd hagain (by decide : _ = some ReplFn.openDb)]
  simp only [execFn, dbOpened, hplace, hfreed, hdir, hopen, Option.bind_eq_bind, Option.bind_some]
  cases execLines env lines ⟨.live place db, s.dir⟩ <;> rfl

-- A session whose sketch permits each of its operations.
theorem execLines_script (env : ReplEnv) {ops : List LifeOp} {g g' : Sketch} {k : Nat}
    (hscript : Script name lines ops) (hplace : ∀ dirs, env.place dirs name = some place)
    (hdb : s.db = .live place st.db) (h : Stands grantingDisk grantingDisk st g k) (hk : k + ops.length ≤ LIFE)
    (hrun : ops.foldlM Sketch.step g = some g') :
    ∃ st' dirs, execLines env lines s = some (⟨.live place st'.db, dirs⟩, []) ∧
      Stands grantingDisk grantingDisk st' g' (k + ops.length) ∧
      ∀ other, other ≠ place → dirs other = s.dir other := by
  induction hscript generalizing s st g k with
  | nil =>
    obtain ⟨db, dirs⟩ := s
    simp only at hdb
    subst hdb
    obtain rfl := Option.some.inj hrun
    exact ⟨st, dirs, rfl, h, fun other hother => (if_neg hother).symm⟩
  | @change line lines op ops hop hscript ih =>
    rw [List.foldlM_cons, Option.bind_eq_bind, Option.bind_eq_some_iff] at hrun
    obtain ⟨g₁, hstep, hrun⟩ := hrun
    rw [List.length_cons] at hk
    obtain ⟨st₁, hst₁, h₁⟩ := h.change granting_grants granting_grants (by omega) hstep
    obtain ⟨st', dirs, hexec, h', hdirs⟩ := ih (s := { s with db := .live place st₁.db }) rfl h₁ (by omega) hrun
    rw [Nat.add_right_comm] at h'
    refine ⟨st', dirs, ?_, h', fun other hother => (hdirs other hother).trans ?_⟩
    · rw [execLines_op hop hdb, hst₁, Option.bind_some, hexec]
    · simp only [ReplState.dir, hdb, if_neg hother]
  | @reopen shut again lines args args' ops hshut hagain hscript ih =>
    rw [List.foldlM_cons] at hrun
    rw [List.length_cons] at hk
    obtain ⟨db, hopen, h₁⟩ := h.reopen grantingDisk grantingDisk (rfl : 0 &&& ADV_CREATE = 0)
    have hlive : (⟨.live place db, s.dir⟩ : ReplState).db = .live place ({ st with db } : DbRun).db := rfl
    obtain ⟨st', dirs, hexec, h', hdirs⟩ := ih hlive h₁ (by omega) hrun
    have hlen : k + ops.length ≤ k + (LifeOp.reopen :: ops).length := by simp
    refine ⟨st', dirs, ?_, h'.mono hlen, fun other hother => (hdirs other hother).trans ?_⟩
    · rw [execLines_reopen hshut hagain hplace hdb hopen, hexec]
    · exact if_neg hother

end Adventure

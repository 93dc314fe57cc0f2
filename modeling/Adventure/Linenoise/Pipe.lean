import Adventure.Library.Wrap
import Adventure.Linenoise

namespace Adventure

-- What is left of a line without its end.
def trimLine (term : Terminal) (line : CStr) : CStr :=
  let text := line.takeWhile (· ≠ 0)
  if term = .unsupported then text.rdropWhile (· = 13) else text

-- The lines of a file. Those that do not fit into the buffer go on in the next one.
def fileLines (term : Terminal) (input : List UInt8) : List CStr :=
  (wrapLines 4094 10 input).map (trimLine term)

-- A whole line was read, or the rest of the file, or what there is room for.
inductive LineRead (n : Nat) (input : List UInt8) : List UInt8 × List UInt8 → Prop
  | line (text rest : List UInt8) (clean : 10 ∉ text) (short : text.length < n)
      (split : input = text ++ 10 :: rest) : LineRead n input (text ++ [10], rest)
  | last (clean : 10 ∉ input) (short : input.length < n) : LineRead n input (input, [])
  | part (text rest : List UInt8) (clean : 10 ∉ text) (full : text.length = n)
      (split : input = text ++ rest) : LineRead n input (text, rest)

theorem readLine_reads (n : Nat) (input : List UInt8) : LineRead n input (readLine n input) := by
  induction n generalizing input with
  | zero => exact .part [] input List.not_mem_nil rfl rfl
  | succ n ih =>
    cases input with
    | nil => exact .last List.not_mem_nil (Nat.succ_pos n)
    | cons c input =>
      rw [readLine]
      by_cases hc : c = 10
      · rw [if_pos hc, hc]
        exact .line [] input List.not_mem_nil (Nat.succ_pos n) rfl
      · rw [if_neg hc]
        have hfirst : ∀ {text : List UInt8}, 10 ∉ text → 10 ∉ c :: text := by
          intro text htext
          rw [List.mem_cons, not_or]
          exact ⟨fun h => hc h.symm, htext⟩
        have hread := ih input
        generalize readLine n input = r at hread
        cases hread with
        | line text rest hclean hshort hsplit =>
          exact .line (c :: text) rest (hfirst hclean) (Nat.succ_lt_succ hshort) (by rw [hsplit]; rfl)
        | last hclean hshort => exact .last (hfirst hclean) (Nat.succ_lt_succ hshort)
        | part text rest hclean hfull hsplit =>
          exact .part (c :: text) rest (hfirst hclean) (by rw [List.length_cons, hfull]) (by rw [hsplit]; rfl)

-- What linenoise makes of the bytes that fgets has read.
def chomp (term : Terminal) (line : CStr) : CStr :=
  match term with
  | .unsupported => line.rdropWhile fun c => c = 10 ∨ c = 13
  | _ => if line.getLast? = some 10 then line.dropLast else line

theorem linenoise_fgets (env : LineEnv) {term : Terminal} (hterm : term ≠ .tty) (prompt : CStr) (h : LineHistory)
    {input : List UInt8} (hne : input ≠ []) :
    linenoise env term prompt h input =
      some (some (chomp term ((readLine 4095 input).1.takeWhile (· ≠ 0))), h, (readLine 4095 input).2) := by
  cases term with
  | unsupported => simp only [linenoise, fgets, if_neg hne, chomp, LINENOISE_MAX_LINE]
  | pipe => simp only [linenoise, fgets, if_neg hne, chomp, LINENOISE_MAX_LINE]
  | tty => cases hterm rfl

theorem chomp_of_not_mem {term : Terminal} (hterm : term ≠ .tty) {text : CStr} (h : 10 ∉ text) :
    chomp term text = if term = .unsupported then text.rdropWhile (· = 13) else text := by
  cases term with
  | unsupported =>
    change (text.rdropWhile fun c => c = 10 ∨ c = 13) = text.rdropWhile (· = 13)
    induction text using List.reverseRecOn with
    | nil => rfl
    | append_singleton text c ih =>
      have hc : c ≠ 10 := fun hc => h (by simp [hc])
      have htext : 10 ∉ text := fun hmem => h (List.mem_append_left _ hmem)
      rw [List.rdropWhile_concat, List.rdropWhile_concat, ih htext]
      simp [hc]
  | pipe =>
    have hlast : text.getLast? ≠ some 10 := fun hlast => h (List.mem_of_getLast? hlast)
    change (if text.getLast? = some 10 then text.dropLast else text) = text
    rw [if_neg hlast]
  | tty => cases hterm rfl

theorem chomp_concat {term : Terminal} (hterm : term ≠ .tty) {text : CStr} (h : 10 ∉ text) :
    chomp term (text ++ [10]) = chomp term text := by
  cases term with
  | unsupported => exact List.rdropWhile_concat_pos _ _ _ (by decide)
  | pipe =>
    rw [chomp_of_not_mem hterm h]
    simp [chomp]
  | tty => cases hterm rfl

theorem chomp_clean {term : Terminal} (hterm : term ≠ .tty) {text : CStr} (h : 10 ∉ text) :
    chomp term (text.takeWhile (· ≠ 0)) = trimLine term text :=
  chomp_of_not_mem hterm fun hmem => h ((List.takeWhile_prefix _).subset hmem)

-- A NUL in the line hides the newline behind it.
theorem chomp_line {term : Terminal} (hterm : term ≠ .tty) {text : CStr} (h : 10 ∉ text) :
    chomp term ((text ++ [10]).takeWhile (· ≠ 0)) = trimLine term text := by
  rw [← chomp_clean hterm h, List.takeWhile_append]
  split
  · next hwhole =>
    rw [(List.takeWhile_prefix _).eq_of_length hwhole]
    exact chomp_concat hterm h
  · rfl

-- linenoise gives the lines of a file one by one, and empty lines besides.
theorem linenoise_file (env : LineEnv) {term : Terminal} (hterm : term ≠ .tty) (prompt : CStr) (h : LineHistory)
    {input : List UInt8} (hne : input ≠ []) :
    ∃ line rest, linenoise env term prompt h input = some (some line, h, rest) ∧ rest.length < input.length ∧
      (fileLines term input = line :: fileLines term rest ∨
        line = [] ∧ fileLines term input = fileLines term rest) := by
  refine ⟨_, _, linenoise_fgets env hterm prompt h hne, ?_⟩
  have hread := readLine_reads 4095 input
  generalize readLine 4095 input = r at hread
  cases hread with
  | line text rest hclean hshort hsplit =>
    rw [chomp_line hterm hclean, hsplit, fileLines, wrapLines_line hclean, List.map_append]
    refine ⟨by simp; omega, ?_⟩
    by_cases hnil : text = []
    · right
      subst hnil
      refine ⟨?_, by simp [fileLines]⟩
      cases term <;> rfl
    · left
      rw [wrap_short hnil (by omega)]
      rfl
  | last hclean hshort =>
    rw [chomp_clean hterm hclean, fileLines, wrapLines_last hclean, wrap_short hne (by omega)]
    exact ⟨List.length_pos_of_ne_nil hne, .inl (by simp [fileLines])⟩
  | part text rest hclean hfull hsplit =>
    rw [chomp_clean hterm hclean, hsplit, fileLines, wrapLines_long hclean hfull]
    exact ⟨by simp [hfull], .inl rfl⟩

end Adventure

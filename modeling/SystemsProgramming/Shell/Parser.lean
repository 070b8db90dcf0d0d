import SystemsProgramming.Shell.Quoting

/-! The parser of the shell (`2/parser.c`). It gets the tokens as plain strings and tells operators from
words by their first character, so a quoted word that begins like an operator is taken for one. -/

namespace SystemsProgramming.Shell

def countTokensUntilOperatorOrEnd : List CString → ℕ → ℕ
  | [], startCount => startCount
  | token :: otherTokens, startCount =>
    if isOperator token then startCount
    else countTokensUntilOperatorOrEnd otherTokens (startCount + 1)

/-- The loop of `convert_tokens_without_disposal`: the commands so far, and `token_ptr`. -/
def convertTokensStep : List Command × List CString → Option (Ctl (List Command × List CString))
  | (commands, []) => some (.done (commands, []))
  | (commands, token :: otherTokens) =>
    let argumentCount :=
      if isOperator token then 0 else countTokensUntilOperatorOrEnd otherTokens 0
    some (.again (commands ++ [⟨token, otherTokens.take argumentCount⟩],
      otherTokens.drop argumentCount))

/-- Each turn of the loop takes a token at least, so this fuel suffices. -/
def convertTokensWithoutDisposal (allTokens : List CString) : Option (List Command) :=
  (iterate convertTokensStep (allTokens.length + 1) ([], allTokens)).map Prod.fst

def parse (string : CString) : Option (List Command) := do
  let tokens ← getTokens string
  convertTokensWithoutDisposal tokens

/-! ### Words and commands -/

/-- All tokens are counted if and only if none of them is taken for an operator. -/
theorem countTokens_eq_iff (tokens : List CString) (n : ℕ) :
    tokens.length + n ≤ countTokensUntilOperatorOrEnd tokens n ↔
      ∀ token ∈ tokens, isOperator token = false := by
  induction tokens generalizing n with
  | nil => simp [countTokensUntilOperatorOrEnd]
  | cons token tokens ih =>
    rw [countTokensUntilOperatorOrEnd]
    cases hop : isOperator token with
    | true => simp [hop]
    | false =>
      have hlen : (token :: tokens).length + n = tokens.length + (n + 1) := by
        rw [List.length_cons]
        omega
      simp only [Bool.false_eq_true, if_false, hlen, ih, List.forall_mem_cons, hop, true_and]

theorem convertTokens_lt {s t : List Command × List CString}
    (h : convertTokensStep s = some (.again t)) : t.2.length < s.2.length := by
  obtain ⟨commands, _ | ⟨token, tokens⟩⟩ := s
  · cases h
  · obtain rfl := Ctl.again.inj (Option.some.inj h)
    rw [List.length_drop, List.length_cons]
    omega

theorem convertTokens_of_exits {tokens : List CString} {commands : List Command}
    (h : Exits convertTokensStep ([], tokens) (commands, [])) :
    convertTokensWithoutDisposal tokens = some commands := by
  rw [convertTokensWithoutDisposal, h.iterate (μ := fun s => s.2.length) (n := tokens.length + 1)
    (fun _ _ => convertTokens_lt) (Nat.lt_succ_self _), Option.map_some]

/-- The loop ends, with new commands if there were tokens. -/
theorem exits_convertTokens (n : ℕ) (commands : List Command) (tokens : List CString)
    (hn : tokens.length ≤ n) : ∃ others,
    Exits convertTokensStep (commands, tokens) (commands ++ others, []) ∧
      (others = [] ↔ tokens = []) := by
  induction n generalizing commands tokens with
  | zero =>
    obtain rfl := List.length_eq_zero_iff.mp (Nat.le_zero.mp hn)
    exact ⟨[], .done (by rw [convertTokensStep, List.append_nil]), iff_of_true rfl rfl⟩
  | succ n ih =>
    cases tokens with
    | nil => exact ⟨[], .done (by rw [convertTokensStep, List.append_nil]), iff_of_true rfl rfl⟩
    | cons token tokens =>
      have hlt := convertTokens_lt (s := (commands, token :: tokens)) rfl
      obtain ⟨others, hexits, -⟩ := ih _ _ (Nat.le_of_lt_succ (Nat.lt_of_lt_of_le hlt hn))
      rw [List.append_assoc] at hexits
      exact ⟨_, .again rfl hexits, iff_of_false (by simp) (by simp)⟩

/-- Words are one command unless one of them, with others beside it, is taken for an operator. -/
theorem convertTokens_eq_iff (name : CString) (argv : List CString) :
    convertTokensWithoutDisposal (name :: argv) = some [⟨name, argv⟩] ↔
      argv = [] ∨ ∀ word ∈ name :: argv, isOperator word = false := by
  generalize hcount : (if isOperator name then 0 else countTokensUntilOperatorOrEnd argv 0) = count
  have hstep : convertTokensStep ([], name :: argv) =
      some (.again ([⟨name, argv.take count⟩], argv.drop count)) := by
    rw [convertTokensStep, hcount]
    rfl
  obtain ⟨others, hexits, hothers⟩ := exits_convertTokens _ [⟨name, argv.take count⟩]
    (argv.drop count) (Nat.le_refl _)
  rw [convertTokens_of_exits (.again hstep hexits)]
  have hall : argv.length ≤ count ↔ argv = [] ∨ ∀ word ∈ name :: argv, isOperator word = false := by
    rw [← hcount, List.forall_mem_cons]
    cases hop : isOperator name with
    | true => simp
    | false =>
      have hiff := countTokens_eq_iff argv 0
      simp only [Nat.add_zero] at hiff
      simp only [Bool.false_eq_true, if_false, hiff, true_and]
      refine ⟨.inr, ?_⟩
      rintro (rfl | hwords)
      · simp
      · exact hwords
  rw [← hall, ← List.drop_eq_nil_iff, ← hothers]
  constructor
  · intro h
    have hlen := congrArg List.length (Option.some.inj h)
    rw [List.length_append, List.length_singleton, List.length_singleton] at hlen
    exact List.length_eq_zero_iff.mp (by omega)
  · intro h
    rw [h, List.append_nil, List.take_of_length_le (List.drop_eq_nil_iff.mp (hothers.mp h))]

/-- A line of spelled words is one command unless one of several words begins like an operator. -/
theorem parse_spelled_iff {name : CString} {argv : List CString} {line : CString}
    (h : Spells (name :: argv) line) :
    parse line = some [⟨name, argv⟩] ↔ argv = [] ∨ ∀ word ∈ name :: argv, isOperator word = false := by
  rw [parse, getTokens_spelled h]
  exact convertTokens_eq_iff name argv

def echoSpelling : Spelling := ⟨[byte 'e', byte 'c', byte 'h', byte 'o'], true, by decide, by decide⟩
def greaterSpelling : Spelling := ⟨[byte 'a', byte '>'], true, by decide, by decide⟩
def barSpelling : Spelling := ⟨[byte '|'], true, by decide, by decide⟩

/-- `"echo" "a>"`: the operator is not at the beginning of the word. -/
theorem parse_spelled_iff_inside : parse (echoSpelling.text ++ ([space] ++ greaterSpelling.text)) =
    some [⟨echoSpelling.word, [greaterSpelling.word]⟩] := by
  have hlast : Spells [greaterSpelling.word] ([space] ++ greaterSpelling.text ++ []) :=
    .word (by decide) (.blank (by decide)) (by decide)
  have hline : Spells [echoSpelling.word, greaterSpelling.word]
      ([] ++ echoSpelling.text ++ ([space] ++ greaterSpelling.text ++ [])) :=
    .word (by decide) hlast (by decide)
  exact (parse_spelled_iff hline).mpr (.inr (by decide))

/-- `"echo" "|"`: the quoted bar splits the line. -/
theorem quoted_bar_splits : parse (echoSpelling.text ++ ([space] ++ barSpelling.text)) ≠
    some [⟨echoSpelling.word, [barSpelling.word]⟩] := by decide

end SystemsProgramming.Shell

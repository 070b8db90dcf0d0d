import SystemsProgramming.Shell.Parser
import SystemsProgramming.Shell.Scanning
import SystemsProgramming.Foundation.CArray
import Mathlib.Data.List.Chain
import Mathlib.Data.List.TakeWhile

/-! The pointers and counts of the parser (`2/parser.c`). The arguments of a command are counted by one
traversal and copied by another, which leaves the pointer from where the loop goes on; the commands are
counted again for the array that they are copied into. No pointer that is followed is `NULL`, no index
is outside the array, and the commands are the tokens in order. -/

namespace SystemsProgramming.Shell

/-- The inner loop of `convert_tokens_without_disposal`: `argv` and the pointer behind it. -/
def copyArguments : ℕ → List CString → Option (List CString × List CString)
  | 0, nextTokens => some ([], nextTokens)
  | _ + 1, [] => none
  | n + 1, token :: otherTokens => do
    let (argv, nextTokens) ← copyArguments n otherTokens
    return (token :: argv, nextTokens)

/-- The body of the loop of `convert_tokens_without_disposal`. -/
def groupStep : List Command × List CString → Option (Ctl (List Command × List CString))
  | (commands, []) => some (.done (commands, []))
  | (commands, token :: otherTokens) => do
    let argumentCount :=
      if isOperator token then 0 else countTokensUntilOperatorOrEnd otherTokens 0
    let (argv, nextTokens) ← copyArguments argumentCount otherTokens
    return .again (commands ++ [⟨token, argv⟩], nextTokens)

/-- `count_commands` -/
def countCommands : List Command → ℕ → ℕ
  | [], startCount => startCount
  | _ :: otherCommands, startCount => countCommands otherCommands (startCount + 1)

/-- The loop that copies the list of commands to an array. -/
def copyCommands : ℕ → ℕ → List Command → CArray Command → Option (CArray Command)
  | 0, _, _, array => some array
  | _ + 1, _, [], _ => none
  | n + 1, i, command :: otherCommands, array => do
    copyCommands n (i + 1) otherCommands (← array.set i command)

structure CommandArray where
  commands : CArray Command
  commandCount : ℕ

/-- `parse`, down to the array. -/
def parseToArray (string : CString) : Option CommandArray := do
  let tokens ← getTokens string
  let (commands, _) ← iterate groupStep (tokens.length + 1) ([], tokens)
  let commandCount := countCommands commands 0
  let array ← copyCommands commandCount 0 commands (.malloc commandCount)
  return ⟨array, commandCount⟩

/-! ### Counting and copying -/

theorem countCommands_eq (commands : List Command) (n : ℕ) :
    countCommands commands n = commands.length + n := by
  induction commands generalizing n with
  | nil => simp [countCommands]
  | cons c cs ih =>
    rw [countCommands, ih, List.length_cons]
    omega

/-- The tokens up to the first operator. -/
theorem countTokens_eq (tokens : List CString) (n : ℕ) : countTokensUntilOperatorOrEnd tokens n =
    (tokens.takeWhile fun token => !isOperator token).length + n := by
  induction tokens generalizing n with
  | nil => simp [countTokensUntilOperatorOrEnd]
  | cons token tokens ih =>
    rw [countTokensUntilOperatorOrEnd]
    cases hop : isOperator token with
    | true => simp [hop]
    | false =>
      simp only [Bool.false_eq_true, if_false, ih, List.takeWhile_cons, hop, Bool.not_false, if_true,
        List.length_cons]
      omega

theorem copyArguments_eq {n : ℕ} {tokens : List CString} (h : n ≤ tokens.length) :
    copyArguments n tokens = some (tokens.take n, tokens.drop n) := by
  induction n generalizing tokens with
  | zero => simp [copyArguments]
  | succ n ih =>
    cases tokens with
    | nil => exact absurd h (Nat.not_succ_le_zero n)
    | cons token tokens => simp [copyArguments, ih (Nat.le_of_succ_le_succ h)]

/-- The two traversals agree, so that the pointer is never followed at the end of the list. -/
theorem groupStep_eq (s : List Command × List CString) : groupStep s = convertTokensStep s := by
  obtain ⟨commands, _ | ⟨token, tokens⟩⟩ := s
  · rfl
  · have hle : (if isOperator token then 0 else countTokensUntilOperatorOrEnd tokens 0) ≤
        tokens.length := by
      split_ifs
      · exact Nat.zero_le _
      · rw [countTokens_eq]
        exact (List.takeWhile_prefix _).length_le
    simp only [groupStep, convertTokensStep, copyArguments_eq hle, Option.bind_eq_bind,
      Option.bind_some, Option.pure_def]

theorem copyCommands_eq {n i : ℕ} {commands : List Command} {array : CArray Command}
    (hn : n = commands.length) (hsize : ((i + n : ℕ) : ℤ) ≤ array.size) : ∃ array',
    copyCommands n i commands array = some array' ∧ array'.size = array.size ∧
      ∀ j : ℕ, array'.cells j = if i ≤ j ∧ j < i + n then commands[j - i]? else array.cells j := by
  induction n generalizing i commands array with
  | zero => exact ⟨array, rfl, rfl, fun j => by rw [if_neg (by omega)]⟩
  | succ n ih =>
    cases commands with
    | nil => cases hn
    | cons c cs =>
      have hset := CArray.set_eq (a := array) c (show (0 : ℤ) ≤ i by omega) (by omega)
      have hrest : ((i + 1 + n : ℕ) : ℤ) ≤ (array.put i c).size := by
        rw [CArray.size_put]
        omega
      obtain ⟨array', hcopy, hsize', hcells⟩ := ih (Nat.succ.inj hn) hrest
      refine ⟨array', ?_, hsize', fun j => ?_⟩
      · simp only [copyCommands, hset, Option.bind_eq_bind, Option.bind_some, hcopy]
      · rw [hcells, CArray.cells_put]
        by_cases hj : j = i
        · subst hj
          rw [if_neg (by omega), if_pos rfl, if_pos (by omega), Nat.sub_self]
          rfl
        · have hj' : (j : ℤ) ≠ i := by exact_mod_cast hj
          rw [if_neg hj']
          split_ifs
          · rw [show j - i = j - (i + 1) + 1 by omega, List.getElem?_cons_succ]
          · omega
          · omega
          · rfl

/-! ### The groups -/

/-- The commands that some tokens are: an operator stands alone, and the arguments of another command go
up to the next operator. -/
inductive Groups : List CString → List Command → Prop
  | nil : Groups [] []
  | operator {op : CString} {tokens : List CString} {commands : List Command} :
      isOperator op = true → Groups tokens commands → Groups (op :: tokens) (⟨op, []⟩ :: commands)
  | command {name : CString} {argv tokens : List CString} {commands : List Command} :
      isOperator name = false → (∀ word ∈ argv, isOperator word = false) →
      (∀ token ∈ tokens.head?, isOperator token = true) → Groups tokens commands →
      Groups (name :: (argv ++ tokens)) (⟨name, argv⟩ :: commands)

theorem convertTokensStep_operator {op : CString} (hop : isOperator op = true)
    (before : List Command) (tokens : List CString) : convertTokensStep (before, op :: tokens) =
      some (.again (before ++ [⟨op, []⟩], tokens)) := by
  rw [convertTokensStep, if_pos hop, List.take_zero, List.drop_zero]

theorem convertTokensStep_command {name : CString} (hname : isOperator name = false)
    (before : List Command) (tokens : List CString) : convertTokensStep (before, name :: tokens) =
      some (.again (before ++ [⟨name, tokens.takeWhile fun token => !isOperator token⟩],
        tokens.dropWhile fun token => !isOperator token)) := by
  have hsplit := List.takeWhile_append_dropWhile (p := fun token => !isOperator token) (l := tokens)
  have hcount := countTokens_eq tokens 0
  rw [Nat.add_zero] at hcount
  rw [convertTokensStep, hname, if_neg Bool.false_ne_true, hcount]
  generalize tokens.takeWhile (fun token => !isOperator token) = argv at hsplit ⊢
  generalize tokens.dropWhile (fun token => !isOperator token) = rest at hsplit ⊢
  rw [← hsplit, List.take_left, List.drop_left]

/-- The loop ends for all tokens. -/
theorem exists_groups (tokens : List CString) : ∃ commands, Groups tokens commands ∧ ∀ before,
    Exits convertTokensStep (before, tokens) (before ++ commands, []) := by
  generalize hlen : tokens.length = n
  induction n using Nat.strongRecOn generalizing tokens with
  | ind n ih =>
    cases tokens with
    | nil => exact ⟨[], .nil, fun before => .done (by rw [convertTokensStep, List.append_nil])⟩
    | cons token tokens =>
      rw [List.length_cons] at hlen
      cases hop : isOperator token with
      | true =>
        obtain ⟨commands, hgroups, hexits⟩ := ih tokens.length (by omega) tokens rfl
        refine ⟨⟨token, []⟩ :: commands, .operator hop hgroups, fun before => ?_⟩
        rw [List.append_cons]
        exact .again (convertTokensStep_operator hop before tokens) (hexits _)
      | false =>
        have hle : (tokens.dropWhile fun token => !isOperator token).length ≤ tokens.length :=
          (List.dropWhile_suffix _).length_le
        obtain ⟨commands, hgroups, hexits⟩ := ih _ (by rw [← hlen]; exact Nat.lt_succ_of_le hle) _ rfl
        refine ⟨⟨token, tokens.takeWhile fun token => !isOperator token⟩ :: commands, ?_, fun before => ?_⟩
        · have hargv : ∀ word ∈ tokens.takeWhile (fun token => !isOperator token),
              isOperator word = false := fun word hword => by simpa using List.mem_takeWhile_imp hword
          have hnext : ∀ t ∈ (tokens.dropWhile fun token => !isOperator token).head?,
              isOperator t = true := fun t ht => by
            have hnot := List.head?_dropWhile_not (fun token => !isOperator token) tokens
            rw [ht] at hnot
            simpa using hnot
          have hgroup := Groups.command hop hargv hnext hgroups
          rwa [List.takeWhile_append_dropWhile] at hgroup
        · rw [List.append_cons]
          exact .again (convertTokensStep_command hop before tokens) (hexits _)

namespace Groups

variable {tokens : List CString} {commands : List Command}

theorem flatMap (h : Groups tokens commands) : (commands.flatMap fun c => c.name :: c.argv) = tokens := by
  induction h with
  | nil => rfl
  | operator _ _ ih => rw [List.flatMap_cons, ih]; rfl
  | command _ _ _ _ ih => rw [List.flatMap_cons, ih]; rfl

/-- An operator has no arguments, and no argument is an operator. -/
theorem argv (h : Groups tokens commands) : ∀ c ∈ commands,
    (isOperator c.name = true → c.argv = []) ∧ ∀ word ∈ c.argv, isOperator word = false := by
  induction h with
  | nil => exact fun c hc => nomatch hc
  | operator _ _ ih => exact List.forall_mem_cons.mpr ⟨⟨fun _ => rfl, fun _ hw => nomatch hw⟩, ih⟩
  | command hname hargv _ _ ih =>
    refine List.forall_mem_cons.mpr ⟨⟨fun hop => ?_, hargv⟩, ih⟩
    rw [hname] at hop
    cases hop

theorem head (h : Groups tokens commands) : commands.head?.map Command.name = tokens.head? := by
  cases h <;> rfl

/-- Of two neighbours one is an operator. -/
theorem alternate (h : Groups tokens commands) :
    commands.IsChain fun c d => isOperator c.name = true ∨ isOperator d.name = true := by
  induction h with
  | nil => exact .nil
  | operator hop _ ih => exact List.isChain_cons.mpr ⟨fun _ _ => .inl hop, ih⟩
  | command _ _ hnext hrest ih =>
    refine List.isChain_cons.mpr ⟨fun d hd => .inr (hnext d.name ?_), ih⟩
    rw [← hrest.head, hd]
    rfl

end Groups

/-- The array holds these commands and no others. -/
structure CommandArray.Holds (array : CommandArray) (commands : List Command) : Prop where
  count : array.commandCount = commands.length
  filled : ∀ i : ℕ, i < array.commandCount → array.commands.get i = commands[i]?

theorem parseToArray_eq {string : CString} {tokens : List CString} {commands : List Command}
    (htokens : getTokens string = some tokens)
    (hcommands : convertTokensWithoutDisposal tokens = some commands) :
    ∃ array, parseToArray string = some array ∧ array.Holds commands := by
  obtain ⟨s, hs, hcommands⟩ := Option.map_eq_some_iff.mp hcommands
  rw [← funext groupStep_eq] at hs
  have hroom : ((0 + commands.length : ℕ) : ℤ) ≤
      (CArray.malloc commands.length : CArray Command).size := by
    rw [CArray.size_malloc]
    omega
  obtain ⟨array, hcopy, hsize, hcells⟩ := copyCommands_eq rfl hroom
  refine ⟨⟨array, commands.length⟩, ?_, rfl, fun i hi => ?_⟩
  · simp only [parseToArray, htokens, hs, hcommands, countCommands_eq, Nat.add_zero, hcopy,
      Option.bind_eq_bind, Option.bind_some, Option.pure_def]
  · have hlt : i < commands.length := hi
    rw [CArray.get_eq (by omega) (by rw [hsize, CArray.size_malloc]; omega), hcells,
      if_pos (by omega), Nat.sub_zero]

/-- The commands of a line are its tokens in order, in an array that is filled with them: an operator has
no arguments, no argument is an operator, and of two neighbours one is an operator. -/
theorem parse_partitions (string : CString) : ∃ array tokens commands,
    parseToArray string = some array ∧ array.Holds commands ∧ parse string = some commands ∧
      getTokens string = some tokens ∧ (commands.flatMap fun c => c.name :: c.argv) = tokens ∧
      (∀ c ∈ commands,
        (isOperator c.name = true → c.argv = []) ∧ ∀ word ∈ c.argv, isOperator word = false) ∧
      commands.IsChain fun c d => isOperator c.name = true ∨ isOperator d.name = true := by
  obtain ⟨tokens, htokens⟩ := exists_tokenizes string
  have hget := getTokens_of_tokenizes htokens
  obtain ⟨commands, hgroups, hexits⟩ := exists_groups tokens
  have hconvert := convertTokens_of_exits (hexits [])
  obtain ⟨array, harray, hholds⟩ := parseToArray_eq hget hconvert
  refine ⟨array, tokens, commands, harray, hholds, ?_, hget, hgroups.flatMap, hgroups.argv,
    hgroups.alternate⟩
  rw [parse, hget]
  exact hconvert

end SystemsProgramming.Shell

import SystemsProgramming.Shell.Evaluation
import SystemsProgramming.Shell.Grouping
import SystemsProgramming.Shell.Reading
import SystemsProgramming.Shell.Spacing

/-! How a script can be written. Operators are written as they are, and every other word in double quotes,
with a backslash before each double quote and each backslash; a newline inside quotes stays what it is.
What is written so is read back, line by line and command by command. -/

namespace SystemsProgramming.Shell

/-- A word and the blank behind it. -/
def wordText (word : CString) : CString := quote word ++ [space]

def Command.text (c : Command) : CString :=
  if isOperator c.name then c.name ++ [space] else wordText c.name ++ c.argv.flatMap wordText

theorem Operator.command_text (op : Operator) : op.command.text = op.text ++ [space] :=
  if_pos (isOperator_text op)

def commandsText (cs : List Command) : CString := cs.flatMap Command.text

def scriptText (script : List (List Command)) : List Byte :=
  script.flatMap fun cs => commandsText cs ++ [newline]

/-- The word can stand in a script: no NUL ends it, and no byte of it is taken for `EOF`. -/
def Legible (word : CString) : Prop := 0 ∉ word ∧ eof ∉ word

instance (word : CString) : Decidable (Legible word) := inferInstanceAs (Decidable (_ ∧ _))

/-- An operator alone, or words that are none. -/
def Command.Writable (c : Command) : Prop :=
  (∃ op : Operator, c = op.command) ∨
    (isOperator c.name = false ∧ Legible c.name ∧ ∀ word ∈ c.argv, isOperator word = false ∧ Legible word)

/-- Commands that can be written on a line: of two neighbours one is an operator. -/
structure Writable (cs : List Command) : Prop where
  each : ∀ c ∈ cs, c.Writable
  apart : cs.IsChain fun c d => isOperator c.name = true ∨ isOperator d.name = true
  length : (commandsText cs).length ≤ maxSize

/-- What `main` gets of its input: each line that it reads, as its commands. -/
def readCommands (stream : List Byte) : Option (List (List Command)) := do
  let (outputs, _) ← readLines stream
  outputs.mapM fun o => parse o.line

/-! ### The tokens -/

section
variable {line : CString} {tokens : List CString} {word : CString} {c : Command} {cs : List Command}

theorem tokenizes_space (h : Tokenizes line tokens) : Tokenizes (space :: line) tokens := by
  have hspace : Whitespace [space] := by decide
  exact tokenizesFrom_congr (getOneToken_whitespace hspace line).symm h

theorem tokenizes_word (hword : 0 ∉ word) (h : Tokenizes line tokens) :
    Tokenizes (wordText word ++ line) (word :: tokens) := by
  have hone : getOneToken (wordText word ++ line) = ⟨[word], some (space :: line)⟩ := by
    have hblank : Blank [] := by decide
    have hhead : ∀ c ∈ (space :: line).head?, c = space ∨ c = tab := by simp
    have hspelled := getOneToken_spelling hblank ⟨word, true, hword, by simp⟩ hhead
    rw [wordText, List.append_assoc]
    exact hspelled
  exact .more hone (tokenizes_space h)

theorem tokenizes_words {words : List CString} (hwords : ∀ word ∈ words, 0 ∉ word)
    (h : Tokenizes line tokens) : Tokenizes (words.flatMap wordText ++ line) (words ++ tokens) := by
  induction words with
  | nil => exact h
  | cons word words ih =>
    obtain ⟨hword, hwords⟩ := List.forall_mem_cons.mp hwords
    rw [List.flatMap_cons, List.append_assoc]
    exact tokenizes_word hword (ih hwords)

theorem tokenizes_operator (op : Operator) (h : Tokenizes line tokens) :
    Tokenizes (op.text ++ [space] ++ line) (op.text :: tokens) := by
  have hhead : op.text = [op.char] → (space :: line).head? ≠ some op.char := fun _ => by
    cases op <;> simp [Operator.char] <;> decide
  have hnone : Whitespace [] := by decide
  have hall : Tokenizes ([] ++ (op.text ++ space :: line)) (op.text :: tokens) :=
    tokenizesFrom_operator rfl hnone op hhead (tokenizes_space h)
  rw [List.append_assoc]
  exact hall

theorem tokenizes_command (hc : c.Writable) (h : Tokenizes line tokens) :
    Tokenizes (c.text ++ line) (c.name :: c.argv ++ tokens) := by
  rcases hc with ⟨op, rfl⟩ | ⟨hname, hlegible, hargv⟩
  · rw [op.command_text]
    exact tokenizes_operator op h
  · rw [Command.text, hname, if_neg Bool.false_ne_true, List.append_assoc]
    exact tokenizes_word hlegible.1 (tokenizes_words (fun word hword => (hargv word hword).2.1) h)

theorem tokenizes_commands (hcs : ∀ c ∈ cs, c.Writable) :
    Tokenizes (commandsText cs) (cs.flatMap fun c => c.name :: c.argv) := by
  induction cs with
  | nil => exact .last rfl
  | cons c cs ih =>
    obtain ⟨hc, hcs⟩ := List.forall_mem_cons.mp hcs
    exact tokenizes_command hc (ih hcs)

end

/-! ### The commands -/

section
variable {tokens : List CString} {cs : List Command}

theorem Groups.exits (h : Groups tokens cs) (before : List Command) :
    Exits convertTokensStep (before, tokens) (before ++ cs, []) := by
  induction h generalizing before with
  | nil => exact .done (by rw [convertTokensStep, List.append_nil])
  | operator hop _ ih =>
    rw [List.append_cons]
    exact .again (convertTokensStep_operator hop before _) (ih _)
  | @command name argv tokens commands hname hargv hnext _ ih =>
    have hstep := convertTokensStep_command hname before (argv ++ tokens)
    have hall : ∀ word ∈ argv, (!isOperator word) = true := fun word hword => by simp [hargv word hword]
    have hstop : tokens.takeWhile (fun token => !isOperator token) = [] ∧
        tokens.dropWhile (fun token => !isOperator token) = tokens := by
      cases tokens with
      | nil => exact ⟨rfl, rfl⟩
      | cons token tokens => simp [hnext token rfl]
    rw [List.takeWhile_append_of_pos hall, List.dropWhile_append_of_pos hall, hstop.1, hstop.2,
      List.append_nil] at hstep
    rw [List.append_cons]
    exact .again hstep (ih _)

theorem groups_flatMap (hcs : ∀ c ∈ cs, c.Writable)
    (hapart : cs.IsChain fun c d => isOperator c.name = true ∨ isOperator d.name = true) :
    Groups (cs.flatMap fun c => c.name :: c.argv) cs := by
  induction cs with
  | nil => exact .nil
  | cons c cs ih =>
    obtain ⟨hc, hrest⟩ := List.forall_mem_cons.mp hcs
    obtain ⟨hnext, hchain⟩ := List.isChain_cons.mp hapart
    have hgroups := ih hrest hchain
    rcases hc with ⟨op, rfl⟩ | ⟨hname, -, hargv⟩
    · exact .operator (isOperator_text op) hgroups
    · refine .command hname (fun word hword => (hargv word hword).1) (fun token htoken => ?_) hgroups
      cases cs with
      | nil => cases htoken
      | cons d ds =>
        obtain rfl := Option.some.inj htoken
        exact (hnext d rfl).resolve_left (by simp [hname])

/-- The commands of a line are read back from their text. -/
theorem parse_commandsText (hcs : ∀ c ∈ cs, c.Writable)
    (hapart : cs.IsChain fun c d => isOperator c.name = true ∨ isOperator d.name = true) :
    parse (commandsText cs) = some cs := by
  rw [parse, getTokens_of_tokenizes (tokenizes_commands hcs)]
  exact convertTokens_of_exits ((groups_flatMap hcs hapart).exits [])

end

/-! ### The bytes -/

section
variable {s : Lex} {a b rest : List Byte} {word : CString} {c : Command} {cs : List Command}

/-- No newline of the text ends a line that has come to the text in this state. -/
def Unbroken (s : Lex) (text : List Byte) : Prop :=
  Throughout (fun q c => ¬(c = newline ∧ q.foldl Lex.read s = .plain)) text

theorem unbroken_append : Unbroken s (a ++ b) ↔ Unbroken s a ∧ Unbroken (a.foldl Lex.read s) b := by
  induction a generalizing s with
  | nil => exact (and_iff_right throughout_nil).symm
  | cons c a ih =>
    rw [List.cons_append, Unbroken, throughout_cons, Unbroken, throughout_cons, and_assoc]
    exact and_congr_right fun _ => ih

theorem unbroken_singleton {c : Byte} (h : ¬(c = newline ∧ s = .plain)) : Unbroken s [c] :=
  throughout_cons.mpr ⟨h, throughout_nil⟩

/-- The text is read whole from outside of quotes to outside of quotes, without a pair of a backslash and a
newline. -/
structure Whole (text : List Byte) : Prop where
  unbroken : Unbroken .plain text
  plain : text.foldl Lex.read .plain = .plain
  joined : ∀ rest, joined (text ++ rest) = text ++ joined rest
  legible : Legible text

theorem legible_append : Legible (a ++ b) ↔ Legible a ∧ Legible b := by
  simp only [Legible, List.mem_append, not_or]
  exact and_and_and_comm

theorem joined_cons {c : Byte} (hc : c ≠ backslash) (rest : List Byte) :
    joined (c :: rest) = c :: joined rest := by
  cases rest with
  | nil => rfl
  | cons d rest => rw [joined, if_neg hc]

theorem joined_pair {d : Byte} (hd : d ≠ newline) (rest : List Byte) :
    joined (backslash :: d :: rest) = backslash :: d :: joined rest := by
  rw [joined, if_pos rfl, if_neg hd]

theorem Whole.nil : Whole [] := ⟨throughout_nil, rfl, fun _ => rfl, by decide⟩

theorem Whole.append (ha : Whole a) (hb : Whole b) : Whole (a ++ b) where
  unbroken := unbroken_append.mpr ⟨ha.unbroken, ha.plain.symm ▸ hb.unbroken⟩
  plain := by rw [List.foldl_append, ha.plain, hb.plain]
  joined rest := by rw [List.append_assoc, ha.joined, hb.joined, List.append_assoc]
  legible := legible_append.mpr ⟨ha.legible, hb.legible⟩

/-- A byte that is nothing special. -/
theorem Whole.singleton {c : Byte} (hread : Lex.read .plain c = .plain) (hnewline : c ≠ newline)
    (hbackslash : c ≠ backslash) (hlegible : Legible [c]) : Whole [c] where
  unbroken := unbroken_singleton fun h => hnewline h.1
  plain := hread
  joined := joined_cons hbackslash
  legible := hlegible

theorem Whole.flatMap {α : Type} {text : α → List Byte} {xs : List α} (h : ∀ x ∈ xs, Whole (text x)) :
    Whole (xs.flatMap text) := by
  induction xs with
  | nil => exact .nil
  | cons x xs ih =>
    obtain ⟨hx, hxs⟩ := List.forall_mem_cons.mp h
    exact hx.append (ih hxs)

theorem whole_space : Whole [space] := .singleton (by decide) (by decide) (by decide) (by decide)

theorem whole_operator (op : Operator) : Whole op.text := by
  have hbar : Whole [byte '|'] := .singleton (by decide) (by decide) (by decide) (by decide)
  have hand : Whole [byte '&'] := .singleton (by decide) (by decide) (by decide) (by decide)
  have hgreater : Whole [byte '>'] := .singleton (by decide) (by decide) (by decide) (by decide)
  cases op with
  | pipe => exact hbar
  | or => exact hbar.append hbar
  | and => exact hand.append hand
  | background => exact hand
  | overwrite => exact hgreater
  | append => exact hgreater.append hgreater

/-- Inside double quotes. -/
def insideQuotes : Lex := ⟨false, some doubleQuote⟩

theorem read_quoteChar (c : Byte) : (quoteChar c).foldl Lex.read insideQuotes = insideQuotes ∧
    Unbroken insideQuotes (quoteChar c) ∧
    ∀ rest, joined (quoteChar c ++ rest) = quoteChar c ++ joined rest := by
  have hinside : insideQuotes ≠ .plain := by decide
  by_cases hc : c = doubleQuote ∨ c = backslash
  · have hn : c ≠ newline := by rcases hc with rfl | rfl <;> decide
    rw [quoteChar, if_pos hc]
    refine ⟨by rcases hc with rfl | rfl <;> decide, ?_, joined_pair hn⟩
    exact throughout_cons.mpr ⟨fun h => hinside h.2, unbroken_singleton fun h => hn h.1⟩
  · obtain ⟨hquote, hbackslash⟩ := not_or.mp hc
    rw [quoteChar, if_neg hc]
    refine ⟨?_, unbroken_singleton fun h => hinside h.2, joined_cons hbackslash⟩
    show Lex.read insideQuotes c = insideQuotes
    rw [Lex.read, if_neg hbackslash]
    split_ifs with hn hescaped hq
    · rfl
    · cases hescaped
    · have hopen : some doubleQuote ≠ some c := fun h => hquote (Option.some.inj h).symm
      show (⟨false, Lex.toggle (some doubleQuote) c⟩ : Lex) = _
      rw [Lex.toggle, if_neg hopen]
      rfl
    · rfl

theorem read_quoted (word : CString) : (word.flatMap quoteChar).foldl Lex.read insideQuotes = insideQuotes ∧
    Unbroken insideQuotes (word.flatMap quoteChar) ∧
    ∀ rest, joined (word.flatMap quoteChar ++ rest) = word.flatMap quoteChar ++ joined rest := by
  induction word with
  | nil => exact ⟨rfl, throughout_nil, fun _ => rfl⟩
  | cons c word ih =>
    obtain ⟨hread, hunbroken, hjoined⟩ := ih
    obtain ⟨hreadc, hunbrokenc, hjoinedc⟩ := read_quoteChar c
    rw [List.flatMap_cons]
    refine ⟨by rw [List.foldl_append, hreadc, hread], ?_, fun rest => ?_⟩
    · exact unbroken_append.mpr ⟨hunbrokenc, hreadc.symm ▸ hunbroken⟩
    · rw [List.append_assoc, hjoinedc, hjoined, List.append_assoc]

theorem legible_quoted (hword : Legible word) : Legible (word.flatMap quoteChar) := by
  have hmem : ∀ d, d ≠ backslash → d ∉ word → d ∉ word.flatMap quoteChar := by
    intro d hd hnot hmem
    obtain ⟨c, hc, hdc⟩ := List.mem_flatMap.mp hmem
    have hsame : d = c := by
      rw [quoteChar] at hdc
      split_ifs at hdc
      · simpa [hd] using hdc
      · simpa using hdc
    exact hnot (hsame ▸ hc)
  exact ⟨hmem 0 (by decide) hword.1, hmem eof (by decide) hword.2⟩

theorem whole_quote (hword : Legible word) : Whole (quote word) := by
  obtain ⟨hread, hunbroken, hjoined⟩ := read_quoted word
  have hopen : Lex.read .plain doubleQuote = insideQuotes := by decide
  have hclose : Lex.read insideQuotes doubleQuote = .plain := by decide
  have hquote : doubleQuote ≠ newline ∧ doubleQuote ≠ backslash := by decide
  rw [quote]
  constructor
  · refine throughout_cons.mpr ⟨fun h => hquote.1 h.1, ?_⟩
    have hrest : Unbroken insideQuotes (word.flatMap quoteChar ++ [doubleQuote]) :=
      unbroken_append.mpr ⟨hunbroken, unbroken_singleton fun h => hquote.1 h.1⟩
    rw [← hopen] at hrest
    exact hrest
  · rw [List.foldl_cons, hopen, List.foldl_append, hread]
    exact hclose
  · intro rest
    rw [List.cons_append, joined_cons hquote.2, List.append_assoc, hjoined, List.singleton_append,
      joined_cons hquote.2]
    simp
  · have hends : Legible [doubleQuote] := by decide
    have hrest := legible_append.mpr ⟨legible_quoted hword, hends⟩
    exact legible_append.mpr ⟨hends, hrest⟩

theorem whole_command (hc : c.Writable) : Whole c.text := by
  rcases hc with ⟨op, rfl⟩ | ⟨hname, hlegible, hargv⟩
  · rw [op.command_text]
    exact (whole_operator op).append whole_space
  · rw [Command.text, hname, if_neg Bool.false_ne_true]
    exact ((whole_quote hlegible).append whole_space).append
      (Whole.flatMap fun word hword => (whole_quote (hargv word hword).2).append whole_space)

theorem fits_of_length_le (h : a.length ≤ maxSize) : Fits a := by
  intro q c hq
  have hle := hq.length_le
  rw [List.length_append, List.length_singleton] at hle
  have hjoined := length_joined_le q
  omega

/-- A line is read back from its text. -/
theorem readStdinLine_commandsText (hcs : Writable cs) (rest : List Byte) :
    readStdinLine (commandsText cs ++ newline :: rest) = some (⟨false, commandsText cs⟩, rest) := by
  have hwhole : Whole (commandsText cs) := Whole.flatMap fun c hc => whole_command (hcs.each c hc)
  have hinside : Inside (commandsText cs) := ⟨hwhole.legible.1, hwhole.legible.2, hwhole.unbroken⟩
  have hline := hinside.line (fits_of_length_le hcs.length) ⟨rfl, hwhole.plain⟩ rest
  have hjoined := hwhole.joined []
  rw [List.append_nil, show joined [] = [] from rfl, List.append_nil] at hjoined
  rwa [hjoined] at hline

/-! ### Scripts -/

theorem readStdinLine_nil : readStdinLine [] = some (⟨true, []⟩, []) := by
  have hinside : Inside [] := ⟨by decide, by decide, throughout_nil⟩
  exact hinside.last throughout_nil rfl

theorem scriptText_cons (cs : List Command) (script : List (List Command)) :
    scriptText (cs :: script) = commandsText cs ++ newline :: scriptText script := by
  rw [scriptText, List.flatMap_cons, List.append_assoc]
  rfl

/-- What the calls of `read_stdin_line` return. -/
def scriptOutputs (script : List (List Command)) : List ReaderOutput :=
  script.map (fun cs => ⟨false, commandsText cs⟩) ++ [⟨true, []⟩]

theorem readLinesFrom_scriptText {script : List (List Command)} (hscript : ∀ cs ∈ script, Writable cs)
    {fuel : ℕ} (hfuel : (scriptText script).length < fuel) : readLinesFrom fuel (scriptText script) =
      some (scriptOutputs script, []) := by
  induction script generalizing fuel with
  | nil =>
    obtain ⟨fuel, rfl⟩ := Nat.exists_eq_succ_of_ne_zero (Nat.ne_zero_of_lt hfuel)
    rw [readLinesFrom_succ, show scriptText [] = [] from rfl, readStdinLine_nil]
    rfl
  | cons cs script ih =>
    obtain ⟨fuel, rfl⟩ := Nat.exists_eq_succ_of_ne_zero (Nat.ne_zero_of_lt hfuel)
    obtain ⟨hcs, hrest⟩ := List.forall_mem_cons.mp hscript
    rw [scriptText_cons] at hfuel ⊢
    rw [List.length_append, List.length_cons] at hfuel
    have hlt : (scriptText script).length < fuel := by omega
    rw [readLinesFrom_succ, readStdinLine_commandsText hcs]
    simp only [Option.bind_some, Bool.false_eq_true, if_false, ih hrest hlt]
    rfl

theorem mapM_parse {script : List (List Command)} (hscript : ∀ cs ∈ script, Writable cs) :
    (scriptOutputs script).mapM (fun o => parse o.line) = some (script ++ [[]]) := by
  induction script with
  | nil => rfl
  | cons cs script ih =>
    obtain ⟨hcs, hrest⟩ := List.forall_mem_cons.mp hscript
    rw [scriptOutputs, List.map_cons, List.cons_append, List.mapM_cons, parse_commandsText hcs.each hcs.apart,
      ← scriptOutputs, ih hrest]
    rfl

/-- A script is read back from its text: its lines, and an empty one at the end. -/
theorem readCommands_scriptText {script : List (List Command)} (hscript : ∀ cs ∈ script, Writable cs) :
    readCommands (scriptText script) = some (script ++ [[]]) := by
  rw [readCommands, readLines, readLinesFrom_scriptText hscript (Nat.lt_succ_self _)]
  exact mapM_parse hscript

/-- `"e" "` newline `\"\\" | "c"`: the word that goes on in the next line is one word. -/
theorem readCommands_scriptText_newline : readCommands (scriptText
      [[⟨[byte 'e'], [[newline, doubleQuote, backslash]]⟩, Operator.pipe.command, ⟨[byte 'c'], []⟩]]) =
    some [[⟨[byte 'e'], [[newline, doubleQuote, backslash]]⟩, Operator.pipe.command, ⟨[byte 'c'], []⟩],
      []] := by
  have hwritable : Writable
      [⟨[byte 'e'], [[newline, doubleQuote, backslash]]⟩, Operator.pipe.command, ⟨[byte 'c'], []⟩] := by
    refine ⟨?_, by decide, by rw [maxSize]; decide⟩
    simp only [List.forall_mem_cons]
    exact ⟨.inr (by decide), .inl ⟨.pipe, rfl⟩, .inr (by decide), fun c hc => absurd hc List.not_mem_nil⟩
  exact readCommands_scriptText (List.forall_mem_singleton.mpr hwritable)

end

end SystemsProgramming.Shell

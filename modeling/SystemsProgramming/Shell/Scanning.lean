import SystemsProgramming.Shell.Quoting

/-! Where the tokenizer is in a line. `get_tokens` calls `get_one_token` again and again, each time on
what is left of the line, and the loop of `get_one_token` passes over characters until it finds a
token. An index into the line is the index at which the call starts and the index in the string of the
call. -/

namespace SystemsProgramming.Shell

namespace Scan

/-- The variables of `get_one_token` at the start. -/
def start : Scan := ⟨[], none, false⟩

/-- The loop's body for a character behind which the loop goes on. -/
def pass (oldStringPtr : ℕ) (s : Scan) (c : Byte) : Option Scan :=
  if s.charIsEscaped then some (s.write c)
  else if c = tab || c = space || c = newline then
    if s.nonClassifiedTokenStart.isSome then none else some (s.write c)
  else if c = singleQuote || c = doubleQuote then none
  else if c = byte '>' || c = byte '&' || c = byte '|' then none
  else some ((s.begin oldStringPtr).write c)

end Scan

/-- `get_tokens` calls `get_one_token` on the line from this index on. -/
inductive Restarts (line : CString) : ℕ → Prop
  | start : Restarts line 0
  | again {k k' : ℕ} : Restarts line k → k' ≤ line.length →
      (getOneToken (line.drop k)).maybeUnparsedTokensPtr = some (line.drop k') → Restarts line k'

/-- In that call, the loop gets to this index of its string with these variables. -/
inductive Visits (line : CString) : ℕ → ℕ → Scan → Prop
  | start {k : ℕ} : Restarts line k → Visits line k 0 .start
  | pass {k i : ℕ} {s s' : Scan} {c : Byte} : Visits line k i s → (line)[k + i]? = some c →
      s.pass i c = some s' → Visits line k (i + 1) s'

/-- What `get_tokens` finds, call by call, from a state of the loop of `get_one_token` on. -/
inductive TokenizesFrom : ℕ → Scan → CString → List CString → Prop
  | last {i : ℕ} {s : Scan} {line : CString} {tokens : List CString} :
      getOneTokenFrom i s line = ⟨tokens, none⟩ → TokenizesFrom i s line tokens
  | more {i : ℕ} {s : Scan} {line rest : CString} {tokens others : List CString} :
      getOneTokenFrom i s line = ⟨tokens, some rest⟩ → TokenizesFrom 0 .start rest others →
      TokenizesFrom i s line (tokens ++ others)

abbrev Tokenizes (line : CString) (tokens : List CString) : Prop := TokenizesFrom 0 .start line tokens

/-! ### The loop of `get_one_token` -/

section
variable {i : ℕ} {s s' : Scan} {c : Byte} {line rest : CString}

theorem getOneTokenFrom_pass (h : s.pass i c = some s') (rest : CString) :
    getOneTokenFrom i s (c :: rest) = getOneTokenFrom (i + 1) s' rest := by
  rw [Scan.pass] at h
  rw [getOneTokenFrom]
  split_ifs at h ⊢
  all_goals
    obtain rfl := Option.some.inj h
    rfl

/-- The character at which the loop ends. -/
inductive Stop (i : ℕ) (s : Scan) : Byte → CString → Tokens → Prop
  | blank {c : Byte} {rest : CString} : c = tab ∨ c = space ∨ c = newline →
      Stop i s c rest ⟨s.prepend [], some rest⟩
  | quote {c : Byte} {rest : CString} : c = singleQuote ∨ c = doubleQuote →
      Stop i s c rest ⟨s.prepend (extractQuotedLiteral (c :: rest) 0 c).list,
        (extractQuotedLiteral (c :: rest) 0 c).maybeUnparsedTokensPtr⟩
  | double {c : Byte} {rest : CString} : c = byte '>' ∨ c = byte '&' ∨ c = byte '|' →
      Stop i s c (c :: rest) ⟨s.prepend [[c, c]], some rest⟩
  | single {c : Byte} {rest : CString} : c = byte '>' ∨ c = byte '&' ∨ c = byte '|' →
      rest.head? ≠ some c → Stop i s c rest ⟨s.prepend [[c]], some rest⟩

theorem getOneTokenFrom_stop (h : s.pass i c = none) (rest : CString) :
    s.charIsEscaped = false ∧ Stop i s c rest (getOneTokenFrom i s (c :: rest)) := by
  rw [Scan.pass] at h
  rw [getOneTokenFrom]
  split_ifs at h ⊢ with hescaped hblank hstart hquote hop htwo
  · exact ⟨by simpa using hescaped, .blank (by simpa [or_assoc] using hblank)⟩
  · exact ⟨by simpa using hescaped, .quote (by simpa using hquote)⟩
  · obtain ⟨d, rest', rfl⟩ : ∃ d rest', rest = d :: rest' := by
      cases rest with
      | nil => cases htwo
      | cons d rest' => exact ⟨d, rest', rfl⟩
    obtain rfl := Option.some.inj htwo
    exact ⟨by simpa using hescaped, .double (by simpa [or_assoc] using hop)⟩
  · exact ⟨by simpa using hescaped, .single (by simpa [or_assoc] using hop) htwo⟩

end

/-! ### The calls of a line -/

section
variable {line : CString} {k i : ℕ} {s : Scan}

theorem Visits.restarts (h : Visits line k i s) : Restarts line k := by
  induction h with
  | start hk => exact hk
  | pass _ _ _ ih => exact ih

theorem Visits.getOneToken (h : Visits line k i s) :
    getOneToken (line.drop k) = getOneTokenFrom i s (line.drop (k + i)) := by
  induction h with
  | start _ => rfl
  | pass _ hc hpass ih =>
    obtain ⟨hlt, rfl⟩ := List.getElem?_eq_some_iff.mp hc
    rw [ih, List.drop_eq_getElem_cons hlt, getOneTokenFrom_pass hpass, Nat.add_assoc]

/-- Where the next call starts. -/
theorem Visits.again (h : Visits line k i s) {k' : ℕ} (hk' : k' ≤ line.length)
    (hrest : (getOneTokenFrom i s (line.drop (k + i))).maybeUnparsedTokensPtr = some (line.drop k')) :
    Restarts line k' := .again h.restarts hk' (by rw [h.getOneToken, hrest])

end

/-! ### All tokens -/

theorem tokenizesFrom_congr {i i' : ℕ} {s s' : Scan} {line line' : CString} {tokens : List CString}
    (heq : getOneTokenFrom i s line = getOneTokenFrom i' s' line')
    (h : TokenizesFrom i s line tokens) : TokenizesFrom i' s' line' tokens := by
  cases h with
  | last hline => exact .last (heq.symm.trans hline)
  | more hline hrest => exact .more (heq.symm.trans hline) hrest

/-- The loop ends for every line. -/
theorem exists_tokenizes (line : CString) : ∃ tokens, Tokenizes line tokens := by
  generalize hn : line.length = n
  induction n using Nat.strongRecOn generalizing line with
  | ind n ih =>
    cases hrest : (getOneToken line).maybeUnparsedTokensPtr with
    | none =>
      have hline : getOneToken line = ⟨(getOneToken line).list, none⟩ := by rw [← hrest]
      exact ⟨_, .last hline⟩
    | some rest =>
      have hline : getOneToken line = ⟨(getOneToken line).list, some rest⟩ := by rw [← hrest]
      obtain ⟨others, hothers⟩ := ih rest.length (hn ▸ getOneTokenFrom_rest hrest) rest rfl
      exact ⟨_, .more hline hothers⟩

theorem TokenizesFrom.exits {i : ℕ} {s : Scan} {line string : CString} {tokens : List CString}
    (h : TokenizesFrom i s line tokens) (hstring : getOneToken string = getOneTokenFrom i s line)
    (before : List CString) :
    Exits getTokensStep (before, some string) (before ++ tokens, none) := by
  induction h generalizing before string with
  | @last i s line tokens hline =>
    refine .again (t := (before ++ tokens, none)) ?_ (.done rfl)
    rw [getTokensStep, hstring, hline]
  | @more i s line rest tokens others hline _ ih =>
    refine .again ?_ (List.append_assoc .. ▸ ih rfl _)
    rw [getTokensStep, hstring, hline]

theorem getTokens_of_tokenizes {line : CString} {tokens : List CString} (h : Tokenizes line tokens) :
    getTokens line = some tokens := getTokens_of_exits (h.exits rfl [])

end SystemsProgramming.Shell

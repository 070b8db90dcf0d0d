import SystemsProgramming.Shell.Tokenizer
import Mathlib.Data.List.Basic

/-! Words that are spelled out with quotes or backslashes are read back by the tokenizer. Finding the
closing quote, unescaping inside quotes and unescaping outside them are separate scanners; each has a
lemma about what it makes of a spelled word, whatever follows. -/

namespace SystemsProgramming.Shell

/-- A character inside double quotes. -/
def quoteChar (c : Byte) : CString := if c = doubleQuote ∨ c = backslash then [backslash, c] else [c]

/-- A word in double quotes. -/
def quote (word : CString) : CString := doubleQuote :: (word.flatMap quoteChar ++ [doubleQuote])

/-- A word with a backslash before each character. -/
def escape (word : CString) : CString := word.flatMap fun c => [backslash, c]

/-- A word and how it is written on the line. -/
structure Spelling where
  word : CString
  quoted : Bool
  nulFree : 0 ∉ word
  nonempty : quoted = false → word ≠ []

def Spelling.text (s : Spelling) : CString := if s.quoted then quote s.word else escape s.word

/-- Spaces and tabs. -/
def Blank (gap : CString) : Prop := ∀ c ∈ gap, c = space ∨ c = tab

instance (gap : CString) : Decidable (Blank gap) :=
  List.decidableBAll _ gap

/-- A line with these words. After a word the line ends or goes on with a space or a tab. -/
inductive Spells : List CString → CString → Prop
  | blank {gap : CString} : Blank gap → Spells [] gap
  | word {gap : CString} {s : Spelling} {words : List CString} {line : CString} : Blank gap →
      Spells words line → (∀ c ∈ line.head?, c = space ∨ c = tab) →
      Spells (s.word :: words) (gap ++ s.text ++ line)

/-- What is behind a word is tested by its first character. -/
instance (line : CString) : Decidable (∀ c ∈ line.head?, c = space ∨ c = tab) :=
  Option.decidableForallMem line.head?

/-! ### Quoted literals -/

/-- The literal that a string starts with, by what is behind its opening quote. -/
theorem extractQuotedLiteral_cons (c q : Byte) (rest : CString) :
    extractQuotedLiteral (c :: rest) 0 q =
      ⟨[unescape q false (rest.take (closingQuoteOffset q false rest))],
        if rest.drop (closingQuoteOffset q false rest) = [] then none
        else some (rest.drop (closingQuoteOffset q false rest + 1))⟩ := by
  simp only [extractQuotedLiteral, getClosingQuoteIndex, extractQuotedToken, Nat.zero_add,
    List.drop_succ_cons, List.drop_zero, Nat.add_sub_cancel_left]
  rw [Nat.add_comm 1, List.drop_succ_cons]

/-! ### Inside double quotes -/

theorem doubleQuote_ne_backslash : doubleQuote ≠ backslash := by decide

theorem closingQuoteOffset_quoteChar (c : Byte) (rest : CString) :
    closingQuoteOffset doubleQuote false (quoteChar c ++ rest) =
      closingQuoteOffset doubleQuote false rest + (quoteChar c).length := by
  by_cases hq : c = doubleQuote
  · subst hq
    simp [quoteChar, closingQuoteOffset, doubleQuote_ne_backslash]
  by_cases hb : c = backslash
  · subst hb
    simp [quoteChar, closingQuoteOffset]
  · simp [quoteChar, closingQuoteOffset, hq, hb]

theorem closingQuoteOffset_quoted (word line : CString) :
    closingQuoteOffset doubleQuote false (word.flatMap quoteChar ++ doubleQuote :: line) =
      (word.flatMap quoteChar).length := by
  induction word with
  | nil => rfl
  | cons c word ih =>
    rw [List.flatMap_cons, List.append_assoc, closingQuoteOffset_quoteChar, ih, List.length_append,
      Nat.add_comm]

theorem unescape_quoteChar (c : Byte) (rest : CString) :
    unescape doubleQuote false (quoteChar c ++ rest) = c :: unescape doubleQuote false rest := by
  by_cases hq : c = doubleQuote
  · subst hq
    simp [quoteChar, unescape, doubleQuote_ne_backslash]
  by_cases hb : c = backslash
  · subst hb
    simp [quoteChar, unescape]
  · simp [quoteChar, unescape, hq, hb]

theorem unescape_quoted (word : CString) :
    unescape doubleQuote false (word.flatMap quoteChar) = word := by
  induction word with
  | nil => rfl
  | cons c word ih => rw [List.flatMap_cons, unescape_quoteChar, ih]

theorem extractQuotedLiteral_quoted (word line : CString) :
    extractQuotedLiteral (quote word ++ line) 0 doubleQuote = ⟨[word], some line⟩ := by
  have hline : quote word ++ line =
      doubleQuote :: (word.flatMap quoteChar ++ doubleQuote :: line) := by simp [quote]
  rw [hline, extractQuotedLiteral_cons, closingQuoteOffset_quoted, List.take_left, unescape_quoted]
  generalize word.flatMap quoteChar = inside
  simp

/-! ### Outside quotes -/

/-- Blanks before a token are passed over. -/
theorem getOneTokenFrom_gap {gap : CString} (h : ∀ c ∈ gap, c = tab ∨ c = space ∨ c = newline)
    (ptr : ℕ) (new line : CString) : getOneTokenFrom ptr ⟨new, none, false⟩ (gap ++ line) =
      getOneTokenFrom (ptr + gap.length) ⟨new ++ gap, none, false⟩ line := by
  induction gap generalizing ptr new with
  | nil => simp
  | cons c gap ih =>
    have hc : c = tab ∨ c = space ∨ c = newline := h c List.mem_cons_self
    have hb : c ≠ backslash := by rcases hc with rfl | rfl | rfl <;> decide
    rw [List.cons_append, getOneTokenFrom, Scan.write, if_neg hb]
    simp only [Bool.false_eq_true, if_false, Option.isSome_none]
    rw [if_pos (by rcases hc with rfl | rfl | rfl <;> decide),
      ih (fun d hd => h d (List.mem_cons_of_mem c hd)), List.append_assoc, List.length_cons]
    congr 1
    omega

theorem getOneTokenFrom_blank {gap : CString} (h : Blank gap) (ptr : ℕ) (new line : CString) :
    getOneTokenFrom ptr ⟨new, none, false⟩ (gap ++ line) =
      getOneTokenFrom (ptr + gap.length) ⟨new ++ gap, none, false⟩ line :=
  getOneTokenFrom_gap (fun c hc => (h c hc).elim (fun hs => .inr (.inl hs)) .inl) ptr new line

theorem getOneTokenFrom_quoted (ptr : ℕ) (new word line : CString) :
    getOneTokenFrom ptr ⟨new, none, false⟩ (quote word ++ line) = ⟨[word], some line⟩ := by
  have hquote := extractQuotedLiteral_quoted word line
  rw [quote, List.cons_append] at hquote ⊢
  rw [getOneTokenFrom]
  simp only [Bool.false_eq_true, if_false, hquote]
  rw [if_neg (by decide), if_pos (by decide)]
  rfl

/-- A character with a backslash before it. -/
theorem getOneTokenFrom_escapedChar (ptr start : ℕ) (new : CString) (c : Byte) (line : CString) :
    getOneTokenFrom ptr ⟨new, some start, false⟩ (backslash :: c :: line) =
      getOneTokenFrom (ptr + 2) ⟨new ++ [c], some start, false⟩ line := by
  rw [getOneTokenFrom]
  simp only [Bool.false_eq_true, if_false]
  rw [if_neg (by decide), if_neg (by decide), if_neg (by decide), getOneTokenFrom]
  by_cases hc : c = backslash
  · simp [Scan.begin, Scan.write, hc]
  · simp [Scan.begin, Scan.write, hc]

theorem getOneTokenFrom_escape (ptr start : ℕ) (new word line : CString) :
    getOneTokenFrom ptr ⟨new, some start, false⟩ (escape word ++ line) =
      getOneTokenFrom (ptr + (escape word).length) ⟨new ++ word, some start, false⟩ line := by
  induction word generalizing ptr new with
  | nil => simp [escape]
  | cons c word ih =>
    have hcons : escape (c :: word) = backslash :: c :: escape word := rfl
    rw [hcons, List.cons_append, List.cons_append, getOneTokenFrom_escapedChar, ih,
      List.append_assoc]
    simp only [List.length_cons, List.singleton_append]
    congr 1
    omega

/-- The first backslash begins a token. -/
theorem getOneTokenFrom_begin (ptr : ℕ) (new : CString) (line : CString) :
    getOneTokenFrom ptr ⟨new, none, false⟩ (backslash :: line) =
      getOneTokenFrom ptr ⟨new, some ptr, false⟩ (backslash :: line) := by
  rw [getOneTokenFrom, getOneTokenFrom]
  simp only [Bool.false_eq_true, if_false]
  rw [if_neg (by decide), if_neg (by decide), if_neg (by decide), if_neg (by decide),
    if_neg (by decide), if_neg (by decide)]
  rfl

/-- The end of a token that is not quoted. -/
theorem getOneTokenFrom_end (ptr : ℕ) (new word line : CString)
    (hline : ∀ c ∈ line.head?, c = space ∨ c = tab) :
    getOneTokenFrom ptr ⟨new ++ word, some new.length, false⟩ line =
      ⟨[word], if line = [] then none else some line.tail⟩ := by
  have htoken : Scan.prepend ⟨new ++ word, some new.length, false⟩ [] = [word] := by
    simp [Scan.prepend, substring]
  cases line with
  | nil => rw [getOneTokenFrom, htoken, if_pos rfl]
  | cons c line =>
    have hc : c = space ∨ c = tab := hline c rfl
    rw [getOneTokenFrom, htoken]
    simp only [Bool.false_eq_true, if_false, Option.isSome_some, if_true]
    rw [if_pos (by rcases hc with rfl | rfl <;> decide)]
    simp

/-- What is left of a line after a word. -/
def Spelling.rest (s : Spelling) (line : CString) : Option CString :=
  if s.quoted then some line else if line = [] then none else some line.tail

theorem getOneToken_spelling {gap line : CString} (hgap : Blank gap) (s : Spelling)
    (hline : ∀ c ∈ line.head?, c = space ∨ c = tab) :
    getOneToken (gap ++ s.text ++ line) = ⟨[s.word], s.rest line⟩ := by
  rw [getOneToken, List.append_assoc, getOneTokenFrom_blank hgap, Spelling.text, Spelling.rest]
  cases hquoted : s.quoted with
  | true => exact getOneTokenFrom_quoted _ _ _ _
  | false =>
    obtain ⟨c, word, hword⟩ := List.exists_cons_of_ne_nil (s.nonempty hquoted)
    have hcons : escape s.word = backslash :: c :: escape word := by rw [hword]; rfl
    have hbegin := getOneTokenFrom_begin gap.length gap (c :: (escape word ++ line))
    have hescape := getOneTokenFrom_escape gap.length gap.length gap s.word line
    rw [hcons] at hescape
    simp only [Bool.false_eq_true, if_false, Nat.zero_add, List.nil_append, hcons, List.cons_append]
    simp only [List.cons_append] at hescape
    rw [hbegin, hescape]
    exact getOneTokenFrom_end _ _ _ _ hline

theorem getOneToken_blank {gap : CString} (hgap : Blank gap) : getOneToken gap = ⟨[], none⟩ := by
  have hskip := getOneTokenFrom_blank hgap 0 [] []
  rw [List.append_nil] at hskip
  rw [getOneToken, hskip]
  rfl

/-! ### The whole line -/

/-- `get_one_token` moves on in the string. -/
theorem getOneTokenFrom_rest {ptr : ℕ} {s : Scan} {line rest : CString}
    (h : (getOneTokenFrom ptr s line).maybeUnparsedTokensPtr = some rest) :
    rest.length < line.length := by
  induction line generalizing ptr s with
  | nil => cases h
  | cons c line ih =>
    rw [getOneTokenFrom] at h
    split_ifs at h with hescaped hblank hstart hquote hop htwo
    · exact Nat.lt_succ_of_lt (ih h)
    · obtain rfl := Option.some.inj h
      exact Nat.lt_succ_self _
    · exact Nat.lt_succ_of_lt (ih h)
    · simp only [extractQuotedLiteral] at h
      split_ifs at h
      obtain rfl := Option.some.inj h
      rw [List.length_drop, List.length_cons]
      omega
    · obtain rfl := Option.some.inj h
      rw [List.length_drop, List.length_cons]
      omega
    · obtain rfl := Option.some.inj h
      rw [List.length_drop, List.length_cons]
      omega
    · exact Nat.lt_succ_of_lt (ih h)

/-- The length of what is left to look at. -/
def remaining : List CString × Option CString → ℕ
  | (_, none) => 0
  | (_, some line) => line.length + 1

theorem remaining_lt {s t : List CString × Option CString} (h : getTokensStep s = some (.again t)) :
    remaining t < remaining s := by
  obtain ⟨tokens, line | line⟩ := s
  · cases h
  · obtain rfl := Ctl.again.inj (Option.some.inj h)
    cases hrest : (getOneToken line).maybeUnparsedTokensPtr with
    | none => exact Nat.zero_lt_succ _
    | some rest => exact Nat.succ_lt_succ (getOneTokenFrom_rest hrest)

theorem getTokens_of_exits {line : CString} {words : List CString}
    (h : Exits getTokensStep ([], some line) (words, none)) : getTokens line = some words := by
  rw [getTokens, h.iterate (n := line.length + 2) (fun _ _ => remaining_lt) (Nat.lt_succ_self _),
    Option.map_some]

theorem Spelling.text_cons (s : Spelling) :
    ∃ c rest, s.text = c :: rest ∧ (c = doubleQuote ∨ c = backslash) := by
  rw [Spelling.text]
  cases hquoted : s.quoted with
  | true => exact ⟨_, _, rfl, .inl rfl⟩
  | false =>
    obtain ⟨c, word, hword⟩ := List.exists_cons_of_ne_nil (s.nonempty hquoted)
    exact ⟨backslash, c :: escape word, by rw [hword]; rfl, .inr rfl⟩

/-- A space or a tab in front of a line does not matter. -/
theorem Spells.tail {words : List CString} {line : CString} (h : Spells words line)
    (hblank : ∀ c ∈ line.head?, c = space ∨ c = tab) : Spells words line.tail := by
  cases h with
  | blank hgap => exact .blank fun c hc => hgap c (List.mem_of_mem_tail hc)
  | @word gap s words line hgap hline hhead =>
    cases gap with
    | nil =>
      obtain ⟨c, rest, htext, hc⟩ := s.text_cons
      have hc' : c = space ∨ c = tab := hblank c (by rw [htext]; rfl)
      exact absurd hc' (by rcases hc with rfl | rfl <;> decide)
    | cons c gap =>
      have hgap' : Blank gap := fun d hd => hgap d (List.mem_cons_of_mem c hd)
      exact .word hgap' hline hhead

theorem Spells.words_nil {words : List CString} (h : Spells words []) : words = [] := by
  generalize hempty : ([] : CString) = line at h
  cases h with
  | blank => rfl
  | @word gap s words line =>
    obtain ⟨c, rest, htext, -⟩ := s.text_cons
    rw [htext] at hempty
    simp at hempty

theorem Spells.exits {words : List CString} {line : CString} (h : Spells words line)
    (tokens : List CString) : Exits getTokensStep (tokens, some line) (tokens ++ words, none) := by
  induction words generalizing line tokens with
  | nil =>
    cases h with
    | blank hgap =>
      refine .again (t := (tokens ++ [], none)) ?_ (.done rfl)
      rw [getTokensStep, getOneToken_blank hgap]
  | cons word words ih =>
    cases h with
    | @word gap s words line hgap hline hhead =>
      have hstep : getTokensStep (tokens, some (gap ++ s.text ++ line)) =
          some (.again (tokens ++ [s.word], s.rest line)) := by
        rw [getTokensStep, getOneToken_spelling hgap s hhead]
      rw [List.append_cons]
      apply Exits.again hstep
      rw [Spelling.rest]
      split_ifs with hquoted hend
      · exact ih hline _
      · subst hend
        rw [hline.words_nil, List.append_nil]
        exact .done rfl
      · exact ih (hline.tail hhead) _

/-- The words of a line are read back, whichever way each of them is spelled. -/
theorem getTokens_spelled {words : List CString} {line : CString} (h : Spells words line) :
    getTokens line = some words := getTokens_of_exits (h.exits [])

def quotedSpelling : Spelling := ⟨[doubleQuote, backslash, space], true, by decide, by decide⟩
def emptySpelling : Spelling := ⟨[], true, by decide, by decide⟩
def escapedSpelling : Spelling := ⟨[byte '|', newline], false, by decide, by decide⟩

/-- A quoted word, the empty word, and a word with backslashes, with blanks between and behind. -/
theorem getTokens_spelled_three :
    getTokens (quotedSpelling.text ++ ([space] ++ emptySpelling.text ++
      ([space, tab] ++ escapedSpelling.text ++ [tab]))) =
        some [quotedSpelling.word, emptySpelling.word, escapedSpelling.word] := by
  have hlast : Spells [escapedSpelling.word] ([space, tab] ++ escapedSpelling.text ++ [tab]) :=
    .word (by decide) (.blank (by decide)) (by decide)
  have hempty : Spells [emptySpelling.word, escapedSpelling.word] ([space] ++ emptySpelling.text ++
      ([space, tab] ++ escapedSpelling.text ++ [tab])) := .word (by decide) hlast (by decide)
  exact getTokens_spelled (.word (show Blank [] by decide) hempty (by decide))

end SystemsProgramming.Shell

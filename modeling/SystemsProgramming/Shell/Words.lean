import SystemsProgramming.Foundation.Splitting
import SystemsProgramming.Shell.Spacing

/-! Words without quotes. `get_one_token` remembers where a word starts as an index of its string and
uses it as an index of the other string, in which the backslashes that escape are left out. The two
agree since only whitespace is in front of the word, and that is copied as it is. -/

namespace SystemsProgramming.Shell

abbrev WhitespaceChar (c : Byte) : Prop := c = tab ∨ c = space ∨ c = newline

/-- What ends a word unless it is escaped. -/
def Terminator (c : Byte) : Prop :=
  WhitespaceChar c ∨ (c = singleQuote ∨ c = doubleQuote) ∨ c = byte '>' ∨ c = byte '&' ∨ c = byte '|'

/-- Whether a text ends with a backslash that escapes what comes next. -/
def escaping (text : CString) : Bool :=
  text.foldl (fun escaped c => !escaped && decide (c = backslash)) false

/-- A text without the backslashes that escape; the character behind each of them is kept. -/
def removeEscapes : CString → CString
  | [] => []
  | [c] => if c = backslash then [] else [c]
  | c :: d :: rest =>
    if c = backslash then d :: removeEscapes rest else c :: removeEscapes (d :: rest)

/-- The word of a string: behind the whitespace and up to what ends it. -/
structure PlainWord (string gap slice rest : CString) : Prop where
  parts : string = gap ++ slice ++ rest
  gap : Whitespace gap
  start : ∀ c ∈ (slice ++ rest).head?, ¬WhitespaceChar c
  inside : Throughout (fun before c => Terminator c → escaping before = true) slice
  stop : ∀ c ∈ rest.head?, Terminator c ∧ escaping slice = false

/-- The token that a word is. -/
def wordTokens (slice : CString) : List CString := if slice = [] then [] else [removeEscapes slice]

/-- The token that ends a word is returned with it. -/
def terminatorTokens : CString → List CString
  | [] => []
  | c :: rest =>
    if WhitespaceChar c then []
    else if c = singleQuote ∨ c = doubleQuote then (extractQuotedLiteral (c :: rest) 0 c).list
    else [substring (c :: rest) (if rest.head? = some c then 2 else 1)]

/-! ### Backslashes that escape -/

section
variable {c : Byte} {text : CString}

@[simp] theorem escaping_nil : escaping [] = false := rfl

theorem escaping_cons (h : c ≠ backslash) (text : CString) : escaping (c :: text) = escaping text := by
  simp [escaping, h]

theorem escaping_backslash (d : Byte) (text : CString) :
    escaping (backslash :: d :: text) = escaping text := by simp [escaping]

theorem escaping_concat (text : CString) (c : Byte) :
    escaping (text ++ [c]) = (!escaping text && decide (c = backslash)) := by simp [escaping]

@[simp] theorem removeEscapes_nil : removeEscapes [] = [] := by rw [removeEscapes]

theorem removeEscapes_singleton (c : Byte) :
    removeEscapes [c] = if c = backslash then [] else [c] := by rw [removeEscapes]

theorem removeEscapes_cons (h : c ≠ backslash) (text : CString) :
    removeEscapes (c :: text) = c :: removeEscapes text := by
  cases text with
  | nil => rw [removeEscapes_singleton, if_neg h, removeEscapes_nil]
  | cons d rest => rw [removeEscapes, if_neg h]

theorem removeEscapes_backslash (d : Byte) (text : CString) :
    removeEscapes (backslash :: d :: text) = d :: removeEscapes text := by
  rw [removeEscapes, if_pos rfl]

theorem removeEscapes_concat (text : CString) (c : Byte) : removeEscapes (text ++ [c]) =
    if escaping (text ++ [c]) then removeEscapes text else removeEscapes text ++ [c] := by
  rw [escaping_concat]
  induction text using removeEscapes.induct with
  | case1 =>
    rw [List.nil_append, removeEscapes_singleton]
    simp
  | case2 =>
    rw [List.singleton_append, removeEscapes_backslash]
    simp [escaping, removeEscapes]
  | case3 d hd =>
    rw [List.singleton_append, removeEscapes_cons hd, removeEscapes_cons hd, removeEscapes_singleton,
      escaping_cons hd]
    by_cases hc : c = backslash <;> simp [hc]
  | case4 d rest ih =>
    rw [List.cons_append, List.cons_append, removeEscapes_backslash, removeEscapes_backslash, ih,
      escaping_backslash]
    split_ifs <;> rfl
  | case5 b d rest hb ih =>
    rw [List.cons_append, removeEscapes_cons hb, removeEscapes_cons hb, ih, escaping_cons hb]
    split_ifs <;> rfl

theorem removeEscapes_sublist (text : CString) : (removeEscapes text).Sublist text := by
  induction text using removeEscapes.induct with
  | case1 => rw [removeEscapes_nil]
  | case2 =>
    rw [removeEscapes_singleton, if_pos rfl]
    exact List.nil_sublist _
  | case3 d hd => rw [removeEscapes_singleton, if_neg hd]
  | case4 d rest ih =>
    rw [removeEscapes_backslash]
    exact (ih.cons_cons d).cons backslash
  | case5 b d rest hb ih =>
    rw [removeEscapes_cons hb]
    exact ih.cons_cons b

end

theorem Whitespace.throughout {gap : CString} (h : Whitespace gap) :
    Throughout (fun _ c => WhitespaceChar c) gap :=
  fun q c hq => h c (hq.subset (List.mem_append_right q List.mem_cons_self))

theorem PlainWord.outside {string gap slice rest : CString} (h : PlainWord string gap slice rest)
    {c : Byte} (hc : c ∈ rest.head?) : ¬(Terminator c → escaping slice = true) := by
  obtain ⟨hterm, hescaping⟩ := h.stop c hc
  intro hinside
  simp [hinside hterm] at hescaping

/-- A string has one word only. -/
theorem PlainWord.unique {string gap gap' slice slice' rest rest' : CString}
    (h : PlainWord string gap slice rest) (h' : PlainWord string gap' slice' rest') :
    gap = gap' ∧ slice = slice' ∧ rest = rest' := by
  have hparts : gap ++ (slice ++ rest) = gap' ++ (slice' ++ rest') := by
    rw [← List.append_assoc, ← List.append_assoc, ← h.parts, ← h'.parts]
  obtain ⟨hgap, heq⟩ := h.gap.throughout.unique h'.gap.throughout hparts h.start h'.start
  exact ⟨hgap, h.inside.unique h'.inside heq (fun c hc => h.outside hc) fun c hc => h'.outside hc⟩

/-! ### The loop of `get_one_token` -/

/-- What the loop has passed, and its variables then. No backslash stands before the start of a word,
so that it is at the same index in both strings. -/
inductive Passed : CString → Scan → Prop
  | gap {gap : CString} : Whitespace gap → Passed gap ⟨gap, none, false⟩
  | word {gap slice : CString} : Whitespace gap → slice ≠ [] →
      (∀ c ∈ slice.head?, ¬WhitespaceChar c) →
      Throughout (fun before c => Terminator c → escaping before = true) slice →
      Passed (gap ++ slice) ⟨gap ++ removeEscapes slice, some gap.length, escaping slice⟩

section
variable {read others : CString} {s s' : Scan} {c : Byte}

/-- The tests of the `switch` together. -/
theorem not_terminator_iff : ¬Terminator c ↔ ¬(c = tab || c = space || c = newline) = true ∧
    ¬(c = singleQuote || c = doubleQuote) = true ∧
      ¬(c = byte '>' || c = byte '&' || c = byte '|') = true := by
  simp only [Terminator, Bool.or_eq_true, decide_eq_true_eq, not_or, and_assoc]

/-- The loop goes on behind a character that is escaped or ends nothing. -/
theorem Scan.pass_of_word {i start : ℕ} {string : CString} {escaped : Bool}
    (h : (⟨string, some start, escaped⟩ : Scan).pass i c = some s') :
    (Terminator c → escaped = true) ∧ s' = Scan.write c ⟨string, some start, escaped⟩ := by
  simp only [Scan.pass, Option.isSome_some, if_true] at h
  split_ifs at h with hescaped hblank hquote hop
  · exact ⟨fun _ => hescaped, (Option.some.inj h).symm⟩
  · have hnot : ¬Terminator c := not_terminator_iff.mpr ⟨hblank, hquote, hop⟩
    exact ⟨fun hc => absurd hc hnot, (Option.some.inj h).symm⟩

theorem Scan.pass_of_gap {i : ℕ} {string : CString}
    (h : (⟨string, none, false⟩ : Scan).pass i c = some s') :
    WhitespaceChar c ∧ s' = ⟨string ++ [c], none, false⟩ ∨
      ¬Terminator c ∧ s' = Scan.write c ⟨string, some i, false⟩ := by
  simp only [Scan.pass, Bool.false_eq_true, if_false, Option.isSome_none] at h
  split_ifs at h with hblank hquote hop
  · have hc : WhitespaceChar c := by
      simpa only [Bool.or_eq_true, decide_eq_true_eq, or_assoc] using hblank
    have hb : c ≠ backslash := by rcases hc with rfl | rfl | rfl <;> decide
    refine .inl ⟨hc, ?_⟩
    rw [← Option.some.inj h, Scan.write, if_neg hb]
  · exact .inr ⟨not_terminator_iff.mpr ⟨hblank, hquote, hop⟩, (Option.some.inj h).symm⟩

/-- What is written for a character of a word. -/
theorem Scan.write_word (gap slice : CString) (start : Option ℕ) (c : Byte) :
    Scan.write c ⟨gap ++ removeEscapes slice, start, escaping slice⟩ =
      ⟨gap ++ removeEscapes (slice ++ [c]), start, escaping (slice ++ [c])⟩ := by
  rw [removeEscapes_concat, escaping_concat]
  by_cases hc : c = backslash
  · cases he : escaping slice <;> simp [Scan.write, hc]
  · simp [Scan.write, hc]

theorem Passed.pass (h : Passed read s) (hc : s.pass read.length c = some s') :
    Passed (read ++ [c]) s' := by
  cases h with
  | gap hgap =>
    rcases Scan.pass_of_gap hc with ⟨hblank, rfl⟩ | ⟨hnot, rfl⟩
    · exact .gap fun d hd => (List.mem_append.mp hd).elim (hgap d)
        fun hd => List.mem_singleton.mp hd ▸ hblank
    · have hslice := Scan.write_word read [] (some read.length) c
      rw [removeEscapes_nil, List.append_nil, escaping_nil] at hslice
      rw [hslice]
      refine .word hgap (List.cons_ne_nil c []) ?_ (throughout_concat.mpr ⟨throughout_nil, ?_⟩)
      · rintro d ⟨⟩ hblank
        exact hnot (.inl hblank)
      · exact fun hterm => absurd hterm hnot
  | @word gap slice hgap hne hstart hinside =>
    obtain ⟨hterm, rfl⟩ := Scan.pass_of_word hc
    rw [Scan.write_word, List.append_assoc]
    refine .word hgap (by simp) ?_ (throughout_concat.mpr ⟨hinside, hterm⟩)
    rw [List.head?_append_of_ne_nil _ hne]
    exact hstart

/-- Less is written than read, and a word starts inside of what is written. -/
theorem Passed.bounds (h : Passed read s) : s.newString.length ≤ read.length ∧
    ∀ start ∈ s.nonClassifiedTokenStart, start ≤ s.newString.length := by
  cases h with
  | gap hgap => exact ⟨Nat.le_refl _, fun start hs => by simp at hs⟩
  | @word gap slice _ _ _ _ =>
    have hle := (removeEscapes_sublist slice).length_le
    refine ⟨?_, ?_⟩
    · rw [List.length_append, List.length_append]
      omega
    · rintro start ⟨⟩
      rw [List.length_append]
      omega

theorem Passed.mem (h : Passed read s) (hc : c ∈ s.newString) : c ∈ read := by
  cases h with
  | gap hgap => exact hc
  | word _ _ _ _ =>
    rcases List.mem_append.mp hc with hc | hc
    · exact List.mem_append_left _ hc
    · exact List.mem_append_right _ ((removeEscapes_sublist _).subset hc)

/-- The word that the loop has passed. -/
theorem Passed.slice (h : Passed read s) : ∃ gap slice, read = gap ++ slice ∧ Whitespace gap ∧
    (∀ c ∈ slice.head?, ¬WhitespaceChar c) ∧
    Throughout (fun before c => Terminator c → escaping before = true) slice ∧
    s.charIsEscaped = escaping slice ∧ (s.nonClassifiedTokenStart = none ↔ slice = []) ∧
    ∀ tokens, s.prepend tokens = wordTokens slice ++ tokens := by
  cases h with
  | gap hgap =>
    exact ⟨read, [], (List.append_nil _).symm, hgap, by simp, throughout_nil, rfl,
      iff_of_true rfl rfl, fun tokens => rfl⟩
  | @word gap slice hgap hne hstart hinside =>
    refine ⟨gap, slice, rfl, hgap, hstart, hinside, rfl, iff_of_false (by simp) hne, fun tokens => ?_⟩
    have htake : (removeEscapes slice).take ((gap ++ removeEscapes slice).length - gap.length) =
        removeEscapes slice := by
      rw [List.length_append, Nat.add_sub_cancel_left, List.take_length]
    simp only [Scan.prepend, substring, List.drop_left, htake, wordTokens, if_neg hne,
      List.singleton_append]

/-- Whitespace ends the loop behind the start of a word only. -/
theorem Scan.start_of_blank {i : ℕ} (h : s.pass i c = none) (hc : WhitespaceChar c) :
    s.nonClassifiedTokenStart ≠ none := by
  intro hstart
  have hblank : (c = tab || c = space || c = newline) = true := by
    simpa only [Bool.or_eq_true, decide_eq_true_eq, or_assoc] using hc
  simp only [Scan.pass, hstart, hblank, if_true, Option.isSome_none, Bool.false_eq_true, if_false,
    ite_self, reduceCtorEq] at h

theorem Stop.terminator {i : ℕ} {tokens : Tokens} (h : Stop i s c others tokens) : Terminator c := by
  cases h with
  | blank hc => exact .inl hc
  | quote hc => exact .inr (.inl hc)
  | double hc => exact .inr (.inr hc)
  | single hc => exact .inr (.inr hc)

theorem terminatorTokens_operator (h : c = byte '>' ∨ c = byte '&' ∨ c = byte '|')
    (rest : CString) : terminatorTokens (c :: rest) =
      [substring (c :: rest) (if rest.head? = some c then 2 else 1)] := by
  have hblank : ¬WhitespaceChar c := by rcases h with rfl | rfl | rfl <;> decide
  have hquote : ¬(c = singleQuote ∨ c = doubleQuote) := by rcases h with rfl | rfl | rfl <;> decide
  rw [terminatorTokens, if_neg hblank, if_neg hquote]

theorem Stop.list {i : ℕ} {tokens : Tokens} (h : Stop i s c others tokens) :
    tokens.list = s.prepend (terminatorTokens (c :: others)) := by
  cases h with
  | blank hc => rw [terminatorTokens, if_pos hc]
  | quote hc =>
    have hblank : ¬WhitespaceChar c := by rcases hc with rfl | rfl <;> decide
    rw [terminatorTokens, if_neg hblank, if_pos hc]
  | double hc =>
    rw [terminatorTokens_operator hc]
    simp [substring]
  | single hc hne =>
    rw [terminatorTokens_operator hc, if_neg hne]
    rfl

/-- What the loop finds from here on. -/
theorem Passed.plainWord (h : Passed read s) (left : CString) : ∃ gap slice rest,
    PlainWord (read ++ left) gap slice rest ∧
      (getOneTokenFrom read.length s left).list = wordTokens slice ++ terminatorTokens rest := by
  induction left generalizing read s with
  | nil =>
    obtain ⟨gap, slice, rfl, hgap, hstart, hinside, -, -, hprepend⟩ := h.slice
    refine ⟨gap, slice, [], ⟨rfl, hgap, ?_, hinside, by simp⟩, ?_⟩
    · rwa [List.append_nil]
    · rw [getOneTokenFrom, hprepend, terminatorTokens]
  | cons c left ih =>
    cases hpass : s.pass read.length c with
    | some s' =>
      obtain ⟨gap, slice, rest, hword, hlist⟩ := ih (h.pass hpass)
      rw [getOneTokenFrom_pass hpass]
      rw [List.append_assoc] at hword
      rw [List.length_append] at hlist
      exact ⟨gap, slice, rest, hword, hlist⟩
    | none =>
      obtain ⟨hescaped, hstop⟩ := getOneTokenFrom_stop hpass left
      obtain ⟨gap, slice, rfl, hgap, hstart, hinside, hescaping, hnone, hprepend⟩ := h.slice
      refine ⟨gap, slice, c :: left, ⟨rfl, hgap, ?_, hinside, ?_⟩, ?_⟩
      · cases slice with
        | nil =>
          rintro d ⟨⟩ hblank
          exact Scan.start_of_blank hpass hblank (hnone.mpr rfl)
        | cons d slice => exact hstart
      · rintro d ⟨⟩
        exact ⟨hstop.terminator, hescaping.symm.trans hescaped⟩
      · rw [hstop.list, hprepend]

end

end SystemsProgramming.Shell

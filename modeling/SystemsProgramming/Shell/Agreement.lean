import SystemsProgramming.Shell.Reader
import SystemsProgramming.Shell.Scanning

/-! The reader of lines and the tokenizer agree on quotes and backslashes. Wherever the tokenizer is in
a line that has been returned at its newline, the flags with which the reader went over this place
are the tokenizer's own, so the rest of the line closes what is open. -/

namespace SystemsProgramming.Shell

/-- `get_one_token` extracts a literal with this quote, at this index of the call from `k` on. -/
structure OpensLiteral (line : CString) (k i : ℕ) (q : Byte) : Prop where
  quote : q = singleQuote ∨ q = doubleQuote
  char : (line)[k + i]? = some q
  visits : ∃ s, Visits line k i s ∧ s.charIsEscaped = false

/-- Read from these flags on, the string ends outside of quotes. -/
def Completes (s : Lex) (line : CString) : Prop := line.foldlM Lex.step s = some .plain

theorem Completes.cons {s : Lex} {c : Byte} {line : CString} (h : Completes s (c :: line)) :
    ∃ t, Lex.step s c = some t ∧ Completes t line := by
  rw [Completes, List.foldlM_cons] at h
  exact Option.bind_eq_some_iff.mp h

/-- What the reader makes of a character. -/
inductive LexStep (s : Lex) (c : Byte) : Lex → Prop
  | newline : c = newline → s.escaped = false → s.quote ≠ none → LexStep s c s
  | backslash : c = backslash → LexStep s c { s with escaped := !s.escaped }
  | escaped : c ≠ newline → c ≠ backslash → s.escaped = true → LexStep s c { s with escaped := false }
  | quote : (c = singleQuote ∨ c = doubleQuote) → s.escaped = false →
    LexStep s c { s with quote := Lex.toggle s.quote c }
  | other : c ≠ newline → c ≠ backslash → ¬(c = singleQuote ∨ c = doubleQuote) →
    s.escaped = false → LexStep s c s

theorem Lex.step_cases {s t : Lex} {c : Byte} (h : s.step c = some t) : LexStep s c t := by
  rw [Lex.step] at h
  split_ifs at h with hn hreject hb hescaped hquote
  · obtain rfl := Option.some.inj h
    obtain ⟨hescaped, hquote⟩ := not_or.mp hreject
    exact .newline hn (by simpa using hescaped) hquote
  · obtain rfl := Option.some.inj h
    exact .backslash hb
  · obtain rfl := Option.some.inj h
    exact .escaped hn hb hescaped
  all_goals
    obtain rfl := Option.some.inj h
  · exact .quote hquote (by simpa using hescaped)
  · exact .other hn hb hquote (by simpa using hescaped)

theorem backslash_ne_quote {q : Byte} (hq : q = singleQuote ∨ q = doubleQuote) :
    q ≠ backslash ∧ q ≠ newline := by
  rcases hq with rfl | rfl <;> decide

/-! ### Inside a literal -/

/-- The closing quote is found where the reader saw it. -/
theorem Completes.closes {q : Byte} (hq : q = singleQuote ∨ q = doubleQuote) {escaped : Bool}
    {rest : CString} (h : Completes ⟨escaped, some q⟩ rest) :
    rest[closingQuoteOffset q escaped rest]? = some q ∧
      Completes .plain (rest.drop (closingQuoteOffset q escaped rest + 1)) := by
  induction rest generalizing escaped with
  | nil => cases Option.some.inj h
  | cons c rest ih =>
    obtain ⟨t, hstep, ht⟩ := h.cons
    -- where the literal goes on, the offset is one more than that in the rest
    rw [closingQuoteOffset]
    cases Lex.step_cases hstep with
    | newline hn hescaped _ =>
      obtain rfl : escaped = false := hescaped
      have hc : c ≠ q := fun heq => (backslash_ne_quote hq).2 (heq.symm.trans hn)
      rw [if_neg (by rw [hn]; decide), if_neg (by simpa using hc)]
      exact ih ht
    | backslash hb =>
      rw [if_pos hb]
      exact ih ht
    | escaped _ hb hescaped =>
      obtain rfl : escaped = true := hescaped
      rw [if_neg hb, if_neg (by simp)]
      exact ih ht
    | quote hquote hescaped =>
      obtain rfl : escaped = false := hescaped
      have hb := (backslash_ne_quote hquote).1
      by_cases hc : c = q
      · subst hc
        rw [if_neg hb, if_pos (by simp)]
        rw [Lex.toggle, if_pos rfl] at ht
        exact ⟨rfl, ht⟩
      · rw [if_neg hb, if_neg (by simpa using hc)]
        have hother : (some q : Option Byte) ≠ some c := fun heq => hc (Option.some.inj heq).symm
        rw [Lex.toggle, if_neg hother] at ht
        exact ih ht
    | other _ hb hquote hescaped =>
      obtain rfl : escaped = false := hescaped
      have hc : c ≠ q := fun heq => hquote (heq ▸ hq)
      rw [if_neg hb, if_neg (by simpa using hc)]
      exact ih ht

/-! ### Outside of literals -/

/-- The reader passes over a character as the tokenizer does, and it is no newline. -/
theorem Scan.lex_pass {i : ℕ} {s s' : Scan} {c : Byte} {t : Lex} (hpass : s.pass i c = some s')
    (hstep : Lex.step ⟨s.charIsEscaped, none⟩ c = some t) :
    t = ⟨s'.charIsEscaped, none⟩ ∧ c ≠ newline := by
  have hwrite : ∀ r : Scan, r.charIsEscaped = s.charIsEscaped →
      (r.write c).charIsEscaped = if c = backslash then !s.charIsEscaped else false := by
    intro r hr
    rw [write, ← hr]
    split_ifs with hb hescaped <;> simp_all
  have hescapes : s'.charIsEscaped = if c = backslash then !s.charIsEscaped else false := by
    rw [pass] at hpass
    split_ifs at hpass
    all_goals
      obtain rfl := Option.some.inj hpass
      exact hwrite _ rfl
  rw [hescapes]
  cases Lex.step_cases hstep with
  | newline _ _ hquote => exact absurd rfl hquote
  | backslash hb => exact ⟨by rw [if_pos hb], by rw [hb]; decide⟩
  | escaped hn hb _ => exact ⟨by rw [if_neg hb], hn⟩
  | quote hquote hescaped =>
    -- the tokenizer does not pass over a quote
    obtain hescaped : s.charIsEscaped = false := hescaped
    rw [pass, hescaped] at hpass
    rcases hquote with rfl | rfl <;> cases hpass
  | other hn hb _ hescaped =>
    obtain hescaped : s.charIsEscaped = false := hescaped
    exact ⟨by rw [if_neg hb, hescaped], hn⟩

theorem Completes.plain {c : Byte} {rest : CString} (h : Completes .plain (c :: rest))
    (hb : c ≠ backslash) (hquote : ¬(c = singleQuote ∨ c = doubleQuote)) :
    c ≠ newline ∧ Completes .plain rest := by
  obtain ⟨t, hstep, ht⟩ := h.cons
  cases Lex.step_cases hstep with
  | newline _ _ hnone => exact absurd rfl hnone
  | backslash hback => exact absurd hback hb
  | escaped _ _ hescaped => cases hescaped
  | quote hq _ => exact absurd hq hquote
  | other hn _ _ _ => exact ⟨hn, ht⟩

theorem Completes.quoted {c : Byte} {rest : CString} (h : Completes .plain (c :: rest))
    (hquote : c = singleQuote ∨ c = doubleQuote) : Completes ⟨false, some c⟩ rest := by
  obtain ⟨t, hstep, ht⟩ := h.cons
  rw [Lex.plain, Lex.step_quote hquote] at hstep
  obtain rfl := Option.some.inj hstep
  exact ht

/-- The next call starts behind the token, where nothing is open. A newline before that place is inside
a literal. -/
structure Resumes (c : Byte) (rest : CString) (tokens : Tokens) (m : ℕ) : Prop where
  next : tokens.maybeUnparsedTokensPtr = some ((c :: rest).drop m)
  pos : 0 < m
  le : m ≤ rest.length + 1
  completes : Completes .plain ((c :: rest).drop m)
  newline : ∀ j < m, (c :: rest)[j]? = some newline → (c = singleQuote ∨ c = doubleQuote) ∧ 0 < j ∧
    j < 1 + closingQuoteOffset c false rest

theorem Stop.resumes {i : ℕ} {s : Scan} {c : Byte} {rest : CString} {tokens : Tokens}
    (h : Stop i s c rest tokens) (hc : Completes .plain (c :: rest)) :
    ∃ m, Resumes c rest tokens m := by
  cases h with
  | blank hblank =>
    obtain ⟨hn, hrest⟩ := hc.plain (by rcases hblank with rfl | rfl | rfl <;> decide)
      (by rcases hblank with rfl | rfl | rfl <;> decide)
    refine ⟨1, rfl, Nat.one_pos, by omega, hrest, fun j hj hnew => ?_⟩
    obtain rfl : j = 0 := by omega
    exact absurd (Option.some.inj hnew) hn
  | quote hquote =>
    obtain ⟨hclosing, hcompletes⟩ := (hc.quoted hquote).closes hquote
    have hlt := (List.getElem?_eq_some_iff.mp hclosing).1
    have hne : rest.drop (closingQuoteOffset c false rest) ≠ [] :=
      List.drop_eq_nil_iff.not.mpr (Nat.not_le_of_lt hlt)
    refine ⟨closingQuoteOffset c false rest + 2, ?_, by omega, by omega, hcompletes, fun j hj hnew => ?_⟩
    · rw [extractQuotedLiteral_cons, if_neg hne, List.drop_succ_cons]
    · obtain ⟨-, hnotnewline⟩ := backslash_ne_quote hquote
      have hpos : j ≠ 0 := by
        rintro rfl
        exact hnotnewline (Option.some.inj hnew)
      have hlast : j ≠ closingQuoteOffset c false rest + 1 := by
        rintro rfl
        rw [List.getElem?_cons_succ, hclosing] at hnew
        exact hnotnewline (Option.some.inj hnew)
      exact ⟨hquote, by omega, by omega⟩
  | @double rest' hop =>
    have hplain : c ≠ backslash ∧ ¬(c = singleQuote ∨ c = doubleQuote) := by
      rcases hop with rfl | rfl | rfl <;> decide
    obtain ⟨hn, hrest⟩ := hc.plain hplain.1 hplain.2
    refine ⟨2, rfl, Nat.two_pos, by rw [List.length_cons]; omega, (hrest.plain hplain.1 hplain.2).2,
      fun j hj hnew => ?_⟩
    rcases (show j = 0 ∨ j = 1 by omega) with rfl | rfl
    · exact absurd (Option.some.inj hnew) hn
    · exact absurd (Option.some.inj hnew) hn
  | single hop _ =>
    obtain ⟨hn, hrest⟩ := hc.plain (by rcases hop with rfl | rfl | rfl <;> decide)
      (by rcases hop with rfl | rfl | rfl <;> decide)
    refine ⟨1, rfl, Nat.one_pos, by omega, hrest, fun j hj hnew => ?_⟩
    obtain rfl : j = 0 := by omega
    exact absurd (Option.some.inj hnew) hn

theorem getOneTokenFrom_completes {i : ℕ} {s : Scan} {line rest : CString}
    (h : Completes ⟨s.charIsEscaped, none⟩ line)
    (hrest : (getOneTokenFrom i s line).maybeUnparsedTokensPtr = some rest) : Completes .plain rest := by
  induction line generalizing i s with
  | nil => cases hrest
  | cons c line ih =>
    cases hpass : s.pass i c with
    | some s' =>
      rw [getOneTokenFrom_pass hpass] at hrest
      obtain ⟨t, hstep, ht⟩ := h.cons
      obtain ⟨rfl, -⟩ := Scan.lex_pass hpass hstep
      exact ih ht hrest
    | none =>
      obtain ⟨hescaped, hstop⟩ := getOneTokenFrom_stop hpass line
      rw [hescaped] at h
      obtain ⟨m, hm⟩ := hstop.resumes h
      obtain rfl := Option.some.inj (hrest.symm.trans hm.next)
      exact hm.completes

/-! ### The whole line -/

section
variable {line : CString} {k i : ℕ} {s : Scan}

theorem Restarts.completes (hline : Completes .plain line) (h : Restarts line k) :
    Completes .plain (line.drop k) := by
  induction h with
  | start => exact hline
  | again _ _ hnext ih => exact getOneTokenFrom_completes ih hnext

theorem Visits.completes (hline : Completes .plain line) (h : Visits line k i s) :
    Completes ⟨s.charIsEscaped, none⟩ (line.drop (k + i)) := by
  induction h with
  | start hk => exact hk.completes hline
  | pass _ hc hpass ih =>
    obtain ⟨hlt, rfl⟩ := List.getElem?_eq_some_iff.mp hc
    rw [List.drop_eq_getElem_cons hlt] at ih
    obtain ⟨t, hstep, ht⟩ := ih.cons
    obtain ⟨rfl, -⟩ := Scan.lex_pass hpass hstep
    exact ht

/-- A newline at or behind the place where the tokenizer is comes to lie inside a literal. -/
theorem Visits.newline (hline : Completes .plain line) (h : Visits line k i s) {n : ℕ}
    (hn : (line)[n]? = some newline) (hle : k + i ≤ n) : ∃ k i q, OpensLiteral line k i q ∧ k + i < n ∧
      n < k + getClosingQuoteIndex (line.drop k) (i + 1) q := by
  have hlt := (List.getElem?_eq_some_iff.mp hn).1
  generalize hd : n - (k + i) = d
  induction d using Nat.strongRecOn generalizing k i s with
  | ind d ih =>
    have hcompletes := h.completes hline
    have hc := List.getElem?_eq_getElem (show k + i < line.length by omega)
    generalize (line)[k + i] = c at hc
    have hdrop : line.drop (k + i) = c :: line.drop (k + i + 1) := by
      obtain ⟨hlt', rfl⟩ := List.getElem?_eq_some_iff.mp hc
      exact List.drop_eq_getElem_cons hlt'
    rw [hdrop] at hcompletes
    cases hpass : s.pass i c with
    | some s' =>
      obtain ⟨t, hstep, -⟩ := hcompletes.cons
      have hne : k + i ≠ n := by
        rintro rfl
        exact (Scan.lex_pass hpass hstep).2 (Option.some.inj (hc.symm.trans hn))
      exact ih (n - (k + (i + 1))) (by omega) (h.pass hc hpass) (by omega) rfl
    | none =>
      obtain ⟨hescaped, hstop⟩ := getOneTokenFrom_stop hpass (line.drop (k + i + 1))
      rw [hescaped] at hcompletes
      obtain ⟨m, hm⟩ := hstop.resumes hcompletes
      by_cases hinside : n < k + i + m
      · -- inside the literal that is opened here
        have hchar : (c :: line.drop (k + i + 1))[n - (k + i)]? = some newline := by
          rw [← hdrop, List.getElem?_drop, ← hn]
          congr 1
          omega
        obtain ⟨hquote, hpos, hend⟩ := hm.newline _ (by omega) hchar
        refine ⟨k, i, c, ⟨hquote, hc, s, h, hescaped⟩, by omega, ?_⟩
        rw [getClosingQuoteIndex, List.drop_drop, show k + (i + 1) = k + i + 1 from rfl]
        omega
      · -- behind the token
        have hk' : k + i + m ≤ line.length := by omega
        have hnext := hm.next
        rw [← hdrop, List.drop_drop] at hnext
        exact ih (n - (k + i + m + 0)) (by have := hm.pos; omega) (.start (h.again hk' hnext)) (by omega) rfl

end

/-- Of a line that is returned at its newline, the tokenizer finds every literal closed by the quote
that opened it, does not end behind a backslash that escapes, and has every newline in a literal. -/
theorem readStdinLine_agrees {stream rest : List Byte} {line : CString} (hstream : 0 ∉ stream)
    (hread : readStdinLine stream = some (⟨false, line⟩, rest)) :
    (∀ k i q, OpensLiteral line k i q →
      (line.drop k)[getClosingQuoteIndex (line.drop k) (i + 1) q]? = some q) ∧
    (∀ k i s, Visits line k i s → k + i = line.length → s.charIsEscaped = false) ∧
    ∀ n, (line)[n]? = some newline → ∃ k i q, OpensLiteral line k i q ∧ k + i < n ∧
      n < k + getClosingQuoteIndex (line.drop k) (i + 1) q := by
  have hline : Completes .plain line := readStdinLine_lexed hstream hread rfl
  refine ⟨fun k i q hopens => ?_, fun k i s h hend => ?_, fun n hn => ?_⟩
  · obtain ⟨s, h, hescaped⟩ := hopens.visits
    have hcompletes := h.completes hline
    obtain ⟨hlt, hc⟩ := List.getElem?_eq_some_iff.mp hopens.char
    rw [hescaped, List.drop_eq_getElem_cons hlt, hc] at hcompletes
    rw [getClosingQuoteIndex, List.drop_drop, List.getElem?_drop, ← Nat.add_assoc, ← Nat.add_assoc,
      ← List.getElem?_drop]
    exact ((hcompletes.quoted hopens.quote).closes hopens.quote).1
  · have hcompletes := h.completes hline
    rw [hend, List.drop_length] at hcompletes
    have hflags := Option.some.inj hcompletes
    exact congrArg Lex.escaped hflags
  · exact (Visits.start .start).newline hline hn (Nat.zero_le n)

/-- The line `'` newline `'`, with another line behind it. -/
theorem readStdinLine_agrees_quoted :
    readStdinLine [singleQuote, newline, singleQuote, newline, byte 'x'] =
      some (⟨false, [singleQuote, newline, singleQuote]⟩, [byte 'x']) ∧
    ∃ k i q, OpensLiteral [singleQuote, newline, singleQuote] k i q ∧ k + i < 1 ∧
      1 < k + getClosingQuoteIndex (List.drop k [singleQuote, newline, singleQuote]) (i + 1) q := by
  have hread : readStdinLine [singleQuote, newline, singleQuote, newline, byte 'x'] =
      some (⟨false, [singleQuote, newline, singleQuote]⟩, [byte 'x']) := by decide
  exact ⟨hread, (readStdinLine_agrees (by decide) hread).2.2 1 rfl⟩

end SystemsProgramming.Shell

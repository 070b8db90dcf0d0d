import SystemsProgramming.Shell.Scanning

/-! Operators need no spaces around them. A line that ends outside of quotes is tokenized as it stands
when an operator follows, whatever comes behind it; a pending plain word is ended by the operator as
it would be by the end of the line. -/

namespace SystemsProgramming.Shell

/-- The character that an operator is made of. -/
def Operator.char : Operator → Byte
  | pipe => byte '|'
  | or => byte '|'
  | and => byte '&'
  | background => byte '&'
  | overwrite => byte '>'
  | append => byte '>'

/-- The scan of a line ends outside of quotes and not behind a backslash that escapes. -/
def EndsPlain (line : CString) : Prop :=
  ∃ k i s, Visits line k i s ∧ k + i = line.length ∧ s.charIsEscaped = false

/-- The last character of a line is this one, not escaped and not the second of a pair. -/
def EndsIn (line : CString) (c : Byte) : Prop :=
  ∃ k i s, Visits line k i s ∧ s.charIsEscaped = false ∧ k + i + 1 = line.length ∧
    (line)[k + i]? = some c

/-- What the tokenizer takes for whitespace. -/
def Whitespace (gap : CString) : Prop := ∀ c ∈ gap, c = tab ∨ c = space ∨ c = newline

instance (gap : CString) : Decidable (Whitespace gap) :=
  List.decidableBAll _ gap

/-! ### Whitespace in front -/

namespace Scan

/-- The variables in a string with something in front. -/
def shift (gap : CString) (s : Scan) : Scan where
  newString := gap ++ s.newString
  nonClassifiedTokenStart := s.nonClassifiedTokenStart.map fun start => gap.length + start
  charIsEscaped := s.charIsEscaped

variable {i : ℕ} {s s' : Scan} {c : Byte} {gap : CString}

theorem prepend_shift (gap : CString) (s : Scan) (tokens : List CString) :
    (s.shift gap).prepend tokens = s.prepend tokens := by
  obtain ⟨newString, _ | start, escaped⟩ := s
  · rfl
  · have hdrop : (gap ++ newString).drop (gap.length + start) = newString.drop start := by
      rw [List.drop_append, List.drop_eq_nil_of_le (Nat.le_add_right _ _), List.nil_append,
        Nat.add_sub_cancel_left]
    simp only [prepend, shift, Option.map_some, List.length_append, hdrop, Nat.add_sub_add_left]

theorem write_shift (gap : CString) (s : Scan) (c : Byte) :
    (s.shift gap).write c = (s.write c).shift gap := by
  simp only [write, shift]
  split_ifs <;> simp_all

theorem begin_shift (gap : CString) (i : ℕ) (s : Scan) :
    (s.shift gap).begin (gap.length + i) = (s.begin i).shift gap := by
  obtain ⟨newString, _ | start, escaped⟩ := s <;> rfl

theorem prepend_append (s : Scan) (tokens : List CString) :
    s.prepend tokens = s.prepend [] ++ tokens := by
  obtain ⟨newString, _ | start, escaped⟩ := s <;> rfl

end Scan

theorem getOneTokenFrom_shift (gap : CString) (i : ℕ) (s : Scan) (line : CString) :
    getOneTokenFrom (gap.length + i) (s.shift gap) line = getOneTokenFrom i s line := by
  induction line generalizing i s with
  | nil => rw [getOneTokenFrom, getOneTokenFrom, Scan.prepend_shift]
  | cons c line ih =>
    have hwrite := ih (i + 1) (s.write c)
    have hbegin := ih (i + 1) ((s.begin i).write c)
    rw [← Scan.write_shift, ← Nat.add_assoc] at hwrite
    rw [← Scan.write_shift, ← Scan.begin_shift, ← Nat.add_assoc] at hbegin
    have hstart : (s.shift gap).nonClassifiedTokenStart.isSome = s.nonClassifiedTokenStart.isSome :=
      Option.isSome_map
    rw [getOneTokenFrom, getOneTokenFrom]
    simp only [Scan.prepend_shift, hstart, hwrite, hbegin]
    rfl

/-- Whitespace in front of a line does not matter. -/
theorem getOneToken_whitespace {gap : CString} (h : Whitespace gap) (line : CString) :
    getOneToken (gap ++ line) = getOneToken line := by
  have hshift := getOneTokenFrom_shift gap 0 .start line
  have hgap : Scan.start.shift gap = ⟨[] ++ gap, none, false⟩ := by
    rw [Scan.shift, Scan.start, List.append_nil]
    rfl
  rw [hgap, Nat.add_comm] at hshift
  rw [getOneToken, getOneTokenFrom_gap h, hshift]
  rfl

/-! ### The operator -/

section
variable {i : ℕ} {s : Scan}

/-- The operator ends a pending word. Behind an operator of one character there is another one. -/
theorem getOneTokenFrom_operator (hs : s.charIsEscaped = false) (op : Operator) {rest : CString}
    (hrest : op.text = [op.char] → rest.head? ≠ some op.char) :
    getOneTokenFrom i s (op.text ++ rest) = ⟨s.prepend [op.text], some rest⟩ := by
  have hsingle : ∀ c, op.text = [c] → op.char = c → (c = byte '>' ∨ c = byte '&' ∨ c = byte '|') →
      getOneTokenFrom i s (op.text ++ rest) = ⟨s.prepend [op.text], some rest⟩ := by
    intro c htext hchar hc
    rw [htext, hchar] at hrest
    rw [htext, List.singleton_append, getOneTokenFrom, hs, if_neg (hrest rfl)]
    rcases hc with rfl | rfl | rfl <;> rfl
  have hdouble : ∀ c, op.text = [c, c] → (c = byte '>' ∨ c = byte '&' ∨ c = byte '|') →
      getOneTokenFrom i s (op.text ++ rest) = ⟨s.prepend [op.text], some rest⟩ := by
    intro c htext hc
    have hhead : ([c] ++ rest).head? = some c := rfl
    rw [htext, List.cons_append, getOneTokenFrom, hs, if_pos hhead]
    rcases hc with rfl | rfl | rfl <;> rfl
  cases op with
  | pipe => exact hsingle _ rfl rfl (by decide)
  | or => exact hdouble _ rfl (by decide)
  | and => exact hdouble _ rfl (by decide)
  | background => exact hsingle _ rfl rfl (by decide)
  | overwrite => exact hsingle _ rfl rfl (by decide)
  | append => exact hdouble _ rfl (by decide)

theorem tokenizesFrom_operator (hs : s.charIsEscaped = false) {gap : CString} (hgap : Whitespace gap)
    (op : Operator) {rest : CString} (hrest : op.text = [op.char] → rest.head? ≠ some op.char)
    {tokens : List CString} (h : Tokenizes rest tokens) :
    TokenizesFrom i s (gap ++ (op.text ++ rest)) (s.prepend [] ++ op.text :: tokens) := by
  induction gap generalizing i s with
  | nil =>
    have hstop := TokenizesFrom.more (getOneTokenFrom_operator (i := i) hs op hrest) h
    rwa [Scan.prepend_append, List.append_assoc] at hstop
  | cons c gap ih =>
    have hgap' : Whitespace gap := fun d hd => hgap d (List.mem_cons_of_mem c hd)
    have hc := hgap c List.mem_cons_self
    cases hstart : s.nonClassifiedTokenStart with
    | none =>
      have hpass : s.pass i c = some (s.write c) := by
        rw [Scan.pass, hs, hstart]
        rcases hc with rfl | rfl | rfl <;> rfl
      have hwrite : (s.write c).charIsEscaped = false ∧ (s.write c).prepend [] = s.prepend [] := by
        rw [Scan.write, if_neg (by rcases hc with rfl | rfl | rfl <;> decide), Scan.prepend,
          Scan.prepend, hstart]
        exact ⟨rfl, rfl⟩
      have hrest := ih (i := i + 1) hwrite.1 hgap'
      rw [hwrite.2] at hrest
      exact tokenizesFrom_congr (getOneTokenFrom_pass hpass _).symm hrest
    | some start =>
      -- the whitespace ends a pending word
      have hstop : getOneTokenFrom i s (c :: (gap ++ (op.text ++ rest))) =
          ⟨s.prepend [], some (gap ++ (op.text ++ rest))⟩ := by
        rw [getOneTokenFrom, hs, hstart]
        rcases hc with rfl | rfl | rfl <;> rfl
      exact .more hstop (ih rfl hgap')

end

/-! ### The line in front -/

theorem closingQuoteOffset_append {q : Byte} {escaped : Bool} {rest : CString} (other : CString)
    (h : closingQuoteOffset q escaped rest < rest.length) :
    closingQuoteOffset q escaped (rest ++ other) = closingQuoteOffset q escaped rest := by
  induction rest generalizing escaped with
  | nil => exact absurd h (Nat.lt_irrefl 0)
  | cons c rest ih =>
    rw [closingQuoteOffset] at h
    rw [List.cons_append, closingQuoteOffset, closingQuoteOffset]
    split_ifs at h ⊢
    · rw [ih (Nat.lt_of_succ_lt_succ h)]
    · rfl
    · rw [ih (Nat.lt_of_succ_lt_succ h)]

/-- A literal that is closed is the same whatever follows. -/
theorem extractQuotedLiteral_append {c : Byte} {rest next : CString} {tokens : List CString}
    (other : CString) (h : extractQuotedLiteral (c :: rest) 0 c = ⟨tokens, some next⟩) :
    extractQuotedLiteral (c :: rest ++ other) 0 c = ⟨tokens, some (next ++ other)⟩ := by
  rw [extractQuotedLiteral_cons] at h
  obtain ⟨htokens, hnext⟩ := Tokens.mk.inj h
  split_ifs at hnext with hclosed
  have hlt : closingQuoteOffset c false rest < rest.length := by
    rw [List.drop_eq_nil_iff] at hclosed
    omega
  have hopen : (rest ++ other).drop (closingQuoteOffset c false rest) ≠ [] := by
    rw [ne_eq, List.drop_eq_nil_iff, List.length_append]
    omega
  rw [List.cons_append, extractQuotedLiteral_cons, closingQuoteOffset_append other hlt, if_neg hopen,
    List.take_append_of_le_length (Nat.le_of_lt hlt), List.drop_append_of_le_length hlt, htokens,
    Option.some.inj hnext]

theorem getOneTokenFrom_stop_append {i : ℕ} {s : Scan} {c : Byte} {rest next other : CString}
    {tokens : List CString} (hpass : s.pass i c = none)
    (h : getOneTokenFrom i s (c :: rest) = ⟨tokens, some next⟩)
    (hother : rest = [] → (c = byte '>' ∨ c = byte '&' ∨ c = byte '|') → other.head? ≠ some c) :
    getOneTokenFrom i s (c :: rest ++ other) = ⟨tokens, some (next ++ other)⟩ := by
  rw [Scan.pass] at hpass
  rw [getOneTokenFrom] at h
  rw [List.cons_append, getOneTokenFrom]
  split_ifs at hpass with hescaped hblank hstart hquote hop
  · rw [if_neg hescaped, if_pos hblank, if_pos hstart] at h ⊢
    obtain ⟨rfl, hnext⟩ := Tokens.mk.inj h
    rw [Option.some.inj hnext]
  · rw [if_neg hescaped, if_neg hblank, if_pos hquote] at h ⊢
    obtain ⟨rfl, hnext⟩ := Tokens.mk.inj h
    have hliteral := extractQuotedLiteral_append other
      (show extractQuotedLiteral (c :: rest) 0 c = ⟨_, some next⟩ by rw [← hnext])
    rw [List.cons_append] at hliteral
    rw [hliteral]
  · rw [if_neg hescaped, if_neg hblank, if_neg hquote, if_pos hop] at h ⊢
    obtain ⟨rfl, hnext⟩ := Tokens.mk.inj h
    obtain rfl := Option.some.inj hnext
    have hop' : c = byte '>' ∨ c = byte '&' ∨ c = byte '|' := by simpa [or_assoc] using hop
    cases rest with
    | nil =>
      -- an operator at the end of the line is not followed by its own character
      rw [List.nil_append, if_neg (hother rfl hop')]
      rfl
    | cons d rest =>
      rw [List.cons_append, List.head?_cons, List.head?_cons]
      split_ifs <;> rfl

/-! ### Both together -/

/-- What is found in a line and in the line with something behind. -/
def Extends (other : CString) (found : List CString) (i : ℕ) (s : Scan) (line : CString) : Prop :=
  ∃ tokens, TokenizesFrom i s line tokens ∧ TokenizesFrom i s (line ++ other) (tokens ++ found)

section
variable {line other : CString} {found : List CString} {k i : ℕ} {s : Scan}
  (hother : ∀ c ∈ other.head?, c = byte '>' ∨ c = byte '&' ∨ c = byte '|' → ¬EndsIn line c)
include hother

/-- A call that ends within the line does not look at what is behind. -/
theorem Visits.append (h : Visits line k i s) {tokens : List CString} {next : CString}
    (hnext : getOneTokenFrom i s (line.drop (k + i)) = ⟨tokens, some next⟩) :
    getOneTokenFrom i s (line.drop (k + i) ++ other) = ⟨tokens, some (next ++ other)⟩ := by
  generalize hn : line.length - (k + i) = n
  induction n generalizing i s with
  | zero =>
    rw [List.drop_eq_nil_of_le (by omega), getOneTokenFrom] at hnext
    cases hnext
  | succ n ih =>
    have hlt : k + i < line.length := by omega
    have hdrop := List.drop_eq_getElem_cons hlt
    have hc := List.getElem?_eq_getElem hlt
    rw [hdrop] at hnext ⊢
    cases hpass : s.pass i (line)[k + i] with
    | some s' =>
      rw [getOneTokenFrom_pass hpass] at hnext
      rw [List.cons_append, getOneTokenFrom_pass hpass]
      exact ih (h.pass hc hpass) hnext (by omega)
    | none =>
      refine getOneTokenFrom_stop_append hpass hnext fun hend hop hhead => ?_
      have hlast := List.drop_eq_nil_iff.mp hend
      exact hother _ hhead hop ⟨k, i, s, h, (getOneTokenFrom_stop hpass []).1, by omega, hc⟩

theorem Restarts.continues (h : Restarts line k) (hk : Extends other found 0 .start (line.drop k)) :
    Extends other found 0 .start line := by
  induction h with
  | start => exact hk
  | @again k k' hrestarts hle hnext ih =>
    apply ih
    obtain ⟨tokens, htokens, hothers⟩ := hk
    have hcall : getOneTokenFrom 0 .start (line.drop k) =
        ⟨(getOneToken (line.drop k)).list, some (line.drop k')⟩ := by
      rw [← hnext]
      rfl
    have happend := (Visits.start hrestarts).append hother hcall
    refine ⟨_, .more hcall htokens, ?_⟩
    rw [List.append_assoc]
    exact .more happend hothers

theorem Visits.continues (h : Visits line k i s)
    (hk : Extends other found i s (line.drop (k + i))) : Extends other found 0 .start line := by
  induction h with
  | start hrestarts => exact hrestarts.continues hother hk
  | pass _ hc hpass ih =>
    apply ih
    obtain ⟨hlt, rfl⟩ := List.getElem?_eq_some_iff.mp hc
    obtain ⟨tokens, htokens, hothers⟩ := hk
    rw [List.drop_eq_getElem_cons hlt]
    exact ⟨tokens, tokenizesFrom_congr (getOneTokenFrom_pass hpass _).symm htokens,
      tokenizesFrom_congr (getOneTokenFrom_pass hpass _).symm hothers⟩

end

theorem Operator.head_text (op : Operator) : op.text.head? = some op.char := by
  cases op <;> rfl

theorem Operator.char_not_whitespace (op : Operator) :
    ¬(op.char = tab ∨ op.char = space ∨ op.char = newline) := by
  cases op <;> decide

/-- An operator between two lines, with any whitespace around it, is found between what is found in the
two lines, if the first one ends outside of quotes and the operator is not lengthened by the one or
the other. -/
theorem getTokens_operator {a b gap gap' : CString} {op : Operator} (ha : EndsPlain a)
    (hop : ¬EndsIn a op.char) (hb : op.text = [op.char] → b.head? ≠ some op.char)
    (hgap : Whitespace gap) (hgap' : Whitespace gap') :
    ∃ ta tb, getTokens a = some ta ∧ getTokens b = some tb ∧
      getTokens (a ++ gap ++ op.text ++ gap' ++ b) = some (ta ++ [op.text] ++ tb) := by
  obtain ⟨k, i, s, h, hend, hescaped⟩ := ha
  obtain ⟨tb, htb⟩ := exists_tokenizes b
  have hrest : Tokenizes (gap' ++ b) tb := tokenizesFrom_congr (getOneToken_whitespace hgap' b).symm htb
  have hhead : op.text = [op.char] → (gap' ++ b).head? ≠ some op.char := by
    intro htext
    cases gap' with
    | nil => exact hb htext
    | cons c gap' =>
      intro hc
      obtain rfl := Option.some.inj hc
      exact op.char_not_whitespace (hgap' _ List.mem_cons_self)
  have hbehind := tokenizesFrom_operator (i := i) hescaped hgap op hhead hrest
  have hfirst : ∀ c ∈ (gap ++ (op.text ++ (gap' ++ b))).head?,
      c = byte '>' ∨ c = byte '&' ∨ c = byte '|' → ¬EndsIn a c := by
    intro c hc hcop
    cases gap with
    | nil =>
      obtain rfl : c = op.char := by
        rw [List.nil_append, List.head?_append, op.head_text] at hc
        exact (Option.some.inj hc).symm
      exact hop
    | cons d gap =>
      obtain rfl := Option.some.inj hc
      exact absurd (hgap _ List.mem_cons_self) (by rcases hcop with rfl | rfl | rfl <;> decide)
  have hlast : Extends (gap ++ (op.text ++ (gap' ++ b))) (op.text :: tb) i s (a.drop (k + i)) := by
    rw [hend, List.drop_length]
    exact ⟨s.prepend [], .last rfl, hbehind⟩
  obtain ⟨ta, hta, hall⟩ := h.continues hfirst hlast
  refine ⟨ta, tb, getTokens_of_tokenizes hta, getTokens_of_tokenizes htb, ?_⟩
  simp only [List.append_assoc]
  exact getTokens_of_tokenizes hall

/-- The line `x ||` with `|` directly behind it. -/
theorem getTokens_operator_bar : ∃ ta tb, getTokens [byte 'x'] = some ta ∧
    getTokens [byte '|'] = some tb ∧
    getTokens ([byte 'x'] ++ [space] ++ Operator.or.text ++ [] ++ [byte '|']) =
      some (ta ++ [Operator.or.text] ++ tb) := by
  refine getTokens_operator ⟨0, 1, _, .pass (.start .start) rfl rfl, rfl, rfl⟩ ?_ (by decide)
    (by decide) (by decide)
  rintro ⟨k, i, s, -, -, hlast, hc⟩
  have hzero : k + i = 0 := by simpa using hlast
  rw [hzero] at hc
  exact absurd hc (by decide)

end SystemsProgramming.Shell

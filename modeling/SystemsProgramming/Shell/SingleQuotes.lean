import SystemsProgramming.Shell.Reading
import SystemsProgramming.Shell.Spacing

/-! Text in single quotes. The reader, the search for the closing quote and the unescaping have one rule
for backslashes in both kinds of quotes, so the text is literal just when each of its backslashes stands
alone. -/

namespace SystemsProgramming.Shell

/-- A text in single quotes. -/
def singleQuoted (text : CString) : CString := singleQuote :: (text ++ [singleQuote])

/-- Each backslash of a text is followed by a character that is none. -/
def LoneBackslashes (text : CString) : Prop :=
  ∀ before behind, text = before ++ backslash :: behind → ∃ c rest, behind = c :: rest ∧ c ≠ backslash

theorem loneBackslashes_nil : LoneBackslashes [] := fun _ _ h => by simp at h

theorem loneBackslashes_cons {c : Byte} {text : CString} : LoneBackslashes (c :: text) ↔
    (c = backslash → ∃ d rest, text = d :: rest ∧ d ≠ backslash) ∧ LoneBackslashes text := by
  constructor
  · intro h
    refine ⟨?_, fun before behind htext => h (c :: before) behind (by rw [htext, List.cons_append])⟩
    rintro rfl
    exact h [] text rfl
  · rintro ⟨hc, h⟩ before behind htext
    cases before with
    | nil =>
      obtain ⟨rfl, rfl⟩ := List.cons.inj htext
      exact hc rfl
    | cons d before =>
      obtain ⟨-, rfl⟩ := List.cons.inj htext
      exact h before behind rfl

/-- The part of a text that is left, behind a backslash that escapes or not. -/
def LoneFrom (escaped : Bool) (text : CString) : Prop :=
  (escaped = true → ∃ c rest, text = c :: rest ∧ c ≠ backslash) ∧ LoneBackslashes text

section
variable {text : CString} {escaped : Bool} {c : Byte}

theorem LoneFrom.nil (h : LoneFrom escaped []) : escaped = false := by
  cases escaped with
  | false => rfl
  | true =>
    obtain ⟨c, rest, hnil, -⟩ := h.1 rfl
    cases hnil

theorem LoneFrom.cons_backslash (h : LoneFrom escaped (backslash :: text)) :
    escaped = false ∧ LoneFrom true text := by
  obtain ⟨hnext, hrest⟩ := loneBackslashes_cons.mp h.2
  refine ⟨?_, fun _ => hnext rfl, hrest⟩
  cases escaped with
  | false => rfl
  | true =>
    obtain ⟨c, rest, hcons, hne⟩ := h.1 rfl
    obtain ⟨rfl, -⟩ := List.cons.inj hcons
    exact absurd rfl hne

theorem LoneBackslashes.start (h : LoneBackslashes text) : LoneFrom false text :=
  ⟨fun hescaped => absurd hescaped Bool.false_ne_true, h⟩

theorem LoneFrom.cons (h : LoneFrom escaped (c :: text)) : LoneFrom false text :=
  (loneBackslashes_cons.mp h.2).2.start

/-! ### Lone backslashes -/

/-- A text with lone backslashes, character by character. -/
theorem LoneFrom.induction {motive : Bool → CString → Prop} (nil : motive false [])
    (backslash : ∀ text, motive true text → motive false (backslash :: text))
    (other : ∀ escaped c text, c ≠ singleQuote → c ≠ Shell.backslash → motive false text →
      motive escaped (c :: text))
    (hquote : singleQuote ∉ text) (h : LoneFrom escaped text) : motive escaped text := by
  induction text generalizing escaped with
  | nil =>
    rw [h.nil]
    exact nil
  | cons c text ih =>
    obtain ⟨hne, hrest⟩ : c ≠ singleQuote ∧ singleQuote ∉ text := by
      simpa [eq_comm] using hquote
    by_cases hb : c = Shell.backslash
    · subst hb
      obtain ⟨rfl, hlone⟩ := h.cons_backslash
      exact backslash text (ih hrest hlone)
    · exact other escaped c text hne hb (ih hrest h.cons)

theorem closingQuoteOffset_lone (hquote : singleQuote ∉ text) (h : LoneFrom escaped text)
    (behind : CString) :
    closingQuoteOffset singleQuote escaped (text ++ singleQuote :: behind) = text.length := by
  refine LoneFrom.induction (motive := fun escaped text =>
    closingQuoteOffset singleQuote escaped (text ++ singleQuote :: behind) = text.length)
    rfl (fun text ih => ?_) (fun escaped c text hne hb ih => ?_) hquote h
  · rw [List.cons_append, closingQuoteOffset, if_pos rfl, List.length_cons]
    exact congrArg (· + 1) ih
  · rw [List.cons_append, closingQuoteOffset, List.length_cons, if_neg hb, if_neg (by simp [hne]), ih]

theorem unescape_lone (hquote : singleQuote ∉ text) (h : LoneFrom escaped text) :
    unescape singleQuote escaped text = if escaped then backslash :: text else text := by
  refine LoneFrom.induction (motive := fun escaped text =>
    unescape singleQuote escaped text = if escaped then backslash :: text else text)
    rfl (fun text ih => ?_) (fun escaped c text hne hb ih => ?_) hquote h
  · rw [unescape, if_pos rfl, ih]
    rfl
  · rw [unescape, if_neg hb, ih]
    cases escaped <;> simp [hne]

/-- The reader stays inside the quotes up to the closing one. -/
theorem foldl_read_lone (hquote : singleQuote ∉ text) (h : LoneFrom escaped text) :
    text.foldl Lex.read ⟨escaped, some singleQuote⟩ = ⟨false, some singleQuote⟩ := by
  refine LoneFrom.induction (motive := fun escaped text =>
    text.foldl Lex.read ⟨escaped, some singleQuote⟩ = ⟨false, some singleQuote⟩)
    rfl (fun text ih => ih) (fun escaped c text hne hb ih => ?_) hquote h
  have hread : Lex.read ⟨escaped, some singleQuote⟩ c = ⟨false, some singleQuote⟩ := by
    have hother : some singleQuote ≠ some c := fun heq => hne (Option.some.inj heq).symm
    cases escaped <;> simp [Lex.read, hb, hne, Lex.toggle, hother]
  rw [List.foldl_cons, hread, ih]

theorem foldl_read_quote (escaped : Bool) (hquote : singleQuote ∉ text) :
    (text.foldl Lex.read ⟨escaped, some singleQuote⟩).quote = some singleQuote := by
  induction text generalizing escaped with
  | nil => rfl
  | cons c text ih =>
    obtain ⟨hne, hrest⟩ : c ≠ singleQuote ∧ singleQuote ∉ text := by
      simpa [eq_comm] using hquote
    obtain ⟨escaped', hread⟩ : ∃ escaped', Lex.read ⟨escaped, some singleQuote⟩ c =
        ⟨escaped', some singleQuote⟩ := by
      have hother : some singleQuote ≠ some c := fun heq => hne (Option.some.inj heq).symm
      rw [Lex.read, Lex.toggle, if_neg hother]
      split_ifs <;> exact ⟨_, rfl⟩
    rw [List.foldl_cons, hread]
    exact ih _ hrest

/-! ### Other backslashes -/

theorem le_closingQuoteOffset (hquote : singleQuote ∉ text) (behind : CString) :
    text.length ≤ closingQuoteOffset singleQuote escaped (text ++ behind) := by
  induction text generalizing escaped with
  | nil => exact Nat.zero_le _
  | cons c text ih =>
    obtain ⟨hne, hquote⟩ : c ≠ singleQuote ∧ singleQuote ∉ text := by
      simpa [eq_comm] using hquote
    rw [List.cons_append, closingQuoteOffset, List.length_cons]
    split_ifs with hb hc
    · exact Nat.succ_le_succ (ih hquote)
    · simp [hne] at hc
    · exact Nat.succ_le_succ (ih hquote)

theorem mem_unescape {q : Byte} (hc : c ∈ text) (hb : c ≠ backslash) : c ∈ unescape q escaped text := by
  induction text generalizing escaped with
  | nil => cases hc
  | cons d text ih =>
    rw [unescape]
    rcases List.mem_cons.mp hc with rfl | hc
    · rw [if_neg hb]
      split_ifs <;> simp
    · have hrest : ∀ escaped, c ∈ unescape q escaped text := fun _ => ih hc
      split_ifs <;> simp [hrest]

/-- Unescaping keeps the length only of a text with lone backslashes. -/
theorem length_unescape (q : Byte) (escaped : Bool) (text : CString) :
    (unescape q escaped text).length ≤ text.length + escaped.toNat ∧
      ((unescape q escaped text).length = text.length + escaped.toNat → LoneFrom escaped text) := by
  induction text generalizing escaped with
  | nil =>
    cases escaped with
    | false => exact ⟨Nat.le_refl _, fun _ => loneBackslashes_nil.start⟩
    | true => exact ⟨Nat.zero_le _, fun heq => absurd heq (Nat.zero_ne_one)⟩
  | cons c text ih =>
    rw [unescape]
    by_cases hb : c = backslash
    · subst hb
      rw [if_pos rfl]
      cases escaped with
      | true =>
        -- the second backslash of a pair: the first one is lost
        have hle := (ih false).1
        simp only [if_true, List.length_cons, Bool.toNat_true, Bool.toNat_false] at hle ⊢
        exact ⟨by omega, by omega⟩
      | false =>
        obtain ⟨hle, hlone⟩ := ih true
        simp only [Bool.false_eq_true, if_false, List.length_cons, Bool.toNat_true,
          Bool.toNat_false] at hle hlone ⊢
        refine ⟨by omega, fun heq => ?_⟩
        obtain ⟨hnext, hrest⟩ := hlone (by omega)
        exact (loneBackslashes_cons.mpr ⟨fun _ => hnext rfl, hrest⟩).start
    · obtain ⟨hle, hlone⟩ := ih false
      simp only [Bool.toNat_false] at hle hlone
      rw [if_neg hb]
      have hcons : (unescape q false text).length = text.length → LoneFrom escaped (c :: text) :=
        fun heq => ⟨fun _ => ⟨c, text, rfl, hb⟩,
          loneBackslashes_cons.mpr ⟨fun h => absurd h hb, (hlone heq).2⟩⟩
      split_ifs with hkept
      · obtain rfl : escaped = true := by
          cases escaped with
          | true => rfl
          | false => simp at hkept
        rw [Bool.toNat_true, List.length_cons, List.length_cons, List.length_cons]
        exact ⟨by omega, fun heq => hcons (by omega)⟩
      · simp only [List.length_cons]
        exact ⟨by omega, fun heq => hcons (by omega)⟩

end

/-! ### The token -/

theorem extractQuotedLiteral_singleQuoted {text : CString} (hquote : singleQuote ∉ text)
    (h : LoneBackslashes text) (behind : CString) :
    extractQuotedLiteral (singleQuoted text ++ behind) 0 singleQuote = ⟨[text], some behind⟩ := by
  have hlone := h.start
  have hline : singleQuoted text ++ behind = singleQuote :: (text ++ singleQuote :: behind) := by
    simp [singleQuoted]
  rw [hline, extractQuotedLiteral_cons, closingQuoteOffset_lone hquote hlone, List.take_left,
    unescape_lone hquote hlone]
  simp

/-- The first token of a text in single quotes, whatever it is. -/
theorem getOneToken_singleQuoted (text : CString) : (getOneToken (singleQuoted text)).list =
    [unescape singleQuote false ((text ++ [singleQuote]).take
      (closingQuoteOffset singleQuote false (text ++ [singleQuote])))] := by
  have hstop : (getOneToken (singleQuoted text)).list =
      (extractQuotedLiteral (singleQuoted text) 0 singleQuote).list := rfl
  rw [hstop, singleQuoted, extractQuotedLiteral_cons]

theorem getTokens_cons {line : CString} {tokens : List CString} (h : getTokens line = some tokens) :
    ∃ others, tokens = (getOneToken line).list ++ others := by
  obtain ⟨ts, hts⟩ := exists_tokenizes line
  obtain rfl := Option.some.inj (h.symm.trans (getTokens_of_tokenizes hts))
  cases hts with
  | last hline =>
    have hlist : getOneToken line = _ := hline
    exact ⟨[], by rw [hlist, List.append_nil]⟩
  | more hline _ =>
    have hlist : getOneToken line = _ := hline
    exact ⟨_, by rw [hlist]⟩

/-- A text that comes out as it is has lone backslashes. -/
theorem loneBackslashes_of_getTokens {text : CString} (hquote : singleQuote ∉ text)
    (h : getTokens (singleQuoted text) = some [text]) : LoneBackslashes text := by
  obtain ⟨others, hothers⟩ := getTokens_cons h
  rw [getOneToken_singleQuoted, List.singleton_append] at hothers
  obtain ⟨htext, -⟩ := List.cons.inj hothers
  have hle : text.length ≤ closingQuoteOffset singleQuote false (text ++ [singleQuote]) :=
    le_closingQuoteOffset hquote _
  generalize closingQuoteOffset singleQuote false (text ++ [singleQuote]) = n at htext hle
  rcases Nat.eq_or_lt_of_le hle with rfl | hlt
  · rw [List.take_left] at htext
    exact ((length_unescape singleQuote false text).2 (congrArg List.length htext.symm)).2
  · -- the closing quote has been taken for an escaped one, and is in the token
    rw [List.take_of_length_le (by rw [List.length_append, List.length_singleton]; omega)] at htext
    have hmem : singleQuote ∈ unescape singleQuote false (text ++ [singleQuote]) :=
      mem_unescape (List.mem_append_right _ List.mem_cons_self) (by decide)
    rw [← htext] at hmem
    exact absurd hmem hquote

/-! ### The line -/

/-- No newline of the text ends the line. -/
theorem whole_singleQuoted {text : CString} (hquote : singleQuote ∉ text) :
    Throughout (fun p c => ¬EndsLine p c) (singleQuoted text) := by
  rintro p c hp ⟨rfl, hplain⟩
  cases p with
  | nil =>
    have hhead := (List.cons_prefix_cons.mp hp).1
    exact absurd hhead (by decide)
  | cons d p =>
    obtain ⟨rfl, htail⟩ := List.cons_prefix_cons.mp hp
    have hp' : p ++ [newline] <+: text := by
      refine (List.prefix_concat_iff.mp htail).resolve_left fun heq => ?_
      have hlast := (List.append_inj' heq rfl).2
      exact absurd hlast (by decide)
    have hopen := foldl_read_quote false fun hmem => hquote (hp'.subset (List.mem_append_left _ hmem))
    have hstart : (singleQuote :: p).foldl Lex.read .plain =
        p.foldl Lex.read ⟨false, some singleQuote⟩ := rfl
    rw [← hstart, hplain] at hopen
    cases hopen

theorem readStdinLine_singleQuoted {text : CString} (hnul : 0 ∉ text) (hquote : singleQuote ∉ text)
    (h : LoneBackslashes text) (heof : eof ∉ text) (hfits : Fits (singleQuoted text)) (rest : List Byte) :
    readStdinLine (singleQuoted text ++ newline :: rest) =
      some (⟨false, joined (singleQuoted text)⟩, rest) := by
  have hmem : ∀ c, c ∈ singleQuoted text → c = singleQuote ∨ c ∈ text := by
    simp [singleQuoted, or_comm]
  have hinside : Inside (singleQuoted text) := ⟨fun h0 => (hmem 0 h0).elim (by decide) hnul,
    fun hff => (hmem _ hff).elim (by decide) heof, whole_singleQuoted hquote⟩
  refine hinside.line hfits ⟨rfl, ?_⟩ rest
  have hstart : (singleQuoted text).foldl Lex.read .plain =
      (text ++ [singleQuote]).foldl Lex.read ⟨false, some singleQuote⟩ := rfl
  have hlone := h.start
  rw [hstart, List.foldl_append, foldl_read_lone hquote hlone]
  rfl

theorem getTokens_singleQuoted {text t : CString} {ts : List CString} (hquote : singleQuote ∉ text)
    (h : LoneBackslashes text) (ht : getTokens t = some ts) :
    getTokens (singleQuoted text ++ t) = some (text :: ts) := by
  have hfirst : getOneToken (singleQuoted text ++ t) = ⟨[text], some t⟩ := by
    have hstop : getOneToken (singleQuoted text ++ t) =
        ⟨(extractQuotedLiteral (singleQuoted text ++ t) 0 singleQuote).list,
          (extractQuotedLiteral (singleQuoted text ++ t) 0 singleQuote).maybeUnparsedTokensPtr⟩ := rfl
    rw [hstop, extractQuotedLiteral_singleQuoted hquote h]
  obtain ⟨ts', hts'⟩ := exists_tokenizes t
  obtain rfl := Option.some.inj (ht.symm.trans (getTokens_of_tokenizes hts'))
  have htokens : Tokenizes (singleQuoted text ++ t) ([text] ++ ts) := .more hfirst hts'
  exact getTokens_of_tokenizes htokens

theorem getTokens_space (t : CString) : getTokens (space :: t) = getTokens t := by
  obtain ⟨ts, hts⟩ := exists_tokenizes t
  rw [getTokens_of_tokenizes hts]
  have hgap : Whitespace [space] := by decide
  exact getTokens_of_tokenizes (tokenizesFrom_congr (getOneToken_whitespace hgap t).symm hts)

/-- A text in single quotes is one literal token, alone and before other tokens, and the reader takes the
quote behind it for the closing one, if and only if each backslash of the text is followed by a
character that is none. -/
theorem singleQuotes_iff {text : CString} (hnul : 0 ∉ text) (hquote : singleQuote ∉ text) :
    (getTokens (singleQuoted text) = some [text] ∧
      (∀ t ts, getTokens t = some ts → getTokens (singleQuoted text ++ space :: t) = some (text :: ts)) ∧
      (eof ∉ text → Fits (singleQuoted text) → ∀ rest,
        readStdinLine (singleQuoted text ++ newline :: rest) =
          some (⟨false, joined (singleQuoted text)⟩, rest))) ↔
      LoneBackslashes text := by
  constructor
  · exact fun h => loneBackslashes_of_getTokens hquote h.1
  · intro h
    refine ⟨?_, fun t ts ht => getTokens_singleQuoted hquote h ((getTokens_space t).trans ht),
      readStdinLine_singleQuoted hnul hquote h⟩
    have halone := getTokens_singleQuoted hquote h (t := []) rfl
    rwa [List.append_nil] at halone

/-- `'a\b'` -/
theorem singleQuotes_iff_lone : getTokens (singleQuoted [97, backslash, 98]) = some [[97, backslash, 98]] := by
  have hlone : LoneBackslashes [97, backslash, 98] := by
    rw [loneBackslashes_cons, loneBackslashes_cons, loneBackslashes_cons]
    exact ⟨fun h => absurd h (by decide), fun _ => ⟨98, [], rfl, by decide⟩,
      fun h => absurd h (by decide), loneBackslashes_nil⟩
  exact ((singleQuotes_iff (by decide) (by decide)).mpr hlone).1

/-- `'\'`, which bash takes for a backslash, is not closed. -/
theorem singleQuoted_backslash : 0 ∉ [backslash] ∧ singleQuote ∉ [backslash] ∧
    getTokens (singleQuoted [backslash]) ≠ some [[backslash]] := by decide

end SystemsProgramming.Shell

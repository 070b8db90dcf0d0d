import SystemsProgramming.Shell.Reader
import SystemsProgramming.Shell.Words

/-! The pointers and the buffers of the tokenizer (`2/tokenizer.c`). A string is read in the array that
it stands in, a pointer to it is an index of the array, and what `get_one_token` copies goes to a
buffer of its own. No access is outside an array, and the tokens are those of the string. -/

namespace SystemsProgramming.Shell

/-! ### The functions -/

/-- `strlen` -/
def strlen (string : CArray Byte) (ptr : ℕ) : Option ℕ :=
  (cStringFrom string.size.toNat ptr string).map List.length

/-- The loop of `substring`. -/
def copyChars : ℕ → ℕ → CArray Byte → Option CString
  | 0, _, _ => some []
  | n + 1, ptr, string => do
    let c ← string.get ptr
    if c = 0 then return [] else return c :: (← copyChars n (ptr + 1) string)

/-- `substring` of what is at a pointer. It has no room for a negative number of characters. -/
def substringAt (string : CArray Byte) (ptr : ℕ) (charCount : ℤ) : Option CString :=
  if charCount < 0 then none else copyChars charCount.toNat ptr string

/-- The loop of `get_closing_quote_index`. -/
def closingQuoteFrom (string : CArray Byte) (usedQuoteSymbol : Byte) : ℕ → Bool → ℕ → Option ℕ
  | 0, _, _ => none
  | fuel + 1, nextCharIsEscaped, ptr => do
    let c ← string.get ptr
    if c = 0 then return ptr
    else if c = backslash then
      closingQuoteFrom string usedQuoteSymbol fuel (!nextCharIsEscaped) (ptr + 1)
    else if !nextCharIsEscaped && c = usedQuoteSymbol then return ptr
    else closingQuoteFrom string usedQuoteSymbol fuel false (ptr + 1)

/-- A string under construction: the array, and the index behind what has been written. -/
structure Buffer where
  chars : CArray Byte
  ptr : ℕ

def Buffer.push (c : Byte) (b : Buffer) : Option Buffer := do
  return ⟨← b.chars.set b.ptr c, b.ptr + 1⟩

/-- The loop of `extract_quoted_token`. -/
def copyQuoted (string : CArray Byte) (quoteSymbol : Byte) : ℕ → Bool → ℕ → Buffer → Option Buffer
  | 0, _, _, quotedToken => some quotedToken
  | n + 1, nextCharIsEscaped, ptr, quotedToken => do
    let c ← string.get ptr
    if c = backslash then
      if nextCharIsEscaped then
        copyQuoted string quoteSymbol n false (ptr + 1) (← quotedToken.push backslash)
      else copyQuoted string quoteSymbol n true (ptr + 1) quotedToken
    else if nextCharIsEscaped && !((c = doubleQuote || c = singleQuote) && c = quoteSymbol) then
      let quotedToken ← quotedToken.push backslash
      copyQuoted string quoteSymbol n false (ptr + 1) (← quotedToken.push c)
    else copyQuoted string quoteSymbol n false (ptr + 1) (← quotedToken.push c)

def extractQuotedTokenAt (string : CArray Byte) (quotationInsideStartInclusive
    quotationInsideEndExclusive : ℕ) (quoteSymbol : Byte) : Option CString := do
  let quotationInsidesMaxSize := quotationInsideEndExclusive - quotationInsideStartInclusive
  let quotedToken ← copyQuoted string quoteSymbol quotationInsidesMaxSize false
    quotationInsideStartInclusive ⟨.malloc (quotationInsidesMaxSize + 1), 0⟩
  let quotedToken ← quotedToken.push 0
  cString quotedToken.chars

/-- The tokens found, and the index at which to look for more, or `NULL`. -/
structure Found where
  list : List CString
  maybeUnparsedTokensPtr : Option ℕ
  deriving DecidableEq

def extractQuotedLiteralAt (string : CArray Byte) (openingQuoteIndex : ℕ) (quoteSymbol : Byte) :
    Option Found := do
  let firstCharIndex := openingQuoteIndex + 1
  let closingQuoteIndex ← closingQuoteFrom string quoteSymbol string.size.toNat false firstCharIndex
  let quotedToken ← extractQuotedTokenAt string firstCharIndex closingQuoteIndex quoteSymbol
  let c ← string.get closingQuoteIndex
  return ⟨[quotedToken], if c = 0 then none else some (closingQuoteIndex + 1)⟩

/-- The variables of `get_one_token`; `newString` is `new_string` with `new_string_ptr`. -/
structure Cursor where
  newString : Buffer
  oldStringPtr : ℕ
  nonClassifiedTokenStart : Option ℕ
  charIsEscaped : Bool

namespace Cursor

/-- The variables before the loop, with `new_string` full of NULs. -/
def start (newStringMaxLength : ℕ) : Cursor where
  newString := ⟨(CArray.malloc (newStringMaxLength + 1)).fill 0, 0⟩
  oldStringPtr := 0
  nonClassifiedTokenStart := none
  charIsEscaped := false

/-- `prepend_unclassified_token_if_needed` -/
def prepend (v : Cursor) (followingTokens : List CString) : Option (List CString) :=
  match v.nonClassifiedTokenStart with
  | none => some followingTokens
  | some start => do
    let token ← substringAt v.newString.chars start (v.newString.ptr - start)
    return token :: followingTokens

/-- The default case of the `switch`. -/
def begin (v : Cursor) : Cursor :=
  { v with nonClassifiedTokenStart := some (v.nonClassifiedTokenStart.getD v.oldStringPtr) }

/-- The part of the loop's body after the `switch`. -/
def write (c : Byte) (v : Cursor) : Option Cursor :=
  if c = backslash then
    if v.charIsEscaped then do
      let newString ← v.newString.push c
      return { v with newString := newString, charIsEscaped := false
                      oldStringPtr := v.oldStringPtr + 1 }
    else some { v with charIsEscaped := true, oldStringPtr := v.oldStringPtr + 1 }
  else do
    let newString ← v.newString.push c
    return { v with newString := newString, charIsEscaped := false
                    oldStringPtr := v.oldStringPtr + 1 }

end Cursor

/-- The loop of `get_one_token`: its variables, and what is returned once the loop is left. -/
def getOneTokenStep (string : CArray Byte) (ptr : ℕ) :
    Cursor × Option Found → Option (Ctl (Cursor × Option Found))
  | (v, _) => do
    let c ← string.get ↑(ptr + v.oldStringPtr)
    if c = 0 then return .done (v, some ⟨← v.prepend [], none⟩)
    else if v.charIsEscaped then return .again (← v.write c, none)
    else if c = tab || c = space || c = newline then
      if v.nonClassifiedTokenStart.isSome then
        return .done (v, some ⟨← v.prepend [], some (ptr + v.oldStringPtr + 1)⟩)
      else return .again (← v.write c, none)
    else if c = singleQuote || c = doubleQuote then
      let ans ← extractQuotedLiteralAt string (ptr + v.oldStringPtr) c
      return .done (v, some ⟨← v.prepend ans.list, ans.maybeUnparsedTokensPtr⟩)
    else if c = byte '>' || c = byte '&' || c = byte '|' then
      let next ← string.get ↑(ptr + v.oldStringPtr + 1)
      let classifiedTokenSize : ℕ := if next = c then 2 else 1
      let classifiedToken ← substringAt string (ptr + v.oldStringPtr) classifiedTokenSize
      return .done (v, some ⟨← v.prepend [classifiedToken],
        some (ptr + v.oldStringPtr + classifiedTokenSize)⟩)
    else return .again (← v.begin.write c, none)

/-- Each turn of the loop takes a character, so this fuel suffices. -/
def getOneTokenAt (string : CArray Byte) (ptr : ℕ) : Option Found := do
  let newStringMaxLength ← strlen string ptr
  let (_, found) ← iterate (getOneTokenStep string ptr) (newStringMaxLength + 1)
    (.start newStringMaxLength, none)
  found

/-- The loop of `get_tokens`: the tokens so far, and `current_string_ptr`. -/
def getTokensAtStep (string : CArray Byte) :
    List CString × Option ℕ → Option (Ctl (List CString × Option ℕ))
  | (tokens, none) => some (.done (tokens, none))
  | (tokens, some currentStringPtr) => do
    let oneTokenInfo ← getOneTokenAt string currentStringPtr
    return .again (tokens ++ oneTokenInfo.list, oneTokenInfo.maybeUnparsedTokensPtr)

/-- Each call of `get_one_token` moves on in the string, so this fuel suffices. -/
def getTokensAt (string : CArray Byte) (ptr : ℕ) : Option (List CString) := do
  let length ← strlen string ptr
  let (tokens, _) ← iterate (getTokensAtStep string) (length + 2) ([], some ptr)
  return tokens

/-! ### Strings in an array -/

/-- A string stands at this place of the array. -/
structure Points (string : CArray Byte) (ptr : ℕ) (text : CString) : Prop where
  spans : string.Spans ptr (text ++ [0])
  nulFree : 0 ∉ text

section
variable {string : CArray Byte} {ptr : ℕ} {text rest : CString} {c : Byte}

theorem points_nil : Points string ptr [] ↔ string.get ptr = some 0 := by
  constructor
  · exact fun h => (CArray.spans_cons.mp h.spans).1
  · exact fun h => ⟨CArray.spans_cons.mpr ⟨h, CArray.spans_nil _ _⟩, List.not_mem_nil⟩

theorem points_cons : Points string ptr (c :: text) ↔
    (string.get ptr = some c ∧ c ≠ 0) ∧ Points string (ptr + 1) text := by
  constructor
  · intro h
    obtain ⟨hc, hspans⟩ := CArray.spans_cons.mp h.spans
    obtain ⟨hne, hnul⟩ := not_or.mp (List.mem_cons.not.mp h.nulFree)
    exact ⟨⟨hc, Ne.symm hne⟩, by exact_mod_cast hspans, hnul⟩
  · rintro ⟨⟨hc, hne⟩, h⟩
    refine ⟨CArray.spans_cons.mpr ⟨hc, by exact_mod_cast h.spans⟩, ?_⟩
    exact List.mem_cons.not.mpr (not_or.mpr ⟨Ne.symm hne, h.nulFree⟩)

theorem Points.drop (h : Points string ptr text) {n : ℕ} (hn : n ≤ text.length) :
    Points string (ptr + n) (text.drop n) where
  spans := by
    have hspans := h.spans.drop n
    rw [List.drop_append_of_le_length hn] at hspans
    exact_mod_cast hspans
  nulFree hmem := h.nulFree (List.mem_of_mem_drop hmem)

theorem Points.take (h : Points string ptr text) (n : ℕ) :
    string.Spans ptr (text.take n) ∧ 0 ∉ text.take n := by
  constructor
  · exact h.spans.of_prefix ((List.take_prefix n text).trans (List.prefix_append ..))
  · exact fun hmem => h.nulFree (List.mem_of_mem_take hmem)

theorem cStringFrom_eq (h : Points string ptr text) {fuel : ℕ} (hfuel : text.length < fuel) :
    cStringFrom fuel ptr string = some text := by
  induction text generalizing ptr fuel with
  | nil =>
    obtain ⟨fuel, rfl⟩ := Nat.exists_eq_succ_of_ne_zero (Nat.ne_zero_of_lt hfuel)
    simp [cStringFrom, points_nil.mp h]
  | cons c text ih =>
    obtain ⟨fuel, rfl⟩ := Nat.exists_eq_succ_of_ne_zero (Nat.ne_zero_of_lt hfuel)
    obtain ⟨⟨hc, hne⟩, htext⟩ := points_cons.mp h
    have hrest := ih htext (Nat.lt_of_succ_lt_succ hfuel)
    push_cast at hrest
    simp [cStringFrom, hc, hne, hrest]

/-- The whole string is inside the array. -/
theorem Points.inside (h : Points string ptr text) : ptr + text.length < string.size.toNat := by
  have hnul := h.spans text.length 0 List.getElem?_concat_length
  rw [CArray.get] at hnul
  split_ifs at hnul with hin
  omega

theorem Points.strlen (h : Points string ptr text) : strlen string ptr = some text.length := by
  have hin := h.inside
  rw [Shell.strlen, cStringFrom_eq h (by omega)]
  rfl

theorem copyChars_eq (h : string.Spans ptr text) (hnul : 0 ∉ text) :
    copyChars text.length ptr string = some text := by
  induction text generalizing ptr with
  | nil => rfl
  | cons c text ih =>
    obtain ⟨hc, htext⟩ := CArray.spans_cons.mp h
    obtain ⟨hne, hnul⟩ := not_or.mp (List.mem_cons.not.mp hnul)
    have htext' : string.Spans ↑(ptr + 1) text := by exact_mod_cast htext
    simp [copyChars, hc, Ne.symm hne, ih htext' hnul]

theorem substringAt_eq (h : string.Spans ptr text) (hnul : 0 ∉ text) :
    substringAt string ptr text.length = some text := by
  rw [substringAt, if_neg (Int.not_lt.mpr (Int.natCast_nonneg _)), Int.toNat_natCast]
  exact copyChars_eq h hnul

/-! ### Quoted tokens -/

theorem closingQuoteFrom_eq (h : Points string ptr text) (q : Byte) (escaped : Bool) {fuel : ℕ}
    (hfuel : text.length < fuel) : closingQuoteFrom string q fuel escaped ptr =
      some (ptr + closingQuoteOffset q escaped text) := by
  induction text generalizing ptr escaped fuel with
  | nil =>
    obtain ⟨fuel, rfl⟩ := Nat.exists_eq_succ_of_ne_zero (Nat.ne_zero_of_lt hfuel)
    simp [closingQuoteFrom, points_nil.mp h, closingQuoteOffset]
  | cons c text ih =>
    obtain ⟨fuel, rfl⟩ := Nat.exists_eq_succ_of_ne_zero (Nat.ne_zero_of_lt hfuel)
    obtain ⟨⟨hc, hne⟩, htext⟩ := points_cons.mp h
    have hrest (escaped : Bool) := ih htext escaped (Nat.lt_of_succ_lt_succ hfuel)
    simp only [closingQuoteFrom, closingQuoteOffset, hc, hrest, Option.bind_eq_bind, Option.bind_some,
      Option.pure_def, if_neg hne]
    split_ifs
    · congr 1
      omega
    · rfl
    · congr 1
      omega

theorem closingQuoteOffset_le (q : Byte) (escaped : Bool) (text : CString) :
    closingQuoteOffset q escaped text ≤ text.length := by
  induction text generalizing escaped with
  | nil => exact Nat.le_refl 0
  | cons c text ih =>
    rw [closingQuoteOffset, List.length_cons]
    split_ifs
    · exact Nat.succ_le_succ (ih _)
    · exact Nat.zero_le _
    · exact Nat.succ_le_succ (ih _)

end

/-- The buffer holds what has been written. -/
structure Buffer.Holds (b : Buffer) (w : CString) : Prop where
  ptr : b.ptr = w.length
  spans : b.chars.Spans 0 w

section
variable {b : Buffer} {w : CString}

/-- What a write does inside of the buffer. -/
theorem Buffer.Holds.push (h : b.Holds w) (hsize : w.length < b.chars.size) (c : Byte) :
    ∃ b', b.push c = some b' ∧ b'.Holds (w ++ [c]) ∧ b'.chars.size = b.chars.size ∧
      ∀ j : ℤ, b'.ptr ≤ j → b'.chars.cells j = b.chars.cells j := by
  have hset := CArray.set_eq (a := b.chars) c (Int.natCast_nonneg w.length) hsize
  refine ⟨⟨b.chars.put w.length c, w.length + 1⟩, ?_, ⟨?_, ?_⟩, rfl, fun j hj => ?_⟩
  · rw [Buffer.push, h.ptr, hset]
    rfl
  · rw [List.length_append, List.length_singleton]
  · have hspans := h.spans.put (by omega) (by omega) c
    rwa [Int.zero_add] at hspans
  · have hne : j ≠ w.length := by
      push_cast at hj
      omega
    rw [CArray.cells_put, if_neg hne]

/-- The buffer holds what has been written, and has room for so many characters more. -/
structure Buffer.Takes (b : Buffer) (w : CString) (n : ℕ) : Prop where
  holds : b.Holds w
  room : ((w.length + n : ℕ) : ℤ) ≤ b.chars.size

theorem Buffer.takes_malloc (n : ℕ) : (⟨.malloc (n + 1), 0⟩ : Buffer).Takes [] (n + 1) where
  holds := ⟨rfl, CArray.spans_nil _ _⟩
  room := by
    rw [List.length_nil, Nat.zero_add, CArray.size_malloc]
    exact Int.le_refl _

theorem Buffer.Takes.push {m n : ℕ} (h : b.Takes w n) (hm : m < n) (c : Byte) :
    ∃ b', b.push c = some b' ∧ b'.Takes (w ++ [c]) m := by
  have hroom := h.room
  obtain ⟨b', hpush, hb', hsize, -⟩ := h.holds.push (by omega) c
  refine ⟨b', hpush, hb', ?_⟩
  rw [hsize, List.length_append, List.length_singleton]
  omega

/-- `quoted_token` has room for all that is written to it, and for the NUL. -/
theorem copyQuoted_eq {string : CArray Byte} {ptr : ℕ} {text : CString} (h : string.Spans ptr text)
    (q : Byte) (escaped : Bool) (hb : b.Takes w (text.length + escaped.toNat + 1)) :
    ∃ b', copyQuoted string q text.length escaped ptr b = some b' ∧
      b'.Takes (w ++ unescape q escaped text) 1 := by
  induction text generalizing ptr escaped b w with
  | nil =>
    obtain ⟨hholds, hroom⟩ := hb
    refine ⟨b, rfl, ?_, ?_⟩
    · rwa [unescape, List.append_nil]
    · rw [unescape, List.append_nil]
      omega
  | cons c text ih =>
    obtain ⟨hc, htext⟩ := CArray.spans_cons.mp h
    have htext' : string.Spans ↑(ptr + 1) text := by exact_mod_cast htext
    simp only [List.length_cons, copyQuoted, unescape, hc, Option.bind_eq_bind, Option.bind_some]
    rw [List.length_cons] at hb
    by_cases hback : c = backslash
    · subst hback
      cases escaped with
      | true =>
        obtain ⟨b₁, hpush, hb₁⟩ := hb.push (Nat.lt_succ_of_lt (Nat.lt_succ_self _)) backslash
        have hrest := ih htext' false hb₁
        simpa [hpush] using hrest
      | false =>
        have hrest := ih htext' true hb
        simpa using hrest
    · rw [if_neg hback, if_neg hback]
      by_cases hkept : (escaped && !((c = doubleQuote || c = singleQuote) && c = q)) = true
      · obtain rfl : escaped = true := (Bool.and_eq_true_iff.mp hkept).1
        obtain ⟨b₁, hpush₁, hb₁⟩ := hb.push (Nat.lt_succ_self _) backslash
        obtain ⟨b₂, hpush₂, hb₂⟩ := hb₁.push (Nat.lt_succ_self _) c
        have hrest := ih htext' false hb₂
        rw [if_pos hkept, if_pos hkept]
        simpa [hpush₁, hpush₂] using hrest
      · have hroom : text.length + false.toNat + 1 < text.length + 1 + escaped.toNat + 1 := by
          rw [Bool.toNat_false]
          omega
        obtain ⟨b₁, hpush, hb₁⟩ := hb.push hroom c
        have hrest := ih htext' false hb₁
        rw [if_neg hkept, if_neg hkept]
        simpa [hpush] using hrest

theorem nulFree_unescape {text : CString} (h : 0 ∉ text) (q : Byte) (escaped : Bool) :
    0 ∉ unescape q escaped text := by
  induction text generalizing escaped with
  | nil => exact List.not_mem_nil
  | cons c text ih =>
    obtain ⟨hne, hnul⟩ := not_or.mp (List.mem_cons.not.mp h)
    have hback : (0 : Byte) ≠ backslash := by decide
    rw [unescape]
    split_ifs <;> simp [ih hnul, hne, hback]

theorem Buffer.Holds.cString (h : b.Holds (w ++ [0])) (hnul : 0 ∉ w) : cString b.chars = some w := by
  have hpoints : Points b.chars 0 w := ⟨by exact_mod_cast h.spans, hnul⟩
  have hin := hpoints.inside
  have hfuel : w.length < b.chars.size.toNat := by omega
  exact_mod_cast cStringFrom_eq hpoints hfuel

theorem extractQuotedTokenAt_eq {string : CArray Byte} {ptr : ℕ} {text : CString}
    (h : string.Spans ptr text) (hnul : 0 ∉ text) (q : Byte) :
    extractQuotedTokenAt string ptr (ptr + text.length) q = some (unescape q false text) := by
  obtain ⟨b, hcopy, hb⟩ := copyQuoted_eq h q false (Buffer.takes_malloc text.length)
  rw [List.nil_append] at hb
  obtain ⟨b', hpush, hb'⟩ := hb.push Nat.zero_lt_one 0
  simp only [extractQuotedTokenAt, Nat.add_sub_cancel_left, hcopy, hpush, Option.bind_eq_bind,
    Option.bind_some]
  exact hb'.holds.cString (nulFree_unescape hnul q false)

end

/-! ### What a call finds -/

/-- The same tokens, and a pointer to the same rest of the text, behind its start. -/
structure Found.At (r : Found) (ptr : ℕ) (text : CString) (tokens : Tokens) : Prop where
  list : r.list = tokens.list
  rest : tokens.maybeUnparsedTokensPtr = r.maybeUnparsedTokensPtr.map fun q => text.drop (q - ptr)
  later : ∀ q ∈ r.maybeUnparsedTokensPtr, ptr < q ∧ q ≤ ptr + text.length

section
variable {string : CArray Byte} {ptr : ℕ} {text others : CString} {c : Byte}

theorem extractQuotedLiteralAt_eq (h : Points string ptr (c :: others)) (q : Byte) : ∃ r,
    extractQuotedLiteralAt string ptr q = some r ∧
      r.At ptr (c :: others) (extractQuotedLiteral (c :: others) 0 q) := by
  obtain ⟨-, hothers⟩ := points_cons.mp h
  have hin := hothers.inside
  have hfuel : others.length < string.size.toNat := by omega
  have hclosing := closingQuoteFrom_eq hothers q false hfuel
  have hle := closingQuoteOffset_le q false others
  generalize hn : closingQuoteOffset q false others = n at hclosing hle
  have htoken : extractQuotedTokenAt string (ptr + 1) (ptr + 1 + n) q =
      some (unescape q false (others.take n)) := by
    obtain ⟨hspans, hnul⟩ := hothers.take n
    have heq := extractQuotedTokenAt_eq hspans hnul q
    rwa [List.length_take, Nat.min_eq_left hle] at heq
  simp only [extractQuotedLiteralAt, hclosing, htoken, Option.bind_eq_bind, Option.bind_some]
  rw [extractQuotedLiteral_cons, hn]
  cases hend : others.drop n with
  | nil =>
    have hnul := points_nil.mp (hend ▸ hothers.drop hle)
    simp only [hnul, Option.bind_some, if_true, Option.pure_def]
    exact ⟨_, rfl, rfl, rfl, fun q hq => by simp at hq⟩
  | cons d behind =>
    obtain ⟨⟨hd, hne⟩, -⟩ := points_cons.mp (hend ▸ hothers.drop hle)
    have hlt : n < others.length := by
      have hlen := congrArg List.length hend
      rw [List.length_drop, List.length_cons] at hlen
      omega
    simp only [hd, Option.bind_some, if_neg hne, Option.pure_def]
    refine ⟨_, rfl, rfl, ?_, ?_⟩
    · rw [if_neg (List.cons_ne_nil d behind), Option.map_some,
        show ptr + 1 + n + 1 - ptr = n + 1 + 1 by omega, List.drop_succ_cons]
    · rintro q ⟨⟩
      rw [List.length_cons]
      omega

theorem Found.At.shift {r : Found} {tokens : Tokens} {i : ℕ} (h : r.At (ptr + i) (text.drop i) tokens)
    (hi : i ≤ text.length) : r.At ptr text tokens where
  list := h.list
  rest := by
    rw [h.rest]
    cases hq : r.maybeUnparsedTokensPtr with
    | none => rfl
    | some q =>
      obtain ⟨hlt, -⟩ := h.later q hq
      have hadd : i + (q - (ptr + i)) = q - ptr := by omega
      rw [Option.map_some, Option.map_some, List.drop_drop, hadd]
  later q hq := by
    obtain ⟨hlt, hle⟩ := h.later q hq
    rw [List.length_drop] at hle
    omega

end

/-! ### The loop of `get_one_token` -/

/-- The variables are those of the scan, and nothing has been written behind `new_string_ptr`. -/
structure Cursor.Scans (v : Cursor) (length i : ℕ) (s : Scan) : Prop where
  old : v.oldStringPtr = i
  start : v.nonClassifiedTokenStart = s.nonClassifiedTokenStart
  escaped : v.charIsEscaped = s.charIsEscaped
  holds : v.newString.Holds s.newString
  size : v.newString.chars.size = length + 1
  untouched : ∀ j : ℤ, v.newString.ptr ≤ j →
    v.newString.chars.cells j = (Cursor.start length).newString.chars.cells j

namespace Cursor

variable {v : Cursor} {length i : ℕ} {s : Scan}

theorem scans_start (length : ℕ) : (start length).Scans length 0 .start :=
  ⟨rfl, rfl, rfl, ⟨rfl, CArray.spans_nil _ _⟩, rfl, fun _ _ => rfl⟩

theorem Scans.prepend (h : v.Scans length i s) {read : CString} (hread : Passed read s)
    (hnul : 0 ∉ read) (tokens : List CString) : v.prepend tokens = some (s.prepend tokens) := by
  rw [Cursor.prepend, h.start, Scan.prepend]
  cases hs : s.nonClassifiedTokenStart with
  | none => rfl
  | some start =>
    have hle := hread.bounds.2 start hs
    have hspans := h.holds.spans.drop start
    rw [Int.zero_add] at hspans
    have hcount : (v.newString.ptr : ℤ) - start = ((s.newString.drop start).length : ℕ) := by
      rw [h.holds.ptr, List.length_drop]
      omega
    have htoken := substringAt_eq hspans fun hmem => hnul (hread.mem (List.mem_of_mem_drop hmem))
    simp only [hcount, htoken, substring, List.take_of_length_le (Nat.le_of_eq List.length_drop),
      Option.bind_eq_bind, Option.bind_some, Option.pure_def]

theorem Scans.begin (h : v.Scans length i s) : v.begin.Scans length i (s.begin i) :=
  ⟨h.old, by rw [Cursor.begin, Scan.begin, h.start, h.old], h.escaped, h.holds, h.size, h.untouched⟩

theorem Scans.write (h : v.Scans length i s) (hroom : s.newString.length ≤ length) (c : Byte) :
    ∃ v', v.write c = some v' ∧ v'.Scans length (i + 1) (s.write c) := by
  have hsize : (s.newString.length : ℤ) < v.newString.chars.size := by
    rw [h.size]
    omega
  obtain ⟨b, hpush, hb, hbsize, hsame⟩ := h.holds.push hsize c
  have hold : v.oldStringPtr + 1 = i + 1 := by rw [h.old]
  have hptr : b.ptr = v.newString.ptr + 1 := by
    rw [hb.ptr, h.holds.ptr, List.length_append, List.length_singleton]
  have huntouched (j : ℤ) (hj : (b.ptr : ℤ) ≤ j) :
      b.chars.cells j = (Cursor.start length).newString.chars.cells j := by
    rw [hsame j hj]
    exact h.untouched j (by omega)
  rw [Cursor.write, Scan.write, h.escaped]
  split_ifs
  · rw [hpush]
    exact ⟨_, rfl, hold, h.start, rfl, hb, hbsize.trans h.size, huntouched⟩
  · exact ⟨_, rfl, hold, h.start, rfl, h.holds, h.size, h.untouched⟩
  · rw [hpush]
    exact ⟨_, rfl, hold, h.start, rfl, hb, hbsize.trans h.size, huntouched⟩

theorem Scans.again (h : v.Scans length i s) (hroom : s.newString.length ≤ length) (c : Byte) :
    ∃ v', ((v.write c).bind fun v' => some (Ctl.again (v', (none : Option Found)))) =
      some (.again (v', none)) ∧ v'.Scans length (i + 1) (s.write c) := by
  obtain ⟨v', hwrite, hv'⟩ := h.write hroom c
  exact ⟨v', by rw [hwrite, Option.bind_some], hv'⟩

end Cursor

section
variable {string : CArray Byte} {ptr length i : ℕ} {text others : CString} {c : Byte} {v : Cursor}
  {s s' : Scan}

theorem getOneTokenStep_pass (hv : v.Scans length i s) (hroom : s.newString.length ≤ length)
    (hget : string.get ↑(ptr + i) = some c) (h0 : c ≠ 0) (hpass : s.pass i c = some s')
    (o : Option Found) : ∃ v', getOneTokenStep string ptr (v, o) = some (.again (v', none)) ∧
      v'.Scans length (i + 1) s' := by
  rw [Scan.pass] at hpass
  simp only [getOneTokenStep, hv.old, hv.start, hv.escaped, hget, Option.bind_eq_bind,
    Option.bind_some, if_neg h0, Option.pure_def]
  split_ifs at hpass ⊢
  · obtain rfl := Option.some.inj hpass
    exact hv.again hroom c
  · obtain rfl := Option.some.inj hpass
    exact hv.again hroom c
  · obtain rfl := Option.some.inj hpass
    exact hv.begin.again hroom c

/-- The second character of an operator, which may be the NUL behind the string. -/
theorem exists_next (h : Points string ptr (c :: others)) :
    ∃ next, string.get ↑(ptr + 1) = some next ∧ (next = c ↔ others.head? = some c) := by
  obtain ⟨⟨-, hne⟩, hothers⟩ := points_cons.mp h
  cases others with
  | nil => exact ⟨0, points_nil.mp hothers, iff_of_false hne.symm (by simp)⟩
  | cons d others => exact ⟨d, (points_cons.mp hothers).1.1, by simp⟩

theorem substringAt_prefix (h : Points string ptr text) {n : ℕ} (hn : n ≤ text.length) :
    substringAt string ptr n = some (substring text n) := by
  obtain ⟨hspans, hnul⟩ := h.take n
  have heq := substringAt_eq hspans hnul
  rwa [List.length_take, Nat.min_eq_left hn] at heq

/-- An operator has one or two characters of the string. -/
theorem operator_inside (c : Byte) (others : CString) :
    0 < (if others.head? = some c then 2 else 1) ∧
      (if others.head? = some c then 2 else 1) ≤ (c :: others).length := by
  cases others with
  | nil => simp
  | cons d others => split_ifs <;> simp

theorem getOneTokenStep_stop (h : Points string (ptr + i) (c :: others)) (hv : v.Scans length i s)
    (hprepend : ∀ tokens, v.prepend tokens = some (s.prepend tokens)) (hpass : s.pass i c = none)
    (o : Option Found) : ∃ r, getOneTokenStep string ptr (v, o) = some (.done (v, some r)) ∧
      r.At (ptr + i) (c :: others) (getOneTokenFrom i s (c :: others)) := by
  obtain ⟨⟨hget, h0⟩, -⟩ := points_cons.mp h
  obtain ⟨next, hnext, hiff⟩ := exists_next h
  have hsize : (if next = c then 2 else 1 : ℕ) = if others.head? = some c then 2 else 1 :=
    if_congr hiff rfl rfl
  obtain ⟨hpos, hle⟩ := operator_inside c others
  have htoken := substringAt_prefix h hle
  rw [Scan.pass] at hpass
  rw [getOneTokenFrom]
  simp only [getOneTokenStep, hv.old, hv.start, hv.escaped, hget, hnext, hsize, htoken, hprepend,
    Option.bind_eq_bind, Option.bind_some, if_neg h0, Option.pure_def]
  generalize (if others.head? = some c then 2 else 1) = n at hpos hle
  split_ifs at hpass ⊢ with hescaped hblank hstart hquote hop
  · refine ⟨_, rfl, rfl, ?_, ?_⟩
    · rw [Option.map_some, Nat.add_sub_cancel_left, List.drop_one, List.tail_cons]
    · rintro q ⟨⟩
      rw [List.length_cons]
      omega
  · obtain ⟨r, hr, hat⟩ := extractQuotedLiteralAt_eq h c
    rw [hr, Option.bind_some]
    exact ⟨_, rfl, congrArg s.prepend hat.list, hat.rest, hat.later⟩
  · refine ⟨_, rfl, rfl, ?_, ?_⟩
    · rw [Option.map_some, Nat.add_sub_cancel_left]
    · rintro q ⟨⟩
      omega

end

/-- The loop of a call has read a part of its string. -/
structure Running (string : CArray Byte) (ptr : ℕ) (text read left : CString) (s : Scan)
    (v : Cursor) : Prop where
  points : Points string ptr text
  parts : text = read ++ left
  passed : Passed read s
  scans : v.Scans text.length read.length s

namespace Running

variable {string : CArray Byte} {ptr : ℕ} {text read left : CString} {c : Byte} {s s' : Scan}
  {v : Cursor}

theorem start (h : Points string ptr text) :
    Running string ptr text [] text .start (.start text.length) where
  points := h
  parts := rfl
  passed := .gap fun _ hc => absurd hc List.not_mem_nil
  scans := Cursor.scans_start text.length

theorem length_le (h : Running string ptr text read left s v) : read.length ≤ text.length := by
  rw [h.parts, List.length_append]
  exact Nat.le_add_right _ _

theorem rest (h : Running string ptr text read left s v) :
    Points string (ptr + read.length) left := by
  have hdrop := h.points.drop h.length_le
  rwa [h.parts, List.drop_left] at hdrop

theorem prepend (h : Running string ptr text read left s v) (tokens : List CString) :
    v.prepend tokens = some (s.prepend tokens) :=
  have hnul : 0 ∉ read := fun hmem => h.points.nulFree (h.parts ▸ List.mem_append_left left hmem)
  h.scans.prepend h.passed hnul tokens

theorem pass (h : Running string ptr text read (c :: left) s v)
    (hpass : s.pass read.length c = some s') (o : Option Found) : ∃ v',
      getOneTokenStep string ptr (v, o) = some (.again (v', none)) ∧
        Running string ptr text (read ++ [c]) left s' v' := by
  obtain ⟨⟨hget, h0⟩, -⟩ := points_cons.mp h.rest
  have hroom := h.passed.bounds.1.trans h.length_le
  obtain ⟨v', hstep, hv'⟩ := getOneTokenStep_pass h.scans hroom hget h0 hpass o
  refine ⟨v', hstep, h.points, ?_, h.passed.pass hpass, ?_⟩
  · rw [h.parts, List.append_assoc, List.singleton_append]
  · rwa [List.length_append, List.length_singleton]

theorem stop (h : Running string ptr text read (c :: left) s v) (hpass : s.pass read.length c = none)
    (o : Option Found) : ∃ r, getOneTokenStep string ptr (v, o) = some (.done (v, some r)) ∧
      r.At ptr text (getOneTokenFrom read.length s (c :: left)) := by
  obtain ⟨r, hstep, hfound⟩ := getOneTokenStep_stop h.rest h.scans h.prepend hpass o
  have hleft : text.drop read.length = c :: left := by rw [h.parts, List.drop_left]
  exact ⟨r, hstep, Found.At.shift (by rwa [hleft]) h.length_le⟩

theorem last (h : Running string ptr text read [] s v) (o : Option Found) : ∃ r,
    getOneTokenStep string ptr (v, o) = some (.done (v, some r)) ∧
      r.At ptr text (getOneTokenFrom read.length s []) := by
  refine ⟨⟨s.prepend [], none⟩, ?_, rfl, rfl, fun q hq => by simp at hq⟩
  simp only [getOneTokenStep, h.scans.old, points_nil.mp h.rest, h.prepend, Option.bind_eq_bind,
    Option.bind_some, if_true, Option.pure_def]

/-- The loop ends, and what it returns is what the scan of the string finds. -/
theorem iterate (h : Running string ptr text read left s v) (o : Option Found) : ∃ v' r,
    (∀ n, left.length < n →
      SystemsProgramming.iterate (getOneTokenStep string ptr) n (v, o) = some (v', some r)) ∧
      r.At ptr text (getOneTokenFrom read.length s left) := by
  induction left generalizing read s v o with
  | nil =>
    obtain ⟨r, hstep, hfound⟩ := h.last o
    exact ⟨v, r, fun n hn => iterate_of_done hstep hn, hfound⟩
  | cons c left ih =>
    cases hpass : s.pass read.length c with
    | some s' =>
      obtain ⟨v₁, hstep, hv₁⟩ := h.pass hpass o
      obtain ⟨v', r, hloop, hfound⟩ := ih hv₁ none
      refine ⟨v', r, iterate_of_again hstep hloop, ?_⟩
      rwa [List.length_append, List.length_singleton, ← getOneTokenFrom_pass hpass] at hfound
    | none =>
      obtain ⟨r, hstep, hfound⟩ := h.stop hpass o
      exact ⟨v, r, fun n hn => iterate_of_done hstep (Nat.zero_lt_of_lt hn), hfound⟩

end Running

section
variable {string : CArray Byte} {ptr : ℕ} {text : CString}

/-- `get_one_token` finds in the array what it finds in the string. -/
theorem getOneTokenAt_eq (h : Points string ptr text) :
    ∃ r, getOneTokenAt string ptr = some r ∧ r.At ptr text (getOneToken text) := by
  obtain ⟨v, r, hloop, hfound⟩ := (Running.start h).iterate none
  refine ⟨r, ?_, hfound⟩
  simp only [getOneTokenAt, h.strlen, hloop _ (Nat.lt_succ_self _), Option.bind_eq_bind,
    Option.bind_some]

/-- The calls of `get_tokens`, one after the other. -/
theorem iterate_getTokensAtStep (h : Points string ptr text) : ∃ tokens, Tokenizes text tokens ∧
    ∀ before n, text.length + 1 < n →
      iterate (getTokensAtStep string) n (before, some ptr) = some (before ++ tokens, none) := by
  generalize hlen : text.length = length
  induction length using Nat.strongRecOn generalizing ptr text with
  | ind length ih =>
    obtain ⟨r, hr, hfound⟩ := getOneTokenAt_eq h
    have hstep (before : List CString) : getTokensAtStep string (before, some ptr) =
        some (.again (before ++ (getOneToken text).list, r.maybeUnparsedTokensPtr)) := by
      simp only [getTokensAtStep, hr, hfound.list, Option.bind_eq_bind, Option.bind_some,
        Option.pure_def]
    have hline : getOneToken text = ⟨(getOneToken text).list,
        r.maybeUnparsedTokensPtr.map fun q => text.drop (q - ptr)⟩ := by rw [← hfound.rest]
    cases hq : r.maybeUnparsedTokensPtr with
    | none =>
      rw [hq] at hstep hline
      refine ⟨_, .last hline, fun before n hn => ?_⟩
      exact iterate_of_again (hstep before) (fun n hn => iterate_of_done rfl hn) n (by omega)
    | some q =>
      obtain ⟨hlt, hle⟩ := hfound.later q hq
      rw [hq] at hstep hline
      have hrest : Points string q (text.drop (q - ptr)) := by
        have hdrop := h.drop (n := q - ptr) (by omega)
        rwa [Nat.add_sub_cancel' (Nat.le_of_lt hlt)] at hdrop
      have hshort : (text.drop (q - ptr)).length < length := by
        rw [List.length_drop]
        omega
      obtain ⟨tokens, htokens, hloop⟩ := ih _ hshort hrest rfl
      refine ⟨_, .more hline htokens, fun before n hn => ?_⟩
      rw [← List.append_assoc]
      exact iterate_of_again (hstep before) (hloop _) n (by omega)

/-- `get_tokens` finds in the array the tokens of the string. -/
theorem getTokensAt_eq (h : Points string ptr text) : getTokensAt string ptr = getTokens text := by
  obtain ⟨tokens, htokens, hloop⟩ := iterate_getTokensAtStep h
  rw [getTokens_of_tokenizes htokens]
  simp only [getTokensAt, h.strlen, hloop [] _ (Nat.lt_succ_self _), Option.bind_eq_bind,
    Option.bind_some, Option.pure_def, List.nil_append]

end

/-! ### All calls -/

/-- The loop of a call gets to these variables. -/
inductive Reaches (string : CArray Byte) (ptr length : ℕ) : Cursor → Prop
  | start : Reaches string ptr length (.start length)
  | again {v v' : Cursor} {o : Option Found} : Reaches string ptr length v →
      getOneTokenStep string ptr (v, none) = some (.again (v', o)) → Reaches string ptr length v'

/-- `get_tokens` calls `get_one_token` with this pointer. -/
inductive Calls (string : CArray Byte) (ptr : ℕ) : ℕ → Prop
  | first : Calls string ptr ptr
  | next {q q' : ℕ} {r : Found} : Calls string ptr q → getOneTokenAt string q = some r →
      r.maybeUnparsedTokensPtr = some q' → Calls string ptr q'

/-- What `get_one_token` does with the string at a pointer. -/
structure Extracts (string : CArray Byte) (ptr : ℕ) (text : CString) (r : Found) : Prop where
  word : ∃ gap slice rest, PlainWord text gap slice rest ∧
    r.list = wordTokens slice ++ terminatorTokens rest
  start : ∀ v, Reaches string ptr text.length v → ∀ start ∈ v.nonClassifiedTokenStart,
    Whitespace (text.take start) ∧ v.newString.chars.Spans 0 (text.take start)
  buffer : ∀ v, Reaches string ptr text.length v → v.newString.ptr ≤ text.length ∧
    ∀ j : ℤ, text.length ≤ j →
      v.newString.chars.cells j = (Cursor.start text.length).newString.chars.cells j
  later : ∀ q ∈ r.maybeUnparsedTokensPtr, ptr < q ∧ q ≤ ptr + text.length

section
variable {string : CArray Byte} {ptr q : ℕ} {text : CString} {v : Cursor}

theorem Reaches.running (h : Points string ptr text) (hv : Reaches string ptr text.length v) :
    ∃ read left s, Running string ptr text read left s v := by
  induction hv with
  | start => exact ⟨[], text, .start, .start h⟩
  | again _ hstep ih =>
    obtain ⟨read, left, s, hrun⟩ := ih
    cases left with
    | nil =>
      obtain ⟨r, hlast, -⟩ := hrun.last none
      rw [hlast] at hstep
      cases hstep
    | cons c left =>
      cases hpass : s.pass read.length c with
      | some s' =>
        obtain ⟨v₁, hagain, hrun'⟩ := hrun.pass hpass none
        rw [hagain] at hstep
        cases hstep
        exact ⟨read ++ [c], left, s', hrun'⟩
      | none =>
        obtain ⟨r, hstop, -⟩ := hrun.stop hpass none
        rw [hstop] at hstep
        cases hstep

theorem Running.bounds {read left : CString} {s : Scan} (h : Running string ptr text read left s v) :
    v.newString.ptr ≤ text.length := by
  rw [h.scans.holds.ptr]
  exact h.passed.bounds.1.trans h.length_le

/-- What is in front of a word is whitespace, and copied as it is. -/
theorem Running.before {read left : CString} {s : Scan} (h : Running string ptr text read left s v)
    {start : ℕ} (hstart : start ∈ v.nonClassifiedTokenStart) :
    Whitespace (text.take start) ∧ v.newString.chars.Spans 0 (text.take start) := by
  rw [h.scans.start] at hstart
  have hspans := h.scans.holds.spans
  rw [h.parts]
  cases h.passed with
  | gap hgap => cases hstart
  | @word gap slice hgap _ _ _ =>
    obtain rfl := Option.mem_some.mp hstart
    rw [List.append_assoc, List.take_left]
    exact ⟨hgap, hspans.of_prefix (List.prefix_append ..)⟩

theorem getOneTokenAt_extracts (h : Points string ptr text) :
    ∃ r, getOneTokenAt string ptr = some r ∧ Extracts string ptr text r := by
  obtain ⟨r, hr, hfound⟩ := getOneTokenAt_eq h
  obtain ⟨gap, slice, rest, hword, hlist⟩ := (Running.start h).passed.plainWord text
  refine ⟨r, hr, ⟨gap, slice, rest, hword, hfound.list.trans hlist⟩, fun v hv start hstart => ?_,
    fun v hv => ?_, hfound.later⟩
  · obtain ⟨read, left, s, hrun⟩ := hv.running h
    exact hrun.before hstart
  · obtain ⟨read, left, s, hrun⟩ := hv.running h
    have hle := hrun.bounds
    exact ⟨hle, fun j hj => hrun.scans.untouched j (by omega)⟩

theorem Calls.points (h : Points string ptr text) (hq : Calls string ptr q) :
    ptr ≤ q ∧ q ≤ ptr + text.length ∧ Points string q (text.drop (q - ptr)) := by
  induction hq with
  | first => exact ⟨Nat.le_refl _, Nat.le_add_right _ _, by rwa [Nat.sub_self, List.drop_zero]⟩
  | @next q q' r _ hr hq' ih =>
    obtain ⟨hptr, hle, hpoints⟩ := ih
    obtain ⟨r', hr', hfound⟩ := getOneTokenAt_eq hpoints
    obtain rfl := Option.some.inj (hr.symm.trans hr')
    obtain ⟨hlt, hle'⟩ := hfound.later q' hq'
    rw [List.length_drop] at hle'
    have hdrop := h.drop (n := q' - ptr) (by omega)
    rw [Nat.add_sub_cancel' (by omega)] at hdrop
    exact ⟨by omega, by omega, hdrop⟩

/-- Every call of `get_one_token` finds the word that its string starts with, stays inside of its
buffer, and moves on; so `get_tokens` comes to an end. -/
theorem getTokensAt_extracts {string : CArray Byte} {ptr : ℕ} {text : CString}
    (h : Points string ptr text) : (∃ tokens, getTokensAt string ptr = some tokens) ∧
      ∀ q, Calls string ptr q → ∃ r, getOneTokenAt string q = some r ∧
        Extracts string q (text.drop (q - ptr)) r := by
  refine ⟨?_, fun q hq => getOneTokenAt_extracts (hq.points h).2.2⟩
  obtain ⟨tokens, htokens⟩ := exists_tokenizes text
  exact ⟨tokens, (getTokensAt_eq h).trans (getTokens_of_tokenizes htokens)⟩

end

/-- A string in an array of its own. -/
def literal (text : CString) : CArray Byte := .ofList (text ++ [0])

theorem points_literal {text : CString} (h : 0 ∉ text) : Points (literal text) 0 text :=
  ⟨CArray.spans_ofList _, h⟩

/-- A word that starts with a backslash and has a space in it, up to an operator. -/
def escapedWord : CString :=
  [space, backslash, byte 'a', backslash, space, byte 'b', byte '>', byte 'c']

theorem getTokensAt_extracts_escapedWord : ∃ r, getOneTokenAt (literal escapedWord) 0 = some r ∧
    Extracts (literal escapedWord) 0 escapedWord r ∧
      r = ⟨[[byte 'a', space, byte 'b'], [byte '>']], some 7⟩ := by
  obtain ⟨-, hcalls⟩ := getTokensAt_extracts (points_literal (show 0 ∉ escapedWord by decide))
  obtain ⟨r, hr, hextracts⟩ := hcalls 0 .first
  have heval : getOneTokenAt (literal escapedWord) 0 =
      some ⟨[[byte 'a', space, byte 'b'], [byte '>']], some 7⟩ := by decide
  exact ⟨r, hr, hextracts, Option.some.inj (hr.symm.trans heval)⟩

end SystemsProgramming.Shell

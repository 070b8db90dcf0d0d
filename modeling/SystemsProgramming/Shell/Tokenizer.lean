import SystemsProgramming.Shell.Model

/-! The tokenizer of the shell (`2/tokenizer.c`). A pointer into a string is the part of the string
from there on, and a list of tokens is a list. `malloc` succeeds, and indices do not overflow. -/

namespace SystemsProgramming.Shell

def tab : Byte := 9
def newline : Byte := 10
def space : Byte := 32
def doubleQuote : Byte := 34
def singleQuote : Byte := 39
def backslash : Byte := 92

/-- `substring` -/
def substring (string : CString) (charCount : ℕ) : CString := string.take charCount

/-- How far `get_closing_quote_index` moves. -/
def closingQuoteOffset (usedQuoteSymbol : Byte) : Bool → CString → ℕ
  | _, [] => 0
  | nextCharIsEscaped, c :: rest =>
    if c = backslash then closingQuoteOffset usedQuoteSymbol (!nextCharIsEscaped) rest + 1
    else if !nextCharIsEscaped && c = usedQuoteSymbol then 0
    else closingQuoteOffset usedQuoteSymbol false rest + 1

def getClosingQuoteIndex (string : CString) (quotationInsideStartInclusive : ℕ)
    (usedQuoteSymbol : Byte) : ℕ :=
  quotationInsideStartInclusive +
    closingQuoteOffset usedQuoteSymbol false (string.drop quotationInsideStartInclusive)

/-- The loop of `extract_quoted_token`. -/
def unescape (quoteSymbol : Byte) : Bool → CString → CString
  | _, [] => []
  | nextCharIsEscaped, c :: rest =>
    if c = backslash then
      if nextCharIsEscaped then backslash :: unescape quoteSymbol false rest
      else unescape quoteSymbol true rest
    else if nextCharIsEscaped && !((c = doubleQuote || c = singleQuote) && c = quoteSymbol) then
      backslash :: c :: unescape quoteSymbol false rest
    else c :: unescape quoteSymbol false rest

def extractQuotedToken (string : CString) (quotationInsideStartInclusive
    quotationInsideEndExclusive : ℕ) (quoteSymbol : Byte) : CString :=
  unescape quoteSymbol false ((string.drop quotationInsideStartInclusive).take
    (quotationInsideEndExclusive - quotationInsideStartInclusive))

/-- The tokens found, and where to look for more, or `NULL`. -/
structure Tokens where
  list : List CString
  maybeUnparsedTokensPtr : Option CString

def extractQuotedLiteral (string : CString) (openingQuoteIndex : ℕ) (quoteSymbol : Byte) : Tokens :=
  let firstCharIndex := openingQuoteIndex + 1
  let closingQuoteIndex := getClosingQuoteIndex string firstCharIndex quoteSymbol
  { list := [extractQuotedToken string firstCharIndex closingQuoteIndex quoteSymbol]
    maybeUnparsedTokensPtr := if string.drop closingQuoteIndex = [] then none
      else some (string.drop (closingQuoteIndex + 1)) }

/-- The variables of `get_one_token`; `newString` is what has been written of it. -/
structure Scan where
  newString : CString
  nonClassifiedTokenStart : Option ℕ
  charIsEscaped : Bool

namespace Scan

/-- `prepend_unclassified_token_if_needed` -/
def prepend (s : Scan) (followingTokens : List CString) : List CString :=
  match s.nonClassifiedTokenStart with
  | none => followingTokens
  | some start =>
    substring (s.newString.drop start) (s.newString.length - start) :: followingTokens

/-- The part of the loop's body after the `switch`. -/
def write (c : Byte) (s : Scan) : Scan :=
  if c = backslash then
    if s.charIsEscaped then { s with newString := s.newString ++ [c], charIsEscaped := false }
    else { s with charIsEscaped := true }
  else { s with newString := s.newString ++ [c], charIsEscaped := false }

/-- The default case of the `switch`. -/
def begin (oldStringPtr : ℕ) (s : Scan) : Scan :=
  { s with nonClassifiedTokenStart := some (s.nonClassifiedTokenStart.getD oldStringPtr) }

end Scan

/-- The loop of `get_one_token`, on what is left of the string. -/
def getOneTokenFrom : ℕ → Scan → CString → Tokens
  | _, s, [] => ⟨s.prepend [], none⟩
  | oldStringPtr, s, c :: rest =>
    if s.charIsEscaped then getOneTokenFrom (oldStringPtr + 1) (s.write c) rest
    else if c = tab || c = space || c = newline then
      if s.nonClassifiedTokenStart.isSome then ⟨s.prepend [], some rest⟩
      else getOneTokenFrom (oldStringPtr + 1) (s.write c) rest
    else if c = singleQuote || c = doubleQuote then
      let ans := extractQuotedLiteral (c :: rest) 0 c
      ⟨s.prepend ans.list, ans.maybeUnparsedTokensPtr⟩
    else if c = byte '>' || c = byte '&' || c = byte '|' then
      let classifiedTokenSize := if rest.head? = some c then 2 else 1
      ⟨s.prepend [substring (c :: rest) classifiedTokenSize],
        some ((c :: rest).drop classifiedTokenSize)⟩
    else getOneTokenFrom (oldStringPtr + 1) ((s.begin oldStringPtr).write c) rest

def getOneToken (string : CString) : Tokens := getOneTokenFrom 0 ⟨[], none, false⟩ string

/-- The loop of `get_tokens`: the tokens so far, and `current_string_ptr`. -/
def getTokensStep : List CString × Option CString → Option (Ctl (List CString × Option CString))
  | (tokens, none) => some (.done (tokens, none))
  | (tokens, some currentStringPtr) =>
    let oneTokenInfo := getOneToken currentStringPtr
    some (.again (tokens ++ oneTokenInfo.list, oneTokenInfo.maybeUnparsedTokensPtr))

/-- Each call of `get_one_token` moves on in the string, so this fuel suffices. -/
def getTokens (string : CString) : Option (List CString) :=
  (iterate getTokensStep (string.length + 2) ([], some string)).map Prod.fst

end SystemsProgramming.Shell

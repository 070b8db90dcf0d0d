import SystemsProgramming.Shell.Tokenizer
import SystemsProgramming.Foundation.CArray

/-! How the shell reads a line (`read_stdin_line` in `2/utils.c`), with the buffer that grows. The
quotes and backslashes that it counts on the way are those of the finished line: `lexStep` reads
them off a line, and a line that is returned at its newline is read to the end by it. -/

namespace SystemsProgramming.Shell

/-- `(char) EOF`, which a byte of the stream may be as well. -/
def eof : Byte := 255

def noQuotesUsed : Byte := byte 'a'

/-- The stream that is left. Behind its end `getchar` returns `EOF`, however often. -/
def getchar : List Byte → Byte × List Byte
  | [] => (eof, [])
  | ch :: stream => (ch, stream)

/-- The loop of `strcpy`, from an index on. -/
def strcpyFrom : ℕ → ℤ → CArray Byte → CArray Byte → Option (CArray Byte)
  | 0, _, _, _ => none
  | fuel + 1, i, dest, src => do
    let c ← src.get i
    let dest ← dest.set i c
    if c = 0 then return dest else strcpyFrom fuel (i + 1) dest src

/-- The size of the source bounds the number of its characters. -/
def strcpy (dest src : CArray Byte) : Option (CArray Byte) := strcpyFrom src.size.toNat 0 dest src

/-- The characters from an index up to a NUL. -/
def cStringFrom : ℕ → ℤ → CArray Byte → Option CString
  | 0, _, _ => none
  | fuel + 1, i, str => do
    let c ← str.get i
    if c = 0 then return [] else return c :: (← cStringFrom fuel (i + 1) str)

/-- The string that a pointer to an array stands for. -/
def cString (str : CArray Byte) : Option CString := cStringFrom str.size.toNat 0 str

/-- The variables of `read_stdin_line`. -/
structure Reader where
  nextCharEscaping : Bool
  endedWithEof : Bool
  usedQuoteSymbol : Byte
  strSize : ℤ
  strPtr : ℤ
  str : CArray Byte
  stream : List Byte

/-- `INT_MAX` -/
def intMax : ℤ := 2147483647

namespace Reader

/-- A buffer that is full is replaced by one ten times as large. Its size is an `int`. -/
def grow (r : Reader) : Option Reader :=
  if r.strPtr = r.strSize then
    if r.strSize * 10 ≤ intMax then do
      let newStr ← strcpy (.malloc (1 + r.strSize * 10)) r.str
      return { r with strSize := r.strSize * 10, str := newStr }
    else none
  else some r

/-- The flags after a character that is kept. -/
def classify (ch : Byte) (r : Reader) : Reader :=
  if ch = backslash then { r with nextCharEscaping := !r.nextCharEscaping }
  else if ch = newline then r
  else if ch = singleQuote ∨ ch = doubleQuote then
    if r.nextCharEscaping then { r with nextCharEscaping := false }
    else if r.usedQuoteSymbol = ch then { r with usedQuoteSymbol := noQuotesUsed }
    else if r.usedQuoteSymbol = noQuotesUsed then { r with usedQuoteSymbol := ch }
    else r
  else { r with nextCharEscaping := false }

def append (ch : Byte) (r : Reader) : Option Reader := do
  let str ← r.str.set r.strPtr ch
  let str ← str.set (r.strPtr + 1) 0
  return { r with strPtr := r.strPtr + 1, str := str }

/-- The backslash before a newline is taken back. -/
def unescape (r : Reader) : Option Reader := do
  let str ← r.str.set (r.strPtr - 1) 0
  return { r with strPtr := r.strPtr - 1, str := str, nextCharEscaping := false }

/-- The loop of `read_stdin_line`. -/
def step (r : Reader) : Option (Ctl Reader) :=
  let (ch, stream) := getchar r.stream
  let r := { r with stream := stream }
  if ch = newline ∧ r.nextCharEscaping = false ∧ r.usedQuoteSymbol = noQuotesUsed then some (.done r)
  else if ch = eof then some (.done { r with endedWithEof := true })
  else do
    let r ← r.grow
    if ch = newline ∧ r.nextCharEscaping = true then return .again (← r.unescape)
    else return .again (← (r.classify ch).append ch)

end Reader

structure ReaderOutput where
  endedWithEof : Bool
  line : CString
  deriving DecidableEq

/-- Each turn of the loop takes a character, so this fuel suffices. The result comes with the stream
that is left. -/
def readStdinLine (stream : List Byte) : Option (ReaderOutput × List Byte) := do
  let str ← (CArray.malloc 2).set 0 0
  let r ← iterate Reader.step (stream.length + 1)
    { nextCharEscaping := false, endedWithEof := false, usedQuoteSymbol := noQuotesUsed, strSize := 1
      strPtr := 0, str := str, stream := stream }
  return (⟨r.endedWithEof, ← cString r.str⟩, r.stream)

/-! ### Strings in arrays -/

/-- The array holds the string and a NUL. -/
def Stored (a : CArray Byte) (line : CString) : Prop :=
  ∀ i : ℕ, i ≤ line.length → a.cells i = (line ++ [0])[i]?

section
variable {a b src dest : CArray Byte} {line : CString}

theorem cells_of_get {i : ℤ} {c : Byte} (h : a.get i = some c) : a.cells i = some c := by
  rw [CArray.get] at h
  split_ifs at h
  exact h

theorem Stored.char (h : Stored a line) {i : ℕ} {c : Byte} (hc : (line)[i]? = some c) :
    a.cells i = some c := by
  have hi := (List.getElem?_eq_some_iff.mp hc).1
  rw [h i (Nat.le_of_lt hi), List.getElem?_append_left hi, hc]

theorem Stored.nul (h : Stored a line) : a.cells line.length = some 0 := by
  rw [h _ (Nat.le_refl _), List.getElem?_append_right (Nat.le_refl _), Nat.sub_self]
  rfl

/-- A character that is read is the NUL behind the string, or one of the string. -/
theorem Stored.get (h : Stored a line) (hnul : 0 ∉ line) {i : ℕ} (hi : i ≤ line.length) {c : Byte}
    (hc : a.get i = some c) : (c = 0 ↔ i = line.length) ∧ (c ≠ 0 → (line)[i]? = some c) := by
  have hcell := cells_of_get hc
  rcases Nat.lt_or_eq_of_le hi with hlt | rfl
  · have hchar := List.getElem?_eq_getElem hlt
    obtain rfl := Option.some.inj (hcell.symm.trans (h.char hchar))
    have hne : (line)[i] ≠ 0 := fun h0 => hnul (h0 ▸ List.getElem_mem hlt)
    exact ⟨iff_of_false hne (Nat.ne_of_lt hlt), fun _ => hchar⟩
  · obtain rfl := Option.some.inj (hcell.symm.trans h.nul)
    exact ⟨iff_of_true rfl rfl, fun hne => absurd rfl hne⟩

theorem strcpyFrom_stored (h : Stored src line) (hnul : 0 ∉ line) {fuel i : ℕ}
    (hi : i ≤ line.length) (hdest : ∀ j < i, dest.cells j = src.cells j)
    (hcpy : strcpyFrom fuel i dest src = some b) : Stored b line ∧ b.size = dest.size := by
  induction fuel generalizing i dest with
  | zero => cases hcpy
  | succ fuel ih =>
    simp only [strcpyFrom, Option.bind_eq_bind, Option.pure_def] at hcpy
    obtain ⟨c, hc, hcpy⟩ := Option.bind_eq_some_iff.mp hcpy
    obtain ⟨dest', hset, hcpy⟩ := Option.bind_eq_some_iff.mp hcpy
    obtain rfl := CArray.eq_put_of_set hset
    have hcopied : ∀ j < i + 1, (dest.put i c).cells (j : ℕ) = src.cells (j : ℕ) := by
      intro j hj
      rw [CArray.cells_put]
      split_ifs with hij
      · rw [hij, cells_of_get hc]
      · exact hdest j (by omega)
    obtain ⟨hend, hnext⟩ := h.get hnul hi hc
    split_ifs at hcpy with h0
    · obtain rfl := Option.some.inj hcpy
      obtain rfl := hend.mp h0
      exact ⟨fun j hj => by rw [hcopied j (by omega), h j hj], rfl⟩
    · have hlt := (List.getElem?_eq_some_iff.mp (hnext h0)).1
      have hb := ih (i := i + 1) hlt hcopied (by exact_mod_cast hcpy)
      exact hb

theorem cStringFrom_stored (h : Stored a line) (hnul : 0 ∉ line) {fuel i : ℕ}
    (hi : i ≤ line.length) {s : CString} (hs : cStringFrom fuel i a = some s) : s = line.drop i := by
  induction fuel generalizing i s with
  | zero => cases hs
  | succ fuel ih =>
    simp only [cStringFrom, Option.bind_eq_bind, Option.pure_def] at hs
    obtain ⟨c, hc, hs⟩ := Option.bind_eq_some_iff.mp hs
    obtain ⟨hend, hnext⟩ := h.get hnul hi hc
    split_ifs at hs with h0
    · obtain rfl := Option.some.inj hs
      rw [hend.mp h0, List.drop_length]
    · obtain ⟨rest, hrest, hs⟩ := Option.bind_eq_some_iff.mp hs
      obtain rfl := Option.some.inj hs
      obtain ⟨hlt, hchar⟩ := List.getElem?_eq_some_iff.mp (hnext h0)
      have hdrop := ih (i := i + 1) hlt (by exact_mod_cast hrest)
      rw [hdrop, List.drop_eq_getElem_cons hlt, hchar]

theorem cString_stored (h : Stored a line) (hnul : 0 ∉ line) {s : CString} (hs : cString a = some s) :
    s = line := cStringFrom_stored h hnul (Nat.zero_le _) hs

/-- `strcpy` into an array with room for the string stays inside both. -/
theorem strcpyFrom_defined (h : Stored src line) (hnul : 0 ∉ line) (hsrc : line.length < src.size)
    (hdest : line.length < dest.size) {fuel i : ℕ} (hi : i ≤ line.length) (hfuel : line.length < fuel + i) :
    ∃ b, strcpyFrom fuel i dest src = some b := by
  induction fuel generalizing i dest with
  | zero => omega
  | succ fuel ih =>
    have hcell : src.get i = (line ++ [0])[i]? := by rw [CArray.get_eq (by omega) (by omega), h i hi]
    have hlt : i < (line ++ [0]).length := by rw [List.length_append, List.length_singleton]; omega
    rw [List.getElem?_eq_getElem hlt] at hcell
    generalize (line ++ [0])[i] = c at hcell
    obtain ⟨-, hnext⟩ := h.get hnul hi hcell
    simp only [strcpyFrom, hcell, CArray.set_eq c (show (0 : ℤ) ≤ i by omega)
      (show (i : ℤ) < dest.size by omega), Option.bind_eq_bind, Option.bind_some, Option.pure_def]
    split_ifs with h0
    · exact ⟨_, rfl⟩
    · have hchar := (List.getElem?_eq_some_iff.mp (hnext h0)).1
      have hput : line.length < (dest.put i c).size := hdest
      have hb := ih hput (i := i + 1) hchar (by omega)
      exact_mod_cast hb

theorem cStringFrom_defined (h : Stored a line) (hnul : 0 ∉ line) (hsize : line.length < a.size)
    {fuel i : ℕ} (hi : i ≤ line.length) (hfuel : line.length < fuel + i) :
    cStringFrom fuel i a = some (line.drop i) := by
  induction fuel generalizing i with
  | zero => omega
  | succ fuel ih =>
    have hcell : a.get i = (line ++ [0])[i]? := by rw [CArray.get_eq (by omega) (by omega), h i hi]
    have hlt : i < (line ++ [0]).length := by rw [List.length_append, List.length_singleton]; omega
    rw [List.getElem?_eq_getElem hlt] at hcell
    generalize (line ++ [0])[i] = c at hcell
    obtain ⟨hend, hnext⟩ := h.get hnul hi hcell
    simp only [cStringFrom, hcell, Option.bind_eq_bind, Option.bind_some, Option.pure_def]
    split_ifs with h0
    · rw [hend.mp h0, List.drop_length]
    · obtain ⟨hchar, hc⟩ := List.getElem?_eq_some_iff.mp (hnext h0)
      have hrest := ih (i := i + 1) hchar (by omega)
      push_cast at hrest
      rw [hrest, List.drop_eq_getElem_cons hchar, hc]
      rfl

theorem Stored.strcpy (h : Stored src line) (hnul : 0 ∉ line) (hsrc : line.length < src.size)
    (hdest : line.length < dest.size) :
    ∃ b, strcpy dest src = some b ∧ Stored b line ∧ b.size = dest.size := by
  obtain ⟨b, hb⟩ : ∃ b, SystemsProgramming.Shell.strcpy dest src = some b :=
    strcpyFrom_defined h hnul hsrc hdest (Nat.zero_le _) (by omega)
  exact ⟨b, hb, strcpyFrom_stored h hnul (Nat.zero_le _) (fun j hj => absurd hj (Nat.not_lt_zero j)) hb⟩

theorem Stored.cString (h : Stored a line) (hnul : 0 ∉ line) (hsize : line.length < a.size) :
    cString a = some line := cStringFrom_defined h hnul hsize (Nat.zero_le _) (by omega)

theorem Stored.append (h : Stored a line) (c : Byte) :
    Stored ((a.put line.length c).put (line.length + 1) 0) (line ++ [c]) := by
  intro i hi
  rw [List.length_append, List.length_singleton] at hi
  rw [CArray.cells_put, CArray.cells_put]
  split_ifs with h1 h2
  · obtain rfl : i = line.length + 1 := by exact_mod_cast h1
    simp
  · obtain rfl : i = line.length := by exact_mod_cast h2
    simp
  · have hlt : i < line.length := by omega
    rw [h i (Nat.le_of_lt hlt), List.getElem?_append_left hlt, List.append_assoc,
      List.getElem?_append_left hlt]

theorem Stored.dropLast {c : Byte} (h : Stored a (line ++ [c])) : Stored (a.put line.length 0) line := by
  intro i hi
  rw [CArray.cells_put]
  split_ifs with h1
  · obtain rfl : i = line.length := by exact_mod_cast h1
    simp
  · have hlt : i < line.length := by omega
    rw [h i (by rw [List.length_append]; omega), List.append_assoc, List.getElem?_append_left hlt,
      List.getElem?_append_left hlt]

end

/-! ### Quotes and backslashes -/

/-- Whether the next character is escaped, and the quote that is open. -/
structure Lex where
  escaped : Bool
  quote : Option Byte
  deriving DecidableEq

namespace Lex

/-- Outside of quotes. -/
def plain : Lex := ⟨false, none⟩

/-- A quote closes the one that is open, if it is the same, and opens one if none is. -/
def toggle (quote : Option Byte) (c : Byte) : Option Byte :=
  if quote = some c then none else some (quote.getD c)

/-- A newline is fine only inside quotes, and not behind a backslash. -/
def step (s : Lex) (c : Byte) : Option Lex :=
  if c = newline then if s.escaped = true ∨ s.quote = none then none else some s
  else if c = backslash then some { s with escaped := !s.escaped }
  else if s.escaped = true then some { s with escaped := false }
  else if c = singleQuote ∨ c = doubleQuote then
    some { s with quote := toggle s.quote c }
  else some s

end Lex

/-- The quote that is open, by the variable for it. -/
def openQuote (used : Byte) : Option Byte := if used = noQuotesUsed then none else some used

theorem openQuote_quote {ch : Byte} (hch : ch = singleQuote ∨ ch = doubleQuote) :
    openQuote ch = some ch := by rcases hch with rfl | rfl <;> rfl

theorem Lex.step_quote {ch : Byte} (hch : ch = singleQuote ∨ ch = doubleQuote)
    (quote : Option Byte) : Lex.step ⟨false, quote⟩ ch =
      some ⟨false, Lex.toggle quote ch⟩ := by
  rcases hch with rfl | rfl <;> rfl

/-- The line read with these flags. -/
structure Reads (line : CString) (escaped : Bool) (used : Byte) : Prop where
  nul : 0 ∉ line
  symbol : used = noQuotesUsed ∨ used = singleQuote ∨ used = doubleQuote
  lexed : line.foldlM Lex.step .plain = some ⟨escaped, openQuote used⟩
  /-- What is taken back before a newline is a backslash. -/
  backslash : escaped = true → ∃ line', line = line' ++ [backslash] ∧
    line'.foldlM Lex.step .plain = some ⟨false, openQuote used⟩

namespace Reads

variable {line : CString} {escaped : Bool} {used ch : Byte}

theorem start : Reads [] false noQuotesUsed :=
  ⟨by simp, .inl rfl, rfl, nofun⟩

/-- A character that is not a backslash is read. -/
theorem snoc (h : Reads line escaped used) {used' : Byte} (hnul : ch ≠ 0)
    (hsymbol : used' = noQuotesUsed ∨ used' = singleQuote ∨ used' = doubleQuote)
    (hstep : Lex.step ⟨escaped, openQuote used⟩ ch = some ⟨false, openQuote used'⟩) :
    Reads (line ++ [ch]) false used' where
  nul := by simp [h.nul, hnul.symm]
  symbol := hsymbol
  lexed := by
    rw [List.foldlM_append, h.lexed]
    simp [hstep]
  backslash := nofun

theorem snoc_backslash (h : Reads line escaped used) :
    Reads (line ++ [SystemsProgramming.Shell.backslash]) (!escaped) used where
  nul := by simp [h.nul, SystemsProgramming.Shell.backslash]
  symbol := h.symbol
  lexed := by
    rw [List.foldlM_append, h.lexed]
    simp [Lex.step, SystemsProgramming.Shell.backslash, newline]
  backslash hescaped := by
    obtain rfl : escaped = false := by simpa using hescaped
    exact ⟨line, rfl, h.lexed⟩

/-- The character that has been read last. -/
theorem step (h : Reads line escaped used) {escaped' : Bool} {used' : Byte}
    (h' : Reads (line ++ [ch]) escaped' used') :
    Lex.step ⟨escaped, openQuote used⟩ ch = some ⟨escaped', openQuote used'⟩ := by
  have hlexed := h'.lexed
  rw [List.foldlM_append, h.lexed] at hlexed
  simpa using hlexed

/-- The backslash is taken back. -/
theorem unescape (h : Reads line true used) : ∃ line',
    line = line' ++ [SystemsProgramming.Shell.backslash] ∧ Reads line' false used := by
  obtain ⟨line', rfl, hlexed⟩ := h.backslash rfl
  exact ⟨line', rfl, fun hmem => h.nul (List.mem_append_left _ hmem), h.symbol, hlexed, nofun⟩

end Reads

namespace Reader

/-- The buffer holds the line read so far. -/
structure Buffers (r : Reader) (line : CString) : Prop where
  stored : Stored r.str line
  ptr : r.strPtr = line.length
  reads : Reads line r.nextCharEscaping r.usedQuoteSymbol

variable {r r' : Reader} {line : CString} {ch : Byte}

theorem classify_reads (h : Reads line r.nextCharEscaping r.usedQuoteSymbol) (hnul : ch ≠ 0)
    (hnewline : ch = newline → r.nextCharEscaping = false ∧ r.usedQuoteSymbol ≠ noQuotesUsed) :
    Reads (line ++ [ch]) (r.classify ch).nextCharEscaping (r.classify ch).usedQuoteSymbol := by
  rw [classify]
  split_ifs with hb hn hquote hescaped hsame hnone
  · exact hb ▸ h.snoc_backslash
  · obtain ⟨hescaping, hused⟩ := hnewline hn
    rw [hescaping] at h ⊢
    exact h.snoc hnul h.symbol (by simp [Lex.step, hn, openQuote, hused])
  · refine h.snoc hnul h.symbol ?_
    rw [hescaped]
    simp [Lex.step, hb, hn]
  · have hescaping : r.nextCharEscaping = false := by simpa using hescaped
    rw [hescaping] at h ⊢
    refine h.snoc hnul (.inl rfl) ?_
    rw [Lex.step_quote hquote, hsame, openQuote_quote hquote, Lex.toggle, if_pos rfl]
    rfl
  · have hescaping : r.nextCharEscaping = false := by simpa using hescaped
    rw [hescaping] at h ⊢
    refine h.snoc hnul (.inr hquote) ?_
    rw [Lex.step_quote hquote, hnone, openQuote_quote hquote]
    rfl
  · have hescaping : r.nextCharEscaping = false := by simpa using hescaped
    have hopen : openQuote r.usedQuoteSymbol = some r.usedQuoteSymbol := if_neg hnone
    rw [hescaping] at h ⊢
    refine h.snoc hnul h.symbol ?_
    rw [Lex.step_quote hquote, hopen, Lex.toggle, if_neg (by simpa using hsame), Option.getD_some]
  · refine h.snoc hnul h.symbol ?_
    cases hescaping : r.nextCharEscaping <;> simp [Lex.step, hb, hn, hquote]

theorem str_classify (ch : Byte) (r : Reader) :
    (r.classify ch).str = r.str ∧ (r.classify ch).strPtr = r.strPtr ∧
      (r.classify ch).stream = r.stream ∧ (r.classify ch).endedWithEof = r.endedWithEof := by
  rw [classify]
  split_ifs <;> exact ⟨rfl, rfl, rfl, rfl⟩

theorem strSize_classify (ch : Byte) (r : Reader) : (r.classify ch).strSize = r.strSize := by
  rw [classify]
  split_ifs <;> rfl

/-- What a turn of the loop does not touch. -/
structure Frame (r r' : Reader) : Prop where
  stream : r'.stream = r.stream
  endedWithEof : r'.endedWithEof = r.endedWithEof

theorem Buffers.grow (h : r.Buffers line) (hgrow : r.grow = some r') : r'.Buffers line ∧ Frame r r' ∧
    r'.nextCharEscaping = r.nextCharEscaping ∧ r'.usedQuoteSymbol = r.usedQuoteSymbol := by
  rw [Reader.grow] at hgrow
  split_ifs at hgrow
  · simp only [Option.bind_eq_bind, Option.pure_def] at hgrow
    obtain ⟨newStr, hcpy, hgrow⟩ := Option.bind_eq_some_iff.mp hgrow
    obtain rfl := Option.some.inj hgrow
    have hstored := (strcpyFrom_stored h.stored h.reads.nul (Nat.zero_le _)
      (fun j hj => absurd hj (Nat.not_lt_zero j)) hcpy).1
    exact ⟨⟨hstored, h.ptr, h.reads⟩, ⟨rfl, rfl⟩, rfl, rfl⟩
  · obtain rfl := Option.some.inj hgrow
    exact ⟨h, ⟨rfl, rfl⟩, rfl, rfl⟩

theorem Buffers.append (h : r.Buffers line) (hnul : ch ≠ 0)
    (hnewline : ch = newline → r.nextCharEscaping = false ∧ r.usedQuoteSymbol ≠ noQuotesUsed)
    (happend : (r.classify ch).append ch = some r') : r'.Buffers (line ++ [ch]) ∧ Frame r r' := by
  obtain ⟨hstr, hptr, hstream, heof⟩ := str_classify ch r
  simp only [Reader.append, hstr, hptr, h.ptr, Option.bind_eq_bind, Option.pure_def] at happend
  obtain ⟨str₁, hset₁, happend⟩ := Option.bind_eq_some_iff.mp happend
  obtain ⟨str₂, hset₂, happend⟩ := Option.bind_eq_some_iff.mp happend
  obtain rfl := Option.some.inj happend
  obtain rfl := CArray.eq_put_of_set hset₁
  obtain rfl := CArray.eq_put_of_set hset₂
  refine ⟨⟨h.stored.append ch, ?_, classify_reads h.reads hnul hnewline⟩, hstream, heof⟩
  rw [List.length_append, List.length_singleton]
  push_cast
  rfl

theorem Buffers.unescape (h : r.Buffers line) (hescaping : r.nextCharEscaping = true)
    (hunescape : r.unescape = some r') : r'.Buffers line.dropLast ∧ Frame r r' := by
  have hreads := h.reads
  rw [hescaping] at hreads
  obtain ⟨line', rfl, hreads'⟩ := hreads.unescape
  have hptr : r.strPtr - 1 = line'.length := by
    rw [h.ptr, List.length_append, List.length_singleton]
    push_cast
    omega
  simp only [Reader.unescape, hptr, Option.bind_eq_bind, Option.pure_def] at hunescape
  obtain ⟨str, hset, hunescape⟩ := Option.bind_eq_some_iff.mp hunescape
  obtain rfl := Option.some.inj hunescape
  obtain rfl := CArray.eq_put_of_set hset
  rw [List.dropLast_concat]
  exact ⟨⟨h.stored.dropLast, rfl, hreads'⟩, rfl, rfl⟩

/-- What a turn of the loop leaves behind. -/
def Left : Ctl Reader → Prop
  | .again r => (∃ line, r.Buffers line) ∧ 0 ∉ r.stream ∧ r.endedWithEof = false
  | .done r => ∃ line, r.Buffers line ∧
    (r.endedWithEof = false → line.foldlM Lex.step .plain = some .plain)

theorem Buffers.step {c : Ctl Reader} (h : r.Buffers line) (hstream : 0 ∉ r.stream)
    (heof : r.endedWithEof = false) (hstep : r.step = some c) : Left c := by
  obtain ⟨ch, stream, hget⟩ : ∃ ch stream, getchar r.stream = (ch, stream) := ⟨_, _, rfl⟩
  have hnul : ch ≠ 0 ∧ 0 ∉ stream := by
    cases hr : r.stream with
    | nil =>
      rw [hr] at hget
      obtain ⟨rfl, rfl⟩ := Prod.mk.inj hget
      exact ⟨by decide, by simp⟩
    | cons c cs =>
      rw [hr] at hget hstream
      obtain ⟨rfl, rfl⟩ := Prod.mk.inj hget
      exact ⟨fun h0 => hstream (h0 ▸ List.mem_cons_self), fun hmem => hstream (List.mem_cons_of_mem _ hmem)⟩
  have h₁ : Buffers { r with stream := stream } line := ⟨h.stored, h.ptr, h.reads⟩
  simp only [Reader.step, hget, Option.bind_eq_bind, Option.pure_def] at hstep
  split_ifs at hstep with hend hff
  · obtain rfl := Option.some.inj hstep
    refine ⟨line, h₁, fun _ => ?_⟩
    have hlexed := h.reads.lexed
    rwa [hend.2.1, hend.2.2] at hlexed
  · obtain rfl := Option.some.inj hstep
    exact ⟨line, ⟨h.stored, h.ptr, h.reads⟩, nofun⟩
  · obtain ⟨r₂, hgrow, hstep⟩ := Option.bind_eq_some_iff.mp hstep
    obtain ⟨h₂, hframe, hescaping, hused⟩ := h₁.grow hgrow
    split_ifs at hstep with hescaped
    · obtain ⟨r₃, hunescape, hstep⟩ := Option.bind_eq_some_iff.mp hstep
      obtain rfl := Option.some.inj hstep
      obtain ⟨h₃, hframe'⟩ := h₂.unescape hescaped.2 hunescape
      exact ⟨⟨_, h₃⟩, by rw [hframe'.stream, hframe.stream]; exact hnul.2,
        by rw [hframe'.endedWithEof, hframe.endedWithEof]; exact heof⟩
    · obtain ⟨r₃, happend, hstep⟩ := Option.bind_eq_some_iff.mp hstep
      obtain rfl := Option.some.inj hstep
      obtain ⟨h₃, hframe'⟩ := h₂.append hnul.1 (fun hnewline => by
        have hnot : r₂.nextCharEscaping = false := by
          simpa using fun htrue => hescaped ⟨hnewline, htrue⟩
        rw [hescaping] at hnot
        exact ⟨hescaping.trans hnot, fun hnone => hend ⟨hnewline, hnot, hused.symm.trans hnone⟩⟩) happend
      exact ⟨⟨_, h₃⟩, by rw [hframe'.stream, hframe.stream]; exact hnul.2,
        by rw [hframe'.endedWithEof, hframe.endedWithEof]; exact heof⟩

theorem Buffers.exits (h : r.Buffers line) (hstream : 0 ∉ r.stream) (heof : r.endedWithEof = false)
    (hexits : Exits Reader.step r r') : Left (.done r') := by
  induction hexits generalizing line with
  | done hs => exact h.step hstream heof hs
  | again hs _ ih =>
    obtain ⟨⟨line', h'⟩, hstream', heof'⟩ := h.step hstream heof hs
    exact ih h' hstream' heof'

end Reader

/-- A line that is returned at its newline has all its quotes closed, no backslash at its end, and
newlines inside quotes only. -/
theorem readStdinLine_lexed {stream rest : List Byte} {out : ReaderOutput} (hstream : 0 ∉ stream)
    (h : readStdinLine stream = some (out, rest)) (heof : out.endedWithEof = false) :
    out.line.foldlM Lex.step .plain = some .plain := by
  simp only [readStdinLine, Option.bind_eq_bind, Option.pure_def] at h
  obtain ⟨str, hset, h⟩ := Option.bind_eq_some_iff.mp h
  obtain ⟨r, hr, h⟩ := Option.bind_eq_some_iff.mp h
  obtain ⟨s, hs, h⟩ := Option.bind_eq_some_iff.mp h
  obtain ⟨rfl, -⟩ := Prod.mk.inj (Option.some.inj h)
  obtain rfl := CArray.eq_put_of_set hset
  have hstored : Stored ((CArray.malloc 2).put 0 0) [] := by
    intro i hi
    obtain rfl := Nat.le_zero.mp hi
    rfl
  obtain ⟨line, hline, hlexed⟩ := Reader.Buffers.exits ⟨hstored, rfl, .start⟩ hstream rfl
    (exits_of_iterate hr)
  rw [cString_stored hline.stored hline.reads.nul hs]
  exact hlexed heof

end SystemsProgramming.Shell

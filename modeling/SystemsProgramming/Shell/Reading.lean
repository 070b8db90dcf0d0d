import SystemsProgramming.Shell.Reader
import SystemsProgramming.Foundation.Splitting

/-! The lines of a stream. The calls of `read_stdin_line` cut the stream at its free newlines and take the
pairs of a backslash and a newline out, as long as no byte of the stream is taken for `EOF` and the size
of the buffer is an `int`. -/

namespace SystemsProgramming.Shell

/-- The reading loop of `main`: calls of `read_stdin_line` until one reports the end of the input. A call
that does not has taken a newline, so the length of the stream is fuel enough. -/
def readLinesFrom : ℕ → List Byte → Option (List ReaderOutput × List Byte)
  | 0, _ => none
  | fuel + 1, stream => do
    let (readData, stream) ← readStdinLine stream
    if readData.endedWithEof then return ([readData], stream)
    else
      let (outputs, stream) ← readLinesFrom fuel stream
      return (readData :: outputs, stream)

def readLines (stream : List Byte) : Option (List ReaderOutput × List Byte) :=
  readLinesFrom (stream.length + 1) stream

/-! ### What the lines of a stream are -/

/-- The escape and the quote behind a byte of the stream. -/
def Lex.read (s : Lex) (c : Byte) : Lex :=
  if c = newline then { s with escaped := false }
  else if c = backslash then { s with escaped := !s.escaped }
  else if s.escaped = true then { s with escaped := false }
  else if c = singleQuote ∨ c = doubleQuote then { s with quote := toggle s.quote c }
  else s

/-- A newline that is neither escaped nor inside quotes. -/
def EndsLine (piece : List Byte) (c : Byte) : Prop :=
  c = newline ∧ piece.foldl Lex.read .plain = .plain

/-- A piece of the stream without its pairs of a backslash and a newline. A backslash is not the first of
a pair if it is escaped itself. -/
def joined : List Byte → CString
  | [] => []
  | [c] => [c]
  | c :: d :: piece =>
    if c = backslash then if d = newline then joined piece else c :: d :: joined piece
    else c :: joined (d :: piece)

/-- All lines but the last end at a newline. -/
def outputs : List (List Byte) → List ReaderOutput
  | [] => []
  | [piece] => [⟨true, joined piece⟩]
  | piece :: pieces => ⟨false, joined piece⟩ :: outputs pieces

/-- The largest size that the buffer can have. -/
def maxSize : ℕ := 1000000000

/-- The buffer is large enough for each byte of a piece. -/
def Fits (piece : List Byte) : Prop := Throughout (fun q _ => (joined q).length < maxSize) piece

/-! ### One call -/

/-- The line so far, and the flags, behind one more byte. -/
def absorb (t : CString × Lex) (c : Byte) : CString × Lex :=
  (if c = newline ∧ t.2.escaped = true then t.1.dropLast else t.1 ++ [c], t.2.read c)

theorem foldl_absorb_snd (t : CString × Lex) (piece : List Byte) :
    (piece.foldl absorb t).2 = piece.foldl Lex.read t.2 := by
  induction piece generalizing t with
  | nil => rfl
  | cons c piece ih => exact ih (absorb t c)

/-- The backslash of a pair is kept until the newline comes. -/
theorem foldl_absorb_fst (piece : List Byte) (line : CString) (quote : Option Byte) :
    (piece.foldl absorb (line, ⟨false, quote⟩)).1 = line ++ joined piece := by
  induction piece using joined.induct generalizing line quote with
  | case1 => simp [joined]
  | case2 c => simp [joined, absorb]
  | case3 piece ih =>
    have hn : backslash ≠ newline := by decide
    rw [joined, if_pos rfl, if_pos rfl, ← ih line quote]
    simp [absorb, Lex.read, hn]
  | case4 d piece hd ih =>
    have hn : backslash ≠ newline := by decide
    have hread : absorb (absorb (line, ⟨false, quote⟩) backslash) d =
        (line ++ [backslash, d], ⟨false, quote⟩) := by
      simp [absorb, Lex.read, hn, hd]
    rw [joined, if_pos rfl, if_neg hd, List.foldl_cons, List.foldl_cons, hread, ih]
    simp
  | case5 c d piece hc ih =>
    obtain ⟨quote', hread⟩ : ∃ quote', absorb (line, ⟨false, quote⟩) c = (line ++ [c], ⟨false, quote'⟩) := by
      simp only [absorb, Bool.false_eq_true, and_false, if_false, Lex.read, if_neg hc]
      split_ifs <;> exact ⟨_, rfl⟩
    rw [joined, if_neg hc, List.foldl_cons, hread, ih, List.append_assoc, List.singleton_append]

theorem Lex.read_of_step {s t : Lex} {c : Byte} (h : Lex.step s c = some t) : s.read c = t := by
  rw [Lex.step] at h
  rw [Lex.read]
  split_ifs at h ⊢ with hn hend hb hescaped hquote
  · obtain rfl := Option.some.inj h
    have hescaped : s.escaped = false := by simpa using fun he => hend (.inl he)
    rw [← hescaped]
  all_goals exact Option.some.inj h

namespace Reader

/-- The buffer holds the line so far and has room for it. -/
structure Holds (r : Reader) (t : CString × Lex) : Prop extends Buffers r t.1 where
  flags : t.2 = ⟨r.nextCharEscaping, openQuote r.usedQuoteSymbol⟩
  size : r.str.size = r.strSize + 1
  room : t.1.length ≤ r.strSize
  tenfold : r.strSize ∈ ([1, 10, 100, 1000, 10000, 100000, 1000000, 10000000, 100000000,
    1000000000] : List ℤ)

variable {r r' : Reader} {t : CString × Lex} {ch : Byte} {rest : List Byte}

theorem Holds.grow (h : r.Holds t) (hlen : t.1.length < maxSize) : ∃ r', r.grow = some r' ∧ r'.Holds t ∧
    t.1.length < r'.strSize := by
  have hten := h.tenfold
  have hroom := h.room
  have hsize := h.size
  rw [maxSize] at hlen
  by_cases hfull : r.strPtr = r.strSize
  · have hstrSize : r.strSize = t.1.length := by rw [← hfull, h.ptr]
    have hint : r.strSize * 10 ≤ intMax := by
      simp only [List.mem_cons, List.not_mem_nil, or_false] at hten
      rw [intMax]
      omega
    have hdest : t.1.length < (CArray.malloc (1 + r.strSize * 10) : CArray Byte).size := by
      rw [CArray.size_malloc]
      omega
    obtain ⟨str, hcpy, -, hnew⟩ := h.stored.strcpy h.reads.nul (by omega) hdest
    have hgrow : r.grow = some { r with strSize := r.strSize * 10, str := str } := by
      simp only [Reader.grow, if_pos hfull, if_pos hint, hcpy, Option.bind_eq_bind, Option.bind_some,
        Option.pure_def]
    refine ⟨_, hgrow, ⟨(h.toBuffers.grow hgrow).1, h.flags, ?_, ?_, ?_⟩, ?_⟩
    · rw [hnew, CArray.size_malloc, Int.add_comm]
    · show (t.1.length : ℤ) ≤ r.strSize * 10
      omega
    · show r.strSize * 10 ∈ _
      simp only [List.mem_cons, List.not_mem_nil, or_false] at hten ⊢
      omega
    · show (t.1.length : ℤ) < r.strSize * 10
      simp only [List.mem_cons, List.not_mem_nil, or_false] at hten
      omega
  · have hgrow : r.grow = some r := if_neg hfull
    rw [h.ptr] at hfull
    exact ⟨r, hgrow, h, by omega⟩

theorem Holds.append (h : r.Holds t) (hlen : t.1.length < r.strSize) (hnul : ch ≠ 0)
    (hnewline : ch = newline → r.nextCharEscaping = false ∧ r.usedQuoteSymbol ≠ noQuotesUsed) :
    ∃ r', (r.classify ch).append ch = some r' ∧ r'.Holds (absorb t ch) := by
  obtain ⟨hstr, hptr, -, -⟩ := str_classify ch r
  have hsize := h.size
  have happend : (r.classify ch).append ch = some { r.classify ch with
      strPtr := t.1.length + 1, str := (r.str.put t.1.length ch).put (t.1.length + 1) 0 } := by
    simp only [Reader.append, hstr, hptr, h.ptr, Option.bind_eq_bind, Option.pure_def]
    rw [CArray.set_eq ch (by omega) (by omega), Option.bind_some,
      CArray.set_eq 0 (by omega) (by rw [CArray.size_put]; omega), Option.bind_some]
  have habsorb : absorb t ch = (t.1 ++ [ch], t.2.read ch) := by
    rw [absorb, if_neg]
    rintro ⟨hn, hescaped⟩
    rw [h.flags, (hnewline hn).1] at hescaped
    cases hescaped
  obtain ⟨hb, -⟩ := h.toBuffers.append hnul hnewline happend
  refine ⟨_, happend, ⟨by rwa [habsorb], ?_, ?_, ?_, ?_⟩⟩
  · rw [habsorb, h.flags]
    exact Lex.read_of_step (h.reads.step hb.reads)
  · show r.str.size = (r.classify ch).strSize + 1
    rw [strSize_classify, hsize]
  · show ((absorb t ch).1.length : ℤ) ≤ (r.classify ch).strSize
    rw [strSize_classify, habsorb, List.length_append, List.length_singleton]
    omega
  · show (r.classify ch).strSize ∈ _
    rw [strSize_classify]
    exact h.tenfold

theorem Holds.unescape (h : r.Holds t) (hescaping : r.nextCharEscaping = true) :
    ∃ r', r.unescape = some r' ∧ r'.Holds (absorb t newline) := by
  have hsize := h.size
  have hroom := h.room
  have hreads := h.reads
  rw [hescaping] at hreads
  obtain ⟨line, hline, -⟩ := hreads.unescape
  have hlen : t.1.length = line.length + 1 := by rw [hline, List.length_append, List.length_singleton]
  have hunescape : r.unescape = some { r with
      strPtr := r.strPtr - 1, str := r.str.put (r.strPtr - 1) 0, nextCharEscaping := false } := by
    have hptr := h.ptr
    rw [Reader.unescape, CArray.set_eq 0 (by omega) (by omega)]
    rfl
  have habsorb : absorb t newline = (t.1.dropLast, ⟨false, openQuote r.usedQuoteSymbol⟩) := by
    rw [absorb, h.flags, hescaping, if_pos ⟨rfl, rfl⟩, Lex.read, if_pos rfl]
  refine ⟨_, hunescape, ⟨?_, by rw [habsorb], hsize, ?_, h.tenfold⟩⟩
  · rw [habsorb]
    exact (h.toBuffers.unescape hescaping hunescape).1
  · rw [habsorb, List.length_dropLast]
    show ((t.1.length - 1 : ℕ) : ℤ) ≤ r.strSize
    omega

theorem Holds.plain_iff (h : r.Holds t) :
    t.2 = .plain ↔ r.nextCharEscaping = false ∧ r.usedQuoteSymbol = noQuotesUsed := by
  rw [h.flags, Lex.plain, Lex.mk.injEq, openQuote]
  refine and_congr_right fun _ => ⟨fun hnone => ?_, fun hused => if_pos hused⟩
  by_contra hne
  rw [if_neg hne] at hnone
  cases hnone

/-- A byte that is neither the end of the line nor taken for that of the input. -/
structure Passed (t : CString × Lex) (ch : Byte) : Prop where
  nul : ch ≠ 0
  eof : ch ≠ eof
  inside : ¬(ch = newline ∧ t.2 = .plain)

theorem Holds.step (h : r.Holds t) (hch : Passed t ch) (hstream : r.stream = ch :: rest)
    (hlen : t.1.length < maxSize) : ∃ r', r.step = some (.again r') ∧ r'.Holds (absorb t ch) ∧
      r'.stream = rest ∧ r'.endedWithEof = r.endedWithEof := by
  have hend : ¬(ch = newline ∧ r.nextCharEscaping = false ∧ r.usedQuoteSymbol = noQuotesUsed) :=
    fun hend => hch.inside ⟨hend.1, h.plain_iff.mpr hend.2⟩
  have hrest : Holds { r with stream := rest } t :=
    ⟨⟨h.stored, h.ptr, h.reads⟩, h.flags, h.size, h.room, h.tenfold⟩
  obtain ⟨r₁, hgrow, h₁, hroom⟩ := hrest.grow hlen
  obtain ⟨-, hframe, hescaping, hused⟩ := hrest.toBuffers.grow hgrow
  simp only [Reader.step, hstream, getchar, if_neg hend, if_neg hch.eof, hgrow, Option.bind_eq_bind,
    Option.bind_some, Option.pure_def]
  by_cases hescaped : ch = newline ∧ r₁.nextCharEscaping = true
  · obtain ⟨r₂, hunescape, h₂⟩ := h₁.unescape hescaped.2
    obtain ⟨-, hframe'⟩ := h₁.toBuffers.unescape hescaped.2 hunescape
    rw [if_pos hescaped, hunescape, hescaped.1]
    exact ⟨r₂, rfl, h₂, hframe'.stream.trans hframe.stream,
      hframe'.endedWithEof.trans hframe.endedWithEof⟩
  · have hnewline : ch = newline → r₁.nextCharEscaping = false ∧ r₁.usedQuoteSymbol ≠ noQuotesUsed := by
      intro hn
      have hplain : r₁.nextCharEscaping = false := by simpa using fun htrue => hescaped ⟨hn, htrue⟩
      exact ⟨hplain, fun hnone => hch.inside ⟨hn, h₁.plain_iff.mpr ⟨hplain, hnone⟩⟩⟩
    obtain ⟨r₂, happend, h₂⟩ := h₁.append hroom hch.nul hnewline
    obtain ⟨-, hframe'⟩ := h₁.toBuffers.append hch.nul hnewline happend
    rw [if_neg hescaped, happend]
    exact ⟨r₂, rfl, h₂, hframe'.stream.trans hframe.stream,
      hframe'.endedWithEof.trans hframe.endedWithEof⟩

/-- Ten times the largest size is not an `int`. -/
theorem Holds.overflow (h : r.Holds t) (hch : Passed t ch) (hstream : r.stream = ch :: rest)
    (hlen : maxSize ≤ t.1.length) : r.step = none := by
  have hend : ¬(ch = newline ∧ r.nextCharEscaping = false ∧ r.usedQuoteSymbol = noQuotesUsed) :=
    fun hend => hch.inside ⟨hend.1, h.plain_iff.mpr hend.2⟩
  have hten := h.tenfold
  have hroom := h.room
  rw [maxSize] at hlen
  simp only [List.mem_cons, List.not_mem_nil, or_false] at hten
  have hfull : r.strPtr = r.strSize := by
    rw [h.ptr]
    omega
  have hint : ¬r.strSize * 10 ≤ intMax := by
    rw [intMax]
    omega
  simp only [Reader.step, hstream, getchar, if_neg hend, if_neg hch.eof, Reader.grow, if_pos hfull,
    if_neg hint, Option.bind_eq_bind, Option.bind_none]

theorem Holds.newline (h : r.Holds t) (hplain : t.2 = .plain)
    (hstream : r.stream = Shell.newline :: rest) :
    r.step = some (.done { r with stream := rest }) := by
  obtain ⟨hescaping, hused⟩ := h.plain_iff.mp hplain
  simp [Reader.step, hstream, getchar, hescaping, hused]

theorem step_eof (hget : getchar r.stream = (Shell.eof, rest)) :
    r.step = some (.done { r with stream := rest, endedWithEof := true }) := by
  simp [Reader.step, hget, Shell.eof, Shell.newline]

/-- Bytes that are all passed: they are absorbed if the buffer is large enough for each of them, and
otherwise the loop does not end properly. -/
theorem Holds.passes {q tail : List Byte} (h : r.Holds t) (hstream : r.stream = q ++ tail)
    (hpassed : Throughout (fun p c => Passed (p.foldl absorb t) c) q) :
    (Throughout (fun p _ => (p.foldl absorb t).1.length < maxSize) q → ∃ r', r'.Holds (q.foldl absorb t) ∧
      r'.stream = tail ∧ r'.endedWithEof = r.endedWithEof ∧
        ∀ u, Exits Reader.step r u ↔ Exits Reader.step r' u) ∧
    (¬Throughout (fun p _ => (p.foldl absorb t).1.length < maxSize) q → ∀ u, ¬Exits Reader.step r u) := by
  induction q generalizing r t with
  | nil =>
    exact ⟨fun _ => ⟨r, h, hstream, rfl, fun _ => Iff.rfl⟩, fun hfits => absurd throughout_nil hfits⟩
  | cons c q ih =>
    obtain ⟨hc, hq⟩ := throughout_cons.mp hpassed
    rw [throughout_cons]
    by_cases hlen : t.1.length < maxSize
    · obtain ⟨r', hstep, h', hstream', heof⟩ := h.step hc hstream hlen
      obtain ⟨hfits, hnot⟩ := ih h' hstream' hq
      constructor
      · rintro ⟨-, hrest⟩
        obtain ⟨r'', h'', htail, heof', hexits⟩ := hfits hrest
        exact ⟨r'', h'', htail, heof'.trans heof, fun u => (exits_again_iff hstep).trans (hexits u)⟩
      · intro hover u hu
        exact hnot (fun hrest => hover ⟨hlen, hrest⟩) u ((exits_again_iff hstep).mp hu)
    · exact ⟨fun hfits => absurd hfits.1 hlen,
        fun _ u => not_exits (h.overflow hc hstream (Nat.le_of_not_lt hlen))⟩

theorem grow_stream (h : r.grow = some r') : r'.stream = r.stream := by
  rw [Reader.grow] at h
  split_ifs at h
  · simp only [Option.bind_eq_bind, Option.pure_def] at h
    obtain ⟨str, -, h⟩ := Option.bind_eq_some_iff.mp h
    obtain rfl := Option.some.inj h
    rfl
  · obtain rfl := Option.some.inj h
    rfl

/-- Each turn of the loop that does not leave it takes a byte. -/
theorem step_again (h : r.step = some (.again r')) : r'.stream.length < r.stream.length := by
  cases hstream : r.stream with
  | nil =>
    have hget : getchar r.stream = (Shell.eof, []) := by rw [hstream, getchar]
    rw [step_eof hget] at h
    cases h
  | cons ch rest =>
    simp only [Reader.step, hstream, getchar, Option.bind_eq_bind, Option.pure_def] at h
    have hsame : r'.stream = rest := by
      split_ifs at h
      · cases h
      · cases h
      obtain ⟨r₁, hgrow, h⟩ := Option.bind_eq_some_iff.mp h
      have hrest := grow_stream hgrow
      split_ifs at h
      · obtain ⟨r₂, hunescape, h⟩ := Option.bind_eq_some_iff.mp h
        obtain ⟨str, -, hunescape⟩ := Option.bind_eq_some_iff.mp hunescape
        cases hunescape
        cases h
        exact hrest
      · obtain ⟨r₂, happend, h⟩ := Option.bind_eq_some_iff.mp h
        obtain ⟨str, -, happend⟩ := Option.bind_eq_some_iff.mp happend
        obtain ⟨str', -, happend⟩ := Option.bind_eq_some_iff.mp happend
        cases happend
        cases h
        exact (str_classify ch r₁).2.2.1.trans hrest
    rw [hsame, List.length_cons]
    exact Nat.lt_succ_self _

/-- The variables of `read_stdin_line` before its loop. -/
def fresh (stream : List Byte) : Reader where
  nextCharEscaping := false
  endedWithEof := false
  usedQuoteSymbol := noQuotesUsed
  strSize := 1
  strPtr := 0
  str := (CArray.malloc 2).put 0 0
  stream := stream

theorem holds_fresh (stream : List Byte) : (fresh stream).Holds ([], .plain) where
  stored i hi := by
    obtain rfl := Nat.le_zero.mp hi
    rfl
  ptr := rfl
  reads := .start
  flags := rfl
  size := rfl
  room := Int.one_nonneg
  tenfold := List.mem_cons_self

end Reader

section
variable {stream tail rest q : List Byte} {r : Reader} {t : CString × Lex}

theorem readStdinLine_eq (stream : List Byte) : readStdinLine stream =
    (iterate Reader.step (stream.length + 1) (.fresh stream)).bind fun r =>
      (cString r.str).bind fun line => some (⟨r.endedWithEof, line⟩, r.stream) := rfl

theorem readStdinLine_of_exits (h : Exits Reader.step (.fresh stream) r) (hr : r.Holds t) :
    readStdinLine stream = some (⟨r.endedWithEof, t.1⟩, r.stream) := by
  have hroom := hr.room
  have hfuel : (Reader.fresh stream).stream.length < stream.length + 1 := Nat.lt_succ_self _
  rw [readStdinLine_eq, h.iterate (μ := fun r => r.stream.length) (fun s u hu => Reader.step_again hu)
    hfuel, Option.bind_some,
    hr.stored.cString hr.reads.nul (by rw [hr.size]; omega), Option.bind_some]

theorem readStdinLine_eq_none (h : ∀ r, ¬Exits Reader.step (.fresh stream) r) :
    readStdinLine stream = none := by
  rw [readStdinLine_eq, Option.bind_eq_none_iff]
  intro r hr
  exact absurd (exits_of_iterate hr) (h r)

/-- A part of the stream within one line. -/
structure Inside (q : List Byte) : Prop where
  nul : 0 ∉ q
  eof : eof ∉ q
  whole : Throughout (fun p c => ¬EndsLine p c) q

theorem Inside.passed (h : Inside q) :
    Throughout (fun p c => Reader.Passed (p.foldl absorb ([], .plain)) c) q := by
  intro p c hp
  have hc : c ∈ q := hp.subset (List.mem_append_right p List.mem_cons_self)
  refine ⟨fun h0 => h.nul (h0 ▸ hc), fun heof => h.eof (heof ▸ hc), ?_⟩
  rw [foldl_absorb_snd]
  exact h.whole p c hp

theorem fits_iff : Fits q ↔
    Throughout (fun p _ => (p.foldl absorb ([], .plain)).1.length < maxSize) q := by
  simp only [Fits, Lex.plain, foldl_absorb_fst, List.nil_append]

/-- The state of the loop behind a part of the stream within a line. -/
theorem Inside.reaches (h : Inside q) (hfits : Fits q) (tail : List Byte) : ∃ r : Reader,
    r.Holds (joined q, q.foldl Lex.read .plain) ∧ r.stream = tail ∧ r.endedWithEof = false ∧
      ∀ u, Exits Reader.step (.fresh (q ++ tail)) u ↔ Exits Reader.step r u := by
  obtain ⟨r, hr, hstream, heof, hexits⟩ :=
    ((Reader.holds_fresh (q ++ tail)).passes rfl h.passed).1 (fits_iff.mp hfits)
  refine ⟨r, ?_, hstream, heof, hexits⟩
  have hsplit : q.foldl absorb ([], .plain) = (joined q, q.foldl Lex.read .plain) :=
    Prod.ext (foldl_absorb_fst q [] none) (foldl_absorb_snd _ q)
  rwa [hsplit] at hr

theorem Inside.overflows (h : Inside q) (hfits : ¬Fits q) (tail : List Byte) :
    readStdinLine (q ++ tail) = none :=
  readStdinLine_eq_none (((Reader.holds_fresh (q ++ tail)).passes rfl h.passed).2
    (mt fits_iff.mpr hfits))

/-- A line is returned at its newline. -/
theorem Inside.line (h : Inside q) (hfits : Fits q) (hend : EndsLine q newline) (rest : List Byte) :
    readStdinLine (q ++ newline :: rest) = some (⟨false, joined q⟩, rest) := by
  obtain ⟨r, hr, hstream, heof, hexits⟩ := h.reaches hfits (newline :: rest)
  have hdone := (hexits _).mpr (.done (hr.newline hend.2 hstream))
  rw [readStdinLine_of_exits hdone ⟨⟨hr.stored, hr.ptr, hr.reads⟩, hr.flags, hr.size, hr.room, hr.tenfold⟩,
    heof]

/-- The last line, or what is before a byte that is taken for `EOF`. -/
theorem Inside.last (h : Inside q) (hfits : Fits q) (hget : getchar tail = (Shell.eof, rest)) :
    readStdinLine (q ++ tail) = some (⟨true, joined q⟩, rest) := by
  obtain ⟨r, hr, hstream, -, hexits⟩ := h.reaches hfits tail
  have hdone := (hexits _).mpr (.done (Reader.step_eof (hstream ▸ hget)))
  exact readStdinLine_of_exits hdone
    ⟨⟨hr.stored, hr.ptr, hr.reads⟩, hr.flags, hr.size, hr.room, hr.tenfold⟩

end

/-! ### All calls -/

theorem mem_joined_iff {c : Byte} (hb : c ≠ backslash) (hn : c ≠ newline) (piece : List Byte) :
    c ∈ joined piece ↔ c ∈ piece := by
  induction piece using joined.induct with
  | case1 => rfl
  | case2 d => rfl
  | case3 piece ih =>
    rw [joined, if_pos rfl, if_pos rfl, ih]
    simp [hb, hn]
  | case4 d piece hd ih =>
    rw [joined, if_pos rfl, if_neg hd]
    simp [ih]
  | case5 d e piece hd ih =>
    rw [joined, if_neg hd]
    simp [ih]

/-- The first line comes out right only if it has no byte that is taken for `EOF` and fits. -/
theorem inside_of_read {p tail rest : List Byte} {ended : Bool} (hnul : 0 ∉ p)
    (hwhole : Throughout (fun p c => ¬EndsLine p c) p)
    (h : readStdinLine (p ++ tail) = some (⟨ended, joined p⟩, rest)) : eof ∉ p ∧ Fits p := by
  have heof : eof ∉ p := by
    intro hmem
    obtain ⟨q, q', rfl, hq⟩ := List.eq_append_cons_of_mem hmem
    have hinside : Inside q := ⟨fun h0 => hnul (List.mem_append_left _ h0), hq,
      hwhole.of_prefix (List.prefix_append _ _)⟩
    rw [List.append_assoc, List.cons_append] at h
    by_cases hfits : Fits q
    · rw [hinside.last hfits rfl] at h
      have hline : joined q = joined (q ++ eof :: q') :=
        congrArg (fun o => o.1.line) (Option.some.inj h)
      rw [← mem_joined_iff (by decide) (by decide), hline] at hq
      exact hq ((mem_joined_iff (by decide) (by decide) _).mpr hmem)
    · rw [hinside.overflows hfits] at h
      cases h
  refine ⟨heof, ?_⟩
  by_contra hfits
  rw [Inside.overflows ⟨hnul, heof, hwhole⟩ hfits] at h
  cases h

theorem outputs_cons {stream : List Byte} {ps : List (List Byte)} (h : Splits EndsLine stream ps)
    (p : List Byte) : outputs (p :: ps) = ⟨false, joined p⟩ :: outputs ps := by
  cases h <;> rfl

theorem readLinesFrom_succ (fuel : ℕ) (stream : List Byte) : readLinesFrom (fuel + 1) stream =
    (readStdinLine stream).bind fun o => if o.1.endedWithEof = true then some ([o.1], o.2) else
      (readLinesFrom fuel o.2).bind fun os => some (o.1 :: os.1, os.2) := rfl

theorem readLinesFrom_splits {stream : List Byte} {ps : List (List Byte)} {fuel : ℕ}
    (h : Splits EndsLine stream ps) (hnul : 0 ∉ stream) (heof : eof ∉ stream)
    (hfits : ∀ p ∈ ps, Fits p) (hfuel : stream.length < fuel) :
    readLinesFrom fuel stream = some (outputs ps, []) := by
  induction h generalizing fuel with
  | @last p hp =>
    cases fuel with
    | zero => exact absurd hfuel (Nat.not_lt_zero _)
    | succ fuel =>
      have hread : readStdinLine (p ++ []) = some (⟨true, joined p⟩, []) :=
        Inside.last ⟨hnul, heof, hp⟩ (hfits p List.mem_cons_self) rfl
      rw [List.append_nil] at hread
      rw [readLinesFrom_succ, hread]
      rfl
  | @more p rest c ps hp hc hrest ih =>
    cases fuel with
    | zero => exact absurd hfuel (Nat.not_lt_zero _)
    | succ fuel =>
      obtain rfl := hc.1
      simp only [List.mem_append, List.mem_cons, not_or] at hnul heof
      have hread := Inside.line ⟨hnul.1, heof.1, hp⟩ (hfits p List.mem_cons_self) hc rest
      have hlt : rest.length < fuel := by
        rw [List.length_append, List.length_cons] at hfuel
        omega
      have hlines := ih hnul.2.2 heof.2.2 (fun p hp => hfits p (List.mem_cons_of_mem _ hp)) hlt
      rw [readLinesFrom_succ, hread, outputs_cons hrest]
      simp only [Option.bind_some, Bool.false_eq_true, if_false, hlines]

theorem readLinesFrom_cons {stream rest : List Byte} {fuel : ℕ} {o : ReaderOutput}
    {os : List ReaderOutput} (h : readLinesFrom fuel stream = some (o :: os, rest)) :
    ∃ stream', readStdinLine stream = some (o, stream') ∧
      (o.endedWithEof = false → ∃ fuel, readLinesFrom fuel stream' = some (os, rest)) := by
  cases fuel with
  | zero => cases h
  | succ fuel =>
    rw [readLinesFrom_succ] at h
    obtain ⟨⟨out, stream'⟩, hout, h⟩ := Option.bind_eq_some_iff.mp h
    split_ifs at h with hended
    · cases h
      exact ⟨_, hout, fun hnot => by rw [hended] at hnot; cases hnot⟩
    · obtain ⟨⟨outs, rest'⟩, houts, h⟩ := Option.bind_eq_some_iff.mp h
      cases h
      exact ⟨_, hout, fun _ => ⟨fuel, houts⟩⟩

theorem of_readLinesFrom {stream : List Byte} {ps : List (List Byte)} {fuel : ℕ}
    (h : Splits EndsLine stream ps) (hnul : 0 ∉ stream)
    (hread : readLinesFrom fuel stream = some (outputs ps, [])) :
    eof ∉ stream ∧ ∀ p ∈ ps, Fits p := by
  induction h generalizing fuel with
  | @last p hp =>
    obtain ⟨stream', hfirst, -⟩ := readLinesFrom_cons hread
    have hfirst' : readStdinLine (p ++ []) = some (⟨true, joined p⟩, stream') := by
      rwa [List.append_nil]
    obtain ⟨heof, hfits⟩ := inside_of_read hnul hp hfirst'
    exact ⟨heof, fun q hq => List.mem_singleton.mp hq ▸ hfits⟩
  | @more p rest c ps hp hc hrest ih =>
    obtain rfl := hc.1
    simp only [List.mem_append, List.mem_cons, not_or] at hnul
    rw [outputs_cons hrest] at hread
    obtain ⟨stream', hfirst, hlines⟩ := readLinesFrom_cons hread
    obtain ⟨heof, hfits⟩ := inside_of_read hnul.1 hp hfirst
    rw [Inside.line ⟨hnul.1, heof, hp⟩ hfits hc rest] at hfirst
    cases hfirst
    obtain ⟨fuel', hrest'⟩ := hlines rfl
    obtain ⟨heofs, hfitss⟩ := ih hnul.2.2 hrest'
    refine ⟨?_, List.forall_mem_cons.mpr ⟨hfits, hfitss⟩⟩
    simp only [List.mem_append, List.mem_cons, not_or]
    exact ⟨heof, by decide, heofs⟩

/-- The calls cut the stream exactly at its free newlines and take out the pairs of a backslash and a
newline, and the last call alone reports the end, which it has reached, if and only if no byte is taken
for `EOF` and no line has more bytes before its last one than the largest size of the buffer. -/
theorem readLines_iff {stream : List Byte} (hnul : 0 ∉ stream) :
    (∃ ps, Splits EndsLine stream ps ∧ readLines stream = some (outputs ps, [])) ↔
      eof ∉ stream ∧ ∀ ps, Splits EndsLine stream ps → ∀ p ∈ ps, Fits p := by
  constructor
  · rintro ⟨ps, hps, hread⟩
    obtain ⟨heof, hfits⟩ := of_readLinesFrom hps hnul hread
    exact ⟨heof, fun qs hqs => hps.unique hqs ▸ hfits⟩
  · rintro ⟨heof, hfits⟩
    obtain ⟨ps, hps⟩ := exists_splits EndsLine stream
    exact ⟨ps, hps, readLinesFrom_splits hps hnul heof (hfits ps hps) (Nat.lt_succ_self _)⟩

theorem length_joined_le (piece : List Byte) : (joined piece).length ≤ piece.length := by
  induction piece using joined.induct with
  | case1 => exact Nat.le_refl _
  | case2 c => exact Nat.le_refl _
  | case3 piece ih =>
    rw [joined, if_pos rfl, if_pos rfl, List.length_cons, List.length_cons]
    omega
  | case4 d piece hd ih =>
    rw [joined, if_pos rfl, if_neg hd]
    simp only [List.length_cons]
    omega
  | case5 c d piece hc ih =>
    rw [joined, if_neg hc, List.length_cons, List.length_cons]
    exact Nat.succ_le_succ ih

/-- A stream that is not longer than the largest size of the buffer has only lines that fit. -/
theorem fits_of_length {stream : List Byte} (h : stream.length ≤ maxSize) {ps : List (List Byte)}
    (hps : Splits EndsLine stream ps) : ∀ p ∈ ps, Fits p := by
  intro p hp q c hq
  have hle := hps.length_le p hp
  have hlen := hq.length_le
  rw [List.length_append, List.length_singleton] at hlen
  have hjoined := length_joined_le q
  omega

/-- The stream `a`, backslash, newline, `b`, newline has two lines, the last one empty. -/
theorem readLines_pair : ∃ ps, Splits EndsLine [97, backslash, newline, 98, newline] ps ∧
    readLines [97, backslash, newline, 98, newline] = some (outputs ps, []) :=
  (readLines_iff (by decide)).mpr
    ⟨by decide, fun _ hps => fits_of_length (by rw [maxSize]; decide) hps⟩

/-- Of the two lines with byte 255 in the first, only the part before that byte is ever read. -/
theorem readLines_eof : 0 ∉ [97, eof, newline, 98, newline] ∧
    ¬∃ ps, Splits EndsLine [97, eof, newline, 98, newline] ps ∧
      readLines [97, eof, newline, 98, newline] = some (outputs ps, []) := by
  refine ⟨by decide, ?_⟩
  rintro ⟨ps, -, hread⟩
  have hrest : (readLines [97, eof, newline, 98, newline]).map Prod.snd = some [newline, 98, newline] := by
    decide
  rw [hread] at hrest
  cases hrest

end SystemsProgramming.Shell

import SystemsProgramming.UserFs.SizeLimit

/-! Sizes of reads and writes that are no `int`. The file system works with the low 32 bits of a size,
as a signed number: what it then returns is what was asked for only by accident. -/

namespace SystemsProgramming.UserFs

open Transition

variable {fs fs' : Fs} {v v' : Volume}

namespace Fs

/-- A permitted read returns what is left in the file, up to the size. -/
def ReadsExactly (fs : Fs) (e : Event) : Prop :=
  ∀ fd size d p total, e.1 = .read fd size → fs.descriptorAt fd = some d →
    ¬specificFlagIsPresent d.flags ufsWriteOnly → fs.positionOf d = some p →
    fs.sizeOf d.file = some total → 0 ≤ e.2.ret ∧ e.2.ret = min (size : ℤ) (total - p)

/-- A permitted write returns the size and has written all, or fails for memory and changes nothing. -/
def WritesExactly (fs : Fs) (e : Event) (fs' : Fs) : Prop :=
  ∀ fd buf d p, e.1 = .write fd buf → fs.descriptorAt fd = some d →
    ¬specificFlagIsPresent d.flags ufsReadOnly → fs.positionOf d = some p →
    (e.2.ret = buf.length ∧ ∀ i byte, buf[i]? = some byte →
      fs'.byteAt d.file (p.toNat + i) = some byte) ∨
    (e.2.ret = -1 ∧ e.2.errno = .noMem ∧ fs' = { fs with ufsErrorCode := .noMem })

/-- The size is an `int`, or it does not matter. A write whose size becomes `-1` looks like one that
fails, if the last call that failed did so for memory. -/
def Narrows (fs : Fs) : Op → Prop
  | .read fd size => ∀ d p total, fs.descriptorAt fd = some d →
    ¬specificFlagIsPresent d.flags ufsWriteOnly → fs.positionOf d = some p →
    fs.sizeOf d.file = some total → p ≤ total ∧ (size < 2 ^ 31 ∨ total - p ≤ int size)
  | .write fd buf => ∀ d p, fs.descriptorAt fd = some d →
    ¬specificFlagIsPresent d.flags ufsReadOnly → fs.positionOf d = some p →
    buf.length < 2 ^ 31 ∨ (maxFileSize < p + int buf.length ∧ p + int buf.length < 2 ^ 31) ∨
      (int buf.length = -1 ∧ fs.ufsErrorCode = .noMem)
  | _ => True

end Fs

/-! ### Arithmetic -/

/-- A size that is no `int` becomes smaller. -/
theorem int_lt_self {n : ℕ} (h : 2 ^ 31 ≤ n) : int n < n := by
  have := int_lt n
  omega

/-- What a read returns is what was asked for unless the low bits say less than what is left. -/
theorem readCount_exact_iff {size : ℕ} {left : ℤ} (hleft : left < 2 ^ 31) :
    (0 ≤ readCount (int size) left ∧ readCount (int size) left = min (size : ℤ) left) ↔
      0 ≤ left ∧ (size < 2 ^ 31 ∨ left ≤ int size) := by
  rw [Volume.readCount_eq]
  rcases Nat.lt_or_ge size (2 ^ 31) with hsmall | hlarge
  · rw [int_eq (by omega) (by omega)]
    omega
  · have := int_lt_self hlarge
    omega

/-! ### Reads -/

theorem Mirrors.readsExactly_iff (h : Mirrors fs v) {op : Op} {out : Out} (hd : v.Did op out v') :
    fs.ReadsExactly (op, out) ↔ ∀ fd size, op = .read fd size → fs.Narrows op := by
  constructor
  · rintro hexact fd size rfl d p total hdesc hflag hp htotal
    have hret := hexact fd size d p total rfl hdesc hflag hp htotal
    obtain ⟨x, hx, hs⟩ := h.opened hdesc
    obtain rfl := Option.some.inj (hs.position.symm.trans hp)
    obtain rfl := Option.some.inj (hs.size.symm.trans htotal)
    have hextent := h.formed.extent x.file
    rw [maxFileSize_eq] at hextent
    obtain ⟨n, bytes, c, rfl, -, hn, -⟩ := hd.read_cases hx (hs.flags ▸ hflag)
    dsimp only at hret
    rw [hn] at hret
    have hiff := (readCount_exact_iff (by omega)).mp hret
    omega
  · rintro hnarrows fd size d p total heq hdesc hflag hp htotal
    obtain rfl : op = .read fd size := heq
    obtain ⟨hle, hsize⟩ := hnarrows fd size rfl d p total hdesc hflag hp htotal
    obtain ⟨x, hx, hs⟩ := h.opened hdesc
    obtain rfl := Option.some.inj (hs.position.symm.trans hp)
    obtain rfl := Option.some.inj (hs.size.symm.trans htotal)
    have hextent := h.formed.extent x.file
    rw [maxFileSize_eq] at hextent
    obtain ⟨n, bytes, c, rfl, -, hn, -⟩ := hd.read_cases hx (hs.flags ▸ hflag)
    dsimp only
    rw [hn]
    exact (readCount_exact_iff (by omega)).mpr ⟨by omega, hsize⟩

/-! ### Writes -/

namespace Fs

/-- A size that becomes negative is returned as it is. -/
theorem ufsWrite_negative {fd p : ℤ} {buf : List UInt8} {d : Filedesc}
    (hd : fs.descriptorAt fd = some d) (hp : fs.positionOf d = some p)
    (hflag : ¬specificFlagIsPresent d.flags ufsReadOnly) (h0 : 0 ≤ p) (h1 : p ≤ maxFileSize)
    (hneg : int buf.length < 0) : fs.ufsWrite fd buf = some (int buf.length, fs) := by
  obtain ⟨i, hi, hload⟩ := descriptorAt_cases hd
  obtain ⟨block, hblock, rfl⟩ := Option.map_eq_some_iff.mp hp
  have hfits : block.index * blockSize + d.blockOffset + int buf.length < 2 ^ 31 := by
    rw [maxFileSize_eq] at h1
    omega
  have hend := writeEnd_eq h0 h1 hfits
  have hnone : buf.take (int buf.length).toNat = [] := by
    rw [Int.toNat_of_nonpos hneg.le, List.take_zero]
  simp only [ufsWrite, writeViaDescriptor, hi, hload, hblock, hend, hnone, Option.bind_eq_bind,
    Option.bind_some, Option.pure_def, writeBytes]
  refine (if_neg hflag).trans (if_neg ?_)
  omega

end Fs

/-- The step of a write that is not refused. -/
theorem Mirrors.write_done (h : Mirrors fs v) {fd : ℤ} (buf : List UInt8) {x : Handle}
    (hx : v.handle fd = some x) (hflag : ¬specificFlagIsPresent x.flags ufsReadOnly)
    (hroom : ¬(maxFileSize < (v.cursor x).pos + int buf.length ∧
      (v.cursor x).pos + int buf.length < 2 ^ 31)) :
    ∃ fs', fs.Step (.write fd buf, ⟨int buf.length, fs.ufsErrorCode, []⟩) fs' ∧
      ∀ i byte, (buf.take (int buf.length).toNat)[i]? = some byte →
        fs'.byteAt x.file ((v.cursor x).pos + i) = some byte := by
  obtain ⟨c, hwrite, hc⟩ := h.formed.ufsWrite_done buf hx hflag hroom
  obtain ⟨l, hr⟩ := h.represents
  obtain ⟨fs', l', hcall, hr'⟩ := hr.ufsWrite hwrite fun f => by
    have hlt := int_lt buf.length
    have hpos := h.formed.pos _ x (Volume.slot_of_handle hx)
    have hlen : (buf.take (int buf.length).toNat).length ≤ (int buf.length).toNat :=
      List.length_take_le _ _
    have hold := h.formed.length_le f
    rw [maxFileSize_eq] at hpos
    rw [Volume.clusters_seek]
    split_ifs with hf
    · have hold' := h.formed.length_le x.file
      rw [hc.length, Volume.clusters_cursor]
      omega
    · exact hold
  refine ⟨fs', ?_, fun i byte hbyte => ?_⟩
  · rw [Fs.Step, Fs.exec, hcall, Option.map_some, Fs.exec.observe, hr'.errno, hr.errno]
    rfl
  · obtain ⟨file, hfile⟩ := hr'.file_of_handle (Volume.handle_seek hx c)
    have hlt := (List.getElem?_eq_some_iff.mp hbyte).1
    rw [hr'.byteAt_eq hfile, Volume.clusters_seek, if_pos rfl, hc.cell, if_pos (by omega),
      Nat.add_sub_cancel_left, hbyte]

/-- The step of a write that is refused. -/
theorem Mirrors.write_refused (h : Mirrors fs v) {fd : ℤ} {buf : List UInt8} {x : Handle}
    (hx : v.handle fd = some x) (hflag : ¬specificFlagIsPresent x.flags ufsReadOnly)
    (hlarge : maxFileSize < (v.cursor x).pos + int buf.length)
    (hfits : (v.cursor x).pos + int buf.length < 2 ^ 31) :
    fs.Step (.write fd buf, ⟨-1, .noMem, []⟩) { fs with ufsErrorCode := .noMem } := by
  obtain ⟨d, hd, hs⟩ := h.handle hx
  have hpos := h.formed.pos _ x (Volume.slot_of_handle hx)
  rw [Fs.Step, Fs.exec, Fs.ufsWrite_refused hd hs.position (hs.flags ▸ hflag)
    (Int.natCast_nonneg _) hpos hlarge hfits]
  rfl

theorem Mirrors.writesExactly_iff (h : Mirrors fs v) {op : Op} {out : Out}
    (hstep : fs.Step (op, out) fs') :
    fs.WritesExactly (op, out) fs' ↔ ∀ fd buf, op = .write fd buf → fs.Narrows op := by
  have hunique : ∀ {fs₁ out₁}, fs.Step (op, out₁) fs₁ → out₁ = out ∧ fs₁ = fs' := fun hstep₁ =>
    Prod.mk.inj (Option.some.inj (hstep₁.symm.trans hstep))
  constructor
  · rintro hexact fd buf rfl d p hd hflag hp
    have hwrote := hexact fd buf d p rfl hd hflag hp
    obtain ⟨x, hx, hs⟩ := h.opened hd
    obtain rfl := Option.some.inj (hs.position.symm.trans hp)
    rw [hs.flags] at hflag
    by_contra hnot
    obtain ⟨hlen, hroom, hlast⟩ : 2 ^ 31 ≤ buf.length ∧ ¬(maxFileSize < (v.cursor x).pos +
        int buf.length ∧ (v.cursor x).pos + int buf.length < 2 ^ 31) ∧
        ¬(int buf.length = -1 ∧ fs.ufsErrorCode = .noMem) := by
      push Not at hnot
      exact ⟨hnot.1, fun hr => absurd hr.2 (not_lt_of_ge (hnot.2.1 hr.1)), fun hl => hnot.2.2 hl.1 hl.2⟩
    obtain ⟨fs₁, hstep₁, -⟩ := h.write_done _ hx hflag hroom
    obtain ⟨rfl, rfl⟩ := hunique hstep₁
    dsimp only at hwrote
    rcases hwrote with ⟨hret, -⟩ | ⟨hret, herrno, -⟩
    · exact absurd hret (int_lt_self hlen).ne
    · exact hlast ⟨hret, herrno⟩
  · rintro hnarrows fd buf d p heq hd hflag hp
    obtain rfl : op = .write fd buf := heq
    have hcases := hnarrows fd buf rfl d p hd hflag hp
    obtain ⟨x, hx, hs⟩ := h.opened hd
    obtain rfl := Option.some.inj (hs.position.symm.trans hp)
    have hflag' := hs.flags ▸ hflag
    rw [hs.file, Int.toNat_natCast]
    by_cases hroom : maxFileSize < (v.cursor x).pos + int buf.length ∧
        (v.cursor x).pos + int buf.length < 2 ^ 31
    · obtain ⟨rfl, rfl⟩ := hunique (h.write_refused hx hflag' hroom.1 hroom.2)
      exact .inr ⟨rfl, rfl, rfl⟩
    · rcases hcases with hlen | hrefused | ⟨hneg, herrno⟩
      · obtain ⟨fs₁, hstep₁, hbytes⟩ := h.write_done _ hx hflag' hroom
        obtain ⟨rfl, rfl⟩ := hunique hstep₁
        have hint : int buf.length = buf.length := int_eq (by omega) (by omega)
        rw [hint, Int.toNat_natCast, List.take_length] at hbytes
        left
        dsimp only
        exact ⟨hint, hbytes⟩
      · exact absurd hrefused hroom
      · have hpos := h.formed.pos _ x (Volume.slot_of_handle hx)
        have hcall := Fs.ufsWrite_negative hd hp hflag (Int.natCast_nonneg _) hpos
          (by omega : int buf.length < 0)
        have hstep₁ : fs.Step (.write fd buf, ⟨int buf.length, fs.ufsErrorCode, []⟩) fs := by
          rw [Fs.Step, Fs.exec, hcall]
          rfl
        obtain ⟨rfl, rfl⟩ := hunique hstep₁
        right
        dsimp only
        exact ⟨hneg, herrno, by rw [← herrno]⟩

/-- As long as the sum of position and size of each permitted write before is an `int`, every call has a
result, and a read or write of any size does exactly what it was asked for if and only if its size is
an `int`, or does not matter, and the position is not behind the end of the file. -/
theorem exact_iff_narrows {es : List Event}
    (hrun : Run (restrict Fs.Step fun fs e => fs.Fits e.1) .initial es fs) :
    (∀ op, ∃ out fs', fs.Step (op, out) fs') ∧ ∀ e fs', fs.Step e fs' →
      (fs.ReadsExactly e ∧ fs.WritesExactly e fs' ↔ fs.Narrows e.1) := by
  obtain ⟨v, -, h⟩ := mirrors_initial.run (fun _ _ => True)
    (fun _ _ _ _ hfits => ⟨hfits, trivial⟩) hrun
  constructor
  · intro op
    by_cases hfits : fs.Fits op
    · obtain ⟨out, fs', -, hcall, -⟩ := h.exec op hfits
      exact ⟨out, fs', hcall⟩
    · cases op with
      | write fd buf =>
        simp only [Fs.Fits] at hfits
        push Not at hfits
        obtain ⟨d, p, hd, -, hflag, -⟩ := hfits
        obtain ⟨x, hx, hs⟩ := h.opened hd
        have hflag' := hs.flags ▸ hflag
        by_cases hroom : maxFileSize < (v.cursor x).pos + int buf.length ∧
            (v.cursor x).pos + int buf.length < 2 ^ 31
        · exact ⟨_, _, h.write_refused hx (by simpa using hflag') hroom.1 hroom.2⟩
        · obtain ⟨fs', hstep, -⟩ := h.write_done _ hx (by simpa using hflag') hroom
          exact ⟨_, fs', hstep⟩
      | _ => exact absurd trivial hfits
  · rintro ⟨op, out⟩ fs' hstep
    rw [h.writesExactly_iff hstep]
    cases op with
    | read fd size =>
      obtain ⟨v', -, hd, -⟩ := h.step (show fs.Fits (.read fd size) from trivial) hstep
      rw [h.readsExactly_iff hd]
      exact ⟨fun hboth => hboth.1 fd size rfl, fun hn => ⟨fun _ _ _ => hn, fun _ _ heq => nomatch heq⟩⟩
    | write fd buf =>
      exact ⟨fun hboth => hboth.2 fd buf rfl, fun hn => ⟨fun _ _ _ _ _ heq => (nomatch heq), fun _ _ _ => hn⟩⟩
    | _ =>
      exact ⟨fun _ => trivial, fun _ => ⟨fun _ _ _ _ _ heq => (nomatch heq), fun _ _ heq => (nomatch heq)⟩⟩

/-- A file of two bytes that is read through a second descriptor. -/
theorem exact_iff_narrows_read : ∃ fs : Fs, fs.sizeOf 0 = some 2 ∧
    (∀ op, ∃ out fs', fs.Step (op, out) fs') ∧ ∀ e fs', fs.Step e fs' →
      (fs.ReadsExactly e ∧ fs.WritesExactly e fs' ↔ fs.Narrows e.1) := by
  obtain ⟨fs, hsize, hrun⟩ : ∃ fs : Fs, fs.sizeOf 0 = some 2 ∧
      Run (restrict Fs.Step fun fs e => fs.Fits e.1) .initial
        [(.open [102] ufsCreate, ⟨0, .noErr, []⟩), (.write 0 [7, 8], ⟨2, .noErr, []⟩),
          (.open [102] 0, ⟨1, .noErr, []⟩), (.read 1 9, ⟨2, .noErr, [some 7, some 8]⟩)] fs := by
    refine ⟨_, ?_, .cons ⟨trivial, rfl⟩ (.cons ⟨fun d p hd hp _ => ?_, rfl⟩
      (.cons ⟨trivial, rfl⟩ (.single ⟨trivial, rfl⟩)))⟩
    · rfl
    · cases hd
      cases hp
      decide
  exact ⟨fs, hsize, exact_iff_narrows hrun⟩

/-- `2^31` bytes of an empty file are read, and `2^32` bytes are written to it. -/
theorem narrowed_sizes : ∃ fs fs₁ fs₂ d buf, Run Fs.Step .initial
      [(.open [102] ufsCreate, ⟨0, .noErr, []⟩)] fs ∧ fs.descriptorAt 0 = some d ∧
    buf = List.replicate 4294967296 0 ∧
    fs.Step (.read 0 2147483648, ⟨-2147483648, .noErr, []⟩) fs₁ ∧
    ¬fs.ReadsExactly (.read 0 2147483648, ⟨-2147483648, .noErr, []⟩) ∧
    fs.Step (.write 0 buf, ⟨0, .noErr, []⟩) fs₂ ∧
    ¬fs.WritesExactly (.write 0 buf, ⟨0, .noErr, []⟩) fs₂ := by
  obtain ⟨fs, hopen, d, hd, hp, htotal, hflags, herrno⟩ : ∃ fs : Fs,
      Fs.initial.Step (.open [102] ufsCreate, ⟨0, .noErr, []⟩) fs ∧ ∃ d : Filedesc,
      fs.descriptorAt 0 = some d ∧ fs.positionOf d = some 0 ∧ fs.sizeOf d.file = some 0 ∧
      d.flags = ufsCreate ∧ fs.ufsErrorCode = .noErr := ⟨_, rfl, _, rfl, rfl, rfl, rfl, rfl⟩
  obtain ⟨buf, hbuf⟩ : ∃ buf : List UInt8, buf = List.replicate 4294967296 0 := ⟨_, rfl⟩
  have hlen : buf.length = 4294967296 := by rw [hbuf, List.length_replicate]
  have hint : int buf.length = 0 := by
    rw [hlen]
    decide
  obtain ⟨v, -, -, h⟩ := mirrors_initial.step (show Fs.initial.Fits (.open [102] ufsCreate) from trivial)
    hopen
  obtain ⟨l, hr⟩ := h.represents
  obtain ⟨x, hx, hs⟩ := h.opened hd
  have hread : ¬specificFlagIsPresent d.flags ufsReadOnly := by
    rw [hflags]
    decide
  have hwrite : ¬specificFlagIsPresent d.flags ufsWriteOnly := by
    rw [hflags]
    decide
  -- the read
  obtain ⟨out, fs₁, v₁, hstep₁, -, hdid, -⟩ := h.exec (.read 0 2147483648) trivial
  have hout : out = ⟨-2147483648, .noErr, []⟩ := by
    obtain ⟨n, bytes, c, rfl, -, hn, hc⟩ := hdid.read_cases hx (hs.flags ▸ hwrite)
    have hextent := Option.some.inj (hs.size.symm.trans htotal)
    have hpos := Option.some.inj (hs.position.symm.trans hp)
    have hsize : int (2147483648 : ℕ) = -2147483648 := by decide
    rw [hextent, hpos, Volume.readCount_eq, hsize] at hn
    obtain rfl : n = -2147483648 := by omega
    rw [hc.bytes, ← hr.errno, herrno]
    rfl
  subst hout
  -- the write
  obtain ⟨fs₂, hstep₂, -⟩ := h.write_done buf hx (hs.flags ▸ hread) (by
    have hpos := h.formed.pos _ x (Volume.slot_of_handle hx)
    rw [hint]
    omega)
  rw [hint, herrno] at hstep₂
  refine ⟨fs, fs₁, fs₂, d, buf, .single hopen, hd, hbuf, hstep₁, fun hexact => ?_, hstep₂,
    fun hexact => ?_⟩
  · exact absurd (hexact 0 _ d 0 0 rfl hd hwrite hp htotal).1 (by decide)
  · rcases hexact 0 buf d 0 rfl hd hread hp with ⟨hret, -⟩ | ⟨hret, -⟩
    · rw [hlen] at hret
      exact absurd (show (0 : ℤ) = 4294967296 from hret) (by decide)
    · exact absurd (show (0 : ℤ) = -1 from hret) (by decide)

end SystemsProgramming.UserFs

import SystemsProgramming.UserFs.Contents

/-! The limit on the size of a file. The guard of a write adds the position and the size in `int`: as
long as the sum is one, no file gets over the limit, and a sum behind it is taken for a negative one. -/

namespace SystemsProgramming.UserFs

open Transition

variable {fs fs' : Fs} {l : Layout} {v v' : Volume}

theorem int_ge (x : ℤ) : -2 ^ 31 ≤ int x := Int.le_bmod (by decide)

theorem int_lt (x : ℤ) : int x < 2 ^ 31 := Int.bmod_lt (by decide)

/-- The guard of a write, in numbers. -/
theorem guard_iff {p : ℕ} (hp : (p : ℤ) ≤ maxFileSize) (x : ℤ) :
    maxFileSize < int (p + int x) ↔ maxFileSize < p + int x ∧ p + int x < 2 ^ 31 := by
  have hge := int_ge x
  have hlt := int_lt x
  rw [maxFileSize_eq] at hp ⊢
  rcases lt_or_ge ((p : ℤ) + int x) (2 ^ 31) with hsmall | hlarge
  · rw [int_eq (by omega) hsmall]
    omega
  · rw [int_wrapped hlarge (by omega)]
    omega

namespace Fs

/-- No file is over the limit. -/
def WithinLimit (fs : Fs) : Prop := ∀ f size, fs.sizeOf f = some size → size ≤ maxFileSize

/-- A permitted write that would get over the limit is refused, and changes nothing. -/
def RefusesLarge (fs : Fs) (e : Event) (fs' : Fs) : Prop :=
  ∀ fd buf d p, e.1 = .write fd buf → fs.descriptorAt fd = some d → fs.positionOf d = some p →
    ¬specificFlagIsPresent d.flags ufsReadOnly → maxFileSize < p + buf.length →
    e.2 = ⟨-1, .noMem, []⟩ ∧ fs' = { fs with ufsErrorCode := .noMem }

/-- A descriptor as the calls find it. -/
theorem descriptorAt_cases {fd : ℤ} {d : Filedesc} (h : fs.descriptorAt fd = some d) :
    ∃ i, fs.tryGetFileDescriptor fd = some (some i) ∧ fs.descriptors.load i = some d := by
  obtain ⟨i, hi, hd⟩ := Option.bind_eq_some_iff.mp h
  exact ⟨i, Option.join_eq_some_iff.mp hi, hd⟩

/-- The end of a write that is an `int`. -/
theorem writeEnd_eq {block : Block} {offset : ℤ} {len : ℕ} (h0 : 0 ≤ block.index * blockSize + offset)
    (h1 : block.index * blockSize + offset ≤ maxFileSize)
    (hfits : block.index * blockSize + offset + int len < 2 ^ 31) :
    int (position block offset + int len) = block.index * blockSize + offset + int len := by
  rw [maxFileSize_eq] at h1
  have hpos : position block offset = block.index * blockSize + offset :=
    int_eq (by omega) (by omega)
  have hlen := int_ge len
  rw [hpos]
  exact int_eq (by omega) hfits

theorem ufsWrite_refused {fd p : ℤ} {buf : List UInt8} {d : Filedesc}
    (hd : fs.descriptorAt fd = some d) (hp : fs.positionOf d = some p)
    (hflag : ¬specificFlagIsPresent d.flags ufsReadOnly) (h0 : 0 ≤ p) (h1 : p ≤ maxFileSize)
    (hlarge : maxFileSize < p + int buf.length) (hfits : p + int buf.length < 2 ^ 31) :
    fs.ufsWrite fd buf = some (fs.throwUfsError .noMem) := by
  obtain ⟨i, hi, hload⟩ := descriptorAt_cases hd
  obtain ⟨block, hblock, rfl⟩ := Option.map_eq_some_iff.mp hp
  have hend := writeEnd_eq h0 h1 hfits
  simp only [ufsWrite, writeViaDescriptor, hi, hload, hblock, hend, Option.bind_eq_bind,
    Option.bind_some, Option.pure_def]
  exact (if_neg hflag).trans (if_pos hlarge)

end Fs

/-- A write that is not refused is one of the bytes that the low bits of the size ask for. -/
theorem Volume.Formed.ufsWrite_done (hv : v.Formed) {fd : ℤ} (buf : List UInt8) {h : Handle}
    (hh : v.handle fd = some h) (hflag : ¬specificFlagIsPresent h.flags ufsReadOnly)
    (hroom : ¬(maxFileSize < (v.cursor h).pos + int buf.length ∧
      (v.cursor h).pos + int buf.length < 2 ^ 31)) :
    ∃ c, v.ufsWrite fd buf = some (int buf.length, v.seek fd.toNat h c) ∧
      (v.cursor h).Wrote (buf.take (int buf.length).toNat) c := by
  have hslot := slot_of_handle hh
  have hguard := guard_iff (hv.pos _ h hslot) buf.length
  rw [← hv.positionAt_eq hslot] at hguard
  obtain ⟨c, hwrite, hc⟩ := (hv.cursor _ h hslot).writeBytes (buf.take (int buf.length).toNat)
  refine ⟨c, ?_, hc⟩
  unfold Volume.ufsWrite
  rw [hh]
  dsimp only
  rw [if_neg hflag, if_neg, hwrite]
  · rfl
  · exact fun hlarge => hroom ((hv.positionAt_eq hslot) ▸ hguard.mp hlarge)

theorem Mirrors.withinLimit (h : Mirrors fs v) : fs.WithinLimit := by
  intro f size hsize
  obtain ⟨l, hr⟩ := h.represents
  cases hfile : fs.files.load f with
  | none =>
    rw [Fs.sizeOf, hfile] at hsize
    cases hsize
  | some file =>
    obtain rfl := Option.some.inj ((hr.sizeOf_eq (h.formed.shaped f) hfile).symm.trans hsize)
    exact h.formed.extent f

theorem Mirrors.refusesLarge (h : Mirrors fs v) {e : Event} (hfits : fs.Fits e.1)
    (hstep : fs.Step e fs') : fs.RefusesLarge e fs' := by
  intro fd buf d p hop hd hp hflag hlarge
  obtain ⟨op, out⟩ := e
  obtain rfl : op = .write fd buf := hop
  have hsum := hfits d p hd hp hflag
  obtain ⟨x, hx, hs⟩ := h.opened hd
  obtain rfl := Option.some.inj (hs.position.symm.trans hp)
  have hpos := h.formed.pos _ x (Volume.slot_of_handle hx)
  have hint : int buf.length = buf.length := int_eq (by omega) (by omega)
  rw [← hint] at hsum hlarge
  have hcall := Fs.ufsWrite_refused hd hp hflag (Int.natCast_nonneg _) hpos hlarge hsum
  rw [Fs.Step, Fs.exec, hcall] at hstep
  obtain ⟨hout, hfs'⟩ := Prod.mk.inj (Option.some.inj hstep)
  exact ⟨hout.symm, hfs'.symm⟩

/-- No run takes a file over the limit as long as the sum of position and size of each permitted write
is an `int`. -/
theorem within_limit {es : List Event}
    (hrun : Run (restrict Fs.Step fun fs e => fs.Fits e.1) .initial es fs) :
    fs.WithinLimit ∧ ∀ e fs', fs.Fits e.1 → fs.Step e fs' → fs.RefusesLarge e fs' := by
  obtain ⟨v, -, h⟩ := mirrors_initial.run (fun _ _ => True)
    (fun _ _ _ _ hfits => ⟨hfits, trivial⟩) hrun
  exact ⟨h.withinLimit, fun e fs' hfits hstep => h.refusesLarge hfits hstep⟩

theorem within_limit_written : ∃ fs : Fs, fs.sizeOf 0 = some 2 ∧ fs.WithinLimit ∧
    ∀ e fs', fs.Fits e.1 → fs.Step e fs' → fs.RefusesLarge e fs' := by
  obtain ⟨fs, hsize, hrun⟩ : ∃ fs : Fs, fs.sizeOf 0 = some 2 ∧
      Run (restrict Fs.Step fun fs e => fs.Fits e.1) .initial
        [(.open [102] ufsCreate, ⟨0, .noErr, []⟩), (.write 0 [7, 8], ⟨2, .noErr, []⟩)] fs := by
    refine ⟨_, ?_, .cons ⟨trivial, rfl⟩ (.single ⟨fun d p hd hp _ => ?_, rfl⟩)⟩
    · rfl
    · cases hd
      cases hp
      decide
  exact ⟨fs, hsize, within_limit hrun⟩

/-! ### A write whose end is not an `int` -/

/-- A write that is permitted and small enough is done. -/
theorem Volume.Did.wrote {fd : ℤ} {buf : List UInt8} {out : Out} {h : Handle}
    (hd : v.Did (.write fd buf) out v') (hh : v.handle fd = some h)
    (hflag : ¬specificFlagIsPresent h.flags ufsReadOnly)
    (hle : (v.cursor h).pos + buf.length ≤ maxFileSize) :
    ∃ c, v' = v.seek fd.toNat h c ∧ (v.cursor h).Wrote buf c := by
  rcases hd.write_cases hh hflag with ⟨-, -, c, hv', hc⟩ | ⟨hlarge, -, -⟩
  · exact ⟨c, hv', hc⟩
  · exact absurd hle (not_le_of_gt hlarge)

/-- A file with its only descriptor at its end. -/
structure Volume.Filled (v : Volume) (c : Cursor) (n : ℕ) : Prop where
  handle : v.handle 0 = some ⟨0, c.block, c.offset, ufsCreate⟩
  cursor : v.cursor ⟨0, c.block, c.offset, ufsCreate⟩ = c
  formed : c.Formed
  pos : c.pos = n
  length : c.clusters.length = n / 512 + 1
  short : tail c.clusters ≤ blockSize
  extent : extent c.clusters = n

/-- A file is created and written to. -/
theorem written_run (buf : List UInt8) (hbuf : (buf.length : ℤ) ≤ maxFileSize) :
    ∃ out₁ out₂ fs v c, Run (restrict Fs.Step fun fs e => fs.Fits e.1) .initial
      [(.open [102] ufsCreate, out₁), (.write 0 buf, out₂)] fs ∧ Mirrors fs v ∧
        v.Filled c buf.length := by
  obtain ⟨out₁, fs₁, v₁, hcall₁, hexec₁, -, h₁⟩ := mirrors_initial.exec (.open [102] ufsCreate) trivial
  have hv₁ : v₁ = (Volume.initial.ufsOpen [102] ufsCreate).2 :=
    (congrArg Prod.snd (Option.some.inj hexec₁)).symm
  have hh₁ : v₁.handle 0 = some ⟨0, 0, 0, ufsCreate⟩ := hv₁ ▸ rfl
  have hpos₁ : (v₁.cursor ⟨0, 0, 0, ufsCreate⟩).pos = 0 := by simp [Volume.cursor, Cursor.pos]
  have hclusters₁ : (v₁.cursor ⟨0, 0, 0, ufsCreate⟩).clusters = [.fresh] := hv₁ ▸ rfl
  have hflag : ¬specificFlagIsPresent ufsCreate ufsReadOnly := by decide
  have hfits : v₁.Fits (.write 0 buf) := fun h hh _ => by
    obtain rfl := Option.some.inj (hh₁.symm.trans hh)
    rw [maxFileSize_eq] at hbuf
    rw [hpos₁]
    omega
  obtain ⟨l₁, hr₁⟩ := h₁.represents
  have hfits₁ := (hr₁.fits_iff h₁.formed _).mpr hfits
  obtain ⟨out₂, fs₂, v₂, hcall₂, -, hdid₂, h₂⟩ := h₁.exec (.write 0 buf) hfits₁
  obtain ⟨c, hv₂, hc⟩ := hdid₂.wrote hh₁ hflag (by rw [hpos₁]; omega)
  have hslot₁ := Volume.slot_of_handle hh₁
  obtain ⟨hshort, hextent⟩ := hc.short (h₁.formed.cursor _ _ hslot₁) (by rw [hclusters₁]; decide)
    (by rw [hpos₁, hclusters₁]; decide)
  have hfresh : extent [.fresh] = 0 := by decide
  refine ⟨out₁, out₂, fs₂, v₂, c, .cons ⟨trivial, hcall₁⟩ (.single ⟨hfits₁, hcall₂⟩), h₂, ?_, ?_,
    hc.formed, ?_, ?_, hshort, ?_⟩
  · rw [hv₂]
    exact Volume.handle_seek hh₁ c
  · rw [hv₂]
    exact Volume.cursor_seek v₁ 0 ⟨0, 0, 0, ufsCreate⟩ c
  · rw [hc.pos, hpos₁, Nat.zero_add]
  · rw [hc.length, hpos₁, hclusters₁, Nat.zero_add]
    exact Nat.max_eq_right (Nat.succ_le_succ (Nat.zero_le _))
  · rw [hextent, hpos₁, hclusters₁, hfresh]
    omega

/-- One byte, and then so many that the sum is `2^31`. -/
theorem oversized_run : ∃ es fs, es.map Prod.fst = [.open [102] ufsCreate, .write 0 [0],
      .write 0 (List.replicate (2 ^ 31 - 1) 0)] ∧
    Run Fs.Step .initial es fs ∧ fs.sizeOf 0 = some (2 ^ 31) ∧ ¬fs.WithinLimit := by
  obtain ⟨buf, hbuf⟩ : ∃ buf : List UInt8, buf = List.replicate (2 ^ 31 - 1) 0 := ⟨_, rfl⟩
  have hlen : buf.length = 2 ^ 31 - 1 := by rw [hbuf, List.length_replicate]
  rw [← hbuf]
  have hflag : ¬specificFlagIsPresent ufsCreate ufsReadOnly := by decide
  obtain ⟨out₁, out₂, fs₂, v₂, c, hrun, h₂, hfilled⟩ := written_run [0] (by decide)
  have hcursor₂ := hfilled.cursor
  have hpos₂ : c.pos = 1 := hfilled.pos
  have hlength₂ : c.clusters.length = 1 := hfilled.length
  have hextent₂ : extent c.clusters = 1 := hfilled.extent
  -- and so many that the sum wraps
  obtain ⟨l₂, hr₂⟩ := h₂.represents
  have hint : int buf.length = buf.length := int_eq (by omega) (by omega)
  obtain ⟨c', hwrite, hc'⟩ := h₂.formed.ufsWrite_done buf hfilled.handle hflag
    (by rw [hcursor₂, hint]; omega)
  rw [hint] at hwrite
  rw [hcursor₂, hint, Int.toNat_natCast, List.take_length] at hc'
  have hlength₃ : c'.clusters.length = 4194305 := hc'.length.trans (by omega)
  obtain ⟨-, hextent₃⟩ := hc'.short hfilled.formed hfilled.short (by omega)
  obtain ⟨v₃, hv₃⟩ : ∃ v₃, v₃ = v₂.seek 0 ⟨0, c.block, c.offset, ufsCreate⟩ c' := ⟨_, rfl⟩
  have hclusters₃ : ∀ f, v₃.clusters f = if f = 0 then c'.clusters else v₂.clusters f := fun f => by
    rw [hv₃]
    exact Function.update_apply ..
  have hwrite₃ : v₂.ufsWrite 0 buf = some ((buf.length : ℤ), v₃) := by
    rw [hv₃]
    exact hwrite
  obtain ⟨fs₃, l₃, hcall₃, hr₃⟩ := hr₂.ufsWrite hwrite₃ fun f => by
    rw [hclusters₃]
    split_ifs
    · omega
    · exact h₂.formed.length_le f
  have hsize : fs₃.sizeOf 0 = some (2 ^ 31) := by
    have hh₃ : v₃.handle 0 = some ⟨0, c'.block, c'.offset, ufsCreate⟩ := by
      rw [hv₃]
      exact Volume.handle_seek hfilled.handle c'
    obtain ⟨file, hfile⟩ := hr₃.file_of_handle hh₃
    have hshaped : Shaped (v₃.clusters 0) := by
      rw [hclusters₃, if_pos rfl]
      exact hc'.formed.shaped
    rw [hr₃.sizeOf_eq hshaped hfile, hclusters₃, if_pos rfl, hextent₃]
    exact congrArg some (by omega)
  refine ⟨[(_, out₁), (_, out₂), (_, ⟨buf.length, fs₃.ufsErrorCode, []⟩)], fs₃, rfl, ?_, hsize, ?_⟩
  · have hstep₃ : fs₂.Step (.write 0 buf, ⟨buf.length, fs₃.ufsErrorCode, []⟩) fs₃ := by
      rw [Fs.Step, Fs.exec, hcall₃]
      rfl
    exact hrun.of_restrict.append (.single hstep₃)
  · intro hlimit
    exact absurd (hlimit 0 _ hsize) (by decide)

end SystemsProgramming.UserFs

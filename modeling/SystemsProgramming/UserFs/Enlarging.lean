import SystemsProgramming.UserFs.Positions

/-! Resizes to more than the size. Within the last block a file gets longer as it should, and reads leave
it so; beyond it the last block becomes overfull, and a read that crosses its end makes the file
shorter. -/

namespace SystemsProgramming.UserFs

open Transition

variable {fs fs' : Fs} {v v' : Volume}

namespace Fs

/-- The steps that are reads. -/
def ReadStep (fs : Fs) (e : Event) (fs' : Fs) : Prop :=
  (∃ fd size, e.1 = .read fd size) ∧ fs.Step e fs'

/-- A permitted read of a file, of a size that is an `int`, hands out what there is up to `n`. -/
def HandsOut (fs : Fs) (f n : ℕ) : Prop :=
  ∀ fd size d p out fs', fs.descriptorAt fd = some d → d.file = f →
    ¬specificFlagIsPresent d.flags ufsWriteOnly → fs.positionOf d = some p → size < 2 ^ 31 →
    fs.Step (.read fd size, out) fs' →
    out.ret = min (size : ℤ) (n - p) ∧ (out.bytes.length : ℤ) = out.ret

/-- A resize to more: the file has the new size then, the bytes before the old end and the positions are
the same, and after any reads the file still has this size and is read up to it. -/
structure Enlarges (fs : Fs) (f newSize : ℕ) (size : ℤ) (out : Out) (fs' : Fs) : Prop where
  ret : out.ret = 0
  bytes : ∀ p : ℕ, (p : ℤ) < size → fs'.byteAt f p = fs.byteAt f p
  positions : ∀ fd d, fs.descriptorAt fd = some d → ∃ d', fs'.descriptorAt fd = some d' ∧
    d'.file = d.file ∧ d'.flags = d.flags ∧ fs'.positionOf d' = fs.positionOf d
  reads : ∀ es fs'', Run ReadStep fs' es fs'' →
    fs''.sizeOf f = some (newSize : ℤ) ∧ fs''.HandsOut f newSize

end Fs

namespace Volume

/-- A read leaves the files of the open descriptors as they are. -/
theorem handle_seek_file {fd fd' : ℤ} {h x : Handle} (hh : v.handle fd = some h)
    (hx : v.handle fd' = some x) (c : Cursor) :
    ∃ y, (v.seek fd.toNat h c).handle fd' = some y ∧ y.file = x.file := by
  by_cases hfd : fd' = fd
  · subst hfd
    obtain rfl := Option.some.inj (hh.symm.trans hx)
    exact ⟨_, handle_seek hh c, rfl⟩
  · exact ⟨x, ((handle_set hh rfl fd').trans (if_neg hfd)).trans hx, rfl⟩

theorem Formed.cut_handle_some (hv : v.Formed) {fd : ℤ} {h : Handle} (hh : v.handle fd = some h)
    (f newSize : ℕ) : ∃ x, (v.cut f newSize).handle fd = some x ∧ x.file = h.file ∧
      x.flags = h.flags ∧ ((v.cut f newSize).cursor x).pos =
        if h.file = f then min (v.cursor h).pos newSize else (v.cursor h).pos := by
  obtain ⟨x, hx, hfile⟩ := handle_cut hh f newSize
  obtain ⟨h', hslot, -, hflags, -, hpos⟩ := hv.cut_slot (slot_of_handle hx)
  obtain rfl := Option.some.inj (Option.some.inj ((slot_of_handle hh).symm.trans hslot))
  exact ⟨x, hx, hfile, hflags, hpos⟩

end Volume

/-- A file of some size that is open, with no descriptor behind an end. -/
structure Sized (fs : Fs) (fd : ℤ) (f n : ℕ) (v : Volume) : Prop where
  mirrors : Mirrors fs v
  regular : v.Regular
  opened : ∃ x, v.handle fd = some x ∧ x.file = f
  extent : extent (v.clusters f) = n

namespace Sized

variable {fd : ℤ} {f n : ℕ}

theorem sizeOf (h : Sized fs fd f n v) : fs.sizeOf f = some (n : ℤ) := by
  obtain ⟨x, hx, rfl⟩ := h.opened
  obtain ⟨d, -, hs⟩ := h.mirrors.handle hx
  rw [← hs.file, hs.size, h.extent]

/-- What a permitted read is. -/
theorem read (h : Sized fs fd f n v) {fd' : ℤ} {size : ℕ} {d : Filedesc} {p : ℤ} {out : Out}
    (hd : fs.descriptorAt fd' = some d) (hfile : d.file = f)
    (hflag : ¬specificFlagIsPresent d.flags ufsWriteOnly) (hp : fs.positionOf d = some p)
    (hsize : size < 2 ^ 31) (hdid : v.Did (.read fd' size) out v') :
    out.ret = min (size : ℤ) (n - p) ∧ (out.bytes.length : ℤ) = out.ret := by
  obtain ⟨x, hx, hs⟩ := h.mirrors.opened hd
  obtain rfl := Option.some.inj (hs.position.symm.trans hp)
  have hextent : UserFs.extent (v.clusters x.file) = n := by
    rw [← hs.file, hfile]
    exact h.extent
  rw [hs.flags] at hflag
  obtain ⟨m, bytes, c, rfl, -, hm, hc⟩ := hdid.read_cases hx hflag
  have hinside := (h.regular.calm x.file).inside _ x (Volume.slot_of_handle hx) rfl
  rw [hextent] at hinside
  rw [int_eq (by omega) (by omega), Volume.readCount_eq, hextent] at hm
  dsimp only
  rw [hc.bytes, List.length_map, List.length_range]
  omega

/-- Reads keep the size. -/
theorem step (h : Sized fs fd f n v) {e : Event} (hstep : fs.ReadStep e fs') :
    ∃ v', Sized fs' fd f n v' := by
  obtain ⟨⟨fd', size, he⟩, hstep⟩ := hstep
  obtain ⟨op, out⟩ := e
  obtain rfl : op = .read fd' size := he
  obtain ⟨v', -, hdid, h'⟩ := h.mirrors.step (show fs.Fits (.read fd' size) from trivial) hstep
  have hregular := hdid.regular h.regular h.mirrors.formed fun _ => trivial
  obtain ⟨x, hx, hf⟩ := h.opened
  refine ⟨v', h', hregular, ?_, ?_⟩
  · cases hdid with
    | failed => exact ⟨x, hx, hf⟩
    | read hy _ _ hc =>
      obtain ⟨z, hz, hfile⟩ := Volume.handle_seek_file hy hx _
      exact ⟨z, hz, hfile.trans hf⟩
  · cases hdid with
    | failed => exact h.extent
    | @read _ _ y _ _ c hy _ hn hc =>
      rw [Volume.clusters_seek]
      split_ifs with hfile
      · have hslot := Volume.slot_of_handle hy
        have hle := (h.regular.calm y.file).read_le hslot hn
        have hsame := (hc.short (h.mirrors.formed.cursor _ y hslot) (h.regular.calm y.file).short hle).2
        rw [hsame, Volume.clusters_cursor, ← hfile]
        exact h.extent
      · exact h.extent

theorem reads (h : Sized fs fd f n v) {es : List Event} (hrun : Run Fs.ReadStep fs es fs') :
    fs'.sizeOf f = some (n : ℤ) ∧ fs'.HandsOut f n := by
  obtain ⟨v', h'⟩ := hrun.invariant (I := fun fs => ∃ v, Sized fs fd f n v) ⟨v, h⟩
    fun fs e fs' ⟨v, h⟩ hstep => h.step hstep
  refine ⟨h'.sizeOf, fun fd' size d p out fs'' hd hfile hflag hp hsize hstep => ?_⟩
  obtain ⟨v'', -, hdid, -⟩ := h'.mirrors.step (show fs'.Fits (.read fd' size) from trivial) hstep
  exact h'.read hd hfile hflag hp hsize hdid

end Sized

/-- A resize to more than the size of a file. -/
structure Growth (v : Volume) (fd : ℤ) (newSize : ℕ) (h : Handle) : Prop where
  handle : v.handle fd = some h
  larger : extent (v.clusters h.file) < newSize
  below : (newSize : ℤ) < maxFileSize

namespace Growth

variable {fd : ℤ} {newSize : ℕ} {h : Handle} {out : Out}

theorem did (g : Growth v fd newSize h) (hdid : v.Did (.resize fd newSize) out v') :
    out = ⟨0, v.errno, []⟩ ∧ v' = v.cut h.file newSize := by
  rcases hdid.resize_cases g.handle with ⟨-, hout, hv'⟩ | ⟨hlarge, -, -⟩
  · exact ⟨hout, hv'⟩
  · exact absurd g.below (not_lt_of_ge hlarge)

/-- No descriptor is behind the old end, so none is moved. -/
theorem position (g : Growth v fd newSize h) (hv : v.Regular) (hformed : v.Formed) {fd' : ℤ}
    {x : Handle} (hx : v.handle fd' = some x) : ∃ y, (v.cut h.file newSize).handle fd' = some y ∧
      y.file = x.file ∧ y.flags = x.flags ∧
        ((v.cut h.file newSize).cursor y).pos = (v.cursor x).pos := by
  obtain ⟨y, hy, hfile, hflags, hpos⟩ := hformed.cut_handle_some hx h.file newSize
  refine ⟨y, hy, hfile, hflags, hpos.trans ?_⟩
  split_ifs with hf
  · have hinside := (hv.calm h.file).inside _ x (Volume.slot_of_handle hx) hf
    have hlarger := g.larger
    omega
  · rfl

theorem cell (g : Growth v fd newSize h) (hformed : v.Formed) {p : ℕ}
    (hp : (p : ℤ) < extent (v.clusters h.file)) (hshort : tail (v.clusters h.file) ≤ blockSize) :
    cell (Volume.resized (v.clusters h.file) newSize) p = cell (v.clusters h.file) p := by
  have hshaped := hformed.shaped h.file
  have hlength := hshaped.length
  have hlarger := g.larger
  have hk : Volume.cutBlock (v.clusters h.file) newSize =
      min ((v.clusters h.file).length - 1) (newSize / 512) := rfl
  rw [extent, blockSize_eq] at hp hlarger
  rw [blockSize_eq] at hshort
  rw [Volume.cell_resized hshaped, if_pos (by omega)]

theorem sized (g : Growth v fd newSize h) (hformed : v.Formed) (h' : Mirrors fs' (v.cut h.file newSize))
    (hregular : (v.cut h.file newSize).Regular) :
    Sized fs' fd h.file newSize (v.cut h.file newSize) where
  mirrors := h'
  regular := hregular
  opened := Volume.handle_cut g.handle _ newSize
  extent := by
    rw [Volume.clusters_cut, if_pos rfl]
    exact Volume.extent_resized (hformed.shaped h.file) newSize

end Growth

/-- A read that stops where the last block should end makes a file shorter whose last block is overfull. -/
theorem Cursor.Read.shortened {cs : List Cluster} (hcs : Shaped cs) {newSize : ℕ}
    (hlarge : cs.length * 512 < newSize) {c c' : Cursor} {bytes : List (Option UInt8)}
    (hc : c.Read (cs.length * 512) bytes c') (hclusters : c.clusters = Volume.resized cs newSize)
    (hpos : c.pos = 0) : UserFs.extent c'.clusters < newSize := by
  have hlength := hcs.length
  have hk : Volume.cutBlock cs newSize = min (cs.length - 1) (newSize / 512) := rfl
  have hlen : c.clusters.length = cs.length := by
    rw [hclusters, Volume.length_resized hcs]
    omega
  rw [hc.extent, hpos, hlen, if_neg (by omega)]
  omega

namespace Fs

/-- A descriptor of a file that may be read from its start. -/
def ReadableAt (fs : Fs) (f : ℕ) : Prop :=
  ∃ fd d, fs.descriptorAt fd = some d ∧ d.file = f ∧ fs.positionOf d = some 0 ∧
    ¬specificFlagIsPresent d.flags ufsWriteOnly

end Fs

section
variable {fd : ℤ} {newSize : ℕ} {h : Handle} {out : Out}

theorem Mirrors.enlarges (hm : Mirrors fs v) (hv : v.Regular) (g : Growth v fd newSize h)
    (hstep : fs.Step (.resize fd newSize, out) fs') (htame : fs.Tame (.resize fd newSize)) :
    fs.Enlarges h.file newSize (extent (v.clusters h.file)) out fs' := by
  obtain ⟨v', -, hdid, hm'⟩ := hm.step (show fs.Fits (.resize fd newSize) from trivial) hstep
  have hregular := hdid.regular hv hm.formed ((hm.tame_iff _).mp htame)
  obtain ⟨rfl, rfl⟩ := g.did hdid
  have hsized := g.sized hm.formed hm' hregular
  refine ⟨rfl, fun p hp => ?_, fun fd' d hd => ?_, fun es fs'' hrun => hsized.reads hrun⟩
  · obtain ⟨d, -, hs⟩ := hm.handle g.handle
    obtain ⟨y, hy, hfile⟩ := Volume.handle_cut g.handle _ newSize
    obtain ⟨d', -, hs'⟩ := hm'.handle hy
    have hbyte := hs'.byte p
    rw [hs'.file, hfile, Volume.clusters_cut, if_pos rfl,
      g.cell hm.formed hp (hv.calm h.file).short] at hbyte
    rw [hbyte, ← hs.byte p, hs.file]
  · obtain ⟨x, hx, hs⟩ := hm.opened hd
    obtain ⟨y, hy, hfile, hflags, hpos⟩ := g.position hv hm.formed hx
    obtain ⟨d', hd', hs'⟩ := hm'.handle hy
    exact ⟨d', hd', hs'.file.trans (hfile.trans hs.file.symm),
      hs'.flags.trans (hflags.trans hs.flags.symm), by rw [hs'.position, hs.position, hpos]⟩

theorem Mirrors.tame_of_enlarges (hm : Mirrors fs v) (hv : v.Regular) (g : Growth v fd newSize h)
    (hstep : fs.Step (.resize fd newSize, out) fs') (hreader : fs.ReadableAt h.file)
    (he : fs.Enlarges h.file newSize (extent (v.clusters h.file)) out fs') :
    fs.Tame (.resize fd newSize) := by
  rw [hm.tame_iff]
  rintro - x hx rfl -
  obtain rfl := Option.some.inj (g.handle.symm.trans hx)
  by_contra hlarge
  -- a read of the blocks that the file had before
  obtain ⟨v', -, hdid, hm'⟩ := hm.step (show fs.Fits (.resize fd newSize) from trivial) hstep
  obtain ⟨-, rfl⟩ := g.did hdid
  obtain ⟨fd₂, d, hd, hfile, hp, hflag⟩ := hreader
  obtain ⟨x, hx, hs⟩ := hm.opened hd
  obtain ⟨y, hy, hyfile, hyflags, hypos⟩ := g.position hv hm.formed hx
  obtain ⟨d', hd', hs'⟩ := hm'.handle hy
  have hxfile : x.file = h.file := hs.file.symm.trans hfile
  have hpos : ((v.cut h.file newSize).cursor y).pos = 0 := by
    have := Option.some.inj (hs.position.symm.trans hp)
    omega
  have hbelow := g.below
  rw [maxFileSize_eq] at hbelow
  obtain ⟨out₂, fs₂, v₂, hcall₂, -, hdid₂, hm₂⟩ :=
    hm'.exec (.read fd₂ ((v.clusters h.file).length * 512)) trivial
  have hread := (he.reads [] fs' .nil).2 fd₂ _ d' 0 out₂ fs₂ hd'
    (hs'.file.trans (hyfile.trans hxfile)) (by rwa [hs'.flags, hyflags, ← hs.flags])
    (by rw [hs'.position, hpos]; rfl) (by omega) hcall₂
  have hsize := (he.reads [(_, out₂)] fs₂ (.single ⟨⟨_, _, rfl⟩, hcall₂⟩)).1
  cases hdid₂ with
  | failed =>
    obtain ⟨hret, -⟩ := hread
    dsimp only at hret
    omega
  | @read _ _ z n bytes c hz _ hn hc =>
    obtain rfl := Option.some.inj (hy.symm.trans hz)
    have hcount : n.toNat = (v.clusters h.file).length * 512 := by
      obtain ⟨hret, -⟩ := hread
      dsimp only at hret
      omega
    rw [hcount] at hc
    have hresized : ((v.cut h.file newSize).cursor y).clusters =
        Volume.resized (v.clusters h.file) newSize := by
      rw [Volume.clusters_cursor, hyfile, hxfile, Volume.clusters_cut, if_pos rfl]
    have hshort := hc.shortened (hm.formed.shaped h.file) (not_le.mp hlarge) hresized hpos
    obtain ⟨d₂, -, hs₂⟩ := hm₂.handle (Volume.handle_seek hy c)
    have hfile₂ : y.file = h.file := hyfile.trans hxfile
    have hclusters := Volume.clusters_seek (v.cut h.file newSize) fd₂.toNat y c y.file
    rw [if_pos rfl] at hclusters
    have hsize₂ := hs₂.size
    rw [hs₂.file, hclusters, hfile₂] at hsize₂
    have := Option.some.inj (hsize₂.symm.trans hsize)
    omega

end

/-- In every run with writes whose ends are `int`s and resizes that stay within the last block, an
enlarging resize within the last block does what it should, whatever is read then. One that goes
beyond the last block does not, if the file can be read from its start at all. -/
theorem enlarges_iff {es : List Event}
    (hrun : Run (restrict Fs.Step fun fs e => fs.Fits e.1 ∧ fs.Tame e.1) .initial es fs)
    {fd size : ℤ} {newSize : ℕ} {d : Filedesc} (hd : fs.descriptorAt fd = some d)
    (hsize : fs.sizeOf d.file = some size) (hlt : size < newSize)
    (hbelow : (newSize : ℤ) < maxFileSize) : ∃ out fs', fs.Step (.resize fd newSize, out) fs' ∧
      (fs.Tame (.resize fd newSize) → fs.Enlarges d.file newSize size out fs') ∧
      (fs.ReadableAt d.file → fs.Enlarges d.file newSize size out fs' →
        fs.Tame (.resize fd newSize)) := by
  obtain ⟨v, hm, hv⟩ : ∃ v, Mirrors fs v ∧ v.Regular := by
    refine hrun.invariant (I := fun fs => ∃ v, Mirrors fs v ∧ v.Regular)
      ⟨_, mirrors_initial, Volume.regular_initial⟩ fun fs e fs' ⟨v, h, hv⟩ ⟨⟨hfits, htame⟩, hstep⟩ => ?_
    obtain ⟨v', -, hdid, h'⟩ := h.step hfits hstep
    exact ⟨v', h', hdid.regular hv h.formed ((h.tame_iff _).mp htame)⟩
  obtain ⟨out, fs', -, hstep, -⟩ := hm.exec (.resize fd newSize) trivial
  obtain ⟨h, hh, hs⟩ := hm.opened hd
  obtain rfl := Option.some.inj (hs.size.symm.trans hsize)
  have g : Growth v fd newSize h := ⟨hh, hlt, hbelow⟩
  rw [hs.file]
  exact ⟨out, fs', hstep, hm.enlarges hv g hstep, hm.tame_of_enlarges hv g hstep⟩

/-- A file of two bytes that gets the size of a block. -/
theorem enlarges_iff_block : ∃ (fs : Fs) (d : Filedesc), fs.descriptorAt 0 = some d ∧
    fs.Tame (.resize 0 512) ∧ ∃ out fs', fs.Step (.resize 0 512, out) fs' ∧
      (fs.Tame (.resize 0 512) → fs.Enlarges d.file 512 2 out fs') ∧
      (fs.ReadableAt d.file → fs.Enlarges d.file 512 2 out fs' → fs.Tame (.resize 0 512)) := by
  obtain ⟨fs, d, hd, hsize, htame, hrun⟩ : ∃ (fs : Fs) (d : Filedesc), fs.descriptorAt 0 = some d ∧
      fs.sizeOf d.file = some 2 ∧ fs.Tame (.resize 0 512) ∧
      Run (restrict Fs.Step fun fs e => fs.Fits e.1 ∧ fs.Tame e.1) .initial
        [(.open [102] ufsCreate, ⟨0, .noErr, []⟩), (.write 0 [7, 8], ⟨2, .noErr, []⟩)] fs := by
    refine ⟨_, _, rfl, ?_, ?_, .cons ⟨⟨trivial, trivial⟩, rfl⟩
      (.single ⟨⟨fun d p hd hp _ => ?_, trivial⟩, rfl⟩)⟩
    · rfl
    · intro d file last hd hfile hlast _
      cases hd
      cases hfile
      cases hlast
      decide
    · cases hd
      cases hp
      decide
  exact ⟨fs, d, hd, htame, enlarges_iff hrun hd hsize (by decide) (by decide)⟩

/-- An empty file gets one byte more than a block holds. -/
theorem enlarged_over : ∃ fs fs' d, Run Fs.Step .initial
      [(.open [102] ufsCreate, ⟨0, .noErr, []⟩)] fs ∧ fs.descriptorAt 0 = some d ∧
    fs.sizeOf d.file = some 0 ∧ fs.Step (.resize 0 513, ⟨0, .noErr, []⟩) fs' ∧
    ¬fs.Enlarges d.file 513 0 ⟨0, .noErr, []⟩ fs' := by
  obtain ⟨fs, fs', hopen, hstep, d, hd, hp, hsize, hflags, file, last, hfile, hlast, hindex⟩ :
      ∃ fs fs' : Fs, Fs.initial.Step (.open [102] ufsCreate, ⟨0, .noErr, []⟩) fs ∧
      fs.Step (.resize 0 513, ⟨0, .noErr, []⟩) fs' ∧ ∃ d : Filedesc, fs.descriptorAt 0 = some d ∧
      fs.positionOf d = some 0 ∧ fs.sizeOf d.file = some 0 ∧ d.flags = ufsCreate ∧
      ∃ file last, fs.files.load d.file = some file ∧ fs.blocks.load file.lastBlock = some last ∧
      last.index = 0 := ⟨_, _, rfl, rfl, _, rfl, rfl, rfl, rfl, _, _, rfl, rfl, rfl⟩
  refine ⟨fs, fs', d, .single hopen, hd, hsize, hstep, fun he => ?_⟩
  obtain ⟨v, -, hdid, hm⟩ := mirrors_initial.step (show Fs.initial.Fits (.open [102] ufsCreate) from trivial)
    hopen
  have hv := hdid.regular Volume.regular_initial mirrors_initial.formed fun _ => trivial
  obtain ⟨h, hh, hs⟩ := hm.opened hd
  have hextent := Option.some.inj (hs.size.symm.trans hsize)
  have g : Growth v 0 513 h := ⟨hh, by rw [hextent]; decide, by decide⟩
  have he' : fs.Enlarges h.file 513 (extent (v.clusters h.file)) ⟨0, .noErr, []⟩ fs' := by
    rw [hextent, ← hs.file]
    exact he
  have htame := hm.tame_of_enlarges hv g hstep
    ⟨0, d, hd, hs.file, hp, by rw [hflags]; decide⟩ he'
  have hle := htame d file last hd hfile hlast (by decide)
  rw [hindex] at hle
  exact absurd hle (by decide)

end SystemsProgramming.UserFs

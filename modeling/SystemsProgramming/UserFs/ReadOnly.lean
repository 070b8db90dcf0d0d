import SystemsProgramming.UserFs.Contents

/-! Calls through a descriptor that is read-only. `ufs_resize` does not ask for permission, and a read
that reaches the end of an overfull last block appends a new one; all other calls leave the file and
its other descriptors as they are. -/

namespace SystemsProgramming.UserFs

open Transition

variable {fs fs' : Fs} {l : Layout} {v v' v'' : Volume}

namespace Volume

/-- The size and the contents of a file and the positions of its descriptors but for one slot are the
same. -/
structure Untouched (v : Volume) (i f : ℕ) (v' : Volume) : Prop where
  extent : extent (v'.clusters f) = extent (v.clusters f)
  cell : ∀ p, cell (v'.clusters f) p = cell (v.clusters f) p
  slot : ∀ (j : ℕ) (x : Handle), j ≠ i → v.slots[j]? = some (some x) → x.file = f →
    ∃ x', v'.slots[j]? = some (some x') ∧ x'.file = f ∧ (v'.cursor x').pos = (v.cursor x).pos

theorem Untouched.refl (v : Volume) (i f : ℕ) : v.Untouched i f v :=
  ⟨rfl, fun _ => rfl, fun _ x _ hj hx => ⟨x, hj, hx, rfl⟩⟩

theorem Untouched.trans {i f : ℕ} (h : v.Untouched i f v') (k : v'.Untouched i f v'') :
    v.Untouched i f v'' where
  extent := k.extent.trans h.extent
  cell p := (k.cell p).trans (h.cell p)
  slot j x hji hj hx := by
    obtain ⟨x', hj', hx', hpos⟩ := h.slot j x hji hj hx
    obtain ⟨x'', hj'', hx'', hpos'⟩ := k.slot j x' hji hj' hx'
    exact ⟨x'', hj'', hx'', hpos'.trans hpos⟩

/-- How many bytes a read hands out. -/
def readLength (v : Volume) (h : Handle) (size : ℕ) : ℕ :=
  (min (int size) (extent (v.clusters h.file) - (v.cursor h).pos)).toNat

/-- A permitted read stops before the end of the last block, or at the end of a file that is a number of
blocks; a resize is to the size that the file has, with no other descriptor behind it. -/
def Harmless (v : Volume) : Op → Prop
  | .read fd size => ∀ h, v.handle fd = some h → ¬specificFlagIsPresent h.flags ufsWriteOnly →
    (v.cursor h).pos + v.readLength h size < (v.clusters h.file).length * 512 ∨
      (((v.cursor h).pos + v.readLength h size : ℕ) : ℤ) = extent (v.clusters h.file) ∧
        ((v.cursor h).pos + v.readLength h size) % 512 = 0
  | .resize fd newSize => ∀ h, v.handle fd = some h → (newSize : ℤ) < maxFileSize →
    newSize = extent (v.clusters h.file) ∧ ∀ (j : ℕ) (x : Handle), j ≠ fd.toNat →
      v.slots[j]? = some (some x) → x.file = h.file → (v.cursor x).pos ≤ newSize
  | _ => True

theorem untouched_seek {fd : ℤ} {h : Handle} {c : Cursor}
    (hextent : extent c.clusters = extent (v.clusters h.file))
    (hcell : ∀ p, cell c.clusters p = cell (v.clusters h.file) p) :
    v.Untouched fd.toNat h.file (v.seek fd.toNat h c) where
  extent := by rw [clusters_seek, if_pos rfl, hextent]
  cell p := by rw [clusters_seek, if_pos rfl, hcell]
  slot j x hj hx hf := by
    refine ⟨x, ?_, hf, pos_cursor ..⟩
    rw [seek, List.getElem?_set_ne (Ne.symm hj), hx]

theorem slots_cut (f newSize : ℕ) {j : ℕ} {x : Handle} (hj : v.slots[j]? = some (some x)) :
    ∃ x', (v.cut f newSize).slots[j]? = some (some x') ∧ x'.file = x.file := by
  rw [cut, List.getElem?_map, hj]
  exact ⟨_, rfl, Handle.clamp_file ..⟩

theorem Formed.untouched_cut (hv : v.Formed) {i f newSize : ℕ}
    (hsize : (newSize : ℤ) = UserFs.extent (v.clusters f))
    (hbehind : ∀ (j : ℕ) (x : Handle), j ≠ i → v.slots[j]? = some (some x) → x.file = f →
      (v.cursor x).pos ≤ newSize) : v.Untouched i f (v.cut f newSize) where
  extent := by rw [clusters_cut, if_pos rfl, extent_resized (hv.shaped f), hsize]
  cell p := by
    have htail := (hv.shaped f).tail
    have hlength := (hv.shaped f).length
    have hk : cutBlock (v.clusters f) newSize = min ((v.clusters f).length - 1) (newSize / 512) := rfl
    rw [UserFs.extent, blockSize_eq] at hsize
    rw [clusters_cut, if_pos rfl, cell_resized (hv.shaped f)]
    split_ifs with hp
    · rfl
    · rw [UserFs.cell, List.getElem?_eq_none (by omega)]
      rfl
  slot j x hj hx hf := by
    obtain ⟨x', hx', hfile⟩ := slots_cut f newSize hx
    obtain ⟨y, hy, -, -, -, hpos⟩ := hv.cut_slot hx'
    obtain rfl := Option.some.inj (Option.some.inj (hx.symm.trans hy))
    rw [if_pos hf, Nat.min_eq_left (hbehind j x hj hx hf)] at hpos
    exact ⟨x', hx', hfile.trans hf, hpos⟩

theorem readCount_toNat {h : Handle} {size : ℕ} {n : ℤ}
    (hn : n = readCount (int size) (extent (v.clusters h.file) - (v.cursor h).pos)) :
    n.toNat = v.readLength h size := by rw [hn, readCount_eq, readLength]

theorem Did.untouched {op : Op} {out : Out} (hd : v.Did op out v') (hv : v.Formed) {fd : ℤ}
    {h : Handle} (hop : op.fd = some fd) (hh : v.handle fd = some h)
    (hflag : specificFlagIsPresent h.flags ufsReadOnly) (hharmless : v.Harmless op) :
    v.Untouched fd.toNat h.file v' := by
  cases hd with
  | failed => exact ⟨rfl, fun _ => rfl, fun _ x _ hj hx => ⟨x, hj, hx, pos_cursor ..⟩⟩
  | opened => cases hop
  | created => cases hop
  | written hx hwrite =>
    cases hop
    obtain rfl := Option.some.inj (hh.symm.trans hx)
    exact absurd hflag hwrite
  | @read _ size _ _ _ c hx hread hn hc =>
    cases hop
    obtain rfl := Option.some.inj (hh.symm.trans hx)
    refine untouched_seek ?_ hc.cell
    have hextent := hc.extent
    rw [readCount_toNat hn, clusters_cursor] at hextent
    rw [hextent]
    split_ifs with hinside
    · rfl
    · obtain ⟨hend, hblock⟩ := (hharmless h hh hread).resolve_left hinside
      rw [← hend]
      exact_mod_cast Nat.div_mul_cancel (Nat.dvd_of_mod_eq_zero hblock)
  | closed =>
    cases hop
    refine ⟨rfl, fun _ => rfl, fun j x hji hj hx => ⟨x, ?_, hx, pos_cursor ..⟩⟩
    rwa [List.getElem?_set_ne (Ne.symm hji)]
  | deleted => cases hop
  | resized hx hlarge =>
    cases hop
    obtain rfl := Option.some.inj (hh.symm.trans hx)
    obtain ⟨hsize, hbehind⟩ := hharmless h hh hlarge
    exact hv.untouched_cut hsize hbehind

/-- A read that appends a block, and keeps the size. -/
theorem read_to_end {p n len : ℕ} {size total : ℤ} (hp : p < len * 512)
    (hn : n = (min size (total - p)).toNat) (hend : len * 512 ≤ p + n)
    (htotal : total = ((p + n) / 512 * 512 : ℕ)) : ((p + n : ℕ) : ℤ) = total ∧ (p + n) % 512 = 0 := by
  omega

/-- The other calls touch the file. -/
theorem Did.harmless {op : Op} {out : Out} (hd : v.Did op out v') (hv : v.Formed) {fd : ℤ}
    {h : Handle} (hop : op.fd = some fd) (hh : v.handle fd = some h)
    (hsame : v.Untouched fd.toNat h.file v') : v.Harmless op := by
  cases op with
  | read fd' size =>
    cases hop
    intro x hx hread
    obtain rfl := Option.some.inj (hh.symm.trans hx)
    obtain ⟨n, bytes, c, -, rfl, hn, hc⟩ := hd.read_cases hh hread
    have hextent := hc.extent
    have hsize := hsame.extent
    rw [clusters_seek, if_pos rfl] at hsize
    rw [readCount_toNat hn, hsize, clusters_cursor] at hextent
    by_cases hinside : (v.cursor h).pos + v.readLength h size < (v.clusters h.file).length * 512
    · exact .inl hinside
    · rw [if_neg hinside] at hextent
      exact .inr (read_to_end (hv.cursor _ h (slot_of_handle hh)).pos_lt rfl (not_lt.mp hinside) hextent)
  | resize fd' newSize =>
    cases hop
    intro x hx hlarge
    obtain rfl := Option.some.inj (hh.symm.trans hx)
    rcases hd.resize_cases hh with ⟨-, -, rfl⟩ | ⟨hrefused, -, -⟩
    · have hsize := hsame.extent
      rw [clusters_cut, if_pos rfl, extent_resized (hv.shaped _)] at hsize
      refine ⟨hsize, fun j x hji hj hf => ?_⟩
      obtain ⟨x', hx', -, hpos'⟩ := hsame.slot j x hji hj hf
      obtain ⟨y, hy, -, -, -, hpos⟩ := hv.cut_slot hx'
      obtain rfl := Option.some.inj (Option.some.inj (hj.symm.trans hy))
      rw [if_pos hf] at hpos
      omega
    · exact absurd hlarge (not_lt_of_ge hrefused)
  | _ => trivial

/-- Calls about a descriptor leave the directory alone, and the descriptor with its file and flags if
they do not close it. -/
theorem Did.directory_eq {op : Op} {out : Out} (hd : v.Did op out v') {fd : ℤ}
    (hop : op.fd = some fd) : v'.directory = v.directory := by
  cases hd with
  | opened => cases hop
  | created => cases hop
  | deleted => cases hop
  | _ => rfl

theorem Did.handle_of_handle {op : Op} {out : Out} (hd : v.Did op out v') (hv : v.Formed) {fd : ℤ}
    (hop : op.fd = some fd) {x' : Handle} (hx' : v'.handle fd = some x') :
    ∃ x, v.handle fd = some x ∧ x'.file = x.file ∧ x'.flags = x.flags := by
  cases hd with
  | failed => exact ⟨x', hx', rfl, rfl⟩
  | opened => cases hop
  | created => cases hop
  | written hh =>
    cases hop
    obtain rfl := Option.some.inj ((handle_seek hh _).symm.trans hx')
    exact ⟨_, hh, rfl, rfl⟩
  | read hh =>
    cases hop
    obtain rfl := Option.some.inj ((handle_seek hh _).symm.trans hx')
    exact ⟨_, hh, rfl, rfl⟩
  | closed =>
    cases hop
    exact absurd rfl (slots_close (slot_of_handle hx')).1
  | deleted => cases hop
  | resized hh =>
    cases hop
    obtain ⟨x, hx, hfile, hflags, -⟩ := hv.cut_slot (slot_of_handle hx')
    obtain rfl := Option.some.inj (Option.some.inj ((slot_of_handle hh).symm.trans hx))
    exact ⟨_, hh, hfile, hflags⟩

theorem Did.still_open {op : Op} {out : Out} (hd : v.Did op out v') {fd : ℤ} (hop : op.fd = some fd)
    (hclose : op ≠ .close fd) {x : Handle} (hx : v.handle fd = some x) :
    ∃ x', v'.handle fd = some x' ∧ x'.file = x.file := by
  cases hd with
  | failed => exact ⟨x, hx, rfl⟩
  | opened => cases hop
  | created => cases hop
  | written hh =>
    cases hop
    obtain rfl := Option.some.inj (hx.symm.trans hh)
    exact ⟨_, handle_seek hh _, rfl⟩
  | read hh =>
    cases hop
    obtain rfl := Option.some.inj (hx.symm.trans hh)
    exact ⟨_, handle_seek hh _, rfl⟩
  | closed =>
    cases hop
    exact absurd rfl hclose
  | deleted => cases hop
  | resized hh =>
    cases hop
    obtain rfl := Option.some.inj (hx.symm.trans hh)
    exact handle_cut hh _ _

/-- A call about a descriptor that is not open. -/
theorem Did.not_open {op : Op} {out : Out} (hd : v.Did op out v') {fd : ℤ} (hop : op.fd = some fd)
    (hnone : v.handle fd = none) (f : ℕ) : v.Untouched fd.toNat f v' := by
  cases hd with
  | failed => exact ⟨rfl, fun _ => rfl, fun _ x _ hj hx => ⟨x, hj, hx, pos_cursor ..⟩⟩
  | opened => cases hop
  | created => cases hop
  | deleted => cases hop
  | written hh | read hh | closed hh | resized hh =>
    cases hop
    cases hnone.symm.trans hh

end Volume

theorem readEnd_iff (p len : ℕ) (size total : ℤ) :
    ((p : ℤ) + max 0 (min size (total - p)) < len * 512 ∨
      (p : ℤ) + max 0 (min size (total - p)) = total ∧ total % 512 = 0) ↔
    (p + (min size (total - p)).toNat < len * 512 ∨
      ((p + (min size (total - p)).toNat : ℕ) : ℤ) = total ∧
        (p + (min size (total - p)).toNat) % 512 = 0) := by
  omega

/-! ### In the heaps -/

namespace Fs

/-- The file and its descriptors but for one, as long as the file is there; it is released only when its
name is gone and no other descriptor is left. -/
structure Untouched (fs : Fs) (fd : ℤ) (f : ℕ) (fs' : Fs) : Prop where
  size : (fs'.files.load f).isSome → fs'.sizeOf f = fs.sizeOf f
  contents : (fs'.files.load f).isSome → ∀ p, fs'.byteAt f p = fs.byteAt f p
  positions : ∀ fd' d, fd' ≠ fd → fs.descriptorAt fd' = some d → d.file = f →
    ∃ d', fs'.descriptorAt fd' = some d' ∧ d'.file = f ∧ fs'.positionOf d' = fs.positionOf d
  released : fs'.files.load f = none → ∀ file, fs.files.load f = some file →
    file.markedForDeletion = true ∧ ∀ fd' d, fd' ≠ fd → fs.descriptorAt fd' = some d → d.file ≠ f

/-- The size that a read gets to, from the position of its descriptor. -/
def readEnd (size : ℕ) (position total : ℤ) : ℤ :=
  position + max 0 (min (int size) (total - position))

/-- A permitted read stops before the end of the last block, or at the end of a file that is a number of
blocks; a resize is to the size that the file has, with no other descriptor behind it. -/
def Harmless (fs : Fs) : Op → Prop
  | .read fd size => ∀ d file last position total, fs.descriptorAt fd = some d →
    ¬specificFlagIsPresent d.flags ufsWriteOnly → fs.files.load d.file = some file →
    fs.blocks.load file.lastBlock = some last → fs.positionOf d = some position →
    fs.sizeOf d.file = some total → readEnd size position total < (last.index + 1) * blockSize ∨
      readEnd size position total = total ∧ total % blockSize = 0
  | .resize fd newSize => ∀ d total, fs.descriptorAt fd = some d → fs.sizeOf d.file = some total →
    (newSize : ℤ) < maxFileSize → newSize = total ∧ ∀ fd' d' position, fd' ≠ fd →
      fs.descriptorAt fd' = some d' → d'.file = d.file → fs.positionOf d' = some position →
      position ≤ newSize
  | _ => True

end Fs

theorem Mirrors.harmless_iff (h : Mirrors fs v) (op : Op) : fs.Harmless op ↔ v.Harmless op := by
  cases op with
  | read fd size =>
    have hread : ∀ (x : Handle) (last : Block), last.index + 1 = (v.clusters x.file).length →
        ((Fs.readEnd size (v.cursor x).pos (extent (v.clusters x.file)) <
          (last.index + 1) * blockSize ∨
            Fs.readEnd size (v.cursor x).pos (extent (v.clusters x.file)) =
              extent (v.clusters x.file) ∧ extent (v.clusters x.file) % blockSize = 0) ↔
          ((v.cursor x).pos + v.readLength x size < (v.clusters x.file).length * 512 ∨
            (((v.cursor x).pos + v.readLength x size : ℕ) : ℤ) = extent (v.clusters x.file) ∧
              ((v.cursor x).pos + v.readLength x size) % 512 = 0)) := fun x last hindex => by
      rw [Fs.readEnd, Volume.readLength, hindex, blockSize_eq]
      exact readEnd_iff _ _ _ _
    constructor
    · intro hharmless x hx hflag
      obtain ⟨d, hd, hs⟩ := h.handle hx
      obtain ⟨file, last, hfile, hlast, hindex⟩ := hs.last
      exact (hread x last hindex).mp
        (hharmless d file last _ _ hd (hs.flags ▸ hflag) hfile hlast hs.position hs.size)
    · intro hharmless d file last position total hd hflag hfile hlast hposition htotal
      obtain ⟨x, hx, hs⟩ := h.opened hd
      obtain ⟨file', last', hfile', hlast', hindex⟩ := hs.last
      obtain rfl := Option.some.inj (hfile.symm.trans hfile')
      obtain rfl := Option.some.inj (hlast.symm.trans hlast')
      obtain rfl := Option.some.inj (hs.position.symm.trans hposition)
      obtain rfl := Option.some.inj (hs.size.symm.trans htotal)
      exact (hread x last hindex).mpr (hharmless x hx (hs.flags ▸ hflag))
  | resize fd newSize =>
    constructor
    · intro hharmless x hx hlarge
      obtain ⟨d, hd, hs⟩ := h.handle hx
      obtain ⟨hsize, hbehind⟩ := hharmless d _ hd hs.size hlarge
      refine ⟨hsize, fun j y hj hy hf => ?_⟩
      obtain ⟨d', hd', hs'⟩ := h.handle (Volume.handle_of_slot hy)
      have hne : (j : ℤ) ≠ fd := fun heq => hj (by omega)
      have hfile : d'.file = d.file := by rw [hs'.file, hf, hs.file]
      exact_mod_cast hbehind j d' _ hne hd' hfile hs'.position
    · intro hharmless d total hd htotal hlarge
      obtain ⟨x, hx, hs⟩ := h.opened hd
      obtain rfl := Option.some.inj (hs.size.symm.trans htotal)
      obtain ⟨hsize, hbehind⟩ := hharmless x hx hlarge
      refine ⟨hsize, fun fd' d' position hne hd' hf hposition => ?_⟩
      obtain ⟨y, hy, hs'⟩ := h.opened hd'
      obtain rfl := Option.some.inj (hs'.position.symm.trans hposition)
      have hfile : y.file = x.file := by rw [← hs'.file, hf, hs.file]
      exact_mod_cast hbehind _ y (Volume.toNat_ne hy hx hne) (Volume.slot_of_handle hy) hfile
  | _ => exact Iff.rfl

theorem Mirrors.untouched (h : Mirrors fs v) (h' : Mirrors fs' v') {fd : ℤ} {x : Handle}
    (hx : v.handle fd = some x) (hsame : v.Untouched fd.toNat x.file v')
    (hdirectory : v'.directory = v.directory) : fs.Untouched fd x.file fs' := by
  obtain ⟨l, hr⟩ := h.represents
  obtain ⟨l', hr'⟩ := h'.represents
  obtain ⟨file, hfile⟩ := hr.file_of_handle hx
  have hpositions : ∀ fd' d, fd' ≠ fd → fs.descriptorAt fd' = some d → d.file = x.file →
      ∃ d', fs'.descriptorAt fd' = some d' ∧ d'.file = x.file ∧
        fs'.positionOf d' = fs.positionOf d := fun fd' d hne hd hf => by
    obtain ⟨y, hy, hs⟩ := h.opened hd
    obtain ⟨y', hslot, hfile', hpos⟩ := hsame.slot _ y (Volume.toNat_ne hy hx hne)
      (Volume.slot_of_handle hy) (hs.file.symm.trans hf)
    have hy' := Volume.handle_of_slot hslot
    rw [Volume.toNat_of_handle hy] at hy'
    obtain ⟨d', hd', hs'⟩ := h'.handle hy'
    refine ⟨d', hd', hs'.file.trans hfile', ?_⟩
    rw [hs'.position, hs.position, hpos]
  refine ⟨fun hlive => ?_, fun hlive p => ?_, hpositions, fun hnone file₀ hfile₀ => ⟨?_, ?_⟩⟩
  · obtain ⟨file', hfile'⟩ := Option.isSome_iff_exists.mp hlive
    rw [hr.sizeOf_eq (h.formed.shaped _) hfile, hr'.sizeOf_eq (h'.formed.shaped _) hfile',
      hsame.extent]
  · obtain ⟨file', hfile'⟩ := Option.isSome_iff_exists.mp hlive
    rw [hr.byteAt_eq hfile, hr'.byteAt_eq hfile', hsame.cell]
  · by_contra hmarked
    have hmem : x.file ∈ v.directory.map Prod.snd := by
      by_contra hnot
      exact hmarked (hr.listed.hidden _ _ hfile₀ hnot).2.2
    rw [← hdirectory] at hmem
    obtain ⟨⟨s, f⟩, hsf, rfl⟩ := List.mem_map.mp hmem
    obtain ⟨file', hfile', -⟩ := hr'.listed.entry s _ hsf
    cases hnone.symm.trans hfile'
  · intro fd' d hne hd hf
    obtain ⟨d', hd', hf', -⟩ := hpositions fd' d hne hd hf
    obtain ⟨y, -, hs⟩ := h'.opened hd'
    obtain ⟨file', -, hfile', -⟩ := hs.last
    rw [hf', hnone] at hfile'
    cases hfile'

/-- What a call leaves of a file that is there afterwards, in the volume. -/
theorem Mirrors.untouched_volume (h : Mirrors fs v) (h' : Mirrors fs' v') {fd : ℤ} {x x' : Handle}
    (hx : v.handle fd = some x) (hx' : v'.handle fd = some x') (hfile : x'.file = x.file)
    (hsame : fs.Untouched fd x.file fs') : v.Untouched fd.toNat x.file v' := by
  obtain ⟨d, -, hs⟩ := h.handle hx
  obtain ⟨d', -, hs'⟩ := h'.handle hx'
  obtain ⟨file', -, hfile', -⟩ := hs'.last
  have hdfile : d'.file = x.file := hs'.file.trans hfile
  rw [hdfile] at hfile'
  have hlive : (fs'.files.load x.file).isSome := by rw [hfile']; rfl
  refine ⟨?_, fun p => ?_, fun j y hj hy hf => ?_⟩
  · have hsize := hsame.size hlive
    rw [← hdfile, hs'.size, hdfile, ← hs.file, hs.size, hfile] at hsize
    exact Option.some.inj hsize
  · have hbyte := hsame.contents hlive p
    rwa [← hdfile, hs'.byte, hdfile, ← hs.file, hs.byte, hfile] at hbyte
  · obtain ⟨e, he, hse⟩ := h.handle (Volume.handle_of_slot hy)
    obtain ⟨e', he', hef, hpos⟩ := hsame.positions j e (fun heq => hj (by omega)) he
      (hse.file.trans hf)
    obtain ⟨y', hy', hse'⟩ := h'.opened he'
    rw [hse.position, hse'.position] at hpos
    have hslot := Volume.slot_of_handle hy'
    rw [Int.toNat_natCast] at hslot
    exact ⟨y', hslot, hse'.file.symm.trans hef, by exact_mod_cast Option.some.inj hpos⟩

/-- No write is permitted. -/
theorem Mirrors.fits_of_readOnly (h : Mirrors fs v) {op : Op} {fd : ℤ} (hop : op.fd = some fd)
    (hflag : ∀ x, v.handle fd = some x → specificFlagIsPresent x.flags ufsReadOnly) :
    fs.Fits op := by
  obtain ⟨l, hr⟩ := h.represents
  refine (hr.fits_iff h.formed op).mpr ?_
  cases op with
  | write fd' buf =>
    cases hop
    exact fun x hx hwrite => absurd (hflag x hx) hwrite
  | _ => trivial

/-- Harmless calls through a read-only descriptor, in a state that a run without an overflow has reached,
leave its file and the other descriptors as they are. Any other call through it changes them. -/
theorem readOnly_untouched {es es' : List Event} {fd : ℤ} {d : Filedesc}
    (hrun : Run (restrict Fs.Step fun fs e => fs.Fits e.1) .initial es fs)
    (hd : fs.descriptorAt fd = some d) (hflag : specificFlagIsPresent d.flags ufsReadOnly)
    (hcalls : Run (restrict Fs.Step fun fs e => e.1.fd = some fd ∧ fs.Harmless e.1) fs es' fs') :
    fs.Untouched fd d.file fs' ∧ ∀ e fs'', e.1.fd = some fd → fs.Step e fs'' →
      (fs.Untouched fd d.file fs'' ↔ fs.Harmless e.1) := by
  obtain ⟨v, -, h⟩ := mirrors_initial.run (fun _ _ => True)
    (fun _ _ _ _ hfits => ⟨hfits, trivial⟩) hrun
  obtain ⟨x, hx, hs⟩ := h.opened hd
  have hsafe : ∀ y, v.handle fd = some y → y.file = x.file ∧
      specificFlagIsPresent y.flags ufsReadOnly := fun y hy => by
    obtain rfl := Option.some.inj (hx.symm.trans hy)
    exact ⟨rfl, hs.flags ▸ hflag⟩
  rw [hs.file]
  constructor
  · obtain ⟨v', h', hsame, hdirectory, -⟩ : ∃ v', Mirrors fs' v' ∧ v.Untouched fd.toNat x.file v' ∧
        v'.directory = v.directory ∧ ∀ y, v'.handle fd = some y → y.file = x.file ∧
          specificFlagIsPresent y.flags ufsReadOnly := by
      refine hcalls.invariant (I := fun fs' => ∃ v', Mirrors fs' v' ∧
        v.Untouched fd.toNat x.file v' ∧ v'.directory = v.directory ∧ ∀ y, v'.handle fd = some y →
          y.file = x.file ∧ specificFlagIsPresent y.flags ufsReadOnly)
        ⟨v, h, .refl .., rfl, hsafe⟩ ?_
      rintro fs₁ e fs₂ ⟨v₁, h₁, hsame, hdirectory, hsafe₁⟩ ⟨⟨hop, hharmless⟩, hstep⟩
      obtain ⟨v₂, -, hdid, h₂⟩ := h₁.step (h₁.fits_of_readOnly hop fun y hy => (hsafe₁ y hy).2) hstep
      refine ⟨v₂, h₂, hsame.trans ?_, (hdid.directory_eq hop).trans hdirectory, fun y hy => ?_⟩
      · cases hy : v₁.handle fd with
        | none => exact hdid.not_open hop hy x.file
        | some y =>
          rw [← (hsafe₁ y hy).1]
          exact hdid.untouched h₁.formed hop hy (hsafe₁ y hy).2 ((h₁.harmless_iff _).mp hharmless)
      · obtain ⟨y₁, hy₁, hfile, hflags⟩ := hdid.handle_of_handle h₁.formed hop hy
        rw [hfile, hflags]
        exact hsafe₁ y₁ hy₁
    exact h.untouched h' hx hsame hdirectory
  · intro e fs'' hop hstep
    obtain ⟨v'', -, hdid, h''⟩ := h.step (h.fits_of_readOnly hop fun y hy => (hsafe y hy).2) hstep
    constructor
    · intro hsame
      by_cases hclose : e.1 = .close fd
      · rw [hclose]
        trivial
      · obtain ⟨x', hx', hfile⟩ := hdid.still_open hop hclose hx
        exact (h.harmless_iff _).mpr
          (hdid.harmless h.formed hop hx (h.untouched_volume h'' hx hx' hfile hsame))
    · intro hharmless
      exact h.untouched h'' hx
        (hdid.untouched h.formed hop hx (hsafe x hx).2 ((h.harmless_iff _).mp hharmless))
        (hdid.directory_eq hop)

/-- A byte is written, read through a read-only descriptor, and not changed by a write through it. -/
theorem readOnly_untouched_read : ∃ fs fs' : Fs, fs.byteAt 0 0 = some 7 ∧ fs.Untouched 1 0 fs' ∧
    ∀ e fs'', e.1.fd = some 1 → fs.Step e fs'' → (fs.Untouched 1 0 fs'' ↔ fs.Harmless e.1) := by
  obtain ⟨fs, fs', hbyte, hd, hrun, hcalls⟩ : ∃ fs fs' : Fs, fs.byteAt 0 0 = some 7 ∧
      fs.descriptorAt 1 = some ⟨0, 1, 0, 0, ufsReadOnly⟩ ∧
      Run (restrict Fs.Step fun fs e => fs.Fits e.1) .initial
        [(.open [102] ufsCreate, ⟨0, .noErr, []⟩), (.write 0 [7], ⟨1, .noErr, []⟩),
          (.open [102] ufsReadOnly, ⟨1, .noErr, []⟩)] fs ∧
      Run (restrict Fs.Step fun fs e => e.1.fd = some 1 ∧ fs.Harmless e.1) fs
        [(.read 1 5, ⟨1, .noErr, [some 7]⟩), (.write 1 [9], ⟨-1, .noPermission, []⟩)] fs' := by
    refine ⟨_, _, ?_, ?_, .cons ⟨trivial, rfl⟩ (.cons ⟨fun d p hd hp _ => ?_, rfl⟩
      (.single ⟨trivial, rfl⟩)), .cons ⟨⟨rfl, fun d file last p total hd _ hfile hlast hp ht => ?_⟩,
        rfl⟩ (.single ⟨⟨rfl, trivial⟩, rfl⟩)⟩
    · rfl
    · rfl
    · cases hd
      cases hp
      decide
    · cases hd
      cases hfile
      cases hlast
      cases hp
      cases ht
      exact .inl (by decide)
  exact ⟨fs, fs', hbyte, readOnly_untouched hrun hd (by decide) hcalls⟩

/-- A file is cut through a read-only descriptor. -/
theorem readOnly_resizes : ∃ es fs fs' d, es.map Prod.fst = [.open [102] ufsCreate, .write 0 [7],
      .open [102] ufsReadOnly] ∧ Run Fs.Step .initial es fs ∧ fs.descriptorAt 1 = some d ∧
    d.flags = ufsReadOnly ∧ fs.Step (.resize 1 0, ⟨0, .noErr, []⟩) fs' ∧
      ¬fs.Untouched 1 d.file fs' := by
  obtain ⟨fs, fs', hd, hrun, hstep, hlive, hsize, hsize'⟩ : ∃ fs fs' : Fs,
      fs.descriptorAt 1 = some ⟨0, 1, 0, 0, ufsReadOnly⟩ ∧
      Run Fs.Step .initial [(.open [102] ufsCreate, ⟨0, .noErr, []⟩),
        (.write 0 [7], ⟨1, .noErr, []⟩), (.open [102] ufsReadOnly, ⟨1, .noErr, []⟩)] fs ∧
      fs.Step (.resize 1 0, ⟨0, .noErr, []⟩) fs' ∧ (fs'.files.load 0).isSome ∧
      fs.sizeOf 0 = some 1 ∧ fs'.sizeOf 0 = some 0 :=
    ⟨_, _, rfl, .cons rfl (.cons rfl (.single rfl)), rfl, rfl, rfl, rfl⟩
  refine ⟨_, fs, fs', _, rfl, hrun, hd, rfl, hstep, fun hsame => ?_⟩
  have hsame := hsame.size hlive
  rw [hsize, hsize'] at hsame
  exact absurd hsame (by decide)

end SystemsProgramming.UserFs

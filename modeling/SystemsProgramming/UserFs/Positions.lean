import SystemsProgramming.UserFs.Contents
import SystemsProgramming.UserFs.Regular

/-! Positions inside their files. A resize that leaves the last block with more than `BLOCK_SIZE` bytes
breaks this; as long as there is none, every descriptor stays inside its file, and reads and writes
are about the bytes that the file has. -/

namespace SystemsProgramming.UserFs

open Transition

variable {fs fs' : Fs} {l : Layout} {v v' : Volume}

/-- No position gets near the end of `int`. -/
def Op.Moderate : Op → Prop
  | .write _ buf => buf.length ≤ 2 ^ 31 - 1 - maxFileSize
  | .read _ size => size ≤ 2 ^ 31 - 1 - maxFileSize
  | _ => True

namespace Fs

/-- `new_size <= (last_block->index + 1) * BLOCK_SIZE` -/
def Tame (fs : Fs) : Op → Prop
  | .resize fd newSize => ∀ d file last, fs.descriptorAt fd = some d →
    fs.files.load d.file = some file → fs.blocks.load file.lastBlock = some last →
    (newSize : ℤ) < maxFileSize → newSize ≤ (last.index + 1) * blockSize
  | _ => True

/-- Descriptors are inside their files, and files are full blocks and a last one. -/
structure WellPlaced (fs : Fs) : Prop where
  position : ∀ fd d, fs.descriptorAt fd = some d → ∃ p size, fs.positionOf d = some p ∧
    fs.sizeOf d.file = some size ∧ 0 ≤ p ∧ p ≤ size
  occupied : ∀ b block, fs.blocks.load b = some block → block.occupied ≤ blockSize
  full : ∀ b block, fs.blocks.load b = some block → block.next ≠ none → block.occupied = blockSize

/-- A permitted read hands out what is left in the file, up to the size. -/
def ReadsWithin (fs : Fs) (e : Event) : Prop :=
  ∀ fd size d p total, e.1 = .read fd size → fs.descriptorAt fd = some d →
    ¬specificFlagIsPresent d.flags ufsWriteOnly → fs.positionOf d = some p →
    fs.sizeOf d.file = some total → 0 ≤ e.2.ret ∧ e.2.ret ≤ size ∧ e.2.ret = min (size : ℤ) (total - p) ∧
      e.2.bytes = (List.range e.2.ret.toNat).map fun i => fs.byteAt d.file (p.toNat + i)

/-- The bytes of an accepted write are in the file then. -/
def WritesCounted (fs : Fs) (e : Event) (fs' : Fs) : Prop :=
  ∀ fd buf d p, e.1 = .write fd buf → fs.descriptorAt fd = some d → fs.positionOf d = some p →
    0 ≤ e.2.ret → e.2.ret = buf.length ∧ ∃ total, fs'.sizeOf d.file = some total ∧
      p + buf.length ≤ total ∧ ∀ i byte, buf[i]? = some byte →
        fs'.byteAt d.file (p.toNat + i) = some byte

end Fs

theorem Mirrors.fits (h : Mirrors fs v) {op : Op} (hop : op.Moderate) : fs.Fits op := by
  obtain ⟨l, hr⟩ := h.represents
  refine (hr.fits_iff h.formed op).mpr ?_
  cases op with
  | write fd buf =>
    intro x hx _
    have hpos := h.formed.pos _ x (Volume.slot_of_handle hx)
    have hlen : (buf.length : ℤ) ≤ 2 ^ 31 - 1 - maxFileSize := hop
    rw [maxFileSize_eq] at hpos hlen
    omega
  | _ => trivial

theorem Mirrors.tame_iff (h : Mirrors fs v) (op : Op) : fs.Tame op ↔ ∀ f, v.Tame f op := by
  cases op with
  | resize fd newSize =>
    constructor
    · rintro htame f x hx rfl hlarge
      obtain ⟨d, hd, hs⟩ := h.handle hx
      obtain ⟨file, last, hfile, hlast, hindex⟩ := hs.last
      have hle := htame d file last hd hfile hlast hlarge
      rw [hindex, blockSize_eq] at hle
      exact_mod_cast hle
    · intro htame d file last hd hfile hlast hlarge
      obtain ⟨x, hx, hs⟩ := h.opened hd
      obtain ⟨file', last', hfile', hlast', hindex⟩ := hs.last
      obtain rfl := Option.some.inj (hfile.symm.trans hfile')
      obtain rfl := Option.some.inj (hlast.symm.trans hlast')
      rw [hindex, blockSize_eq]
      exact_mod_cast htame x.file x hx rfl hlarge
  | _ => exact ⟨fun _ _ => trivial, fun _ => trivial⟩

theorem Mirrors.wellPlaced (h : Mirrors fs v) (hv : v.Regular) : fs.WellPlaced := by
  obtain ⟨l, hr⟩ := h.represents
  refine ⟨fun fd d hd => ?_, fun b block hb => ?_, fun b block hb hnext => ?_⟩
  · obtain ⟨x, hx, hs⟩ := h.opened hd
    exact ⟨_, _, hs.position, hs.size, Int.natCast_nonneg _,
      (hv.calm x.file).inside _ x (Volume.slot_of_handle hx) rfl⟩
  · obtain ⟨f, k, c, hc, hoccupied, -⟩ := hr.cluster hb
    rw [hoccupied]
    rcases Nat.lt_or_ge (k + 1) (v.clusters f).length with hlt | hge
    · exact (hv.full f k c hlt hc).le
    · obtain ⟨c', hc', htail⟩ := (h.formed.shaped f).last
      have hlt := (List.getElem?_eq_some_iff.mp hc).1
      have hk : k = (v.clusters f).length - 1 := by omega
      obtain rfl := Option.some.inj (hc.symm.trans (hk ▸ hc'))
      exact htail ▸ (hv.calm f).short
  · obtain ⟨f, k, c, hc, hoccupied, hlast⟩ := hr.cluster hb
    have hlt := (List.getElem?_eq_some_iff.mp hc).1
    rw [hoccupied]
    exact hv.full f k c (Nat.lt_of_le_of_ne hlt fun heq => hnext (hlast.mpr heq)) hc

theorem Mirrors.readsWithin (h : Mirrors fs v) (hv : v.Regular) {op : Op} {out : Out}
    (hop : op.Moderate) (hd : v.Did op out v') : fs.ReadsWithin (op, out) := by
  intro fd size d p total heq hdesc hflag hp htotal
  obtain rfl : op = .read fd size := heq
  obtain ⟨x, hx, hs⟩ := h.opened hdesc
  obtain rfl := Option.some.inj (hs.position.symm.trans hp)
  obtain rfl := Option.some.inj (hs.size.symm.trans htotal)
  rw [hs.flags] at hflag
  obtain ⟨n, bytes, c, rfl, -, hn, hc⟩ := hd.read_cases hx hflag
  have hinside := (hv.calm x.file).inside _ x (Volume.slot_of_handle hx) rfl
  have hmoderate : (size : ℤ) ≤ 2 ^ 31 - 1 - maxFileSize := hop
  rw [maxFileSize_eq] at hmoderate
  rw [int_eq (by omega) (by omega), Volume.readCount_eq] at hn
  dsimp only
  refine ⟨by omega, by omega, hn, ?_⟩
  rw [hc.bytes, Int.toNat_natCast]
  exact List.map_congr_left fun i _ => (hs.byte _).symm

theorem Mirrors.writesCounted (h : Mirrors fs v) (hv : v.Regular) {op : Op} {out : Out}
    (hd : v.Did op out v') (h' : Mirrors fs' v') : fs.WritesCounted (op, out) fs' := by
  intro fd buf d p heq hdesc hp hret
  obtain rfl : op = .write fd buf := heq
  obtain ⟨x, hx, hs⟩ := h.opened hdesc
  rw [hs.file]
  obtain rfl := Option.some.inj (hs.position.symm.trans hp)
  cases hd with
  | failed =>
    have hneg : (0 : ℤ) ≤ -1 := hret
    omega
  | @written _ _ _ c hx' _ _ hc =>
    obtain rfl := Option.some.inj (hx.symm.trans hx')
    have hinside := (hv.calm x.file).inside _ x (Volume.slot_of_handle hx) rfl
    have hextent : extent c.clusters = max _ _ :=
      (hc.short (h.formed.cursor _ x (Volume.slot_of_handle hx)) (hv.calm x.file).short hinside).2
    obtain ⟨l', hr'⟩ := h'.represents
    obtain ⟨file, hload⟩ := hr'.file_of_handle (Volume.handle_seek hx c)
    have hclusters : (v.seek fd.toNat x c).clusters x.file = c.clusters := by
      rw [Volume.clusters_seek, if_pos rfl]
    refine ⟨rfl, _, hr'.sizeOf_eq (h'.formed.shaped _) hload, ?_, fun i byte hbyte => ?_⟩
    · rw [hclusters]
      omega
    · have hlt := (List.getElem?_eq_some_iff.mp hbyte).1
      rw [hr'.byteAt_eq hload, hclusters, Int.toNat_natCast, hc.cell, if_pos (by omega),
        Nat.add_sub_cancel_left, hbyte]

/-- A resize beyond the last block leaves it with more than it can hold. -/
theorem Mirrors.tame_of_wellPlaced (h : Mirrors fs v) {op : Op} {out : Out} (hd : v.Did op out v')
    (h' : Mirrors fs' v') (hplaced : fs'.WellPlaced) : fs.Tame op := by
  rw [h.tame_iff]
  cases op with
  | resize fd newSize =>
    rintro f x hx rfl hlarge
    rcases hd.resize_cases hx with ⟨-, -, rfl⟩ | ⟨hrefused, -, -⟩
    · -- its last block is in the heap afterwards
      obtain ⟨l', hr'⟩ := h'.represents
      obtain ⟨y, hy, hyfile⟩ := Volume.handle_cut hx _ newSize
      obtain ⟨file, hload⟩ := hr'.file_of_handle hy
      obtain ⟨last, hlast, -, hoccupied⟩ := hr'.lastBlock (h'.formed.shaped _) hload
      have hle := hplaced.occupied _ last hlast
      rw [hoccupied, hyfile, Volume.clusters_cut, if_pos rfl] at hle
      exact (Volume.tail_resized_le (h.formed.shaped x.file)).mp hle
    · exact absurd hlarge (not_lt_of_ge hrefused)
  | _ => exact fun _ => trivial

/-- In every run with resizes that stay within the last block, descriptors are inside their files, and
files are full blocks and a last one. So reads hand out what is there, and what is written stays. A
resize that goes beyond the last block ends this at once. -/
theorem well_placed {es : List Event}
    (hrun : Run (restrict Fs.Step fun fs e => e.1.Moderate ∧ fs.Tame e.1) .initial es fs) :
    fs.WellPlaced ∧ ∀ e fs', e.1.Moderate → fs.Step e fs' →
      fs.ReadsWithin e ∧ fs.WritesCounted e fs' ∧ (fs'.WellPlaced ↔ fs.Tame e.1) := by
  obtain ⟨v, h, hv⟩ : ∃ v, Mirrors fs v ∧ v.Regular := by
    refine hrun.invariant (I := fun fs => ∃ v, Mirrors fs v ∧ v.Regular)
      ⟨_, mirrors_initial, Volume.regular_initial⟩ fun fs e fs' ⟨v, h, hv⟩ ⟨⟨hop, htame⟩, hstep⟩ => ?_
    obtain ⟨v', -, hd, h'⟩ := h.step (h.fits hop) hstep
    exact ⟨v', h', hd.regular hv h.formed ((h.tame_iff _).mp htame)⟩
  refine ⟨h.wellPlaced hv, fun e fs' hop hstep => ?_⟩
  obtain ⟨v', -, hd, h'⟩ := h.step (h.fits hop) hstep
  exact ⟨h.readsWithin hv hop hd, h.writesCounted hv hd h', h.tame_of_wellPlaced hd h',
    fun htame => h'.wellPlaced (hd.regular hv h.formed ((h.tame_iff _).mp htame))⟩

/-- A file that is enlarged within its block. -/
theorem well_placed_enlarged : ∃ fs : Fs, fs.sizeOf 0 = some 512 ∧ fs.WellPlaced ∧
    ∀ e fs', e.1.Moderate → fs.Step e fs' →
      fs.ReadsWithin e ∧ fs.WritesCounted e fs' ∧ (fs'.WellPlaced ↔ fs.Tame e.1) := by
  obtain ⟨fs, hsize, hrun⟩ : ∃ fs : Fs, fs.sizeOf 0 = some 512 ∧
      Run (restrict Fs.Step fun fs e => e.1.Moderate ∧ fs.Tame e.1) .initial
        [(.open [102] ufsCreate, ⟨0, .noErr, []⟩), (.resize 0 512, ⟨0, .noErr, []⟩)] fs := by
    refine ⟨_, ?_, .cons ⟨⟨trivial, trivial⟩, rfl⟩ (.single ⟨⟨trivial, ?_⟩, rfl⟩)⟩
    · rfl
    · intro d file last hd hfile hlast _
      cases hd
      cases hfile
      cases hlast
      decide
  exact ⟨fs, hsize, well_placed hrun⟩

/-- One byte more than a block. -/
theorem overfull_run : ∃ es fs, es.map Prod.fst = [.open [102] ufsCreate, .resize 0 513] ∧
    Run Fs.Step .initial es fs ∧ ¬fs.WellPlaced := by
  obtain ⟨fs, hfull, hrun⟩ : ∃ fs : Fs, (fs.blocks.load 0).map Block.occupied = some 513 ∧
      Run Fs.Step .initial
        [(.open [102] ufsCreate, ⟨0, .noErr, []⟩), (.resize 0 513, ⟨0, .noErr, []⟩)] fs :=
    ⟨_, rfl, .cons rfl (.single rfl)⟩
  obtain ⟨block, hblock, hoccupied⟩ := Option.map_eq_some_iff.mp hfull
  refine ⟨_, fs, rfl, hrun, fun hplaced => ?_⟩
  have hle := hplaced.occupied 0 block hblock
  rw [hoccupied] at hle
  exact absurd hle (by decide)

end SystemsProgramming.UserFs

import SystemsProgramming.UserFs.Truncation
import SystemsProgramming.UserFs.Creation
import SystemsProgramming.UserFs.Limits
import SystemsProgramming.Foundation.Transition

/-! The runs of the file system are runs of the volume. As long as no position overflows, every call
has a result, the one that the volume has. -/

namespace SystemsProgramming.UserFs

open Transition

variable {fs fs' : Fs} {l : Layout} {v v' : Volume}

/-- A call and what its caller sees. -/
abbrev Event := Op × Out

def Fs.Step (fs : Fs) (e : Event) (fs' : Fs) : Prop := fs.exec e.1 = some (e.2, fs')

def Volume.Step (v : Volume) (e : Event) (v' : Volume) : Prop := v.exec e.1 = some (e.2, v')

namespace Fs

/-- What is open under a number. -/
def descriptorAt (fs : Fs) (fd : ℤ) : Option Filedesc :=
  (fs.tryGetFileDescriptor fd).join.bind fs.descriptors.load

/-- `current_block->index * BLOCK_SIZE + block_offset`, as a number. -/
def positionOf (fs : Fs) (d : Filedesc) : Option ℤ :=
  (fs.blocks.load d.currentBlock).map fun block => block.index * blockSize + d.blockOffset

/-- `last_block->index * BLOCK_SIZE + last_block->occupied`, as a number. -/
def sizeOf (fs : Fs) (f : ℕ) : Option ℤ := do
  let file ← fs.files.load f
  let last ← fs.blocks.load file.lastBlock
  return last.index * blockSize + last.occupied

/-- A write that is permitted ends at a position that is an `int`. -/
def Fits (fs : Fs) : Op → Prop
  | .write fd buf => ∀ d p, fs.descriptorAt fd = some d → fs.positionOf d = some p →
    ¬specificFlagIsPresent d.flags ufsReadOnly → p + buf.length < 2 ^ 31
  | _ => True

end Fs

/-! ### What the volume says about the heaps -/

theorem Represents.descriptorAt_none (hr : Represents fs l v) {fd : ℤ} (h : v.handle fd = none) :
    fs.descriptorAt fd = none := by
  rcases hr.tryGetFileDescriptor fd with ⟨-, hget⟩ | ⟨x, d, hx, -⟩
  · rw [Fs.descriptorAt, hget]
    rfl
  · cases h.symm.trans hx

theorem Represents.descriptorAt_some (hr : Represents fs l v) {fd : ℤ} {h : Handle}
    (hh : v.handle fd = some h) : ∃ d, fs.descriptorAt fd = some d ∧ d.file = h.file ∧
      d.flags = h.flags ∧ fs.positionOf d = some (h.block * blockSize + h.offset) := by
  rcases hr.tryGetFileDescriptor fd with ⟨hnone, -⟩ | ⟨x, d, hx, hget, -, ho⟩
  · cases hnone.symm.trans hh
  · obtain rfl := Option.some.inj (hx.symm.trans hh)
    obtain ⟨b, block, -, -, -, hd, hblock, hindex, -⟩ := ho.blocks hr
    refine ⟨⟨x.file, fd.toNat, b, x.offset, x.flags⟩, ?_, rfl, rfl, ?_⟩
    · rw [Fs.descriptorAt, hget]
      exact hd
    · rw [Fs.positionOf, hblock, Option.map_some, hindex]

theorem Represents.position_eq (hr : Represents fs l v) (hv : v.Formed) {fd : ℤ} {h : Handle}
    (hh : v.handle fd = some h) : ∃ d, fs.descriptorAt fd = some d ∧ d.file = h.file ∧
      d.flags = h.flags ∧ fs.positionOf d = some ((v.cursor h).pos : ℤ) := by
  obtain ⟨d, hd, hfile, hflags, hpos⟩ := hr.descriptorAt_some hh
  refine ⟨d, hd, hfile, hflags, hpos.trans (congrArg some ?_)⟩
  exact (hv.cursor _ h (Volume.slot_of_handle hh)).pos_eq.symm

theorem Represents.lastBlock (hr : Represents fs l v) {f : ℕ} {file : File}
    (hf : Shaped (v.clusters f)) (hfile : fs.files.load f = some file) :
    ∃ last, fs.blocks.load file.lastBlock = some last ∧
      last.index = ((v.clusters f).length - 1 : ℕ) ∧ last.occupied = tail (v.clusters f) := by
  have hlast := (hr.stored.ends f file hfile).2
  rw [List.getLast?_eq_getElem?] at hlast
  obtain ⟨last, c, hload, hc, hindex, hoccupied, -⟩ := hr.stored.block _ _ _ hlast
  rw [hr.stored.length f file hfile] at hc hindex
  obtain ⟨c', hc', htail⟩ := hf.last
  obtain rfl := Option.some.inj (hc.symm.trans hc')
  exact ⟨last, hload, hindex, hoccupied.trans htail⟩

theorem Represents.sizeOf_eq (hr : Represents fs l v) {f : ℕ} {file : File}
    (hf : Shaped (v.clusters f)) (hfile : fs.files.load f = some file) :
    fs.sizeOf f = some (extent (v.clusters f)) := by
  obtain ⟨last, hload, hindex, hoccupied⟩ := hr.lastBlock hf hfile
  simp only [Fs.sizeOf, hfile, hload, Option.bind_eq_bind, Option.bind_some, Option.pure_def]
  rw [hindex, hoccupied, extent]

theorem Represents.fits_iff (hr : Represents fs l v) (hv : v.Formed) (op : Op) :
    fs.Fits op ↔ v.Fits op := by
  cases op with
  | write fd buf =>
    constructor
    · intro hfits h hh hflag
      obtain ⟨d, hd, -, hflags, hpos⟩ := hr.position_eq hv hh
      have := hfits d _ hd hpos (by rwa [hflags])
      omega
    · intro hfits d p hd hp hflag
      cases hh : v.handle fd with
      | none => cases (hr.descriptorAt_none hh).symm.trans hd
      | some h =>
        obtain ⟨d', hd', -, hflags, hpos⟩ := hr.position_eq hv hh
        obtain rfl := Option.some.inj (hd.symm.trans hd')
        obtain rfl := Option.some.inj (hp.symm.trans hpos)
        have := hfits h hh (by rwa [← hflags])
        omega
  | _ => exact Iff.rfl

/-! ### Calls and runs -/

theorem Represents.exec (hr : Represents fs l v) {op : Op} {out : Out}
    (hv : v.exec op = some (out, v')) (hsmall : ∀ f, (v'.clusters f).length ≤ 2 ^ 31) :
    ∃ fs' l', fs.exec op = some (out, fs') ∧ Represents fs' l' v' := by
  have hobserve : ∀ {ret : ℤ} {fs' : Fs} {l' : Layout} {w : Volume}, Represents fs' l' w →
      Volume.observe (ret, w) = (out, v') → Fs.exec.observe (ret, fs') = (out, fs') ∧
        Represents fs' l' v' := fun {ret fs' l' w} hr' hw => by
    obtain ⟨rfl, rfl⟩ := Prod.mk.inj hw
    exact ⟨by rw [Fs.exec.observe, hr'.errno], hr'⟩
  cases op with
  | «open» filename flags =>
    obtain ⟨fs', l', hcall, hr'⟩ := hr.ufsOpen filename flags
    obtain ⟨hout, hr'⟩ := hobserve hr' (Option.some.inj hv)
    exact ⟨fs', l', by rw [Fs.exec, hcall]; exact congrArg some hout, hr'⟩
  | write fd buf =>
    obtain ⟨⟨ret, w⟩, hw, hv⟩ := Option.map_eq_some_iff.mp hv
    obtain ⟨-, rfl⟩ := Prod.mk.inj hv
    obtain ⟨fs', l', hcall, hr'⟩ := hr.ufsWrite hw hsmall
    obtain ⟨hout, hr'⟩ := hobserve hr' hv
    exact ⟨fs', l', by rw [Fs.exec, hcall]; exact congrArg some hout, hr'⟩
  | read fd size =>
    obtain ⟨⟨ret, bytes, w⟩, hw, hv⟩ := Option.map_eq_some_iff.mp hv
    obtain ⟨rfl, rfl⟩ := Prod.mk.inj hv
    obtain ⟨fs', l', hcall, hr'⟩ := hr.ufsRead hw hsmall
    refine ⟨fs', l', ?_, hr'⟩
    rw [Fs.exec, hcall, ← hr'.errno]
    rfl
  | close fd =>
    obtain ⟨fs', l', hcall, hr'⟩ := hr.ufsClose fd
    obtain ⟨hout, hr'⟩ := hobserve hr' (Option.some.inj hv)
    exact ⟨fs', l', by rw [Fs.exec, hcall]; exact congrArg some hout, hr'⟩
  | delete filename =>
    obtain ⟨fs', l', hcall, hr'⟩ := hr.ufsDelete filename
    obtain ⟨hout, hr'⟩ := hobserve hr' (Option.some.inj hv)
    exact ⟨fs', l', by rw [Fs.exec, hcall]; exact congrArg some hout, hr'⟩
  | resize fd newSize =>
    obtain ⟨⟨ret, w⟩, hw, hv⟩ := Option.map_eq_some_iff.mp hv
    obtain ⟨-, rfl⟩ := Prod.mk.inj hv
    obtain ⟨fs', l', hcall, hr'⟩ := hr.ufsResize hw
    obtain ⟨hout, hr'⟩ := hobserve hr' hv
    exact ⟨fs', l', by rw [Fs.exec, hcall]; exact congrArg some hout, hr'⟩

/-- The heaps of a state are those of a volume in which nothing is behind the limit. -/
structure Mirrors (fs : Fs) (v : Volume) : Prop where
  represents : ∃ l, Represents fs l v
  formed : v.Formed

theorem mirrors_initial : Mirrors .initial .initial := ⟨⟨_, represents_initial⟩, Volume.formed_initial⟩

/-- A call whose positions fit has a result, the one that it has on the volume. -/
theorem Mirrors.exec (h : Mirrors fs v) (op : Op) (hfits : fs.Fits op) :
    ∃ out fs' v', fs.exec op = some (out, fs') ∧ v.exec op = some (out, v') ∧ v.Did op out v' ∧
      Mirrors fs' v' := by
  obtain ⟨l, hr⟩ := h.represents
  obtain ⟨out, v', hexec, hdid⟩ := h.formed.exec ((hr.fits_iff h.formed op).mp hfits)
  have hformed := hdid.formed h.formed
  obtain ⟨fs', l', hcall, hr'⟩ := hr.exec hexec hformed.length_le
  exact ⟨out, fs', v', hcall, hexec, hdid, ⟨l', hr'⟩, hformed⟩

theorem Mirrors.step (h : Mirrors fs v) {e : Event} (hfits : fs.Fits e.1) (hstep : fs.Step e fs') :
    ∃ v', v.Step e v' ∧ v.Did e.1 e.2 v' ∧ Mirrors fs' v' := by
  obtain ⟨out, fs₁, v', hcall, hexec, hdid, h'⟩ := h.exec e.1 hfits
  obtain ⟨rfl, rfl⟩ := Prod.mk.inj (Option.some.inj (hcall.symm.trans hstep))
  exact ⟨v', hexec, hdid, h'⟩

/-- Runs with a condition on each step, that makes the positions fit and carries over to the volume. -/
theorem Mirrors.run (h : Mirrors fs v) {ok : Fs → Event → Prop} (ok' : Volume → Event → Prop)
    (hok : ∀ fs v e, Mirrors fs v → ok fs e → fs.Fits e.1 ∧ ok' v e) {es : List Event}
    (hrun : Run (restrict Fs.Step ok) fs es fs') :
    ∃ v', Run (restrict Volume.Step ok') v es v' ∧ Mirrors fs' v' := by
  refine hrun.simulate (fun fs v e fs' h hstep => ?_) h
  obtain ⟨hfits, hok'⟩ := hok fs v e h hstep.1
  obtain ⟨v', hstep', -, h'⟩ := h.step hfits hstep.2
  exact ⟨v', ⟨hok', hstep'⟩, h'⟩

end SystemsProgramming.UserFs

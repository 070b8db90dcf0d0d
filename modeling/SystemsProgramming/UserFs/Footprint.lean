import SystemsProgramming.UserFs.Contents
import Mathlib.Algebra.Order.BigOperators.Group.List
import Mathlib.Algebra.Order.Group.Nat

/-! The memory in use. At any time what is allocated belongs to a file that has a name or is open: as many
blocks as its size takes, a memory for each block, one name, and one descriptor for each number that is
open. -/

namespace SystemsProgramming.UserFs

open Transition

variable {fs : Fs} {l : Layout} {v : Volume}

/-- The numbers of open descriptors. -/
def Fs.openNumbers (fs : Fs) : List ℕ :=
  (List.range fs.fileDescriptorCount).filter fun i => (fs.descriptorAt i).isSome

/-- What is allocated, by the sizes of the files. -/
structure Fs.Footprint (fs : Fs) (size : ℕ → ℕ) : Prop where
  sizes : ∀ f ∈ fs.files.live, fs.sizeOf f = some (size f)
  blocks : fs.blocks.live.length ≤ (fs.files.live.map fun f => size f / 512 + 1).sum
  memories : fs.memories.live.length = fs.blocks.live.length
  names : fs.names.live.length = fs.files.live.length
  descriptors : fs.descriptors.live.length = fs.openNumbers.length
  arrays : fs.arrays.live.length ≤ 1
  deleted : ∀ f file, fs.files.load f = some file → file.markedForDeletion = true →
    ∃ i ∈ fs.openNumbers, ∃ d, fs.descriptorAt i = some d ∧ d.file = f

/-! ### The blocks -/

theorem Represents.blocks_perm (hr : Represents fs l v) :
    (fs.files.live.flatMap l.chain).Perm fs.blocks.live := by
  have hs := hr.stored
  refine Heap.perm_live ?_ fun p => ?_
  · refine List.nodup_flatMap.mpr ⟨fun f _ => (hs.linked f).nodup, ?_⟩
    refine fs.files.nodup_live.pairwise_of_forall_ne fun f _ g _ hne => ?_
    exact fun p hf hg => hne (hs.owner f g p hf hg)
  · rw [List.mem_flatMap]
    constructor
    · rintro ⟨f, -, hp⟩
      obtain ⟨k, hk⟩ := List.mem_iff_getElem?.mp hp
      obtain ⟨block, -, hblock, -⟩ := hs.block f k p hk
      exact ⟨block, hblock⟩
    · rintro ⟨block, hblock⟩
      obtain ⟨f, hp⟩ := hs.block_owned p block hblock
      refine ⟨f, Heap.mem_live.mpr ?_, hp⟩
      cases hf : fs.files.load f with
      | none =>
        rw [hs.dead f hf] at hp
        cases hp
      | some file => exact ⟨file, rfl⟩

/-- A file has at most one block that is not full. -/
theorem Shaped.length_le {cs : List Cluster} (h : Shaped cs) {size : ℕ} (hsize : extent cs = size) :
    cs.length ≤ size / 512 + 1 := by
  have htail := h.tail
  have hlength := h.length
  rw [extent, blockSize_eq] at hsize
  omega

theorem Represents.blocks_le (hr : Represents fs l v) (hv : v.Formed) {size : ℕ → ℕ}
    (hsize : ∀ f, extent (v.clusters f) = size f) :
    fs.blocks.live.length ≤ (fs.files.live.map fun f => size f / 512 + 1).sum := by
  rw [← hr.blocks_perm.length_eq, List.length_flatMap]
  refine List.sum_le_sum fun f hf => ?_
  obtain ⟨file, hfile⟩ := Heap.mem_live.mp hf
  rw [hr.stored.length f file hfile]
  exact (hv.shaped f).length_le (hsize f)

/-! ### What belongs to the blocks, to the files and to the table -/

theorem Represents.memories_length (hr : Represents fs l v) :
    fs.memories.live.length = fs.blocks.live.length := by
  have hs := hr.stored
  refine Heap.length_live_eq Block.memory (fun p q block block' hp hq heq => ?_) fun m => ?_
  · obtain ⟨f, hf⟩ := hs.block_owned p block hp
    obtain ⟨g, hg⟩ := hs.block_owned q block' hq
    exact hs.memory_unique f g p q block block' hf hg hp hq heq
  · constructor
    · rintro ⟨x, hx⟩
      exact hs.memory_owned m x hx
    · rintro ⟨p, block, hp, rfl⟩
      obtain ⟨f, hf⟩ := hs.block_owned p block hp
      obtain ⟨k, hk⟩ := List.mem_iff_getElem?.mp hf
      obtain ⟨block', c, hblock, -, -, -, hmemory⟩ := hs.block f k p hk
      obtain rfl := Option.some.inj (hp.symm.trans hblock)
      exact ⟨c.memory, hmemory⟩

theorem Represents.names_length (hr : Represents fs l v) :
    fs.names.live.length = fs.files.live.length := by
  refine Heap.length_live_eq File.name hr.listed.name_unique fun n => ?_
  constructor
  · rintro ⟨s, hn⟩
    exact hr.listed.name_owned n s hn
  · rintro ⟨f, file, hf, rfl⟩
    exact hr.listed.named f file hf

theorem Represents.arrays_length (hr : Represents fs l v) : fs.arrays.live.length ≤ 1 := by
  have hsub : fs.arrays.live ⊆ fs.fileDescriptors.toList := fun p hp => by
    obtain ⟨array, harray⟩ := Heap.mem_live.mp hp
    exact Option.mem_toList.mpr (hr.tabled.owned p array harray)
  refine (fs.arrays.nodup_live.subperm hsub).length_le.trans ?_
  cases fs.fileDescriptors <;> simp

/-- The numbers that are open are those of the slots in use. -/
theorem Represents.mem_openNumbers (hr : Represents fs l v) {i : ℕ} :
    i ∈ fs.openNumbers ↔ ∃ h, v.slots[i]? = some (some h) := by
  rw [Fs.openNumbers, List.mem_filter, List.mem_range, Option.isSome_iff_exists]
  constructor
  · rintro ⟨-, d, hd⟩
    cases hh : v.handle i with
    | none => cases (hr.descriptorAt_none hh).symm.trans hd
    | some h => exact ⟨h, by simpa using Volume.slot_of_handle hh⟩
  · rintro ⟨h, hi⟩
    obtain ⟨d, hd, -⟩ := hr.descriptorAt_some (Volume.handle_of_slot hi)
    refine ⟨?_, d, hd⟩
    rw [hr.count_eq]
    exact (List.getElem?_eq_some_iff.mp hi).1

/-- A descriptor knows its slot. -/
theorem Represents.slot_of_descriptor (hr : Represents fs l v) {p : ℕ} {d : Filedesc}
    (hd : fs.descriptors.load p = some d) :
    l.table[d.index]? = some (some p) ∧ ∃ h, v.slots[d.index]? = some (some h) := by
  obtain ⟨i, hi⟩ := hr.opened.owned p d hd
  have hlt := hr.opened.length ▸ (List.getElem?_eq_some_iff.mp hi).1
  obtain ⟨x, hx⟩ : ∃ x, v.slots[i]? = some x := ⟨_, List.getElem?_eq_getElem hlt⟩
  cases hr.opened.slot i _ x hi hx with
  | opened hload _ =>
    obtain rfl := Option.some.inj (hd.symm.trans hload)
    exact ⟨hi, _, hx⟩

theorem Represents.descriptors_length (hr : Represents fs l v) :
    fs.descriptors.live.length = fs.openNumbers.length := by
  have hnodup : fs.openNumbers.Nodup := List.nodup_range.filter _
  have hindex : ∀ p ∈ fs.descriptors.live, ∃ d, fs.descriptors.load p = some d := fun p hp =>
    Heap.mem_live.mp hp
  have hperm : (fs.descriptors.live.map fun p =>
      ((fs.descriptors.load p).map Filedesc.index).getD 0).Perm fs.openNumbers := by
    refine (List.perm_ext_iff_of_nodup ?_ hnodup).mpr fun i => ?_
    · refine (List.nodup_map_iff_inj_on fs.descriptors.nodup_live).mpr fun p hp q hq heq => ?_
      obtain ⟨d, hd⟩ := hindex p hp
      obtain ⟨d', hd'⟩ := hindex q hq
      rw [hd, hd'] at heq
      have hp' := (hr.slot_of_descriptor hd).1
      have hq' := (hr.slot_of_descriptor hd').1
      rw [show d.index = d'.index from heq] at hp'
      exact Option.some.inj (Option.some.inj (hp'.symm.trans hq'))
    · rw [hr.mem_openNumbers, List.mem_map]
      constructor
      · rintro ⟨p, hp, rfl⟩
        obtain ⟨d, hd⟩ := hindex p hp
        rw [hd]
        exact (hr.slot_of_descriptor hd).2
      · rintro ⟨h, hi⟩
        have hlt := (List.getElem?_eq_some_iff.mp hi).1
        obtain ⟨o, ho⟩ : ∃ o, l.table[i]? = some o :=
          ⟨_, List.getElem?_eq_getElem (hr.opened.length.symm ▸ hlt)⟩
        cases hr.opened.slot i o _ ho hi with
        | @opened p b _ hload _ => exact ⟨p, Heap.mem_live.mpr ⟨_, hload⟩, by rw [hload]; rfl⟩
  rw [← hperm.length_eq, List.length_map]

/-- A file without a name is open. -/
theorem Represents.opened_of_marked (hr : Represents fs l v) {f : ℕ} {file : File}
    (hf : fs.files.load f = some file) (hmarked : file.markedForDeletion = true) :
    ∃ i ∈ fs.openNumbers, ∃ d, fs.descriptorAt i = some d ∧ d.file = f := by
  have hpos := hr.counted.marked f file hf hmarked
  rw [hr.counted.refs f file hf] at hpos
  obtain ⟨x, hx, hxf⟩ := tally_pos.mp hpos
  obtain ⟨h, rfl, hfile⟩ := Option.map_eq_some_iff.mp hxf
  obtain ⟨i, hi⟩ := List.mem_iff_getElem?.mp hx
  obtain ⟨d, hd, hdfile, -⟩ := hr.descriptorAt_some (Volume.handle_of_slot hi)
  exact ⟨i, hr.mem_openNumbers.mpr ⟨h, hi⟩, d, hd, hdfile.trans hfile⟩

/-- As long as positions fit, the memory in use is that of the files and of the descriptors there are. -/
theorem memory_in_use {es : List Event}
    (hrun : Run (restrict Fs.Step fun fs e => fs.Fits e.1) .initial es fs) :
    ∃ size, fs.Footprint size := by
  obtain ⟨v, -, h⟩ := mirrors_initial.run (fun _ _ => True)
    (fun _ _ _ _ hfits => ⟨hfits, trivial⟩) hrun
  obtain ⟨l, hr⟩ := h.represents
  have hsize : ∀ f, extent (v.clusters f) = (extent (v.clusters f)).toNat := fun f =>
    (Int.toNat_of_nonneg (h.formed.extent_nonneg f)).symm
  refine ⟨fun f => (extent (v.clusters f)).toNat, ?_, hr.blocks_le h.formed hsize, hr.memories_length,
    hr.names_length, hr.descriptors_length, hr.arrays_length, fun f file => hr.opened_of_marked⟩
  intro f hf
  obtain ⟨file, hfile⟩ := Heap.mem_live.mp hf
  rw [hr.sizeOf_eq (h.formed.shaped f) hfile]
  exact congrArg some (hsize f)

/-- A file that has bytes and one that has lost its name and is still open. -/
theorem memory_in_use_deleted : ∃ (fs : Fs) (size : ℕ → ℕ), fs.fileList = some 0 ∧ fs.files.live = [0, 1] ∧
    fs.blocks.live = [0, 1] ∧ fs.openNumbers = [1] ∧ fs.Footprint size := by
  obtain ⟨fs, hlist, hfiles, hblocks, hopen, hrun⟩ : ∃ fs : Fs, fs.fileList = some 0 ∧
      fs.files.live = [0, 1] ∧ fs.blocks.live = [0, 1] ∧ fs.openNumbers = [1] ∧
      Run (restrict Fs.Step fun fs e => fs.Fits e.1) .initial
        [(.open [102] ufsCreate, ⟨0, .noErr, []⟩), (.open [103] ufsCreate, ⟨1, .noErr, []⟩),
          (.resize 0 7, ⟨0, .noErr, []⟩), (.delete [103], ⟨0, .noErr, []⟩), (.close 0, ⟨0, .noErr, []⟩)] fs :=
    ⟨_, rfl, rfl, rfl, rfl, .cons ⟨trivial, rfl⟩ (.cons ⟨trivial, rfl⟩ (.cons ⟨trivial, rfl⟩
      (.cons ⟨trivial, rfl⟩ (.single ⟨trivial, rfl⟩))))⟩
  obtain ⟨size, hfootprint⟩ := memory_in_use hrun
  exact ⟨fs, size, hlist, hfiles, hblocks, hopen, hfootprint⟩

end SystemsProgramming.UserFs

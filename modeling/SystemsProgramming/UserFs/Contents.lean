import SystemsProgramming.UserFs.Simulation

/-! The contents of a file as they are in the heaps: the bytes in its chain of blocks. They are the
cells of the volume. -/

namespace SystemsProgramming.UserFs

variable {fs : Fs} {l : Layout} {v : Volume}

namespace Fs

/-- The block of a file at a number, from `block_list` on. -/
def blockAt (fs : Fs) (f k : ℕ) : Option Block := do
  let file ← fs.files.load f
  follow fs.blocks.load Block.next k file.blockList

/-- The byte of a file at a position, if it is there and has been written. -/
def byteAt (fs : Fs) (f p : ℕ) : Option UInt8 := do
  let block ← fs.blockAt f (p / 512)
  let memory ← fs.memories.load block.memory
  memory.cells (p % 512 : ℕ)

end Fs

theorem Represents.blockAt_eq (hr : Represents fs l v) {f : ℕ} {file : File}
    (hfile : fs.files.load f = some file) (k : ℕ) :
    fs.blockAt f k = (l.chain f)[k]?.bind fs.blocks.load := by
  have hhead := (hr.stored.ends f file hfile).1
  rw [List.head?_eq_getElem?] at hhead
  rw [Fs.blockAt, hfile, Option.bind_eq_bind, Option.bind_some,
    (hr.stored.linked f).follow_eq hhead, Nat.zero_add]

theorem Represents.byteAt_eq (hr : Represents fs l v) {f : ℕ} {file : File}
    (hfile : fs.files.load f = some file) (p : ℕ) : fs.byteAt f p = cell (v.clusters f) p := by
  rw [Fs.byteAt, hr.blockAt_eq hfile, cell]
  cases hb : (l.chain f)[p / 512]? with
  | none =>
    rw [List.getElem?_eq_none_iff, hr.stored.length f file hfile, ← List.getElem?_eq_none_iff] at hb
    rw [hb]
    rfl
  | some b =>
    obtain ⟨block, c, hblock, hc, -, -, hmemory⟩ := hr.stored.block f _ b hb
    rw [hc]
    simp only [Option.bind_eq_bind, Option.bind_some, hblock, hmemory]

/-- The file of an open descriptor is there. -/
theorem Represents.file_of_handle (hr : Represents fs l v) {fd : ℤ} {h : Handle}
    (hh : v.handle fd = some h) : ∃ file, fs.files.load h.file = some file := by
  obtain ⟨d, ho⟩ := hr.opening (Volume.slot_of_handle hh)
  obtain ⟨b, -, hb⟩ := ho.descriptor hr
  exact hr.file hb

/-- The blocks in the heap are the blocks of the files. -/
theorem Represents.cluster (hr : Represents fs l v) {p : ℕ} {block : Block}
    (hp : fs.blocks.load p = some block) : ∃ f k c, (v.clusters f)[k]? = some c ∧
      block.occupied = c.occupied ∧ (block.next = none ↔ k + 1 = (v.clusters f).length) := by
  obtain ⟨f, hf⟩ := hr.stored.block_owned p block hp
  obtain ⟨k, hk⟩ := List.mem_iff_getElem?.mp hf
  obtain ⟨file, hfile⟩ := hr.file hk
  obtain ⟨block', c, hload, hc, -, hoccupied, -⟩ := hr.stored.block f k p hk
  obtain rfl := Option.some.inj (hp.symm.trans hload)
  obtain ⟨block', hload, hnext, -⟩ := hr.stored.linked f k p hk
  obtain rfl := Option.some.inj (hp.symm.trans hload)
  refine ⟨f, k, c, hc, hoccupied, ?_⟩
  have hlt := (List.getElem?_eq_some_iff.mp hc).1
  rw [hnext, List.getElem?_eq_none_iff, hr.stored.length f file hfile]
  omega

/-- An open descriptor and its file, in the heaps and in the volume. -/
structure Stands (fs : Fs) (v : Volume) (d : Filedesc) (x : Handle) : Prop where
  file : d.file = x.file
  flags : d.flags = x.flags
  position : fs.positionOf d = some ((v.cursor x).pos : ℤ)
  size : fs.sizeOf d.file = some (extent (v.clusters x.file))
  byte : ∀ p, fs.byteAt d.file p = cell (v.clusters x.file) p
  last : ∃ file last, fs.files.load d.file = some file ∧
    fs.blocks.load file.lastBlock = some last ∧ last.index + 1 = (v.clusters x.file).length

theorem Mirrors.handle (h : Mirrors fs v) {fd : ℤ} {x : Handle} (hx : v.handle fd = some x) :
    ∃ d, fs.descriptorAt fd = some d ∧ Stands fs v d x := by
  obtain ⟨l, hr⟩ := h.represents
  obtain ⟨d, hd, hfile, hflags, hpos⟩ := hr.position_eq h.formed hx
  obtain ⟨file, hload⟩ := hr.file_of_handle hx
  have hshaped := h.formed.shaped x.file
  obtain ⟨last, hlast, hindex, -⟩ := hr.lastBlock hshaped hload
  have hlength := hshaped.length
  refine ⟨d, hd, hfile, hflags, hpos, ?_, ?_, ?_⟩ <;> rw [hfile]
  · exact hr.sizeOf_eq hshaped hload
  · exact hr.byteAt_eq hload
  · exact ⟨file, last, hload, hlast, by omega⟩

theorem Mirrors.opened (h : Mirrors fs v) {fd : ℤ} {d : Filedesc} (hd : fs.descriptorAt fd = some d) :
    ∃ x, v.handle fd = some x ∧ Stands fs v d x := by
  obtain ⟨l, hr⟩ := h.represents
  cases hx : v.handle fd with
  | none => cases (hr.descriptorAt_none hx).symm.trans hd
  | some x =>
    obtain ⟨d', hd', hs⟩ := h.handle hx
    obtain rfl := Option.some.inj (hd.symm.trans hd')
    exact ⟨x, rfl, hs⟩

end SystemsProgramming.UserFs

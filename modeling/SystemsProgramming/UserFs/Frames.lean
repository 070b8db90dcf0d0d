import SystemsProgramming.UserFs.Chains

/-! What the calls on an open descriptor leave alone when they have any arguments: `ufs_read`,
`ufs_write` and `ufs_resize` move descriptors along the chain of their file, which gets longer or
shorter, and change nothing else of the namespace or of the table. -/

namespace SystemsProgramming.UserFs

variable {fs fs' fs'' : Fs} {chain chain' : ℕ → List ℕ} {d f : ℕ}

/-- What of a descriptor is not its position. -/
def Filedesc.entry (x : Filedesc) : ℕ × ℕ := (x.file, x.index)

structure Keeps (fs fs' : Fs) : Prop where
  names : fs'.names = fs.names
  arrays : fs'.arrays = fs.arrays
  fileList : fs'.fileList = fs.fileList
  fileDescriptors : fs'.fileDescriptors = fs.fileDescriptors
  count : fs'.fileDescriptorCount = fs.fileDescriptorCount
  capacity : fs'.fileDescriptorCapacity = fs.fileDescriptorCapacity
  file : SameFiles (fun file => (file.entry, file.refs)) fs.files.load fs'.files.load
  descriptor : ∀ d, (fs'.descriptors.load d).map Filedesc.entry =
    (fs.descriptors.load d).map Filedesc.entry

namespace Keeps

theorem refl (fs : Fs) : Keeps fs fs :=
  ⟨rfl, rfl, rfl, rfl, rfl, rfl, fun _ => rfl, fun _ => rfl⟩

theorem trans (h : Keeps fs fs') (h' : Keeps fs' fs'') : Keeps fs fs'' where
  names := h'.names.trans h.names
  arrays := h'.arrays.trans h.arrays
  fileList := h'.fileList.trans h.fileList
  fileDescriptors := h'.fileDescriptors.trans h.fileDescriptors
  count := h'.count.trans h.count
  capacity := h'.capacity.trans h.capacity
  file := h.file.trans h'.file
  descriptor d := (h'.descriptor d).trans (h.descriptor d)

theorem blocks (fs : Fs) (blocks : Heap Block) (memories : Heap (CArray UInt8)) :
    Keeps fs { fs with blocks := blocks, memories := memories } := { refl fs with }

theorem modifyDescriptor {φ : Filedesc → Filedesc} (h : fs.modifyDescriptor d φ = some fs')
    (hφ : ∀ x, (φ x).entry = x.entry) : Keeps fs fs' := by
  obtain ⟨descriptors, hdescriptors, rfl⟩ := Option.map_eq_some_iff.mp h
  rw [Heap.modify] at hdescriptors
  split_ifs at hdescriptors
  obtain rfl := Option.some.inj hdescriptors
  refine { refl fs with descriptor := fun e => ?_ }
  show ((fs.descriptors.update d φ).load e).map _ = _
  rw [Heap.load_update]
  split_ifs
  · cases fs.descriptors.load e with
    | none => rfl
    | some x => exact congrArg some (hφ x)
  · rfl

end Keeps

/-- The blocks are those of the files, and the block under a descriptor is one of its file's if it is
there. -/
structure Backed (fs : Fs) (chain : ℕ → List ℕ) : Prop where
  chained : Chained fs.files.load fs.blocks fs.memories chain
  allocated : ∀ d x, fs.descriptors.load d = some x → x.currentBlock < fs.blocks.next
  under : ∀ d x b, fs.descriptors.load d = some x → fs.blocks.load x.currentBlock = some b →
    x.currentBlock ∈ chain x.file

/-- A call has kept the namespace and the table, and the blocks are still those of the files. -/
structure Moved (fs fs' : Fs) : Prop where
  keeps : Keeps fs fs'
  backed : ∃ chain, Backed fs' chain

theorem Moved.trans (h : Moved fs fs') (h' : Moved fs' fs'') : Moved fs fs'' :=
  ⟨h.keeps.trans h'.keeps, h'.backed⟩

theorem eq_of_modify {α : Type} {heap heap' : Heap α} {p : ℕ} {φ : α → α}
    (h : heap.modify p φ = some heap') : heap' = heap.update p φ ∧ ∃ a, heap.load p = some a := by
  rw [Heap.modify] at h
  split_ifs at h with hp
  exact ⟨(Option.some.inj h).symm, Option.isSome_iff_exists.mp hp⟩

/-- A descriptor is moved to a block of its file. -/
theorem Backed.move (h : Backed fs chain) {b : ℕ} {o : ℤ}
    (hb : ∀ x, fs.descriptors.load d = some x → b ∈ chain x.file)
    (hstep : fs.modifyDescriptor d (fun x => { x with currentBlock := b, blockOffset := o }) =
      some fs') : Backed fs' chain := by
  obtain ⟨descriptors, hmodify, rfl⟩ := Option.map_eq_some_iff.mp hstep
  obtain ⟨rfl, x, hx⟩ := eq_of_modify hmodify
  obtain ⟨block, hblock⟩ := h.chained.load_of_mem (hb x hx)
  refine ⟨h.chained, fun e y he => ?_, fun e y c he hc => ?_⟩
  · obtain ⟨z, hz, rfl⟩ := Heap.of_load_update he
    split_ifs
    · exact Heap.lt_next hblock
    · exact h.allocated e z hz
  · obtain ⟨z, hz, rfl⟩ := Heap.of_load_update he
    by_cases hed : e = d
    · rw [if_pos hed]
      exact hb z (hed ▸ hz)
    · rw [if_neg hed] at hc ⊢
      exact h.under e z c hz hc

/-- The files that are still there keep their blocks. -/
theorem Backed.withdraw (h : Backed fs chain) {files : Heap File} {blocks : Heap Block}
    {memories : Heap (CArray UInt8)} (hw : Withdrawn fs f (chain f) files blocks memories) :
    ∃ chain', Chained files.load blocks memories chain' ∧ blocks.next = fs.blocks.next ∧
      ∀ (x : Filedesc) (b : Block),
        (∀ b, fs.blocks.load x.currentBlock = some b → x.currentBlock ∈ chain x.file) →
        blocks.load x.currentBlock = some b → x.currentBlock ∈ chain' x.file := by
  cases hw with
  | kept hsame hblocks hmemories =>
    subst hblocks hmemories
    exact ⟨chain, h.chained.congr hsame, rfl, fun _ b hx hb => hx b hb⟩
  | released hsame hfiles hnext hreleased =>
    subst hfiles
    refine ⟨_, (h.chained.congr hsame).delete hreleased, hnext, fun x b hx hb => ?_⟩
    rw [hreleased.block] at hb
    split_ifs at hb with hmem
    have hxf : x.file ≠ f := fun hxf => hmem (hxf ▸ hx b hb)
    rw [Function.update_of_ne hxf]
    exact hx b hb

/-! ### Reading and writing -/

theorem Backed.writeSingleByte (h : Backed fs chain) {byte : UInt8}
    (hstep : fs.writeSingleByte d byte = some fs') : Backed fs' chain ∧ Keeps fs fs' := by
  simp only [Fs.writeSingleByte, Option.bind_eq_bind, Option.bind_eq_some_iff] at hstep
  obtain ⟨x, -, block, hblock, -, -, memory, -, file, hfile, hstep⟩ := hstep
  have hmemory := h.chained.setMemory hblock memory
  split_ifs at hstep with hend
  · obtain ⟨blocks, hmodify, rfl⟩ := Option.map_eq_some_iff.mp hstep
    obtain ⟨rfl, last, hlast⟩ := eq_of_modify hmodify
    refine ⟨⟨hmemory.setOccupied hlast fun o => o + 1, h.allocated, fun e y b he hb => ?_⟩,
      .blocks fs _ _⟩
    obtain ⟨b', hb', -⟩ := Heap.of_load_update hb
    exact h.under e y b' he hb'
  · obtain rfl := Option.some.inj hstep
    exact ⟨⟨hmemory, h.allocated, h.under⟩, .blocks fs _ _⟩

/-- A new block behind the last one. -/
theorem Backed.appendBlock (h : Backed fs chain) {b : ℕ} {block : Block} (hmem : b ∈ chain f)
    (hblock : fs.blocks.load b = some block) (hnext : block.next = none)
    (hstep : fs.appendBlock f b = some fs') :
    Backed fs' (Function.update chain f (chain f ++ [fs.blocks.next])) ∧ Keeps fs fs' := by
  obtain ⟨file, hfile⟩ := h.chained.file_of_mem hmem
  have hload := Heap.load_malloc_of_load hblock
    ⟨fs.memories.next, 0, none, some b, int (block.index + 1)⟩
  simp only [Fs.appendBlock, hblock, Option.bind_eq_bind, Option.bind_some, Fs.modifyBlock,
    Heap.modify_eq hload, Option.map_some, Fs.modifyFile, Heap.modify_eq hfile] at hstep
  obtain rfl := Option.some.inj hstep
  refine ⟨⟨h.chained.append hfile (h.chained.last_of_next hmem hblock hnext) _,
    fun e y he => Nat.lt_succ_of_lt (h.allocated e y he), fun e y c he hc => ?_⟩,
    { Keeps.refl fs with file := sameFiles_update _ _ fun _ => rfl }⟩
  obtain ⟨c', hc', -⟩ := Heap.of_load_update hc
  rw [Heap.load_malloc, if_neg (Nat.ne_of_lt (h.allocated e y he))] at hc'
  have hy := h.under e y c' he hc'
  by_cases hyf : y.file = f
  · rw [hyf] at hy ⊢
    rw [Function.update_self]
    exact List.mem_append_left _ hy
  · rwa [Function.update_of_ne hyf]

theorem Keeps.descriptor_some (h : Keeps fs fs') {y : Filedesc} (hd : fs'.descriptors.load d = some y) :
    ∃ x, fs.descriptors.load d = some x ∧ x.file = y.file ∧ x.index = y.index := by
  have hentry := h.descriptor d
  rw [hd] at hentry
  obtain ⟨x, hx, hxy⟩ := Option.map_eq_some_iff.mp hentry.symm
  exact ⟨x, hx, congrArg Prod.fst hxy, congrArg Prod.snd hxy⟩

/-- The block behind one in a chain is in the chain. -/
theorem Chained.next_mem {files : ℕ → Option File} {blocks : Heap Block}
    {memories : Heap (CArray UInt8)} (h : Chained files blocks memories chain) {p q : ℕ}
    {block : Block} (hp : p ∈ chain f) (hblock : blocks.load p = some block)
    (hnext : block.next = some q) : q ∈ chain f := by
  obtain ⟨i, hi⟩ := List.mem_iff_getElem?.mp hp
  obtain ⟨b, hb, hbnext, -⟩ := h.linked f i p hi
  obtain rfl := Option.some.inj (hblock.symm.trans hb)
  exact List.mem_of_getElem? (hbnext.symm.trans hnext)

theorem Chained.prev_mem {files : ℕ → Option File} {blocks : Heap Block}
    {memories : Heap (CArray UInt8)} (h : Chained files blocks memories chain) {p q : ℕ}
    {block : Block} (hp : p ∈ chain f) (hblock : blocks.load p = some block)
    (hprev : block.prev = some q) : q ∈ chain f := by
  obtain ⟨i, hi⟩ := List.mem_iff_getElem?.mp hp
  obtain ⟨b, hb, -, hbprev⟩ := h.linked f i p hi
  obtain rfl := Option.some.inj (hblock.symm.trans hb)
  cases i with
  | zero => cases hbprev.symm.trans hprev
  | succ i => exact List.mem_of_getElem? (hbprev.symm.trans hprev)

theorem Backed.advanceDescriptor (h : Backed fs chain) (hstep : fs.advanceDescriptor d = some fs') :
    Moved fs fs' := by
  simp only [Fs.advanceDescriptor, Option.bind_eq_bind, Option.bind_eq_some_iff] at hstep
  obtain ⟨x, hx, hstep⟩ := hstep
  have hself : ∀ {y}, fs.descriptors.load d = some y → y = x := fun hy =>
    Option.some.inj (hy.symm.trans hx)
  split_ifs at hstep with hend
  · obtain ⟨block, hblock, hstep⟩ := Option.bind_eq_some_iff.mp hstep
    have hmem := h.under d x block hx hblock
    cases hnext : block.next with
    | some b =>
      simp only [hnext, Option.bind_some] at hstep
      refine ⟨.modifyDescriptor hstep fun _ => rfl, chain, h.move (fun y hy => ?_) hstep⟩
      rw [hself hy]
      exact h.chained.next_mem hmem hblock hnext
    | none =>
      simp only [hnext] at hstep
      obtain ⟨⟨b, fs₁⟩, hmap, hstep⟩ := Option.bind_eq_some_iff.mp hstep
      obtain ⟨fs₂, happend, heq⟩ := Option.map_eq_some_iff.mp hmap
      obtain ⟨rfl, rfl⟩ := Prod.mk.inj heq
      obtain ⟨h₁, hkeeps⟩ := h.appendBlock hmem hblock hnext happend
      refine ⟨hkeeps.trans (.modifyDescriptor hstep fun _ => rfl), _,
        h₁.move (fun y hy => ?_) hstep⟩
      obtain ⟨z, hz, hfile, -⟩ := hkeeps.descriptor_some hy
      rw [← hfile, hself hz, Function.update_self]
      exact List.mem_append_right _ (List.mem_singleton_self _)
  · refine ⟨.modifyDescriptor hstep fun _ => rfl, chain, ?_⟩
    obtain ⟨descriptors, hmodify, rfl⟩ := Option.map_eq_some_iff.mp hstep
    obtain ⟨rfl, -⟩ := eq_of_modify hmodify
    refine ⟨h.chained, fun e y he => ?_, fun e y c he hc => ?_⟩
    · obtain ⟨z, hz, rfl⟩ := Heap.of_load_update he
      have hlt := h.allocated e z hz
      split_ifs <;> exact hlt
    · obtain ⟨z, hz, rfl⟩ := Heap.of_load_update he
      have hunder := h.under e z c hz
      split_ifs at hc ⊢
      · exact hunder hc
      · exact hunder hc

theorem Backed.writeBytes (h : Backed fs chain) {buf : List UInt8}
    (hstep : fs.writeBytes d buf = some fs') : Moved fs fs' := by
  induction buf generalizing fs chain with
  | nil =>
    obtain rfl := Option.some.inj hstep
    exact ⟨.refl fs, chain, h⟩
  | cons byte buf ih =>
    simp only [Fs.writeBytes, Option.bind_eq_bind, Option.bind_eq_some_iff] at hstep
    obtain ⟨fs₁, hwrite, fs₂, hadvance, hrest⟩ := hstep
    obtain ⟨h₁, hkeeps⟩ := h.writeSingleByte hwrite
    have hmoved := h₁.advanceDescriptor hadvance
    obtain ⟨chain₂, h₂⟩ := hmoved.backed
    have hrest := ih h₂ hrest
    exact ⟨hkeeps.trans (hmoved.keeps.trans hrest.keeps), hrest.backed⟩

theorem Backed.readBytes (h : Backed fs chain) {n : ℕ} {bytes : List (Option UInt8)}
    (hstep : fs.readBytes d n = some (bytes, fs')) : Moved fs fs' := by
  induction n generalizing fs chain bytes with
  | zero =>
    obtain ⟨-, rfl⟩ := Prod.mk.inj (Option.some.inj hstep)
    exact ⟨.refl fs, chain, h⟩
  | succ n ih =>
    simp only [Fs.readBytes, Option.bind_eq_bind, Option.bind_eq_some_iff] at hstep
    obtain ⟨byte, -, fs₁, hadvance, ⟨bytes', fs₂⟩, hrest, heq⟩ := hstep
    obtain ⟨-, rfl⟩ := Prod.mk.inj (Option.some.inj heq)
    have hmoved := h.advanceDescriptor hadvance
    obtain ⟨chain₁, h₁⟩ := hmoved.backed
    exact hmoved.trans (ih h₁ hrest)

theorem Backed.throw (h : Backed fs chain) (error : ErrorCode) :
    Moved fs (fs.throwUfsError error).2 := 
  ⟨{ Keeps.refl fs with }, chain, h.chained, h.allocated, h.under⟩

theorem Backed.ufsWrite (h : Backed fs chain) {fd ret : ℤ} {buf : List UInt8}
    (hstep : fs.ufsWrite fd buf = some (ret, fs')) : Moved fs fs' := by
  obtain ⟨o, -, hstep⟩ := Option.bind_eq_some_iff.mp hstep
  cases o with
  | none =>
    obtain ⟨-, rfl⟩ := Prod.mk.inj (Option.some.inj hstep)
    exact h.throw .noFile
  | some d =>
    obtain ⟨x, -, hstep⟩ := Option.bind_eq_some_iff.mp hstep
    split_ifs at hstep
    · obtain ⟨-, rfl⟩ := Prod.mk.inj (Option.some.inj hstep)
      exact h.throw .noPermission
    · simp only [Fs.writeViaDescriptor, Option.bind_eq_bind, Option.bind_eq_some_iff] at hstep
      obtain ⟨x, -, block, -, hstep⟩ := hstep
      split_ifs at hstep
      · obtain ⟨-, rfl⟩ := Prod.mk.inj (Option.some.inj hstep)
        exact h.throw .noMem
      · obtain ⟨fs₁, hwrite, heq⟩ := Option.bind_eq_some_iff.mp hstep
        obtain ⟨-, rfl⟩ := Prod.mk.inj (Option.some.inj heq)
        exact h.writeBytes hwrite

theorem Backed.ufsRead (h : Backed fs chain) {fd ret : ℤ} {size : ℕ} {bytes : List (Option UInt8)}
    (hstep : fs.ufsRead fd size = some (ret, bytes, fs')) : Moved fs fs' := by
  obtain ⟨o, -, hstep⟩ := Option.bind_eq_some_iff.mp hstep
  cases o with
  | none =>
    obtain ⟨-, -, rfl⟩ := Option.some.inj hstep
    exact h.throw .noFile
  | some d =>
    obtain ⟨x, -, hstep⟩ := Option.bind_eq_some_iff.mp hstep
    split_ifs at hstep
    · obtain ⟨-, -, rfl⟩ := Option.some.inj hstep
      exact h.throw .noPermission
    · simp only [Fs.readViaDescriptor, Option.bind_eq_bind, Option.bind_eq_some_iff] at hstep
      obtain ⟨x, -, block, -, file, -, last, -, ⟨bytes', fs₁⟩, hread, heq⟩ := hstep
      obtain ⟨-, heq⟩ := Prod.mk.inj (Option.some.inj heq)
      obtain ⟨-, rfl⟩ := Prod.mk.inj heq
      exact h.readBytes hread

/-! ### Truncation -/

/-- The walk back stays in the chain. -/
theorem Chained.newLastBlock_mem (h : Chained fs.files.load fs.blocks fs.memories chain)
    {newSize : ℤ} {p q : ℕ} (hexits : Exits (fs.newLastBlockStep newSize) p q) (hp : p ∈ chain f) :
    q ∈ chain f := by
  induction hexits with
  | @done p q hstep =>
    obtain ⟨block, -, hstep⟩ := Option.bind_eq_some_iff.mp hstep
    split_ifs at hstep
    · obtain ⟨r, -, hstep⟩ := Option.bind_eq_some_iff.mp hstep
      cases hstep
    · cases hstep
      exact hp
  | @again p r q hstep _ ih =>
    obtain ⟨block, hblock, hstep⟩ := Option.bind_eq_some_iff.mp hstep
    split_ifs at hstep
    · obtain ⟨r', hprev, hstep⟩ := Option.bind_eq_some_iff.mp hstep
      cases hstep
      exact ih (h.prev_mem hp hblock hprev)
    · cases hstep

/-- The descriptors of a file may have been moved to one of its blocks, and nothing else is changed. -/
structure Clamped (f q : ℕ) (fs fs' : Fs) : Prop where
  rest : fs' = { fs with descriptors := fs'.descriptors }
  entry : ∀ d, (fs'.descriptors.load d).map Filedesc.entry =
    (fs.descriptors.load d).map Filedesc.entry
  block : ∀ d y, fs'.descriptors.load d = some y → (y.file = f ∧ y.currentBlock = q) ∨
    ∃ x, fs.descriptors.load d = some x ∧ x.file = y.file ∧ x.currentBlock = y.currentBlock

theorem Clamped.refl (f q : ℕ) (fs : Fs) : Clamped f q fs fs :=
  ⟨rfl, fun _ => rfl, fun _ y hy => .inr ⟨y, hy, rfl, rfl⟩⟩

theorem Clamped.trans {q : ℕ} (h : Clamped f q fs fs') (h' : Clamped f q fs' fs'') :
    Clamped f q fs fs'' where
  rest := by
    have hrest := h'.rest
    rwa [h.rest] at hrest
  entry d := (h'.entry d).trans (h.entry d)
  block d y hy := by
    rcases h'.block d y hy with hmoved | ⟨x, hx, hfile, hblock⟩
    · exact .inl hmoved
    · rcases h.block d x hx with ⟨hxf, hxq⟩ | ⟨z, hz, hzfile, hzblock⟩
      · exact .inl ⟨hfile ▸ hxf, hblock ▸ hxq⟩
      · exact .inr ⟨z, hz, hzfile.trans hfile, hzblock.trans hblock⟩

theorem clamped_clampDescriptor {q i : ℕ} {o : ℤ}
    (hstep : fs.clampDescriptor f q o i = some fs') : Clamped f q fs fs' := by
  obtain ⟨s, -, hstep⟩ := Option.bind_eq_some_iff.mp hstep
  cases s with
  | none =>
    obtain rfl := Option.some.inj hstep
    exact .refl f q fs
  | some d =>
    obtain ⟨x, hx, hstep⟩ := Option.bind_eq_some_iff.mp hstep
    split_ifs at hstep with hfile
    · obtain rfl := Option.some.inj hstep
      exact .refl f q fs
    obtain ⟨block, -, hstep⟩ := Option.bind_eq_some_iff.mp hstep
    obtain ⟨last, -, hstep⟩ := Option.bind_eq_some_iff.mp hstep
    split_ifs at hstep
    · obtain rfl := Option.some.inj hstep
      exact .refl f q fs
    · obtain rfl := Option.some.inj hstep
      exact .refl f q fs
    · have hkeeps := Keeps.modifyDescriptor hstep fun _ => rfl
      obtain ⟨descriptors, hmodify, rfl⟩ := Option.map_eq_some_iff.mp hstep
      obtain ⟨rfl, -⟩ := eq_of_modify hmodify
      refine ⟨rfl, hkeeps.descriptor, fun e y he => ?_⟩
      obtain ⟨z, hz, rfl⟩ := Heap.of_load_update he
      by_cases hed : e = d
      · obtain rfl := Option.some.inj ((hed ▸ hx).symm.trans hz)
        rw [if_pos hed]
        exact .inl ⟨not_not.mp hfile, rfl⟩
      · rw [if_neg hed]
        exact .inr ⟨z, hz, rfl, rfl⟩

theorem clamped_clampDescriptorsFrom {q n i : ℕ} {o : ℤ}
    (hstep : Fs.clampDescriptorsFrom f q o n i fs = some fs') : Clamped f q fs fs' := by
  induction n generalizing fs i with
  | zero =>
    obtain rfl := Option.some.inj hstep
    exact .refl f q fs
  | succ n ih =>
    obtain ⟨fs₁, hclamp, hrest⟩ := Option.bind_eq_some_iff.mp hstep
    exact (clamped_clampDescriptor hclamp).trans (ih hrest)

theorem Backed.reduceFileSize (h : Backed fs chain) {newSize : ℤ}
    (hstep : fs.reduceFileSize f newSize = some fs') : Moved fs fs' := by
  simp only [Fs.reduceFileSize, Option.bind_eq_bind, Option.bind_eq_some_iff] at hstep
  obtain ⟨file, hfile, q, hfind, block, -, fs₁, hcut, fs₂, hclamp, ⟨fs₃, r⟩, hremove, hstep⟩ := hstep
  generalize int (newSize - int (block.index * blockSize)) = o at hcut hclamp
  have hends := h.chained.ends hfile
  have hmem := h.chained.newLastBlock_mem (exits_of_iterate hfind) (List.mem_of_getLast? hends.2)
  obtain ⟨k, hk⟩ := List.mem_iff_getElem?.mp hmem
  obtain ⟨blocks₁, hblocks₁, rfl⟩ := Option.map_eq_some_iff.mp hcut
  obtain ⟨rfl, last, hlast⟩ := eq_of_modify hblocks₁
  obtain ⟨hrest, hentry, hblock⟩ := clamped_clampDescriptorsFrom hclamp
  generalize fs₂.descriptors = descriptors at hrest hentry hblock
  subst hrest
  have hreleasable : Releasable ((chain f).drop (k + 1)).reverse fs.blocks fs.memories :=
    h.chained.releasable (List.nodup_reverse.mpr
      ((h.chained.linked f).nodup.sublist (List.drop_sublist _ _)))
    fun p hp => List.mem_of_mem_drop (List.mem_reverse.mp hp)
  obtain ⟨blocks, memories, hfree, hnext, hreleased⟩ := free_behind { fs with
      blocks := fs.blocks.update q fun b => { b with occupied := o, next := none }
      descriptors := descriptors } (h.chained.linked f) hk hends.2 rfl hreleasable
  obtain ⟨rfl, -⟩ := Prod.mk.inj (Option.some.inj (hremove.symm.trans hfree))
  obtain ⟨files, hfiles, rfl⟩ := Option.map_eq_some_iff.mp hstep
  obtain ⟨rfl, -⟩ := eq_of_modify hfiles
  refine ⟨{ Keeps.refl fs with
      file := sameFiles_update _ _ fun _ => rfl, descriptor := hentry },
    _, h.chained.truncate hk o hreleased, fun d y hy => ?_, fun d y b hy hb => ?_⟩
  · show y.currentBlock < blocks.next
    rw [hnext, Heap.next_update]
    rcases hblock d y hy with ⟨-, hyq⟩ | ⟨x, hx, -, hxy⟩
    · exact hyq ▸ Heap.lt_next hlast
    · exact hxy ▸ h.allocated d x hx
  · change blocks.load y.currentBlock = some b at hb
    rw [hreleased.block] at hb
    split_ifs at hb with hdrop
    obtain ⟨b₀, hb₀, -⟩ := Heap.of_load_update hb
    have hy' : y.currentBlock ∈ chain y.file := by
      rcases hblock d y hy with ⟨hyf, hyq⟩ | ⟨x, hx, hxf, hxy⟩
      · rwa [hyf, hyq]
      · rw [← hxf, ← hxy]
        exact h.under d x b₀ hx (hxy ▸ hb₀)
    by_cases hyf : y.file = f
    · rw [hyf] at hy' ⊢
      rw [Function.update_self]
      rw [← List.take_append_drop (k + 1) (chain f)] at hy'
      exact (List.mem_append.mp hy').resolve_right fun hmem' => hdrop (List.mem_reverse.mpr hmem')
    · rwa [Function.update_of_ne hyf]

theorem Backed.ufsResize (h : Backed fs chain) {fd ret : ℤ} {newSize : ℕ}
    (hstep : fs.ufsResize fd newSize = some (ret, fs')) : Moved fs fs' := by
  obtain ⟨o, -, hstep⟩ := Option.bind_eq_some_iff.mp hstep
  cases o with
  | none =>
    obtain ⟨-, rfl⟩ := Prod.mk.inj (Option.some.inj hstep)
    exact h.throw .noFile
  | some d =>
    dsimp only at hstep
    split_ifs at hstep
    · obtain ⟨-, rfl⟩ := Prod.mk.inj (Option.some.inj hstep)
      exact h.throw .noMem
    · obtain ⟨x, -, hstep⟩ := Option.bind_eq_some_iff.mp hstep
      obtain ⟨fs₁, hreduce, hstep⟩ := Option.bind_eq_some_iff.mp hstep
      obtain ⟨-, rfl⟩ := Prod.mk.inj (Option.some.inj hstep)
      exact h.reduceFileSize hreduce

end SystemsProgramming.UserFs

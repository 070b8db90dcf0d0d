import SystemsProgramming.UserFs.Blocks

/-! Reads and writes through a descriptor do to the heaps what they do to the volume. -/

namespace SystemsProgramming.UserFs

variable {fs : Fs} {l : Layout} {v : Volume}

/-- A slot with an open descriptor. -/
structure Opening (l : Layout) (v : Volume) (i d : ℕ) (h : Handle) : Prop where
  table : l.table[i]? = some (some d)
  slot : v.slots[i]? = some (some h)

theorem Represents.opening (hr : Represents fs l v) {i : ℕ} {h : Handle}
    (hslot : v.slots[i]? = some (some h)) : ∃ d, Opening l v i d h := by
  have hlt := (List.getElem?_eq_some_iff.mp hslot).1
  rw [← hr.opened.length] at hlt
  have htable := List.getElem?_eq_getElem hlt
  cases ho : l.table[i] with
  | none =>
    rw [ho] at htable
    cases hr.opened.slot i _ _ htable hslot
  | some d => exact ⟨d, htable.trans (congrArg some ho), hslot⟩

theorem Opening.descriptor {i d : ℕ} {h : Handle} (ho : Opening l v i d h)
    (hr : Represents fs l v) : ∃ b, fs.descriptors.load d = some ⟨h.file, i, b, h.offset, h.flags⟩ ∧
      (l.chain h.file)[h.block]? = some b := by
  cases hr.opened.slot i _ _ ho.table ho.slot with
  | opened hd hb => exact ⟨_, hd, hb⟩

theorem Represents.file (hr : Represents fs l v) {f k b : ℕ} (hb : (l.chain f)[k]? = some b) :
    ∃ file, fs.files.load f = some file := by
  cases hfile : fs.files.load f with
  | none =>
    rw [hr.stored.dead f hfile] at hb
    cases hb
  | some file => exact ⟨file, rfl⟩

/-- The last block of a file, by its number. -/
theorem Represents.lastBlock_iff (hr : Represents fs l v) {f k b : ℕ} {file : File}
    (hfile : fs.files.load f = some file) (hb : (l.chain f)[k]? = some b) :
    file.lastBlock = b ↔ k + 1 = (v.clusters f).length := by
  have hlast := (hr.stored.ends f file hfile).2
  have hlt := (List.getElem?_eq_some_iff.mp hb).1
  rw [List.getLast?_eq_getElem?] at hlast
  rw [← hr.stored.length f file hfile]
  constructor
  · rintro rfl
    have := (hr.stored.linked f).index_eq hb hlast
    omega
  · intro hk
    rw [← hk, Nat.add_sub_cancel, hb] at hlast
    exact (Option.some.inj hlast).symm

theorem Opened.set {descriptors descriptors' : ℕ → Option Filedesc} {chain : ℕ → List ℕ}
    {table : List (Option ℕ)} {slots : List (Option Handle)} (ho : Opened descriptors chain table slots)
    {i d b : ℕ} {h x : Handle} (htable : table[i]? = some (some d))
    (hslot : slots[i]? = some (some h))
    (hd : descriptors' d = some ⟨x.file, i, b, x.offset, x.flags⟩)
    (hb : (chain x.file)[x.block]? = some b)
    (hother : ∀ e, e ≠ d → descriptors' e = descriptors e) :
    Opened descriptors' chain table (slots.set i (some x)) where
  length := ho.length.trans (List.length_set ..).symm
  slot j o y hj hy := by
    by_cases hij : i = j
    · subst hij
      rw [List.getElem?_set_self (List.getElem?_eq_some_iff.mp hslot).1] at hy
      obtain rfl := Option.some.inj hy
      obtain rfl := Option.some.inj (htable.symm.trans hj)
      exact .opened hd hb
    · rw [List.getElem?_set_ne hij] at hy
      cases ho.slot j o y hj hy with
      | closed => exact .closed
      | @opened e b₁ h₁ he hb₁ =>
        refine .opened ((hother e ?_).trans he) hb₁
        rintro rfl
        cases ho.slot i _ _ htable hslot with
        | opened hd₀ _ => exact hij (congrArg Filedesc.index (Option.some.inj (hd₀.symm.trans he)))
  owned e y he := by
    by_cases hed : e = d
    · exact ⟨i, hed ▸ htable⟩
    · exact ho.owned e y ((hother e hed).symm.trans he)

theorem Counted.set {files : ℕ → Option File} {slots : List (Option Handle)}
    (h : Counted files slots) {i : ℕ} {x y : Option Handle} (hx : slots[i]? = some x)
    (hfile : y.map Handle.file = x.map Handle.file) : Counted files (slots.set i y) where
  refs f file hf := by
    rw [h.refs f file hf, tally_set hx, hfile]
    omega
  marked := h.marked

theorem set_same {α : Type*} {xs : List α} {i : ℕ} {x : α} (h : xs[i]? = some x) :
    xs.set i x = xs := by
  obtain ⟨hlt, rfl⟩ := List.getElem?_eq_some_iff.mp h
  exact List.set_getElem_self hlt

/-- A descriptor that stays where it is. -/
theorem Opening.seek_here {i d : ℕ} {h : Handle} (ho : Opening l v i d h) (cs : List Cluster) :
    v.seek i h ⟨cs, h.block, h.offset⟩ =
      { v with clusters := Function.update v.clusters h.file cs } := by
  rw [Volume.seek, set_same ho.slot]

theorem Cursor.put_some {c c' : Cursor} {byte : UInt8} (h : c.put byte = some c') :
    ∃ cluster m o, c.clusters[c.block]? = some cluster ∧
      cluster.memory.set c.offset byte = some m ∧
      o = (if c.block + 1 = c.clusters.length ∧ c.offset = cluster.occupied
        then cluster.occupied + 1 else cluster.occupied) ∧
      c' = { c with clusters := c.clusters.set c.block ⟨m, o⟩ } := by
  simp only [Cursor.put, Option.bind_eq_bind, Option.pure_def] at h
  obtain ⟨cluster, hcluster, h⟩ := Option.bind_eq_some_iff.mp h
  obtain ⟨m, hm, h⟩ := Option.bind_eq_some_iff.mp h
  exact ⟨cluster, m, _, hcluster, hm, rfl, (Option.some.inj h).symm⟩

/-- A write of one byte. -/
theorem Opening.writeSingleByte {i d : ℕ} {h : Handle} (ho : Opening l v i d h)
    (hr : Represents fs l v) {byte : UInt8} {c : Cursor} (hput : (v.cursor h).put byte = some c) :
    ∃ fs', fs.writeSingleByte d byte = some fs' ∧ Represents fs' l (v.seek i h c) := by
  obtain ⟨b, hd, hb⟩ := ho.descriptor hr
  obtain ⟨file, hfile⟩ := hr.file hb
  obtain ⟨block, cluster, hblock, hcluster, -, hoccupied, hmemory⟩ := hr.stored.block _ _ _ hb
  obtain ⟨cluster', m, o, hcluster', hm, hput, rfl⟩ := Cursor.put_some hput
  obtain rfl : cluster = cluster' := Option.some.inj (hcluster.symm.trans hcluster')
  have hstored := hr.stored.setMemory hb hblock hcluster m
  have hlast := hr.lastBlock_iff hfile hb
  replace hm : cluster.memory.set h.offset byte = some m := hm
  simp only [Fs.writeSingleByte, hd, hblock, hmemory, hm, hfile, Option.bind_eq_bind,
    Option.bind_some, hlast, hoccupied, Volume.cursor, ho.seek_here, Option.pure_def]
  by_cases hend : h.block + 1 = (v.clusters h.file).length ∧ h.offset = cluster.occupied
  · obtain rfl : o = cluster.occupied + 1 := hput.trans (if_pos hend)
    have hmod := Heap.modify_eq hblock fun b : Block => { b with occupied := b.occupied + 1 }
    have hset : (Function.update v.clusters h.file ((v.clusters h.file).set h.block
        { cluster with memory := m }) h.file)[h.block]? = some { cluster with memory := m } := by
      rw [Function.update_self, List.getElem?_set_self (List.getElem?_eq_some_iff.mp hcluster).1]
    have hoccupy := hstored.setOccupied hb hset (o := cluster.occupied + 1)
      (φ := fun b : Block => { b with occupied := b.occupied + 1 }) fun b' hb' => by
        obtain rfl := Option.some.inj (hblock.symm.trans hb')
        rw [hoccupied]
    rw [Function.update_self, Function.update_idem, List.set_set] at hoccupy
    rw [if_pos hend, hlast.mpr hend.1, Fs.modifyBlock, hmod]
    exact ⟨_, rfl, { hr with stored := hoccupy }⟩
  · obtain rfl : o = cluster.occupied := hput.trans (if_neg hend)
    rw [if_neg hend]
    exact ⟨_, rfl, { hr with stored := hstored }⟩

/-- A read of one byte. -/
theorem Opening.readSingleByte {i d : ℕ} {h : Handle} (ho : Opening l v i d h)
    (hr : Represents fs l v) : fs.readSingleByte d = (v.cursor h).get := by
  obtain ⟨b, hd, hb⟩ := ho.descriptor hr
  obtain ⟨block, cluster, hblock, hcluster, -, -, hmemory⟩ := hr.stored.block _ _ _ hb
  simp only [Fs.readSingleByte, Cursor.get, Volume.cursor, hd, hblock, hmemory, hcluster,
    Option.bind_eq_bind, Option.bind_some]

/-- The descriptor of a slot is moved. -/
theorem Opening.move {i d b k : ℕ} {h : Handle} (ho : Opening l v i d h) (hr : Represents fs l v)
    (hb : (l.chain h.file)[k]? = some b) {o : ℤ} {φ : Filedesc → Filedesc}
    (hφ : ∀ b₀, (l.chain h.file)[h.block]? = some b₀ →
      φ ⟨h.file, i, b₀, h.offset, h.flags⟩ = ⟨h.file, i, b, o, h.flags⟩) :
    ∃ fs', fs.modifyDescriptor d φ = some fs' ∧ Represents fs' l
      { v with slots := v.slots.set i (some { h with block := k, offset := o }) } := by
  obtain ⟨b₀, hd, hb₀⟩ := ho.descriptor hr
  have hd' := Heap.load_update_self hd φ
  rw [hφ b₀ hb₀] at hd'
  rw [Fs.modifyDescriptor, Heap.modify_eq hd]
  have hopened := hr.opened.set ho.table ho.slot (x := { h with block := k, offset := o }) hd'
    hb fun e he => Heap.load_update_ne _ he
  exact ⟨_, rfl, { hr with opened := hopened, counted := hr.counted.set ho.slot rfl }⟩

/-- A new block behind the last one of a file. -/
theorem Represents.appendBlock (hr : Represents fs l v) {f k b : ℕ}
    (hb : (l.chain f)[k]? = some b) (hk : k + 1 = (v.clusters f).length) (hlen : k + 1 < 2 ^ 31) :
    ∃ fs', fs.appendBlock f b = some fs' ∧ Represents fs'
      { l with chain := Function.update l.chain f (l.chain f ++ [fs.blocks.next]) }
      { v with clusters := Function.update v.clusters f (v.clusters f ++ [.fresh]) } := by
  obtain ⟨file, hfile⟩ := hr.file hb
  obtain ⟨block, -, hblock, -, hindex, -⟩ := hr.stored.block _ _ _ hb
  have hlength := hr.stored.length f file hfile
  have hi : int (block.index + 1) = (l.chain f).length := by
    rw [hindex, hlength, ← hk]
    exact int_eq (by omega) (by omega)
  have hlast : (l.chain f).getLast? = some b := by
    rw [List.getLast?_eq_getElem?, hlength, ← hk, Nat.add_sub_cancel, hb]
  have hnew : (fs.blocks.malloc ⟨fs.memories.next, 0, none, some b, int (block.index + 1)⟩).load b =
      some block := Heap.load_malloc_of_load hblock _
  have hstored := hr.stored.append hfile hlast hi
  simp only [Fs.appendBlock, hblock, Option.bind_eq_bind, Option.bind_some, Fs.modifyBlock,
    Heap.modify_eq hnew, Option.map_some, Fs.modifyFile, Heap.modify_eq hfile]
  refine ⟨_, rfl, { hr with
    listed := hr.listed.congr (sameFiles_update _ _ fun _ => rfl)
    counted := hr.counted.congr (sameFiles_update _ _ fun _ => rfl)
    stored := hstored
    opened := hr.opened.mono fun j x b' _ hx => ?_ }⟩
  show (Function.update l.chain f _ x.file)[x.block]? = some b'
  by_cases hxf : x.file = f
  · rw [hxf] at hx
    rw [hxf, Function.update_self, List.getElem?_append_left (List.getElem?_eq_some_iff.mp hx).1, hx]
  · rw [Function.update_of_ne hxf, hx]

/-- The descriptor moves over one byte; at the end of the last block it moves to a new one. -/
theorem Opening.advanceDescriptor {i d : ℕ} {h : Handle} (ho : Opening l v i d h)
    (hr : Represents fs l v) (hlen : (v.cursor h).advance.clusters.length ≤ 2 ^ 31) :
    ∃ fs' l', fs.advanceDescriptor d = some fs' ∧ l'.table = l.table ∧
      Represents fs' l' (v.seek i h (v.cursor h).advance) := by
  obtain ⟨b, hd, hb⟩ := ho.descriptor hr
  obtain ⟨block, -, hblock, -⟩ := hr.stored.block _ _ _ hb
  obtain ⟨file, hfile⟩ := hr.file hb
  simp only [Fs.advanceDescriptor, hd, hblock, Option.bind_eq_bind, Option.bind_some]
  by_cases hend : h.offset + 1 = blockSize
  · obtain ⟨block', hblock', hnext, -⟩ := hr.stored.linked h.file h.block b hb
    obtain rfl : block = block' := Option.some.inj (hblock.symm.trans hblock')
    have hlength := hr.stored.length h.file file hfile
    have hlt := (List.getElem?_eq_some_iff.mp hb).1
    rw [if_pos hend, hnext]
    cases hb' : (l.chain h.file)[h.block + 1]? with
    | some b' =>
      have hmiddle : ¬h.block + 1 = (v.clusters h.file).length := by
        have := (List.getElem?_eq_some_iff.mp hb').1
        omega
      have hadvance : (v.cursor h).advance = ⟨v.clusters h.file, h.block + 1, 0⟩ :=
        Cursor.advance_next hend hmiddle
      obtain ⟨fs', hmove, hr'⟩ := ho.move hr hb' (o := 0)
        (φ := fun d => { d with currentBlock := b', blockOffset := 0 }) fun b₀ _ => rfl
      rw [hadvance, Volume.seek, Function.update_eq_self]
      exact ⟨fs', l, hmove, rfl, hr'⟩
    | none =>
      have hlast : h.block + 1 = (v.clusters h.file).length := by
        have := List.getElem?_eq_none_iff.mp hb'
        omega
      have hadvance : (v.cursor h).advance =
          ⟨v.clusters h.file ++ [.fresh], h.block + 1, 0⟩ := Cursor.advance_append hend hlast
      rw [hadvance] at hlen
      simp only [List.length_append, List.length_singleton] at hlen
      obtain ⟨fs₁, happend, hr₁⟩ := hr.appendBlock hb hlast (by omega)
      have ho₁ : Opening { l with
          chain := Function.update l.chain h.file (l.chain h.file ++ [fs.blocks.next]) }
          { v with clusters := Function.update v.clusters h.file (v.clusters h.file ++ [.fresh]) }
          i d h := ⟨ho.table, ho.slot⟩
      have hb₁ : (Function.update l.chain h.file (l.chain h.file ++ [fs.blocks.next])
          h.file)[h.block + 1]? = some fs.blocks.next := by
        rw [Function.update_self, hlast, ← hlength, List.getElem?_concat_length]
      obtain ⟨fs', hmove, hr'⟩ := ho₁.move hr₁ hb₁ (o := 0)
        (φ := fun d => { d with currentBlock := fs.blocks.next, blockOffset := 0 }) fun b₀ _ => rfl
      rw [hadvance, Volume.seek]
      simp only [happend, Option.map_some, Option.bind_some]
      exact ⟨fs', { l with
        chain := Function.update l.chain h.file (l.chain h.file ++ [fs.blocks.next]) }, hmove, rfl, hr'⟩
  · have hadvance : (v.cursor h).advance = ⟨v.clusters h.file, h.block, h.offset + 1⟩ :=
      Cursor.advance_inside hend
    obtain ⟨fs', hmove, hr'⟩ := ho.move hr hb (o := h.offset + 1)
      (φ := fun d => { d with blockOffset := d.blockOffset + 1 }) fun b₀ hb₀ => by
        rw [Option.some.inj (hb₀.symm.trans hb)]
    rw [if_neg hend, hadvance, Volume.seek, Function.update_eq_self]
    exact ⟨fs', l, hmove, rfl, hr'⟩

/-! ### The loops -/

theorem Cursor.length_advance (c : Cursor) : c.clusters.length ≤ c.advance.clusters.length := by
  unfold Cursor.advance
  split_ifs <;> simp

theorem Cursor.length_writeBytes {buf : List UInt8} {c c' : Cursor} (h : c.writeBytes buf = some c') :
    c.clusters.length ≤ c'.clusters.length := by
  induction buf generalizing c with
  | nil =>
    obtain rfl : c = c' := Option.some.inj h
    exact Nat.le_refl _
  | cons byte buf ih =>
    obtain ⟨c₁, hput, h⟩ := Option.bind_eq_some_iff.mp h
    obtain ⟨cluster, m, o, -, -, -, rfl⟩ := Cursor.put_some hput
    have hlen := Cursor.length_advance { c with clusters := c.clusters.set c.block ⟨m, o⟩ }
    rw [List.length_set] at hlen
    exact Nat.le_trans hlen (ih h)

theorem Cursor.length_readBytes {n : ℕ} {bytes : List (Option UInt8)} {c c' : Cursor}
    (h : c.readBytes n = some (bytes, c')) : c.clusters.length ≤ c'.clusters.length := by
  induction n generalizing c bytes with
  | zero =>
    obtain rfl : c = c' := congrArg Prod.snd (Option.some.inj h)
    exact Nat.le_refl _
  | succ n ih =>
    obtain ⟨byte, -, h⟩ := Option.bind_eq_some_iff.mp h
    obtain ⟨⟨bytes', c₁⟩, hrest, h⟩ := Option.bind_eq_some_iff.mp h
    obtain rfl : c₁ = c' := congrArg Prod.snd (Option.some.inj h)
    exact Nat.le_trans (Cursor.length_advance c) (ih hrest)

/-- The handle of a moved descriptor. -/
theorem Opening.seek {i d : ℕ} {h : Handle} (ho : Opening l v i d h) (c : Cursor) :
    Opening l (v.seek i h c) i d { h with block := c.block, offset := c.offset } where
  table := ho.table
  slot := List.getElem?_set_self (List.getElem?_eq_some_iff.mp ho.slot).1

theorem Opening.seek_layout {l' : Layout} {i d : ℕ} {h : Handle} (ho : Opening l v i d h)
    (htable : l'.table = l.table) (c : Cursor) :
    Opening l' (v.seek i h c) i d { h with block := c.block, offset := c.offset } where
  table := by rw [htable, ho.table]
  slot := (ho.seek c).slot

theorem seek_seek (v : Volume) (i : ℕ) (h : Handle) (c c' : Cursor) :
    (v.seek i h c).seek i { h with block := c.block, offset := c.offset } c' = v.seek i h c' := by
  simp [Volume.seek]

/-- A descriptor stands where it stands. -/
theorem Opening.seek_cursor {i d : ℕ} {h : Handle} (ho : Opening l v i d h) :
    v.seek i h (v.cursor h) = v := by
  rw [Volume.cursor, ho.seek_here, Function.update_eq_self]

theorem Opening.writeBytes {i d : ℕ} {h : Handle} (ho : Opening l v i d h) (hr : Represents fs l v)
    {buf : List UInt8} {c : Cursor} (hwrite : (v.cursor h).writeBytes buf = some c)
    (hlen : c.clusters.length ≤ 2 ^ 31) :
    ∃ fs' l', fs.writeBytes d buf = some fs' ∧ Represents fs' l' (v.seek i h c) := by
  induction buf generalizing fs l v h with
  | nil =>
    obtain rfl : v.cursor h = c := Option.some.inj hwrite
    exact ⟨fs, l, rfl, by rwa [ho.seek_cursor]⟩
  | cons byte buf ih =>
    obtain ⟨c₁, hput, hwrite⟩ := Option.bind_eq_some_iff.mp hwrite
    obtain ⟨fs₁, hfs₁, hr₁⟩ := ho.writeSingleByte hr hput
    have ho₁ := ho.seek c₁
    have hadvance : c₁.advance.clusters.length ≤ 2 ^ 31 :=
      Nat.le_trans (Cursor.length_writeBytes hwrite) hlen
    obtain ⟨fs₂, l₂, hfs₂, htable, hr₂⟩ := ho₁.advanceDescriptor hr₁ (by rwa [Volume.cursor_seek])
    rw [Volume.cursor_seek, seek_seek] at hr₂
    have ho₂ := ho.seek_layout htable c₁.advance
    obtain ⟨fs', l', hfs', hr'⟩ := ih ho₂ hr₂ (by rwa [Volume.cursor_seek])
    rw [seek_seek] at hr'
    refine ⟨fs', l', ?_, hr'⟩
    simp only [Fs.writeBytes, hfs₁, hfs₂, hfs', Option.bind_eq_bind, Option.bind_some]

theorem Opening.readBytes {i d : ℕ} {h : Handle} (ho : Opening l v i d h) (hr : Represents fs l v)
    {n : ℕ} {bytes : List (Option UInt8)} {c : Cursor}
    (hread : (v.cursor h).readBytes n = some (bytes, c)) (hlen : c.clusters.length ≤ 2 ^ 31) :
    ∃ fs' l', fs.readBytes d n = some (bytes, fs') ∧ Represents fs' l' (v.seek i h c) := by
  induction n generalizing fs l v h bytes with
  | zero =>
    obtain ⟨rfl, rfl⟩ := Prod.mk.inj (Option.some.inj hread)
    exact ⟨fs, l, rfl, by rwa [ho.seek_cursor]⟩
  | succ n ih =>
    obtain ⟨byte, hget, hread⟩ := Option.bind_eq_some_iff.mp hread
    obtain ⟨⟨bytes', c'⟩, hrest, hread⟩ := Option.bind_eq_some_iff.mp hread
    obtain ⟨rfl, rfl⟩ := Prod.mk.inj (Option.some.inj hread)
    have hadvance := Nat.le_trans (Cursor.length_readBytes hrest) hlen
    obtain ⟨fs₁, l₁, hfs₁, htable, hr₁⟩ := ho.advanceDescriptor hr hadvance
    have ho₁ := ho.seek_layout htable (v.cursor h).advance
    obtain ⟨fs', l', hfs', hr'⟩ := ih ho₁ hr₁ (by rwa [Volume.cursor_seek])
    rw [seek_seek] at hr'
    refine ⟨fs', l', ?_, hr'⟩
    rw [← ho.readSingleByte hr] at hget
    simp only [Fs.readBytes, hget, hfs₁, hfs', Option.bind_eq_bind, Option.bind_some,
      Option.pure_def]

end SystemsProgramming.UserFs

import SystemsProgramming.UserFs.Bytes

/-! The descriptor table, and the calls that work on an open descriptor without touching the table:
`ufs_read` and `ufs_write`. -/

namespace SystemsProgramming.UserFs

variable {fs : Fs} {l : Layout} {v : Volume}

theorem Tabled.slot_eq {table : List (Option ℕ)} (h : Tabled fs.arrays.load fs.fileDescriptors
    fs.fileDescriptorCount fs.fileDescriptorCapacity table) {i : ℕ} {o : Option ℕ}
    (ho : table[i]? = some o) : fs.slot i = some o := by
  have hlt := (List.getElem?_eq_some_iff.mp ho).1
  cases hp : fs.fileDescriptors with
  | none =>
    rw [h.null hp] at hlt
    cases hlt
  | some p =>
    obtain ⟨array, harray, hsize, -, hle, hcells⟩ := h.array p hp
    simp only [Fs.slot, hp, harray, Option.bind_eq_bind, Option.bind_some]
    rw [CArray.get_eq (by omega) (by omega), hcells i o ho]

theorem Represents.count_eq (hr : Represents fs l v) : fs.fileDescriptorCount = v.slots.length :=
  hr.tabled.count.trans hr.opened.length

/-- A number is that of an open descriptor in both or in neither. -/
theorem Represents.tryGetFileDescriptor (hr : Represents fs l v) (fd : ℤ) :
    (v.handle fd = none ∧ fs.tryGetFileDescriptor fd = some none) ∨
      ∃ h d, v.handle fd = some h ∧ fs.tryGetFileDescriptor fd = some (some d) ∧ 0 ≤ fd ∧
        Opening l v fd.toNat d h := by
  have hcount := hr.count_eq
  by_cases hneg : fd < 0
  · exact .inl ⟨if_pos hneg, if_pos (.inl hneg)⟩
  · rw [Volume.handle, if_neg hneg, Fs.tryGetFileDescriptor]
    cases hx : v.slots[fd.toNat]? with
    | none =>
      have hge := List.getElem?_eq_none_iff.mp hx
      exact .inl ⟨rfl, if_pos (.inr (by omega))⟩
    | some x =>
      have hlt := (List.getElem?_eq_some_iff.mp hx).1
      rw [if_neg (show ¬(fd < 0 ∨ (fs.fileDescriptorCount : ℤ) ≤ fd) by omega)]
      obtain ⟨o, htable⟩ : ∃ o, l.table[fd.toNat]? = some o :=
        ⟨_, List.getElem?_eq_getElem (hr.opened.length.symm ▸ hlt)⟩
      rw [hr.tabled.slot_eq htable]
      cases hr.opened.slot _ _ _ htable hx with
      | closed => exact .inl ⟨rfl, rfl⟩
      | @opened d b h hd hb => exact .inr ⟨h, d, rfl, rfl, by omega, htable, hx⟩

theorem Represents.throw (hr : Represents fs l v) (error : ErrorCode) :
    Represents (fs.throwUfsError error).2 l (v.throw error).2 := { hr with errno := rfl }

/-- The block under a descriptor and the last block of its file. -/
theorem Opening.blocks {i d : ℕ} {h : Handle} (ho : Opening l v i d h) (hr : Represents fs l v) :
    ∃ b block file lastBlock cluster,
      fs.descriptors.load d = some ⟨h.file, i, b, h.offset, h.flags⟩ ∧
      fs.blocks.load b = some block ∧ block.index = h.block ∧
      fs.files.load h.file = some file ∧ fs.blocks.load file.lastBlock = some lastBlock ∧
      (v.clusters h.file).getLast? = some cluster ∧
      lastBlock.index = ((v.clusters h.file).length - 1 : ℕ) ∧
      lastBlock.occupied = cluster.occupied := by
  obtain ⟨b, hd, hb⟩ := ho.descriptor hr
  obtain ⟨block, -, hblock, -, hindex, -⟩ := hr.stored.block _ _ _ hb
  obtain ⟨file, hfile⟩ := hr.file hb
  have hlast := (hr.stored.ends _ _ hfile).2
  rw [List.getLast?_eq_getElem?] at hlast
  obtain ⟨lastBlock, cluster, hload, hcluster, hlindex, hloccupied, -⟩ :=
    hr.stored.block _ _ _ hlast
  rw [hr.stored.length _ _ hfile] at hcluster hlindex
  refine ⟨b, block, file, lastBlock, cluster, hd, hblock, hindex, hfile, hload, ?_, hlindex,
    hloccupied⟩
  rw [List.getLast?_eq_getElem?, hcluster]

theorem position_eq {block : Block} {k : ℕ} (hindex : block.index = k) (offset : ℤ) :
    Fs.position block offset = positionAt k offset := by rw [Fs.position, hindex, positionAt]

theorem Volume.length_seek {i : ℕ} {h : Handle} {c : Cursor}
    (hsmall : ∀ f, ((v.seek i h c).clusters f).length ≤ 2 ^ 31) : c.clusters.length ≤ 2 ^ 31 := by
  have hlen : (Function.update v.clusters h.file c.clusters h.file).length ≤ 2 ^ 31 := hsmall h.file
  rwa [Function.update_self] at hlen

theorem Represents.ufsWrite (hr : Represents fs l v) {fd ret : ℤ} {buf : List UInt8} {v' : Volume}
    (hv : v.ufsWrite fd buf = some (ret, v')) (hsmall : ∀ f, (v'.clusters f).length ≤ 2 ^ 31) :
    ∃ fs' l', fs.ufsWrite fd buf = some (ret, fs') ∧ Represents fs' l' v' := by
  unfold Volume.ufsWrite at hv
  rcases hr.tryGetFileDescriptor fd with ⟨hnone, hget⟩ | ⟨h, d, hsome, hget, -, ho⟩
  · rw [hnone] at hv
    obtain ⟨rfl, rfl⟩ := Prod.mk.inj (Option.some.inj hv)
    exact ⟨_, l, by rw [Fs.ufsWrite, hget]; rfl, hr.throw .noFile⟩
  · obtain ⟨b, block, file, lastBlock, cluster, hd, hblock, hindex, -⟩ := ho.blocks hr
    rw [hsome] at hv
    simp only [Fs.ufsWrite, Fs.writeViaDescriptor, position_eq hindex, hget, hd, hblock,
      Option.bind_eq_bind, Option.bind_some, Option.pure_def]
    simp only at hv
    by_cases hflag : specificFlagIsPresent h.flags ufsReadOnly = true
    · rw [if_pos hflag] at hv ⊢
      obtain ⟨rfl, rfl⟩ := Prod.mk.inj (Option.some.inj hv)
      exact ⟨_, l, rfl, hr.throw .noPermission⟩
    rw [if_neg hflag] at hv ⊢
    by_cases hlarge : int (positionAt h.block h.offset + int buf.length) > maxFileSize
    · rw [if_pos hlarge] at hv ⊢
      obtain ⟨rfl, rfl⟩ := Prod.mk.inj (Option.some.inj hv)
      exact ⟨_, l, rfl, hr.throw .noMem⟩
    · rw [if_neg hlarge] at hv ⊢
      obtain ⟨c, hwrite, hv⟩ := Option.bind_eq_some_iff.mp hv
      obtain ⟨rfl, rfl⟩ := Prod.mk.inj (Option.some.inj hv)
      obtain ⟨fs', l', hfs', hr'⟩ := ho.writeBytes hr hwrite (Volume.length_seek hsmall)
      exact ⟨fs', l', by rw [hfs']; rfl, hr'⟩

theorem Opening.readViaDescriptor {i d : ℕ} {h : Handle} (ho : Opening l v i d h)
    (hr : Represents fs l v) {total : ℤ} (htotal : UserFs.sizeOf (v.clusters h.file) = some total)
    (size : ℤ) : fs.readViaDescriptor d size =
      (fs.readBytes d (readCount size (int (total - positionAt h.block h.offset))).toNat).map
        fun (bytes, fs) => (readCount size (int (total - positionAt h.block h.offset)), bytes, fs) := by
  obtain ⟨b, block, file, lastBlock, cluster, hd, hblock, hindex, hfile, hlast, hcluster, hlindex,
    hloccupied⟩ := ho.blocks hr
  rw [UserFs.sizeOf, hcluster] at htotal
  obtain rfl : positionAt ((v.clusters h.file).length - 1) cluster.occupied = total :=
    Option.some.inj htotal
  rw [← position_eq hindex, ← position_eq hlindex, ← hloccupied, Fs.readViaDescriptor, hd]
  simp only [Option.bind_eq_bind, Option.bind_some, hblock, hfile, hlast]
  rw [Option.map_eq_bind]
  rfl

theorem Represents.ufsRead (hr : Represents fs l v) {fd ret : ℤ} {size : ℕ}
    {bytes : List (Option UInt8)} {v' : Volume} (hv : v.ufsRead fd size = some (ret, bytes, v'))
    (hsmall : ∀ f, (v'.clusters f).length ≤ 2 ^ 31) :
    ∃ fs' l', fs.ufsRead fd size = some (ret, bytes, fs') ∧ Represents fs' l' v' := by
  rcases hr.tryGetFileDescriptor fd with ⟨hnone, hget⟩ | ⟨h, d, hsome, hget, -, ho⟩
  · rw [Volume.ufsRead, hnone] at hv
    obtain ⟨rfl, h⟩ := Prod.mk.inj (Option.some.inj hv)
    obtain ⟨rfl, rfl⟩ := Prod.mk.inj h
    exact ⟨_, l, by rw [Fs.ufsRead, hget]; rfl, hr.throw .noFile⟩
  obtain ⟨b, hd, -⟩ := ho.descriptor hr
  rw [Fs.ufsRead, hget]
  simp only [hd, Option.bind_eq_bind, Option.bind_some]
  by_cases hflag : specificFlagIsPresent h.flags ufsWriteOnly = true
  · rw [Volume.ufsRead, hsome] at hv
    simp only [if_pos hflag] at hv
    obtain ⟨rfl, h⟩ := Prod.mk.inj (Option.some.inj hv)
    obtain ⟨rfl, rfl⟩ := Prod.mk.inj h
    exact ⟨_, l, if_pos hflag, hr.throw .noPermission⟩
  · rw [Volume.ufsRead, hsome] at hv
    simp only [if_neg hflag] at hv
    obtain ⟨total, htotal, hv⟩ := Option.bind_eq_some_iff.mp hv
    obtain ⟨⟨bytes', c⟩, hread, hv⟩ := Option.bind_eq_some_iff.mp hv
    obtain ⟨rfl, h⟩ := Prod.mk.inj (Option.some.inj hv)
    obtain ⟨rfl, rfl⟩ := Prod.mk.inj h
    obtain ⟨fs', l', hfs', hr'⟩ := ho.readBytes hr hread (Volume.length_seek hsmall)
    rw [if_neg hflag, ho.readViaDescriptor hr htotal, hfs']
    exact ⟨fs', l', rfl, hr'⟩

end SystemsProgramming.UserFs

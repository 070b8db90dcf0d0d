import SystemsProgramming.UserFs.Simulation

/-! `ufs_destroy`. Everything that a run has allocated and not released belongs to a file, to a slot of
the table or is the table, so that closing all descriptors and deleting all files releases it. -/

namespace SystemsProgramming.UserFs

open Transition

variable {fs fs' : Fs} {l : Layout} {v : Volume}

/-- Nothing is allocated. -/
structure Fs.NothingLive (fs : Fs) : Prop where
  blocks : ∀ p, fs.blocks.load p = none
  memories : ∀ p, fs.memories.load p = none
  files : ∀ p, fs.files.load p = none
  names : ∀ p, fs.names.load p = none
  descriptors : ∀ p, fs.descriptors.load p = none
  arrays : ∀ p, fs.arrays.load p = none

/-- The loop over the table closes what is open. -/
theorem Represents.closeAll (hr : Represents fs l v) {n i : ℕ} (hn : i + n = v.slots.length)
    (hclosed : ∀ (j : ℕ) (x : Option Handle), j < i → v.slots[j]? = some x → x = none) :
    ∃ fs' l' v', fs.closeFileDescriptorsFrom n i = some fs' ∧ Represents fs' l' v' ∧
      ∀ (j : ℕ) (x : Option Handle), v'.slots[j]? = some x → x = none := by
  induction n generalizing fs l v i with
  | zero =>
    refine ⟨fs, l, v, rfl, hr, fun j x hj => hclosed j x ?_ hj⟩
    have := (List.getElem?_eq_some_iff.mp hj).1
    omega
  | succ n ih =>
    obtain ⟨x, hx⟩ : ∃ x, v.slots[i]? = some x := ⟨_, List.getElem?_eq_getElem (by omega)⟩
    obtain ⟨o, ho⟩ : ∃ o, l.table[i]? = some o :=
      ⟨_, List.getElem?_eq_getElem (by rw [hr.opened.length]; omega)⟩
    rw [Fs.closeFileDescriptorsFrom, hr.tabled.slot_eq ho]
    cases hr.opened.slot i o x ho hx with
    | closed =>
      refine ih hr (by omega) fun j y hj hy => ?_
      rcases Nat.lt_or_eq_of_le (Nat.le_of_lt_succ hj) with hlt | rfl
      · exact hclosed j y hlt hy
      · exact Option.some.inj (hy.symm.trans hx)
    | @opened d b h hd hb =>
      obtain ⟨fs₁, l₁, hclose, hr₁⟩ := hr.closeFileDescriptor ⟨ho, hx⟩
      simp only [Option.bind_eq_bind, Option.bind_some, hclose]
      refine ih hr₁ (by rw [List.length_set]; omega) fun j y hj hy => ?_
      rw [List.getElem?_set] at hy
      split_ifs at hy with hij
      · exact (Option.some.inj hy).symm
      · exact hclosed j y (by omega) hy

/-- The first file of the list is deleted. -/
theorem Listed.deleteFirst {s : CString} {f : ℕ} {directory : List (CString × ℕ)}
    {chain : ℕ → List ℕ} {clusters : ℕ → List Cluster} {slots : List (Option Handle)} {fs : Fs}
    (hlisted : Listed fs.files.load fs.names.load fs.fileList ((s, f) :: directory))
    (hcounted : Counted fs.files.load slots)
    (hstored : Stored fs.files.load fs.blocks.load fs.memories.load chain clusters) :
    ∃ files names blocks memories fileList chain', fs.deleteFile f = some { fs with
        files := files, names := names, blocks := blocks, memories := memories
        fileList := fileList } ∧
      Listed files.load names.load fileList directory ∧ Counted files.load slots ∧
      Stored files.load blocks.load memories.load chain' clusters := by
  have hi : ((s, f) :: directory)[0]? = some (s, f) := rfl
  obtain ⟨file, hfile, hname, -⟩ := hlisted.entry s f List.mem_cons_self
  have hneighbours := hlisted.neighbours hi hfile
  have hself := load_unlinked_self hneighbours
  have hunlink := hlisted.unlink hi hfile
  have hnot : f ∉ (((s, f) :: directory).eraseIdx 0).map Prod.snd := fun hmem =>
    hlisted.ne_of_mem_eraseIdx hi hmem rfl
  have hforget := hunlink.forget (Heap.load_update_self hself _) hnot
  rw [Heap.erase_update] at hforget
  obtain ⟨fs₁, hfs₁⟩ : ∃ fs₁, fs₁ = { fs with
    files := unlinked fs.files f file
    fileList := if fs.fileList = some f then file.next else fs.fileList
    names := fs.names.erase file.name } := ⟨_, rfl⟩
  obtain ⟨blocks, memories, hfree, -, hreleased⟩ := hstored.freeable hfile fs₁ (by rw [hfs₁])
    (by rw [hfs₁])
  have hdelete := deleteFile_eq hneighbours hname hfs₁ hfree
  rw [hfs₁] at hdelete
  refine ⟨(unlinked fs.files f file).erase f, fs.names.erase file.name, blocks, memories, _, _,
    hdelete, hforget, (hcounted.congr (sameFiles_unlinked file fun _ _ _ => rfl)).erase f,
    (hstored.congr (sameFiles_unlinked file fun _ _ _ => rfl)).delete hreleased⟩

/-- The loop over the list deletes all files. -/
theorem deleteAll {directory : List (CString × ℕ)} {chain : ℕ → List ℕ} {clusters : ℕ → List Cluster}
    {slots : List (Option Handle)} (fs : Fs)
    (hlisted : Listed fs.files.load fs.names.load fs.fileList directory)
    (hcounted : Counted fs.files.load slots)
    (hstored : Stored fs.files.load fs.blocks.load fs.memories.load chain clusters) {fuel : ℕ}
    (hfuel : directory.length < fuel) :
    ∃ files names blocks memories chain', iterate Fs.deleteFirstFileStep fuel fs = some { fs with
        files := files, names := names, blocks := blocks, memories := memories, fileList := none } ∧
      Listed files.load names.load none [] ∧ Counted files.load slots ∧
      Stored files.load blocks.load memories.load chain' clusters := by
  induction directory generalizing fs chain fuel with
  | nil =>
    obtain ⟨fuel, rfl⟩ := Nat.exists_eq_succ_of_ne_zero (Nat.ne_of_gt hfuel)
    have hhead : fs.fileList = none := hlisted.head
    refine ⟨fs.files, fs.names, fs.blocks, fs.memories, chain, ?_, hhead ▸ hlisted, hcounted, hstored⟩
    rw [iterate, Fs.deleteFirstFileStep, hhead, Option.bind_some]
    exact congrArg some (by rw [← hhead])
  | cons entry directory ih =>
    obtain ⟨fuel, rfl⟩ := Nat.exists_eq_succ_of_ne_zero (Nat.ne_of_gt (Nat.zero_lt_of_lt hfuel))
    obtain ⟨s, f⟩ := entry
    have hhead : fs.fileList = some f := hlisted.head
    obtain ⟨files₁, names₁, blocks₁, memories₁, fileList₁, chain₁, hdelete, hlisted₁, hcounted₁,
      hstored₁⟩ := hlisted.deleteFirst hcounted hstored
    obtain ⟨files, names, blocks, memories, chain', hloop, hrest⟩ := ih { fs with
      files := files₁, names := names₁, blocks := blocks₁, memories := memories₁
      fileList := fileList₁ } hlisted₁ hcounted₁ hstored₁ (Nat.lt_of_succ_lt_succ hfuel)
    refine ⟨files, names, blocks, memories, chain', ?_, hrest⟩
    rw [iterate, Fs.deleteFirstFileStep, hhead]
    simp only [hdelete, Option.map_some, Option.bind_some]
    exact hloop

/-- Without a name and without a descriptor there is no file. -/
theorem Counted.no_file {files : ℕ → Option File} {names : ℕ → Option CString}
    {slots : List (Option Handle)} (h : Counted files slots) (hlisted : Listed files names none [])
    (hclosed : ∀ x ∈ slots, x = none) (f : ℕ) : files f = none := by
  cases hf : files f with
  | none => rfl
  | some file =>
    obtain ⟨-, -, hmarked⟩ := hlisted.hidden f file hf List.not_mem_nil
    have hpos := h.marked f file hf hmarked
    rw [h.refs f file hf] at hpos
    obtain ⟨x, hx, hxf⟩ := tally_pos.mp hpos
    rw [hclosed x hx] at hxf
    cases hxf

theorem Represents.ufsDestroy (hr : Represents fs l v) :
    ∃ fs', fs.ufsDestroy = some fs' ∧ fs'.NothingLive := by
  obtain ⟨fs₁, l₁, v₁, hclose, hr₁, hclosed⟩ := hr.closeAll (n := v.slots.length) (i := 0)
    (Nat.zero_add _) fun j x hj => absurd hj (Nat.not_lt_zero j)
  have hnone : ∀ x ∈ v₁.slots, x = none := fun x hx => by
    obtain ⟨j, hj⟩ := List.mem_iff_getElem?.mp hx
    exact hclosed j x hj
  -- the table
  obtain ⟨arrays, hfree, harrays⟩ : ∃ arrays : Heap (CArray (Option ℕ)),
      fs₁.freeFileDescriptors = some { fs₁ with arrays := arrays } ∧ ∀ p, arrays.load p = none := by
    cases hp : fs₁.fileDescriptors with
    | none =>
      refine ⟨fs₁.arrays, ?_, fun p => ?_⟩
      · rw [Fs.freeFileDescriptors, hp]
        exact congrArg some (by rw [← hp])
      cases hload : fs₁.arrays.load p with
      | none => rfl
      | some array => cases hp.symm.trans (hr₁.tabled.owned p array hload)
    | some p =>
      obtain ⟨array, harray, -⟩ := hr₁.tabled.array p hp
      refine ⟨fs₁.arrays.erase p, ?_, fun q => ?_⟩
      · rw [Fs.freeFileDescriptors, hp]
        simp only [Heap.free_eq harray, Option.map_some]
      · cases hload : (fs₁.arrays.erase p).load q with
        | none => rfl
        | some array' =>
          obtain ⟨hne, hq⟩ := Heap.of_load_erase hload
          exact absurd (Option.some.inj ((hr₁.tabled.owned q array' hq).symm.trans hp)) hne
  -- the files
  have hfuel : v₁.directory.length < fs₁.files.next + 1 := by
    have hlen := hr₁.listed.linked.length_le fun _ _ hp => Heap.lt_next hp
    rw [List.length_map] at hlen
    exact Nat.lt_succ_of_le hlen
  obtain ⟨files, names, blocks, memories, chain, hdelete, hlisted, hcounted, hstored⟩ :=
    deleteAll { fs₁ with arrays := arrays } hr₁.listed hr₁.counted hr₁.stored hfuel
  have hfiles := hcounted.no_file hlisted hnone
  have hblocks : ∀ p, blocks.load p = none := fun p => by
    cases hp : blocks.load p with
    | none => rfl
    | some block =>
      obtain ⟨f, hf⟩ := hstored.block_owned p block hp
      rw [hstored.dead f (hfiles f)] at hf
      cases hf
  refine ⟨{ fs₁ with
    arrays := arrays, files := files, names := names, blocks := blocks, memories := memories
    fileList := none }, ?_, hblocks, fun m => ?_, hfiles, fun n => ?_, fun d => ?_, harrays⟩
  · simp only [Fs.ufsDestroy, hr.count_eq, hclose, hfree, Option.bind_eq_bind, Option.bind_some]
    exact hdelete
  · cases hm : memories.load m with
    | none => rfl
    | some x =>
      obtain ⟨p, block, hblock, -⟩ := hstored.memory_owned m x hm
      cases (hblocks p).symm.trans hblock
  · cases hn : names.load n with
    | none => rfl
    | some s =>
      obtain ⟨f, file, hfile, -⟩ := hlisted.name_owned n s hn
      cases (hfiles f).symm.trans hfile
  · show fs₁.descriptors.load d = none
    cases hd : fs₁.descriptors.load d with
    | none => rfl
    | some x =>
      obtain ⟨i, hi⟩ := hr₁.opened.owned d x hd
      obtain ⟨y, hy⟩ : ∃ y, v₁.slots[i]? = some y := ⟨_, List.getElem?_eq_getElem
        (hr₁.opened.length ▸ (List.getElem?_eq_some_iff.mp hi).1)⟩
      rw [hclosed i y hy] at hy
      cases hr₁.opened.slot i _ _ hi hy

/-- As long as positions fit, no call of a run uses or frees what is not allocated, and neither does the
destruction of the file system after it, that leaves nothing allocated. -/
theorem nothing_leaks {es : List Event}
    (hrun : Run (restrict Fs.Step fun fs e => fs.Fits e.1) .initial es fs) :
    (∀ op, fs.Fits op → ∃ out fs', fs.exec op = some (out, fs')) ∧
      ∃ fs', fs.ufsDestroy = some fs' ∧ fs'.NothingLive := by
  obtain ⟨v, -, h⟩ := mirrors_initial.run (fun _ _ => True)
    (fun _ _ _ _ hfits => ⟨hfits, trivial⟩) hrun
  obtain ⟨l, hr⟩ := h.represents
  refine ⟨fun op hfits => ?_, hr.ufsDestroy⟩
  obtain ⟨out, fs', -, hcall, -, -, -⟩ := h.exec op hfits
  exact ⟨out, fs', hcall⟩

/-- A file whose name is gone is left to its descriptor. -/
theorem nothing_leaks_deleted : ∃ fs : Fs, fs.fileList = none ∧ (fs.files.load 0).isSome ∧
    (∀ op, fs.Fits op → ∃ out fs', fs.exec op = some (out, fs')) ∧
      ∃ fs', fs.ufsDestroy = some fs' ∧ fs'.NothingLive := by
  obtain ⟨fs, hlist, hfile, hrun⟩ : ∃ fs : Fs, fs.fileList = none ∧ (fs.files.load 0).isSome ∧
      Run (restrict Fs.Step fun fs e => fs.Fits e.1) .initial
        [(.open [102] ufsCreate, ⟨0, .noErr, []⟩), (.delete [102], ⟨0, .noErr, []⟩)] fs :=
    ⟨_, rfl, rfl, .cons ⟨trivial, rfl⟩ (.single ⟨trivial, rfl⟩)⟩
  exact ⟨fs, hlist, hfile, nothing_leaks hrun⟩

end SystemsProgramming.UserFs

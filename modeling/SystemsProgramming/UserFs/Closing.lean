import SystemsProgramming.UserFs.Directory

/-! `ufs_close` and `ufs_delete`. A file is released by whichever of them comes last: the deletion of
its name or the end of its last descriptor. -/

namespace SystemsProgramming.UserFs

variable {fs : Fs} {l : Layout} {v : Volume}

theorem Counted.erase {files : Heap File} {slots : List (Option Handle)}
    (h : Counted files.load slots) (f : ℕ) : Counted (files.erase f).load slots where
  refs g file hg := h.refs g file (Heap.of_load_erase hg).2
  marked g file hg := h.marked g file (Heap.of_load_erase hg).2

/-- One descriptor less. -/
theorem Counted.refs_close {files : Heap File} {slots : List (Option Handle)}
    (h : Counted files.load slots) {i : ℕ} {x : Handle} (hi : slots[i]? = some (some x)) {g : ℕ}
    {file : File} (hg : (files.update x.file fun b => { b with refs := b.refs - 1 }).load g =
      some file) : file.refs = tally (Option.map Handle.file) (slots.set i none) (some g) := by
  obtain ⟨b, hb, rfl⟩ := Heap.of_load_update hg
  have hrefs := h.refs g b hb
  rw [tally_set hi]
  simp only [Option.map_some, Option.map_none, Option.some.injEq, reduceCtorEq, if_false]
  by_cases hgx : x.file = g
  · rw [if_pos hgx.symm, if_pos hgx]
    show b.refs - 1 = _
    omega
  · rw [if_neg fun heq => hgx heq.symm, if_neg hgx]
    omega

/-- The blocks of a file are released. -/
theorem Stored.delete {files : Heap File} {blocks blocks' : Heap Block}
    {memories memories' : Heap (CArray UInt8)} {chain : ℕ → List ℕ} {clusters : ℕ → List Cluster}
    (h : Stored files.load blocks.load memories.load chain clusters) {f : ℕ}
    (hreleased : Released (chain f) blocks blocks' memories memories') :
    Stored (files.erase f).load blocks'.load memories'.load (Function.update chain f []) clusters := by
  refine stored_of (fun g => ?_) (hreleased.owned h.owned (fun g p => ?_))
  · by_cases hgf : g = f
    · subst hgf
      rw [Function.update_self, Heap.load_erase, if_pos rfl]
      exact ⟨fun _ => rfl, by rintro x ⟨⟩, by rintro x ⟨⟩, .nil, fun k p hp => by cases hp⟩
    · rw [Function.update_of_ne hgf, Heap.load_erase_ne hgf]
      refine (h.file g).congr (fun p hp => ?_) fun p hp b hb => ?_
      · rw [hreleased.block, if_neg fun hpf => hgf (h.owner g f p hp hpf)]
      · exact hreleased.memory _ fun q hq b' hb' => (h.apart (Ne.symm hgf) hq hp hb' hb).2
  · by_cases hgf : g = f
    · rw [hgf, Function.update_self]
      simp
    · rw [Function.update_of_ne hgf]
      exact ⟨fun hp => ⟨hp, fun hpf => hgf (h.owner g f p hp hpf)⟩, fun hp => hp.1⟩

/-! ### `delete_file` -/

/-- What a deletion does once the blocks of the file can be freed. -/
theorem deleteFile_eq {fs fs₁ : Fs} {f : ℕ} {file : File} {s : CString} {blocks : Heap Block}
    {memories : Heap (CArray UInt8)} (h : Neighbours fs.files.load f file)
    (hname : fs.names.load file.name = some s)
    (hfs₁ : fs₁ = { fs with
      files := unlinked fs.files f file
      fileList := if fs.fileList = some f then file.next else fs.fileList
      names := fs.names.erase file.name })
    (hfree : iterate Fs.freeBlockStep (fs.blocks.next + 1) (fs₁, some file.blockList) =
      some ({ fs₁ with blocks := blocks, memories := memories }, none)) :
    fs.deleteFile f = some { fs₁ with
      blocks := blocks, memories := memories, files := (unlinked fs.files f file).erase f } := by
  subst hfs₁
  have hload := load_unlinked_self h
  rw [Fs.deleteFile, disconnect_eq h]
  simp only [Option.bind_eq_bind, Option.bind_some, hload, Heap.free_eq hname, hfree,
    Heap.free_eq hload, Option.pure_def]

/-- The blocks of a chain can be freed from the first one on, whatever is done to other objects. -/
def Freeable (fs : Fs) (first : ℕ) (s : List ℕ) : Prop :=
  ∀ fs₁ : Fs, fs₁.blocks = fs.blocks → fs₁.memories = fs.memories → ∃ blocks memories,
    iterate Fs.freeBlockStep (fs.blocks.next + 1) (fs₁, some first) =
      some ({ fs₁ with blocks := blocks, memories := memories }, none) ∧
    blocks.next = fs.blocks.next ∧ Released s fs.blocks blocks fs.memories memories

theorem freeable {fs : Fs} {s : List ℕ} {first : ℕ}
    (hlinked : Linked fs.blocks.load Block.next Block.prev s)
    (hreleasable : Releasable s fs.blocks fs.memories) (hfirst : s.head? = some first) :
    Freeable fs first s := by
  intro fs₁ hblocks hmemories
  rw [← hblocks, ← hmemories] at hreleasable
  rw [← hblocks] at hlinked
  rw [← hblocks, ← hmemories, ← hfirst]
  refine free_forwards fs₁ hreleasable (fun i p b hp hb => ?_)
    (Nat.lt_succ_of_le (hlinked.length_le fun _ _ hp => Heap.lt_next hp))
  obtain ⟨b', hb', hnext, -⟩ := hlinked i p hp
  obtain rfl := Option.some.inj (hb.symm.trans hb')
  exact hnext

theorem Stored.freeable {files : ℕ → Option File} {chain : ℕ → List ℕ} {clusters : ℕ → List Cluster}
    {fs : Fs} (h : Stored files fs.blocks.load fs.memories.load chain clusters) {f : ℕ} {file : File}
    (hfile : files f = some file) : Freeable fs file.blockList (chain f) :=
  UserFs.freeable (h.linked f) (h.releasable (h.linked f).nodup fun _ hp => hp)
    (h.ends f file hfile).1

/-- A file that is in no list is released. -/
theorem deleteFile_hidden (fs : Fs) {f : ℕ} {file : File} {s : CString}
    (hfile : fs.files.load f = some file) (hnext : file.next = none) (hprev : file.prev = none)
    (hhead : fs.fileList ≠ some f) (hname : fs.names.load file.name = some s) {blocks : Heap Block}
    {memories : Heap (CArray UInt8)} {fs₁ : Fs}
    (hfs₁ : fs₁ = { fs with
      files := unlinked fs.files f file, names := fs.names.erase file.name })
    (hfree : iterate Fs.freeBlockStep (fs.blocks.next + 1) (fs₁, some file.blockList) =
      some ({ fs₁ with blocks := blocks, memories := memories }, none)) :
    fs.deleteFile f = some { fs with
      blocks := blocks
      memories := memories
      names := fs.names.erase file.name
      files := fs.files.erase f } := by
  have h : Neighbours fs.files.load f file := by
    refine ⟨hfile, fun p hp => ?_, fun p hp => ?_⟩
    · rw [hprev] at hp
      cases hp
    · rw [hnext] at hp
      cases hp
  have hunlinked : (unlinked fs.files f file).erase f = fs.files.erase f := by
    rw [unlinked, hprev, hnext, Heap.erase_update]
    rfl
  rw [deleteFile_eq h hname (by rw [if_neg hhead]; exact hfs₁) hfree, hfs₁, hunlinked]

/-- A file stays or is released with its blocks. -/
inductive Withdrawn (fs : Fs) (f : ℕ) (s : List ℕ) (files : Heap File) (blocks : Heap Block)
    (memories : Heap (CArray UInt8)) : Prop
  | kept : SameFiles (fun file => (file.blockList, file.lastBlock)) fs.files.load files.load →
    blocks = fs.blocks → memories = fs.memories → Withdrawn fs f s files blocks memories
  | released {files₁ : Heap File} :
    SameFiles (fun file => (file.blockList, file.lastBlock)) fs.files.load files₁.load →
    files = files₁.erase f → blocks.next = fs.blocks.next →
    Released s fs.blocks blocks fs.memories memories → Withdrawn fs f s files blocks memories

/-- The files that are still there keep their blocks. -/
theorem Stored.withdraw {fs : Fs} {chain : ℕ → List ℕ} {clusters : ℕ → List Cluster} {f : ℕ}
    {files : Heap File} {blocks : Heap Block} {memories : Heap (CArray UInt8)}
    (h : Stored fs.files.load fs.blocks.load fs.memories.load chain clusters)
    (hw : Withdrawn fs f (chain f) files blocks memories) : ∃ chain',
    Stored files.load blocks.load memories.load chain' clusters ∧
      ∀ g, files.load g ≠ none → chain' g = chain g := by
  cases hw with
  | kept hsame hblocks hmemories =>
    subst hblocks hmemories
    exact ⟨chain, h.congr hsame, fun _ _ => rfl⟩
  | released hsame hfiles _ hreleased =>
    subst hfiles
    refine ⟨_, (h.congr hsame).delete hreleased, fun g hg => Function.update_of_ne ?_ _ _⟩
    rintro rfl
    exact hg (if_pos rfl)

theorem SameFiles.ne_none {β : Type*} {g : File → β} {files files' : ℕ → Option File}
    (h : SameFiles g files files') {f : ℕ} (hf : files f ≠ none) : files' f ≠ none := fun hnone => by
  have hg := h f
  rw [hnone] at hg
  exact hf (Option.map_eq_none_iff.mp hg.symm)

/-! ### `ufs_delete` -/

/-- A file is taken out of the list while descriptors are open on it. -/
theorem Counted.mark {files : Heap File} {slots : List (Option Handle)}
    (h : Counted files.load slots) {f : ℕ} {file : File} (hfile : files.load f = some file)
    (hrefs : file.refs ≠ 0) :
    Counted (files.update f fun b => { b with markedForDeletion := true }).load slots where
  refs g b hg := by
    obtain ⟨b₀, hb₀, rfl⟩ := Heap.of_load_update hg
    have hrefs := h.refs g b₀ hb₀
    split_ifs <;> exact hrefs
  marked g b hg hmarked := by
    obtain ⟨b₀, hb₀, rfl⟩ := Heap.of_load_update hg
    by_cases hgf : g = f
    · subst hgf
      obtain rfl := Option.some.inj (hfile.symm.trans hb₀)
      have hnonneg : 0 ≤ tally (Option.map Handle.file) slots (some g) := tally_nonneg ..
      have hcount := h.refs g file hfile
      rw [if_pos rfl]
      show 0 < file.refs
      omega
    · rw [if_neg hgf] at hmarked ⊢
      exact h.marked g b₀ hb₀ hmarked

/-- No descriptor is open on a file without references. -/
theorem Counted.unopened {files : ℕ → Option File} {slots : List (Option Handle)}
    (h : Counted files slots) {f : ℕ} {file : File} (hfile : files f = some file)
    (hrefs : file.refs = 0) {i : ℕ} {x : Handle} (hi : slots[i]? = some (some x)) : x.file ≠ f := by
  have hzero := tally_eq_zero.mp ((h.refs f file hfile).symm.trans hrefs)
  exact fun heq => hzero _ (List.mem_of_getElem? hi) (congrArg some heq)

/-- A file that is out of the list is released if nothing refers to it, and marked otherwise. -/
theorem discard {fs : Fs} {directory : List (CString × ℕ)} {slots : List (Option Handle)}
    {i f : ℕ} {t : CString} {file : File} {s : List ℕ}
    (hlisted : Listed fs.files.load fs.names.load fs.fileList directory)
    (hcounted : Counted fs.files.load slots) (hi : directory[i]? = some (t, f))
    (hfile : fs.files.load f = some file) (hfree : Freeable fs file.blockList s) {fs₁ : Fs}
    (hfs₁ : fs₁ = { fs with
      files := unlinked fs.files f file
      fileList := if fs.fileList = some f then file.next else fs.fileList }) :
    ∃ files names blocks memories,
      (if file.refs = 0 then fs₁.deleteFile f
        else fs₁.modifyFile f fun b => { b with markedForDeletion := true }) =
        some { fs₁ with files := files, names := names, blocks := blocks, memories := memories } ∧
      files.next = fs.files.next ∧
      Listed files.load names.load fs₁.fileList (directory.eraseIdx i) ∧
      Counted files.load slots ∧ Withdrawn fs f s files blocks memories ∧
      ∀ x, some x ∈ slots → fs.files.load x.file ≠ none → files.load x.file ≠ none := by
  have hself := load_unlinked_self (hlisted.neighbours hi hfile)
  have hunlink := hlisted.unlink hi hfile
  have hsame : SameFiles (fun file => (file.blockList, file.lastBlock)) fs.files.load
      (unlinked fs.files f file).load := sameFiles_unlinked file fun _ _ _ => rfl
  have hcounted₁ : Counted (unlinked fs.files f file).load slots :=
    hcounted.congr (sameFiles_unlinked file fun _ _ _ => rfl)
  have hnot : f ∉ (directory.eraseIdx i).map Prod.snd := fun hmem =>
    hlisted.ne_of_mem_eraseIdx hi hmem rfl
  have hload : fs₁.files.load f = some { file with prev := none, next := none } := by
    rw [hfs₁, hself]
  by_cases hrefs : file.refs = 0
  · obtain ⟨t', hname⟩ := hlisted.named f file hfile
    have hhead : fs₁.fileList ≠ some f := fun heq => by
      rw [hfs₁] at heq
      exact hnot (List.mem_of_head? (hunlink.head.symm.trans heq))
    have hforget := hunlink.forget (Heap.load_update_self hself _) hnot
    rw [Heap.erase_update] at hforget
    obtain ⟨blocks, memories, hloop, hnext, hreleased⟩ := hfree { fs₁ with
        files := unlinked (unlinked fs.files f file) f { file with prev := none, next := none }
        names := fs.names.erase file.name } (by rw [hfs₁]) (by rw [hfs₁])
    have hblocks : fs₁.blocks = fs.blocks := by rw [hfs₁]
    have hnames : fs₁.names = fs.names := by rw [hfs₁]
    have hfiles : fs₁.files = unlinked fs.files f file := by rw [hfs₁]
    rw [← hblocks, ← hnames, ← hfiles] at hloop
    have hdelete := deleteFile_hidden fs₁ hload rfl rfl hhead (hnames ▸ hname) rfl hloop
    refine ⟨(unlinked fs.files f file).erase f, fs.names.erase file.name, blocks, memories, ?_,
      next_unlinked fs.files f file, ?_, hcounted₁.erase f, .released hsame rfl hnext hreleased,
      fun x hx hlive => ?_⟩
    · rw [if_pos hrefs, hdelete, hfs₁]
    · rw [hfs₁]
      exact hforget
    · obtain ⟨j, hj⟩ := List.mem_iff_getElem?.mp hx
      rw [Heap.load_erase_ne (hcounted.unopened hfile hrefs hj)]
      exact hsame.ne_none hlive
  · refine ⟨(unlinked fs.files f file).update f fun b => { b with markedForDeletion := true },
      fs.names, fs.blocks, fs.memories, ?_, next_unlinked fs.files f file, ?_,
      hcounted₁.mark hself hrefs, .kept (hsame.trans (sameFiles_update _ _ fun _ => rfl)) rfl rfl,
      fun x _ hlive => ?_⟩
    · rw [if_neg hrefs, modifyFile_eq _ hload, hfs₁]
    · rw [hfs₁]
      exact hunlink
    · have hmark := sameFiles_update (g := fun file => (file.blockList, file.lastBlock))
        (unlinked fs.files f file) f (φ := fun b => { b with markedForDeletion := true })
        fun _ => rfl
      exact (hsame.trans hmark).ne_none hlive

theorem ufsDelete_eq {fs fs₁ : Fs} {filename : CString} {f : ℕ} {file : File}
    (hlookup : fs.tryGetFileByFilename filename = some (some f))
    (h : Neighbours fs.files.load f file) (hfs₁ : fs₁ = { fs with
      files := unlinked fs.files f file
      fileList := if fs.fileList = some f then file.next else fs.fileList }) :
    fs.ufsDelete filename = (if file.refs = 0 then fs₁.deleteFile f
      else fs₁.modifyFile f fun b => { b with markedForDeletion := true }).map fun fs => (0, fs) := by
  have hdisconnect : fs.disconnectFileFromFileList f = some fs₁ := hfs₁ ▸ disconnect_eq h
  have hload : fs₁.files.load f = some { file with prev := none, next := none } := by
    rw [hfs₁, load_unlinked_self h]
  simp only [Fs.ufsDelete, hlookup, hdisconnect, hload, Option.bind_eq_bind, Option.bind_some,
    Option.pure_def, Option.map_eq_bind, Function.comp_def]
  split_ifs <;> rfl

theorem Represents.file_ne_none (hr : Represents fs l v) {x : Handle} (hx : some x ∈ v.slots) :
    fs.files.load x.file ≠ none := fun hnone => by
  obtain ⟨i, hi⟩ := List.mem_iff_getElem?.mp hx
  obtain ⟨d, ho⟩ := hr.opening hi
  obtain ⟨b, -, hb⟩ := ho.descriptor hr
  obtain ⟨file, hfile⟩ := hr.file hb
  cases hnone.symm.trans hfile

theorem Represents.ufsDelete (hr : Represents fs l v) (filename : CString) : ∃ fs' l',
    fs.ufsDelete filename = some ((v.ufsDelete filename).1, fs') ∧
    Represents fs' l' (v.ufsDelete filename).2 := by
  rw [Volume.ufsDelete]
  have hlookup' := hr.lookup filename
  cases hlookup : v.lookup filename with
  | none =>
    rw [Fs.ufsDelete, hlookup', hlookup]
    exact ⟨_, l, rfl, hr.throw .noFile⟩
  | some f =>
    rw [hlookup] at hlookup'
    obtain ⟨i, hi, herase⟩ := Volume.lookup_some hlookup
    obtain ⟨file, hfile, -⟩ := hr.listed.entry _ _ (List.mem_of_getElem? hi)
    have hneighbours := hr.listed.neighbours hi hfile
    obtain ⟨files, names, blocks, memories, hcall, hnext, hlisted, hcounted, hwithdrawn, hlive⟩ :=
      discard hr.listed hr.counted hi hfile (hr.stored.freeable hfile) rfl
    obtain ⟨chain, hstored, hchain⟩ := hr.stored.withdraw hwithdrawn
    simp only [ufsDelete_eq hlookup' hneighbours rfl, hcall, Option.map_some, herase]
    refine ⟨_, ⟨chain, l.table⟩, rfl, { hr with
      created := hnext.trans hr.created
      listed := hlisted
      counted := hcounted
      stored := hstored
      opened := hr.opened.mono fun j x b hj hb => ?_ }⟩
    have hx := List.mem_of_getElem? hj
    exact (congrArg (·[x.block]?) (hchain x.file (hlive x hx (hr.file_ne_none hx)))).trans hb

/-! ### `ufs_close` -/

/-- An entry of the table is overwritten. -/
theorem Tabled.set {arrays : Heap (CArray (Option ℕ))} {fileDescriptors : Option ℕ}
    {count capacity : ℕ} {table : List (Option ℕ)}
    (h : Tabled arrays.load fileDescriptors count capacity table) {p i : ℕ}
    (hp : fileDescriptors = some p) (o : Option ℕ) :
    Tabled (arrays.update p fun array => array.put i o).load fileDescriptors count capacity
      (table.set i o) where
  count := h.count.trans (List.length_set ..).symm
  null hnull := by rw [hp] at hnull; cases hnull
  array q hq := by
    obtain rfl : p = q := Option.some.inj (hp.symm.trans hq)
    obtain ⟨array, harray, hsize, hpos, hle, hcells⟩ := h.array p hp
    refine ⟨_, Heap.load_update_self harray _, hsize, hpos, by rwa [List.length_set], ?_⟩
    intro j o' hj
    rw [CArray.cells_put]
    by_cases hij : i = j
    · subst hij
      obtain ⟨hlt, -⟩ := List.getElem?_eq_some_iff.mp hj
      rw [List.length_set] at hlt
      rw [List.getElem?_set_self hlt] at hj
      rw [if_pos rfl, hj]
    · rw [List.getElem?_set_ne hij] at hj
      rw [if_neg (by omega), hcells j o' hj]
  owned q array hq := by
    obtain ⟨array', harray', -⟩ := Heap.of_load_update hq
    exact h.owned q array' harray'

theorem setSlot_eq (fs : Fs) {p i : ℕ} {array : CArray (Option ℕ)} (hp : fs.fileDescriptors = some p)
    (harray : fs.arrays.load p = some array) (hi : i < array.size) (o : Option ℕ) :
    fs.setSlot i o = some { fs with arrays := fs.arrays.update p fun array => array.put i o } := by
  have hset : array.set i o = some (array.put i o) := CArray.set_eq o (by omega) hi
  have hupdate : (fs.arrays.update p fun _ => array.put i o) =
      fs.arrays.update p fun array => array.put i o := by
    simp only [Heap.update, Heap.mk.injEq, and_true]
    funext q
    split_ifs with hq
    · rw [hq, harray]
      rfl
    · rfl
  simp only [Fs.setSlot, hp, harray, hset, hupdate, Option.bind_eq_bind, Option.bind_some,
    Option.pure_def]

theorem Tabled.setSlot (fs : Fs) {table : List (Option ℕ)}
    (h : Tabled fs.arrays.load fs.fileDescriptors fs.fileDescriptorCount fs.fileDescriptorCapacity
      table) {i : ℕ} (hi : i < table.length) (o : Option ℕ) : ∃ p,
    fs.setSlot i o = some { fs with arrays := fs.arrays.update p fun array => array.put i o } ∧
    Tabled (fs.arrays.update p fun array => array.put i o).load fs.fileDescriptors
      fs.fileDescriptorCount fs.fileDescriptorCapacity (table.set i o) := by
  cases hp : fs.fileDescriptors with
  | none =>
    rw [h.null hp] at hi
    cases hi
  | some p =>
    obtain ⟨array, harray, hsize, -, hle, -⟩ := h.array p hp
    have hlt : (i : ℤ) < array.size := by omega
    have hset := setSlot_eq fs hp harray hlt o
    rw [hp] at hset
    exact ⟨p, hset, hp ▸ h.set hp o⟩

/-- A slot is freed with its descriptor. -/
theorem Opened.close {descriptors : Heap Filedesc} {chain : ℕ → List ℕ} {table : List (Option ℕ)}
    {slots : List (Option Handle)} (h : Opened descriptors.load chain table slots) {i d : ℕ}
    {x : Handle} (htable : table[i]? = some (some d)) (hslot : slots[i]? = some (some x)) :
    Opened (descriptors.erase d).load chain (table.set i none) (slots.set i none) where
  length := by rw [List.length_set, List.length_set, h.length]
  slot j o y hj hy := by
    by_cases hij : i = j
    · subst hij
      rw [List.getElem?_set_self (List.getElem?_eq_some_iff.mp htable).1] at hj
      rw [List.getElem?_set_self (List.getElem?_eq_some_iff.mp hslot).1] at hy
      obtain rfl := Option.some.inj hj
      obtain rfl := Option.some.inj hy
      exact .closed
    · rw [List.getElem?_set_ne hij] at hj hy
      cases h.slot j o y hj hy with
      | closed => exact .closed
      | @opened e b x' he hb =>
        refine .opened ((Heap.load_erase_ne ?_).trans he) hb
        rintro rfl
        cases h.slot i _ _ htable hslot with
        | opened hd _ => exact hij (congrArg Filedesc.index (Option.some.inj (hd.symm.trans he)))
  owned e y he := by
    obtain ⟨hed, he⟩ := Heap.of_load_erase he
    obtain ⟨j, hj⟩ := h.owned e y he
    refine ⟨j, ?_⟩
    rw [List.getElem?_set_ne, hj]
    rintro rfl
    exact hed (Option.some.inj (Option.some.inj (hj.symm.trans htable)))

theorem Listed.hidden_of_marked {files : ℕ → Option File} {names : ℕ → Option CString}
    {fileList : Option ℕ} {directory : List (CString × ℕ)}
    (h : Listed files names fileList directory) {f : ℕ} {file : File} (hfile : files f = some file)
    (hmarked : file.markedForDeletion = true) : f ∉ directory.map Prod.snd := fun hmem => by
  obtain ⟨⟨s, g⟩, hg, rfl⟩ := List.mem_map.mp hmem
  obtain ⟨file', hfile', -, hmarked'⟩ := h.entry s g hg
  obtain rfl := Option.some.inj (hfile.symm.trans hfile')
  rw [hmarked] at hmarked'
  cases hmarked'

/-- A file loses a descriptor, and is released with its last one if it is marked. -/
theorem unref {fs : Fs} {directory : List (CString × ℕ)} {slots : List (Option Handle)} {i : ℕ}
    {h : Handle} {file : File} {s : List ℕ}
    (hlisted : Listed fs.files.load fs.names.load fs.fileList directory)
    (hcounted : Counted fs.files.load slots) (hslot : slots[i]? = some (some h))
    (hfile : fs.files.load h.file = some file) (hfree : Freeable fs file.blockList s) :
    ∃ files names blocks memories,
      (if file.markedForDeletion = true ∧ file.refs - 1 = 0 then
        Fs.deleteFile h.file { fs with
          files := fs.files.update h.file fun b => { b with refs := b.refs - 1 } }
      else some { fs with
        files := fs.files.update h.file fun b => { b with refs := b.refs - 1 } }) =
        some { fs with files := files, names := names, blocks := blocks, memories := memories } ∧
      files.next = fs.files.next ∧ Listed files.load names.load fs.fileList directory ∧
      Counted files.load (slots.set i none) ∧ Withdrawn fs h.file s files blocks memories ∧
      ∀ x, some x ∈ slots.set i none → fs.files.load x.file ≠ none → files.load x.file ≠ none := by
  obtain ⟨files₁, hfiles₁⟩ : ∃ files₁, files₁ =
    fs.files.update h.file fun b => { b with refs := b.refs - 1 } := ⟨_, rfl⟩
  have hload : files₁.load h.file = some { file with refs := file.refs - 1 } :=
    hfiles₁ ▸ Heap.load_update_self hfile _
  have hnext : files₁.next = fs.files.next := by rw [hfiles₁, Heap.next_update]
  have hlisted₁ : Listed files₁.load fs.names.load fs.fileList directory :=
    hlisted.congr (hfiles₁ ▸ sameFiles_update _ _ fun _ => rfl)
  have hsame : SameFiles (fun file => (file.blockList, file.lastBlock)) fs.files.load files₁.load :=
    hfiles₁ ▸ sameFiles_update _ _ fun _ => rfl
  have hrefs : ∀ {g b}, files₁.load g = some b →
      b.refs = tally (Option.map Handle.file) (slots.set i none) (some g) := fun hg =>
    hcounted.refs_close hslot (hfiles₁ ▸ hg)
  have hmarked : ∀ {g b}, g ≠ h.file → files₁.load g = some b → b.markedForDeletion = true →
      0 < b.refs := fun {g b} hgf hg => by
    rw [hfiles₁, Heap.load_update_ne _ hgf] at hg
    exact hcounted.marked g b hg
  rw [← hfiles₁]
  by_cases hlast : file.markedForDeletion = true ∧ file.refs - 1 = 0
  · have hnot := hlisted.hidden_of_marked hfile hlast.1
    obtain ⟨hfnext, hfprev, -⟩ := hlisted.hidden _ _ hfile hnot
    obtain ⟨t, hname⟩ := hlisted.named _ _ hfile
    have hhead : fs.fileList ≠ some h.file := fun heq =>
      hnot (List.mem_of_head? (hlisted.head.symm.trans heq))
    obtain ⟨blocks, memories, hloop, hbnext, hreleased⟩ := hfree { fs with
      files := unlinked files₁ h.file { file with refs := file.refs - 1 }
      names := fs.names.erase file.name } rfl rfl
    have hforget := hlisted₁.forget hload hnot
    refine ⟨files₁.erase h.file, fs.names.erase file.name, blocks, memories, ?_, hnext, hforget,
      ⟨?_, ?_⟩, .released hsame rfl hbnext hreleased, ?_⟩
    · rw [if_pos hlast]
      exact deleteFile_hidden { fs with files := files₁ } hload hfnext hfprev hhead hname rfl hloop
    · exact fun g b hg => hrefs (Heap.of_load_erase hg).2
    · exact fun g b hg => hmarked (Heap.of_load_erase hg).1 (Heap.of_load_erase hg).2
    · intro x hx hlive
      have hzero := tally_eq_zero.mp ((hrefs hload).symm.trans hlast.2)
      have hne : x.file ≠ h.file := fun heq => hzero _ hx (congrArg some heq)
      rw [Heap.load_erase_ne hne]
      exact hsame.ne_none hlive
  · refine ⟨files₁, fs.names, fs.blocks, fs.memories, if_neg hlast, hnext, hlisted₁, ⟨?_, ?_⟩,
      .kept hsame rfl rfl, fun x _ hlive => hsame.ne_none hlive⟩
    · exact fun g b hg => hrefs hg
    · intro g b hg hb
      by_cases hgf : g = h.file
      · subst hgf
        obtain rfl := Option.some.inj (hload.symm.trans hg)
        have hpos := hcounted.marked _ _ hfile hb
        have hne : file.refs - 1 ≠ 0 := fun hzero => hlast ⟨hb, hzero⟩
        show 0 < file.refs - 1
        omega
      · exact hmarked hgf hg hb

theorem closeFileDescriptor_eq (fs : Fs) {d : ℕ} {x : Filedesc} {file : File}
    (hd : fs.descriptors.load d = some x) (hfile : fs.files.load x.file = some file) :
    fs.closeFileDescriptor d = (if file.markedForDeletion = true ∧ file.refs - 1 = 0 then
        Fs.deleteFile x.file { fs with
          files := fs.files.update x.file fun b => { b with refs := b.refs - 1 } }
      else some { fs with
        files := fs.files.update x.file fun b => { b with refs := b.refs - 1 } }).bind fun fs =>
      (fs.setSlot x.index none).bind fun fs => (fs.descriptors.free d).map fun descriptors =>
        { fs with descriptors := descriptors } := by
  have hload := Heap.load_update_self hfile fun b => { b with refs := b.refs - 1 }
  simp only [Fs.closeFileDescriptor, hd, modifyFile_eq fs hfile, hload, Option.bind_eq_bind,
    Option.bind_some, Option.pure_def, Option.map_eq_bind, Function.comp_def]
  split_ifs <;> rfl

theorem Represents.closeFileDescriptor (hr : Represents fs l v) {i d : ℕ} {h : Handle}
    (ho : Opening l v i d h) : ∃ fs' l', fs.closeFileDescriptor d = some fs' ∧
      Represents fs' l' { v with slots := v.slots.set i none } := by
  obtain ⟨b, hd, hb⟩ := ho.descriptor hr
  obtain ⟨file, hfile⟩ := hr.file hb
  obtain ⟨files, names, blocks, memories, hunref, hnext, hlisted, hcounted, hwithdrawn, hlive⟩ :=
    unref hr.listed hr.counted ho.slot hfile (hr.stored.freeable hfile)
  obtain ⟨chain, hstored, hchain⟩ := hr.stored.withdraw hwithdrawn
  obtain ⟨p, hset, htabled⟩ := Tabled.setSlot { fs with
    files := files, names := names, blocks := blocks, memories := memories } hr.tabled
    (List.getElem?_eq_some_iff.mp ho.table).1 none
  simp only [closeFileDescriptor_eq fs hd hfile, hunref, hset, Heap.free_eq hd, Option.bind_some,
    Option.map_some]
  refine ⟨_, ⟨chain, l.table.set i none⟩, rfl, { hr with
    created := hnext.trans hr.created
    listed := hlisted
    counted := hcounted
    stored := hstored
    tabled := htabled
    opened := (hr.opened.close ho.table ho.slot).mono fun j x b' hj hb' => ?_ }⟩
  have hx := List.mem_of_getElem? hj
  have hx' : some x ∈ v.slots := (List.mem_or_eq_of_mem_set hx).resolve_right nofun
  exact (congrArg (·[x.block]?) (hchain x.file (hlive x hx (hr.file_ne_none hx')))).trans hb'

theorem Represents.ufsClose (hr : Represents fs l v) (fd : ℤ) : ∃ fs' l',
    fs.ufsClose fd = some ((v.ufsClose fd).1, fs') ∧ Represents fs' l' (v.ufsClose fd).2 := by
  rw [Fs.ufsClose, Volume.ufsClose]
  rcases hr.tryGetFileDescriptor fd with ⟨hnone, hget⟩ | ⟨h, d, hsome, hget, -, ho⟩
  · rw [hnone, hget]
    exact ⟨_, l, rfl, hr.throw .noFile⟩
  · rw [hsome, hget]
    obtain ⟨fs', l', hclose, hr'⟩ := hr.closeFileDescriptor ho
    simp only [hclose, Option.bind_eq_bind, Option.bind_some, Option.pure_def]
    exact ⟨fs', l', rfl, hr'⟩

end SystemsProgramming.UserFs

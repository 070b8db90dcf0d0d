import SystemsProgramming.UserFs.Closing
import SystemsProgramming.Foundation.FreeSlot

/-! `ufs_open`: a file that is not there is put in front of the list, and a descriptor takes the first
free slot of the table, which grows when there is none. -/

namespace SystemsProgramming.UserFs

variable {fs : Fs} {l : Layout} {v : Volume}

/-! ### The table -/

/-- The search for an empty slot, when there is none before it starts. -/
theorem emptySlotFrom_eq {table : List (Option ℕ)}
    (hslot : ∀ i o, table[i]? = some o → fs.slot i = some o) {n i : ℕ} (hn : i + n = table.length)
    (hi : i ≤ freeSlot table) : fs.emptySlotFrom n i =
      some (if freeSlot table < table.length then some (freeSlot table) else none) := by
  induction n generalizing i with
  | zero => rw [Fs.emptySlotFrom, if_neg (by omega)]
  | succ n ih =>
    obtain ⟨o, ho⟩ : ∃ o, table[i]? = some o := ⟨_, List.getElem?_eq_getElem (by omega)⟩
    rw [Fs.emptySlotFrom, hslot i o ho, Option.bind_eq_bind, Option.bind_some]
    cases o with
    | none =>
      have heq : freeSlot table = i := Nat.le_antisymm (freeSlot_le_of_none ho) hi
      rw [if_pos rfl, heq, if_pos (by omega)]
      rfl
    | some d =>
      have hne := ne_freeSlot ho
      rw [if_neg (by simp)]
      exact ih (by omega) (by omega)

theorem Tabled.createFileDescriptors (fs : Fs) {table : List (Option ℕ)}
    (h : Tabled fs.arrays.load fs.fileDescriptors fs.fileDescriptorCount fs.fileDescriptorCapacity
      table) : ∃ p arrays capacity, fs.createFileDescriptors = { fs with
        arrays := arrays, fileDescriptors := some p, fileDescriptorCapacity := capacity } ∧
      Tabled arrays.load (some p) fs.fileDescriptorCount capacity table := by
  cases hp : fs.fileDescriptors with
  | some p =>
    refine ⟨p, fs.arrays, fs.fileDescriptorCapacity, ?_, hp ▸ h⟩
    rw [Fs.createFileDescriptors, hp]
    simp only [← hp]
  | none =>
    obtain rfl := h.null hp
    have hcount : fs.fileDescriptorCount = 0 := h.count
    refine ⟨fs.arrays.next, fs.arrays.malloc (.malloc 1), 1, ?_, hcount, ?_, ?_, ?_⟩
    · rw [Fs.createFileDescriptors, hp]
      simp only [hcount]
    · intro hnull
      cases hnull
    · rintro p hp'
      obtain rfl := Option.some.inj hp'
      exact ⟨.malloc 1, (Heap.load_malloc ..).trans (if_pos rfl), rfl, Nat.one_pos, Nat.zero_le 1,
        fun i o hi => nomatch hi⟩
    · intro q array hq
      rw [Heap.load_malloc] at hq
      split_ifs at hq with hnew
      · rw [hnew]
      · cases hp.symm.trans (h.owned q array hq)

theorem Tabled.growFileDescriptors (fs : Fs) {table : List (Option ℕ)} {p : ℕ}
    (h : Tabled fs.arrays.load fs.fileDescriptors fs.fileDescriptorCount fs.fileDescriptorCapacity
      table) (hp : fs.fileDescriptors = some p) :
    ∃ q arrays, fs.growFileDescriptors = some { fs with
        arrays := arrays, fileDescriptors := some q
        fileDescriptorCapacity := fs.fileDescriptorCapacity * 2 } ∧
      Tabled arrays.load (some q) fs.fileDescriptorCount (fs.fileDescriptorCapacity * 2) table := by
  obtain ⟨array, harray, hsize, hpos, hle, hcells⟩ := h.array p hp
  refine ⟨(fs.arrays.erase p).next, (fs.arrays.erase p).malloc
    (array.realloc (fs.fileDescriptorCapacity * 2 : ℕ)), ?_, h.count, ?_, ?_, ?_⟩
  · simp only [Fs.growFileDescriptors, hp, harray, Heap.free_eq harray, Option.bind_eq_bind,
      Option.bind_some, Option.pure_def]
  · intro hnull
    cases hnull
  · rintro q hq
    obtain rfl := Option.some.inj hq
    refine ⟨_, (Heap.load_malloc ..).trans (if_pos rfl), rfl, by omega, by omega, fun i o hi => ?_⟩
    have hlt := (List.getElem?_eq_some_iff.mp hi).1
    show (if (i : ℤ) < array.size then array.cells i else none) = some o
    rw [if_pos (by omega), hcells i o hi]
  · intro q array' hq
    rw [Heap.load_malloc] at hq
    split_ifs at hq with hnew
    · rw [hnew]
    · obtain ⟨hne, hq⟩ := Heap.of_load_erase hq
      exact absurd (Option.some.inj ((h.owned q array' hq).symm.trans hp)) hne

/-- An entry behind the last one. -/
theorem Tabled.append {arrays : Heap (CArray (Option ℕ))} {p count capacity : ℕ}
    {table : List (Option ℕ)} (h : Tabled arrays.load (some p) count capacity table)
    (hroom : table.length < capacity) (o : Option ℕ) :
    Tabled (arrays.update p fun array => array.put count o).load (some p) (count + 1) capacity
      (table ++ [o]) where
  count := by rw [List.length_append, h.count, List.length_singleton]
  null hnull := nomatch hnull
  array q hq := by
    obtain rfl := Option.some.inj hq
    obtain ⟨array, harray, hsize, hpos, hle, hcells⟩ := h.array p rfl
    refine ⟨_, Heap.load_update_self harray _, hsize, hpos, ?_, fun i o' hi => ?_⟩
    · rw [List.length_append, List.length_singleton]
      omega
    · rw [CArray.cells_put, h.count]
      rcases Nat.lt_or_ge i table.length with hlt | hge
      · rw [List.getElem?_append_left hlt] at hi
        rw [if_neg (by omega), hcells i o' hi]
      · have hlen := (List.getElem?_eq_some_iff.mp hi).1
        rw [List.length_append, List.length_singleton] at hlen
        obtain rfl : i = table.length := by omega
        rw [List.getElem?_concat_length] at hi
        rw [if_pos rfl, hi]
  owned q array hq := by
    obtain ⟨array', harray', -⟩ := Heap.of_load_update hq
    exact h.owned q array' harray'

/-- A table without a free slot is there, and has room for one more entry, before the new one is put
at its end. -/
theorem Tabled.makeRoom (fs : Fs) {table : List (Option ℕ)}
    (h : Tabled fs.arrays.load fs.fileDescriptors fs.fileDescriptorCount fs.fileDescriptorCapacity
      table) : ∃ p arrays capacity,
    (if fs.createFileDescriptors.fileDescriptorCapacity = fs.createFileDescriptors.fileDescriptorCount
      then fs.createFileDescriptors.growFileDescriptors else some fs.createFileDescriptors) =
        some { fs with
          arrays := arrays, fileDescriptors := some p, fileDescriptorCapacity := capacity } ∧
      Tabled arrays.load (some p) fs.fileDescriptorCount capacity table ∧ table.length < capacity := by
  obtain ⟨p, arrays, capacity, hcreate, htabled⟩ := Tabled.createFileDescriptors fs h
  obtain ⟨array, -, -, hpos, hle, -⟩ := htabled.array p rfl
  have hcount := htabled.count
  rw [hcreate]
  by_cases hfull : capacity = fs.fileDescriptorCount
  · obtain ⟨q, arrays', hgrow, htabled'⟩ := Tabled.growFileDescriptors { fs with
      arrays := arrays, fileDescriptors := some p, fileDescriptorCapacity := capacity } htabled rfl
    exact ⟨q, arrays', capacity * 2, (if_pos hfull).trans hgrow, htabled', by omega⟩
  · exact ⟨p, arrays, capacity, if_neg hfull, htabled, by omega⟩

theorem addFileDescriptorAtTheEnd_eq {fs fs₁ : Fs} (d : ℕ)
    (hroom : (if fs.createFileDescriptors.fileDescriptorCapacity =
        fs.createFileDescriptors.fileDescriptorCount
      then fs.createFileDescriptors.growFileDescriptors else some fs.createFileDescriptors) =
        some fs₁) :
    fs.addFileDescriptorAtTheEnd d = (fs₁.setSlot fs₁.fileDescriptorCount (some d)).bind fun fs₂ =>
      (fs₂.modifyDescriptor d fun x => { x with index := fs₁.fileDescriptorCount }).bind fun fs₃ =>
        some (fs₁.fileDescriptorCount,
          { fs₃ with fileDescriptorCount := fs₁.fileDescriptorCount + 1 }) := by
  rw [Fs.addFileDescriptorAtTheEnd]
  split_ifs at hroom ⊢ with hfull
  · rw [hroom]
    rfl
  · obtain rfl := Option.some.inj hroom
    rfl

/-- `add_file_descriptor` puts a descriptor into the first free slot. -/
theorem Tabled.addFileDescriptor (fs : Fs) {table : List (Option ℕ)}
    (h : Tabled fs.arrays.load fs.fileDescriptors fs.fileDescriptorCount fs.fileDescriptorCapacity
      table) (hslot : ∀ i o, table[i]? = some o → fs.slot i = some o) {d : ℕ} {x : Filedesc}
    (hd : fs.descriptors.load d = some x) :
    ∃ arrays fileDescriptors count capacity, fs.addFileDescriptor d = some (freeSlot table, { fs with
        descriptors := fs.descriptors.update d fun x => { x with index := freeSlot table }
        arrays := arrays
        fileDescriptors := fileDescriptors
        fileDescriptorCount := count
        fileDescriptorCapacity := capacity }) ∧
      Tabled arrays.load fileDescriptors count capacity (place table d) := by
  have hempty := emptySlotFrom_eq hslot (Nat.zero_add table.length) (Nat.zero_le _)
  have hmodify : ∀ i, fs.descriptors.modify d (fun x => { x with index := i }) =
      some (fs.descriptors.update d fun x => { x with index := i }) := fun i => Heap.modify_eq hd _
  rw [Fs.addFileDescriptor, Fs.tryGetEmptyFileDescriptorSlot, h.count, hempty, place]
  by_cases hfree : freeSlot table < table.length
  · obtain ⟨p, hset, htabled⟩ := Tabled.setSlot { fs with
      descriptors := fs.descriptors.update d fun x => { x with index := freeSlot table } } h hfree
      (some d)
    rw [if_pos hfree, if_pos hfree]
    simp only [Option.bind_eq_bind, Option.bind_some, Fs.modifyDescriptor, hmodify, Option.map_some,
      hset, Option.pure_def]
    exact ⟨_, _, _, _, rfl, htabled⟩
  · have hend : freeSlot table = table.length := Nat.le_antisymm (freeSlot_le table) (by omega)
    rw [if_neg hfree, if_neg hfree]
    obtain ⟨p, arrays, capacity, hroom, htabled, hlt⟩ := Tabled.makeRoom fs h
    obtain ⟨array, harray, hsize, -⟩ := htabled.array p rfl
    have hset := setSlot_eq { fs with
      arrays := arrays, fileDescriptors := some p, fileDescriptorCapacity := capacity
      fileDescriptorCount := table.length } rfl harray
      (show (table.length : ℤ) < array.size by omega) (some d)
    have happend := htabled.append hlt (some d)
    rw [h.count] at happend
    simp only [Option.bind_eq_bind, Option.bind_some, addFileDescriptorAtTheEnd_eq d hroom, h.count,
      hset, Fs.modifyDescriptor, hmodify, Option.map_some, hend]
    exact ⟨_, _, _, _, rfl, happend⟩

/-! ### A descriptor -/

theorem Opened.freeSlot_eq {descriptors : ℕ → Option Filedesc} {chain : ℕ → List ℕ}
    {table : List (Option ℕ)} {slots : List (Option Handle)}
    (h : Opened descriptors chain table slots) : freeSlot table = freeSlot slots := by
  refine freeSlot_congr h.length fun i o x ho hx => ?_
  cases h.slot i o x ho hx with
  | closed => simp
  | opened => simp

/-- A new descriptor takes the first free slot. -/
theorem Opened.place {descriptors : Heap Filedesc} {chain : ℕ → List ℕ} {table : List (Option ℕ)}
    {slots : List (Option Handle)} (h : Opened descriptors.load chain table slots) {x : Handle}
    {b j : ℕ} (hb : (chain x.file)[x.block]? = some b) :
    Opened ((descriptors.malloc ⟨x.file, j, b, x.offset, x.flags⟩).update descriptors.next
        fun y => { y with index := freeSlot table }).load chain
      (SystemsProgramming.place table descriptors.next) (SystemsProgramming.place slots x) where
  length := by rw [length_place, length_place, h.length, h.freeSlot_eq]
  slot i o y ho hy := by
    rw [getElem?_place] at ho hy
    rw [← h.freeSlot_eq] at hy
    by_cases hi : i = freeSlot table
    · rw [if_pos hi] at ho hy
      obtain rfl := Option.some.inj ho
      obtain rfl := Option.some.inj hy
      refine .opened ?_ hb
      rw [hi, Heap.load_update, if_pos rfl, Heap.load_malloc, if_pos rfl]
      rfl
    · rw [if_neg hi] at ho hy
      cases h.slot i o y ho hy with
      | closed => exact .closed
      | @opened e b' y he hb' =>
        refine .opened ?_ hb'
        rw [Heap.load_update_ne _ (Heap.ne_next he), Heap.load_malloc_of_load he]
  owned e y he := by
    by_cases hnew : e = descriptors.next
    · exact ⟨freeSlot table, by rw [getElem?_place, if_pos rfl, hnew]⟩
    · rw [Heap.load_update_ne _ hnew, Heap.load_malloc, if_neg hnew] at he
      obtain ⟨i, hi⟩ := h.owned e y he
      exact ⟨i, getElem?_place_of_some hi _⟩

/-- One descriptor more. -/
theorem Counted.open {files : Heap File} {slots : List (Option Handle)}
    (h : Counted files.load slots) (x : Handle) :
    Counted (files.update x.file fun b => { b with refs := b.refs + 1 }).load
      (SystemsProgramming.place slots x) where
  refs g b hg := by
    obtain ⟨b₀, hb₀, rfl⟩ := Heap.of_load_update hg
    have hrefs := h.refs g b₀ hb₀
    rw [tally_place (by simp)]
    simp only [Option.map_some, Option.some.injEq]
    by_cases hgx : x.file = g
    · rw [if_pos hgx.symm, if_pos hgx]
      show b₀.refs + 1 = _
      omega
    · rw [if_neg fun heq => hgx heq.symm, if_neg hgx]
      omega
  marked g b hg hmarked := by
    obtain ⟨b₀, hb₀, rfl⟩ := Heap.of_load_update hg
    by_cases hgx : g = x.file
    · rw [if_pos hgx] at hmarked ⊢
      have hpos := h.marked g b₀ hb₀ hmarked
      show 0 < b₀.refs + 1
      omega
    · rw [if_neg hgx] at hmarked ⊢
      exact h.marked g b₀ hb₀ hmarked

/-- A new descriptor of a file that is there. -/
theorem Tabled.openFile {table : List (Option ℕ)} (h : Tabled fs.arrays.load fs.fileDescriptors
    fs.fileDescriptorCount fs.fileDescriptorCapacity table) {f : ℕ} {file : File}
    (hfile : fs.files.load f = some file) (flags : UInt32) :
    ∃ arrays fileDescriptors count capacity,
      fs.openFile f flags = some ((freeSlot table : ℤ), { fs with
        descriptors := (fs.descriptors.malloc ⟨f, 0, file.blockList, 0, flags⟩).update
          fs.descriptors.next fun x => { x with index := freeSlot table }
        files := fs.files.update f fun b => { b with refs := b.refs + 1 }
        arrays := arrays
        fileDescriptors := fileDescriptors
        fileDescriptorCount := count
        fileDescriptorCapacity := capacity }) ∧
      Tabled arrays.load fileDescriptors count capacity (place table fs.descriptors.next) := by
  obtain ⟨arrays, fileDescriptors, count, capacity, hadd, htabled⟩ := Tabled.addFileDescriptor { fs with
      descriptors := fs.descriptors.malloc ⟨f, 0, file.blockList, 0, flags⟩
      files := fs.files.update f fun b => { b with refs := b.refs + 1 } } h
    (fun i o ho => h.slot_eq ho) ((Heap.load_malloc ..).trans (if_pos rfl))
  refine ⟨arrays, fileDescriptors, count, capacity, ?_, htabled⟩
  simp only [Fs.openFile, hfile, Option.bind_eq_bind, Option.bind_some, Fs.modifyFile,
    Heap.modify_eq hfile, Option.map_some, hadd, Option.pure_def]

theorem Represents.openFile (hr : Represents fs l v) {f : ℕ} {file : File}
    (hfile : fs.files.load f = some file) (flags : UInt32) : ∃ fs' l',
    fs.openFile f flags = some ((v.openFile f flags).1, fs') ∧
    Represents fs' l' (v.openFile f flags).2 := by
  have hb : (l.chain f)[0]? = some file.blockList := by
    rw [← List.head?_eq_getElem?]
    exact (hr.stored.ends f file hfile).1
  obtain ⟨arrays, fileDescriptors, count, capacity, hopen, htabled⟩ :=
    hr.tabled.openFile hfile flags
  have hslots : (v.openFile f flags).2 = { v with
      slots := SystemsProgramming.place v.slots ⟨f, 0, 0, flags⟩ } := rfl
  have hindex : ((v.openFile f flags).1 : ℤ) = freeSlot l.table := by
    rw [hr.opened.freeSlot_eq]
    rfl
  rw [hopen, hslots, hindex]
  exact ⟨_, ⟨l.chain, SystemsProgramming.place l.table fs.descriptors.next⟩, rfl, { hr with
    listed := hr.listed.congr (sameFiles_update _ _ fun _ => rfl)
    counted := hr.counted.open ⟨f, 0, 0, flags⟩
    stored := hr.stored.congr (sameFiles_update _ _ fun _ => rfl)
    tabled := htabled
    opened := hr.opened.place (x := ⟨f, 0, 0, flags⟩) hb }⟩

/-! ### A file -/

/-- A new file comes first in the list. -/
theorem Listed.create {files : Heap File} {names : Heap CString} {fileList : Option ℕ}
    {directory : List (CString × ℕ)} (h : Listed files.load names.load fileList directory)
    {file : File} (hname : file.name = names.next) (hnext : file.next = fileList)
    (hprev : file.prev = none) (hmarked : file.markedForDeletion = false) (s : CString) :
    Listed (setLink (files.malloc file) fileList fun b => { b with prev := some files.next }).load
      (names.malloc s).load (some files.next) ((s, files.next) :: directory) := by
  obtain ⟨files', hfiles'⟩ : ∃ files' : Heap File, files' =
    setLink (files.malloc file) fileList fun b => { b with prev := some files.next } := ⟨_, rfl⟩
  have hlive : ∀ {g}, g ∈ directory.map Prod.snd → g ≠ files.next := fun {g} hg => by
    obtain ⟨⟨t, g⟩, hmem, rfl⟩ := List.mem_map.mp hg
    obtain ⟨b, hb, -⟩ := h.entry t g hmem
    exact Heap.ne_next hb
  have hmem : ∀ {g}, fileList = some g → g ∈ directory.map Prod.snd := fun hg =>
    List.mem_of_head? (h.head.symm.trans hg)
  have hnew : files'.load files.next = some file := by
    rw [hfiles', load_setLink, Heap.load_malloc, if_pos rfl, Option.map_some,
      if_neg fun heq => hlive (hmem heq) rfl]
  have hold : ∀ {q b}, files.load q = some b → files'.load q =
      some { b with prev := if fileList = some q then some files.next else b.prev } :=
    fun {q b} hq => by
      rw [hfiles', load_setLink, Heap.load_malloc_of_load hq, Option.map_some]
      split_ifs <;> rfl
  have hcases : ∀ {q b}, files'.load q = some b → (q = files.next ∧ b = file) ∨
      ∃ b₀, files.load q = some b₀ ∧ q ≠ files.next ∧
        b = { b₀ with prev := if fileList = some q then some files.next else b₀.prev } :=
    fun {q b} hq => by
      by_cases hqn : q = files.next
      · subst hqn
        exact .inl ⟨rfl, Option.some.inj (hq.symm.trans hnew)⟩
      · have hq' := hq
        rw [hfiles', load_setLink, Heap.load_malloc, if_neg hqn] at hq'
        obtain ⟨b₀, hb₀, -⟩ := Option.map_eq_some_iff.mp hq'
        exact .inr ⟨b₀, hb₀, hqn, Option.some.inj (hq.symm.trans (hold hb₀))⟩
  have hnames : ∀ {q b}, files.load q = some b → ∃ t, names.load b.name = some t ∧
      (names.malloc s).load b.name = some t ∧ b.name ≠ names.next := fun {q b} hq => by
    obtain ⟨t, ht⟩ := h.named q b hq
    exact ⟨t, ht, Heap.load_malloc_of_load ht s, Heap.ne_next ht⟩
  have hnewname : (names.malloc s).load file.name = some s := by
    rw [hname, Heap.load_malloc, if_pos rfl]
  rw [← hfiles']
  constructor
  · rfl
  · refine h.linked.push hnew (hnext.trans h.head) hprev fun q _ b hb => ⟨_, hold hb, rfl, ?_⟩
    rw [← h.head]
  · intro t g hg
    rcases List.mem_cons.mp hg with heq | hg
    · obtain ⟨rfl, rfl⟩ := Prod.mk.inj heq
      exact ⟨file, hnew, hnewname, hmarked⟩
    · obtain ⟨b, hb, htname, hbmarked⟩ := h.entry t g hg
      exact ⟨_, hold hb, Heap.load_malloc_of_load htname s, hbmarked⟩
  · intro g b hg hnot
    rw [List.map_cons, List.mem_cons, not_or] at hnot
    rcases hcases hg with ⟨rfl, -⟩ | ⟨b₀, hb₀, -, rfl⟩
    · exact absurd rfl hnot.1
    · have hfirst : ¬fileList = some g := fun heq => hnot.2 (hmem heq)
      rw [if_neg hfirst]
      exact h.hidden g b₀ hb₀ hnot.2
  · intro g b hg
    rcases hcases hg with ⟨-, rfl⟩ | ⟨b₀, hb₀, -, rfl⟩
    · exact ⟨s, hnewname⟩
    · obtain ⟨t, -, ht, -⟩ := hnames hb₀
      exact ⟨t, ht⟩
  · intro g g' b b' hg hg' heq
    rcases hcases hg with ⟨rfl, rfl⟩ | ⟨b₀, hb₀, -, rfl⟩ <;>
      rcases hcases hg' with ⟨rfl, rfl⟩ | ⟨b₁, hb₁, -, rfl⟩
    · rfl
    · obtain ⟨-, -, -, hne⟩ := hnames hb₁
      exact absurd (heq.symm.trans hname) hne
    · obtain ⟨-, -, -, hne⟩ := hnames hb₀
      exact absurd (heq.trans hname) hne
    · exact h.name_unique g g' b₀ b₁ hb₀ hb₁ heq
  · intro n t hn
    rw [Heap.load_malloc] at hn
    split_ifs at hn with hn'
    · exact ⟨files.next, file, hnew, hname.trans hn'.symm⟩
    · obtain ⟨g, b, hb, rfl⟩ := h.name_owned n t hn
      exact ⟨g, _, hold hb, rfl⟩

/-- A new file has one block. -/
theorem Stored.create {files : Heap File} {blocks : Heap Block} {memories : Heap (CArray UInt8)}
    {chain : ℕ → List ℕ} {clusters : ℕ → List Cluster}
    (h : Stored files.load blocks.load memories.load chain clusters) {file : File}
    (hfirst : file.blockList = blocks.next) (hlast : file.lastBlock = blocks.next) :
    Stored (files.malloc file).load (blocks.malloc ⟨memories.next, 0, none, none, 0⟩).load
      (memories.malloc (.malloc blockSize)).load
      (Function.update chain files.next [blocks.next])
      (Function.update clusters files.next [.fresh]) := by
  have hnone := files.fresh files.next le_rfl
  have hnew : (blocks.malloc ⟨memories.next, 0, none, none, 0⟩).load blocks.next =
      some ⟨memories.next, 0, none, none, 0⟩ := if_pos rfl
  refine stored_of (fun g => ?_) (h.owned.add (i := files.next) (k := blocks.next) (r := memories.next)
    ?_ ?_ (fun g q => ?_) (fun q => ?_) fun m => ?_)
  · by_cases hg : g = files.next
    · subst hg
      rw [Function.update_self, Function.update_self, Heap.load_malloc, if_pos rfl]
      refine ⟨by rintro ⟨⟩, ?_, fun _ _ => rfl, fun i q hi => ?_, fun k q hq => ?_⟩
      · rintro x ⟨⟩
        rw [hfirst, hlast]
        exact ⟨rfl, rfl⟩
      · cases i with
        | zero =>
          obtain rfl := Option.some.inj hi
          exact ⟨_, hnew, rfl, rfl⟩
        | succ i => cases hi
      · cases k with
        | zero =>
          obtain rfl := Option.some.inj hq
          exact ⟨_, .fresh, hnew, rfl, rfl, rfl, if_pos rfl⟩
        | succ k => cases hq
    · rw [Function.update_of_ne hg, Function.update_of_ne hg, Heap.load_malloc, if_neg hg]
      refine (h.file g).congr (fun q hq => ?_) fun q hq b hb => ?_
      · obtain ⟨b, -, hb, -⟩ := h.load_of_mem hq
        rw [Heap.load_malloc_of_load hb, hb]
      · obtain ⟨b', m, hb', hm⟩ := h.load_of_mem hq
        obtain rfl := Option.some.inj (hb.symm.trans hb')
        rw [Heap.load_malloc_of_load hm, hm]
  · rw [blocks.fresh _ le_rfl]
    rfl
  · rw [memories.fresh _ le_rfl]
    exact fun hne => hne rfl
  · by_cases hg : g = files.next
    · rw [hg, Function.update_self, h.dead files.next hnone]
      simp
    · rw [Function.update_of_ne hg]
      simp [hg]
  · rw [Heap.load_malloc]
    split_ifs <;> rfl
  · rw [Heap.load_malloc]
    split_ifs with hm
    · simp [hm]
    · simp [hm]

/-- No descriptor is open on a file that is not there. -/
theorem Represents.unopened (hr : Represents fs l v) {f : ℕ} (hf : fs.files.load f = none) {i : ℕ}
    {x : Handle} (hi : v.slots[i]? = some (some x)) : x.file ≠ f := by
  rintro rfl
  obtain ⟨d, ho⟩ := hr.opening hi
  obtain ⟨b, -, hb⟩ := ho.descriptor hr
  obtain ⟨file, hfile⟩ := hr.file hb
  cases hf.symm.trans hfile

theorem Counted.create {files : Heap File} {slots : List (Option Handle)}
    (h : Counted files.load slots) {file : File} (hrefs : file.refs = 0)
    (hmarked : file.markedForDeletion = false)
    (hfree : ∀ (i : ℕ) (x : Handle), slots[i]? = some (some x) → x.file ≠ files.next) :
    Counted (files.malloc file).load slots := by
  have hzero : tally (Option.map Handle.file) slots (some files.next) = 0 := by
    rw [tally_eq_zero]
    intro x hx heq
    obtain ⟨i, hi⟩ := List.mem_iff_getElem?.mp hx
    obtain ⟨y, rfl, hy⟩ := Option.map_eq_some_iff.mp heq
    exact hfree i y hi hy
  constructor
  · intro g b hg
    rw [Heap.load_malloc] at hg
    split_ifs at hg with hgn
    · obtain rfl := Option.some.inj hg
      rw [hgn, hrefs, hzero]
    · exact h.refs g b hg
  · intro g b hg hb
    rw [Heap.load_malloc] at hg
    split_ifs at hg with hgn
    · obtain rfl := Option.some.inj hg
      rw [hmarked] at hb
      cases hb
    · exact h.marked g b hg hb

theorem Listed.first {files : ℕ → Option File} {names : ℕ → Option CString} {fileList : Option ℕ}
    {directory : List (CString × ℕ)} (h : Listed files names fileList directory) {f : ℕ}
    (hf : fileList = some f) : ∃ file, files f = some file := by
  obtain ⟨⟨s, g⟩, hmem, rfl⟩ := List.mem_map.mp (List.mem_of_head? (h.head.symm.trans hf))
  obtain ⟨file, hfile, -⟩ := h.entry s g hmem
  exact ⟨file, hfile⟩

theorem createFile_eq (fs : Fs) (filename : CString)
    (hhead : ∀ f, fs.fileList = some f → ∃ file, fs.files.load f = some file) :
    fs.createFile filename = some (fs.files.next, { fs with
      memories := fs.memories.malloc (.malloc blockSize)
      blocks := fs.blocks.malloc ⟨fs.memories.next, 0, none, none, 0⟩
      names := fs.names.malloc filename
      files := setLink (fs.files.malloc ⟨fs.blocks.next, fs.blocks.next, 0, fs.names.next,
        fs.fileList, none, false⟩) fs.fileList fun b => { b with prev := some fs.files.next }
      fileList := some fs.files.next }) := by
  rw [Fs.createFile]
  cases hlist : fs.fileList with
  | none => rfl
  | some f =>
    obtain ⟨file, hfile⟩ := hhead f hlist
    have hload : (fs.files.malloc ⟨fs.blocks.next, fs.blocks.next, 0, fs.names.next, some f, none,
      false⟩).load f = some file := Heap.load_malloc_of_load hfile _
    simp only [Fs.modifyFile, Heap.modify_eq hload, Option.map_some, Option.bind_eq_bind,
      Option.bind_some, Option.pure_def, setLink]

theorem Represents.createFile (hr : Represents fs l v) (filename : CString) : ∃ fs' l' file,
    fs.createFile filename = some (v.created, fs') ∧ Represents fs' l' (v.createFile filename) ∧
    fs'.files.load v.created = some file := by
  obtain ⟨new, hnew⟩ : ∃ new : File, new = ⟨fs.blocks.next, fs.blocks.next, 0, fs.names.next,
    fs.fileList, none, false⟩ := ⟨_, rfl⟩
  have hvolume : v.createFile filename = { v with
      directory := (filename, fs.files.next) :: v.directory
      created := fs.files.next + 1
      clusters := Function.update v.clusters fs.files.next [.fresh] } := by
    rw [hr.created]
    rfl
  have hfree : ∀ (i : ℕ) (x : Handle), v.slots[i]? = some (some x) → x.file ≠ fs.files.next :=
    fun _ _ => hr.unopened (fs.files.fresh _ (Nat.le_refl _))
  have hload : (setLink (fs.files.malloc new) fs.fileList
      fun b => { b with prev := some fs.files.next }).load fs.files.next =
      some (if fs.fileList = some fs.files.next then { new with prev := some fs.files.next }
        else new) := by rw [load_setLink, Heap.load_malloc, if_pos rfl]; rfl
  rw [createFile_eq fs filename fun _ => hr.listed.first, ← hnew, hvolume, ← hr.created]
  refine ⟨_, ⟨Function.update l.chain fs.files.next [fs.blocks.next], l.table⟩, _, rfl, { hr with
    created := next_setLink ..
    listed := hr.listed.create (by rw [hnew]) (by rw [hnew]) (by rw [hnew]) (by rw [hnew]) filename
    counted := (hr.counted.create (by rw [hnew]) (by rw [hnew]) hfree).congr
      (sameFiles_setLink _ _ fun _ => rfl)
    stored := (hr.stored.create (by rw [hnew]) (by rw [hnew])).congr
      (sameFiles_setLink _ _ fun _ => rfl)
    opened := hr.opened.mono fun i x b hi hb => ?_ }, hload⟩
  exact (congrArg (·[x.block]?) (Function.update_of_ne (hfree i x hi) _ _)).trans hb

theorem Represents.ufsOpen (hr : Represents fs l v) (filename : CString) (flags : UInt32) :
    ∃ fs' l', fs.ufsOpen filename flags = some ((v.ufsOpen filename flags).1, fs') ∧
      Represents fs' l' (v.ufsOpen filename flags).2 := by
  rw [Fs.ufsOpen, hr.lookup, Volume.ufsOpen]
  simp only [Option.bind_eq_bind, Option.bind_some]
  cases hlookup : v.lookup filename with
  | some f =>
    obtain ⟨i, hi, -⟩ := Volume.lookup_some hlookup
    obtain ⟨file, hfile, -⟩ := hr.listed.entry _ _ (List.mem_of_getElem? hi)
    exact hr.openFile hfile flags
  | none =>
    dsimp only
    by_cases hflag : specificFlagIsPresent flags ufsCreate = true
    · obtain ⟨fs₁, l₁, file, hcreate, hr₁, hfile⟩ := hr.createFile filename
      rw [if_pos hflag, if_pos hflag, hcreate]
      exact hr₁.openFile hfile flags
    · rw [if_neg hflag, if_neg hflag]
      exact ⟨_, l, rfl, hr.throw .noFile⟩

end SystemsProgramming.UserFs

import SystemsProgramming.UserFs.Frames
import SystemsProgramming.UserFs.Simulation

/-! The namespace and the descriptor table when calls have any arguments: what the list of files, the
counts of references and the table say about each other, and that every call keeps it. -/

namespace SystemsProgramming.UserFs

open Transition

variable {fs fs' : Fs} {directory : List (CString × ℕ)} {table : List (Option ℕ)}
  {slots : List (Option Handle)} {chain : ℕ → List ℕ} {f : ℕ} {file : File}

/-- A slot of the table and the file that is open there. -/
inductive Holds (descriptors : ℕ → Option Filedesc) (i : ℕ) : Option ℕ → Option Handle → Prop
  | closed : Holds descriptors i none none
  | opened {d : ℕ} {x : Filedesc} {y : Handle} :
      descriptors d = some x → x.file = y.file → x.index = i → Holds descriptors i (some d) (some y)

structure Held (descriptors : ℕ → Option Filedesc) (table : List (Option ℕ))
    (slots : List (Option Handle)) : Prop where
  length : table.length = slots.length
  slot : ∀ i o h, table[i]? = some o → slots[i]? = some h → Holds descriptors i o h

namespace Held

variable {descriptors : Heap Filedesc}

theorem congr {load load' : ℕ → Option Filedesc} (h : Held load table slots)
    (hsame : ∀ d, (load' d).map Filedesc.entry = (load d).map Filedesc.entry) :
    Held load' table slots where
  length := h.length
  slot i o y ho hy := by
    cases h.slot i o y ho hy with
    | closed => exact .closed
    | @opened d x y hd hfile hindex =>
      have hentry := hsame d
      rw [hd] at hentry
      obtain ⟨x', hx', hxx⟩ := Option.map_eq_some_iff.mp hentry
      exact .opened hx' ((congrArg Prod.fst hxx).trans hfile) ((congrArg Prod.snd hxx).trans hindex)

theorem freeSlot_eq {load : ℕ → Option Filedesc} (h : Held load table slots) :
    freeSlot table = freeSlot slots := by
  refine freeSlot_congr h.length fun i o x ho hx => ?_
  cases h.slot i o x ho hx with
  | closed => simp
  | opened => simp

/-- A new descriptor takes the first free slot. -/
theorem place (h : Held descriptors.load table slots) {x : Filedesc} {y : Handle}
    (hxy : x.file = y.file) :
    Held ((descriptors.malloc x).update descriptors.next
        fun z => { z with index := freeSlot table }).load
      (SystemsProgramming.place table descriptors.next) (SystemsProgramming.place slots y) where
  length := by rw [length_place, length_place, h.length, h.freeSlot_eq]
  slot i o z ho hz := by
    rw [getElem?_place] at ho hz
    rw [← h.freeSlot_eq] at hz
    by_cases hi : i = freeSlot table
    · rw [if_pos hi] at ho hz
      obtain rfl := Option.some.inj ho
      obtain rfl := Option.some.inj hz
      have hnew : (descriptors.malloc x).load descriptors.next = some x := if_pos rfl
      exact .opened (Heap.load_update_self hnew _) hxy hi.symm
    · rw [if_neg hi] at ho hz
      cases h.slot i o z ho hz with
      | closed => exact .closed
      | opened hd hfile hindex =>
        refine .opened ?_ hfile hindex
        rw [Heap.load_update_ne _ (Heap.ne_next hd), Heap.load_malloc_of_load hd]

/-- A slot is freed with its descriptor. -/
theorem close (h : Held descriptors.load table slots) {i d : ℕ} {y : Handle}
    (htable : table[i]? = some (some d)) (hslot : slots[i]? = some (some y)) :
    Held (descriptors.erase d).load (table.set i none) (slots.set i none) where
  length := by rw [List.length_set, List.length_set, h.length]
  slot j o z hj hz := by
    by_cases hij : i = j
    · subst hij
      rw [List.getElem?_set_self (List.getElem?_eq_some_iff.mp htable).1] at hj
      rw [List.getElem?_set_self (List.getElem?_eq_some_iff.mp hslot).1] at hz
      obtain rfl := Option.some.inj hj
      obtain rfl := Option.some.inj hz
      exact .closed
    · rw [List.getElem?_set_ne hij] at hj hz
      cases h.slot j o z hj hz with
      | closed => exact .closed
      | @opened e x z he hfile hindex =>
        refine .opened ((Heap.load_erase_ne ?_).trans he) hfile hindex
        rintro rfl
        cases h.slot i _ _ htable hslot with
        | opened hd _ hindex' =>
          obtain rfl := Option.some.inj (hd.symm.trans he)
          exact hij (hindex'.symm.trans hindex)

end Held

structure Registry (fs : Fs) (directory : List (CString × ℕ)) (table : List (Option ℕ))
    (slots : List (Option Handle)) (chain : ℕ → List ℕ) : Prop where
  listed : Listed fs.files.load fs.names.load fs.fileList directory
  keys : (directory.map Prod.fst).Nodup
  counted : Counted fs.files.load slots
  tabled : Tabled fs.arrays.load fs.fileDescriptors fs.fileDescriptorCount
    fs.fileDescriptorCapacity table
  held : Held fs.descriptors.load table slots
  live : ∀ x, some x ∈ slots → fs.files.load x.file ≠ none
  backed : Backed fs chain

/-- The namespace, the table and the blocks are in order. -/
def Fs.Registered (fs : Fs) : Prop :=
  ∃ directory table slots chain, Registry fs directory table slots chain

theorem registered_initial : Fs.Registered .initial := by
  have h := represents_initial
  refine ⟨[], [], [], fun _ => [], h.listed, List.nodup_nil, h.counted, h.tabled, ⟨rfl, ?_⟩, ?_,
    ⟨h.stored.chained, ?_, ?_⟩⟩
  all_goals
    intros
    contradiction

namespace Registry

/-- Calls on an open descriptor. -/
theorem moved (h : Registry fs directory table slots chain) (hm : Moved fs fs') :
    fs'.Registered := by
  obtain ⟨chain', hbacked⟩ := hm.backed
  have hk := hm.keeps
  have hentry : SameFiles File.entry fs.files.load fs'.files.load := hk.file.comp Prod.fst
  have hrefs : SameFiles (fun file => (file.refs, file.markedForDeletion)) fs.files.load
      fs'.files.load := hk.file.comp fun x => (x.2, x.1.2.2.2)
  refine ⟨directory, table, slots, chain', ?_, h.keys, h.counted.congr hrefs, ?_,
    h.held.congr hk.descriptor, fun x hx => hentry.ne_none (h.live x hx), hbacked⟩
  · rw [hk.names, hk.fileList]
    exact h.listed.congr hentry
  · rw [hk.arrays, hk.fileDescriptors, hk.count, hk.capacity]
    exact h.tabled

theorem throw (h : Registry fs directory table slots chain) (error : ErrorCode) :
    (fs.throwUfsError error).2.Registered := h.moved (h.backed.throw error)

/-! ### `ufs_open` -/

theorem openFile (h : Registry fs directory table slots chain) (hfile : fs.files.load f = some file)
    (flags : UInt32) :
    ∃ fs', fs.openFile f flags = some ((freeSlot table : ℤ), fs') ∧ fs'.Registered := by
  obtain ⟨arrays, fileDescriptors, count, capacity, hopen, htabled⟩ := h.tabled.openFile hfile flags
  have hfirst := List.mem_of_head? (h.backed.chained.ends hfile).1
  obtain ⟨block, hblock⟩ := h.backed.chained.load_of_mem hfirst
  have hentry : SameFiles File.entry fs.files.load
      (fs.files.update f fun b => { b with refs := b.refs + 1 }).load :=
    sameFiles_update _ _ fun _ => rfl
  -- a descriptor is the new one or an old one
  have hdescriptor : ∀ {d x}, ((fs.descriptors.malloc ⟨f, 0, file.blockList, 0, flags⟩).update
      fs.descriptors.next fun z => { z with index := freeSlot table }).load d = some x →
      (x.file = f ∧ x.currentBlock = file.blockList) ∨ fs.descriptors.load d = some x := by
    intro d x hd
    by_cases hnew : d = fs.descriptors.next
    · rw [hnew, Heap.load_update, if_pos rfl, Heap.load_malloc, if_pos rfl] at hd
      obtain rfl := Option.some.inj hd
      exact .inl ⟨rfl, rfl⟩
    · rw [Heap.load_update_ne _ hnew, Heap.load_malloc, if_neg hnew] at hd
      exact .inr hd
  refine ⟨_, hopen, directory, place table fs.descriptors.next, place slots ⟨f, 0, 0, flags⟩, chain,
    h.listed.congr hentry, h.keys, h.counted.open ⟨f, 0, 0, flags⟩, htabled, h.held.place rfl,
    fun x hx => hentry.ne_none ?_, h.backed.chained.congr (sameFiles_update _ _ fun _ => rfl),
    fun d x hd => ?_, fun d x b hd hb => ?_⟩
  · obtain ⟨i, hi⟩ := List.mem_iff_getElem?.mp hx
    rw [getElem?_place] at hi
    split_ifs at hi
    · obtain rfl := Option.some.inj (Option.some.inj hi)
      rw [hfile]
      nofun
    · exact h.live x (List.mem_of_getElem? hi)
  · rcases hdescriptor hd with ⟨-, hx⟩ | hd
    · rw [hx]
      exact Heap.lt_next hblock
    · exact h.backed.allocated d x hd
  · rcases hdescriptor hd with ⟨hxf, hx⟩ | hd
    · rwa [hxf, hx]
    · exact h.backed.under d x b hd hb

theorem createFile (h : Registry fs directory table slots chain) {filename : CString}
    (hnew : filename ∉ directory.map Prod.fst) : ∃ fs',
    fs.createFile filename = some (fs.files.next, fs') ∧ fs'.files.load fs.files.next ≠ none ∧
      Registry fs' ((filename, fs.files.next) :: directory) table slots
        (Function.update chain fs.files.next [fs.blocks.next]) := by
  obtain ⟨new, hfile⟩ : ∃ new : File, new = ⟨fs.blocks.next, fs.blocks.next, 0, fs.names.next,
    fs.fileList, none, false⟩ := ⟨_, rfl⟩
  have hlive : ∀ {g}, fs.files.load g ≠ none → g ≠ fs.files.next := fun hg heq =>
    hg (fs.files.fresh _ (Nat.le_of_eq heq.symm))
  have hload : ∀ {g}, fs.files.load g ≠ none → (setLink (fs.files.malloc new) fs.fileList
      fun b => { b with prev := some fs.files.next }).load g ≠ none := fun {g} hg => by
    obtain ⟨file, hg⟩ := Option.ne_none_iff_exists'.mp hg
    rw [load_setLink, Heap.load_malloc_of_load hg]
    nofun
  rw [createFile_eq fs filename fun _ => h.listed.first, ← hfile]
  refine ⟨_, rfl, fun hnone => ?_, h.listed.create (by rw [hfile]) (by rw [hfile]) (by rw [hfile])
    (by rw [hfile]) filename, List.nodup_cons.mpr ⟨hnew, h.keys⟩, ?_, h.tabled, h.held,
    fun x hx => hload (h.live x hx), ?_, fun d x hd => Nat.lt_succ_of_lt (h.backed.allocated d x hd),
    fun d x b hd hb => ?_⟩
  · change (setLink (fs.files.malloc new) fs.fileList
      fun b => { b with prev := some fs.files.next }).load fs.files.next = none at hnone
    rw [load_setLink, Heap.load_malloc, if_pos rfl] at hnone
    cases hnone
  · exact (h.counted.create (by rw [hfile]) (by rw [hfile]) fun i x hi =>
      hlive (h.live x (List.mem_of_getElem? hi))).congr (sameFiles_setLink _ _ fun _ => rfl)
  · exact (h.backed.chained.create (by rw [hfile]) (by rw [hfile])).congr
      (sameFiles_setLink _ _ fun _ => rfl)
  · have hne := Nat.ne_of_lt (h.backed.allocated d x hd)
    have hx := h.backed.under d x b hd (by rwa [Heap.load_malloc, if_neg hne] at hb)
    obtain ⟨file, hfile⟩ := h.backed.chained.file_of_mem hx
    rwa [Function.update_of_ne (Heap.ne_next hfile)]

theorem ufsOpen (h : Registry fs directory table slots chain) {filename : CString} {flags : UInt32}
    {ret : ℤ} (hstep : fs.ufsOpen filename flags = some (ret, fs')) : fs'.Registered := by
  rw [Fs.ufsOpen, h.listed.lookup] at hstep
  simp only [Option.bind_eq_bind, Option.bind_some] at hstep
  cases hlookup : (directory.find? fun entry => entry.1 = filename).map Prod.snd with
  | some f =>
    obtain ⟨i, hi, -⟩ := find_some hlookup
    obtain ⟨file, hfile, -⟩ := h.listed.entry _ _ (List.mem_of_getElem? hi)
    obtain ⟨fs₁, hopen, hreg⟩ := h.openFile hfile flags
    rw [hlookup] at hstep
    obtain ⟨-, rfl⟩ := Prod.mk.inj (Option.some.inj (hopen.symm.trans hstep))
    exact hreg
  | none =>
    rw [hlookup] at hstep
    dsimp only at hstep
    have hnew : filename ∉ directory.map Prod.fst := fun hmem => by
      obtain ⟨⟨name, f⟩, hentry, rfl⟩ := List.mem_map.mp hmem
      have hnone := List.find?_eq_none.mp (Option.map_eq_none_iff.mp hlookup) _ hentry
      exact hnone (by simp)
    split_ifs at hstep
    · obtain ⟨fs₁, hcreate, hnone, h₁⟩ := h.createFile hnew
      obtain ⟨file, hfile⟩ := Option.ne_none_iff_exists'.mp hnone
      rw [hcreate] at hstep
      obtain ⟨fs₂, hopen, hreg⟩ := h₁.openFile hfile flags
      obtain ⟨-, rfl⟩ := Prod.mk.inj (Option.some.inj (hopen.symm.trans hstep))
      exact hreg
    · obtain ⟨-, rfl⟩ := Prod.mk.inj (Option.some.inj hstep)
      exact h.throw .noFile

/-! ### `ufs_close` and `ufs_delete` -/

/-- A number is that of an open descriptor or not. -/
theorem tryGetFileDescriptor (h : Registry fs directory table slots chain) (fd : ℤ) :
    fs.tryGetFileDescriptor fd = some none ∨ ∃ d x y, fs.tryGetFileDescriptor fd = some (some d) ∧
      table[fd.toNat]? = some (some d) ∧ slots[fd.toNat]? = some (some y) ∧
      fs.descriptors.load d = some x ∧ x.file = y.file ∧ x.index = fd.toNat := by
  have hcount := h.tabled.count
  rw [Fs.tryGetFileDescriptor]
  split_ifs with hrange
  · exact .inl rfl
  obtain ⟨o, ho⟩ : ∃ o, table[fd.toNat]? = some o := ⟨_, List.getElem?_eq_getElem (by omega)⟩
  obtain ⟨y, hy⟩ : ∃ y, slots[fd.toNat]? = some y :=
    ⟨_, List.getElem?_eq_getElem (by have := h.held.length; omega)⟩
  rw [h.tabled.slot_eq ho]
  cases h.held.slot _ _ _ ho hy with
  | closed => exact .inl rfl
  | opened hd hfile hindex => exact .inr ⟨_, _, _, rfl, ho, hy, hd, hfile, hindex⟩

theorem closeFileDescriptor (h : Registry fs directory table slots chain) {i d : ℕ} {x : Filedesc}
    {y : Handle} (htable : table[i]? = some (some d)) (hslot : slots[i]? = some (some y))
    (hd : fs.descriptors.load d = some x) (hxy : x.file = y.file) (hindex : x.index = i) :
    ∃ fs', fs.closeFileDescriptor d = some fs' ∧ fs'.Registered := by
  obtain ⟨file, hfile⟩ := Option.ne_none_iff_exists'.mp (h.live y (List.mem_of_getElem? hslot))
  obtain ⟨files, names, blocks, memories, hunref, -, hlisted, hcounted, hwithdrawn, hlive⟩ :=
    unref h.listed h.counted hslot hfile (h.backed.chained.freeable hfile)
  obtain ⟨p, hset, htabled⟩ := Tabled.setSlot { fs with
    files := files, names := names, blocks := blocks, memories := memories } h.tabled
    (List.getElem?_eq_some_iff.mp htable).1 none
  obtain ⟨chain', hchained, hnext, hunder⟩ := h.backed.withdraw hwithdrawn
  rw [← hxy] at hfile hunref
  subst hindex
  simp only [closeFileDescriptor_eq fs hd hfile, hunref, hset, Heap.free_eq hd, Option.bind_some,
    Option.map_some]
  refine ⟨_, rfl, directory, table.set x.index none, slots.set x.index none, chain', hlisted, h.keys,
    hcounted, htabled, h.held.close htable hslot, fun z hz => hlive z hz (h.live z ?_), hchained,
    fun e z he => ?_, fun e z b he hb => ?_⟩
  · exact (List.mem_or_eq_of_mem_set hz).resolve_right nofun
  · exact hnext ▸ h.backed.allocated e z (Heap.of_load_erase he).2
  · exact hunder z b (fun b => h.backed.under e z b (Heap.of_load_erase he).2) hb

theorem ufsClose (h : Registry fs directory table slots chain) {fd ret : ℤ}
    (hstep : fs.ufsClose fd = some (ret, fs')) : fs'.Registered := by
  rw [Fs.ufsClose] at hstep
  rcases h.tryGetFileDescriptor fd with hget | ⟨d, x, y, hget, htable, hslot, hd, hxy, hindex⟩
  · rw [hget] at hstep
    obtain ⟨-, rfl⟩ := Prod.mk.inj (Option.some.inj hstep)
    exact h.throw .noFile
  · obtain ⟨fs₁, hclose, hreg⟩ := h.closeFileDescriptor htable hslot hd hxy hindex
    rw [hget] at hstep
    simp only [hclose, Option.bind_eq_bind, Option.bind_some, Option.pure_def] at hstep
    obtain ⟨-, rfl⟩ := Prod.mk.inj (Option.some.inj hstep)
    exact hreg

theorem ufsDelete (h : Registry fs directory table slots chain) {filename : CString} {ret : ℤ}
    (hstep : fs.ufsDelete filename = some (ret, fs')) : fs'.Registered := by
  have hlookup := h.listed.lookup filename
  cases hfind : (directory.find? fun entry => entry.1 = filename).map Prod.snd with
  | none =>
    rw [Fs.ufsDelete, hlookup, hfind] at hstep
    obtain ⟨-, rfl⟩ := Prod.mk.inj (Option.some.inj hstep)
    exact h.throw .noFile
  | some f =>
    obtain ⟨i, hi, -⟩ := find_some hfind
    obtain ⟨file, hfile, -⟩ := h.listed.entry _ _ (List.mem_of_getElem? hi)
    obtain ⟨files, names, blocks, memories, hcall, -, hlisted, hcounted, hwithdrawn, hlive⟩ :=
      discard h.listed h.counted hi hfile (h.backed.chained.freeable hfile) rfl
    obtain ⟨chain', hchained, hnext, hunder⟩ := h.backed.withdraw hwithdrawn
    rw [hfind] at hlookup
    rw [ufsDelete_eq hlookup (h.listed.neighbours hi hfile) rfl, hcall] at hstep
    obtain ⟨-, rfl⟩ := Prod.mk.inj (Option.some.inj hstep)
    refine ⟨directory.eraseIdx i, table, slots, chain', hlisted, ?_, hcounted, h.tabled, h.held,
      fun z hz => hlive z hz (h.live z hz), hchained, fun e z he => ?_, fun e z b he hb => ?_⟩
    · rw [← List.eraseIdx_map]
      exact h.keys.sublist (List.eraseIdx_sublist _ _)
    · exact hnext ▸ h.backed.allocated e z he
    · exact hunder z b (fun b => h.backed.under e z b he) hb

theorem step (h : Registry fs directory table slots chain) {e : Event} (hstep : fs.Step e fs') :
    fs'.Registered := by
  obtain ⟨op, out⟩ := e
  have hobserve : ∀ {call : Option (ℤ × Fs)}, call.map Fs.exec.observe = some (out, fs') →
      ∃ ret, call = some (ret, fs') := fun hmap => by
    obtain ⟨⟨ret, fs₁⟩, hcall, heq⟩ := Option.map_eq_some_iff.mp hmap
    obtain ⟨-, rfl⟩ := Prod.mk.inj heq
    exact ⟨ret, hcall⟩
  cases op with
  | «open» filename flags =>
    obtain ⟨ret, hcall⟩ := hobserve hstep
    exact h.ufsOpen hcall
  | write fd buf =>
    obtain ⟨ret, hcall⟩ := hobserve hstep
    exact h.moved (h.backed.ufsWrite hcall)
  | read fd size =>
    obtain ⟨⟨ret, bytes, fs₁⟩, hcall, heq⟩ := Option.map_eq_some_iff.mp hstep
    obtain ⟨-, rfl⟩ := Prod.mk.inj heq
    exact h.moved (h.backed.ufsRead hcall)
  | close fd =>
    obtain ⟨ret, hcall⟩ := hobserve hstep
    exact h.ufsClose hcall
  | delete filename =>
    obtain ⟨ret, hcall⟩ := hobserve hstep
    exact h.ufsDelete hcall
  | resize fd newSize =>
    obtain ⟨ret, hcall⟩ := hobserve hstep
    exact h.moved (h.backed.ufsResize hcall)

end Registry

theorem registered_run {es : List Event} (hrun : Run Fs.Step .initial es fs) : fs.Registered :=
  hrun.invariant registered_initial fun _ _ _ ⟨_, _, _, _, h⟩ hstep => h.step hstep

end SystemsProgramming.UserFs

import SystemsProgramming.UserFs.Registry
import SystemsProgramming.UserFs.Contents

/-! The visible names, the counts of references and the table in every state that any calls lead to,
and what the end of the last descriptor of a deleted file releases. -/

namespace SystemsProgramming.UserFs

open Transition

variable {fs fs' : Fs} {directory : List (CString × ℕ)} {table : List (Option ℕ)}
  {slots : List (Option Handle)} {chain : ℕ → List ℕ} {f : ℕ} {file : File}

namespace Fs

/-- The descriptor in a slot of the table. -/
def descriptorIn (fs : Fs) (i : ℕ) : Option Filedesc := (fs.slot i).join.bind fs.descriptors.load

/-- The number of slots of the table that refer to a file. -/
def references (fs : Fs) (f : ℕ) : ℕ :=
  (List.range fs.fileDescriptorCount).countP fun i => (fs.descriptorIn i).map Filedesc.file = some f

def nameOf (fs : Fs) (f : ℕ) : Option CString := do
  let file ← fs.files.load f
  fs.names.load file.name

/-- The list of files, the counts and the table agree. -/
structure Consistent (fs : Fs) (visible : List ℕ) : Prop where
  head : fs.fileList = visible.head?
  linked : Linked fs.files.load File.next File.prev visible
  named : ∀ f ∈ visible, (fs.nameOf f).isSome
  distinct : (visible.map fs.nameOf).Nodup
  listed : ∀ f file, fs.files.load f = some file →
    (f ∈ visible ↔ file.markedForDeletion = false)
  refs : ∀ f file, fs.files.load f = some file → file.refs = fs.references f
  marked : ∀ f file, fs.files.load f = some file → file.markedForDeletion = true → 0 < file.refs
  slot : ∀ i < fs.fileDescriptorCount, ∃ o, fs.slot i = some o ∧ ∀ d, o = some d →
    ∃ x, fs.descriptors.load d = some x ∧ x.index = i ∧ (fs.files.load x.file).isSome

/-- A file has been released with its name and its blocks. The list of files is the same, and so is
every other file with its bytes. -/
structure Releases (fs : Fs) (f : ℕ) (file : File) (fs' : Fs) : Prop where
  fileList : fs'.fileList = fs.fileList
  files : ∀ g, fs'.files.load g = if g = f then none else fs.files.load g
  names : ∀ n, fs'.names.load n = if n = file.name then none else fs.names.load n
  blocks : ∃ s : List ℕ, s.head? = some file.blockList ∧
    Linked fs.blocks.load Block.next Block.prev s ∧
    Released s fs.blocks fs'.blocks fs.memories fs'.memories
  block : ∀ g ≠ f, ∀ k, fs'.blockAt g k = fs.blockAt g k
  byte : ∀ g ≠ f, ∀ p, fs'.byteAt g p = fs.byteAt g p

end Fs

namespace Registry

theorem descriptorIn (h : Registry fs directory table slots chain) {i : ℕ} {y : Option Handle}
    (hy : slots[i]? = some y) :
    (fs.descriptorIn i).map Filedesc.file = y.map Handle.file := by
  obtain ⟨o, ho⟩ : ∃ o, table[i]? = some o :=
    ⟨_, List.getElem?_eq_getElem (h.held.length ▸ (List.getElem?_eq_some_iff.mp hy).1)⟩
  rw [Fs.descriptorIn, h.tabled.slot_eq ho]
  cases h.held.slot i o y ho hy with
  | closed => rfl
  | opened hd hfile _ =>
    simp only [Option.join_some, Option.bind_some, hd, Option.map_some, hfile]

theorem references (h : Registry fs directory table slots chain) (f : ℕ) :
    (fs.references f : ℤ) = tally (Option.map Handle.file) slots (some f) := by
  have hslots : slots = (List.range slots.length).map fun i => slots[i]?.join := by
    apply List.ext_getElem?
    intro i
    rw [List.getElem?_map]
    rcases Nat.lt_or_ge i slots.length with hi | hi
    · rw [List.getElem?_range hi, Option.map_some, List.getElem?_eq_getElem hi]
      rfl
    · rw [List.getElem?_eq_none hi, List.getElem?_eq_none (by rwa [List.length_range])]
      rfl
  have hcount : fs.fileDescriptorCount = slots.length := h.tabled.count.trans h.held.length
  rw [Fs.references, tally, hcount]
  conv_rhs => rw [hslots, List.countP_map]
  refine congrArg Int.ofNat (List.countP_congr fun i hi => ?_)
  obtain ⟨y, hy⟩ : ∃ y, slots[i]? = some y :=
    ⟨_, List.getElem?_eq_getElem (List.mem_range.mp hi)⟩
  simp only [Function.comp, h.descriptorIn hy, hy, Option.join_some]

theorem nameOf (h : Registry fs directory table slots chain) :
    (directory.map Prod.snd).map fs.nameOf = directory.map fun entry => some entry.1 := by
  rw [List.map_map]
  refine List.map_congr_left fun ⟨s, f⟩ hmem => ?_
  obtain ⟨file, hfile, hname, -⟩ := h.listed.entry s f hmem
  simp only [Function.comp, Fs.nameOf, hfile, hname, Option.bind_eq_bind, Option.bind_some]

theorem consistent (h : Registry fs directory table slots chain) :
    fs.Consistent (directory.map Prod.snd) where
  head := h.listed.head
  linked := h.listed.linked
  named f hf := by
    obtain ⟨⟨s, g⟩, hmem, rfl⟩ := List.mem_map.mp hf
    obtain ⟨file, hfile, hname, -⟩ := h.listed.entry s g hmem
    simp only [Fs.nameOf, hfile, hname, Option.bind_eq_bind, Option.bind_some, Option.isSome_some]
  distinct := by
    have hkeys := h.keys.map (Option.some_injective CString)
    rw [List.map_map] at hkeys
    rw [h.nameOf]
    exact hkeys
  listed f file hf := by
    constructor
    · intro hmem
      cases hmarked : file.markedForDeletion with
      | false => rfl
      | true => exact absurd hmem (h.listed.hidden_of_marked hf hmarked)
    · intro hmarked
      by_contra hnot
      cases hmarked.symm.trans (h.listed.hidden f file hf hnot).2.2
  refs f file hf := (h.counted.refs f file hf).trans (h.references f).symm
  marked := h.counted.marked
  slot i hi := by
    have hcount := h.tabled.count
    have hlength := h.held.length
    obtain ⟨o, ho⟩ : ∃ o, table[i]? = some o := ⟨_, List.getElem?_eq_getElem (by omega)⟩
    obtain ⟨y, hy⟩ : ∃ y, slots[i]? = some y := ⟨_, List.getElem?_eq_getElem (by omega)⟩
    refine ⟨o, h.tabled.slot_eq ho, ?_⟩
    rintro d rfl
    cases h.held.slot i _ y ho hy with
    | opened hd hfile hindex =>
      refine ⟨_, hd, hindex, Option.isSome_iff_ne_none.mpr ?_⟩
      rw [hfile]
      exact h.live _ (List.mem_of_getElem? hy)

/-- Whatever is done to other blocks, a file whose blocks stay has the same blocks and bytes. -/
theorem kept (h : Registry fs directory table slots chain) {g : ℕ}
    (hfile : fs'.files.load g = fs.files.load g)
    (hblock : ∀ p ∈ chain g, ∀ b, fs.blocks.load p = some b →
      fs'.blocks.load p = some b ∧ fs'.memories.load b.memory = fs.memories.load b.memory) :
    (∀ k, fs'.blockAt g k = fs.blockAt g k) ∧ ∀ p, fs'.byteAt g p = fs.byteAt g p := by
  cases hg : fs.files.load g with
  | none =>
    rw [hg] at hfile
    have hnone : ∀ k, fs'.blockAt g k = none ∧ fs.blockAt g k = none := fun k => by
      rw [Fs.blockAt, Fs.blockAt, hfile, hg]
      exact ⟨rfl, rfl⟩
    refine ⟨fun k => (hnone k).1.trans (hnone k).2.symm, fun p => ?_⟩
    rw [Fs.byteAt, Fs.byteAt, (hnone _).1, (hnone _).2]
    rfl
  | some file =>
    rw [hg] at hfile
    have hhead := (h.backed.chained.ends hg).1
    rw [List.head?_eq_getElem?] at hhead
    have hlinked := h.backed.chained.linked g
    have hlinked' : Linked fs'.blocks.load Block.next Block.prev (chain g) :=
      hlinked.congr fun p hp b hb => ⟨b, (hblock p hp b hb).1, rfl, rfl⟩
    have hchain : ∀ k, fs.blockAt g k = (chain g)[k]?.bind fs.blocks.load := fun k => by
      rw [Fs.blockAt, hg, Option.bind_eq_bind, Option.bind_some, hlinked.follow_eq hhead,
        Nat.zero_add]
    have hsame : ∀ k, fs'.blockAt g k = fs.blockAt g k := fun k => by
      rw [hchain, Fs.blockAt, hfile, Option.bind_eq_bind, Option.bind_some,
        hlinked'.follow_eq hhead, Nat.zero_add]
      cases hp : (chain g)[k]? with
      | none => rfl
      | some p =>
        obtain ⟨b, hb, -⟩ := hlinked k p hp
        rw [Option.bind_some, Option.bind_some, hb, (hblock p (List.mem_of_getElem? hp) b hb).1]
    refine ⟨hsame, fun p => ?_⟩
    rw [Fs.byteAt, Fs.byteAt, hsame, hchain]
    cases hp : (chain g)[p / 512]? with
    | none => rfl
    | some q =>
      obtain ⟨b, hb, -⟩ := hlinked _ q hp
      simp only [Option.bind_some, Option.bind_eq_bind, hb,
        (hblock q (List.mem_of_getElem? hp) b hb).2]

theorem releases (h : Registry fs directory table slots chain)
    (hfile : fs.files.load f = some file) {blocks : Heap Block} {memories : Heap (CArray UInt8)}
    (hreleased : Released (chain f) fs.blocks blocks fs.memories memories)
    (hfs' : fs' = { fs with
      blocks := blocks, memories := memories, files := fs.files.erase f
      names := fs.names.erase file.name
      arrays := fs'.arrays, descriptors := fs'.descriptors }) : fs.Releases f file fs' := by
  have hkept : ∀ g ≠ f, (∀ k, fs'.blockAt g k = fs.blockAt g k) ∧
      ∀ p, fs'.byteAt g p = fs.byteAt g p := fun g hg => by
    refine h.kept (by rw [hfs']; exact Heap.load_erase_ne hg) fun p hp b hb => ?_
    have hnot : p ∉ chain f := fun hmem => hg (h.backed.chained.owner hp hmem)
    rw [hfs']
    refine ⟨?_, hreleased.memory _ fun q hq c hc heq => hnot ?_⟩
    · show blocks.load p = some b
      rw [hreleased.block, if_neg hnot, hb]
    · rwa [← h.backed.chained.memory_unique hc hb heq]
  refine ⟨by rw [hfs'], fun g => by rw [hfs']; rfl, fun n => by rw [hfs']; rfl, ⟨chain f,
    (h.backed.chained.ends hfile).1, h.backed.chained.linked f, by rw [hfs']; exact hreleased⟩,
    fun g hg => (hkept g hg).1, fun g hg => (hkept g hg).2⟩

theorem closeLast (h : Registry fs directory table slots chain) {fd : ℤ} {x : Filedesc}
    (hd : fs.descriptorAt fd = some x) (hfile : fs.files.load x.file = some file)
    (hmarked : file.markedForDeletion = true) (hlast : fs.references x.file = 1) :
    ∃ fs', fs.ufsClose fd = some (0, fs') ∧ fs'.ufsErrorCode = fs.ufsErrorCode ∧
      fs.Releases x.file file fs' := by
  rcases h.tryGetFileDescriptor fd with hget | ⟨d, x', y, hget, htable, -, hx, -, hindex⟩
  · rw [Fs.descriptorAt, hget] at hd
    cases hd
  obtain rfl : x' = x := by
    rw [Fs.descriptorAt, hget] at hd
    exact Option.some.inj (hx.symm.trans hd)
  have hrefs : file.refs - 1 = 0 := by
    have hcount := (h.counted.refs _ _ hfile).trans (h.references _).symm
    omega
  obtain ⟨files, hfiles⟩ : ∃ files, files =
    fs.files.update x'.file fun b => { b with refs := b.refs - 1 } := ⟨_, rfl⟩
  have hload : files.load x'.file = some { file with refs := file.refs - 1 } :=
    hfiles ▸ Heap.load_update_self hfile _
  have hnot := h.listed.hidden_of_marked hfile hmarked
  obtain ⟨hnext, hprev, -⟩ := h.listed.hidden _ _ hfile hnot
  obtain ⟨s, hname⟩ := h.listed.named _ _ hfile
  have hhead : fs.fileList ≠ some x'.file := fun heq =>
    hnot (List.mem_of_head? (h.listed.head.symm.trans heq))
  obtain ⟨blocks, memories, hloop, -, hreleased⟩ := h.backed.chained.freeable hfile { fs with
    files := unlinked files x'.file { file with refs := file.refs - 1 }
    names := fs.names.erase file.name } rfl rfl
  have hdelete := deleteFile_hidden { fs with files := files } hload hnext hprev hhead hname rfl hloop
  obtain ⟨p, hset, -⟩ := Tabled.setSlot { fs with
    blocks := blocks, memories := memories, names := fs.names.erase file.name
    files := files.erase x'.file } h.tabled (List.getElem?_eq_some_iff.mp htable).1 none
  rw [Fs.ufsClose, hget]
  simp only [Option.bind_eq_bind, Option.bind_some, closeFileDescriptor_eq fs hx hfile,
    if_pos (And.intro hmarked hrefs), ← hfiles, hdelete, hindex, hset, Heap.free_eq hx,
    Option.map_some, Option.pure_def]
  refine ⟨_, rfl, rfl, h.releases hfile hreleased ?_⟩
  rw [hfiles, Heap.erase_update]

end Registry

/-- After any calls: the list of files is doubly linked, its names are distinct, and the files in it are
those that are not marked; `refs` counts the slots of the table, and is positive for a marked file; a
slot holds a descriptor with its number, of a file that is there. The end of the last descriptor of a
marked file releases that file and nothing else. -/
theorem consistent_run {es : List Event} (hrun : Run Fs.Step .initial es fs) :
    (∃ visible, fs.Consistent visible) ∧
      ∀ fd x file, fs.descriptorAt fd = some x → fs.files.load x.file = some file →
        file.markedForDeletion = true → fs.references x.file = 1 →
        ∃ fs', fs.exec (.close fd) = some (⟨0, fs.ufsErrorCode, []⟩, fs') ∧
          fs.Releases x.file file fs' := by
  obtain ⟨directory, table, slots, chain, h⟩ := registered_run hrun
  refine ⟨⟨_, h.consistent⟩, fun fd x file hd hfile hmarked hlast => ?_⟩
  obtain ⟨fs', hclose, herrno, hreleases⟩ := h.closeLast hd hfile hmarked hlast
  refine ⟨fs', ?_, hreleases⟩
  rw [Fs.exec, hclose, Option.map_some, Fs.exec.observe, herrno]

/-- A name is deleted and created again while a descriptor is open on the first file. -/
theorem consistent_run_recreated : ∃ fs : Fs,
    ((∃ visible, fs.Consistent visible) ∧
      ∀ fd x file, fs.descriptorAt fd = some x → fs.files.load x.file = some file →
        file.markedForDeletion = true → fs.references x.file = 1 →
        ∃ fs', fs.exec (.close fd) = some (⟨0, fs.ufsErrorCode, []⟩, fs') ∧
          fs.Releases x.file file fs') ∧
    (∃ x file, fs.descriptorAt 0 = some x ∧ fs.files.load x.file = some file ∧
      file.markedForDeletion = true ∧ fs.references x.file = 1) := by
  obtain ⟨fs, hlast, hrun⟩ : ∃ fs : Fs, (∃ x file, fs.descriptorAt 0 = some x ∧
      fs.files.load x.file = some file ∧ file.markedForDeletion = true ∧
      fs.references x.file = 1) ∧ Run Fs.Step .initial
        [(.open [102] ufsCreate, ⟨0, .noErr, []⟩), (.delete [102], ⟨0, .noErr, []⟩),
          (.open [102] ufsCreate, ⟨1, .noErr, []⟩)] fs :=
    ⟨_, ⟨_, _, rfl, rfl, rfl, rfl⟩, .cons rfl (.cons rfl (.single rfl))⟩
  exact ⟨fs, consistent_run hrun, hlast⟩

end SystemsProgramming.UserFs

import SystemsProgramming.UserFs.Volume
import SystemsProgramming.Foundation.Linked
import SystemsProgramming.Foundation.Tally

/-! How the heaps represent a volume. Each part of the relation is about the heaps it needs, as
functions from addresses, so that it is not touched by a change to another one. -/

namespace SystemsProgramming.UserFs

variable {files files' : ℕ → Option File} {names : ℕ → Option CString}

/-- The visible files are the list of files, in order; the others are marked and linked to nothing. A
name belongs to one file. -/
structure Listed (files : ℕ → Option File) (names : ℕ → Option CString) (fileList : Option ℕ)
    (directory : List (CString × ℕ)) : Prop where
  head : fileList = (directory.map Prod.snd).head?
  linked : Linked files File.next File.prev (directory.map Prod.snd)
  entry : ∀ s f, (s, f) ∈ directory → ∃ file, files f = some file ∧ names file.name = some s ∧
    file.markedForDeletion = false
  hidden : ∀ f file, files f = some file → f ∉ directory.map Prod.snd →
    file.next = none ∧ file.prev = none ∧ file.markedForDeletion = true
  named : ∀ f file, files f = some file → ∃ s, names file.name = some s
  name_unique : ∀ f g file file', files f = some file → files g = some file' →
    file.name = file'.name → f = g
  name_owned : ∀ n s, names n = some s → ∃ f file, files f = some file ∧ file.name = n

/-- `refs` counts the open descriptors, and a marked file has some. -/
structure Counted (files : ℕ → Option File) (slots : List (Option Handle)) : Prop where
  refs : ∀ f file, files f = some file →
    file.refs = tally (Option.map Handle.file) slots (some f)
  marked : ∀ f file, files f = some file → file.markedForDeletion = true → 0 < file.refs

/-- The blocks of each file that is there, in order, are a chain of its own, and there are no others. -/
structure Stored (files : ℕ → Option File) (blocks : ℕ → Option Block)
    (memories : ℕ → Option (CArray UInt8)) (chain : ℕ → List ℕ) (clusters : ℕ → List Cluster) :
    Prop where
  dead : ∀ f, files f = none → chain f = []
  ends : ∀ f file, files f = some file →
    (chain f).head? = some file.blockList ∧ (chain f).getLast? = some file.lastBlock
  length : ∀ f file, files f = some file → (chain f).length = (clusters f).length
  linked : ∀ f, Linked blocks Block.next Block.prev (chain f)
  block : ∀ (f k p : ℕ), (chain f)[k]? = some p → ∃ block c, blocks p = some block ∧
    (clusters f)[k]? = some c ∧ block.index = k ∧ block.occupied = c.occupied ∧
    memories block.memory = some c.memory
  owner : ∀ f g p, p ∈ chain f → p ∈ chain g → f = g
  memory_unique : ∀ f g p q block block', p ∈ chain f → q ∈ chain g → blocks p = some block →
    blocks q = some block' → block.memory = block'.memory → p = q
  block_owned : ∀ p block, blocks p = some block → ∃ f, p ∈ chain f
  memory_owned : ∀ m x, memories m = some x → ∃ p block, blocks p = some block ∧ block.memory = m

/-- The descriptor table. -/
structure Tabled (arrays : ℕ → Option (CArray (Option ℕ))) (fileDescriptors : Option ℕ)
    (count capacity : ℕ) (table : List (Option ℕ)) : Prop where
  count : count = table.length
  null : fileDescriptors = none → table = []
  array : ∀ p, fileDescriptors = some p → ∃ array, arrays p = some array ∧
    array.size = capacity ∧ 0 < capacity ∧ table.length ≤ capacity ∧
    ∀ i : ℕ, ∀ o, table[i]? = some o → array.cells i = some o
  owned : ∀ p array, arrays p = some array → fileDescriptors = some p

/-- A slot of the table and what is open there. -/
inductive Denotes (descriptors : ℕ → Option Filedesc) (chain : ℕ → List ℕ) (i : ℕ) :
    Option ℕ → Option Handle → Prop
  | closed : Denotes descriptors chain i none none
  | opened {d b : ℕ} {h : Handle} :
      descriptors d = some ⟨h.file, i, b, h.offset, h.flags⟩ → (chain h.file)[h.block]? = some b →
      Denotes descriptors chain i (some d) (some h)

structure Opened (descriptors : ℕ → Option Filedesc) (chain : ℕ → List ℕ)
    (table : List (Option ℕ)) (slots : List (Option Handle)) : Prop where
  length : table.length = slots.length
  slot : ∀ i o h, table[i]? = some o → slots[i]? = some h → Denotes descriptors chain i o h
  owned : ∀ d x, descriptors d = some x → ∃ i : ℕ, table[i]? = some (some d)

/-- What the heaps are made of: the addresses of the blocks of each file and of the descriptors. -/
structure Layout where
  chain : ℕ → List ℕ
  table : List (Option ℕ)

structure Represents (fs : Fs) (l : Layout) (v : Volume) : Prop where
  errno : fs.ufsErrorCode = v.errno
  created : fs.files.next = v.created
  listed : Listed fs.files.load fs.names.load fs.fileList v.directory
  counted : Counted fs.files.load v.slots
  stored : Stored fs.files.load fs.blocks.load fs.memories.load l.chain v.clusters
  tabled : Tabled fs.arrays.load fs.fileDescriptors fs.fileDescriptorCount
    fs.fileDescriptorCapacity l.table
  opened : Opened fs.descriptors.load l.chain l.table v.slots

theorem represents_initial : Represents .initial ⟨fun _ => [], []⟩ .initial := by
  refine ⟨rfl, rfl, ⟨rfl, .nil, ?_, ?_, ?_, ?_, ?_⟩, ⟨?_, ?_⟩,
    ⟨fun _ _ => rfl, ?_, ?_, fun _ => .nil, ?_, ?_, ?_, ?_, ?_⟩, ⟨rfl, fun _ => rfl, ?_, ?_⟩,
    ⟨rfl, ?_, ?_⟩⟩
  all_goals
    intros
    contradiction

/-! ### Changes that a part does not see -/

/-- Two memories of files that agree on what `g` sees of a file. -/
def SameFiles {β : Type*} (g : File → β) (files files' : ℕ → Option File) : Prop :=
  ∀ f, (files' f).map g = (files f).map g

theorem SameFiles.symm_some {β : Type*} {g : File → β} (h : SameFiles g files files') {f : ℕ}
    {file' : File} (hf : files' f = some file') : ∃ file, files f = some file ∧ g file = g file' := by
  have hg := h f
  rw [hf] at hg
  exact Option.map_eq_some_iff.mp hg.symm

theorem SameFiles.symm {β : Type*} {g : File → β} (h : SameFiles g files files') :
    SameFiles g files' files := fun f => (h f).symm

theorem SameFiles.trans {β : Type*} {g : File → β} {files'' : ℕ → Option File}
    (h : SameFiles g files files') (h' : SameFiles g files' files'') : SameFiles g files files'' :=
  fun f => (h' f).trans (h f)

theorem SameFiles.comp {β γ : Type*} {g : File → β} (h : SameFiles g files files') (φ : β → γ) :
    SameFiles (fun file => φ (g file)) files files' := fun f => by
  have hg := congrArg (Option.map φ) (h f)
  rwa [Option.map_map, Option.map_map] at hg

theorem sameFiles_update {β : Type*} {g : File → β} (h : Heap File) (p : ℕ) {φ : File → File}
    (hφ : ∀ file, g (φ file) = g file) : SameFiles g h.load (h.update p φ).load := by
  intro f
  rw [Heap.load_update]
  split_ifs
  · cases h.load f with
    | none => rfl
    | some file => exact congrArg some (hφ file)
  · rfl

/-- What the list of files is about. -/
def File.entry (file : File) : Option ℕ × Option ℕ × ℕ × Bool :=
  (file.next, file.prev, file.name, file.markedForDeletion)

/-- What the list says of the names of files. -/
theorem Listed.names_of_same {fileList : Option ℕ} {directory : List (CString × ℕ)}
    (h : Listed files names fileList directory) (hsame : SameFiles File.name files files') :
    (∀ f file, files' f = some file → ∃ s, names file.name = some s) ∧
      (∀ f g file file', files' f = some file → files' g = some file' → file.name = file'.name →
        f = g) ∧
      ∀ n s, names n = some s → ∃ f file, files' f = some file ∧ file.name = n := by
  refine ⟨fun f file' hf => ?_, fun f g file file' hf hg heq => ?_, fun n s hn => ?_⟩
  · obtain ⟨file, hfile, hname⟩ := hsame.symm_some hf
    rw [← hname]
    exact h.named f file hfile
  · obtain ⟨x, hx, hxname⟩ := hsame.symm_some hf
    obtain ⟨y, hy, hyname⟩ := hsame.symm_some hg
    exact h.name_unique f g x y hx hy (hxname.trans (heq.trans hyname.symm))
  · obtain ⟨f, file, hfile, hname⟩ := h.name_owned n s hn
    obtain ⟨file', hfile', hname'⟩ := hsame.symm.symm_some hfile
    exact ⟨f, file', hfile', hname'.trans hname⟩

theorem Listed.congr {fileList : Option ℕ} {directory : List (CString × ℕ)}
    (h : Listed files names fileList directory) (hsame : SameFiles File.entry files files') :
    Listed files' names fileList directory := by
  have hpre : ∀ f file', files' f = some file' → ∃ file, files f = some file ∧
      file.next = file'.next ∧ file.prev = file'.prev ∧ file.name = file'.name ∧
      file.markedForDeletion = file'.markedForDeletion := fun f file' hf => by
    obtain ⟨file, hfile, hentry⟩ := hsame.symm_some hf
    simp only [File.entry, Prod.mk.injEq] at hentry
    exact ⟨file, hfile, hentry⟩
  have hpost : ∀ f file, files f = some file → ∃ file', files' f = some file' ∧
      file'.next = file.next ∧ file'.prev = file.prev ∧ file'.name = file.name ∧
      file'.markedForDeletion = file.markedForDeletion := fun f file hf => by
    obtain ⟨file', hfile', hentry⟩ := hsame.symm.symm_some hf
    simp only [File.entry, Prod.mk.injEq] at hentry
    exact ⟨file', hfile', hentry⟩
  have hnames := h.names_of_same (hsame.comp fun entry => entry.2.2.1)
  constructor
  · exact h.head
  · refine h.linked.congr fun p _ file hp => ?_
    obtain ⟨file', hfile', hnext, hprev, -⟩ := hpost p file hp
    exact ⟨file', hfile', hnext, hprev⟩
  · intro s f hmem
    obtain ⟨file, hfile, hname, hmarked⟩ := h.entry s f hmem
    obtain ⟨file', hfile', -, -, hname', hmarked'⟩ := hpost f file hfile
    exact ⟨file', hfile', hname' ▸ hname, hmarked'.trans hmarked⟩
  · intro f file' hf hnot
    obtain ⟨file, hfile, hnext, hprev, -, hmarked⟩ := hpre f file' hf
    rw [← hnext, ← hprev, ← hmarked]
    exact h.hidden f file hfile hnot
  · exact hnames.1
  · exact hnames.2.1
  · exact hnames.2.2

theorem Counted.congr {slots : List (Option Handle)} (h : Counted files slots)
    (hsame : SameFiles (fun file => (file.refs, file.markedForDeletion)) files files') :
    Counted files' slots := by
  constructor
  · intro f file' hf
    obtain ⟨file, hfile, heq⟩ := hsame.symm_some hf
    rw [← (Prod.mk.inj heq).1]
    exact h.refs f file hfile
  · intro f file' hf hmarked
    obtain ⟨file, hfile, heq⟩ := hsame.symm_some hf
    rw [← (Prod.mk.inj heq).1]
    exact h.marked f file hfile ((Prod.mk.inj heq).2.trans hmarked)

theorem Stored.congr {blocks : ℕ → Option Block} {memories : ℕ → Option (CArray UInt8)}
    {chain : ℕ → List ℕ} {clusters : ℕ → List Cluster}
    (h : Stored files blocks memories chain clusters)
    (hsame : SameFiles (fun file => (file.blockList, file.lastBlock)) files files') :
    Stored files' blocks memories chain clusters where
  dead f hf := h.dead f (by have := hsame f; rw [hf] at this; simpa using this.symm)
  ends f file' hf := by
    obtain ⟨file, hfile, heq⟩ := hsame.symm_some hf
    rw [← (Prod.mk.inj heq).1, ← (Prod.mk.inj heq).2]
    exact h.ends f file hfile
  length f file' hf := by
    obtain ⟨file, hfile, -⟩ := hsame.symm_some hf
    exact h.length f file hfile
  linked := h.linked
  block := h.block
  owner := h.owner
  memory_unique := h.memory_unique
  block_owned := h.block_owned
  memory_owned := h.memory_owned

theorem Opened.mono {descriptors : ℕ → Option Filedesc} {chain chain' : ℕ → List ℕ}
    {table : List (Option ℕ)} {slots : List (Option Handle)}
    (h : Opened descriptors chain table slots)
    (hchain : ∀ (i : ℕ) (h : Handle) (b : ℕ), slots[i]? = some (some h) →
      (chain h.file)[h.block]? = some b → (chain' h.file)[h.block]? = some b) :
    Opened descriptors chain' table slots where
  length := h.length
  slot i o x ho hx := by
    cases h.slot i o x ho hx with
    | closed => exact .closed
    | opened hd hb => exact .opened hd (hchain i _ _ hx hb)
  owned := h.owned

end SystemsProgramming.UserFs

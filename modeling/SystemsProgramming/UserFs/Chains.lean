import SystemsProgramming.UserFs.Truncation
import SystemsProgramming.UserFs.Creation

/-! The chains of blocks when calls have any arguments. The numbers in the blocks and the bytes in them
may then be anything, but the links stay those of one chain for each file. -/

namespace SystemsProgramming.UserFs

/-- The blocks with other numbers in them. -/
def renumber (number : ℕ → ℤ) (blocks : Heap Block) : Heap Block where
  load p := (blocks.load p).map fun block => { block with index := number p }
  next := blocks.next
  fresh p hp := by rw [blocks.fresh p hp]; rfl

variable {number : ℕ → ℤ} {blocks blocks' : Heap Block} {p : ℕ} {block : Block}

theorem load_renumber (hp : blocks.load p = some block) :
    (renumber number blocks).load p = some { block with index := number p } := by
  simp only [renumber, hp, Option.map_some]

theorem of_load_renumber (hp : (renumber number blocks).load p = some block) :
    ∃ b, blocks.load p = some b ∧ block = { b with index := number p } := by
  obtain ⟨b, hb, rfl⟩ := Option.map_eq_some_iff.mp hp
  exact ⟨b, hb, rfl⟩

theorem renumber_update {φ : Block → Block}
    (hφ : ∀ b n, φ { b with index := n } = { φ b with index := n }) :
    renumber number (blocks.update p φ) = (renumber number blocks).update p φ := by
  simp only [renumber, Heap.update, Heap.mk.injEq, and_true]
  funext q
  cases hq : blocks.load q with
  | none => split_ifs <;> rfl
  | some b =>
    split_ifs
    · exact congrArg some (hφ b _).symm
    · rfl

theorem renumber_malloc (n : ℤ) : renumber (Function.update number blocks.next n)
    (blocks.malloc block) = (renumber number blocks).malloc { block with index := n } := by
  simp only [renumber, Heap.malloc, Heap.mk.injEq, and_true]
  funext q
  by_cases hq : q = blocks.next
  · simp [hq]
  · simp [hq]

theorem Released.renumber {s : List ℕ} {memories memories' : Heap (CArray UInt8)}
    (h : Released s blocks blocks' memories memories') (number : ℕ → ℤ) :
    Released s (renumber number blocks) (renumber number blocks') memories memories' where
  block p := by
    show (blocks'.load p).map _ = _
    rw [h.block]
    split_ifs <;> rfl
  memory m hm := h.memory m fun p hp b hb => by
    have hne := hm p hp _ (load_renumber hb)
    exact hne
  gone p hp b hb := by
    obtain ⟨b', hb', rfl⟩ := of_load_renumber hb
    exact h.gone p hp b' hb'

/-- Each file has a chain of blocks of its own, whatever is in the blocks. -/
def Chained (files : ℕ → Option File) (blocks : Heap Block) (memories : Heap (CArray UInt8))
    (chain : ℕ → List ℕ) : Prop :=
  ∃ number clusters, Stored files (renumber number blocks).load memories.load chain clusters

theorem Stored.chained {files : ℕ → Option File} {memories : Heap (CArray UInt8)}
    {chain : ℕ → List ℕ} {clusters : ℕ → List Cluster}
    (h : Stored files blocks.load memories.load chain clusters) :
    Chained files blocks memories chain := by
  refine ⟨fun p => ((blocks.load p).map Block.index).getD 0, clusters, ?_⟩
  have hload : (renumber (fun p => ((blocks.load p).map Block.index).getD 0) blocks).load =
      blocks.load := by
    funext p
    cases hp : blocks.load p <;> simp [renumber, hp]
  rwa [hload]

namespace Chained

variable {files : Heap File} {memories memories' : Heap (CArray UInt8)} {chain : ℕ → List ℕ}
  {f k q : ℕ} {file : File}

section
variable {fl fl' : ℕ → Option File}

theorem ends (h : Chained fl blocks memories chain) (hfile : fl f = some file) :
    (chain f).head? = some file.blockList ∧ (chain f).getLast? = some file.lastBlock := by
  obtain ⟨number, clusters, h⟩ := h
  exact h.ends f file hfile

theorem linked (h : Chained fl blocks memories chain) (f : ℕ) :
    Linked blocks.load Block.next Block.prev (chain f) := by
  obtain ⟨number, clusters, h⟩ := h
  refine (h.linked f).congr fun p _ b hp => ?_
  obtain ⟨b', hb', rfl⟩ := of_load_renumber hp
  exact ⟨b', hb', rfl, rfl⟩

theorem owner (h : Chained fl blocks memories chain) {f g p : ℕ} (hf : p ∈ chain f)
    (hg : p ∈ chain g) : f = g := by
  obtain ⟨number, clusters, h⟩ := h
  exact h.owner f g p hf hg

theorem load_of_mem (h : Chained fl blocks memories chain) (hp : p ∈ chain f) :
    ∃ block, blocks.load p = some block := by
  obtain ⟨i, hi⟩ := List.mem_iff_getElem?.mp hp
  obtain ⟨b, hb, -⟩ := h.linked f i p hi
  exact ⟨b, hb⟩

theorem file_of_mem (h : Chained fl blocks memories chain) (hp : p ∈ chain f) :
    ∃ file, fl f = some file := by
  obtain ⟨number, clusters, h⟩ := h
  cases hf : fl f with
  | some file => exact ⟨file, rfl⟩
  | none =>
    rw [h.dead f hf] at hp
    cases hp

theorem memory_unique (h : Chained fl blocks memories chain) {b b' : Block}
    (hp : blocks.load p = some b) (hq : blocks.load q = some b') (heq : b.memory = b'.memory) :
    p = q := by
  obtain ⟨number, clusters, h⟩ := h
  obtain ⟨f, hf⟩ := h.block_owned p _ (load_renumber hp)
  obtain ⟨g, hg⟩ := h.block_owned q _ (load_renumber hq)
  exact h.memory_unique f g p q _ _ hf hg (load_renumber hp) (load_renumber hq) heq

theorem releasable (h : Chained fl blocks memories chain) {s : List ℕ} (hnodup : s.Nodup)
    (hs : ∀ p ∈ s, p ∈ chain f) : Releasable s blocks memories where
  nodup := hnodup
  live p hp := by
    obtain ⟨number, clusters, h⟩ := h
    obtain ⟨b, m, hb, hm⟩ := h.load_of_mem (hs p hp)
    obtain ⟨b', hb', rfl⟩ := of_load_renumber hb
    exact ⟨b', m, hb', hm⟩
  unique p hp q hq x y hx hy heq := h.memory_unique hx hy heq

theorem freeable {fs : Fs} (h : Chained fl fs.blocks fs.memories chain) (hfile : fl f = some file) :
    Freeable fs file.blockList (chain f) :=
  UserFs.freeable (h.linked f) (h.releasable (h.linked f).nodup fun _ hp => hp) (h.ends hfile).1

theorem congr (h : Chained fl blocks memories chain)
    (hsame : SameFiles (fun file => (file.blockList, file.lastBlock)) fl fl') :
    Chained fl' blocks memories chain := by
  obtain ⟨number, clusters, h⟩ := h
  exact ⟨number, clusters, h.congr hsame⟩

/-- The block is somewhere, and holds something. -/
theorem location {clusters : ℕ → List Cluster}
    (h : Stored fl (renumber number blocks).load memories.load chain clusters)
    (hp : blocks.load p = some block) : ∃ (f k : ℕ) (c : Cluster), (chain f)[k]? = some p ∧
      (clusters f)[k]? = some c := by
  obtain ⟨f, hf⟩ := h.block_owned p _ (load_renumber hp)
  obtain ⟨k, hk⟩ := List.mem_iff_getElem?.mp hf
  obtain ⟨-, c, -, hc, -⟩ := h.block f k p hk
  exact ⟨f, k, c, hk, hc⟩

end

theorem setMemory (h : Chained files.load blocks memories chain) (hp : blocks.load p = some block)
    (m : CArray UInt8) :
    Chained files.load blocks (memories.update block.memory fun _ => m) chain := by
  obtain ⟨number, clusters, h⟩ := h
  obtain ⟨f, k, c, hk, hc⟩ := location h hp
  exact ⟨number, _, h.setMemory hk (load_renumber hp) hc m⟩

theorem setOccupied (h : Chained files.load blocks memories chain) (hp : blocks.load p = some block)
    (o : ℤ → ℤ) :
    Chained files.load (blocks.update p fun b => { b with occupied := o b.occupied }) memories
      chain := by
  obtain ⟨number, clusters, h⟩ := h
  obtain ⟨f, k, c, hk, hc⟩ := location h hp
  have hφ : ∀ b, (renumber number blocks).load p = some b →
      (fun b : Block => { b with occupied := o b.occupied }) b =
        { b with occupied := o block.occupied } := fun b hb => by
    obtain rfl := Option.some.inj ((load_renumber hp).symm.trans hb)
    rfl
  have hstored := h.setOccupied hk hc hφ
  rw [← renumber_update fun _ _ => rfl] at hstored
  exact ⟨number, _, hstored⟩

/-- A block without a successor is the last one of its file. -/
theorem last_of_next (h : Chained files.load blocks memories chain) (hmem : p ∈ chain f)
    (hp : blocks.load p = some block) (hnext : block.next = none) :
    (chain f).getLast? = some p := by
  obtain ⟨i, hi⟩ := List.mem_iff_getElem?.mp hmem
  obtain ⟨b, hb, hbnext, -⟩ := h.linked f i p hi
  obtain rfl := Option.some.inj (hp.symm.trans hb)
  have hle := List.getElem?_eq_none_iff.mp (hbnext.symm.trans hnext)
  have hlt := (List.getElem?_eq_some_iff.mp hi).1
  obtain rfl : i = (chain f).length - 1 := by omega
  rw [List.getLast?_eq_getElem?, hi]

theorem append (h : Chained files.load blocks memories chain) (hfile : files.load f = some file)
    (hp : (chain f).getLast? = some p) (i : ℤ) :
    Chained (files.update f fun file => { file with lastBlock := blocks.next }).load
      ((blocks.malloc ⟨memories.next, 0, none, some p, i⟩).update p
        fun b => { b with next := some blocks.next })
      (memories.malloc (.malloc blockSize))
      (Function.update chain f (chain f ++ [blocks.next])) := by
  obtain ⟨number, clusters, h⟩ := h
  refine ⟨Function.update number blocks.next (chain f).length,
    Function.update clusters f (clusters f ++ [.fresh]), ?_⟩
  rw [renumber_update fun _ _ => rfl, renumber_malloc]
  exact h.append hfile hp rfl

theorem truncate (h : Chained files.load blocks memories chain) (hq : (chain f)[k]? = some q)
    (o : ℤ) (hreleased : Released ((chain f).drop (k + 1)).reverse
      (blocks.update q fun b => { b with occupied := o, next := none }) blocks' memories memories') :
    Chained (files.update f fun file => { file with lastBlock := q }).load blocks' memories'
      (Function.update chain f ((chain f).take (k + 1))) := by
  obtain ⟨number, clusters, h⟩ := h
  have hreleased' := hreleased.renumber number
  rw [renumber_update fun _ _ => rfl] at hreleased'
  exact ⟨number, _, h.truncate hq rfl hreleased'⟩

theorem delete (h : Chained files.load blocks memories chain)
    (hreleased : Released (chain f) blocks blocks' memories memories') :
    Chained (files.erase f).load blocks' memories' (Function.update chain f []) := by
  obtain ⟨number, clusters, h⟩ := h
  exact ⟨number, clusters, h.delete (hreleased.renumber number)⟩

theorem create (h : Chained files.load blocks memories chain) (hfirst : file.blockList = blocks.next)
    (hlast : file.lastBlock = blocks.next) :
    Chained (files.malloc file).load (blocks.malloc ⟨memories.next, 0, none, none, 0⟩)
      (memories.malloc (.malloc blockSize)) (Function.update chain files.next [blocks.next]) := by
  obtain ⟨number, clusters, h⟩ := h
  refine ⟨Function.update number blocks.next 0, Function.update clusters files.next [.fresh], ?_⟩
  rw [renumber_malloc]
  exact h.create hfirst hlast

end Chained

end SystemsProgramming.UserFs

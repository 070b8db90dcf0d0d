import SystemsProgramming.UserFs.Layout
import SystemsProgramming.Foundation.Ownership

/-! The blocks of the files under the changes that reads and writes make: a byte of a memory, the
number of bytes that a block holds, and a new block at the end. What a change does is said of the file
that it is about, and of who owns the blocks and the memories; the other files keep theirs. -/

namespace SystemsProgramming.UserFs

variable {files : Heap File} {blocks : Heap Block} {memories : Heap (CArray UInt8)}
  {chain : ℕ → List ℕ} {clusters : ℕ → List Cluster}

/-- The blocks of one file, in order. -/
structure FileStored (file : Option File) (blocks : ℕ → Option Block)
    (memories : ℕ → Option (CArray UInt8)) (s : List ℕ) (cs : List Cluster) : Prop where
  dead : file = none → s = []
  ends : ∀ x, file = some x → s.head? = some x.blockList ∧ s.getLast? = some x.lastBlock
  length : ∀ x, file = some x → s.length = cs.length
  linked : Linked blocks Block.next Block.prev s
  block : ∀ k p : ℕ, s[k]? = some p → ∃ block c, blocks p = some block ∧ cs[k]? = some c ∧
    block.index = k ∧ block.occupied = c.occupied ∧ memories block.memory = some c.memory

section
variable {fl : ℕ → Option File} {bl bl' : ℕ → Option Block} {ml ml' : ℕ → Option (CArray UInt8)}
  {f g p q : ℕ} {block block' : Block}

/-- Who owns the blocks and the memories. -/
abbrev BlocksOwned (chain : ℕ → List ℕ) (blocks : ℕ → Option Block)
    (memories : ℕ → Option (CArray UInt8)) : Prop :=
  Owns chain (fun p => (blocks p).map Block.memory) fun m => memories m ≠ none

theorem Stored.load_of_mem (h : Stored fl bl ml chain clusters) (hp : p ∈ chain f) :
    ∃ block m, bl p = some block ∧ ml block.memory = some m := by
  obtain ⟨k, hk⟩ := List.mem_iff_getElem?.mp hp
  obtain ⟨block, c, hblock, -, -, -, hmemory⟩ := h.block f k p hk
  exact ⟨block, c.memory, hblock, hmemory⟩

theorem Stored.file (h : Stored fl bl ml chain clusters) (f : ℕ) :
    FileStored (fl f) bl ml (chain f) (clusters f) :=
  ⟨h.dead f, h.ends f, h.length f, h.linked f, h.block f⟩

theorem Stored.owned (h : Stored fl bl ml chain clusters) : BlocksOwned chain bl ml where
  owner := h.owner
  unique p q m hp hq := by
    obtain ⟨block, hblock, rfl⟩ := Option.map_eq_some_iff.mp hp
    obtain ⟨block', hblock', heq⟩ := Option.map_eq_some_iff.mp hq
    obtain ⟨f, hf⟩ := h.block_owned p block hblock
    obtain ⟨g, hg⟩ := h.block_owned q block' hblock'
    exact h.memory_unique f g p q block block' hf hg hblock hblock' heq.symm
  cell p m hp := by
    obtain ⟨block, hblock, -⟩ := Option.map_eq_some_iff.mp hp
    exact h.block_owned p block hblock
  held f p hp := by
    obtain ⟨block, m, hblock, hm⟩ := h.load_of_mem hp
    refine ⟨block.memory, by rw [hblock]; rfl, ?_⟩
    rw [hm]
    rintro ⟨⟩
  owned m hm := by
    obtain ⟨x, hx⟩ := Option.ne_none_iff_exists'.mp hm
    obtain ⟨p, block, hblock, rfl⟩ := h.memory_owned m x hx
    exact ⟨p, by rw [hblock]; rfl⟩

theorem stored_of (hfile : ∀ f, FileStored (fl f) bl ml (chain f) (clusters f))
    (howned : BlocksOwned chain bl ml) : Stored fl bl ml chain clusters where
  dead f := (hfile f).dead
  ends f := (hfile f).ends
  length f := (hfile f).length
  linked f := (hfile f).linked
  block f := (hfile f).block
  owner := howned.owner
  memory_unique _ _ p q block block' _ _ hblock hblock' heq := by
    refine howned.unique p q block.memory ?_ ?_
    · rw [hblock]
      rfl
    · rw [hblock', heq]
      rfl
  block_owned p block hblock := howned.cell p block.memory (by rw [hblock]; rfl)
  memory_owned m x hx := by
    obtain ⟨p, hp⟩ := howned.owned m (by rw [hx]; rintro ⟨⟩)
    obtain ⟨block, hblock, hm⟩ := Option.map_eq_some_iff.mp hp
    exact ⟨p, block, hblock, hm⟩

/-- A file whose blocks are not changed. -/
theorem FileStored.congr {file : Option File} {s : List ℕ} {cs : List Cluster}
    (h : FileStored file bl ml s cs) (hblocks : ∀ p ∈ s, bl' p = bl p)
    (hmemories : ∀ p ∈ s, ∀ block, bl p = some block → ml' block.memory = ml block.memory) :
    FileStored file bl' ml' s cs where
  dead := h.dead
  ends := h.ends
  length := h.length
  linked := h.linked.congr fun p hp block hblock => ⟨block, (hblocks p hp).trans hblock, rfl, rfl⟩
  block k p hp := by
    have hmem := List.mem_of_getElem? hp
    obtain ⟨block, c, hblock, hc, hindex, hoccupied, hm⟩ := h.block k p hp
    exact ⟨block, c, (hblocks p hmem).trans hblock, hc, hindex, hoccupied,
      (hmemories p hmem block hblock).trans hm⟩

/-- A new block stands behind the blocks of a file. -/
theorem FileStored.append {x : File} {s : List ℕ} {cs : List Cluster} {n m : ℕ} {i : ℤ}
    (h : FileStored (some x) bl ml s cs) (hp : s.getLast? = some p) (hi : i = s.length)
    (hnew : bl' n = some ⟨m, 0, none, some p, i⟩)
    (hold : ∀ q b, bl q = some b → bl' q = some (if q = p then { b with next := some n } else b))
    (hfresh : ml' m = some (.malloc blockSize)) (hml : ∀ r c, ml r = some c → ml' r = some c) :
    FileStored (some { x with lastBlock := n }) bl' ml' (s ++ [n]) (cs ++ [.fresh]) := by
  have hlen := h.length x rfl
  refine ⟨by rintro ⟨⟩, ?_, ?_, ?_, fun k q hq => ?_⟩
  · rintro y ⟨⟩
    rw [List.getLast?_concat, List.head?_append, (h.ends x rfl).1]
    exact ⟨rfl, rfl⟩
  · rintro y -
    rw [List.length_append, List.length_append, hlen]
    rfl
  · refine h.linked.append hnew rfl hp.symm fun q _ b hq => ⟨_, hold q b hq, ?_, ?_⟩
    · split_ifs <;> rfl
    · rw [hp]
      by_cases hqp : q = p
      · rw [if_pos hqp, if_pos (congrArg some hqp.symm)]
      · rw [if_neg hqp, if_neg fun heq => hqp (Option.some.inj heq).symm]
  · rcases Nat.lt_or_ge k s.length with hlt | hge
    · rw [List.getElem?_append_left hlt] at hq
      obtain ⟨b, c, hb, hc, hindex, hoccupied, hm⟩ := h.block k q hq
      refine ⟨_, c, hold q b hb, (List.getElem?_append_left (hlen ▸ hlt)).trans hc, ?_, ?_, ?_⟩
      · split_ifs <;> exact hindex
      · split_ifs <;> exact hoccupied
      · split_ifs <;> exact hml _ _ hm
    · obtain rfl : k = s.length := by
        have := (List.getElem?_eq_some_iff.mp hq).1
        rw [List.length_append, List.length_singleton] at this
        omega
      rw [List.getElem?_concat_length] at hq
      obtain rfl : n = q := Option.some.inj hq
      refine ⟨_, .fresh, hnew, ?_, hi, rfl, hfresh⟩
      rw [hlen, List.getElem?_concat_length]

/-- Blocks of two files are not the same, and have not the same memory. -/
theorem Stored.apart (h : Stored fl bl ml chain clusters) (hne : f ≠ g) (hp : p ∈ chain f)
    (hq : q ∈ chain g) (hblock : bl p = some block) (hblock' : bl q = some block') :
    p ≠ q ∧ block.memory ≠ block'.memory := by
  have hpq : p ≠ q := by
    rintro rfl
    exact hne (h.owner f g p hp hq)
  exact ⟨hpq, fun heq => hpq (h.memory_unique f g p q block block' hp hq hblock hblock' heq)⟩

end

/-- A memory is written. -/
theorem Stored.setMemory (h : Stored files.load blocks.load memories.load chain clusters)
    {f k p : ℕ} {block : Block} {c : Cluster} (hp : (chain f)[k]? = some p)
    (hblock : blocks.load p = some block) (hc : (clusters f)[k]? = some c) (m : CArray UInt8) :
    Stored files.load blocks.load (memories.update block.memory fun _ => m).load chain
      (Function.update clusters f ((clusters f).set k { c with memory := m })) := by
  have hmem := List.mem_of_getElem? hp
  refine stored_of (fun g => ?_) (h.owned.congr (fun _ => rfl) fun n => ?_)
  · by_cases hgf : g = f
    · subst hgf
      rw [Function.update_self]
      refine { h.file g with
        length := fun x hx => by rw [List.length_set, h.length g x hx]
        block := fun j q hq => ?_ }
      obtain ⟨block', c', hblock', hc', hindex, hoccupied, hmemory⟩ := h.block g j q hq
      by_cases hjk : k = j
      · subst hjk
        obtain rfl := Option.some.inj (hp.symm.trans hq)
        obtain rfl := Option.some.inj (hblock.symm.trans hblock')
        obtain rfl := Option.some.inj (hc.symm.trans hc')
        exact ⟨block, _, hblock, List.getElem?_set_self (List.getElem?_eq_some_iff.mp hc).1, hindex,
          hoccupied, Heap.load_update_self hmemory _⟩
      · have hne : block'.memory ≠ block.memory := fun heq => by
          obtain rfl := h.memory_unique g g q p block' block (List.mem_of_getElem? hq) hmem hblock'
            hblock heq
          exact hjk ((h.linked g).index_eq hp hq)
        exact ⟨block', c', hblock', (List.getElem?_set_ne hjk).trans hc', hindex, hoccupied,
          (Heap.load_update_ne _ hne).trans hmemory⟩
    · rw [Function.update_of_ne hgf]
      exact (h.file g).congr (fun _ _ => rfl) fun q hq b hb =>
        Heap.load_update_ne _ (h.apart hgf hq hmem hb hblock).2
  · rw [Heap.load_update]
    split_ifs <;> simp

/-- The number of bytes in a block changes. -/
theorem Stored.setOccupied (h : Stored files.load blocks.load memories.load chain clusters)
    {f k p : ℕ} {c : Cluster} (hp : (chain f)[k]? = some p) (hc : (clusters f)[k]? = some c)
    {φ : Block → Block} {o : ℤ} (hφ : ∀ block, blocks.load p = some block →
      φ block = { block with occupied := o }) :
    Stored files.load (blocks.update p φ).load memories.load chain
      (Function.update clusters f ((clusters f).set k { c with occupied := o })) := by
  have hmem := List.mem_of_getElem? hp
  obtain ⟨last, -, hlast, -⟩ := h.load_of_mem hmem
  refine stored_of (fun g => ?_) (h.owned.congr (fun q => ?_) fun _ => Iff.rfl)
  · by_cases hgf : g = f
    · subst hgf
      rw [Function.update_self]
      refine { h.file g with
        length := fun x hx => by rw [List.length_set, h.length g x hx]
        linked := (h.linked g).congr fun q _ block hq => ?_
        block := fun j q hq => ?_ }
      · by_cases hqp : q = p
        · subst hqp
          exact ⟨_, Heap.load_update_self hq φ, by rw [hφ block hq], by rw [hφ block hq]⟩
        · exact ⟨block, (Heap.load_update_ne φ hqp).trans hq, rfl, rfl⟩
      · obtain ⟨block, c', hblock, hc', hindex, hoccupied, hmemory⟩ := h.block g j q hq
        by_cases hjk : k = j
        · subst hjk
          obtain rfl := Option.some.inj (hp.symm.trans hq)
          obtain rfl := Option.some.inj (hc.symm.trans hc')
          refine ⟨_, _, Heap.load_update_self hblock φ,
            List.getElem?_set_self (List.getElem?_eq_some_iff.mp hc).1, ?_⟩
          rw [hφ block hblock]
          exact ⟨hindex, rfl, hmemory⟩
        · have hqp : q ≠ p := by
            rintro rfl
            exact hjk ((h.linked g).index_eq hp hq)
          exact ⟨block, c', (Heap.load_update_ne φ hqp).trans hblock,
            (List.getElem?_set_ne hjk).trans hc', hindex, hoccupied, hmemory⟩
    · rw [Function.update_of_ne hgf]
      refine (h.file g).congr (fun q hq => Heap.load_update_ne φ ?_) fun _ _ _ _ => rfl
      rintro rfl
      exact hgf (h.owner g f q hq hmem)
  · rw [Heap.load_update]
    split_ifs with hqp
    · rw [hqp, hlast, Option.map_some, Option.map_some, hφ last hlast]
      rfl
    · rfl

/-- A new block behind the last one. -/
theorem Stored.append (h : Stored files.load blocks.load memories.load chain clusters) {f p : ℕ}
    {file : File} (hfile : files.load f = some file) (hp : (chain f).getLast? = some p) {i : ℤ}
    (hi : i = (chain f).length) :
    Stored (files.update f fun file => { file with lastBlock := blocks.next }).load
      ((blocks.malloc ⟨memories.next, 0, none, some p, i⟩).update p
        fun b => { b with next := some blocks.next }).load
      (memories.malloc (.malloc blockSize)).load
      (Function.update chain f (chain f ++ [blocks.next]))
      (Function.update clusters f (clusters f ++ [.fresh])) := by
  have hmem : p ∈ chain f := List.mem_of_getLast? hp
  obtain ⟨last, -, hlast, -⟩ := h.load_of_mem hmem
  have hnew : ((blocks.malloc ⟨memories.next, 0, none, some p, i⟩).update p
      fun b => { b with next := some blocks.next }).load blocks.next =
        some ⟨memories.next, 0, none, some p, i⟩ := by
    rw [Heap.load_update_ne _ (Heap.ne_next hlast).symm, Heap.load_malloc, if_pos rfl]
  have hold : ∀ {q b}, blocks.load q = some b →
      ((blocks.malloc ⟨memories.next, 0, none, some p, i⟩).update p
        fun b => { b with next := some blocks.next }).load q =
          some (if q = p then { b with next := some blocks.next } else b) := fun {q b} hq => by
    rw [Heap.load_update, Heap.load_malloc_of_load hq]
    split_ifs <;> rfl
  refine stored_of (fun g => ?_) (h.owned.add (i := f) (k := blocks.next) (r := memories.next) ?_ ?_
    (fun g q => ?_) (fun q => ?_) fun m => ?_)
  · by_cases hgf : g = f
    · subst hgf
      rw [Function.update_self, Function.update_self, Heap.load_update, if_pos rfl, hfile,
        Option.map_some]
      refine (hfile ▸ h.file g).append hp hi hnew (fun q b => hold) ?_ fun r c hr =>
        Heap.load_malloc_of_load hr _
      rw [Heap.load_malloc, if_pos rfl]
    · rw [Function.update_of_ne hgf, Function.update_of_ne hgf, Heap.load_update_ne _ hgf]
      refine (h.file g).congr (fun q hq => ?_) fun q hq b hb => ?_
      · obtain ⟨b, -, hb, -⟩ := h.load_of_mem hq
        have hqp : q ≠ p := by
          rintro rfl
          exact hgf (h.owner g f q hq hmem)
        rw [hold hb, if_neg hqp, hb]
      · obtain ⟨b', m, hb', hm⟩ := h.load_of_mem hq
        obtain rfl := Option.some.inj (hb.symm.trans hb')
        rw [Heap.load_malloc_of_load hm, hm]
  · rw [blocks.fresh _ le_rfl]
    rfl
  · rw [memories.fresh _ le_rfl]
    exact fun hne => hne rfl
  · by_cases hgf : g = f
    · rw [hgf, Function.update_self]
      simp
    · rw [Function.update_of_ne hgf]
      simp [hgf]
  · by_cases hq : q = blocks.next
    · rw [if_pos hq, hq, hnew]
      rfl
    · rw [if_neg hq, Heap.load_update, Heap.load_malloc, if_neg hq]
      split_ifs
      · cases blocks.load q <;> rfl
      · rfl
  · rw [Heap.load_malloc]
    split_ifs with hm
    · simp [hm]
    · simp [hm]

end SystemsProgramming.UserFs

import SystemsProgramming.UserFs.Blocks

/-! Blocks that are freed together with their memories: forwards along a whole chain when a file is
deleted, and backwards from the end of it when a file shrinks. -/

namespace SystemsProgramming.UserFs

variable {blocks blocks' : Heap Block} {memories memories' : Heap (CArray UInt8)}

/-- The blocks can be freed one after the other. -/
structure Releasable (s : List ℕ) (blocks : Heap Block) (memories : Heap (CArray UInt8)) : Prop where
  nodup : s.Nodup
  live : ∀ p ∈ s, ∃ block m, blocks.load p = some block ∧ memories.load block.memory = some m
  unique : ∀ p ∈ s, ∀ q ∈ s, ∀ block block', blocks.load p = some block →
    blocks.load q = some block' → block.memory = block'.memory → p = q

/-- The blocks have been freed, and their memories, and no others. -/
structure Released (s : List ℕ) (blocks blocks' : Heap Block)
    (memories memories' : Heap (CArray UInt8)) : Prop where
  block : ∀ p, blocks'.load p = if p ∈ s then none else blocks.load p
  memory : ∀ m, (∀ p ∈ s, ∀ block, blocks.load p = some block → block.memory ≠ m) →
    memories'.load m = memories.load m
  gone : ∀ p ∈ s, ∀ block, blocks.load p = some block → memories'.load block.memory = none

/-- What is released has no owner any more. -/
theorem Released.owned {s : List ℕ} {chain chain' : ℕ → List ℕ}
    (h : Released s blocks blocks' memories memories')
    (howned : BlocksOwned chain blocks.load memories.load)
    (hchain : ∀ f p, p ∈ chain' f ↔ p ∈ chain f ∧ p ∉ s) :
    BlocksOwned chain' blocks'.load memories'.load := by
  refine howned.remove hchain (fun p => ?_) fun m => ?_
  · rw [h.block]
    split_ifs <;> rfl
  · by_cases hm : ∃ p ∈ s, ∃ b, blocks.load p = some b ∧ b.memory = m
    · obtain ⟨p, hp, b, hb, rfl⟩ := hm
      rw [h.gone p hp b hb]
      refine ⟨fun hne => absurd rfl hne, fun hne => absurd ?_ (hne.2 p hp)⟩
      rw [hb]
      rfl
    · rw [h.memory m fun p hp b hb heq => hm ⟨p, hp, b, hb, heq⟩]
      refine (and_iff_left fun p hp hpm => hm ?_).symm
      obtain ⟨b, hb, heq⟩ := Option.map_eq_some_iff.mp hpm
      exact ⟨p, hp, b, hb, heq⟩

/-- Blocks of one file can be. -/
theorem Stored.releasable {files : ℕ → Option File} {chain : ℕ → List ℕ} {clusters : ℕ → List Cluster}
    (h : Stored files blocks.load memories.load chain clusters) {f : ℕ} {s : List ℕ}
    (hnodup : s.Nodup) (hs : ∀ p ∈ s, p ∈ chain f) : Releasable s blocks memories where
  nodup := hnodup
  live p hp := h.load_of_mem (hs p hp)
  unique p hp q hq x y hx hy heq := h.memory_unique f f p q x y (hs p hp) (hs q hq) hx hy heq

theorem Releasable.tail {p : ℕ} {s : List ℕ} {block : Block}
    (h : Releasable (p :: s) blocks memories) (hp : blocks.load p = some block) :
    Releasable s (blocks.erase p) (memories.erase block.memory) := by
  have hnot : ∀ q ∈ s, q ≠ p := fun q hq hqp => (List.nodup_cons.mp h.nodup).1 (hqp ▸ hq)
  constructor
  · exact (List.nodup_cons.mp h.nodup).2
  · intro q hq
    obtain ⟨block', m, hblock', hm⟩ := h.live q (List.mem_cons_of_mem p hq)
    refine ⟨block', m, (Heap.load_erase_ne (hnot q hq)).trans hblock', ?_⟩
    rw [Heap.load_erase_ne, hm]
    intro heq
    exact hnot q hq (h.unique q (List.mem_cons_of_mem p hq) p List.mem_cons_self block' block hblock'
      hp heq)
  · intro q hq q' hq' x y hx hy
    rw [Heap.load_erase_ne (hnot q hq)] at hx
    rw [Heap.load_erase_ne (hnot q' hq')] at hy
    exact h.unique q (List.mem_cons_of_mem p hq) q' (List.mem_cons_of_mem p hq') x y hx hy

theorem released_nil : Released [] blocks blocks memories memories :=
  ⟨fun _ => rfl, fun _ _ => rfl, fun _ hp => absurd hp List.not_mem_nil⟩

theorem Released.cons {p : ℕ} {s : List ℕ} {block : Block}
    (hs : Releasable (p :: s) blocks memories) (hp : blocks.load p = some block)
    (h : Released s (blocks.erase p) blocks' (memories.erase block.memory) memories') :
    Released (p :: s) blocks blocks' memories memories' where
  block q := by
    rw [h.block, Heap.load_erase]
    by_cases hqp : q = p
    · simp [hqp]
    · simp [hqp]
  memory m hm := by
    rw [h.memory, Heap.load_erase_ne]
    · exact (hm p List.mem_cons_self block hp).symm
    · intro q hq x hx
      rw [Heap.load_erase] at hx
      split_ifs at hx
      exact hm q (List.mem_cons_of_mem p hq) x hx
  gone q hq x hx := by
    have hnot : p ∉ s := (List.nodup_cons.mp hs.nodup).1
    rcases List.mem_cons.mp hq with rfl | hqs
    · obtain rfl := Option.some.inj (hp.symm.trans hx)
      rw [h.memory, Heap.load_erase, if_pos rfl]
      intro r hr y hy heq
      rw [Heap.load_erase] at hy
      split_ifs at hy with hrq
      exact hrq (hs.unique r (List.mem_cons_of_mem q hr) q List.mem_cons_self y block hy hp heq)
    · refine h.gone q hqs x ?_
      rw [Heap.load_erase_ne, hx]
      rintro rfl
      exact hnot hqs

/-- `delete_file` frees the blocks of a chain from its first one on. -/
theorem free_forwards {s : List ℕ} (fs : Fs) (h : Releasable s fs.blocks fs.memories)
    (hnext : ∀ i p block, s[i]? = some p → fs.blocks.load p = some block → block.next = s[i + 1]?)
    {fuel : ℕ} (hfuel : s.length < fuel) : ∃ blocks memories,
      iterate Fs.freeBlockStep fuel (fs, s.head?) =
        some ({ fs with blocks := blocks, memories := memories }, none) ∧
      blocks.next = fs.blocks.next ∧ Released s fs.blocks blocks fs.memories memories := by
  induction s generalizing fs fuel with
  | nil =>
    obtain ⟨fuel, rfl⟩ := Nat.exists_eq_succ_of_ne_zero (Nat.ne_of_gt hfuel)
    exact ⟨fs.blocks, fs.memories, rfl, rfl, released_nil⟩
  | cons p s ih =>
    obtain ⟨block, m, hblock, hm⟩ := h.live p List.mem_cons_self
    obtain ⟨fuel, rfl⟩ := Nat.exists_eq_succ_of_ne_zero (Nat.ne_of_gt (Nat.zero_lt_of_lt hfuel))
    have hhead : block.next = s.head? := by
      rw [hnext 0 p block rfl hblock, List.head?_eq_getElem?]
      rfl
    obtain ⟨blocks', memories', hiterate, hnext', hreleased⟩ := ih { fs with
        blocks := fs.blocks.erase p, memories := fs.memories.erase block.memory }
      (h.tail hblock) (fun i q x hq hx => by
        change (fs.blocks.erase p).load q = some x at hx
        rw [Heap.load_erase] at hx
        split_ifs at hx
        exact hnext (i + 1) q x hq hx) (Nat.lt_of_succ_lt_succ hfuel)
    refine ⟨blocks', memories', ?_, hnext', .cons h hblock hreleased⟩
    rw [iterate, List.head?_cons, Fs.freeBlockStep]
    simp only [hblock, Heap.free_eq hm, Heap.free_eq hblock, hhead, Option.bind_eq_bind,
      Option.bind_some, Option.pure_def, hiterate]

/-- A shrinking file frees its blocks from the last one back to the new last one. -/
theorem free_backwards {q : ℕ} {s : List ℕ} (fs : Fs) (h : Releasable s fs.blocks fs.memories)
    (hq : q ∉ s) (hprev : ∀ i p block, s[i]? = some p → fs.blocks.load p = some block →
      block.prev = some (s[i + 1]?.getD q)) {fuel : ℕ} (hfuel : s.length < fuel) :
    ∃ blocks memories, iterate (Fs.removeBlockStep q) fuel (fs, s.head?.getD q) =
        some ({ fs with blocks := blocks, memories := memories }, q) ∧
      blocks.next = fs.blocks.next ∧ Released s fs.blocks blocks fs.memories memories := by
  induction s generalizing fs fuel with
  | nil =>
    obtain ⟨fuel, rfl⟩ := Nat.exists_eq_succ_of_ne_zero (Nat.ne_of_gt hfuel)
    refine ⟨fs.blocks, fs.memories, ?_, rfl, released_nil⟩
    simp [iterate, Fs.removeBlockStep]
  | cons p s ih =>
    obtain ⟨block, m, hblock, hm⟩ := h.live p List.mem_cons_self
    obtain ⟨fuel, rfl⟩ := Nat.exists_eq_succ_of_ne_zero (Nat.ne_of_gt (Nat.zero_lt_of_lt hfuel))
    have hne : p ≠ q := fun hpq => hq (hpq ▸ List.mem_cons_self)
    have hhead : block.prev = some (s.head?.getD q) := by
      rw [hprev 0 p block rfl hblock, List.head?_eq_getElem?]
      rfl
    obtain ⟨blocks', memories', hiterate, hnext', hreleased⟩ := ih { fs with
        blocks := fs.blocks.erase p, memories := fs.memories.erase block.memory }
      (h.tail hblock) (fun hqs => hq (List.mem_cons_of_mem p hqs)) (fun i r x hr hx => by
        change (fs.blocks.erase p).load r = some x at hx
        rw [Heap.load_erase] at hx
        split_ifs at hx
        exact hprev (i + 1) r x hr hx) (Nat.lt_of_succ_lt_succ hfuel)
    refine ⟨blocks', memories', ?_, hnext', .cons h hblock hreleased⟩
    rw [iterate, List.head?_cons, Option.getD_some, Fs.removeBlockStep, if_neg hne]
    simp only [hblock, Heap.free_eq hm, Heap.free_eq hblock, hhead, Option.bind_eq_bind,
      Option.bind_some, Option.pure_def, hiterate]

end SystemsProgramming.UserFs

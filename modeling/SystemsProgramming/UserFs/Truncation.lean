import SystemsProgramming.UserFs.Table
import SystemsProgramming.UserFs.Release

/-! `ufs_resize`: the new last block is found from the end of the chain, the descriptors behind the new
end are moved to it, and the blocks behind it are freed. -/

namespace SystemsProgramming.UserFs

variable {fs : Fs} {l : Layout} {v : Volume}

theorem Releasable.congr {s : List ℕ} {blocks blocks' : Heap Block}
    {memories : Heap (CArray UInt8)} (h : Releasable s blocks memories)
    (hsame : ∀ p ∈ s, blocks'.load p = blocks.load p) : Releasable s blocks' memories where
  nodup := h.nodup
  live p hp := by
    rw [hsame p hp]
    exact h.live p hp
  unique p hp q hq x y hx hy := by
    rw [hsame p hp] at hx
    rw [hsame q hq] at hy
    exact h.unique p hp q hq x y hx hy

/-! ### The new last block -/

/-- The walk back along the chain. -/
theorem Represents.find_newLastBlock (hr : Represents fs l v) {newSize : ℤ} {f k j p : ℕ}
    (hp : (l.chain f)[k]? = some p) (hj : newLastBlock newSize k = some j) {fuel : ℕ}
    (hfuel : k < fuel) : ∃ q, (l.chain f)[j]? = some q ∧
      iterate (fs.newLastBlockStep newSize) fuel p = some q := by
  induction k generalizing p fuel with
  | zero =>
    obtain ⟨fuel, rfl⟩ := Nat.exists_eq_succ_of_ne_zero (Nat.ne_of_gt hfuel)
    obtain ⟨block, -, hblock, -, hindex, -⟩ := hr.stored.block f _ p hp
    have hsmall : ¬int ((0 : ℕ) * blockSize) > newSize := fun hlarge => by
      cases (newLastBlock_zero hlarge).symm.trans hj
    obtain rfl := Option.some.inj ((newLastBlock_here hsmall).symm.trans hj)
    refine ⟨p, hp, ?_⟩
    rw [iterate, Fs.newLastBlockStep, hblock]
    simp only [Option.bind_eq_bind, Option.bind_some, hindex, if_neg hsmall, Option.pure_def]
  | succ k ih =>
    obtain ⟨fuel, rfl⟩ := Nat.exists_eq_succ_of_ne_zero (Nat.ne_of_gt (Nat.zero_lt_of_lt hfuel))
    obtain ⟨block, -, hblock, -, hindex, -⟩ := hr.stored.block f _ p hp
    obtain ⟨block', hblock', -, hprev⟩ := hr.stored.linked f _ p hp
    obtain rfl := Option.some.inj (hblock.symm.trans hblock')
    rw [iterate, Fs.newLastBlockStep, hblock]
    by_cases hlarge : int ((k + 1 : ℕ) * blockSize) > newSize
    · rw [newLastBlock_succ hlarge] at hj
      obtain ⟨q, hq⟩ := Linked.getElem?_pred hp
      obtain ⟨r, hr', hiterate⟩ := ih hq hj (Nat.lt_of_succ_lt_succ hfuel)
      refine ⟨r, hr', ?_⟩
      rw [before, hq] at hprev
      simp only [Option.bind_eq_bind, Option.bind_some, hindex, if_pos hlarge, hprev,
        Option.pure_def, hiterate]
    · obtain rfl := Option.some.inj ((newLastBlock_here hlarge).symm.trans hj)
      refine ⟨p, hp, ?_⟩
      simp only [Option.bind_eq_bind, Option.bind_some, hindex, if_neg hlarge, Option.pure_def]

/-! ### The descriptors behind the new end -/

section
variable {chain : ℕ → List ℕ} {table : List (Option ℕ)} {f k q : ℕ} {o : ℤ}

/-- What the loop over the table relies on: it reads the table and the numbers of the blocks. -/
structure Clampable (fs : Fs) (chain : ℕ → List ℕ) (table : List (Option ℕ)) (f k q : ℕ) : Prop where
  slot : ∀ (i : ℕ) s, table[i]? = some s → fs.slot i = some s
  index : ∀ (g j p : ℕ), (chain g)[j]? = some p → ∃ block, fs.blocks.load p = some block ∧
    block.index = j
  last : (chain f)[k]? = some q

theorem Clampable.descriptors (h : Clampable fs chain table f k q) (descriptors : Heap Filedesc) :
    Clampable { fs with descriptors := descriptors } chain table f k q := ⟨h.slot, h.index, h.last⟩

theorem Clampable.step (hc : Clampable fs chain table f k q) {slots : List (Option Handle)}
    (hopened : Opened fs.descriptors.load chain table slots) {i : ℕ} {x : Option Handle}
    (hx : slots[i]? = some x) : ∃ descriptors,
      fs.clampDescriptor f q o i = some { fs with descriptors := descriptors } ∧
      Opened descriptors.load chain table (slots.set i (x.map (Handle.clamp f k o))) := by
  obtain ⟨s, hs⟩ : ∃ s, table[i]? = some s :=
    ⟨_, List.getElem?_eq_getElem (hopened.length ▸ (List.getElem?_eq_some_iff.mp hx).1)⟩
  cases hopened.slot i s x hs hx with
  | closed =>
    refine ⟨fs.descriptors, ?_, ?_⟩
    · rw [Fs.clampDescriptor, hc.slot i none hs]
      rfl
    · rwa [Option.map_none, set_same hx]
  | @opened d b h hd hb =>
    obtain ⟨block, hblock, hindex⟩ := hc.index _ _ _ hb
    obtain ⟨lastBlock, hlast, hlindex⟩ := hc.index _ _ _ hc.last
    rw [Fs.clampDescriptor, hc.slot i _ hs]
    simp only [hd, hblock, hlast, hindex, hlindex, Option.bind_eq_bind, Option.bind_some,
      Option.map_some, Option.pure_def, Int.ofNat_lt, Int.natCast_inj]
    -- a descriptor that the loop leaves alone
    have hself : h.clamp f k o = h →
        Opened fs.descriptors.load chain table (slots.set i (some (h.clamp f k o))) := fun heq => by
      rwa [heq, set_same hx]
    by_cases hfile : h.file ≠ f
    · rw [if_pos hfile]
      exact ⟨fs.descriptors, rfl, hself (Handle.clamp_self (.inl hfile))⟩
    rw [if_neg hfile]
    by_cases hlt : h.block < k
    · rw [if_pos hlt]
      exact ⟨fs.descriptors, rfl, hself (Handle.clamp_self (.inr (.inl hlt)))⟩
    rw [if_neg hlt]
    by_cases hat : h.block = k ∧ h.offset ≤ o
    · rw [if_pos hat]
      exact ⟨fs.descriptors, rfl, hself (Handle.clamp_self (.inr (.inr hat)))⟩
    rw [if_neg hat, Fs.modifyDescriptor, Heap.modify_eq hd,
      Handle.clamp_moved (not_or.mpr ⟨hfile, not_or.mpr ⟨hlt, hat⟩⟩)]
    have hq : (chain h.file)[k]? = some q := by
      rw [not_not.mp hfile, hc.last]
    exact ⟨_, rfl, hopened.set hs hx (x := { h with block := k, offset := o })
      (Heap.load_update_self hd _) hq fun e he => Heap.load_update_ne _ he⟩

/-- The whole loop. -/
theorem Clampable.loop (hc : Clampable fs chain table f k q) {slots : List (Option Handle)}
    (hopened : Opened fs.descriptors.load chain table slots) {n i : ℕ}
    (hn : i + n = slots.length) : ∃ descriptors,
      Fs.clampDescriptorsFrom f q o n i fs = some { fs with descriptors := descriptors } ∧
      Opened descriptors.load chain table
        (slots.mapIdx fun j x => if i ≤ j then x.map (Handle.clamp f k o) else x) := by
  induction n generalizing fs slots i with
  | zero =>
    refine ⟨fs.descriptors, rfl, ?_⟩
    have hsame : (slots.mapIdx fun j x => if i ≤ j then x.map (Handle.clamp f k o) else x) =
        slots := by
      apply List.ext_getElem?
      intro j
      rw [List.getElem?_mapIdx]
      cases hj : slots[j]? with
      | none => rfl
      | some x =>
        have hlt := (List.getElem?_eq_some_iff.mp hj).1
        rw [Option.map_some, if_neg (by omega)]
    rwa [hsame]
  | succ n ih =>
    obtain ⟨x, hx⟩ : ∃ x, slots[i]? = some x := ⟨_, List.getElem?_eq_getElem (by omega)⟩
    obtain ⟨descriptors, hstep, hopened'⟩ := hc.step (o := o) hopened hx
    obtain ⟨descriptors', hrest, hopened''⟩ := ih (hc.descriptors descriptors) hopened'
      (i := i + 1) (by rw [List.length_set]; omega)
    refine ⟨descriptors', ?_, ?_⟩
    · rw [Fs.clampDescriptorsFrom, hstep]
      exact hrest
    · have hsame : ((slots.set i (x.map (Handle.clamp f k o))).mapIdx fun j x =>
          if i + 1 ≤ j then x.map (Handle.clamp f k o) else x) =
          slots.mapIdx fun j x => if i ≤ j then x.map (Handle.clamp f k o) else x := by
        apply List.ext_getElem?
        intro j
        rw [List.getElem?_mapIdx, List.getElem?_mapIdx]
        by_cases hij : i = j
        · subst hij
          rw [List.getElem?_set_self (List.getElem?_eq_some_iff.mp hx).1, hx]
          simp
        · have hle : i + 1 ≤ j ↔ i ≤ j := by omega
          simp only [List.getElem?_set_ne hij, hle]
      rwa [← hsame]

end

/-! ### The chain -/

/-- The first blocks of a file remain. -/
theorem FileStored.truncate {file : Option File} {bl bl' : ℕ → Option Block}
    {ml ml' : ℕ → Option (CArray UInt8)} {s : List ℕ} {cs : List Cluster}
    (h : FileStored file bl ml s cs) {k q : ℕ} {o : ℤ} (hq : s[k]? = some q)
    (hblock : ∀ p ∈ s.take (k + 1), ∀ b, bl p = some b →
      bl' p = some (if p = q then { b with occupied := o, next := none } else b))
    (hmemory : ∀ p ∈ s.take (k + 1), ∀ b, bl p = some b → ml' b.memory = ml b.memory) :
    FileStored (file.map fun x => { x with lastBlock := q }) bl' ml' (s.take (k + 1))
      (truncate k o cs) := by
  have hklt := (List.getElem?_eq_some_iff.mp hq).1
  refine ⟨fun hdead => ?_, fun x hx => ?_, fun x hx => ?_, ?_, fun j p hp => ?_⟩
  · rw [h.dead (Option.map_eq_none_iff.mp hdead), List.take_nil]
  · obtain ⟨b, hb, rfl⟩ := Option.map_eq_some_iff.mp hx
    refine ⟨?_, ?_⟩
    · rw [← (h.ends b hb).1, List.head?_take, if_neg (Nat.succ_ne_zero k)]
    · rw [List.getLast?_eq_getElem?, List.length_take, Nat.min_eq_left hklt, Nat.succ_sub_one,
        List.getElem?_take_of_lt (Nat.lt_succ_self k), hq]
  · obtain ⟨b, hb, rfl⟩ := Option.map_eq_some_iff.mp hx
    rw [UserFs.truncate, List.length_modify, List.length_take, List.length_take, h.length b hb]
  · refine h.linked.take hq fun p hp b hb => ⟨_, hblock p hp b hb, ?_, ?_⟩
    · split_ifs <;> rfl
    · split_ifs <;> rfl
  · have hp' := List.mem_of_getElem? hp
    rw [List.getElem?_take] at hp
    split_ifs at hp with hlt
    obtain ⟨b, c, hb, hc, hindex, hoccupied, hm⟩ := h.block j p hp
    have hpq : p = q ↔ k = j := by
      constructor
      · rintro rfl
        exact h.linked.index_eq hq hp
      · rintro rfl
        exact Option.some.inj (hp.symm.trans hq)
    refine ⟨_, if k = j then { c with occupied := o } else c, hblock p hp' b hb, ?_, ?_⟩
    · rw [UserFs.truncate, List.getElem?_modify, List.getElem?_take_of_lt hlt, hc]
      rfl
    · have hm' := (hmemory p hp' b hb).trans hm
      by_cases hj : k = j
      · rw [if_pos hj, if_pos (hpq.mpr hj)]
        exact ⟨hindex, rfl, hm'⟩
      · rw [if_neg hj, if_neg fun heq => hj (hpq.mp heq)]
        exact ⟨hindex, hoccupied, hm'⟩

theorem Stored.truncate {files : Heap File} {blocks blocks' : Heap Block}
    {memories memories' : Heap (CArray UInt8)} {chain : ℕ → List ℕ} {clusters : ℕ → List Cluster}
    (h : Stored files.load blocks.load memories.load chain clusters) {f k q : ℕ} {o : ℤ}
    (hq : (chain f)[k]? = some q) {φ : Block → Block}
    (hφ : φ = fun b => { b with occupied := o, next := none })
    (hreleased : Released ((chain f).drop (k + 1)).reverse (blocks.update q φ) blocks' memories
      memories') :
    Stored (files.update f fun file => { file with lastBlock := q }).load blocks'.load memories'.load
      (Function.update chain f ((chain f).take (k + 1)))
      (Function.update clusters f (truncate k o (clusters f))) := by
  have hqf := List.mem_of_getElem? hq
  have hdisjoint : ∀ p ∈ (chain f).take (k + 1), p ∉ (chain f).drop (k + 1) := by
    have hnodup := (h.linked f).nodup
    rw [← List.take_append_drop (k + 1) (chain f)] at hnodup
    exact fun p hp hdrop => (List.nodup_append.mp hnodup).2.2 p hp p hdrop rfl
  have hchain : ∀ g p, p ∈ Function.update chain f ((chain f).take (k + 1)) g ↔
      p ∈ chain g ∧ p ∉ ((chain f).drop (k + 1)).reverse := by
    intro g p
    rw [List.mem_reverse]
    by_cases hgf : g = f
    · subst hgf
      rw [Function.update_self]
      refine ⟨fun hp => ⟨List.mem_of_mem_take hp, hdisjoint p hp⟩, fun ⟨hp, hdrop⟩ => ?_⟩
      rw [← List.take_append_drop (k + 1) (chain g)] at hp
      exact (List.mem_append.mp hp).resolve_right hdrop
    · rw [Function.update_of_ne hgf]
      exact ⟨fun hp => ⟨hp, fun hdrop => hgf (h.owner g f p hp (List.mem_of_mem_drop hdrop))⟩, And.left⟩
  have hupdate : ∀ p, ((blocks.update q φ).load p).map Block.memory = (blocks.load p).map Block.memory := by
    intro p
    rw [Heap.load_update, hφ]
    split_ifs
    · cases blocks.load p <;> rfl
    · rfl
  have hload : ∀ {g p b}, p ∈ Function.update chain f ((chain f).take (k + 1)) g →
      blocks.load p = some b →
      blocks'.load p = some (if p = q then { b with occupied := o, next := none } else b) := by
    intro g p b hp hb
    rw [hreleased.block, if_neg ((hchain g p).mp hp).2, Heap.load_update, hb, hφ]
    split_ifs <;> rfl
  have hmemory : ∀ {g p b}, p ∈ Function.update chain f ((chain f).take (k + 1)) g →
      blocks.load p = some b → memories'.load b.memory = memories.load b.memory := by
    intro g p b hp hb
    refine hreleased.memory _ fun r hr x hx heq => ?_
    have hxm : ((blocks.update q φ).load r).map Block.memory = some b.memory := by rw [hx, ← heq]; rfl
    have hbm : (blocks.load p).map Block.memory = some b.memory := by rw [hb]; rfl
    obtain rfl := h.owned.unique r p b.memory ((hupdate r).symm.trans hxm) hbm
    exact ((hchain g r).mp hp).2 hr
  refine stored_of (fun g => ?_)
    (hreleased.owned (h.owned.congr hupdate fun _ => Iff.rfl) hchain)
  by_cases hgf : g = f
  · subst hgf
    have hmem : ∀ {p}, p ∈ (chain g).take (k + 1) →
        p ∈ Function.update chain g ((chain g).take (k + 1)) g := fun hp => by
      rwa [Function.update_self]
    rw [Function.update_self, Function.update_self, Heap.load_update, if_pos rfl]
    exact (h.file g).truncate hq (fun p hp b => hload (hmem hp)) fun p hp b => hmemory (hmem hp)
  · have hmem : ∀ {p}, p ∈ chain g → p ∈ Function.update chain f ((chain f).take (k + 1)) g :=
      fun hp => by rwa [Function.update_of_ne hgf]
    rw [Function.update_of_ne hgf, Function.update_of_ne hgf, Heap.load_update_ne _ hgf]
    refine (h.file g).congr (fun p hp => ?_) fun p hp b hb => hmemory (hmem hp) hb
    obtain ⟨b, -, hb, -⟩ := h.load_of_mem hp
    have hpq : p ≠ q := by
      rintro rfl
      exact hgf (h.owner g f p hp hqf)
    rw [hload (hmem hp) hb, if_neg hpq, hb]

/-! ### The call -/

theorem Stored.length_le {files : ℕ → Option File} {blocks : Heap Block}
    {memories : ℕ → Option (CArray UInt8)} {chain : ℕ → List ℕ} {clusters : ℕ → List Cluster}
    (h : Stored files blocks.load memories chain clusters) (f : ℕ) :
    (chain f).length ≤ blocks.next :=
  (h.linked f).length_le fun _ _ hp => Heap.lt_next hp

theorem Counted.clamp {files : ℕ → Option File} {slots : List (Option Handle)}
    (h : Counted files slots) (f k : ℕ) (o : ℤ) :
    Counted files (slots.map (Option.map (Handle.clamp f k o))) where
  refs g file hg := by
    rw [h.refs g file hg, tally_map_of_kind]
    intro x _
    cases x with
    | none => rfl
    | some y => rw [Option.map_some, Option.map_some, Option.map_some, Handle.clamp_file]
  marked := h.marked

/-- The blocks of a chain behind the new last one are freed. -/
theorem free_behind (fs : Fs) {blocks : Heap Block} {s : List ℕ} {k q last : ℕ} {φ : Block → Block}
    (hlinked : Linked blocks.load Block.next Block.prev s) (hq : s[k]? = some q)
    (hlast : s.getLast? = some last) (hfs : fs.blocks = blocks.update q φ)
    (hreleasable : Releasable (s.drop (k + 1)).reverse blocks fs.memories) :
    ∃ blocks' memories', iterate (Fs.removeBlockStep q) (blocks.next + 1) (fs, last) =
        some ({ fs with blocks := blocks', memories := memories' }, q) ∧
      blocks'.next = fs.blocks.next ∧
      Released (s.drop (k + 1)).reverse fs.blocks blocks' fs.memories memories' := by
  have hnot : q ∉ (s.drop (k + 1)).reverse := fun hmem =>
    hlinked.not_mem_drop hq (List.mem_reverse.mp hmem)
  have hsame : ∀ p ∈ (s.drop (k + 1)).reverse, fs.blocks.load p = blocks.load p := fun p hp => by
    have hpq : p ≠ q := fun hpq => hnot (hpq ▸ hp)
    rw [hfs, Heap.load_update_ne φ hpq]
  have hhead : (s.drop (k + 1)).reverse.head?.getD q = last := by
    rw [List.head?_reverse, List.getLast?_drop]
    have hlt := (List.getElem?_eq_some_iff.mp hq).1
    split_ifs with hend
    · rw [List.getLast?_eq_getElem?] at hlast
      have hk : s.length - 1 = k := by omega
      rw [hk, hq] at hlast
      exact Option.some.inj hlast
    · rw [hlast]
      rfl
  have hlen : s.length ≤ blocks.next := hlinked.length_le fun _ _ hp => Heap.lt_next hp
  rw [← hhead]
  refine free_backwards fs (hreleasable.congr hsame) hnot (fun i p b hp hb => ?_) ?_
  · rw [hsame p (List.mem_of_getElem? hp)] at hb
    exact hlinked.prev_reverse hq hp hb
  · rw [List.length_reverse, List.length_drop]
    omega

theorem Represents.reduceFileSize (hr : Represents fs l v) {f : ℕ} {file : File} {newSize : ℤ}
    {v' : Volume} (hfile : fs.files.load f = some file)
    (hv : v.reduceFileSize f newSize = some v') :
    ∃ fs' l', fs.reduceFileSize f newSize = some fs' ∧ Represents fs' l' v' := by
  obtain ⟨k, hk, hv⟩ := Option.bind_eq_some_iff.mp hv
  obtain rfl := Option.some.inj hv
  have hlength := hr.stored.length f file hfile
  have hle := hr.stored.length_le f
  have hlast := (hr.stored.ends f file hfile).2
  rw [List.getLast?_eq_getElem?, hlength] at hlast
  have hlt := (List.getElem?_eq_some_iff.mp hlast).1
  obtain ⟨q, hq, hfind⟩ := hr.find_newLastBlock hlast hk
    (show (v.clusters f).length - 1 < fs.blocks.next + 1 by omega)
  obtain ⟨block, -, hblock, -, hindex, -⟩ := hr.stored.block f k q hq
  generalize ho : int (newSize - int (k * blockSize)) = o
  obtain ⟨φ, hφ⟩ : ∃ φ : Block → Block, φ = fun b => { b with occupied := o, next := none } :=
    ⟨_, rfl⟩
  -- the loop over the table
  have hclampable : Clampable { fs with blocks := fs.blocks.update q φ } l.chain l.table f k q := by
    refine ⟨fun i s hs => hr.tabled.slot_eq hs, fun g j p hp => ?_, hq⟩
    obtain ⟨b, c, hb, -, hbindex, -⟩ := hr.stored.block g j p hp
    by_cases hpq : p = q
    · refine ⟨φ b, hpq ▸ Heap.load_update_self (hpq ▸ hb) φ, ?_⟩
      rw [hφ]
      exact hbindex
    · exact ⟨b, (Heap.load_update_ne φ hpq).trans hb, hbindex⟩
  obtain ⟨descriptors, hclamp, hopened⟩ := hclampable.loop (o := o) hr.opened
    (n := v.slots.length) (i := 0) (Nat.zero_add _)
  have hreleasable : Releasable ((l.chain f).drop (k + 1)).reverse fs.blocks fs.memories :=
    hr.stored.releasable (List.nodup_reverse.mpr
      (((hr.stored.linked f).nodup).sublist (List.drop_sublist _ _)))
    fun p hp => List.mem_of_mem_drop (List.mem_reverse.mp hp)
  obtain ⟨blocks', memories', hfree, -, hreleased⟩ := free_behind { fs with
      blocks := fs.blocks.update q φ, descriptors := descriptors } (hr.stored.linked f) hq
    (hr.stored.ends f file hfile).2 rfl hreleasable
  have hstored := hr.stored.truncate hq hφ hreleased
  subst hφ
  refine ⟨{ fs with
      blocks := blocks'
      memories := memories'
      descriptors := descriptors
      files := fs.files.update f fun file => { file with lastBlock := q } },
    ⟨Function.update l.chain f ((l.chain f).take (k + 1)), l.table⟩, ?_, { hr with
      listed := hr.listed.congr (sameFiles_update _ _ fun _ => rfl)
      counted := (hr.counted.clamp f k o).congr (sameFiles_update _ _ fun _ => rfl)
      stored := hstored
      opened := ?_ }⟩
  · have hmod := Heap.modify_eq hblock fun b => { b with occupied := o, next := none }
    rw [← hr.count_eq] at hclamp
    rw [Fs.reduceFileSize, hfile]
    simp only [Option.bind_eq_bind, Option.bind_some, hfind, hblock, hindex, ho, Fs.modifyBlock,
      hmod, Option.map_some, hclamp, Heap.next_update, hfree, Fs.modifyFile, Heap.modify_eq hfile]
  · have hslots : (v.slots.mapIdx fun j x => if 0 ≤ j then x.map (Handle.clamp f k o) else x) =
        v.slots.map (Option.map (Handle.clamp f k o)) := by
      apply List.ext_getElem?
      intro j
      simp
    rw [hslots] at hopened
    refine hopened.mono fun i h b hi hb => ?_
    show (Function.update l.chain f ((l.chain f).take (k + 1)) h.file)[h.block]? = some b
    by_cases hhf : h.file = f
    · obtain ⟨x, -, hx⟩ := List.mem_map.mp (List.mem_of_getElem? hi)
      obtain ⟨y, rfl, hy⟩ := Option.map_eq_some_iff.mp hx
      have hle' : h.block ≤ k := by
        rw [← hy]
        apply Handle.clamp_le
        rw [← Handle.clamp_file f k o y, hy, hhf]
      rw [hhf] at hb ⊢
      rw [Function.update_self, List.getElem?_take_of_lt (Nat.lt_succ_of_le hle'), hb]
    · rw [Function.update_of_ne hhf, hb]

theorem Represents.ufsResize (hr : Represents fs l v) {fd ret : ℤ} {newSize : ℕ} {v' : Volume}
    (hv : v.ufsResize fd newSize = some (ret, v')) :
    ∃ fs' l', fs.ufsResize fd newSize = some (ret, fs') ∧ Represents fs' l' v' := by
  rcases hr.tryGetFileDescriptor fd with ⟨hnone, hget⟩ | ⟨h, d, hsome, hget, -, ho⟩
  · rw [Volume.ufsResize, hnone] at hv
    obtain ⟨rfl, rfl⟩ := Prod.mk.inj (Option.some.inj hv)
    exact ⟨_, l, by rw [Fs.ufsResize, hget]; rfl, hr.throw .noFile⟩
  obtain ⟨b, hd, hb⟩ := ho.descriptor hr
  obtain ⟨file, hfile⟩ := hr.file hb
  rw [Volume.ufsResize, hsome] at hv
  rw [Fs.ufsResize, hget]
  simp only [hd, Option.bind_eq_bind, Option.bind_some]
  by_cases hlarge : maxFileSize ≤ newSize
  · simp only [if_pos hlarge] at hv ⊢
    obtain ⟨rfl, rfl⟩ := Prod.mk.inj (Option.some.inj hv)
    exact ⟨_, l, rfl, hr.throw .noMem⟩
  · simp only [if_neg hlarge] at hv ⊢
    obtain ⟨v₁, hreduce, hv⟩ := Option.map_eq_some_iff.mp hv
    obtain ⟨rfl, rfl⟩ := Prod.mk.inj hv
    obtain ⟨fs', l', hfs', hr'⟩ := hr.reduceFileSize hfile hreduce
    exact ⟨fs', l', by rw [hfs']; rfl, hr'⟩

end SystemsProgramming.UserFs

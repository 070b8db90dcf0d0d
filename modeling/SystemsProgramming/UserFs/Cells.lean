import SystemsProgramming.UserFs.Volume

/-! The bytes of a file by their positions. Under the shape that the blocks of a file have in every
run, a read or write of bytes is told here once, by what it does to the bytes, to the number of blocks
and to the size. -/

namespace SystemsProgramming.UserFs

/-- The byte at a position. -/
def cell (cs : List Cluster) (p : ℕ) : Option UInt8 :=
  cs[p / 512]?.bind fun c => c.memory.cells (p % 512 : ℕ)

/-- How many bytes the last block holds. -/
def tail (cs : List Cluster) : ℤ := (cs.getLast?.map Cluster.occupied).getD 0

/-- The size of a file, as a number. -/
def extent (cs : List Cluster) : ℤ := (cs.length - 1 : ℕ) * blockSize + tail cs

/-- The blocks before the last one are full. -/
def Full (cs : List Cluster) : Prop :=
  ∀ (k : ℕ) (c : Cluster), k + 1 < cs.length → cs[k]? = some c → c.occupied = blockSize

/-- What the blocks of a file look like in every run. -/
structure Shaped (cs : List Cluster) : Prop where
  length : 0 < cs.length
  memory : ∀ c ∈ cs, c.memory.size = blockSize
  tail : 0 ≤ tail cs

theorem blockSize_eq : blockSize = 512 := rfl

theorem shaped_fresh : Shaped [.fresh] where
  length := Nat.one_pos
  memory c hc := by rw [List.mem_singleton.mp hc]; rfl
  tail := Int.le_refl 0

theorem tail_eq_getElem? (cs : List Cluster) :
    tail cs = (cs[cs.length - 1]?.map Cluster.occupied).getD 0 := by
  rw [tail, List.getLast?_eq_getElem?]

theorem tail_set {cs : List Cluster} {k : ℕ} (hk : k < cs.length) (c : Cluster) :
    tail (cs.set k c) = if k + 1 = cs.length then c.occupied else tail cs := by
  rw [tail_eq_getElem?, tail_eq_getElem?, List.length_set]
  by_cases hlast : k + 1 = cs.length
  · rw [if_pos hlast, ← hlast, Nat.add_sub_cancel, List.getElem?_set_self hk]
    rfl
  · rw [if_neg hlast, List.getElem?_set_ne (by omega)]

theorem tail_append (cs : List Cluster) (c : Cluster) : tail (cs ++ [c]) = c.occupied := by
  rw [tail, List.getLast?_concat]
  rfl

theorem cell_set {cs : List Cluster} {k : ℕ} (hk : k < cs.length) (c : Cluster) (q : ℕ) :
    cell (cs.set k c) q = if q / 512 = k then c.memory.cells (q % 512 : ℕ) else cell cs q := by
  rw [cell, cell]
  by_cases hq : q / 512 = k
  · rw [if_pos hq, hq, List.getElem?_set_self hk]
    rfl
  · rw [if_neg hq, List.getElem?_set_ne (Ne.symm hq)]

/-- A new block has no bytes. -/
theorem cell_append_fresh (cs : List Cluster) (q : ℕ) : cell (cs ++ [.fresh]) q = cell cs q := by
  rw [cell, cell]
  rcases Nat.lt_or_ge (q / 512) cs.length with hlt | hge
  · rw [List.getElem?_append_left hlt]
  · rw [List.getElem?_eq_none hge]
    rcases Nat.eq_or_lt_of_le hge with heq | hgt
    · rw [← heq, List.getElem?_concat_length]
      rfl
    · rw [List.getElem?_eq_none]
      rwa [List.length_append, List.length_singleton]

theorem Shaped.append {cs : List Cluster} (h : Shaped cs) : Shaped (cs ++ [.fresh]) where
  length := by rw [List.length_append]; exact Nat.add_pos_right _ Nat.one_pos
  memory c hc := by
    rcases List.mem_append.mp hc with hc | hc
    · exact h.memory c hc
    · rw [List.mem_singleton.mp hc]
      rfl
  tail := by rw [tail_append]; exact Int.le_refl 0

theorem Shaped.last {cs : List Cluster} (h : Shaped cs) :
    ∃ c, cs[cs.length - 1]? = some c ∧ c.occupied = UserFs.tail cs := by
  have hlt : cs.length - 1 < cs.length := Nat.sub_one_lt (Nat.ne_of_gt h.length)
  refine ⟨_, List.getElem?_eq_getElem hlt, ?_⟩
  rw [tail_eq_getElem?, List.getElem?_eq_getElem hlt]
  rfl

/-! ### A cursor -/

namespace Cursor

/-- A cursor is at a byte of a block, written or not. -/
structure Formed (c : Cursor) : Prop where
  shaped : Shaped c.clusters
  block : c.block < c.clusters.length
  nonneg : 0 ≤ c.offset
  lt : c.offset < 512

def pos (c : Cursor) : ℕ := c.block * 512 + c.offset.toNat

variable {c c' : Cursor} {byte : UInt8}

theorem Formed.pos_eq (h : c.Formed) : (c.pos : ℤ) = c.block * 512 + c.offset := by
  have := h.nonneg
  rw [pos]
  omega

theorem Formed.pos_iff (h : c.Formed) (q : ℕ) :
    q = c.pos ↔ q / 512 = c.block ∧ ((q % 512 : ℕ) : ℤ) = c.offset := by
  have hpos := h.pos_eq
  have := h.nonneg
  have := h.lt
  omega

/-- The cursor is at the end of the file. -/
theorem Formed.end_iff (h : c.Formed) : (c.block + 1 = c.clusters.length ∧
    c.offset = tail c.clusters) ↔ (c.pos : ℤ) = extent c.clusters := by
  have hpos := h.pos_eq
  have := h.lt
  have := h.block
  have := h.shaped.tail
  rw [extent, blockSize_eq]
  omega

/-- What a write of one byte does. -/
structure Put (c : Cursor) (byte : UInt8) (c' : Cursor) : Prop where
  formed : c'.Formed
  block : c'.block = c.block
  offset : c'.offset = c.offset
  length : c'.clusters.length = c.clusters.length
  cell : ∀ q, cell c'.clusters q = if q = c.pos then some byte else cell c.clusters q
  extent : extent c'.clusters =
    if (c.pos : ℤ) = extent c.clusters then extent c.clusters + 1 else extent c.clusters
  occupied : ∀ k, k + 1 < c.clusters.length →
    c'.clusters[k]?.map Cluster.occupied = c.clusters[k]?.map Cluster.occupied

theorem Formed.put (h : c.Formed) (byte : UInt8) : ∃ c', c.put byte = some c' ∧ Put c byte c' := by
  obtain ⟨cluster, hcluster⟩ : ∃ cluster, c.clusters[c.block]? = some cluster :=
    ⟨_, List.getElem?_eq_getElem h.block⟩
  have hsize := h.shaped.memory cluster (List.mem_of_getElem? hcluster)
  have hset : cluster.memory.set c.offset byte = some (cluster.memory.put c.offset byte) :=
    CArray.set_eq byte h.nonneg (hsize ▸ h.lt)
  obtain ⟨o, ho⟩ : ∃ o, o = if c.block + 1 = c.clusters.length ∧ c.offset = cluster.occupied
    then cluster.occupied + 1 else cluster.occupied := ⟨_, rfl⟩
  have hlast : c.block + 1 = c.clusters.length → cluster.occupied = tail c.clusters := fun heq => by
    rw [tail_eq_getElem?, ← heq, Nat.add_sub_cancel, hcluster]
    rfl
  have htail : tail (c.clusters.set c.block ⟨cluster.memory.put c.offset byte, o⟩) =
      if (c.pos : ℤ) = UserFs.extent c.clusters then tail c.clusters + 1 else tail c.clusters := by
    rw [tail_set h.block]
    by_cases heq : c.block + 1 = c.clusters.length
    · rw [if_pos heq, ho, hlast heq]
      exact if_congr h.end_iff rfl rfl
    · rw [if_neg heq, if_neg fun hend => heq (h.end_iff.mpr hend).1]
  have hformed : Shaped (c.clusters.set c.block ⟨cluster.memory.put c.offset byte, o⟩) := by
    refine ⟨by rw [List.length_set]; exact h.shaped.length, fun x hx => ?_, ?_⟩
    · rcases List.mem_or_eq_of_mem_set hx with hx | rfl
      · exact h.shaped.memory x hx
      · exact hsize
    · have := h.shaped.tail
      rw [htail]
      split_ifs <;> omega
  refine ⟨{ c with clusters := c.clusters.set c.block ⟨cluster.memory.put c.offset byte, o⟩ }, ?_,
    ⟨hformed, by rw [List.length_set]; exact h.block, h.nonneg, h.lt⟩, rfl, rfl, List.length_set ..,
    fun q => ?_, ?_, fun k hk => ?_⟩
  · simp only [Cursor.put, hcluster, hset, Option.bind_eq_bind, Option.bind_some, Option.pure_def, ho]
  · rw [cell_set h.block]
    have hpos := h.pos_iff q
    by_cases hq : q / 512 = c.block
    · rw [if_pos hq, CArray.cells_put, UserFs.cell, hq, hcluster]
      exact if_congr (by rw [hpos]; simp [hq]) rfl rfl
    · rw [if_neg hq, if_neg fun heq => hq (hpos.mp heq).1]
  · rw [UserFs.extent, List.length_set, htail, UserFs.extent]
    split_ifs <;> omega
  · by_cases hkb : k = c.block
    · subst hkb
      rw [List.getElem?_set_self h.block, hcluster, ho, if_neg fun hend => Nat.ne_of_lt hk hend.1]
      rfl
    · rw [List.getElem?_set_ne (Ne.symm hkb)]

/-- What the step to the next byte does. -/
structure Moved (c c' : Cursor) : Prop where
  formed : c'.Formed
  pos : c'.pos = c.pos + 1
  length : c'.clusters.length = max c.clusters.length ((c.pos + 1) / 512 + 1)
  cell : ∀ q, cell c'.clusters q = cell c.clusters q
  extent : extent c'.clusters =
    if c.pos + 1 = c.clusters.length * 512 then (c.pos + 1 : ℤ) else extent c.clusters
  clusters : ∀ k, k < c.clusters.length → c'.clusters[k]? = c.clusters[k]?

theorem formed_mk {cs : List Cluster} {b : ℕ} {o : ℤ} (hcs : Shaped cs) (hb : b < cs.length)
    (h0 : 0 ≤ o) (h1 : o < 512) : Formed ⟨cs, b, o⟩ := ⟨hcs, hb, h0, h1⟩

theorem pos_mk (cs : List Cluster) (b : ℕ) (o : ℤ) : pos ⟨cs, b, o⟩ = b * 512 + o.toNat := rfl

theorem Formed.advance (h : c.Formed) : Moved c c.advance := by
  have hpos := h.pos_eq
  have hnonneg := h.nonneg
  have hlt := h.lt
  have hblock := h.block
  by_cases hend : c.offset + 1 = blockSize
  · rw [blockSize_eq] at hend
    by_cases hlast : c.block + 1 = c.clusters.length
    · have hlen : (c.clusters ++ [Cluster.fresh]).length = c.clusters.length + 1 := by simp
      rw [Cursor.advance_append hend hlast]
      refine ⟨formed_mk h.shaped.append (by omega) (by omega) (by omega), ?_, ?_,
        cell_append_fresh _, ?_, fun k hk => List.getElem?_append_left hk⟩
      · rw [pos_mk]
        omega
      · rw [hlen]
        omega
      · rw [if_pos (by omega), UserFs.extent, tail_append, hlen, blockSize_eq]
        show (_ : ℤ) + 0 = _
        omega
    · rw [Cursor.advance_next hend hlast]
      refine ⟨formed_mk h.shaped (by omega) (by omega) (by omega), ?_, ?_, fun _ => rfl, ?_,
        fun _ _ => rfl⟩
      · rw [pos_mk]
        omega
      · show c.clusters.length = _
        omega
      · rw [if_neg (by omega)]
  · rw [Cursor.advance_inside hend]
    rw [blockSize_eq] at hend
    refine ⟨formed_mk h.shaped hblock (by omega) (by omega), ?_, ?_, fun _ => rfl, ?_,
      fun _ _ => rfl⟩
    · rw [pos_mk]
      omega
    · show c.clusters.length = _
      omega
    · rw [if_neg (by omega)]

theorem Formed.get (h : c.Formed) : c.get = some (cell c.clusters c.pos) := by
  obtain ⟨cluster, hcluster⟩ : ∃ cluster, c.clusters[c.block]? = some cluster :=
    ⟨_, List.getElem?_eq_getElem h.block⟩
  have hsize := h.shaped.memory cluster (List.mem_of_getElem? hcluster)
  obtain ⟨hdiv, hmod⟩ := (h.pos_iff c.pos).mp rfl
  rw [Cursor.get, hcluster, Option.bind_eq_bind, Option.bind_some,
    CArray.peek_eq h.nonneg (hsize ▸ h.lt), cell, hdiv, hcluster, Option.bind_some, hmod]

theorem Put.pos (h : Put c byte c') : c'.pos = c.pos := by rw [Cursor.pos, h.block, h.offset, Cursor.pos]

/-- A byte that is written at the end of the file, or before it, is the last one of a block at most. -/
theorem Put.short (h : Put c byte c') (hc : c.Formed) (htail : tail c.clusters ≤ blockSize)
    (hle : (c.pos : ℤ) ≤ UserFs.extent c.clusters) : tail c'.clusters ≤ blockSize ∧
      UserFs.extent c'.clusters = max (UserFs.extent c.clusters) (c.pos + 1) := by
  have hpos := hc.pos_eq
  have := hc.lt
  have := hc.block
  have hextent := h.extent
  rw [UserFs.extent, UserFs.extent, h.length, blockSize_eq] at hextent
  rw [UserFs.extent, blockSize_eq] at hle
  rw [UserFs.extent, UserFs.extent, h.length, blockSize_eq]
  rw [blockSize_eq] at htail
  split_ifs at hextent <;> omega

theorem Put.full (h : Put c byte c') (hfull : Full c.clusters) : Full c'.clusters := by
  intro k x hk hx
  rw [h.length] at hk
  have hsame := h.occupied k hk
  rw [hx, Option.map_some] at hsame
  obtain ⟨y, hy, hxy⟩ := Option.map_eq_some_iff.mp hsame.symm
  exact hxy.symm.trans (hfull k y hk hy)

/-- A new block is put behind a full one. -/
theorem Moved.short (h : Moved c c') (hc : c.Formed) (htail : tail c.clusters ≤ blockSize)
    (hle : (c.pos + 1 : ℤ) ≤ UserFs.extent c.clusters) : tail c'.clusters ≤ blockSize ∧
      UserFs.extent c'.clusters = UserFs.extent c.clusters := by
  have hextent := h.extent
  have hlength := h.length
  have := hc.shaped.length
  rw [UserFs.extent, UserFs.extent, blockSize_eq] at hextent
  rw [UserFs.extent, blockSize_eq] at hle
  rw [UserFs.extent, UserFs.extent, blockSize_eq]
  rw [blockSize_eq] at htail
  split_ifs at hextent with hend
  · omega
  · have : c'.clusters.length = c.clusters.length := by omega
    omega

theorem Moved.full (h : Moved c c') (hc : c.Formed) (hfull : Full c.clusters)
    (htail : tail c.clusters ≤ blockSize) (hle : (c.pos + 1 : ℤ) ≤ UserFs.extent c.clusters) :
    Full c'.clusters := by
  intro k x hk hx
  have hlength := h.length
  have hpos := hc.pos_eq
  have := hc.lt
  have := hc.block
  rw [UserFs.extent] at hle
  rw [blockSize_eq] at htail hle ⊢
  have hlt : k < c.clusters.length := by omega
  rw [h.clusters k hlt] at hx
  rcases Nat.lt_or_ge (k + 1) c.clusters.length with hbefore | hlast
  · exact hfull k x hbefore hx
  · -- the block that was the last one
    obtain ⟨y, hy, hoccupied⟩ := hc.shaped.last
    have hk' : k = c.clusters.length - 1 := by omega
    obtain rfl := Option.some.inj (hx.symm.trans (hk' ▸ hy))
    omega

/-! ### The loops -/

/-- The size of a file after `n` bytes have been written at a position: an append makes it grow, and so
does a new block. -/
def grown (length : ℕ) (size : ℤ) (p n : ℕ) : ℤ :=
  if length * 512 ≤ p + n then (p + n : ℤ) else if p ≤ size then max size (p + n) else size

theorem grown_succ {length length' : ℕ} {size size₁ size₂ : ℤ} {p : ℕ} (n : ℕ) (hp : p < length * 512)
    (hput : size₁ = if (p : ℤ) = size then size + 1 else size)
    (hnext : size₂ = if p + 1 = length * 512 then (p + 1 : ℤ) else size₁)
    (hlength : length' = max length ((p + 1) / 512 + 1)) :
    grown length' size₂ (p + 1) n = grown length size p (n + 1) := by
  unfold grown
  split_ifs at hput hnext <;> split_ifs <;> omega

/-- What a write does. -/
structure Wrote (c : Cursor) (buf : List UInt8) (c' : Cursor) : Prop where
  formed : c'.Formed
  pos : c'.pos = c.pos + buf.length
  length : c'.clusters.length = max c.clusters.length ((c.pos + buf.length) / 512 + 1)
  cell : ∀ q, cell c'.clusters q =
    if c.pos ≤ q ∧ q < c.pos + buf.length then buf[q - c.pos]? else cell c.clusters q
  extent : extent c'.clusters =
    grown c.clusters.length (extent c.clusters) c.pos buf.length
  full : Full c.clusters → tail c.clusters ≤ blockSize → (c.pos : ℤ) ≤ UserFs.extent c.clusters →
    Full c'.clusters

theorem Formed.pos_lt (h : c.Formed) : c.pos < c.clusters.length * 512 := by
  have hpos := h.pos_eq
  have := h.lt
  have := h.block
  omega

theorem wrote_nil (h : c.Formed) : Wrote c [] c := by
  have hpos := h.pos_eq
  have hlt := h.pos_lt
  have := h.lt
  have := h.block
  refine ⟨h, (Nat.add_zero _).symm, ?_, fun q => ?_, ?_, fun hfull _ _ => hfull⟩
  · show _ = max _ ((c.pos + 0) / 512 + 1)
    omega
  · have hq : ¬(c.pos ≤ q ∧ q < c.pos + 0) := by omega
    exact (if_neg hq).symm
  · rw [grown, List.length_nil]
    split_ifs <;> omega

/-- A byte and the rest of a write. -/
theorem Put.wrote {c₁ : Cursor} {buf : List UInt8} (hc : c.Formed) (hp : Put c byte c₁)
    (hw : Wrote c₁.advance buf c') : Wrote c (byte :: buf) c' := by
  have hm := hp.formed.advance
  have hpos : c₁.advance.pos = c.pos + 1 := hm.pos.trans (congrArg (· + 1) hp.pos)
  have hwpos := hw.pos
  have hlen : (byte :: buf).length = buf.length + 1 := rfl
  have hblocks := hm.length
  rw [hp.pos, hp.length] at hblocks
  refine ⟨hw.formed, by omega, ?_, fun q => ?_, ?_, fun hfull htail hle => ?_⟩
  · rw [hw.length]
    omega
  · rw [hw.cell, hm.cell, hp.cell, hpos, hlen]
    by_cases hq : q = c.pos
    · have hout : ¬(c.pos + 1 ≤ q ∧ q < c.pos + 1 + buf.length) := by omega
      have hin : c.pos ≤ q ∧ q < c.pos + (buf.length + 1) := by omega
      rw [if_neg hout, if_pos hq, if_pos hin, hq, Nat.sub_self]
      rfl
    · have hiff : (c.pos + 1 ≤ q ∧ q < c.pos + 1 + buf.length) ↔
          (c.pos ≤ q ∧ q < c.pos + (buf.length + 1)) := by omega
      rw [if_neg hq]
      refine if_ctx_congr hiff (fun hin => ?_) fun _ => rfl
      have hindex : q - c.pos = q - (c.pos + 1) + 1 := by omega
      rw [hindex, List.getElem?_cons_succ]
  · have hextent := hm.extent
    rw [hp.pos, hp.length] at hextent
    rw [hw.extent, hpos]
    exact grown_succ buf.length hc.pos_lt hp.extent hextent hblocks
  · obtain ⟨htail₁, hextent₁⟩ := hp.short hc htail hle
    have hle₁ : (c₁.pos + 1 : ℤ) ≤ UserFs.extent c₁.clusters := by
      rw [hp.pos]
      omega
    obtain ⟨htail₂, hextent₂⟩ := hm.short hp.formed htail₁ hle₁
    exact hw.full (hm.full hp.formed (hp.full hfull) htail₁ hle₁) htail₂ (by omega)

theorem Wrote.extent_le {buf : List UInt8} (h : Wrote c buf c') :
    UserFs.extent c'.clusters ≤ max (UserFs.extent c.clusters) (c.pos + buf.length) := by
  rw [h.extent, grown]
  split_ifs <;> omega

/-- A write that starts inside a file makes it as large as is needed. -/
theorem Wrote.short {buf : List UInt8} (h : Wrote c buf c') (hc : c.Formed)
    (htail : tail c.clusters ≤ blockSize) (hle : (c.pos : ℤ) ≤ UserFs.extent c.clusters) :
    tail c'.clusters ≤ blockSize ∧
      UserFs.extent c'.clusters = max (UserFs.extent c.clusters) (c.pos + buf.length) := by
  have hlength := h.length
  have := hc.shaped.length
  have hmax : UserFs.extent c'.clusters = max (UserFs.extent c.clusters) (c.pos + buf.length) := by
    rw [h.extent, grown, if_pos hle]
    rw [UserFs.extent, blockSize_eq] at hle ⊢
    rw [blockSize_eq] at htail
    split_ifs <;> omega
  refine ⟨?_, hmax⟩
  rw [UserFs.extent, UserFs.extent, blockSize_eq] at hmax
  rw [UserFs.extent, blockSize_eq] at hle
  rw [blockSize_eq] at htail ⊢
  omega

theorem Formed.writeBytes (h : c.Formed) (buf : List UInt8) :
    ∃ c', c.writeBytes buf = some c' ∧ Wrote c buf c' := by
  induction buf generalizing c with
  | nil => exact ⟨c, rfl, wrote_nil h⟩
  | cons byte buf ih =>
    obtain ⟨c₁, hput, hp⟩ := h.put byte
    obtain ⟨c', hwrite, hw⟩ := ih hp.formed.advance.formed
    refine ⟨c', ?_, hp.wrote h hw⟩
    rw [Cursor.writeBytes, hput]
    exact hwrite

/-- What a read does. -/
structure Read (c : Cursor) (n : ℕ) (bytes : List (Option UInt8)) (c' : Cursor) : Prop where
  formed : c'.Formed
  pos : c'.pos = c.pos + n
  length : c'.clusters.length = max c.clusters.length ((c.pos + n) / 512 + 1)
  cell : ∀ q, cell c'.clusters q = cell c.clusters q
  bytes : bytes = (List.range n).map fun i => UserFs.cell c.clusters (c.pos + i)
  extent : extent c'.clusters = if c.pos + n < c.clusters.length * 512 then extent c.clusters
    else ((c.pos + n) / 512 * 512 : ℕ)
  same : c.pos + n < c.clusters.length * 512 → c'.clusters = c.clusters
  full : Full c.clusters → tail c.clusters ≤ blockSize →
    (c.pos + n : ℤ) ≤ UserFs.extent c.clusters → Full c'.clusters

theorem read_nil (h : c.Formed) : Read c 0 [] c := by
  have hpos := h.pos_eq
  have := h.lt
  have := h.block
  have hinside : c.pos + 0 < c.clusters.length * 512 := by omega
  refine ⟨h, (Nat.add_zero _).symm, ?_, fun _ => rfl, rfl, (if_pos hinside).symm, fun _ => rfl,
    fun hfull _ _ => hfull⟩
  omega

theorem Read.extent_le {n : ℕ} {bytes : List (Option UInt8)} (h : Read c n bytes c') :
    UserFs.extent c'.clusters ≤ max (UserFs.extent c.clusters) (c.pos + n) := by
  rw [h.extent]
  split_ifs <;> omega

/-- A read that stays inside a file keeps its size. -/
theorem Read.short {n : ℕ} {bytes : List (Option UInt8)} (h : Read c n bytes c') (hc : c.Formed)
    (htail : tail c.clusters ≤ blockSize) (hle : (c.pos + n : ℤ) ≤ UserFs.extent c.clusters) :
    tail c'.clusters ≤ blockSize ∧ UserFs.extent c'.clusters = UserFs.extent c.clusters := by
  have hlength := h.length
  have := hc.shaped.length
  have hsame : UserFs.extent c'.clusters = UserFs.extent c.clusters := by
    rw [h.extent]
    rw [UserFs.extent, blockSize_eq] at hle ⊢
    rw [blockSize_eq] at htail
    split_ifs <;> omega
  refine ⟨?_, hsame⟩
  rw [UserFs.extent, UserFs.extent, blockSize_eq] at hsame
  rw [UserFs.extent, blockSize_eq] at hle
  rw [blockSize_eq] at htail ⊢
  omega

/-- A byte and the rest of a read. -/
theorem Formed.read {n : ℕ} {bytes : List (Option UInt8)} (hc : c.Formed)
    (hr : Read c.advance n bytes c') : Read c (n + 1) (UserFs.cell c.clusters c.pos :: bytes) c' := by
  have hm := hc.advance
  have hpos := hm.pos
  have hrpos := hr.pos
  have hblocks := hm.length
  have hextent := hm.extent
  refine ⟨hr.formed, by omega, ?_, fun q => (hr.cell q).trans (hm.cell q), ?_, ?_, fun hlt => ?_,
    fun hfull htail hle => ?_⟩
  · rw [hr.length]
    omega
  · rw [List.range_succ_eq_map, List.map_cons, List.map_map, hr.bytes, hpos,
      Nat.add_zero c.pos]
    refine congrArg (List.cons _) (List.map_congr_left fun i _ => ?_)
    rw [hm.cell, Function.comp_apply, Nat.add_right_comm, Nat.add_assoc]
  · have hblock := hc.block
    have hpos' := hc.pos_eq
    have := hc.lt
    have hrextent := hr.extent
    rw [hpos] at hrextent
    have hsum : c.pos + 1 + n = c.pos + (n + 1) := by omega
    rw [hsum, hblocks] at hrextent
    rw [hrextent]
    split_ifs at hextent ⊢ <;> omega
  · have hblock := hc.block
    have hlast : c.offset + 1 = blockSize → c.block + 1 ≠ c.clusters.length := by
      have := hc.pos_eq
      rw [blockSize_eq]
      omega
    have hsame : c.advance.clusters = c.clusters := by
      by_cases hend : c.offset + 1 = blockSize
      · rw [Cursor.advance_next hend (hlast hend)]
      · rw [Cursor.advance_inside hend]
    rw [hr.same (by rw [hsame]; omega), hsame]
  · have hle₁ : (c.pos + 1 : ℤ) ≤ UserFs.extent c.clusters := by omega
    obtain ⟨htail₁, hextent₁⟩ := hm.short hc htail hle₁
    exact hr.full (hm.full hc hfull htail hle₁) htail₁ (by omega)

theorem Formed.readBytes (h : c.Formed) (n : ℕ) :
    ∃ bytes c', c.readBytes n = some (bytes, c') ∧ Read c n bytes c' := by
  induction n generalizing c with
  | zero => exact ⟨[], c, rfl, read_nil h⟩
  | succ n ih =>
    obtain ⟨bytes, c', hread, hr⟩ := ih h.advance.formed
    refine ⟨UserFs.cell c.clusters c.pos :: bytes, c', ?_, h.read hr⟩
    rw [Cursor.readBytes, h.get, Option.bind_eq_bind, Option.bind_some, hread]
    rfl

end Cursor

end SystemsProgramming.UserFs

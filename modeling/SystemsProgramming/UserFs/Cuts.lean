import SystemsProgramming.UserFs.Cells

/-! A resize by what it does to the blocks, the bytes and the size of a file, and to a position in it. -/

namespace SystemsProgramming.UserFs

namespace Volume

/-- The block that a file of some size ends in, if it has so many. -/
def cutBlock (cs : List Cluster) (newSize : ℕ) : ℕ := min (cs.length - 1) (newSize / 512)

/-- The blocks of a file of a new size. -/
def resized (cs : List Cluster) (newSize : ℕ) : List Cluster :=
  truncate (cutBlock cs newSize) (newSize - cutBlock cs newSize * 512 : ℤ) cs

/-- A file gets a new size. -/
def cut (v : Volume) (f newSize : ℕ) : Volume := { v with
  clusters := Function.update v.clusters f (resized (v.clusters f) newSize)
  slots := v.slots.map (Option.map (Handle.clamp f (cutBlock (v.clusters f) newSize)
    (newSize - cutBlock (v.clusters f) newSize * 512 : ℤ))) }

theorem newLastBlock_eq {newSize m : ℕ} (hm : (m : ℤ) * 512 < 2 ^ 31) :
    newLastBlock newSize m = some (min m (newSize / 512)) := by
  have hint : int (m * blockSize) = m * 512 := int_eq (by rw [blockSize_eq]; omega) hm
  by_cases hlarge : int (m * blockSize) > newSize
  · rw [hint] at hlarge
    cases m with
    | zero => omega
    | succ m =>
      rw [newLastBlock_succ (by rw [hint]; exact hlarge), newLastBlock_eq (by omega)]
      exact congrArg some (by omega)
  · rw [newLastBlock_here hlarge]
    rw [hint] at hlarge
    exact congrArg some (by omega)

section Cut
variable {cs : List Cluster} {newSize : ℕ}

theorem getElem?_truncate {k : ℕ} (o : ℤ) (hk : k < cs.length) (j : ℕ) :
    (truncate k o cs)[j]? = if j ≤ k then cs[j]?.map fun c =>
      if j = k then { c with occupied := o } else c else none := by
  rw [truncate, List.getElem?_modify]
  by_cases hj : j ≤ k
  · rw [List.getElem?_take_of_lt (Nat.lt_succ_of_le hj), if_pos hj]
    refine congrArg (fun φ => Option.map φ cs[j]?) (funext fun c => ?_)
    exact if_congr eq_comm rfl rfl
  · rw [List.getElem?_eq_none (by rw [List.length_take]; omega), if_neg hj]
    rfl

theorem length_truncate {k : ℕ} (o : ℤ) (hk : k < cs.length) : (truncate k o cs).length = k + 1 := by
  rw [truncate, List.length_modify, List.length_take]
  omega

theorem cutBlock_lt (hcs : Shaped cs) (newSize : ℕ) : cutBlock cs newSize < cs.length := by
  have := hcs.length
  rw [cutBlock]
  omega

theorem length_resized (hcs : Shaped cs) (newSize : ℕ) :
    (resized cs newSize).length = cutBlock cs newSize + 1 := length_truncate _ (cutBlock_lt hcs newSize)

theorem cell_resized (hcs : Shaped cs) (newSize q : ℕ) : cell (resized cs newSize) q =
    if q / 512 ≤ cutBlock cs newSize then cell cs q else none := by
  rw [cell, resized, getElem?_truncate _ (cutBlock_lt hcs newSize)]
  by_cases hq : q / 512 ≤ cutBlock cs newSize
  · rw [if_pos hq, if_pos hq, cell]
    cases cs[q / 512]? with
    | none => rfl
    | some c =>
      simp only [Option.map_some, Option.bind_some]
      split_ifs <;> rfl
  · rw [if_neg hq, if_neg hq]
    rfl

theorem tail_resized (hcs : Shaped cs) (newSize : ℕ) :
    UserFs.tail (resized cs newSize) = newSize - cutBlock cs newSize * 512 := by
  have hlt := cutBlock_lt hcs newSize
  rw [tail_eq_getElem?, length_resized hcs, Nat.add_sub_cancel, resized, getElem?_truncate _ hlt,
    if_pos (Nat.le_refl _), List.getElem?_eq_getElem hlt]
  simp

theorem extent_resized (hcs : Shaped cs) (newSize : ℕ) :
    UserFs.extent (resized cs newSize) = newSize := by
  rw [UserFs.extent, tail_resized hcs, length_resized hcs, blockSize_eq]
  omega

theorem shaped_resized (hcs : Shaped cs) (newSize : ℕ) : Shaped (resized cs newSize) where
  length := by rw [length_resized hcs]; exact Nat.succ_pos _
  memory c hc := by
    obtain ⟨j, hj⟩ := List.mem_iff_getElem?.mp hc
    rw [resized, getElem?_truncate _ (cutBlock_lt hcs newSize)] at hj
    by_cases hjk : j ≤ cutBlock cs newSize
    · rw [if_pos hjk] at hj
      obtain ⟨c₀, hc₀, rfl⟩ := Option.map_eq_some_iff.mp hj
      have hsize := hcs.memory c₀ (List.mem_of_getElem? hc₀)
      split_ifs <;> exact hsize
    · rw [if_neg hjk] at hj
      cases hj
  tail := by
    rw [tail_resized hcs, cutBlock]
    omega

theorem full_resized (hcs : Shaped cs) (hfull : Full cs) (newSize : ℕ) : Full (resized cs newSize) := by
  intro j c hj hc
  have hlt := cutBlock_lt hcs newSize
  rw [length_resized hcs] at hj
  rw [resized, getElem?_truncate _ hlt, if_pos (by omega)] at hc
  obtain ⟨c₀, hc₀, rfl⟩ := Option.map_eq_some_iff.mp hc
  rw [if_neg (by omega)]
  exact hfull j c₀ (by omega) hc₀

/-- A descriptor behind the new end of its file is moved to it. -/
theorem clamp_resized {h : Handle} (hh : Cursor.Formed ⟨cs, h.block, h.offset⟩) (newSize : ℕ)
    {x : Handle} (hx : x = h.clamp h.file (cutBlock cs newSize)
      (newSize - cutBlock cs newSize * 512 : ℤ)) :
    Cursor.Formed ⟨resized cs newSize, x.block, x.offset⟩ ∧
      Cursor.pos ⟨resized cs newSize, x.block, x.offset⟩ =
        min (Cursor.pos ⟨cs, h.block, h.offset⟩) newSize := by
  have hpos := hh.pos_eq
  have hnonneg := hh.nonneg
  have hlt := hh.lt
  have hblock := hh.block
  have hlen : (resized cs newSize).length = cutBlock cs newSize + 1 :=
    length_resized hh.shaped newSize
  have hk : cutBlock cs newSize = min (cs.length - 1) (newSize / 512) := rfl
  dsimp only at hpos hnonneg hlt hblock
  rw [Cursor.pos_mk] at hpos ⊢
  by_cases hstay : h.block < cutBlock cs newSize ∨
      (h.block = cutBlock cs newSize ∧ h.offset ≤ newSize - cutBlock cs newSize * 512)
  · rw [Handle.clamp_self (.inr hstay)] at hx
    subst hx
    refine ⟨Cursor.formed_mk (shaped_resized hh.shaped _) (by omega) hnonneg hlt, ?_⟩
    rw [Cursor.pos_mk]
    omega
  · rw [Handle.clamp_moved (by simpa using hstay)] at hx
    subst hx
    refine ⟨Cursor.formed_mk (shaped_resized hh.shaped _) ?_ ?_ ?_, ?_⟩ <;> dsimp only
    · omega
    · omega
    · omega
    · rw [Cursor.pos_mk]
      omega

end Cut

theorem clusters_cut (v : Volume) (f newSize g : ℕ) : (v.cut f newSize).clusters g =
    if g = f then resized (v.clusters f) newSize else v.clusters g := Function.update_apply ..

end Volume

end SystemsProgramming.UserFs

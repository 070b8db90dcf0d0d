import SystemsProgramming.UserFs.Limits

/-! Files without an overfull last block, and with no descriptor behind their ends. All calls keep a
file so, but for a resize that goes beyond its last block. -/

namespace SystemsProgramming.UserFs

namespace Volume

variable {v v' : Volume} {f : ℕ}

/-- The last block of a file is not overfull, and its descriptors are inside it. -/
structure Calm (v : Volume) (f : ℕ) : Prop where
  short : tail (v.clusters f) ≤ blockSize
  inside : ∀ (i : ℕ) (h : Handle), v.slots[i]? = some (some h) → h.file = f →
    ((v.cursor h).pos : ℤ) ≤ extent (v.clusters f)

/-- A resize of a file does not go beyond its last block. -/
def Tame (v : Volume) (f : ℕ) : Op → Prop
  | .resize fd newSize => ∀ h, v.handle fd = some h → h.file = f → (newSize : ℤ) < maxFileSize →
    newSize ≤ (v.clusters f).length * 512
  | _ => True

theorem calm_initial (f : ℕ) : Calm .initial f where
  short := by
    show tail [.fresh] ≤ blockSize
    decide
  inside i h hi := nomatch hi

theorem Calm.seek (hv : v.Calm f) {i : ℕ} {h : Handle} {c : Cursor}
    (hshort : h.file = f → tail c.clusters ≤ blockSize)
    (hle : h.file = f → extent (v.clusters f) ≤ extent c.clusters)
    (hinside : h.file = f → (c.pos : ℤ) ≤ extent c.clusters) : (v.seek i h c).Calm f := by
  constructor
  · rw [clusters_seek]
    split_ifs with hf
    · exact hshort hf.symm
    · exact hv.short
  · intro j x hj hx
    rw [clusters_seek]
    rcases slots_seek hj with ⟨-, rfl⟩ | ⟨-, hj⟩
    · rw [cursor_seek, if_pos (hx.symm : f = h.file)]
      exact hinside hx
    · have hin := hv.inside j x hj hx
      rw [pos_cursor _ v]
      split_ifs with hf
      · exact hin.trans (hle hf.symm)
      · exact hin

theorem Calm.openFile (hv : v.Calm f) (hformed : v.Formed) (g : ℕ) (flags : UInt32) :
    (v.openFile g flags).2.Calm f := by
  refine ⟨hv.short, fun i x hi hx => ?_⟩
  rcases slots_openFile hi with ⟨-, rfl⟩ | ⟨-, hi⟩
  · rw [pos_start]
    exact hformed.extent_nonneg f
  · exact hv.inside i x hi hx

theorem Calm.createFile (hv : v.Calm f) (hformed : v.Formed) (filename : CString) :
    (v.createFile filename).Calm f := by
  refine ⟨?_, fun i x hi hx => ?_⟩
  · rw [clusters_createFile]
    split_ifs
    · exact (calm_initial f).short
    · exact hv.short
  · rw [clusters_createFile, if_neg (hx ▸ Nat.ne_of_lt (hformed.opened i x hi)), pos_cursor _ v]
    exact hv.inside i x hi hx

theorem tail_resized_le {cs : List Cluster} {newSize : ℕ} (hcs : Shaped cs) :
    tail (resized cs newSize) ≤ blockSize ↔ newSize ≤ cs.length * 512 := by
  have := hcs.length
  have hk : cutBlock cs newSize = min (cs.length - 1) (newSize / 512) := rfl
  rw [tail_resized hcs, blockSize_eq]
  omega

/-- A resize puts the descriptors inside the file, wherever they were. -/
theorem Formed.calm_cut (hv : v.Formed) {newSize : ℕ} (hle : newSize ≤ (v.clusters f).length * 512) :
    (v.cut f newSize).Calm f := by
  constructor
  · rw [clusters_cut, if_pos rfl]
    exact (tail_resized_le (hv.shaped f)).mpr hle
  · intro i x hi hx
    obtain ⟨h, hslot, hfile, -, -, hpos⟩ := hv.cut_slot hi
    rw [hpos, clusters_cut, if_pos rfl, if_pos (hfile.symm.trans hx), extent_resized (hv.shaped f)]
    exact_mod_cast Nat.min_le_right _ _

theorem Calm.cut_other (hv : v.Calm f) (hformed : v.Formed) {g : ℕ} (hg : f ≠ g) (newSize : ℕ) :
    (v.cut g newSize).Calm f := by
  constructor
  · rw [clusters_cut, if_neg hg]
    exact hv.short
  · intro i x hi hx
    obtain ⟨h, hslot, hfile, -, -, hpos⟩ := hformed.cut_slot hi
    have hf : h.file = f := hfile.symm.trans hx
    rw [hpos, clusters_cut, if_neg hg, if_neg (hf ▸ hg)]
    exact hv.inside i h hslot hf

/-- The bytes that are read, through a descriptor that is inside its file. -/
theorem Calm.read_le {h : Handle} (hv : v.Calm h.file) {i : ℕ} (hi : v.slots[i]? = some (some h))
    {n size : ℤ} (hn : n = readCount size (extent (v.clusters h.file) - (v.cursor h).pos)) :
    ((v.cursor h).pos : ℤ) + n.toNat ≤ extent (v.clusters h.file) := by
  have hinside := hv.inside i h hi rfl
  rw [readCount_eq] at hn
  omega

theorem Did.calm {op : Op} {out : Out} (hd : v.Did op out v') (hv : v.Calm f) (hformed : v.Formed)
    (htame : v.Tame f op) : v'.Calm f := by
  cases hd with
  | failed => exact ⟨hv.short, hv.inside⟩
  | opened => exact hv.openFile hformed _ _
  | created hlookup => exact (hv.createFile hformed _).openFile (hformed.createFile hlookup) _ _
  | @written _ buf h c hh _ _ hc =>
    have hslot := slot_of_handle hh
    have hpos := hc.pos
    have hshort : h.file = f → tail c.clusters ≤ blockSize ∧
        extent c.clusters = max (extent (v.clusters f)) ((v.cursor h).pos + buf.length) := fun hf => by
      subst hf
      exact hc.short (hformed.cursor _ h hslot) hv.short (hv.inside _ h hslot rfl)
    refine hv.seek (fun hf => (hshort hf).1) (fun hf => ?_) fun hf => ?_
    · have hextent := (hshort hf).2
      omega
    · have hextent := (hshort hf).2
      omega
  | @read _ _ h n _ c hh _ hn hc =>
    have hslot := slot_of_handle hh
    have hpos := hc.pos
    have hshort : h.file = f → tail c.clusters ≤ blockSize ∧
        extent c.clusters = extent (v.clusters f) ∧
        ((v.cursor h).pos : ℤ) + n.toNat ≤ extent (v.clusters f) := fun hf => by
      subst hf
      have hle := hv.read_le hslot hn
      obtain ⟨htail, hextent⟩ := hc.short (hformed.cursor _ h hslot) hv.short hle
      exact ⟨htail, hextent, hle⟩
    refine hv.seek (fun hf => (hshort hf).1) (fun hf => (hshort hf).2.1.ge) fun hf => ?_
    rw [(hshort hf).2.1, hpos]
    exact_mod_cast (hshort hf).2.2
  | closed => exact ⟨hv.short, fun i x hi => hv.inside i x (slots_close hi).2⟩
  | deleted => exact ⟨hv.short, hv.inside⟩
  | @resized _ newSize h hh hlarge =>
    by_cases hf : f = h.file
    · subst hf
      exact hformed.calm_cut (htame h hh rfl hlarge)
    · exact hv.cut_other hformed hf newSize

/-- All files are so, and their blocks but the last are full. -/
structure Regular (v : Volume) : Prop where
  calm : ∀ f, v.Calm f
  full : ∀ f, Full (v.clusters f)

theorem regular_initial : Regular .initial where
  calm := calm_initial
  full _ k c hk _ := by
    have hk' : k + 1 < 1 := hk
    omega

theorem Did.regular {op : Op} {out : Out} (hd : v.Did op out v') (hv : v.Regular)
    (hformed : v.Formed) (htame : ∀ f, v.Tame f op) : v'.Regular := by
  refine ⟨fun f => hd.calm (hv.calm f) hformed (htame f), fun f => ?_⟩
  cases hd with
  | failed | opened | closed | deleted => exact hv.full f
  | @created filename =>
    show Full ((v.createFile filename).clusters f)
    rw [clusters_createFile]
    split_ifs
    · exact regular_initial.full f
    · exact hv.full f
  | @written _ _ h _ hh _ _ hc =>
    rw [clusters_seek]
    split_ifs
    · exact hc.full (hv.full h.file) (hv.calm h.file).short
        ((hv.calm h.file).inside _ h (slot_of_handle hh) rfl)
    · exact hv.full f
  | @read _ _ h _ _ _ hh _ hn hc =>
    rw [clusters_seek]
    split_ifs
    · exact hc.full (hv.full h.file) (hv.calm h.file).short
        ((hv.calm h.file).read_le (slot_of_handle hh) hn)
    · exact hv.full f
  | @resized _ newSize h _ _ =>
    rw [clusters_cut]
    split_ifs
    · exact full_resized (hformed.shaped h.file) (hv.full h.file) newSize
    · exact hv.full f

end Volume

end SystemsProgramming.UserFs

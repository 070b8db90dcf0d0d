import SystemsProgramming.UserFs.Contents
import SystemsProgramming.UserFs.Twins

/-! Bytes that a resize has cut off. They stay in the memory of the last block, behind its `occupied`,
and are not handed out until a resize makes the file larger again without clearing them. -/

namespace SystemsProgramming.UserFs

open Transition

namespace Volume

variable {f : ℕ} {differ differ' : ℕ → Prop} {v v' w w' : Volume} {e e' : Event}

theorem Twins.sharpen (h : Twins f differ v w)
    (hcell : ∀ p, ¬differ' p → differ p → cell (v.clusters f) p = cell (w.clusters f) p) :
    Twins f differ' v w where
  directory := h.directory
  created := h.created
  slots := h.slots
  errno := h.errno
  alike g := by
    refine ⟨(h.alike g).length, (h.alike g).extent, fun p hp => ?_, (h.alike g).unwritten⟩
    by_cases hdiffer : g = f ∧ differ p
    · obtain ⟨rfl, hdiffer⟩ := hdiffer
      exact hcell p (fun hp' => hp ⟨rfl, hp'⟩) hdiffer
    · exact (h.alike g).cell p hdiffer

/-- A resize of a file to more than its size uncovers no byte that has been written. -/
def Clean (v : Volume) (f : ℕ) : Op → Prop
  | .resize fd newSize => ∀ h, v.handle fd = some h → h.file = f → (newSize : ℤ) < maxFileSize →
    ∀ p : ℕ, extent (v.clusters f) ≤ p → p < newSize → cell (v.clusters f) p = none
  | _ => True

/-- All bytes that differ are behind the end of the file. -/
structure Behind (f : ℕ) (v w : Volume) : Prop where
  twins : Twins f (fun p => extent (v.clusters f) ≤ p) v w
  calm : v.Calm f

/-- No byte that differs can be read. -/
inductive Hidden (f : ℕ) (v w : Volume) : Prop
  | equal : Twins f (fun _ => False) v w → Hidden f v w
  | behind : Behind f v w → Hidden f v w

theorem Hidden.twins (h : Hidden f v w) : ∃ differ, Twins f differ v w := by
  cases h with
  | equal ht => exact ⟨_, ht⟩
  | behind hb => exact ⟨_, hb.twins⟩

theorem Behind.of_extent (ht : Twins f (fun p => extent (v.clusters f) ≤ p) v' w')
    (hextent : extent (v'.clusters f) = extent (v.clusters f)) (hcalm : v'.Calm f) : Behind f v' w' := by
  rw [← hextent] at ht
  exact ⟨ht, hcalm⟩

theorem Hidden.out (h : Hidden f v w) (hp : Pair v w e e' v' w') (hop : e.1 = e'.1) : e.2 = e'.2 := by
  obtain ⟨differ, ht, hsame⟩ : ∃ differ, Twins f differ v w ∧ ∀ {fd : ℤ} {x : Handle} {size n : ℤ} {i : ℕ},
      v.handle fd = some x → n = readCount size (extent (v.clusters x.file) - (v.cursor x).pos) →
      i < n.toNat → ¬(x.file = f ∧ differ ((v.cursor x).pos + i)) := by
    cases h with
    | equal ht => exact ⟨_, ht, fun _ _ _ hdiffer => hdiffer.2⟩
    | behind hb =>
      refine ⟨_, hb.twins, ?_⟩
      rintro fd x size n i hx hn hi ⟨rfl, hdiffer⟩
      have hle := hb.calm.read_le (slot_of_handle hx) hn
      omega
  cases hp with
  | failed => rfl
  | opened => rw [Volume.openFile, Volume.openFile, freeSlot, freeSlot, ht.slots, ht.errno]
  | created =>
    show (⟨((freeSlot v : ℕ) : ℤ), v.errno, []⟩ : Out) = ⟨((freeSlot w : ℕ) : ℤ), w.errno, []⟩
    rw [freeSlot, freeSlot, ht.slots, ht.errno]
  | written =>
    cases hop
    rw [ht.errno]
  | @read _ _ x _ _ _ _ _ hx hn hc hd =>
    rw [ht.errno, (ht.alike x.file).bytes (pos_cursor v w x) hc hd fun i hi => hsame hx hn hi]
  | closed => rw [ht.errno]
  | deleted => rw [ht.errno]
  | resized => rw [ht.errno]

/-- A file is resized to where its differing bytes begin, or to less. -/
theorem Twins.hidden_cut {m newSize : ℕ} (ht : Twins f (fun p => m ≤ p) v w) (hv : v.Formed)
    (hw : w.Formed) (hm : newSize ≤ m) : Hidden f (v.cut f newSize) (w.cut f newSize) := by
  have hcut := ht.cut hv hw f newSize
  have hextent : extent ((v.cut f newSize).clusters f) = newSize := by
    rw [clusters_cut, if_pos rfl, extent_resized (hv.shaped f)]
  by_cases hle : newSize ≤ (v.clusters f).length * 512
  · refine .behind ⟨hcut.sharpen fun p hp hdiffer => ?_, hv.calm_cut hle⟩
    rw [hextent] at hp
    omega
  · refine .equal (hcut.sharpen fun p _ hdiffer => ?_)
    have hk : cutBlock (v.clusters f) newSize = min ((v.clusters f).length - 1) (newSize / 512) := rfl
    have hlength := (hv.shaped f).length
    have hout : ¬p / 512 ≤ cutBlock (v.clusters f) newSize := by omega
    rw [clusters_cut, clusters_cut, if_pos rfl, if_pos rfl, cell_resized (hv.shaped f),
      cell_resized (hw.shaped f), ← cutBlock_eq (ht.alike f).length, if_neg hout, if_neg hout]

theorem Behind.resize (hb : Behind f v w) (hv : v.Formed) (hw : w.Formed) {newSize : ℕ}
    (hclean : ∀ p : ℕ, extent (v.clusters f) ≤ p → p < newSize → cell (v.clusters f) p = none) :
    Hidden f (v.cut f newSize) (w.cut f newSize) := by
  refine (hb.twins.sharpen fun p hp hdiffer => ?_ : Twins f (fun p => newSize ≤ p) v w).hidden_cut
    hv hw (Nat.le_refl _)
  have hnone := hclean p hdiffer (not_le.mp hp)
  rw [hnone, ((hb.twins.alike f).unwritten p).mp hnone]

/-- The same call on both keeps the bytes that differ hidden. -/
theorem Hidden.step (h : Hidden f v w) (hp : Pair v w e e' v' w') (hop : e.1 = e'.1)
    (hd : v.Did e.1 e.2 v') (hv : v.Formed) (hw : w.Formed) (hclean : v.Clean f e.1) :
    Hidden f v' w' := by
  have hwrite : ∀ fd buf buf' h, e.1 = .write fd buf → e'.1 = .write fd buf' →
      v.handle fd = some h → ∀ i : ℕ, buf[i]? = buf'[i]? := fun fd buf buf' h he he' _ i => by
    cases he.symm.trans (hop.trans he')
    rfl
  cases h with
  | equal ht =>
    exact .equal (hp.twins ht hv hw fun fd buf buf' h he he' hh i _ => hwrite fd buf buf' h he he' hh i)
  | behind hb =>
    have ht := hp.twins hb.twins hv hw fun fd buf buf' h he he' hh i _ =>
      hwrite fd buf buf' h he he' hh i
    cases hp with
    | failed => exact .behind (.of_extent ht rfl ⟨hb.calm.short, hb.calm.inside⟩)
    | opened => exact .behind (.of_extent ht rfl (hd.calm hb.calm hv trivial))
    | @created filename =>
      refine .behind ⟨ht.sharpen fun p hp hdiffer => absurd ?_ hp, hd.calm hb.calm hv trivial⟩
      show extent ((v.createFile filename).clusters f) ≤ p
      rw [clusters_createFile]
      split_ifs
      · exact Int.natCast_nonneg p
      · exact hdiffer
    | @written _ buf _ x c d hx hlen hc hd' =>
      cases hop
      have hcalm := hd.calm hb.calm hv trivial
      refine .behind ⟨ht.sharpen fun p hp hdiffer => ?_, hcalm⟩
      rw [clusters_seek] at hp ⊢
      split_ifs at hp ⊢ with hf
      · subst hf
        have hslot := slot_of_handle hx
        have hinside := hb.calm.inside _ x hslot rfl
        obtain ⟨-, hextent⟩ := hc.short (hv.cursor _ x hslot) hb.calm.short hinside
        rw [clusters_cursor] at hextent
        have hin : (v.cursor x).pos ≤ p ∧ p < (v.cursor x).pos + buf.length := by omega
        rw [clusters_seek, if_pos rfl, hc.cell, hd'.cell, ← pos_cursor v w, if_pos hin, if_pos hin]
      · exact absurd hdiffer hp
    | @read _ _ x _ _ _ c _ hx hn hc _ =>
      refine .behind (.of_extent ht ?_ (hd.calm hb.calm hv trivial))
      rw [clusters_seek]
      split_ifs with hf
      · subst hf
        have hslot := slot_of_handle hx
        exact (hc.short (hv.cursor _ x hslot) hb.calm.short (hb.calm.read_le hslot hn)).2
      · rfl
    | closed => exact .behind (.of_extent ht rfl (hd.calm hb.calm hv trivial))
    | deleted => exact .behind (.of_extent ht rfl (hd.calm hb.calm hv trivial))
    | @resized _ newSize x hx hlarge =>
      by_cases hf : f = x.file
      · subst hf
        exact hb.resize hv hw (hclean x hx rfl hlarge)
      · refine .behind (.of_extent ht ?_ (hb.calm.cut_other hv hf newSize))
        rw [clusters_cut, if_neg hf]

end Volume

/-! ### In the heaps -/

variable {fs fs' gs gs' : Fs} {v w : Volume}

namespace Fs

/-- Two runs side by side. -/
def Steps (s : Fs × Fs) (e : Event × Event) (t : Fs × Fs) : Prop :=
  s.1.Step e.1 t.1 ∧ s.2.Step e.2 t.2

/-- The same call, but for the bytes that a write puts to a file at a position or behind it. -/
def SameBelow (fs : Fs) (f m : ℕ) (op op' : Op) : Prop :=
  op = op' ∨ ∃ fd buf buf' d p, op = .write fd buf ∧ op' = .write fd buf' ∧
    buf.length = buf'.length ∧ fs.descriptorAt fd = some d ∧ d.file = f ∧
    fs.positionOf d = some p ∧ ∀ i : ℕ, p + i < m → buf[i]? = buf'[i]?

/-- A resize of a file to more than its size uncovers no byte that has been written. -/
def Clean (fs : Fs) (f : ℕ) : Op → Prop
  | .resize fd newSize => ∀ d size, fs.descriptorAt fd = some d → d.file = f →
    fs.sizeOf f = some size → (newSize : ℤ) < maxFileSize →
    ∀ p : ℕ, size ≤ p → p < newSize → fs.byteAt f p = none
  | _ => True

end Fs

theorem Mirrors.clean (h : Mirrors fs v) {f : ℕ} {op : Op} (hclean : fs.Clean f op) :
    v.Clean f op := by
  cases op with
  | resize fd newSize =>
    rintro x hx rfl hlarge p hle hp
    obtain ⟨d, hd, hs⟩ := h.handle hx
    have hsize := hs.size
    rw [hs.file] at hsize
    rw [← hs.byte, hs.file]
    exact hclean d _ hd hs.file hsize hlarge p hle hp
  | _ => trivial

/-- A call on two states with alike volumes. -/
theorem Mirrors.pair (h : Mirrors fs v) (k : Mirrors gs w) {f : ℕ} {differ : ℕ → Prop}
    (ht : Volume.Twins f differ v w) {e e' : Event} (hsame : Volume.SameCall e.1 e'.1) (hfits : fs.Fits e.1)
    (hsteps : Fs.Steps (fs, gs) (e, e') (fs', gs')) : ∃ v' w', Mirrors fs' v' ∧ Mirrors gs' w' ∧
      v.Pair w e e' v' w' ∧ v.Did e.1 e.2 v' := by
  obtain ⟨l, hr⟩ := h.represents
  obtain ⟨l', hr'⟩ := k.represents
  have hvfits := (hr.fits_iff h.formed _).mp hfits
  have hwfits := (hr'.fits_iff k.formed _).mpr (ht.fits hsame hvfits)
  obtain ⟨v', hstep, hd, h'⟩ := h.step hfits hsteps.1
  obtain ⟨w', hstep', hd', k'⟩ := k.step hwfits hsteps.2
  exact ⟨v', w', h', k', ht.pair h.formed k.formed hvfits hsame hstep hstep' hd hd', hd⟩

theorem Mirrors.sameCall (h : Mirrors fs v) {f m : ℕ} {op op' : Op} (hsame : fs.SameBelow f m op op') :
    Volume.SameCall op op' ∧ ∀ fd buf buf' x, op = .write fd buf → op' = .write fd buf' →
      v.handle fd = some x → ∀ i, ¬(x.file = f ∧ m ≤ (v.cursor x).pos + i) → buf[i]? = buf'[i]? := by
  rcases hsame with rfl | ⟨fd, buf, buf', d, p, rfl, rfl, hlen, hd, hfile, hp, hbytes⟩
  · refine ⟨.same, fun fd buf buf' x hop hop' _ i _ => ?_⟩
    cases hop.symm.trans hop'
    rfl
  · refine ⟨.written hlen, fun fd₁ buf₁ buf₁' x hop hop' hx i hi => ?_⟩
    cases hop
    cases hop'
    obtain ⟨y, hy, hs⟩ := h.opened hd
    obtain rfl := Option.some.inj (hx.symm.trans hy)
    obtain rfl := Option.some.inj (hs.position.symm.trans hp)
    refine hbytes i ?_
    have hlt := not_le.mp fun hle => hi ⟨hs.file.symm.trans hfile, hle⟩
    exact_mod_cast hlt

/-- Two runs whose writes differ only in bytes of one file from a position on, in which this file is
then resized to that position or to less, have the same results from there on, as long as no resize to
more than the file's size uncovers bytes that have been written. -/
theorem truncated_gone {f m newSize : ℕ} {fd : ℤ} {d : Filedesc} {es es' : List (Event × Event)}
    {s s₁ s' : Fs × Fs} {out out' : Out}
    (hrun : Run (restrict Fs.Steps fun s e => s.1.Fits e.1.1 ∧ s.1.SameBelow f m e.1.1 e.2.1)
      (.initial, .initial) es s)
    (hd : s.1.descriptorAt fd = some d) (hfile : d.file = f) (hm : newSize ≤ m)
    (hlarge : (newSize : ℤ) < maxFileSize)
    (hcut : Fs.Steps s ((.resize fd newSize, out), (.resize fd newSize, out')) s₁)
    (hlater : Run (restrict Fs.Steps fun s e => s.1.Fits e.1.1 ∧ e.1.1 = e.2.1 ∧ s.1.Clean f e.1.1)
      s₁ es' s') : out = out' ∧ ∀ e ∈ es', e.1 = e.2 := by
  -- up to the resize the two volumes differ in bytes behind the position only
  obtain ⟨v, w, h, k, ht⟩ : ∃ v w, Mirrors s.1 v ∧ Mirrors s.2 w ∧
      Volume.Twins f (fun p => m ≤ p) v w := by
    refine hrun.invariant (I := fun s => ∃ v w, Mirrors s.1 v ∧ Mirrors s.2 w ∧
      Volume.Twins f (fun p => m ≤ p) v w)
      ⟨_, _, mirrors_initial, mirrors_initial, .refl ..⟩ ?_
    rintro s e t ⟨v, w, h, k, ht⟩ ⟨⟨hfits, hsame⟩, hsteps⟩
    obtain ⟨hcall, hbytes⟩ := h.sameCall hsame
    obtain ⟨v', w', h', k', hp, -⟩ := h.pair k ht hcall hfits hsteps
    exact ⟨v', w', h', k', hp.twins ht h.formed k.formed hbytes⟩
  obtain ⟨x, hx, hs⟩ := h.opened hd
  -- the resize hides them
  obtain ⟨hout, v₁, w₁, h₁, k₁, hhidden⟩ : out = out' ∧ ∃ v₁ w₁, Mirrors s₁.1 v₁ ∧ Mirrors s₁.2 w₁ ∧
      Volume.Hidden f v₁ w₁ := by
    have hcall : Volume.SameCall ((.resize fd newSize, out) : Event).1
        ((.resize fd newSize, out') : Event).1 := .same
    have hfits : s.1.Fits (.resize fd newSize) := trivial
    obtain ⟨v₁, w₁, h₁, k₁, hp, hdid⟩ := h.pair k ht hcall hfits hcut
    cases hp with
    | failed =>
      rcases hdid.resize_cases hx with ⟨-, hret, -⟩ | ⟨hrefused, -, -⟩
      · cases hret
      · exact absurd hlarge (not_lt_of_ge hrefused)
    | resized hx' _ =>
      obtain rfl := Option.some.inj (hx.symm.trans hx')
      obtain rfl : x.file = f := hs.file.symm.trans hfile
      exact ⟨by rw [ht.errno], _, _, h₁, k₁, ht.hidden_cut h.formed k.formed hm⟩
  -- and so they stay
  obtain ⟨-, -, -, -, -, hsame⟩ : ∃ v w, Mirrors s'.1 v ∧ Mirrors s'.2 w ∧ Volume.Hidden f v w ∧
      ∀ e ∈ es', e.1 = e.2 := by
    refine hlater.trace_invariant (I := fun es s => ∃ v w, Mirrors s.1 v ∧ Mirrors s.2 w ∧
      Volume.Hidden f v w ∧ ∀ e ∈ es, e.1 = e.2) ⟨v₁, w₁, h₁, k₁, hhidden, fun e he => nomatch he⟩ ?_
    rintro es s e t - ⟨v, w, h, k, hhidden, hsame⟩ ⟨⟨hfits, hop, hclean⟩, hsteps⟩
    obtain ⟨differ, ht⟩ := hhidden.twins
    have hcall : Volume.SameCall e.1.1 e.2.1 := hop ▸ .same
    obtain ⟨v', w', h', k', hp, hdid⟩ := h.pair k ht hcall hfits hsteps
    refine ⟨v', w', h', k', hhidden.step hp hop hdid h.formed k.formed (h.clean hclean), ?_⟩
    intro a ha
    rcases List.mem_append.mp ha with ha | ha
    · exact hsame a ha
    · rw [List.mem_singleton.mp ha]
      exact Prod.ext hop (hhidden.out hp hop)
  exact ⟨hout, hsame⟩

/-- Bytes that differ are cut off, and new ones are written and read. -/
theorem truncated_gone_rewritten : ∃ (s s₁ s' : Fs × Fs) (out out' : Out) (es' : List (Event × Event)),
    Fs.Steps s ((.resize 0 0, out), (.resize 0 0, out')) s₁ ∧ Run Fs.Steps s₁ es' s' ∧
    es'.map (fun e => e.1.1) = [.write 0 [5], .open [102] 0, .read 1 1] ∧
    out = out' ∧ ∀ e ∈ es', e.1 = e.2 := by
  obtain ⟨s, s₁, s', hrun, hd, hcut, hlater⟩ : ∃ s s₁ s' : Fs × Fs,
      Run (restrict Fs.Steps fun s e => s.1.Fits e.1.1 ∧ s.1.SameBelow 0 0 e.1.1 e.2.1)
        (.initial, .initial)
        [((.open [102] ufsCreate, ⟨0, .noErr, []⟩), (.open [102] ufsCreate, ⟨0, .noErr, []⟩)),
          ((.write 0 [1], ⟨1, .noErr, []⟩), (.write 0 [2], ⟨1, .noErr, []⟩))] s ∧
      s.1.descriptorAt 0 = some ⟨0, 0, 0, 1, ufsCreate⟩ ∧
      Fs.Steps s ((.resize 0 0, ⟨0, .noErr, []⟩), (.resize 0 0, ⟨0, .noErr, []⟩)) s₁ ∧
      Run (restrict Fs.Steps fun s e => s.1.Fits e.1.1 ∧ e.1.1 = e.2.1 ∧ s.1.Clean 0 e.1.1) s₁
        [((.write 0 [5], ⟨1, .noErr, []⟩), (.write 0 [5], ⟨1, .noErr, []⟩)),
          ((.open [102] 0, ⟨1, .noErr, []⟩), (.open [102] 0, ⟨1, .noErr, []⟩)),
          ((.read 1 1, ⟨1, .noErr, [some 5]⟩), (.read 1 1, ⟨1, .noErr, [some 5]⟩))] s' := by
    refine ⟨(_, _), (_, _), (_, _), .cons (t := (_, _)) ⟨⟨trivial, .inl rfl⟩, rfl, rfl⟩
      (.single ⟨⟨?_, .inr ?_⟩, rfl, rfl⟩), rfl, ⟨rfl, rfl⟩,
      .cons (t := (_, _)) ⟨⟨?_, rfl, trivial⟩, rfl, rfl⟩
      (.cons (t := (_, _)) ⟨⟨trivial, rfl, trivial⟩, rfl, rfl⟩
      (.single ⟨⟨trivial, rfl, trivial⟩, rfl, rfl⟩))⟩
    · intro d p hd hp _
      cases hd
      cases hp
      decide
    · exact ⟨0, [1], [2], _, 0, rfl, rfl, rfl, rfl, rfl, rfl, fun i hi => absurd hi (by omega)⟩
    · intro d p hd hp _
      cases hd
      cases hp
      decide
  have hsame := truncated_gone hrun hd rfl (Nat.le_refl 0) (by decide) hcut hlater
  exact ⟨s, s₁, s', _, _, _, hcut, hlater.of_restrict, rfl, hsame⟩

/-- A file of one byte is cut and enlarged: the byte is there again. -/
theorem stale_byte : ∃ (es es' : List (Event × Event)) (s s₁ s' : Fs × Fs) (d : Filedesc),
    Run (restrict Fs.Steps fun s e => s.1.Fits e.1.1 ∧ s.1.SameBelow 0 0 e.1.1 e.2.1)
      (.initial, .initial) es s ∧ s.1.descriptorAt 0 = some d ∧ d.file = 0 ∧
    Fs.Steps s ((.resize 0 0, ⟨0, .noErr, []⟩), (.resize 0 0, ⟨0, .noErr, []⟩)) s₁ ∧
    Run (restrict Fs.Steps fun s e => s.1.Fits e.1.1 ∧ e.1.1 = e.2.1) s₁ es' s' ∧
    ¬∀ e ∈ es', e.1 = e.2 := by
  obtain ⟨s, s₁, s', hrun, hd, hcut, hlater⟩ : ∃ s s₁ s' : Fs × Fs,
      Run (restrict Fs.Steps fun s e => s.1.Fits e.1.1 ∧ s.1.SameBelow 0 0 e.1.1 e.2.1)
        (.initial, .initial)
        [((.open [102] ufsCreate, ⟨0, .noErr, []⟩), (.open [102] ufsCreate, ⟨0, .noErr, []⟩)),
          ((.write 0 [1], ⟨1, .noErr, []⟩), (.write 0 [2], ⟨1, .noErr, []⟩))] s ∧
      s.1.descriptorAt 0 = some ⟨0, 0, 0, 1, ufsCreate⟩ ∧
      Fs.Steps s ((.resize 0 0, ⟨0, .noErr, []⟩), (.resize 0 0, ⟨0, .noErr, []⟩)) s₁ ∧
      Run (restrict Fs.Steps fun s e => s.1.Fits e.1.1 ∧ e.1.1 = e.2.1) s₁
        [((.resize 0 1, ⟨0, .noErr, []⟩), (.resize 0 1, ⟨0, .noErr, []⟩)),
          ((.read 0 1, ⟨1, .noErr, [some 1]⟩), (.read 0 1, ⟨1, .noErr, [some 2]⟩))] s' := by
    refine ⟨(_, _), (_, _), (_, _), .cons (t := (_, _)) ⟨⟨trivial, .inl rfl⟩, rfl, rfl⟩
      (.single ⟨⟨?_, .inr ?_⟩, rfl, rfl⟩), rfl, ⟨rfl, rfl⟩,
      .cons (t := (_, _)) ⟨⟨trivial, rfl⟩, rfl, rfl⟩ (.single ⟨⟨trivial, rfl⟩, rfl, rfl⟩)⟩
    · intro d p hd hp _
      cases hd
      cases hp
      decide
    · exact ⟨0, [1], [2], _, 0, rfl, rfl, rfl, rfl, rfl, rfl, fun i hi => absurd hi (by omega)⟩
  refine ⟨_, _, s, s₁, s', _, hrun, hd, rfl, hcut, hlater, fun hsame => ?_⟩
  have hlast := hsame _ (List.mem_cons_of_mem _ (List.mem_singleton.mpr rfl))
  cases hlast

end SystemsProgramming.UserFs

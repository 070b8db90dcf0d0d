import SystemsProgramming.UserFs.SizeLimit

/-! What `ufs_resize` refuses. It refuses the limit itself, which a write may reach: a file of that size
cannot be resized to the size that it has. -/

namespace SystemsProgramming.UserFs

open Transition

variable {fs fs' : Fs} {v v' : Volume}

namespace Fs

/-- A resize to at most the size does it; one that fails for memory is to more, and changes nothing. -/
def ResizesExactly (fs : Fs) (e : Event) (fs' : Fs) : Prop :=
  ∀ fd newSize d size, e.1 = .resize fd newSize → fs.descriptorAt fd = some d →
    fs.sizeOf d.file = some size →
    ((newSize : ℤ) ≤ size → e.2.ret = 0 ∧ fs'.sizeOf d.file = some (newSize : ℤ)) ∧
      (e.2.ret = -1 ∧ e.2.errno = .noMem →
        size < newSize ∧ fs' = { fs with ufsErrorCode := .noMem })

/-- A file that is at the limit is not resized to it. -/
def Lowers (fs : Fs) : Op → Prop
  | .resize fd newSize => ∀ d size, fs.descriptorAt fd = some d → fs.sizeOf d.file = some size →
    (newSize : ℤ) < maxFileSize ∨ size < newSize
  | _ => True

theorem ufsResize_large {fd : ℤ} {newSize : ℕ} {d : Filedesc} (hd : fs.descriptorAt fd = some d)
    (hlarge : maxFileSize ≤ newSize) : fs.ufsResize fd newSize = some (fs.throwUfsError .noMem) := by
  obtain ⟨i, hi, -⟩ := descriptorAt_cases hd
  simp only [ufsResize, hi, Option.bind_eq_bind, Option.bind_some, Option.pure_def]
  exact if_pos hlarge

/-- The step of a resize that is refused. -/
theorem Step.resize_large {fd : ℤ} {newSize : ℕ} {d : Filedesc} {out : Out}
    (hstep : fs.Step (.resize fd newSize, out) fs') (hd : fs.descriptorAt fd = some d)
    (hlarge : maxFileSize ≤ newSize) :
    out = ⟨-1, .noMem, []⟩ ∧ fs' = { fs with ufsErrorCode := .noMem } := by
  rw [Step, exec, ufsResize_large hd hlarge] at hstep
  obtain ⟨hout, hfs'⟩ := Prod.mk.inj (Option.some.inj hstep)
  exact ⟨hout.symm, hfs'.symm⟩

end Fs

/-- The step of a resize that is done. -/
theorem Mirrors.resize_small (h : Mirrors fs v) {fd : ℤ} {newSize : ℕ} {d : Filedesc} {out : Out}
    (hstep : fs.Step (.resize fd newSize, out) fs') (hd : fs.descriptorAt fd = some d)
    (hsmall : (newSize : ℤ) < maxFileSize) :
    out.ret = 0 ∧ fs'.sizeOf d.file = some (newSize : ℤ) := by
  obtain ⟨x, hx, hs⟩ := h.opened hd
  obtain ⟨v', -, hdid, h'⟩ := h.step (show fs.Fits (.resize fd newSize) from trivial) hstep
  rcases hdid.resize_cases hx with ⟨-, rfl, rfl⟩ | ⟨hlarge, -, -⟩
  · obtain ⟨y, hy, hyfile⟩ := Volume.handle_cut hx _ newSize
    obtain ⟨d', -, hy'⟩ := h'.handle hy
    refine ⟨rfl, ?_⟩
    rw [hs.file, ← hyfile, ← hy'.file, hy'.size, hyfile, Volume.clusters_cut, if_pos rfl,
      Volume.extent_resized (h.formed.shaped x.file)]
  · exact absurd hsmall (not_lt_of_ge hlarge)

theorem Mirrors.resizesExactly_iff (h : Mirrors fs v) {e : Event} (hstep : fs.Step e fs') :
    fs.ResizesExactly e fs' ↔ fs.Lowers e.1 := by
  obtain ⟨op, out⟩ := e
  cases op with
  | resize fd newSize =>
    constructor
    · intro hexact d size hd hsize
      by_contra hboth
      obtain ⟨hlarge, hle⟩ : maxFileSize ≤ newSize ∧ (newSize : ℤ) ≤ size := by omega
      obtain ⟨rfl, -⟩ := hstep.resize_large hd hlarge
      have hzero : (-1 : ℤ) = 0 := ((hexact fd newSize d size rfl hd hsize).1 hle).1
      omega
    · rintro hlowers fd' newSize' d size heq hd hsize
      cases heq
      rcases lt_or_ge (newSize : ℤ) maxFileSize with hsmall | hlarge
      · obtain ⟨hret, hsize'⟩ := h.resize_small hstep hd hsmall
        refine ⟨fun _ => ⟨hret, hsize'⟩, fun hfails => ?_⟩
        have hneg := hret.symm.trans hfails.1
        omega
      · obtain ⟨-, hfs'⟩ := hstep.resize_large hd hlarge
        have hlt : size < newSize := (hlowers d size hd hsize).resolve_left (not_lt_of_ge hlarge)
        exact ⟨fun hle => absurd hlt (not_lt_of_ge hle), fun _ => ⟨hlt, hfs'⟩⟩
  | _ => exact ⟨fun _ => trivial, fun _ fd newSize d size heq => nomatch heq⟩

/-- A write up to a size is done if it is at most the limit. -/
theorem Mirrors.write_accepted (h : Mirrors fs v) {fd p : ℤ} {buf : List UInt8} {d : Filedesc}
    {out : Out} (hstep : fs.Step (.write fd buf, out) fs') (hd : fs.descriptorAt fd = some d)
    (hp : fs.positionOf d = some p) (hflag : ¬specificFlagIsPresent d.flags ufsReadOnly)
    (hfits : p + buf.length < 2 ^ 31) : 0 ≤ out.ret ↔ p + buf.length ≤ maxFileSize := by
  have hop : fs.Fits (.write fd buf) := fun d' p' hd' hp' _ => by
    obtain rfl := Option.some.inj (hd.symm.trans hd')
    obtain rfl := Option.some.inj (hp.symm.trans hp')
    exact hfits
  obtain ⟨x, hx, hs⟩ := h.opened hd
  obtain rfl := Option.some.inj (hs.position.symm.trans hp)
  rw [hs.flags] at hflag
  obtain ⟨v', -, hdid, -⟩ := h.step hop hstep
  rcases hdid.write_cases hx hflag with ⟨hle, rfl, -⟩ | ⟨hlarge, rfl, -⟩
  · exact iff_of_true (Int.natCast_nonneg _) hle
  · exact iff_of_false (by decide) (not_le_of_gt hlarge)

theorem Mirrors.resize_accepted (h : Mirrors fs v) {fd : ℤ} {newSize : ℕ} {d : Filedesc} {out : Out}
    (hstep : fs.Step (.resize fd newSize, out) fs') (hd : fs.descriptorAt fd = some d) :
    0 ≤ out.ret ↔ (newSize : ℤ) < maxFileSize := by
  rcases lt_or_ge (newSize : ℤ) maxFileSize with hsmall | hlarge
  · rw [(h.resize_small hstep hd hsmall).1]
    exact iff_of_true (Int.le_refl 0) hsmall
  · obtain ⟨rfl, -⟩ := hstep.resize_large hd hlarge
    exact iff_of_false (by decide) (not_lt_of_ge hlarge)

/-- As long as the sum of position and size of each permitted write is an `int`, a resize does what its
documentation says if and only if it is not one of a file at the limit to the limit, or beyond; and
of all sizes the limit is the only one that a write and a resize judge differently. -/
theorem resizes_exactly_iff {es : List Event}
    (hrun : Run (restrict Fs.Step fun fs e => fs.Fits e.1) .initial es fs) :
    (∀ fd newSize, ∃ out fs', fs.Step (.resize fd newSize, out) fs') ∧
    (∀ e fs', fs.Step e fs' → (fs.ResizesExactly e fs' ↔ fs.Lowers e.1)) ∧
    ∀ fd d p buf (newSize : ℕ) out out' fs₁ fs₂, fs.descriptorAt fd = some d →
      fs.positionOf d = some p → ¬specificFlagIsPresent d.flags ufsReadOnly →
      p + buf.length = newSize → newSize < 2 ^ 31 → fs.Step (.write fd buf, out) fs₁ →
      fs.Step (.resize fd newSize, out') fs₂ →
      ((0 ≤ out.ret ↔ 0 ≤ out'.ret) ↔ (newSize : ℤ) ≠ maxFileSize) := by
  obtain ⟨v, -, h⟩ := mirrors_initial.run (fun _ _ => True)
    (fun _ _ _ _ hfits => ⟨hfits, trivial⟩) hrun
  refine ⟨fun fd newSize => ?_, fun e fs' hstep => h.resizesExactly_iff hstep, ?_⟩
  · obtain ⟨out, fs', -, hcall, -⟩ := h.exec (.resize fd newSize) trivial
    exact ⟨out, fs', hcall⟩
  · intro fd d p buf newSize out out' fs₁ fs₂ hd hp hflag hsum hfits hwrite hresize
    rw [h.write_accepted hwrite hd hp hflag (by omega), h.resize_accepted hresize hd, hsum]
    omega

/-- A file of two bytes. -/
theorem resizes_exactly_iff_written : ∃ fs : Fs, fs.sizeOf 0 = some 2 ∧
    (∀ fd newSize, ∃ out fs', fs.Step (.resize fd newSize, out) fs') ∧
    (∀ e fs', fs.Step e fs' → (fs.ResizesExactly e fs' ↔ fs.Lowers e.1)) ∧
    ∀ fd d p buf (newSize : ℕ) out out' fs₁ fs₂, fs.descriptorAt fd = some d →
      fs.positionOf d = some p → ¬specificFlagIsPresent d.flags ufsReadOnly →
      p + buf.length = newSize → newSize < 2 ^ 31 → fs.Step (.write fd buf, out) fs₁ →
      fs.Step (.resize fd newSize, out') fs₂ →
      ((0 ≤ out.ret ↔ 0 ≤ out'.ret) ↔ (newSize : ℤ) ≠ maxFileSize) := by
  obtain ⟨fs, hsize, hrun⟩ : ∃ fs : Fs, fs.sizeOf 0 = some 2 ∧
      Run (restrict Fs.Step fun fs e => fs.Fits e.1) .initial
        [(.open [102] ufsCreate, ⟨0, .noErr, []⟩), (.write 0 [7, 8], ⟨2, .noErr, []⟩)] fs := by
    refine ⟨_, ?_, .cons ⟨trivial, rfl⟩ (.single ⟨fun d p hd hp _ => ?_, rfl⟩)⟩
    · rfl
    · cases hd
      cases hp
      decide
  exact ⟨fs, hsize, resizes_exactly_iff hrun⟩

/-- A file that a write has taken to the limit is resized to the limit. -/
theorem limit_refused : ∃ es fs d fs', es.map Prod.fst = [.open [102] ufsCreate,
      .write 0 (List.replicate 104857600 0)] ∧ Run Fs.Step .initial es fs ∧
    fs.descriptorAt 0 = some d ∧ fs.sizeOf d.file = some 104857600 ∧
    fs.Step (.resize 0 104857600, ⟨-1, .noMem, []⟩) fs' ∧
    ¬fs.ResizesExactly (.resize 0 104857600, ⟨-1, .noMem, []⟩) fs' := by
  obtain ⟨buf, hbuf⟩ : ∃ buf : List UInt8, buf = List.replicate 104857600 0 := ⟨_, rfl⟩
  have hlen : buf.length = 104857600 := by rw [hbuf, List.length_replicate]
  rw [← hbuf]
  obtain ⟨out₁, out₂, fs, v, c, hrun, h, hfilled⟩ :=
    written_run buf (by rw [hlen, maxFileSize_eq]; decide)
  obtain ⟨d, hd, hs⟩ := h.handle hfilled.handle
  have hsize : fs.sizeOf d.file = some 104857600 := by
    rw [hs.size, ← Volume.clusters_cursor, hfilled.cursor, hfilled.extent, hlen]
    rfl
  have hstep : fs.Step (.resize 0 104857600, ⟨-1, .noMem, []⟩) { fs with ufsErrorCode := .noMem } := by
    rw [Fs.Step, Fs.exec, Fs.ufsResize_large hd (by rw [maxFileSize_eq]; decide)]
    rfl
  refine ⟨_, fs, d, _, rfl, hrun.of_restrict, hd, hsize, hstep, fun hexact => ?_⟩
  have hlowers := (h.resizesExactly_iff hstep).mp hexact d _ hd hsize
  rw [maxFileSize_eq] at hlowers
  omega

end SystemsProgramming.UserFs

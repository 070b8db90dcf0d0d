import SystemsProgramming.UserFs.Positions

/-! Transfers in pieces. The bytes of a write may be divided among any number of calls, and so may those
of a read: what is handed out is the same, and afterwards no calls can tell how it was done. -/

namespace SystemsProgramming.UserFs

open Transition

namespace Cursor

theorem writeBytes_append (buf buf' : List UInt8) (c : Cursor) :
    c.writeBytes (buf ++ buf') = (c.writeBytes buf).bind fun c => c.writeBytes buf' := by
  induction buf generalizing c with
  | nil => rfl
  | cons byte buf ih =>
    rw [List.cons_append, writeBytes, writeBytes]
    cases c.put byte with
    | none => rfl
    | some c₁ => exact ih c₁.advance

theorem readBytes_add (n m : ℕ) (c : Cursor) : c.readBytes (n + m) =
    (c.readBytes n).bind fun r => (r.2.readBytes m).map fun r' => (r.1 ++ r'.1, r'.2) := by
  induction n generalizing c with
  | zero =>
    rw [Nat.zero_add, readBytes, Option.bind_some]
    exact Option.map_id'.symm
  | succ n ih =>
    rw [Nat.succ_add, readBytes, readBytes]
    cases c.get with
    | none => rfl
    | some byte =>
      simp only [Option.bind_eq_bind, Option.bind_some, ih]
      cases c.advance.readBytes n with
      | none => rfl
      | some r =>
        simp only [Option.bind_some, Option.pure_def]
        cases r.2.readBytes m <;> rfl

end Cursor

namespace Volume

variable {v : Volume} {fd : ℤ} {h : Handle}

theorem seek_self (hh : v.handle fd = some h) : v.seek fd.toNat h (v.cursor h) = v := by
  rw [Volume.seek, Volume.cursor, set_same (slot_of_handle hh), Function.update_eq_self]

/-! ### Writes -/

theorem Formed.exec_write (hv : v.Formed) (hh : v.handle fd = some h)
    (hflag : ¬specificFlagIsPresent h.flags ufsReadOnly) (buf : List UInt8)
    (hle : (v.cursor h).pos + buf.length ≤ maxFileSize) : ∃ c, (v.cursor h).writeBytes buf = some c ∧
      v.exec (.write fd buf) = some (⟨buf.length, v.errno, []⟩, v.seek fd.toNat h c) ∧
      v.Fits (.write fd buf) ∧ (v.cursor h).Wrote buf c := by
  have hsum : (v.cursor h).pos + buf.length < 2 ^ 31 := by
    rw [maxFileSize_eq] at hle
    omega
  obtain ⟨c, hwrite, hc⟩ := (hv.cursor _ h (slot_of_handle hh)).writeBytes buf
  have hlen : int buf.length = buf.length := int_eq (by omega) (by omega)
  refine ⟨c, hwrite, ?_, fun x hx _ => ?_, hc⟩
  · rw [Volume.exec, Volume.ufsWrite, hh]
    dsimp only
    rw [if_neg hflag, hv.endSize_eq (slot_of_handle hh) hsum, if_neg (not_lt_of_ge hle), hlen,
      Int.toNat_natCast, List.take_length, hwrite]
    rfl
  · obtain rfl := Option.some.inj (hh.symm.trans hx)
    exact hsum

/-- Writes one after the other are one write of all their bytes. -/
theorem Formed.exec_writes (hv : v.Formed) (hh : v.handle fd = some h)
    (hflag : ¬specificFlagIsPresent h.flags ufsReadOnly) {bufs : List (List UInt8)}
    (hle : (v.cursor h).pos + bufs.flatten.length ≤ maxFileSize) :
    ∃ v', Run (restrict Volume.Step fun v e => v.Fits e.1) v
        (bufs.map fun buf => (.write fd buf, ⟨buf.length, v.errno, []⟩)) v' ∧
      v.exec (.write fd bufs.flatten) = some (⟨bufs.flatten.length, v.errno, []⟩, v') := by
  induction bufs generalizing v h with
  | nil =>
    obtain ⟨c, hwrite, hexec, -⟩ := hv.exec_write hh hflag [] hle
    obtain rfl := Option.some.inj hwrite
    rw [seek_self hh] at hexec
    exact ⟨v, .nil, hexec⟩
  | cons buf bufs ih =>
    rw [List.flatten_cons, List.length_append] at hle
    have hle₁ : (v.cursor h).pos + (buf.length : ℤ) ≤ maxFileSize := by omega
    obtain ⟨c₁, hwrite₁, hexec₁, hfits₁, hc₁⟩ := hv.exec_write hh hflag buf hle₁
    have hv₁ := (Did.written hh hflag hle₁ hc₁).formed hv
    have hh₁ := handle_seek hh c₁
    have hcursor := cursor_seek v fd.toNat h c₁
    have hle₂ : (c₁.pos : ℤ) + bufs.flatten.length ≤ maxFileSize := by
      rw [hc₁.pos]
      omega
    -- the rest is written from there
    obtain ⟨v', hrun, hexec'⟩ := ih hv₁ hh₁ hflag (by rwa [hcursor])
    obtain ⟨c₂, hwrite₂, hexec₂, -⟩ := hv₁.exec_write hh₁ hflag bufs.flatten (by rwa [hcursor])
    obtain rfl := (Prod.mk.inj (Option.some.inj (hexec'.symm.trans hexec₂))).2
    obtain ⟨c, hwrite, hexec, -⟩ := hv.exec_write hh hflag (buf ++ bufs.flatten)
      (by rw [List.length_append]; omega)
    rw [Cursor.writeBytes_append, hwrite₁, Option.bind_some, ← hcursor, hwrite₂] at hwrite
    obtain rfl := Option.some.inj hwrite
    rw [seek_seek] at hrun
    exact ⟨_, .cons ⟨hfits₁, hexec₁⟩ hrun, hexec⟩

/-! ### Reads -/

/-- How many bytes a read through a descriptor inside its file hands out. -/
theorem Calm.exists_count (hcalm : v.Calm h.file) (hh : v.handle fd = some h) (size : ℕ) :
    ∃ k : ℕ, (k : ℤ) = min (size : ℤ) (extent (v.clusters h.file) - (v.cursor h).pos) := by
  have hinside := hcalm.inside _ h (slot_of_handle hh) rfl
  exact ⟨_, Int.toNat_of_nonneg (by omega)⟩

theorem Formed.exec_read (hv : v.Formed) (hh : v.handle fd = some h)
    (hflag : ¬specificFlagIsPresent h.flags ufsWriteOnly) {size k : ℕ} (hsize : size < 2 ^ 31)
    (hk : (k : ℤ) = min (size : ℤ) (UserFs.extent (v.clusters h.file) - (v.cursor h).pos)) :
    ∃ bytes c, (v.cursor h).readBytes k = some (bytes, c) ∧
      v.exec (.read fd size) = some (⟨k, v.errno, bytes⟩, v.seek fd.toNat h c) ∧
      v.Did (.read fd size) ⟨k, v.errno, bytes⟩ (v.seek fd.toNat h c) ∧ (v.cursor h).Read k bytes c := by
  have hextent := hv.extent h.file
  have hnonneg := hv.extent_nonneg h.file
  have hpos := hv.pos _ h (slot_of_handle hh)
  rw [maxFileSize_eq] at hextent hpos
  obtain ⟨bytes, c, hread, hc⟩ := (hv.cursor _ h (slot_of_handle hh)).readBytes k
  have hint : int size = size := int_eq (by omega) (by omega)
  have hleft : int (UserFs.extent (v.clusters h.file) - (v.cursor h).pos) =
      UserFs.extent (v.clusters h.file) - (v.cursor h).pos := int_eq (by omega) (by omega)
  have hn : (k : ℤ) = readCount (int size) (UserFs.extent (v.clusters h.file) - (v.cursor h).pos) := by
    rw [readCount_eq, hint, hk]
  refine ⟨bytes, c, hread, ?_, .read hh hflag hn (by rwa [Int.toNat_natCast]), hc⟩
  rw [Volume.exec, Volume.ufsRead, hh]
  dsimp only
  rw [if_neg hflag, hv.sizeOf_eq, hv.positionAt_eq (slot_of_handle hh), Option.bind_eq_bind,
    Option.bind_some, hleft, ← hn, Int.toNat_natCast, hread]
  rfl

/-- Reads one after the other are one read of as many bytes. -/
theorem Formed.exec_reads (hv : v.Formed) (hcalm : v.Calm h.file) (hh : v.handle fd = some h)
    (hflag : ¬specificFlagIsPresent h.flags ufsWriteOnly) {sizes : List ℕ} (hsum : sizes.sum < 2 ^ 31) :
    ∃ es v', Run (restrict Volume.Step fun v e => v.Fits e.1) v es v' ∧
      es.map Prod.fst = sizes.map (.read fd) ∧
      v.exec (.read fd sizes.sum) =
        some (⟨(es.map fun e => e.2.ret).sum, v.errno, es.flatMap fun e => e.2.bytes⟩, v') := by
  induction sizes generalizing v h with
  | nil =>
    obtain ⟨k, hk⟩ := hcalm.exists_count hh 0
    obtain ⟨bytes, c, hread, hexec, -⟩ := hv.exec_read hh hflag (Nat.two_pow_pos 31) hk
    have hinside := hcalm.inside _ h (slot_of_handle hh) rfl
    obtain rfl : k = 0 := by omega
    obtain ⟨rfl, rfl⟩ := Prod.mk.inj (Option.some.inj hread)
    rw [seek_self hh] at hexec
    exact ⟨[], v, .nil, rfl, hexec⟩
  | cons size sizes ih =>
    rw [List.sum_cons] at hsum
    obtain ⟨k₁, hk₁⟩ := hcalm.exists_count hh size
    obtain ⟨bytes₁, c₁, hread₁, hexec₁, hdid₁, hc₁⟩ := hv.exec_read hh hflag (by omega) hk₁
    have hv₁ := hdid₁.formed hv
    have hh₁ := handle_seek hh c₁
    have hcalm₁ : (v.seek fd.toNat h c₁).Calm
        { h with block := c₁.block, offset := c₁.offset : Handle }.file := hdid₁.calm hcalm hv trivial
    have hcursor := cursor_seek v fd.toNat h c₁
    -- the size is the same, and there are fewer bytes left
    have hextent₁ : UserFs.extent c₁.clusters = UserFs.extent (v.clusters h.file) :=
      (hc₁.short (hv.cursor _ h (slot_of_handle hh)) hcalm.short (by rw [clusters_cursor]; omega)).2
    obtain ⟨es, v', hrun, hes, hexec'⟩ := ih hv₁ hcalm₁ hh₁ hflag (by omega)
    obtain ⟨k₂, hk₂⟩ := hcalm₁.exists_count hh₁ sizes.sum
    obtain ⟨bytes₂, c₂, hread₂, hexec₂, -⟩ := hv₁.exec_read hh₁ hflag (by omega) hk₂
    have hk : ((k₁ + k₂ : ℕ) : ℤ) =
        min ((size + sizes.sum : ℕ) : ℤ) (UserFs.extent (v.clusters h.file) - (v.cursor h).pos) := by
      rw [clusters_seek, if_pos rfl, hcursor, hextent₁, hc₁.pos] at hk₂
      omega
    obtain ⟨bytes, c, hread, hexec, -⟩ := hv.exec_read hh hflag hsum hk
    rw [Cursor.readBytes_add, hread₁, Option.bind_some, ← hcursor, hread₂] at hread
    obtain ⟨rfl, rfl⟩ := Prod.mk.inj (Option.some.inj hread)
    obtain ⟨hout, rfl⟩ := Prod.mk.inj (Option.some.inj (hexec'.symm.trans hexec₂))
    rw [seek_seek] at hrun
    have hfits : v.Fits (.read fd size) := trivial
    refine ⟨(.read fd size, ⟨k₁, v.errno, bytes₁⟩) :: es, _, .cons ⟨hfits, hexec₁⟩ hrun, ?_, ?_⟩
    · rw [List.map_cons, hes, List.map_cons]
    rw [List.sum_cons, hexec, List.map_cons, List.sum_cons, List.flatMap_cons]
    have hret := congrArg Out.ret hout
    have hbytes := congrArg Out.bytes hout
    dsimp only at hret hbytes
    rw [hret, hbytes, Nat.cast_add]

end Volume

/-! ### The file system -/

/-- No calls have other results after the one than after the other. -/
def Fs.Indistinguishable (fs gs : Fs) : Prop :=
  ∀ es fs', Run (restrict Fs.Step fun fs e => fs.Fits e.1) fs es fs' →
    ∃ gs', Run (restrict Fs.Step fun fs e => fs.Fits e.1) gs es gs'

variable {fs fs' gs : Fs} {v v' : Volume}

theorem Mirrors.follow (h : Mirrors fs v) {e : Event} (hfits : v.Fits e.1) (hstep : v.Step e v') :
    ∃ fs', (fs.Fits e.1 ∧ fs.Step e fs') ∧ Mirrors fs' v' := by
  obtain ⟨l, hr⟩ := h.represents
  have hfits' := (hr.fits_iff h.formed e.1).mpr hfits
  obtain ⟨out, fs', w, hcall, hexec, -, h'⟩ := h.exec e.1 hfits'
  obtain ⟨rfl, rfl⟩ := Prod.mk.inj (Option.some.inj (hexec.symm.trans hstep))
  exact ⟨fs', ⟨hfits', hcall⟩, h'⟩

/-- What the volume can do, the file system does. -/
theorem Mirrors.follow_run (h : Mirrors fs v) {es : List Event}
    (hrun : Run (restrict Volume.Step fun v e => v.Fits e.1) v es v') :
    ∃ fs', Run (restrict Fs.Step fun fs e => fs.Fits e.1) fs es fs' ∧ Mirrors fs' v' :=
  hrun.simulate (R := fun v fs => Mirrors fs v) (fun _ _ _ _ h hs => h.follow hs.1 hs.2) h

/-- States of one volume. -/
theorem Mirrors.indistinguishable (h : Mirrors fs v) (k : Mirrors gs v) : fs.Indistinguishable gs := by
  intro es fs' hrun
  obtain ⟨v', hrun', -⟩ := h.run (fun v e => v.Fits e.1) (fun fs v e hm hfits => by
    obtain ⟨l, hr⟩ := hm.represents
    exact ⟨hfits, (hr.fits_iff hm.formed e.1).mp hfits⟩) hrun
  obtain ⟨gs', hrun'', -⟩ := k.follow_run hrun'
  exact ⟨gs', hrun''⟩

/-- A write that is in the limit may be divided: each piece is written, and no later call can tell. -/
theorem writes_joined {es : List Event} {fd p : ℤ} {d : Filedesc} (bufs : List (List UInt8))
    (hrun : Run (restrict Fs.Step fun fs e => fs.Fits e.1) .initial es fs)
    (hd : fs.descriptorAt fd = some d) (hp : fs.positionOf d = some p)
    (hflag : ¬specificFlagIsPresent d.flags ufsReadOnly)
    (hle : p + bufs.flatten.length ≤ maxFileSize) :
    ∃ (es' : List Event) (out : Out) (fs' gs : Fs),
      Run (restrict Fs.Step fun fs e => fs.Fits e.1) fs es' fs' ∧ es'.map Prod.fst = bufs.map (.write fd) ∧
      (es'.map fun e => e.2.ret) = bufs.map (fun buf => (buf.length : ℤ)) ∧
      fs.Step (.write fd bufs.flatten, out) gs ∧ out.ret = bufs.flatten.length ∧
      fs'.Indistinguishable gs ∧ gs.Indistinguishable fs' := by
  obtain ⟨v, -, h⟩ := mirrors_initial.run (fun _ _ => True)
    (fun _ _ _ _ hfits => ⟨hfits, trivial⟩) hrun
  obtain ⟨x, hx, hs⟩ := h.opened hd
  obtain rfl := Option.some.inj (hs.position.symm.trans hp)
  rw [hs.flags] at hflag
  obtain ⟨v', hpieces, hjoined⟩ := h.formed.exec_writes hx hflag hle
  obtain ⟨-, -, -, hfits, -⟩ := h.formed.exec_write hx hflag bufs.flatten hle
  obtain ⟨fs', hrun', hfs'⟩ := h.follow_run hpieces
  obtain ⟨gs, ⟨-, hstep⟩, hgs⟩ := h.follow (e := (.write fd bufs.flatten, _)) hfits hjoined
  refine ⟨_, _, fs', gs, hrun', ?_, ?_, hstep, rfl, hfs'.indistinguishable hgs, hgs.indistinguishable hfs'⟩
  · rw [List.map_map]
    rfl
  · rw [List.map_map]
    rfl

/-- Three bytes in two pieces. -/
theorem writes_joined_three : ∃ (fs fs' gs : Fs) (es : List Event) (out : Out),
    Fs.Step .initial (.open [102] ufsCreate, ⟨0, .noErr, []⟩) fs ∧
    Run (restrict Fs.Step fun fs e => fs.Fits e.1) fs es fs' ∧
    es.map Prod.fst = [.write 0 [1, 2], .write 0 [3]] ∧ es.map (fun e => e.2.ret) = [2, 1] ∧
    fs.Step (.write 0 [1, 2, 3], out) gs ∧ out.ret = 3 ∧ fs'.Indistinguishable gs := by
  obtain ⟨fs, hopen, hd, hp⟩ : ∃ fs : Fs, Fs.Step .initial (.open [102] ufsCreate, ⟨0, .noErr, []⟩) fs ∧
      fs.descriptorAt 0 = some ⟨0, 0, 0, 0, ufsCreate⟩ ∧ fs.positionOf ⟨0, 0, 0, 0, ufsCreate⟩ = some 0 :=
    ⟨_, rfl, rfl, rfl⟩
  have hfits : Fs.initial.Fits (.open [102] ufsCreate) := trivial
  obtain ⟨es, out, fs', gs, hrun, hes, hret, hstep, hout, hsame, -⟩ :=
    writes_joined [[1, 2], [3]] (.single ⟨hfits, hopen⟩) hd hp (by decide) (by decide)
  exact ⟨fs, fs', gs, es, out, hopen, hrun, hes, hret, hstep, hout, hsame⟩

/-- A read through a descriptor inside its file may be divided: the pieces hand out what it hands out, and
no later call can tell. -/
theorem reads_joined {es : List Event} {fd : ℤ} {d : Filedesc} (sizes : List ℕ)
    (hrun : Run (restrict Fs.Step fun fs e => fs.Fits e.1 ∧ fs.Tame e.1) .initial es fs)
    (hd : fs.descriptorAt fd = some d) (hflag : ¬specificFlagIsPresent d.flags ufsWriteOnly)
    (hsum : sizes.sum < 2 ^ 31) :
    ∃ (es' : List Event) (out : Out) (fs' gs : Fs),
      Run (restrict Fs.Step fun fs e => fs.Fits e.1) fs es' fs' ∧ es'.map Prod.fst = sizes.map (.read fd) ∧
      fs.Step (.read fd sizes.sum, out) gs ∧ (es'.map fun e => e.2.ret).sum = out.ret ∧
      es'.flatMap (fun e => e.2.bytes) = out.bytes ∧
      fs'.Indistinguishable gs ∧ gs.Indistinguishable fs' := by
  obtain ⟨v, h, hv⟩ : ∃ v, Mirrors fs v ∧ v.Regular := by
    refine hrun.invariant (I := fun fs => ∃ v, Mirrors fs v ∧ v.Regular)
      ⟨_, mirrors_initial, Volume.regular_initial⟩ ?_
    rintro fs e fs' ⟨v, h, hv⟩ ⟨⟨hfits, htame⟩, hstep⟩
    obtain ⟨v', -, hdid, h'⟩ := h.step hfits hstep
    exact ⟨v', h', hdid.regular hv h.formed ((h.tame_iff e.1).mp htame)⟩
  obtain ⟨x, hx, hs⟩ := h.opened hd
  rw [hs.flags] at hflag
  obtain ⟨es', v', hpieces, hes, hjoined⟩ := h.formed.exec_reads (hv.calm x.file) hx hflag hsum
  obtain ⟨fs', hrun', hfs'⟩ := h.follow_run hpieces
  obtain ⟨gs, ⟨-, hstep⟩, hgs⟩ := h.follow (e := (.read fd sizes.sum, _)) trivial hjoined
  exact ⟨es', _, fs', gs, hrun', hes, hstep, rfl, rfl, hfs'.indistinguishable hgs, hgs.indistinguishable hfs'⟩

/-- A byte is read through one descriptor, and a second read comes to the end of the file. -/
theorem reads_joined_end : ∃ (fs fs' gs : Fs) (es : List Event) (out : Out),
    Run Fs.Step .initial [(.open [102] ufsCreate, ⟨0, .noErr, []⟩), (.resize 0 2, ⟨0, .noErr, []⟩)] fs ∧
    Run (restrict Fs.Step fun fs e => fs.Fits e.1) fs es fs' ∧ es.map Prod.fst = [.read 0 1, .read 0 9] ∧
    fs.Step (.read 0 10, out) gs ∧ (es.map fun e => e.2.ret).sum = out.ret ∧
    es.flatMap (fun e => e.2.bytes) = out.bytes ∧ fs'.Indistinguishable gs := by
  obtain ⟨a, fs, hopen, hresize, htame, hd⟩ : ∃ a fs : Fs,
      Fs.Step .initial (.open [102] ufsCreate, ⟨0, .noErr, []⟩) a ∧
      a.Step (.resize 0 2, ⟨0, .noErr, []⟩) fs ∧ a.Tame (.resize 0 2) ∧
      fs.descriptorAt 0 = some ⟨0, 0, 0, 0, ufsCreate⟩ := by
    refine ⟨_, _, rfl, rfl, fun d file last hd hfile hlast _ => ?_, rfl⟩
    cases hd
    cases hfile
    cases hlast
    decide
  have hfits : Fs.initial.Fits (.open [102] ufsCreate) ∧ Fs.initial.Tame (.open [102] ufsCreate) :=
    ⟨trivial, trivial⟩
  have hfits' : a.Fits (.resize 0 2) := trivial
  obtain ⟨es, out, fs', gs, hrun, hes, hstep, hret, hbytes, hsame, -⟩ := reads_joined [1, 9]
    (.cons ⟨hfits, hopen⟩ (.single ⟨⟨hfits', htame⟩, hresize⟩)) hd (by decide) (by decide)
  exact ⟨fs, fs', gs, es, out, .cons hopen (.single hresize), hrun, hes, hstep, hret, hbytes, hsame⟩

end SystemsProgramming.UserFs

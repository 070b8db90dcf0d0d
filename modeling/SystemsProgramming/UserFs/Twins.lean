import SystemsProgramming.UserFs.Simulation
import SystemsProgramming.UserFs.Regular

/-! Two volumes that differ in bytes only. What a call does, apart from the bytes that a read hands out,
does not depend on the bytes of files, so that two such volumes take the same calls in step. -/

namespace SystemsProgramming.UserFs

/-- Two files of the same blocks and the same size, with the same bytes but at some positions. -/
structure Alike (differ : ℕ → Prop) (cs ds : List Cluster) : Prop where
  length : cs.length = ds.length
  extent : extent cs = extent ds
  cell : ∀ p, ¬differ p → cell cs p = cell ds p
  unwritten : ∀ p, UserFs.cell cs p = none ↔ UserFs.cell ds p = none

section Alike
variable {differ : ℕ → Prop} {cs ds : List Cluster} {c d c' d' : Cursor}

theorem Alike.refl (differ : ℕ → Prop) (cs : List Cluster) : Alike differ cs cs :=
  ⟨rfl, rfl, fun _ _ => rfl, fun _ => Iff.rfl⟩

theorem Alike.symm (h : Alike differ cs ds) : Alike differ ds cs :=
  ⟨h.length.symm, h.extent.symm, fun p hp => (h.cell p hp).symm, fun p => (h.unwritten p).symm⟩

theorem Cursor.pos_inj (hc : c.Formed) (hd : d.Formed) (h : c.pos = d.pos) :
    c.block = d.block ∧ c.offset = d.offset := by
  obtain ⟨hblock, hoffset⟩ := (hc.pos_iff c.pos).mp rfl
  obtain ⟨hblock', hoffset'⟩ := (hd.pos_iff d.pos).mp rfl
  exact ⟨by rw [← hblock, h, hblock'], by rw [← hoffset, h, hoffset']⟩

/-- Two writes of as many bytes from one position. -/
theorem Alike.write {buf buf' : List UInt8} (h : Alike differ c.clusters d.clusters)
    (hpos : c.pos = d.pos) (hlen : buf.length = buf'.length) (hc : c.Wrote buf c')
    (hd : d.Wrote buf' d')
    (hbuf : ∀ i, ¬differ (c.pos + i) → buf[i]? = buf'[i]?) : Alike differ c'.clusters d'.clusters where
  length := by rw [hc.length, hd.length, h.length, hpos, hlen]
  extent := by rw [hc.extent, hd.extent, h.length, h.extent, hpos, hlen]
  cell p hp := by
    rw [hc.cell, hd.cell, ← hpos, ← hlen]
    split_ifs with hin
    · refine hbuf _ ?_
      rwa [Nat.add_sub_of_le hin.1]
    · exact h.cell p hp
  unwritten p := by
    rw [hc.cell, hd.cell, ← hpos, ← hlen]
    split_ifs with hin
    · rw [List.getElem?_eq_none_iff, List.getElem?_eq_none_iff, hlen]
    · exact h.unwritten p

theorem Alike.read {n : ℕ} {bytes bytes' : List (Option UInt8)}
    (h : Alike differ c.clusters d.clusters) (hpos : c.pos = d.pos) (hc : c.Read n bytes c')
    (hd : d.Read n bytes' d') : Alike differ c'.clusters d'.clusters where
  length := by rw [hc.length, hd.length, h.length, hpos]
  extent := by rw [hc.extent, hd.extent, h.length, h.extent, hpos]
  cell p hp := by rw [hc.cell, hd.cell, h.cell p hp]
  unwritten p := by rw [hc.cell, hd.cell, h.unwritten p]

/-- What is handed out is the same if no byte of it differs. -/
theorem Alike.bytes {n : ℕ} {bytes bytes' : List (Option UInt8)}
    (h : Alike differ c.clusters d.clusters) (hpos : c.pos = d.pos) (hc : c.Read n bytes c')
    (hd : d.Read n bytes' d') (hsame : ∀ i < n, ¬differ (c.pos + i)) : bytes = bytes' := by
  rw [hc.bytes, hd.bytes, ← hpos]
  exact List.map_congr_left fun i hi => h.cell _ (hsame i (List.mem_range.mp hi))

theorem Volume.cutBlock_eq (h : cs.length = ds.length) (newSize : ℕ) :
    Volume.cutBlock cs newSize = Volume.cutBlock ds newSize := by
  rw [Volume.cutBlock, Volume.cutBlock, h]

theorem Alike.resized (h : Alike differ cs ds) (hcs : Shaped cs) (hds : Shaped ds) (newSize : ℕ) :
    Alike differ (Volume.resized cs newSize) (Volume.resized ds newSize) where
  length := by
    rw [Volume.length_resized hcs, Volume.length_resized hds, Volume.cutBlock_eq h.length]
  extent := by rw [Volume.extent_resized hcs, Volume.extent_resized hds]
  cell p hp := by
    rw [Volume.cell_resized hcs, Volume.cell_resized hds, ← Volume.cutBlock_eq h.length]
    split_ifs
    · exact h.cell p hp
    · rfl
  unwritten p := by
    rw [Volume.cell_resized hcs, Volume.cell_resized hds, ← Volume.cutBlock_eq h.length]
    split_ifs
    · exact h.unwritten p
    · rfl

end Alike

namespace Volume

/-- Volumes that differ in some bytes of one file only. -/
structure Twins (f : ℕ) (differ : ℕ → Prop) (v w : Volume) : Prop where
  directory : v.directory = w.directory
  created : v.created = w.created
  slots : v.slots = w.slots
  errno : v.errno = w.errno
  alike : ∀ g, Alike (fun p => g = f ∧ differ p) (v.clusters g) (w.clusters g)

variable {f : ℕ} {differ : ℕ → Prop} {v v' w w' : Volume} {op op' : Op} {out out' : Out}

theorem Twins.refl (f : ℕ) (differ : ℕ → Prop) (v : Volume) : Twins f differ v v :=
  ⟨rfl, rfl, rfl, rfl, fun _ => .refl ..⟩

theorem Twins.symm (h : Twins f differ v w) : Twins f differ w v :=
  ⟨h.directory.symm, h.created.symm, h.slots.symm, h.errno.symm, fun g => (h.alike g).symm⟩

theorem Twins.handle (h : Twins f differ v w) (fd : ℤ) : v.handle fd = w.handle fd := by
  rw [Volume.handle, Volume.handle, h.slots]

theorem Twins.lookup (h : Twins f differ v w) (filename : CString) :
    v.lookup filename = w.lookup filename := by
  rw [Volume.lookup, Volume.lookup, h.directory]

/-- The same call, but for the bytes that are written. -/
inductive SameCall : Op → Op → Prop
  | same {op : Op} : SameCall op op
  | written {fd : ℤ} {buf buf' : List UInt8} : buf.length = buf'.length →
      SameCall (.write fd buf) (.write fd buf')

theorem SameCall.symm (h : SameCall op op') : SameCall op' op := by
  cases h with
  | same => exact .same
  | written hlen => exact .written hlen.symm

theorem Twins.fits (h : Twins f differ v w) (hsame : SameCall op op') (hfits : v.Fits op) :
    w.Fits op' := by
  have hfits' : ∀ {fd : ℤ} {buf buf' : List UInt8}, buf.length = buf'.length →
      v.Fits (.write fd buf) → w.Fits (.write fd buf') := fun hlen hfits x hx hflag => by
    rw [pos_cursor w v, ← hlen]
    exact hfits x ((h.handle _).trans hx) hflag
  cases hsame with
  | same =>
    cases op with
    | write fd buf => exact hfits' rfl hfits
    | _ => trivial
  | written hlen => exact hfits' hlen hfits

/-- A call fails on both for one reason. -/
theorem Twins.fails (h : Twins f differ v w) (hsame : SameCall op op') {error : ErrorCode}
    (hfails : v.Fails op error) : w.Fails op' error := by
  cases hsame with
  | same =>
    cases hfails with
    | missing hlookup hflag => exact .missing ((h.lookup _).symm.trans hlookup) hflag
    | unknown hlookup => exact .unknown ((h.lookup _).symm.trans hlookup)
    | notOpen hfd hnone => exact .notOpen hfd ((h.handle _).symm.trans hnone)
    | readOnly hh hflag => exact .readOnly ((h.handle _).symm.trans hh) hflag
    | writeOnly hh hflag => exact .writeOnly ((h.handle _).symm.trans hh) hflag
    | full hh hflag hlarge =>
      exact .full ((h.handle _).symm.trans hh) hflag (by rwa [pos_cursor w v])
    | large hh hlarge => exact .large ((h.handle _).symm.trans hh) hlarge
  | written hlen =>
    cases hfails with
    | notOpen hfd hnone =>
      cases hfd
      exact .notOpen rfl ((h.handle _).symm.trans hnone)
    | readOnly hh hflag => exact .readOnly ((h.handle _).symm.trans hh) hflag
    | full hh hflag hlarge =>
      exact .full ((h.handle _).symm.trans hh) hflag (by rwa [pos_cursor w v, ← hlen])

/-- What a call does on both. -/
inductive Pair (v w : Volume) : Event → Event → Volume → Volume → Prop
  | failed {op op' : Op} {error : ErrorCode} :
      Pair v w (op, ⟨-1, error, []⟩) (op', ⟨-1, error, []⟩)
        { v with errno := error } { w with errno := error }
  | opened {filename : CString} {flags : UInt32} {g : ℕ} :
      Pair v w (.open filename flags, ⟨(v.openFile g flags).1, v.errno, []⟩)
        (.open filename flags, ⟨(w.openFile g flags).1, w.errno, []⟩)
        (v.openFile g flags).2 (w.openFile g flags).2
  | created {filename : CString} {flags : UInt32} :
      Pair v w
        (.open filename flags, ⟨((v.createFile filename).openFile v.created flags).1, v.errno, []⟩)
        (.open filename flags, ⟨((w.createFile filename).openFile w.created flags).1, w.errno, []⟩)
        ((v.createFile filename).openFile v.created flags).2
        ((w.createFile filename).openFile w.created flags).2
  | written {fd : ℤ} {buf buf' : List UInt8} {h : Handle} {c d : Cursor} : v.handle fd = some h →
      buf.length = buf'.length → (v.cursor h).Wrote buf c → (w.cursor h).Wrote buf' d →
      Pair v w (.write fd buf, ⟨buf.length, v.errno, []⟩) (.write fd buf', ⟨buf'.length, w.errno, []⟩)
        (v.seek fd.toNat h c) (w.seek fd.toNat h d)
  | read {fd : ℤ} {size : ℕ} {h : Handle} {n : ℤ} {bytes bytes' : List (Option UInt8)}
      {c d : Cursor} : v.handle fd = some h →
      n = readCount (int size) (extent (v.clusters h.file) - (v.cursor h).pos) →
      (v.cursor h).Read n.toNat bytes c → (w.cursor h).Read n.toNat bytes' d →
      Pair v w (.read fd size, ⟨n, v.errno, bytes⟩) (.read fd size, ⟨n, w.errno, bytes'⟩)
        (v.seek fd.toNat h c) (w.seek fd.toNat h d)
  | closed {fd : ℤ} :
      Pair v w (.close fd, ⟨0, v.errno, []⟩) (.close fd, ⟨0, w.errno, []⟩)
        { v with slots := v.slots.set fd.toNat none } { w with slots := w.slots.set fd.toNat none }
  | deleted {filename : CString} :
      Pair v w (.delete filename, ⟨0, v.errno, []⟩) (.delete filename, ⟨0, w.errno, []⟩)
        { v with directory := v.directory.eraseP fun entry => entry.1 = filename }
        { w with directory := w.directory.eraseP fun entry => entry.1 = filename }
  | resized {fd : ℤ} {newSize : ℕ} {h : Handle} : v.handle fd = some h →
      (newSize : ℤ) < maxFileSize →
      Pair v w (.resize fd newSize, ⟨0, v.errno, []⟩) (.resize fd newSize, ⟨0, w.errno, []⟩)
        (v.cut h.file newSize) (w.cut h.file newSize)

theorem Twins.pair (ht : Twins f differ v w) (hv : v.Formed) (hw : w.Formed) (hfits : v.Fits op)
    (hsame : SameCall op op') (hstep : v.Step (op, out) v') (hstep' : w.Step (op', out') w')
    (hd : v.Did op out v') (hd' : w.Did op' out' w') : Pair v w (op, out) (op', out') v' w' := by
  by_cases hfails : ∃ error, v.Fails op error
  · obtain ⟨error, hf⟩ := hfails
    have hf' := ht.fails hsame hf
    obtain ⟨rfl, rfl⟩ := Prod.mk.inj (Option.some.inj ((hf.exec hv hfits).symm.trans hstep))
    obtain ⟨rfl, rfl⟩ :=
      Prod.mk.inj (Option.some.inj ((hf'.exec hw (ht.fits hsame hfits)).symm.trans hstep'))
    exact .failed
  · have hfails' : ∀ error, ¬w.Fails op' error := fun error hf =>
      hfails ⟨error, ht.symm.fails hsame.symm hf⟩
    cases hd with
    | failed hf => exact absurd ⟨_, hf⟩ hfails
    | opened hlookup =>
      cases hsame
      rw [ht.lookup] at hlookup
      cases hd' with
      | failed hf => exact absurd hf (hfails' _)
      | opened hlookup' =>
        obtain rfl := Option.some.inj (hlookup.symm.trans hlookup')
        exact .opened
      | created hlookup' => cases hlookup'.symm.trans hlookup
    | created hlookup =>
      cases hsame
      rw [ht.lookup] at hlookup
      cases hd' with
      | failed hf => exact absurd hf (hfails' _)
      | opened hlookup' => cases hlookup'.symm.trans hlookup
      | created => exact .created
    | @written fd buf h c hh _ _ hc =>
      have hlen : ∃ buf', op' = .write fd buf' ∧ buf.length = buf'.length := by
        cases hsame with
        | same => exact ⟨_, rfl, rfl⟩
        | written hlen => exact ⟨_, rfl, hlen⟩
      obtain ⟨buf', rfl, hlen⟩ := hlen
      cases hd' with
      | failed hf => exact absurd hf (hfails' _)
      | written hh' _ _ hc' =>
        rw [← ht.handle] at hh'
        obtain rfl := Option.some.inj (hh.symm.trans hh')
        exact .written hh hlen hc hc'
    | @read fd size h n bytes c hh _ hn hc =>
      cases hsame
      cases hd' with
      | failed hf => exact absurd hf (hfails' _)
      | @read _ _ _ n' _ _ hh' _ hn' hc' =>
        rw [← ht.handle] at hh'
        obtain rfl := Option.some.inj (hh.symm.trans hh')
        obtain rfl : n = n' := by
          rw [hn, hn', (ht.alike h.file).extent, pos_cursor w v]
        exact .read hh hn hc hc'
    | closed hh =>
      cases hsame
      cases hd' with
      | failed hf => exact absurd hf (hfails' _)
      | closed => exact .closed
    | deleted =>
      cases hsame
      cases hd' with
      | failed hf => exact absurd hf (hfails' _)
      | deleted => exact .deleted
    | resized hh hlarge =>
      cases hsame
      cases hd' with
      | failed hf => exact absurd hf (hfails' _)
      | resized hh' =>
        rw [← ht.handle] at hh'
        obtain rfl := Option.some.inj (hh.symm.trans hh')
        exact .resized hh hlarge

/-! ### The volumes stay alike -/

theorem Twins.openFile (h : Twins f differ v w) (g : ℕ) (flags : UInt32) :
    Twins f differ (v.openFile g flags).2 (w.openFile g flags).2 where
  directory := h.directory
  created := h.created
  slots := congrArg (fun slots => place slots (⟨g, 0, 0, flags⟩ : Handle)) h.slots
  errno := h.errno
  alike := h.alike

theorem Twins.createFile (h : Twins f differ v w) (filename : CString) :
    Twins f differ (v.createFile filename) (w.createFile filename) where
  directory := by rw [Volume.createFile, Volume.createFile, h.directory, h.created]
  created := congrArg (· + 1) h.created
  slots := h.slots
  errno := h.errno
  alike g := by
    rw [clusters_createFile, clusters_createFile, ← h.created]
    split_ifs
    · exact .refl ..
    · exact h.alike g

theorem Twins.seek (ht : Twins f differ v w) {h : Handle} {c d : Cursor} (hc : c.Formed)
    (hd : d.Formed) (hpos : c.pos = d.pos)
    (halike : Alike (fun p => h.file = f ∧ differ p) c.clusters d.clusters) (i : ℕ) :
    Twins f differ (v.seek i h c) (w.seek i h d) where
  directory := ht.directory
  created := ht.created
  slots := by
    obtain ⟨hblock, hoffset⟩ := Cursor.pos_inj hc hd hpos
    rw [Volume.seek, Volume.seek, ht.slots, hblock, hoffset]
  errno := ht.errno
  alike g := by
    rw [clusters_seek, clusters_seek]
    split_ifs with hg
    · rw [hg]
      exact halike
    · exact ht.alike g

theorem Twins.cut (ht : Twins f differ v w) (hv : v.Formed) (hw : w.Formed) (g newSize : ℕ) :
    Twins f differ (v.cut g newSize) (w.cut g newSize) where
  directory := ht.directory
  created := ht.created
  slots := by rw [Volume.cut, Volume.cut, ht.slots, cutBlock_eq (ht.alike g).length]
  errno := ht.errno
  alike k := by
    rw [clusters_cut, clusters_cut]
    split_ifs with hk
    · rw [hk]
      exact (ht.alike g).resized (hv.shaped g) (hw.shaped g) newSize
    · exact ht.alike k

/-- Volumes stay alike where what is written is. -/
theorem Pair.twins {e e' : Event} (hp : Pair v w e e' v' w') (ht : Twins f differ v w)
    (hv : v.Formed) (hw : w.Formed)
    (hwrite : ∀ fd buf buf' h, e.1 = .write fd buf → e'.1 = .write fd buf' →
      v.handle fd = some h → ∀ i, ¬(h.file = f ∧ differ ((v.cursor h).pos + i)) → buf[i]? = buf'[i]?) :
    Twins f differ v' w' := by
  cases hp with
  | failed => exact ⟨ht.directory, ht.created, ht.slots, rfl, ht.alike⟩
  | opened => exact ht.openFile _ _
  | created =>
    rw [← ht.created]
    exact (ht.createFile _).openFile _ _
  | @written _ _ _ h _ _ hh hlen hc hd =>
    have hpos := pos_cursor v w h
    refine ht.seek hc.formed hd.formed (by rw [hc.pos, hd.pos, hpos, hlen]) ?_ _
    exact (ht.alike _).write hpos hlen hc hd (hwrite _ _ _ _ rfl rfl hh)
  | @read _ _ h _ _ _ _ _ hh hn hc hd =>
    have hpos := pos_cursor v w h
    refine ht.seek hc.formed hd.formed (by rw [hc.pos, hd.pos, hpos]) ?_ _
    exact (ht.alike _).read hpos hc hd
  | closed => exact ⟨ht.directory, ht.created, by rw [ht.slots], ht.errno, ht.alike⟩
  | deleted => exact ⟨by rw [ht.directory], ht.created, ht.slots, ht.errno, ht.alike⟩
  | resized => exact ht.cut hv hw _ _

end Volume

end SystemsProgramming.UserFs

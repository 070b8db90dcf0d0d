import SystemsProgramming.UserFs.Cuts

/-! What the calls do when no position overflows. Then no file and no position is ever behind the
limit, and every call has a result. -/

namespace SystemsProgramming.UserFs

theorem maxFileSize_eq : maxFileSize = 104857600 := rfl

/-- The descriptor that a call is about. -/
def Op.fd : Op → Option ℤ
  | .open _ _ => none
  | .write fd _ => some fd
  | .read fd _ => some fd
  | .close fd => some fd
  | .delete _ => none
  | .resize fd _ => some fd

namespace Volume

variable {v v' : Volume}

/-- The descriptors are at blocks of their files, and nothing is behind the limit. -/
structure Formed (v : Volume) : Prop where
  shaped : ∀ f, Shaped (v.clusters f)
  extent : ∀ f, extent (v.clusters f) ≤ maxFileSize
  cursor : ∀ (i : ℕ) (h : Handle), v.slots[i]? = some (some h) → (v.cursor h).Formed
  pos : ∀ (i : ℕ) (h : Handle), v.slots[i]? = some (some h) → ((v.cursor h).pos : ℤ) ≤ maxFileSize
  opened : ∀ (i : ℕ) (h : Handle), v.slots[i]? = some (some h) → h.file < v.created
  listed : ∀ s f, (s, f) ∈ v.directory → f < v.created
  keys : (v.directory.map Prod.fst).Nodup

/-- A permitted write ends at a position that is an `int`. -/
def Fits (v : Volume) : Op → Prop
  | .write fd buf => ∀ h, v.handle fd = some h → ¬specificFlagIsPresent h.flags ufsReadOnly →
    (v.cursor h).pos + buf.length < 2 ^ 31
  | _ => True

/-- Why a call fails. -/
inductive Fails (v : Volume) : Op → ErrorCode → Prop
  | missing {filename : CString} {flags : UInt32} : v.lookup filename = none →
      ¬specificFlagIsPresent flags ufsCreate → Fails v (.open filename flags) .noFile
  | unknown {filename : CString} : v.lookup filename = none → Fails v (.delete filename) .noFile
  | notOpen {op : Op} {fd : ℤ} : op.fd = some fd → v.handle fd = none → Fails v op .noFile
  | readOnly {fd : ℤ} {buf : List UInt8} {h : Handle} : v.handle fd = some h →
      specificFlagIsPresent h.flags ufsReadOnly → Fails v (.write fd buf) .noPermission
  | writeOnly {fd : ℤ} {size : ℕ} {h : Handle} : v.handle fd = some h →
      specificFlagIsPresent h.flags ufsWriteOnly → Fails v (.read fd size) .noPermission
  | full {fd : ℤ} {buf : List UInt8} {h : Handle} : v.handle fd = some h →
      ¬specificFlagIsPresent h.flags ufsReadOnly → maxFileSize < (v.cursor h).pos + buf.length →
      Fails v (.write fd buf) .noMem
  | large {fd : ℤ} {newSize : ℕ} {h : Handle} : v.handle fd = some h → maxFileSize ≤ newSize →
      Fails v (.resize fd newSize) .noMem

/-- What the calls do. -/
inductive Did (v : Volume) : Op → Out → Volume → Prop
  | failed {op : Op} {error : ErrorCode} : v.Fails op error →
      Did v op ⟨-1, error, []⟩ { v with errno := error }
  | opened {filename : CString} {flags : UInt32} {f : ℕ} : v.lookup filename = some f →
      Did v (.open filename flags) ⟨(v.openFile f flags).1, v.errno, []⟩ (v.openFile f flags).2
  | created {filename : CString} {flags : UInt32} : v.lookup filename = none →
      specificFlagIsPresent flags ufsCreate →
      Did v (.open filename flags) ⟨((v.createFile filename).openFile v.created flags).1, v.errno, []⟩
        ((v.createFile filename).openFile v.created flags).2
  | written {fd : ℤ} {buf : List UInt8} {h : Handle} {c : Cursor} : v.handle fd = some h →
      ¬specificFlagIsPresent h.flags ufsReadOnly →
      (v.cursor h).pos + buf.length ≤ maxFileSize → (v.cursor h).Wrote buf c →
      Did v (.write fd buf) ⟨buf.length, v.errno, []⟩ (v.seek fd.toNat h c)
  | read {fd : ℤ} {size : ℕ} {h : Handle} {n : ℤ} {bytes : List (Option UInt8)} {c : Cursor} :
      v.handle fd = some h → ¬specificFlagIsPresent h.flags ufsWriteOnly →
      n = readCount (int size) (UserFs.extent (v.clusters h.file) - (v.cursor h).pos) →
      (v.cursor h).Read n.toNat bytes c →
      Did v (.read fd size) ⟨n, v.errno, bytes⟩ (v.seek fd.toNat h c)
  | closed {fd : ℤ} {h : Handle} : v.handle fd = some h →
      Did v (.close fd) ⟨0, v.errno, []⟩ { v with slots := v.slots.set fd.toNat none }
  | deleted {filename : CString} {f : ℕ} : v.lookup filename = some f →
      Did v (.delete filename) ⟨0, v.errno, []⟩
        { v with directory := v.directory.eraseP fun entry => entry.1 = filename }
  | resized {fd : ℤ} {newSize : ℕ} {h : Handle} : v.handle fd = some h →
      (newSize : ℤ) < maxFileSize →
      Did v (.resize fd newSize) ⟨0, v.errno, []⟩ (v.cut h.file newSize)

section
variable {fd : ℤ} {h : Handle} {out : Out}

/-- A permitted read of a descriptor that is open. -/
theorem Did.read_cases {size : ℕ} (hd : v.Did (.read fd size) out v') (hh : v.handle fd = some h)
    (hflag : ¬specificFlagIsPresent h.flags ufsWriteOnly) : ∃ n bytes c,
    out = ⟨n, v.errno, bytes⟩ ∧ v' = v.seek fd.toNat h c ∧
      n = readCount (int size) (UserFs.extent (v.clusters h.file) - (v.cursor h).pos) ∧
      (v.cursor h).Read n.toNat bytes c := by
  cases hd with
  | failed hfails =>
    cases hfails with
    | notOpen hfd hnone =>
      cases hfd
      cases hnone.symm.trans hh
    | writeOnly hh' hwrite =>
      obtain rfl := Option.some.inj (hh.symm.trans hh')
      exact absurd hwrite hflag
  | read hh' _ hn hc =>
    obtain rfl := Option.some.inj (hh.symm.trans hh')
    exact ⟨_, _, _, rfl, rfl, hn, hc⟩

/-- A permitted write to a descriptor that is open. -/
theorem Did.write_cases {buf : List UInt8} (hd : v.Did (.write fd buf) out v')
    (hh : v.handle fd = some h) (hflag : ¬specificFlagIsPresent h.flags ufsReadOnly) :
    ((v.cursor h).pos + buf.length ≤ maxFileSize ∧ out = ⟨buf.length, v.errno, []⟩ ∧
        ∃ c, v' = v.seek fd.toNat h c ∧ (v.cursor h).Wrote buf c) ∨
      (maxFileSize < (v.cursor h).pos + buf.length ∧ out = ⟨-1, .noMem, []⟩ ∧
        v' = { v with errno := .noMem }) := by
  cases hd with
  | failed hfails =>
    cases hfails with
    | notOpen hfd hnone =>
      cases hfd
      cases hnone.symm.trans hh
    | readOnly hh' hread =>
      obtain rfl := Option.some.inj (hh.symm.trans hh')
      exact absurd hread hflag
    | full hh' _ hlarge =>
      obtain rfl := Option.some.inj (hh.symm.trans hh')
      exact .inr ⟨hlarge, rfl, rfl⟩
  | written hh' _ hle hc =>
    obtain rfl := Option.some.inj (hh.symm.trans hh')
    exact .inl ⟨hle, rfl, _, rfl, hc⟩

/-- A resize of a descriptor that is open. -/
theorem Did.resize_cases {newSize : ℕ} (hd : v.Did (.resize fd newSize) out v')
    (hh : v.handle fd = some h) :
    ((newSize : ℤ) < maxFileSize ∧ out = ⟨0, v.errno, []⟩ ∧ v' = v.cut h.file newSize) ∨
      (maxFileSize ≤ newSize ∧ out = ⟨-1, .noMem, []⟩ ∧ v' = { v with errno := .noMem }) := by
  cases hd with
  | failed hfails =>
    cases hfails with
    | notOpen hfd hnone =>
      cases hfd
      cases hnone.symm.trans hh
    | large _ hlarge => exact .inr ⟨hlarge, rfl, rfl⟩
  | resized hh' hsmall =>
    obtain rfl := Option.some.inj (hh.symm.trans hh')
    exact .inl ⟨hsmall, rfl, rfl⟩

end

theorem formed_initial : Formed .initial where
  shaped _ := shaped_fresh
  extent _ := by
    show UserFs.extent [.fresh] ≤ maxFileSize
    decide
  cursor i h hi := nomatch hi
  pos i h hi := nomatch hi
  opened i h hi := nomatch hi
  listed s f hmem := nomatch hmem
  keys := List.nodup_nil

theorem slot_of_handle {fd : ℤ} {h : Handle} (hh : v.handle fd = some h) :
    v.slots[fd.toNat]? = some (some h) := by
  rw [handle] at hh
  split_ifs at hh
  cases hx : v.slots[fd.toNat]? with
  | none =>
    rw [hx] at hh
    cases hh
  | some x =>
    rw [hx] at hh
    exact congrArg some hh

theorem handle_of_slot {i : ℕ} {h : Handle} (hi : v.slots[i]? = some (some h)) :
    v.handle i = some h := by
  rw [handle, if_neg (Int.not_lt.mpr (Int.natCast_nonneg i)), Int.toNat_natCast, hi]
  rfl

theorem toNat_of_handle {fd : ℤ} {h : Handle} (hh : v.handle fd = some h) : (fd.toNat : ℤ) = fd := by
  rw [handle] at hh
  split_ifs at hh
  omega

/-- Two numbers of open descriptors are two slots. -/
theorem toNat_ne {fd fd' : ℤ} {h h' : Handle} (hh : v.handle fd = some h)
    (hh' : v.handle fd' = some h') (hne : fd ≠ fd') : fd.toNat ≠ fd'.toNat := by
  have := toNat_of_handle hh
  have := toNat_of_handle hh'
  omega

/-- A slot of the table is overwritten. -/
theorem handle_set {fd : ℤ} {h : Handle} (hh : v.handle fd = some h) {y : Option Handle}
    (hslots : v'.slots = v.slots.set fd.toNat y) (fd' : ℤ) :
    v'.handle fd' = if fd' = fd then y else v.handle fd' := by
  have hlt := (List.getElem?_eq_some_iff.mp (slot_of_handle hh)).1
  have hfd := toNat_of_handle hh
  rw [handle, handle, hslots]
  by_cases hneg : fd' < 0
  · rw [if_pos hneg, if_neg (by omega), if_pos hneg]
  · rw [if_neg hneg, if_neg hneg]
    by_cases heq : fd' = fd
    · rw [if_pos heq, heq, List.getElem?_set_self hlt]
      rfl
    · rw [if_neg heq, List.getElem?_set_ne (by omega)]

theorem handle_seek {fd : ℤ} {h : Handle} (hh : v.handle fd = some h) (c : Cursor) :
    (v.seek fd.toNat h c).handle fd = some { h with block := c.block, offset := c.offset } :=
  (handle_set hh rfl fd).trans (if_pos rfl)

theorem Formed.positionAt_eq (hv : v.Formed) {i : ℕ} {h : Handle}
    (hi : v.slots[i]? = some (some h)) : positionAt h.block h.offset = (v.cursor h).pos := by
  have hpos := (hv.cursor i h hi).pos_eq
  have hle := hv.pos i h hi
  rw [maxFileSize_eq] at hle
  have heq : (h.block : ℤ) * blockSize + h.offset = (v.cursor h).pos := hpos.symm
  rw [positionAt, heq]
  exact int_eq (by omega) (by omega)

theorem Formed.extent_nonneg (hv : v.Formed) (f : ℕ) : 0 ≤ UserFs.extent (v.clusters f) := by
  have := (hv.shaped f).tail
  rw [UserFs.extent, blockSize_eq]
  omega

theorem Formed.sizeOf_eq (hv : v.Formed) (f : ℕ) :
    sizeOf (v.clusters f) = some (UserFs.extent (v.clusters f)) := by
  obtain ⟨c, hc, hoccupied⟩ := (hv.shaped f).last
  have hle := hv.extent f
  have hnonneg := hv.extent_nonneg f
  rw [maxFileSize_eq] at hle
  rw [sizeOf, List.getLast?_eq_getElem?, hc, Option.map_some, positionAt, hoccupied]
  exact congrArg some (int_eq (by rw [UserFs.extent] at *; omega) (by rw [UserFs.extent] at *; omega))

/-! ### Results -/

theorem Formed.endSize_eq (hv : v.Formed) {i n : ℕ} {h : Handle} (hi : v.slots[i]? = some (some h))
    (hsum : (v.cursor h).pos + n < 2 ^ 31) :
    int (positionAt h.block h.offset + int n) = (v.cursor h).pos + n := by
  have hlen : int n = n := int_eq (by omega) (by omega)
  rw [hv.positionAt_eq hi, hlen]
  exact int_eq (by omega) (by omega)

theorem Formed.ufsWrite (hv : v.Formed) {fd : ℤ} {buf : List UInt8} (hfits : v.Fits (.write fd buf)) :
    ∃ ret v', v.ufsWrite fd buf = some (ret, v') ∧ v.Did (.write fd buf) ⟨ret, v'.errno, []⟩ v' := by
  unfold Volume.ufsWrite
  cases hh : v.handle fd with
  | none => exact ⟨_, _, rfl, .failed (.notOpen rfl hh)⟩
  | some h =>
    have hslot := slot_of_handle hh
    dsimp only
    by_cases hflag : specificFlagIsPresent h.flags ufsReadOnly = true
    · rw [if_pos hflag]
      exact ⟨_, _, rfl, .failed (.readOnly hh hflag)⟩
    · have hsum := hfits h hh hflag
      have hlen : int buf.length = buf.length := int_eq (by omega) (by omega)
      rw [if_neg hflag, hv.endSize_eq hslot hsum]
      by_cases hlarge : (v.cursor h).pos + (buf.length : ℤ) > maxFileSize
      · rw [if_pos hlarge]
        exact ⟨_, _, rfl, .failed (.full hh hflag hlarge)⟩
      · obtain ⟨c, hwrite, hc⟩ := (hv.cursor _ h hslot).writeBytes buf
        rw [if_neg hlarge, hlen, Int.toNat_natCast, List.take_length, hwrite]
        exact ⟨_, _, rfl, .written hh hflag (by omega) hc⟩

theorem Formed.ufsRead (hv : v.Formed) (fd : ℤ) (size : ℕ) :
    ∃ ret bytes v', v.ufsRead fd size = some (ret, bytes, v') ∧
      v.Did (.read fd size) ⟨ret, v'.errno, bytes⟩ v' := by
  unfold Volume.ufsRead
  cases hh : v.handle fd with
  | none => exact ⟨_, _, _, rfl, .failed (.notOpen rfl hh)⟩
  | some h =>
    have hslot := slot_of_handle hh
    dsimp only
    by_cases hflag : specificFlagIsPresent h.flags ufsWriteOnly = true
    · rw [if_pos hflag]
      exact ⟨_, _, _, rfl, .failed (.writeOnly hh hflag)⟩
    · have hextent := hv.extent h.file
      have hnonneg := hv.extent_nonneg h.file
      have hpos := hv.pos _ h hslot
      rw [maxFileSize_eq] at hextent hpos
      have hleft : int (UserFs.extent (v.clusters h.file) - (v.cursor h).pos) =
          UserFs.extent (v.clusters h.file) - (v.cursor h).pos := int_eq (by omega) (by omega)
      rw [if_neg hflag, hv.sizeOf_eq, hv.positionAt_eq hslot, Option.bind_eq_bind, Option.bind_some,
        hleft]
      obtain ⟨n, hn⟩ : ∃ n, n =
        readCount (int size) (UserFs.extent (v.clusters h.file) - (v.cursor h).pos) := ⟨_, rfl⟩
      obtain ⟨bytes, c, hread, hc⟩ := (hv.cursor _ h hslot).readBytes n.toNat
      rw [← hn, hread]
      exact ⟨_, _, _, rfl, .read hh hflag hn hc⟩

theorem Formed.reduceFileSize (hv : v.Formed) (f : ℕ) {newSize : ℕ}
    (hlarge : (newSize : ℤ) < maxFileSize) : v.reduceFileSize f newSize = some (v.cut f newSize) := by
  have hextent := hv.extent f
  have htail := (hv.shaped f).tail
  rw [UserFs.extent, blockSize_eq] at hextent
  rw [maxFileSize_eq] at hextent hlarge
  have hk : cutBlock (v.clusters f) newSize ≤ newSize / 512 := Nat.min_le_right _ _
  have hint : int (cutBlock (v.clusters f) newSize * blockSize) =
      cutBlock (v.clusters f) newSize * 512 := by
    rw [blockSize_eq]
    exact int_eq (by omega) (by omega)
  have hoccupied : int (newSize - int (cutBlock (v.clusters f) newSize * blockSize)) =
      newSize - cutBlock (v.clusters f) newSize * 512 := by
    rw [hint]
    exact int_eq (by omega) (by omega)
  rw [Volume.reduceFileSize, newLastBlock_eq (by omega), Option.bind_eq_bind, Option.bind_some]
  change some _ = some _
  rw [← cutBlock, hoccupied]
  rfl

theorem Formed.ufsResize (hv : v.Formed) (fd : ℤ) (newSize : ℕ) :
    ∃ ret v', v.ufsResize fd newSize = some (ret, v') ∧
      v.Did (.resize fd newSize) ⟨ret, v'.errno, []⟩ v' := by
  unfold Volume.ufsResize
  cases hh : v.handle fd with
  | none => exact ⟨_, _, rfl, .failed (.notOpen rfl hh)⟩
  | some h =>
    dsimp only
    by_cases hlarge : maxFileSize ≤ newSize
    · rw [if_pos hlarge]
      exact ⟨_, _, rfl, .failed (.large hh hlarge)⟩
    · rw [if_neg hlarge, hv.reduceFileSize h.file (Int.lt_of_not_ge hlarge)]
      exact ⟨_, _, rfl, .resized hh (Int.lt_of_not_ge hlarge)⟩

theorem did_ufsOpen (v : Volume) (filename : CString) (flags : UInt32) :
    v.Did (.open filename flags)
      ⟨(v.ufsOpen filename flags).1, (v.ufsOpen filename flags).2.errno, []⟩
      (v.ufsOpen filename flags).2 := by
  unfold Volume.ufsOpen
  cases hlookup : v.lookup filename with
  | some f => exact .opened hlookup
  | none =>
    dsimp only
    split_ifs with hflag
    · exact .created hlookup hflag
    · exact .failed (.missing hlookup hflag)

theorem did_ufsClose (v : Volume) (fd : ℤ) :
    v.Did (.close fd) ⟨(v.ufsClose fd).1, (v.ufsClose fd).2.errno, []⟩ (v.ufsClose fd).2 := by
  unfold Volume.ufsClose
  cases hh : v.handle fd with
  | none => exact .failed (.notOpen rfl hh)
  | some h => exact .closed hh

theorem did_ufsDelete (v : Volume) (filename : CString) :
    v.Did (.delete filename) ⟨(v.ufsDelete filename).1, (v.ufsDelete filename).2.errno, []⟩
      (v.ufsDelete filename).2 := by
  unfold Volume.ufsDelete
  cases hlookup : v.lookup filename with
  | none => exact .failed (.unknown hlookup)
  | some f => exact .deleted hlookup

/-- Every call has a result. -/
theorem Formed.exec (hv : v.Formed) {op : Op} (hfits : v.Fits op) :
    ∃ out v', v.exec op = some (out, v') ∧ v.Did op out v' := by
  cases op with
  | «open» filename flags => exact ⟨_, _, rfl, v.did_ufsOpen filename flags⟩
  | write fd buf =>
    obtain ⟨ret, v', hcall, hdid⟩ := hv.ufsWrite hfits
    exact ⟨_, v', by rw [Volume.exec, hcall]; rfl, hdid⟩
  | read fd size =>
    obtain ⟨ret, bytes, v', hcall, hdid⟩ := hv.ufsRead fd size
    exact ⟨_, v', by rw [Volume.exec, hcall]; rfl, hdid⟩
  | close fd => exact ⟨_, _, rfl, v.did_ufsClose fd⟩
  | delete filename => exact ⟨_, _, rfl, v.did_ufsDelete filename⟩
  | resize fd newSize =>
    obtain ⟨ret, v', hcall, hdid⟩ := hv.ufsResize fd newSize
    exact ⟨_, v', by rw [Volume.exec, hcall]; rfl, hdid⟩

/-- A call that has a reason to fail does. -/
theorem Fails.exec {op : Op} {error : ErrorCode} (hf : v.Fails op error) (hv : v.Formed)
    (hfits : v.Fits op) : v.exec op = some (⟨-1, error, []⟩, { v with errno := error }) := by
  cases hf with
  | missing hlookup hflag =>
    rw [Volume.exec, Volume.ufsOpen, hlookup]
    exact congrArg (fun r => some (observe r)) (if_neg hflag)
  | unknown hlookup =>
    rw [Volume.exec, Volume.ufsDelete, hlookup]
    rfl
  | notOpen hfd hnone =>
    cases op with
    | «open» => cases hfd
    | delete => cases hfd
    | write | read | close | resize =>
      cases hfd
      simp only [Volume.exec, Volume.ufsWrite, Volume.ufsRead, Volume.ufsClose, Volume.ufsResize, hnone]
      rfl
  | readOnly hh hflag =>
    simp only [Volume.exec, Volume.ufsWrite, hh, hflag, if_true]
    rfl
  | writeOnly hh hflag =>
    simp only [Volume.exec, Volume.ufsRead, hh, hflag, if_true]
    rfl
  | full hh hflag hlarge =>
    have hend := hv.endSize_eq (slot_of_handle hh) (hfits _ hh hflag)
    simp only [Volume.exec, Volume.ufsWrite, hh, hflag, hend, gt_iff_lt, hlarge, if_true]
    rfl
  | large hh hlarge =>
    simp only [Volume.exec, Volume.ufsResize, hh, hlarge, if_true]
    rfl

/-! ### The limit -/

/-- A descriptor has been moved, and its file has grown at most. -/
theorem Formed.seek (hv : v.Formed) {i : ℕ} {h : Handle} {c : Cursor}
    (hi : v.slots[i]? = some (some h)) (hc : c.Formed)
    (hlen : (v.clusters h.file).length ≤ c.clusters.length)
    (hextent : UserFs.extent c.clusters ≤ maxFileSize) (hpos : (c.pos : ℤ) ≤ maxFileSize) :
    (v.seek i h c).Formed := by
  have hcursor : ∀ x : Handle, (v.seek i h c).cursor x =
      ⟨if x.file = h.file then c.clusters else v.clusters x.file, x.block, x.offset⟩ := fun x => by
    rw [Volume.cursor, clusters_seek]
  constructor
  · intro f
    rw [clusters_seek]
    split_ifs
    · exact hc.shaped
    · exact hv.shaped f
  · intro f
    rw [clusters_seek]
    split_ifs
    · exact hextent
    · exact hv.extent f
  · intro j x hj
    rcases slots_seek hj with ⟨-, rfl⟩ | ⟨-, hj⟩
    · rw [hcursor, if_pos rfl]
      exact hc
    · have hx := hv.cursor j x hj
      rw [hcursor]
      refine Cursor.formed_mk ?_ ?_ hx.nonneg hx.lt
      · split_ifs
        · exact hc.shaped
        · exact hv.shaped _
      · split_ifs with hf
        · rw [← hf] at hlen
          exact Nat.lt_of_lt_of_le hx.block hlen
        · exact hx.block
  · intro j x hj
    rcases slots_seek hj with ⟨-, rfl⟩ | ⟨-, hj⟩
    · exact hpos
    · exact hv.pos j x hj
  · intro j x hj
    rcases slots_seek hj with ⟨-, rfl⟩ | ⟨-, hj⟩
    · exact hv.opened i h hi
    · exact hv.opened j x hj
  · exact hv.listed
  · exact hv.keys

theorem pos_start (v : Volume) (f : ℕ) (flags : UInt32) : (v.cursor ⟨f, 0, 0, flags⟩).pos = 0 := by
  simp [cursor, Cursor.pos]

theorem pos_cursor (v v' : Volume) (h : Handle) : (v.cursor h).pos = (v'.cursor h).pos := by
  rw [cursor, cursor, Cursor.pos_mk, Cursor.pos_mk]

theorem Formed.openFile (hv : v.Formed) {f : ℕ} (hf : f < v.created) (flags : UInt32) :
    (v.openFile f flags).2.Formed := by
  refine ⟨hv.shaped, hv.extent, fun i x hi => ?_, fun i x hi => ?_, fun i x hi => ?_, hv.listed,
    hv.keys⟩
  · rcases slots_openFile hi with ⟨-, rfl⟩ | ⟨-, hi⟩
    · have hlt : (0 : ℤ) < 512 := by decide
      exact Cursor.formed_mk (hv.shaped f) (hv.shaped f).length (Int.le_refl 0) hlt
    · exact hv.cursor i x hi
  · rcases slots_openFile hi with ⟨-, rfl⟩ | ⟨-, hi⟩
    · rw [pos_start, maxFileSize_eq]
      decide
    · exact hv.pos i x hi
  · rcases slots_openFile hi with ⟨-, rfl⟩ | ⟨-, hi⟩
    · exact hf
    · exact hv.opened i x hi

theorem lookup_none {filename : CString} (h : v.lookup filename = none) :
    filename ∉ v.directory.map Prod.fst := by
  intro hmem
  obtain ⟨⟨s, f⟩, hsf, rfl⟩ := List.mem_map.mp hmem
  rw [lookup, Option.map_eq_none_iff, List.find?_eq_none] at h
  exact h _ hsf (decide_eq_true rfl)

theorem Formed.createFile (hv : v.Formed) {filename : CString} (h : v.lookup filename = none) :
    (v.createFile filename).Formed := by
  have hcursor : ∀ {i : ℕ} {x : Handle}, v.slots[i]? = some (some x) →
      (v.createFile filename).cursor x = v.cursor x := fun {i x} hi => by
    rw [Volume.cursor, clusters_createFile, if_neg (Nat.ne_of_lt (hv.opened i x hi)), Volume.cursor]
  constructor
  · intro g
    rw [clusters_createFile]
    split_ifs
    · exact shaped_fresh
    · exact hv.shaped g
  · intro g
    rw [clusters_createFile]
    split_ifs
    · exact formed_initial.extent g
    · exact hv.extent g
  · intro i x hi
    rw [hcursor hi]
    exact hv.cursor i x hi
  · intro i x hi
    rw [hcursor hi]
    exact hv.pos i x hi
  · exact fun i x hi => Nat.lt_succ_of_lt (hv.opened i x hi)
  · intro s f hmem
    rcases List.mem_cons.mp hmem with heq | hmem
    · rw [(Prod.mk.inj heq).2]
      exact Nat.lt_succ_self _
    · exact Nat.lt_succ_of_lt (hv.listed s f hmem)
  · exact List.nodup_cons.mpr ⟨lookup_none h, hv.keys⟩

theorem lookup_mem {filename : CString} {f : ℕ} (h : v.lookup filename = some f) :
    (filename, f) ∈ v.directory := by
  obtain ⟨⟨s, g⟩, hfind, rfl⟩ := Option.map_eq_some_iff.mp h
  obtain rfl : s = filename := by simpa using List.find?_some hfind
  exact List.mem_of_find?_eq_some hfind

theorem handle_cut {fd : ℤ} {h : Handle} (hh : v.handle fd = some h) (f newSize : ℕ) :
    ∃ x, (v.cut f newSize).handle fd = some x ∧ x.file = h.file := by
  have hslot := slot_of_handle hh
  rw [handle] at hh ⊢
  split_ifs at hh with hneg
  rw [if_neg hneg, cut, List.getElem?_map, hslot]
  exact ⟨_, rfl, Handle.clamp_file ..⟩

/-- The descriptors after a resize, one by one. -/
theorem Formed.cut_slot (hv : v.Formed) {f newSize i : ℕ} {x : Handle}
    (hi : (v.cut f newSize).slots[i]? = some (some x)) : ∃ h, v.slots[i]? = some (some h) ∧
      x.file = h.file ∧ x.flags = h.flags ∧ ((v.cut f newSize).cursor x).Formed ∧
      ((v.cut f newSize).cursor x).pos =
        if h.file = f then min (v.cursor h).pos newSize else (v.cursor h).pos := by
  rw [cut, List.getElem?_map] at hi
  obtain ⟨y, hy, hyx⟩ := Option.map_eq_some_iff.mp hi
  obtain ⟨h, rfl, hx⟩ := Option.map_eq_some_iff.mp hyx
  have hcursor := hv.cursor i h hy
  have hfile : x.file = h.file := hx ▸ Handle.clamp_file ..
  refine ⟨h, hy, hfile, ?_, ?_⟩
  · rw [← hx, Handle.clamp]
    split_ifs <;> rfl
  · rw [Volume.cursor, clusters_cut, hfile]
    by_cases hf : h.file = f
    · subst hf
      rw [if_pos rfl, if_pos rfl]
      exact clamp_resized hcursor newSize hx.symm
    · rw [Handle.clamp_self (.inl hf)] at hx
      subst hx
      rw [if_neg hf, if_neg hf]
      exact ⟨hcursor, rfl⟩

theorem Formed.cut (hv : v.Formed) (f : ℕ) {newSize : ℕ} (hlarge : (newSize : ℤ) < maxFileSize) :
    (v.cut f newSize).Formed := by
  constructor
  · intro g
    rw [clusters_cut]
    split_ifs
    · exact shaped_resized (hv.shaped f) newSize
    · exact hv.shaped g
  · intro g
    rw [clusters_cut]
    split_ifs
    · rw [extent_resized (hv.shaped f)]
      exact Int.le_of_lt hlarge
    · exact hv.extent g
  · intro i x hi
    obtain ⟨h, -, -, -, hformed, -⟩ := hv.cut_slot hi
    exact hformed
  · intro i x hi
    obtain ⟨h, hslot, -, -, -, hpos⟩ := hv.cut_slot hi
    have hle := hv.pos i h hslot
    rw [hpos]
    split_ifs <;> omega
  · intro i x hi
    obtain ⟨h, hslot, hfile, -⟩ := hv.cut_slot hi
    exact hfile ▸ hv.opened i h hslot
  · exact hv.listed
  · exact hv.keys

theorem readCount_eq (size left : ℤ) : readCount size left = min size left := by
  unfold readCount
  split_ifs <;> omega

/-- Nothing gets behind the limit. -/
theorem Did.formed {op : Op} {out : Out} (hd : v.Did op out v') (hv : v.Formed) : v'.Formed := by
  cases hd with
  | failed => exact ⟨hv.shaped, hv.extent, hv.cursor, hv.pos, hv.opened, hv.listed, hv.keys⟩
  | opened hlookup => exact hv.openFile (hv.listed _ _ (lookup_mem hlookup)) _
  | created hlookup => exact (hv.createFile hlookup).openFile (Nat.lt_succ_self _) _
  | @written _ _ h c hh _ hle hc =>
    have hextent := hv.extent h.file
    have hextent' : UserFs.extent c.clusters ≤ max (UserFs.extent (v.clusters h.file)) _ := hc.extent_le
    have hpos := hc.pos
    refine hv.seek (slot_of_handle hh) hc.formed ?_ (by omega) (by omega)
    rw [hc.length]
    exact Nat.le_max_left _ _
  | @read _ size h n _ c hh _ hn hc =>
    have hslot := slot_of_handle hh
    have hextent := hv.extent h.file
    have hpos := hv.pos _ h hslot
    have hextent' : UserFs.extent c.clusters ≤
        max (UserFs.extent (v.clusters h.file)) ((v.cursor h).pos + n.toNat) := hc.extent_le
    have hpos' := hc.pos
    rw [readCount_eq] at hn
    refine hv.seek hslot hc.formed ?_ (by omega) (by omega)
    rw [hc.length]
    exact Nat.le_max_left _ _
  | closed =>
    exact ⟨hv.shaped, hv.extent, fun i x hi => hv.cursor i x (slots_close hi).2,
      fun i x hi => hv.pos i x (slots_close hi).2, fun i x hi => hv.opened i x (slots_close hi).2,
      hv.listed, hv.keys⟩
  | @deleted filename =>
    have hsub := List.eraseP_sublist (p := fun entry : CString × ℕ => entry.1 = filename)
      (l := v.directory)
    exact ⟨hv.shaped, hv.extent, hv.cursor, hv.pos, hv.opened,
      fun s g hmem => hv.listed s g (hsub.subset hmem), hv.keys.sublist (hsub.map _)⟩
  | resized _ hlarge => exact hv.cut _ hlarge

theorem Formed.length_le (hv : v.Formed) (f : ℕ) : (v.clusters f).length ≤ 2 ^ 31 := by
  have hextent := hv.extent f
  have := (hv.shaped f).tail
  rw [UserFs.extent, maxFileSize_eq, blockSize_eq] at hextent
  omega

end Volume

end SystemsProgramming.UserFs

import SystemsProgramming.UserFs.Flat
import SystemsProgramming.UserFs.Positions

/-! The file system is one of flat byte arrays, as long as sizes are moderate and resizes make files
smaller: a run of it is a run of that one, with the same results. -/

namespace SystemsProgramming.UserFs

open Transition

/-- The files, names and descriptors without the blocks. -/
structure Flattens (v : Volume) (s : Flat) : Prop where
  errno : s.errno = v.errno
  name : ∀ n, s.names.lookup n = v.lookup n
  length : ∀ f, ((s.bytes f).length : ℤ) = extent (v.clusters f)
  byte : ∀ f q b, (s.bytes f)[q]? = some b → cell (v.clusters f) q = some b
  fd : ∀ fd, s.fds fd = (v.handle fd).map fun h => ⟨h.file, (v.cursor h).pos, h.flags⟩

theorem flattens_initial : Flattens .initial .initial where
  errno := rfl
  name _ := Finmap.lookup_empty _
  length _ := by
    show (0 : ℤ) = extent [.fresh]
    decide
  byte _ _ _ hb := nomatch hb
  fd fd := by
    rw [Volume.handle]
    split_ifs <;> rfl

namespace Volume

variable {v v' : Volume}

theorem handle_openFile (v : Volume) (f : ℕ) (flags : UInt32) (fd : ℤ) :
    (v.openFile f flags).2.handle fd =
      if fd = v.freeSlot then some ⟨f, 0, 0, flags⟩ else v.handle fd := by
  have hslots : (v.openFile f flags).2.slots = place v.slots ⟨f, 0, 0, flags⟩ := rfl
  have hfree : v.freeSlot = SystemsProgramming.freeSlot v.slots := rfl
  rw [handle, handle, hslots, getElem?_place, hfree]
  by_cases hneg : fd < 0
  · rw [if_pos hneg, if_neg (by omega), if_pos hneg]
  · rw [if_neg hneg, if_neg hneg]
    by_cases heq : fd = SystemsProgramming.freeSlot v.slots
    · rw [if_pos heq, if_pos (by omega)]
      rfl
    · rw [if_neg heq, if_neg (by omega)]

theorem handle_freeSlot (v : Volume) : v.handle v.freeSlot = none := by
  rw [handle, if_neg (by omega), Int.toNat_natCast]
  exact getElem?_freeSlot v.slots

/-- A resize is to at most the size. -/
def Shrinks (v : Volume) : Op → Prop
  | .resize fd newSize => ∀ h, v.handle fd = some h →
    (newSize : ℤ) ≤ UserFs.extent (v.clusters h.file) ∧ (newSize : ℤ) < maxFileSize
  | _ => True

/-- The descriptors after a resize, by their numbers. -/
theorem Formed.cut_handle (hv : v.Formed) (f newSize : ℕ) (fd : ℤ) :
    ((v.cut f newSize).handle fd).map (fun x =>
        (⟨x.file, ((v.cut f newSize).cursor x).pos, x.flags⟩ : OpenFile)) =
      (v.handle fd).map fun h => Flat.clamp f newSize ⟨h.file, (v.cursor h).pos, h.flags⟩ := by
  cases hx : (v.cut f newSize).handle fd with
  | none =>
    cases hh : v.handle fd with
    | none => rfl
    | some h =>
      obtain ⟨x, hx', -⟩ := handle_cut hh f newSize
      cases hx.symm.trans hx'
  | some x =>
    obtain ⟨h, hslot, hfile, hflags, -, hpos⟩ := hv.cut_slot (slot_of_handle hx)
    have hh := handle_of_slot hslot
    rw [toNat_of_handle hx] at hh
    rw [hh, Option.map_some, Option.map_some, hpos, hfile, hflags, Flat.clamp]
    split_ifs <;> rfl

end Volume

/-- A name is taken away. -/
theorem find_eraseP {directory : List (CString × ℕ)} (hkeys : (directory.map Prod.fst).Nodup)
    (filename n : CString) :
    ((directory.eraseP fun entry => entry.1 = filename).find? fun entry => entry.1 = n).map Prod.snd =
      if n = filename then none else (directory.find? fun entry => entry.1 = n).map Prod.snd := by
  induction directory with
  | nil => split_ifs <;> rfl
  | cons entry directory ih =>
    rw [List.map_cons, List.nodup_cons] at hkeys
    by_cases hentry : entry.1 = filename
    · rw [List.eraseP_cons_of_pos (by simp [hentry])]
      by_cases hn : n = filename
      · have hnone : (directory.find? fun entry => entry.1 = n) = none := by
          rw [List.find?_eq_none]
          intro x hx
          have hne : x.1 ≠ n := fun heq => hkeys.1 (by
            rw [hentry, ← hn, ← heq]
            exact List.mem_map_of_mem hx)
          simpa using hne
        rw [if_pos hn, hnone, Option.map_none]
      · rw [if_neg hn, List.find?_cons_of_neg (by simpa [hentry] using Ne.symm hn)]
    · rw [List.eraseP_cons_of_neg (by simp [hentry])]
      by_cases hn : entry.1 = n
      · have hne : ¬n = filename := fun heq => hentry (hn.trans heq)
        rw [if_neg hne, List.find?_cons_of_pos (by simp [hn]), List.find?_cons_of_pos (by simp [hn])]
      · rw [List.find?_cons_of_neg (by simp [hn]), List.find?_cons_of_neg (by simp [hn])]
        exact ih hkeys.2

namespace Flattens

variable {v v' : Volume} {s : Flat}

theorem fd_some (hs : Flattens v s) {fd : ℤ} {h : Handle} (hh : v.handle fd = some h) :
    s.fds fd = some ⟨h.file, (v.cursor h).pos, h.flags⟩ := by rw [hs.fd, hh, Option.map_some]

theorem fd_none (hs : Flattens v s) {fd : ℤ} (hh : v.handle fd = none) : s.fds fd = none := by
  rw [hs.fd, hh, Option.map_none]

theorem fails (hs : Flattens v s) {op : Op} {error : ErrorCode} (hf : v.Fails op error) (newFd : ℤ)
    (newFile : ℕ) : s.exec newFd newFile op = s.fail error := by
  cases hf with
  | @missing filename _ hlookup hflag =>
    simp only [Flat.exec, (hs.name filename).trans hlookup, if_neg hflag]
  | @unknown filename hlookup => simp only [Flat.exec, (hs.name filename).trans hlookup]
  | notOpen hop hh =>
    have hnone := hs.fd_none hh
    cases op with
    | «open» | delete => cases hop
    | write | read | close | resize =>
      obtain rfl := Option.some.inj hop
      simp only [Flat.exec, hnone]
  | readOnly hh hflag => simp only [Flat.exec, hs.fd_some hh, if_pos hflag]
  | writeOnly hh hflag => simp only [Flat.exec, hs.fd_some hh, if_pos hflag]
  | full hh hflag hlarge => simp only [Flat.exec, hs.fd_some hh, if_neg hflag, if_pos hlarge]
  | large hh hlarge => simp only [Flat.exec, hs.fd_some hh, if_pos hlarge]

theorem openFile (hs : Flattens v s) (f : ℕ) (flags : UInt32) :
    Flattens (v.openFile f flags).2 (s.setFd v.freeSlot (some ⟨f, 0, flags⟩)) where
  errno := hs.errno
  name := hs.name
  length := hs.length
  byte := hs.byte
  fd fd := by
    rw [Volume.handle_openFile, Flat.fds_setFd]
    split_ifs
    · rw [Option.map_some, Volume.pos_start]
    · exact hs.fd fd

theorem createFile (hs : Flattens v s) (filename : CString) :
    Flattens (v.createFile filename)
      ({ s with names := s.names.insert filename v.created }.setBytes v.created []) where
  errno := hs.errno
  name n := by
    show (s.names.insert filename v.created).lookup n = (v.createFile filename).lookup n
    by_cases hn : n = filename
    · rw [hn, Finmap.lookup_insert, Volume.lookup, Volume.createFile,
        List.find?_cons_of_pos (by simp)]
      rfl
    · rw [Finmap.lookup_insert_of_ne _ hn, hs.name, Volume.lookup, Volume.lookup, Volume.createFile,
        List.find?_cons_of_neg (by simpa using Ne.symm hn)]
  length f := by
    rw [Flat.bytes_setBytes, Volume.clusters_createFile]
    split_ifs
    · exact flattens_initial.length f
    · exact hs.length f
  byte f q b hb := by
    rw [Flat.bytes_setBytes] at hb
    rw [Volume.clusters_createFile]
    split_ifs at hb ⊢
    · cases hb
    · exact hs.byte f q b hb
  fd := hs.fd

/-- A descriptor moves on, and its file may change. -/
theorem seek (hs : Flattens v s) {fd : ℤ} {h : Handle} (hh : v.handle fd = some h) {c : Cursor}
    {p : ℕ} (bytes : List UInt8) (hp : c.pos = p) (hlength : (bytes.length : ℤ) = extent c.clusters)
    (hbyte : ∀ q b, bytes[q]? = some b → cell c.clusters q = some b) :
    Flattens (v.seek fd.toNat h c)
      ((s.setBytes h.file bytes).setFd fd (some ⟨h.file, p, h.flags⟩)) where
  errno := hs.errno
  name := hs.name
  length f := by
    show (((s.setBytes h.file bytes).bytes f).length : ℤ) = _
    rw [Flat.bytes_setBytes, Volume.clusters_seek]
    split_ifs
    · exact hlength
    · exact hs.length f
  byte f q b hb := by
    change ((s.setBytes h.file bytes).bytes f)[q]? = some b at hb
    rw [Flat.bytes_setBytes] at hb
    rw [Volume.clusters_seek]
    split_ifs at hb ⊢
    · exact hbyte q b hb
    · exact hs.byte f q b hb
  fd fd' := by
    rw [Flat.fds_setFd, Volume.handle_set hh rfl]
    split_ifs
    · rw [Option.map_some, Volume.cursor_seek, ← hp]
    · exact (hs.fd fd').trans (congrArg (Option.map · _) (funext fun x =>
        by rw [Volume.pos_cursor (v.seek fd.toNat h c) v]))

theorem close (hs : Flattens v s) {fd : ℤ} {h : Handle} (hh : v.handle fd = some h) :
    Flattens { v with slots := v.slots.set fd.toNat none } (s.setFd fd none) where
  errno := hs.errno
  name := hs.name
  length := hs.length
  byte := hs.byte
  fd fd' := by
    rw [Flat.fds_setFd, Volume.handle_set hh rfl]
    split_ifs
    · rfl
    · exact hs.fd fd'

theorem delete (hs : Flattens v s) (hv : v.Formed) (filename : CString) :
    Flattens { v with directory := v.directory.eraseP fun entry => entry.1 = filename }
      { s with names := s.names.erase filename } where
  errno := hs.errno
  name n := by
    rw [Volume.lookup, find_eraseP hv.keys]
    split_ifs with hn
    · rw [hn]
      exact Finmap.lookup_erase ..
    · exact (Finmap.lookup_erase_ne hn).trans (hs.name n)
  length := hs.length
  byte := hs.byte
  fd := hs.fd

/-- A file gets smaller. -/
theorem cut (hs : Flattens v s) (hv : v.Formed) {f newSize : ℕ}
    (hle : (newSize : ℤ) ≤ extent (v.clusters f)) :
    Flattens (v.cut f newSize) { s.setBytes f ((s.bytes f).take newSize) with
      fds := fun fd => (s.fds fd).map (Flat.clamp f newSize) } where
  errno := hs.errno
  name := hs.name
  length g := by
    show (((s.setBytes f ((s.bytes f).take newSize)).bytes g).length : ℤ) = _
    rw [Flat.bytes_setBytes, Volume.clusters_cut]
    split_ifs
    · have hlen := hs.length f
      rw [Volume.extent_resized (hv.shaped f), List.length_take]
      omega
    · exact hs.length g
  byte g q b hb := by
    change ((s.setBytes f ((s.bytes f).take newSize)).bytes g)[q]? = some b at hb
    rw [Flat.bytes_setBytes] at hb
    rw [Volume.clusters_cut]
    split_ifs at hb ⊢
    · have hq := (List.getElem?_eq_some_iff.mp hb).1
      rw [List.length_take] at hq
      rw [List.getElem?_take_of_lt (by omega)] at hb
      have hcell := hs.byte f q b hb
      have hk : Volume.cutBlock (v.clusters f) newSize =
          min ((v.clusters f).length - 1) (newSize / 512) := rfl
      have hblock : q / 512 < (v.clusters f).length := by
        rw [cell] at hcell
        obtain ⟨c, hc, -⟩ := Option.bind_eq_some_iff.mp hcell
        exact (List.getElem?_eq_some_iff.mp hc).1
      rw [Volume.cell_resized (hv.shaped f), if_pos (by omega)]
      exact hcell
    · exact hs.byte g q b hb
  fd fd := by
    show (s.fds fd).map (Flat.clamp f newSize) = _
    rw [hs.fd, Option.map_map, hv.cut_handle]
    rfl

theorem unused (hs : Flattens v s) (hv : v.Formed) : s.Unused v.created := by
  constructor
  · intro n hn
    rw [hs.name] at hn
    exact Nat.lt_irrefl _ (hv.listed n _ (Volume.lookup_mem hn))
  · intro fd x hx
    rw [hs.fd] at hx
    obtain ⟨h, hh, rfl⟩ := Option.map_eq_some_iff.mp hx
    exact Nat.ne_of_lt (hv.opened _ h (Volume.slot_of_handle hh))

/-- What a call does to the volume is what the flat system does. -/
theorem exec (hs : Flattens v s) (hv : v.Formed) (hcalm : ∀ f, v.Calm f) {op : Op} {out : Out}
    (hd : v.Did op out v') (hop : op.Moderate) (hshrinks : v.Shrinks op) :
    ∃ s', s.exec v.freeSlot v.created op = (out, s') ∧ Flattens v' s' := by
  cases hd with
  | failed hf => exact ⟨_, hs.fails hf _ _, { hs with errno := rfl }⟩
  | @opened filename flags f hlookup =>
    refine ⟨_, ?_, hs.openFile f flags⟩
    simp only [Flat.exec, (hs.name filename).trans hlookup, ← hs.errno]
    rfl
  | @created filename flags hlookup hflag =>
    refine ⟨_, ?_, (hs.createFile filename).openFile v.created flags⟩
    simp only [Flat.exec, (hs.name filename).trans hlookup, if_pos hflag, ← hs.errno]
    rfl
  | @written fd buf h c hh hflag hroom hc =>
    have hslot := Volume.slot_of_handle hh
    have hinside := (hcalm h.file).inside _ h hslot rfl
    have hlen := hs.length h.file
    have hp : (v.cursor h).pos ≤ (s.bytes h.file).length := by omega
    have hextent := (hc.short (hv.cursor _ h hslot) (hcalm h.file).short hinside).2
    refine ⟨_, ?_, hs.seek hh (overwrite (s.bytes h.file) (v.cursor h).pos buf) hc.pos ?_
      fun q b hb => ?_⟩
    · simp only [Flat.exec, hs.fd_some hh, if_neg hflag, if_neg (not_lt.mpr hroom), Flat.succeed,
        ← hs.errno]
      rfl
    · rw [length_overwrite hp, hextent, Volume.clusters_cursor, ← hlen]
      omega
    · rw [getElem?_overwrite hp] at hb
      rw [hc.cell]
      split_ifs at hb ⊢
      · exact hb
      · exact hs.byte h.file q b hb
  | @read fd size h n bytes c hh hflag hn hc =>
    have hslot := Volume.slot_of_handle hh
    have hsize : int size = size := int_eq (by omega) (by
      have hle : (size : ℤ) ≤ 2 ^ 31 - 1 - maxFileSize := hop
      rw [maxFileSize_eq] at hle
      omega)
    have hlen := hs.length h.file
    have hinside := (hcalm h.file).inside _ h hslot rfl
    have hle := (hcalm h.file).read_le hslot hn
    obtain ⟨-, hextent⟩ := hc.short (hv.cursor _ h hslot) (hcalm h.file).short hle
    rw [hsize, Volume.readCount_eq] at hn
    obtain ⟨data, hdata⟩ : ∃ data, data = ((s.bytes h.file).drop (v.cursor h).pos).take size :=
      ⟨_, rfl⟩
    have hcount : n = data.length := by
      rw [hdata, List.length_take, List.length_drop]
      omega
    have hbytes : bytes = data.map some := by
      rw [hc.bytes, hcount, Int.toNat_natCast]
      refine List.ext_getElem (by simp) fun i hi hi' => ?_
      rw [List.length_map] at hi'
      rw [List.getElem_map, List.getElem_map, List.getElem_range]
      refine hs.byte h.file _ _ ?_
      have hlt : i < size := by
        rw [hdata, List.length_take] at hi'
        omega
      rw [← List.getElem?_drop, ← List.getElem?_take_of_lt hlt, ← hdata, List.getElem?_eq_getElem hi']
    refine ⟨_, ?_, hs.seek hh (s.bytes h.file) (hc.pos.trans (congrArg (_ + Int.toNat ·) hcount))
      (hlen.trans hextent.symm) fun q b hb => (hc.cell q).trans (hs.byte _ q b hb)⟩
    simp only [Flat.exec, hs.fd_some hh, if_neg hflag, ← hs.errno, hbytes, hcount, ← hdata,
      Flat.setBytes, Function.update_eq_self, Int.toNat_natCast]
    rfl
  | closed hh =>
    refine ⟨_, ?_, hs.close hh⟩
    simp only [Flat.exec, hs.fd_some hh, ← hs.errno]
    rfl
  | @deleted filename f hlookup =>
    refine ⟨_, ?_, hs.delete hv filename⟩
    simp only [Flat.exec, (hs.name filename).trans hlookup, ← hs.errno]
    rfl
  | @resized fd newSize h hh hlarge =>
    refine ⟨_, ?_, hs.cut hv (hshrinks h hh).1⟩
    simp only [Flat.exec, hs.fd_some hh, if_neg (not_le.mpr hlarge), ← hs.errno]
    rfl

end Flattens

/-! ### Runs -/

namespace Fs

/-- A resize of an open file is to at most its size, and below the limit. -/
def Shrinks (fs : Fs) : Op → Prop
  | .resize fd newSize => ∀ d size, fs.descriptorAt fd = some d → fs.sizeOf d.file = some size →
    (newSize : ℤ) ≤ size ∧ (newSize : ℤ) < maxFileSize
  | _ => True

/-- Names, descriptors and contents are the ones in the heaps. -/
structure Abstracts (fs : Fs) (s : Flat) : Prop where
  errno : s.errno = fs.ufsErrorCode
  name : ∀ filename, fs.tryGetFileByFilename filename = some (s.names.lookup filename)
  closed : ∀ fd, fs.descriptorAt fd = none → s.fds fd = none
  opened : ∀ fd d, fs.descriptorAt fd = some d → ∃ p : ℕ, fs.positionOf d = some (p : ℤ) ∧
    s.fds fd = some ⟨d.file, p, d.flags⟩
  size : ∀ f file, fs.files.load f = some file → fs.sizeOf f = some ((s.bytes f).length : ℤ)
  byte : ∀ f file q b, fs.files.load f = some file → (s.bytes f)[q]? = some b →
    fs.byteAt f q = some b

end Fs

variable {fs fs' : Fs} {v v' : Volume} {s : Flat}

theorem Mirrors.shrinks (h : Mirrors fs v) {op : Op} (hop : fs.Shrinks op) : v.Shrinks op := by
  cases op with
  | resize fd newSize =>
    intro x hx
    obtain ⟨d, hd, hs⟩ := h.handle hx
    exact hop d _ hd hs.size
  | _ => trivial

theorem Volume.Shrinks.tame {op : Op} (hop : v.Shrinks op) (hcalm : ∀ f, v.Calm f)
    (hv : v.Formed) (f : ℕ) : v.Tame f op := by
  cases op with
  | resize fd newSize =>
    rintro x hx rfl -
    have hle := (hop x hx).1
    have hshort := (hcalm x.file).short
    have hlength := (hv.shaped x.file).length
    rw [extent, blockSize_eq] at hle
    rw [blockSize_eq] at hshort
    omega
  | _ => trivial

theorem Mirrors.abstracts (h : Mirrors fs v) (hs : Flattens v s) : fs.Abstracts s := by
  obtain ⟨l, hr⟩ := h.represents
  refine ⟨hs.errno.trans hr.errno.symm, fun n => ?_, fun fd hd => hs.fd_none ?_, fun fd d hd => ?_,
    fun f file hf => ?_, fun f file q b hf hb => ?_⟩
  · rw [hr.lookup, hs.name]
  · cases hx : v.handle fd with
    | none => rfl
    | some x =>
      obtain ⟨d, hd', -⟩ := h.handle hx
      cases hd.symm.trans hd'
  · obtain ⟨x, hx, hstands⟩ := h.opened hd
    refine ⟨_, hstands.position, ?_⟩
    rw [hs.fd_some hx, hstands.file, hstands.flags]
  · rw [hr.sizeOf_eq (h.formed.shaped f) hf, hs.length]
  · rw [hr.byteAt_eq hf, hs.byte f q b hb]

/-- The volume, its heaps and its flat file system, after a run. -/
structure Refines (fs : Fs) (s : Flat) (v : Volume) : Prop where
  mirrors : Mirrors fs v
  regular : v.Regular
  flattens : Flattens v s

theorem Refines.step (h : Refines fs s v) {e : Event} (hop : e.1.Moderate) (hshrinks : fs.Shrinks e.1)
    (hstep : fs.Step e fs') : ∃ s' v', s.Step e s' ∧ Refines fs' s' v' := by
  obtain ⟨hm, hv, hs⟩ := h
  have hformed := hm.formed
  have hshrinks' := hm.shrinks hshrinks
  obtain ⟨v', -, hd, hm'⟩ := hm.step (hm.fits hop) hstep
  obtain ⟨s', hexec, hs'⟩ := hs.exec hformed hv.calm hd hop hshrinks'
  refine ⟨s', v', ⟨v.freeSlot, v.created, by omega, hs.fd_none v.handle_freeSlot, hs.unused hformed,
    hexec⟩, hm', hd.regular hv hformed fun f => ?_, hs'⟩
  exact hshrinks'.tame hv.calm hformed f

/-- What a run of the file system shows is what a run of the flat one does, and every call has a
result. -/
theorem refines_flat {es : List Event}
    (hrun : Run (restrict Fs.Step fun fs e => e.1.Moderate ∧ fs.Shrinks e.1) .initial es fs) :
    ∃ s, Run Flat.Step .initial es s ∧ fs.Abstracts s ∧
      ∀ op, op.Moderate → ∃ out fs', fs.Step (op, out) fs' := by
  obtain ⟨s, hflat, v, h⟩ : ∃ s, Run Flat.Step .initial es s ∧ ∃ v, Refines fs s v := by
    refine hrun.simulate (R := fun fs s => ∃ v, Refines fs s v) (fun fs s e fs' ⟨v, h⟩ hstep => ?_)
      ⟨_, mirrors_initial, Volume.regular_initial, flattens_initial⟩
    obtain ⟨s', v', hstep', h'⟩ := h.step hstep.1.1 hstep.1.2 hstep.2
    exact ⟨s', hstep', v', h'⟩
  refine ⟨s, hflat, h.mirrors.abstracts h.flattens, fun op hop => ?_⟩
  obtain ⟨out, fs', -, hcall, -⟩ := h.mirrors.exec op (h.mirrors.fits hop)
  exact ⟨out, fs', hcall⟩

/-- A descriptor that outlives the name of its file is moved back by a resize through another one. -/
theorem refines_flat_deleted : ∃ fs : Fs,
    (∃ s, Run Flat.Step .initial
      [(.open [102] ufsCreate, ⟨0, .noErr, []⟩), (.write 0 [1, 2, 3], ⟨3, .noErr, []⟩),
        (.open [102] 0, ⟨1, .noErr, []⟩), (.delete [102], ⟨0, .noErr, []⟩),
        (.resize 1 2, ⟨0, .noErr, []⟩), (.write 0 [4], ⟨1, .noErr, []⟩),
        (.read 1 5, ⟨3, .noErr, [some 1, some 2, some 4]⟩)] s ∧ fs.Abstracts s ∧
      ∀ op, op.Moderate → ∃ out fs', fs.Step (op, out) fs') ∧
    fs.tryGetFileByFilename [102] = some none := by
  obtain ⟨fs, hname, hrun⟩ : ∃ fs : Fs, fs.tryGetFileByFilename [102] = some none ∧
      Run (restrict Fs.Step fun fs e => e.1.Moderate ∧ fs.Shrinks e.1) .initial
        [(.open [102] ufsCreate, ⟨0, .noErr, []⟩), (.write 0 [1, 2, 3], ⟨3, .noErr, []⟩),
          (.open [102] 0, ⟨1, .noErr, []⟩), (.delete [102], ⟨0, .noErr, []⟩),
          (.resize 1 2, ⟨0, .noErr, []⟩), (.write 0 [4], ⟨1, .noErr, []⟩),
          (.read 1 5, ⟨3, .noErr, [some 1, some 2, some 4]⟩)] fs := by
    have hmoderate : ∀ n : ℕ, n ≤ 5 → (n : ℤ) ≤ 2 ^ 31 - 1 - maxFileSize := fun n hn => by
      rw [maxFileSize_eq]
      omega
    refine ⟨_, ?_, .cons ⟨⟨trivial, trivial⟩, rfl⟩ (.cons ⟨⟨hmoderate _ ?_, trivial⟩, rfl⟩
      (.cons ⟨⟨trivial, trivial⟩, rfl⟩ (.cons ⟨⟨trivial, trivial⟩, rfl⟩
      (.cons ⟨⟨trivial, ?_⟩, rfl⟩ (.cons ⟨⟨hmoderate _ ?_, trivial⟩, rfl⟩
      (.single ⟨⟨hmoderate _ ?_, trivial⟩, rfl⟩))))))⟩
    · rfl
    · decide
    · intro d size hd hsize
      cases hd
      cases hsize
      decide
    · decide
    · decide
  exact ⟨fs, refines_flat hrun, hname⟩

end SystemsProgramming.UserFs

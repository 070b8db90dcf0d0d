import SystemsProgramming.UserFs.Contents

/-! Files do not disturb one another. A read, a write or a resize of one file may move blocks and
descriptors of this file and sets the error code, and what is done with other files later does not depend
on it. A volume is looked at with the positions and the blocks of some files only; the calls on the other
files can then be left out of any run. -/

namespace SystemsProgramming.UserFs

open Transition

section
variable (F : ℕ → Prop) [DecidablePred F]

/-- A descriptor of which the position counts only if its file does. -/
def Handle.view (h : Handle) : Handle := if F h.file then h else { h with block := 0, offset := 0 }

variable {F}

theorem Handle.view_of_mem {h : Handle} (hf : F h.file) : h.view F = h := if_pos hf

theorem Handle.view_of_not_mem {h : Handle} (hf : ¬F h.file) :
    h.view F = { h with block := 0, offset := 0 } := if_neg hf

theorem Handle.view_file (h : Handle) : (h.view F).file = h.file := by
  rw [Handle.view]
  split_ifs <;> rfl

/-- Where a descriptor of another file stands does not count. -/
theorem Handle.view_moved {h : Handle} (hf : ¬F h.file) (k : ℕ) (o : ℤ) :
    ({ h with block := k, offset := o } : Handle).view F = h.view F := by
  rw [Handle.view_of_not_mem hf]
  exact if_neg hf

/-- A cut in a file of the set moves the same descriptors as far. -/
theorem Handle.view_clamp {f : ℕ} (hf : F f) (k : ℕ) (o : ℤ) (h : Handle) :
    (h.clamp f k o).view F = (h.view F).clamp f k o := by
  by_cases hmem : F h.file
  · rw [Handle.view_of_mem hmem, Handle.view_of_mem (by rwa [Handle.clamp_file])]
  · have hfile : h.file ≠ f := fun heq => hmem (heq ▸ hf)
    rw [Handle.clamp_self (.inl hfile), Handle.clamp_self (.inl (by rwa [Handle.view_file]))]

/-- A cut in another file moves none that counts. -/
theorem Handle.view_clamp_other {f : ℕ} (hf : ¬F f) (k : ℕ) (o : ℤ) (h : Handle) :
    (h.clamp f k o).view F = h.view F := by
  rw [Handle.clamp]
  split_ifs with hcond
  · rfl
  · have hfile : h.file = f := by
      by_contra hne
      exact hcond (.inl hne)
    exact Handle.view_moved (hfile ▸ hf) ..

theorem Handle.map_view_clamp {f : ℕ} (hf : F f) (k : ℕ) (o : ℤ) (xs : List (Option Handle)) :
    (xs.map (Option.map (Handle.clamp f k o))).map (Option.map (Handle.view F)) =
      (xs.map (Option.map (Handle.view F))).map (Option.map (Handle.clamp f k o)) := by
  rw [List.map_map, List.map_map]
  refine List.map_congr_left fun x _ => ?_
  cases x with
  | none => rfl
  | some h => exact congrArg some (Handle.view_clamp hf k o h)

end

/-! ### Volumes that look alike -/

namespace Volume

/-- Volumes with the same names, descriptors of the same files, and the same blocks and positions in the
files of a set. -/
structure Shares (F : ℕ → Prop) [DecidablePred F] (v w : Volume) : Prop where
  directory : v.directory = w.directory
  created : v.created = w.created
  clusters : ∀ f, F f → v.clusters f = w.clusters f
  slots : v.slots.map (Option.map (Handle.view F)) = w.slots.map (Option.map (Handle.view F))

/-- A call that is not a read, a write or a resize of a file outside of the set. -/
def Concerns (F : ℕ → Prop) (v : Volume) : Op → Prop
  | .write fd _ => ∀ h, v.handle fd = some h → F h.file
  | .read fd _ => ∀ h, v.handle fd = some h → F h.file
  | .resize fd _ => ∀ h, v.handle fd = some h → F h.file
  | _ => True

variable {F : ℕ → Prop} [DecidablePred F] {v v' w w' : Volume} {fd : ℤ} {h : Handle}

namespace Shares

theorem refl (F : ℕ → Prop) [DecidablePred F] (v : Volume) : Shares F v v :=
  ⟨rfl, rfl, fun _ _ => rfl, rfl⟩

theorem symm (hs : Shares F v w) : Shares F w v :=
  ⟨hs.directory.symm, hs.created.symm, fun f hf => (hs.clusters f hf).symm, hs.slots.symm⟩

theorem trans {u : Volume} (hs : Shares F v w) (hs' : Shares F w u) : Shares F v u :=
  ⟨hs.directory.trans hs'.directory, hs.created.trans hs'.created,
    fun f hf => (hs.clusters f hf).trans (hs'.clusters f hf), hs.slots.trans hs'.slots⟩

theorem errno (hs : Shares F v w) (e e' : ErrorCode) :
    Shares F { v with errno := e } { w with errno := e' } :=
  ⟨hs.directory, hs.created, hs.clusters, hs.slots⟩

theorem handle_map (hs : Shares F v w) (fd : ℤ) :
    (v.handle fd).map (Handle.view F) = (w.handle fd).map (Handle.view F) := by
  have hslot := congrArg (fun xs => xs[fd.toNat]?.join) hs.slots
  simp only [List.getElem?_map] at hslot
  rw [Volume.handle, Volume.handle]
  split_ifs
  · rfl
  · cases hv : v.slots[fd.toNat]? <;> cases hw : w.slots[fd.toNat]? <;> rw [hv, hw] at hslot <;>
      simpa using hslot

theorem handle_none (hs : Shares F v w) (hh : v.handle fd = none) : w.handle fd = none := by
  have hmap := hs.handle_map fd
  rw [hh] at hmap
  exact Option.map_eq_none_iff.mp hmap.symm

theorem handle_some (hs : Shares F v w) (hh : v.handle fd = some h) :
    ∃ x, w.handle fd = some x ∧ x.view F = h.view F := by
  have hmap := hs.handle_map fd
  rw [hh] at hmap
  exact Option.map_eq_some_iff.mp hmap.symm

/-- A descriptor of a file of the set stands where it stands. -/
theorem handle_mem (hs : Shares F v w) (hh : v.handle fd = some h) (hf : F h.file) :
    w.handle fd = some h := by
  obtain ⟨x, hx, hview⟩ := hs.handle_some hh
  have hfile : x.file = h.file := by rw [← Handle.view_file (F := F), hview, Handle.view_file]
  rw [Handle.view_of_mem hf, Handle.view_of_mem (hfile ▸ hf)] at hview
  rw [hx, hview]

theorem cursor (hs : Shares F v w) (hf : F h.file) : v.cursor h = w.cursor h := by
  rw [Volume.cursor, Volume.cursor, hs.clusters _ hf]

theorem lookup (hs : Shares F v w) (filename : CString) : v.lookup filename = w.lookup filename := by
  rw [Volume.lookup, Volume.lookup, hs.directory]

theorem freeSlot (hs : Shares F v w) : v.freeSlot = w.freeSlot := by
  have hfree := congrArg SystemsProgramming.freeSlot hs.slots
  rwa [freeSlot_map, freeSlot_map] at hfree

/-! ### The calls -/

theorem openFile (hs : Shares F v w) (f : ℕ) (flags : UInt32) :
    (v.openFile f flags).1 = (w.openFile f flags).1 ∧
      Shares F (v.openFile f flags).2 (w.openFile f flags).2 := by
  refine ⟨congrArg Nat.cast hs.freeSlot, hs.directory, hs.created, hs.clusters, ?_⟩
  show (place v.slots _).map _ = (place w.slots _).map _
  rw [place_map, place_map, hs.slots]

theorem createFile (hs : Shares F v w) (filename : CString) :
    Shares F (v.createFile filename) (w.createFile filename) where
  directory := by rw [Volume.createFile, Volume.createFile, hs.directory, hs.created]
  created := congrArg (· + 1) hs.created
  clusters f hf := by
    rw [clusters_createFile, clusters_createFile, hs.created, hs.clusters f hf]
  slots := hs.slots

theorem seek (hs : Shares F v w) (i : ℕ) (h : Handle) (c : Cursor) :
    Shares F (v.seek i h c) (w.seek i h c) where
  directory := hs.directory
  created := hs.created
  clusters f hf := by rw [clusters_seek, clusters_seek, hs.clusters f hf]
  slots := by rw [Volume.seek, Volume.seek, List.map_set, List.map_set, hs.slots]

/-- A descriptor of another file is moved. -/
theorem seek_other (hh : v.handle fd = some h) (hf : ¬F h.file) (c : Cursor) :
    Shares F (v.seek fd.toNat h c) v where
  directory := rfl
  created := rfl
  clusters f hf' := by
    rw [clusters_seek, if_neg]
    rintro rfl
    exact hf hf'
  slots := by
    obtain ⟨hlt, hslot⟩ := List.getElem?_eq_some_iff.mp (slot_of_handle hh)
    rw [Volume.seek, List.map_set, Option.map_some, Handle.view_moved hf, ← Option.map_some, ← List.map_set,
      ← hslot, List.set_getElem_self]

theorem close (hs : Shares F v w) (i : ℕ) :
    Shares F { v with slots := v.slots.set i none } { w with slots := w.slots.set i none } :=
  ⟨hs.directory, hs.created, hs.clusters, by rw [List.map_set, List.map_set, hs.slots]⟩

theorem delete (hs : Shares F v w) (p : CString × ℕ → Bool) :
    Shares F { v with directory := v.directory.eraseP p } { w with directory := w.directory.eraseP p } :=
  ⟨congrArg (List.eraseP p) hs.directory, hs.created, hs.clusters, hs.slots⟩

theorem reduceFileSize (hs : Shares F v w) {f : ℕ} (hf : F f) {newSize : ℤ}
    (hv : v.reduceFileSize f newSize = some v') :
    ∃ w', w.reduceFileSize f newSize = some w' ∧ Shares F v' w' := by
  obtain ⟨k, hk, hv⟩ := Option.bind_eq_some_iff.mp hv
  obtain rfl := Option.some.inj hv
  rw [hs.clusters f hf] at hk
  refine ⟨_, Option.bind_eq_some_iff.mpr ⟨k, hk, rfl⟩, hs.directory, hs.created, fun g hg => ?_, ?_⟩
  · simp only [Function.update_apply, hs.clusters f hf, hs.clusters g hg]
  · rw [Handle.map_view_clamp hf, Handle.map_view_clamp hf, hs.slots]

/-- Another file is cut. -/
theorem reduceFileSize_other {f : ℕ} (hf : ¬F f) {newSize : ℤ}
    (hv : v.reduceFileSize f newSize = some v') : Shares F v' v := by
  obtain ⟨k, -, hv⟩ := Option.bind_eq_some_iff.mp hv
  obtain rfl := Option.some.inj hv
  refine ⟨rfl, rfl, fun g hg => Function.update_of_ne ?_ .., ?_⟩
  · rintro rfl
    exact hf hg
  · rw [List.map_map]
    refine List.map_congr_left fun x _ => ?_
    cases x with
    | none => rfl
    | some h => exact congrArg some (Handle.view_clamp_other hf k _ h)

end Shares

/-- A call that does not concern the files of the set changes nothing that can be seen from them. -/
theorem Shares.hidden {op : Op} {out : Out} (hop : ¬v.Concerns F op) (hv : v.exec op = some (out, v')) :
    Shares F v' v := by
  have hthrow : ∀ {e : ErrorCode} {ret : ℤ}, observe (ret, { v with errno := e }) = (out, v') →
      Shares F v' v := fun hthrow => by
    obtain ⟨-, rfl⟩ := Prod.mk.inj hthrow
    exact (Shares.refl F v).errno _ _
  cases op with
  | write fd buf =>
    obtain ⟨h, hh, hf⟩ : ∃ h, v.handle fd = some h ∧ ¬F h.file := by simpa [Concerns] using hop
    rw [Volume.exec, Volume.ufsWrite, hh] at hv
    dsimp only at hv
    split_ifs at hv
    · exact hthrow (Option.some.inj hv)
    · exact hthrow (Option.some.inj hv)
    · obtain ⟨⟨ret, w⟩, hw, hv⟩ := Option.map_eq_some_iff.mp hv
      obtain ⟨c, -, hc⟩ := Option.bind_eq_some_iff.mp hw
      obtain ⟨-, rfl⟩ := Prod.mk.inj (Option.some.inj hc)
      obtain ⟨-, rfl⟩ := Prod.mk.inj hv
      exact Shares.seek_other hh hf c
  | read fd size =>
    obtain ⟨h, hh, hf⟩ : ∃ h, v.handle fd = some h ∧ ¬F h.file := by simpa [Concerns] using hop
    rw [Volume.exec, Volume.ufsRead, hh] at hv
    dsimp only at hv
    split_ifs at hv
    · obtain ⟨-, rfl⟩ := Prod.mk.inj (Option.some.inj hv)
      exact (Shares.refl F v).errno _ _
    · obtain ⟨⟨ret, bytes, w⟩, hw, hv⟩ := Option.map_eq_some_iff.mp hv
      obtain ⟨-, rfl⟩ := Prod.mk.inj hv
      obtain ⟨total, -, hw⟩ := Option.bind_eq_some_iff.mp hw
      obtain ⟨⟨bytes', c⟩, -, hc⟩ := Option.bind_eq_some_iff.mp hw
      obtain ⟨-, hc⟩ := Prod.mk.inj (Option.some.inj hc)
      obtain ⟨-, rfl⟩ := Prod.mk.inj hc
      exact Shares.seek_other hh hf c
  | resize fd newSize =>
    obtain ⟨h, hh, hf⟩ : ∃ h, v.handle fd = some h ∧ ¬F h.file := by simpa [Concerns] using hop
    rw [Volume.exec, Volume.ufsResize, hh] at hv
    dsimp only at hv
    split_ifs at hv
    · exact hthrow (Option.some.inj hv)
    · obtain ⟨⟨ret, w⟩, hw, hv⟩ := Option.map_eq_some_iff.mp hv
      obtain ⟨w', hw', hret⟩ := Option.map_eq_some_iff.mp hw
      obtain ⟨-, rfl⟩ := Prod.mk.inj hv
      obtain ⟨-, rfl⟩ := Prod.mk.inj hret
      exact Shares.reduceFileSize_other hf hw'
  | _ => exact absurd trivial hop

/-! ### The calls that are seen -/

/-- A function returns the same value. -/
def Answers (F : ℕ → Prop) [DecidablePred F] (r r' : ℤ × Volume) : Prop :=
  r.1 = r'.1 ∧ Shares F r.2 r'.2

/-- Two computations that begin alike. -/
theorem rel_bind {α β γ : Type*} {r : β → γ → Prop} {f : α → Option β} {g : α → Option γ} (x : Option α)
    (hfg : ∀ a, Option.Rel r (f a) (g a)) : Option.Rel r (x.bind f) (x.bind g) := by
  cases x with
  | none => exact .none
  | some a => exact hfg a

theorem Shares.throw (hs : Shares F v w) (e : ErrorCode) : Answers F (v.throw e) (w.throw e) :=
  ⟨rfl, hs.errno e e⟩

theorem Shares.ufsOpen (hs : Shares F v w) (filename : CString) (flags : UInt32) :
    Answers F (v.ufsOpen filename flags) (w.ufsOpen filename flags) := by
  unfold Volume.ufsOpen
  rw [hs.lookup]
  cases w.lookup filename with
  | some f => exact hs.openFile f flags
  | none =>
    dsimp only
    rw [hs.created]
    split_ifs
    · exact (hs.createFile filename).openFile _ flags
    · exact hs.throw .noFile

theorem Shares.ufsClose (hs : Shares F v w) (fd : ℤ) : Answers F (v.ufsClose fd) (w.ufsClose fd) := by
  unfold Volume.ufsClose
  cases hh : v.handle fd with
  | none =>
    rw [hs.handle_none hh]
    exact hs.throw .noFile
  | some h =>
    obtain ⟨x, hx, -⟩ := hs.handle_some hh
    rw [hx]
    exact ⟨rfl, hs.close fd.toNat⟩

theorem Shares.ufsDelete (hs : Shares F v w) (filename : CString) :
    Answers F (v.ufsDelete filename) (w.ufsDelete filename) := by
  unfold Volume.ufsDelete
  rw [hs.lookup]
  cases w.lookup filename with
  | none => exact hs.throw .noFile
  | some f => exact ⟨rfl, hs.delete _⟩

theorem Shares.ufsWrite (hs : Shares F v w) {buf : List UInt8} (hop : v.Concerns F (.write fd buf)) :
    Option.Rel (Answers F) (v.ufsWrite fd buf) (w.ufsWrite fd buf) := by
  unfold Volume.ufsWrite
  cases hh : v.handle fd with
  | none =>
    rw [hs.handle_none hh]
    exact .some (hs.throw .noFile)
  | some h =>
    have hf := hop h hh
    rw [hs.handle_mem hh hf]
    dsimp only
    split_ifs
    · exact .some (hs.throw .noPermission)
    · exact .some (hs.throw .noMem)
    · rw [hs.cursor hf]
      exact rel_bind _ fun c => .some ⟨rfl, hs.seek fd.toNat h c⟩

theorem Shares.ufsRead (hs : Shares F v w) {size : ℕ} (hop : v.Concerns F (.read fd size)) :
    Option.Rel (fun r r' => r.1 = r'.1 ∧ r.2.1 = r'.2.1 ∧ Shares F r.2.2 r'.2.2) (v.ufsRead fd size)
      (w.ufsRead fd size) := by
  unfold Volume.ufsRead
  cases hh : v.handle fd with
  | none =>
    rw [hs.handle_none hh]
    exact .some ⟨rfl, rfl, hs.errno _ _⟩
  | some h =>
    have hf := hop h hh
    rw [hs.handle_mem hh hf]
    dsimp only
    split_ifs
    · exact .some ⟨rfl, rfl, hs.errno _ _⟩
    · rw [hs.cursor hf, hs.clusters _ hf]
      refine rel_bind _ fun total => rel_bind _ fun r => ?_
      exact .some ⟨rfl, rfl, hs.seek fd.toNat h r.2⟩

theorem Shares.ufsResize (hs : Shares F v w) {newSize : ℕ} (hop : v.Concerns F (.resize fd newSize)) :
    Option.Rel (Answers F) (v.ufsResize fd newSize) (w.ufsResize fd newSize) := by
  unfold Volume.ufsResize
  cases hh : v.handle fd with
  | none =>
    rw [hs.handle_none hh]
    exact .some (hs.throw .noFile)
  | some h =>
    have hf := hop h hh
    rw [hs.handle_mem hh hf]
    dsimp only
    split_ifs
    · exact .some (hs.throw .noMem)
    · cases hv : v.reduceFileSize h.file newSize with
      | none =>
        cases hw : w.reduceFileSize h.file newSize with
        | none => exact .none
        | some w' =>
          obtain ⟨v', hv', -⟩ := hs.symm.reduceFileSize hf hw
          cases hv.symm.trans hv'
      | some v' =>
        obtain ⟨w', hw', hs'⟩ := hs.reduceFileSize hf hv
        rw [hw']
        exact .some ⟨rfl, hs'⟩

/-- A call that concerns the files of the set has the same value and hands out the same bytes. -/
theorem Shares.exec (hs : Shares F v w) {op : Op} (hop : v.Concerns F op) :
    Option.Rel (fun r r' => r.1.ret = r'.1.ret ∧ r.1.bytes = r'.1.bytes ∧ Shares F r.2 r'.2)
      (v.exec op) (w.exec op) := by
  have hobserve : ∀ {r r' : ℤ × Volume}, Answers F r r' → (observe r).1.ret = (observe r').1.ret ∧
      (observe r).1.bytes = (observe r').1.bytes ∧ Shares F (observe r).2 (observe r').2 :=
    fun hr => ⟨hr.1, rfl, hr.2⟩
  have hmap : ∀ {x y : Option (ℤ × Volume)}, Option.Rel (Answers F) x y →
      Option.Rel (fun r r' => r.1.ret = r'.1.ret ∧ r.1.bytes = r'.1.bytes ∧ Shares F r.2 r'.2)
        (x.map observe) (y.map observe) := fun hrel => by
    cases hrel with
    | none => exact .none
    | some hr => exact .some (hobserve hr)
  cases op with
  | «open» filename flags => exact .some (hobserve (hs.ufsOpen filename flags))
  | write fd buf => exact hmap (hs.ufsWrite hop)
  | read fd size =>
    have hrel := hs.ufsRead hop
    rw [Volume.exec, Volume.exec]
    revert hrel
    generalize v.ufsRead fd size = x
    generalize w.ufsRead fd size = y
    intro hrel
    cases hrel with
    | none => exact .none
    | some hr => exact .some hr
  | close fd => exact .some (hobserve (hs.ufsClose fd))
  | delete filename => exact .some (hobserve (hs.ufsDelete filename))
  | resize fd newSize => exact hmap (hs.ufsResize hop)

/-- The reason for which a call fails is there in both. -/
theorem Shares.fails (hs : Shares F v w) {op : Op} {error : ErrorCode} (hop : v.Concerns F op)
    (hfails : v.Fails op error) : w.Fails op error := by
  cases hfails with
  | missing hlookup hflag => exact .missing ((hs.lookup _).symm.trans hlookup) hflag
  | unknown hlookup => exact .unknown ((hs.lookup _).symm.trans hlookup)
  | notOpen hfd hnone => exact .notOpen hfd (hs.handle_none hnone)
  | readOnly hh hflag => exact .readOnly (hs.handle_mem hh (hop _ hh)) hflag
  | writeOnly hh hflag => exact .writeOnly (hs.handle_mem hh (hop _ hh)) hflag
  | full hh hflag hlarge =>
    have hf := hop _ hh
    exact .full (hs.handle_mem hh hf) hflag (by rwa [← hs.cursor hf])
  | large hh hlarge => exact .large (hs.handle_mem hh (hop _ hh)) hlarge

theorem Shares.fits (hs : Shares F v w) {op : Op} (hop : v.Concerns F op) (hfits : v.Fits op) :
    w.Fits op := by
  cases op with
  | write fd buf =>
    intro x hx hflag
    obtain ⟨h, hh, hview⟩ := hs.symm.handle_some hx
    have hf := hop h hh
    obtain rfl := Option.some.inj (hx.symm.trans (hs.handle_mem hh hf))
    rw [← hs.cursor hf]
    exact hfits _ hh hflag
  | _ => trivial

theorem natCast_ne_neg_one (n : ℕ) : (n : ℤ) ≠ -1 := by omega

/-- A call that returns -1 has failed, unless it is a read that is permitted. -/
theorem Did.fails_of_ret {op : Op} {out : Out} (hd : v.Did op out v') (hret : out.ret = -1)
    (hread : ∀ fd size, op = .read fd size → ∀ h, v.handle fd = some h →
      specificFlagIsPresent h.flags ufsWriteOnly) : v.Fails op out.errno := by
  cases hd with
  | failed hfails => exact hfails
  | opened => exact absurd hret (natCast_ne_neg_one _)
  | created => exact absurd hret (natCast_ne_neg_one _)
  | written => exact absurd hret (natCast_ne_neg_one _)
  | read hh hflag => exact absurd (hread _ _ rfl _ hh) hflag
  | closed => exact absurd hret (natCast_ne_neg_one 0)
  | deleted => exact absurd hret (natCast_ne_neg_one 0)
  | resized => exact absurd hret (natCast_ne_neg_one 0)

end Volume

/-! ### The runs of the file system -/

/-- A call that is not a read, a write or a resize of a file outside of the set. -/
def Fs.Concerns (F : ℕ → Prop) (fs : Fs) : Op → Prop
  | .write fd _ => ∀ d, fs.descriptorAt fd = some d → F d.file
  | .read fd _ => ∀ d, fs.descriptorAt fd = some d → F d.file
  | .resize fd _ => ∀ d, fs.descriptorAt fd = some d → F d.file
  | _ => True

/-- A read of a number that is not open, or that is open to write only. -/
def Fs.RefusesRead (fs : Fs) (fd : ℤ) : Prop :=
  ∀ d, fs.descriptorAt fd = some d → specificFlagIsPresent d.flags ufsWriteOnly

/-- The same call with the same value and the same bytes and, if it is refused, with the same error. A
read that is not refused may return -1 too, and does not set the error. -/
structure SameAnswer (seen : Fs × Event) (e : Event) : Prop where
  call : seen.2.1 = e.1
  ret : seen.2.2.ret = e.2.ret
  bytes : seen.2.2.bytes = e.2.bytes
  errno : seen.2.2.ret = -1 → (∀ fd size, seen.2.1 = .read fd size → seen.1.RefusesRead fd) →
    seen.2.2.errno = e.2.errno

section
variable {F : ℕ → Prop} {fs fs' gs : Fs} {v w : Volume}

theorem Mirrors.concerns_iff (h : Mirrors fs v) (F : ℕ → Prop) (op : Op) :
    fs.Concerns F op ↔ v.Concerns F op := by
  have hfile : ∀ fd, (∀ d, fs.descriptorAt fd = some d → F d.file) ↔
      ∀ x, v.handle fd = some x → F x.file := by
    intro fd
    constructor
    · intro hd x hx
      obtain ⟨d, hd', hs⟩ := h.handle hx
      exact hs.file ▸ hd d hd'
    · intro hx d hd
      obtain ⟨x, hx', hs⟩ := h.opened hd
      exact hs.file ▸ hx x hx'
  cases op with
  | write fd _ => exact hfile fd
  | read fd _ => exact hfile fd
  | resize fd _ => exact hfile fd
  | _ => exact Iff.rfl

/-- Two states that look alike from the files of the set. -/
def Alongside (F : ℕ → Prop) [DecidablePred F] (fs gs : Fs) : Prop :=
  ∃ v w, Mirrors fs v ∧ Mirrors gs w ∧ Volume.Shares F v w

variable [DecidablePred F]

theorem Alongside.hidden (h : Alongside F fs gs) {e : Event} (he : ¬fs.Concerns F e.1)
    (hfits : fs.Fits e.1) (hstep : fs.Step e fs') : Alongside F fs' gs := by
  obtain ⟨v, w, hv, hw, hs⟩ := h
  obtain ⟨v', hexec, -, hv'⟩ := hv.step hfits hstep
  rw [hv.concerns_iff] at he
  exact ⟨v', w, hv', hw, (Volume.Shares.hidden he hexec).trans hs⟩

theorem Alongside.seen (h : Alongside F fs gs) {e : Event} (he : fs.Concerns F e.1)
    (hfits : fs.Fits e.1) (hstep : fs.Step e fs') :
    ∃ e' gs', (gs.Fits e'.1 ∧ gs.Step e' gs') ∧ SameAnswer (fs, e) e' ∧ Alongside F fs' gs' := by
  obtain ⟨v, w, hv, hw, hs⟩ := h
  obtain ⟨l, hr⟩ := hv.represents
  obtain ⟨l', hr'⟩ := hw.represents
  obtain ⟨v', hexec, hdid, hv'⟩ := hv.step hfits hstep
  rw [hv.concerns_iff] at he
  have hwfits := hs.fits he ((hr.fits_iff hv.formed _).mp hfits)
  have hgfits := (hr'.fits_iff hw.formed _).mpr hwfits
  obtain ⟨out, gs', w', hcall, hwexec, -, hw'⟩ := hw.exec e.1 hgfits
  -- the volumes have the same results
  have hrel := hs.exec he
  rw [hexec, hwexec] at hrel
  cases hrel with
  | some hsame =>
    obtain ⟨hret, hbytes, hs'⟩ := hsame
    refine ⟨(e.1, out), gs', ⟨hgfits, hcall⟩, ⟨rfl, hret, hbytes, fun hfailed hread => ?_⟩, v', w', hv', hw',
      hs'⟩
    have hfails := hs.fails he (hdid.fails_of_ret hfailed fun fd size heq x hx => by
      obtain ⟨d, hd, hslot⟩ := hv.handle hx
      exact hslot.flags ▸ hread fd size heq d hd)
    rw [hfails.exec hw.formed hwfits] at hwexec
    exact congrArg (fun r => r.1.errno) (Option.some.inj hwexec)

end

/-- The reads, the writes and the resizes of other files can be left out of any run: each of the
remaining calls has the same answer. -/
theorem files_apart (F : ℕ → Prop) {es : List (Fs × Event)} {fs : Fs}
    (h : Watched (restrict Fs.Step fun fs e => fs.Fits e.1) (fun fs e => fs.Concerns F e.1) .initial es fs) :
    ∃ es' fs', Run (restrict Fs.Step fun fs e => fs.Fits e.1) .initial es' fs' ∧
      List.Forall₂ SameAnswer es es' := by
  classical
  have hstart : Alongside F .initial .initial :=
    ⟨_, _, mirrors_initial, mirrors_initial, .refl F .initial⟩
  obtain ⟨es', gs, hrun, hsame, -⟩ := h.unwind (fun _ _ _ _ hR he hs => hR.hidden he hs.1 hs.2)
    (fun _ _ _ _ hR he hs => hR.seen he hs.1 hs.2) hstart
  exact ⟨es', gs, hrun, hsame⟩

/-- A byte is written to a file and read again, and in between another file is written and cut. -/
theorem files_apart_two : ∃ (es : List (Fs × Event)) (es' : List Event) (fs fs' : Fs),
    Watched (restrict Fs.Step fun fs e => fs.Fits e.1) (fun fs e => fs.Concerns (· = 0) e.1) .initial es fs ∧
    es.map (fun seen => seen.2.1) =
      [.open [102] ufsCreate, .open [103] ufsCreate, .write 0 [1], .open [102] 0, .read 2 9] ∧
    Run (restrict Fs.Step fun fs e => fs.Fits e.1) .initial es' fs' ∧ List.Forall₂ SameAnswer es es' := by
  have hfits : ∀ {fs : Fs} {fd p : ℤ} {buf : List UInt8} {d : Filedesc}, fs.descriptorAt fd = some d →
      fs.positionOf d = some p → p + buf.length < 2 ^ 31 → fs.Fits (.write fd buf) :=
    fun hd hp hlt d' p' hd' hp' _ => by
      obtain rfl := Option.some.inj (hd.symm.trans hd')
      obtain rfl := Option.some.inj (hp.symm.trans hp')
      exact hlt
  have hseen : ∀ {fs : Fs} {fd : ℤ} {d : Filedesc}, fs.descriptorAt fd = some d → d.file = 0 →
      ∀ d', fs.descriptorAt fd = some d' → d'.file = 0 := fun hd hfile d' hd' => by
    rwa [← Option.some.inj (hd.symm.trans hd')]
  obtain ⟨a, b, c, d, e, f, fs, hopen, hopen', hd₁, hp₁, hwrite', hd₀, hp₀, hwrite, hd₁', hresize, hopen'', hd₂,
      hread⟩ : ∃ a b c d e f fs : Fs,
      Fs.Step .initial (.open [102] ufsCreate, ⟨0, .noErr, []⟩) a ∧
      a.Step (.open [103] ufsCreate, ⟨1, .noErr, []⟩) b ∧
      b.descriptorAt 1 = some ⟨1, 1, 1, 0, ufsCreate⟩ ∧ b.positionOf ⟨1, 1, 1, 0, ufsCreate⟩ = some 0 ∧
      b.Step (.write 1 [7, 8], ⟨2, .noErr, []⟩) c ∧
      c.descriptorAt 0 = some ⟨0, 0, 0, 0, ufsCreate⟩ ∧ c.positionOf ⟨0, 0, 0, 0, ufsCreate⟩ = some 0 ∧
      c.Step (.write 0 [1], ⟨1, .noErr, []⟩) d ∧ d.descriptorAt 1 = some ⟨1, 1, 1, 2, ufsCreate⟩ ∧
      d.Step (.resize 1 1, ⟨0, .noErr, []⟩) e ∧ e.Step (.open [102] 0, ⟨2, .noErr, []⟩) f ∧
      f.descriptorAt 2 = some ⟨0, 2, 0, 0, 0⟩ ∧ f.Step (.read 2 9, ⟨1, .noErr, [some 1]⟩) fs :=
    ⟨_, _, _, _, _, _, _, rfl, rfl, rfl, rfl, rfl, rfl, rfl, rfl, rfl, rfl, rfl, rfl, rfl⟩
  have hother : ¬b.Concerns (· = 0) (.write 1 [7, 8]) := fun hf => absurd (hf _ hd₁) Nat.one_ne_zero
  have hother' : ¬d.Concerns (· = 0) (.resize 1 1) := fun hf => absurd (hf _ hd₁') Nat.one_ne_zero
  have hfits' : d.Fits (.resize 1 1) := trivial
  have h : Watched (restrict Fs.Step fun fs e => fs.Fits e.1) (fun fs e => fs.Concerns (· = 0) e.1) .initial
      [(.initial, .open [102] ufsCreate, ⟨0, .noErr, []⟩), (a, .open [103] ufsCreate, ⟨1, .noErr, []⟩),
        (c, .write 0 [1], ⟨1, .noErr, []⟩), (e, .open [102] 0, ⟨2, .noErr, []⟩),
        (f, .read 2 9, ⟨1, .noErr, [some 1]⟩)] fs :=
    .seen trivial ⟨trivial, hopen⟩ <| .seen trivial ⟨trivial, hopen'⟩ <|
    .hidden hother ⟨hfits hd₁ hp₁ (by decide), hwrite'⟩ <|
    .seen (hseen hd₀ rfl) ⟨hfits hd₀ hp₀ (by decide), hwrite⟩ <|
    .hidden hother' ⟨hfits', hresize⟩ <| .seen trivial ⟨trivial, hopen''⟩ <|
    .seen (hseen hd₂ rfl) ⟨trivial, hread⟩ .nil
  obtain ⟨es', fs', hrun, hsame⟩ := files_apart (· = 0) h
  exact ⟨_, es', fs, fs', h, rfl, hrun, hsame⟩

end SystemsProgramming.UserFs

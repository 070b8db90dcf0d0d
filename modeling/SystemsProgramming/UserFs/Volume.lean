import SystemsProgramming.UserFs.Model
import SystemsProgramming.Foundation.FreeSlot
import Mathlib.Logic.Function.Basic

/-! The file system without pointers. A file is the list of its blocks with their memories, and an
open descriptor stands at a number of a block and an offset. The arithmetic on positions is the
code's, in `int`. A result of `none` is an access to a block that is not there or outside a memory. -/

namespace SystemsProgramming.UserFs

theorem int_eq {x : ℤ} (h0 : -2 ^ 31 ≤ x) (h1 : x < 2 ^ 31) : int x = x :=
  Int.bmod_eq_of_le (by omega) (by omega)

/-- A sum behind the last `int`. -/
theorem int_wrapped {x : ℤ} (h0 : 2 ^ 31 ≤ x) (h1 : x < 2 ^ 32) : int x = x - 2 ^ 32 := by
  have hsame : int x = int (x - 1 * (2 ^ 32 : ℕ)) := (Int.sub_mul_bmod_self_right x 1 (2 ^ 32)).symm
  rw [hsame, int_eq (by omega) (by omega)]
  omega

structure Cluster where
  memory : CArray UInt8
  occupied : ℤ

def Cluster.fresh : Cluster := ⟨.malloc blockSize, 0⟩

/-- An open descriptor. -/
structure Handle where
  file : ℕ
  block : ℕ
  offset : ℤ
  flags : UInt32

structure Volume where
  /-- The visible files, in the order of the list of files. -/
  directory : List (CString × ℕ)
  /-- How many files have been created; the next one gets this number. -/
  created : ℕ
  clusters : ℕ → List Cluster
  slots : List (Option Handle)
  errno : ErrorCode

/-- The blocks of a file and a position in it. -/
structure Cursor where
  clusters : List Cluster
  block : ℕ
  offset : ℤ

namespace Cursor

/-- `write_single_byte` -/
def put (byte : UInt8) (c : Cursor) : Option Cursor := do
  let current ← c.clusters[c.block]?
  let memory ← current.memory.set c.offset byte
  let occupied := if c.block + 1 = c.clusters.length ∧ c.offset = current.occupied
    then current.occupied + 1 else current.occupied
  return { c with clusters := c.clusters.set c.block ⟨memory, occupied⟩ }

/-- `read_single_byte` -/
def get (c : Cursor) : Option (Option UInt8) := do
  let current ← c.clusters[c.block]?
  current.memory.peek c.offset

/-- `advance_descriptor` -/
def advance (c : Cursor) : Cursor :=
  if c.offset + 1 = blockSize then
    { clusters := if c.block + 1 = c.clusters.length then c.clusters ++ [.fresh] else c.clusters
      block := c.block + 1
      offset := 0 }
  else { c with offset := c.offset + 1 }

def writeBytes : List UInt8 → Cursor → Option Cursor
  | [], c => some c
  | byte :: buf, c => do
    let c ← c.put byte
    writeBytes buf c.advance

def readBytes : ℕ → Cursor → Option (List (Option UInt8) × Cursor)
  | 0, c => some ([], c)
  | n + 1, c => do
    let byte ← c.get
    let (bytes, c) ← readBytes n c.advance
    return (byte :: bytes, c)

end Cursor

section Advance
variable {c : Cursor}

theorem Cursor.advance_inside (h : c.offset + 1 ≠ blockSize) :
    c.advance = { c with offset := c.offset + 1 } := if_neg h

theorem Cursor.advance_next (h : c.offset + 1 = blockSize) (hk : c.block + 1 ≠ c.clusters.length) :
    c.advance = ⟨c.clusters, c.block + 1, 0⟩ := by rw [advance, if_pos h, if_neg hk]

theorem Cursor.advance_append (h : c.offset + 1 = blockSize) (hk : c.block + 1 = c.clusters.length) :
    c.advance = ⟨c.clusters ++ [.fresh], c.block + 1, 0⟩ := by rw [advance, if_pos h, if_pos hk]

end Advance

/-- The position in a file. -/
def positionAt (block : ℕ) (offset : ℤ) : ℤ := int (block * blockSize + offset)

/-- The size of a file. -/
def sizeOf (cs : List Cluster) : Option ℤ :=
  cs.getLast?.map fun last => positionAt (cs.length - 1) last.occupied

/-- How many bytes a read of a given size hands out. -/
def readCount (size bytesLeftToRead : ℤ) : ℤ :=
  if size > bytesLeftToRead then bytesLeftToRead else size

/-- From the block at a number backwards, the first that starts at or before a size. -/
def newLastBlock (newSize : ℤ) : ℕ → Option ℕ
  | 0 => if int ((0 : ℕ) * blockSize) > newSize then none else some 0
  | k + 1 => if int ((k + 1 : ℕ) * blockSize) > newSize then newLastBlock newSize k else some (k + 1)

theorem newLastBlock_here {newSize : ℤ} {k : ℕ} (h : ¬int (k * blockSize) > newSize) :
    newLastBlock newSize k = some k := by
  cases k with
  | zero => exact if_neg h
  | succ k => exact if_neg h

theorem newLastBlock_zero {newSize : ℤ} (h : int ((0 : ℕ) * blockSize) > newSize) :
    newLastBlock newSize 0 = none := if_pos h

theorem newLastBlock_succ {newSize : ℤ} {k : ℕ} (h : int ((k + 1 : ℕ) * blockSize) > newSize) :
    newLastBlock newSize (k + 1) = newLastBlock newSize k := if_pos h

def truncate (k : ℕ) (newOccupied : ℤ) (cs : List Cluster) : List Cluster :=
  (cs.take (k + 1)).modify k fun last => { last with occupied := newOccupied }

def Handle.clamp (file k : ℕ) (newOccupied : ℤ) (h : Handle) : Handle :=
  if h.file ≠ file ∨ h.block < k ∨ (h.block = k ∧ h.offset ≤ newOccupied) then h
  else { h with block := k, offset := newOccupied }

theorem Handle.clamp_self {f k : ℕ} {o : ℤ} {h : Handle}
    (hcond : h.file ≠ f ∨ h.block < k ∨ (h.block = k ∧ h.offset ≤ o)) : h.clamp f k o = h :=
  if_pos hcond

theorem Handle.clamp_moved {f k : ℕ} {o : ℤ} {h : Handle}
    (hcond : ¬(h.file ≠ f ∨ h.block < k ∨ (h.block = k ∧ h.offset ≤ o))) :
    h.clamp f k o = { h with block := k, offset := o } := if_neg hcond

theorem Handle.clamp_file (f k : ℕ) (o : ℤ) (h : Handle) : (h.clamp f k o).file = h.file := by
  unfold Handle.clamp
  split_ifs <;> rfl

theorem Handle.clamp_le {f k : ℕ} {o : ℤ} {h : Handle} (hf : h.file = f) :
    (h.clamp f k o).block ≤ k := by
  by_cases hcond : h.file ≠ f ∨ h.block < k ∨ (h.block = k ∧ h.offset ≤ o)
  · rw [Handle.clamp_self hcond]
    rcases hcond with hne | hlt | hat
    · exact absurd hf hne
    · exact hlt.le
    · exact hat.1.le
  · rw [Handle.clamp_moved hcond]

namespace Volume

def initial : Volume where
  directory := []
  created := 0
  clusters := fun _ => [.fresh]
  slots := []
  errno := .noErr

variable (v : Volume)

def lookup (filename : CString) : Option ℕ :=
  (v.directory.find? fun entry => entry.1 = filename).map Prod.snd

def handle (fd : ℤ) : Option Handle := if fd < 0 then none else v.slots[fd.toNat]?.join

/-- The first free slot, or the one at the end. -/
def freeSlot : ℕ := v.slots.findIdx Option.isNone

def throw (error : ErrorCode) : ℤ × Volume := (-1, { v with errno := error })

def openFile (file : ℕ) (flags : UInt32) : ℤ × Volume :=
  (v.freeSlot, { v with
    slots := if v.freeSlot < v.slots.length then v.slots.set v.freeSlot (some ⟨file, 0, 0, flags⟩)
      else v.slots ++ [some ⟨file, 0, 0, flags⟩] })

def createFile (filename : CString) : Volume := { v with
  directory := (filename, v.created) :: v.directory
  created := v.created + 1
  clusters := Function.update v.clusters v.created [.fresh] }

def ufsOpen (filename : CString) (flags : UInt32) : ℤ × Volume :=
  match v.lookup filename with
  | some file => v.openFile file flags
  | none =>
    if specificFlagIsPresent flags ufsCreate then (v.createFile filename).openFile v.created flags
    else v.throw .noFile

/-- The state after the descriptor in slot `i` has been moved. -/
def seek (i : ℕ) (h : Handle) (c : Cursor) : Volume := { v with
  clusters := Function.update v.clusters h.file c.clusters
  slots := v.slots.set i (some { h with block := c.block, offset := c.offset }) }

def cursor (h : Handle) : Cursor := ⟨v.clusters h.file, h.block, h.offset⟩

def ufsWrite (fd : ℤ) (buf : List UInt8) : Option (ℤ × Volume) :=
  match v.handle fd with
  | none => some (v.throw .noFile)
  | some h =>
    if specificFlagIsPresent h.flags ufsReadOnly then some (v.throw .noPermission)
    else if int (positionAt h.block h.offset + int buf.length) > maxFileSize then
      some (v.throw .noMem)
    else do
      let c ← (v.cursor h).writeBytes (buf.take (int buf.length).toNat)
      return (int buf.length, v.seek fd.toNat h c)

def ufsRead (fd : ℤ) (size : ℕ) : Option (ℤ × List (Option UInt8) × Volume) :=
  match v.handle fd with
  | none => some (-1, [], (v.throw .noFile).2)
  | some h =>
    if specificFlagIsPresent h.flags ufsWriteOnly then some (-1, [], (v.throw .noPermission).2)
    else do
      let total ← UserFs.sizeOf (v.clusters h.file)
      let n := readCount (int size) (int (total - positionAt h.block h.offset))
      let (bytes, c) ← (v.cursor h).readBytes n.toNat
      return (n, bytes, v.seek fd.toNat h c)

def ufsClose (fd : ℤ) : ℤ × Volume :=
  match v.handle fd with
  | none => v.throw .noFile
  | some _ => (0, { v with slots := v.slots.set fd.toNat none })

def ufsDelete (filename : CString) : ℤ × Volume :=
  match v.lookup filename with
  | none => v.throw .noFile
  | some _ => (0, { v with directory := v.directory.eraseP fun entry => entry.1 = filename })

def reduceFileSize (file : ℕ) (newSize : ℤ) : Option Volume := do
  let k ← newLastBlock newSize ((v.clusters file).length - 1)
  let newOccupied := int (newSize - int (k * blockSize))
  return { v with
    clusters := Function.update v.clusters file (truncate k newOccupied (v.clusters file))
    slots := v.slots.map (Option.map (Handle.clamp file k newOccupied)) }

def ufsResize (fd : ℤ) (newSize : ℕ) : Option (ℤ × Volume) :=
  match v.handle fd with
  | none => some (v.throw .noFile)
  | some h =>
    if maxFileSize ≤ newSize then some (v.throw .noMem)
    else (v.reduceFileSize h.file newSize).map fun v => (0, v)

def observe : ℤ × Volume → Out × Volume
  | (ret, v) => (⟨ret, v.errno, []⟩, v)

def exec : Op → Option (Out × Volume)
  | .open filename flags => some (observe (v.ufsOpen filename flags))
  | .write fd buf => (v.ufsWrite fd buf).map observe
  | .read fd size => (v.ufsRead fd size).map fun (ret, bytes, v) => (⟨ret, v.errno, bytes⟩, v)
  | .close fd => some (observe (v.ufsClose fd))
  | .delete filename => some (observe (v.ufsDelete filename))
  | .resize fd newSize => (v.ufsResize fd newSize).map observe

/-! ### What is open afterwards -/

variable {v} {i j : ℕ} {h x : Handle} {c : Cursor}

theorem clusters_seek (v : Volume) (i : ℕ) (h : Handle) (c : Cursor) (f : ℕ) :
    (v.seek i h c).clusters f = if f = h.file then c.clusters else v.clusters f :=
  Function.update_apply ..

theorem slots_seek (hj : (v.seek i h c).slots[j]? = some (some x)) :
    (j = i ∧ x = { h with block := c.block, offset := c.offset }) ∨
      (j ≠ i ∧ v.slots[j]? = some (some x)) := by
  by_cases hij : i = j
  · subst hij
    have hlt := (List.getElem?_eq_some_iff.mp hj).1
    rw [seek, List.length_set] at hlt
    rw [seek, List.getElem?_set_self hlt] at hj
    exact .inl ⟨rfl, (Option.some.inj (Option.some.inj hj)).symm⟩
  · rw [seek, List.getElem?_set_ne hij] at hj
    exact .inr ⟨Ne.symm hij, hj⟩

theorem cursor_seek (v : Volume) (i : ℕ) (h : Handle) (c : Cursor) :
    (v.seek i h c).cursor { h with block := c.block, offset := c.offset } = c := by
  simp [seek, cursor]

theorem clusters_cursor (v : Volume) (h : Handle) : (v.cursor h).clusters = v.clusters h.file := rfl

theorem slots_openFile {f : ℕ} {flags : UInt32}
    (hj : (v.openFile f flags).2.slots[j]? = some (some x)) :
    (j = SystemsProgramming.freeSlot v.slots ∧ x = ⟨f, 0, 0, flags⟩) ∨
      (j ≠ SystemsProgramming.freeSlot v.slots ∧ v.slots[j]? = some (some x)) := by
  change (place v.slots _)[j]? = _ at hj
  rw [getElem?_place] at hj
  split_ifs at hj with hfree
  · exact .inl ⟨hfree, (Option.some.inj (Option.some.inj hj)).symm⟩
  · exact .inr ⟨hfree, hj⟩

theorem clusters_createFile (v : Volume) (filename : CString) (f : ℕ) :
    (v.createFile filename).clusters f = if f = v.created then [.fresh] else v.clusters f :=
  Function.update_apply ..

theorem slots_close (hj : (v.slots.set i none)[j]? = some (some x)) :
    j ≠ i ∧ v.slots[j]? = some (some x) := by
  rw [List.getElem?_set] at hj
  split_ifs at hj with hij
  · cases hj
  · exact ⟨Ne.symm hij, hj⟩

end Volume

end SystemsProgramming.UserFs

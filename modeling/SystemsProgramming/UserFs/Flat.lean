import SystemsProgramming.UserFs.Simulation
import Mathlib.Data.Finmap

/-! What the file system is for: files that are byte arrays, names of some of them, and descriptors that
are at positions in them. There are no blocks here, and a position is any number. -/

namespace SystemsProgramming.UserFs

/-- What is open under a number. -/
structure OpenFile where
  file : ℕ
  position : ℕ
  flags : UInt32

structure Flat where
  names : Finmap fun _ : CString => ℕ
  bytes : ℕ → List UInt8
  fds : ℤ → Option OpenFile
  errno : ErrorCode

/-- Bytes are put over those from a position on, and behind the end. -/
def overwrite (bytes : List UInt8) (p : ℕ) (buf : List UInt8) : List UInt8 :=
  bytes.take p ++ buf ++ bytes.drop (p + buf.length)

namespace Flat

def initial : Flat where
  names := ∅
  bytes _ := []
  fds _ := none
  errno := .noErr

def fail (s : Flat) (error : ErrorCode) : Out × Flat := (⟨-1, error, []⟩, { s with errno := error })

def succeed (s : Flat) (ret : ℤ) (bytes : List UInt8) : Out × Flat :=
  (⟨ret, s.errno, bytes.map some⟩, s)

def setFd (s : Flat) (fd : ℤ) (x : Option OpenFile) : Flat :=
  { s with fds := Function.update s.fds fd x }

def setBytes (s : Flat) (f : ℕ) (bytes : List UInt8) : Flat :=
  { s with bytes := Function.update s.bytes f bytes }

theorem fds_setFd (s : Flat) (fd : ℤ) (x : Option OpenFile) (fd' : ℤ) :
    (s.setFd fd x).fds fd' = if fd' = fd then x else s.fds fd' := Function.update_apply ..

theorem bytes_setBytes (s : Flat) (f : ℕ) (bytes : List UInt8) (g : ℕ) :
    (s.setBytes f bytes).bytes g = if g = f then bytes else s.bytes g := Function.update_apply ..

/-- A descriptor behind the end of a file is moved to it. -/
def clamp (f newSize : ℕ) (x : OpenFile) : OpenFile :=
  if x.file = f then { x with position := min x.position newSize } else x

/-- The calls, with resizes to at most the size. A new descriptor gets the number `newFd`, and a new
file is `newFile`. -/
def exec (newFd : ℤ) (newFile : ℕ) (s : Flat) : Op → Out × Flat
  | .open filename flags =>
    match s.names.lookup filename with
    | some f => (s.setFd newFd (some ⟨f, 0, flags⟩)).succeed newFd []
    | none =>
      if specificFlagIsPresent flags ufsCreate then
        (({ s with names := s.names.insert filename newFile }.setBytes newFile []).setFd newFd
          (some ⟨newFile, 0, flags⟩)).succeed newFd []
      else s.fail .noFile
  | .write fd buf =>
    match s.fds fd with
    | none => s.fail .noFile
    | some x =>
      if specificFlagIsPresent x.flags ufsReadOnly then s.fail .noPermission
      else if maxFileSize < x.position + buf.length then s.fail .noMem
      else ((s.setBytes x.file (overwrite (s.bytes x.file) x.position buf)).setFd fd
        (some { x with position := x.position + buf.length })).succeed buf.length []
  | .read fd size =>
    match s.fds fd with
    | none => s.fail .noFile
    | some x =>
      if specificFlagIsPresent x.flags ufsWriteOnly then s.fail .noPermission
      else
        let bytes := ((s.bytes x.file).drop x.position).take size
        (s.setFd fd (some { x with position := x.position + bytes.length })).succeed bytes.length bytes
  | .close fd =>
    match s.fds fd with
    | none => s.fail .noFile
    | some _ => (s.setFd fd none).succeed 0 []
  | .delete filename =>
    match s.names.lookup filename with
    | none => s.fail .noFile
    | some _ => { s with names := s.names.erase filename }.succeed 0 []
  | .resize fd newSize =>
    match s.fds fd with
    | none => s.fail .noFile
    | some x =>
      if maxFileSize ≤ newSize then s.fail .noMem
      else { s.setBytes x.file ((s.bytes x.file).take newSize) with
        fds := fun fd => (s.fds fd).map (clamp x.file newSize) }.succeed 0 []

/-- A file that no name and no descriptor refers to. -/
def Unused (s : Flat) (f : ℕ) : Prop :=
  (∀ n, s.names.lookup n ≠ some f) ∧ ∀ fd x, s.fds fd = some x → x.file ≠ f

/-- A call with some number that is not open for a new descriptor, and some unused file. -/
def Step (s : Flat) (e : Event) (s' : Flat) : Prop :=
  ∃ newFd newFile, 0 ≤ newFd ∧ s.fds newFd = none ∧ s.Unused newFile ∧
    s.exec newFd newFile e.1 = (e.2, s')

end Flat

theorem getElem?_overwrite {bytes : List UInt8} {p : ℕ} (hp : p ≤ bytes.length) (buf : List UInt8)
    (q : ℕ) : (overwrite bytes p buf)[q]? =
      if p ≤ q ∧ q < p + buf.length then buf[q - p]? else bytes[q]? := by
  have hlen : (bytes.take p).length = p := List.length_take_of_le hp
  rw [overwrite, List.append_assoc]
  rcases Nat.lt_or_ge q p with hlt | hge
  · rw [List.getElem?_append_left (by omega), List.getElem?_take_of_lt hlt, if_neg (by omega)]
  · rw [List.getElem?_append_right (by omega), hlen]
    rcases Nat.lt_or_ge q (p + buf.length) with hin | hout
    · rw [List.getElem?_append_left (by omega), if_pos ⟨hge, hin⟩]
    · rw [List.getElem?_append_right (by omega), List.getElem?_drop, if_neg (by omega)]
      exact congrArg (bytes[·]?) (by omega)

theorem length_overwrite {bytes : List UInt8} {p : ℕ} (hp : p ≤ bytes.length) (buf : List UInt8) :
    (overwrite bytes p buf).length = max bytes.length (p + buf.length) := by
  rw [overwrite, List.length_append, List.length_append, List.length_take, List.length_drop]
  omega

end SystemsProgramming.UserFs

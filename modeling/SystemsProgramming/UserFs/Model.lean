import SystemsProgramming.Foundation.CArray
import SystemsProgramming.Foundation.Heap
import SystemsProgramming.Foundation.Loop
import Mathlib.Data.UInt

/-! The in-memory file system (`3/userfs.c`). Objects of each type are in a heap of their own, and
pointers are addresses in it. `malloc` succeeds; a result of `none` is an access through a dangling
or null pointer or outside an array, a second `free`, or a loop that does not end. -/

namespace SystemsProgramming.UserFs

/-- A string up to its terminating NUL. -/
abbrev CString := List UInt8

def blockSize : ℤ := 512
def maxFileSize : ℤ := 1024 * 1024 * 100

/-- The value of type `int` with the same low 32 bits. -/
def int (x : ℤ) : ℤ := x.bmod (2 ^ 32)

def ufsCreate : UInt32 := 1
def ufsReadOnly : UInt32 := 2
def ufsWriteOnly : UInt32 := 4

def specificFlagIsPresent (flags specificFlag : UInt32) : Bool := flags &&& specificFlag ≠ 0

inductive ErrorCode
  | noErr | noFile | noMem | notImplemented | noPermission
  deriving DecidableEq

structure Block where
  memory : ℕ
  occupied : ℤ
  next : Option ℕ
  prev : Option ℕ
  index : ℤ

structure File where
  blockList : ℕ
  lastBlock : ℕ
  refs : ℤ
  name : ℕ
  next : Option ℕ
  prev : Option ℕ
  markedForDeletion : Bool

structure Filedesc where
  file : ℕ
  index : ℕ
  currentBlock : ℕ
  blockOffset : ℤ
  flags : UInt32

/-- The heaps and the static variables. -/
structure Fs where
  blocks : Heap Block
  memories : Heap (CArray UInt8)
  files : Heap File
  names : Heap CString
  descriptors : Heap Filedesc
  arrays : Heap (CArray (Option ℕ))
  fileList : Option ℕ
  fileDescriptors : Option ℕ
  fileDescriptorCount : ℕ
  fileDescriptorCapacity : ℕ
  ufsErrorCode : ErrorCode

namespace Fs

def initial : Fs where
  blocks := .empty
  memories := .empty
  files := .empty
  names := .empty
  descriptors := .empty
  arrays := .empty
  fileList := none
  fileDescriptors := none
  fileDescriptorCount := 0
  fileDescriptorCapacity := 0
  ufsErrorCode := .noErr

def modifyBlock (fs : Fs) (block : ℕ) (f : Block → Block) : Option Fs :=
  (fs.blocks.modify block f).map fun blocks => { fs with blocks := blocks }

def modifyFile (fs : Fs) (file : ℕ) (f : File → File) : Option Fs :=
  (fs.files.modify file f).map fun files => { fs with files := files }

def modifyDescriptor (fs : Fs) (descriptor : ℕ) (f : Filedesc → Filedesc) : Option Fs :=
  (fs.descriptors.modify descriptor f).map fun descriptors => { fs with descriptors := descriptors }

/-- `file_descriptors[i]` -/
def slot (fs : Fs) (i : ℕ) : Option (Option ℕ) := do
  let p ← fs.fileDescriptors
  let array ← fs.arrays.load p
  array.get i

/-- `file_descriptors[i] = descriptor` -/
def setSlot (fs : Fs) (i : ℕ) (descriptor : Option ℕ) : Option Fs := do
  let p ← fs.fileDescriptors
  let array ← fs.arrays.load p
  let array ← array.set i descriptor
  return { fs with arrays := fs.arrays.update p fun _ => array }

/-! ### Lookup -/

def filenameStep (fs : Fs) (filename : CString) : Option ℕ → Option (Ctl (Option ℕ))
  | none => some (.done none)
  | some ptr => do
    let file ← fs.files.load ptr
    let name ← fs.names.load file.name
    if name = filename then return .done (some ptr) else return .again file.next

/-- A list without a cycle has at most as many files as have been created. -/
def tryGetFileByFilename (fs : Fs) (filename : CString) : Option (Option ℕ) :=
  iterate (fs.filenameStep filename) (fs.files.next + 1) fs.fileList

def emptySlotFrom (fs : Fs) : ℕ → ℕ → Option (Option ℕ)
  | 0, _ => some none
  | n + 1, i => do
    let descriptor ← fs.slot i
    if descriptor = none then return some i else emptySlotFrom fs n (i + 1)

def tryGetEmptyFileDescriptorSlot (fs : Fs) : Option (Option ℕ) :=
  fs.emptySlotFrom fs.fileDescriptorCount 0

def tryGetFileDescriptor (fs : Fs) (index : ℤ) : Option (Option ℕ) :=
  if index < 0 ∨ fs.fileDescriptorCount ≤ index then some none else fs.slot index.toNat

/-! ### The descriptor table -/

def growFileDescriptors (fs : Fs) : Option Fs := do
  let p ← fs.fileDescriptors
  let array ← fs.arrays.load p
  let arrays ← fs.arrays.free p
  let capacity := fs.fileDescriptorCapacity * 2
  return { fs with
    fileDescriptorCapacity := capacity
    fileDescriptors := some arrays.next
    arrays := arrays.malloc (array.realloc capacity) }

def createFileDescriptors (fs : Fs) : Fs :=
  match fs.fileDescriptors with
  | some _ => fs
  | none => { fs with
    fileDescriptorCapacity := 1
    fileDescriptorCount := 0
    fileDescriptors := some fs.arrays.next
    arrays := fs.arrays.malloc (.malloc 1) }

def addFileDescriptorAtTheEnd (descriptor : ℕ) (fs : Fs) : Option (ℕ × Fs) := do
  let fs := fs.createFileDescriptors
  let fs ← if fs.fileDescriptorCapacity = fs.fileDescriptorCount then fs.growFileDescriptors
    else some fs
  let fileDescriptorIndex := fs.fileDescriptorCount
  let fs ← fs.setSlot fileDescriptorIndex (some descriptor)
  let fs ← fs.modifyDescriptor descriptor fun d => { d with index := fileDescriptorIndex }
  return (fileDescriptorIndex, { fs with fileDescriptorCount := fileDescriptorIndex + 1 })

def addFileDescriptor (descriptor : ℕ) (fs : Fs) : Option (ℕ × Fs) := do
  match ← fs.tryGetEmptyFileDescriptorSlot with
  | some fileDescriptorIndex =>
    let fs ← fs.modifyDescriptor descriptor fun d => { d with index := fileDescriptorIndex }
    let fs ← fs.setSlot fileDescriptorIndex (some descriptor)
    return (fileDescriptorIndex, fs)
  | none => addFileDescriptorAtTheEnd descriptor fs

/-! ### Files -/

def createFile (filename : CString) (fs : Fs) : Option (ℕ × Fs) := do
  let firstBlock := fs.blocks.next
  let newFile := fs.files.next
  let fs' : Fs := { fs with
    memories := fs.memories.malloc (.malloc blockSize)
    blocks := fs.blocks.malloc
      { memory := fs.memories.next, occupied := 0, next := none, prev := none, index := 0 }
    names := fs.names.malloc filename
    files := fs.files.malloc
      { blockList := firstBlock, lastBlock := firstBlock, refs := 0, name := fs.names.next
        next := fs.fileList, prev := none, markedForDeletion := false } }
  let fs' ← match fs'.fileList with
    | none => some fs'
    | some first => fs'.modifyFile first fun f => { f with prev := some newFile }
  return (newFile, { fs' with fileList := some newFile })

def disconnectFileFromFileList (file : ℕ) (fs : Fs) : Option Fs := do
  let f ← fs.files.load file
  let fs := if fs.fileList = some file then { fs with fileList := f.next } else fs
  let fs ← match f.prev with
    | none => some fs
    | some prev => fs.modifyFile prev fun q => { q with next := f.next }
  let f ← fs.files.load file
  let fs ← match f.next with
    | none => some fs
    | some next => fs.modifyFile next fun q => { q with prev := f.prev }
  fs.modifyFile file fun f => { f with prev := none, next := none }

def freeBlockStep : Fs × Option ℕ → Option (Ctl (Fs × Option ℕ))
  | (fs, none) => some (.done (fs, none))
  | (fs, some ptr) => do
    let block ← fs.blocks.load ptr
    let memories ← fs.memories.free block.memory
    let blocks ← fs.blocks.free ptr
    return .again ({ fs with memories := memories, blocks := blocks }, block.next)

def deleteFile (file : ℕ) (fs : Fs) : Option Fs := do
  let fs ← fs.disconnectFileFromFileList file
  let f ← fs.files.load file
  let names ← fs.names.free f.name
  let fs := { fs with names := names }
  let (fs, _) ← iterate freeBlockStep (fs.blocks.next + 1) (fs, some f.blockList)
  let files ← fs.files.free file
  return { fs with files := files }

def closeFileDescriptor (descriptor : ℕ) (fs : Fs) : Option Fs := do
  let d ← fs.descriptors.load descriptor
  let fs ← fs.modifyFile d.file fun f => { f with refs := f.refs - 1 }
  let f ← fs.files.load d.file
  let fs ← if f.markedForDeletion ∧ f.refs = 0 then fs.deleteFile d.file else some fs
  let fs ← fs.setSlot d.index none
  let descriptors ← fs.descriptors.free descriptor
  return { fs with descriptors := descriptors }

/-! ### Bytes -/

def writeSingleByte (descriptor : ℕ) (byte : UInt8) (fs : Fs) : Option Fs := do
  let d ← fs.descriptors.load descriptor
  let currentBlock ← fs.blocks.load d.currentBlock
  let memory ← fs.memories.load currentBlock.memory
  let memory ← memory.set d.blockOffset byte
  let fs := { fs with memories := fs.memories.update currentBlock.memory fun _ => memory }
  let f ← fs.files.load d.file
  if f.lastBlock = d.currentBlock ∧ d.blockOffset = currentBlock.occupied then
    fs.modifyBlock f.lastBlock fun b => { b with occupied := b.occupied + 1 }
  else return fs

def readSingleByte (descriptor : ℕ) (fs : Fs) : Option (Option UInt8) := do
  let d ← fs.descriptors.load descriptor
  let currentBlock ← fs.blocks.load d.currentBlock
  let memory ← fs.memories.load currentBlock.memory
  memory.peek d.blockOffset

/-- A new block behind the last one of a file. -/
def appendBlock (file currentBlock : ℕ) (fs : Fs) : Option Fs := do
  let current ← fs.blocks.load currentBlock
  let nextBlock := fs.blocks.next
  let fs := { fs with
    memories := fs.memories.malloc (.malloc blockSize)
    blocks := fs.blocks.malloc
      { memory := fs.memories.next, occupied := 0, next := none, prev := some currentBlock
        index := int (current.index + 1) } }
  let fs ← fs.modifyBlock currentBlock fun b => { b with next := some nextBlock }
  fs.modifyFile file fun f => { f with lastBlock := nextBlock }

def advanceDescriptor (descriptor : ℕ) (fs : Fs) : Option Fs := do
  let d ← fs.descriptors.load descriptor
  if d.blockOffset + 1 = blockSize then
    let currentBlock ← fs.blocks.load d.currentBlock
    let (nextBlock, fs) ← match currentBlock.next with
      | some nextBlock => some (nextBlock, fs)
      | none => (fs.appendBlock d.file d.currentBlock).map fun fs' => (fs.blocks.next, fs')
    fs.modifyDescriptor descriptor fun d => { d with currentBlock := nextBlock, blockOffset := 0 }
  else fs.modifyDescriptor descriptor fun d => { d with blockOffset := d.blockOffset + 1 }

def throwUfsError (error : ErrorCode) (fs : Fs) : ℤ × Fs := (-1, { fs with ufsErrorCode := error })

def writeBytes (descriptor : ℕ) : List UInt8 → Fs → Option Fs
  | [], fs => some fs
  | byte :: buf, fs => do
    let fs ← fs.writeSingleByte descriptor byte
    let fs ← fs.advanceDescriptor descriptor
    writeBytes descriptor buf fs

/-- The bytes handed out may be indeterminate. -/
def readBytes (descriptor : ℕ) : ℕ → Fs → Option (List (Option UInt8) × Fs)
  | 0, fs => some ([], fs)
  | n + 1, fs => do
    let byte ← fs.readSingleByte descriptor
    let fs ← fs.advanceDescriptor descriptor
    let (bytes, fs) ← readBytes descriptor n fs
    return (byte :: bytes, fs)

/-- `block->index * BLOCK_SIZE + offset` -/
def position (block : Block) (offset : ℤ) : ℤ := int (block.index * blockSize + offset)

def writeViaDescriptor (descriptor : ℕ) (buf : List UInt8) (size : ℤ) (fs : Fs) :
    Option (ℤ × Fs) := do
  let d ← fs.descriptors.load descriptor
  let currentBlock ← fs.blocks.load d.currentBlock
  let endSize := int (position currentBlock d.blockOffset + size)
  if endSize > maxFileSize then return fs.throwUfsError .noMem
  else
    let fs ← writeBytes descriptor (buf.take size.toNat) fs
    return (size, fs)

def readViaDescriptor (descriptor : ℕ) (size : ℤ) (fs : Fs) :
    Option (ℤ × List (Option UInt8) × Fs) := do
  let d ← fs.descriptors.load descriptor
  let currentBlock ← fs.blocks.load d.currentBlock
  let f ← fs.files.load d.file
  let lastBlock ← fs.blocks.load f.lastBlock
  let currentSize := position currentBlock d.blockOffset
  let fileSizeTotal := position lastBlock lastBlock.occupied
  let bytesLeftToRead := int (fileSizeTotal - currentSize)
  let readCount := if size > bytesLeftToRead then bytesLeftToRead else size
  let (bytes, fs) ← readBytes descriptor readCount.toNat fs
  return (readCount, bytes, fs)

/-! ### Truncation -/

def newLastBlockStep (fs : Fs) (newSize : ℤ) (newLastBlock : ℕ) : Option (Ctl ℕ) := do
  let block ← fs.blocks.load newLastBlock
  if int (block.index * blockSize) > newSize then return .again (← block.prev)
  else return .done newLastBlock

/-- The body of the loop over the descriptor table. -/
def clampDescriptor (file newLastBlock : ℕ) (newOccupied : ℤ) (i : ℕ) (fs : Fs) : Option Fs := do
  match ← fs.slot i with
  | none => return fs
  | some descriptor =>
    let d ← fs.descriptors.load descriptor
    if d.file ≠ file then return fs
    else
      let currentBlock ← fs.blocks.load d.currentBlock
      let lastBlock ← fs.blocks.load newLastBlock
      if currentBlock.index < lastBlock.index then return fs
      else if currentBlock.index = lastBlock.index ∧ d.blockOffset ≤ newOccupied then return fs
      else
        fs.modifyDescriptor descriptor fun d =>
          { d with currentBlock := newLastBlock, blockOffset := newOccupied }

def clampDescriptorsFrom (file newLastBlock : ℕ) (newOccupied : ℤ) : ℕ → ℕ → Fs → Option Fs
  | 0, _, fs => some fs
  | n + 1, i, fs => do
    let fs ← fs.clampDescriptor file newLastBlock newOccupied i
    clampDescriptorsFrom file newLastBlock newOccupied n (i + 1) fs

def removeBlockStep (newLastBlock : ℕ) : Fs × ℕ → Option (Ctl (Fs × ℕ))
  | (fs, removalPtr) =>
    if removalPtr = newLastBlock then some (.done (fs, removalPtr))
    else do
      let block ← fs.blocks.load removalPtr
      let memories ← fs.memories.free block.memory
      let blocks ← fs.blocks.free removalPtr
      return .again ({ fs with memories := memories, blocks := blocks }, ← block.prev)

def reduceFileSize (file : ℕ) (newSize : ℤ) (fs : Fs) : Option Fs := do
  let f ← fs.files.load file
  let newLastBlock ← iterate (fs.newLastBlockStep newSize) (fs.blocks.next + 1) f.lastBlock
  let block ← fs.blocks.load newLastBlock
  let newOccupied := int (newSize - int (block.index * blockSize))
  let fs ← fs.modifyBlock newLastBlock fun b => { b with occupied := newOccupied, next := none }
  let fs ← clampDescriptorsFrom file newLastBlock newOccupied fs.fileDescriptorCount 0 fs
  let (fs, _) ← iterate (removeBlockStep newLastBlock) (fs.blocks.next + 1) (fs, f.lastBlock)
  fs.modifyFile file fun f => { f with lastBlock := newLastBlock }

end Fs

/-! ### The interface -/

/-- A call of the interface. The buffer of a write has the size that the call names. -/
inductive Op
  | open (filename : CString) (flags : UInt32)
  | write (fd : ℤ) (buf : List UInt8)
  | read (fd : ℤ) (size : ℕ)
  | close (fd : ℤ)
  | delete (filename : CString)
  | resize (fd : ℤ) (newSize : ℕ)

/-- What the caller sees: the return value, `ufs_errno()` after the call, and the bytes that a read
has put into the caller's buffer. -/
structure Out where
  ret : ℤ
  errno : ErrorCode
  bytes : List (Option UInt8)
  deriving DecidableEq

namespace Fs

/-- The part of `ufs_open` after the file has been found or created. -/
def openFile (referredFile : ℕ) (flags : UInt32) (fs : Fs) : Option (ℤ × Fs) := do
  let f ← fs.files.load referredFile
  let descriptor := fs.descriptors.next
  let fs := { fs with
    descriptors := fs.descriptors.malloc
      { file := referredFile, index := 0, currentBlock := f.blockList, blockOffset := 0
        flags := flags } }
  let fs ← fs.modifyFile referredFile fun f => { f with refs := f.refs + 1 }
  let (index, fs) ← fs.addFileDescriptor descriptor
  return (index, fs)

def ufsOpen (filename : CString) (flags : UInt32) (fs : Fs) : Option (ℤ × Fs) := do
  match ← fs.tryGetFileByFilename filename with
  | some referredFile => fs.openFile referredFile flags
  | none =>
    if specificFlagIsPresent flags ufsCreate then
      let (referredFile, fs) ← fs.createFile filename
      fs.openFile referredFile flags
    else return fs.throwUfsError .noFile

/-- `(int) size` is what the file system works with. -/
def ufsWrite (fd : ℤ) (buf : List UInt8) (fs : Fs) : Option (ℤ × Fs) := do
  match ← fs.tryGetFileDescriptor fd with
  | none => return fs.throwUfsError .noFile
  | some descriptor =>
    let d ← fs.descriptors.load descriptor
    if specificFlagIsPresent d.flags ufsReadOnly then return fs.throwUfsError .noPermission
    else fs.writeViaDescriptor descriptor buf (int buf.length)

def ufsRead (fd : ℤ) (size : ℕ) (fs : Fs) : Option (ℤ × List (Option UInt8) × Fs) := do
  match ← fs.tryGetFileDescriptor fd with
  | none => let (ret, fs) := fs.throwUfsError .noFile; return (ret, [], fs)
  | some descriptor =>
    let d ← fs.descriptors.load descriptor
    if specificFlagIsPresent d.flags ufsWriteOnly then
      let (ret, fs) := fs.throwUfsError .noPermission
      return (ret, [], fs)
    else fs.readViaDescriptor descriptor (int size)

def ufsClose (fd : ℤ) (fs : Fs) : Option (ℤ × Fs) := do
  match ← fs.tryGetFileDescriptor fd with
  | none => return fs.throwUfsError .noFile
  | some descriptor =>
    let fs ← fs.closeFileDescriptor descriptor
    return (0, fs)

def ufsDelete (filename : CString) (fs : Fs) : Option (ℤ × Fs) := do
  match ← fs.tryGetFileByFilename filename with
  | none => return fs.throwUfsError .noFile
  | some referredFile =>
    let fs ← fs.disconnectFileFromFileList referredFile
    let f ← fs.files.load referredFile
    let fs ← if f.refs = 0 then fs.deleteFile referredFile
      else fs.modifyFile referredFile fun f => { f with markedForDeletion := true }
    return (0, fs)

def ufsResize (fd : ℤ) (newSize : ℕ) (fs : Fs) : Option (ℤ × Fs) := do
  match ← fs.tryGetFileDescriptor fd with
  | none => return fs.throwUfsError .noFile
  | some descriptor =>
    if maxFileSize ≤ newSize then return fs.throwUfsError .noMem
    else
      let d ← fs.descriptors.load descriptor
      let fs ← fs.reduceFileSize d.file newSize
      return (0, fs)

def closeFileDescriptorsFrom : ℕ → ℕ → Fs → Option Fs
  | 0, _, fs => some fs
  | n + 1, i, fs => do
    match ← fs.slot i with
    | none => closeFileDescriptorsFrom n (i + 1) fs
    | some descriptor =>
      let fs ← fs.closeFileDescriptor descriptor
      closeFileDescriptorsFrom n (i + 1) fs

/-- `free(file_descriptors)`; `free` of a null pointer does nothing. -/
def freeFileDescriptors (fs : Fs) : Option Fs :=
  match fs.fileDescriptors with
  | none => some fs
  | some p => (fs.arrays.free p).map fun arrays => { fs with arrays := arrays }

def deleteFirstFileStep (fs : Fs) : Option (Ctl Fs) :=
  match fs.fileList with
  | none => some (.done fs)
  | some file => (fs.deleteFile file).map .again

def ufsDestroy (fs : Fs) : Option Fs := do
  let fs ← closeFileDescriptorsFrom fs.fileDescriptorCount 0 fs
  let fs ← fs.freeFileDescriptors
  iterate deleteFirstFileStep (fs.files.next + 1) fs

def exec : Op → Fs → Option (Out × Fs)
  | .open filename flags, fs => (fs.ufsOpen filename flags).map observe
  | .write fd buf, fs => (fs.ufsWrite fd buf).map observe
  | .read fd size, fs => (fs.ufsRead fd size).map fun (ret, bytes, fs) =>
    (⟨ret, fs.ufsErrorCode, bytes⟩, fs)
  | .close fd, fs => (fs.ufsClose fd).map observe
  | .delete filename, fs => (fs.ufsDelete filename).map observe
  | .resize fd newSize, fs => (fs.ufsResize fd newSize).map observe
where
  observe : ℤ × Fs → Out × Fs
    | (ret, fs) => (⟨ret, fs.ufsErrorCode, []⟩, fs)

end Fs

end SystemsProgramming.UserFs

import SystemsProgramming.Foundation.Coroutine
import SystemsProgramming.Foundation.Loop
import Mathlib.Data.Int.Notation

/-! The coroutines of `1/solution.c`. They share the queue of files and the heap with the arrays of numbers;
an address names an array, and an access out of its bounds has no result, nor has a loop without fuel. A
file is what `fscanf` reads from it, and the clock is an answer to each question whether the quantum is
used up. -/

namespace SystemsProgramming.Sorting

/-- `struct single_sorted_file_data` -/
structure SingleSortedFileData where
  numberCount : ℕ
  sortedNumbers : ℕ
  deriving DecidableEq

/-- `struct file_queue` -/
structure FileQueue where
  filePtr : ℕ
  fileCount : ℕ
  fileNames : List String
  sortedFiles : List (Option SingleSortedFileData)

/-- What the coroutines have done, by their names. -/
inductive Record
  /-- A coroutine has taken a file from the queue. -/
  | claims (name filePtr : ℕ)
  /-- It starts sorting the file in an array. -/
  | starts (name filePtr numbers : ℕ)

/-- The memory. The calls are those that have read the clock, and nothing reads the log. -/
structure World where
  queue : FileQueue
  arrays : List (List ℤ)
  calls : ℕ
  log : List Record

/-- An `int *` into an array. -/
structure Numbers where
  array : ℕ
  offset : ℕ

def Numbers.add (numbers : Numbers) (n : ℕ) : Numbers := ⟨numbers.array, numbers.offset + n⟩

def load (numbers : Numbers) (i : ℕ) : Code World ℤ := do
  let w ← Code.read
  match (w.arrays[numbers.array]?).bind fun xs => xs[numbers.offset + i]? with
  | none => .stuck
  | some x => return x

def store (numbers : Numbers) (i : ℕ) (x : ℤ) : Code World Unit := do
  let w ← Code.read
  match w.arrays[numbers.array]? with
  | none => .stuck
  | some xs =>
    if numbers.offset + i < xs.length then
      Code.write { w with arrays := w.arrays.set numbers.array (xs.set (numbers.offset + i) x) }
    else .stuck

/-- `malloc` of an array. -/
def mallocNumbers (numberCount : ℕ) : Code World ℕ := do
  let w ← Code.read
  Code.write { w with arrays := w.arrays ++ [List.replicate numberCount 0] }
  return w.arrays.length

/-! ### Sorting -/

section
variable (quantum : ℕ → Bool)

def coroYieldWithRespectToQuantum : Code World Unit := do
  let w ← Code.read
  Code.write { w with calls := w.calls + 1 }
  if quantum w.calls then Code.giveWay else return ()

/-- The body of the loop of `quick_sort_partition`, up to its yield; the result is `pivot_index`. -/
def partitionBody (pivotValue : ℤ) (numbers : Numbers) (i pivotIndex : ℕ) : Code World ℕ := do
  let x ← load numbers i
  if x ≤ pivotValue then
    let temp := x
    let y ← load numbers pivotIndex
    store numbers i y
    store numbers pivotIndex temp
    return pivotIndex + 1
  else return pivotIndex

/-- The loop, with the number of rounds left. -/
def partitionLoop (pivotValue : ℤ) (numbers : Numbers) : ℕ → ℕ → ℕ → Code World ℕ
  | 0, _, pivotIndex => return pivotIndex
  | rounds + 1, i, pivotIndex => do
    let pivotIndex ← partitionBody pivotValue numbers i pivotIndex
    coroYieldWithRespectToQuantum quantum
    partitionLoop pivotValue numbers rounds (i + 1) pivotIndex

/-- A negative result does not happen. -/
def quickSortPartition (numberCount : ℕ) (numbers : Numbers) : Code World ℕ := do
  let pivotValue ← load numbers (numberCount - 1)
  let pivotIndex ← partitionLoop quantum pivotValue numbers numberCount 0 0
  match pivotIndex with
  | 0 => .stuck
  | pivotIndex + 1 => return pivotIndex

def getSortedInplaceNumbers : ℕ → ℕ → Numbers → Code World Unit
  | 0, _, _ => .stuck
  | fuel + 1, numberCount, numbers =>
    if numberCount ≤ 1 then return ()
    else do
      let pivotIndex ← quickSortPartition quantum numberCount numbers
      getSortedInplaceNumbers fuel pivotIndex numbers
      getSortedInplaceNumbers fuel (numberCount - pivotIndex) (numbers.add pivotIndex)

def getSortedInplaceFileData (fuel numberCount numbers : ℕ) : Code World SingleSortedFileData := do
  getSortedInplaceNumbers quantum fuel numberCount ⟨numbers, 0⟩
  return ⟨numberCount, numbers⟩

/-! ### Files -/

/-- The loop ends when `fscanf` has nothing to read any more. -/
def countNumbersInFile (file : List ℤ) : ℕ := file.foldl (fun numberCount _ => numberCount + 1) 0

/-- The loop of `get_numbers_in_file`. -/
def readNumbers (array : ℕ) : List ℤ → ℕ → Code World Unit
  | [], _ => return ()
  | x :: file, numberPtr => do
    store ⟨array, 0⟩ numberPtr x
    readNumbers array file (numberPtr + 1)

def getNumbersInFile (file : List ℤ) (numberCount : ℕ) : Code World ℕ := do
  let array ← mallocNumbers numberCount
  readNumbers array file 0
  return array

/-! ### Coroutines -/

def note (record : Record) : Code World Unit := do
  let w ← Code.read
  Code.write { w with log := w.log ++ [record] }

/-- `shared_file_queue->file_ptr++` -/
def claimFile (name filePtr : ℕ) : Code World Unit := do
  let w ← Code.read
  Code.write { w with
    queue := { w.queue with filePtr := w.queue.filePtr + 1 }
    log := w.log ++ [.claims name filePtr] }

/-- `shared_file_queue->sorted_files[file_ptr] = data` -/
def setSortedFile (filePtr : ℕ) (data : SingleSortedFileData) : Code World Unit := do
  let w ← Code.read
  if filePtr < w.queue.sortedFiles.length then
    Code.write { w with
      queue := { w.queue with sortedFiles := w.queue.sortedFiles.set filePtr (some data) } }
  else .stuck

variable (disk : String → List ℤ)

/-- What is done with a file. -/
def sortFile (fuel name filePtr : ℕ) (fileName : String) : Code World Unit := do
  let numberCount := countNumbersInFile (disk fileName)
  let numbers ← getNumbersInFile (disk fileName) numberCount
  note (.starts name filePtr numbers)
  let data ← getSortedInplaceFileData quantum fuel numberCount numbers
  setSortedFile filePtr data

/-- The loop of `coroutine_func_f`, with the number of rounds it may have. -/
def coroutineLoop (fuel name : ℕ) : ℕ → Code World Unit
  | 0 => .stuck
  | rounds + 1 => do
    let w ← Code.read
    if w.queue.filePtr < w.queue.fileCount then
      let filePtr := w.queue.filePtr
      claimFile name filePtr
      match w.queue.fileNames[filePtr]? with
      | none => .stuck
      | some fileName => do
        sortFile quantum disk fuel name filePtr fileName
        coroutineLoop fuel name rounds
    else return ()

def coroutineFuncF (fuel name : ℕ) : Code World ℤ := do
  coroutineLoop quantum disk fuel name fuel
  return 0

end

/-- `create_file_queue`, with nothing else in the memory. -/
def createFileQueue (fileNames : List String) : World where
  queue := ⟨0, fileNames.length, fileNames, List.replicate fileNames.length none⟩
  arrays := []
  calls := 0
  log := []

/-! ### Merging -/

/-- A number of a sorted file that is the least so far, with its file. -/
abbrev Minimum := Option (ℕ × ℤ)

/-- The body of the inner loop of `output_merged_sorted_numbers_to_file`. -/
def minimumBody (w : World) (currentPtrs : List ℕ) (minimum : Minimum) (filePtr : ℕ) : Option Minimum := do
  let current ← currentPtrs[filePtr]?
  let slot ← w.queue.sortedFiles[filePtr]?
  let file ← slot
  if file.numberCount = current then return minimum
  else do
    let xs ← w.arrays[file.sortedNumbers]?
    let x ← xs[current]?
    match minimum with
    | none => return some (filePtr, x)
    | some (least, y) => if y > x then return some (filePtr, x) else return some (least, y)

/-- The body of the outer loop, with what is written. -/
def mergeBody (w : World) (s : List ℕ × List ℤ) : Option (Ctl (List ℕ × List ℤ)) := do
  match ← (List.range w.queue.fileCount).foldlM (minimumBody w s.1) none with
  | none => return .done s
  | some (filePtr, x) => return .again (s.1.modify filePtr (· + 1), s.2 ++ [x])

/-- The numbers in the order in which they are printed. -/
def outputMergedSortedNumbers (w : World) (fuel : ℕ) : Option (List ℤ) := do
  let s ← iterate (mergeBody w) fuel (List.replicate w.queue.fileCount 0, [])
  return s.2

end SystemsProgramming.Sorting

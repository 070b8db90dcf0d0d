import SystemsProgramming.Foundation.Chain
import Mathlib.Data.Int.Notation

/-! The leak tracker (`utils/heap_help/heap_help.c`) after its initialisation. An address is a number,
and `NULL` is 0. Records are named in the order in which they are handed out of the batches. `mmap`
succeeds. What the underlying functions of the heap return is an input of each call, as is the
backtrace of the caller; a result of `none` is a failed assertion. -/

namespace SystemsProgramming.HeapHelp

abbrev Address := ℕ

/-- A record, by its batch and its place there. -/
abbrev Slot := ℕ

def allocationBatchSize : ℕ := 1024

/-- The number of values of a `size_t`. -/
def sizeRange : ℕ := 18446744073709551616

/-- `struct allocation`; the `trace_size` is the length of the trace. -/
structure Allocation where
  trace : List Address
  mem : Address
  size : ℕ
  next : Option Slot

/-- The variables of the tracker. The batches are numbered, `used` is that of the current one, and the
depth is that of the current thread. -/
structure Tracker where
  records : Slot → Allocation
  allocs : Option Slot
  allocPool : Option Slot
  allocBatch : Option ℕ
  used : ℕ
  allocCount : ℤ
  allocCountTotal : ℕ
  staticBuf : Address
  staticSize : ℕ
  depth : ℕ
  isInitDone : Bool
  isExitDone : Bool

namespace Tracker

/-- After the initialisation, which may have needed the static buffer. -/
def initial (staticBuf : Option Address) : Tracker where
  records _ := ⟨[], 0, 0, none⟩
  allocs := none
  allocPool := none
  allocBatch := none
  used := 0
  allocCount := 0
  allocCountTotal := 0
  staticBuf := staticBuf.getD 0
  staticSize := if staticBuf.isSome then 16 * 1024 else 0
  depth := 0
  isInitDone := true
  isExitDone := false

def allocIsStatic (t : Tracker) (ptr : Address) : Bool :=
  ptr ≠ 0 && t.staticBuf ≤ ptr && ptr ≤ t.staticBuf + t.staticSize

def next (t : Tracker) (a : Slot) : Option Slot := (t.records a).next

def modify (t : Tracker) (a : Slot) (f : Allocation → Allocation) : Tracker :=
  { t with records := Function.update t.records a (f (t.records a)) }

/-- The number of records handed out so far. -/
def handedOut (t : Tracker) : ℕ :=
  match t.allocBatch with
  | none => 0
  | some batch => batch * allocationBatchSize + t.used

/-- `a = &alloc_batch->allocs[alloc_batch->used++]` -/
def takeFromBatch (batch used : ℕ) (t : Tracker) : Slot × Tracker :=
  (batch * allocationBatchSize + used, { t with allocBatch := some batch, used := used + 1 })

/-- What `alloc_trace_new` does while it has the lock for the first time. -/
def takeRecord (t : Tracker) : Option (Slot × Tracker) :=
  match t.allocPool with
  | some a => some (a, { t with allocPool := t.next a })
  | none =>
    match t.allocBatch with
    | none => some (t.takeFromBatch 0 0)
    | some batch =>
      if t.used = allocationBatchSize then some (t.takeFromBatch (batch + 1) 0)
      else if t.used < allocationBatchSize then some (t.takeFromBatch batch t.used)
      else none

/-- What it does between. -/
def fillRecord (a : Slot) (ptr : Address) (size : ℕ) (trace : List Address) (t : Tracker) : Tracker :=
  t.modify a fun r => { r with mem := ptr, size := size, trace := trace }

/-- What it does while it has the lock for the second time. -/
def linkRecord (a : Slot) (t : Tracker) : Tracker :=
  { t.modify a fun r => { r with next := t.allocs } with
    allocs := some a
    allocCount := t.allocCount + 1
    allocCountTotal := t.allocCountTotal + 1 }

def allocTraceNew (ptr : Address) (size : ℕ) (trace : List Address) (t : Tracker) : Option Tracker :=
  if t.allocIsStatic ptr then some t
  else if 1 < t.depth then some t
  else if t.depth = 0 ∨ t.isInitDone = false then none
  else if t.isExitDone then some t
  else do
    let (a, t) ← t.takeRecord
    return (t.fillRecord a ptr size (if t.depth = 1 then trace else [])).linkRecord a

/-- `allocs = a->next`, or `prev->next = a->next` -/
def unlinkRecord (prev : Option Slot) (a : Slot) (t : Tracker) : Tracker :=
  match prev with
  | none => { t with allocs := t.next a }
  | some prev => t.modify prev fun r => { r with next := t.next a }

def recycleRecord (a : Slot) (t : Tracker) : Tracker :=
  { t.modify a fun r => { r with next := t.allocPool } with
    allocPool := some a
    allocCount := t.allocCount - 1 }

/-- What `alloc_free` does while it has the lock, and its assertions "freeing bad memory". -/
def freeRecord (ptr : Address) (t : Tracker) : Option Tracker := do
  let (prev, a) ← iterate (searchStep t.next fun a => (t.records a).mem = ptr) (t.handedOut + 1)
    (none, t.allocs)
  let a ← a
  let t := (t.unlinkRecord prev a).recycleRecord a
  if 0 ≤ t.allocCount then return t else none

def allocFree (ptr : Address) (t : Tracker) : Option Tracker :=
  if t.allocIsStatic ptr then some t
  else if 1 < t.depth then some t
  else if t.isInitDone = false then none
  else if t.isExitDone then some t
  else t.freeRecord ptr

/-! ### The functions of the heap -/

/-- `++depth; ...; --depth;` -/
def nested (f : Tracker → Option Tracker) (t : Tracker) : Option Tracker := do
  let t ← f { t with depth := t.depth + 1 }
  return { t with depth := t.depth - 1 }

/-- `alloc_trace_new` if the underlying function has returned something. -/
def traceResult (res : Address) (size : ℕ) (trace : List Address) (t : Tracker) : Option Tracker :=
  if res ≠ 0 then t.allocTraceNew res size trace else some t

end Tracker

open Tracker

/-- A call with what the underlying function returns. -/
inductive Call
  | malloc (size : ℕ) (res : Address)
  | calloc (num size : ℕ) (res : Address)
  | realloc (ptr : Address) (size : ℕ) (res : Address)
  /-- The string at the pointer has this length. -/
  | strdup (ptr : Address) (length : ℕ) (res : Address)
  | free (ptr : Address)

def malloc (size : ℕ) (res : Address) (trace : List Address) (t : Tracker) : Option Tracker :=
  t.nested fun t => t.traceResult res size trace

/-- `num * size` is a `size_t`. -/
def calloc (num size : ℕ) (res : Address) (trace : List Address) (t : Tracker) : Option Tracker :=
  t.nested fun t => t.traceResult res (num * size % sizeRange) trace

def realloc (ptr : Address) (size : ℕ) (res : Address) (trace : List Address) (t : Tracker) :
    Option Tracker :=
  t.nested fun t =>
    let ptr := if t.allocIsStatic ptr then 0 else ptr
    if ptr = 0 ∧ res ≠ 0 then t.allocTraceNew res size trace
    else if ptr ≠ 0 ∧ res = 0 then t.allocFree ptr
    else if ptr ≠ 0 ∧ res ≠ ptr then do
      let t ← t.allocFree ptr
      t.allocTraceNew res size trace
    else some t

def strdup (ptr : Address) (length : ℕ) (res : Address) (trace : List Address) (t : Tracker) :
    Option Tracker :=
  if t.isExitDone then none
  else if t.allocIsStatic ptr then none
  else t.nested fun t => t.traceResult res (length + 1) trace

def free (ptr : Address) (t : Tracker) : Option Tracker :=
  if ptr = 0 then some t
  else if t.allocIsStatic ptr then some t
  else t.nested fun t => t.allocFree ptr

def heaphGetAllocCount (t : Tracker) : ℤ := t.allocCount

def Call.perform (trace : List Address) (t : Tracker) : Call → Option Tracker
  | malloc size res => HeapHelp.malloc size res trace t
  | calloc num size res => HeapHelp.calloc num size res trace t
  | realloc ptr size res => HeapHelp.realloc ptr size res trace t
  | strdup ptr length res => HeapHelp.strdup ptr length res trace t
  | free ptr => HeapHelp.free ptr t

/-! ### The report at exit -/

inductive ReportMode
  | verbose | leaks | quiet
  deriving DecidableEq

/-- What is printed about the leaks, with the total allocation count. -/
structure Report where
  leaks : ℤ
  leakSize : ℕ
  suppressed : ℤ
  shown : ℕ
  total : ℕ

inductive Printout
  | nothing
  /-- "found no leaks", and the total allocation count. -/
  | noLeaks (total : ℕ)
  | leaks (report : Report)

/-- The variables of the loop in `heaph_atexit`. -/
structure LeakWalk where
  a : Option Slot
  count : ℤ
  reportCount : ℕ
  leakSize : ℕ

def reportLimit : ℕ := 10

section
variable (isInternal : List Address → Bool)

/-- The body of the loop. `isInternal` is what the symbols of a trace say. -/
def leakStep (records : Slot → Allocation) (w : LeakWalk) : Option (Ctl LeakWalk) :=
  match w.a with
  | none => some (.done w)
  | some a =>
    let r := records a
    let w : LeakWalk := { w with a := r.next }
    if ¬0 < w.count then none
    else if r.trace.length = 0 then some (.again { w with count := w.count - 1 })
    else if isInternal r.trace then some (.again { w with count := w.count - 1 })
    else if w.reportCount < reportLimit then
      some (.again { w with
        reportCount := w.reportCount + 1, leakSize := (w.leakSize + r.size) % sizeRange })
    else some (.again { w with leakSize := (w.leakSize + r.size) % sizeRange })

/-- The loop of `heaph_atexit`. -/
def leakLoop (t : Tracker) : Option LeakWalk :=
  iterate (leakStep isInternal t.records) (t.handedOut + 1)
    { a := t.allocs, count := t.allocCount, reportCount := 0, leakSize := 0 }

/-- The first call of `heaph_atexit`. -/
def heaphAtexit (reportMode : ReportMode) (t : Tracker) : Option Printout :=
  if reportMode = .quiet then some .nothing
  else if t.allocCount = 0 then
    some (if reportMode = .verbose then .noLeaks t.allocCountTotal else .nothing)
  else do
    let w ← leakLoop isInternal t
    if w.count = 0 ∧ reportMode ≠ .verbose then return .nothing
    return .leaks { leaks := w.count, leakSize := w.leakSize, suppressed := t.allocCount - w.count
                    shown := w.reportCount, total := t.allocCountTotal }

end

end SystemsProgramming.HeapHelp

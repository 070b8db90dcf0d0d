import SystemsProgramming.Foundation.Coroutine
import SystemsProgramming.Foundation.Heap
import SystemsProgramming.Foundation.Loop
import Mathlib.Data.Int.Notation

/-! The coroutines of `1/libcoro.c` and the loop of `main` in `1/solution.c` that waits for them. A saved
context is the place to go on at with the local variables there; the stack of a coroutine is in its
context, or is what runs. A pointer to a coroutine is the address of its object, but for the scheduler,
which is a static variable. An access to an object that was deleted has no result, nor has a jump to a
context that was never saved. -/

namespace SystemsProgramming.Libcoro

variable {σ : Type}

/-- A `struct coro *` that is not `NULL`. -/
inductive Pointer
  | sched
  | coro (p : ℕ)
  deriving DecidableEq

/-- A `sigjmp_buf`. -/
inductive Context (σ : Type)
  /-- In `coro_body`, before its function has begun. -/
  | body (c : ℕ)
  /-- In `coro_yield_to`, with what is left of the function that `coro_body` has called. -/
  | yieldTo (source : Pointer) (c : ℕ) (rest : Code σ ℤ)
  /-- In `coro_yield_to`, called by `coro_sched_wait`. -/
  | wait (source : Pointer)

/-- `struct coro`; `func` is the function applied to its argument. -/
structure Coro (σ : Type) where
  ret : ℤ
  func : Code σ ℤ
  ctx : Option (Context σ)
  isFinished : Bool
  switchCount : ℕ
  next : Option ℕ
  prev : Option ℕ

/-- What is being executed. -/
inductive Control (σ : Type)
  /-- `main`, before it calls `coro_sched_wait`. -/
  | main
  /-- `coro_sched_wait`, before the condition of its loop. -/
  | wait
  /-- What is left of the function that `coro_body` has called. -/
  | func (c : ℕ) (rest : Code σ ℤ)
  /-- `coro_body`, after its function has returned. -/
  | finished (c : ℕ)
  /-- `main`, with the coroutine that was returned to it. -/
  | returned (c : ℕ)
  /-- `main`, after its loop. -/
  | done
  /-- `exit(-1)` -/
  | exit

/-- The variables of the library, the objects, and the memory of the program. -/
structure State (σ : Type) where
  heap : Heap (Coro σ)
  coroSched : Coro σ
  isSchedWaiting : Bool
  coroThisPtr : Option Pointer
  coroList : Option ℕ
  control : Control σ
  shared : σ

/-- What happens in a step. -/
inductive Event
  /-- `main` calls `coro_sched_wait`. -/
  | call
  /-- It returns. -/
  | wait (c : Option ℕ)
  /-- `main` deletes a coroutine that has this status. -/
  | delete (c : ℕ) (status : ℤ)
  /-- There is a jump to a coroutine. -/
  | enter (target : Pointer)
  /-- The function of a coroutine reads or writes the memory. -/
  | run (c : ℕ)
  /-- It returns. -/
  | ret (c : ℕ) (value : ℤ)
  | exit
  deriving DecidableEq

namespace State

def load (s : State σ) : Pointer → Option (Coro σ)
  | .sched => some s.coroSched
  | .coro p => s.heap.load p

def modify (s : State σ) (p : Pointer) (f : Coro σ → Coro σ) : Option (State σ) :=
  match p with
  | .sched => some { s with coroSched := f s.coroSched }
  | .coro p => (s.heap.modify p f).map fun heap => { s with heap := heap }

/-! ### The list -/

/-- `if (p != NULL) p->field = ...` -/
def modifyIf (s : State σ) (p : Option ℕ) (f : Coro σ → Coro σ) : Option (State σ) :=
  match p with
  | none => some s
  | some p => s.modify (.coro p) f

def coroListAdd (c : ℕ) (s : State σ) : Option (State σ) := do
  let s ← s.modify (.coro c) fun a => { a with next := s.coroList, prev := none }
  let s ← s.modifyIf s.coroList fun a => { a with prev := some c }
  return { s with coroList := some c }

def coroListDelete (c : ℕ) (s : State σ) : Option (State σ) := do
  let a ← s.heap.load c
  let s ← s.modifyIf a.prev fun b => { b with next := a.next }
  let s ← s.modifyIf a.next fun b => { b with prev := a.prev }
  if a.prev = none then return { s with coroList := a.next } else return s

/-- The body of the loop that looks for a finished coroutine. -/
def finishedStep (heap : Heap (Coro σ)) : Option ℕ → Option (Ctl (Option ℕ))
  | none => some (.done none)
  | some p => do
    let a ← heap.load p
    if a.isFinished then return .done (some p) else return .again a.next

def findFinished (s : State σ) : Option (Option ℕ) :=
  iterate (finishedStep s.heap) (s.heap.next + 1) s.coroList

/-! ### Jumps -/

/-- `siglongjmp` to a context, up to the code that is not of the library. -/
def resume (s : State σ) : Context σ → Option (State σ)
  | .body c => do
    let a ← s.heap.load c
    return { s with coroThisPtr := some (.coro c), control := .func c a.func }
  | .yieldTo source c rest => some { s with coroThisPtr := some source, control := .func c rest }
  | .wait source => some { s with coroThisPtr := some source, isSchedWaiting := false, control := .wait }

def jump (target : Pointer) (s : State σ) : Option (State σ) := do
  let a ← s.load target
  let ctx ← a.ctx
  s.resume ctx

/-- `ctx` is what is saved, with the local variable `from`. -/
def coroYieldTo (target : Pointer) (ctx : Pointer → Context σ) (s : State σ) : Option (State σ) := do
  let source ← s.coroThisPtr
  let s ← s.modify source fun a =>
    { a with switchCount := a.switchCount + 1, ctx := some (ctx source) }
  s.jump target

/-- The coroutine that is behind another one in the list, or the scheduler. -/
def behind (a : Coro σ) : Pointer :=
  match a.next with
  | none => .sched
  | some p => .coro p

def coroYield (c : ℕ) (rest : Code σ ℤ) (s : State σ) : Option (Event × State σ) := do
  let source ← s.coroThisPtr
  let a ← s.load source
  let s ← s.coroYieldTo (behind a) fun source => .yieldTo source c rest
  return (.enter (behind a), s)

/-! ### Creation -/

/-- `coro_body` as a signal handler, up to its jump back. -/
def coroBody (s : State σ) : Option (State σ) :=
  match s.coroThisPtr with
  | some (.coro c) => { s with coroThisPtr := none }.modify (.coro c) fun a => { a with ctx := some (.body c) }
  | _ => none

def coroNew (func : Code σ ℤ) (s : State σ) : Option (State σ) := do
  let c := s.heap.next
  let oldThis := s.coroThisPtr
  let s := { s with
    heap := s.heap.malloc ⟨0, func, none, false, 0, none, none⟩
    coroThisPtr := some (.coro c) }
  let s ← s.coroBody
  { s with coroThisPtr := oldThis }.coroListAdd c

/-- `coro_sched_init` -/
def coroSchedInit (shared : σ) : State σ where
  heap := .empty
  coroSched := ⟨0, .stuck, none, false, 0, none, none⟩
  isSchedWaiting := false
  coroThisPtr := some .sched
  coroList := none
  control := .main
  shared := shared

/-- `main` up to its loop. -/
def start (funcs : List (Code σ ℤ)) (shared : σ) : Option (State σ) :=
  funcs.foldlM (fun s func => s.coroNew func) (coroSchedInit shared)

/-! ### Steps -/

/-- The body of the loop in `coro_sched_wait`, and what is behind the loop. -/
def coroSchedWait (s : State σ) : Option (Event × State σ) :=
  match s.coroList with
  | none => some (.wait none, { s with control := .done })
  | some p => do
    match ← s.findFinished with
    | some c =>
      let s ← s.coroListDelete c
      return (.wait (some c), { s with control := .returned c })
    | none =>
      let s ← { s with isSchedWaiting := true }.coroYieldTo (.coro p) .wait
      return (.enter (.coro p), s)

/-- The next step of the function of a coroutine. -/
def runFunc (c : ℕ) (rest : Code σ ℤ) (s : State σ) : Option (Event × State σ) :=
  match rest with
  | .ret value => do
    let s ← s.modify (.coro c) fun a => { a with ret := value, isFinished := true }
    return (.ret c value, { s with control := .finished c })
  | .stuck => none
  | .get k => some (.run c, { s with control := .func c (k s.shared) })
  | .put shared k => some (.run c, { s with shared := shared, control := .func c k })
  | .yield k => s.coroYield c k

/-- The end of `coro_body`. -/
def coroBodyEnd (s : State σ) : Option (Event × State σ) :=
  if s.isSchedWaiting then do
    let s ← s.jump .sched
    return (.enter .sched, s)
  else some (.exit, { s with control := .exit })

/-- `coro_status` and `coro_delete`, in the body of the loop of `main`. -/
def coroDelete (c : ℕ) (s : State σ) : Option (Event × State σ) := do
  let a ← s.heap.load c
  let heap ← s.heap.free c
  return (.delete c a.ret, { s with heap := heap, control := .main })

def step (s : State σ) : Option (Event × State σ) :=
  match s.control with
  | .main => some (.call, { s with control := .wait })
  | .wait => s.coroSchedWait
  | .func c rest => s.runFunc c rest
  | .finished _ => s.coroBodyEnd
  | .returned c => s.coroDelete c
  | .done => none
  | .exit => none

def Step (s : State σ) (e : Event) (s' : State σ) : Prop := s.step = some (e, s')

end State

end SystemsProgramming.Libcoro

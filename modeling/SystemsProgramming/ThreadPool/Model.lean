import SystemsProgramming.Foundation.CArray
import SystemsProgramming.Foundation.Transition
import Mathlib.Data.List.Basic

/-! The thread pool (`4/thread_pool.c`). Every section between a lock and the next unlock or wait
is one atomic step; what a thread does outside the lock is the step after which it waits for the
lock. A result of `none` stands for undefined behaviour: a released or null pointer is
dereferenced, or an array is accessed outside its bounds.

A condition variable is the set of threads waiting on it. The waiters on `thread_update_cond` are
the workers in phase `waiting`; a signal or broadcast moves them to `woken`, where they compete for
the lock. A waiter on `has_just_finished_cond` is a call of `thread_task_join` or
`thread_task_timed_join` in progress, kept by its task, since at most one such call is made for a
push. Time is left to the environment: a timed wait may end at any moment. -/

namespace SystemsProgramming.ThreadPool

abbrev PoolId := ℕ
abbrev TaskId := ℕ

def tpoolMaxThreads : ℤ := 20
def tpoolMaxTasks : ℤ := 100000

/-- `NONE` as an index. -/
def noIndex : ℤ := -1

inductive Errcode
  | success | invalidArgument | tooManyTasks | hasTasks | taskNotPushed | taskInPool | timeout
  deriving DecidableEq

/-- The values of `thread_update_event`. -/
inductive UpdateEvent
  | none | taskAppears | tasksEnded
  deriving DecidableEq

/-- `struct thread_task`, for task functions with results in `V`; the null pointer is `none`. -/
structure Task (V : Type) where
  result : Option V
  finished : Bool
  assigned : Bool
  scheduledForDeletion : Bool
  parentPool : Option PoolId
  indexInParentPool : ℤ

/-- Where a worker is in `execute_thread`: about to lock at the top of its loop, waiting on
`thread_update_cond`, woken from it and about to lock again, inside a task's function, returned. -/
inductive Worker
  | ready
  | waiting
  | woken
  | running (task : TaskId)
  | exited
  deriving DecidableEq

/-- `struct thread_pool`. A thread handle is the worker's number in the order of creation. -/
structure Pool where
  threads : CArray ℕ
  maxThreadCount : ℤ
  threadCount : ℤ
  tasks : CArray TaskId
  unassignedTasksCount : ℤ
  runningTasksCount : ℤ
  pushedTasksCount : ℤ
  threadUpdateEvent : UpdateEvent
  /-- The threads started by `pthread_create`. -/
  workers : List Worker

/-- A call of `thread_task_join` or `thread_task_timed_join` inside its waiting loop. -/
structure JoinCall where
  timed : Bool
  woken : Bool
  deriving DecidableEq

structure State (V : Type) where
  pools : PoolId → Option Pool
  tasks : TaskId → Option (Task V)
  joins : TaskId → Option JoinCall
  /-- The loop counter of a `thread_pool_delete` that has passed its check. -/
  deletes : PoolId → Option ℤ

/-- What a step shows to the thread that makes it. -/
inductive Ret (V : Type)
  | code (rc : Errcode)
  /-- Success, and the value stored to `*result`. -/
  | joined (result : Option V)
  | waits
  | took (task : TaskId)
  /-- A task's function has returned; whether its task was removed and deleted at once. -/
  | returned (deleted : Bool)
  | exits

variable {V : Type}

namespace State

def init : State V := ⟨fun _ => none, fun _ => none, fun _ => none, fun _ => none⟩

def setPool (s : State V) (pool : PoolId) (P : Pool) : State V :=
  { s with pools := Function.update s.pools pool (some P) }

def setTask (s : State V) (task : TaskId) (T : Task V) : State V :=
  { s with tasks := Function.update s.tasks task (some T) }

def setJoin (s : State V) (task : TaskId) (call : Option JoinCall) : State V :=
  { s with joins := Function.update s.joins task call }

def setDelete (s : State V) (pool : PoolId) (i : Option ℤ) : State V :=
  { s with deletes := Function.update s.deletes pool i }

def modifyPool (s : State V) (pool : PoolId) (f : Pool → Pool) : Option (State V) :=
  (s.pools pool).map fun P => s.setPool pool (f P)

def modifyTask (s : State V) (task : TaskId) (f : Task V → Task V) : Option (State V) :=
  (s.tasks task).map fun T => s.setTask task (f T)

def freeTask (s : State V) (task : TaskId) : State V :=
  { s with tasks := Function.update s.tasks task none }

def freePool (s : State V) (pool : PoolId) : State V :=
  { s with pools := Function.update s.pools pool none }

def worker (s : State V) (pool : PoolId) (w : ℕ) : Option Worker :=
  (s.pools pool).bind fun P => P.workers[w]?

end State

/-! ### Condition variables and threads -/

namespace Pool

/-- The pool that `thread_pool_new` sets up. -/
def new (maxThreadCount : ℤ) : Pool where
  threads := .malloc maxThreadCount
  maxThreadCount := maxThreadCount
  threadCount := 0
  tasks := .malloc tpoolMaxTasks
  unassignedTasksCount := 0
  runningTasksCount := 0
  pushedTasksCount := 0
  threadUpdateEvent := .none
  workers := []

def setWorker (P : Pool) (w : ℕ) (phase : Worker) : Pool :=
  { P with workers := P.workers.set w phase }

/-- `pthread_cond_signal(&thread_update_cond)`, which wakes the waiters listed in `chosen`. -/
def signal (P : Pool) (chosen : List ℕ) : Pool :=
  { P with workers := P.workers.mapIdx fun i phase =>
      if phase = .waiting ∧ i ∈ chosen then .woken else phase }

/-- `pthread_cond_broadcast(&thread_update_cond)`. -/
def broadcast (P : Pool) : Pool :=
  { P with workers := P.workers.map fun phase => if phase = .waiting then .woken else phase }

/-- `pthread_create(&threads[thread_count++], NULL, execute_thread, pool)`. -/
def pthreadCreate (P : Pool) : Option Pool := do
  let threads ← P.threads.set P.threadCount P.workers.length
  return { P with threads := threads, threadCount := P.threadCount + 1
                  workers := P.workers ++ [.ready] }

/-- `thread_pool_push_task` once the task is counted: a new thread is created, or an existing one
is signalled when the queue was empty. -/
def createOrSignal (P : Pool) (chosen : List ℕ) : Option Pool :=
  if P.runningTasksCount = P.threadCount ∧ P.threadCount < P.maxThreadCount then
    P.pthreadCreate
  else if P.unassignedTasksCount = 1 then
    some ({ P with threadUpdateEvent := .taskAppears }.signal chosen)
  else some P

end Pool

/-- `pthread_cond_broadcast(&task->has_just_finished_cond)`. -/
def broadcastJustFinished (task : TaskId) (s : State V) : State V :=
  s.setJoin task ((s.joins task).map fun call => { call with woken := true })

/-! ### The sections of `thread_pool.c` -/

def swapTasksInPool (task1 task2 : TaskId) (s : State V) : Option (State V) := do
  let T1 ← s.tasks task1
  let T2 ← s.tasks task2
  let parentPool ← T1.parentPool
  let index1 := T1.indexInParentPool
  let index2 := T2.indexInParentPool
  let P ← s.pools parentPool
  let tasks ← P.tasks.set index1 task2
  let s ← s.modifyTask task2 fun T => { T with indexInParentPool := index1 }
  let tasks ← tasks.set index2 task1
  let s ← s.modifyTask task1 fun T => { T with indexInParentPool := index2 }
  return s.setPool parentPool { P with tasks := tasks }

/-- `thread_pool_new`; `pool` is the address that `malloc` returns. -/
def threadPoolNew (maxThreadCount : ℤ) (pool : PoolId) (s : State V) : Ret V × State V :=
  if maxThreadCount ≤ 0 ∨ maxThreadCount > tpoolMaxThreads then (.code .invalidArgument, s)
  else (.code .success, s.setPool pool (.new maxThreadCount))

/-- `thread_task_new`; `task` is the address that `malloc` returns. -/
def threadTaskNew (task : TaskId) (s : State V) : Ret V × State V :=
  (.code .success, s.setTask task
    { result := none, finished := false, assigned := false, scheduledForDeletion := false
      parentPool := none, indexInParentPool := noIndex })

/-- `thread_pool_push_task`; a signal it sends wakes the waiters in `chosen`. -/
def threadPoolPushTask (pool : PoolId) (task : TaskId) (chosen : List ℕ) (s : State V) :
    Option (Ret V × State V) := do
  let P ← s.pools pool
  if P.pushedTasksCount ≥ tpoolMaxTasks then
    return (.code .tooManyTasks, s)
  let s ← s.modifyTask task fun T =>
    { T with finished := false, assigned := false, parentPool := some pool }
  let tasks ← P.tasks.set P.pushedTasksCount task
  let P := { P with tasks := tasks, pushedTasksCount := P.pushedTasksCount + 1 }
  let s ← s.modifyTask task fun T => { T with indexInParentPool := P.pushedTasksCount - 1 }
  let P := { P with unassignedTasksCount := P.unassignedTasksCount + 1 }
  let P ← P.createOrSignal chosen
  let first ← P.tasks.get (P.unassignedTasksCount - 1)
  let s ← swapTasksInPool first task (s.setPool pool P)
  return (.code .success, s)

/-- `execute_thread` with the lock held and a queue that is not empty, up to the unlock before the
task's function is called. -/
def takeTask (pool : PoolId) (w : ℕ) (s : State V) : Option (Ret V × State V) := do
  let P ← s.pools pool
  let taskToExecute ← P.tasks.get 0
  let P := { P with unassignedTasksCount := P.unassignedTasksCount - 1 }
  let last ← P.tasks.get P.unassignedTasksCount
  let s ← swapTasksInPool taskToExecute last (s.setPool pool P)
  let s ← s.modifyPool pool fun P => { P with runningTasksCount := P.runningTasksCount + 1 }
  let s ← s.modifyTask taskToExecute fun T => { T with assigned := true }
  let s ← s.modifyPool pool fun P => P.setWorker w (.running taskToExecute)
  return (.took taskToExecute, s)

/-- `execute_thread` at the test of its inner loop. -/
def testQueue (pool : PoolId) (w : ℕ) (s : State V) : Option (Ret V × State V) := do
  let P ← s.pools pool
  if P.unassignedTasksCount = 0 then
    return (.waits, s.setPool pool (P.setWorker w .waiting))
  else takeTask pool w s

/-- `execute_thread` after `pthread_cond_wait` has returned. -/
def leaveWait (pool : PoolId) (w : ℕ) (s : State V) : Option (Ret V × State V) := do
  let P ← s.pools pool
  if P.threadUpdateEvent = .tasksEnded then
    return (.exits, s.setPool pool (P.setWorker w .exited))
  else testQueue pool w s

/-- What `thread_task_join_no_lock` and `thread_task_timed_join` do after their waiting loops. -/
def leavePool (task : TaskId) (s : State V) : Option (State V) := do
  let T ← s.tasks task
  let parentPool ← T.parentPool
  let P ← s.pools parentPool
  let last ← P.tasks.get (P.pushedTasksCount - 1)
  let s ← swapTasksInPool task last s
  let s ← s.modifyPool parentPool fun P => { P with pushedTasksCount := P.pushedTasksCount - 1 }
  s.modifyTask task fun T =>
    { T with parentPool := none, indexInParentPool := noIndex, assigned := false }

/-- `thread_task_join_no_lock`; the flag tells whether its waiting loop is over. -/
def threadTaskJoinNoLock (task : TaskId) (s : State V) : Option (Bool × State V) := do
  let T ← s.tasks task
  if T.finished then
    let s ← leavePool task s
    return (true, s)
  else return (false, s)

def threadTaskDelete (task : TaskId) (s : State V) : Option (Ret V × State V) := do
  let T ← s.tasks task
  if T.parentPool.isSome then return (.code .taskInPool, s)
  else return (.code .success, s.freeTask task)

/-- `execute_thread` after the function of `taskToExecute` has returned `result`. -/
def finishTask (pool : PoolId) (w : ℕ) (taskToExecute : TaskId) (result : V) (s : State V) :
    Option (Ret V × State V) := do
  let s ← s.modifyTask taskToExecute fun T => { T with result := some result }
  let s ← s.modifyPool pool fun P => { P with runningTasksCount := P.runningTasksCount - 1 }
  let s := broadcastJustFinished taskToExecute s
  let s ← s.modifyTask taskToExecute fun T => { T with finished := true }
  let T ← s.tasks taskToExecute
  if T.scheduledForDeletion then
    let (_, s) ← threadTaskJoinNoLock taskToExecute s
    let (_, s) ← threadTaskDelete taskToExecute s
    let s ← s.modifyPool pool fun P => P.setWorker w .ready
    return (.returned true, s)
  else
    let s ← s.modifyPool pool fun P => P.setWorker w .ready
    return (.returned false, s)

/-- The loop of `thread_task_join` and `thread_task_timed_join` with the lock held. -/
def joinLoop (timed : Bool) (task : TaskId) (s : State V) : Option (Ret V × State V) := do
  let (finished, s) ← threadTaskJoinNoLock task s
  if finished then
    let T ← s.tasks task
    return (.joined T.result, s.setJoin task none)
  else return (.waits, s.setJoin task (some { timed := timed, woken := false }))

/-- The entry of a join: both functions refuse a task that is in no pool. -/
def joinEntry (timed : Bool) (task : TaskId) (s : State V) : Option (Ret V × State V) := do
  let T ← s.tasks task
  match T.parentPool with
  | none => return (.code .taskNotPushed, s)
  | some parentPool =>
    let _ ← s.pools parentPool
    joinLoop timed task s

def threadTaskJoin (task : TaskId) (s : State V) : Option (Ret V × State V) :=
  joinEntry false task s

def threadTaskTimedJoin (task : TaskId) (s : State V) : Option (Ret V × State V) :=
  joinEntry true task s

/-- A joining thread that was woken has the lock again. -/
def resumeJoin (task : TaskId) (s : State V) : Option (Ret V × State V) := do
  let call ← s.joins task
  joinLoop call.timed task s

def threadTaskDetach (task : TaskId) (s : State V) : Option (Ret V × State V) := do
  let T ← s.tasks task
  match T.parentPool with
  | none => return (.code .taskNotPushed, s)
  | some parentPool =>
    let _ ← s.pools parentPool
    if T.finished then
      let (_, s) ← threadTaskJoinNoLock task s
      let (_, s) ← threadTaskDelete task s
      return (.code .success, s)
    else
      let s ← s.modifyTask task fun T => { T with scheduledForDeletion := true }
      return (.code .success, s)

/-- `thread_pool_delete` up to its unlock. -/
def threadPoolDelete (pool : PoolId) (s : State V) : Option (Ret V × State V) := do
  let P ← s.pools pool
  if P.unassignedTasksCount > 0 ∨ P.runningTasksCount > 0 then return (.code .hasTasks, s)
  else
    let s := s.setPool pool { P with threadUpdateEvent := .tasksEnded }.broadcast
    return (.waits, s.setDelete pool (some 0))

/-- The worker that the loop of `thread_pool_delete` joins next. -/
def nextJoined (pool : PoolId) (s : State V) : Option ℕ := do
  let P ← s.pools pool
  let i ← s.deletes pool
  P.threads.get i

/-- One `pthread_join` of the loop of `thread_pool_delete`. -/
def joinThread (pool : PoolId) (s : State V) : Option (Ret V × State V) := do
  let i ← s.deletes pool
  let _ ← nextJoined pool s
  return (.waits, s.setDelete pool (some (i + 1)))

/-- `thread_pool_delete` after its loop. -/
def releasePool (pool : PoolId) (s : State V) : Ret V × State V :=
  (.code .success, (s.freePool pool).setDelete pool none)

/-! ### Steps -/

inductive Event (V : Type)
  | newPool (pool : PoolId) (maxThreadCount : ℤ)
  | newTask (task : TaskId)
  | push (pool : PoolId) (task : TaskId) (chosen : List ℕ)
  /-- A worker locks at the top of its loop. -/
  | lock (pool : PoolId) (w : ℕ)
  /-- A woken worker has the lock again. -/
  | wake (pool : PoolId) (w : ℕ)
  | spurious (pool : PoolId) (w : ℕ)
  | finish (pool : PoolId) (w : ℕ) (task : TaskId) (result : V)
  | join (task : TaskId)
  | timedJoin (task : TaskId)
  | joinWake (task : TaskId)
  | joinSpurious (task : TaskId)
  | joinTimeout (task : TaskId)
  | detach (task : TaskId)
  | deleteTask (task : TaskId)
  | deletePool (pool : PoolId)
  | joinThread (pool : PoolId)
  | releasePool (pool : PoolId)

/-- The steps by which the workers of a pool test its queue, take and finish tasks, or leave. -/
def Event.ByWorker (pool : PoolId) : Event V → Prop
  | .lock p _ => p = pool
  | .wake p _ => p = pool
  | .finish p _ _ _ => p = pool
  | _ => False

/-- A signal wakes at least one of the threads that wait. -/
def SignalWakes (workers : List Worker) (chosen : List ℕ) : Prop :=
  Worker.waiting ∈ workers → ∃ i ∈ chosen, workers[i]? = some .waiting

instance (workers : List Worker) (chosen : List ℕ) : Decidable (SignalWakes workers chosen) :=
  inferInstanceAs (Decidable (_ → _))

/-- A client may join or detach a task it has neither detached nor is joining. -/
def MayClaim (s : State V) (task : TaskId) : Prop :=
  (s.tasks task).any (fun T => !T.scheduledForDeletion) ∧ s.joins task = none

instance (s : State V) (task : TaskId) : Decidable (MayClaim s task) :=
  inferInstanceAs (Decidable (_ ∧ _))

/-- Where a step can be made: a thread is at the section, a call is made on live objects and by the
rules for clients (only a task in no pool is pushed, each push is joined or detached at most once,
a detached task is left alone), `malloc` returns a free address. -/
def Enabled (s : State V) : Event V → Prop
  | .newPool pool _ => s.pools pool = none
  | .newTask task => s.tasks task = none
  | .push pool task chosen =>
    (s.pools pool).any (fun P => SignalWakes P.workers chosen) ∧
      (s.tasks task).any (fun T => T.parentPool = none)
  | .lock pool w => s.worker pool w = some .ready
  | .wake pool w => s.worker pool w = some .woken
  | .spurious pool w => s.worker pool w = some .waiting
  | .finish pool w task _ => s.worker pool w = some (.running task)
  | .join task => MayClaim s task
  | .timedJoin task => MayClaim s task
  | .joinWake task => (s.joins task).any (fun call => call.woken)
  | .joinSpurious task => (s.joins task).isSome
  | .joinTimeout task => (s.joins task).any (fun call => call.timed)
  | .detach task => MayClaim s task
  | .deleteTask task => (s.tasks task).any (fun T => !T.scheduledForDeletion)
  | .deletePool pool => (s.pools pool).isSome ∧ s.deletes pool = none
  | .joinThread pool => (s.pools pool).any (fun P => (s.deletes pool).any (· < P.threadCount)) ∧
      ∃ w ∈ nextJoined pool s, s.worker pool w = some .exited
  | .releasePool pool => (s.pools pool).any (fun P => (s.deletes pool).any (P.threadCount ≤ ·))

instance (s : State V) (e : Event V) : Decidable (Enabled s e) := by
  cases e <;> simp only [Enabled] <;> infer_instance

def exec (s : State V) : Event V → Option (Ret V × State V)
  | .newPool pool maxThreadCount => some (threadPoolNew maxThreadCount pool s)
  | .newTask task => some (threadTaskNew task s)
  | .push pool task chosen => threadPoolPushTask pool task chosen s
  | .lock pool w => testQueue pool w s
  | .wake pool w => leaveWait pool w s
  | .spurious pool w => do
    let s ← s.modifyPool pool fun P => P.setWorker w .woken
    return (.waits, s)
  | .finish pool w task result => finishTask pool w task result s
  | .join task => threadTaskJoin task s
  | .timedJoin task => threadTaskTimedJoin task s
  | .joinWake task => resumeJoin task s
  | .joinSpurious task => some (.waits, broadcastJustFinished task s)
  | .joinTimeout task => some (.code .timeout, s.setJoin task none)
  | .detach task => threadTaskDetach task s
  | .deleteTask task => threadTaskDelete task s
  | .deletePool pool => threadPoolDelete pool s
  | .joinThread pool => joinThread pool s
  | .releasePool pool => some (releasePool pool s)

/-- A step with its label: the event and what it returns. -/
def Step (s : State V) (l : Event V × Ret V) (t : State V) : Prop :=
  Enabled s l.1 ∧ exec s l.1 = some (l.2, t)

/-- The steps for the given events with their labels, where each can be made and meets a
condition. -/
def runEvents (ok : State V → Event V → Bool) (s : State V) :
    List (Event V) → Option (List (Event V × Ret V) × State V)
  | [] => some ([], s)
  | e :: es => if ok s e ∧ Enabled s e then do
      let (r, t) ← exec s e
      let (ls, u) ← runEvents ok t es
      return ((e, r) :: ls, u)
    else none

open Transition in
theorem run_of_runEvents {ok : State V → Event V → Bool} {s t : State V} {es : List (Event V)}
    {ls : List (Event V × Ret V)} (h : runEvents ok s es = some (ls, t)) :
    Run (restrict Step fun s l => ok s l.1) s ls t := by
  induction es generalizing s ls with
  | nil =>
    cases h
    exact .nil
  | cons e es ih =>
    unfold runEvents at h
    split at h
    · next hen =>
      simp only [Option.bind_eq_bind, Option.bind_eq_some_iff, Option.pure_def, Option.some.injEq,
        Prod.mk.injEq] at h
      obtain ⟨⟨r, u⟩, hu, ⟨ms, v⟩, hv, rfl, rfl⟩ := h
      exact Run.cons ⟨hen.1, hen.2, hu⟩ (ih hv)
    · contradiction

end SystemsProgramming.ThreadPool

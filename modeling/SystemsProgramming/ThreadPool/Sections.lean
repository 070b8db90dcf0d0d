import SystemsProgramming.ThreadPool.Model

/-! Closed forms of the sections that move tasks within the array of a pool: where the task and
the tasks it trades places with are known to stand inside the array, each section succeeds, changes
these tasks in place and writes the cells named here. -/

namespace SystemsProgramming.ThreadPool

variable {V : Type}

namespace State

/-- Every task is changed in place. -/
def mapTasks (s : State V) (f : TaskId → Task V → Task V) : State V :=
  { s with tasks := fun x => (s.tasks x).map (f x) }

@[simp] theorem tasks_mapTasks (s : State V) (f : TaskId → Task V → Task V) (x : TaskId) :
    (s.mapTasks f).tasks x = (s.tasks x).map (f x) := rfl

@[simp] theorem pools_mapTasks (s : State V) (f : TaskId → Task V → Task V) :
    (s.mapTasks f).pools = s.pools := rfl

@[simp] theorem joins_mapTasks (s : State V) (f : TaskId → Task V → Task V) :
    (s.mapTasks f).joins = s.joins := rfl

@[simp] theorem deletes_mapTasks (s : State V) (f : TaskId → Task V → Task V) :
    (s.mapTasks f).deletes = s.deletes := rfl

@[simp] theorem tasks_setPool (s : State V) (pool : PoolId) (P : Pool) :
    (s.setPool pool P).tasks = s.tasks := rfl

@[simp] theorem joins_setPool (s : State V) (pool : PoolId) (P : Pool) :
    (s.setPool pool P).joins = s.joins := rfl

@[simp] theorem deletes_setPool (s : State V) (pool : PoolId) (P : Pool) :
    (s.setPool pool P).deletes = s.deletes := rfl

theorem pools_setPool (s : State V) (pool q : PoolId) (P : Pool) :
    (s.setPool pool P).pools q = if q = pool then some P else s.pools q :=
  Function.update_apply ..

@[simp] theorem pools_setPool_self (s : State V) (pool : PoolId) (P : Pool) :
    (s.setPool pool P).pools pool = some P := Function.update_self ..

@[simp] theorem setPool_setPool (s : State V) (pool : PoolId) (P Q : Pool) :
    (s.setPool pool P).setPool pool Q = s.setPool pool Q := by simp [setPool]

theorem setPool_self {s : State V} {pool : PoolId} {P : Pool} (h : s.pools pool = some P) :
    s.setPool pool P = s := by
  unfold setPool
  rw [← h, Function.update_eq_self]

theorem mapTasks_setPool (s : State V) (pool : PoolId) (P : Pool) (f : TaskId → Task V → Task V) :
    (s.setPool pool P).mapTasks f = (s.mapTasks f).setPool pool P := rfl

theorem mapTasks_mapTasks (s : State V) (f g : TaskId → Task V → Task V) :
    (s.mapTasks f).mapTasks g = s.mapTasks fun x T => g x (f x T) := by
  simp [mapTasks, Function.comp_def]

theorem mapTasks_congr {s : State V} {f g : TaskId → Task V → Task V}
    (h : ∀ x T, s.tasks x = some T → f x T = g x T) : s.mapTasks f = s.mapTasks g := by
  unfold mapTasks
  congr 1
  funext x
  cases hx : s.tasks x with
  | none => rfl
  | some T => exact congrArg some (h x T hx)

theorem modifyPool_eq {s : State V} {pool : PoolId} {P : Pool} (h : s.pools pool = some P)
    (f : Pool → Pool) : s.modifyPool pool f = some (s.setPool pool (f P)) := by
  simp [modifyPool, h]

theorem modifyTask_eq {s : State V} {task : TaskId} {T : Task V} (h : s.tasks task = some T)
    (f : Task V → Task V) :
    s.modifyTask task f = some (s.mapTasks fun x T => if x = task then f T else T) := by
  simp only [modifyTask, h, Option.map_some, setTask, mapTasks]
  congr 2
  funext x
  by_cases hx : x = task
  · simp [hx, h]
  · cases hs : s.tasks x <;> simp [hx, hs]

end State

open State

/-- Tasks `a` and `b` now stand at `j` and `i`. -/
def trade (a b : TaskId) (i j : ℤ) (x : TaskId) (T : Task V) : Task V :=
  if x = a then { T with indexInParentPool := j }
  else if x = b then { T with indexInParentPool := i } else T

theorem swapTasksInPool_eq {s : State V} {a b : TaskId} {A B : Task V} {pool : PoolId} {P : Pool}
    {i j : ℤ} (ha : s.tasks a = some A) (hb : s.tasks b = some B) (hp : A.parentPool = some pool)
    (hP : s.pools pool = some P) (hi : A.indexInParentPool = i) (hj : B.indexInParentPool = j)
    (hi0 : 0 ≤ i) (hi1 : i < P.tasks.size) (hj0 : 0 ≤ j) (hj1 : j < P.tasks.size) :
    swapTasksInPool a b s = some ((s.mapTasks (trade a b i j)).setPool pool
      { P with tasks := (P.tasks.put i b).put j a }) := by
  have ha' : (s.mapTasks fun x T => if x = b then { T with indexInParentPool := i } else T).tasks a =
      some (if a = b then { A with indexInParentPool := i } else A) := by simp [ha]
  have hset : (P.tasks.put i b).set j a = some ((P.tasks.put i b).put j a) :=
    CArray.set_eq a hj0 (by simpa using hj1)
  simp only [swapTasksInPool, ha, hb, hp, hP, hi, hj, Option.bind_eq_bind, Option.bind_some,
    CArray.set_eq b hi0 hi1, modifyTask_eq hb, hset, modifyTask_eq ha', Option.pure_def,
    mapTasks_mapTasks]
  congr 2
  refine mapTasks_congr fun x T _ => ?_
  unfold trade
  split_ifs <;> rfl

/-- The task `a` leaves; `b`, which stood last, takes its place at `i`. -/
def vacate (a b : TaskId) (i : ℤ) (x : TaskId) (T : Task V) : Task V :=
  if x = a then { T with parentPool := none, indexInParentPool := noIndex, assigned := false }
  else if x = b then { T with indexInParentPool := i } else T

@[simp] theorem vacate_indexInParentPool (a b : TaskId) (i : ℤ) (x : TaskId) (T : Task V) :
    (vacate a b i x T).indexInParentPool =
      if x = a then noIndex else if x = b then i else T.indexInParentPool := by
  unfold vacate; split_ifs <;> rfl

@[simp] theorem vacate_assigned (a b : TaskId) (i : ℤ) (x : TaskId) (T : Task V) :
    (vacate a b i x T).assigned = if x = a then false else T.assigned := by
  unfold vacate; split_ifs <;> rfl

@[simp] theorem vacate_finished (a b : TaskId) (i : ℤ) (x : TaskId) (T : Task V) :
    (vacate a b i x T).finished = T.finished := by
  unfold vacate; split_ifs <;> rfl

@[simp] theorem vacate_parentPool (a b : TaskId) (i : ℤ) (x : TaskId) (T : Task V) :
    (vacate a b i x T).parentPool = if x = a then none else T.parentPool := by
  unfold vacate; split_ifs <;> rfl

theorem leavePool_eq {s : State V} {a b : TaskId} {A B : Task V} {pool : PoolId} {P : Pool}
    {i : ℤ} (ha : s.tasks a = some A) (hb : s.tasks b = some B) (hp : A.parentPool = some pool)
    (hP : s.pools pool = some P) (hi : A.indexInParentPool = i)
    (hj : B.indexInParentPool = P.pushedTasksCount - 1)
    (hlast : P.tasks.cells (P.pushedTasksCount - 1) = some b) (hi0 : 0 ≤ i)
    (hin : i < P.pushedTasksCount) (hn : P.pushedTasksCount ≤ P.tasks.size) :
    leavePool a s = some ((s.mapTasks (vacate a b i)).setPool pool
      { P with tasks := (P.tasks.put i b).put (P.pushedTasksCount - 1) a
               pushedTasksCount := P.pushedTasksCount - 1 }) := by
  have hget : P.tasks.get (P.pushedTasksCount - 1) = some b := by
    rw [CArray.get_eq (by omega) (by omega), hlast]
  have hswap := swapTasksInPool_eq ha hb hp hP hi hj hi0 (by omega) (by omega) (by omega)
  have ha' : (((s.mapTasks (trade a b i (P.pushedTasksCount - 1))).setPool pool
      { P with tasks := (P.tasks.put i b).put (P.pushedTasksCount - 1) a
               pushedTasksCount := P.pushedTasksCount - 1 })).tasks a =
      some (trade a b i (P.pushedTasksCount - 1) a A) := by simp [ha]
  simp only [leavePool, ha, hp, hP, hget, hswap, Option.bind_eq_bind, Option.bind_some,
    modifyPool_eq (pools_setPool_self ..), setPool_setPool, modifyTask_eq ha']
  rw [mapTasks_setPool, mapTasks_mapTasks]
  congr 2
  refine mapTasks_congr fun x T _ => ?_
  unfold trade vacate
  split_ifs <;> rfl

/-- The function of the task `a` has returned `result`. -/
def complete (a : TaskId) (result : V) (x : TaskId) (T : Task V) : Task V :=
  if x = a then { T with result := some result, finished := true } else T

@[simp] theorem complete_indexInParentPool (a : TaskId) (v : V) (x : TaskId) (T : Task V) :
    (complete a v x T).indexInParentPool = T.indexInParentPool := by
  unfold complete; split_ifs <;> rfl

@[simp] theorem complete_assigned (a : TaskId) (v : V) (x : TaskId) (T : Task V) :
    (complete a v x T).assigned = T.assigned := by
  unfold complete; split_ifs <;> rfl

@[simp] theorem complete_finished (a : TaskId) (v : V) (x : TaskId) (T : Task V) :
    (complete a v x T).finished = if x = a then true else T.finished := by
  unfold complete; split_ifs <;> rfl

@[simp] theorem complete_parentPool (a : TaskId) (v : V) (x : TaskId) (T : Task V) :
    (complete a v x T).parentPool = T.parentPool := by
  unfold complete; split_ifs <;> rfl

theorem threadTaskJoinNoLock_eq {s t : State V} {a : TaskId} {A : Task V}
    (ha : s.tasks a = some A) (hf : A.finished = true) (h : leavePool a s = some t) :
    threadTaskJoinNoLock a s = some (true, t) := by
  simp [threadTaskJoinNoLock, ha, hf, h]

theorem threadTaskDelete_eq {s : State V} {a : TaskId} {A : Task V} (ha : s.tasks a = some A)
    (hp : A.parentPool = none) : threadTaskDelete a s = some (.code .success, s.freeTask a) := by
  simp [threadTaskDelete, ha, hp]

/-- What a worker does to a task before it looks whether the task is detached. -/
def finished (pool : PoolId) (P : Pool) (a : TaskId) (result : V) (s : State V) : State V :=
  broadcastJustFinished a ((s.mapTasks (complete a result)).setPool pool
    { P with runningTasksCount := P.runningTasksCount - 1 })

theorem finishTask_eq {s : State V} {a : TaskId} {A : Task V} {pool : PoolId} {P : Pool} {w : ℕ}
    (v : V) (ha : s.tasks a = some A) (hP : s.pools pool = some P) :
    finishTask pool w a v s = if A.scheduledForDeletion then do
        let (_, t) ← threadTaskJoinNoLock a (finished pool P a v s)
        let (_, t) ← threadTaskDelete a t
        let t ← t.modifyPool pool fun P => P.setWorker w .ready
        return (.returned true, t)
      else do
        let t ← (finished pool P a v s).modifyPool pool fun P => P.setWorker w .ready
        return (.returned false, t) := by
  have ha₁ : (s.mapTasks fun x T => if x = a then { T with result := some v } else T).tasks a =
      some { A with result := some v } := by simp [ha]
  have hs : (broadcastJustFinished a ((s.mapTasks fun x T => if x = a then
      { T with result := some v } else T).setPool pool
      { P with runningTasksCount := P.runningTasksCount - 1 })).mapTasks
      (fun x T => if x = a then { T with finished := true } else T) = finished pool P a v s := by
    have hmap : (s.mapTasks fun x T => if x = a then { T with result := some v } else T).mapTasks
        (fun x T => if x = a then { T with finished := true } else T) =
        s.mapTasks (complete a v) := by
      rw [mapTasks_mapTasks]
      refine mapTasks_congr fun x T _ => ?_
      unfold complete
      split_ifs <;> rfl
    unfold finished
    rw [← hmap]
    rfl
  have ha₂ : (broadcastJustFinished a ((s.mapTasks fun x T => if x = a then
      { T with result := some v } else T).setPool pool
      { P with runningTasksCount := P.runningTasksCount - 1 })).tasks a =
      some { A with result := some v } := ha₁
  have ha₃ : (finished pool P a v s).tasks a =
      some { A with result := some v, finished := true } := by
    show (s.mapTasks (complete a v)).tasks a = _
    simp [ha, complete]
  have hP₁ : (s.mapTasks fun x T => if x = a then
      { T with result := some v } else T).pools pool = some P := hP
  simp only [finishTask, modifyTask_eq ha, modifyPool_eq hP₁, modifyTask_eq ha₂, hs, ha₃,
    Option.bind_eq_bind, Option.bind_some]

/-- The task `a` is detached while it is still to finish. -/
def schedule (a : TaskId) (x : TaskId) (T : Task V) : Task V :=
  if x = a then { T with scheduledForDeletion := true } else T

/-- The task `a`, which stood first, is taken; `b`, the last one not assigned, stands first. -/
def assign (a b : TaskId) (u : ℤ) (x : TaskId) (T : Task V) : Task V :=
  if x = a then { T with indexInParentPool := u, assigned := true }
  else if x = b then { T with indexInParentPool := 0 } else T

@[simp] theorem assign_indexInParentPool (a b : TaskId) (u : ℤ) (x : TaskId) (T : Task V) :
    (assign a b u x T).indexInParentPool = if x = a then u else if x = b then 0 else T.indexInParentPool := by
  unfold assign; split_ifs <;> rfl

@[simp] theorem assign_assigned (a b : TaskId) (u : ℤ) (x : TaskId) (T : Task V) :
    (assign a b u x T).assigned = if x = a then true else T.assigned := by
  unfold assign; split_ifs <;> rfl

@[simp] theorem assign_finished (a b : TaskId) (u : ℤ) (x : TaskId) (T : Task V) :
    (assign a b u x T).finished = T.finished := by
  unfold assign; split_ifs <;> rfl

@[simp] theorem assign_parentPool (a b : TaskId) (u : ℤ) (x : TaskId) (T : Task V) :
    (assign a b u x T).parentPool = T.parentPool := by
  unfold assign; split_ifs <;> rfl

theorem takeTask_eq {s : State V} {a b : TaskId} {A B : Task V} {pool : PoolId} {P : Pool} {w : ℕ}
    (hP : s.pools pool = some P) (ha : s.tasks a = some A) (hb : s.tasks b = some B)
    (hp : A.parentPool = some pool) (hi : A.indexInParentPool = 0)
    (hj : B.indexInParentPool = P.unassignedTasksCount - 1) (hfirst : P.tasks.cells 0 = some a)
    (hlast : P.tasks.cells (P.unassignedTasksCount - 1) = some b)
    (hu : 0 < P.unassignedTasksCount) (hn : P.unassignedTasksCount ≤ P.tasks.size) :
    takeTask pool w s = some (.took a,
      (s.mapTasks (assign a b (P.unassignedTasksCount - 1))).setPool pool
        { P with tasks := (P.tasks.put 0 b).put (P.unassignedTasksCount - 1) a
                 unassignedTasksCount := P.unassignedTasksCount - 1
                 runningTasksCount := P.runningTasksCount + 1
                 workers := P.workers.set w (.running a) }) := by
  have hget0 : P.tasks.get 0 = some a := by
    rw [CArray.get_eq (Int.le_refl 0) (by omega), hfirst]
  have hget : P.tasks.get (P.unassignedTasksCount - 1) = some b := by
    rw [CArray.get_eq (by omega) (by omega), hlast]
  have hswap := swapTasksInPool_eq (s := s.setPool pool
    { P with unassignedTasksCount := P.unassignedTasksCount - 1 }) ha hb hp (pools_setPool_self ..)
    hi hj (Int.le_refl 0) (by dsimp only; omega) (by omega) (by dsimp only; omega)
  have ha' : (((s.mapTasks (trade a b 0 (P.unassignedTasksCount - 1))).setPool pool
      { P with tasks := (P.tasks.put 0 b).put (P.unassignedTasksCount - 1) a
               unassignedTasksCount := P.unassignedTasksCount - 1
               runningTasksCount := P.runningTasksCount + 1 })).tasks a =
      some (trade a b 0 (P.unassignedTasksCount - 1) a A) := by simp [ha]
  simp only [takeTask, hP, hget0, hget, hswap, Option.bind_eq_bind, Option.bind_some,
    modifyPool_eq (pools_setPool_self ..), mapTasks_setPool, setPool_setPool, modifyTask_eq ha',
    mapTasks_mapTasks, Pool.setWorker, Option.pure_def]
  congr 3
  refine mapTasks_congr fun x T _ => ?_
  unfold trade assign
  split_ifs <;> rfl

/-- The task `a` joins the pool at `n`. -/
def store (pool : PoolId) (a : TaskId) (n : ℤ) (x : TaskId) (T : Task V) : Task V :=
  if x = a then { T with finished := false, assigned := false, parentPool := some pool
                         indexInParentPool := n } else T

/-- The task `a` joins the pool at `u`; `b`, the first one assigned, moves to the end at `n`. -/
def enlist (pool : PoolId) (a b : TaskId) (u n : ℤ) (x : TaskId) (T : Task V) : Task V :=
  if x = a then { T with finished := false, assigned := false, parentPool := some pool
                         indexInParentPool := u }
  else if x = b then { T with indexInParentPool := n } else T

@[simp] theorem enlist_indexInParentPool (pool : PoolId) (a b : TaskId) (u n : ℤ) (x : TaskId) (T : Task V) :
    (enlist pool a b u n x T).indexInParentPool =
      if x = a then u else if x = b then n else T.indexInParentPool := by
  unfold enlist; split_ifs <;> rfl

@[simp] theorem enlist_assigned (pool : PoolId) (a b : TaskId) (u n : ℤ) (x : TaskId) (T : Task V) :
    (enlist pool a b u n x T).assigned = if x = a then false else T.assigned := by
  unfold enlist; split_ifs <;> rfl

@[simp] theorem enlist_finished (pool : PoolId) (a b : TaskId) (u n : ℤ) (x : TaskId) (T : Task V) :
    (enlist pool a b u n x T).finished = if x = a then false else T.finished := by
  unfold enlist; split_ifs <;> rfl

@[simp] theorem enlist_parentPool (pool : PoolId) (a b : TaskId) (u n : ℤ) (x : TaskId) (T : Task V) :
    (enlist pool a b u n x T).parentPool = if x = a then some pool else T.parentPool := by
  unfold enlist; split_ifs <;> rfl

/-- The pool with the task `a` stored at the end and counted. -/
def Pool.count (P : Pool) (a : TaskId) : Pool :=
  { P with tasks := P.tasks.put P.pushedTasksCount a, pushedTasksCount := P.pushedTasksCount + 1
           unassignedTasksCount := P.unassignedTasksCount + 1 }

/-- What creating or signalling a worker leaves as it is. -/
theorem Pool.createOrSignal_frame {P Q : Pool} {chosen : List ℕ}
    (h : P.createOrSignal chosen = some Q) : Q.tasks = P.tasks ∧
      Q.unassignedTasksCount = P.unassignedTasksCount ∧ Q.pushedTasksCount = P.pushedTasksCount := by
  unfold createOrSignal at h
  split at h
  · simp only [pthreadCreate, Option.bind_eq_bind, Option.bind_eq_some_iff, Option.pure_def,
      Option.some.injEq] at h
    obtain ⟨_, -, rfl⟩ := h
    exact ⟨rfl, rfl, rfl⟩
  · split at h <;> cases h <;> exact ⟨rfl, rfl, rfl⟩

theorem threadPoolPushTask_eq {s : State V} {a b : TaskId} {A : Task V} {pool : PoolId}
    {P Q : Pool} {chosen : List ℕ} (hP : s.pools pool = some P) (ha : s.tasks a = some A)
    (hn : P.pushedTasksCount < tpoolMaxTasks) (hsize : P.tasks.size = tpoolMaxTasks)
    (hu0 : 0 ≤ P.unassignedTasksCount) (hun : P.unassignedTasksCount ≤ P.pushedTasksCount)
    (hQ : (P.count a).createOrSignal chosen = some Q)
    (hb : b = a ∧ P.unassignedTasksCount = P.pushedTasksCount ∨
      b ≠ a ∧ P.unassignedTasksCount < P.pushedTasksCount ∧
        P.tasks.cells P.unassignedTasksCount = some b ∧
        ∃ B, s.tasks b = some B ∧ B.parentPool = some pool ∧
          B.indexInParentPool = P.unassignedTasksCount) :
    threadPoolPushTask pool a chosen s = some (.code .success,
      (s.mapTasks (enlist pool a b P.unassignedTasksCount P.pushedTasksCount)).setPool pool
        { Q with tasks := ((P.tasks.put P.pushedTasksCount a).put P.unassignedTasksCount a).put
                   P.pushedTasksCount b }) := by
  obtain ⟨hQt, hQu, -⟩ := Pool.createOrSignal_frame hQ
  have hset : P.tasks.set P.pushedTasksCount a = some (P.tasks.put P.pushedTasksCount a) :=
    CArray.set_eq a (by omega) (by omega)
  have hfirst : Q.tasks.get (Q.unassignedTasksCount - 1) = some b := by
    have hidx : Q.unassignedTasksCount - 1 = P.unassignedTasksCount := by rw [hQu]; simp [Pool.count]
    rw [hidx, hQt, CArray.get_eq hu0 (by simp only [Pool.count, CArray.size_put]; omega)]
    simp only [Pool.count, CArray.cells_put]
    rcases hb with ⟨rfl, hu⟩ | ⟨-, hu, hcell, -⟩
    · rw [if_pos hu]
    · rw [if_neg (by omega), hcell]
  have hsz : Q.tasks.size = tpoolMaxTasks := by rw [hQt]; simpa [Pool.count] using hsize
  -- the task set up at the end of the array, as it stands when it is traded with `b`
  obtain ⟨s₁, hs₁⟩ : ∃ s₁ : State V, s₁ = s.mapTasks (store pool a P.pushedTasksCount) := ⟨_, rfl⟩
  have ha₁ : s₁.tasks a = some (store pool a P.pushedTasksCount a A) := by simp [hs₁, ha]
  have hswap : swapTasksInPool b a (s₁.setPool pool Q) =
      some ((s₁.mapTasks (trade b a P.unassignedTasksCount P.pushedTasksCount)).setPool pool
        { Q with tasks := (Q.tasks.put P.unassignedTasksCount a).put P.pushedTasksCount b }) := by
    have hai : (store pool a P.pushedTasksCount a A).indexInParentPool = P.pushedTasksCount := by
      simp [store]
    rcases hb with ⟨rfl, hu⟩ | ⟨hne, hu, -, B, hB, hBp, hBi⟩
    · have h := swapTasksInPool_eq (s := s₁.setPool pool Q) ha₁ ha₁ (by simp [store])
        (pools_setPool_self ..) (hai.trans hu.symm) hai hu0 (by omega) (by omega) (by omega)
      rwa [mapTasks_setPool, setPool_setPool] at h
    · have hb₁ : s₁.tasks b = some B := by simp [hs₁, hB, store, hne]
      have h := swapTasksInPool_eq (s := s₁.setPool pool Q) hb₁ ha₁ hBp (pools_setPool_self ..)
        hBi hai hu0 (by omega) (by omega) (by omega)
      rwa [mapTasks_setPool, setPool_setPool] at h
  have hcount : ¬P.pushedTasksCount ≥ tpoolMaxTasks := by omega
  have ha₂ : (s.mapTasks fun x T => if x = a then
      { T with finished := false, assigned := false, parentPool := some pool } else T).tasks a =
      some { A with finished := false, assigned := false, parentPool := some pool } := by simp [ha]
  have hstore : ((s.mapTasks fun x T => if x = a then
      { T with finished := false, assigned := false, parentPool := some pool } else T).mapTasks
      fun x T => if x = a then { T with indexInParentPool := P.pushedTasksCount + 1 - 1 } else T) =
      s₁ := by
    rw [mapTasks_mapTasks, hs₁]
    refine mapTasks_congr fun x T _ => ?_
    unfold store
    split_ifs
    · simp
    · rfl
  simp only [threadPoolPushTask, hP, Option.bind_eq_bind, Option.bind_some, if_neg hcount,
    modifyTask_eq ha, hset, modifyTask_eq ha₂, hstore]
  rw [show ({ P with tasks := P.tasks.put P.pushedTasksCount a
                     pushedTasksCount := P.pushedTasksCount + 1
                     unassignedTasksCount := P.unassignedTasksCount + 1 } : Pool) = P.count a from rfl,
    hQ]
  simp only [Option.bind_some, hfirst, hswap, Option.pure_def]
  rw [hs₁, mapTasks_mapTasks, hQt]
  unfold Pool.count
  congr 3
  refine mapTasks_congr fun x T _ => ?_
  unfold store trade enlist
  split_ifs <;> simp_all

end SystemsProgramming.ThreadPool

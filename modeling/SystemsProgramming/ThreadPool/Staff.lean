import SystemsProgramming.ThreadPool.Model

/-! What the workers see of a pool: its counters, the last event and the phase of every worker,
but not which task stands where in the array. Each section changes this view in one of the ways
listed here, whatever the tasks are; the array and the tasks are followed elsewhere. -/

namespace SystemsProgramming.ThreadPool

variable {V : Type}

structure Staff where
  maxThreadCount : ℤ
  threadCount : ℤ
  unassignedTasksCount : ℤ
  runningTasksCount : ℤ
  threadUpdateEvent : UpdateEvent
  workers : List Worker

def Pool.staff (P : Pool) : Staff where
  maxThreadCount := P.maxThreadCount
  threadCount := P.threadCount
  unassignedTasksCount := P.unassignedTasksCount
  runningTasksCount := P.runningTasksCount
  threadUpdateEvent := P.threadUpdateEvent
  workers := P.workers

namespace Staff

/-- The test of `thread_pool_push_task` for a new thread. -/
def Grows (σ : Staff) : Prop :=
  σ.runningTasksCount = σ.threadCount ∧ σ.threadCount < σ.maxThreadCount

/-- A successful push. -/
inductive Push : Staff → Staff → Prop
  | grow (σ : Staff) : σ.Grows → Push σ
      { σ with unassignedTasksCount := σ.unassignedTasksCount + 1
               threadCount := σ.threadCount + 1, workers := σ.workers ++ [.ready] }
  | rouse (σ : Staff) (chosen : List ℕ) : ¬σ.Grows → σ.unassignedTasksCount = 0 →
      SignalWakes σ.workers chosen → Push σ
      { σ with unassignedTasksCount := σ.unassignedTasksCount + 1
               threadUpdateEvent := .taskAppears
               workers := σ.workers.mapIdx fun i phase =>
                 if phase = .waiting ∧ i ∈ chosen then .woken else phase }
  | enqueue (σ : Staff) : ¬σ.Grows → σ.unassignedTasksCount ≠ 0 → Push σ
      { σ with unassignedTasksCount := σ.unassignedTasksCount + 1 }

/-- A worker is at a test of the queue: at the top of its loop, or woken while the pool is open. -/
def AtQueue (σ : Staff) (w : ℕ) : Prop :=
  σ.workers[w]? = some .ready ∨ σ.workers[w]? = some .woken ∧ σ.threadUpdateEvent ≠ .tasksEnded

/-- A step of a worker. -/
inductive Work : Staff → Staff → Prop
  | take (σ : Staff) (w : ℕ) (task : TaskId) : σ.AtQueue w → σ.unassignedTasksCount ≠ 0 → Work σ
      { σ with unassignedTasksCount := σ.unassignedTasksCount - 1
               runningTasksCount := σ.runningTasksCount + 1
               workers := σ.workers.set w (.running task) }
  | sleep (σ : Staff) (w : ℕ) : σ.AtQueue w → σ.unassignedTasksCount = 0 → Work σ
      { σ with workers := σ.workers.set w .waiting }
  | finish (σ : Staff) (w : ℕ) (task : TaskId) : σ.workers[w]? = some (.running task) → Work σ
      { σ with runningTasksCount := σ.runningTasksCount - 1
               workers := σ.workers.set w .ready }
  | exit (σ : Staff) (w : ℕ) : σ.workers[w]? = some .woken → σ.threadUpdateEvent = .tasksEnded →
      Work σ { σ with workers := σ.workers.set w .exited }

/-- A spurious wake-up. -/
inductive Wake : Staff → Staff → Prop
  | wake (σ : Staff) (w : ℕ) : σ.workers[w]? = some .waiting → Wake σ
      { σ with workers := σ.workers.set w .woken }

/-- `thread_pool_delete` has passed its check and broadcasts. -/
inductive Close : Staff → Staff → Prop
  | close (σ : Staff) : σ.unassignedTasksCount ≤ 0 → σ.runningTasksCount ≤ 0 → Close σ
      { σ with threadUpdateEvent := .tasksEnded
               workers := σ.workers.map fun phase => if phase = .waiting then .woken else phase }

/-- A new pool. -/
def new (maxThreadCount : ℤ) : Staff := ⟨maxThreadCount, 0, 0, 0, .none, []⟩

end Staff

namespace State

def staff (s : State V) (pool : PoolId) : Option Staff := (s.pools pool).map Pool.staff

theorem staff_eq {s : State V} {pool : PoolId} {P : Pool} (h : s.pools pool = some P) :
    s.staff pool = some P.staff := by simp [staff, h]

theorem exists_pool {s : State V} {pool : PoolId} {σ : Staff} (h : s.staff pool = some σ) :
    ∃ P, s.pools pool = some P ∧ P.staff = σ := by simpa [staff] using h

theorem staff_setPool (s : State V) (pool q : PoolId) (P : Pool) :
    (s.setPool pool P).staff q = if q = pool then some P.staff else s.staff q := by
  by_cases hq : q = pool <;> simp [staff, setPool, hq]

@[simp] theorem staff_setTask (s : State V) (task : TaskId) (T : Task V) (q : PoolId) :
    (s.setTask task T).staff q = s.staff q := rfl

@[simp] theorem staff_setJoin (s : State V) (task : TaskId) (call : Option JoinCall) (q : PoolId) :
    (s.setJoin task call).staff q = s.staff q := rfl

@[simp] theorem staff_setDelete (s : State V) (pool q : PoolId) (i : Option ℤ) :
    (s.setDelete pool i).staff q = s.staff q := rfl

@[simp] theorem staff_freeTask (s : State V) (task : TaskId) (q : PoolId) :
    (s.freeTask task).staff q = s.staff q := rfl

theorem staff_freePool (s : State V) (pool q : PoolId) :
    (s.freePool pool).staff q = if q = pool then none else s.staff q := by
  by_cases hq : q = pool <;> simp [staff, freePool, hq]

/-- Two states whose pools look the same to the workers, with the same deletions in progress. -/
def SameStaff (s t : State V) : Prop := t.staff = s.staff ∧ t.deletes = s.deletes

theorem SameStaff.trans {s t u : State V} (h : SameStaff s t) (k : SameStaff t u) : SameStaff s u :=
  ⟨k.1.trans h.1, k.2.trans h.2⟩

theorem SameStaff.of_pools {s t : State V} (hp : t.pools = s.pools) (hd : t.deletes = s.deletes) :
    SameStaff s t := by
  refine ⟨?_, hd⟩
  unfold staff
  rw [hp]

theorem modifyTask_sameStaff {s t : State V} {task : TaskId} {f : Task V → Task V}
    (h : s.modifyTask task f = some t) : SameStaff s t := by
  simp only [modifyTask, Option.map_eq_some_iff] at h
  obtain ⟨T, -, rfl⟩ := h
  exact ⟨rfl, rfl⟩

theorem modifyPool_staff {s t : State V} {pool : PoolId} {f : Pool → Pool}
    (h : s.modifyPool pool f = some t) :
    ∃ P, s.pools pool = some P ∧ t = s.setPool pool (f P) := by
  simp only [modifyPool, Option.map_eq_some_iff] at h
  obtain ⟨P, hP, rfl⟩ := h
  exact ⟨P, hP, rfl⟩

theorem setPool_sameStaff {s : State V} {pool : PoolId} {P P' : Pool}
    (h : s.pools pool = some P) (hP : P'.staff = P.staff) : SameStaff s (s.setPool pool P') := by
  refine ⟨?_, rfl⟩
  funext q
  rw [staff_setPool]
  split
  · next hq => rw [hq, hP, staff_eq h]
  · rfl

theorem modifyPool_sameStaff {s t : State V} {pool : PoolId} {f : Pool → Pool}
    (h : s.modifyPool pool f = some t) (hf : ∀ P, (f P).staff = P.staff) : SameStaff s t := by
  obtain ⟨P, hP, rfl⟩ := modifyPool_staff h
  exact setPool_sameStaff hP (hf P)

end State

open State

theorem swapTasksInPool_sameStaff {a b : TaskId} {s t : State V}
    (h : swapTasksInPool a b s = some t) : SameStaff s t := by
  simp only [swapTasksInPool, Option.bind_eq_bind, Option.bind_eq_some_iff, Option.pure_def,
    Option.some.injEq] at h
  obtain ⟨T₁, -, T₂, -, p, -, P, hP, A, -, s₁, hs₁, B, -, s₂, hs₂, rfl⟩ := h
  have hpools : s₂.pools = s.pools := by
    simp only [modifyTask, Option.map_eq_some_iff] at hs₁ hs₂
    obtain ⟨_, -, rfl⟩ := hs₁
    obtain ⟨_, -, rfl⟩ := hs₂
    rfl
  exact ((modifyTask_sameStaff hs₁).trans (modifyTask_sameStaff hs₂)).trans
    (setPool_sameStaff (P := P) (by rw [hpools]; exact hP) rfl)

theorem leavePool_sameStaff {a : TaskId} {s t : State V} (h : leavePool a s = some t) :
    SameStaff s t := by
  simp only [leavePool, Option.bind_eq_bind, Option.bind_eq_some_iff] at h
  obtain ⟨T, -, p, -, P, -, last, -, s₁, hs₁, s₂, hs₂, hs₃⟩ := h
  exact ((swapTasksInPool_sameStaff hs₁).trans (modifyPool_sameStaff hs₂ fun _ => rfl)).trans
    (modifyTask_sameStaff hs₃)

/-- The pools stay as they are, or a finished task leaves its pool. -/
def Leaves (a : TaskId) (s t : State V) : Prop :=
  t.pools = s.pools ∧ t.deletes = s.deletes ∨
    ∃ A u, s.tasks a = some A ∧ A.finished = true ∧ leavePool a s = some u ∧
      t.pools = u.pools ∧ t.deletes = u.deletes

theorem Leaves.congr {a : TaskId} {s t u : State V} (h : Leaves a s t) (hp : u.pools = t.pools)
    (hd : u.deletes = t.deletes) : Leaves a s u := by
  rcases h with ⟨hps, hds⟩ | ⟨A, v, ha, hf, hv, hpv, hdv⟩
  · exact .inl ⟨hp.trans hps, hd.trans hds⟩
  · exact .inr ⟨A, v, ha, hf, hv, hp.trans hpv, hd.trans hdv⟩

theorem Leaves.sameStaff {a : TaskId} {s t : State V} (h : Leaves a s t) : SameStaff s t := by
  rcases h with ⟨hp, hd⟩ | ⟨A, u, -, -, hu, hp, hd⟩
  · exact .of_pools hp hd
  · exact (leavePool_sameStaff hu).trans (.of_pools hp hd)

theorem threadTaskJoinNoLock_leaves {a : TaskId} {s t : State V} {finished : Bool}
    (h : threadTaskJoinNoLock a s = some (finished, t)) : Leaves a s t := by
  simp only [threadTaskJoinNoLock, Option.bind_eq_bind, Option.bind_eq_some_iff] at h
  obtain ⟨A, ha, h⟩ := h
  split at h
  · next hf =>
    simp only [Option.bind_eq_some_iff, Option.pure_def, Option.some.injEq, Prod.mk.injEq] at h
    obtain ⟨u, hu, -, rfl⟩ := h
    exact .inr ⟨A, u, ha, hf, hu, rfl, rfl⟩
  · simp only [Option.pure_def, Option.some.injEq, Prod.mk.injEq] at h
    obtain ⟨-, rfl⟩ := h
    exact .inl ⟨rfl, rfl⟩

theorem threadTaskDelete_pools {a : TaskId} {s t : State V} {r : Ret V}
    (h : threadTaskDelete a s = some (r, t)) : t.pools = s.pools ∧ t.deletes = s.deletes := by
  simp only [threadTaskDelete, Option.bind_eq_bind, Option.bind_eq_some_iff] at h
  obtain ⟨T, -, h⟩ := h
  split at h <;> simp only [Option.pure_def, Option.some.injEq, Prod.mk.injEq] at h <;>
    obtain ⟨-, rfl⟩ := h <;> exact ⟨rfl, rfl⟩

theorem joinLoop_leaves {timed : Bool} {a : TaskId} {s t : State V} {r : Ret V}
    (h : joinLoop timed a s = some (r, t)) : Leaves a s t := by
  simp only [joinLoop, Option.bind_eq_bind, Option.bind_eq_some_iff] at h
  obtain ⟨⟨finished, u⟩, hu, h⟩ := h
  have hl := threadTaskJoinNoLock_leaves hu
  split at h
  · simp only [Option.bind_eq_some_iff, Option.pure_def, Option.some.injEq, Prod.mk.injEq] at h
    obtain ⟨T, -, -, rfl⟩ := h
    exact hl.congr rfl rfl
  · simp only [Option.pure_def, Option.some.injEq, Prod.mk.injEq] at h
    obtain ⟨-, rfl⟩ := h
    exact hl.congr rfl rfl

theorem joinEntry_leaves {timed : Bool} {a : TaskId} {s t : State V} {r : Ret V}
    (h : joinEntry timed a s = some (r, t)) : Leaves a s t := by
  simp only [joinEntry, Option.bind_eq_bind, Option.bind_eq_some_iff] at h
  obtain ⟨T, -, h⟩ := h
  split at h
  · simp only [Option.pure_def, Option.some.injEq, Prod.mk.injEq] at h
    obtain ⟨-, rfl⟩ := h
    exact .inl ⟨rfl, rfl⟩
  · simp only [Option.bind_eq_some_iff] at h
    obtain ⟨P, -, h⟩ := h
    exact joinLoop_leaves h

theorem threadTaskDetach_leaves {a : TaskId} {s t : State V} {r : Ret V}
    (h : threadTaskDetach a s = some (r, t)) : Leaves a s t := by
  simp only [threadTaskDetach, Option.bind_eq_bind, Option.bind_eq_some_iff] at h
  obtain ⟨T, -, h⟩ := h
  split at h
  · simp only [Option.pure_def, Option.some.injEq, Prod.mk.injEq] at h
    obtain ⟨-, rfl⟩ := h
    exact .inl ⟨rfl, rfl⟩
  · simp only [Option.bind_eq_some_iff] at h
    obtain ⟨P, -, h⟩ := h
    split at h
    · simp only [Option.bind_eq_some_iff, Option.pure_def, Option.some.injEq, Prod.mk.injEq] at h
      obtain ⟨⟨_, u⟩, hu, ⟨_, v⟩, hv, -, rfl⟩ := h
      obtain ⟨hp, hd⟩ := threadTaskDelete_pools hv
      exact (threadTaskJoinNoLock_leaves hu).congr hp hd
    · simp only [Option.bind_eq_some_iff, Option.pure_def, Option.some.injEq, Prod.mk.injEq] at h
      obtain ⟨u, hu, -, rfl⟩ := h
      obtain ⟨_, -, rfl⟩ := Option.map_eq_some_iff.mp hu
      exact .inl ⟨rfl, rfl⟩

/-- Whether or not the task is removed, only the worker's phase changes after that. -/
theorem finishTask_cases {p : PoolId} {w : ℕ} {a : TaskId} {v : V} {s t : State V} {r : Ret V}
    (h : finishTask p w a v s = some (r, t)) : ∃ s₁ s₂ s₃ s₄,
      s.modifyTask a (fun T => { T with result := some v }) = some s₁ ∧
      s₁.modifyPool p (fun P => { P with runningTasksCount := P.runningTasksCount - 1 }) = some s₂ ∧
      (broadcastJustFinished a s₂).modifyTask a (fun T => { T with finished := true }) = some s₃ ∧
      Leaves a s₃ s₄ ∧ s₄.modifyPool p (fun P => P.setWorker w .ready) = some t := by
  simp only [finishTask, Option.bind_eq_bind, Option.bind_eq_some_iff] at h
  obtain ⟨s₁, hs₁, s₂, hs₂, s₃, hs₃, T, -, h⟩ := h
  split at h
  · simp only [Option.bind_eq_some_iff, Option.pure_def, Option.some.injEq, Prod.mk.injEq] at h
    obtain ⟨⟨_, u⟩, hu, ⟨_, s₄⟩, hs₄, t, ht, -, rfl⟩ := h
    obtain ⟨hp, hd⟩ := threadTaskDelete_pools hs₄
    exact ⟨s₁, s₂, s₃, s₄, hs₁, hs₂, hs₃, (threadTaskJoinNoLock_leaves hu).congr hp hd, ht⟩
  · simp only [Option.bind_eq_some_iff, Option.pure_def, Option.some.injEq, Prod.mk.injEq] at h
    obtain ⟨t, ht, -, rfl⟩ := h
    exact ⟨s₁, s₂, s₃, s₃, hs₁, hs₂, hs₃, .inl ⟨rfl, rfl⟩, ht⟩

/-- A successful push changes its pool by `Staff.Push` and no other pool. -/
theorem threadPoolPushTask_staff {pool : PoolId} {task : TaskId} {chosen : List ℕ} {s t : State V}
    {r : Ret V} (h : threadPoolPushTask pool task chosen s = some (r, t)) {P : Pool}
    (hP : s.pools pool = some P) (hw : SignalWakes P.workers chosen) :
    t = s ∨ t.deletes = s.deletes ∧ (∀ q, q ≠ pool → t.staff q = s.staff q) ∧
      ∃ σ, t.staff pool = some σ ∧ Staff.Push P.staff σ := by
  simp only [threadPoolPushTask, Option.bind_eq_bind, Option.bind_eq_some_iff] at h
  obtain ⟨P₀, hP₀, h⟩ := h
  obtain rfl : P₀ = P := Option.some.inj (hP₀.symm.trans hP)
  split at h
  · simp only [Option.pure_def, Option.some.injEq, Prod.mk.injEq] at h
    exact .inl h.2.symm
  simp only [Option.bind_eq_some_iff, Option.pure_def, Option.some.injEq, Prod.mk.injEq] at h
  obtain ⟨s₁, hs₁, A, -, s₂, hs₂, P', hP', first, -, s₃, hs₃, -, rfl⟩ := h
  obtain ⟨hst, hde⟩ := (modifyTask_sameStaff hs₁).trans (modifyTask_sameStaff hs₂)
  obtain ⟨hst₃, hde₃⟩ := swapTasksInPool_sameStaff hs₃
  refine .inr ⟨hde₃.trans hde, fun q hq => ?_, P'.staff, ?_, ?_⟩
  · rw [hst₃, staff_setPool, if_neg hq, hst]
  · rw [hst₃, staff_setPool, if_pos rfl]
  · unfold Pool.createOrSignal at hP'
    split at hP'
    · next hg =>
      simp only [Pool.pthreadCreate, Option.bind_eq_bind, Option.bind_eq_some_iff,
        Option.pure_def, Option.some.injEq] at hP'
      obtain ⟨_, -, rfl⟩ := hP'
      exact .grow P₀.staff hg
    · next hg =>
      split at hP' <;> obtain rfl := Option.some.inj hP'
      · next h1 =>
        have h0 : P₀.unassignedTasksCount = 0 := by dsimp only at h1; omega
        exact .rouse P₀.staff chosen hg h0 hw
      · next h1 =>
        have h0 : P₀.unassignedTasksCount ≠ 0 := by dsimp only at h1; omega
        exact .enqueue P₀.staff hg h0

/-- A worker at a test of the queue sleeps or takes a task. -/
theorem testQueue_staff {pool : PoolId} {w : ℕ} {s t : State V} {r : Ret V}
    (h : testQueue pool w s = some (r, t)) {P : Pool} (hP : s.pools pool = some P)
    (hw : P.staff.AtQueue w) :
    t.deletes = s.deletes ∧ (∀ q, q ≠ pool → t.staff q = s.staff q) ∧
      ∃ σ, t.staff pool = some σ ∧ Staff.Work P.staff σ := by
  simp only [testQueue, Option.bind_eq_bind, Option.bind_eq_some_iff] at h
  obtain ⟨P₀, hP₀, h⟩ := h
  obtain rfl : P₀ = P := Option.some.inj (hP₀.symm.trans hP)
  split at h
  · next hu =>
    simp only [Option.pure_def, Option.some.injEq, Prod.mk.injEq] at h
    obtain ⟨-, rfl⟩ := h
    exact ⟨rfl, fun q hq => by rw [staff_setPool, if_neg hq], _,
      by rw [staff_setPool, if_pos rfl]; rfl, .sleep P₀.staff w hw hu⟩
  · next hu =>
    simp only [takeTask, Option.bind_eq_bind, Option.bind_eq_some_iff, Option.pure_def,
      Option.some.injEq, Prod.mk.injEq] at h
    obtain ⟨P₁, hP₁, a, -, b, -, s₁, hs₁, s₂, hs₂, s₃, hs₃, s₄, hs₄, -, rfl⟩ := h
    obtain rfl : P₁ = P₀ := Option.some.inj (hP₁.symm.trans hP)
    obtain ⟨hst₁, hde₁⟩ := swapTasksInPool_sameStaff hs₁
    obtain ⟨Q, hQ, rfl⟩ := modifyPool_staff hs₂
    obtain ⟨hst₃, hde₃⟩ := modifyTask_sameStaff hs₃
    obtain ⟨R, hR, rfl⟩ := modifyPool_staff hs₄
    have hQs : Q.staff = { P₁.staff with
        unassignedTasksCount := P₁.staff.unassignedTasksCount - 1 } := by
      have := staff_eq hQ
      rw [hst₁, staff_setPool, if_pos rfl] at this
      exact (Option.some.inj this).symm
    have hRs : R.staff = { Q.staff with
        runningTasksCount := Q.staff.runningTasksCount + 1 } := by
      have := staff_eq hR
      rw [hst₃, staff_setPool, if_pos rfl] at this
      exact (Option.some.inj this).symm
    refine ⟨hde₃.trans hde₁, fun q hq => ?_, (R.setWorker w (.running a)).staff, ?_, ?_⟩
    · rw [staff_setPool, if_neg hq, hst₃, staff_setPool, if_neg hq, hst₁, staff_setPool, if_neg hq]
    · rw [staff_setPool, if_pos rfl]
    · have : (R.setWorker w (.running a)).staff =
          { R.staff with workers := R.staff.workers.set w (.running a) } := rfl
      rw [this, hRs, hQs]
      exact .take P₁.staff w a hw hu

theorem finishTask_staff {pool : PoolId} {w : ℕ} {task : TaskId} {result : V} {s t : State V}
    {r : Ret V} (h : finishTask pool w task result s = some (r, t)) {P : Pool}
    (hP : s.pools pool = some P) (hw : P.workers[w]? = some (.running task)) :
    t.deletes = s.deletes ∧ (∀ q, q ≠ pool → t.staff q = s.staff q) ∧
      ∃ σ, t.staff pool = some σ ∧ Staff.Work P.staff σ := by
  obtain ⟨s₁, s₂, s₃, s₄, hs₁, hs₂, hs₃, hl, hs₅⟩ := finishTask_cases h
  have hs₄ := hl.sameStaff
  obtain ⟨Q, hQ, rfl⟩ := modifyPool_staff hs₂
  obtain ⟨hst₁, hde₁⟩ := modifyTask_sameStaff hs₁
  obtain ⟨hst₃, hde₃⟩ := modifyTask_sameStaff hs₃
  have hQs : Q.staff = P.staff := by
    have := staff_eq hQ
    rw [hst₁, staff_eq hP] at this
    exact (Option.some.inj this).symm
  obtain ⟨R, hR, rfl⟩ := modifyPool_staff hs₅
  have hRs : R.staff = { P.staff with
      runningTasksCount := P.staff.runningTasksCount - 1 } := by
    have := staff_eq hR
    rw [hs₄.1, hst₃] at this
    simp only [broadcastJustFinished, staff_setJoin, staff_setPool, if_true] at this
    rw [← Option.some.inj this, ← hQs]
    rfl
  refine ⟨hs₄.2.trans (hde₃.trans hde₁), fun q hq => ?_, (R.setWorker w .ready).staff, ?_, ?_⟩
  · rw [staff_setPool, if_neg hq, hs₄.1, hst₃]
    simp only [broadcastJustFinished, staff_setJoin, staff_setPool, if_neg hq, hst₁]
  · rw [staff_setPool, if_pos rfl]
  · have : (R.setWorker w .ready).staff =
        { R.staff with workers := R.staff.workers.set w .ready } := rfl
    rw [this, hRs]
    exact .finish P.staff w task hw

/-- Everything a step can do to the workers' view of a pool and to a deletion of it. -/
inductive StaffStep (pool : PoolId) (s : State V) (e : Event V) (t : State V) : Prop
  | stay : ¬e.ByWorker pool → t.staff pool = s.staff pool → t.deletes pool = s.deletes pool →
      StaffStep pool s e t
  | new (n : ℤ) : e = .newPool pool n → 0 < n → n ≤ tpoolMaxThreads →
      t.staff pool = some (Staff.new n) → t.deletes pool = s.deletes pool → StaffStep pool s e t
  | push (σ σ' : Staff) (task : TaskId) (chosen : List ℕ) : e = .push pool task chosen →
      s.staff pool = some σ → t.staff pool = some σ' → σ.Push σ' →
      t.deletes pool = s.deletes pool → StaffStep pool s e t
  | work (σ σ' : Staff) : e.ByWorker pool → s.staff pool = some σ → t.staff pool = some σ' →
      σ.Work σ' → t.deletes pool = s.deletes pool → StaffStep pool s e t
  | wake (σ σ' : Staff) (w : ℕ) : e = .spurious pool w → s.staff pool = some σ →
      t.staff pool = some σ' → σ.Wake σ' → t.deletes pool = s.deletes pool → StaffStep pool s e t
  | close (σ σ' : Staff) : e = .deletePool pool → s.staff pool = some σ →
      t.staff pool = some σ' → σ.Close σ' → s.deletes pool = none → t.deletes pool = some 0 →
      StaffStep pool s e t
  | joined (i : ℤ) : e = .joinThread pool → s.deletes pool = some i →
      t.deletes pool = some (i + 1) → t.staff pool = s.staff pool → StaffStep pool s e t
  | released : e = .releasePool pool → t.staff pool = none → t.deletes pool = none →
      StaffStep pool s e t

theorem StaffStep.of_sameStaff {s t : State V} (h : SameStaff s t) {pool : PoolId} {e : Event V}
    (he : ¬e.ByWorker pool) : StaffStep pool s e t := .stay he (by rw [h.1]) (by rw [h.2])

/-- A worker's step on pool `q`, seen from any pool. -/
theorem StaffStep.of_work {s t : State V} {q : PoolId} {P : Pool} (hP : s.pools q = some P)
    (h : t.deletes = s.deletes ∧ (∀ p, p ≠ q → t.staff p = s.staff p) ∧
      ∃ σ, t.staff q = some σ ∧ Staff.Work P.staff σ) {e : Event V}
    (he : ∀ p, e.ByWorker p ↔ q = p) (pool : PoolId) : StaffStep pool s e t := by
  obtain ⟨hde, hne, σ, hσ, hw⟩ := h
  by_cases hq : pool = q
  · subst hq
    exact .work P.staff σ ((he pool).mpr rfl) (staff_eq hP) hσ hw (by rw [hde])
  · exact .stay (fun h => hq ((he pool).mp h).symm) (hne pool hq) (by rw [hde])

theorem step_staff {s t : State V} {l : Event V × Ret V} (h : Step s l t) (pool : PoolId) :
    StaffStep pool s l.1 t := by
  obtain ⟨e, r⟩ := l
  obtain ⟨hen, hex⟩ := h
  cases e with
  | newPool q n =>
    simp only [exec, threadPoolNew, Option.some.injEq] at hex
    split at hex <;> simp only [Prod.mk.injEq] at hex <;> obtain ⟨-, rfl⟩ := hex
    · exact .stay id rfl rfl
    · next hn =>
      by_cases hq : pool = q
      · subst hq
        exact .new n rfl (by omega) (by omega) (by rw [staff_setPool, if_pos rfl]; rfl) rfl
      · exact .stay id (by rw [staff_setPool, if_neg hq]) rfl
  | newTask a =>
    simp only [exec, threadTaskNew, Option.some.injEq, Prod.mk.injEq] at hex
    obtain ⟨-, rfl⟩ := hex
    exact .stay id rfl rfl
  | push q a chosen =>
    obtain ⟨P, hP, hw⟩ : ∃ P, s.pools q = some P ∧ SignalWakes P.workers chosen := by
      simpa [Option.any_eq_true] using hen.1
    obtain rfl | ⟨hde, hne, σ, hσ, hpush⟩ := threadPoolPushTask_staff hex hP hw
    · exact .stay id rfl rfl
    · by_cases hq : pool = q
      · subst hq
        exact .push P.staff σ a chosen rfl (staff_eq hP) hσ hpush (by rw [hde])
      · exact .stay id (hne pool hq) (by rw [hde])
  | lock q w =>
    simp only [Enabled, worker, Option.bind_eq_some_iff] at hen
    obtain ⟨P, hP, hw⟩ := hen
    exact .of_work hP (testQueue_staff hex hP (.inl hw)) (fun _ => .rfl) pool
  | wake q w =>
    simp only [Enabled, worker, Option.bind_eq_some_iff] at hen
    obtain ⟨P, hP, hw⟩ := hen
    simp only [exec, leaveWait, Option.bind_eq_bind, hP, Option.bind_some] at hex
    split at hex
    · next hev =>
      simp only [Option.pure_def, Option.some.injEq, Prod.mk.injEq] at hex
      obtain ⟨-, rfl⟩ := hex
      have hpool : (s.setPool q (P.setWorker w .exited)).deletes = s.deletes ∧
          (∀ p, p ≠ q → (s.setPool q (P.setWorker w .exited)).staff p = s.staff p) ∧
          ∃ σ, (s.setPool q (P.setWorker w .exited)).staff q = some σ ∧ P.staff.Work σ := by
        refine ⟨rfl, fun p hp => by rw [staff_setPool, if_neg hp], _, ?_, .exit P.staff w hw hev⟩
        rw [staff_setPool, if_pos rfl]
        rfl
      exact .of_work hP hpool (fun _ => .rfl) pool
    · next hev => exact .of_work hP (testQueue_staff hex hP (.inr ⟨hw, hev⟩)) (fun _ => .rfl) pool
  | spurious q w =>
    simp only [Enabled, worker, Option.bind_eq_some_iff] at hen
    obtain ⟨P, hP, hw⟩ := hen
    simp only [exec, modifyPool, hP, Option.map_some, Option.bind_eq_bind, Option.bind_some,
      Option.pure_def, Option.some.injEq, Prod.mk.injEq] at hex
    obtain ⟨-, rfl⟩ := hex
    by_cases hq : pool = q
    · subst hq
      exact .wake P.staff (P.setWorker w .woken).staff w rfl (staff_eq hP)
        (by rw [staff_setPool, if_pos rfl]) (.wake P.staff w hw) rfl
    · exact .stay id (by rw [staff_setPool, if_neg hq]) rfl
  | finish q w a v =>
    simp only [Enabled, worker, Option.bind_eq_some_iff] at hen
    obtain ⟨P, hP, hw⟩ := hen
    exact .of_work hP (finishTask_staff hex hP hw) (fun _ => .rfl) pool
  | join a => exact .of_sameStaff (joinEntry_leaves hex).sameStaff id
  | timedJoin a => exact .of_sameStaff (joinEntry_leaves hex).sameStaff id
  | joinWake a =>
    simp only [exec, resumeJoin, Option.bind_eq_bind, Option.bind_eq_some_iff] at hex
    obtain ⟨_, -, hex⟩ := hex
    exact .of_sameStaff (joinLoop_leaves hex).sameStaff id
  | joinSpurious a =>
    simp only [exec, Option.some.injEq, Prod.mk.injEq] at hex
    obtain ⟨-, rfl⟩ := hex
    exact .stay id rfl rfl
  | joinTimeout a =>
    simp only [exec, Option.some.injEq, Prod.mk.injEq] at hex
    obtain ⟨-, rfl⟩ := hex
    exact .stay id rfl rfl
  | detach a => exact .of_sameStaff (threadTaskDetach_leaves hex).sameStaff id
  | deleteTask a =>
    obtain ⟨hp, hd⟩ := threadTaskDelete_pools hex
    exact .of_sameStaff (.of_pools hp hd) id
  | deletePool q =>
    simp only [exec, threadPoolDelete, Option.bind_eq_bind, Option.bind_eq_some_iff] at hex
    obtain ⟨P, hP, hex⟩ := hex
    split at hex <;> simp only [Option.pure_def, Option.some.injEq, Prod.mk.injEq] at hex <;>
      obtain ⟨-, rfl⟩ := hex
    · exact .stay id rfl rfl
    · next hz =>
      obtain ⟨hu, hr⟩ := not_or.mp hz
      by_cases hq : pool = q
      · subst hq
        exact .close P.staff _ rfl (staff_eq hP) (by rw [staff_setDelete, staff_setPool, if_pos rfl]; rfl)
          (.close P.staff (Int.not_lt.mp hu) (Int.not_lt.mp hr)) hen.2 (by simp [setDelete])
      · exact .stay id (by rw [staff_setDelete, staff_setPool, if_neg hq])
          (by simp [setDelete, setPool, hq])
  | joinThread q =>
    simp only [exec, joinThread, Option.bind_eq_bind, Option.bind_eq_some_iff, Option.pure_def,
      Option.some.injEq, Prod.mk.injEq] at hex
    obtain ⟨i, hi, w, -, -, rfl⟩ := hex
    by_cases hq : pool = q
    · subst hq
      exact .joined i rfl hi (by simp [setDelete]) rfl
    · exact .stay id rfl (by simp [setDelete, hq])
  | releasePool q =>
    simp only [exec, releasePool, Option.some.injEq, Prod.mk.injEq] at hex
    obtain ⟨-, rfl⟩ := hex
    by_cases hq : pool = q
    · subst hq
      exact .released rfl (by rw [staff_setDelete, staff_freePool, if_pos rfl])
        (by simp [setDelete])
    · exact .stay id (by rw [staff_setDelete, staff_freePool, if_neg hq])
        (by simp [setDelete, freePool, hq])

end SystemsProgramming.ThreadPool

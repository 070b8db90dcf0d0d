import SystemsProgramming.Foundation.Slots
import SystemsProgramming.Foundation.Tally
import SystemsProgramming.ThreadPool.Sections
import Mathlib.Data.List.Nodup

/-! The array of tasks of a pool: its cells below `pushed_tasks_count` hold the tasks of the pool,
each of which knows its cell; the first `unassigned_tasks_count` of them wait, the others have been
taken, and those among them that have not finished are the ones the workers are inside of. Each
section that moves tasks keeps this arrangement, and under it no section leaves the array. -/

namespace SystemsProgramming.ThreadPool

open List (Perm)
open scoped List

variable {V : Type}

/-- The task whose function a worker is inside of. -/
def Worker.task? : Worker → Option TaskId
  | .running task => some task
  | _ => none

/-- The tasks the workers are inside of. -/
def Pool.jobs (P : Pool) : List TaskId := P.workers.filterMap Worker.task?

theorem Pool.mem_jobs {P : Pool} {x : TaskId} : x ∈ P.jobs ↔ Worker.running x ∈ P.workers := by
  unfold jobs
  rw [List.mem_filterMap]
  constructor
  · rintro ⟨phase, hp, hx⟩
    cases phase <;> cases hx
    exact hp
  · exact fun h => ⟨_, h, rfl⟩

theorem Pool.createOrSignal_jobs {P Q : Pool} {chosen : List ℕ}
    (h : P.createOrSignal chosen = some Q) : Q.jobs = P.jobs := by
  unfold createOrSignal at h
  split at h
  · simp only [pthreadCreate, Option.bind_eq_bind, Option.bind_eq_some_iff, Option.pure_def,
      Option.some.injEq] at h
    obtain ⟨_, -, rfl⟩ := h
    simp [jobs, Worker.task?]
  · split at h <;> cases h
    · unfold jobs signal
      refine filterMap_mapIdx_eq fun i phase => ?_
      split
      · next hp => rw [hp.1]; rfl
      · rfl
    · rfl

namespace State

/-- The tasks of a pool. -/
def inPool (s : State V) (pool : PoolId) (x : TaskId) : Option (Task V) :=
  (s.tasks x).filter fun T => T.parentPool = some pool

theorem inPool_eq_some {s : State V} {pool : PoolId} {x : TaskId} {T : Task V} :
    s.inPool pool x = some T ↔ s.tasks x = some T ∧ T.parentPool = some pool := by
  simp [inPool, Option.filter_eq_some_iff]

theorem inPool_congr {s t : State V} (h : t.tasks = s.tasks) (pool : PoolId) :
    t.inPool pool = s.inPool pool := by
  unfold inPool
  rw [h]

@[simp] theorem inPool_setPool (s : State V) (pool q : PoolId) (P : Pool) :
    (s.setPool pool P).inPool q = s.inPool q := rfl

/-- Tasks outside a pool may change as long as they stay outside. -/
theorem inPool_mapTasks {s : State V} {f : TaskId → Task V → Task V} {q : PoolId}
    (h : ∀ x T, s.tasks x = some T → f x T = T ∨
      T.parentPool ≠ some q ∧ (f x T).parentPool ≠ some q) :
    (s.mapTasks f).inPool q = s.inPool q := by
  funext x
  unfold inPool
  cases hx : s.tasks x with
  | none => simp [hx]
  | some T =>
    rcases h x T hx with h | ⟨h1, h2⟩
    · simp [hx, h]
    · simp [hx, Option.filter, h1, h2]

end State

open State

/-- The tasks `m` of a pool are arranged in its array. -/
structure Arranged (P : Pool) (m : TaskId → Option (Task V)) : Prop where
  tasks_size : P.tasks.size = tpoolMaxTasks
  threads_size : P.threads.size = P.maxThreadCount
  handles : ∀ i : ℕ, i < P.workers.length → P.threads.cells i = some i
  unassigned_nonneg : 0 ≤ P.unassignedTasksCount
  unassigned_le : P.unassignedTasksCount ≤ P.pushedTasksCount
  pushed_le : P.pushedTasksCount ≤ tpoolMaxTasks
  slots : Slots P.tasks.cells (fun x => (m x).map Task.indexInParentPool) P.pushedTasksCount
  assigned : ∀ {x T}, m x = some T →
    (T.assigned = true ↔ P.unassignedTasksCount ≤ T.indexInParentPool)
  finished : ∀ {x T}, m x = some T → T.finished = true → T.assigned = true
  busy : ∀ {x}, x ∈ P.jobs ↔ ∃ T, m x = some T ∧ T.assigned = true ∧ T.finished = false
  once : P.jobs.Nodup

namespace Arranged

variable {P Q : Pool} {m m' : TaskId → Option (Task V)} {a b : TaskId} {A B : Task V}

theorem new (n : ℤ) : Arranged (V := V) (.new n) fun _ => none where
  tasks_size := rfl
  threads_size := rfl
  handles i h := by simp [Pool.new] at h
  unassigned_nonneg := Int.le_refl 0
  unassigned_le := Int.le_refl 0
  pushed_le := (by decide : (0 : ℤ) ≤ tpoolMaxTasks)
  slots := .empty
  assigned h := by simp at h
  finished h := by simp at h
  busy := by simp [Pool.jobs, Pool.new]
  once := List.nodup_nil

theorem range (h : Arranged P m) (ha : m a = some A) :
    0 ≤ A.indexInParentPool ∧ A.indexInParentPool < P.pushedTasksCount :=
  h.slots.range (by rw [ha]; rfl)

theorem cell (h : Arranged P m) (ha : m a = some A) :
    P.tasks.cells A.indexInParentPool = some a := h.slots.cell (by rw [ha]; rfl)

theorem filled (h : Arranged P m) {i : ℤ} (h0 : 0 ≤ i) (h1 : i < P.pushedTasksCount) :
    ∃ x T, P.tasks.cells i = some x ∧ m x = some T ∧ T.indexInParentPool = i := by
  obtain ⟨x, hx, hi⟩ := h.slots.filled h0 h1
  obtain ⟨T, hT, hTi⟩ := Option.map_eq_some_iff.mp hi
  exact ⟨x, T, hx, hT, hTi⟩

theorem injective (h : Arranged P m) (ha : m a = some A) (hb : m b = some B)
    (hi : A.indexInParentPool = B.indexInParentPool) : a = b :=
  h.slots.injective (i := A.indexInParentPool) (by rw [ha]; rfl) (by rw [hb, hi]; rfl)

/-- A change of the pool that moves no task, starts no thread and leaves the jobs as they are. -/
theorem congr (h : Arranged P m) (htasks : Q.tasks = P.tasks) (hthreads : Q.threads = P.threads)
    (hmax : Q.maxThreadCount = P.maxThreadCount) (hlen : Q.workers.length = P.workers.length)
    (hu : Q.unassignedTasksCount = P.unassignedTasksCount)
    (hn : Q.pushedTasksCount = P.pushedTasksCount) (hjobs : Q.jobs = P.jobs) : Arranged Q m where
  tasks_size := htasks ▸ h.tasks_size
  threads_size := by rw [hthreads, hmax, h.threads_size]
  handles i hi := by
    rw [hthreads]
    exact h.handles i (hlen ▸ hi)
  unassigned_nonneg := hu ▸ h.unassigned_nonneg
  unassigned_le := by rw [hu, hn]; exact h.unassigned_le
  pushed_le := hn ▸ h.pushed_le
  slots := by rw [htasks, hn]; exact h.slots
  assigned hx := by rw [hu]; exact h.assigned hx
  finished hx := h.finished hx
  busy := by rw [hjobs]; exact h.busy
  once := hjobs ▸ h.once

/-- A worker moves between two phases outside of the tasks' functions. -/
theorem setWorker (h : Arranged P m) {w : ℕ} {phase phase' : Worker}
    (hw : P.workers[w]? = some phase) (hp : phase.task? = none) (hp' : phase'.task? = none) :
    Arranged (P.setWorker w phase') m :=
  h.congr rfl rfl rfl (by simp [Pool.setWorker]) rfl rfl (filterMap_set_eq hw hp hp')

/-- The tasks change in nothing the arrangement depends on. -/
theorem map (h : Arranged P m) {f : TaskId → Task V → Task V}
    (hf : ∀ x T, m x = some T → (f x T).indexInParentPool = T.indexInParentPool ∧
      (f x T).assigned = T.assigned ∧ (f x T).finished = T.finished) :
    Arranged P fun x => (m x).map (f x) where
  tasks_size := h.tasks_size
  threads_size := h.threads_size
  handles := h.handles
  unassigned_nonneg := h.unassigned_nonneg
  unassigned_le := h.unassigned_le
  pushed_le := h.pushed_le
  slots := by
    convert h.slots using 1
    funext x
    cases hx : m x with
    | none => rfl
    | some T => simp [(hf x T hx).1]
  assigned {x T} hx := by
    obtain ⟨T, hT, rfl⟩ := Option.map_eq_some_iff.mp hx
    obtain ⟨hi, ha, -⟩ := hf x T hT
    rw [hi, ha]
    exact h.assigned hT
  finished {x T} hx := by
    obtain ⟨T, hT, rfl⟩ := Option.map_eq_some_iff.mp hx
    obtain ⟨-, ha, hfin⟩ := hf x T hT
    rw [ha, hfin]
    exact h.finished hT
  busy {x} := by
    rw [h.busy]
    cases hx : m x with
    | none => simp
    | some T =>
      obtain ⟨-, ha, hfin⟩ := hf x T hx
      simp [ha, hfin]
  once := h.once

/-- Two tasks have traded places. -/
theorem slots_trade (h : Arranged P m) (ha : m a = some A) (hb : m b = some B)
    {f : TaskId → Task V → Task V}
    (hf : ∀ x T, m x = some T → (f x T).indexInParentPool = if x = a then B.indexInParentPool
      else if x = b then A.indexInParentPool else T.indexInParentPool) :
    Slots ((P.tasks.put A.indexInParentPool b).put B.indexInParentPool a).cells
      (fun x => ((m x).map (f x)).map Task.indexInParentPool) P.pushedTasksCount := by
  have hi : (m a).map Task.indexInParentPool = some A.indexInParentPool := by rw [ha]; rfl
  have hj : (m b).map Task.indexInParentPool = some B.indexInParentPool := by rw [hb]; rfl
  have hindex : (fun x => ((m x).map (f x)).map Task.indexInParentPool) =
      Function.update (Function.update (fun x => (m x).map Task.indexInParentPool) b
        (some A.indexInParentPool)) a (some B.indexInParentPool) := by
    funext x
    rw [Function.update_apply, Function.update_apply]
    cases hx : m x with
    | none =>
      have hxa : x ≠ a := by rintro rfl; simp [ha] at hx
      have hxb : x ≠ b := by rintro rfl; simp [hb] at hx
      simp [hxa, hxb]
    | some T =>
      simp only [Option.map_some, hf x T hx]
      split_ifs <;> rfl
  rw [hindex]
  exact h.slots.swap hi hj

theorem take (h : Arranged P m) (ha : m a = some A) (hb : m b = some B)
    (hi : A.indexInParentPool = 0) (hj : B.indexInParentPool = P.unassignedTasksCount - 1)
    (hu : 0 < P.unassignedTasksCount) {w : ℕ} {phase : Worker} (hw : P.workers[w]? = some phase)
    (hp : phase.task? = none) (r : ℤ) :
    Arranged
      { P with tasks := (P.tasks.put 0 b).put (P.unassignedTasksCount - 1) a
               unassignedTasksCount := P.unassignedTasksCount - 1
               runningTasksCount := r
               workers := P.workers.set w (.running a) }
      fun x => (m x).map (assign a b (P.unassignedTasksCount - 1) x) := by
  have hA : A.assigned = false := by
    have := h.assigned ha
    rw [hi] at this
    simpa [Int.not_le.mpr hu] using this
  have hAf : A.finished = false := by
    cases hf : A.finished with
    | false => rfl
    | true => simp [h.finished ha hf] at hA
  have hnot : a ∉ P.jobs := by
    rw [h.busy, ha]
    simp [hA]
  have hjobs : (P.workers.set w (.running a)).filterMap Worker.task? ~ a :: P.jobs := by
    have := filterMap_set_perm (f := Worker.task?) (b := .running a) hw
    rw [hp] at this
    exact this
  constructor
  case tasks_size => exact h.tasks_size
  case threads_size => exact h.threads_size
  case handles => simpa using h.handles
  case unassigned_nonneg => show 0 ≤ P.unassignedTasksCount - 1; omega
  case unassigned_le =>
    have := h.unassigned_le
    show P.unassignedTasksCount - 1 ≤ P.pushedTasksCount
    omega
  case pushed_le => exact h.pushed_le
  case slots =>
    have := h.slots_trade ha hb (f := assign a b (P.unassignedTasksCount - 1)) fun x T _ => by
      rw [assign_indexInParentPool, hi, hj]
    rwa [hi, hj] at this
  case assigned =>
    intro x T hx
    obtain ⟨T, hT, rfl⟩ := Option.map_eq_some_iff.mp hx
    show _ ↔ P.unassignedTasksCount - 1 ≤ _
    rw [assign_assigned, assign_indexInParentPool]
    split_ifs with hxa hxb
    · simp
    · have hbi : T.indexInParentPool = P.unassignedTasksCount - 1 := by
        rw [hxb, hb] at hT
        rw [← Option.some.inj hT, hj]
      have hne : T.indexInParentPool ≠ A.indexInParentPool := fun e => hxa (h.injective hT ha e)
      rw [h.assigned hT]
      omega
    · have hne : T.indexInParentPool ≠ B.indexInParentPool := fun e => hxb (h.injective hT hb e)
      rw [h.assigned hT]
      omega
  case finished =>
    intro x T hx
    obtain ⟨T, hT, rfl⟩ := Option.map_eq_some_iff.mp hx
    rw [assign_assigned, assign_finished]
    split_ifs
    · exact fun _ => rfl
    · exact h.finished hT
  case busy =>
    intro x
    have hmem : x ∈ (P.workers.set w (.running a)).filterMap Worker.task? ↔ x = a ∨ x ∈ P.jobs := by
      rw [hjobs.mem_iff, List.mem_cons]
    refine hmem.trans ?_
    by_cases hxa : x = a
    · simp [hxa, ha, hAf]
    · rw [h.busy]
      simp [hxa]
  case once => exact hjobs.nodup_iff.mpr (List.nodup_cons.mpr ⟨hnot, h.once⟩)

theorem complete (h : Arranged P m) (ha : m a = some A) (hA : A.assigned = true) {w : ℕ}
    (hw : P.workers[w]? = some (.running a)) (r : ℤ) (v : V) :
    Arranged { P with runningTasksCount := r, workers := P.workers.set w .ready }
      fun x => (m x).map (ThreadPool.complete a v x) := by
  have hjobs : a :: (P.workers.set w .ready).filterMap Worker.task? ~ P.jobs :=
    filterMap_set_perm (f := Worker.task?) (b := .ready) hw
  obtain ⟨hnot, hnodup⟩ := List.nodup_cons.mp (hjobs.nodup_iff.mpr h.once)
  constructor
  case tasks_size => exact h.tasks_size
  case threads_size => exact h.threads_size
  case handles => simpa using h.handles
  case unassigned_nonneg => exact h.unassigned_nonneg
  case unassigned_le => exact h.unassigned_le
  case pushed_le => exact h.pushed_le
  case slots =>
    convert h.slots using 1
    funext x
    cases hx : m x <;> simp
  case assigned =>
    intro x T hx
    obtain ⟨T, hT, rfl⟩ := Option.map_eq_some_iff.mp hx
    rw [complete_assigned, complete_indexInParentPool]
    exact h.assigned hT
  case finished =>
    intro x T hx
    obtain ⟨T, hT, rfl⟩ := Option.map_eq_some_iff.mp hx
    rw [complete_assigned, complete_finished]
    split_ifs with hxa
    · intro _
      rw [hxa, ha] at hT
      rw [← Option.some.inj hT, hA]
    · exact h.finished hT
  case busy =>
    intro x
    by_cases hxa : x = a
    · simp only [hxa]
      refine iff_of_false hnot ?_
      simp
    · have hmem : x ∈ (P.workers.set w .ready).filterMap Worker.task? ↔ x ∈ P.jobs := by
        rw [← hjobs.mem_iff, List.mem_cons]
        simp [hxa]
      refine hmem.trans (h.busy.trans ?_)
      simp [hxa]
  case once => exact hnodup

theorem leave (h : Arranged P m) (ha : m a = some A) (hb : m b = some B)
    (hj : B.indexInParentPool = P.pushedTasksCount - 1) (hA : A.finished = true) :
    Arranged
      { P with tasks := (P.tasks.put A.indexInParentPool b).put (P.pushedTasksCount - 1) a
               pushedTasksCount := P.pushedTasksCount - 1 }
      (Function.update (fun x => (m x).map (vacate a b A.indexInParentPool x)) a none) := by
  have hu : P.unassignedTasksCount ≤ A.indexInParentPool :=
    (h.assigned ha).mp (h.finished ha hA)
  have hin := h.range ha
  constructor
  case tasks_size => exact h.tasks_size
  case threads_size => exact h.threads_size
  case handles => exact h.handles
  case unassigned_nonneg => exact h.unassigned_nonneg
  case unassigned_le => show P.unassignedTasksCount ≤ P.pushedTasksCount - 1; omega
  case pushed_le => have := h.pushed_le; show P.pushedTasksCount - 1 ≤ _; omega
  case slots =>
    have hslots := h.slots_trade ha hb (f := trade a b A.indexInParentPool B.indexInParentPool)
      fun x T _ => by unfold trade; split_ifs <;> rfl
    rw [hj] at hslots
    have hlast : ((m a).map (trade a b A.indexInParentPool (P.pushedTasksCount - 1) a)).map
        Task.indexInParentPool = some (P.pushedTasksCount - 1) := by simp [ha, trade]
    have hindex : (fun x => (Function.update (fun x => (m x).map (vacate a b A.indexInParentPool x))
        a none x).map Task.indexInParentPool) = Function.update (fun x => ((m x).map
        (trade a b A.indexInParentPool (P.pushedTasksCount - 1) x)).map Task.indexInParentPool)
        a none := by
      funext x
      by_cases hxa : x = a
      · simp [hxa]
      · rw [Function.update_of_ne hxa, Function.update_of_ne hxa]
        cases hx : m x with
        | none => rfl
        | some T => simp [hxa, trade, apply_ite Task.indexInParentPool]
    rw [hindex]
    exact hslots.pop hlast
  case assigned =>
    intro x T hx
    rw [Function.update_apply] at hx
    split_ifs at hx with hxa
    obtain ⟨T, hT, rfl⟩ := Option.map_eq_some_iff.mp hx
    rw [vacate_assigned, vacate_indexInParentPool, if_neg hxa, if_neg hxa]
    split_ifs with hxb
    · have hbi : T.indexInParentPool = P.pushedTasksCount - 1 := by
        rw [hxb, hb] at hT
        rw [← Option.some.inj hT, hj]
      exact (h.assigned hT).trans (iff_of_true (by omega) hu)
    · exact h.assigned hT
  case finished =>
    intro x T hx
    rw [Function.update_apply] at hx
    split_ifs at hx with hxa
    obtain ⟨T, hT, rfl⟩ := Option.map_eq_some_iff.mp hx
    rw [vacate_assigned, vacate_finished, if_neg hxa]
    exact h.finished hT
  case busy =>
    intro x
    by_cases hxa : x = a
    · simp only [hxa, Function.update_self]
      refine iff_of_false (fun hmem => ?_) (by simp)
      obtain ⟨T, hT, -, hf⟩ := h.busy.mp hmem
      rw [ha] at hT
      rw [← Option.some.inj hT, hA] at hf
      cases hf
    · refine h.busy.trans ?_
      simp [hxa]
  case once => exact h.once

/-- A new task stands behind the others and trades places with the first assigned one, if there is
one. -/
theorem slots_enlist (h : Arranged P m) {pool : PoolId} (ha : m a = none) (A : Task V)
    (hb : b = a ∧ P.unassignedTasksCount = P.pushedTasksCount ∨
      b ≠ a ∧ ∃ B, m b = some B ∧ B.indexInParentPool = P.unassignedTasksCount) :
    Slots (((P.tasks.put P.pushedTasksCount a).put P.unassignedTasksCount a).put
      P.pushedTasksCount b).cells (fun x => (Function.update (fun x => (m x).map
        (ThreadPool.enlist pool a b P.unassignedTasksCount P.pushedTasksCount x)) a (some
        (ThreadPool.enlist pool a b P.unassignedTasksCount P.pushedTasksCount a A)) x).map
        Task.indexInParentPool) (P.pushedTasksCount + 1) := by
  have hpush := h.slots.push (x := a) (by rw [ha]; rfl)
  have hi : Function.update (fun x => (m x).map Task.indexInParentPool) a
      (some P.pushedTasksCount) b = some P.unassignedTasksCount := by
    rcases hb with ⟨rfl, hu⟩ | ⟨hne, B, hB, hBi⟩
    · rw [Function.update_self, hu]
    · rw [Function.update_of_ne hne, hB, ← hBi]
      rfl
  have hindex : (fun x => (Function.update (fun x => (m x).map
      (ThreadPool.enlist pool a b P.unassignedTasksCount P.pushedTasksCount x)) a (some
      (ThreadPool.enlist pool a b P.unassignedTasksCount P.pushedTasksCount a A)) x).map
      Task.indexInParentPool) = Function.update (Function.update (Function.update
      (fun x => (m x).map Task.indexInParentPool) a (some P.pushedTasksCount)) a
      (some P.unassignedTasksCount)) b (some P.pushedTasksCount) := by
    funext x
    by_cases hxa : x = a
    · rcases hb with ⟨rfl, hu⟩ | ⟨hne, -⟩
      · simp [hxa, hu]
      · simp [hxa, Function.update_of_ne hne.symm]
    · rw [Function.update_of_ne hxa]
      simp only [Function.update_apply, if_neg hxa]
      cases hx : m x with
      | none =>
        have hxb : x ≠ b := by
          rintro rfl
          rcases hb with ⟨rfl, -⟩ | ⟨-, B, hB, -⟩
          · exact hxa rfl
          · simp [hx] at hB
        simp [hxb]
      | some T =>
        simp only [Option.map_some, enlist_indexInParentPool, if_neg hxa]
        split_ifs <;> rfl
  rw [hindex]
  exact hpush.swap hi (Function.update_self ..)

theorem enlist (h : Arranged P m) {pool : PoolId} (ha : m a = none) (A : Task V)
    (hb : b = a ∧ P.unassignedTasksCount = P.pushedTasksCount ∨
      b ≠ a ∧ ∃ B, m b = some B ∧ B.indexInParentPool = P.unassignedTasksCount)
    (hn : P.pushedTasksCount < tpoolMaxTasks) (hsize : Q.threads.size = Q.maxThreadCount)
    (hhandles : ∀ i : ℕ, i < Q.workers.length → Q.threads.cells i = some i)
    (hu : Q.unassignedTasksCount = P.unassignedTasksCount + 1)
    (hp : Q.pushedTasksCount = P.pushedTasksCount + 1) (hjobs : Q.jobs = P.jobs) :
    Arranged
      { Q with tasks := ((P.tasks.put P.pushedTasksCount a).put P.unassignedTasksCount a).put
                 P.pushedTasksCount b }
      (Function.update (fun x => (m x).map
          (enlist pool a b P.unassignedTasksCount P.pushedTasksCount x)) a
        (some (enlist pool a b P.unassignedTasksCount P.pushedTasksCount a A))) := by
  have h0 := h.unassigned_nonneg
  have hle := h.unassigned_le
  constructor
  case tasks_size => exact h.tasks_size
  case threads_size => exact hsize
  case handles => exact hhandles
  case unassigned_nonneg => show 0 ≤ Q.unassignedTasksCount; omega
  case unassigned_le => show Q.unassignedTasksCount ≤ Q.pushedTasksCount; omega
  case pushed_le => show Q.pushedTasksCount ≤ _; omega
  case slots =>
    show Slots _ _ Q.pushedTasksCount
    rw [hp]
    exact h.slots_enlist ha A hb
  case assigned =>
    intro x T hx
    show _ ↔ Q.unassignedTasksCount ≤ _
    rw [hu]
    rw [Function.update_apply] at hx
    split_ifs at hx with hxa
    · cases hx
      refine iff_of_false (by simp) ?_
      rw [enlist_indexInParentPool, if_pos rfl]
      omega
    · obtain ⟨T, hT, rfl⟩ := Option.map_eq_some_iff.mp hx
      rw [enlist_assigned, enlist_indexInParentPool, if_neg hxa, if_neg hxa, h.assigned hT]
      rcases hb with ⟨rfl, hu⟩ | ⟨hne, B, hB, hBi⟩
      · have := h.range hT
        rw [if_neg hxa]
        omega
      · split_ifs with hxb
        · have hTi : T.indexInParentPool = P.unassignedTasksCount := by
            rw [hxb, hB] at hT
            rw [← Option.some.inj hT, hBi]
          have := h.range hT
          omega
        · have hne : T.indexInParentPool ≠ B.indexInParentPool := fun e =>
            hxb (h.injective hT hB e)
          omega
  case finished =>
    intro x T hx
    rw [Function.update_apply] at hx
    split_ifs at hx with hxa
    · cases hx
      simp
    · obtain ⟨T, hT, rfl⟩ := Option.map_eq_some_iff.mp hx
      rw [enlist_assigned, enlist_finished, if_neg hxa, if_neg hxa]
      exact h.finished hT
  case busy =>
    intro x
    have hmem : x ∈ Q.jobs ↔ x ∈ P.jobs := by rw [hjobs]
    refine hmem.trans (h.busy.trans ?_)
    by_cases hxa : x = a
    · simp [hxa, ha]
    · simp [hxa]
  case once => exact hjobs ▸ h.once

end Arranged

end SystemsProgramming.ThreadPool

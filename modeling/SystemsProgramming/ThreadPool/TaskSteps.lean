import SystemsProgramming.ThreadPool.Crew
import SystemsProgramming.ThreadPool.TaskArray

/-! What every step does to the tasks. Whichever places they have in the array, each step changes
the rest of at most one task, in one of the ways listed here. As long as pools are deleted only when
they hold no task, no step reaches undefined behaviour, and the tasks of every pool stay arranged in
its array. -/

namespace SystemsProgramming.ThreadPool

variable {V : Type}

/-- A task without its place in the array. -/
def Task.bare (T : Task V) : Task V := { T with indexInParentPool := noIndex }

namespace State

def record (s : State V) (x : TaskId) : Option (Task V) := (s.tasks x).map Task.bare

theorem record_eq_some {s : State V} {x : TaskId} {A : Task V} (h : s.record x = some A) :
    ∃ T, s.tasks x = some T ∧ T.bare = A := Option.map_eq_some_iff.mp h

theorem record_of_tasks {s : State V} {x : TaskId} {T : Task V} (h : s.tasks x = some T) :
    s.record x = some T.bare := by simp [record, h]

theorem record_congr {s t : State V} (h : t.tasks = s.tasks) : t.record = s.record := by
  unfold record
  rw [h]

/-- One task changes, the others at most move. -/
theorem record_mapTasks {s : State V} {f : TaskId → Task V → Task V} {a : TaskId} {A : Task V}
    (ha : s.tasks a = some A) (hf : ∀ x T, x ≠ a → (f x T).bare = T.bare) :
    (s.mapTasks f).record = Function.update s.record a (some (f a A).bare) := by
  funext x
  unfold record
  by_cases hx : x = a
  · simp [hx, ha]
  · cases hs : s.tasks x with
    | none => simp [hx, hs]
    | some T => simp [hx, hs, hf x T hx]

theorem record_freeTask (s : State V) (a : TaskId) :
    (s.freeTask a).record = Function.update s.record a none := by
  funext x
  by_cases hx : x = a <;> simp [record, freeTask, hx]

end State

open State

/-- Every task of a pool is in its array, and every pool that tasks refer to exists; a pool being
deleted is empty. -/
structure Housed (s : State V) : Prop where
  arranged : ∀ {p P}, s.pools p = some P → Arranged P (s.inPool p)
  home : ∀ {x T p}, s.tasks x = some T → T.parentPool = some p → ∃ P, s.pools p = some P
  deleting : ∀ {p i}, s.deletes p = some i →
    ∃ P, s.pools p = some P ∧ P.pushedTasksCount = 0 ∧ 0 ≤ i

/-- A task in no other pool. -/
def Task.Within (p : PoolId) (T : Task V) : Prop := T.parentPool = some p ∨ T.parentPool = none

theorem Task.Within.ne {p q : PoolId} {T : Task V} (h : T.Within p) (hq : q ≠ p) :
    T.parentPool ≠ some q := by
  rcases h with h | h <;> simp [h, hq.symm]

namespace Housed

theorem init : Housed (.init : State V) where
  arranged h := by simp [State.init] at h
  home h := by simp [State.init] at h
  deleting h := by simp [State.init] at h

/-- Only the tasks and the array of one pool change. -/
theorem update {s : State V} (h : Housed s) {p : PoolId} {P : Pool}
    {f : TaskId → Task V → Task V} (harr : Arranged P ((s.mapTasks f).inPool p))
    (hf : ∀ x T, s.tasks x = some T → f x T = T ∨ T.Within p ∧ (f x T).Within p)
    (hdel : s.deletes p = none ∨ P.pushedTasksCount = 0) :
    Housed ((s.mapTasks f).setPool p P) where
  arranged {q Q} hQ := by
    rw [inPool_setPool]
    rw [pools_setPool] at hQ
    split_ifs at hQ with hq
    · cases hQ
      exact hq ▸ harr
    · rw [inPool_mapTasks fun x T hx => (hf x T hx).imp_right fun ⟨h1, h2⟩ => ⟨h1.ne hq, h2.ne hq⟩]
      exact h.arranged hQ
  home {x T q} hx hq := by
    rw [pools_setPool]
    split_ifs with hqp
    · exact ⟨_, rfl⟩
    · obtain ⟨T, hT, rfl⟩ := Option.map_eq_some_iff.mp hx
      rcases hf x T hT with h1 | ⟨-, h2⟩
      · exact h.home hT (h1 ▸ hq)
      · exact absurd hq (h2.ne hqp)
  deleting {q i} hi := by
    rw [pools_setPool]
    obtain ⟨Q, hQ, hn, h0⟩ := h.deleting (p := q) hi
    split_ifs with hqp
    · refine ⟨P, rfl, ?_, h0⟩
      rcases hdel with h1 | h1
      · rw [deletes_setPool, deletes_mapTasks, hqp, h1] at hi
        cases hi
      · exact h1
    · exact ⟨Q, hQ, hn, h0⟩

/-- One pool changes and no task. -/
theorem setPool {s : State V} (h : Housed s) {p : PoolId} {P P' : Pool} (hP : s.pools p = some P)
    (harr : Arranged P' (s.inPool p)) (hn : P'.pushedTasksCount = P.pushedTasksCount) :
    Housed (s.setPool p P') := by
  have hid : s.mapTasks (fun _ T => T) = s := by
    simp [mapTasks]
  have := h.update (f := fun _ T => T) (by rwa [hid]) (fun _ _ _ => .inl rfl) ?_
  · rwa [hid] at this
  · cases hd : s.deletes p with
    | none => exact .inl rfl
    | some i =>
      obtain ⟨Q, hQ, h0, -⟩ := h.deleting hd
      obtain rfl := Option.some.inj (hP.symm.trans hQ)
      exact .inr (hn.trans h0)

/-- A step that leaves pools, tasks and deletions as they are. -/
theorem congr {s t : State V} (h : Housed s) (hp : t.pools = s.pools) (ht : t.tasks = s.tasks)
    (hd : t.deletes = s.deletes) : Housed t where
  arranged hP := by
    rw [inPool_congr ht]
    exact h.arranged (hp ▸ hP)
  home hx hq := by
    rw [hp]
    exact h.home (ht ▸ hx) hq
  deleting hi := by
    rw [hp]
    exact h.deleting (hd ▸ hi)

theorem freeTask {s : State V} (h : Housed s) {a : TaskId} {A : Task V} (ha : s.tasks a = some A)
    (hA : A.parentPool = none) : Housed (s.freeTask a) where
  arranged {p P} hP := by
    have hin : (s.freeTask a).inPool p = s.inPool p := by
      funext x
      unfold inPool State.freeTask
      by_cases hx : x = a
      · simp [hx, ha, hA, Option.filter]
      · simp [hx]
    rw [hin]
    exact h.arranged hP
  home {x T p} hx hq := by
    refine h.home (x := x) (T := T) ?_ hq
    simp only [State.freeTask, Function.update_apply] at hx
    split_ifs at hx
    exact hx
  deleting := h.deleting

end Housed

/-! ### What is seen of a task -/

/-- The steps seen as what happens to tasks. -/
inductive Act (V : Type)
  | push (pool : PoolId) (task : TaskId)
  | take (pool : PoolId) (task : TaskId)
  | finish (task : TaskId) (result : V) (deleted : Bool)
  | join (task : TaskId) (result : Option V)
  | detach (task : TaskId)
  | other

def act : Event V × Ret V → Act V
  | (.push pool task _, .code .success) => .push pool task
  | (.lock pool _, .took task) => .take pool task
  | (.wake pool _, .took task) => .take pool task
  | (.finish _ _ task result, .returned deleted) => .finish task result deleted
  | (.join task, .joined result) => .join task result
  | (.timedJoin task, .joined result) => .join task result
  | (.joinWake task, .joined result) => .join task result
  | (.detach task, .code .success) => .detach task
  | _ => .other

/-- The tasks change by `Effect`: at most one of them changes other than in its place. -/
inductive Effect (s t : State V) : Act V → Prop
  | quiet : t.record = s.record → Effect s t .other
  | new (a : TaskId) : s.record a = none → t.record = Function.update s.record a (some
      { result := none, finished := false, assigned := false, scheduledForDeletion := false
        parentPool := none, indexInParentPool := noIndex }) → Effect s t .other
  | free (a : TaskId) (A : Task V) : s.record a = some A → A.parentPool = none →
      t.record = Function.update s.record a none → Effect s t .other
  | push (p : PoolId) (a : TaskId) (A : Task V) : s.record a = some A → A.parentPool = none →
      t.record = Function.update s.record a (some
        { A with finished := false, assigned := false, parentPool := some p }) →
      Effect s t (.push p a)
  | take (p : PoolId) (a : TaskId) (A : Task V) : s.record a = some A → A.parentPool = some p →
      A.assigned = false → t.record = Function.update s.record a (some { A with assigned := true }) →
      Effect s t (.take p a)
  | finish (p : PoolId) (a : TaskId) (v : V) (A : Task V) : s.record a = some A →
      A.parentPool = some p → A.assigned = true → A.finished = false →
      A.scheduledForDeletion = false → t.record = Function.update s.record a (some
        { A with result := some v, finished := true }) → Effect s t (.finish a v false)
  | finishDetached (p : PoolId) (a : TaskId) (v : V) (A : Task V) : s.record a = some A →
      A.parentPool = some p → A.assigned = true → A.finished = false →
      A.scheduledForDeletion = true → t.record = Function.update s.record a none →
      Effect s t (.finish a v true)
  | join (p : PoolId) (a : TaskId) (A : Task V) : s.record a = some A → A.parentPool = some p →
      A.finished = true → t.record = Function.update s.record a (some
        { A with parentPool := none, assigned := false }) → t.joins a = none →
      Effect s t (.join a A.result)
  | detach (p : PoolId) (a : TaskId) (A : Task V) : s.record a = some A → A.parentPool = some p →
      A.finished = true → t.record = Function.update s.record a none → t.joins a = none →
      Effect s t (.detach a)
  | schedule (p : PoolId) (a : TaskId) (A : Task V) : s.record a = some A →
      A.parentPool = some p → A.finished = false → t.record = Function.update s.record a (some
        { A with scheduledForDeletion := true }) → t.joins a = none → Effect s t (.detach a)

/-- A task that may be waited for. -/
def Joinable (s : State V) (x : TaskId) : Prop :=
  ∃ A, s.record x = some A ∧ A.parentPool ≠ none ∧ A.scheduledForDeletion = false

/-- Only tasks in a pool are waited for, never a detached one; a detached task is still to finish. -/
structure Sound (s : State V) : Prop extends Housed s where
  calls : ∀ {x c}, s.joins x = some c → Joinable s x
  detached : ∀ {x A}, s.record x = some A → A.scheduledForDeletion = true →
    A.parentPool ≠ none ∧ A.finished = false

/-- What the steps keep of the calls in progress. -/
def CallsFrom (s t : State V) : Prop :=
  ∀ x c, t.joins x = some c → (∃ c', s.joins x = some c') ∨ Joinable s x

theorem CallsFrom.of_eq {s t : State V} (h : t.joins = s.joins) : CallsFrom s t :=
  fun _ c hc => .inl ⟨c, h ▸ hc⟩

theorem Joinable.of_update {s t : State V} {x a : TaskId} {A : Option (Task V)}
    (h : Joinable s x) (ht : t.record = Function.update s.record a A)
    (hA : x = a → ∃ B, A = some B ∧ B.parentPool ≠ none ∧ B.scheduledForDeletion = false) :
    Joinable t x := by
  unfold Joinable
  rw [ht]
  by_cases hx : x = a
  · rw [hx, Function.update_self]
    exact hA hx
  · rw [Function.update_of_ne hx]
    exact h

theorem Sound.init : Sound (.init : State V) where
  toHoused := .init
  calls h := by simp [State.init] at h
  detached h := by simp [State.record, State.init] at h

theorem Joinable.of_record {s : State V} {x : TaskId} {A : Task V} (h : Joinable s x)
    (hA : s.record x = some A) : A.parentPool ≠ none ∧ A.scheduledForDeletion = false := by
  obtain ⟨B, hB, hBs⟩ := h
  obtain rfl := Option.some.inj (hA.symm.trans hB)
  exact hBs

/-- Soundness after a change of one task, if the changed task meets its part. -/
theorem Sound.of_update {s t : State V} (h : Sound s) (hh : Housed t) (hc : CallsFrom s t)
    {a : TaskId} {A : Option (Task V)} (ht : t.record = Function.update s.record a A)
    (hcall : Joinable s a → t.joins a ≠ none →
      ∃ B, A = some B ∧ B.parentPool ≠ none ∧ B.scheduledForDeletion = false)
    (hdet : ∀ B, A = some B → B.scheduledForDeletion = true →
      B.parentPool ≠ none ∧ B.finished = false) : Sound t where
  toHoused := hh
  calls {x c} hx := by
    have hs : Joinable s x := by
      rcases hc x c hx with ⟨c', hc'⟩ | hx
      · exact h.calls hc'
      · exact hx
    refine hs.of_update ht fun hxa => ?_
    subst hxa
    exact hcall hs (by simp [hx])
  detached {x B} hB hs := by
    rw [ht, Function.update_apply] at hB
    split_ifs at hB
    · exact hdet B hB hs
    · exact h.detached hB hs

theorem Sound.of_effect {s t : State V} (h : Sound s) {c : Act V} (hh : Housed t)
    (he : Effect s t c) (hc : CallsFrom s t) : Sound t := by
  cases he with
  | quiet ht =>
    refine ⟨hh, fun {x c} hx => ?_, fun {x A} hA => h.detached (ht ▸ hA)⟩
    unfold Joinable
    rw [ht]
    rcases hc x c hx with ⟨c', hc'⟩ | hx
    · exact h.calls hc'
    · exact hx
  | new a ha ht =>
    refine h.of_update hh hc ht (fun hj _ => ?_) fun B hB hs => ?_
    · obtain ⟨A, hA, -⟩ := hj
      rw [ha] at hA
      cases hA
    · cases hB
      cases hs
  | free a A hA hp ht =>
    refine h.of_update hh hc ht (fun hj _ => absurd hp (hj.of_record hA).1) fun B hB => ?_
    cases hB
  | push p a A hA hp ht =>
    refine h.of_update hh hc ht (fun hj _ => absurd hp (hj.of_record hA).1) fun B hB hs => ?_
    cases hB
    exact absurd hp (h.detached hA hs).1
  | take p a A hA hp _ ht =>
    refine h.of_update hh hc ht (fun hj _ => ?_) fun B hB hs => ?_
    · have hjA := hj.of_record hA
      exact ⟨_, rfl, hjA⟩
    · cases hB
      have hdA := h.detached hA hs
      exact hdA
  | finish p a v A hA hp _ _ hsd ht =>
    refine h.of_update hh hc ht (fun hj _ => ?_) fun B hB hs => ?_
    · have hjA := hj.of_record hA
      exact ⟨_, rfl, hjA⟩
    · cases hB
      exact absurd hs (by simp [hsd])
  | finishDetached p a v A hA hp _ _ hsd ht =>
    refine h.of_update hh hc ht (fun hj _ => ?_) fun B hB => ?_
    · rw [(hj.of_record hA).2] at hsd
      cases hsd
    · cases hB
  | join p a A hA hp hf ht hj =>
    refine h.of_update hh hc ht (fun _ hn => absurd hj hn) fun B hB hs => ?_
    cases hB
    exact absurd (h.detached hA hs).2 (by simp [hf])
  | detach p a A hA hp hf ht hj =>
    refine h.of_update hh hc ht (fun _ hn => absurd hj hn) fun B hB => ?_
    cases hB
  | schedule p a A hA hp hf ht hj =>
    refine h.of_update hh hc ht (fun _ hn => absurd hj hn) fun B hB _ => ?_
    cases hB
    exact ⟨by simp [hp], hf⟩

/-! ### The sections of the code -/

theorem Housed.deletes_eq_none {s : State V} (h : Housed s) {p : PoolId} {P : Pool}
    (hP : s.pools p = some P) (hn : 0 < P.pushedTasksCount) : s.deletes p = none := by
  cases hd : s.deletes p with
  | none => rfl
  | some i =>
    obtain ⟨Q, hQ, h0, -⟩ := h.deleting hd
    obtain rfl := Option.some.inj (hP.symm.trans hQ)
    omega

theorem inPool_mapTasks {s : State V} {f : TaskId → Task V → Task V} {p : PoolId} {x : TaskId}
    (hf : ∀ T, (f x T).parentPool = T.parentPool) :
    (s.mapTasks f).inPool p x = (s.inPool p x).map (f x) := by
  unfold inPool
  cases hx : s.tasks x with
  | none => simp [hx]
  | some T => by_cases hT : T.parentPool = some p <;> simp [hx, Option.filter, hf, hT]

/-- Tasks of a pool change and stay in it. -/
theorem inPool_mapTasks_self {s : State V} {f : TaskId → Task V → Task V} {p : PoolId}
    (hf : ∀ x T, (f x T).parentPool = T.parentPool) :
    (s.mapTasks f).inPool p = fun x => (s.inPool p x).map (f x) :=
  funext fun x => inPool_mapTasks (hf x)

/-- Tasks of a pool change, and one of them may come or go. -/
theorem inPool_mapTasks_update {s : State V} {f : TaskId → Task V → Task V} {p : PoolId} {a : TaskId}
    (hf : ∀ x T, x ≠ a → (f x T).parentPool = T.parentPool) {o : Option (Task V)}
    (ha : (s.mapTasks f).inPool p a = o) :
    (s.mapTasks f).inPool p = Function.update (fun x => (s.inPool p x).map (f x)) a o := by
  funext x
  by_cases hx : x = a
  · rw [hx, Function.update_self, ha]
  · rw [Function.update_of_ne hx]
    exact inPool_mapTasks fun T => hf x T hx

theorem bare_assign {a b x : TaskId} (u : ℤ) (T : Task V) (hx : x ≠ a) :
    (assign a b u x T).bare = T.bare := by
  unfold assign
  rw [if_neg hx]
  split_ifs <;> rfl

theorem bare_vacate {a b x : TaskId} (i : ℤ) (T : Task V) (hx : x ≠ a) :
    (vacate a b i x T).bare = T.bare := by
  unfold vacate
  rw [if_neg hx]
  split_ifs <;> rfl

theorem bare_enlist {p : PoolId} {a b x : TaskId} (u n : ℤ) (T : Task V) (hx : x ≠ a) :
    (enlist p a b u n x T).bare = T.bare := by
  unfold enlist
  rw [if_neg hx]
  split_ifs <;> rfl

theorem bare_complete {a x : TaskId} (v : V) (T : Task V) (hx : x ≠ a) :
    (complete a v x T).bare = T.bare := by
  unfold complete
  rw [if_neg hx]

/-- A finished task leaves its pool. The workers may be seen as `ws`: the worker that has finished a
detached task is still inside of its function for the code. -/
theorem leavePool_spec {s : State V} {a : TaskId} {A : Task V} {p : PoolId} {P : Pool}
    {ws : List Worker} (hP : s.pools p = some P) (h : Housed (s.setPool p { P with workers := ws }))
    (ha : s.tasks a = some A) (hp : A.parentPool = some p) (hf : A.finished = true) :
    ∃ t, leavePool a s = some t ∧ t.joins = s.joins ∧
      (∃ Q, t.pools p = some Q ∧ Q.workers = P.workers ∧
        Housed (t.setPool p { Q with workers := ws })) ∧
      t.record = Function.update s.record a (some { A.bare with parentPool := none, assigned := false }) ∧
      t.tasks a = some { A with parentPool := none, indexInParentPool := noIndex
                                assigned := false } := by
  have harr : Arranged { P with workers := ws } (s.inPool p) := h.arranged (pools_setPool_self ..)
  have hin : s.inPool p a = some A := inPool_eq_some.mpr ⟨ha, hp⟩
  obtain ⟨hi0, hin'⟩ := harr.range hin
  have hn : P.pushedTasksCount ≤ P.tasks.size := by
    rw [harr.tasks_size]
    exact harr.pushed_le
  obtain ⟨b, B, hlast, hb, hBi⟩ := harr.filled (i := P.pushedTasksCount - 1)
    (by dsimp only at hin'; omega) (by dsimp only; omega)
  obtain ⟨hB, hBp⟩ := inPool_eq_some.mp hb
  have heq := leavePool_eq ha hB hp hP rfl hBi hlast hi0 hin' hn
  refine ⟨_, heq, rfl, ⟨_, pools_setPool_self .., rfl, ?_⟩, ?_, ?_⟩
  · rw [setPool_setPool]
    have hpool : (s.mapTasks (vacate a b A.indexInParentPool)).inPool p =
        Function.update (fun x => (s.inPool p x).map (vacate a b A.indexInParentPool x)) a none :=
      inPool_mapTasks_update (fun x T hx => by simp [hx]) (by simp [inPool, ha, Option.filter])
    have hh := h.update (p := p) (f := vacate a b A.indexInParentPool)
      (P := { P with tasks := (P.tasks.put A.indexInParentPool b).put (P.pushedTasksCount - 1) a
                     pushedTasksCount := P.pushedTasksCount - 1, workers := ws }) ?_ ?_ ?_
    · rwa [mapTasks_setPool, setPool_setPool] at hh
    · rw [mapTasks_setPool, inPool_setPool, hpool]
      exact harr.leave hin hb hBi hf
    · intro x T hx
      by_cases hxa : x = a
      · obtain rfl : A = T := Option.some.inj (ha.symm.trans (hxa ▸ hx))
        exact .inr ⟨.inl hp, .inr (by simp [hxa])⟩
      · by_cases hxb : x = b
        · obtain rfl : B = T := Option.some.inj (hB.symm.trans (hxb ▸ hx))
          exact .inr ⟨.inl hBp, .inl (by simp [hxa, hBp])⟩
        · exact .inl (by simp [vacate, hxa, hxb])
    · exact .inl (h.deletes_eq_none (pools_setPool_self ..) (by dsimp only at hin' ⊢; omega))
  · rw [record_congr (tasks_setPool ..), record_mapTasks ha fun x T hx => bare_vacate _ T hx]
    simp [vacate, Task.bare]
  · simp [ha, vacate]

/-- A worker at a test of the queue waits, or it takes the task `a` that stands first; `b` is the last one
that is not assigned. -/
theorem testQueue_eq {s : State V} (h : Housed s) {p : PoolId} {P : Pool} (hP : s.pools p = some P)
    (w : ℕ) : P.unassignedTasksCount = 0 ∧
        testQueue p w s = some (.waits, s.setPool p (P.setWorker w .waiting)) ∨
      0 < P.unassignedTasksCount ∧ ∃ a A b B, P.tasks.cells 0 = some a ∧ s.inPool p a = some A ∧
        A.indexInParentPool = 0 ∧ P.tasks.cells (P.unassignedTasksCount - 1) = some b ∧
        s.inPool p b = some B ∧ B.indexInParentPool = P.unassignedTasksCount - 1 ∧
        testQueue p w s = some (.took a,
          (s.mapTasks (assign a b (P.unassignedTasksCount - 1))).setPool p
            { P with tasks := (P.tasks.put 0 b).put (P.unassignedTasksCount - 1) a
                     unassignedTasksCount := P.unassignedTasksCount - 1
                     runningTasksCount := P.runningTasksCount + 1
                     workers := P.workers.set w (.running a) }) := by
  have harr := h.arranged hP
  simp only [testQueue, hP, Option.bind_eq_bind, Option.bind_some]
  split_ifs with hu
  · exact .inl ⟨hu, rfl⟩
  · have hu0 : 0 < P.unassignedTasksCount := by
      have := harr.unassigned_nonneg
      omega
    have hle := harr.unassigned_le
    obtain ⟨a, A, hfirst, ha, hi⟩ := harr.filled (Int.le_refl 0) (by omega)
    obtain ⟨b, B, hlast, hb, hj⟩ := harr.filled (i := P.unassignedTasksCount - 1) (by omega)
      (by omega)
    have hn : P.unassignedTasksCount ≤ P.tasks.size := by
      rw [harr.tasks_size]
      exact Int.le_trans hle harr.pushed_le
    refine .inr ⟨hu0, a, A, b, B, hfirst, ha, hi, hlast, hb, hj, ?_⟩
    obtain ⟨hA, hAp⟩ := inPool_eq_some.mp ha
    exact takeTask_eq hP hA (inPool_eq_some.mp hb).1 hAp hi hj hfirst hlast hu0 hn

theorem testQueue_spec {s : State V} (h : Housed s) {p : PoolId} {P : Pool} {w : ℕ}
    {phase : Worker} (hP : s.pools p = some P) (hw : P.workers[w]? = some phase)
    (hphase : phase.task? = none) : ∃ r t, testQueue p w s = some (r, t) ∧ Housed t ∧
      t.joins = s.joins ∧ (r = .waits ∧ t.record = s.record ∨
        ∃ a A, r = .took a ∧ s.record a = some A ∧ A.parentPool = some p ∧ A.assigned = false ∧
          t.record = Function.update s.record a (some { A with assigned := true })) := by
  have harr := h.arranged hP
  rcases testQueue_eq h hP w with ⟨-, heq⟩ | ⟨hu0, a, A, b, B, -, ha, hi, -, hb, hj, heq⟩
  · refine ⟨_, _, heq, h.setPool hP ?_ rfl, rfl, .inl ⟨rfl, rfl⟩⟩
    exact harr.setWorker hw hphase rfl
  · have hle := harr.unassigned_le
    obtain ⟨hA, hAp⟩ := inPool_eq_some.mp ha
    obtain ⟨hB, hBp⟩ := inPool_eq_some.mp hb
    refine ⟨_, _, heq, h.update ?_ ?_ ?_, rfl, .inr ⟨a, A.bare, rfl, record_of_tasks hA, hAp, ?_, ?_⟩⟩
    · rw [inPool_mapTasks_self fun x T => assign_parentPool ..]
      exact harr.take ha hb hi hj hu0 hw hphase _
    · intro x T hx
      by_cases hxa : x = a
      · obtain rfl : A = T := Option.some.inj (hA.symm.trans (hxa ▸ hx))
        exact .inr ⟨.inl hAp, .inl (by simp [hAp])⟩
      · by_cases hxb : x = b
        · obtain rfl : B = T := Option.some.inj (hB.symm.trans (hxb ▸ hx))
          exact .inr ⟨.inl hBp, .inl (by simp [hBp])⟩
        · exact .inl (by simp [assign, hxa, hxb])
    · exact .inl (h.deletes_eq_none hP (by omega))
    · have hA0 := harr.assigned ha
      rw [hi] at hA0
      simpa [Task.bare, Int.not_le.mpr hu0] using hA0
    · rw [record_congr (tasks_setPool ..), record_mapTasks hA fun x T hx => bare_assign _ T hx]
      simp [assign, Task.bare]

/-- Creating or signalling a worker succeeds and keeps the handles. -/
theorem Arranged.createOrSignal {P : Pool} {m : TaskId → Option (Task V)} (h : Arranged P m)
    (hc : P.staff.Counted) (a : TaskId) (chosen : List ℕ) :
    ∃ Q, (P.count a).createOrSignal chosen = some Q ∧ Q.threads.size = Q.maxThreadCount ∧
      ∀ i : ℕ, i < Q.workers.length → Q.threads.cells i = some i := by
  have hlen : P.threadCount = P.workers.length := hc.threads
  unfold Pool.createOrSignal
  split_ifs with hg h1
  · have hset : (P.count a).threads.set (P.count a).threadCount (P.count a).workers.length =
        some ((P.count a).threads.put (P.count a).threadCount (P.count a).workers.length) := by
      refine CArray.set_eq _ ?_ ?_
      · show 0 ≤ P.threadCount
        omega
      · show P.threadCount < P.threads.size
        rw [h.threads_size]
        exact hg.2
    simp only [Pool.pthreadCreate, hset, Option.bind_eq_bind, Option.bind_some, Option.pure_def]
    refine ⟨_, rfl, h.threads_size, fun i hi => ?_⟩
    show (P.threads.put P.threadCount P.workers.length).cells i = _
    rw [CArray.cells_put]
    simp only [Pool.count, List.length_append, List.length_singleton] at hi
    split_ifs with hit
    · congr 1
      omega
    · exact h.handles i (by omega)
  · exact ⟨_, rfl, h.threads_size, by simpa [Pool.signal, Pool.count] using h.handles⟩
  · exact ⟨_, rfl, h.threads_size, h.handles⟩

/-- The new task `a` trades places with the first one assigned, or with itself when all tasks wait. -/
def Trades (P : Pool) (m : TaskId → Option (Task V)) (a b : TaskId) : Prop :=
  b = a ∧ P.unassignedTasksCount = P.pushedTasksCount ∨
    b ≠ a ∧ P.unassignedTasksCount < P.pushedTasksCount ∧
      P.tasks.cells P.unassignedTasksCount = some b ∧
      ∃ B, m b = some B ∧ B.indexInParentPool = P.unassignedTasksCount

theorem Arranged.exists_trades {P : Pool} {m : TaskId → Option (Task V)} (h : Arranged P m)
    {a : TaskId} (ha : m a = none) : ∃ b, Trades P m a b := by
  by_cases hu : P.unassignedTasksCount = P.pushedTasksCount
  · exact ⟨a, .inl ⟨rfl, hu⟩⟩
  · have hlt : P.unassignedTasksCount < P.pushedTasksCount := by
      have := h.unassigned_le
      omega
    obtain ⟨b, B, hcell, hB, hBi⟩ := h.filled h.unassigned_nonneg hlt
    refine ⟨b, .inr ⟨?_, hlt, hcell, B, hB, hBi⟩⟩
    rintro rfl
    rw [ha] at hB
    cases hB

theorem threadPoolPushTask_of_trades {s : State V} {p : PoolId} {P Q : Pool} {a b : TaskId}
    {A : Task V} {chosen : List ℕ} (harr : Arranged P (s.inPool p)) (hP : s.pools p = some P)
    (ha : s.tasks a = some A) (hn : P.pushedTasksCount < tpoolMaxTasks)
    (hQ : (P.count a).createOrSignal chosen = some Q) (hb : Trades P (s.inPool p) a b) :
    threadPoolPushTask p a chosen s = some (.code .success,
      (s.mapTasks (enlist p a b P.unassignedTasksCount P.pushedTasksCount)).setPool p
        { Q with tasks := ((P.tasks.put P.pushedTasksCount a).put P.unassignedTasksCount a).put
                   P.pushedTasksCount b }) := by
  refine threadPoolPushTask_eq hP ha hn harr.tasks_size harr.unassigned_nonneg harr.unassigned_le hQ
    (hb.imp_right ?_)
  rintro ⟨hne, hlt, hcell, B, hB, hBi⟩
  exact ⟨hne, hlt, hcell, B, (inPool_eq_some.mp hB).1, (inPool_eq_some.mp hB).2, hBi⟩

theorem threadPoolPushTask_full {s : State V} {p : PoolId} {P : Pool} {a : TaskId}
    {chosen : List ℕ} (hP : s.pools p = some P) (hn : P.pushedTasksCount ≥ tpoolMaxTasks) :
    threadPoolPushTask p a chosen s = some (.code .tooManyTasks, s) := by
  simp only [threadPoolPushTask, hP, Option.bind_eq_bind, Option.bind_some, if_pos hn,
    Option.pure_def]

theorem inPool_eq_none {s : State V} {a : TaskId} {A : Task V} (ha : s.tasks a = some A)
    (hA : A.parentPool = none) (p : PoolId) : s.inPool p a = none := by
  simp [inPool, ha, hA, Option.filter]

theorem threadPoolPushTask_spec {s : State V} (h : Housed s) {p : PoolId} {P : Pool} {a : TaskId}
    {A : Task V} {chosen : List ℕ} (hP : s.pools p = some P) (hc : P.staff.Counted)
    (ha : s.tasks a = some A) (hAp : A.parentPool = none) (hd : s.deletes p = none) :
    ∃ r t, threadPoolPushTask p a chosen s = some (r, t) ∧ Housed t ∧ t.joins = s.joins ∧
      (r = .code .tooManyTasks ∧ t = s ∨ r = .code .success ∧
        t.record = Function.update s.record a (some { A.bare with
          finished := false, assigned := false, parentPool := some p })) := by
  have harr := h.arranged hP
  by_cases hn : P.pushedTasksCount ≥ tpoolMaxTasks
  · exact ⟨_, _, threadPoolPushTask_full hP hn, h, rfl, .inl ⟨rfl, rfl⟩⟩
  obtain ⟨Q, hQ, hsize, hhandles⟩ := harr.createOrSignal hc a chosen
  obtain ⟨-, hQu, hQn⟩ := Pool.createOrSignal_frame hQ
  have hQj : Q.jobs = P.jobs := (Pool.createOrSignal_jobs hQ).trans rfl
  have hnone : s.inPool p a = none := inPool_eq_none ha hAp p
  obtain ⟨b, hb⟩ := harr.exists_trades hnone
  have heq := threadPoolPushTask_of_trades harr hP ha (by omega) hQ hb
  refine ⟨_, _, heq, h.update ?_ ?_ (.inl hd), rfl, .inr ⟨rfl, ?_⟩⟩
  · have hpool : (s.mapTasks (enlist p a b P.unassignedTasksCount P.pushedTasksCount)).inPool p =
        Function.update (fun x => (s.inPool p x).map
          (enlist p a b P.unassignedTasksCount P.pushedTasksCount x)) a
          (some (enlist p a b P.unassignedTasksCount P.pushedTasksCount a A)) :=
      inPool_mapTasks_update (fun x T hx => by simp [hx]) (by simp [inPool, ha, Option.filter])
    rw [hpool]
    refine harr.enlist hnone A (hb.imp_right ?_) (by omega) hsize hhandles hQu hQn hQj
    rintro ⟨hne, -, -, B, hB, hBi⟩
    exact ⟨hne, B, hB, hBi⟩
  · intro x T hx
    by_cases hxa : x = a
    · obtain rfl : A = T := Option.some.inj (ha.symm.trans (hxa ▸ hx))
      exact .inr ⟨.inr hAp, .inl (by simp [hxa])⟩
    · rcases hb with ⟨rfl, -⟩ | ⟨-, -, -, B, hB, -⟩
      · exact .inl (by simp [enlist, hxa])
      · by_cases hxb : x = b
        · obtain ⟨hB, hBp⟩ := inPool_eq_some.mp hB
          obtain rfl : B = T := Option.some.inj (hB.symm.trans (hxb ▸ hx))
          exact .inr ⟨.inl hBp, .inl (by simp [hxa, hBp])⟩
        · exact .inl (by simp [enlist, hxa, hxb])
  · rw [record_congr (tasks_setPool ..), record_mapTasks ha fun x T hx => bare_enlist _ _ T hx]
    simp [enlist, Task.bare]

/-- A worker returns from a task's function. -/
theorem finishTask_spec {s : State V} (h : Housed s) {p : PoolId} {P : Pool} {w : ℕ} {a : TaskId}
    (v : V) (hP : s.pools p = some P) (hw : P.workers[w]? = some (.running a)) :
    ∃ A d t, s.record a = some A ∧ A.parentPool = some p ∧ A.assigned = true ∧
      A.finished = false ∧ A.scheduledForDeletion = d ∧
      finishTask p w a v s = some (.returned d, t) ∧ Housed t ∧
      (∀ x c, t.joins x = some c → ∃ c', s.joins x = some c') ∧
      t.record = Function.update s.record a
        (if d then none else some { A with result := some v, finished := true }) := by
  have harr := h.arranged hP
  obtain ⟨A, hin, hA, hAf⟩ := harr.busy.mp (Pool.mem_jobs.mpr (List.mem_of_getElem? hw))
  obtain ⟨ha, hAp⟩ := inPool_eq_some.mp hin
  have hpos : 0 < P.pushedTasksCount := by
    have := harr.range hin
    omega
  have hrec₁ : (finished p P a v s).record =
      Function.update s.record a (some { A.bare with result := some v, finished := true }) := by
    have hmap : (s.mapTasks (complete a v)).record = _ :=
      record_mapTasks ha fun x T hx => bare_complete v T hx
    refine Eq.trans ?_ (hmap.trans ?_)
    · rfl
    · simp [complete, Task.bare]
  have hjoins : ∀ x c, (finished p P a v s).joins x = some c → ∃ c', s.joins x = some c' := by
    intro x c hx
    simp only [finished, broadcastJustFinished, setJoin, joins_setPool, joins_mapTasks,
      Function.update_apply] at hx
    split_ifs at hx with hxa
    · obtain ⟨c', hc', -⟩ := Option.map_eq_some_iff.mp hx
      exact ⟨c', hxa ▸ hc'⟩
    · exact ⟨c, hx⟩
  have hhoused : Housed ((finished p P a v s).setPool p
      { P with runningTasksCount := P.runningTasksCount - 1, workers := P.workers.set w .ready }) := by
    have hh := h.update (p := p) (f := complete a v)
      (P := { P with runningTasksCount := P.runningTasksCount - 1
                     workers := P.workers.set w .ready }) ?_ ?_ (.inl (h.deletes_eq_none hP hpos))
    · refine hh.congr ?_ rfl rfl
      simp [finished, broadcastJustFinished, setJoin, State.setPool]
    · rw [inPool_mapTasks_self fun x T => complete_parentPool ..]
      exact harr.complete hin hA hw _ v
    · intro x T hx
      by_cases hxa : x = a
      · obtain rfl : A = T := Option.some.inj (ha.symm.trans (hxa ▸ hx))
        exact .inr ⟨.inl hAp, .inl (by simp [hAp])⟩
      · exact .inl (by simp [complete, hxa])
  have hP₁ : (finished p P a v s).pools p =
      some { P with runningTasksCount := P.runningTasksCount - 1 } := pools_setPool_self ..
  refine ⟨A.bare, A.scheduledForDeletion, ?_⟩
  cases hd : A.scheduledForDeletion with
  | false =>
    have heq := finishTask_eq (w := w) v ha hP
    rw [hd, if_neg (by simp), modifyPool_eq hP₁] at heq
    exact ⟨_, record_of_tasks ha, hAp, hA, hAf, hd, heq, hhoused, hjoins, hrec₁⟩
  | true =>
    have ha₁ : (finished p P a v s).tasks a = some { A with result := some v, finished := true } := by
      show (s.mapTasks (complete a v)).tasks a = _
      simp [ha, complete]
    obtain ⟨t, ht, htj, ⟨Q, hQ, hQw, hQh⟩, htr, hta⟩ := leavePool_spec hP₁ hhoused ha₁ hAp rfl
    have hQ' : (t.freeTask a).pools p = some Q := hQ
    have heq := finishTask_eq (w := w) v ha hP
    rw [hd, if_pos rfl, threadTaskJoinNoLock_eq ha₁ rfl ht] at heq
    simp only [Option.bind_eq_bind, Option.bind_some, threadTaskDelete_eq hta rfl,
      modifyPool_eq hQ', Option.pure_def] at heq
    refine ⟨_, record_of_tasks ha, hAp, hA, hAf, hd, heq, ?_, fun x c hx => ?_, ?_⟩
    · unfold Pool.setWorker
      rw [hQw]
      exact hQh.freeTask hta rfl
    · exact hjoins x c (by rw [← htj]; exact hx)
    · rw [record_congr (tasks_setPool ..), record_freeTask, htr, hrec₁]
      simp

/-- A finished task leaves its pool, and the pool keeps its workers. -/
theorem Housed.exists_leavePool {s : State V} (h : Housed s) {a : TaskId} {A : Task V} {p : PoolId}
    (ha : s.tasks a = some A) (hp : A.parentPool = some p) (hf : A.finished = true) :
    ∃ t, leavePool a s = some t ∧ Housed t ∧ t.joins = s.joins ∧
      t.record = Function.update s.record a
        (some { A.bare with parentPool := none, assigned := false }) ∧
      t.tasks a = some { A with parentPool := none, indexInParentPool := noIndex
                                assigned := false } := by
  obtain ⟨P, hP⟩ := h.home ha hp
  have hself : s.setPool p { P with workers := P.workers } = s := setPool_self hP
  obtain ⟨t, ht, htj, ⟨Q, hQ, hQw, hQh⟩, htr, hta⟩ := leavePool_spec hP (hself.symm ▸ h) ha hp hf
  have hQself : t.setPool p { Q with workers := P.workers } = t := by
    rw [← hQw]
    exact setPool_self hQ
  exact ⟨t, ht, hQself ▸ hQh, htj, htr, hta⟩

theorem joinLoop_spec {s : State V} (h : Housed s) {a : TaskId} {A : Task V} {p : PoolId}
    (timed : Bool) (ha : s.tasks a = some A) (hp : A.parentPool = some p) :
    ∃ r t, joinLoop timed a s = some (r, t) ∧ Housed t ∧
      (A.finished = true ∧ r = .joined A.result ∧ t.joins = Function.update s.joins a none ∧
          t.record = Function.update s.record a
            (some { A.bare with parentPool := none, assigned := false }) ∨
        r = .waits ∧ t.record = s.record ∧
          t.joins = Function.update s.joins a (some ⟨timed, false⟩)) := by
  cases hf : A.finished with
  | true =>
    obtain ⟨t, ht, hh, htj, htr, hta⟩ := h.exists_leavePool ha hp hf
    refine ⟨.joined A.result, t.setJoin a none, ?_, ?_, .inl ⟨rfl, rfl, ?_, htr⟩⟩
    · simp [joinLoop, threadTaskJoinNoLock_eq ha hf ht, hta]
    · exact hh.congr rfl rfl rfl
    · rw [← htj]
      rfl
  | false =>
    refine ⟨.waits, s.setJoin a (some ⟨timed, false⟩), ?_, h.congr rfl rfl rfl, .inr ⟨rfl, rfl, rfl⟩⟩
    simp [joinLoop, threadTaskJoinNoLock, ha, hf]

theorem joinEntry_spec {s : State V} (h : Housed s) {a : TaskId} {A : Task V} (timed : Bool)
    (ha : s.tasks a = some A) : ∃ r t, joinEntry timed a s = some (r, t) ∧ Housed t ∧
      (r = .code .taskNotPushed ∧ t = s ∨ ∃ p, A.parentPool = some p ∧
        (A.finished = true ∧ r = .joined A.result ∧ t.joins = Function.update s.joins a none ∧
            t.record = Function.update s.record a
              (some { A.bare with parentPool := none, assigned := false }) ∨
          r = .waits ∧ t.record = s.record ∧
            t.joins = Function.update s.joins a (some ⟨timed, false⟩))) := by
  cases hp : A.parentPool with
  | none => exact ⟨_, s, by simp [joinEntry, ha, hp], h, .inl ⟨rfl, rfl⟩⟩
  | some p =>
    obtain ⟨P, hP⟩ := h.home ha hp
    obtain ⟨r, t, ht, hh, hrt⟩ := joinLoop_spec h timed ha hp
    exact ⟨r, t, by simp [joinEntry, ha, hp, hP, ht], hh, .inr ⟨p, rfl, hrt⟩⟩

theorem threadTaskDetach_spec {s : State V} (h : Housed s) {a : TaskId} {A : Task V}
    (ha : s.tasks a = some A) : ∃ r t, threadTaskDetach a s = some (r, t) ∧ Housed t ∧
      t.joins = s.joins ∧ (r = .code .taskNotPushed ∧ t = s ∨ ∃ p, A.parentPool = some p ∧
        r = .code .success ∧ t.record = Function.update s.record a
          (if A.finished then none else some { A.bare with scheduledForDeletion := true })) := by
  cases hp : A.parentPool with
  | none => exact ⟨_, s, by simp [threadTaskDetach, ha, hp], h, rfl, .inl ⟨rfl, rfl⟩⟩
  | some p =>
    obtain ⟨P, hP⟩ := h.home ha hp
    cases hf : A.finished with
    | true =>
      obtain ⟨t, ht, hh, htj, htr, hta⟩ := h.exists_leavePool ha hp hf
      refine ⟨.code .success, t.freeTask a, ?_, hh.freeTask hta rfl, htj, .inr ⟨p, rfl, rfl, ?_⟩⟩
      · simp [threadTaskDetach, ha, hp, hP, hf, threadTaskJoinNoLock_eq ha hf ht,
          threadTaskDelete_eq hta rfl]
      · rw [record_freeTask, htr]
        simp
    | false =>
      have heq : s.modifyTask a (fun T => { T with scheduledForDeletion := true }) =
          some (s.mapTasks (schedule a)) := modifyTask_eq ha _
      have harr := h.arranged hP
      have hin := harr.range (inPool_eq_some.mpr ⟨ha, hp⟩)
      refine ⟨.code .success, s.mapTasks (schedule a), ?_, ?_, rfl, .inr ⟨p, rfl, rfl, ?_⟩⟩
      · simp only [threadTaskDetach, ha, hp, hP, hf, heq, Option.bind_eq_bind, Option.bind_some]
        rfl
      · have hh := h.update (p := p) (P := P) (f := schedule a) ?_ ?_ (.inl (h.deletes_eq_none hP
          (by omega)))
        · rwa [← mapTasks_setPool, setPool_self hP] at hh
        · rw [inPool_mapTasks_self fun x T => by unfold schedule; split_ifs <;> rfl]
          refine harr.map fun x T _ => ?_
          unfold schedule
          split_ifs <;> exact ⟨rfl, rfl, rfl⟩
        · intro x T hx
          by_cases hxa : x = a
          · obtain rfl : A = T := Option.some.inj (ha.symm.trans (hxa ▸ hx))
            exact .inr ⟨.inl hp, .inl (by simp [schedule, hxa, hp])⟩
          · exact .inl (if_neg hxa)
      · rw [record_mapTasks ha fun x T hx => by rw [schedule, if_neg hx]]
        simp [schedule, Task.bare]

end SystemsProgramming.ThreadPool

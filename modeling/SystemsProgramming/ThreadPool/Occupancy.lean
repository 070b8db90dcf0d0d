import SystemsProgramming.ThreadPool.TaskSteps
import SystemsProgramming.ThreadPool.Wakeups

/-! Runs in which pools are deleted only when they hold no task. No step of such a run reaches
undefined behaviour, and in every state of it the tasks of each pool stand in its array as its three
counters say. -/

namespace SystemsProgramming.ThreadPool

open State Transition

variable {V : Type}

/-- A deletion that passes its check finds no task in its pool, finished ones included, and no task
is pushed to a pool that is being deleted. -/
def DeletesEmpty (s : State V) : Event V → Prop
  | .deletePool pool => ∀ P ∈ s.pools pool,
      ¬(P.unassignedTasksCount > 0 ∨ P.runningTasksCount > 0) → P.pushedTasksCount = 0
  | .push pool _ _ => s.deletes pool = none
  | _ => True

instance (s : State V) : (e : Event V) → Decidable (DeletesEmpty s e)
  | .deletePool pool => Option.decidableForallMem (s.pools pool)
  | .push pool _ _ => inferInstanceAs (Decidable (s.deletes pool = none))
  | .newPool .. | .newTask .. | .lock .. | .wake .. | .spurious .. | .finish .. | .join ..
  | .timedJoin .. | .joinWake .. | .joinSpurious .. | .joinTimeout .. | .detach .. | .deleteTask ..
  | .joinThread .. | .releasePool .. => .isTrue trivial

abbrev CarefulStep : State V → Event V × Ret V → State V → Prop :=
  restrict Step fun s l => DeletesEmpty s l.1

/-- The step for an event, under what is known of the state before. -/
def Handled (s : State V) (e : Event V) : Prop :=
  ∃ r t, exec s e = some (r, t) ∧ Housed t ∧ Effect s t (act (e, r)) ∧ CallsFrom s t

theorem MayClaim.task {s : State V} {a : TaskId} (h : MayClaim s a) :
    ∃ A, s.tasks a = some A ∧ A.scheduledForDeletion = false := by
  obtain ⟨A, hA, hs⟩ := (Option.any_eq_true _ _).mp h.1
  exact ⟨A, hA, by simpa using hs⟩

namespace Sound

variable {s : State V}

theorem newPool (h : Sound s) {p : PoolId} (n : ℤ) (hp : s.pools p = none) :
    Handled s (.newPool p n) := by
  by_cases hn : n ≤ 0 ∨ n > tpoolMaxThreads
  · exact ⟨.code .invalidArgument, s, by simp [exec, threadPoolNew, hn], h.toHoused, .quiet rfl,
      .of_eq rfl⟩
  refine ⟨.code .success, s.setPool p (.new n), ?_,
    ⟨fun {q Q} hQ => ?_, fun {x T q} hx hq => ?_, fun {q i} hi => ?_⟩, .quiet rfl, .of_eq rfl⟩
  · simp only [exec, threadPoolNew, if_neg hn]
  · rw [inPool_setPool]
    rw [pools_setPool] at hQ
    split_ifs at hQ with hqp
    · cases hQ
      have hempty : s.inPool q = fun _ => none := by
        funext x
        by_contra hx
        obtain ⟨T, hT⟩ := Option.ne_none_iff_exists'.mp hx
        obtain ⟨hxT, hTq⟩ := inPool_eq_some.mp hT
        obtain ⟨P, hP⟩ := h.home hxT hTq
        rw [hqp, hp] at hP
        cases hP
      rw [hempty]
      exact .new n
    · exact h.arranged hQ
  · rw [pools_setPool]
    split_ifs
    · exact ⟨_, rfl⟩
    · exact h.home hx hq
  · obtain ⟨P, hP, hd⟩ := h.deleting hi
    rw [pools_setPool]
    split_ifs with hqp
    · rw [hqp, hp] at hP
      cases hP
    · exact ⟨P, hP, hd⟩

theorem newTask (h : Sound s) {a : TaskId} (ha : s.tasks a = none) : Handled s (.newTask a) := by
  refine ⟨.code .success, _, rfl, ⟨fun {q Q} hQ => ?_, fun {x T q} hx hq => ?_, h.deleting⟩,
    .new a (by simp [record, ha]) ?_, .of_eq rfl⟩
  · convert h.arranged hQ using 1
    funext x
    by_cases hx : x = a <;> simp [inPool, setTask, hx, ha, Option.filter]
  · by_cases hxa : x = a
    · subst hxa
      simp only [setTask, Function.update_self, Option.some.injEq] at hx
      subst hx
      cases hq
    · exact h.home (x := x) (by simpa [setTask, hxa] using hx) hq
  · funext x
    by_cases hx : x = a <;> simp [record, setTask, hx, Task.bare]

theorem push (h : Sound s) {p : PoolId} {P : Pool} {a : TaskId} {A : Task V} {chosen : List ℕ}
    (hP : s.pools p = some P) (hc : P.staff.Counted) (ha : s.tasks a = some A)
    (hAp : A.parentPool = none) (hd : s.deletes p = none) : Handled s (.push p a chosen) := by
  obtain ⟨r, t, heq, hh, hj, hrt⟩ := threadPoolPushTask_spec h.toHoused hP hc ha hAp hd
  refine ⟨r, t, heq, hh, ?_, .of_eq hj⟩
  rcases hrt with ⟨rfl, rfl⟩ | ⟨rfl, ht⟩
  · exact .quiet rfl
  · exact .push p a A.bare (record_of_tasks ha) hAp ht

/-- A worker's test of the queue, seen from the step that makes it. -/
theorem test (h : Sound s) {p : PoolId} {P : Pool} {w : ℕ} {phase : Worker} {e : Event V}
    (hP : s.pools p = some P) (hw : P.workers[w]? = some phase) (hphase : phase.task? = none)
    (he : exec s e = testQueue p w s) (hwait : act (e, .waits) = .other)
    (htook : ∀ a, act (e, .took a) = .take p a) : Handled s e := by
  obtain ⟨r, t, heq, hh, hj, hrt⟩ := testQueue_spec h.toHoused hP hw hphase
  refine ⟨r, t, he.trans heq, hh, ?_, .of_eq hj⟩
  rcases hrt with ⟨rfl, ht⟩ | ⟨a, A, rfl, ha, hAp, hA, ht⟩
  · rw [hwait]
    exact .quiet ht
  · rw [htook]
    exact .take p a A ha hAp hA ht

theorem finish (h : Sound s) {p : PoolId} {P : Pool} {w : ℕ} {a : TaskId} (v : V)
    (hP : s.pools p = some P) (hw : P.workers[w]? = some (.running a)) :
    Handled s (.finish p w a v) := by
  obtain ⟨A, d, t, ha, hAp, hA, hAf, hAd, heq, hh, hj, ht⟩ :=
    finishTask_spec h.toHoused v hP hw
  refine ⟨_, t, heq, hh, ?_, fun x c hx => .inl (hj x c hx)⟩
  cases d with
  | false => exact .finish p a v A ha hAp hA hAf hAd (by simpa using ht)
  | true => exact .finishDetached p a v A ha hAp hA hAf hAd (by simpa using ht)

/-- What a call of a joining function leaves behind, whether it returns or waits. -/
theorem joins {a : TaskId} {A : Task V} {p : PoolId} {timed : Bool} {r : Ret V}
    {t : State V} {e : Event V} (ha : s.tasks a = some A) (hp : A.parentPool = some p)
    (hj : Joinable s a) (heq : exec s e = some (r, t)) (hh : Housed t)
    (hrt : A.finished = true ∧ r = .joined A.result ∧ t.joins = Function.update s.joins a none ∧
        t.record = Function.update s.record a
          (some { A.bare with parentPool := none, assigned := false }) ∨
      r = .waits ∧ t.record = s.record ∧
        t.joins = Function.update s.joins a (some ⟨timed, false⟩))
    (hwait : act (e, .waits) = .other) (hjoin : ∀ v, act (e, .joined v) = .join a v) :
    Handled s e := by
  refine ⟨r, t, heq, hh, ?_, fun x c hx => ?_⟩
  · rcases hrt with ⟨hf, rfl, htj, ht⟩ | ⟨rfl, ht, -⟩
    · rw [hjoin]
      exact .join p a A.bare (record_of_tasks ha) hp hf ht (by simp [htj])
    · rw [hwait]
      exact .quiet ht
  · rcases hrt with ⟨-, -, htj, -⟩ | ⟨-, -, htj⟩ <;> rw [htj, Function.update_apply] at hx <;>
      split_ifs at hx with hxa
    · exact .inl ⟨c, hx⟩
    · exact .inr (hxa ▸ hj)
    · exact .inl ⟨c, hx⟩

theorem joinCall (h : Sound s) {a : TaskId} {timed : Bool} {e : Event V} (hm : MayClaim s a)
    (he : exec s e = joinEntry timed a s) (hwait : act (e, .waits) = .other)
    (hnot : act (e, .code .taskNotPushed) = .other)
    (hjoin : ∀ v, act (e, .joined v) = .join a v) : Handled s e := by
  obtain ⟨A, ha, hs⟩ := hm.task
  obtain ⟨r, t, heq, hh, hrt⟩ := joinEntry_spec h.toHoused timed ha
  rcases hrt with ⟨rfl, rfl⟩ | ⟨p, hp, hrt⟩
  · exact ⟨_, t, he.trans heq, hh, by rw [hnot]; exact .quiet rfl, .of_eq rfl⟩
  · exact joins ha hp ⟨A.bare, record_of_tasks ha, by simp [Task.bare, hp], hs⟩ (he.trans heq)
      hh hrt hwait hjoin

theorem joinWake (h : Sound s) {a : TaskId} {call : JoinCall} (hj : s.joins a = some call) :
    Handled s (.joinWake a) := by
  obtain ⟨A, hA, hp, hs⟩ := h.calls hj
  obtain ⟨T, ha, rfl⟩ := record_eq_some hA
  obtain ⟨p, hp⟩ := Option.ne_none_iff_exists'.mp hp
  obtain ⟨r, t, heq, hh, hrt⟩ := joinLoop_spec h.toHoused call.timed ha hp
  have he : exec s (.joinWake a) = joinLoop call.timed a s := by
    simp [exec, resumeJoin, hj]
  exact joins ha hp (h.calls hj) (he.trans heq) hh hrt rfl fun _ => rfl

theorem detach (h : Sound s) {a : TaskId} (hm : MayClaim s a) : Handled s (.detach a) := by
  obtain ⟨A, ha, hs⟩ := hm.task
  obtain ⟨r, t, heq, hh, htj, hrt⟩ := threadTaskDetach_spec h.toHoused ha
  refine ⟨r, t, heq, hh, ?_, .of_eq htj⟩
  rcases hrt with ⟨rfl, rfl⟩ | ⟨p, hp, rfl, ht⟩
  · exact .quiet rfl
  · have hja : t.joins a = none := by rw [htj, hm.2]
    cases hf : A.finished with
    | true => exact .detach p a A.bare (record_of_tasks ha) hp hf (by simpa [hf] using ht) hja
    | false => exact .schedule p a A.bare (record_of_tasks ha) hp hf (by simpa [hf] using ht) hja

theorem deleteTask (h : Sound s) {a : TaskId} {A : Task V} (ha : s.tasks a = some A) :
    Handled s (.deleteTask a) := by
  cases hp : A.parentPool with
  | none =>
    exact ⟨_, _, threadTaskDelete_eq ha hp, h.freeTask ha hp,
      .free a A.bare (record_of_tasks ha) hp (record_freeTask s a), .of_eq rfl⟩
  | some p =>
    exact ⟨.code .taskInPool, s, by simp [exec, threadTaskDelete, ha, hp], h.toHoused, .quiet rfl,
      .of_eq rfl⟩

theorem deletePool (h : Sound s) {p : PoolId} {P : Pool} (hP : s.pools p = some P)
    (hok : ¬(P.unassignedTasksCount > 0 ∨ P.runningTasksCount > 0) → P.pushedTasksCount = 0) :
    Handled s (.deletePool p) := by
  by_cases hz : P.unassignedTasksCount > 0 ∨ P.runningTasksCount > 0
  · exact ⟨.code .hasTasks, s, by simp [exec, threadPoolDelete, hP, hz], h.toHoused, .quiet rfl,
      .of_eq rfl⟩
  obtain ⟨P', hP'⟩ : ∃ P' : Pool, P' = { P with threadUpdateEvent := .tasksEnded }.broadcast :=
    ⟨_, rfl⟩
  have hjobs : P'.jobs = P.jobs := by
    rw [hP']
    unfold Pool.jobs Pool.broadcast
    rw [List.filterMap_map]
    congr 1
    funext phase
    by_cases hp : phase = .waiting <;> simp [hp, Worker.task?]
  have hh : Housed (s.setPool p P') := by
    refine h.setPool hP ?_ (by rw [hP']; rfl)
    refine (h.arranged hP).congr ?_ ?_ ?_ ?_ ?_ ?_ hjobs <;> rw [hP'] <;>
      simp [Pool.broadcast]
  refine ⟨.waits, (s.setPool p P').setDelete p (some 0), ?_,
    ⟨hh.arranged, hh.home, fun {q i} hi => ?_⟩, .quiet rfl, .of_eq rfl⟩
  · simp only [exec, threadPoolDelete, hP, Option.bind_eq_bind, Option.bind_some, if_neg hz, hP',
      Option.pure_def]
  · by_cases hq : q = p
    · subst hq
      obtain rfl : 0 = i := by simpa [setDelete] using hi
      refine ⟨P', pools_setPool_self .., ?_, Int.le_refl 0⟩
      rw [hP']
      exact hok hz
    · exact hh.deleting (by simpa [setDelete, hq] using hi)

theorem joinThread (h : Sound s) {p : PoolId} {i : ℤ} {w : ℕ} (hi : s.deletes p = some i)
    (hw : nextJoined p s = some w) : Handled s (.joinThread p) := by
  refine ⟨.waits, s.setDelete p (some (i + 1)), by simp [exec, ThreadPool.joinThread, hi, hw],
    ⟨h.arranged, h.home, fun {q j} hj => ?_⟩, .quiet rfl, .of_eq rfl⟩
  by_cases hq : q = p
  · subst hq
    obtain rfl : i + 1 = j := by simpa [setDelete] using hj
    obtain ⟨P, hP, hn, h0⟩ := h.deleting hi
    exact ⟨P, hP, hn, by omega⟩
  · exact h.deleting (by simpa [setDelete, hq] using hj)

theorem releasePool (h : Sound s) {p : PoolId} {i : ℤ} (hi : s.deletes p = some i) :
    Handled s (.releasePool p) := by
  obtain ⟨P, hP, hn, -⟩ := h.deleting hi
  refine ⟨_, _, rfl, ⟨fun {q Q} hQ => ?_, fun {x T q} hx hq => ?_, fun {q j} hj => ?_⟩, .quiet rfl,
    .of_eq rfl⟩
  · simp only [setDelete, freePool, Function.update_apply] at hQ
    split_ifs at hQ
    exact h.arranged hQ
  · obtain ⟨Q, hQ⟩ := h.home (x := x) hx hq
    refine ⟨Q, ?_⟩
    simp only [setDelete, freePool, Function.update_apply]
    split_ifs with hqp
    · -- the pool is empty, so no task can be in it
      subst hqp
      have := (h.arranged hP).range (inPool_eq_some.mpr ⟨hx, hq⟩)
      omega
    · exact hQ
  · simp only [setDelete, freePool, Function.update_apply] at hj ⊢
    split_ifs at hj ⊢
    exact h.deleting hj

/-- Every step that can be made, and is not a deletion of a pool that holds tasks, succeeds. -/
theorem exec (h : Sound s) (hc : ∀ p P, s.pools p = some P → P.staff.Counted) {e : Event V}
    (hen : Enabled s e) (hok : DeletesEmpty s e) : Handled s e := by
  cases e with
  | newPool p n => exact h.newPool n hen
  | newTask a => exact h.newTask hen
  | push p a chosen =>
    obtain ⟨P, hP, -⟩ := (Option.any_eq_true _ _).mp hen.1
    obtain ⟨A, ha, hAp⟩ := (Option.any_eq_true _ _).mp hen.2
    exact h.push hP (hc p P hP) ha (by simpa using hAp) hok
  | lock p w =>
    obtain ⟨P, hP, hw⟩ := Option.bind_eq_some_iff.mp hen
    exact h.test hP hw rfl rfl rfl fun _ => rfl
  | wake p w =>
    obtain ⟨P, hP, hw⟩ := Option.bind_eq_some_iff.mp hen
    by_cases hev : P.threadUpdateEvent = .tasksEnded
    · refine ⟨.exits, s.setPool p (P.setWorker w .exited), ?_, ?_, .quiet rfl, .of_eq rfl⟩
      · simp [ThreadPool.exec, leaveWait, hP, hev]
      · exact h.setPool hP ((h.arranged hP).setWorker hw rfl rfl) rfl
    · refine h.test hP hw rfl ?_ rfl fun _ => rfl
      simp [ThreadPool.exec, leaveWait, hP, hev]
  | spurious p w =>
    obtain ⟨P, hP, hw⟩ := Option.bind_eq_some_iff.mp hen
    refine ⟨.waits, s.setPool p (P.setWorker w .woken), ?_, ?_, .quiet rfl, .of_eq rfl⟩
    · simp [ThreadPool.exec, modifyPool_eq hP]
    · exact h.setPool hP ((h.arranged hP).setWorker hw rfl rfl) rfl
  | finish p w a v =>
    obtain ⟨P, hP, hw⟩ := Option.bind_eq_some_iff.mp hen
    exact h.finish v hP hw
  | join a => exact h.joinCall hen rfl rfl rfl fun _ => rfl
  | timedJoin a => exact h.joinCall hen rfl rfl rfl fun _ => rfl
  | joinWake a =>
    obtain ⟨call, hj, -⟩ := (Option.any_eq_true _ _).mp hen
    exact h.joinWake hj
  | joinSpurious a =>
    refine ⟨_, _, rfl, h.congr rfl rfl rfl, .quiet rfl, fun x c hx => ?_⟩
    simp only [broadcastJustFinished, setJoin, Function.update_apply] at hx
    split_ifs at hx with hxa
    · obtain ⟨c', hc', -⟩ := Option.map_eq_some_iff.mp hx
      exact .inl ⟨c', hxa ▸ hc'⟩
    · exact .inl ⟨c, hx⟩
  | joinTimeout a =>
    refine ⟨_, _, rfl, h.congr rfl rfl rfl, .quiet rfl, fun x c hx => ?_⟩
    simp only [setJoin, Function.update_apply] at hx
    split_ifs at hx
    exact .inl ⟨c, hx⟩
  | detach a => exact h.detach hen
  | deleteTask a =>
    obtain ⟨A, ha, -⟩ := (Option.any_eq_true _ _).mp hen
    exact h.deleteTask ha
  | deletePool p =>
    obtain ⟨P, hP⟩ := Option.isSome_iff_exists.mp hen.1
    exact h.deletePool hP (hok P hP)
  | joinThread p =>
    obtain ⟨hlt, w, hw, -⟩ := hen
    obtain ⟨P, -, hd⟩ := (Option.any_eq_true _ _).mp hlt
    obtain ⟨i, hi, -⟩ := (Option.any_eq_true _ _).mp hd
    exact h.joinThread hi hw
  | releasePool p =>
    obtain ⟨P, -, hd⟩ := (Option.any_eq_true _ _).mp hen
    obtain ⟨i, hi, -⟩ := (Option.any_eq_true _ _).mp hd
    exact h.releasePool hi

end Sound

theorem Manned.counted {s : State V} (h : Manned s) (p : PoolId) (P : Pool)
    (hP : s.pools p = some P) : P.staff.Counted := (h p P.staff (staff_eq hP)).1

/-- A step of a sound state, with what it does to the tasks. -/
theorem Sound.step {s t : State V} {l : Event V × Ret V} (h : Sound s) (hm : Manned s)
    (hs : CarefulStep s l t) : Sound t ∧ Effect s t (act l) := by
  obtain ⟨hok, hen, hex⟩ := hs
  obtain ⟨r, u, heq, hh, he, hc⟩ := h.exec hm.counted hen hok
  rw [hex] at heq
  cases heq
  exact ⟨h.of_effect hh he hc, he⟩

theorem Sound.run {s : State V} {ls : List (Event V × Ret V)} (h : Run CarefulStep .init ls s) :
    Sound s := by
  have hinv : Manned s ∧ Sound s := h.invariant (I := fun s => Manned s ∧ Sound s)
    ⟨manned_init, .init⟩ fun _ _ _ hi hs => ⟨hi.1.step hs.2, (hi.2.step hi.1 hs).1⟩
  exact hinv.2

/-- What the array, the tasks and the counters of a pool say of each other. -/
structure TaskArrayInvariant (s : State V) (pool : PoolId) (P : Pool) : Prop where
  queue : 0 ≤ P.unassignedTasksCount ∧ P.unassignedTasksCount ≤ P.pushedTasksCount ∧
    P.pushedTasksCount ≤ tpoolMaxTasks
  threads : 0 ≤ P.runningTasksCount ∧ P.runningTasksCount ≤ P.threadCount ∧
    P.threadCount ≤ P.maxThreadCount
  /-- Each cell holds a task of the pool that knows its cell. -/
  cells : ∀ i, 0 ≤ i → i < P.pushedTasksCount → ∃ x T, P.tasks.get i = some x ∧
    s.tasks x = some T ∧ T.parentPool = some pool ∧ T.indexInParentPool = i
  distinct : ∀ i j, 0 ≤ i → i < P.pushedTasksCount → 0 ≤ j → j < P.pushedTasksCount →
    P.tasks.get i = P.tasks.get j → i = j
  /-- Each task of the pool stands in its array, on the side of the boundary its flag tells. -/
  tasks : ∀ x T, s.tasks x = some T → T.parentPool = some pool →
    0 ≤ T.indexInParentPool ∧ T.indexInParentPool < P.pushedTasksCount ∧
      P.tasks.get T.indexInParentPool = some x ∧
      (T.assigned = true ↔ P.unassignedTasksCount ≤ T.indexInParentPool)
  running : ∃ l : List TaskId, l.Nodup ∧ (l.length : ℤ) = P.runningTasksCount ∧
    ∀ x, x ∈ l ↔ ∃ T, s.tasks x = some T ∧ T.parentPool = some pool ∧ T.assigned = true ∧
      T.finished = false
  /-- A task that can be removed and the last one are both assigned, so removal trades places
  within the assigned part only. -/
  removal : ∀ x T, s.tasks x = some T → T.parentPool = some pool → T.finished = true →
    P.unassignedTasksCount ≤ T.indexInParentPool ∧ P.unassignedTasksCount < P.pushedTasksCount
  handles : ∀ i, 0 ≤ i → i < P.threadCount → P.threads.get i ≠ none

theorem length_jobs (P : Pool) : (P.jobs.length : ℤ) = tally Worker.kind P.workers .busy := by
  unfold Pool.jobs
  induction P.workers with
  | nil => rfl
  | cons phase l ih =>
    rw [tally_cons]
    cases phase <;> simp [List.filterMap_cons, Worker.task?, ← ih]

theorem Arranged.get {P : Pool} {m : TaskId → Option (Task V)} (h : Arranged P m) {i : ℤ}
    (h0 : 0 ≤ i) (h1 : i < P.pushedTasksCount) : P.tasks.get i = P.tasks.cells i := by
  have := h.pushed_le
  have := h.tasks_size
  exact CArray.get_eq h0 (by omega)

/-- In every run whose deletions find empty pools, the array of every pool is as its counters and
its tasks say, and every step that can be made stays within the arrays. -/
theorem taskArrayInvariant {ls : List (Event V × Ret V)} {s : State V}
    (h : Run CarefulStep .init ls s) :
    (∀ pool P, s.pools pool = some P → TaskArrayInvariant s pool P) ∧
      ∀ e, Enabled s e → DeletesEmpty s e → exec s e ≠ none := by
  have hs : Sound s := .run h
  have hm : Manned s := manned_init.run h.of_restrict
  constructor
  · intro pool P hP
    have harr : Arranged P (s.inPool pool) := hs.arranged hP
    have hc : P.staff.Counted := hm.counted pool P hP
    have hlen : P.threadCount = P.workers.length := hc.threads
    have hjobs : (P.jobs.length : ℤ) = P.runningTasksCount :=
      (length_jobs P).trans hc.running.symm
    have hle : P.jobs.length ≤ P.workers.length := List.length_filterMap_le ..
    have hroom : P.threadCount ≤ P.maxThreadCount := hc.room
    refine ⟨⟨harr.unassigned_nonneg, harr.unassigned_le, harr.pushed_le⟩,
      ⟨by omega, by omega, hroom⟩, ?_, ?_, ?_, ?_, ?_, ?_⟩
    · intro i h0 h1
      obtain ⟨x, T, hcell, hT, hi⟩ := harr.filled h0 h1
      obtain ⟨hx, hp⟩ := inPool_eq_some.mp hT
      exact ⟨x, T, (harr.get h0 h1).trans hcell, hx, hp, hi⟩
    · intro i j hi0 hi1 hj0 hj1 hij
      rw [harr.get hi0 hi1, harr.get hj0 hj1] at hij
      obtain ⟨x, T, hcell, hT, hTi⟩ := harr.filled hi0 hi1
      obtain ⟨y, U, hcell', hU, hUj⟩ := harr.filled hj0 hj1
      rw [hcell, hcell'] at hij
      cases hij
      rw [hT] at hU
      cases hU
      rw [← hTi, hUj]
    · intro x T hx hp
      have hT := inPool_eq_some.mpr ⟨hx, hp⟩
      obtain ⟨h0, h1⟩ := harr.range hT
      exact ⟨h0, h1, (harr.get h0 h1).trans (harr.cell hT), harr.assigned hT⟩
    · refine ⟨P.jobs, harr.once, hjobs, fun x => harr.busy.trans ?_⟩
      simp only [inPool_eq_some, and_assoc]
    · intro x T hx hp hf
      have hT := inPool_eq_some.mpr ⟨hx, hp⟩
      have hu := (harr.assigned hT).mp (harr.finished hT hf)
      exact ⟨hu, Int.lt_of_le_of_lt hu (harr.range hT).2⟩
    · intro i h0 h1
      have hcell := harr.handles i.toNat (by omega)
      rw [Int.toNat_of_nonneg h0] at hcell
      rw [CArray.get_eq h0 (by rw [harr.threads_size]; omega), hcell]
      simp
  · intro e hen hok hnone
    obtain ⟨r, t, heq, -⟩ := hs.exec hm.counted hen hok
    rw [hnone] at heq
    cases heq

/-- One worker runs a task, one task has finished and one waits. -/
def threeStages : List (Event Unit) :=
  [.newPool 0 1, .newTask 0, .newTask 1, .newTask 2, .push 0 0 [], .lock 0 0, .push 0 1 [],
    .push 0 2 [], .finish 0 0 0 (), .lock 0 0]

theorem taskArrayInvariant_threeStages : ∃ (s : State Unit) (P : Pool), s.pools 0 = some P ∧
    TaskArrayInvariant s 0 P ∧ P.unassignedTasksCount = 1 ∧ P.runningTasksCount = 1 ∧
    P.pushedTasksCount = 3 := by
  have hrun : (runEvents (fun (s : State Unit) e => DeletesEmpty s e) .init threeStages).any
      (fun (_, s) => (s.pools 0).any fun P => P.unassignedTasksCount = 1 ∧ P.runningTasksCount = 1 ∧
        P.pushedTasksCount = 3) := by decide
  obtain ⟨⟨ls, s⟩, hs, hr⟩ := (Option.any_eq_true _ _).mp hrun
  obtain ⟨P, hP, hr⟩ := (Option.any_eq_true _ _).mp hr
  have hls := run_of_runEvents hs
  simp only [decide_eq_true_eq] at hls hr
  exact ⟨s, P, hP, (taskArrayInvariant hls).1 0 P hP, hr⟩

end SystemsProgramming.ThreadPool

import SystemsProgramming.ThreadPool.Occupancy

/-! Deletion of a pool. The code checks the unassigned and the running tasks, sets the event that ends
the workers, broadcasts once and joins the threads. A pool is deleted in good order when it holds no
finished task either and when no worker is about to lock at the top of its loop; otherwise a task
keeps a pointer to a released pool, or a worker waits for good. -/

namespace SystemsProgramming.ThreadPool

open State Transition

variable {V : Type}

/-! ### Tasks of a deleted pool -/

/-- Every pool that a task refers to exists. -/
def NoDanglingPool (s : State V) : Prop :=
  ∀ x T p, s.tasks x = some T → T.parentPool = some p → (s.pools p).isSome

theorem threadPoolDelete_hasTasks {s : State V} {p : PoolId} {P : Pool} {r : Ret V} {t : State V}
    (hP : s.pools p = some P) (hn : 0 < P.pushedTasksCount)
    (h : CarefulStep s (.deletePool p, r) t) : r = .code .hasTasks ∧ t = s := by
  obtain ⟨hok, -, hex⟩ := h
  have hcheck : P.unassignedTasksCount > 0 ∨ P.runningTasksCount > 0 := by
    by_contra hz
    have := hok P hP hz
    omega
  simp only [exec, threadPoolDelete, hP, Option.bind_eq_bind, Option.bind_some, if_pos hcheck,
    Option.pure_def, Option.some.injEq, Prod.mk.injEq] at hex
  exact ⟨hex.1.symm, hex.2.symm⟩

/-- In a run whose deletions find empty pools no task refers to a deleted pool: a pool is released
only when no task is in it, and a deletion that finds a task fails and changes nothing. -/
theorem pool_deleted_empty {ls : List (Event V × Ret V)} {s : State V}
    (h : Run CarefulStep .init ls s) :
    NoDanglingPool s ∧ ∀ l t, CarefulStep s l t → ∀ p,
      (l.1 = .releasePool p → ∀ x T, s.tasks x = some T → T.parentPool ≠ some p) ∧
      (l.1 = .deletePool p → (∃ x T, s.tasks x = some T ∧ T.parentPool = some p) →
        l.2 = .code .hasTasks ∧ t = s) := by
  have hs : Sound s := .run h
  refine ⟨fun x T p hx hp => ?_, fun l t hstep p => ⟨fun hl x T hx hp => ?_, fun hl hin => ?_⟩⟩
  · exact Option.isSome_iff_exists.mpr (hs.home hx hp)
  · obtain ⟨-, hen, -⟩ := hstep
    rw [hl] at hen
    obtain ⟨P, hP, hd⟩ := (Option.any_eq_true _ _).mp hen
    obtain ⟨i, hi, -⟩ := (Option.any_eq_true _ _).mp hd
    obtain ⟨Q, hQ, hn, -⟩ := hs.deleting hi
    have := (hs.arranged hQ).range (inPool_eq_some.mpr ⟨hx, hp⟩)
    omega
  · obtain ⟨x, T, hx, hp⟩ := hin
    obtain ⟨P, hP⟩ := hs.home hx hp
    have := (hs.arranged hP).range (inPool_eq_some.mpr ⟨hx, hp⟩)
    obtain ⟨e, r⟩ := l
    obtain rfl : e = .deletePool p := hl
    exact threadPoolDelete_hasTasks hP (by omega) hstep

/-- A task is pushed, run and joined, and its pool is deleted. -/
def joinedThenDeleted : List (Event Unit) :=
  [.newPool 0 1, .newTask 0, .push 0 0 [], .lock 0 0, .finish 0 0 0 (), .lock 0 0, .join 0,
    .deletePool 0, .wake 0 0, .joinThread 0, .releasePool 0]

theorem pool_deleted_empty_joinedThenDeleted : ∃ (ls : List (Event Unit × Ret Unit))
    (s : State Unit), Run CarefulStep .init ls s ∧ s.pools 0 = none ∧ (s.tasks 0).isSome ∧
      NoDanglingPool s := by
  have hrun : (runEvents (fun (s : State Unit) e => DeletesEmpty s e) .init joinedThenDeleted).any
      fun (_, s) => (s.pools 0).isNone ∧ (s.tasks 0).isSome := by decide
  obtain ⟨⟨ls, s⟩, hs, hr⟩ := (Option.any_eq_true _ _).mp hrun
  have hls := run_of_runEvents hs
  simp only [decide_eq_true_eq, Option.isNone_iff_eq_none] at hls hr
  exact ⟨ls, s, hls, hr.1, hr.2, (pool_deleted_empty hls).1⟩

/-- The pool is deleted with its task finished and not joined. -/
def finishedThenDeleted : List (Event Unit) :=
  [.newPool 0 1, .newTask 0, .push 0 0 [], .lock 0 0, .finish 0 0 0 (), .lock 0 0, .deletePool 0,
    .wake 0 0, .joinThread 0, .releasePool 0]

theorem dangling_pool : ¬∀ (ls : List (Event Unit × Ret Unit)) (s : State Unit),
    Run Step .init ls s → NoDanglingPool s := by
  intro hall
  have hrun : (runEvents (fun _ _ => true) (.init : State Unit) finishedThenDeleted).any
      fun (_, s) => (s.pools 0).isNone ∧ (s.tasks 0).any fun T => T.parentPool = some 0 := by decide
  obtain ⟨⟨ls, s⟩, hs, hr⟩ := (Option.any_eq_true _ _).mp hrun
  simp only [Bool.decide_and, Bool.and_eq_true, decide_eq_true_eq] at hr
  obtain ⟨hnone, hr⟩ := hr
  obtain ⟨T, hT, hp⟩ := (Option.any_eq_true _ _).mp hr
  have := hall ls s (run_of_runEvents hs).of_restrict 0 T 0 hT (by simpa using hp)
  simp [Option.isNone_iff_eq_none.mp hnone] at this

/-! ### Workers of a pool being deleted -/

/-- While a pool is deleted no worker of it waits, and each one has left or leaves in its next
step. -/
def NoSleeper (s : State V) : Prop :=
  ∀ p P, s.pools p = some P → s.deletes p ≠ none → Worker.waiting ∉ P.workers ∧
    ∀ w phase, P.workers[w]? = some phase → phase = .exited ∨
      phase = .woken ∧ (exec s (.wake p w)).map Prod.fst = some .exits

/-- A deletion that passes its check finds no worker about to lock at the top of its loop, and no
task is pushed to a pool that is being deleted. -/
def DeletesIdle (s : State V) : Event V → Prop
  | .deletePool pool => ∀ P ∈ s.pools pool,
      ¬(P.unassignedTasksCount > 0 ∨ P.runningTasksCount > 0) → Worker.ready ∉ P.workers
  | .push pool _ _ => s.deletes pool = none
  | _ => True

instance (s : State V) : (e : Event V) → Decidable (DeletesIdle s e)
  | .deletePool pool => Option.decidableForallMem (s.pools pool)
  | .push pool _ _ => inferInstanceAs (Decidable (s.deletes pool = none))
  | .newPool .. | .newTask .. | .lock .. | .wake .. | .spurious .. | .finish .. | .join ..
  | .timedJoin .. | .joinWake .. | .joinSpurious .. | .joinTimeout .. | .detach .. | .deleteTask ..
  | .joinThread .. | .releasePool .. => .isTrue trivial

/-- The workers of a pool that is being deleted. -/
structure Staff.Leaving (σ : Staff) : Prop where
  event : σ.threadUpdateEvent = .tasksEnded
  phases : ∀ phase ∈ σ.workers, phase = .woken ∨ phase = .exited

/-- Of the steps of a worker only the one out of its loop is left. -/
theorem Staff.Leaving.work {σ σ' : Staff} (h : σ.Leaving) (hw : σ.Work σ') : σ'.Leaving := by
  have hqueue : ∀ w, ¬σ.AtQueue w := by
    rintro w (hr | ⟨-, hev⟩)
    · have := h.phases _ (List.mem_of_getElem? hr)
      simp at this
    · exact hev h.event
  cases hw with
  | take w task hq => exact absurd hq (hqueue w)
  | sleep w hq => exact absurd hq (hqueue w)
  | finish w task hr =>
    have := h.phases _ (List.mem_of_getElem? hr)
    simp at this
  | exit w hwk hev =>
    refine ⟨hev, fun phase hp => ?_⟩
    rcases List.mem_or_eq_of_mem_set hp with hp | rfl
    · exact h.phases phase hp
    · exact .inr rfl

/-- The broadcast finds every worker waiting or woken. -/
theorem Staff.Close.leaving {σ σ' : Staff} (h : σ.Close σ') (hc : σ.Counted)
    (hr : Worker.ready ∉ σ.workers) : σ'.Leaving := by
  cases h with
  | close hu hrun =>
    refine ⟨rfl, fun phase hp => ?_⟩
    obtain ⟨phase, hmem, rfl⟩ := List.mem_map.mp hp
    have hbusy : tally Worker.kind σ.workers .busy = 0 := by
      have : 0 ≤ tally Worker.kind σ.workers .busy := tally_nonneg _ _
      have := hc.running
      omega
    have hk := tally_eq_zero.mp hbusy phase hmem
    cases phase with
    | ready => exact absurd hmem hr
    | waiting => exact .inl rfl
    | woken => exact .inl rfl
    | running task => exact absurd rfl hk
    | exited => exact .inr rfl

/-- In every pool that is being deleted the workers are leaving. -/
def Emptying (s : State V) : Prop :=
  ∀ p i, s.deletes p = some i → ∃ σ, s.staff p = some σ ∧ σ.Leaving

theorem Emptying.step {s t : State V} {l : Event V × Ret V} (hi : Emptying s) (hm : Manned s)
    (h : restrict Step (fun s l => DeletesIdle s l.1) s l t) : Emptying t := by
  obtain ⟨hok, hstep⟩ := h
  intro p i hd
  cases step_staff hstep p with
  | stay _ hs hd' => rw [hs]; exact hi p i (hd' ▸ hd)
  | new n he h0 hn hs hd' =>
    -- the address was free, so no deletion of it was in progress
    obtain ⟨σ, hσ, -⟩ := hi p i (hd' ▸ hd)
    have hfree : s.pools p = none := by
      have := hstep.1
      rwa [he] at this
    simp [State.staff, hfree] at hσ
  | push σ σ' task chosen he hs ht hp hd' =>
    rw [he] at hok
    have hnone : s.deletes p = none := hok
    rw [hd', hnone] at hd
    cases hd
  | work σ σ' _ hs ht hw hd' =>
    obtain ⟨τ, hτ, hl⟩ := hi p i (hd' ▸ hd)
    rw [hs] at hτ
    cases hτ
    exact ⟨σ', ht, hl.work hw⟩
  | wake σ σ' w _ hs ht hw hd' =>
    obtain ⟨τ, hτ, hl⟩ := hi p i (hd' ▸ hd)
    rw [hs] at hτ
    cases hτ
    cases hw with
    | wake w hwait =>
      have := hl.phases _ (List.mem_of_getElem? hwait)
      simp at this
  | close σ σ' he hs ht hc hnone hd' =>
    refine ⟨σ', ht, hc.leaving (hm p σ hs).1 ?_⟩
    obtain ⟨P, hP, rfl⟩ := exists_pool hs
    rw [he] at hok
    refine hok P hP ?_
    cases hc with
    | close hu hr => exact not_or.mpr ⟨Int.not_lt.mpr hu, Int.not_lt.mpr hr⟩
  | joined j _ hj _ ht => rw [ht]; exact hi p j hj
  | released _ _ hd' =>
    rw [hd'] at hd
    cases hd

/-- In a run whose deletions find no worker about to lock, no worker sleeps through one. -/
theorem noSleeper {ls : List (Event V × Ret V)} {s : State V}
    (h : Run (restrict Step fun s l => DeletesIdle s l.1) .init ls s) : NoSleeper s := by
  have hinv : Manned s ∧ Emptying s := by
    refine h.invariant (I := fun s => Manned s ∧ Emptying s) ?_ fun t l u hi hs =>
      ⟨hi.1.step hs.2, hi.2.step hi.1 hs⟩
    exact ⟨manned_init, fun p i hd => by simp [State.init] at hd⟩
  intro p P hP hd
  obtain ⟨i, hi⟩ := Option.ne_none_iff_exists'.mp hd
  obtain ⟨σ, hσ, hl⟩ := hinv.2 p i hi
  rw [staff_eq hP] at hσ
  cases hσ
  constructor
  · intro hwait
    have := hl.phases _ hwait
    simp at this
  · intro w phase hw
    rcases hl.phases phase (List.mem_of_getElem? hw) with rfl | rfl
    · have hev : P.threadUpdateEvent = .tasksEnded := hl.event
      exact .inr ⟨rfl, by simp [exec, leaveWait, hP, hev]⟩
    · exact .inl rfl

/-- A worker waits when its pool is deleted. -/
def deletedWhileWaiting : List (Event Unit) :=
  [.newPool 0 1, .newTask 0, .push 0 0 [], .lock 0 0, .finish 0 0 0 (), .join 0, .lock 0 0,
    .deletePool 0]

theorem noSleeper_deletedWhileWaiting : ∃ (s : State Unit) (P : Pool), s.pools 0 = some P ∧
    s.deletes 0 = some 0 ∧ P.workers = [.woken] ∧ NoSleeper s := by
  have hrun : (runEvents (fun (s : State Unit) e => DeletesIdle s e) .init deletedWhileWaiting).any
      fun (_, s) => s.deletes 0 = some 0 ∧ (s.pools 0).any fun P => P.workers = [.woken] := by
    decide
  obtain ⟨⟨ls, s⟩, hs, hr⟩ := (Option.any_eq_true _ _).mp hrun
  have hls := run_of_runEvents hs
  simp only [Bool.decide_and, Bool.and_eq_true, decide_eq_true_eq, Option.any_eq_true] at hls hr
  obtain ⟨hd, P, hP, hw⟩ := hr
  exact ⟨s, P, hP, hd, hw, noSleeper hls⟩

/-- The worker has returned from its task and not yet locked when the pool is deleted. -/
def deletedBeforeLock : List (Event Unit) :=
  [.newPool 0 1, .newTask 0, .push 0 0 [], .lock 0 0, .finish 0 0 0 (), .join 0, .deletePool 0,
    .lock 0 0]

theorem sleeper_left : ¬∀ (ls : List (Event Unit × Ret Unit)) (s : State Unit),
    Run Step .init ls s → ∀ p P, s.pools p = some P → s.deletes p ≠ none →
      Worker.waiting ∉ P.workers := by
  intro hall
  have hrun : (runEvents (fun _ _ => true) (.init : State Unit) deletedBeforeLock).any
      fun (_, s) => s.deletes 0 = some 0 ∧ (s.pools 0).any fun P => P.workers = [.waiting] := by
    decide
  obtain ⟨⟨ls, s⟩, hs, hr⟩ := (Option.any_eq_true _ _).mp hrun
  simp only [Bool.decide_and, Bool.and_eq_true, decide_eq_true_eq, Option.any_eq_true] at hr
  obtain ⟨hd, P, hP, hw⟩ := hr
  exact hall ls s (run_of_runEvents hs).of_restrict 0 P hP (by simp [hd]) (by simp [hw])

end SystemsProgramming.ThreadPool

import SystemsProgramming.ThreadPool.Crew

/-! Wake-ups of an open pool over whole runs. Whatever the interleaving, queued tasks never wait
for workers that all sleep. The stronger properties that each queued task has a worker of its own,
among the sleeping workers or in the room for new threads, hold as long as no push meets a queue
that the workers on their way to it already have to share, and fail in the runs given here. -/

namespace SystemsProgramming.ThreadPool

open Transition

variable {V : Type}

/-- The counters of every pool are right, and a pool not being deleted is open. -/
def Manned (s : State V) : Prop :=
  ∀ pool σ, s.staff pool = some σ → σ.Counted ∧ (s.deletes pool = none → σ.Open)

theorem manned_init : Manned (.init : State V) := fun _ _ h => by simp [State.staff, State.init] at h

theorem Staff.Close.counted {σ σ' : Staff} (h : σ.Close σ') (hc : σ.Counted) : σ'.Counted := by
  obtain ⟨ht, hr, hu, hm, hroom⟩ := hc
  cases h with
  | close =>
    refine ⟨by simpa using ht, ?_, hu, hm, hroom⟩
    rw [tally_map_of_kind fun phase _ => by split <;> simp_all]
    exact hr

theorem Manned.step {s t : State V} {l : Event V × Ret V} (hi : Manned s) (h : Step s l t) :
    Manned t := by
  intro pool τ hτ
  cases step_staff h pool with
  | stay _ hs hd => rw [hs] at hτ; rw [hd]; exact hi pool τ hτ
  | new n _ h0 hn hs hd =>
    obtain rfl := Option.some.inj (hτ.symm.trans hs)
    exact ⟨.new h0 hn, fun _ => .new n⟩
  | push σ σ' _ _ _ hs ht hp hd =>
    obtain rfl := Option.some.inj (hτ.symm.trans ht)
    obtain ⟨hc, ho⟩ := hi pool σ hs
    exact ⟨hp.counted hc, fun hd' => hp.open (ho (hd ▸ hd'))⟩
  | work σ σ' _ hs ht hw hd =>
    obtain rfl := Option.some.inj (hτ.symm.trans ht)
    obtain ⟨hc, ho⟩ := hi pool σ hs
    exact ⟨hw.counted hc, fun hd' => hw.open (ho (hd ▸ hd'))⟩
  | wake σ σ' _ _ hs ht hw hd =>
    obtain rfl := Option.some.inj (hτ.symm.trans ht)
    obtain ⟨hc, ho⟩ := hi pool σ hs
    exact ⟨hw.counted hc, fun hd' => hw.open (ho (hd ▸ hd'))⟩
  | close σ σ' _ hs ht hcl _ hd =>
    obtain rfl := Option.some.inj (hτ.symm.trans ht)
    exact ⟨hcl.counted (hi pool σ hs).1, fun hd' => by simp [hd] at hd'⟩
  | joined i _ _ hd ht =>
    rw [ht] at hτ
    exact ⟨(hi pool τ hτ).1, fun hd' => by simp [hd] at hd'⟩
  | released _ ht => simp [ht] at hτ

theorem Manned.run {s t : State V} {ls : List (Event V × Ret V)} (hi : Manned s)
    (h : Run Step s ls t) : Manned t :=
  h.invariant hi fun _ _ _ hi hs => hi.step hs

/-- A push to an open pool finds its crew in a given condition. -/
def PushMeets (C : Crew → Prop) (s : State V) : Event V → Prop
  | .push pool _ _ => s.deletes pool = none → ∀ P ∈ s.pools pool, C P.staff.crew
  | _ => True

instance (C : Crew → Prop) [DecidablePred C] (s : State V) :
    (e : Event V) → Decidable (PushMeets C s e)
  | .push pool _ _ =>
    have : Decidable (∀ P ∈ s.pools pool, C P.staff.crew) := Option.decidableForallMem (s.pools pool)
    inferInstanceAs (Decidable (s.deletes pool = none → _))
  | .newPool .. | .newTask .. | .lock .. | .wake .. | .spurious .. | .finish .. | .join ..
  | .timedJoin .. | .joinWake .. | .joinSpurious .. | .joinTimeout .. | .detach .. | .deleteTask ..
  | .deletePool .. | .joinThread .. | .releasePool .. => .isTrue trivial

/-- The steps in which a push meets `C`. -/
abbrev StepMeeting (C : Crew → Prop) : State V → Event V × Ret V → State V → Prop :=
  restrict Step fun s l => PushMeets C s l.1

theorem stepMeeting_true {s t : State V} {ls : List (Event V × Ret V)} (h : Run Step s ls t) :
    Run (StepMeeting fun _ => True) s ls t := by
  refine h.mono fun s l t hs => ⟨?_, hs⟩
  obtain ⟨e, r⟩ := l
  cases e <;> simp [PushMeets]

/-- A property of crews that pushes and worker steps keep holds of every open pool. -/
theorem crew_invariant {J C : Crew → Prop} (hnew : ∀ n, J (.new n))
    (hpush : ∀ c c', c.Valid → J c → C c → c.Push c' → J c')
    (hwork : ∀ c c', c.Valid → J c → c.Work c' → J c') (hwake : ∀ c c', J c → c.Wake c' → J c')
    {ls : List (Event V × Ret V)}
    {s : State V} (h : Run (StepMeeting C) .init ls s) {pool : PoolId} {σ : Staff}
    (hσ : s.staff pool = some σ) (hd : s.deletes pool = none) : J σ.crew := by
  have hinv : Manned s ∧ ∀ pool σ, s.staff pool = some σ → s.deletes pool = none → J σ.crew := by
    refine h.invariant (I := fun s => Manned s ∧ ∀ pool σ, s.staff pool = some σ →
      s.deletes pool = none → J σ.crew) ?_ ?_
    · exact ⟨manned_init, fun _ _ h => by simp [State.staff, State.init] at h⟩
    rintro t l u ⟨hm, hJ⟩ ⟨hC, hstep⟩
    refine ⟨hm.step hstep, fun pool τ hτ hd => ?_⟩
    cases step_staff hstep pool with
    | stay _ hs hd' => rw [hs] at hτ; rw [hd'] at hd; exact hJ pool τ hτ hd
    | new n _ h0 hn hs hd' =>
      obtain rfl := Option.some.inj (hτ.symm.trans hs)
      exact hnew n
    | push σ σ' task chosen he hs ht hp hd' =>
      obtain rfl := Option.some.inj (hτ.symm.trans ht)
      rw [hd'] at hd
      obtain ⟨hc, ho⟩ := hm pool σ hs
      obtain ⟨P, hP, rfl⟩ := State.exists_pool hs
      rw [he] at hC
      exact hpush _ _ ((ho hd).valid hc) (hJ pool _ hs hd) (hC hd P hP) (hp.crew hc (ho hd))
    | work σ σ' _ hs ht hw hd' =>
      obtain rfl := Option.some.inj (hτ.symm.trans ht)
      rw [hd'] at hd
      obtain ⟨hc, ho⟩ := hm pool σ hs
      exact hwork _ _ ((ho hd).valid hc) (hJ pool σ hs hd) (hw.crew (ho hd))
    | wake σ σ' _ _ hs ht hw hd' =>
      obtain rfl := Option.some.inj (hτ.symm.trans ht)
      rw [hd'] at hd
      exact hwake _ _ (hJ pool σ hs hd) hw.crew
    | close σ σ' _ hs ht hcl _ hd' => simp [hd'] at hd
    | joined i _ _ hd' ht => simp [hd'] at hd
    | released _ ht => simp [ht] at hτ
  exact hinv.2 pool σ hσ hd

/-! ### Queued tasks are attended -/

theorem attended_of_run {ls : List (Event V × Ret V)} {s : State V} (h : Run Step .init ls s)
    {pool : PoolId} {σ : Staff} (hσ : s.staff pool = some σ) (hd : s.deletes pool = none) :
    σ.crew.Attended :=
  crew_invariant (fun _ h => absurd h (Int.lt_irrefl 0)) (fun _ _ hv h _ hs => h.push hv hs)
    (fun _ _ hv h hs => h.work hv hs) (fun _ _ h hs => h.wake hs) (stepMeeting_true h) hσ hd

theorem exists_kind_of_pos {l : List Worker} (h : 0 < tally Worker.kind l .awake +
    tally Worker.kind l .busy) :
    ∃ phase ∈ l, phase = .ready ∨ phase = .woken ∨ ∃ task, phase = .running task := by
  have ha : 0 ≤ tally Worker.kind l .awake := tally_nonneg _ _
  by_cases h0 : 0 < tally Worker.kind l .awake
  · obtain ⟨phase, hp, hk⟩ := tally_pos.mp h0
    refine ⟨phase, hp, ?_⟩
    cases phase <;> simp_all
  · obtain ⟨phase, hp, hk⟩ := tally_pos.mp (by omega : 0 < tally Worker.kind l .busy)
    refine ⟨phase, hp, ?_⟩
    cases phase <;> simp_all

/-- The steps of the workers of a pool. -/
abbrev WorkerStep (pool : PoolId) : State V → Event V × Ret V → State V → Prop :=
  restrict Step fun _ l => l.1.ByWorker pool

/-- With every worker inside a task's function or asleep and not woken, no task is queued while
one of them sleeps. -/
def NoLostWakeup (P : Pool) : Prop :=
  (∀ phase ∈ P.workers, phase = .waiting ∨ ∃ task, phase = .running task) →
    Worker.waiting ∈ P.workers → P.unassignedTasksCount = 0

/-- What a push must find for its task not to be left to a worker that sleeps on: no worker asleep,
the queue empty, or fewer tasks queued than workers on their way to them. -/
def Crew.RoomToSignal (c : Crew) : Prop := c.asleep = 0 ∨ c.queued = 0 ∨ c.queued < c.awake

instance : DecidablePred Crew.RoomToSignal := fun _ => inferInstanceAs (Decidable (_ ∨ _))

/-- No wake-up is lost in a run whose pushes all find room to signal. -/
theorem noLostWakeup {ls : List (Event V × Ret V)} {s : State V}
    (h : Run (StepMeeting Crew.RoomToSignal) .init ls s) {pool : PoolId} {P : Pool}
    (hP : s.pools pool = some P) (hd : s.deletes pool = none) : NoLostWakeup P := by
  intro hall hwait
  have hclaimed : P.staff.crew.Claimed :=
    crew_invariant (fun _ h => absurd h (Int.lt_irrefl 0)) (fun _ _ hv _ hok hs => .push hv hok hs)
      (fun _ _ _ h hs => h.work hs) (fun _ _ h hs => h.wake hs) h (State.staff_eq hP) hd
  have hle : P.unassignedTasksCount ≤ tally Worker.kind P.workers .awake :=
    hclaimed (tally_pos.mpr ⟨_, hwait, rfl⟩)
  have hnone : tally Worker.kind P.workers .awake = 0 := by
    refine tally_eq_zero.mpr fun phase hp => ?_
    obtain rfl | ⟨task, rfl⟩ := hall phase hp <;> simp
  have hnn := ((manned_init.run h.of_restrict) pool _ (State.staff_eq hP)).1.unassigned
  exact Int.le_antisymm (hnone ▸ hle) hnn

/-- Two workers become idle; after a push wakes one of them, the other sleeps next to an empty
queue. -/
def pushToSleepers : List (Event Unit) :=
  [.newPool 0 2, .newTask 0, .newTask 1, .newTask 2, .push 0 0 [], .lock 0 0, .push 0 1 [],
    .lock 0 1, .finish 0 0 0 (), .finish 0 1 1 (), .lock 0 0, .lock 0 1, .push 0 2 [0], .wake 0 0]

theorem noLostWakeup_pushToSleepers : ∃ (s : State Unit) (P : Pool), s.pools 0 = some P ∧
    NoLostWakeup P ∧ P.workers = [.running 2, .waiting] := by
  have hrun : (runEvents (fun (s : State Unit) e => PushMeets Crew.RoomToSignal s e) .init
      pushToSleepers).any (fun (_, s) => s.deletes 0 = none ∧
        (s.pools 0).any fun P => P.workers = [.running 2, .waiting]) := by decide
  obtain ⟨⟨ls, s⟩, hs, hr⟩ := (Option.any_eq_true _ _).mp hrun
  simp only [Bool.decide_and, Bool.and_eq_true, decide_eq_true_eq, Option.any_eq_true] at hr
  obtain ⟨hd, P, hP, hw⟩ := hr
  have hls := run_of_runEvents hs
  simp only [decide_eq_true_eq] at hls
  exact ⟨s, P, hP, noLostWakeup hls hP hd, hw⟩

/-- Two idle workers and two pushes: the second push finds the first one's signal not yet taken up
and sends none. -/
def burstOnSleepers : List (Event Unit) :=
  [.newPool 0 2, .newTask 0, .newTask 1, .newTask 2, .newTask 3, .push 0 0 [], .lock 0 0,
    .push 0 1 [], .lock 0 1, .finish 0 0 0 (), .finish 0 1 1 (), .lock 0 0, .lock 0 1,
    .push 0 2 [0], .push 0 3 [1], .wake 0 0]

theorem lost_wakeup : ¬∀ (ls : List (Event Unit × Ret Unit)) (s : State Unit),
    Run Step .init ls s → ∀ pool P, s.pools pool = some P → s.deletes pool = none →
      NoLostWakeup P := by
  intro hall
  have hrun : (runEvents (fun _ _ => true) .init burstOnSleepers).any (fun (_, s) =>
      s.deletes 0 = none ∧ (s.pools 0).any fun P => P.unassignedTasksCount = 1 ∧
        P.workers = [.running 2, .waiting]) := by decide
  obtain ⟨⟨ls, s⟩, hs, hr⟩ := (Option.any_eq_true _ _).mp hrun
  simp only [Bool.decide_and, Bool.and_eq_true, decide_eq_true_eq, Option.any_eq_true] at hr
  obtain ⟨hd, P, hP, hu, hw⟩ := hr
  have hls := run_of_runEvents hs
  have := hall ls s hls.of_restrict 0 P hP hd (by simp [hw]) (by simp [hw])
  omega

/-! ### A thread may be missing -/

/-- With every worker inside a task's function, a queued task means that no thread can be added. -/
def GrowsWhenNeeded (P : Pool) : Prop :=
  (∀ phase ∈ P.workers, ∃ task, phase = .running task) → 0 < P.unassignedTasksCount →
    P.threadCount = P.maxThreadCount

/-- What a push must find for its task to get a thread: no more threads to create, a thread created
by this push, or fewer tasks queued than idle workers. -/
def Crew.RoomToGrow (c : Crew) : Prop :=
  c.threads = c.capacity ∨ c.busy = c.threads ∨ c.queued + c.busy < c.threads

instance : DecidablePred Crew.RoomToGrow := fun _ => inferInstanceAs (Decidable (_ ∨ _))

/-- The pool grows when needed in a run whose pushes all find room to grow. -/
theorem growsWhenNeeded {ls : List (Event V × Ret V)} {s : State V}
    (h : Run (StepMeeting Crew.RoomToGrow) .init ls s) {pool : PoolId} {P : Pool}
    (hP : s.pools pool = some P) (hd : s.deletes pool = none) : GrowsWhenNeeded P := by
  intro hall hu
  obtain ⟨hc, ho⟩ := (manned_init.run h.of_restrict) pool _ (State.staff_eq hP)
  have hcovered : P.staff.crew.Covered :=
    crew_invariant (fun _ _ => Int.le_refl 0) (fun _ _ hv h hok hs => h.push hv hok hs)
      (fun _ _ _ h hs => h.work hs) (fun _ _ h hs => h.wake hs) h (State.staff_eq hP) hd
  have hasleep : tally Worker.kind P.workers .asleep = 0 := by
    refine tally_eq_zero.mpr fun phase hp => ?_
    obtain ⟨task, rfl⟩ := hall phase hp
    simp
  have hawake : tally Worker.kind P.workers .awake = 0 := by
    refine tally_eq_zero.mpr fun phase hp => ?_
    obtain ⟨task, rfl⟩ := hall phase hp
    simp
  by_contra hne
  have hlt : P.staff.crew.threads < P.maxThreadCount := by
    rw [(ho hd).threads hc]
    have hroom : P.threadCount ≤ P.maxThreadCount := hc.room
    show P.threadCount < P.maxThreadCount
    omega
  have hle : P.unassignedTasksCount ≤
    tally Worker.kind P.workers .asleep + tally Worker.kind P.workers .awake := hcovered hlt
  omega

/-- Two pushes, each of which finds all threads busy. -/
def steadyPushes : List (Event Unit) :=
  [.newPool 0 2, .newTask 0, .newTask 1, .newTask 2, .push 0 0 [], .lock 0 0, .push 0 1 [],
    .lock 0 1, .push 0 2 []]

theorem growsWhenNeeded_steadyPushes : ∃ (s : State Unit) (P : Pool), s.pools 0 = some P ∧
    GrowsWhenNeeded P ∧ P.workers = [.running 0, .running 1] ∧ P.unassignedTasksCount = 1 := by
  have hrun : (runEvents (fun (s : State Unit) e => PushMeets Crew.RoomToGrow s e) .init
      steadyPushes).any (fun (_, s) => s.deletes 0 = none ∧ (s.pools 0).any fun P =>
        P.workers = [.running 0, .running 1] ∧ P.unassignedTasksCount = 1) := by decide
  obtain ⟨⟨ls, s⟩, hs, hr⟩ := (Option.any_eq_true _ _).mp hrun
  simp only [Bool.decide_and, Bool.and_eq_true, decide_eq_true_eq, Option.any_eq_true] at hr
  obtain ⟨hd, P, hP, hw⟩ := hr
  have hls := run_of_runEvents hs
  simp only [decide_eq_true_eq] at hls
  exact ⟨s, P, hP, growsWhenNeeded hls hP hd, hw⟩

/-- Two pushes before the first thread has the lock: the second one sees an idle thread and creates
none. -/
def burstBeforeLock : List (Event Unit) :=
  [.newPool 0 2, .newTask 0, .newTask 1, .push 0 0 [], .push 0 1 [], .lock 0 0]

theorem thread_missing : ¬∀ (ls : List (Event Unit × Ret Unit)) (s : State Unit),
    Run Step .init ls s → ∀ pool P, s.pools pool = some P → s.deletes pool = none →
      GrowsWhenNeeded P := by
  intro hall
  have hrun : (runEvents (fun _ _ => true) .init burstBeforeLock).any (fun (_, s) =>
      s.deletes 0 = none ∧ (s.pools 0).any fun P => P.unassignedTasksCount = 1 ∧
        P.workers = [.running 0] ∧ P.threadCount ≠ P.maxThreadCount) := by decide
  obtain ⟨⟨ls, s⟩, hs, hr⟩ := (Option.any_eq_true _ _).mp hrun
  simp only [Bool.decide_and, Bool.and_eq_true, decide_eq_true_eq, Option.any_eq_true] at hr
  obtain ⟨hd, P, hP, hu, hw, hne⟩ := hr
  have hls := run_of_runEvents hs
  exact hne (hall ls s hls.of_restrict 0 P hP hd (by simp [hw]) (by omega))

end SystemsProgramming.ThreadPool

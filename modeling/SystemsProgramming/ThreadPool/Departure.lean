import SystemsProgramming.ThreadPool.Deletion

/-! A deletion in good order comes to its end. The workers of the pool leave, the loop of
`thread_pool_delete` joins them in the order of their handles, and the pool is released, in whichever order
the steps of these threads are made. -/

namespace SystemsProgramming.ThreadPool

open State Transition

variable {V : Type} {s t : State V} {p : PoolId} {l : Event V × Ret V} {i : ℤ}

/-- The deletions find their pools empty and no worker about to lock. -/
abbrev OrderlyStep : State V → Event V × Ret V → State V → Prop :=
  restrict Step fun s l => DeletesEmpty s l.1 ∧ DeletesIdle s l.1

/-- The steps of the workers of a pool and of the thread that deletes it. -/
def Event.Closing (p : PoolId) (e : Event V) : Prop :=
  e.ByWorker p ∨ e = .joinThread p ∨ e = .releasePool p

abbrev ClosingStep (p : PoolId) : State V → Event V × Ret V → State V → Prop :=
  restrict Step fun _ l => l.1.Closing p

theorem ClosingStep.orderly (h : ClosingStep p s l t) : OrderlyStep s l t := by
  obtain ⟨hc, hstep⟩ := h
  refine ⟨?_, hstep⟩
  obtain ⟨e, r⟩ := l
  rcases hc with hc | rfl | rfl
  · cases e <;> first | exact ⟨trivial, trivial⟩ | exact hc.elim
  · exact ⟨trivial, trivial⟩
  · exact ⟨trivial, trivial⟩

/-- What is known in a run whose deletions are in good order. -/
structure InOrder (s : State V) : Prop where
  sound : Sound s
  manned : Manned s
  emptying : Emptying s

theorem InOrder.step (h : InOrder s) (hstep : OrderlyStep s l t) : InOrder t where
  sound := (h.sound.step h.manned ⟨hstep.1.1, hstep.2⟩).1
  manned := h.manned.step hstep.2
  emptying := h.emptying.step h.manned ⟨hstep.1.2, hstep.2⟩

theorem InOrder.run {ls : List (Event V × Ret V)} (h : Run OrderlyStep .init ls s) : InOrder s :=
  h.invariant ⟨.init, manned_init, fun p i hd => by simp [State.init] at hd⟩ fun _ _ _ hi hs => hi.step hs

/-! ### What is left to do -/

/-- How many workers have to leave. -/
def Staff.staying (σ : Staff) : ℤ := tally id σ.workers .woken

/-- The workers that have to leave, the threads that have to be joined, and the release. -/
def Staff.closing (σ : Staff) (i : ℤ) : ℕ := σ.staying.toNat + (σ.threadCount - i).toNat + 1

/-- Of the steps of a worker only the one out of its loop is left, and one worker less has to leave. -/
theorem Staff.Leaving.closing_lt {σ σ' : Staff} (h : σ.Leaving) (hw : σ.Work σ') (i : ℤ) :
    σ'.closing i < σ.closing i := by
  have hphase : ∀ (w : ℕ) phase, σ.workers[w]? = some phase → phase = .woken ∨ phase = .exited :=
    fun w phase hw => h.phases phase (List.mem_of_getElem? hw)
  have hqueue : ∀ w, ¬σ.AtQueue w := by
    rintro w (hr | ⟨-, hev⟩)
    · simpa using hphase w _ hr
    · exact hev h.event
  cases hw with
  | take w task hq => exact absurd hq (hqueue w)
  | sleep w hq => exact absurd hq (hqueue w)
  | finish w task hr => simpa using hphase w _ hr
  | exit w hw hev =>
    have hpos : 0 < tally id σ.workers .woken := tally_pos.mpr ⟨_, List.mem_of_getElem? hw, rfl⟩
    simp only [Staff.closing, Staff.staying, tally_set hw]
    simp only [id_eq, reduceCtorEq, if_true, if_false]
    omega

/-- What a step of these threads leads to. -/
theorem ClosingStep.cases (h : ClosingStep p s l t) (hs : InOrder s) (hi : s.deletes p = some i) {σ : Staff}
    (hσ : s.staff p = some σ) :
    (∃ τ j, t.staff p = some τ ∧ t.deletes p = some j ∧ τ.closing j < σ.closing i) ∨
      l = (.releasePool p, .code .success) ∧ t.pools p = none ∧ t.deletes p = none := by
  obtain ⟨e, r⟩ := l
  obtain ⟨hc, hstep⟩ := h
  rcases hc with hc | rfl | rfl
  · cases step_staff hstep p with
    | stay hnot => exact absurd hc hnot
    | work τ τ' _ hτ hτ' hw hd =>
      obtain rfl := Option.some.inj (hσ.symm.trans hτ)
      obtain ⟨υ, hυ, hleaving⟩ := hs.emptying p i hi
      obtain rfl := Option.some.inj (hσ.symm.trans hυ)
      exact .inl ⟨τ', i, hτ', hd.trans hi, hleaving.closing_lt hw i⟩
    | new n he => rw [he] at hc; exact hc.elim
    | push _ _ _ _ he => rw [he] at hc; exact hc.elim
    | wake _ _ _ he => rw [he] at hc; exact hc.elim
    | close _ _ he => rw [he] at hc; exact hc.elim
    | joined _ he => rw [he] at hc; exact hc.elim
    | released he => rw [he] at hc; exact hc.elim
  · obtain ⟨⟨hlt, -⟩, hex⟩ := hstep
    simp only [exec, joinThread, Option.bind_eq_bind, Option.bind_eq_some_iff, Option.pure_def,
      Option.some.injEq, Prod.mk.injEq] at hex
    obtain ⟨j, hj, _, -, -, rfl⟩ := hex
    obtain rfl := Option.some.inj (hi.symm.trans hj)
    obtain ⟨P, hP, hlt⟩ := (Option.any_eq_true _ _).mp hlt
    obtain rfl := Option.some.inj (hσ.symm.trans (staff_eq hP))
    have hlt : i < P.threadCount := by simpa [hi] using hlt
    have hcount : P.staff.threadCount = P.threadCount := rfl
    refine .inl ⟨P.staff, i + 1, hσ, by simp [setDelete], ?_⟩
    simp only [Staff.closing]
    omega
  · obtain ⟨-, hex⟩ := hstep
    obtain ⟨rfl, rfl⟩ := Prod.mk.inj (Option.some.inj hex)
    exact .inr ⟨rfl, by simp [setDelete, freePool], by simp [setDelete]⟩

/-- There is always a step of a worker of the pool, or of the thread that deletes it. -/
theorem InOrder.exists_closingStep (h : InOrder s) (hi : s.deletes p = some i) :
    ∃ l t, ClosingStep p s l t := by
  have henabled : ∀ e : Event V, e.Closing p → Enabled s e → ∃ l t, ClosingStep p s l t := by
    intro e hc hen
    have hok : DeletesEmpty s e := by
      rcases hc with hc | rfl | rfl
      · cases e <;> trivial
      · trivial
      · trivial
    obtain ⟨r, t, hex, -⟩ := h.sound.exec h.manned.counted hen hok
    exact ⟨(e, r), t, hc, hen, hex⟩
  obtain ⟨P, hP, -, hi0⟩ := h.sound.deleting hi
  obtain ⟨σ, hσ, hleaving⟩ := h.emptying p i hi
  obtain rfl := Option.some.inj (hσ.symm.trans (staff_eq hP))
  have harr := h.sound.arranged hP
  have hlen : P.threadCount = P.workers.length := (h.manned.counted p P hP).threads
  by_cases hwoken : Worker.woken ∈ P.workers
  · obtain ⟨w, hw⟩ := List.mem_iff_getElem?.mp hwoken
    exact henabled (.wake p w) (.inl rfl) (by simp [Enabled, worker, hP, hw])
  by_cases hlt : i < P.threadCount
  · have hcell := harr.handles i.toNat (by omega)
    rw [Int.toNat_of_nonneg hi0] at hcell
    have hroom : P.threadCount ≤ P.maxThreadCount := (h.manned.counted p P hP).room
    have hget : P.threads.get i = some i.toNat := by
      rw [CArray.get_eq hi0 (by rw [harr.threads_size]; omega), hcell]
    have hlast : i.toNat < P.workers.length := by omega
    have hexited : P.workers[i.toNat]? = some .exited := by
      rw [List.getElem?_eq_getElem hlast]
      have hmem := List.getElem_mem hlast
      rcases hleaving.phases _ hmem with hphase | hphase
      · exact absurd (hphase ▸ hmem) hwoken
      · exact congrArg some hphase
    refine henabled (.joinThread p) (.inr (.inl rfl)) ⟨by simp [hP, hi, hlt], i.toNat, ?_, ?_⟩
    · simp [nextJoined, hP, hi, hget]
    · simp [worker, hP, hexited]
  · exact henabled (.releasePool p) (.inr (.inr rfl)) (by simpa [Enabled, hP, hi] using hlt)

/-- A pool that has been released has no threads. -/
theorem not_closingStep (hp : s.pools p = none) : ¬ClosingStep p s l t := by
  rintro ⟨hc, hen, -⟩
  obtain ⟨e, r⟩ := l
  rcases hc with hc | rfl | rfl
  · cases e <;> first | exact hc.elim | (obtain rfl : _ = p := hc; simp [Enabled, worker, hp] at hen)
  · simp [Enabled, hp] at hen
  · simp [Enabled, hp] at hen

/-- Once a deletion has begun in a run whose deletions are in good order, the workers of the pool and the
thread that deletes it make boundedly many steps, in every order of these, and they come to an end only by
the release of the pool. -/
theorem deletion_completes {ls : List (Event V × Ret V)} (h : Run OrderlyStep .init ls s)
    (hi : s.deletes p = some i) : ∃ n : ℕ, ∀ ms t, Run (ClosingStep p) s ms t → ms.length ≤ n ∧
      ((∀ l u, ¬ClosingStep p t l u) →
        (.releasePool p, .code .success) ∈ ms ∧ t.pools p = none ∧ t.deletes p = none) := by
  have hs : InOrder s := .run h
  obtain ⟨σ, hσ, -⟩ := hs.emptying p i hi
  refine ⟨σ.closing i, fun ms t hr => ?_⟩
  have hinv : InOrder t ∧ ((∃ τ j, t.staff p = some τ ∧ t.deletes p = some j ∧
      ms.length + τ.closing j ≤ σ.closing i) ∨
      ms.length ≤ σ.closing i ∧ (.releasePool p, .code .success) ∈ ms ∧ t.pools p = none ∧
        t.deletes p = none) := by
    refine hr.trace_invariant (I := fun ms t => InOrder t ∧ ((∃ τ j, t.staff p = some τ ∧
      t.deletes p = some j ∧ ms.length + τ.closing j ≤ σ.closing i) ∨
      ms.length ≤ σ.closing i ∧ (.releasePool p, .code .success) ∈ ms ∧ t.pools p = none ∧
        t.deletes p = none)) ⟨hs, .inl ⟨σ, i, hσ, hi, by simp⟩⟩ ?_
    rintro ms t l u - ⟨ht, hcase⟩ hstep
    refine ⟨ht.step hstep.orderly, ?_⟩
    rcases hcase with ⟨τ, j, hτ, hj, hle⟩ | ⟨-, -, hp, -⟩
    · rcases hstep.cases ht hj hτ with ⟨τ', j', hτ', hj', hlt⟩ | ⟨rfl, hp, hd⟩
      · refine .inl ⟨τ', j', hτ', hj', ?_⟩
        rw [List.length_append, List.length_singleton]
        omega
      · refine .inr ⟨?_, List.mem_append_right _ (List.mem_singleton_self _), hp, hd⟩
        have hpos : 1 ≤ τ.closing j := Nat.le_add_left 1 _
        rw [List.length_append, List.length_singleton]
        omega
    · exact absurd hstep (not_closingStep hp)
  obtain ⟨ht, ⟨τ, j, -, hj, hle⟩ | ⟨hle, hreleased⟩⟩ := hinv
  · refine ⟨by omega, fun hrest => ?_⟩
    obtain ⟨l, u, hstep⟩ := ht.exists_closingStep hj
    exact absurd hstep (hrest l u)
  · exact ⟨hle, fun _ => hreleased⟩

/-- Two workers wait when their pool is deleted. -/
def deletedWhileTwoWait : List (Event Unit) :=
  [.newPool 0 2, .newTask 0, .newTask 1, .push 0 0 [], .lock 0 0, .push 0 1 [], .lock 0 1, .finish 0 0 0 (),
    .finish 0 1 1 (), .join 0, .join 1, .lock 0 0, .lock 0 1, .deletePool 0]

theorem deletion_completes_deletedWhileTwoWait : ∃ (ls ms : List (Event Unit × Ret Unit)) (s t : State Unit),
    Run OrderlyStep .init ls s ∧ s.deletes 0 = some 0 ∧ (s.pools 0).isSome ∧ Run (ClosingStep 0) s ms t ∧
      (.releasePool 0, .code .success) ∈ ms ∧ t.pools 0 = none := by
  have hrun : (runEvents (fun (s : State Unit) e => DeletesEmpty s e ∧ DeletesIdle s e) .init
      deletedWhileTwoWait).any fun (_, s) => s.deletes 0 = some 0 ∧ (s.pools 0).isSome := by decide
  obtain ⟨⟨ls, s⟩, hs, hr⟩ := (Option.any_eq_true _ _).mp hrun
  have hls := run_of_runEvents hs
  simp only [decide_eq_true_eq] at hls hr
  obtain ⟨n, hn⟩ := deletion_completes hls hr.1
  obtain ⟨ms, t, hms, hrest⟩ := exists_run_final_of_bounded (fun t => ∀ l u, ¬ClosingStep 0 t l u)
    (fun ms t hms => (hn ms t hms).1) fun ms t _ hnot => by simpa using hnot
  obtain ⟨hmem, hp, -⟩ := (hn ms t hms).2 hrest
  exact ⟨ls, ms, s, t, hls, hr.1, hr.2, hms, hmem, hp⟩

end SystemsProgramming.ThreadPool

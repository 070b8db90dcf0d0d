import SystemsProgramming.ThreadPool.Calls
import SystemsProgramming.ThreadPool.Ledger
import Mathlib.Algebra.BigOperators.Group.Finset.Piecewise
import Mathlib.Algebra.Order.BigOperators.Group.Finset
import Mathlib.Algebra.Order.Ring.Int
import Mathlib.Data.Set.Finite.Basic

/-! The workers come to rest when nobody calls them. Then the queue of their pool is empty, and every task
that has been in it has been taken. If the clients make no further call at all, the joining threads that
have been woken come to rest too, and each task of a pool has been executed and each call of a joining
function has returned, in whichever order the steps are made. -/

namespace SystemsProgramming.ThreadPool

open State Transition

variable {V : Type} {s t : State V} {a x : TaskId} {p : PoolId} {l : Event V × Ret V}

/-- The steps of the workers and of the joining threads that have been woken. -/
def Event.Internal : Event V → Prop
  | .lock .. | .wake .. | .finish .. | .joinWake .. => True
  | _ => False

abbrev InternalStep : State V → Event V × Ret V → State V → Prop := restrict Step fun _ l => l.1.Internal

theorem InternalStep.careful (h : InternalStep s l t) : CarefulStep s l t := by
  obtain ⟨hin, hstep⟩ := h
  refine ⟨?_, hstep⟩
  obtain ⟨e, r⟩ := l
  cases e <;> trivial

/-! ### Coming to rest -/

/-- The steps that the workers of a pool may still make. -/
def State.pending (s : State V) (pool : PoolId) : ℤ := ((s.staff pool).map fun σ => σ.crew.pending).getD 0

/-- Whether a joining thread that has been woken has its step to make. -/
def State.called (s : State V) (task : TaskId) : ℤ := if (s.joins task).any (·.woken) then 1 else 0

/-- The pools that there are, and the tasks that are waited for. -/
structure Within (pools : Finset PoolId) (tasks : Finset TaskId) (s : State V) : Prop where
  pools : ∀ p, s.staff p ≠ none → p ∈ pools
  tasks : ∀ x, s.joins x ≠ none → x ∈ tasks

/-- What is left to do; a step of a worker may wake one joining thread. -/
def total (pools : Finset PoolId) (tasks : Finset TaskId) (s : State V) : ℤ :=
  2 * ∑ p ∈ pools, s.pending p + ∑ x ∈ tasks, s.called x

/-- An internal step is a worker's, in one pool, or that of a joining thread. -/
theorem InternalStep.staff (h : InternalStep s l t) (p : PoolId) :
    ¬l.1.ByWorker p ∧ t.staff p = s.staff p ∨
      l.1.ByWorker p ∧ ∃ σ σ', s.staff p = some σ ∧ t.staff p = some σ' ∧ σ.Work σ' := by
  obtain ⟨hin, hstep⟩ := h
  cases step_staff hstep p with
  | stay hnot hsame => exact .inl ⟨hnot, hsame⟩
  | work σ σ' hby hs ht hw => exact .inr ⟨hby, σ, σ', hs, ht, hw⟩
  | new n he => rw [he] at hin; exact hin.elim
  | push _ _ _ _ he => rw [he] at hin; exact hin.elim
  | wake _ _ _ he => rw [he] at hin; exact hin.elim
  | close _ _ he => rw [he] at hin; exact hin.elim
  | joined _ he => rw [he] at hin; exact hin.elim
  | released he => rw [he] at hin; exact hin.elim

theorem Within.step {pools : Finset PoolId} {tasks : Finset TaskId} (hw : Within pools tasks s)
    (h : InternalStep s l t) : Within pools tasks t where
  pools p hp := by
    rcases h.staff p with ⟨-, hsame⟩ | ⟨-, σ, σ', hσ, -⟩
    · exact hw.pools p (hsame ▸ hp)
    · exact hw.pools p (by simp [hσ])
  tasks x hx := by
    refine hw.tasks x fun hnone => hx ?_
    cases step_calls h.2 with
    | keep _ _ _ hj => rw [hj, hnone]
    | rouse _ b _ hj =>
      rw [hj, Function.update_apply]
      split_ifs with hxb
      · rw [← hxb, hnone]
        rfl
      · exact hnone
    | ends _ _ b _ hj => rw [hj, Function.update_apply]; split_ifs <;> simp [hnone]
    | waits e b call B he _ _ _ ht =>
      obtain ⟨hin, hen, -⟩ := h
      rcases he with rfl | rfl | rfl
      · exact hin.elim
      · exact hin.elim
      · obtain ⟨call', hcall, -⟩ := (Option.any_eq_true _ _).mp hen
        have hxb : x ≠ b := by
          rintro rfl
          rw [hnone] at hcall
          cases hcall
        rw [ht]
        exact (Function.update_of_ne hxb ..).trans hnone

theorem InternalStep.of_enabled (hs : Sound s) (hm : Manned s) {e : Event V} (he : e.Internal)
    (hen : Enabled s e) : ∃ r t, InternalStep s (e, r) t := by
  have hok : DeletesEmpty s e := by cases e <;> trivial
  obtain ⟨r, t, hex, -⟩ := hs.exec hm.counted hen hok
  exact ⟨r, t, he, hen, hex⟩

/-- A worker that is not asleep has a step to make. -/
theorem exists_workerStep [Nonempty V] (hs : Sound s) (hm : Manned s) {P : Pool} (hP : s.pools p = some P)
    (hphase : ∃ phase ∈ P.workers, phase = .ready ∨ phase = .woken ∨ ∃ task, phase = .running task) :
    ∃ l t, WorkerStep p s l t := by
  obtain ⟨phase, hmem, hphase⟩ := hphase
  obtain ⟨w, hw⟩ := List.mem_iff_getElem?.mp hmem
  have hworker : s.worker p w = some phase := by simp [worker, hP, hw]
  obtain ⟨e, hby, hin, hen⟩ : ∃ e : Event V, e.ByWorker p ∧ e.Internal ∧ Enabled s e := by
    rcases hphase with rfl | rfl | ⟨task, rfl⟩
    · exact ⟨.lock p w, rfl, trivial, hworker⟩
    · exact ⟨.wake p w, rfl, trivial, hworker⟩
    · obtain ⟨v⟩ := ‹Nonempty V›
      exact ⟨.finish p w task v, rfl, trivial, hworker⟩
  obtain ⟨r, t, -, hstep⟩ := InternalStep.of_enabled hs hm hin hen
  exact ⟨(e, r), t, hby, hstep⟩

theorem WorkerStep.careful (h : WorkerStep p s l t) : CarefulStep s l t := by
  obtain ⟨hby, hstep⟩ := h
  refine ⟨?_, hstep⟩
  obtain ⟨e, r⟩ := l
  cases e <;> trivial

/-- Where no worker of a pool has a step to make, its queue is empty. -/
theorem unassignedTasksCount_eq_zero [Nonempty V] {ls : List (Event V × Ret V)}
    (h : Run CarefulStep .init ls s) {P : Pool} (hP : s.pools p = some P)
    (hrest : ∀ l t, ¬WorkerStep p s l t) : P.unassignedTasksCount = 0 := by
  have hs : Sound s := .run h
  have hm : Manned s := manned_init.run h.of_restrict
  have harr := hs.arranged hP
  by_contra hne
  have hpos : 0 < P.unassignedTasksCount := by
    have hnonneg := harr.unassigned_nonneg
    omega
  have hopen : s.deletes p = none := hs.deletes_eq_none hP (by
    have hle := harr.unassigned_le
    omega)
  obtain ⟨l, t, hstep⟩ := exists_workerStep hs hm hP
    (exists_kind_of_pos (attended_of_run h.of_restrict (staff_eq hP) hopen hpos))
  exact hrest l t hstep

/-- A task in the queue of a pool. -/
def Queued (s : State V) (p : PoolId) (x : TaskId) : Prop :=
  ∃ A, s.record x = some A ∧ A.parentPool = some p ∧ A.assigned = false ∧ A.finished = false

theorem Sound.queued (hs : Sound s) {T : Task V} (hx : s.tasks x = some T) (hp : T.parentPool = some p)
    (hT : T.assigned = false) : Queued s p x := by
  obtain ⟨P, hP⟩ := hs.home hx hp
  refine ⟨T.bare, record_of_tasks hx, hp, hT, ?_⟩
  by_contra hf
  have hassigned := (hs.arranged hP).finished (inPool_eq_some.mpr ⟨hx, hp⟩) (by simpa [Task.bare] using hf)
  rw [hT] at hassigned
  cases hassigned

/-- It stays there until a worker takes it. -/
theorem Queued.step (h : Queued s p x) {c : Act V} (he : Effect s t c) : Queued t p x ∨ c = .take p x := by
  obtain ⟨B, hB, hp, hq, hf⟩ := h
  have hupdate : ∀ (b : TaskId) (A' : Option (Task V)), t.record = Function.update s.record b A' →
      (s.record b = some B → (∃ A, A' = some A ∧ A.parentPool = some p ∧ A.assigned = false ∧
        A.finished = false) ∨ c = .take p b) → Queued t p x ∨ c = .take p x := by
    intro b A' ht hA'
    by_cases hxb : x = b
    · subst hxb
      rcases hA' hB with ⟨A, hA, hAp⟩ | htake
      · exact .inl ⟨A, by rw [ht, Function.update_self, hA], hAp⟩
      · exact .inr htake
    · exact .inl ⟨B, by rw [ht, Function.update_of_ne hxb, hB], hp, hq, hf⟩
  cases he with
  | quiet ht => exact .inl ⟨B, ht ▸ hB, hp, hq, hf⟩
  | new b hb ht =>
    refine hupdate b _ ht fun hA => ?_
    cases hb.symm.trans hA
  | free b A hA hAp ht =>
    refine hupdate b _ ht fun hA' => ?_
    obtain rfl := Option.some.inj (hA.symm.trans hA')
    cases hAp.symm.trans hp
  | push q b A hA hAp ht =>
    refine hupdate b _ ht fun hA' => ?_
    obtain rfl := Option.some.inj (hA.symm.trans hA')
    cases hAp.symm.trans hp
  | take q b A hA hAp _ ht =>
    refine hupdate b _ ht fun hA' => .inr ?_
    obtain rfl := Option.some.inj (hA.symm.trans hA')
    rw [Option.some.inj (hAp.symm.trans hp)]
  | finish q b v A hA _ hA₁ _ _ ht =>
    refine hupdate b _ ht fun hA' => ?_
    obtain rfl := Option.some.inj (hA.symm.trans hA')
    cases hA₁.symm.trans hq
  | finishDetached q b v A hA _ hA₁ _ _ ht =>
    refine hupdate b _ ht fun hA' => ?_
    obtain rfl := Option.some.inj (hA.symm.trans hA')
    cases hA₁.symm.trans hq
  | join q b A hA _ hAf ht =>
    refine hupdate b _ ht fun hA' => ?_
    obtain rfl := Option.some.inj (hA.symm.trans hA')
    cases hAf.symm.trans hf
  | detach q b A hA _ hAf ht =>
    refine hupdate b _ ht fun hA' => ?_
    obtain rfl := Option.some.inj (hA.symm.trans hA')
    cases hAf.symm.trans hf
  | schedule q b A hA _ _ ht =>
    refine hupdate b _ ht fun hA' => .inl ⟨_, rfl, ?_⟩
    obtain rfl := Option.some.inj (hA.symm.trans hA')
    exact ⟨hp, hq, hf⟩

theorem act_eq_take (h : act l = .take p x) : ∃ e, l = (e, .took x) := by
  unfold act at h
  split at h <;> cases h <;> exact ⟨_, rfl⟩

theorem Queued.run (h : Queued s p x) (hs : Sound s) (hm : Manned s) {ms : List (Event V × Ret V)}
    (hr : Run CarefulStep s ms t) : Queued t p x ∨ ∃ e, (e, .took x) ∈ ms := by
  have hinv : Sound t ∧ Manned t ∧ (Queued t p x ∨ ∃ e, (e, .took x) ∈ ms) := by
    refine hr.trace_invariant (I := fun ms t => Sound t ∧ Manned t ∧
      (Queued t p x ∨ ∃ e, (e, .took x) ∈ ms)) ⟨hs, hm, .inl h⟩ ?_
    rintro ms t l u - ⟨hs, hm, h⟩ hstep
    have hstep' := hs.step hm hstep
    refine ⟨hstep'.1, hm.step hstep.2, ?_⟩
    rcases h with h | ⟨e, hmem⟩
    · rcases h.step hstep'.2 with h | hact
      · exact .inl h
      · obtain ⟨e, rfl⟩ := act_eq_take hact
        exact .inr ⟨e, List.mem_append_right _ (List.mem_singleton_self _)⟩
    · exact .inr ⟨e, List.mem_append_left _ hmem⟩
  exact hinv.2.2

/-- No worker and no joining thread that was woken has a step to make. -/
def AtRest (s : State V) : Prop := ∀ l t, ¬InternalStep s l t

theorem AtRest.not_enabled (h : AtRest s) (hs : Sound s) (hm : Manned s) {e : Event V} (he : e.Internal) :
    ¬Enabled s e := by
  intro hen
  obtain ⟨r, t, hstep⟩ := InternalStep.of_enabled hs hm he hen
  exact h (e, r) t hstep

theorem WorkerStep.internal (h : WorkerStep p s l t) : InternalStep s l t := by
  obtain ⟨hby, hstep⟩ := h
  refine ⟨?_, hstep⟩
  obtain ⟨e, r⟩ := l
  cases e <;> trivial

/-- All tasks of the pools have finished. -/
theorem AtRest.finished [Nonempty V] {ls : List (Event V × Ret V)} (hrest : AtRest s)
    (h : Run CarefulStep .init ls s) {T : Task V} (hx : s.tasks x = some T) (hp : T.parentPool = some p) :
    T.finished = true := by
  have hs : Sound s := .run h
  have hm : Manned s := manned_init.run h.of_restrict
  obtain ⟨v⟩ := ‹Nonempty V›
  obtain ⟨P, hP⟩ := hs.home hx hp
  have harr := hs.arranged hP
  have hin : s.inPool p x = some T := inPool_eq_some.mpr ⟨hx, hp⟩
  by_contra hf
  have hempty := unassignedTasksCount_eq_zero h hP fun l t hstep => hrest l t hstep.internal
  have ha : T.assigned = true := (harr.assigned hin).mpr (by
    rw [hempty]
    exact (harr.range hin).1)
  obtain ⟨w, hw, -⟩ := hs.worker_of_task hx hp ha (by simpa using hf)
  exact hrest.not_enabled hs hm (e := .finish p w x v) trivial hw

/-- Nobody waits for a task. -/
theorem AtRest.joins [Nonempty V] {ls : List (Event V × Ret V)} (hrest : AtRest s)
    (h : Run CarefulStep .init ls s) (x : TaskId) : s.joins x = none := by
  have hs : Sound s := .run h
  have hm : Manned s := manned_init.run h.of_restrict
  by_contra hne
  obtain ⟨call, hcall⟩ := Option.ne_none_iff_exists'.mp hne
  obtain ⟨A, hA, hp, -⟩ := hs.calls hcall
  obtain ⟨T, hT, rfl⟩ := record_eq_some hA
  obtain ⟨p, hp⟩ := Option.ne_none_iff_exists'.mp hp
  have hfinished := hrest.finished h hT hp
  have hwoken := Roused.run h x call T.bare hcall hA hfinished
  refine hrest.not_enabled hs hm (e := .joinWake x) trivial ?_
  simp [Enabled, hcall, hwoken]

/-- A task that is to finish in its pool stays so until it does. -/
def Unfinished (s : State V) (x : TaskId) : Prop :=
  ∃ A, s.record x = some A ∧ A.parentPool ≠ none ∧ A.finished = false

theorem Unfinished.step (h : Unfinished s x) {c : Act V} (he : Effect s t c) :
    Unfinished t x ∨ ∃ v d, c = .finish x v d := by
  obtain ⟨B, hB, hp, hf⟩ := h
  have hupdate : ∀ (b : TaskId) (A' : Option (Task V)), t.record = Function.update s.record b A' →
      (∀ A, s.record b = some A → A = B → (∃ A, A' = some A ∧ A.parentPool ≠ none ∧ A.finished = false) ∨
        ∃ v d, c = .finish b v d) → Unfinished t x ∨ ∃ v d, c = .finish x v d := by
    intro b A' ht hA'
    by_cases hxb : x = b
    · subst hxb
      rcases hA' B hB rfl with ⟨A, hA, hAp⟩ | hfinish
      · exact .inl ⟨A, by rw [ht, Function.update_self, hA], hAp⟩
      · exact .inr hfinish
    · exact .inl ⟨B, by rw [ht, Function.update_of_ne hxb, hB], hp, hf⟩
  cases he with
  | quiet ht => exact .inl ⟨B, ht ▸ hB, hp, hf⟩
  | new b hb ht =>
    refine hupdate b _ ht fun A hA _ => ?_
    rw [hb] at hA
    cases hA
  | free b A hA hAp ht =>
    refine hupdate b _ ht fun A' hA' heq => ?_
    obtain rfl := Option.some.inj (hA.symm.trans hA')
    exact absurd (heq ▸ hAp) hp
  | push q b A hA hAp ht =>
    refine hupdate b _ ht fun A' hA' heq => ?_
    obtain rfl := Option.some.inj (hA.symm.trans hA')
    exact absurd (heq ▸ hAp) hp
  | take q b A hA hAp hu ht =>
    refine hupdate b _ ht fun A' hA' heq => ?_
    obtain rfl := Option.some.inj (hA.symm.trans hA')
    subst heq
    exact .inl ⟨_, rfl, hp, hf⟩
  | finish q b v A _ _ _ _ _ ht => exact hupdate b _ ht fun _ _ _ => .inr ⟨v, false, rfl⟩
  | finishDetached q b v A _ _ _ _ _ ht => exact hupdate b _ ht fun _ _ _ => .inr ⟨v, true, rfl⟩
  | join q b A hA hAp hAf ht =>
    refine hupdate b _ ht fun A' hA' heq => ?_
    obtain rfl := Option.some.inj (hA.symm.trans hA')
    rw [heq, hf] at hAf
    cases hAf
  | detach q b A hA hAp hAf ht =>
    refine hupdate b _ ht fun A' hA' heq => ?_
    obtain rfl := Option.some.inj (hA.symm.trans hA')
    rw [heq, hf] at hAf
    cases hAf
  | schedule q b A hA hAp hAf ht =>
    refine hupdate b _ ht fun A' hA' heq => ?_
    obtain rfl := Option.some.inj (hA.symm.trans hA')
    subst heq
    exact .inl ⟨_, rfl, hp, hf⟩

theorem Unfinished.run (h : Unfinished s x) (hs : Sound s) (hm : Manned s) {ms : List (Event V × Ret V)}
    (hr : Run InternalStep s ms t) : Unfinished t x ∨ ∃ q w v r, (.finish q w x v, r) ∈ ms := by
  have hinv : Sound t ∧ Manned t ∧ (Unfinished t x ∨ ∃ q w v r, (.finish q w x v, r) ∈ ms) := by
    refine hr.trace_invariant (I := fun ms t => Sound t ∧ Manned t ∧
      (Unfinished t x ∨ ∃ q w v r, (.finish q w x v, r) ∈ ms)) ⟨hs, hm, .inl h⟩ ?_
    rintro ms t l u - ⟨hs, hm, h⟩ hstep
    have hstep' := hs.step hm hstep.careful
    refine ⟨hstep'.1, hm.step hstep.2, ?_⟩
    rcases h with h | ⟨q, w, v, r, hmem⟩
    · rcases h.step hstep'.2 with h | ⟨v, d, hact⟩
      · exact .inl h
      · obtain ⟨q, w, rfl⟩ := act_eq_finish hact
        exact .inr ⟨q, w, v, _, List.mem_append_right _ (List.mem_singleton_self _)⟩
    · exact .inr ⟨q, w, v, r, List.mem_append_left _ hmem⟩
  exact hinv.2.2

end SystemsProgramming.ThreadPool

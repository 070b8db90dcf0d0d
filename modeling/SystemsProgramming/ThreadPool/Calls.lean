import SystemsProgramming.ThreadPool.Occupancy

/-! The calls of the joining functions that are in progress. A step ends one of them, begins one, or wakes
one, and whoever waits for a task that has finished has been woken. -/

namespace SystemsProgramming.ThreadPool

open State Transition

variable {V : Type} {s t : State V} {a x : TaskId} {p : PoolId} {l : Event V × Ret V}

theorem modifyTask_joins {f : Task V → Task V} (h : s.modifyTask a f = some t) : t.joins = s.joins := by
  obtain ⟨_, -, rfl⟩ := Option.map_eq_some_iff.mp h
  rfl

theorem modifyPool_joins {f : Pool → Pool} (h : s.modifyPool p f = some t) : t.joins = s.joins := by
  obtain ⟨_, -, rfl⟩ := Option.map_eq_some_iff.mp h
  rfl

theorem swapTasksInPool_joins {b : TaskId} (h : swapTasksInPool a b s = some t) : t.joins = s.joins := by
  simp only [swapTasksInPool, Option.bind_eq_bind, Option.bind_eq_some_iff, Option.pure_def,
    Option.some.injEq] at h
  obtain ⟨_, -, _, -, _, -, _, -, _, -, s₁, hs₁, _, -, s₂, hs₂, rfl⟩ := h
  exact (modifyTask_joins hs₂).trans (modifyTask_joins hs₁)

theorem leavePool_joins (h : leavePool a s = some t) : t.joins = s.joins := by
  simp only [leavePool, Option.bind_eq_bind, Option.bind_eq_some_iff] at h
  obtain ⟨_, -, _, -, _, -, _, -, s₁, hs₁, s₂, hs₂, hs₃⟩ := h
  exact (modifyTask_joins hs₃).trans ((modifyPool_joins hs₂).trans (swapTasksInPool_joins hs₁))

theorem threadTaskJoinNoLock_joins {finished : Bool} (h : threadTaskJoinNoLock a s = some (finished, t)) :
    t.joins = s.joins := by
  obtain ⟨A, -, h⟩ := Option.bind_eq_some_iff.mp h
  split_ifs at h
  · obtain ⟨u, hu, h⟩ := Option.bind_eq_some_iff.mp h
    obtain ⟨-, rfl⟩ := Prod.mk.inj (Option.some.inj h)
    exact leavePool_joins hu
  · obtain ⟨-, rfl⟩ := Prod.mk.inj (Option.some.inj h)
    rfl

theorem threadTaskDelete_joins {r : Ret V} (h : threadTaskDelete a s = some (r, t)) : t.joins = s.joins := by
  obtain ⟨A, -, h⟩ := Option.bind_eq_some_iff.mp h
  split_ifs at h <;> obtain ⟨-, rfl⟩ := Prod.mk.inj (Option.some.inj h) <;> rfl

theorem threadPoolPushTask_joins {chosen : List ℕ} {r : Ret V}
    (h : threadPoolPushTask p a chosen s = some (r, t)) : t.joins = s.joins := by
  simp only [threadPoolPushTask, Option.bind_eq_bind, Option.bind_eq_some_iff] at h
  obtain ⟨P, -, h⟩ := h
  split_ifs at h
  · obtain ⟨-, rfl⟩ := Prod.mk.inj (Option.some.inj h)
    rfl
  · simp only [Option.bind_eq_some_iff, Option.pure_def, Option.some.injEq, Prod.mk.injEq] at h
    obtain ⟨s₁, hs₁, A, -, s₂, hs₂, P', -, first, -, s₃, hs₃, -, rfl⟩ := h
    have h₃ := swapTasksInPool_joins hs₃
    exact h₃.trans ((modifyTask_joins hs₂).trans (modifyTask_joins hs₁))

theorem threadTaskDetach_joins {r : Ret V} (h : threadTaskDetach a s = some (r, t)) : t.joins = s.joins := by
  obtain ⟨A, -, h⟩ := Option.bind_eq_some_iff.mp h
  split at h
  · obtain ⟨-, rfl⟩ := Prod.mk.inj (Option.some.inj h)
    rfl
  · obtain ⟨P, -, h⟩ := Option.bind_eq_some_iff.mp h
    split_ifs at h
    · simp only [Option.bind_eq_bind, Option.bind_eq_some_iff, Option.pure_def, Option.some.injEq,
        Prod.mk.injEq] at h
      obtain ⟨⟨_, s₁⟩, hs₁, ⟨_, s₂⟩, hs₂, -, rfl⟩ := h
      exact (threadTaskDelete_joins hs₂).trans (threadTaskJoinNoLock_joins hs₁)
    · obtain ⟨s₁, hs₁, h⟩ := Option.bind_eq_some_iff.mp h
      obtain ⟨-, rfl⟩ := Prod.mk.inj (Option.some.inj h)
      exact modifyTask_joins hs₁

/-- A joining thread in its loop returns, or waits for a task that has not finished. -/
theorem joinLoop_joins {timed : Bool} {r : Ret V} (h : joinLoop timed a s = some (r, t)) :
    (∃ v, r = .joined v) ∧ t.joins = Function.update s.joins a none ∨
      r = .waits ∧ ∃ A, s.tasks a = some A ∧ A.finished = false ∧
        t = s.setJoin a (some ⟨timed, false⟩) := by
  simp only [joinLoop, threadTaskJoinNoLock, Option.bind_eq_bind, Option.bind_eq_some_iff] at h
  obtain ⟨⟨finished, s₁⟩, ⟨A, hA, h₁⟩, h⟩ := h
  split_ifs at h₁ with hf
  · obtain ⟨s₂, hs₂, h₁⟩ := Option.bind_eq_some_iff.mp h₁
    obtain ⟨rfl, rfl⟩ := Prod.mk.inj (Option.some.inj h₁)
    simp only [if_true, Option.bind_eq_some_iff, Option.pure_def, Option.some.injEq, Prod.mk.injEq] at h
    obtain ⟨B, -, rfl, rfl⟩ := h
    refine .inl ⟨⟨_, rfl⟩, ?_⟩
    rw [← leavePool_joins hs₂]
    rfl
  · obtain ⟨rfl, rfl⟩ := Prod.mk.inj (Option.some.inj h₁)
    simp only [Bool.false_eq_true, if_false, Option.pure_def, Option.some.injEq, Prod.mk.injEq] at h
    obtain ⟨rfl, rfl⟩ := h
    exact .inr ⟨rfl, A, hA, by simpa using hf, rfl⟩

/-- Who waits for a task is woken when it has finished. -/
theorem finishTask_joins {w : ℕ} {v : V} {r : Ret V} (h : finishTask p w a v s = some (r, t)) :
    t.joins = Function.update s.joins a ((s.joins a).map fun call => { call with woken := true }) := by
  simp only [finishTask, Option.bind_eq_bind, Option.bind_eq_some_iff] at h
  obtain ⟨s₁, hs₁, s₂, hs₂, s₃, hs₃, T, -, h⟩ := h
  have h₂ : s₂.joins = s.joins := (modifyPool_joins hs₂).trans (modifyTask_joins hs₁)
  have h₃ : s₃.joins = Function.update s.joins a ((s.joins a).map fun call => { call with woken := true }) := by
    rw [modifyTask_joins hs₃, ← h₂]
    rfl
  split_ifs at h
  · simp only [Option.bind_eq_some_iff, Option.pure_def, Option.some.injEq, Prod.mk.injEq] at h
    obtain ⟨⟨_, s₄⟩, hs₄, ⟨_, s₅⟩, hs₅, s₆, hs₆, -, rfl⟩ := h
    exact (modifyPool_joins hs₆).trans
      ((threadTaskDelete_joins hs₅).trans ((threadTaskJoinNoLock_joins hs₄).trans h₃))
  · simp only [Option.bind_eq_some_iff, Option.pure_def, Option.some.injEq, Prod.mk.injEq] at h
    obtain ⟨s₄, hs₄, -, rfl⟩ := h
    exact (modifyPool_joins hs₄).trans h₃

/-- What a step does to the calls in progress. -/
inductive Calls (s t : State V) : Event V × Ret V → Prop
  | keep (l : Event V × Ret V) : (∀ q w b v, l.1 ≠ .finish q w b v) → (∀ b, l.1 ≠ .joinWake b) →
      t.joins = s.joins → Calls s t l
  | rouse (l : Event V × Ret V) (b : TaskId) : (∃ q w v, l.1 = .finish q w b v) ∨ l.1 = .joinSpurious b →
      t.joins = Function.update s.joins b ((s.joins b).map fun call => { call with woken := true }) →
      Calls s t l
  | ends (e : Event V) (r : Ret V) (b : TaskId) :
      (∃ v, r = .joined v ∧ (e = .join b ∨ e = .timedJoin b ∨ e = .joinWake b)) ∨ e = .joinTimeout b →
      t.joins = Function.update s.joins b none → Calls s t (e, r)
  | waits (e : Event V) (b : TaskId) (call : JoinCall) (B : Task V) :
      e = .join b ∨ e = .timedJoin b ∨ e = .joinWake b → s.tasks b = some B → B.finished = false →
      call.woken = false → t = s.setJoin b (some call) → Calls s t (e, .waits)

theorem joinLoop_calls {timed : Bool} {e : Event V} {r : Ret V} (h : joinLoop timed a s = some (r, t))
    (he : e = .join a ∨ e = .timedJoin a ∨ e = .joinWake a) : Calls s t (e, r) := by
  rcases joinLoop_joins h with ⟨⟨v, rfl⟩, hj⟩ | ⟨rfl, A, hA, hf, ht⟩
  · exact .ends e _ a (.inl ⟨v, rfl, he⟩) hj
  · exact .waits e a _ A he hA hf rfl ht

theorem joinEntry_calls {timed : Bool} {e : Event V} {r : Ret V} (h : joinEntry timed a s = some (r, t))
    (he : e = .join a ∨ e = .timedJoin a) : Calls s t (e, r) := by
  simp only [joinEntry, Option.bind_eq_bind, Option.bind_eq_some_iff] at h
  obtain ⟨A, -, h⟩ := h
  split at h
  · obtain ⟨-, rfl⟩ := Prod.mk.inj (Option.some.inj h)
    refine .keep _ ?_ ?_ rfl <;> intros <;> rcases he with rfl | rfl <;> simp
  · obtain ⟨_, -, h⟩ := Option.bind_eq_some_iff.mp h
    exact joinLoop_calls h (he.imp_right .inl)

theorem testQueue_joins {w : ℕ} {r : Ret V} (h : testQueue p w s = some (r, t)) : t.joins = s.joins := by
  simp only [testQueue, takeTask, Option.bind_eq_bind, Option.bind_eq_some_iff, Option.pure_def] at h
  obtain ⟨P, -, h⟩ := h
  split_ifs at h
  · obtain ⟨-, rfl⟩ := Prod.mk.inj (Option.some.inj h)
    rfl
  · simp only [Option.bind_eq_some_iff, Option.some.injEq, Prod.mk.injEq] at h
    obtain ⟨_, -, _, -, _, -, s₁, hs₁, s₂, hs₂, s₃, hs₃, s₄, hs₄, -, rfl⟩ := h
    have h₁ := swapTasksInPool_joins hs₁
    exact (modifyPool_joins hs₄).trans ((modifyTask_joins hs₃).trans ((modifyPool_joins hs₂).trans h₁))

theorem step_calls (h : Step s l t) : Calls s t l := by
  obtain ⟨e, r⟩ := l
  obtain ⟨-, hex⟩ := h
  cases e with
  | newPool q n =>
    refine .keep _ (by simp) (by simp) ?_
    simp only [exec, threadPoolNew, Option.some.injEq] at hex
    split_ifs at hex <;> obtain ⟨-, rfl⟩ := Prod.mk.inj hex <;> rfl
  | newTask b =>
    obtain ⟨-, rfl⟩ := Prod.mk.inj (Option.some.inj hex)
    exact .keep _ (by simp) (by simp) rfl
  | push q b chosen => exact .keep _ (by simp) (by simp) (threadPoolPushTask_joins hex)
  | lock q w => exact .keep _ (by simp) (by simp) (testQueue_joins hex)
  | wake q w =>
    refine .keep _ (by simp) (by simp) ?_
    simp only [exec, leaveWait, Option.bind_eq_bind, Option.bind_eq_some_iff] at hex
    obtain ⟨P, -, hex⟩ := hex
    split_ifs at hex
    · obtain ⟨-, rfl⟩ := Prod.mk.inj (Option.some.inj hex)
      rfl
    · exact testQueue_joins hex
  | spurious q w =>
    obtain ⟨u, hu, hex⟩ := Option.bind_eq_some_iff.mp hex
    obtain ⟨-, rfl⟩ := Prod.mk.inj (Option.some.inj hex)
    exact .keep _ (by simp) (by simp) (modifyPool_joins hu)
  | finish q w b v => exact .rouse _ b (.inl ⟨q, w, v, rfl⟩) (finishTask_joins hex)
  | join b => exact joinEntry_calls hex (.inl rfl)
  | timedJoin b => exact joinEntry_calls hex (.inr rfl)
  | joinWake b =>
    obtain ⟨call, -, hex⟩ := Option.bind_eq_some_iff.mp hex
    exact joinLoop_calls hex (.inr (.inr rfl))
  | joinSpurious b =>
    obtain ⟨-, rfl⟩ := Prod.mk.inj (Option.some.inj hex)
    exact .rouse _ b (.inr rfl) rfl
  | joinTimeout b =>
    obtain ⟨-, rfl⟩ := Prod.mk.inj (Option.some.inj hex)
    exact .ends _ _ b (.inr rfl) rfl
  | detach b => exact .keep _ (by simp) (by simp) (threadTaskDetach_joins hex)
  | deleteTask b => exact .keep _ (by simp) (by simp) (threadTaskDelete_joins hex)
  | deletePool q =>
    refine .keep _ (by simp) (by simp) ?_
    obtain ⟨P, -, hex⟩ := Option.bind_eq_some_iff.mp hex
    split_ifs at hex <;> obtain ⟨-, rfl⟩ := Prod.mk.inj (Option.some.inj hex) <;> rfl
  | joinThread q =>
    refine .keep _ (by simp) (by simp) ?_
    simp only [exec, joinThread, Option.bind_eq_bind, Option.bind_eq_some_iff, Option.pure_def,
      Option.some.injEq, Prod.mk.injEq] at hex
    obtain ⟨_, -, _, -, -, rfl⟩ := hex
    rfl
  | releasePool q =>
    obtain ⟨-, rfl⟩ := Prod.mk.inj (Option.some.inj hex)
    exact .keep _ (by simp) (by simp) rfl

/-! ### Who waits for a finished task is woken -/

/-- A finished task was finished before, or finishes in this step. -/
theorem Effect.finished {c : Act V} (h : Effect s t c) {B : Task V} (hB : t.record x = some B)
    (hf : B.finished = true) :
    (∃ A, s.record x = some A ∧ A.finished = true) ∨ ∃ v d, c = .finish x v d := by
  have hupdate : ∀ (b : TaskId) (A' : Option (Task V)), t.record = Function.update s.record b A' →
      (A' = some B → (∃ A, s.record b = some A ∧ A.finished = true) ∨ ∃ v d, c = .finish b v d) →
        (∃ A, s.record x = some A ∧ A.finished = true) ∨ ∃ v d, c = .finish x v d := by
    intro b A' ht hA'
    rw [ht, Function.update_apply] at hB
    split_ifs at hB with hxb
    · subst hxb
      exact hA' hB
    · exact .inl ⟨B, hB, hf⟩
  cases h with
  | quiet ht => exact .inl ⟨B, ht ▸ hB, hf⟩
  | new b hb ht =>
    refine hupdate b _ ht fun heq => ?_
    cases heq
    cases hf
  | free b A hA hp ht => exact hupdate b _ ht fun heq => by cases heq
  | push p b A hA hp ht =>
    refine hupdate b _ ht fun heq => ?_
    cases heq
    cases hf
  | take p b A hA hp hu ht =>
    refine hupdate b _ ht fun heq => .inl ⟨A, hA, ?_⟩
    cases heq
    exact hf
  | finish p b v A _ _ _ _ _ ht => exact hupdate b _ ht fun _ => .inr ⟨v, false, rfl⟩
  | finishDetached p b v A _ _ _ _ _ ht => exact hupdate b _ ht fun _ => .inr ⟨v, true, rfl⟩
  | join p b A hA hp hAf ht => exact hupdate b _ ht fun _ => .inl ⟨A, hA, hAf⟩
  | detach p b A hA hp hAf ht => exact hupdate b _ ht fun _ => .inl ⟨A, hA, hAf⟩
  | schedule p b A hA hp hAf ht =>
    refine hupdate b _ ht fun heq => .inl ⟨A, hA, ?_⟩
    cases heq
    exact hf

/-- Who waits for a finished task has been woken. -/
def Roused (s : State V) : Prop := ∀ x call A, s.joins x = some call → s.record x = some A →
  A.finished = true → call.woken = true

theorem act_eq_finish {v : V} {d : Bool} (h : act l = .finish x v d) :
    ∃ q w, l = (.finish q w x v, .returned d) := by
  unfold act at h
  split at h <;> cases h
  exact ⟨_, _, rfl⟩

theorem Roused.step (h : Roused s) (hs : Sound s) (hm : Manned s) (hstep : CarefulStep s l t) :
    Roused t := by
  intro x call B hj hB hf
  have he := (hs.step hm hstep).2
  -- a task that finishes in this step has its joining threads woken, so only the others are left
  have hbefore : t.joins x = s.joins x → (∀ q w v, l.1 ≠ .finish q w x v) → call.woken = true := by
    intro hsame hnot
    rcases he.finished hB hf with ⟨A, hA, hAf⟩ | ⟨v, d, hact⟩
    · exact h x call A (hsame ▸ hj) hA hAf
    · obtain ⟨q, w, rfl⟩ := act_eq_finish hact
      exact absurd rfl (hnot q w v)
  cases step_calls hstep.2 with
  | keep _ hfinish _ hsame => exact hbefore (by rw [hsame]) fun q w v => hfinish q w x v
  | rouse _ b hl hupdate =>
    rw [hupdate, Function.update_apply] at hj
    split_ifs at hj with hxb
    · obtain ⟨call', -, rfl⟩ := Option.map_eq_some_iff.mp hj
      rfl
    · refine hbefore (by rw [hupdate, Function.update_of_ne hxb]) fun q w v heq => ?_
      rcases hl with ⟨q', w', v', hl⟩ | hl
      · exact hxb (Event.finish.inj (heq.symm.trans hl)).2.2.1
      · cases heq.symm.trans hl
  | ends e r b hl hupdate =>
    rw [hupdate, Function.update_apply] at hj
    split_ifs at hj with hxb
    refine hbefore (by rw [hupdate, Function.update_of_ne hxb]) fun q w v heq => ?_
    rcases hl with ⟨v', -, hl | hl | hl⟩ | hl <;> cases heq.symm.trans hl
  | waits e b call' A hl hA hAf hw ht =>
    by_cases hxb : x = b
    · subst hxb
      obtain ⟨T, hT, rfl⟩ := record_eq_some hB
      rw [ht] at hT
      obtain rfl := Option.some.inj (hA.symm.trans hT)
      exact absurd hf (by simp [Task.bare, hAf])
    · refine hbefore (by rw [ht]; exact Function.update_of_ne hxb ..) fun q w v heq => ?_
      rcases hl with hl | hl | hl <;> cases heq.symm.trans hl

theorem Roused.run {ls : List (Event V × Ret V)} (h : Run CarefulStep .init ls s) : Roused s := by
  have hinv : Sound s ∧ Manned s ∧ Roused s :=
    h.invariant (I := fun s => Sound s ∧ Manned s ∧ Roused s)
      ⟨.init, manned_init, fun x call A hj => by simp [State.init] at hj⟩
      fun _ _ _ hi hs => ⟨(hi.1.step hi.2.1 hs).1, hi.2.1.step hs.2, hi.2.2.step hi.1 hi.2.1 hs⟩
  exact hinv.2.2

end SystemsProgramming.ThreadPool

import SystemsProgramming.Foundation.SwapQueue
import SystemsProgramming.ThreadPool.Occupancy

/-! The order in which the tasks of a pool are started. The tasks that are not assigned stand at the
front of the array: a push puts the new task behind them, a worker takes the first one and moves the last
one to its place, and nothing else moves them. So they wait in a queue of this kind, whose order is that
of the pushes as long as at most two tasks wait when one is taken. -/

namespace SystemsProgramming.ThreadPool

open State Transition

variable {V : Type}

/-- The unassigned tasks by their places. -/
def Pool.waiting (P : Pool) (i : ℕ) : Option TaskId :=
  if (i : ℤ) < P.unassignedTasksCount then P.tasks.cells i else none

def State.waiting (s : State V) (pool : PoolId) (i : ℕ) : Option TaskId :=
  (s.pools pool).bind fun P => P.waiting i

/-- The unassigned tasks of a pool as a list. -/
def Queue (s : State V) (pool : PoolId) (q : List TaskId) : Prop :=
  ∀ i : ℕ, q[i]? = s.waiting pool i

/-- What a step does to the queue of a pool. -/
def op (pool : PoolId) : Act V → Option (SwapQueue.Op TaskId)
  | .push p task => if p = pool then some (.push task) else none
  | .take p task => if p = pool then some (.take task) else none
  | _ => none

def ops (pool : PoolId) (ls : List (Event V × Ret V)) : List (SwapQueue.Op TaskId) :=
  ls.filterMap fun l => op pool (act l)

/-- The tasks are started in the order in which they were pushed. -/
def StartedInOrder (pool : PoolId) (ls : List (Event V × Ret V)) : Prop :=
  SwapQueue.takes (ops pool ls) <+: SwapQueue.pushes (ops pool ls)

/-! ### Sections that leave the queues as they are -/

variable {s t : State V} {a : TaskId} {p : PoolId} {P P' : Pool}

theorem waiting_congr (h : t.pools = s.pools) : t.waiting = s.waiting := by
  unfold State.waiting
  rw [h]

theorem waiting_setPool (hP : s.pools p = some P) (h : P'.waiting = P.waiting) :
    (s.setPool p P').waiting = s.waiting := by
  funext q i
  unfold State.waiting
  rw [pools_setPool]
  split_ifs with hq
  · rw [hq, hP, Option.bind_some, Option.bind_some, h]
  · rfl

theorem modifyTask_waiting {f : Task V → Task V} (h : s.modifyTask a f = some t) :
    t.waiting = s.waiting := by
  obtain ⟨T, -, rfl⟩ := Option.map_eq_some_iff.mp h
  rfl

theorem modifyPool_waiting {f : Pool → Pool} (h : s.modifyPool p f = some t)
    (hf : ∀ P, (f P).waiting = P.waiting) : t.waiting = s.waiting := by
  obtain ⟨P, hP, rfl⟩ := modifyPool_staff h
  exact waiting_setPool hP (hf P)

/-- Cells behind the queue are written. -/
theorem waiting_put {i : ℤ} (x : TaskId) (hi : P.unassignedTasksCount ≤ i) :
    { P with tasks := P.tasks.put i x }.waiting = P.waiting := by
  funext j
  unfold Pool.waiting
  dsimp only
  rw [CArray.cells_put]
  split_ifs with hj hji
  · omega
  · rfl
  · rfl

theorem swapTasksInPool_waiting {b : TaskId} {A B : Task V} (ha : s.tasks a = some A)
    (hb : s.tasks b = some B) (hp : A.parentPool = some p) (hP : s.pools p = some P)
    (hA : P.unassignedTasksCount ≤ A.indexInParentPool)
    (hB : P.unassignedTasksCount ≤ B.indexInParentPool) (h : swapTasksInPool a b s = some t) :
    t.waiting = s.waiting := by
  simp only [swapTasksInPool, ha, hb, hp, hP, Option.bind_eq_bind, Option.bind_some,
    Option.bind_eq_some_iff, Option.pure_def, Option.some.injEq] at h
  obtain ⟨c, hc, s₁, hs₁, d, hd, s₂, hs₂, rfl⟩ := h
  have hpools : s₂.pools = s.pools := by
    obtain ⟨_, -, rfl⟩ := Option.map_eq_some_iff.mp hs₁
    obtain ⟨_, -, rfl⟩ := Option.map_eq_some_iff.mp hs₂
    rfl
  rw [CArray.eq_put_of_set hd, CArray.eq_put_of_set hc]
  have hput : { P with tasks := (P.tasks.put A.indexInParentPool b).put B.indexInParentPool a
    }.waiting = P.waiting := by
    refine (waiting_put (P := { P with tasks := P.tasks.put A.indexInParentPool b }) a hB).trans ?_
    exact waiting_put b hA
  exact (waiting_setPool (by rw [hpools, hP]) hput).trans (waiting_congr hpools)

/-- The task and the last one of its pool stand behind the queue. -/
def Behind (s : State V) (a : TaskId) : Prop :=
  ∀ A p P, s.tasks a = some A → A.parentPool = some p → s.pools p = some P →
    P.unassignedTasksCount ≤ A.indexInParentPool ∧
      ∀ b B, P.tasks.get (P.pushedTasksCount - 1) = some b → s.tasks b = some B →
        P.unassignedTasksCount ≤ B.indexInParentPool

theorem leavePool_waiting (hb : Behind s a) (h : leavePool a s = some t) :
    t.waiting = s.waiting := by
  simp only [leavePool, Option.bind_eq_bind, Option.bind_eq_some_iff] at h
  obtain ⟨A, ha, p, hp, P, hP, b, hlast, s₁, hs₁, s₂, hs₂, hs₃⟩ := h
  obtain ⟨hA, hB⟩ := hb A p P ha hp hP
  obtain ⟨B, hBs⟩ : ∃ B, s.tasks b = some B := by
    simp only [swapTasksInPool, Option.bind_eq_bind, Option.bind_eq_some_iff] at hs₁
    obtain ⟨_, -, B, hB, -⟩ := hs₁
    exact ⟨B, hB⟩
  have hswap := swapTasksInPool_waiting ha hBs hp hP hA (hB b B hlast hBs) hs₁
  exact ((modifyTask_waiting hs₃).trans (modifyPool_waiting hs₂ fun _ => rfl)).trans hswap

/-- A finished task stands behind the queue, and so does the last one then. -/
theorem Housed.behind (h : Housed s) {A : Task V} (ha : s.tasks a = some A)
    (hA : A.assigned = true) : Behind s a := by
  intro A' p P ha' hp hP
  obtain rfl := Option.some.inj (ha.symm.trans ha')
  have harr := h.arranged hP
  have hin := inPool_eq_some.mpr ⟨ha, hp⟩
  have hu := (harr.assigned hin).mp hA
  have hlt := (harr.range hin).2
  refine ⟨hu, fun b B hlast hB => ?_⟩
  obtain ⟨c, C, hcell, hC, hCi⟩ := harr.filled (i := P.pushedTasksCount - 1) (by
    have := harr.unassigned_nonneg
    omega) (by omega)
  rw [harr.get (by have := harr.unassigned_nonneg; omega) (by omega), hcell] at hlast
  obtain rfl := Option.some.inj hlast
  obtain rfl := Option.some.inj (hB.symm.trans (inPool_eq_some.mp hC).1)
  omega

theorem Leaves.waiting (h : Leaves a s t)
    (hb : ∀ A, s.tasks a = some A → A.finished = true → Behind s a) : t.waiting = s.waiting := by
  rcases h with ⟨hp, -⟩ | ⟨A, u, ha, hf, hu, hp, -⟩
  · exact waiting_congr hp
  · exact (waiting_congr hp).trans (leavePool_waiting (hb A ha hf) hu)

theorem Behind.modifyTask (h : Behind s a) {b : TaskId} {f : Task V → Task V}
    (ht : s.modifyTask b f = some t) (hf : ∀ T, (f T).indexInParentPool = T.indexInParentPool ∧
      (f T).parentPool = T.parentPool) : Behind t a := by
  obtain ⟨B, hB, rfl⟩ := Option.map_eq_some_iff.mp ht
  have hplace {x : TaskId} {T : Task V} (hx : (s.setTask b (f B)).tasks x = some T) :
      ∃ T', s.tasks x = some T' ∧ T'.indexInParentPool = T.indexInParentPool ∧
        T'.parentPool = T.parentPool := by
    simp only [setTask, Function.update_apply] at hx
    split_ifs at hx with hxb
    · cases hx
      obtain ⟨hi, hp⟩ := hf B
      exact ⟨B, hxb ▸ hB, hi.symm, hp.symm⟩
    · exact ⟨T, hx, rfl, rfl⟩
  intro A p P ha hp hP
  obtain ⟨A', hA', hAi, hAp⟩ := hplace ha
  obtain ⟨hA, hlast⟩ := h A' p P hA' (hAp.trans hp) hP
  refine ⟨hAi ▸ hA, fun c C hc hC => ?_⟩
  obtain ⟨C', hC', hCi, -⟩ := hplace hC
  exact hCi ▸ hlast c C' hc hC'

theorem Behind.modifyPool (h : Behind s a) {f : Pool → Pool} (ht : s.modifyPool p f = some t)
    (hf : ∀ P, (f P).tasks = P.tasks ∧ (f P).unassignedTasksCount = P.unassignedTasksCount ∧
      (f P).pushedTasksCount = P.pushedTasksCount) : Behind t a := by
  obtain ⟨Q, hQ, rfl⟩ := modifyPool_staff ht
  intro A q P ha hq hP
  rw [pools_setPool] at hP
  split_ifs at hP with hqp
  · cases hP
    obtain ⟨htasks, hu, hn⟩ := hf Q
    rw [htasks, hu, hn]
    exact h A q Q ha hq (hqp ▸ hQ)
  · exact h A q P ha hq hP

theorem finishTask_waiting (hb : Behind s a) {w : ℕ} {v : V} {r : Ret V}
    (h : finishTask p w a v s = some (r, t)) : t.waiting = s.waiting := by
  obtain ⟨s₁, s₂, s₃, s₄, hs₁, hs₂, hs₃, hl, hs₅⟩ := finishTask_cases h
  have hb₂ : Behind s₂ a :=
    (hb.modifyTask hs₁ fun _ => ⟨rfl, rfl⟩).modifyPool hs₂ fun _ => ⟨rfl, rfl, rfl⟩
  have hb₃ : Behind s₃ a :=
    Behind.modifyTask (s := broadcastJustFinished a s₂) hb₂ hs₃ fun _ => ⟨rfl, rfl⟩
  have hw₃ : s₃.waiting = (broadcastJustFinished a s₂).waiting := modifyTask_waiting hs₃
  calc t.waiting = s₄.waiting := modifyPool_waiting hs₅ fun _ => rfl
    _ = s₃.waiting := hl.waiting fun _ _ _ => hb₃
    _ = s₂.waiting := hw₃
    _ = s₁.waiting := modifyPool_waiting hs₂ fun _ => rfl
    _ = s.waiting := modifyTask_waiting hs₁

/-- Nothing waits in a new pool. -/
theorem waiting_newPool (hp : s.pools p = none) (n : ℤ) :
    (s.setPool p (.new n)).waiting = s.waiting := by
  funext q i
  unfold State.waiting
  rw [pools_setPool]
  split_ifs with hq
  · have hi : ¬(i : ℤ) < 0 := by omega
    rw [hq, hp, Option.bind_some, Pool.waiting]
    exact if_neg hi
  · rfl

/-- Nothing waits in a pool that may be released. -/
theorem waiting_releasePool (h : Housed s) (hP : s.pools p = some P)
    (hn : P.pushedTasksCount = 0) : (releasePool p s).2.waiting = s.waiting := by
  funext q i
  simp only [State.waiting, releasePool, setDelete, freePool, Function.update_apply]
  split_ifs with hq
  · have hle := (h.arranged hP).unassigned_le
    have hi : ¬(i : ℤ) < P.unassignedTasksCount := by omega
    rw [hq, hP, Option.bind_some, Pool.waiting, if_neg hi]
    rfl
  · rfl

/-! ### Sections that move the queue -/

variable {q : List TaskId}

theorem Queue.of_waiting (h : Queue s p q) (hw : t.waiting = s.waiting) : Queue t p q := by
  unfold Queue
  rw [hw]
  exact h

theorem queue_iff (hP : s.pools p = some P) : Queue s p q ↔ ∀ i : ℕ, q[i]? = P.waiting i := by
  unfold Queue State.waiting
  rw [hP]
  rfl

/-- The queue is as long as the counter says. -/
theorem Queue.length (h : Queue s p q) (hP : s.pools p = some P)
    (harr : Arranged P (s.inPool p)) : (q.length : ℤ) = P.unassignedTasksCount := by
  rw [queue_iff hP] at h
  have h0 := harr.unassigned_nonneg
  have hle := harr.unassigned_le
  rcases Int.lt_trichotomy q.length P.unassignedTasksCount with hlt | heq | hgt
  · obtain ⟨x, T, hcell, -⟩ := harr.filled (i := q.length) (by omega) (by omega)
    have hx := h q.length
    rw [Pool.waiting, if_pos hlt, hcell, List.getElem?_eq_none (Nat.le_refl _)] at hx
    cases hx
  · exact heq
  · obtain ⟨n, hn⟩ := Int.eq_ofNat_of_zero_le h0
    have hx := h n
    rw [Pool.waiting, if_neg (by omega), List.getElem?_eq_getElem (by omega)] at hx
    cases hx

/-- The tasks that wait are tasks of the pool. -/
theorem Queue.inPool (h : Queue s p q) (hP : s.pools p = some P)
    (harr : Arranged P (s.inPool p)) {x : TaskId} (hx : x ∈ q) : ∃ T, s.inPool p x = some T := by
  obtain ⟨i, hi⟩ := List.mem_iff_getElem?.mp hx
  rw [(queue_iff hP).mp h i, Pool.waiting] at hi
  split_ifs at hi with hlt
  obtain ⟨y, T, hcell, hT, -⟩ := harr.filled (Int.natCast_nonneg i)
    (Int.lt_of_lt_of_le hlt harr.unassigned_le)
  rw [hcell] at hi
  cases hi
  exact ⟨T, hT⟩

/-- The queue of every pool follows what the step is seen to do. -/
def Follows (s t : State V) (c : Act V) : Prop :=
  ∀ pool q, Queue s pool q → ∃ q', Run SwapQueue.Step q (op pool c).toList q' ∧ Queue t pool q'

theorem Follows.quiet {c : Act V} (hw : t.waiting = s.waiting) (hc : ∀ pool, op pool c = none) :
    Follows s t c := by
  intro pool q hq
  rw [hc]
  exact ⟨q, .nil, hq.of_waiting hw⟩

/-- Only the queue of one pool moves. -/
theorem Follows.of_op {c : Act V} {o : SwapQueue.Op TaskId} {f : TaskId → Task V → Task V}
    (ho : ∀ pool, op pool c = if p = pool then some o else none)
    (hq : ∀ q, Queue s p q → ∃ q', SwapQueue.Step q o q' ∧
      Queue ((s.mapTasks f).setPool p P) p q') : Follows s ((s.mapTasks f).setPool p P) c := by
  intro pool q hs
  rw [ho]
  split_ifs with hp
  · obtain ⟨q', hstep, hq'⟩ := hq q (hp ▸ hs)
    exact ⟨q', .single hstep, hp ▸ hq'⟩
  · refine ⟨q, .nil, fun i => (hs i).trans ?_⟩
    unfold State.waiting
    rw [pools_setPool, if_neg (Ne.symm hp)]
    rfl

/-- The first task is taken, and the last one of the queue stands in its place. -/
theorem Pool.waiting_take {rest : List TaskId} {b : TaskId} {Q : Pool}
    (hq : ∀ i : ℕ, (a :: rest)[i]? = P.waiting i)
    (hlen : (rest.length : ℤ) = P.unassignedTasksCount - 1)
    (hlast : P.tasks.cells (P.unassignedTasksCount - 1) = some b)
    (htasks : Q.tasks = (P.tasks.put 0 b).put (P.unassignedTasksCount - 1) a)
    (hu : Q.unassignedTasksCount = P.unassignedTasksCount - 1) (i : ℕ) :
    (SwapQueue.refill rest)[i]? = Q.waiting i := by
  have hrest (j : ℕ) (hj : j < rest.length) : rest[j]? = P.tasks.cells (j + 1 : ℕ) := by
    have hnext := hq (j + 1)
    rwa [List.getElem?_cons_succ, Pool.waiting, if_pos (by omega)] at hnext
  rw [SwapQueue.getElem?_refill]
  unfold Pool.waiting
  rw [htasks, hu, CArray.cells_put, CArray.cells_put]
  by_cases hi : i < rest.length
  · have hlt : (i : ℤ) < P.unassignedTasksCount - 1 := by omega
    have hne : (i : ℤ) ≠ P.unassignedTasksCount - 1 := by omega
    rw [if_pos hi, if_pos hlt, if_neg hne]
    by_cases h0 : i = 0
    · rw [if_pos h0, if_pos (by exact_mod_cast h0), hrest _ (by omega), ← hlast]
      congr 1
      omega
    · rw [if_neg h0, if_neg (by exact_mod_cast h0), hrest _ (by omega)]
      congr 1
      omega
  · have hge : ¬(i : ℤ) < P.unassignedTasksCount - 1 := by omega
    rw [if_neg hi, if_neg hge]
    split_ifs
    · exact List.getElem?_eq_none (by omega)
    · rfl

/-- A worker waits and the queue is as before, or it takes the first task. -/
theorem testQueue_follows (h : Housed s) (hP : s.pools p = some P) {w : ℕ} {r : Ret V}
    (ht : testQueue p w s = some (r, t)) :
    r = .waits ∧ t.waiting = s.waiting ∨ ∃ a, r = .took a ∧ Follows s t (.take p a) := by
  rcases testQueue_eq h hP w with ⟨-, heq⟩ | ⟨hu0, a, A, b, B, hfirst, -, -, hlast, -, -, heq⟩
  · rw [heq] at ht
    cases ht
    exact .inl ⟨rfl, waiting_setPool hP rfl⟩
  rw [heq] at ht
  cases ht
  refine .inr ⟨a, rfl, .of_op (o := .take a) (fun _ => rfl) fun q hq => ?_⟩
  have hlen := hq.length hP (h.arranged hP)
  rw [queue_iff hP] at hq
  obtain ⟨rest, rfl⟩ : ∃ rest, q = a :: rest := by
    have h0 : q[0]? = some a := by
      rw [hq 0, Pool.waiting, if_pos (by simpa using hu0)]
      exact hfirst
    cases q with
    | nil => simp at h0
    | cons c rest => exact ⟨rest, by rw [Option.some.inj h0]⟩
  rw [List.length_cons] at hlen
  refine ⟨_, .take, (queue_iff (pools_setPool_self ..)).mpr ?_⟩
  exact Pool.waiting_take hq (by omega) hlast rfl rfl

/-- The new task stands behind the others. -/
theorem Pool.waiting_push {b : TaskId} {Q : Pool} (hq : ∀ i : ℕ, q[i]? = P.waiting i)
    (hlen : (q.length : ℤ) = P.unassignedTasksCount)
    (hle : P.unassignedTasksCount ≤ P.pushedTasksCount)
    (hb : P.unassignedTasksCount = P.pushedTasksCount → b = a)
    (htasks : Q.tasks = ((P.tasks.put P.pushedTasksCount a).put P.unassignedTasksCount a).put
      P.pushedTasksCount b)
    (hu : Q.unassignedTasksCount = P.unassignedTasksCount + 1) (i : ℕ) :
    (q ++ [a])[i]? = Q.waiting i := by
  unfold Pool.waiting
  rw [htasks, hu, CArray.cells_put, CArray.cells_put, CArray.cells_put]
  rcases Nat.lt_trichotomy i q.length with hlt | rfl | hgt
  · rw [List.getElem?_append_left hlt, hq, Pool.waiting, if_pos (by omega), if_pos (by omega),
      if_neg (by omega), if_neg (by omega), if_neg (by omega)]
  · rw [List.getElem?_concat_length, if_pos (by omega)]
    split_ifs with hn
    · rw [hb (by omega)]
    · rfl
  · rw [if_neg (by omega)]
    exact List.getElem?_eq_none (by simp; omega)

theorem threadPoolPushTask_follows (h : Housed s) (hP : s.pools p = some P)
    (hc : P.staff.Counted) {A : Task V} (ha : s.tasks a = some A) (hAp : A.parentPool = none)
    {chosen : List ℕ} {r : Ret V} (ht : threadPoolPushTask p a chosen s = some (r, t)) :
    r = .code .tooManyTasks ∧ t = s ∨ r = .code .success ∧ Follows s t (.push p a) := by
  have harr := h.arranged hP
  by_cases hn : P.pushedTasksCount ≥ tpoolMaxTasks
  · rw [threadPoolPushTask_full hP hn] at ht
    cases ht
    exact .inl ⟨rfl, rfl⟩
  obtain ⟨Q, hQ, -⟩ := harr.createOrSignal hc a chosen
  obtain ⟨-, hQu, -⟩ := Pool.createOrSignal_frame hQ
  have hnone := inPool_eq_none ha hAp p
  obtain ⟨b, hb⟩ := harr.exists_trades hnone
  rw [threadPoolPushTask_of_trades harr hP ha (by omega) hQ hb] at ht
  cases ht
  refine .inr ⟨rfl, .of_op (o := .push a) (fun _ => rfl) fun q hq => ?_⟩
  refine ⟨q ++ [a], .push fun hmem => ?_, (queue_iff (pools_setPool_self ..)).mpr ?_⟩
  · obtain ⟨T, hT⟩ := hq.inPool hP harr hmem
    rw [hnone] at hT
    cases hT
  · refine Pool.waiting_push ((queue_iff hP).mp hq) (hq.length hP harr) harr.unassigned_le ?_ rfl hQu
    intro hu
    rcases hb with ⟨rfl, -⟩ | ⟨-, hlt, -⟩
    · rfl
    · omega

/-! ### Runs -/

/-- A finished task may be removed without a change of the queue. -/
theorem Sound.behind (h : Sound s) {A : Task V} (ha : s.tasks a = some A)
    (hf : A.finished = true) : Behind s a := by
  intro A' p P ha' hp hP
  obtain rfl := Option.some.inj (ha.symm.trans ha')
  have hA := (h.arranged hP).finished (inPool_eq_some.mpr ⟨ha, hp⟩) hf
  exact h.toHoused.behind ha hA A p P ha hp hP

theorem Sound.follows_test (h : Sound s) {w : ℕ} {phase : Worker} {e : Event V} {r : Ret V}
    (hw : s.worker p w = some phase) (ht : testQueue p w s = some (r, t))
    (hwait : act (e, .waits) = .other) (htook : ∀ a, act (e, .took a) = .take p a) :
    Follows s t (act (e, r)) := by
  obtain ⟨P, hP, -⟩ := Option.bind_eq_some_iff.mp hw
  rcases testQueue_follows h.toHoused hP ht with ⟨rfl, hq⟩ | ⟨a, rfl, hq⟩
  · exact .quiet hq fun _ => by rw [hwait]; rfl
  · rw [htook]
    exact hq

theorem Sound.follows (h : Sound s) (hm : Manned s) {l : Event V × Ret V}
    (hs : CarefulStep s l t) : Follows s t (act l) := by
  obtain ⟨e, r⟩ := l
  obtain ⟨hok, hen, hex⟩ := hs
  cases e with
  | newPool p n =>
    have hop (pool : PoolId) : op pool (act (Event.newPool p n, r) : Act V) = none := rfl
    refine .quiet ?_ hop
    simp only [ThreadPool.exec, threadPoolNew] at hex
    split at hex <;> cases hex
    · rfl
    · exact waiting_newPool hen n
  | newTask a =>
    cases hex
    exact .quiet rfl fun _ => rfl
  | push p a chosen =>
    obtain ⟨P, hP, -⟩ := (Option.any_eq_true _ _).mp hen.1
    obtain ⟨A, ha, hAp⟩ := (Option.any_eq_true _ _).mp hen.2
    rcases threadPoolPushTask_follows h.toHoused hP (hm.counted p P hP) ha (by simpa using hAp) hex with
      ⟨rfl, rfl⟩ | ⟨rfl, hq⟩
    · exact .quiet rfl fun _ => rfl
    · exact hq
  | lock p w => exact h.follows_test hen hex rfl fun _ => rfl
  | wake p w =>
    simp only [ThreadPool.exec, leaveWait, Option.bind_eq_bind, Option.bind_eq_some_iff] at hex
    obtain ⟨P, hP, hex⟩ := hex
    split at hex
    · cases hex
      exact .quiet (waiting_setPool hP rfl) fun _ => rfl
    · exact h.follows_test hen hex rfl fun _ => rfl
  | spurious p w =>
    simp only [ThreadPool.exec, Option.bind_eq_bind, Option.bind_eq_some_iff, Option.pure_def,
      Option.some.injEq, Prod.mk.injEq] at hex
    obtain ⟨u, hu, rfl, rfl⟩ := hex
    exact .quiet (modifyPool_waiting hu fun _ => rfl) fun _ => rfl
  | finish p w a v =>
    obtain ⟨P, hP, hw⟩ := Option.bind_eq_some_iff.mp hen
    obtain ⟨A, hin, hA, -⟩ := (h.arranged hP).busy.mp (Pool.mem_jobs.mpr (List.mem_of_getElem? hw))
    have hb := h.toHoused.behind (inPool_eq_some.mp hin).1 hA
    refine .quiet (finishTask_waiting hb hex) fun _ => ?_
    cases r <;> rfl
  | join a => exact .quiet ((joinEntry_leaves hex).waiting fun _ => h.behind) fun _ => by cases r <;> rfl
  | timedJoin a =>
    exact .quiet ((joinEntry_leaves hex).waiting fun _ => h.behind) fun _ => by cases r <;> rfl
  | joinWake a =>
    simp only [ThreadPool.exec, resumeJoin, Option.bind_eq_bind, Option.bind_eq_some_iff] at hex
    obtain ⟨call, -, hex⟩ := hex
    exact .quiet ((joinLoop_leaves hex).waiting fun _ => h.behind) fun _ => by cases r <;> rfl
  | joinSpurious a =>
    cases hex
    exact .quiet rfl fun _ => rfl
  | joinTimeout a =>
    cases hex
    exact .quiet rfl fun _ => rfl
  | detach a =>
    refine .quiet ((threadTaskDetach_leaves hex).waiting fun _ => h.behind) fun _ => ?_
    cases r with
    | code rc => cases rc <;> rfl
    | _ => rfl
  | deleteTask a => exact .quiet (waiting_congr (threadTaskDelete_pools hex).1) fun _ => rfl
  | deletePool p =>
    simp only [ThreadPool.exec, threadPoolDelete, Option.bind_eq_bind, Option.bind_eq_some_iff] at hex
    obtain ⟨P, hP, hex⟩ := hex
    split at hex <;> cases hex
    · exact .quiet rfl fun _ => rfl
    · exact .quiet (waiting_setPool hP rfl) fun _ => rfl
  | joinThread p =>
    simp only [ThreadPool.exec, ThreadPool.joinThread, Option.bind_eq_bind, Option.bind_eq_some_iff,
      Option.pure_def, Option.some.injEq, Prod.mk.injEq] at hex
    obtain ⟨i, -, w, -, rfl, rfl⟩ := hex
    exact .quiet rfl fun _ => rfl
  | releasePool p =>
    obtain ⟨P, hP, hd⟩ := (Option.any_eq_true _ _).mp hen
    obtain ⟨i, hi, -⟩ := (Option.any_eq_true _ _).mp hd
    obtain ⟨P', hP', hn, -⟩ := h.deleting hi
    obtain rfl := Option.some.inj (hP.symm.trans hP')
    cases hex
    exact .quiet (waiting_releasePool h.toHoused hP hn) fun _ => rfl

/-- The queues of all pools behave as queues whose first element is replaced by the last. -/
theorem exists_queue {ls : List (Event V × Ret V)} (h : Run CarefulStep .init ls s) (pool : PoolId) :
    ∃ q, Run SwapQueue.Step [] (ops pool ls) q ∧ Queue s pool q := by
  refine h.trace_invariant (I := fun ls s => ∃ q, Run SwapQueue.Step [] (ops pool ls) q ∧
    Queue s pool q) ⟨[], .nil, fun _ => rfl⟩ ?_
  rintro es u l v hrun ⟨q, hq, hu⟩ hstep
  have hm : Manned u := manned_init.run hrun.of_restrict
  obtain ⟨q', hq', hv⟩ := (Sound.run hrun).follows hm hstep pool q hu
  refine ⟨q', ?_, hv⟩
  have hops : ops pool (es ++ [l]) = ops pool es ++ (op pool (act l)).toList := by
    unfold ops
    rw [List.filterMap_append]
    cases hl : op pool (act l) <;> simp [hl]
  rw [hops]
  exact hq.append hq'

/-- Tasks are started in the order of their pushes exactly when at most two tasks wait in the pool
whenever a worker takes one, unless none is taken after it. -/
theorem startedInOrder_iff {ls : List (Event V × Ret V)} {s : State V}
    (h : Run CarefulStep .init ls s) (pool : PoolId) :
    StartedInOrder pool ls ↔ SwapQueue.ShortBefore (ops pool ls) := by
  obtain ⟨q, hq, -⟩ := exists_queue h pool
  exact SwapQueue.takes_prefix_iff hq

/-- Two tasks wait when the worker comes back. -/
def pairBehind : List (Event Unit) :=
  [.newPool 0 1, .newTask 0, .newTask 1, .newTask 2, .push 0 0 [], .lock 0 0, .push 0 1 [],
    .push 0 2 [], .finish 0 0 0 (), .lock 0 0, .finish 0 0 1 (), .lock 0 0]

theorem startedInOrder_pairBehind : ∃ (ls : List (Event Unit × Ret Unit)) (s : State Unit),
    (StartedInOrder 0 ls ↔ SwapQueue.ShortBefore (ops 0 ls)) ∧
      SwapQueue.takes (ops 0 ls) = [0, 1, 2] ∧ SwapQueue.pushes (ops 0 ls) = [0, 1, 2] ∧
      s.worker 0 0 = some (.running 2) := by
  have hrun : (runEvents (fun (s : State Unit) e => DeletesEmpty s e) .init pairBehind).any
      (fun (ls, s) => SwapQueue.takes (ops 0 ls) = [0, 1, 2] ∧
        SwapQueue.pushes (ops 0 ls) = [0, 1, 2] ∧ s.worker 0 0 = some (.running 2)) := by decide
  obtain ⟨⟨ls, s⟩, hs, hr⟩ := (Option.any_eq_true _ _).mp hrun
  have hls := run_of_runEvents hs
  simp only [decide_eq_true_eq] at hls hr
  exact ⟨ls, s, startedInOrder_iff hls 0, hr⟩

/-- Three tasks are pushed before the worker has the lock: the third one overtakes the second. -/
def threeAtOnce : List (Event Unit) :=
  [.newPool 0 1, .newTask 0, .newTask 1, .newTask 2, .push 0 0 [], .push 0 1 [], .push 0 2 [],
    .lock 0 0, .finish 0 0 0 (), .lock 0 0]

theorem task_overtaken : ¬∀ (ls : List (Event Unit × Ret Unit)) (s : State Unit),
    Run CarefulStep .init ls s → ∀ pool P, s.pools pool = some P → P.maxThreadCount = 1 →
      StartedInOrder pool ls := by
  intro hall
  have hrun : (runEvents (fun (s : State Unit) e => DeletesEmpty s e) .init threeAtOnce).any
      (fun (ls, s) => SwapQueue.takes (ops 0 ls) = [0, 2] ∧
        SwapQueue.pushes (ops 0 ls) = [0, 1, 2] ∧
        (s.pools 0).any fun P => P.maxThreadCount = 1) := by decide
  obtain ⟨⟨ls, s⟩, hs, hr⟩ := (Option.any_eq_true _ _).mp hrun
  have hls := run_of_runEvents hs
  simp only [decide_eq_true_eq] at hls hr
  obtain ⟨htakes, hpushes, hP⟩ := hr
  obtain ⟨P, hP, hmax⟩ := (Option.any_eq_true _ _).mp hP
  have horder := hall ls s hls 0 P hP (by simpa using hmax)
  rw [StartedInOrder, htakes, hpushes] at horder
  exact absurd horder (by decide)

end SystemsProgramming.ThreadPool

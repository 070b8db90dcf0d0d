import SystemsProgramming.Foundation.Log
import SystemsProgramming.ThreadPool.Occupancy

/-! What becomes of every push. The ledger is kept by an observer of the steps: one entry for each
push that returned 0, with the times it was taken, the values its executions returned and whether it
was removed. The state of the code and the ledger agree after every run, so nothing pushed is lost,
executed twice or joined with another push's result. -/

namespace SystemsProgramming.ThreadPool

open State Transition

variable {V : Type}

/-- A successful push of a task and what has become of it. -/
structure Job (V : Type) where
  task : TaskId
  pool : PoolId
  taken : ℕ
  /-- The values returned by its executions, the latest first. -/
  returned : List V
  removed : Bool

/-- A step happens to the latest push of its task. A task detached once finished is removed. -/
def post (js : List (Job V)) : Act V → List (Job V)
  | .push pool task => ⟨task, pool, 0, [], false⟩ :: js
  | .take _ task => amend Job.task task (fun j => { j with taken := j.taken + 1 }) js
  | .finish task result deleted => amend Job.task task
      (fun j => { j with returned := result :: j.returned, removed := deleted }) js
  | .join task _ => amend Job.task task (fun j => { j with removed := true }) js
  | .detach task => amend Job.task task (fun j => { j with removed := !j.returned.isEmpty }) js
  | .other => js

def ledger (ls : List (Event V × Ret V)) : List (Job V) :=
  ls.foldl (fun js l => post js (act l)) []

@[simp] theorem ledger_snoc (ls : List (Event V × Ret V)) (l : Event V × Ret V) :
    ledger (ls ++ [l]) = post (ledger ls) (act l) := by simp [ledger]

namespace Job

/-- Removed after having been executed once. -/
def Done (j : Job V) : Prop := j.taken = 1 ∧ (∃ v, j.returned = [v]) ∧ j.removed = true

/-- A push that is still in its pool, and the task as the code has it. -/
inductive Fits (j : Job V) (A : Task V) : Prop
  | unassigned : A.assigned = false → A.finished = false → j.taken = 0 → j.returned = [] → Fits j A
  | running : A.assigned = true → A.finished = false → j.taken = 1 → j.returned = [] → Fits j A
  | finished (v : V) : A.assigned = true → A.finished = true → j.taken = 1 → j.returned = [v] →
      A.result = some v → Fits j A

def Live (s : State V) (j : Job V) : Prop :=
  j.removed = false ∧ ∃ A, s.record j.task = some A ∧ A.parentPool = some j.pool ∧ j.Fits A

theorem Live.fits {s : State V} {j : Job V} {A : Task V} (h : j.Live s)
    (hA : s.record j.task = some A) : j.removed = false ∧ A.parentPool = some j.pool ∧ j.Fits A := by
  obtain ⟨hr, B, hB, hp, hf⟩ := h
  obtain rfl := Option.some.inj (hA.symm.trans hB)
  exact ⟨hr, hp, hf⟩

theorem Live.congr {s t : State V} {j : Job V} (h : j.Live s)
    (ht : t.record j.task = s.record j.task) : j.Live t := by
  unfold Live
  rw [ht]
  exact h

theorem Live.of_update {s t : State V} {j : Job V} {a : TaskId} {A : Task V}
    (ht : t.record = Function.update s.record a (some A)) (hja : j.task = a)
    (hr : j.removed = false) (hp : A.parentPool = some j.pool) (hf : j.Fits A) : j.Live t :=
  ⟨hr, A, by rw [ht, hja, Function.update_self], hp, hf⟩

end Job

/-- The ledger agrees with the tasks: each push is done or live, and each task in a pool is there by
its latest push. -/
structure Booked (s : State V) (js : List (Job V)) : Prop where
  kept : Kept Job.task Job.Done (Job.Live s) js
  cover : ∀ {a A p}, s.record a = some A → A.parentPool = some p →
    ∃ j, latest Job.task a js = some j ∧ j.Live s

namespace Booked

variable {s t : State V} {js : List (Job V)} {a : TaskId} {A : Task V} {A' : Option (Task V)}

/-- The task in a pool and its latest push. -/
theorem job (h : Booked s js) {p : PoolId} (hA : s.record a = some A) (hp : A.parentPool = some p) :
    ∃ j, latest Job.task a js = some j ∧ j.task = a ∧ j.pool = p ∧ j.removed = false ∧
      j.Fits A := by
  obtain ⟨j, hj, hl⟩ := h.cover hA hp
  have hja : j.task = a := key_of_latest hj
  obtain ⟨hr, hjp, hf⟩ := hl.fits (hja ▸ hA)
  exact ⟨j, hj, hja, Option.some.inj (hjp.symm.trans hp), hr, hf⟩

/-- A change of a task that is in no pool, before or after. -/
theorem outside (h : Booked s js) (ht : t.record = Function.update s.record a A')
    (hA : ∀ A, s.record a = some A → A.parentPool = none)
    (hA' : ∀ B, A' = some B → B.parentPool = none) : Booked t js where
  kept := h.kept.mono fun j _ hj => by
    refine .inr (hj.congr ?_)
    have hja : j.task ≠ a := by
      obtain ⟨-, B, hB, hp, -⟩ := hj
      intro hja
      rw [hA B (hja ▸ hB)] at hp
      cases hp
    rw [ht, Function.update_of_ne hja]
  cover {x B p} hB hp := by
    rw [ht, Function.update_apply] at hB
    split_ifs at hB with hxa
    · rw [hA' B hB] at hp
      cases hp
    · obtain ⟨j, hj, hl⟩ := h.cover hB hp
      refine ⟨j, hj, hl.congr ?_⟩
      rw [ht, Function.update_of_ne (key_of_latest hj ▸ hxa)]

/-- A change of a task in a pool, entered at its latest push. -/
theorem amend (h : Booked s js) (ht : t.record = Function.update s.record a A') {j : Job V}
    {f : Job V → Job V} (hf : ∀ j, (f j).task = j.task) (hj : latest Job.task a js = some j)
    (hfj : (f j).Done ∧ (∀ B, A' = some B → B.parentPool = none) ∨ (f j).Live t) :
    Booked t (amend Job.task a f js) where
  kept := by
    refine h.kept.amend hj ((hf j).trans (key_of_latest hj)) (hfj.imp_left And.left) fun k hk hl => hl.congr ?_
    rw [ht, Function.update_of_ne hk]
  cover {x B p} hB hp := by
    rw [ht, Function.update_apply] at hB
    split_ifs at hB with hxa
    · refine ⟨f j, by rw [latest_amend hf, if_pos hxa, hxa, hj]; rfl, ?_⟩
      rcases hfj with ⟨-, hn⟩ | hl
      · rw [hn B hB] at hp
        cases hp
      · exact hl
    · obtain ⟨k, hk, hl⟩ := h.cover hB hp
      refine ⟨k, ?_, hl.congr ?_⟩
      · rw [latest_amend hf, if_neg hxa, hk]
      · rw [ht, Function.update_of_ne (key_of_latest hk ▸ hxa)]

theorem push (h : Booked s js) {p : PoolId} (hA : s.record a = some A) (hp : A.parentPool = none)
    (ht : t.record = Function.update s.record a (some
      { A with finished := false, assigned := false, parentPool := some p })) :
    Booked t (⟨a, p, 0, [], false⟩ :: js) := by
  have hnew : Job.Live t ⟨a, p, 0, [], false⟩ :=
    ⟨rfl, _, by rw [ht, Function.update_self], rfl, .unassigned rfl rfl rfl rfl⟩
  have hne : ∀ j : Job V, j.Live s → j.task ≠ a := by
    rintro j ⟨-, B, hB, hBp, -⟩ rfl
    rw [hA] at hB
    cases hB
    rw [hp] at hBp
    cases hBp
  constructor
  case kept =>
    refine .cons (.inr hnew) (fun k hk hka => ?_) (h.kept.mono fun k _ hl => .inr (hl.congr ?_))
    · rcases h.kept.mem hk with hd | hl
      · exact hd
      · exact absurd hka (hne k hl)
    · rw [ht, Function.update_of_ne (hne k hl)]
  case cover =>
    intro x B q hB hq
    by_cases hxa : x = a
    · subst hxa
      exact ⟨_, latest_cons_self .., hnew⟩
    · rw [ht, Function.update_of_ne hxa] at hB
      obtain ⟨k, hk, hl⟩ := h.cover hB hq
      refine ⟨k, ?_, hl.congr ?_⟩
      · rw [latest_cons_ne (Ne.symm hxa), hk]
      · rw [ht, Function.update_of_ne (hne k hl)]

/-- Every step keeps the ledger right. -/
theorem post (h : Booked s js) {c : Act V} (he : Effect s t c) : Booked t (post js c) := by
  cases he with
  | quiet ht =>
    refine ⟨h.kept.mono fun j _ hj => .inr (hj.congr (by rw [ht])), fun {x B p} hB hp => ?_⟩
    rw [ht] at hB
    obtain ⟨j, hj, hl⟩ := h.cover hB hp
    exact ⟨j, hj, hl.congr (by rw [ht])⟩
  | new a ha ht =>
    refine h.outside ht (fun A hA => ?_) fun B hB => ?_
    · rw [ha] at hA
      cases hA
    · cases hB
      rfl
  | free a A hA hp ht =>
    refine h.outside ht (fun B hB => ?_) fun B hB => by cases hB
    rw [hA] at hB
    cases hB
    exact hp
  | push p a A hA hp ht => exact h.push hA hp ht
  | take p a A hA hp hu ht =>
    obtain ⟨j, hj, hja, hjp, hr, hfit⟩ := h.job hA hp
    refine h.amend ht (fun _ => rfl) hj (.inr (.of_update ht hja hr (hp.trans (congrArg some hjp.symm)) ?_))
    cases hfit with
    | unassigned _ hf hk hv => exact .running rfl hf (by rw [hk]) hv
    | running ha => simp [hu] at ha
    | finished _ ha => simp [hu] at ha
  | finish p a v A hA hp ha hf _ ht =>
    obtain ⟨j, hj, hja, hjp, hr, hfit⟩ := h.job hA hp
    refine h.amend ht (fun _ => rfl) hj (.inr (.of_update ht hja rfl (hp.trans (congrArg some hjp.symm)) ?_))
    cases hfit with
    | unassigned hu => simp [hu] at ha
    | running _ _ hk hv => exact .finished v ha rfl hk (by rw [hv]) rfl
    | finished _ _ hf' => simp [hf] at hf'
  | finishDetached p a v A hA hp ha hf _ ht =>
    obtain ⟨j, hj, hja, hjp, hr, hfit⟩ := h.job hA hp
    refine h.amend ht (fun _ => rfl) hj (.inl ⟨?_, fun B hB => by cases hB⟩)
    cases hfit with
    | unassigned hu => simp [hu] at ha
    | running _ _ hk hv => exact ⟨hk, ⟨v, by rw [hv]⟩, rfl⟩
    | finished _ _ hf' => simp [hf] at hf'
  | join p a A hA hp hf ht _ =>
    obtain ⟨j, hj, hja, hjp, hr, hfit⟩ := h.job hA hp
    refine h.amend ht (fun _ => rfl) hj (.inl ⟨?_, fun B hB => by cases hB; rfl⟩)
    cases hfit with
    | unassigned _ hf' => simp [hf] at hf'
    | running _ hf' => simp [hf] at hf'
    | finished v _ _ hk hv => exact ⟨hk, ⟨v, hv⟩, rfl⟩
  | detach p a A hA hp hf ht _ =>
    obtain ⟨j, hj, hja, hjp, hr, hfit⟩ := h.job hA hp
    refine h.amend ht (fun _ => rfl) hj (.inl ⟨?_, fun B hB => by cases hB⟩)
    cases hfit with
    | unassigned _ hf' => simp [hf] at hf'
    | running _ hf' => simp [hf] at hf'
    | finished v _ _ hk hv => exact ⟨hk, ⟨v, hv⟩, by simp [hv]⟩
  | schedule p a A hA hp hf ht _ =>
    obtain ⟨j, hj, hja, hjp, hr, hfit⟩ := h.job hA hp
    have hv : j.returned = [] := by
      cases hfit with
      | unassigned _ _ _ hv => exact hv
      | running _ _ _ hv => exact hv
      | finished _ _ hf' => simp [hf] at hf'
    refine h.amend ht (fun _ => rfl) hj (.inr (.of_update ht hja (by simp [hv])
      (hp.trans (congrArg some hjp.symm)) ?_))
    cases hfit with
    | unassigned ha hf hk hv => exact .unassigned ha hf hk hv
    | running ha hf hk hv => exact .running ha hf hk hv
    | finished _ _ hf' => simp [hf] at hf'

end Booked

theorem booked {ls : List (Event V × Ret V)} {s : State V} (h : Run CarefulStep .init ls s) :
    Booked s (ledger ls) := by
  refine h.trace_invariant (I := fun ls s => Booked s (ledger ls)) ?_ fun ls t l u hr hi hs => ?_
  · exact ⟨.nil, fun hA => by simp [State.record, State.init] at hA⟩
  · rw [ledger_snoc]
    exact hi.post ((Sound.run hr).step (manned_init.run hr.of_restrict) hs).2

/-! ### The phases of a push -/

inductive Phase
  | unassigned | running | finished | removed

/-- Where the push `j` is, by the ledger, the tasks and the workers. -/
def Job.Is (s : State V) (j : Job V) : Phase → Prop
  | .unassigned => j.taken = 0 ∧ j.returned = [] ∧ j.removed = false ∧
      (∃ T, s.tasks j.task = some T ∧ T.parentPool = some j.pool ∧ T.assigned = false) ∧
      ∀ p w, s.worker p w ≠ some (.running j.task)
  | .running => j.taken = 1 ∧ j.returned = [] ∧ j.removed = false ∧
      (∃ T, s.tasks j.task = some T ∧ T.parentPool = some j.pool ∧ T.assigned = true ∧
        T.finished = false) ∧
      ∃ w, s.worker j.pool w = some (.running j.task) ∧
        ∀ p v, s.worker p v = some (.running j.task) → p = j.pool ∧ v = w
  | .finished => j.taken = 1 ∧ j.removed = false ∧
      (∃ v, j.returned = [v] ∧ ∃ T, s.tasks j.task = some T ∧ T.parentPool = some j.pool ∧
        T.finished = true ∧ T.result = some v) ∧
      ∀ p w, s.worker p w ≠ some (.running j.task)
  | .removed => j.Done

theorem Job.Is.unique {s : State V} {j : Job V} {p q : Phase} (hp : j.Is s p) (hq : j.Is s q) :
    p = q := by
  cases p <;> cases q <;> simp only [Job.Is, Job.Done] at hp hq <;> first | rfl | grind

theorem Sound.task_of_worker {s : State V} (h : Sound s) {p : PoolId} {w : ℕ} {x : TaskId}
    (hw : s.worker p w = some (.running x)) :
    ∃ T, s.tasks x = some T ∧ T.parentPool = some p ∧ T.assigned = true ∧ T.finished = false := by
  obtain ⟨P, hP, hw⟩ := Option.bind_eq_some_iff.mp hw
  have harr := h.arranged hP
  obtain ⟨T, hT, ha, hf⟩ := harr.busy.mp (Pool.mem_jobs.mpr (List.mem_of_getElem? hw))
  obtain ⟨hx, hp⟩ := inPool_eq_some.mp hT
  exact ⟨T, hx, hp, ha, hf⟩

theorem Sound.worker_of_task {s : State V} (h : Sound s) {p : PoolId} {x : TaskId} {T : Task V}
    (hx : s.tasks x = some T) (hp : T.parentPool = some p) (ha : T.assigned = true)
    (hf : T.finished = false) : ∃ w, s.worker p w = some (.running x) ∧
      ∀ q v, s.worker q v = some (.running x) → q = p ∧ v = w := by
  obtain ⟨P, hP⟩ := h.home hx hp
  have harr := h.arranged hP
  have hjob : x ∈ P.jobs := harr.busy.mpr ⟨T, inPool_eq_some.mpr ⟨hx, hp⟩, ha, hf⟩
  obtain ⟨w, hw⟩ := List.mem_iff_getElem?.mp (Pool.mem_jobs.mp hjob)
  have hwp : s.worker p w = some (.running x) := by simp [worker, hP, hw]
  refine ⟨w, hwp, fun q v hv => ?_⟩
  obtain ⟨U, hU, hq, -⟩ := h.task_of_worker hv
  have hqp : q = p := by
    rw [hx] at hU
    cases hU
    exact Option.some.inj (hq.symm.trans hp)
  subst hqp
  obtain ⟨Q, hQ, hv⟩ := Option.bind_eq_some_iff.mp hv
  rw [hP] at hQ
  cases hQ
  exact ⟨rfl, holder_unique harr.once hv rfl hw rfl⟩

/-- A live push is in one of the three phases of a task in a pool. -/
theorem Job.Live.phase {s : State V} (h : Sound s) {j : Job V} (hj : j.Live s) :
    ∃ phase, j.Is s phase := by
  obtain ⟨hr, A, hA, hp, hfit⟩ := hj
  obtain ⟨T, hT, rfl⟩ := record_eq_some hA
  have hnot : (T.assigned = false ∨ T.finished = true) →
      ∀ p w, s.worker p w ≠ some (.running j.task) := by
    intro hor p w hw
    obtain ⟨U, hU, -, ha, hf⟩ := h.task_of_worker hw
    rw [hT] at hU
    cases hU
    simp [ha, hf] at hor
  cases hfit with
  | unassigned ha _ hk hv => exact ⟨.unassigned, hk, hv, hr, ⟨T, hT, hp, ha⟩, hnot (.inl ha)⟩
  | running ha hf hk hv =>
    exact ⟨.running, hk, hv, hr, ⟨T, hT, hp, ha, hf⟩, h.worker_of_task hT hp ha hf⟩
  | finished v _ hf hk hv hres =>
    exact ⟨.finished, hk, hr, ⟨v, hv, T, hT, hp, hf, hres⟩, hnot (.inr hf)⟩

theorem Job.Is.taken_le {s : State V} {j : Job V} {phase : Phase} (h : j.Is s phase) :
    j.taken ≤ 1 ∧ j.returned.length ≤ 1 := by
  cases phase with
  | unassigned => exact ⟨by rw [h.1]; exact Nat.zero_le 1, by rw [h.2.1]; exact Nat.zero_le 1⟩
  | running => exact ⟨by rw [h.1], by rw [h.2.1]; exact Nat.zero_le 1⟩
  | finished =>
    obtain ⟨hk, -, ⟨v, hv, -⟩, -⟩ := h
    exact ⟨by rw [hk], by rw [hv]; rfl⟩
  | removed =>
    obtain ⟨hk, ⟨v, hv⟩, -⟩ := h
    exact ⟨by rw [hk], by rw [hv]; rfl⟩

theorem latest_post {js : List (Job V)} {c : Act V} {x : TaskId} {j : Job V}
    (hj : latest Job.task x js = some j) (hc : ∀ p, c ≠ .push p x) :
    ∃ k, latest Job.task x (post js c) = some k ∧ k.pool = j.pool := by
  have hamend : ∀ (a : TaskId) (f : Job V → Job V), (∀ k, (f k).task = k.task) →
      (∀ k, (f k).pool = k.pool) →
      ∃ k, latest Job.task x (amend Job.task a f js) = some k ∧ k.pool = j.pool := by
    intro a f hf hp
    rw [latest_amend hf, hj]
    split_ifs
    · exact ⟨f j, rfl, hp j⟩
    · exact ⟨j, rfl, rfl⟩
  cases c with
  | push p a =>
    have hne : a ≠ x := by
      rintro rfl
      exact hc p rfl
    exact ⟨j, by rw [← hj]; exact latest_cons_ne hne js, rfl⟩
  | take p a => exact hamend a _ (fun _ => rfl) fun _ => rfl
  | finish a v d => exact hamend a _ (fun _ => rfl) fun _ => rfl
  | join a v => exact hamend a _ (fun _ => rfl) fun _ => rfl
  | detach a => exact hamend a _ (fun _ => rfl) fun _ => rfl
  | other => exact ⟨j, hj, rfl⟩

/-- A task that a step takes out of its pool, or frees there, has been executed. -/
theorem Booked.done_of_removed {s t : State V} {js : List (Job V)} (h : Booked s js) {c : Act V}
    (he : Effect s t c) {x : TaskId} {A : Task V} {p : PoolId} (hA : s.record x = some A)
    (hp : A.parentPool = some p) (hgone : ∀ B, t.record x = some B → B.parentPool ≠ some p) :
    ∃ j, latest Job.task x (ThreadPool.post js c) = some j ∧ j.pool = p ∧ j.Done := by
  obtain ⟨j, hj, -, hjp, -⟩ := h.job hA hp
  have hc : ∀ q, c ≠ .push q x := by
    rintro q rfl
    cases he with
    | push _ _ B hB hBp =>
      rw [hA] at hB
      cases hB
      rw [hp] at hBp
      cases hBp
  obtain ⟨k, hk, hkp⟩ := latest_post hj hc
  refine ⟨k, hk, hkp.trans hjp, ?_⟩
  rcases (h.post he).kept.mem (mem_of_latest hk) with hd | ⟨-, B, hB, hBp, -⟩
  · exact hd
  · rw [key_of_latest hk] at hB
    exact absurd (hBp.trans (congrArg some (hkp.trans hjp))) (hgone B hB)

/-- A join hands out what the execution of the task's latest push returned. -/
theorem Booked.joined {s t : State V} {js : List (Job V)} (h : Booked s js) {a : TaskId}
    {v : Option V} (he : Effect s t (.join a v)) :
    ∃ j w, latest Job.task a js = some j ∧ j.returned = [w] ∧ v = some w := by
  cases he with
  | join p _ A hA hp hf ht =>
    obtain ⟨j, hj, -, -, -, hfit⟩ := h.job hA hp
    cases hfit with
    | unassigned _ hf' => simp [hf] at hf'
    | running _ hf' => simp [hf] at hf'
    | finished w _ _ _ hv hres => exact ⟨j, w, hj, hv, hres⟩

/-- After every run, each successful push has been executed at most once and is in exactly one
phase. In a further step, a task leaves its pool or is freed there only once it has finished, and a
successful join returns the value of the execution of the task's latest push. -/
theorem every_push_accounted {ls : List (Event V × Ret V)} {s : State V}
    (h : Run CarefulStep .init ls s) :
    (∀ j ∈ ledger ls, j.taken ≤ 1 ∧ j.returned.length ≤ 1 ∧ ∃! phase, j.Is s phase) ∧
      ∀ l t, CarefulStep s l t →
        (∀ x T p, s.tasks x = some T → T.parentPool = some p →
          (∀ T', t.tasks x = some T' → T'.parentPool ≠ some p) →
            ∃ j, latest Job.task x (ledger (ls ++ [l])) = some j ∧ j.pool = p ∧ j.Done) ∧
        ∀ a v, act l = .join a v →
          ∃ j w, latest Job.task a (ledger ls) = some j ∧ j.returned = [w] ∧ v = some w := by
  have hs : Sound s := .run h
  have hb : Booked s (ledger ls) := booked h
  constructor
  · intro j hj
    have hphase : ∃ phase, j.Is s phase := by
      rcases hb.kept.mem hj with hd | hl
      · exact ⟨.removed, hd⟩
      · exact hl.phase hs
    obtain ⟨phase, hp⟩ := hphase
    exact ⟨hp.taken_le.1, hp.taken_le.2, phase, hp, fun q hq => hq.unique hp⟩
  · intro l t hstep
    have he : Effect s t (act l) := (hs.step (manned_init.run h.of_restrict) hstep).2
    refine ⟨fun x T p hx hp hgone => ?_, fun a v hl => hb.joined (hl ▸ he)⟩
    rw [ledger_snoc]
    refine hb.done_of_removed he (record_of_tasks hx) hp fun B hB => ?_
    obtain ⟨T', hT', rfl⟩ := record_eq_some hB
    exact hgone T' hT'

/-- A task is pushed, joined and pushed again. -/
def pushedAgain : List (Event ℕ) :=
  [.newPool 0 1, .newTask 0, .push 0 0 [], .lock 0 0, .finish 0 0 0 7, .join 0, .push 0 0 [],
    .lock 0 0, .finish 0 0 0 8]

theorem every_push_accounted_pushedAgain :
    ∃ (ls : List (Event ℕ × Ret ℕ)) (s : State ℕ) (j k : Job ℕ), Run CarefulStep .init ls s ∧
      ledger ls = [j, k] ∧ j.returned = [8] ∧ k.returned = [7] ∧ (∃! phase, j.Is s phase) ∧
      ∃! phase, k.Is s phase := by
  have hrun : (runEvents (fun (s : State ℕ) e => DeletesEmpty s e) .init pushedAgain).any
      fun (ls, _) => (ledger ls).map Job.returned = [[8], [7]] := by decide
  obtain ⟨⟨ls, s⟩, hs, hr⟩ := (Option.any_eq_true _ _).mp hrun
  have hls := run_of_runEvents hs
  simp only [decide_eq_true_eq] at hls hr
  obtain ⟨j, js, hj, hj8, hr⟩ := List.map_eq_cons_iff.mp hr
  obtain ⟨k, ks, hk, hk7, hr⟩ := List.map_eq_cons_iff.mp hr
  obtain rfl := List.map_eq_nil_iff.mp hr
  have hjk : ledger ls = [j, k] := by rw [hj, hk]
  have h := (every_push_accounted hls).1
  exact ⟨ls, s, j, k, hls, hjk, hj8, hk7, (h j (by simp [hjk])).2.2, (h k (by simp [hjk])).2.2⟩

end SystemsProgramming.ThreadPool

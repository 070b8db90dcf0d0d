import SystemsProgramming.Foundation.Tally
import SystemsProgramming.ThreadPool.Staff

/-! The abstract view of an open pool as five numbers: the capacity, the queue length, and how many
workers are asleep, awake and busy. A worker is awake when it is on its way to a test of the queue.
Pushes and worker steps act on these numbers, and the claims about wake-ups are inequalities
between them. The last section shows that every step of the code's pool is one of these. -/

namespace SystemsProgramming.ThreadPool

variable {V : Type}

structure Crew where
  capacity : ℤ
  queued : ℤ
  asleep : ℤ
  awake : ℤ
  busy : ℤ

namespace Crew

def threads (c : Crew) : ℤ := c.asleep + c.awake + c.busy

def Grows (c : Crew) : Prop := c.busy = c.threads ∧ c.threads < c.capacity

inductive Push : Crew → Crew → Prop
  | grow (c : Crew) : c.Grows → Push c { c with queued := c.queued + 1, awake := c.awake + 1 }
  | rouse (c : Crew) (n : ℕ) : ¬c.Grows → c.queued = 0 → (0 < c.asleep → 0 < n) → Push c
      { c with queued := c.queued + 1, asleep := c.asleep - n, awake := c.awake + n }
  | enqueue (c : Crew) : ¬c.Grows → c.queued ≠ 0 → Push c { c with queued := c.queued + 1 }

inductive Work : Crew → Crew → Prop
  | take (c : Crew) : 0 < c.awake → c.queued ≠ 0 → Work c
      { c with queued := c.queued - 1, awake := c.awake - 1, busy := c.busy + 1 }
  | sleep (c : Crew) : 0 < c.awake → c.queued = 0 → Work c
      { c with asleep := c.asleep + 1, awake := c.awake - 1 }
  | finish (c : Crew) : 0 < c.busy → Work c
      { c with awake := c.awake + 1, busy := c.busy - 1 }

/-- A sleeping worker wakes up, signalled or not. -/
inductive Wake : Crew → Crew → Prop
  | wake (c : Crew) : 0 < c.asleep → Wake c
      { c with asleep := c.asleep - 1, awake := c.awake + 1 }

def new (capacity : ℤ) : Crew := ⟨capacity, 0, 0, 0, 0⟩

/-- No number is negative, there is room for a thread, and never more threads than room. -/
structure Valid (c : Crew) : Prop where
  capacity : 0 < c.capacity
  queued : 0 ≤ c.queued
  asleep : 0 ≤ c.asleep
  awake : 0 ≤ c.awake
  busy : 0 ≤ c.busy
  threads : c.threads ≤ c.capacity

/-- With a task queued, some worker is awake or will be once its task's function returns. -/
def Attended (c : Crew) : Prop := 0 < c.queued → 0 < c.awake + c.busy

theorem Attended.push {c c' : Crew} (hv : c.Valid) (h : c.Attended) (hs : c.Push c') :
    c'.Attended := by
  have := hv.capacity; have := hv.asleep; have := hv.awake; have := hv.busy
  cases hs with
  | grow => intro _; dsimp only; omega
  | rouse n hg hq hn =>
    intro _
    simp only [Grows, threads] at hg
    dsimp only
    omega
  | enqueue hg hq =>
    intro _
    have := hv.queued
    have := h (by omega)
    dsimp only
    omega

theorem Attended.work {c c' : Crew} (hv : c.Valid) (h : c.Attended) (hs : c.Work c') :
    c'.Attended := by
  have := hv.awake; have := hv.busy
  cases hs with
  | take => intro _; dsimp only; omega
  | sleep ha hq => intro hq'; dsimp only at hq'; omega
  | finish => intro hq; have := h hq; dsimp only; omega

theorem Attended.wake {c c' : Crew} (h : c.Attended) (hs : c.Wake c') : c'.Attended := by
  cases hs with
  | wake => intro hq; have := h hq; dsimp only; omega

/-- While a worker sleeps, every queued task has a worker of its own on the way to it. -/
def Claimed (c : Crew) : Prop := 0 < c.asleep → c.queued ≤ c.awake

theorem Claimed.push {c c' : Crew} (hv : c.Valid)
    (hok : c.asleep = 0 ∨ c.queued = 0 ∨ c.queued < c.awake) (hs : c.Push c') : c'.Claimed := by
  have := hv.asleep; have := hv.awake
  cases hs with
  | grow hg =>
    -- every thread is busy, so none sleeps
    intro ha
    simp only [Grows, threads] at hg
    dsimp only at ha
    omega
  | rouse n hg hq hn => intro ha; dsimp only at ha ⊢; omega
  | enqueue hg hq => intro ha; dsimp only at ha ⊢; omega

theorem Claimed.work {c c' : Crew} (h : c.Claimed) (hs : c.Work c') : c'.Claimed := by
  cases hs with
  | take _ hq => intro ha; have := h ha; dsimp only; omega
  | sleep _ hq => intro ha; dsimp only; omega
  | finish => intro ha; have := h ha; dsimp only; omega

theorem Claimed.wake {c c' : Crew} (h : c.Claimed) (hs : c.Wake c') : c'.Claimed := by
  cases hs with
  | wake ha => intro _; have := h ha; dsimp only; omega

/-- While there is room for a thread, every queued task has an idle worker to itself. -/
def Covered (c : Crew) : Prop := c.threads < c.capacity → c.queued ≤ c.asleep + c.awake

theorem Covered.push {c c' : Crew} (hv : c.Valid) (h : c.Covered)
    (hok : c.threads = c.capacity ∨ c.busy = c.threads ∨ c.queued + c.busy < c.threads)
    (hs : c.Push c') : c'.Covered := by
  have := hv.threads
  cases hs with
  | grow hg =>
    intro ht
    simp only [threads, Grows, Covered] at *
    omega
  | rouse n hg hq hn =>
    intro ht
    simp only [threads, Grows] at *
    omega
  | enqueue hg hq =>
    intro ht
    simp only [threads, Grows] at *
    omega

theorem Covered.work {c c' : Crew} (h : c.Covered) (hs : c.Work c') : c'.Covered := by
  cases hs <;> intro ht <;> simp only [threads, Covered] at * <;> omega

theorem Covered.wake {c c' : Crew} (h : c.Covered) (hs : c.Wake c') : c'.Covered := by
  cases hs with
  | wake => intro ht; simp only [threads, Covered] at *; omega

/-- A bound on the steps the workers can make before all of them sleep. -/
def pending (c : Crew) : ℤ := 3 * c.queued + 2 * c.busy + c.awake

end Crew

/-! ### The crew of a pool -/

inductive Worker.Kind
  | asleep | awake | busy | gone
  deriving DecidableEq

def Worker.kind : Worker → Worker.Kind
  | .ready => .awake
  | .waiting => .asleep
  | .woken => .awake
  | .running _ => .busy
  | .exited => .gone

@[simp] theorem Worker.kind_ready : Worker.kind .ready = .awake := rfl

@[simp] theorem Worker.kind_waiting : Worker.kind .waiting = .asleep := rfl

@[simp] theorem Worker.kind_woken : Worker.kind .woken = .awake := rfl

@[simp] theorem Worker.kind_running (task : TaskId) : Worker.kind (.running task) = .busy := rfl

@[simp] theorem Worker.kind_exited : Worker.kind .exited = .gone := rfl

theorem length_eq_tally (l : List Worker) :
    (l.length : ℤ) = tally Worker.kind l .asleep + tally Worker.kind l .awake +
      tally Worker.kind l .busy + tally Worker.kind l .gone := by
  induction l with
  | nil => rfl
  | cons a l ih =>
    rw [List.length_cons, Int.natCast_add, ih]
    simp only [tally_cons]
    cases a <;> simp <;> omega

/-- A signal moves some of the sleeping workers, and at least one if there is one, to the
workers awake. -/
theorem tally_signal (l : List Worker) (chosen : List ℕ) (hw : SignalWakes l chosen) :
    let l' := l.mapIdx fun i phase => if phase = .waiting ∧ i ∈ chosen then .woken else phase
    ∃ n : ℕ, tally Worker.kind l' .asleep = tally Worker.kind l .asleep - n ∧
      tally Worker.kind l' .awake = tally Worker.kind l .awake + n ∧
      tally Worker.kind l' .busy = tally Worker.kind l .busy ∧
      tally Worker.kind l' .gone = tally Worker.kind l .gone ∧
      (0 < tally Worker.kind l .asleep → 0 < n) := by
  have hne : Worker.Kind.asleep ≠ .awake := by decide
  obtain ⟨n, ha, hw', hk, hpos⟩ := tally_mapIdx_move hne Worker.kind_woken
    (fun i phase => phase = .waiting ∧ i ∈ chosen) (fun i a h => by rw [h.1]; rfl) l
  refine ⟨n, ha, hw', hk .busy (by decide) (by decide), hk .gone (by decide) (by decide),
    fun hs => ?_⟩
  obtain ⟨a, ha, hka⟩ := tally_pos.mp hs
  obtain rfl : a = .waiting := by cases a <;> simp_all
  obtain ⟨i, hi, hia⟩ := hw ha
  exact hpos ⟨i, _, hia, rfl, hi⟩

namespace Staff

def crew (σ : Staff) : Crew where
  capacity := σ.maxThreadCount
  queued := σ.unassignedTasksCount
  asleep := tally Worker.kind σ.workers .asleep
  awake := tally Worker.kind σ.workers .awake
  busy := tally Worker.kind σ.workers .busy

/-- The counters of a pool count its workers. -/
structure Counted (σ : Staff) : Prop where
  threads : σ.threadCount = σ.workers.length
  running : σ.runningTasksCount = tally Worker.kind σ.workers .busy
  unassigned : 0 ≤ σ.unassignedTasksCount
  capacity : 0 < σ.maxThreadCount ∧ σ.maxThreadCount ≤ tpoolMaxThreads
  room : σ.threadCount ≤ σ.maxThreadCount

/-- No deletion has begun: no worker has been told to leave. -/
structure Open (σ : Staff) : Prop where
  event : σ.threadUpdateEvent ≠ .tasksEnded
  gone : tally Worker.kind σ.workers .gone = 0

theorem Counted.new {n : ℤ} (h0 : 0 < n) (hn : n ≤ tpoolMaxThreads) : (Staff.new n).Counted :=
  ⟨rfl, rfl, Int.le_refl 0, ⟨h0, hn⟩, Int.le_of_lt h0⟩

theorem Open.new (n : ℤ) : (Staff.new n).Open := ⟨by simp [Staff.new], rfl⟩

theorem Open.threads {σ : Staff} (hc : σ.Counted) (ho : σ.Open) :
    σ.crew.threads = σ.threadCount := by
  have := length_eq_tally σ.workers
  rw [ho.gone, ← hc.threads] at this
  simp only [Crew.threads, crew]
  omega

theorem Open.grows {σ : Staff} (hc : σ.Counted) (ho : σ.Open) : σ.crew.Grows ↔ σ.Grows := by
  rw [Crew.Grows, Open.threads hc ho, Grows, hc.running]
  rfl

theorem Open.valid {σ : Staff} (hc : σ.Counted) (ho : σ.Open) : σ.crew.Valid :=
  ⟨hc.capacity.1, hc.unassigned, tally_nonneg .., tally_nonneg .., tally_nonneg ..,
    by rw [Open.threads hc ho]; exact hc.room⟩

/-! ### The steps of the code on crews -/

theorem Push.counted {σ σ' : Staff} (h : σ.Push σ') (hc : σ.Counted) : σ'.Counted := by
  obtain ⟨ht, hr, hu, hm, hroom⟩ := hc
  cases h with
  | grow hg =>
    refine ⟨?_, ?_, by dsimp only; omega, hm, hg.2⟩
    · simp [ht]
    · simp [tally_append, tally_cons, hr]
  | rouse chosen hg h0 hw =>
    obtain ⟨n, -, -, hb, -, -⟩ := tally_signal σ.workers chosen hw
    exact ⟨by simpa using ht, hr.trans hb.symm, by dsimp only; omega, hm, hroom⟩
  | enqueue => exact ⟨ht, hr, by dsimp only; omega, hm, hroom⟩

theorem Push.open {σ σ' : Staff} (h : σ.Push σ') (ho : σ.Open) : σ'.Open := by
  obtain ⟨he, hg⟩ := ho
  cases h with
  | grow => exact ⟨he, by simp [tally_append, tally_cons, hg]⟩
  | rouse chosen _ _ hw =>
    obtain ⟨n, -, -, -, hg', -⟩ := tally_signal σ.workers chosen hw
    exact ⟨by simp, hg'.trans hg⟩
  | enqueue => exact ⟨he, hg⟩

theorem Push.crew {σ σ' : Staff} (h : σ.Push σ') (hc : σ.Counted) (ho : σ.Open) :
    σ.crew.Push σ'.crew := by
  cases h with
  | grow hg =>
    have : (σ.crew.Push { σ.crew with queued := σ.crew.queued + 1, awake := σ.crew.awake + 1 }) :=
      .grow _ ((Open.grows hc ho).mpr hg)
    simpa [Staff.crew, tally_append, tally_cons] using this
  | rouse chosen hg h0 hw =>
    obtain ⟨n, ha, hw', hb, -, hpos⟩ := tally_signal σ.workers chosen hw
    have := Crew.Push.rouse σ.crew n (mt (Open.grows hc ho).mp hg) h0 hpos
    simpa [Staff.crew, ha, hw', hb] using this
  | enqueue hg h0 => exact .enqueue _ (mt (Open.grows hc ho).mp hg) h0

theorem AtQueue.awake {σ : Staff} {w : ℕ} (h : σ.AtQueue w) :
    ∃ phase, σ.workers[w]? = some phase ∧ phase.kind = .awake := by
  obtain h | ⟨h, -⟩ := h
  · exact ⟨_, h, rfl⟩
  · exact ⟨_, h, rfl⟩

theorem Work.counted {σ σ' : Staff} (h : σ.Work σ') (hc : σ.Counted) : σ'.Counted := by
  obtain ⟨ht, hr, hu, hm, hroom⟩ := hc
  cases h with
  | take w task hw h0 =>
    obtain ⟨phase, hp, hk⟩ := hw.awake
    refine ⟨by simpa using ht, ?_, by dsimp only; omega, hm, hroom⟩
    simp [tally_set hp, hk, hr]
  | sleep w hw h0 =>
    obtain ⟨phase, hp, hk⟩ := hw.awake
    refine ⟨by simpa using ht, ?_, hu, hm, hroom⟩
    simp [tally_set hp, hk, hr]
  | finish w task hw =>
    refine ⟨by simpa using ht, ?_, hu, hm, hroom⟩
    simp [tally_set hw, hr]
  | exit w hw =>
    refine ⟨by simpa using ht, ?_, hu, hm, hroom⟩
    simp [tally_set hw, hr]

theorem Wake.counted {σ σ' : Staff} (h : σ.Wake σ') (hc : σ.Counted) : σ'.Counted := by
  obtain ⟨ht, hr, hu, hm, hroom⟩ := hc
  cases h with
  | wake w hw =>
    refine ⟨by simpa using ht, ?_, hu, hm, hroom⟩
    simp [tally_set hw, hr]

theorem Work.open {σ σ' : Staff} (h : σ.Work σ') (ho : σ.Open) : σ'.Open := by
  obtain ⟨he, hg⟩ := ho
  cases h with
  | take w task hw =>
    obtain ⟨phase, hp, hk⟩ := hw.awake
    exact ⟨he, by simp [tally_set hp, hk, hg]⟩
  | sleep w hw =>
    obtain ⟨phase, hp, hk⟩ := hw.awake
    exact ⟨he, by simp [tally_set hp, hk, hg]⟩
  | finish w task hw => exact ⟨he, by simp [tally_set hw, hg]⟩
  | exit w hw hev => exact absurd hev he

theorem Wake.open {σ σ' : Staff} (h : σ.Wake σ') (ho : σ.Open) : σ'.Open := by
  cases h with
  | wake w hw => exact ⟨ho.event, by simp [tally_set hw, ho.gone]⟩

theorem tally_kind_pos {l : List Worker} {w : ℕ} {phase : Worker} (h : l[w]? = some phase) :
    0 < tally Worker.kind l phase.kind := tally_pos.mpr ⟨phase, List.mem_of_getElem? h, rfl⟩

theorem Work.crew {σ σ' : Staff} (h : σ.Work σ') (ho : σ.Open) : σ.crew.Work σ'.crew := by
  cases h with
  | take w task hw h0 =>
    obtain ⟨phase, hp, hk⟩ := hw.awake
    have := Crew.Work.take σ.crew (by have := tally_kind_pos hp; rwa [hk] at this) h0
    simpa [Staff.crew, tally_set hp, hk] using this
  | sleep w hw h0 =>
    obtain ⟨phase, hp, hk⟩ := hw.awake
    have := Crew.Work.sleep σ.crew (by have := tally_kind_pos hp; rwa [hk] at this) h0
    simpa [Staff.crew, tally_set hp, hk] using this
  | finish w task hw =>
    have := Crew.Work.finish σ.crew (tally_kind_pos hw)
    simpa [Staff.crew, tally_set hw] using this
  | exit w hw hev => exact absurd hev ho.event

theorem Wake.crew {σ σ' : Staff} (h : σ.Wake σ') : σ.crew.Wake σ'.crew := by
  cases h with
  | wake w hw =>
    have := Crew.Wake.wake σ.crew (tally_kind_pos hw)
    simpa [Staff.crew, tally_set hw] using this

end Staff

end SystemsProgramming.ThreadPool

import SystemsProgramming.Foundation.Timespec
import Mathlib.Data.List.Range
import Mathlib.Tactic.SplitIfs

/-! The clock of a coroutine of `1/solution.c`. What the other modules take as an answer, whether the
quantum is used up, is computed here from the readings of the clock, and with it the time the coroutine
has worked. Of the sorting there are only the checks left, any number of them. The events tell what is
done at each reading; nothing reads them. Numbers do not overflow: no time exceeds what the clock shows. -/

namespace SystemsProgramming.Sorting.Clock

def nsecInSec : ℤ := 1000000000

def nsecInMicroseconds : ℤ := 1000

def diffTimespec (spec1 spec2 : Timespec) : Timespec :=
  let diff : Timespec := { tvSec := spec1.tvSec - spec2.tvSec, tvNsec := spec1.tvNsec - spec2.tvNsec }
  if diff.tvNsec < 0 then { tvSec := diff.tvSec - 1, tvNsec := diff.tvNsec + nsecInSec } else diff

def addTimespec (spec1 spec2 : Timespec) : Timespec :=
  let addition : Timespec :=
    { tvSec := spec1.tvSec + spec2.tvSec, tvNsec := spec1.tvNsec + spec2.tvNsec }
  if addition.tvNsec ≥ nsecInSec then
    { tvSec := addition.tvSec + 1, tvNsec := addition.tvNsec - nsecInSec }
  else addition

def gteTimespec (spec1 spec2 : Timespec) : Bool :=
  if spec1.tvSec > spec2.tvSec then true
  else if spec1.tvSec < spec2.tvSec then false
  else if spec1.tvNsec > spec2.tvNsec then true
  else if spec1.tvNsec < spec2.tvNsec then false
  else true

def microsecondsToTimespec (ms : ℤ) : Timespec :=
  let nsec := ms * nsecInMicroseconds
  { tvSec := nsec.tdiv nsecInSec, tvNsec := nsec.tmod nsecInSec }

/-- `struct coroutine_context` -/
structure Context where
  contextSwitchCount : ℕ
  startTimespec : Timespec
  quantumSoftLimit : Timespec
  timeWorking : Timespec

/-- `malloc` leaves something in the field that is not set. -/
def createCoroutineContext (malloc : Timespec) (quantumSoftLimitMicroseconds : ℤ) : Context where
  quantumSoftLimit := microsecondsToTimespec quantumSoftLimitMicroseconds
  startTimespec := malloc
  timeWorking := { tvSec := 0, tvNsec := 0 }
  contextSwitchCount := 0

/-- What a coroutine does when it has read the clock. -/
inductive Event
  | started (now : Timespec)
  /-- A check without a yield. -/
  | passed (now : Timespec)
  | yielded (now : Timespec)
  | resumed (now : Timespec)
  | finished (now : Timespec)

def Event.isCheck : Event → Bool
  | passed _ => true
  | yielded _ => true
  | _ => false

def Event.reading : Event → Timespec
  | started now => now
  | passed now => now
  | yielded now => now
  | resumed now => now
  | finished now => now

section
variable (clock : ℕ → Timespec)

/-- The number counts the readings so far. -/
def coroYieldWithRespectToQuantum (context : Context) (reads : ℕ) : List Event × Context × ℕ :=
  let now := clock reads
  let timeSpentThisRun := diffTimespec now context.startTimespec
  if gteTimespec timeSpentThisRun context.quantumSoftLimit then
    let context := { context with
      contextSwitchCount := context.contextSwitchCount + 1
      timeWorking := addTimespec context.timeWorking timeSpentThisRun }
    let resume := clock (reads + 1)
    ([.yielded now, .resumed resume], { context with startTimespec := resume }, reads + 2)
  else ([.passed now], context, reads + 1)

/-- The loop of `coroutine_func_f`, which calls the check a number of times. -/
def sortFiles : ℕ → Context → ℕ → List Event × Context × ℕ
  | 0, context, reads => ([], context, reads)
  | checks + 1, context, reads =>
    let (es, context, reads) := coroYieldWithRespectToQuantum clock context reads
    let (fs, context, reads) := sortFiles checks context reads
    (es ++ fs, context, reads)

def coroutineFuncF (checks : ℕ) (context : Context) : List Event × Context :=
  let context := { context with startTimespec := clock 0 }
  let (es, context, reads) := sortFiles clock checks context 1
  let now := clock reads
  let lastDiff := diffTimespec now context.startTimespec
  let context := { context with timeWorking := addTimespec context.timeWorking lastDiff }
  (.started (clock 0) :: (es ++ [.finished now]), context)

end

/-! ### Exact time -/

/-- How a coroutine runs from the reading `start` on, in exact arithmetic: a check yields when the
interval so far is at least the quantum, in nanoseconds, and a yield or the end closes the interval. -/
inductive Runs (quantum : ℤ) : Timespec → List Event → List (Timespec × Timespec) → Prop
  | finish {start now : Timespec} : Runs quantum start [.finished now] [(start, now)]
  | pass {start now : Timespec} {es : List Event} {intervals : List (Timespec × Timespec)} :
      now.ns - start.ns < quantum → Runs quantum start es intervals →
      Runs quantum start (.passed now :: es) intervals
  | yield {start now resume : Timespec} {es : List Event} {intervals : List (Timespec × Timespec)} :
      quantum ≤ now.ns - start.ns → Runs quantum resume es intervals →
      Runs quantum start (.yielded now :: .resumed resume :: es) ((start, now) :: intervals)

/-- The nanoseconds of some intervals together. -/
def total : List (Timespec × Timespec) → ℤ
  | [] => 0
  | (start, now) :: intervals => now.ns - start.ns + total intervals

theorem diffTimespec_eq (s t : Timespec) :
    diffTimespec s t = (Timespec.mk (s.tvSec - t.tvSec) (s.tvNsec - t.tvNsec)).borrow := rfl

theorem addTimespec_eq (s t : Timespec) :
    addTimespec s t = (Timespec.mk (s.tvSec + t.tvSec) (s.tvNsec + t.tvNsec)).carry := rfl

theorem microsecondsToTimespec_eq (ms : ℤ) :
    microsecondsToTimespec ms = .ofNsec (ms * 1000) := rfl

variable {s t : Timespec}

theorem diffTimespec_ns (s t : Timespec) : (diffTimespec s t).ns = s.ns - t.ns := by
  rw [diffTimespec_eq, Timespec.borrow_ns]
  unfold Timespec.ns
  dsimp only
  omega

theorem addTimespec_ns (s t : Timespec) : (addTimespec s t).ns = s.ns + t.ns := by
  rw [addTimespec_eq, Timespec.carry_ns]
  unfold Timespec.ns
  dsimp only
  omega

theorem diffTimespec_normalised (hs : s.Normalised) (ht : t.Normalised) :
    (diffTimespec s t).Normalised := by
  unfold Timespec.Normalised at hs ht
  exact Timespec.borrow_normalised_iff.mpr ⟨by dsimp only; omega, by dsimp only; omega⟩

theorem addTimespec_normalised (hs : s.Normalised) (ht : t.Normalised) :
    (addTimespec s t).Normalised := by
  unfold Timespec.Normalised at hs ht
  exact Timespec.carry_normalised_iff.mpr ⟨by dsimp only; omega, by dsimp only; omega⟩

theorem gteTimespec_iff (hs : s.Normalised) (ht : t.Normalised) :
    gteTimespec s t = true ↔ t.ns ≤ s.ns := by
  rw [ht.ns_le_iff hs]
  unfold gteTimespec
  split_ifs <;> simp <;> omega

@[simp] theorem total_nil : total [] = 0 := rfl

@[simp] theorem total_cons (s t : Timespec) (intervals : List (Timespec × Timespec)) :
    total ((s, t) :: intervals) = t.ns - s.ns + total intervals := rfl

theorem total_append (is js : List (Timespec × Timespec)) :
    total (is ++ js) = total is + total js := by
  induction is with
  | nil => simp
  | cons interval is ih =>
    rw [List.cons_append, total_cons, total_cons, ih]
    omega

/-! ### The account of a coroutine -/

/-- The times in a context are proper. -/
structure Context.Proper (quantum : ℤ) (context : Context) : Prop where
  start : context.startTimespec.Normalised
  limit : context.quantumSoftLimit.Normalised
  limit_ns : context.quantumSoftLimit.ns = quantum
  working : context.timeWorking.Normalised

/-- Some checks, with the events they make and the intervals they close: the clock is read in order, the
account has grown by the intervals, and what runs from there on is a run with the events before it. -/
structure Advance (clock : ℕ → Timespec) (quantum : ℤ) (c : Context) (reads : ℕ) (es : List Event)
    (is : List (Timespec × Timespec)) (c' : Context) (reads' : ℕ) : Prop where
  proper : c'.Proper quantum
  readings : es.map Event.reading = (List.range' reads es.length).map clock
  reads_eq : reads' = reads + es.length
  working : c'.timeWorking.ns = c.timeWorking.ns + total is
  switches : c'.contextSwitchCount = c.contextSwitchCount + is.length
  runs : ∀ {fs js}, Runs quantum c'.startTimespec fs js →
    Runs quantum c.startTimespec (es ++ fs) (is ++ js)

variable {clock : ℕ → Timespec} {quantum : ℤ} {c c' c'' : Context} {reads reads' reads'' : ℕ}
  {es fs : List Event} {is js : List (Timespec × Timespec)}

theorem Advance.nil (h : c.Proper quantum) (reads : ℕ) :
    Advance clock quantum c reads [] [] c reads where
  proper := h
  readings := rfl
  reads_eq := rfl
  working := by simp
  switches := rfl
  runs h := h

theorem Advance.append (h : Advance clock quantum c reads es is c' reads')
    (k : Advance clock quantum c' reads' fs js c'' reads'') :
    Advance clock quantum c reads (es ++ fs) (is ++ js) c'' reads'' where
  proper := k.proper
  readings := by
    rw [List.map_append, h.readings, k.readings, h.reads_eq, List.length_append,
      ← List.range'_append_1, List.map_append]
  reads_eq := by
    rw [k.reads_eq, h.reads_eq, List.length_append]
    omega
  working := by
    rw [k.working, h.working, total_append]
    omega
  switches := by
    rw [k.switches, h.switches, List.length_append]
    omega
  runs hruns := by
    rw [List.append_assoc, List.append_assoc]
    exact h.runs (k.runs hruns)

/-- A check yields exactly when the interval so far is at least the quantum. -/
theorem coroYieldWithRespectToQuantum_advance (hclock : ∀ n, (clock n).Normalised)
    (h : c.Proper quantum) (reads : ℕ) : ∃ es is c' reads',
      coroYieldWithRespectToQuantum clock c reads = (es, c', reads') ∧
        Advance clock quantum c reads es is c' reads' := by
  have hspent := diffTimespec_normalised (hclock reads) h.start
  have hspent_ns := diffTimespec_ns (clock reads) c.startTimespec
  have hgte := gteTimespec_iff hspent h.limit
  rw [h.limit_ns, hspent_ns] at hgte
  unfold coroYieldWithRespectToQuantum
  by_cases hq : quantum ≤ (clock reads).ns - c.startTimespec.ns
  · refine ⟨_, [(c.startTimespec, clock reads)], _, _, if_pos (hgte.mpr hq), ?_⟩
    constructor
    case proper => exact ⟨hclock _, h.limit, h.limit_ns, addTimespec_normalised h.working hspent⟩
    case readings => rfl
    case reads_eq => rfl
    case working =>
      rw [total_cons, total_nil, Int.add_zero, ← hspent_ns]
      exact addTimespec_ns ..
    case switches => rfl
    case runs => exact fun hruns => .yield hq hruns
  · refine ⟨_, [], _, _, if_neg (hgte.not.mpr hq), ?_⟩
    constructor
    case proper => exact h
    case readings => rfl
    case reads_eq => rfl
    case working => simp
    case switches => rfl
    case runs => exact fun hruns => .pass (Int.not_le.mp hq) hruns

theorem sortFiles_advance (hclock : ∀ n, (clock n).Normalised) (checks : ℕ) (h : c.Proper quantum)
    (reads : ℕ) : ∃ es is c' reads', sortFiles clock checks c reads = (es, c', reads') ∧
      Advance clock quantum c reads es is c' reads' := by
  induction checks generalizing c reads with
  | zero => exact ⟨[], [], c, reads, rfl, .nil h reads⟩
  | succ checks ih =>
    obtain ⟨es, is, c', reads', hcheck, hadv⟩ :=
      coroYieldWithRespectToQuantum_advance hclock h reads
    obtain ⟨fs, js, c'', reads'', hrest, hadv'⟩ := ih hadv.proper reads'
    refine ⟨es ++ fs, is ++ js, c'', reads'', ?_, hadv.append hadv'⟩
    simp only [sortFiles, hcheck, hrest]

theorem countP_sortFiles (clock : ℕ → Timespec) (checks : ℕ) (c : Context) (reads : ℕ) :
    (sortFiles clock checks c reads).1.countP Event.isCheck = checks := by
  induction checks generalizing c reads with
  | zero => rfl
  | succ checks ih =>
    have hcheck : (coroYieldWithRespectToQuantum clock c reads).1.countP Event.isCheck = 1 := by
      unfold coroYieldWithRespectToQuantum
      dsimp only
      split_ifs <;> rfl
    simp only [sortFiles, List.countP_append, hcheck, ih]
    omega

/-- A context that has just been created, when the clock has been read. -/
theorem createCoroutineContext_proper {quantumSoftLimitMicroseconds : ℤ}
    (hq : 0 ≤ quantumSoftLimitMicroseconds) (malloc : Timespec) (hs : s.Normalised) :
    Context.Proper (quantumSoftLimitMicroseconds * 1000)
      { createCoroutineContext malloc quantumSoftLimitMicroseconds with startTimespec := s } where
  start := hs
  limit := Timespec.ofNsec_normalised (Int.mul_nonneg hq (by decide))
  limit_ns := Timespec.ofNsec_ns _
  working := show (Timespec.mk 0 0).Normalised by decide

/-- The account of a coroutine is exact. It reads the clock in order and runs as in exact arithmetic, with
the given number of checks; in the end the time it has worked is a proper time and the sum of its intervals, of
which each but the last has ended in a yield. -/
theorem timeWorking_exact {clock : ℕ → Timespec} (hclock : ∀ n, (clock n).Normalised)
    {quantumSoftLimitMicroseconds : ℤ} (hq : 0 ≤ quantumSoftLimitMicroseconds) (malloc : Timespec)
    (checks : ℕ) : ∃ events intervals context,
      coroutineFuncF clock checks (createCoroutineContext malloc quantumSoftLimitMicroseconds) =
        (.started (clock 0) :: events, context) ∧
      Runs (quantumSoftLimitMicroseconds * 1000) (clock 0) events intervals ∧
      events.countP Event.isCheck = checks ∧
      events.map Event.reading = (List.range' 1 events.length).map clock ∧
      context.timeWorking.Normalised ∧ context.timeWorking.ns = total intervals ∧
      intervals.length = context.contextSwitchCount + 1 := by
  have hproper := createCoroutineContext_proper hq malloc (hclock 0)
  obtain ⟨es, is, c, reads, hrun, hadv⟩ := sortFiles_advance hclock checks hproper 1
  have hlast := diffTimespec_normalised (hclock reads) hadv.proper.start
  refine ⟨es ++ [.finished (clock reads)], is ++ [(c.startTimespec, clock reads)],
    { c with timeWorking :=
        addTimespec c.timeWorking (diffTimespec (clock reads) c.startTimespec) }, ?_, ?_, ?_, ?_, ?_, ?_, ?_⟩
  · simp only [coroutineFuncF, hrun]
  · exact hadv.runs .finish
  · have hevents : es = (sortFiles clock checks _ 1).1 := (congrArg Prod.fst hrun).symm
    rw [List.countP_append, hevents, countP_sortFiles]
    rfl
  · rw [List.map_append, hadv.readings, List.length_append, ← List.range'_append_1, List.map_append,
      hadv.reads_eq]
    rfl
  · exact addTimespec_normalised hadv.proper.working hlast
  · have hworking : c.timeWorking.ns = 0 + total is := hadv.working
    rw [addTimespec_ns, diffTimespec_ns, hworking, total_append, total_cons, total_nil]
    omega
  · have hswitches : c.contextSwitchCount = 0 + is.length := hadv.switches
    rw [List.length_append, List.length_singleton, hswitches, Nat.zero_add]

/-- Three checks with a clock that moves on by 0.7 seconds: the second one ends an interval, and the
reading after it begins the next one. -/
theorem timeWorking_exact_sevenTenths :
    let clock : ℕ → Timespec := fun n => .ofNsec (n * 700000000)
    (∃ events intervals context, coroutineFuncF clock 3 (createCoroutineContext ⟨0, 0⟩ 1000000) =
        (.started (clock 0) :: events, context) ∧
      Runs (1000000 * 1000) (clock 0) events intervals ∧ events.countP Event.isCheck = 3 ∧
      events.map Event.reading = (List.range' 1 events.length).map clock ∧
      context.timeWorking.Normalised ∧ context.timeWorking.ns = total intervals ∧
      intervals.length = context.contextSwitchCount + 1) ∧
    (coroutineFuncF clock 3 (createCoroutineContext ⟨0, 0⟩ 1000000)).2.timeWorking = ⟨2, 800000000⟩ :=
  ⟨timeWorking_exact (fun _ => Timespec.ofNsec_normalised (by omega)) (by decide) ⟨0, 0⟩ 3, by decide⟩

end SystemsProgramming.Sorting.Clock

import SystemsProgramming.Foundation.Handling
import SystemsProgramming.Sorting.Clock
import SystemsProgramming.Sorting.Pool
import Mathlib.Algebra.BigOperators.Group.List.Basic

/-! The pool of `1/solution.c` with its clock. Beside the memory in which the coroutines sort there are
their contexts, and each check of the quantum reads the clock. A coroutine reads it again when it goes on, so
its time is its own: what the coroutines have worked, all together, is no more than the time that has gone
by. -/

namespace SystemsProgramming.Sorting.Timed

open Libcoro Transition

def timespecToMicroseconds (time : Timespec) : ℤ := time.tvSec * 1000000 + time.tvNsec.tdiv 1000

/-- The numbers in the line that a coroutine prints at its end. -/
structure Line where
  name : ℕ
  contextSwitchCount : ℕ
  microseconds : ℤ
  deriving DecidableEq

/-- How often the clock has been read, the contexts that are not freed, and what is printed. -/
structure Clocks where
  reads : ℕ
  contexts : List (Option Clock.Context)
  printed : List Line

section
variable (clock : ℕ → Timespec)

def clockGettime : Code Clocks Timespec := do
  let m ← Code.read
  Code.write { m with reads := m.reads + 1 }
  return clock m.reads

def loadContext (name : ℕ) : Code Clocks Clock.Context := do
  let m ← Code.read
  match m.contexts[name]? with
  | some (some context) => return context
  | _ => .stuck

/-- After a load. -/
def storeContext (name : ℕ) (context : Clock.Context) : Code Clocks Unit := do
  let m ← Code.read
  Code.write { m with contexts := m.contexts.set name (some context) }

/-- `clock_gettime(CLOCK_MONOTONIC, &context->start_timespec)` -/
def setStartTimespec (name : ℕ) : Code Clocks Unit := do
  let now ← clockGettime clock
  let context ← loadContext name
  storeContext name { context with startTimespec := now }

def coroYieldWithRespectToQuantum (name : ℕ) : Code Clocks Unit := do
  let now ← clockGettime clock
  let context ← loadContext name
  let timeSpentThisRun := Clock.diffTimespec now context.startTimespec
  if Clock.gteTimespec timeSpentThisRun context.quantumSoftLimit then
    storeContext name { context with
      contextSwitchCount := context.contextSwitchCount + 1
      timeWorking := Clock.addTimespec context.timeWorking timeSpentThisRun }
    Code.giveWay
    setStartTimespec clock name
  else return ()

/-- What `coroutine_func_f` does after its loop. The line is printed and the context is freed at once. -/
def finish (name : ℕ) : Code Clocks Unit := do
  let now ← clockGettime clock
  let context ← loadContext name
  let lastDiff := Clock.diffTimespec now context.startTimespec
  let timeWorking := Clock.addTimespec context.timeWorking lastDiff
  let m ← Code.read
  Code.write { m with
    contexts := m.contexts.set name none
    printed := m.printed ++ [⟨name, context.contextSwitchCount, timespecToMicroseconds timeWorking⟩] }

variable (disk : String → List ℤ)

/-- The sorting is that of the other modules; each of its checks is one with the clock. -/
def coroutineFuncF (fuel name : ℕ) : Code (World × Clocks) ℤ := do
  (setStartTimespec clock name).second
  (coroutineLoop (fun _ => true) disk fuel name fuel).handling (coroYieldWithRespectToQuantum clock name)
  (finish clock name).second
  return 0

def funcs (fuel count : ℕ) : List (Code (World × Clocks) ℤ) :=
  (List.range count).map fun name => coroutineFuncF clock disk fuel name

end

/-- When `main` waits, it has read the clock once. -/
def beforeWait (malloc : ℕ → Timespec) (targetLatency : ℤ) (count : ℕ) : Clocks where
  reads := 1
  contexts := (List.range count).map fun name =>
    some (Clock.createCoroutineContext (malloc name) (targetLatency.tdiv count))
  printed := []

structure Output where
  merged : List ℤ
  mergeMicroseconds : ℤ
  workMicroseconds : ℤ

/-- What `main` does when the coroutines are over. -/
def afterWait (clock : ℕ → Timespec) (fuel : ℕ) (x : World × Clocks) : Option Output := do
  let mergeStart := clock x.2.reads
  let merged ← outputMergedSortedNumbers x.1 fuel
  let mergeEnd := clock (x.2.reads + 1)
  let programEnd := clock (x.2.reads + 2)
  return {
    merged := merged
    mergeMicroseconds := timespecToMicroseconds (Clock.diffTimespec mergeEnd mergeStart)
    workMicroseconds := timespecToMicroseconds (Clock.diffTimespec programEnd (clock 0)) }

theorem afterWait_eq {clock : ℕ → Timespec} {fuel : ℕ} {x : World × Clocks} {merged : List ℤ}
    (h : outputMergedSortedNumbers x.1 fuel = some merged) : afterWait clock fuel x = some {
      merged := merged
      mergeMicroseconds :=
        timespecToMicroseconds (Clock.diffTimespec (clock (x.2.reads + 1)) (clock x.2.reads))
      workMicroseconds :=
        timespecToMicroseconds (Clock.diffTimespec (clock (x.2.reads + 2)) (clock 0)) } := by
  rw [afterWait, h]
  rfl

/-! ### The books -/

/-- The clock does not go back. -/
def Forward (clock : ℕ → Timespec) : Prop := ∀ n n', n ≤ n' → (clock n).ns ≤ (clock n').ns

/-- The nanoseconds in a context. -/
def work : Option Clock.Context → ℤ
  | some context => context.timeWorking.ns
  | none => 0

namespace Clocks

/-- The nanoseconds that have been counted so far, in contexts and in lines. -/
def account (m : Clocks) : ℤ :=
  (m.contexts.map work).sum + (m.printed.map fun l => l.microseconds * 1000).sum

/-- What there is of a coroutine. -/
def own (m : Clocks) (p : ℕ) : Option (Option Clock.Context) × List Line :=
  (m.contexts[p]?, m.printed.filter fun l => l.name = p)

def setContext (m : Clocks) (p : ℕ) (x : Option Clock.Context) : Clocks :=
  { m with contexts := m.contexts.set p x }

def tick (m : Clocks) : Clocks := { m with reads := m.reads + 1 }

def print (m : Clocks) (l : Line) : Clocks := { m with printed := m.printed ++ [l] }

end Clocks

section
variable (clock : ℕ → Timespec) (quantum : ℤ) (count : ℕ)

/-- No more is counted than the time between the first reading and the last one. -/
structure Audited (m : Clocks) : Prop where
  reads : 0 < m.reads
  contexts : m.contexts.length = count
  account : m.account ≤ (clock (m.reads - 1)).ns - (clock 0).ns
  names : ∀ l ∈ m.printed, l.name < count
  switches : ∀ l ∈ m.printed, l.contextSwitchCount * quantum ≤ l.microseconds

def Rely (p : ℕ) (m m' : Clocks) : Prop :=
  Audited clock quantum count m → Audited clock quantum count m' ∧ m'.own p = m.own p

def Guarantee (p : ℕ) (m m' : Clocks) : Prop :=
  Audited clock quantum count m → Audited clock quantum count m' ∧ ∀ q, q ≠ p → m'.own q = m.own q

/-- The context of a coroutine that is not over: each switch has used up the quantum. -/
structure Credited (context : Clock.Context) : Prop where
  limit : context.quantumSoftLimit = Clock.microsecondsToTimespec quantum
  working : context.timeWorking.Normalised
  switches : context.contextSwitchCount * quantum * 1000 ≤ context.timeWorking.ns

/-- A coroutine that does not run. -/
structure Ready (p : ℕ) (m : Clocks) : Prop where
  audited : Audited clock quantum count m
  own : ∃ context, m.own p = (some (some context), []) ∧ Credited quantum context

/-- A coroutine that runs: what is counted was before its interval. -/
structure Running (p : ℕ) (m : Clocks) : Prop where
  audited : Audited clock quantum count m
  own : ∃ context, m.own p = (some (some context), []) ∧ Credited quantum context ∧
    context.startTimespec.Normalised ∧
    m.account ≤ context.startTimespec.ns - (clock 0).ns ∧
    context.startTimespec.ns ≤ (clock (m.reads - 1)).ns

/-- A coroutine that is over has printed one line. -/
structure Finished (p : ℕ) (m : Clocks) : Prop where
  audited : Audited clock quantum count m
  own : ∃ l, m.own p = (some none, [l])

end

namespace Clocks

variable {m : Clocks} {p q : ℕ} {x y : Option Clock.Context} {c : Option (Option Clock.Context)} {l : Line}
  {ls : List Line}

theorem account_setContext (h : m.contexts[p]? = some x) (y : Option Clock.Context) :
    (m.setContext p y).account = m.account + (work y - work x) := by
  obtain ⟨hlt, hget⟩ := List.getElem?_eq_some_iff.mp h
  have hlt' : p < (m.contexts.map work).length := by rwa [List.length_map]
  have hsum : ((m.contexts.set p y).map work).sum = (m.contexts.map work).sum + (work y - work x) := by
    rw [List.map_set, List.sum_set', dif_pos hlt', List.getElem_map, hget]
    omega
  unfold account setContext
  dsimp only
  omega

theorem account_print (m : Clocks) (l : Line) :
    (m.print l).account = m.account + l.microseconds * 1000 := by
  simp only [account, print, List.map_append, List.sum_append, List.map_cons, List.map_nil,
    List.sum_cons, List.sum_nil]
  omega

theorem own_setContext_self (h : m.own p = (some x, ls)) (y : Option Clock.Context) :
    (m.setContext p y).own p = (some y, ls) := by
  obtain ⟨hx, hls⟩ := Prod.mk.inj h
  exact Prod.ext (List.getElem?_set_self (List.getElem?_eq_some_iff.mp hx).1) hls

theorem own_setContext_of_ne (hne : q ≠ p) : (m.setContext p y).own q = m.own q :=
  Prod.ext (List.getElem?_set_ne hne.symm) rfl

theorem own_print_self (h : m.own l.name = (c, ls)) : (m.print l).own l.name = (c, ls ++ [l]) := by
  obtain ⟨hx, hls⟩ := Prod.mk.inj h
  refine Prod.ext hx ?_
  show (m.printed ++ [l]).filter _ = _
  rw [List.filter_append, hls]
  simp

theorem own_print_of_ne (hne : q ≠ l.name) : (m.print l).own q = m.own q := by
  refine Prod.ext rfl ?_
  show (m.printed ++ [l]).filter _ = m.printed.filter _
  rw [List.filter_append]
  simp [hne.symm]

end Clocks

variable {clock : ℕ → Timespec} {quantum : ℤ} {count p : ℕ} {m : Clocks} {context : Clock.Context}

theorem timespecToMicroseconds_eq {time : Timespec} (h : time.Normalised) :
    timespecToMicroseconds time = time.ns / 1000 := by
  unfold timespecToMicroseconds Timespec.ns
  rw [Int.tdiv_eq_ediv_of_nonneg h.1]
  omega

/-- The quantum that is used up is at least the limit, also when the latency is negative. -/
theorem quantum_le_of_gteTimespec {spent : Timespec} (hspent : spent.Normalised) (hns : 0 ≤ spent.ns)
    (h : Clock.gteTimespec spent (Clock.microsecondsToTimespec quantum) = true) :
    quantum * 1000 ≤ spent.ns := by
  by_cases hq : 0 ≤ quantum
  · have hlimit := Timespec.ofNsec_normalised (Int.mul_nonneg hq (by decide : (0 : ℤ) ≤ 1000))
    rw [Clock.microsecondsToTimespec_eq, Clock.gteTimespec_iff hspent hlimit, Timespec.ofNsec_ns] at h
    exact h
  · omega

theorem Credited.switch (h : Credited quantum context) {spent : Timespec} (hspent : spent.Normalised)
    (hquantum : quantum * 1000 ≤ spent.ns) : Credited quantum { context with
      contextSwitchCount := context.contextSwitchCount + 1
      timeWorking := Clock.addTimespec context.timeWorking spent } where
  limit := h.limit
  working := Clock.addTimespec_normalised h.working hspent
  switches := by
    have hswitches := h.switches
    rw [Clock.addTimespec_ns, Nat.cast_succ, Int.add_mul, Int.add_mul, Int.one_mul]
    omega

/-! ### Rely and guarantee -/

theorem guarantee_refl (p : ℕ) (m : Clocks) : Guarantee clock quantum count p m m :=
  fun h => ⟨h, fun _ _ => rfl⟩

theorem compatible (clock : ℕ → Timespec) (quantum : ℤ) (count : ℕ) :
    Compatible (Rely clock quantum count) (Guarantee clock quantum count)
      fun p (_ : ℤ) => Finished clock quantum count p where
  guarantee p q hne m m' h hm := ⟨(h hm).1, (h hm).2 q hne.symm⟩
  refl p m hm := ⟨hm, rfl⟩
  trans p m m' m'' h h' hm := by
    obtain ⟨hm', hown⟩ := h hm
    obtain ⟨hm'', hown'⟩ := h' hm'
    exact ⟨hm'', hown'.trans hown⟩
  post p _ m m' h hR := by
    obtain ⟨hm', hown⟩ := hR h.audited
    obtain ⟨l, hl⟩ := h.own
    exact ⟨hm', l, hown.trans hl⟩

theorem Ready.mono {m' : Clocks} (h : Ready clock quantum count p m)
    (hR : Rely clock quantum count p m m') : Ready clock quantum count p m' := by
  obtain ⟨hm', hown⟩ := hR h.audited
  obtain ⟨context, hcontext, hcredited⟩ := h.own
  exact ⟨hm', context, hown.trans hcontext, hcredited⟩

/-! ### A coroutine and its context -/

/-- What a coroutine needs of the clocks to come to this end. -/
abbrev Runs {α : Type} (clock : ℕ → Timespec) (quantum : ℤ) (count p : ℕ) (c : Code Clocks α)
    (Q : α → Clocks → Prop) (m : Clocks) : Prop :=
  c.wp (Rely clock quantum count p) (Guarantee clock quantum count p) Q m

theorem Audited.setContext (h : Audited clock quantum count m) {x y : Option Clock.Context} {ls : List Line}
    (hown : m.own p = (some x, ls))
    (hle : m.account + (work y - work x) ≤ (clock (m.reads - 1)).ns - (clock 0).ns) :
    Audited clock quantum count (m.setContext p y) where
  reads := h.reads
  contexts := (List.length_set ..).trans h.contexts
  account := by
    rw [Clocks.account_setContext (Prod.mk.inj hown).1]
    exact hle
  names := h.names
  switches := h.switches

/-- A context is freed and a line is printed instead. -/
theorem Audited.close (h : Audited clock quantum count m) {x : Option Clock.Context} {ls : List Line}
    (hown : m.own p = (some x, ls)) {l : Line} (hname : l.name < count)
    (hswitches : l.contextSwitchCount * quantum ≤ l.microseconds)
    (hle : m.account - work x + l.microseconds * 1000 ≤ (clock (m.reads - 1)).ns - (clock 0).ns) :
    Audited clock quantum count ((m.setContext p none).print l) where
  reads := h.reads
  contexts := (List.length_set ..).trans h.contexts
  account := by
    rw [Clocks.account_print, Clocks.account_setContext (Prod.mk.inj hown).1, work, Int.zero_sub]
    exact hle
  names l' hl' := by
    rcases List.mem_append.mp hl' with hl' | hl'
    · exact h.names l' hl'
    · rwa [List.mem_singleton.mp hl']
  switches l' hl' := by
    rcases List.mem_append.mp hl' with hl' | hl'
    · exact h.switches l' hl'
    · rwa [List.mem_singleton.mp hl']

theorem runs_loadContext {ls : List Line} (h : m.own p = (some (some context), ls))
    {Q : Clock.Context → Clocks → Prop} (hQ : Q context m) :
    Runs clock quantum count p (loadContext p) Q m := by
  simp only [Runs, loadContext, Code.wp_bind, Code.wp_read, (Prod.mk.inj h).1]
  exact hQ

theorem runs_storeContext (h : Audited clock quantum count (m.setContext p (some context)))
    {Q : Unit → Clocks → Prop} (hQ : Q () (m.setContext p (some context))) :
    Runs clock quantum count p (storeContext p context) Q m := by
  simp only [Runs, storeContext, Code.wp_bind, Code.wp_read, Code.wp_write]
  exact ⟨fun _ => ⟨h, fun q hq => Clocks.own_setContext_of_ne hq⟩, hQ⟩

section
variable (hforward : Forward clock)

include hforward

theorem Audited.tick (h : Audited clock quantum count m) : Audited clock quantum count m.tick where
  reads := Nat.succ_pos _
  contexts := h.contexts
  account := h.account.trans (Int.sub_le_sub_right (hforward _ _ (Nat.sub_le ..)) _)
  names := h.names
  switches := h.switches

theorem runs_clockGettime (h : Audited clock quantum count m) {Q : Timespec → Clocks → Prop}
    (hQ : Q (clock m.reads) m.tick) : Runs clock quantum count p (clockGettime clock) Q m := by
  simp only [Runs, clockGettime, Code.wp_bind, Code.wp_read, Code.wp_write, Code.wp_pure]
  exact ⟨fun _ => ⟨h.tick hforward, fun _ _ => rfl⟩, hQ⟩

variable (hclock : ∀ n, (clock n).Normalised)

include hclock

/-- An interval begins after all that has been counted. -/
theorem runs_setStartTimespec (h : Ready clock quantum count p m) {Q : Unit → Clocks → Prop}
    (hQ : ∀ m', Running clock quantum count p m' → Q () m') :
    Runs clock quantum count p (setStartTimespec clock p) Q m := by
  obtain ⟨context, hown, hcredited⟩ := h.own
  have htick := h.audited.tick hforward
  have hown' : m.tick.own p = (some (some context), []) := hown
  have haccount := Clocks.account_setContext (Prod.mk.inj hown').1
    (some { context with startTimespec := clock m.reads })
  have hwork : work (some { context with startTimespec := clock m.reads }) = work (some context) := rfl
  rw [hwork, Int.sub_self, Int.add_zero] at haccount
  have haudited := htick.setContext (y := some { context with startTimespec := clock m.reads }) hown' (by
    rw [hwork, Int.sub_self, Int.add_zero]
    exact htick.account)
  rw [Runs, setStartTimespec, Code.wp_bind]
  refine runs_clockGettime hforward h.audited ?_
  rw [Code.wp_bind]
  refine runs_loadContext hown' (runs_storeContext haudited (hQ _ ?_))
  refine ⟨haudited, _, Clocks.own_setContext_self hown' _, ⟨hcredited.limit, hcredited.working,
    hcredited.switches⟩, hclock _, ?_, le_rfl⟩
  rw [haccount]
  exact htick.account

/-- The interval of a coroutine that runs, at the next reading. -/
theorem spent_spec {start : Timespec} (hstart : start.Normalised)
    (hbefore : m.account ≤ start.ns - (clock 0).ns) (hle : start.ns ≤ (clock (m.reads - 1)).ns) :
    (Clock.diffTimespec (clock m.reads) start).Normalised ∧
      0 ≤ (Clock.diffTimespec (clock m.reads) start).ns ∧
      m.account + (Clock.diffTimespec (clock m.reads) start).ns ≤ (clock m.reads).ns - (clock 0).ns := by
  have hnow : (clock (m.reads - 1)).ns ≤ (clock m.reads).ns := hforward _ _ (Nat.sub_le ..)
  have hns := Clock.diffTimespec_ns (clock m.reads) start
  exact ⟨Clock.diffTimespec_normalised (hclock _) hstart, by omega, by omega⟩

/-- A check keeps the interval or ends it and begins another one. -/
theorem runs_coroYieldWithRespectToQuantum (h : Running clock quantum count p m) :
    Runs clock quantum count p (coroYieldWithRespectToQuantum clock p)
      (fun _ => Running clock quantum count p) m := by
  obtain ⟨context, hown, hcredited, hstart, hbefore, hle⟩ := h.own
  have htick := h.audited.tick hforward
  have hown' : m.tick.own p = (some (some context), []) := hown
  obtain ⟨hspent, hnonneg, hsum⟩ := spent_spec hforward hclock hstart hbefore hle
  rw [Runs, coroYieldWithRespectToQuantum, Code.wp_bind]
  refine runs_clockGettime hforward h.audited ?_
  rw [Code.wp_bind]
  refine runs_loadContext hown' ?_
  dsimp only
  split_ifs with hgte
  · rw [hcredited.limit] at hgte
    have hcredited' := hcredited.switch hspent (quantum_le_of_gteTimespec hspent hnonneg hgte)
    have haudited := htick.setContext hown' (y := some { context with
      contextSwitchCount := context.contextSwitchCount + 1
      timeWorking := Clock.addTimespec context.timeWorking
        (Clock.diffTimespec (clock m.reads) context.startTimespec) }) (by
      simp only [work, Clock.addTimespec_ns]
      show m.account + _ ≤ (clock m.reads).ns - _
      omega)
    rw [Code.wp_bind]
    refine runs_storeContext haudited ?_
    rw [Code.wp_bind, Code.wp_giveWay]
    intro m' hR
    have hready := Ready.mono ⟨haudited, _, Clocks.own_setContext_self hown' _, hcredited'⟩ hR
    exact runs_setStartTimespec hforward hclock hready fun _ hrunning => hrunning
  · exact ⟨htick, context, hown', hcredited, hstart, hbefore, hle.trans (hforward _ _ (Nat.sub_le ..))⟩

/-- The line of a coroutine tells no more than its context. -/
theorem runs_finish (h : Running clock quantum count p m) (hp : p < count) :
    Runs clock quantum count p (finish clock p) (fun _ => Finished clock quantum count p) m := by
  obtain ⟨context, hown, hcredited, hstart, hbefore, hle⟩ := h.own
  have htick := h.audited.tick hforward
  have hown' : m.tick.own p = (some (some context), []) := hown
  obtain ⟨hspent, hnonneg, hsum⟩ := spent_spec hforward hclock hstart hbefore hle
  have hworking := Clock.addTimespec_normalised hcredited.working hspent
  have hmicroseconds := timespecToMicroseconds_eq hworking
  rw [Clock.addTimespec_ns] at hmicroseconds
  have hswitches := hcredited.switches
  generalize hl : (⟨p, context.contextSwitchCount, timespecToMicroseconds (Clock.addTimespec
    context.timeWorking (Clock.diffTimespec (clock m.reads) context.startTimespec))⟩ : Line) = l
  have hname : l.name = p := hl ▸ rfl
  have hfreed := Clocks.own_setContext_self hown' none
  rw [← hname] at hfreed
  have haudited := htick.close hown' (l := l) (hname ▸ hp) (by rw [← hl]; dsimp only; omega) (by
    rw [← hl]
    show m.account - context.timeWorking.ns + _ ≤ (clock m.reads).ns - _
    dsimp only
    omega)
  rw [Runs, finish, Code.wp_bind]
  refine runs_clockGettime hforward h.audited ?_
  rw [Code.wp_bind]
  refine runs_loadContext hown' ?_
  simp only [Code.wp_bind, Code.wp_read, Code.wp_write, hl]
  refine ⟨fun _ => ⟨haudited, fun q hq => ?_⟩, haudited, l, ?_⟩
  · show ((m.tick.setContext p none).print l).own q = m.own q
    rw [Clocks.own_print_of_ne (hname ▸ hq), Clocks.own_setContext_of_ne hq]
    rfl
  · rw [← hname]
    exact Clocks.own_print_self hfreed

end

theorem beforeWait_own (malloc : ℕ → Timespec) (targetLatency : ℤ) (hp : p < count) :
    (beforeWait malloc targetLatency count).own p =
      (some (some (Clock.createCoroutineContext (malloc p) (targetLatency.tdiv count))), []) := by
  refine Prod.ext ?_ rfl
  show ((List.range count).map _)[p]? = _
  rw [List.getElem?_map, List.getElem?_range hp, Option.map_some]

theorem beforeWait_audited (clock malloc : ℕ → Timespec) (targetLatency : ℤ) (count : ℕ) :
    Audited clock (targetLatency.tdiv count) count (beforeWait malloc targetLatency count) where
  reads := Nat.zero_lt_one
  contexts := by simp [beforeWait]
  account := by
    have hzero : ∀ x ∈ (beforeWait malloc targetLatency count).contexts.map work, x = 0 := by
      intro x hx
      obtain ⟨y, hy, rfl⟩ := List.mem_map.mp hx
      obtain ⟨name, -, rfl⟩ := List.mem_map.mp hy
      rfl
    show List.sum _ + 0 ≤ (clock 0).ns - (clock 0).ns
    rw [List.sum_eq_zero hzero]
    omega
  names l hl := by cases hl
  switches l hl := by cases hl

theorem beforeWait_ready (clock malloc : ℕ → Timespec) (targetLatency : ℤ) (hp : p < count) :
    Ready clock (targetLatency.tdiv count) count p (beforeWait malloc targetLatency count) where
  audited := beforeWait_audited clock malloc targetLatency count
  own := by
    have hworking : (Timespec.mk 0 0).Normalised := by decide
    refine ⟨_, beforeWait_own malloc targetLatency hp, rfl, hworking, ?_⟩
    show (0 : ℤ) * _ * 1000 ≤ 0
    omega

/-! ### The pool -/

section
variable {disk : String → List ℤ} {fileNames : List String} {fuel : ℕ} {w w' : World}

theorem idle_mono (h : Idle disk fileNames p w) (hR : Sorting.Rely disk fileNames p w w') :
    Idle disk fileNames p w' := by
  have hk := hR h.orderly
  refine ⟨hk.orderly, fun i hi => ?_⟩
  have hi' := hk.mine _ hi rfl
  obtain ⟨data, hdata⟩ := h.set i hi'
  exact ⟨data, (hk.slots i hi').trans hdata⟩

variable (hforward : Forward clock) (hclock : ∀ n, (clock n).Normalised)

include hforward hclock

theorem runs_coroutineFuncF (hidle : Idle disk fileNames p w) (hready : Ready clock quantum count p m)
    (hfuel : Ample disk fileNames fuel) (hp : p < count) :
    (coroutineFuncF clock disk fuel p).wp
      (Both (Sorting.Rely disk fileNames p) (Rely clock quantum count p))
      (Both (Sorting.Guarantee disk fileNames p) (Guarantee clock quantum count p))
      (fun a x => Sorting.Finished disk fileNames p a x.1 ∧ Finished clock quantum count p x.2) (w, m) := by
  have hG : ∀ w, Sorting.Guarantee disk fileNames p w w := fun w h => Does.clock h w.calls
  have hsorting := Sorting.compatible disk fileNames
  rw [coroutineFuncF, Code.wp_bind]
  refine Code.wp_second hG (hsorting.trans p)
    (runs_setStartTimespec hforward hclock hready (Q := fun _ => Running clock quantum count p)
      fun _ hrunning => hrunning) (hsorting.refl p w)
    fun _ w₁ m₁ hR₁ hrunning => ?_
  rw [Code.wp_bind]
  have hrounds : fileNames.length - w₁.queue.filePtr < fuel := Nat.lt_of_le_of_lt (Nat.sub_le _ _) hfuel.1
  refine Code.wp_handling hG (guarantee_refl p) (hsorting.refl p) (hsorting.trans p)
    (fun m hm => runs_coroYieldWithRespectToQuantum hforward hclock hm)
    (runs_coroutineLoop (idle_mono hidle hR₁) hfuel.2 hrounds
      (Q := fun _ w => Sorting.Finished disk fileNames p 0 w)
      fun w h hptr => ⟨rfl, h.orderly, hptr, h.set⟩) hrunning fun _ w₂ m₂ hsorted hrunning => ?_
  rw [Code.wp_bind]
  refine Code.wp_second hG (hsorting.trans p) (runs_finish hforward hclock hrunning hp) (hsorting.refl p w₂)
    fun _ w₃ m₃ hR₃ hfinished => ?_
  exact ⟨hsorting.post p 0 w₂ w₃ hsorted hR₃, hfinished⟩

end

/-- What is known of the plan. -/
structure Pooled (clock : ℕ → Timespec) (quantum : ℤ) (disk : String → List ℤ) (fileNames : List String)
    (count : ℕ) (p : Plan (World × Clocks)) : Prop where
  valid : p.Valid
  teamed : Teamed (fun i => Both (Sorting.Rely disk fileNames i) (Rely clock quantum count i))
    (fun i => Both (Sorting.Guarantee disk fileNames i) (Guarantee clock quantum count i))
    (fun i a x => Sorting.Finished disk fileNames i a x.1 ∧ Finished clock quantum count i x.2) count p
  orderly : Orderly disk fileNames p.shared.1
  names : ∀ r ∈ p.shared.1.log, r.name < count
  audited : Audited clock quantum count p.shared.2

namespace Pooled

variable {disk : String → List ℤ} {fileNames : List String} {fuel : ℕ} {p p' : Plan (World × Clocks)}
  {e : Libcoro.Event}

theorem step (h : Pooled clock quantum disk fileNames count p) (hstep : Plan.Step p e p') :
    Pooled clock quantum disk fileNames count p' := by
  have hteamed := h.teamed.step ((Sorting.compatible disk fileNames).both (compatible clock quantum count))
    h.valid hstep
  rcases h.teamed.guarantee h.valid hstep with hsame | ⟨c, hc, -, hwrites, hclocks⟩
  · exact ⟨h.valid.step hstep, hteamed, hsame ▸ h.orderly, hsame ▸ h.names, hsame ▸ h.audited⟩
  · have hdoes := hwrites h.orderly
    refine ⟨h.valid.step hstep, hteamed, hdoes.orderly, fun r hr => ?_, (hclocks h.audited).1⟩
    by_cases hname : r.name = c
    · rwa [hname]
    · exact h.names r (hdoes.others r hr hname)

theorem initial (hforward : Forward clock) (hclock : ∀ n, (clock n).Normalised)
    (malloc : ℕ → Timespec) (targetLatency : ℤ) (hfuel : Ample disk fileNames fuel) :
    Pooled clock (targetLatency.tdiv count) disk fileNames count
      (.initial (funcs clock disk fuel count)
        (createFileQueue fileNames, beforeWait malloc targetLatency count)) where
  valid := Plan.valid_initial _ _
  teamed := by
    have hlength : (funcs clock disk fuel count).length = count := by
      rw [funcs, List.length_map, List.length_range]
    conv => arg 4; rw [← hlength]
    refine Teamed.initial fun c func hfunc x hx => ?_
    rw [funcs, List.getElem?_map] at hfunc
    obtain ⟨name, hname, rfl⟩ := Option.map_eq_some_iff.mp hfunc
    obtain ⟨hlt, hget⟩ := List.getElem?_eq_some_iff.mp hname
    rw [List.length_range] at hlt
    rw [List.getElem_range] at hget
    obtain rfl := hget
    have hidle : Idle disk fileNames c (createFileQueue fileNames) :=
      ⟨orderly_createFileQueue disk fileNames, fun i hi => by cases hi⟩
    exact runs_coroutineFuncF hforward hclock (idle_mono hidle hx.1)
      ((beforeWait_ready clock malloc targetLatency hlt).mono hx.2) hfuel hlt
  orderly := orderly_createFileQueue disk fileNames
  names r hr := by cases hr
  audited := beforeWait_audited clock malloc targetLatency count

end Pooled

/-! ### The report -/

/-- What is written and printed in the end. -/
structure Reported (quantum : ℤ) (disk : String → List ℤ) (fileNames : List String) (count : ℕ) (m : Clocks)
    (out : Output) : Prop where
  merged : out.merged = ascending (fileNames.flatMap disk)
  /-- Each context is freed, and each coroutine has a line. -/
  contexts : m.contexts = List.replicate count none
  names : (m.printed.map Line.name).Perm (List.range count)
  switches : ∀ l ∈ m.printed, l.contextSwitchCount * quantum ≤ l.microseconds
  total : (m.printed.map Line.microseconds).sum + out.mergeMicroseconds ≤ out.workMicroseconds

namespace Audited

theorem contexts_eq (h : Audited clock quantum count m)
    (hfinished : ∀ p, p < count → Finished clock quantum count p m) :
    m.contexts = List.replicate count none := by
  refine List.eq_replicate_iff.mpr ⟨h.contexts, fun x hx => ?_⟩
  obtain ⟨p, hlt, rfl⟩ := List.mem_iff_getElem.mp hx
  obtain ⟨l, hl⟩ := (hfinished p (h.contexts ▸ hlt)).own
  exact Option.some.inj ((List.getElem?_eq_getElem hlt).symm.trans (Prod.mk.inj hl).1)

theorem names_perm (h : Audited clock quantum count m)
    (hfinished : ∀ p, p < count → Finished clock quantum count p m) :
    (m.printed.map Line.name).Perm (List.range count) := by
  refine List.perm_iff_count.mpr fun p => ?_
  rw [List.nodup_range.count, List.count, List.countP_map, List.countP_eq_length_filter]
  by_cases hp : p < count
  · obtain ⟨l, hl⟩ := (hfinished p hp).own
    rw [if_pos (List.mem_range.mpr hp)]
    exact congrArg List.length (Prod.mk.inj hl).2
  · rw [if_neg (List.mem_range.not.mpr hp), List.length_eq_zero_iff, List.filter_eq_nil_iff]
    rintro l hl hname
    exact hp (beq_iff_eq.mp hname ▸ h.names l hl)

/-- When the contexts are freed, the lines tell everything that is counted. -/
theorem printed_le (h : Audited clock quantum count m) (hcontexts : m.contexts = List.replicate count none) :
    (m.printed.map Line.microseconds).sum * 1000 ≤ (clock (m.reads - 1)).ns - (clock 0).ns := by
  have haccount := h.account
  have hwork : work none = 0 := rfl
  rw [Clocks.account, hcontexts, List.map_replicate, List.sum_replicate, hwork, smul_zero, Int.zero_add,
    List.sum_map_mul_right] at haccount
  exact haccount

end Audited

theorem Pooled.reported {disk : String → List ℤ} {fileNames : List String} {fuel : ℕ}
    {p : Plan (World × Clocks)} (h : Pooled clock quantum disk fileNames count p)
    (hforward : Forward clock) (hclock : ∀ n, (clock n).Normalised) (hcount : 1 ≤ count)
    (hdone : p.phase = .done) (hfuel : (fileNames.flatMap disk).length < fuel) :
    ∃ out, afterWait clock fuel p.shared = some out ∧
      Reported quantum disk fileNames count p.shared.2 out := by
  have hended : ∀ c, c < count → Sorting.Finished disk fileNames c 0 p.shared.1 ∧
      Finished clock quantum count c p.shared.2 := fun c hc => by
    obtain ⟨v, -, hsorted, hfinished⟩ := h.teamed.ended
      ((Sorting.compatible disk fileNames).both (compatible clock quantum count)) h.valid hdone hc
    obtain rfl := hsorted.value
    exact ⟨hsorted, hfinished⟩
  have hset : ∀ i, i < fileNames.length → p.shared.1.IsSet i := fun i hi => by
    have hptr := (hended 0 hcount).1.ptr
    obtain ⟨c, hc⟩ := h.orderly.claimed_iff.mpr (Nat.lt_of_lt_of_le hi hptr)
    exact (hended c (h.names _ hc)).1.set i hc
  have hcontexts := h.audited.contexts_eq fun c hc => (hended c hc).2
  refine ⟨_, afterWait_eq (outputMergedSortedNumbers_eq h.orderly hset hfuel), rfl, hcontexts,
    h.audited.names_perm fun c hc => (hended c hc).2, h.audited.switches, ?_⟩
  have hprinted := h.audited.printed_le hcontexts
  have hlast : (clock (p.shared.2.reads - 1)).ns ≤ (clock p.shared.2.reads).ns := hforward _ _ (Nat.sub_le ..)
  have hend : (clock (p.shared.2.reads + 1)).ns ≤ (clock (p.shared.2.reads + 2)).ns :=
    hforward _ _ (Nat.le_succ _)
  show _ + timespecToMicroseconds _ ≤ timespecToMicroseconds _
  rw [timespecToMicroseconds_eq (Clock.diffTimespec_normalised (hclock _) (hclock _)),
    timespecToMicroseconds_eq (Clock.diffTimespec_normalised (hclock _) (hclock _)),
    Clock.diffTimespec_ns, Clock.diffTimespec_ns]
  omega

/-- With a clock that does not go back, and with enough fuel for the recursion: from every state the loop of
`main` comes to its end; then the merged numbers are written, each coroutine has printed its line, and the
times in the lines and the time of the merge add up to no more than the time of the whole program. -/
theorem pool_timed (disk : String → List ℤ) (fileNames : List String) :
    ∃ bound, ∀ (clock malloc : ℕ → Timespec) (targetLatency : ℤ) (count fuel : ℕ),
      (∀ n, (clock n).Normalised) → Forward clock → 1 ≤ count → bound ≤ fuel →
      ∃ s₀, State.start (funcs clock disk fuel count)
          (createFileQueue fileNames, beforeWait malloc targetLatency count) = some s₀ ∧
        ∀ es s, Run State.Step s₀ es s →
          (∃ es' s', Run State.Step s es' s' ∧ s'.control = .done) ∧
          (s.control = .done → ∃ out, afterWait clock fuel s.shared = some out ∧
            Reported (targetLatency.tdiv count) disk fileNames count s.shared.2 out) := by
  obtain ⟨bound, hbound⟩ := exists_ample disk fileNames
  refine ⟨bound + (fileNames.flatMap disk).length + 1,
    fun clock malloc targetLatency count fuel hclock hforward hcount hfuel => ?_⟩
  obtain ⟨s₀, hstart, -, h₀⟩ := start_eq (funcs clock disk fuel count)
    (createFileQueue fileNames, beforeWait malloc targetLatency count)
  refine ⟨s₀, hstart, fun es s hrun => ?_⟩
  obtain ⟨p, hplan, hs, hp⟩ := h₀.run (Plan.valid_initial _ _) hrun
  have hpooled : Pooled clock (targetLatency.tdiv count) disk fileNames count p :=
    hplan.invariant (I := Pooled clock (targetLatency.tdiv count) disk fileNames count)
      (.initial hforward hclock malloc targetLatency (hbound fuel (by omega)))
      fun _ _ _ h hstep => h.step hstep
  refine ⟨?_, fun hdone => ?_⟩
  · exact Represents.comes_to_end (I := Pooled clock (targetLatency.tdiv count) disk fileNames count)
      (fun _ _ _ h _ hstep => h.step hstep) (fun _ _ h hp hphase => h.teamed.not_stuck hp hphase) hs hp
      hpooled
  · rw [hs.shared]
    exact hpooled.reported hforward hclock hcount (hs.phase_done hdone) (by omega)

/-- Two coroutines and two files, with a clock that moves on by a microsecond at each reading. -/
theorem pool_timed_two : ∃ fuel s₀ es s out,
    State.start (funcs (fun n => .ofNsec (n * 1000))
      (fun fileName => if fileName = "a" then [3, 1, 2] else [3, 0]) fuel 2)
      (createFileQueue ["a", "b"], beforeWait (fun _ => ⟨7, 7⟩) 4 2) = some s₀ ∧
    Run State.Step s₀ es s ∧ s.control = .done ∧
    afterWait (fun n => .ofNsec (n * 1000)) fuel s.shared = some out ∧ out.merged = [0, 1, 2, 3, 3] ∧
    (s.shared.2.printed.map Line.name).Perm [0, 1] ∧
    (s.shared.2.printed.map Line.microseconds).sum + out.mergeMicroseconds ≤ out.workMicroseconds := by
  obtain ⟨fuel, htimed⟩ :=
    pool_timed (fun fileName => if fileName = "a" then [3, 1, 2] else [3, 0]) ["a", "b"]
  have hforward : Forward fun n => .ofNsec (n * 1000) := fun n n' hle => by
    dsimp only
    rw [Timespec.ofNsec_ns, Timespec.ofNsec_ns]
    omega
  obtain ⟨s₀, hstart, hruns⟩ := htimed (fun n => .ofNsec (n * 1000)) (fun _ => ⟨7, 7⟩) 4 2 fuel
    (fun n => Timespec.ofNsec_normalised (by omega)) hforward (by decide) le_rfl
  obtain ⟨⟨es, s, hrun, hdone⟩, -⟩ := hruns [] s₀ .nil
  obtain ⟨-, hreported⟩ := hruns es s hrun
  obtain ⟨out, hout, hreport⟩ := hreported hdone
  have hascending : ([0, 1, 2, 3, 3] : List ℤ) = ascending [3, 1, 2, 3, 0] :=
    eq_ascending (by decide) (by decide)
  refine ⟨fuel, s₀, es, s, out, hstart, hrun, hdone, hout, ?_, hreport.names, hreport.total⟩
  rw [hascending]
  exact hreport.merged

end SystemsProgramming.Sorting.Timed

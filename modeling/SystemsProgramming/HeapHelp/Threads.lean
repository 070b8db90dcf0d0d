import SystemsProgramming.HeapHelp.Records
import SystemsProgramming.Foundation.Transition

/-! The leak tracker with many threads. What a thread does while it has the lock is one step, and between
the two sections of `alloc_trace_new` a thread holds a record that the others do not know of. The checks
before the first section are left out: a thread may begin at any time, even after the report at exit. -/

namespace SystemsProgramming.HeapHelp

open Transition Tracker

variable {ι : Type*}

/-- What a thread may do. -/
inductive Section (ι : Type*)
  /-- The first section of `alloc_trace_new`. -/
  | take (i : ι)
  /-- What it does between the sections. -/
  | fill (i : ι) (ptr : Address) (size : ℕ) (trace : List Address)
  /-- Its second section. -/
  | link (i : ι)
  /-- The section of `alloc_free`. -/
  | free (i : ι) (ptr : Address)

/-- The tracker and, for each thread, the record that it has taken and not linked yet. -/
structure Threads (ι : Type*) where
  tracker : Tracker
  holds : ι → Option Slot

namespace Threads

def initial (staticBuf : Option Address) : Threads ι := ⟨.initial staticBuf, fun _ => none⟩

inductive Step [DecidableEq ι] : Threads ι → Section ι → Threads ι → Prop
  | take {s : Threads ι} {i : ι} {a : Slot} {t : Tracker} :
    s.holds i = none → s.tracker.takeRecord = some (a, t) →
      Step s (.take i) ⟨t, Function.update s.holds i (some a)⟩
  | fill {s : Threads ι} {i : ι} {a : Slot} (ptr : Address) (size : ℕ) (trace : List Address) :
    s.holds i = some a →
      Step s (.fill i ptr size trace) ⟨s.tracker.fillRecord a ptr size trace, s.holds⟩
  | link {s : Threads ι} {i : ι} {a : Slot} : s.holds i = some a →
      Step s (.link i) ⟨s.tracker.linkRecord a, Function.update s.holds i none⟩
  | free {s : Threads ι} {i : ι} {ptr : Address} {t : Tracker} :
    s.holds i = none → s.tracker.freeRecord ptr = some t → Step s (.free i ptr) ⟨t, s.holds⟩
  /-- The assertion fails once the lock is released; until then the others go on. -/
  | badFree {s : Threads ι} {i : ι} {ptr : Address} :
    s.holds i = none → s.tracker.freeRecord ptr = none → Step s (.free i ptr) s

/-- Where a record can be. -/
inductive Place (ι : Type*)
  | allocs | pool
  | thread (i : ι)

/-- A record is in a place, given the two lists. -/
def At (s : Threads ι) (live spare : List Slot) (a : Slot) : Place ι → Prop
  | .allocs => a ∈ live
  | .pool => a ∈ spare
  | .thread i => s.holds i = some a

/-- Each record that was handed out is in one place, and there once. -/
structure Located (s : Threads ι) (live spare : List Slot) : Prop where
  allocs : Chain s.tracker.next s.tracker.allocs live
  pool : Chain s.tracker.next s.tracker.allocPool spare
  once : live.Nodup ∧ spare.Nodup
  place : ∀ a < s.tracker.handedOut, ∃! p, s.At live spare a p
  handedOut : ∀ a p, s.At live spare a p → a < s.tracker.handedOut
  count : s.tracker.allocCount = live.length

/-! ### The invariant -/

/-- The records that are held are listed, each for one thread. -/
structure Held (s : Threads ι) (live spare held : List Slot) : Prop where
  holdings : Holdings s.tracker live spare held
  mem : ∀ a, a ∈ held ↔ ∃ i, s.holds i = some a
  one : ∀ i j a, s.holds i = some a → s.holds j = some a → i = j

namespace Held

variable {s : Threads ι} {live spare held : List Slot}

theorem initial (staticBuf : Option Address) :
    Held (Threads.initial staticBuf : Threads ι) [] [] [] where
  holdings := .initial staticBuf
  mem a := by
    constructor
    · intro h
      cases h
    · rintro ⟨i, h⟩
      cases h
  one _ _ _ h := nomatch h

theorem located (h : Held s live spare held) : s.Located live spare := by
  have hnodup := List.nodup_append.mp h.holdings.nodup
  obtain ⟨hlists, -, hapartHeld⟩ := hnodup
  obtain ⟨hlive, hspare, hapart⟩ := List.nodup_append.mp hlists
  have hslots : ∀ a, (a ∈ live ∨ a ∈ spare) ∨ a ∈ held ↔ a < s.tracker.handedOut := fun a => by
    rw [← List.mem_append, ← List.mem_append, h.holdings.slots.mem_iff, List.mem_range]
  have hplace : ∀ a p, s.At live spare a p → a < s.tracker.handedOut := by
    intro a p hp
    rw [← hslots]
    cases p with
    | allocs => exact .inl (.inl hp)
    | pool => exact .inl (.inr hp)
    | thread i => exact .inr ((h.mem a).mpr ⟨i, hp⟩)
  refine ⟨h.holdings.allocs, h.holdings.pool, ⟨hlive, hspare⟩, ?_, hplace, h.holdings.count⟩
  intro a ha
  rcases (hslots a).mpr ha with (hmem | hmem) | hmem
  · refine ⟨.allocs, hmem, fun p hp => ?_⟩
    cases p with
    | allocs => rfl
    | pool => exact absurd rfl (hapart a hmem a hp)
    | thread i =>
      exact absurd rfl (hapartHeld a (List.mem_append_left _ hmem) a ((h.mem a).mpr ⟨i, hp⟩))
  · refine ⟨.pool, hmem, fun p hp => ?_⟩
    cases p with
    | allocs => exact absurd rfl (hapart a hp a hmem)
    | pool => rfl
    | thread i =>
      exact absurd rfl (hapartHeld a (List.mem_append_right _ hmem) a ((h.mem a).mpr ⟨i, hp⟩))
  · obtain ⟨i, hi⟩ := (h.mem a).mp hmem
    refine ⟨.thread i, hi, fun p hp => ?_⟩
    cases p with
    | allocs => exact absurd rfl (hapartHeld a (List.mem_append_left _ hp) a hmem)
    | pool => exact absurd rfl (hapartHeld a (List.mem_append_right _ hp) a hmem)
    | thread j => rw [h.one j i a hp hi]

variable [DecidableEq ι]

/-- A thread that held nothing holds a record that nobody had. -/
theorem take (h : Held s live spare held) {i : ι} {a : Slot} {t : Tracker} (hi : s.holds i = none)
    {spare' : List Slot} (ht : Holdings t live spare' (a :: held)) :
    Held ⟨t, Function.update s.holds i (some a)⟩ live spare' (a :: held) := by
  have hnew : ∀ j, s.holds j ≠ some a := fun j hj => by
    have hout := (List.nodup_cons.mp (List.nodup_append.mp ht.nodup).2.1).1
    exact hout ((h.mem a).mpr ⟨j, hj⟩)
  refine ⟨ht, fun b => ?_, fun j k b hj hk => ?_⟩
  · rw [List.mem_cons, h.mem]
    constructor
    · rintro (rfl | ⟨j, hj⟩)
      · exact ⟨i, Function.update_self ..⟩
      · refine ⟨j, (Function.update_of_ne ?_ ..).trans hj⟩
        rintro rfl
        cases hi.symm.trans hj
    · rintro ⟨j, hj⟩
      simp only [Function.update_apply] at hj
      split_ifs at hj with hji
      · exact .inl (Option.some.inj hj).symm
      · exact .inr ⟨j, hj⟩
  · simp only [Function.update_apply] at hj hk
    split_ifs at hj hk with hji hki hki
    · exact hji.trans hki.symm
    · exact absurd (hk.trans hj.symm) (hnew k)
    · exact absurd (hj.trans hk.symm) (hnew j)
    · exact h.one j k b hj hk

/-- A thread has put the record that it held into the list. -/
theorem link (h : Held s live spare held) {i : ι} {a : Slot} (hi : s.holds i = some a) :
    Held ⟨s.tracker.linkRecord a, Function.update s.holds i none⟩ (a :: live) spare
      (held.erase a) := by
  have hmem : a ∈ held := (h.mem a).mpr ⟨i, hi⟩
  have hnodup : held.Nodup := (List.nodup_append.mp h.holdings.nodup).2.1
  refine ⟨(h.holdings.perm (List.perm_cons_erase hmem)).link, fun b => ?_, fun j k b hj hk => ?_⟩
  · rw [hnodup.mem_erase_iff, h.mem]
    constructor
    · rintro ⟨hba, j, hj⟩
      refine ⟨j, (Function.update_of_ne ?_ ..).trans hj⟩
      rintro rfl
      exact hba (Option.some.inj (hj.symm.trans hi))
    · rintro ⟨j, hj⟩
      simp only [Function.update_apply] at hj
      split_ifs at hj with hji
      refine ⟨?_, j, hj⟩
      rintro rfl
      exact hji (h.one j i b hj hi)
  · simp only [Function.update_apply] at hj hk
    split_ifs at hj hk
    exact h.one j k b hj hk

theorem step (h : Held s live spare held) {e : Section ι} {s' : Threads ι} (hstep : Step s e s') :
    ∃ live' spare' held', Held s' live' spare' held' := by
  cases hstep with
  | take hi htake =>
    obtain ⟨a, t, spare', htake', hholdings, -, -⟩ := h.holdings.take
    obtain ⟨rfl, rfl⟩ := Prod.mk.inj (Option.some.inj (htake'.symm.trans htake))
    exact ⟨_, _, _, h.take hi hholdings⟩
  | fill ptr size trace hi =>
    exact ⟨live, spare, held, h.holdings.fill _ ptr size trace, h.mem, h.one⟩
  | link hi => exact ⟨_, _, _, h.link hi⟩
  | @free _ ptr _ hi hfree =>
    by_cases hptr : ∃ a ∈ live, (s.tracker.content a).1 = ptr
    · obtain ⟨t', l₁, a, l₂, -, -, hfree', hholdings, -, -⟩ := h.holdings.free hptr
      obtain rfl := Option.some.inj (hfree'.symm.trans hfree)
      exact ⟨_, _, held, hholdings, h.mem, h.one⟩
    · have hnone := h.holdings.free_none fun a ha heq => hptr ⟨a, ha, heq⟩
      cases hnone.symm.trans hfree
  | badFree => exact ⟨live, spare, held, h⟩

end Held

end Threads

/-! ### The report at exit -/

section
variable (isInternal : List Address → Bool)

/-- A record that is reported as a leak. -/
def Allocation.counted (r : Allocation) : Bool := r.trace.length ≠ 0 && !isInternal r.trace

/-- The loop takes one off the count for each record that is not reported. -/
theorem iterate_leakStep {records : Slot → Allocation} {live : List Slot} {w : LeakWalk} {k n : ℕ}
    (h : Chain (fun a => (records a).next) w.a live) (hcount : w.count = k + live.length)
    (hn : live.length < n) : ∃ w', iterate (leakStep isInternal records) n w = some w' ∧
      w'.count = k + live.countP fun a => (records a).counted isInternal := by
  induction live generalizing w k n with
  | nil =>
    obtain ⟨n, rfl⟩ : ∃ m, n = m + 1 := Nat.exists_eq_succ_of_ne_zero (by omega)
    have hend : leakStep isInternal records w = some (.done w) := by
      rw [leakStep, show w.a = none from h]
    exact ⟨w, by rw [iterate, hend]; rfl, hcount⟩
  | cons a live ih =>
    obtain ⟨n, rfl⟩ : ∃ m, n = m + 1 := Nat.exists_eq_succ_of_ne_zero (by omega)
    obtain ⟨ha, hrest⟩ := h
    rw [List.length_cons] at hcount hn
    have hpositive : 0 < w.count := by omega
    -- the record is reported or not, and the loop goes on with the next one
    obtain ⟨w₁, k₁, hstep, hnext, hcount₁, hk₁⟩ : ∃ w₁ k₁, leakStep isInternal records w = some (.again w₁) ∧
        w₁.a = (records a).next ∧ w₁.count = (k₁ : ℕ) + live.length ∧
        k₁ = k + if (records a).counted isInternal then 1 else 0 := by
      simp only [leakStep, ha, hpositive, not_true_eq_false, if_false, Allocation.counted]
      split_ifs with hempty hinternal hlimit hcounted
      all_goals refine ⟨_, _, rfl, rfl, ?_, rfl⟩
      all_goals simp_all
      all_goals omega
    obtain ⟨w', hw', hcount'⟩ := ih (n := n) (hnext ▸ hrest) hcount₁ (by omega)
    refine ⟨w', ?_, ?_⟩
    · rw [iterate, hstep]
      exact hw'
    · rw [hcount', hk₁, List.countP_cons]
      push_cast
      omega

variable {t : Tracker} {live spare held : List Slot}

/-- The assertion of the loop never fails. -/
theorem Tracker.Holdings.leakLoop (h : Holdings t live spare held) :
    ∃ w, leakLoop isInternal t = some w ∧
      w.count = live.countP fun a => (t.records a).counted isInternal := by
  have hcount : t.allocCount = (0 : ℕ) + live.length := by
    rw [h.count]
    push_cast
    omega
  obtain ⟨w, hw, hwcount⟩ := iterate_leakStep isInternal (w := ⟨t.allocs, t.allocCount, 0, 0⟩)
    h.allocs hcount (Nat.lt_succ_of_le h.length_le)
  exact ⟨w, hw, by simpa using hwcount⟩

/-- Leaks are reported unless there are none and that is not asked for; each record of the list is counted
as a leak or as suppressed. -/
theorem Tracker.Holdings.heaphAtexit (h : Holdings t live spare held) (reportMode : ReportMode) :
    ∃ out, heaphAtexit isInternal reportMode t = some out ∧
      ((∃ report, out = .leaks report) ↔ reportMode ≠ .quiet ∧ live ≠ [] ∧
        (reportMode = .verbose ∨ ∃ a ∈ live, (t.records a).counted isInternal)) ∧
      ∀ report, out = .leaks report →
        report.leaks = (live.countP fun a => (t.records a).counted isInternal) ∧
        report.leaks + report.suppressed = live.length := by
  obtain ⟨w, hw, hcount⟩ := h.leakLoop isInternal
  have hnil : t.allocCount = 0 ↔ live = [] := by rw [h.count, Int.natCast_eq_zero, List.length_eq_zero_iff]
  have hnone : w.count = 0 ↔ ¬∃ a ∈ live, (t.records a).counted isInternal := by
    rw [hcount, Int.natCast_eq_zero, List.countP_eq_zero]
    simp
  rw [HeapHelp.heaphAtexit, hw]
  split_ifs with hquiet hempty hverbose
  · exact ⟨_, rfl, by simp [hquiet], by simp⟩
  · exact ⟨_, rfl, by simp [hnil.mp hempty], by simp⟩
  · exact ⟨_, rfl, by simp [hnil.mp hempty], by simp⟩
  · rw [hnil] at hempty
    by_cases hsilent : w.count = 0 ∧ reportMode ≠ .verbose
    · refine ⟨.nothing, if_pos hsilent, ?_, by simp⟩
      simp only [reduceCtorEq, exists_false, false_iff]
      rintro ⟨-, -, hverbose | hleak⟩
      · exact hsilent.2 hverbose
      · exact hnone.mp hsilent.1 hleak
    · refine ⟨_, if_neg hsilent, ⟨fun _ => ⟨hquiet, hempty, ?_⟩, fun _ => ⟨_, rfl⟩⟩, fun report hr => ?_⟩
      · by_contra hnot
        obtain ⟨hverbose, hleak⟩ := not_or.mp hnot
        exact hsilent ⟨hnone.mpr hleak, hverbose⟩
      · obtain rfl := Printout.leaks.inj hr
        refine ⟨hcount, ?_⟩
        show w.count + (t.allocCount - w.count) = live.length
        rw [h.count]
        omega

end

/-! ### The runs -/

theorem Threads.exists_held [DecidableEq ι] (staticBuf : Option Address) {es : List (Section ι)}
    {s : Threads ι} (hrun : Run Threads.Step (.initial staticBuf) es s) :
    ∃ live spare held, s.Held live spare held := by
  refine hrun.invariant (I := fun s : Threads ι => ∃ live spare held, s.Held live spare held)
    ⟨[], [], [], .initial staticBuf⟩ ?_
  rintro s e s' ⟨live, spare, held, h⟩ hstep
  exact h.step hstep

/-- However the sections of the threads are interleaved, each record is in one place, and at any time the
report passes its assertions, counts each record of the list as a leak or as suppressed, and is made exactly
if there is something to say. -/
theorem records_located [DecidableEq ι] (staticBuf : Option Address) {es : List (Section ι)}
    {s : Threads ι} (hrun : Run Threads.Step (.initial staticBuf) es s) :
    ∃ live spare, s.Located live spare ∧ ∀ isInternal,
      (∃ w, leakLoop isInternal s.tracker = some w ∧
        w.count = live.countP fun a => (s.tracker.records a).counted isInternal) ∧
      ∀ reportMode, ∃ out, heaphAtexit isInternal reportMode s.tracker = some out ∧
        ((∃ report, out = .leaks report) ↔ reportMode ≠ .quiet ∧ live ≠ [] ∧
          (reportMode = .verbose ∨ ∃ a ∈ live, (s.tracker.records a).counted isInternal)) ∧
        ∀ report, out = .leaks report →
          report.leaks = (live.countP fun a => (s.tracker.records a).counted isInternal) ∧
          report.leaks + report.suppressed = live.length := by
  obtain ⟨live, spare, held, h⟩ := Threads.exists_held staticBuf hrun
  exact ⟨live, spare, h.located, fun isInternal =>
    ⟨h.holdings.leakLoop isInternal, h.holdings.heaphAtexit isInternal⟩⟩

/-- Two threads have taken a record each, and one has linked its own: one leak is reported. -/
theorem records_located_two : ∃ s : Threads Bool,
    Run Threads.Step (.initial none)
      [.take false, .take true, .fill false 100 8 [7], .link false] s ∧
    s.tracker.handedOut = 2 ∧ s.holds true = some 1 ∧
    ∃ live spare report, s.Located live spare ∧
      heaphAtexit (fun _ => false) .leaks s.tracker = some (.leaks report) ∧
      report.leaks + report.suppressed = 1 := by
  have hrun : ∃ s : Threads Bool, Run Threads.Step (.initial none)
      [.take false, .take true, .fill false 100 8 [7], .link false] s ∧
      s.tracker.handedOut = 2 ∧ s.holds true = some 1 ∧ s.tracker.allocCount = 1 ∧
      s.tracker.allocs = some 0 ∧ ((s.tracker.records 0).counted fun _ => false) = true := by
    exact ⟨_, .cons (.take rfl rfl) (.cons (.take rfl rfl) (.cons (.fill (a := 0) 100 8 [7] rfl)
      (.single (.link (a := 0) rfl)))), rfl, rfl, rfl, rfl, rfl⟩
  obtain ⟨s, hrun, hout, hholds, hcount, hallocs, hcounted⟩ := hrun
  obtain ⟨live, spare, hlocated, hreport⟩ := records_located none hrun
  have hlength : live.length = 1 := by
    have hlive := hlocated.count.symm.trans hcount
    omega
  have hmem : 0 ∈ live := by
    have hchain := hlocated.allocs
    rw [hallocs] at hchain
    cases live with
    | nil => cases hlength
    | cons a live => exact Option.some.inj hchain.1 ▸ List.mem_cons_self
  obtain ⟨out, hout', hiff, hsum⟩ := (hreport fun _ => false).2 .leaks
  obtain ⟨report, rfl⟩ := hiff.mpr ⟨by decide, List.ne_nil_of_mem hmem, .inr ⟨0, hmem, hcounted⟩⟩
  have htotal := (hsum report rfl).2
  rw [hlength] at htotal
  exact ⟨s, hrun, hout, hholds, live, spare, report, hlocated, hout', htotal⟩

end SystemsProgramming.HeapHelp

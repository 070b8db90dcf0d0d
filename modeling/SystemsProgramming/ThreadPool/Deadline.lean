import SystemsProgramming.Foundation.Loop
import SystemsProgramming.Foundation.Timespec
import SystemsProgramming.ThreadPool.Model

/-! The deadline of `thread_task_timed_join` and the loop that waits for it. The timeout comes in
milliseconds, and the arithmetic is that of 64-bit numbers. A deadline is before its time if the product
with a million has wrapped, and it is not a proper time when a negative part of a second is left; the
loop never gets out of such a deadline. -/

namespace SystemsProgramming.ThreadPool

def nsecInSec : ℤ := 1000000000

def nsecInMillisecond : ℤ := 1000000

def nsecInMicrosecond : ℤ := 1000

def addTimespec (spec1 spec2 : Timespec) : Timespec :=
  let addition : Timespec :=
    { tvSec := wrap64 (spec1.tvSec + spec2.tvSec), tvNsec := wrap64 (spec1.tvNsec + spec2.tvNsec) }
  if addition.tvNsec ≥ nsecInSec then
    { tvSec := wrap64 (addition.tvSec + 1), tvNsec := wrap64 (addition.tvNsec - nsecInSec) }
  else addition

def millisecondsToTimespec (ms : ℤ) : Timespec :=
  let nsec := wrap64 (ms * nsecInMillisecond)
  { tvSec := nsec.tdiv nsecInSec, tvNsec := nsec.tmod nsecInSec }

/-- `now_as_timespec` for the seconds and microseconds that `gettimeofday` tells. -/
def nowAsTimespec (tvSec tvUsec : ℤ) : Timespec :=
  { tvSec := tvSec, tvNsec := wrap64 (tvUsec * nsecInMicrosecond) }

/-- The `timeout_spec` of `thread_task_timed_join`. -/
def timeoutSpec (now : Timespec) (ms : ℤ) : Timespec := addTimespec now (millisecondsToTimespec ms)

/-! ### The waiting loop -/

/-- What a thread finds when a wait is over and it has the lock again. -/
structure Wake where
  timedOut : Bool
  finished : Bool

inductive WaitCode
  | success | etimedout | einval
  deriving DecidableEq

/-- The task's flag and the waits so far; `timedOut` when the loop is left by its return. -/
structure TimedJoin where
  waits : ℕ
  finished : Bool
  timedOut : Bool

/-- `pthread_cond_timedwait`. A time out of form is refused, and the lock is held throughout. -/
def pthreadCondTimedwait (abstime : Timespec) (wakes : ℕ → Wake) (s : TimedJoin) :
    WaitCode × TimedJoin :=
  if abstime.Normalised then
    let wake := wakes s.waits
    (if wake.timedOut then .etimedout else .success,
      { s with waits := s.waits + 1, finished := wake.finished })
  else (.einval, s)

/-- The loop of `thread_task_timed_join`. -/
def timedJoinBody (abstime : Timespec) (wakes : ℕ → Wake) (s : TimedJoin) : Option (Ctl TimedJoin) :=
  if s.finished then some (.done s)
  else
    let (rc, s) := pthreadCondTimedwait abstime wakes s
    if rc = .etimedout then some (.done { s with timedOut := true })
    else some (.again s)

def TimedJoin.enter (finished : Bool) : TimedJoin := ⟨0, finished, false⟩

/-- Whatever the other threads do, the loop does not end for a task that is not finished. -/
def Spins (abstime : Timespec) : Prop :=
  ∀ wakes t, ¬Exits (timedJoinBody abstime wakes) (.enter false) t

variable {abstime now : Timespec} {wakes : ℕ → Wake}

theorem timedJoinBody_of_finished {s : TimedJoin} (hs : s.finished) :
    timedJoinBody abstime wakes s = some (.done s) := by
  simp [timedJoinBody, hs]

theorem timedJoinBody_of_normalised (h : abstime.Normalised) (wakes : ℕ → Wake) {s : TimedJoin}
    (hs : ¬s.finished) : timedJoinBody abstime wakes s = some
      (if (wakes s.waits).timedOut then .done ⟨s.waits + 1, (wakes s.waits).finished, true⟩
        else .again ⟨s.waits + 1, (wakes s.waits).finished, s.timedOut⟩) := by
  cases hwake : (wakes s.waits).timedOut <;>
    simp [timedJoinBody, pthreadCondTimedwait, h, hs, hwake]

/-- With a proper deadline the loop ends after a wait that times out or finds the task finished. -/
theorem exists_exits (h : abstime.Normalised) {k : ℕ} (hk : (wakes k).timedOut ∨ (wakes k).finished)
    (s : TimedJoin) (hs : s.waits ≤ k) : ∃ t, Exits (timedJoinBody abstime wakes) s t := by
  by_cases hf : s.finished
  · exact ⟨s, .done (timedJoinBody_of_finished hf)⟩
  have hbody := timedJoinBody_of_normalised h wakes hf
  by_cases ht : (wakes s.waits).timedOut
  · rw [if_pos ht] at hbody
    exact ⟨_, .done hbody⟩
  rw [if_neg ht] at hbody
  rcases Nat.eq_or_lt_of_le hs with rfl | hlt
  · exact ⟨_, .again hbody (.done (timedJoinBody_of_finished (hk.resolve_left ht)))⟩
  · obtain ⟨t, hexits⟩ := exists_exits h hk ⟨s.waits + 1, (wakes s.waits).finished, s.timedOut⟩ hlt
    exact ⟨t, .again hbody hexits⟩
termination_by k - s.waits

theorem spins_iff : Spins abstime ↔ ¬abstime.Normalised := by
  constructor
  · intro hspins h
    have htimeout : ∃ t, Exits (timedJoinBody abstime fun _ => ⟨true, false⟩) (.enter false) t :=
      exists_exits h (.inl rfl) _ (Nat.le_refl 0)
    obtain ⟨t, ht⟩ := htimeout
    exact hspins _ t ht
  · intro h wakes t
    refine not_exits_of_again_self ?_
    simp [timedJoinBody, pthreadCondTimedwait, h, TimedJoin.enter]

/-! ### The arithmetic of deadlines -/

theorem nowAsTimespec_normalised {tvSec tvUsec : ℤ} (h0 : 0 ≤ tvUsec) (h1 : tvUsec < 1000000) :
    (nowAsTimespec tvSec tvUsec).Normalised := by
  have hfits : Fits64 (tvUsec * 1000) := ⟨by omega, by omega⟩
  show 0 ≤ wrap64 (tvUsec * 1000) ∧ wrap64 (tvUsec * 1000) < 1000000000
  rw [hfits.wrap64]
  omega

/-- The nanoseconds of a sum are exact, and its seconds wrap once. -/
theorem addTimespec_eq {s t : Timespec} (h : Fits64 (s.tvNsec + t.tvNsec)) :
    addTimespec s t =
      ⟨wrap64 (Timespec.mk (s.tvSec + t.tvSec) (s.tvNsec + t.tvNsec)).carry.tvSec,
        (Timespec.mk (s.tvSec + t.tvSec) (s.tvNsec + t.tvNsec)).carry.tvNsec⟩ := by
  unfold addTimespec Timespec.carry
  simp only [h.wrap64, nsecInSec]
  split
  · next hcarry =>
    have hrest : Fits64 (s.tvNsec + t.tvNsec - 1000000000) := by
      unfold Fits64 at h ⊢
      omega
    simp only [hrest.wrap64, wrap64_wrap64_add]
  · rfl

/-- The deadline before its seconds are wrapped. -/
def exactSpec (now : Timespec) (nsec : ℤ) : Timespec :=
  (Timespec.mk (now.tvSec + (Timespec.ofNsec nsec).tvSec)
    (now.tvNsec + (Timespec.ofNsec nsec).tvNsec)).carry

theorem timeoutSpec_eq (hnow : now.Normalised) (ms : ℤ) : timeoutSpec now ms =
    ⟨wrap64 (exactSpec now (wrap64 (ms * 1000000))).tvSec,
      (exactSpec now (wrap64 (ms * 1000000))).tvNsec⟩ := by
  have h := Timespec.ofNsec_tvNsec (wrap64 (ms * 1000000))
  unfold Timespec.Normalised at hnow
  have hfits : Fits64 (now.tvNsec + (Timespec.ofNsec (wrap64 (ms * 1000000))).tvNsec) :=
    ⟨by omega, by omega⟩
  exact addTimespec_eq hfits

theorem exactSpec_ns (now : Timespec) (nsec : ℤ) : (exactSpec now nsec).ns = now.ns + nsec := by
  have h := Timespec.ofNsec_ns nsec
  rw [exactSpec, Timespec.carry_ns]
  unfold Timespec.ns at h ⊢
  show (now.tvSec + _) * _ + (now.tvNsec + _) = _
  omega

theorem exactSpec_normalised_iff (hnow : now.Normalised) (nsec : ℤ) :
    (exactSpec now nsec).Normalised ↔ 0 ≤ now.tvNsec + nsec.tmod 1000000000 := by
  have h := Timespec.ofNsec_tvNsec nsec
  unfold Timespec.Normalised at hnow
  refine Timespec.carry_normalised_iff.trans ⟨fun hspec => hspec.1, fun h0 => ⟨h0, ?_⟩⟩
  show now.tvNsec + (Timespec.ofNsec nsec).tvNsec < 2000000000
  omega

theorem timeoutSpec_normalised_iff (hnow : now.Normalised) (ms : ℤ) :
    (timeoutSpec now ms).Normalised ↔ 0 ≤ now.tvNsec + (wrap64 (ms * 1000000)).tmod 1000000000 := by
  rw [timeoutSpec_eq hnow]
  exact exactSpec_normalised_iff hnow _

/-- A deadline is exact if its seconds do not wrap. -/
theorem timeoutSpec_ns_iff (hnow : now.Normalised) (ms : ℤ) :
    (timeoutSpec now ms).ns = now.ns + wrap64 (ms * 1000000) ↔
      Fits64 (exactSpec now (wrap64 (ms * 1000000))).tvSec := by
  rw [timeoutSpec_eq hnow, ← exactSpec_ns, ← wrap64_eq_iff]
  unfold Timespec.ns
  dsimp only
  omega

/-- The rest of a second of a timeout. -/
theorem tmod_milliseconds (ms : ℤ) : (ms * 1000000).tmod 1000000000 = ms.tmod 1000 * 1000000 := by
  rw [Int.mul_comm ms, Int.mul_comm (ms.tmod 1000)]
  exact Int.mul_tmod_mul_of_pos ms 1000 (by decide)

/-- Where the product does not wrap, a deadline is proper and exact, and the loop waits for it, exactly
when the timeout takes no more of a second away than the time now has, and the seconds can be stored. -/
theorem timeoutSpec_exact_iff {now : Timespec} {ms : ℤ} (hnow : now.Normalised)
    (h0 : -9000000000000 ≤ ms) (h1 : ms ≤ 9000000000000) :
    (timeoutSpec now ms).Normalised ∧ (timeoutSpec now ms).ns = now.ns + ms * 1000000 ∧
        ¬Spins (timeoutSpec now ms) ↔
      0 ≤ now.tvNsec + ms.tmod 1000 * 1000000 ∧ Fits64 ((now.ns + ms * 1000000) / 1000000000) := by
  have hfits : Fits64 (ms * 1000000) := ⟨by omega, by omega⟩
  have hnorm := timeoutSpec_normalised_iff hnow ms
  have hns := timeoutSpec_ns_iff hnow ms
  rw [hfits.wrap64] at hnorm hns
  have hsec (h : (exactSpec now (ms * 1000000)).Normalised) :
      (exactSpec now (ms * 1000000)).tvSec = (now.ns + ms * 1000000) / 1000000000 := by
    rw [h.tvSec, exactSpec_ns]
  rw [spins_iff, not_not, hns, hnorm, tmod_milliseconds]
  rw [exactSpec_normalised_iff hnow, tmod_milliseconds] at hsec
  constructor
  · rintro ⟨h, hseconds, -⟩
    rw [hsec h] at hseconds
    exact ⟨h, hseconds⟩
  · rintro ⟨h, hseconds⟩
    rw [← hsec h] at hseconds
    exact ⟨h, hseconds, h⟩

/-- A timeout of 1.5 seconds in the middle of a second. -/
theorem timeoutSpec_exact_later :
    ((timeoutSpec ⟨1700000000, 500000000⟩ 1500).Normalised ∧
      (timeoutSpec ⟨1700000000, 500000000⟩ 1500).ns =
        (Timespec.mk 1700000000 500000000).ns + 1500 * 1000000 ∧
      ¬Spins (timeoutSpec ⟨1700000000, 500000000⟩ 1500)) ∧
    timeoutSpec ⟨1700000000, 500000000⟩ 1500 = ⟨1700000002, 0⟩ :=
  ⟨(timeoutSpec_exact_iff (by decide) (by decide) (by decide)).mpr (by decide), by decide⟩

/-- A timeout of a negative millisecond, half a millisecond after a full second. -/
theorem negative_timeout_spins : ¬∀ (now : Timespec) (ms : ℤ), now.Normalised →
    -9000000000000 ≤ ms → ms ≤ 9000000000000 →
    (timeoutSpec now ms).Normalised ∧ (timeoutSpec now ms).ns = now.ns + ms * 1000000 ∧
      ¬Spins (timeoutSpec now ms) := by
  intro h
  have hnow : (nowAsTimespec 1700000000 500).Normalised :=
    nowAsTimespec_normalised (by decide) (by decide)
  have hspec := h _ (-1) hnow (by decide) (by decide)
  have hspins : Spins (timeoutSpec (nowAsTimespec 1700000000 500) (-1)) := spins_iff.mpr (by decide)
  exact hspec.2.2 hspins

/-! ### Huge timeouts -/

/-- Of two timeouts the second is not over before the first, and neither before it has begun. -/
def WaitsLonger (now : Timespec) (ms1 ms2 : ℤ) : Prop :=
  now.ns ≤ (timeoutSpec now ms1).ns ∧ now.ns ≤ (timeoutSpec now ms2).ns ∧
    (timeoutSpec now ms1).ns ≤ (timeoutSpec now ms2).ns

instance (now : Timespec) (ms1 ms2 : ℤ) : Decidable (WaitsLonger now ms1 ms2) :=
  inferInstanceAs (Decidable (_ ∧ _))

/-- Until the year 2106 the seconds of a deadline do not wrap. -/
theorem timeoutSpec_ns (hnow : now.Normalised) (h0 : 0 ≤ now.tvSec) (h1 : now.tvSec < 4294967296)
    (ms : ℤ) : (timeoutSpec now ms).ns = now.ns + wrap64 (ms * 1000000) := by
  have hns := exactSpec_ns now (wrap64 (ms * 1000000))
  have hspec := Timespec.ofNsec_tvNsec (wrap64 (ms * 1000000))
  have hnsec : -1000000000 < (exactSpec now (wrap64 (ms * 1000000))).tvNsec ∧
      (exactSpec now (wrap64 (ms * 1000000))).tvNsec < 1000000000 := by
    unfold Timespec.Normalised at hnow
    unfold exactSpec Timespec.carry
    split
    · dsimp only at *
      omega
    · dsimp only at *
      omega
  refine (timeoutSpec_ns_iff hnow ms).mpr ?_
  unfold Timespec.Normalised at hnow
  unfold Timespec.ns at hns
  unfold wrap64 at hns hnsec ⊢
  unfold Fits64
  omega

theorem waitsLonger_iff_wrap64 (hnow : now.Normalised) (h0 : 0 ≤ now.tvSec)
    (h1 : now.tvSec < 4294967296) (ms1 ms2 : ℤ) : WaitsLonger now ms1 ms2 ↔
      0 ≤ wrap64 (ms1 * 1000000) ∧ wrap64 (ms1 * 1000000) ≤ wrap64 (ms2 * 1000000) := by
  unfold WaitsLonger
  rw [timeoutSpec_ns hnow h0 h1, timeoutSpec_ns hnow h0 h1]
  omega

/-- The deadlines are in order exactly when their nanoseconds, modulo `2 ^ 64`, are, and the later one is
not negative; the longest timeout up to which all are in order is 9223372036854 milliseconds. -/
theorem waitsLonger_iff {now : Timespec} (hnow : now.Normalised) (h0 : 0 ≤ now.tvSec)
    (h1 : now.tvSec < 4294967296) :
    (∀ ms1 ms2, 0 ≤ ms1 → ms1 ≤ ms2 → ms2 ≤ 9223372036854775807 →
      (WaitsLonger now ms1 ms2 ↔
        ms1 * 1000000 % 18446744073709551616 ≤ ms2 * 1000000 % 18446744073709551616 ∧
          ms2 * 1000000 % 18446744073709551616 < 9223372036854775808)) ∧
    ∀ m, 0 ≤ m → m ≤ 9223372036854775807 →
      ((∀ ms1 ms2, 0 ≤ ms1 → ms1 ≤ ms2 → ms2 ≤ m → WaitsLonger now ms1 ms2) ↔
        m ≤ 9223372036854) := by
  have hiff (ms1 ms2 : ℤ) := (waitsLonger_iff_wrap64 hnow h0 h1 ms1 ms2).trans wrap64_nonneg_le_iff
  refine ⟨fun ms1 ms2 _ _ _ => hiff ms1 ms2, fun m hm _ =>
    ⟨fun hall => ?_, fun hsmall ms1 ms2 hpos hle hle' => ?_⟩⟩
  · -- one millisecond more is the first product that wraps
    by_contra hlarge
    have hfirst := (hiff 0 9223372036855).mp (hall _ _ (by decide) (by decide) (by omega))
    exact absurd hfirst.2 (by decide)
  · have hmod1 : ms1 * 1000000 % 18446744073709551616 = ms1 * 1000000 :=
      Int.emod_eq_of_lt (by omega) (by omega)
    have hmod2 : ms2 * 1000000 % 18446744073709551616 = ms2 * 1000000 :=
      Int.emod_eq_of_lt (by omega) (by omega)
    rw [hiff, hmod1, hmod2]
    omega

theorem waitsLonger_hour :
    (WaitsLonger ⟨1700000000, 0⟩ 0 3600000 ↔
      0 * 1000000 % (18446744073709551616 : ℤ) ≤ 3600000 * 1000000 % 18446744073709551616 ∧
        3600000 * 1000000 % (18446744073709551616 : ℤ) < 9223372036854775808) ∧
    WaitsLonger ⟨1700000000, 0⟩ 0 3600000 :=
  ⟨(waitsLonger_iff (by decide) (by decide) (by decide)).1 0 3600000 (by decide) (by decide)
    (by decide), by decide⟩

/-- The deadline of a timeout of nearly three centuries lies as long before the time now. -/
theorem huge_timeout_before_now : ¬∀ (now : Timespec) (ms1 ms2 : ℤ), now.Normalised → 0 ≤ now.tvSec →
    now.tvSec < 4294967296 → 0 ≤ ms1 → ms1 ≤ ms2 → ms2 ≤ 9223372036854775807 →
    WaitsLonger now ms1 ms2 := by
  intro h
  have hlong := h ⟨1700000000, 0⟩ 0 9223372036855 (by decide) (by decide) (by decide) (by decide)
    (by decide) (by decide)
  exact absurd hlong (by decide)

end SystemsProgramming.ThreadPool

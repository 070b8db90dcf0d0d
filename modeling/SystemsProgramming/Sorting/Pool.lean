import SystemsProgramming.Libcoro.Progress
import SystemsProgramming.Libcoro.Rounds
import SystemsProgramming.Libcoro.Scheduler
import SystemsProgramming.Libcoro.Teams
import SystemsProgramming.Sorting.Claims
import SystemsProgramming.Sorting.Merging

/-! The pool of `main` in `1/solution.c`: some number of coroutines that sort the files of one queue, run by
the library. Whatever the clock says, they sort every file, and the merged output depends on the files
alone. -/

namespace SystemsProgramming.Sorting

open Libcoro Transition Event

variable {disk : String → List ℤ} {fileNames : List String} {quantum : ℕ → Bool} {count fuel : ℕ}

/-- The functions of the coroutines. -/
def funcs (quantum : ℕ → Bool) (disk : String → List ℤ) (fuel count : ℕ) : List (Code World ℤ) :=
  (List.range count).map fun name => coroutineFuncF quantum disk fuel name

theorem length_funcs : (funcs quantum disk fuel count).length = count := by
  rw [funcs, List.length_map, List.length_range]

/-- What is known when `coro_sched_wait` has returned `NULL`. -/
structure Complete (disk : String → List ℤ) (fileNames : List String) (count : ℕ) (es : List Event)
    (w : World) : Prop where
  /-- Each file was claimed once, by one coroutine. -/
  claims : w.log.filterMap Record.claimed = List.range fileNames.length
  claimed : ∀ i, i < fileNames.length → ∃! c, .claims c i ∈ w.log
  /-- Each coroutine has returned, and was returned. -/
  returned : ∀ c, c < count → .ret c 0 ∈ es
  once : (es.filterMap waited).Perm (List.range count)
  sorted : ∀ (i : ℕ) (fileName : String), fileNames[i]? = some fileName → ∃ data : SingleSortedFileData,
    w.queue.sortedFiles[i]? = some (some data) ∧ data.numberCount = (disk fileName).length ∧
      w.arrays[data.sortedNumbers]? = some (ascending (disk fileName))
  output : ∀ fuel, (fileNames.flatMap disk).length < fuel →
    outputMergedSortedNumbers w fuel = some (ascending (fileNames.flatMap disk))

theorem orderly_createFileQueue (disk : String → List ℤ) (fileNames : List String) :
    Orderly disk fileNames (createFileQueue fileNames) where
  names := rfl
  count := rfl
  slots := List.length_replicate ..
  ptr := Nat.zero_le _
  claims := rfl
  started _ _ _ h := by cases h
  alone _ _ _ _ _ h := by cases h
  sorted i data hi := by
    have hmem : some data ∈ List.replicate fileNames.length none := List.mem_of_getElem? hi
    cases (List.mem_replicate.mp hmem).2

/-- What is known of the plan. -/
structure Pooled (disk : String → List ℤ) (fileNames : List String) (count : ℕ) (p : Plan World) : Prop where
  valid : p.Valid
  teamed : Teamed (Rely disk fileNames) (Guarantee disk fileNames) (Finished disk fileNames) count p
  orderly : Orderly disk fileNames p.shared
  names : ∀ r ∈ p.shared.log, r.name < count

namespace Pooled

variable {p p' : Plan World} {e : Event} {es : List Event}

theorem initial (hfuel : Ample disk fileNames fuel) :
    Pooled disk fileNames count (.initial (funcs quantum disk fuel count) (createFileQueue fileNames)) where
  valid := Plan.valid_initial _ _
  teamed := by
    have h : Teamed (Rely disk fileNames) (Guarantee disk fileNames) (Finished disk fileNames)
        (funcs quantum disk fuel count).length
        (.initial (funcs quantum disk fuel count) (createFileQueue fileNames)) := by
      refine Teamed.initial fun c func hfunc w hw => ?_
      rw [funcs, List.getElem?_map] at hfunc
      obtain ⟨name, hname, rfl⟩ := Option.map_eq_some_iff.mp hfunc
      obtain ⟨hlt, hget⟩ := List.getElem?_eq_some_iff.mp hname
      rw [List.getElem_range] at hget
      subst hget
      have hkept := hw (orderly_createFileQueue disk fileNames)
      refine runs_coroutineFuncF ⟨hkept.orderly, fun i hi => ?_⟩ hfuel
      cases hkept.mine _ hi rfl
    rwa [length_funcs] at h
  orderly := orderly_createFileQueue disk fileNames
  names r hr := by cases hr

theorem step (h : Pooled disk fileNames count p) (hstep : Plan.Step p e p') :
    Pooled disk fileNames count p' := by
  have hteamed := h.teamed.step (compatible disk fileNames) h.valid hstep
  rcases h.teamed.guarantee h.valid hstep with hsame | ⟨c, hc, -, hwrites⟩
  · exact ⟨h.valid.step hstep, hteamed, hsame ▸ h.orderly, hsame ▸ h.names⟩
  · have hdoes := hwrites h.orderly
    refine ⟨h.valid.step hstep, hteamed, hdoes.orderly, fun r hr => ?_⟩
    by_cases hname : r.name = c
    · rwa [hname]
    · exact h.names r (hdoes.others r hr hname)

/-- A slot is changed by the coroutine that has claimed the file. -/
theorem slot (h : Pooled disk fileNames count p) (hstep : Plan.Step p e p') {i : ℕ}
    (hne : p'.shared.queue.sortedFiles[i]? ≠ p.shared.queue.sortedFiles[i]?) :
    ∃ c, e = .run c ∧ .claims c i ∈ p.shared.log := by
  rcases h.teamed.guarantee h.valid hstep with hsame | ⟨c, -, he, hwrites⟩
  · exact absurd (by rw [hsame]) hne
  · refine ⟨c, he, ?_⟩
    by_contra hnot
    exact hne ((hwrites h.orderly).slots i hnot)

theorem complete (h : Pooled disk fileNames count p) (hcount : 1 ≤ count) (hdone : p.phase = .done)
    (hrun : Run Plan.Step (.initial (funcs quantum disk fuel count) (createFileQueue fileNames)) es p) :
    Complete disk fileNames count es p.shared := by
  have hended : ∀ c, c < count → ∃ v, p.stage c = .ended v ∧ Finished disk fileNames c v p.shared :=
    fun c hc => h.teamed.ended (compatible disk fileNames) h.valid hdone hc
  have hptr : p.shared.queue.filePtr = fileNames.length := by
    obtain ⟨v, -, hfinished⟩ := hended 0 hcount
    exact Nat.le_antisymm h.orderly.ptr hfinished.ptr
  have hclaimed : ∀ i, i < fileNames.length → ∃ c, .claims c i ∈ p.shared.log := fun i hi =>
    h.orderly.claimed_iff.mpr (hptr ▸ hi)
  have hset : ∀ i, i < fileNames.length → p.shared.IsSet i := fun i hi => by
    obtain ⟨c, hc⟩ := hclaimed i hi
    obtain ⟨v, -, hfinished⟩ := hended c (h.names _ hc)
    exact hfinished.set i hc
  refine ⟨?_, fun i hi => ?_, fun c hc => ?_, ?_, fun i fileName hname => ?_, fun fuel hfuel => ?_⟩
  · rw [h.orderly.claims, hptr]
  · obtain ⟨c, hc⟩ := hclaimed i hi
    exact ⟨c, hc, fun d hd => h.orderly.claims_unique hd hc⟩
  · obtain ⟨v, hv, hfinished⟩ := hended c hc
    obtain rfl := hfinished.value
    exact Plan.ret_mem hrun (fun _ => ⟨_, rfl⟩) hv
  · have hsound := h.valid.sound
    rw [hdone] at hsound
    have hperm := Plan.waited_perm hrun
    rw [show p.queue = [] from hsound, List.append_nil] at hperm
    refine hperm.trans ?_
    rw [Plan.initial, length_funcs]
    exact List.reverse_perm _
  · exact h.orderly.slot_set (hset i (List.getElem?_eq_some_iff.mp hname).1) hname
  · exact outputMergedSortedNumbers_eq h.orderly hset hfuel

end Pooled

theorem exists_ample (disk : String → List ℤ) (fileNames : List String) :
    ∃ bound, ∀ fuel, bound ≤ fuel → Ample disk fileNames fuel := by
  refine ⟨fileNames.length + 2 * (fileNames.flatMap disk).length + 1, fun fuel hfuel => ⟨by omega, ?_⟩⟩
  intro fileName hname
  have hle : (disk fileName).length ≤ (fileNames.flatMap disk).length :=
    (List.sublist_flatten_of_mem (List.mem_map_of_mem hname)).length_le
  omega

/-- With enough fuel for the recursion, for every number of coroutines and every behaviour of the clock: the
files are claimed in order, none of them twice; a slot is written to by the coroutine that has claimed
its file; from every state the loop of `main` comes to its end; and then `Complete` holds. -/
theorem pool_sorts (disk : String → List ℤ) (fileNames : List String) :
    ∃ bound, ∀ count quantum fuel, 1 ≤ count → bound ≤ fuel →
      ∃ s₀, State.start (funcs quantum disk fuel count) (createFileQueue fileNames) = some s₀ ∧
        ∀ es s, Run State.Step s₀ es s →
          s.shared.log.filterMap Record.claimed = List.range s.shared.queue.filePtr ∧
          (∀ e s' (i : ℕ), State.Step s e s' →
            s'.shared.queue.sortedFiles[i]? ≠ s.shared.queue.sortedFiles[i]? →
              ∃ c, e = .run c ∧ .claims c i ∈ s.shared.log) ∧
          (∃ es' s', Run State.Step s es' s' ∧ s'.control = .done) ∧
          (s.control = .done → Complete disk fileNames count es s.shared) := by
  obtain ⟨bound, hbound⟩ := exists_ample disk fileNames
  refine ⟨bound, fun count quantum fuel hcount hfuel => ?_⟩
  obtain ⟨s₀, hstart, -, h₀⟩ := start_eq (funcs quantum disk fuel count) (createFileQueue fileNames)
  refine ⟨s₀, hstart, fun es s hrun => ?_⟩
  obtain ⟨p, hplan, hs, hp⟩ := h₀.run (Plan.valid_initial _ _) hrun
  have hpooled : Pooled disk fileNames count p :=
    hplan.invariant (I := Pooled disk fileNames count) (.initial (hbound fuel hfuel))
      fun _ _ _ h hstep => h.step hstep
  refine ⟨?_, fun e s' i hstep hne => ?_, ?_, fun hdone => ?_⟩
  · rw [hs.shared]
    exact hpooled.orderly.claims
  · obtain ⟨p', hstep', hs'⟩ := hs.simulates hp hstep
    rw [hs.shared, hs'.shared] at *
    exact hpooled.slot hstep' hne
  · exact Represents.comes_to_end (I := Pooled disk fileNames count) (fun _ _ _ h _ hstep => h.step hstep)
      (fun _ _ h hp hphase => h.teamed.not_stuck hp hphase) hs hp hpooled
  · rw [hs.shared]
    exact hpooled.complete hcount (hs.phase_done hdone) hplan

/-- Two coroutines that give way whenever they can, and two files. -/
theorem pool_sorts_two : ∃ fuel s₀ es s,
    State.start (funcs (fun _ => true) (fun fileName => if fileName = "a" then [3, 1, 2] else [3, 0]) fuel 2)
      (createFileQueue ["a", "b"]) = some s₀ ∧
    Run State.Step s₀ es s ∧ s.control = .done ∧
    outputMergedSortedNumbers s.shared 6 = some [0, 1, 2, 3, 3] := by
  obtain ⟨fuel, hsorts⟩ :=
    pool_sorts (fun fileName => if fileName = "a" then [3, 1, 2] else [3, 0]) ["a", "b"]
  obtain ⟨s₀, hstart, hruns⟩ := hsorts 2 (fun _ => true) fuel (by decide) le_rfl
  obtain ⟨-, -, ⟨es, s, hrun, hdone⟩, -⟩ := hruns [] s₀ .nil
  obtain ⟨-, -, -, hcomplete⟩ := hruns es s hrun
  have houtput := (hcomplete hdone).output 6 (by decide)
  have hascending : ([0, 1, 2, 3, 3] : List ℤ) = ascending [3, 1, 2, 3, 0] :=
    eq_ascending (by decide) (by decide)
  refine ⟨fuel, s₀, es, s, hstart, hrun, hdone, ?_⟩
  rw [hascending]
  exact houtput

end SystemsProgramming.Sorting

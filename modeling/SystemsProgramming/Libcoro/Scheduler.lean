import SystemsProgramming.Libcoro.Creation
import SystemsProgramming.Libcoro.Progress
import SystemsProgramming.Libcoro.Rounds

/-! The scheduler with functions that give way some number of times and return a value. Each coroutine is
returned to `main` once, after it has returned its value, and until then each round resumes it once. -/

namespace SystemsProgramming.Libcoro

open Transition Event

variable {σ : Type}

/-- A number of calls of `coro_yield`, and a value. -/
def yields : ℕ → ℤ → Code σ ℤ
  | 0, value => .ret value
  | n + 1, value => .yield (yields n value)

/-- The code that is running. -/
def Control.running : Control σ → Option Pointer
  | main => some .sched
  | wait => some .sched
  | func c _ => some (.coro c)
  | finished c => some (.coro c)
  | returned _ => some .sched
  | done => some .sched
  | exit => none

namespace State

/-- A coroutine that has finished and was not deleted. -/
def Finished (s : State σ) (c : ℕ) : Prop := ∃ a, s.heap.load c = some a ∧ a.isFinished = true

/-- Those in the list that have not finished. -/
def unfinished (s : State σ) (l : List ℕ) : List ℕ :=
  l.filter fun c => (s.heap.load c).any fun a => !a.isFinished

end State

/-- What holds in each state. -/
structure Sound (bodies : List (ℕ × ℤ)) (es : List Event) (s : State σ) : Prop where
  /-- `coro_this_ptr` designates the code that is running, and this is not the end of `coro_body` without
  a place to return. -/
  designates : s.coroThisPtr = s.control.running ∧ s.control ≠ .exit
  /-- At most one coroutine in the list has finished. -/
  oneFinished : ∃ l, s.Listed l ∧ ∀ p ∈ l, ∀ q ∈ l, s.Finished p → s.Finished q → p = q
  /-- Control enters coroutines that are neither finished nor deleted. -/
  entered : ∀ c s', State.Step s (.enter (.coro c)) s' →
    ∃ a, s.heap.load c = some a ∧ a.isFinished = false
  /-- A coroutine is returned after its function has returned, with the value in its object. -/
  returned : ∀ c s', State.Step s (.wait (some c)) s' → ∃ b a, bodies[c]? = some b ∧ .ret c b.2 ∈ es ∧
    s.heap.load c = some a ∧ a.isFinished = true ∧ a.ret = b.2
  status : ∀ c v s', State.Step s (.delete c v) s' → ∃ b, bodies[c]? = some b ∧ v = b.2
  /-- Nobody is returned twice, and all have been when `NULL` is. -/
  once : (es.filterMap waited).Nodup ∧ es.filterMap waited ⊆ List.range bodies.length
  all : ∀ s', State.Step s (.wait none) s' → (es.filterMap waited).Perm (List.range bodies.length)

/-! ### The plan -/

/-- What is left of a function is some calls of `coro_yield` and its value. -/
def Returns (bodies : List (ℕ × ℤ)) (stage : ℕ → Stage σ ℤ) : Prop :=
  ∀ i b, bodies[i]? = some b → (∃ n, stage i = .going (yields n b.2)) ∨ stage i = .ended b.2

section
variable {bodies : List (ℕ × ℤ)} {p p' : Plan σ} {e : Event} {es : List Event} {shared : σ}
  {stage : ℕ → Stage σ ℤ} {c : ℕ} {k : Code σ ℤ} {b : ℕ × ℤ}

/-- A coroutine that is going on has called `coro_yield` less often than it will. -/
theorem Returns.going (h : Returns bodies stage) (hb : bodies[c]? = some b)
    (hc : stage c = .going k) : ∃ n, k = yields n b.2 := by
  rcases h c b hb with ⟨n, hn⟩ | hover
  · exact ⟨n, Stage.going.inj (hc.symm.trans hn)⟩
  · cases hc.symm.trans hover

theorem Returns.update (h : Returns bodies stage) {x : Stage σ ℤ}
    (hx : ∀ b, bodies[c]? = some b → (∃ n, x = .going (yields n b.2)) ∨ x = .ended b.2) :
    Returns bodies (Function.update stage c x) := by
  intro i b hb
  by_cases hi : i = c
  · subst hi
    rw [Function.update_self]
    exact hx b hb
  · rw [Function.update_of_ne hi]
    exact h i b hb

theorem Returns.step (h : Returns bodies p.stage) (hstep : Plan.Step p e p') :
    Returns bodies p'.stage := by
  cases hstep with
  | get hc | put hc =>
    refine h.update fun b hb => ?_
    obtain ⟨n, hn⟩ := h.going hb hc
    cases n <;> cases hn
  | next hc | last hc =>
    refine h.update fun b hb => ?_
    obtain ⟨n, hn⟩ := h.going hb hc
    cases n with
    | zero => cases hn
    | succ n => exact .inl ⟨n, congrArg Stage.going (Code.yield.inj hn)⟩
  | ret hc =>
    refine h.update fun b hb => ?_
    obtain ⟨n, hn⟩ := h.going hb hc
    cases n with
    | zero => exact .inr (congrArg Stage.ended (Code.ret.inj hn))
    | succ n => cases hn
  | _ => exact h

/-- What is known of the plan after a trace. -/
structure Traced (bodies : List (ℕ × ℤ)) (es : List Event) (p : Plan σ) : Prop where
  valid : p.Valid
  returns : Returns bodies p.stage
  perm : (es.filterMap waited ++ p.queue).Perm (List.range bodies.length)
  /-- The coroutine that is returned has a body. -/
  returned : ∀ c, p.phase = .returned c → c < bodies.length
  rets : ∀ c v, p.stage c = .ended v → .ret c v ∈ es

theorem Traced.lt_length (h : Traced bodies es p) (hc : c ∈ p.queue) : c < bodies.length :=
  List.mem_range.mp (h.perm.mem_iff.mp (List.mem_append_right _ hc))

theorem Traced.initial (bodies : List (ℕ × ℤ)) (shared : σ) :
    Traced bodies [] (.initial (bodies.map fun b => yields b.1 b.2) shared) where
  valid := Plan.valid_initial _ _
  returns i b hb := by
    refine .inl ⟨b.1, congrArg Stage.going ?_⟩
    rw [List.getElem?_map, hb]
    rfl
  perm := by
    rw [Plan.initial, List.length_map]
    exact List.reverse_perm _
  returned _ hc := nomatch hc
  rets _ _ hc := nomatch hc

theorem Traced.step (h : Traced bodies es p) (hstep : Plan.Step p e p') :
    Traced bodies (es ++ [e]) p' where
  valid := h.valid.step hstep
  returns := h.returns.step hstep
  perm := (hstep.waited_append_perm es).trans h.perm
  returned c hc := by
    cases hstep with
    | wait hd =>
      obtain rfl := Phase.returned.inj hc
      exact h.lt_length hd
    | _ => cases hc
  rets c v hc := by
    rcases hstep.ended hc with hc | rfl
    · exact List.mem_append_left _ (h.rets c v hc)
    · exact List.mem_append_right _ List.mem_cons_self

theorem Traced.ended (h : Traced bodies es p) (hc : c < bodies.length) {v : ℤ}
    (hv : p.stage c = .ended v) : ∃ b, bodies[c]? = some b ∧ v = b.2 := by
  obtain ⟨b, hb⟩ : ∃ b, bodies[c]? = some b := ⟨_, List.getElem?_eq_getElem hc⟩
  refine ⟨b, hb, ?_⟩
  rcases h.returns c b hb with ⟨n, hn⟩ | hover
  · cases hv.symm.trans hn
  · exact Stage.ended.inj (hv.symm.trans hover)

/-! ### The library -/

variable {s s' : State σ}

theorem Represents.designates (h : Represents s p) :
    s.coroThisPtr = s.control.running ∧ s.control ≠ .exit := by
  obtain ⟨queue, stage, phase, shared⟩ := p
  have hcontrol := h.control
  cases phase with
  | main | wait | done =>
    rw [hcontrol.1, hcontrol.2]
    exact ⟨rfl, by rintro ⟨⟩⟩
  | func c =>
    obtain ⟨⟨k, -, hfunc⟩, hthis, -⟩ := hcontrol
    rw [hfunc, hthis]
    exact ⟨rfl, by rintro ⟨⟩⟩
  | finished c | returned c =>
    rw [hcontrol.1, hcontrol.2.1]
    exact ⟨rfl, by rintro ⟨⟩⟩

theorem Represents.finished_iff (h : Represents s p) (hc : c ∈ p.queue) :
    s.Finished c ↔ Over p.stage c := by
  obtain ⟨a, ha⟩ := h.load hc
  have hnode := h.nodes c hc a ha
  rw [Node] at hnode
  constructor
  · rintro ⟨b, hb, hfinished⟩
    obtain rfl := Option.some.inj (ha.symm.trans hb)
    cases hstage : p.stage c with
    | going k =>
      rw [hstage] at hnode
      cases hnode.1.symm.trans hfinished
    | ended v => exact ⟨v, hstage⟩
  · rintro ⟨v, hv⟩
    rw [hv] at hnode
    exact ⟨a, ha, hnode.1⟩

theorem Plan.Valid.one_over (h : p.Valid) {q r : ℕ} (hq : q ∈ p.queue) (hr : r ∈ p.queue)
    (hqo : Over p.stage q) (hro : Over p.stage r) : q = r := by
  obtain ⟨queue, stage, phase, shared⟩ := p
  have hsound := h.sound
  cases phase with
  | main => exact absurd hqo (Plan.not_over (hsound q hq))
  | wait => exact hsound q hq r hr hqo hro
  | func c => exact absurd hqo (Plan.not_over (hsound.2 q hq))
  | finished c =>
    have hone : ∀ x ∈ queue, Over stage x → x = c := fun x hx hover => by
      by_contra hne
      exact Plan.not_over (hsound.2.2 x hx hne) hover
    rw [hone q hq hqo, hone r hr hro]
  | returned c => exact absurd hqo (Plan.not_over (hsound.2.2 q hq))
  | done =>
    obtain rfl : queue = [] := hsound
    cases hq

theorem Represents.unfinished_eq (h : Represents s p) : s.unfinished p.queue = p.live := by
  refine List.filter_congr fun c hc => ?_
  obtain ⟨a, ha⟩ := h.load hc
  have hnode := (h.nodes c hc a ha).isFinished
  rw [ha]
  show (!a.isFinished) = !isOver p.stage c
  rw [hnode]
  rfl

theorem Represents.phase_done (h : Represents s p) (hdone : s.control = .done) : p.phase = .done := by
  obtain ⟨queue, stage, phase, shared⟩ := p
  have hcontrol := h.control
  cases phase with
  | done => rfl
  | main | wait | finished | returned => cases hdone.symm.trans hcontrol.1
  | func c =>
    obtain ⟨⟨k, -, hfunc⟩, -⟩ := hcontrol
    cases hdone.symm.trans hfunc

/-- The scheduler or `main` runs. -/
theorem Represents.atSched (h : Represents s p) (hsched : s.control.running = some .sched) :
    p.AtSched := by
  rw [← h.designates.1] at hsched
  obtain ⟨queue, stage, phase, shared⟩ := p
  have hcontrol := h.control
  cases phase with
  | func c =>
    obtain ⟨-, hthis, -⟩ := hcontrol
    cases hsched.symm.trans hthis
  | finished c => cases hsched.symm.trans hcontrol.2.1
  | _ =>
    intro c
    constructor <;> rintro ⟨⟩

theorem Traced.not_stuck (h : Traced bodies es p) (hphase : p.phase = .func c) :
    p.stage c ≠ .going .stuck := by
  intro hstuck
  have hsound := h.valid.sound
  rw [hphase] at hsound
  have hc := h.lt_length hsound.1
  obtain ⟨n, hn⟩ := h.returns.going (List.getElem?_eq_getElem hc) hstuck
  cases n <;> cases hn

theorem Traced.sound (h : Traced bodies es p) (hs : Represents s p) : Sound bodies es s where
  designates := hs.designates
  oneFinished := ⟨p.queue, hs.listed, fun q hq r hr hqf hrf => h.valid.one_over hq hr
    ((hs.finished_iff hq).mp hqf) ((hs.finished_iff hr).mp hrf)⟩
  entered c s' hstep := by
    obtain ⟨p', hplan, hs'⟩ := hs.simulates h.valid hstep
    have hp' := h.valid.step hplan
    have hentered : c ∈ p.queue ∧ Going p.stage c := by
      cases hplan with
      | round hgoing => exact ⟨List.mem_cons_self, hgoing _ List.mem_cons_self⟩
      | next _ hsplit => exact ⟨hp'.sound.1, h.valid.sound.2 c hp'.sound.1⟩
    obtain ⟨hc, k, hk⟩ := hentered
    obtain ⟨a, ha⟩ := hs.load hc
    have hnode := (hs.nodes c hc a ha).isFinished
    rw [hk] at hnode
    exact ⟨a, ha, hnode⟩
  returned c s' hstep := by
    obtain ⟨p', hplan, hs'⟩ := hs.simulates h.valid hstep
    have hwaited : c ∈ p.queue ∧ Over p.stage c := by
      cases hplan with
      | wait hc hover => exact ⟨hc, hover⟩
    obtain ⟨hc, v, hv⟩ := hwaited
    obtain ⟨b, hb, rfl⟩ := h.ended (h.lt_length hc) hv
    obtain ⟨a, ha⟩ := hs.load hc
    have hnode := hs.nodes c hc a ha
    rw [Node, hv] at hnode
    exact ⟨b, a, hb, h.rets c b.2 hv, ha, hnode.1, hnode.2⟩
  status c v s' hstep := by
    obtain ⟨p', hplan, hs'⟩ := hs.simulates h.valid hstep
    cases hplan with
    | delete hv => exact h.ended (h.returned c rfl) hv
  once := by
    have hnodup := h.perm.nodup_iff.mpr List.nodup_range
    exact ⟨(List.nodup_append.mp hnodup).1, fun c hc =>
      h.perm.mem_iff.mp (List.mem_append_left _ hc)⟩
  all s' hstep := by
    obtain ⟨p', hplan, hs'⟩ := hs.simulates h.valid hstep
    cases hplan with
    | none =>
      have hperm := h.perm
      rwa [List.append_nil] at hperm

theorem Traced.run (h : Run Plan.Step (.initial (bodies.map fun b => yields b.1 b.2) shared) es p) :
    Traced bodies es p :=
  h.trace_invariant (I := fun es p => Traced bodies es p) (.initial bodies shared)
    fun _ _ _ _ _ ht hstep => ht.step hstep

end

/-- For any number of coroutines that call `coro_yield` any number of times: the loop of `main` comes to its
end from wherever it is, with each coroutine returned once; what `Sound` says holds in every state; and
while the scheduler is not entered again, those that have not finished are entered in the order of the
list, all of them if none returns. -/
theorem scheduler_sound (bodies : List (ℕ × ℤ)) (shared : σ) :
    ∃ s₀, State.start (bodies.map fun b => yields b.1 b.2) shared = some s₀ ∧
      ∀ es s, Run State.Step s₀ es s → Sound bodies es s ∧
        (s.control = .done → (es.filterMap waited).Perm (List.range bodies.length)) ∧
        (∃ es' s', Run State.Step s es' s' ∧ s'.control = .done) ∧
        (s.control.running = some .sched → ∃ l, s.Listed l ∧ ∀ es' s', Run State.Step s es' s' →
          (∀ e ∈ es', e ≠ .enter .sched) → es'.filterMap entered <+: s.unfinished l ∧
          ∀ s'', State.Step s' (.enter .sched) s'' → (∀ c v, .ret c v ∉ es') →
            es'.filterMap entered = s.unfinished l) := by
  obtain ⟨s₀, hstart, -, h₀⟩ := start_eq (bodies.map fun b => yields b.1 b.2) shared
  refine ⟨s₀, hstart, fun es s hrun => ?_⟩
  obtain ⟨p, hplan, hs, hp⟩ := h₀.run (Plan.valid_initial _ _) hrun
  have htraced := Traced.run hplan
  refine ⟨htraced.sound hs, fun hdone => ?_, ?_, fun hsched => ⟨p.queue, hs.listed, ?_⟩⟩
  · have hphase := hs.phase_done hdone
    have hsound := hp.sound
    rw [hphase] at hsound
    have hperm := htraced.perm
    rwa [show p.queue = [] from hsound, List.append_nil] at hperm
  · refine Represents.comes_to_end (I := fun p => ∃ es, Traced bodies es p) ?_ ?_ hs hp ⟨es, htraced⟩
    · rintro p e p' ⟨es, ht⟩ - hstep
      exact ⟨es ++ [e], ht.step hstep⟩
    · rintro p c ⟨es, ht⟩ hp hphase
      exact ht.not_stuck hphase
  · intro es' s' hrun' hno
    obtain ⟨p', hplan', hs', -⟩ := hs.run hp hrun'
    obtain ⟨hentered, hp'⟩ := Plan.entered_run hplan' hp (hs.atSched hsched) hno
    rw [hs.unfinished_eq]
    refine ⟨hentered.initialPart, fun s'' hstep hret => ?_⟩
    obtain ⟨p'', hplan'', -⟩ := hs'.simulates hp' hstep
    exact hentered.all hp' hplan'' hret

/-- One coroutine that gives way once, and one that does not. -/
theorem scheduler_sound_two : ∃ s₀, State.start ([(1, 5), (0, 7)].map fun b => yields b.1 b.2) () = some s₀ ∧
    ∃ es s, Run State.Step s₀ es s ∧ s.control = .done ∧ (es.filterMap waited).Perm [0, 1] := by
  obtain ⟨s₀, hstart, hsound⟩ := scheduler_sound [(1, 5), (0, 7)] ()
  obtain ⟨-, -, ⟨es, s, hrun, hdone⟩, -⟩ := hsound [] s₀ .nil
  obtain ⟨-, hall, -⟩ := hsound es s hrun
  exact ⟨s₀, hstart, es, s, hrun, hdone, hall hdone⟩

end SystemsProgramming.Libcoro

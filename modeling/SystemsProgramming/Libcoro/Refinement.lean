import SystemsProgramming.Libcoro.Objects
import SystemsProgramming.Libcoro.RoundRobin

/-! The library against the round-robin plan: the list is the queue, a coroutine that does not run has what
is left of it in its context, and the variables that name the running code do so. Each step of the
library is one of the plan. -/

namespace SystemsProgramming.Libcoro

variable {σ : Type}

/-- The context of a coroutine that does not run. -/
def Saved (a : Coro σ) (q : ℕ) (k : Code σ ℤ) : Prop :=
  a.ctx = some (.body q) ∧ a.func = k ∨ a.ctx = some (.yieldTo (.coro q) q k)

/-- The object of a coroutine in the queue. -/
def Node (stage : ℕ → Stage σ ℤ) (phase : Phase) (q : ℕ) (a : Coro σ) : Prop :=
  match stage q with
  | .going k => a.isFinished = false ∧ (phase = .func q ∨ Saved a q k)
  | .ended v => a.isFinished = true ∧ a.ret = v

/-- What runs, and what it needs to find. -/
def Controls (s : State σ) (stage : ℕ → Stage σ ℤ) : Phase → Prop
  | .main => s.control = .main ∧ s.coroThisPtr = some .sched
  | .wait => s.control = .wait ∧ s.coroThisPtr = some .sched
  | .func c => (∃ k, stage c = .going k ∧ s.control = .func c k) ∧ s.coroThisPtr = some (.coro c) ∧
    s.isSchedWaiting = true ∧ s.coroSched.ctx = some (.wait .sched)
  | .finished c => s.control = .finished c ∧ s.coroThisPtr = some (.coro c) ∧
    s.isSchedWaiting = true ∧ s.coroSched.ctx = some (.wait .sched)
  | .returned c => s.control = .returned c ∧ s.coroThisPtr = some .sched ∧
    ∃ a, s.heap.load c = some a ∧ stage c = .ended a.ret
  | .done => s.control = .done ∧ s.coroThisPtr = some .sched

structure Represents (s : State σ) (p : Plan σ) : Prop where
  listed : s.Listed p.queue
  nodes : ∀ q ∈ p.queue, ∀ a, s.heap.load q = some a → Node p.stage p.phase q a
  control : Controls s p.stage p.phase
  shared : s.shared = p.shared

section
variable {stage : ℕ → Stage σ ℤ} {phase phase' : Phase} {q c : ℕ} {a b : Coro σ} {s : State σ}
  {k : Code σ ℤ}

theorem Node.saved (h : Node stage phase q a) (hq : stage q = .going k) (hphase : phase ≠ .func q) :
    a.isFinished = false ∧ Saved a q k := by
  rw [Node, hq] at h
  exact ⟨h.1, h.2.resolve_left hphase⟩

/-- One that does not run has nothing to do with the phase, nor with its links. -/
theorem Node.of_phase (h : Node stage phase q a) (hphase : phase ≠ .func q)
    (hb : b.unlinked = a.unlinked) : Node stage phase' q b := by
  simp only [Coro.unlinked, Coro.mk.injEq] at hb
  obtain ⟨hret, hfunc, hctx, hfinished, -⟩ := hb
  cases hq : stage q with
  | going k =>
    obtain ⟨hnot, hsaved⟩ := h.saved hq hphase
    rw [Node, hq]
    refine ⟨hfinished.trans hnot, .inr ?_⟩
    rwa [Saved, hctx, hfunc]
  | ended v =>
    rw [Node, hq] at h ⊢
    rwa [hfinished, hret]

theorem Node.update_of_ne {x : Stage σ ℤ} (h : Node stage phase q a) (hq : q ≠ c) :
    Node (Function.update stage c x) phase q a := by
  rwa [Node, Function.update_of_ne hq]

theorem Node.isFinished (h : Node stage phase q a) :
    a.isFinished = match stage q with | .going _ => false | .ended _ => true := by
  rw [Node] at h
  cases hq : stage q with
  | going k => rw [hq] at h; exact h.1
  | ended v => rw [hq] at h; exact h.1

namespace State

theorem jump_coro (hq : s.heap.load q = some a) (hsaved : Saved a q k) :
    s.jump (.coro q) = some { s with coroThisPtr := some (.coro q), control := .func q k } := by
  have hload : s.load (.coro q) = some a := hq
  rcases hsaved with ⟨hctx, rfl⟩ | hctx
  · simp only [jump, hload, hctx, resume, hq, Option.bind_eq_bind, Option.bind_some]
    rfl
  · simp only [jump, hload, hctx, resume, Option.bind_eq_bind, Option.bind_some]

theorem jump_sched (h : s.coroSched.ctx = some (.wait .sched)) :
    s.jump .sched = some { s with
      coroThisPtr := some .sched, isSchedWaiting := false, control := .wait } := by
  simp only [jump, load, h, resume, Option.bind_eq_bind, Option.bind_some]

end State

namespace Represents

variable {p : Plan σ}

theorem load (h : Represents s p) (hq : q ∈ p.queue) : ∃ a, s.heap.load q = some a := h.listed.load hq

/-- Somebody who is going on and does not run can be entered. -/
theorem enter (h : Represents s p) (hq : q ∈ p.queue) (hgoing : p.stage q = .going k)
    (hphase : p.phase ≠ .func q) : ∃ a, s.heap.load q = some a ∧ Saved a q k := by
  obtain ⟨a, ha⟩ := h.load hq
  exact ⟨a, ha, ((h.nodes q hq a ha).saved hgoing hphase).2⟩

/-- The step leads to a step of the plan. -/
def Simulated (s : State σ) (p : Plan σ) : Prop :=
  ∃ e s' p', s.step = some (e, s') ∧ Plan.Step p e p' ∧ Represents s' p'

theorem main {queue : List ℕ} {shared : σ} (h : Represents s ⟨queue, stage, .main, shared⟩) :
    Simulated s ⟨queue, stage, .main, shared⟩ := by
  obtain ⟨hcontrol, hthis⟩ := h.control
  refine ⟨_, _, _, by rw [State.step, hcontrol], .call, ?_⟩
  refine ⟨⟨h.listed.head, h.listed.linked⟩, fun q hq a ha => ?_, ⟨rfl, hthis⟩, h.shared⟩
  exact (h.nodes q hq a ha).of_phase (by rintro ⟨⟩) rfl

theorem finished {queue : List ℕ} {shared : σ} (h : Represents s ⟨queue, stage, .finished c, shared⟩) :
    Simulated s ⟨queue, stage, .finished c, shared⟩ := by
  obtain ⟨hcontrol, hthis, hwaiting, hctx⟩ := h.control
  refine ⟨.enter .sched, { s with coroThisPtr := some .sched, isSchedWaiting := false, control := .wait },
    _, ?_, .finished, ?_⟩
  · rw [State.step, hcontrol]
    simp only [State.coroBodyEnd, hwaiting, if_true, State.jump_sched hctx, Option.bind_eq_bind,
      Option.bind_some]
    rfl
  · refine ⟨⟨h.listed.head, h.listed.linked⟩, fun q hq a ha => ?_, ⟨rfl, rfl⟩, h.shared⟩
    exact (h.nodes q hq a ha).of_phase (by rintro ⟨⟩) rfl

theorem returned {queue : List ℕ} {shared : σ} (h : Represents s ⟨queue, stage, .returned c, shared⟩)
    (hc : c ∉ queue) : Simulated s ⟨queue, stage, .returned c, shared⟩ := by
  obtain ⟨hcontrol, hthis, a, ha, hstage⟩ := h.control
  have hkept : ∀ q ∈ queue, (s.heap.erase c).load q = s.heap.load q := fun q hq =>
    Heap.load_erase_ne (by rintro rfl; exact hc hq)
  refine ⟨.delete c a.ret, { s with heap := s.heap.erase c, control := .main }, _, ?_, .delete hstage, ?_⟩
  · rw [State.step, hcontrol]
    simp only [State.coroDelete, ha, Heap.free_eq ha, Option.bind_eq_bind, Option.bind_some]
    rfl
  · refine ⟨⟨h.listed.head, ?_⟩, fun q hq b hb => ?_, ⟨rfl, hthis⟩, h.shared⟩
    · exact h.listed.linked.congr fun q hq b hb => ⟨b, (hkept q hq).trans hb, rfl, rfl⟩
    · have hb' : s.heap.load q = some b := (hkept q hq).symm.trans hb
      exact (h.nodes q hq b hb').of_phase (by rintro ⟨⟩) rfl

/-! ### The function of a coroutine -/

/-- The coroutine that runs is changed in the plan, and perhaps in its object. -/
theorem nodes_update {queue : List ℕ} {shared : σ} {x : Stage σ ℤ} {heap : Heap (Coro σ)}
    (h : Represents s ⟨queue, stage, .func c, shared⟩)
    (hheap : ∀ q, q ≠ c → heap.load q = s.heap.load q)
    (hnode : ∀ b, heap.load c = some b → Node (Function.update stage c x) phase' c b) :
    ∀ q ∈ queue, ∀ b, heap.load q = some b → Node (Function.update stage c x) phase' q b := by
  intro q hq b hb
  by_cases hqc : q = c
  · subst hqc
    exact hnode b hb
  · rw [hheap q hqc] at hb
    refine Node.update_of_ne ((h.nodes q hq b hb).of_phase ?_ rfl) hqc
    exact fun heq => hqc (Phase.func.inj heq).symm

theorem ret {queue : List ℕ} {shared : σ} (h : Represents s ⟨queue, stage, .func c, shared⟩)
    (hc : c ∈ queue) {v : ℤ} (hstage : stage c = .going (.ret v)) :
    Simulated s ⟨queue, stage, .func c, shared⟩ := by
  obtain ⟨⟨k, hk, hcontrol⟩, hthis, hwaiting, hctx⟩ := h.control
  obtain rfl : k = .ret v := Stage.going.inj (hk.symm.trans hstage)
  obtain ⟨a, ha⟩ := h.load hc
  have hset := State.modify_coro (f := fun a => { a with ret := v, isFinished := true }) ha
  refine ⟨.ret c v, { s with
    heap := s.heap.update c fun a => { a with ret := v, isFinished := true }
    control := .finished c }, _, ?_, .ret hstage, ?_⟩
  · rw [State.step, hcontrol]
    simp only [State.runFunc, hset, Option.bind_eq_bind, Option.bind_some]
    rfl
  · refine ⟨⟨h.listed.head, h.listed.update c fun _ => ⟨rfl, rfl⟩⟩, ?_, ⟨rfl, hthis, hwaiting, hctx⟩,
      h.shared⟩
    refine h.nodes_update (fun q hq => Heap.load_update_ne _ hq) fun b hb => ?_
    obtain rfl := Option.some.inj ((Heap.load_update_self ha _).symm.trans hb)
    rw [Node, Function.update_self]
    exact ⟨rfl, rfl⟩

/-- The function goes on without giving way. -/
theorem goOn {queue : List ℕ} {shared shared' : σ} (h : Represents s ⟨queue, stage, .func c, shared⟩)
    (hc : c ∈ queue) (hstage : stage c = .going k) (k' : Code σ ℤ) :
    Represents { s with shared := shared', control := .func c k' }
      ⟨queue, Function.update stage c (.going k'), .func c, shared'⟩ := by
  obtain ⟨-, hthis, hwaiting, hctx⟩ := h.control
  refine ⟨⟨h.listed.head, h.listed.linked⟩, ?_, ⟨⟨k', Function.update_self .., rfl⟩, hthis, hwaiting, hctx⟩,
    rfl⟩
  refine h.nodes_update (fun q _ => rfl) fun b hb => ?_
  have hnode : Node stage (.func c) c b := h.nodes c hc b hb
  rw [Node, hstage] at hnode
  rw [Node, Function.update_self]
  exact ⟨hnode.1, .inl rfl⟩

theorem get {queue : List ℕ} {shared : σ} (h : Represents s ⟨queue, stage, .func c, shared⟩)
    (hc : c ∈ queue) {f : σ → Code σ ℤ} (hstage : stage c = .going (.get f)) :
    Simulated s ⟨queue, stage, .func c, shared⟩ := by
  obtain ⟨⟨k, hk, hcontrol⟩, -⟩ := h.control
  obtain rfl : k = .get f := Stage.going.inj (hk.symm.trans hstage)
  have hshared : s.shared = shared := h.shared
  refine ⟨.run c, { s with control := .func c (f s.shared) }, _, ?_, .get hstage, ?_⟩
  · rw [State.step, hcontrol]
    rfl
  · subst hshared
    exact h.goOn hc hstage (f s.shared)

theorem put {queue : List ℕ} {shared shared' : σ} (h : Represents s ⟨queue, stage, .func c, shared⟩)
    (hc : c ∈ queue) (hstage : stage c = .going (.put shared' k)) :
    Simulated s ⟨queue, stage, .func c, shared⟩ := by
  obtain ⟨⟨k', hk, hcontrol⟩, -⟩ := h.control
  obtain rfl : k' = .put shared' k := Stage.going.inj (hk.symm.trans hstage)
  refine ⟨.run c, { s with shared := shared', control := .func c k }, _, ?_, .put hstage,
    h.goOn hc hstage k⟩
  rw [State.step, hcontrol]
  rfl

/-- What `coro_yield` leaves in the object of the coroutine. -/
def suspend (c : ℕ) (k : Code σ ℤ) (a : Coro σ) : Coro σ :=
  { a with switchCount := a.switchCount + 1, ctx := some (.yieldTo (.coro c) c k) }

theorem coroYield_eq {queue : List ℕ} {shared : σ} (h : Represents s ⟨queue, stage, .func c, shared⟩)
    (ha : s.heap.load c = some a) :
    s.coroYield c k = ({ s with heap := s.heap.update c (suspend c k) }.jump (State.behind a)).map
      fun s' => (.enter (State.behind a), s') := by
  obtain ⟨-, hthis, -⟩ := h.control
  have hload : s.load (.coro c) = some a := ha
  have hset : s.modify (.coro c) (fun a => { a with
      switchCount := a.switchCount + 1, ctx := some (.yieldTo (.coro c) c k) }) =
      some { s with heap := s.heap.update c (suspend c k) } := State.modify_coro ha
  simp only [State.coroYield, State.coroYieldTo, hthis, hload, hset, Option.bind_eq_bind,
    Option.bind_some]
  rw [Option.map_eq_bind]
  rfl

theorem nodes_suspend {queue : List ℕ} {shared : σ} (h : Represents s ⟨queue, stage, .func c, shared⟩)
    (hc : c ∈ queue) (hstage : stage c = .going (.yield k)) :
    ∀ q ∈ queue, ∀ b, (s.heap.update c (suspend c k)).load q = some b →
      Node (Function.update stage c (.going k)) phase q b := by
  refine h.nodes_update (fun q hq => Heap.load_update_ne _ hq) fun b hb => ?_
  obtain ⟨a, ha, rfl⟩ := Heap.of_load_update hb
  have hnode : Node stage (.func c) c a := h.nodes c hc a ha
  rw [Node, hstage] at hnode
  rw [Node, Function.update_self, if_pos rfl]
  exact ⟨hnode.1, .inr (.inr rfl)⟩

theorem yield {queue : List ℕ} {shared : σ} (h : Represents s ⟨queue, stage, .func c, shared⟩)
    (hgoing : ∀ q ∈ queue, Going stage q) (hc : c ∈ queue) (hstage : stage c = .going (.yield k)) :
    Simulated s ⟨queue, stage, .func c, shared⟩ := by
  obtain ⟨⟨k', hk, hcontrol⟩, -, hwaiting, hctx⟩ := h.control
  obtain rfl : k' = .yield k := Stage.going.inj (hk.symm.trans hstage)
  obtain ⟨i, hi⟩ := List.mem_iff_getElem?.mp hc
  obtain ⟨a, ha, hnext, -⟩ := h.listed.linked i c hi
  have hstep : s.step = s.coroYield c k := by
    rw [State.step, hcontrol]
    rfl
  have hlisted := h.listed.update c (f := suspend c k) fun _ => ⟨rfl, rfl⟩
  have hlt := (List.getElem?_eq_some_iff.mp hi).1
  have hsplit : queue = queue.take i ++ c :: queue.drop (i + 1) := by
    conv_lhs => rw [← List.take_append_drop i queue, List.drop_eq_getElem_cons hlt,
      (List.getElem?_eq_some_iff.mp hi).2]
  cases hd : queue[i + 1]? with
  | none =>
    -- it is the last one
    have hbehind : State.behind a = .sched := by rw [State.behind, hnext, hd]
    have hdrop : queue.drop (i + 1) = [] := List.drop_eq_nil_of_le (List.getElem?_eq_none_iff.mp hd)
    rw [hdrop] at hsplit
    refine ⟨.enter .sched, { s with
      heap := s.heap.update c (suspend c k), coroThisPtr := some .sched, isSchedWaiting := false
      control := .wait }, _, ?_, .last hstage hsplit, ?_⟩
    · have hjump := State.jump_sched (s := { s with heap := s.heap.update c (suspend c k) }) hctx
      rw [hstep, h.coroYield_eq ha, hbehind, hjump]
      rfl
    · exact ⟨⟨h.listed.head, hlisted⟩, h.nodes_suspend hc hstage, ⟨rfl, rfl⟩, h.shared⟩
  | some d =>
    have hbehind : State.behind a = .coro d := by rw [State.behind, hnext, hd]
    have hdq : d ∈ queue := List.mem_of_getElem? hd
    have hdc : d ≠ c := by
      rintro rfl
      have := h.listed.linked.index_eq hi hd
      omega
    obtain ⟨kd, hkd⟩ := hgoing d hdq
    obtain ⟨b, hb, hsaved⟩ := h.enter hdq hkd fun heq => hdc (Phase.func.inj heq).symm
    have hb' : (s.heap.update c (suspend c k)).load d = some b :=
      (Heap.load_update_ne _ hdc).trans hb
    have hdrop : queue.drop (i + 1) = d :: queue.drop (i + 2) := by
      rw [List.drop_eq_getElem_cons (List.getElem?_eq_some_iff.mp hd).1,
        (List.getElem?_eq_some_iff.mp hd).2]
    rw [hdrop] at hsplit
    refine ⟨.enter (.coro d), { s with
      heap := s.heap.update c (suspend c k), coroThisPtr := some (.coro d)
      control := .func d kd }, _, ?_, .next hstage hsplit, ?_⟩
    · have hjump := State.jump_coro (s := { s with heap := s.heap.update c (suspend c k) }) hb' hsaved
      rw [hstep, h.coroYield_eq ha, hbehind, hjump]
      rfl
    · refine ⟨⟨h.listed.head, hlisted⟩, h.nodes_suspend hc hstage, ⟨⟨kd, ?_, rfl⟩, rfl, hwaiting, hctx⟩,
        h.shared⟩
      exact (Function.update_of_ne hdc ..).trans hkd

/-! ### The scheduler -/

theorem waitNone {shared : σ} (h : Represents s ⟨[], stage, .wait, shared⟩) :
    Simulated s ⟨[], stage, .wait, shared⟩ := by
  obtain ⟨hcontrol, hthis⟩ := h.control
  have hlist : s.coroList = none := h.listed.head
  refine ⟨.wait none, { s with control := .done }, _, ?_, .none, ?_⟩
  · rw [State.step, hcontrol]
    simp only [State.coroSchedWait, hlist]
  · exact ⟨⟨h.listed.head, h.listed.linked⟩, fun q hq => (by cases hq), ⟨rfl, hthis⟩, h.shared⟩

theorem waitSome {queue : List ℕ} {shared : σ} (h : Represents s ⟨queue, stage, .wait, shared⟩)
    (hfind : queue.find? (isOver stage) = some c) :
    Simulated s ⟨queue, stage, .wait, shared⟩ := by
  obtain ⟨hcontrol, hthis⟩ := h.control
  have hc : c ∈ queue := List.mem_of_find?_eq_some hfind
  obtain ⟨v, hv⟩ := isOver_iff.mp (List.find?_some hfind)
  have hscan := State.findFinished_eq h.listed (P := isOver stage) fun p hp a ha =>
    (h.nodes p hp a ha).isFinished
  rw [hfind] at hscan
  obtain ⟨s', hdelete, hlisted, hsame, hs'⟩ :=
    State.coroListDelete_eq h.listed (List.getElem?_idxOf hc)
  have herase : queue.eraseIdx (queue.idxOf c) = queue.erase c :=
    (List.erase_eq_eraseIdx_of_idxOf rfl).symm
  rw [herase] at hlisted
  have hlist : ∃ p, s.coroList = some p := by
    rw [h.listed.head]
    cases queue with
    | nil => cases hc
    | cons p l => exact ⟨p, rfl⟩
  obtain ⟨p, hp⟩ := hlist
  refine ⟨.wait (some c), { s' with control := .returned c }, _, ?_, .wait hc ⟨v, hv⟩, ?_⟩
  · rw [State.step, hcontrol]
    simp only [State.coroSchedWait, hp, hscan, hdelete, Option.bind_eq_bind, Option.bind_some]
    rfl
  · have hthis' : s'.coroThisPtr = some .sched := by rw [hs']; exact hthis
    have hshared' : s'.shared = shared := by rw [hs']; exact h.shared
    refine ⟨⟨hlisted.head, hlisted.linked⟩, fun q hq b hb => ?_, ⟨rfl, hthis', ?_⟩, hshared'⟩
    · obtain ⟨a, ha⟩ := h.load (List.mem_of_mem_erase hq)
      obtain ⟨b', hb', hlinks⟩ := hsame.load ha
      obtain rfl := Option.some.inj (hb'.symm.trans hb)
      exact (h.nodes q (List.mem_of_mem_erase hq) a ha).of_phase (by rintro ⟨⟩) hlinks
    · obtain ⟨a, ha⟩ := h.load hc
      obtain ⟨b, hb, hlinks⟩ := hsame.load ha
      have hnode : Node stage .wait c b :=
        (h.nodes c hc a ha).of_phase (by rintro ⟨⟩) hlinks
      rw [Node, hv] at hnode
      exact ⟨b, hb, hv.trans (congrArg Stage.ended hnode.2.symm)⟩

/-- What `coro_sched_wait` leaves in its variables when it gives way. -/
def waiting (s : State σ) : State σ :=
  { s with
    isSchedWaiting := true
    coroSched := { s.coroSched with
      switchCount := s.coroSched.switchCount + 1, ctx := some (.wait .sched) } }

theorem waitRound {l : List ℕ} {shared : σ} (h : Represents s ⟨c :: l, stage, .wait, shared⟩)
    (hfind : (c :: l).find? (isOver stage) = none) : Simulated s ⟨c :: l, stage, .wait, shared⟩ := by
  obtain ⟨hcontrol, hthis⟩ := h.control
  have hgoing : ∀ q ∈ c :: l, Going stage q := fun q hq =>
    (Plan.going_or_over stage q).resolve_right fun hover =>
      List.find?_eq_none.mp hfind q hq (isOver_iff.mpr hover)
  have hscan := State.findFinished_eq h.listed (P := isOver stage) fun p hp a ha =>
    (h.nodes p hp a ha).isFinished
  rw [hfind] at hscan
  obtain ⟨k, hk⟩ := hgoing c List.mem_cons_self
  obtain ⟨a, ha, hsaved⟩ := h.enter List.mem_cons_self hk (by rintro ⟨⟩)
  have hlist : s.coroList = some c := h.listed.head
  have hload : (waiting s).heap.load c = some a := ha
  have hyield : { s with isSchedWaiting := true }.coroYieldTo (.coro c) .wait =
      (waiting s).jump (.coro c) := by
    simp only [State.coroYieldTo, hthis, State.modify, Option.bind_eq_bind, Option.bind_some]
    rfl
  simp only [hlist] at hyield
  refine ⟨.enter (.coro c), { waiting s with coroThisPtr := some (.coro c), control := .func c k }, _, ?_,
    .round hgoing, ?_⟩
  · rw [State.step, hcontrol]
    simp only [State.coroSchedWait, hlist, hscan, hyield, State.jump_coro hload hsaved,
      Option.bind_eq_bind, Option.bind_some]
    rfl
  · refine ⟨⟨h.listed.head, h.listed.linked⟩, fun q hq b hb => ?_, ⟨⟨k, hk, rfl⟩, rfl, rfl, rfl⟩, h.shared⟩
    exact (h.nodes q hq b hb).of_phase (by rintro ⟨⟩) rfl

/-- Unless the plan is at its end or a function is stuck, there is a step. -/
theorem step (h : Represents s p) (hp : p.Valid) (hdone : p.phase ≠ .done)
    (hstuck : ∀ c, p.phase = .func c → p.stage c ≠ .going .stuck) : Simulated s p := by
  obtain ⟨queue, stage, phase, shared⟩ := p
  cases phase with
  | main => exact h.main
  | wait =>
    cases queue with
    | nil => exact h.waitNone
    | cons c l =>
      cases hfind : (c :: l).find? (isOver stage) with
      | none => exact h.waitRound hfind
      | some d => exact h.waitSome hfind
  | func c =>
    obtain ⟨hc, hgoing⟩ := hp.sound
    obtain ⟨k, hk⟩ := hgoing c hc
    cases k with
    | ret v => exact h.ret hc hk
    | stuck => exact absurd hk (hstuck c rfl)
    | get f => exact h.get hc hk
    | put shared' k => exact h.put hc hk
    | yield k => exact h.yield hgoing hc hk
  | finished c => exact h.finished
  | returned c => exact h.returned hp.sound.1
  | done => exact absurd rfl hdone

/-- Each step of the library is one of the plan. -/
theorem simulates (h : Represents s p) (hp : p.Valid) {e : Event} {s' : State σ}
    (hstep : State.Step s e s') : ∃ p', Plan.Step p e p' ∧ Represents s' p' := by
  have hdone : p.phase ≠ .done := fun hdone => by
    have hcontrol := h.control
    rw [hdone] at hcontrol
    rw [State.Step, State.step, hcontrol.1] at hstep
    cases hstep
  have hstuck : ∀ c, p.phase = .func c → p.stage c ≠ .going .stuck := fun c hc hstuck => by
    have hcontrol := h.control
    rw [hc] at hcontrol
    obtain ⟨⟨k, hk, hfunc⟩, -⟩ := hcontrol
    obtain rfl := Stage.going.inj (hk.symm.trans hstuck)
    rw [State.Step, State.step, hfunc] at hstep
    cases hstep
  obtain ⟨e', s'', p', hstep', hplan, hrepresents⟩ := h.step hp hdone hstuck
  obtain ⟨rfl, rfl⟩ := Prod.mk.inj (Option.some.inj (hstep'.symm.trans hstep))
  exact ⟨p', hplan, hrepresents⟩

end Represents

end

end SystemsProgramming.Libcoro

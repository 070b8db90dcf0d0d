import SystemsProgramming.Libcoro.Refinement
import Mathlib.Data.List.Induction

/-! The coroutines that `main` creates. Each goes to the front of the list with a context in `coro_body`, and
the creation leaves everything else as it was. -/

namespace SystemsProgramming.Libcoro

variable {σ : Type} {s : State σ} {queue : List ℕ} {stage : ℕ → Stage σ ℤ} {shared : σ}

/-- The coroutines with these functions, before the first call of `coro_sched_wait`. -/
def Plan.initial (funcs : List (Code σ ℤ)) (shared : σ) : Plan σ where
  queue := (List.range funcs.length).reverse
  stage i := .going (funcs[i]?.getD .stuck)
  phase := .main
  shared := shared

theorem Plan.valid_initial (funcs : List (Code σ ℤ)) (shared : σ) : (Plan.initial funcs shared).Valid :=
  ⟨List.nodup_reverse.mpr List.nodup_range, fun _ _ => ⟨_, rfl⟩⟩

namespace Represents

theorem coroNew (h : Represents s ⟨queue, stage, .main, shared⟩) (hqueue : ∀ q ∈ queue, q < s.heap.next)
    (func : Code σ ℤ) : ∃ s', s.coroNew func = some s' ∧ s'.heap.next = s.heap.next + 1 ∧
      Represents s' ⟨s.heap.next :: queue, Function.update stage s.heap.next (.going func), .main,
        shared⟩ := by
  obtain ⟨hcontrol, hthis⟩ := h.control
  have hout : s.heap.next ∉ queue := fun hmem => Nat.lt_irrefl _ (hqueue _ hmem)
  have hmalloc : (s.heap.malloc ⟨0, func, none, false, 0, none, none⟩).load s.heap.next =
      some ⟨0, func, none, false, 0, none, none⟩ := by rw [Heap.load_malloc, if_pos rfl]
  -- the object with its context, not in the list yet
  obtain ⟨heap, hheap⟩ : ∃ heap, heap = (s.heap.malloc ⟨0, func, none, false, 0, none, none⟩).update
    s.heap.next fun a => { a with ctx := some (.body s.heap.next) } := ⟨_, rfl⟩
  have hnew : heap.load s.heap.next =
      some ⟨0, func, some (.body s.heap.next), false, 0, none, none⟩ := by
    rw [hheap]
    exact Heap.load_update_self hmalloc _
  have hold : ∀ q ∈ queue, heap.load q = s.heap.load q := fun q hq => by
    have hne := Nat.ne_of_lt (hqueue q hq)
    rw [hheap, Heap.load_update_ne _ hne, Heap.load_malloc, if_neg hne]
  have hbody : State.coroBody { s with
      heap := s.heap.malloc ⟨0, func, none, false, 0, none, none⟩
      coroThisPtr := some (.coro s.heap.next) } = some { s with heap := heap, coroThisPtr := none } := by
    rw [hheap]
    exact State.modify_coro hmalloc
  have hlisted : State.Listed { s with heap := heap } queue :=
    ⟨h.listed.head, h.listed.linked.congr fun q hq b hb => ⟨b, (hold q hq).trans hb, rfl, rfl⟩⟩
  obtain ⟨s', hadd, hlisted', hsame, hnext, hs'⟩ := State.coroListAdd_eq hlisted hnew hout
  refine ⟨s', ?_, ?_, hlisted', fun q hq b hb => ?_, ⟨?_, ?_⟩, ?_⟩
  · simp only [State.coroNew, hbody, Option.bind_eq_bind, Option.bind_some]
    exact hadd
  · rw [hnext, hheap]
    rfl
  · rcases List.mem_cons.mp hq with rfl | hq
    · obtain ⟨b', hb', hlinks⟩ := hsame.load hnew
      obtain rfl := Option.some.inj (hb'.symm.trans hb)
      simp only [Coro.unlinked, Coro.mk.injEq] at hlinks
      obtain ⟨-, hfunc, hctx, hfinished, -⟩ := hlinks
      show Node (Function.update stage s.heap.next (.going func)) .main s.heap.next b'
      rw [Node, Function.update_self]
      exact ⟨hfinished, .inr (.inl ⟨hctx, hfunc⟩)⟩
    · obtain ⟨a, ha⟩ := h.load hq
      obtain ⟨b', hb', hlinks⟩ := hsame.load ((hold q hq).trans ha)
      obtain rfl := Option.some.inj (hb'.symm.trans hb)
      refine Node.update_of_ne ?_ (Nat.ne_of_lt (hqueue q hq))
      exact (h.nodes q hq a ha).of_phase (by rintro ⟨⟩) hlinks
  · rw [hs']
    exact hcontrol
  · rw [hs']
    exact hthis
  · rw [hs']
    exact h.shared

end Represents

/-- The creation succeeds, and represents the plan. -/
theorem start_eq (funcs : List (Code σ ℤ)) (shared : σ) : ∃ s, State.start funcs shared = some s ∧
    s.heap.next = funcs.length ∧ Represents s (.initial funcs shared) := by
  induction funcs using List.reverseRecOn with
  | nil =>
    exact ⟨.coroSchedInit shared, rfl, rfl, ⟨rfl, .nil⟩, fun q hq => (by cases hq), ⟨rfl, rfl⟩, rfl⟩
  | append_singleton funcs func ih =>
    obtain ⟨s, hstart, hnext, hrepresents⟩ := ih
    obtain ⟨s', hnew, hnext', hrepresents'⟩ := hrepresents.coroNew (fun q hq => by
      rw [hnext]
      exact List.mem_range.mp (List.mem_reverse.mp hq)) func
    have hplan : Plan.initial (funcs ++ [func]) shared =
        ⟨s.heap.next :: (List.range funcs.length).reverse,
          Function.update (fun i => .going (funcs[i]?.getD .stuck)) s.heap.next (.going func), .main,
          shared⟩ := by
      have hstage : (fun i => (.going ((funcs ++ [func])[i]?.getD .stuck) : Stage σ ℤ)) =
          Function.update (fun i => .going (funcs[i]?.getD .stuck)) s.heap.next (.going func) := by
        funext i
        rw [Function.update_apply, hnext]
        split_ifs with hi
        · rw [hi, List.getElem?_concat_length]
          rfl
        · rcases Nat.lt_or_gt_of_ne hi with hlt | hgt
          · rw [List.getElem?_append_left hlt]
          · rw [List.getElem?_eq_none (by simp; omega), List.getElem?_eq_none (by omega)]
      rw [Plan.initial, hstage, List.length_append, List.length_singleton, List.range_succ,
        List.reverse_append, List.reverse_singleton, List.singleton_append, hnext]
    refine ⟨s', ?_, ?_, hplan ▸ hrepresents'⟩
    · rw [State.start, List.foldlM_append, ← State.start, hstart]
      simp only [Option.bind_eq_bind, Option.bind_some, List.foldlM_cons, hnew, List.foldlM_nil]
      rfl
    · rw [hnext', hnext, List.length_append, List.length_singleton]

end SystemsProgramming.Libcoro

import SystemsProgramming.Libcoro.Model
import SystemsProgramming.Foundation.Linked

/-! The objects of the coroutines in a row, and how the operations on the list change their links. Nothing
else of an object is touched by them. -/

namespace SystemsProgramming.Libcoro

variable {σ : Type}

/-- An object without its links. -/
def Coro.unlinked (a : Coro σ) : Coro σ := { a with next := none, prev := none }

namespace State

variable {s : State σ} {c p q : ℕ} {a b : Coro σ} {f : Coro σ → Coro σ} {l : List ℕ}

theorem modify_coro (h : s.heap.load p = some a) :
    s.modify (.coro p) f = some { s with heap := s.heap.update p f } := by
  rw [modify, Heap.modify_eq h]
  rfl

/-- The objects of the list, in order. -/
structure Listed (s : State σ) (l : List ℕ) : Prop where
  head : s.coroList = l.head?
  linked : Linked s.heap.load Coro.next Coro.prev l

theorem Listed.load (h : s.Listed l) (hp : p ∈ l) : ∃ a, s.heap.load p = some a := by
  obtain ⟨i, hi⟩ := List.mem_iff_getElem?.mp hp
  obtain ⟨a, ha, -⟩ := h.linked i p hi
  exact ⟨a, ha⟩

/-- A link is set if there is an object to set it in. -/
theorem modifyIf_eq {o : Option ℕ} (ho : ∀ p ∈ o, ∃ a, s.heap.load p = some a) :
    ∃ heap : Heap (Coro σ), s.modifyIf o f = some { s with heap := heap } ∧
      (∀ q, heap.load q = if o = some q then (s.heap.load q).map f else s.heap.load q) ∧
      heap.next = s.heap.next := by
  cases o with
  | none => exact ⟨s.heap, rfl, fun q => (if_neg fun h => nomatch h).symm, rfl⟩
  | some p =>
    obtain ⟨a, ha⟩ := ho p rfl
    refine ⟨s.heap.update p f, modify_coro ha, fun q => ?_, rfl⟩
    rw [Heap.load_update]
    exact if_congr ⟨fun h => congrArg some h.symm, fun h => (Option.some.inj h).symm⟩ rfl rfl

/-- Objects differ at most in their links. -/
def SameBut (load load' : ℕ → Option (Coro σ)) : Prop :=
  ∀ q, (load' q).map Coro.unlinked = (load q).map Coro.unlinked

theorem SameBut.load {load load' : ℕ → Option (Coro σ)} (h : SameBut load load')
    (hq : load q = some a) : ∃ b, load' q = some b ∧ b.unlinked = a.unlinked := by
  have hmap := h q
  rw [hq] at hmap
  exact Option.map_eq_some_iff.mp hmap

theorem SameBut.trans {load load' load'' : ℕ → Option (Coro σ)} (h : SameBut load load')
    (h' : SameBut load' load'') : SameBut load load'' := fun q => (h' q).trans (h q)

theorem sameBut_of_load {load load' : ℕ → Option (Coro σ)} {f : Coro σ → Coro σ}
    {o : Option ℕ} (h : ∀ q, load' q = if o = some q then (load q).map f else load q)
    (hf : ∀ a, (f a).unlinked = a.unlinked) : SameBut load load' := by
  intro q
  rw [h]
  split_ifs
  · rw [Option.map_map]
    exact congrArg (Option.map · (load q)) (funext hf)
  · rfl

theorem sameBut_update (heap : Heap (Coro σ)) (p : ℕ) {f : Coro σ → Coro σ}
    (hf : ∀ a, (f a).unlinked = a.unlinked) : SameBut heap.load (heap.update p f).load := by
  refine sameBut_of_load (o := some p) (fun q => ?_) hf
  rw [Heap.load_update]
  exact if_congr ⟨fun h => congrArg some h.symm, fun h => (Option.some.inj h).symm⟩ rfl rfl

theorem head?_eraseIdx {i : ℕ} (hi : i < l.length) :
    (l.eraseIdx i).head? = if before l i = none then l[i + 1]? else l.head? := by
  cases l with
  | nil => cases hi
  | cons p l =>
    cases i with
    | zero => exact List.head?_eq_getElem?
    | succ i =>
      have hsome : ¬before (p :: l) (i + 1) = none := by
        rw [before, List.getElem?_eq_none_iff]
        omega
      rw [if_neg hsome]
      rfl

theorem coroListDelete_eq (h : s.Listed l) {i : ℕ} (hi : l[i]? = some c) :
    ∃ s' : State σ, s.coroListDelete c = some s' ∧ s'.Listed (l.eraseIdx i) ∧
      SameBut s.heap.load s'.heap.load ∧
      s' = { s with heap := s'.heap, coroList := s'.coroList } := by
  obtain ⟨a, ha, hnext, hprev⟩ := h.linked i c hi
  have hneighbour : ∀ j p, l[j]? = some p → ∃ b, s.heap.load p = some b := fun j p hj =>
    h.load (List.mem_of_getElem? hj)
  obtain ⟨heap₁, hset₁, hload₁, -⟩ := modifyIf_eq (s := s) (o := a.prev)
    (f := fun b => { b with next := a.next }) fun p hp => by
      rw [hprev] at hp
      cases i with
      | zero => cases hp
      | succ i => exact hneighbour i p hp
  have hsame₁ : SameBut s.heap.load heap₁.load := sameBut_of_load hload₁ fun _ => rfl
  obtain ⟨heap₂, hset₂, hload₂, -⟩ := modifyIf_eq (s := { s with heap := heap₁ }) (o := a.next)
    (f := fun b => { b with prev := a.prev }) fun p hp => by
      rw [hnext] at hp
      obtain ⟨b, hb⟩ := hneighbour (i + 1) p hp
      obtain ⟨b', hb', -⟩ := hsame₁.load hb
      exact ⟨b', hb'⟩
  have hsame : SameBut s.heap.load heap₂.load :=
    hsame₁.trans (sameBut_of_load hload₂ fun _ => rfl)
  have hlinked : Linked heap₂.load Coro.next Coro.prev (l.eraseIdx i) := by
    refine h.linked.eraseIdx hi ha fun q hq hne b hb => ?_
    obtain ⟨j, hj⟩ := List.mem_iff_getElem?.mp hq
    -- the neighbours are those whose links lead to it
    have hnextIff : b.next = some c ↔ a.prev = some q := h.linked.next_iff hi hj ha hb
    have hprevIff : b.prev = some c ↔ a.next = some q := (h.linked.next_iff hj hi hb ha).symm
    rw [hload₂, hload₁, hb]
    simp only [hnextIff, hprevIff]
    split_ifs <;> exact ⟨_, rfl, rfl, rfl⟩
  have hhead : (l.eraseIdx i).head? = if a.prev = none then a.next else s.coroList := by
    rw [h.head, hprev, hnext]
    exact head?_eraseIdx (List.getElem?_eq_some_iff.mp hi).1
  by_cases hfirst : a.prev = none
  · refine ⟨{ s with heap := heap₂, coroList := a.next }, ?_, ⟨?_, hlinked⟩, hsame, rfl⟩
    · simp only [coroListDelete, ha, hset₁, hset₂, Option.bind_eq_bind, Option.bind_some, if_pos hfirst]
      rfl
    · rw [hhead, if_pos hfirst]
  · refine ⟨{ s with heap := heap₂ }, ?_, ⟨?_, hlinked⟩, hsame, rfl⟩
    · simp only [coroListDelete, ha, hset₁, hset₂, Option.bind_eq_bind, Option.bind_some, if_neg hfirst]
      rfl
    · rw [hhead, if_neg hfirst]

/-- A new object is put in front. -/
theorem coroListAdd_eq (h : s.Listed l) (hc : s.heap.load c = some a) (hout : c ∉ l) :
    ∃ s' : State σ, s.coroListAdd c = some s' ∧ s'.Listed (c :: l) ∧
      SameBut s.heap.load s'.heap.load ∧ s'.heap.next = s.heap.next ∧
      s' = { s with heap := s'.heap, coroList := some c } := by
  have hset₁ := modify_coro (f := fun a => { a with next := s.coroList, prev := none }) hc
  have hload₁ := Heap.load_update s.heap c fun a : Coro σ => { a with next := s.coroList, prev := none }
  have hsame₁ := sameBut_update s.heap c (f := fun a => { a with next := s.coroList, prev := none })
    fun _ => rfl
  obtain ⟨heap₂, hset₂, hload₂, hnext₂⟩ := modifyIf_eq
    (s := { s with heap := s.heap.update c fun a => { a with next := s.coroList, prev := none } })
    (o := s.coroList) (f := fun a => { a with prev := some c }) fun p hp => by
      rw [h.head] at hp
      obtain ⟨b, hb⟩ := h.load (List.mem_of_mem_head? hp)
      obtain ⟨b', hb', -⟩ := hsame₁.load hb
      exact ⟨b', hb'⟩
  have hself : heap₂.load c = some { a with next := s.coroList, prev := none } := by
    have hne : ¬s.coroList = some c := by
      rw [h.head]
      exact fun hp => hout (List.mem_of_mem_head? hp)
    rw [hload₂, if_neg hne, hload₁, if_pos rfl, hc]
    rfl
  refine ⟨{ s with heap := heap₂, coroList := some c }, ?_, ⟨rfl, ?_⟩, ?_, hnext₂, rfl⟩
  · simp only [coroListAdd, hset₁, hset₂, Option.bind_eq_bind, Option.bind_some]
    rfl
  · refine h.linked.push hself h.head rfl fun q hq b hb => ?_
    have hne : q ≠ c := fun heq => hout (heq ▸ hq)
    rw [hload₂, hload₁, if_neg hne, hb, h.head]
    split_ifs <;> exact ⟨_, rfl, rfl, rfl⟩
  · exact hsame₁.trans (sameBut_of_load hload₂ fun _ => rfl)

/-- Fields that are no links may change. -/
theorem Listed.update (h : s.Listed l) (p : ℕ) (hf : ∀ a, (f a).next = a.next ∧ (f a).prev = a.prev) :
    Linked (s.heap.update p f).load Coro.next Coro.prev l := by
  refine h.linked.congr fun q _ b hb => ?_
  rw [Heap.load_update, hb]
  split_ifs
  · exact ⟨_, rfl, hf b⟩
  · exact ⟨_, rfl, rfl, rfl⟩

/-- The scan of the list from an object on. -/
theorem iterate_finishedStep {P : ℕ → Bool} (h : s.Listed l)
    (hP : ∀ p ∈ l, ∀ a, s.heap.load p = some a → a.isFinished = P p) {n i : ℕ}
    (hn : l.length < n + i) (hi : i ≤ l.length) :
    iterate (finishedStep s.heap) n l[i]? = some ((l.drop i).find? P) := by
  induction n generalizing i with
  | zero => omega
  | succ n ih =>
    cases hp : l[i]? with
    | none =>
      rw [List.drop_eq_nil_of_le (List.getElem?_eq_none_iff.mp hp)]
      rfl
    | some p =>
      obtain ⟨a, ha, hnext, -⟩ := h.linked i p hp
      have hlt := (List.getElem?_eq_some_iff.mp hp).1
      have hdrop : l.drop i = p :: l.drop (i + 1) := by
        rw [List.drop_eq_getElem_cons hlt, (List.getElem?_eq_some_iff.mp hp).2]
      have hfinished := hP p (List.mem_of_getElem? hp) a ha
      rw [hdrop, List.find?_cons, iterate]
      simp only [finishedStep, ha, Option.bind_eq_bind, Option.bind_some, hfinished]
      cases P p with
      | true => rfl
      | false => exact hnext ▸ ih (by omega) hlt

/-- The scan of the list finds the first finished coroutine. -/
theorem findFinished_eq {P : ℕ → Bool} (h : s.Listed l)
    (hP : ∀ p ∈ l, ∀ a, s.heap.load p = some a → a.isFinished = P p) :
    s.findFinished = some (l.find? P) := by
  have hlength : l.length ≤ s.heap.next := h.linked.length_le fun p a hp => Heap.lt_next hp
  have hscan := iterate_finishedStep h hP (n := s.heap.next + 1) (i := 0) (by omega) (Nat.zero_le _)
  rw [findFinished, h.head, List.head?_eq_getElem?, hscan, List.drop_zero]

end State

end SystemsProgramming.Libcoro

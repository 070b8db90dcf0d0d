import SystemsProgramming.HeapHelp.Model
import Mathlib.Data.List.Range
import Mathlib.Data.List.Perm.Basic

/-! Where the records of the tracker are. Each record that has been handed out of a batch is in the list
of allocations, in the pool, or with somebody who is about to fill it in. What is done under the lock
moves one record from one of these places to another. -/

namespace SystemsProgramming.HeapHelp

namespace Tracker

variable {t t' : Tracker}

/-- What the record says about a block. -/
def content (t : Tracker) (a : Slot) : Address × ℕ := ((t.records a).mem, (t.records a).size)

/-- The variables that are not about records. -/
structure Frame (t t' : Tracker) : Prop where
  staticBuf : t'.staticBuf = t.staticBuf
  staticSize : t'.staticSize = t.staticSize
  depth : t'.depth = t.depth
  isInitDone : t'.isInitDone = t.isInitDone
  isExitDone : t'.isExitDone = t.isExitDone

theorem records_modify (t : Tracker) (a : Slot) (f : Allocation → Allocation) (b : Slot) :
    (t.modify a f).records b = if b = a then f (t.records a) else t.records b :=
  Function.update_apply ..

theorem next_modify (t : Tracker) (a : Slot) (f : Allocation → Allocation) :
    (t.modify a f).next = Function.update t.next a (f (t.records a)).next := by
  funext b
  rw [next, records_modify, Function.update_apply]
  split_ifs <;> rfl

/-- The link may be changed; the rest of a record is as it was. -/
theorem content_modify (t : Tracker) (a : Slot) {f : Allocation → Allocation}
    (hf : ∀ r, (f r).mem = r.mem ∧ (f r).size = r.size) : (t.modify a f).content = t.content := by
  funext b
  rw [content, records_modify]
  split_ifs with hb
  · rw [(hf _).1, (hf _).2, hb, content]
  · rfl

/-- The lists of the tracker, and the records held by those who are about to fill them in. -/
structure Holdings (t : Tracker) (live spare held : List Slot) : Prop where
  allocs : Chain t.next t.allocs live
  pool : Chain t.next t.allocPool spare
  slots : (live ++ spare ++ held).Perm (List.range t.handedOut)
  count : t.allocCount = live.length
  used : t.used ≤ allocationBatchSize

namespace Holdings

variable {live spare held : List Slot} {a : Slot}

theorem initial (staticBuf : Option Address) : Holdings (Tracker.initial staticBuf) [] [] [] where
  allocs := rfl
  pool := rfl
  slots := .refl []
  count := rfl
  used := Nat.zero_le _

theorem nodup (h : Holdings t live spare held) : (live ++ spare ++ held).Nodup :=
  h.slots.nodup_iff.mpr List.nodup_range

theorem length_le (h : Holdings t live spare held) : live.length ≤ t.handedOut := by
  have hlength := h.slots.length_eq
  rw [List.length_append, List.length_append, List.length_range] at hlength
  omega

/-- The order of those who hold records does not matter. -/
theorem perm (h : Holdings t live spare held) {held' : List Slot} (hp : held.Perm held') :
    Holdings t live spare held' :=
  { h with slots := (hp.symm.append_left _).trans h.slots }

/-! ### The first section of `alloc_trace_new` -/

theorem takeFromBatch (h : Holdings t live spare held) {batch used : ℕ}
    (hnumber : batch * allocationBatchSize + used = t.handedOut) (hused : used < allocationBatchSize) :
    Holdings (t.takeFromBatch batch used).2 live spare ((t.takeFromBatch batch used).1 :: held) where
  allocs := h.allocs
  pool := h.pool
  slots := by
    have hhanded : (t.takeFromBatch batch used).2.handedOut = t.handedOut + 1 := by
      show batch * allocationBatchSize + (used + 1) = t.handedOut + 1
      rw [← hnumber, Nat.add_assoc]
    have hslot : (t.takeFromBatch batch used).1 = t.handedOut := hnumber
    rw [hhanded, hslot, List.range_succ]
    refine List.perm_middle.trans ?_
    exact ((h.slots.cons _).trans (List.perm_append_singleton _ _).symm)
  count := h.count
  used := hused

/-- A record is taken, from the pool if there is one. -/
theorem take (h : Holdings t live spare held) : ∃ a t' spare', t.takeRecord = some (a, t') ∧
    Holdings t' live spare' (a :: held) ∧ t'.records = t.records ∧ Frame t t' := by
  rw [takeRecord]
  have hpool := h.pool
  cases spare with
  | cons a spare =>
    rw [hpool.1]
    have hslots : (live ++ spare ++ a :: held).Perm (List.range t.handedOut) := by
      refine List.Perm.trans ?_ h.slots
      rw [List.append_assoc, List.append_assoc]
      exact List.perm_middle.append_left _
    exact ⟨a, _, spare, rfl, ⟨h.allocs, hpool.2, hslots, h.count, h.used⟩, rfl, rfl, rfl, rfl, rfl, rfl⟩
  | nil =>
    rw [show t.allocPool = none from hpool]
    cases hbatch : t.allocBatch with
    | none =>
      refine ⟨_, _, [], rfl, h.takeFromBatch ?_ (by decide), rfl, rfl, rfl, rfl, rfl, rfl⟩
      simp only [handedOut, hbatch, Nat.zero_mul]
    | some batch =>
      dsimp only
      split_ifs with hfull hroom
      · refine ⟨_, _, [], rfl, h.takeFromBatch ?_ (by decide), rfl, rfl, rfl, rfl, rfl, rfl⟩
        rw [handedOut, hbatch, hfull, Nat.add_mul, Nat.one_mul, Nat.add_zero]
      · refine ⟨_, _, [], rfl, h.takeFromBatch ?_ hroom, rfl, rfl, rfl, rfl, rfl, rfl⟩
        rw [handedOut, hbatch]
      · have := h.used
        omega

/-! ### The second section of `alloc_trace_new`, and what is done before it -/

/-- What is written between the sections is not about the links. -/
theorem fill (h : Holdings t live spare held) (a : Slot) (ptr : Address) (size : ℕ)
    (trace : List Address) : Holdings (t.fillRecord a ptr size trace) live spare held := by
  have hnext : (t.fillRecord a ptr size trace).next = t.next :=
    (next_modify t a fun r => { r with mem := ptr, size := size, trace := trace }).trans
      (Function.update_eq_self a t.next)
  exact ⟨hnext ▸ h.allocs, hnext ▸ h.pool, h.slots, h.count, h.used⟩

theorem link (h : Holdings t live spare (a :: held)) :
    Holdings (t.linkRecord a) (a :: live) spare held := by
  have hout := (List.nodup_cons.mp (List.perm_middle.nodup_iff.mp h.nodup)).1
  have hnext : (t.linkRecord a).next = Function.update t.next a t.allocs :=
    next_modify t a fun r => { r with next := t.allocs }
  constructor
  · rw [hnext]
    exact h.allocs.push fun hmem => hout (List.mem_append_left _ (List.mem_append_left _ hmem))
  · rw [hnext]
    exact h.pool.update (fun hmem => hout (List.mem_append_left _ (List.mem_append_right _ hmem))) _
  · refine List.Perm.trans ?_ h.slots
    exact List.perm_middle.symm
  · show t.allocCount + 1 = ((a :: live).length : ℤ)
    rw [h.count, List.length_cons]
    push_cast
    rfl
  · exact h.used

theorem content_link (t : Tracker) (a : Slot) (ptr : Address) (size : ℕ) (trace : List Address) :
    ((t.fillRecord a ptr size trace).linkRecord a).content =
      Function.update t.content a (ptr, size) := by
  have hlink : ((t.fillRecord a ptr size trace).linkRecord a).content =
      (t.fillRecord a ptr size trace).content :=
    content_modify _ a (f := fun r => { r with next := t.allocs }) fun r => ⟨rfl, rfl⟩
  rw [hlink]
  funext b
  rw [content, fillRecord, records_modify, Function.update_apply]
  split_ifs <;> rfl

/-! ### The section of `alloc_free` -/

theorem unlink {l₁ l₂ : List Slot} (h : Holdings t (l₁ ++ a :: l₂) spare held) :
    Chain (t.unlinkRecord l₁.getLast? a).next (t.unlinkRecord l₁.getLast? a).allocs (l₁ ++ l₂) ∧
      Chain (t.unlinkRecord l₁.getLast? a).next t.allocPool spare := by
  rcases List.eq_nil_or_concat l₁ with rfl | ⟨l, q, rfl⟩
  · exact ⟨h.allocs.2, h.pool⟩
  · have hnext : (t.unlinkRecord (l ++ [q]).getLast? a).next = Function.update t.next q (t.next a) := by
      rw [List.getLast?_concat]
      exact next_modify t q fun r => { r with next := t.next a }
    have hallocs : (t.unlinkRecord (l ++ [q]).getLast? a).allocs = t.allocs := by
      rw [List.getLast?_concat]
      rfl
    have hchain := h.allocs
    have hapart := (List.nodup_append.mp (List.nodup_append.mp h.nodup).1).2.2
    rw [List.concat_eq_append] at hchain hapart ⊢
    rw [List.append_assoc, List.singleton_append] at hchain
    rw [hnext, hallocs, List.append_assoc, List.singleton_append]
    exact ⟨hchain.remove, h.pool.update (fun hmem => hapart q (by simp) q hmem rfl) _⟩

theorem recycle {l₁ l₂ : List Slot} (h : Holdings t (l₁ ++ a :: l₂) spare held) :
    Holdings ((t.unlinkRecord l₁.getLast? a).recycleRecord a) (l₁ ++ l₂) (a :: spare) held := by
  obtain ⟨hallocs, hpool⟩ := h.unlink
  have hslots : (l₁ ++ l₂ ++ a :: spare ++ held).Perm (l₁ ++ a :: l₂ ++ spare ++ held) := by
    simp only [List.append_assoc, List.cons_append]
    exact List.perm_middle.append_left _
  have hout : a ∉ l₁ ++ l₂ ∧ a ∉ spare := by
    have hnodup := hslots.nodup_iff.mpr h.nodup
    rw [List.append_assoc, List.cons_append] at hnodup
    have hnot := (List.nodup_cons.mp (List.perm_middle.nodup_iff.mp hnodup)).1
    exact ⟨fun hmem => hnot (List.mem_append_left _ hmem),
      fun hmem => hnot (List.mem_append_right _ (List.mem_append_left _ hmem))⟩
  have hvars : (t.unlinkRecord l₁.getLast? a).allocPool = t.allocPool ∧
      (t.unlinkRecord l₁.getLast? a).allocCount = t.allocCount ∧
      (t.unlinkRecord l₁.getLast? a).handedOut = t.handedOut ∧
      (t.unlinkRecord l₁.getLast? a).used = t.used := by
    cases l₁.getLast? <;> exact ⟨rfl, rfl, rfl, rfl⟩
  obtain ⟨hpoolPtr, hcount, hhanded, hused⟩ := hvars
  have hnext : ((t.unlinkRecord l₁.getLast? a).recycleRecord a).next =
      Function.update (t.unlinkRecord l₁.getLast? a).next a t.allocPool := by
    rw [← hpoolPtr]
    exact next_modify _ a fun r => { r with next := (t.unlinkRecord l₁.getLast? a).allocPool }
  constructor
  · rw [hnext]
    exact hallocs.update hout.1 _
  · rw [hnext]
    exact hpool.push hout.2
  · have hhanded' : ((t.unlinkRecord l₁.getLast? a).recycleRecord a).handedOut = t.handedOut := hhanded
    rw [hhanded']
    exact hslots.trans h.slots
  · have hcount' : ((t.unlinkRecord l₁.getLast? a).recycleRecord a).allocCount = t.allocCount - 1 := by
      rw [← hcount]
      rfl
    have hlen := h.count
    rw [List.length_append, List.length_cons] at hlen
    rw [hcount', List.length_append, hlen]
    omega
  · exact hused.le.trans h.used

theorem content_recycle (t : Tracker) (prev : Option Slot) (a : Slot) :
    ((t.unlinkRecord prev a).recycleRecord a).content = t.content := by
  have hrecycle : ((t.unlinkRecord prev a).recycleRecord a).content =
      (t.unlinkRecord prev a).content :=
    content_modify _ a (f := fun r => { r with next := (t.unlinkRecord prev a).allocPool })
      fun r => ⟨rfl, rfl⟩
  rw [hrecycle]
  cases prev with
  | none => rfl
  | some prev => exact content_modify t prev (f := fun r => { r with next := t.next a }) fun r => ⟨rfl, rfl⟩

theorem frame_recycle (t : Tracker) (prev : Option Slot) (a : Slot) :
    Frame t ((t.unlinkRecord prev a).recycleRecord a) := by
  cases prev <;> exact ⟨rfl, rfl, rfl, rfl, rfl⟩

/-- The first record with the address is taken out of the list. -/
theorem free (h : Holdings t live spare held) {ptr : Address} (hptr : ∃ a ∈ live, (t.content a).1 = ptr) :
    ∃ t' l₁ a l₂, live = l₁ ++ a :: l₂ ∧ (t.content a).1 = ptr ∧ t.freeRecord ptr = some t' ∧
      Holdings t' (l₁ ++ l₂) (a :: spare) held ∧ t'.content = t.content ∧ Frame t t' := by
  obtain ⟨a, hfind⟩ : ∃ a, live.find? (fun a => (t.records a).mem = ptr) = some a := by
    obtain ⟨b, hb, hbptr⟩ := hptr
    exact Option.isSome_iff_exists.mp (List.find?_isSome.mpr ⟨b, hb, decide_eq_true hbptr⟩)
  obtain ⟨ha, l₁, l₂, rfl, hl₁⟩ := List.find?_eq_some_iff_append.mp hfind
  have hfirst : ∀ q ∈ l₁, decide ((t.records q).mem = ptr) = false := fun q hq => by
    simpa using hl₁ q hq
  have hlength := h.length_le
  rw [List.length_append, List.length_cons] at hlength
  have hsearch := iterate_search_some h.allocs hfirst ha (show l₁.length < t.handedOut + 1 by omega) none
  have hprev : (if l₁ = [] then none else l₁.getLast?) = l₁.getLast? := by
    split_ifs with hnil
    · rw [hnil, List.getLast?_nil]
    · rfl
  have hrecycled := h.recycle
  have hcount : 0 ≤ ((t.unlinkRecord l₁.getLast? a).recycleRecord a).allocCount := by
    rw [hrecycled.count]
    exact Int.natCast_nonneg _
  refine ⟨_, l₁, a, l₂, rfl, of_decide_eq_true ha, ?_, hrecycled, content_recycle t _ a, frame_recycle t _ a⟩
  rw [freeRecord, hsearch, hprev]
  exact if_pos hcount

/-- Without such a record the assertion fails. -/
theorem free_none (h : Holdings t live spare held) {ptr : Address}
    (hptr : ∀ a ∈ live, (t.content a).1 ≠ ptr) : t.freeRecord ptr = none := by
  have hne : ∀ a ∈ live, decide ((t.records a).mem = ptr) = false := fun a ha =>
    decide_eq_false (hptr a ha)
  obtain ⟨prev, hsearch⟩ := iterate_search_none h.allocs hne (Nat.lt_succ_of_le h.length_le) none
  rw [freeRecord, hsearch]
  rfl

end Holdings

end Tracker

end SystemsProgramming.HeapHelp

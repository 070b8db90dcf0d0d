import SystemsProgramming.HeapHelp.Nesting
import SystemsProgramming.HeapHelp.Threads
import Mathlib.Algebra.GroupWithZero.Nat
import Mathlib.Data.List.Forall2

/-! What the report at exit says about the program. The program has the blocks that outermost calls have
returned and that it has not given back, each with the backtrace of that call; the report counts those of
them that no internal function has asked for. The tracker is not told how large a block of `getline` or
`getaddrinfo` is, and so the bytes of the report may be too few. -/

namespace SystemsProgramming.HeapHelp

open Transition Tracker

/-- A block of the program, with the backtrace of the call that returned it. -/
structure Block where
  address : Address
  size : ℕ
  trace : List Address
  /-- The program has asked for a block of this size. -/
  asked : Bool

abbrev Blocks := List Block

namespace Blocks

def owned (o : Blocks) : Owned := o.map fun b => (b.address, b.size)

def release (ptr : Address) (o : Blocks) : Blocks := o.filter fun b => b.address ≠ ptr

def acquire (b : Block) (o : Blocks) : Blocks := if b.address ≠ 0 then b :: o else o

/-- A block has another size where it is. -/
def resize (ptr : Address) (capacity : ℕ) (o : Blocks) : Blocks := o.map fun b =>
  if b.address = ptr then { b with size := capacity, asked := b.asked && b.size = capacity } else b

end Blocks

namespace Interposed

/-- What an outermost call does to the blocks. One that a `realloc` leaves where it is stays as it is. -/
def own (trace : List Address) (o : Blocks) : Interposed → Blocks
  | heap (.malloc size res) => o.acquire ⟨res, size, trace, true⟩
  | heap (.calloc num size res) => o.acquire ⟨res, num * size, trace, true⟩
  | heap (.realloc ptr size res) =>
    if ptr = 0 then o.acquire ⟨res, size, trace, true⟩
    else if size = 0 then o.release ptr
    else if res = 0 ∨ res = ptr then o
    else (o.release ptr).acquire ⟨res, size, trace, true⟩
  | heap (.strdup _ length res) => o.acquire ⟨res, length + 1, trace, true⟩
  | heap (.free ptr) => if ptr = 0 then o else o.release ptr
  | getline lineOld line _ capacity =>
    if line = lineOld then o.resize line capacity
    else (o.release lineOld).acquire ⟨line, capacity, trace, false⟩
  | getaddrinfo rc res size => if rc = 0 then o.acquire ⟨res, size, trace, false⟩ else o
  | freeaddrinfo ai => if ai = 0 then o else o.release ai

/-- The calls after which the ledger is exact, and the others if the program and the underlying functions do
what they are documented to do: the buffer of `getline` holds the line and its end, and does not become
smaller. -/
def Proper (t : Tracker) (o : Blocks) : Interposed → Prop
  | heap c => c.Allowed t o.owned ∧ c.Covered t o.owned
  | getline lineOld line length capacity => (lineOld = 0 ∨ lineOld ∈ o.map Block.address ∧ line ≠ 0) ∧
    (line ≠ lineOld → line ≠ 0 →
      line ∉ o.map Block.address ∧ t.allocIsStatic line = false ∧ length + 1 ≤ capacity) ∧
    (line = lineOld → ∀ b ∈ o, b.address = line → b.size ≤ capacity)
  | getaddrinfo rc res size => rc = 0 → res ≠ 0 →
    res ∉ o.map Block.address ∧ t.allocIsStatic res = false ∧ addrinfoSize ≤ size
  | freeaddrinfo ai => ai = 0 ∨ ai ∈ o.map Block.address

end Interposed

/-! ### Records with their traces -/

/-- What the tracker has written down: addresses, sizes and traces. -/
abbrev Books := List ((Address × ℕ) × List Address)

namespace Books

def owned (books : Books) : Owned := books.map Prod.fst

def release (ptr : Address) (books : Books) : Books := books.filter fun entry => entry.1.1 ≠ ptr

end Books

namespace Tracker

def entry (t : Tracker) (a : Slot) : (Address × ℕ) × List Address := (t.content a, (t.records a).trace)

theorem entry_modify (t : Tracker) (a : Slot) {f : Allocation → Allocation}
    (hf : ∀ r, (f r).mem = r.mem ∧ (f r).size = r.size ∧ (f r).trace = r.trace) :
    (t.modify a f).entry = t.entry := by
  funext b
  have hcontent := content_modify t a fun r => ⟨(hf r).1, (hf r).2.1⟩
  refine Prod.ext (congrFun hcontent b) ?_
  show ((t.modify a f).records b).trace = (t.records b).trace
  rw [records_modify]
  split_ifs with hb
  · rw [(hf _).2.2, hb]
  · rfl

theorem entry_link (t : Tracker) (a : Slot) (ptr : Address) (size : ℕ) (trace : List Address) :
    ((t.fillRecord a ptr size trace).linkRecord a).entry =
      Function.update t.entry a ((ptr, size), trace) := by
  have hlink : ((t.fillRecord a ptr size trace).linkRecord a).entry =
      (t.fillRecord a ptr size trace).entry :=
    entry_modify _ a (f := fun r => { r with next := t.allocs }) fun r => ⟨rfl, rfl, rfl⟩
  rw [hlink]
  funext b
  rw [entry, content, fillRecord, records_modify, Function.update_apply]
  split_ifs <;> rfl

theorem entry_recycle (t : Tracker) (prev : Option Slot) (a : Slot) :
    ((t.unlinkRecord prev a).recycleRecord a).entry = t.entry := by
  have hrecycle : ((t.unlinkRecord prev a).recycleRecord a).entry = (t.unlinkRecord prev a).entry :=
    entry_modify _ a (f := fun r => { r with next := (t.unlinkRecord prev a).allocPool })
      fun r => ⟨rfl, rfl, rfl⟩
  rw [hrecycle]
  cases prev with
  | none => rfl
  | some prev =>
    exact entry_modify t prev (f := fun r => { r with next := t.next a }) fun r => ⟨rfl, rfl, rfl⟩

end Tracker

/-- The ledger is what the books say at some depth of calls, and so are the traces. -/
structure Booked (depth : ℕ) (t : Tracker) (o : Books) : Prop where
  keeps : Keeps depth t o.owned
  entries : ∃ live, Chain t.next t.allocs live ∧ (live.map t.entry).Perm o

namespace Booked

variable {d : ℕ} {t : Tracker} {o : Books} {ptr : Address}

theorem initial (staticBuf : Option Address) : Booked 0 (.initial staticBuf) [] :=
  ⟨.initial staticBuf, [], rfl, .refl []⟩

theorem at_depth (h : Booked d t o) (d' : ℕ) : Booked d' { t with depth := d' } o :=
  ⟨h.keeps.at_depth d', h.entries⟩

/-- An entry is made. -/
theorem traceNew (h : Booked 1 t o) {res : Address} (hres : res ≠ 0)
    (hstatic : t.allocIsStatic res = false) (hnew : res ∉ o.owned.map Prod.fst) (size : ℕ)
    (trace : List Address) :
    ∃ t', t.allocTraceNew res size trace = some t' ∧ Booked 1 t' (((res, size), trace) :: o) := by
  obtain ⟨t', ht', hkeeps, -⟩ := h.keeps.traceNew hres hstatic hnew size trace
  refine ⟨t', ht', hkeeps, ?_⟩
  obtain ⟨live, hchain, hperm⟩ := h.entries
  obtain ⟨live', spare, hlive, -⟩ := h.keeps.records
  obtain rfl := hlive.allocs.unique hchain
  obtain ⟨a, t₁, spare', htake, htaken, hrecords, hframe⟩ := hlive.take
  have hlinked := (htaken.fill a res size (if t₁.depth = 1 then trace else [])).link
  have hout : a ∉ live' := by
    have hnodup := List.perm_middle.nodup_iff.mp htaken.nodup
    exact fun hmem => (List.nodup_cons.mp hnodup).1 (List.mem_append_left _ (List.mem_append_left _ hmem))
  rw [allocTraceNew, if_neg (by rw [hstatic]; exact Bool.false_ne_true), h.keeps.depth, h.keeps.init,
    h.keeps.exit, if_neg (Nat.lt_irrefl 1), if_neg (by decide), if_neg Bool.false_ne_true, htake] at ht'
  obtain rfl := Option.some.inj ht'
  refine ⟨a :: live', hlinked.allocs, ?_⟩
  have hentry : t₁.entry = t.entry := by
    funext b
    rw [entry, content, hrecords]
    rfl
  rw [entry_link, hentry, List.map_cons, Function.update_self, if_pos (hframe.depth.trans h.keeps.depth)]
  have hsame : ∀ b ∈ live', Function.update t.entry a ((res, size), trace) b = t.entry b := fun b hb =>
    Function.update_of_ne (by rintro rfl; exact hout hb) _ _
  rw [List.map_congr_left hsame]
  exact hperm.cons _

/-- An entry is struck out. -/
theorem allocFree (h : Booked 1 t o) (hptr : ptr ∈ o.owned.map Prod.fst) :
    ∃ t', t.allocFree ptr = some t' ∧ Booked 1 t' (o.release ptr) ∧ Frame t t' := by
  obtain ⟨t', ht', hkeeps, hframe⟩ := h.keeps.allocFree hptr
  have howned : (o.release ptr).owned = o.owned.release ptr := by
    rw [Books.owned, Owned.release, Books.owned, List.filter_map]
    rfl
  refine ⟨t', ht', ⟨howned ▸ hkeeps, ?_⟩, hframe⟩
  obtain ⟨live, hchain, hperm⟩ := h.entries
  obtain ⟨live', spare, hlive, -⟩ := h.keeps.records
  obtain rfl := hlive.allocs.unique hchain
  have hmem : ∃ a ∈ live', (t.content a).1 = ptr := by
    obtain ⟨block, hblock, rfl⟩ := List.mem_map.mp hptr
    obtain ⟨entry, hentry, rfl⟩ := List.mem_map.mp hblock
    obtain ⟨a, ha, rfl⟩ := List.mem_map.mp (hperm.mem_iff.mpr hentry)
    exact ⟨a, ha, rfl⟩
  obtain ⟨t'', l₁, a, l₂, rfl, ha, hfree, hfreed, -, -⟩ := hlive.free hmem
  rw [Tracker.allocFree, if_neg (by rw [(h.keeps.tracked ptr hptr).2]; exact Bool.false_ne_true),
    h.keeps.depth, h.keeps.init, h.keeps.exit, if_neg (Nat.lt_irrefl 1), if_neg (by decide),
    if_neg Bool.false_ne_true, hfree] at ht'
  obtain rfl := Option.some.inj ht'
  refine ⟨l₁ ++ l₂, hfreed.allocs, ?_⟩
  have hentry : t''.entry = t.entry := by
    obtain ⟨prev, b, rfl⟩ := eq_of_freeRecord hfree
    exact entry_recycle t prev b
  rw [hentry]
  have hblocks : (t.entry a :: (l₁ ++ l₂).map t.entry).Perm o := by
    refine List.Perm.trans ?_ hperm
    rw [← List.map_cons]
    exact List.perm_middle.symm.map _
  have hkeys : ((t.entry a :: (l₁ ++ l₂).map t.entry).map fun block => block.1.1).Nodup := by
    have hnodup := h.keeps.nodup
    rw [Books.owned, List.map_map] at hnodup
    exact (hblocks.map _).nodup_iff.mpr hnodup
  have ha' : (t.entry a).1.1 = ptr := ha
  rw [List.map_cons, ha'] at hkeys
  have hrest : ∀ block ∈ (l₁ ++ l₂).map t.entry, decide (block.1.1 ≠ ptr) = true := fun block hblock =>
    decide_eq_true fun heq => (List.nodup_cons.mp hkeys).1 (heq ▸ List.mem_map_of_mem hblock)
  have hfilter := hblocks.filter fun block => block.1.1 ≠ ptr
  rwa [List.filter_cons_of_neg (by simpa using ha'), List.filter_eq_self.mpr hrest] at hfilter

end Booked

/-! ### The blocks and the books -/

/-- A size that the tracker may have been told for a block. -/
def Block.Told (b : Block) (n : ℕ) : Prop := n ≤ b.size ∧ (b.asked = true → n = b.size)

theorem Block.told_size (b : Block) : b.Told b.size := ⟨le_rfl, fun _ => rfl⟩

theorem Block.told_of_le {b : Block} {n : ℕ} (h : n ≤ b.size) (hasked : b.asked = false) : b.Told n :=
  ⟨h, fun htrue => absurd (hasked.symm.trans htrue) Bool.false_ne_true⟩

/-- The entry is about the block. -/
structure Block.Entered (b : Block) (entry : (Address × ℕ) × List Address) : Prop where
  address : entry.1.1 = b.address
  trace : entry.2 = b.trace
  told : b.Told entry.1.2

/-- There is an entry for each block of the program. -/
structure Accounts (depth : ℕ) (t : Tracker) (o : Blocks) : Prop where
  booked : ∃ books, Booked depth t books ∧ List.Forall₂ Block.Entered o books

theorem Blocks.fst_owned (o : Blocks) : o.owned.map Prod.fst = o.map Block.address := by
  rw [owned, List.map_map]
  rfl

theorem addresses_of_entered {o : Blocks} {books : Books} (h : List.Forall₂ Block.Entered o books) :
    books.owned.map Prod.fst = o.map Block.address := by
  induction h with
  | nil => rfl
  | cons hb _ ih => exact congrArg₂ List.cons hb.address ih

namespace Accounts

variable {d : ℕ} {t : Tracker} {o : Blocks} {ptr : Address}

theorem initial (staticBuf : Option Address) : Accounts 0 (.initial staticBuf) [] :=
  ⟨[], .initial staticBuf, .nil⟩

theorem at_depth (h : Accounts d t o) (d' : ℕ) : Accounts d' { t with depth := d' } o := by
  obtain ⟨books, hbooks, hentered⟩ := h.booked
  exact ⟨books, hbooks.at_depth d', hentered⟩

theorem depth (h : Accounts d t o) : t.depth = d := by
  obtain ⟨books, hbooks, -⟩ := h.booked
  exact hbooks.keeps.depth

theorem exit (h : Accounts d t o) : t.isExitDone = false := by
  obtain ⟨books, hbooks, -⟩ := h.booked
  exact hbooks.keeps.exit

theorem tracked (h : Accounts d t o) (hptr : ptr ∈ o.map Block.address) :
    ptr ≠ 0 ∧ t.allocIsStatic ptr = false := by
  obtain ⟨books, hbooks, hentered⟩ := h.booked
  exact hbooks.keeps.tracked ptr (addresses_of_entered hentered ▸ hptr)

theorem count (h : Accounts d t o) : heaphGetAllocCount t = o.length := by
  obtain ⟨books, hbooks, hentered⟩ := h.booked
  rw [hbooks.keeps.exact.count, Books.owned, List.length_map, hentered.length_eq]

/-- A new block, of which the tracker is told some size. -/
theorem traceNew (h : Accounts 1 t o) {b : Block} (hnull : b.address ≠ 0)
    (hstatic : t.allocIsStatic b.address = false) (hnew : b.address ∉ o.map Block.address) {size : ℕ}
    (hsize : b.Told size) :
    ∃ t', t.allocTraceNew b.address size b.trace = some t' ∧ Accounts 1 t' (b :: o) := by
  obtain ⟨books, hbooks, hentered⟩ := h.booked
  obtain ⟨t', ht', hout⟩ :=
    hbooks.traceNew hnull hstatic (addresses_of_entered hentered ▸ hnew) size b.trace
  exact ⟨t', ht', _, hout, .cons ⟨rfl, rfl, hsize⟩ hentered⟩

theorem allocFree (h : Accounts 1 t o) (hptr : ptr ∈ o.map Block.address) :
    ∃ t', t.allocFree ptr = some t' ∧ Accounts 1 t' (o.release ptr) ∧ Frame t t' := by
  obtain ⟨books, hbooks, hentered⟩ := h.booked
  obtain ⟨t', ht', hout, hframe⟩ := hbooks.allocFree (addresses_of_entered hentered ▸ hptr)
  refine ⟨t', ht', ⟨_, hout, ?_⟩, hframe⟩
  exact List.rel_filter (fun b entry hb => by simp [hb.address]) hentered

/-- The tracker is not told that a block has become larger. -/
theorem resize (h : Accounts d t o) {capacity : ℕ}
    (hle : ∀ b ∈ o, b.address = ptr → b.size ≤ capacity) : Accounts d t (o.resize ptr capacity) := by
  obtain ⟨books, hbooks, hentered⟩ := h.booked
  refine ⟨books, hbooks, ?_⟩
  clear hbooks h
  induction hentered with
  | nil => exact .nil
  | @cons b entry o books hb _ ih =>
    refine .cons ?_ (ih fun b hb => hle b (.tail _ hb))
    dsimp only
    split_ifs with hptr
    · refine ⟨hb.address, hb.trace, hb.told.1.trans (hle b (.head _) hptr), fun hasked => ?_⟩
      obtain ⟨hasked, hsame⟩ := Bool.and_eq_true_iff.mp hasked
      exact (hb.told.2 hasked).trans (of_decide_eq_true hsame)
    · exact hb

/-! ### The calls -/

section
variable {o' : Blocks} {f : Tracker → Option Tracker}

theorem nested (h : Accounts 0 t o) (hf : ∀ t₁, Accounts 1 t₁ o → t₁.allocIsStatic = t.allocIsStatic →
    ∃ t₂, f t₁ = some t₂ ∧ Accounts 1 t₂ o') : ∃ t', t.nested f = some t' ∧ Accounts 0 t' o' := by
  have hdepth : t.depth + 1 = 1 := by rw [h.depth]
  obtain ⟨t₂, ht₂, hout⟩ := hf { t with depth := t.depth + 1 } (by rw [hdepth]; exact h.at_depth 1) rfl
  refine ⟨{ t₂ with depth := t₂.depth - 1 }, by rw [Tracker.nested, ht₂]; rfl, ?_⟩
  rw [hout.depth]
  exact hout.at_depth 0

/-- What an underlying function returns is nothing, or a block that the program does not have. -/
theorem acquire (h : Accounts 1 t o) {b : Block}
    (hnew : b.address ≠ 0 → b.address ∉ o.map Block.address ∧ t.allocIsStatic b.address = false) {size : ℕ}
    (hsize : b.address ≠ 0 → b.Told size) :
    ∃ t', t.traceResult b.address size b.trace = some t' ∧ Accounts 1 t' (o.acquire b) := by
  rw [Tracker.traceResult, Blocks.acquire]
  by_cases hnull : b.address = 0
  · rw [if_neg (not_not.mpr hnull), if_neg (not_not.mpr hnull)]
    exact ⟨t, rfl, h⟩
  · rw [if_pos hnull, if_pos hnull]
    exact h.traceNew hnull (hnew hnull).2 (hnew hnull).1 (hsize hnull)

/-- One block is given back for another one. -/
theorem move (h : Accounts 1 t o) (hptr : ptr ∈ o.map Block.address) {b : Block} (hnull : b.address ≠ 0)
    (hnew : b.address ∉ o.map Block.address) (hstatic : t.allocIsStatic b.address = false) {size : ℕ}
    (hsize : b.Told size) :
    ∃ t', (t.allocFree ptr >>= fun t => t.allocTraceNew b.address size b.trace) = some t' ∧
      Accounts 1 t' ((o.release ptr).acquire b) := by
  obtain ⟨t₁, ht₁, h₁, hframe⟩ := h.allocFree hptr
  have hgone : b.address ∉ (o.release ptr).map Block.address := fun hmem => by
    obtain ⟨b', hb', heq⟩ := List.mem_map.mp hmem
    exact hnew (heq ▸ List.mem_map_of_mem (List.mem_filter.mp hb').1)
  obtain ⟨t₂, ht₂, h₂⟩ := h₁.traceNew hnull ((hframe.allocIsStatic _).trans hstatic) hgone hsize
  refine ⟨t₂, ?_, ?_⟩
  · rw [ht₁]
    exact ht₂
  · rw [Blocks.acquire, if_pos hnull]
    exact h₂

theorem release_null (h : Accounts d t o) : o.release 0 = o := by
  refine List.filter_eq_self.mpr fun b hb => decide_eq_true fun heq => ?_
  exact (h.tracked (List.mem_map_of_mem hb)).1 heq

theorem realloc (h : Accounts 0 t o) {ptr size res : ℕ} {trace : List Address}
    (hc : (Interposed.heap (.realloc ptr size res)).Proper t o) :
    ∃ t', (Interposed.heap (.realloc ptr size res)).perform some trace t = some t' ∧
      Accounts 0 t' ((Interposed.heap (.realloc ptr size res)).own trace o) := by
  obtain ⟨hallowed, hstatic, hplace⟩ := hc
  rw [Call.Allowed] at hallowed
  simp only [Fresh, Blocks.fst_owned] at hallowed
  rw [Interposed.perform, Call.performWith_some, Call.perform, HeapHelp.realloc]
  refine h.nested fun t₁ h₁ hs => ?_
  simp only [Interposed.own]
  by_cases hptr : ptr = 0
  · -- like `malloc`
    subst hptr
    rw [if_pos rfl] at hallowed
    obtain ⟨t₂, ht₂, h₂⟩ := h₁.acquire (b := ⟨res, size, trace, true⟩)
      (fun hres => ⟨(hallowed hres).1, hs ▸ hstatic⟩) fun _ => Block.told_size _
    refine ⟨t₂, ?_, h₂⟩
    rw [← ht₂, Tracker.traceResult]
    simp [allocIsStatic_null]
  · rw [if_neg hptr] at hallowed
    obtain ⟨hmem, hallowed⟩ := hallowed
    have hkept : (if t₁.allocIsStatic ptr = true then 0 else ptr) = ptr := by
      rw [(h₁.tracked hmem).2]
      rfl
    simp only [hkept, Option.bind_eq_bind, hptr, false_and, if_false, ne_eq, not_false_eq_true, true_and]
    by_cases hsize : size = 0
    · rw [if_pos hsize] at hallowed ⊢
      obtain ⟨t₂, ht₂, h₂, -⟩ := h₁.allocFree hmem
      exact ⟨t₂, by rw [if_pos hallowed]; exact ht₂, h₂⟩
    · obtain ⟨hres, -⟩ := hplace hptr hsize
      rw [if_neg hsize] at hallowed ⊢
      rw [if_neg hres]
      by_cases hsame : res = ptr
      · rw [if_neg (not_not.mpr hsame), if_pos (.inr hsame)]
        exact ⟨t₁, rfl, h₁⟩
      · rw [if_pos hsame, if_neg (not_or.mpr ⟨hres, hsame⟩)]
        exact h₁.move (b := ⟨res, size, trace, true⟩) hmem hres (hallowed.resolve_left hsame hres).1
          (hs ▸ hstatic) (Block.told_size _)

theorem getline (h : Accounts 0 t o) {lineOld line length capacity : ℕ} {trace : List Address}
    (hc : (Interposed.getline lineOld line length capacity).Proper t o) :
    ∃ t', (Interposed.getline lineOld line length capacity).perform some trace t = some t' ∧
      Accounts 0 t' ((Interposed.getline lineOld line length capacity).own trace o) := by
  obtain ⟨hold, hnew, hplace⟩ := hc
  rw [Interposed.perform, HeapHelp.getline]
  refine h.nested fun t₁ h₁ hs => ?_
  have hstatic : t₁.allocIsStatic lineOld = false := by
    rcases hold with rfl | ⟨hmem, -⟩
    · exact allocIsStatic_null t₁
    · exact (h₁.tracked hmem).2
  simp only [hstatic, Bool.false_eq_true, if_false, Option.bind_eq_bind, Option.bind_some, Interposed.own]
  by_cases hsame : line = lineOld
  · -- the buffer has stayed
    subst hsame
    refine ⟨t₁, ?_, by rw [if_pos rfl]; exact h₁.resize (hplace rfl)⟩
    split_ifs <;> first | rfl | omega
  · rw [if_neg hsame]
    have htold : length + 1 ≤ capacity → (⟨line, capacity, trace, false⟩ : Block).Told (length + 1) :=
      fun hle => Block.told_of_le hle rfl
    rcases hold with rfl | ⟨hmem, hline⟩
    · obtain ⟨hout, hfresh, hle⟩ := hnew hsame hsame
      obtain ⟨t₂, ht₂, h₂⟩ := h₁.traceNew (b := ⟨line, capacity, trace, false⟩) hsame (hs ▸ hfresh) hout
        (htold hle)
      refine ⟨t₂, by rw [if_pos ⟨rfl, hsame⟩]; exact ht₂, ?_⟩
      rw [h.release_null, Blocks.acquire, if_pos hsame]
      exact h₂
    · have hnull := (h₁.tracked hmem).1
      obtain ⟨hout, hfresh, hle⟩ := hnew hsame hline
      have hmoved := h₁.move (b := ⟨line, capacity, trace, false⟩) hmem hline hout (hs ▸ hfresh) (htold hle)
      rwa [if_neg (fun hcond => hnull hcond.1), if_neg (fun hcond => hline hcond.2),
        if_pos ⟨hnull, hline, fun heq => hsame heq.symm⟩]

/-- An outermost call moves the tracker and the blocks alike. -/
theorem perform (h : Accounts 0 t o) {c : Interposed} (hc : c.Proper t o) (trace : List Address) :
    ∃ t', c.perform some trace t = some t' ∧ Accounts 0 t' (c.own trace o) := by
  cases c with
  | heap c =>
    have hfresh : ∀ {res}, t.Fresh o.owned res → t.allocIsStatic res = false → ∀ {t₁ : Tracker},
        t₁.allocIsStatic = t.allocIsStatic →
        res ≠ 0 → res ∉ o.map Block.address ∧ t₁.allocIsStatic res = false := fun hres hstatic t₁ hs hnull =>
      ⟨o.fst_owned ▸ (hres hnull).1, hs ▸ hstatic⟩
    cases c with
    | malloc size res =>
      rw [Interposed.perform, Call.performWith_some]
      exact h.nested fun t₁ h₁ hs => h₁.acquire (b := ⟨res, size, trace, true⟩) (hfresh hc.1 hc.2 hs)
        fun _ => Block.told_size _
    | calloc num size res =>
      rw [Interposed.perform, Call.performWith_some]
      refine h.nested fun t₁ h₁ hs => h₁.acquire (b := ⟨res, num * size, trace, true⟩)
        (hfresh hc.1.1 hc.2 hs) fun hres => ?_
      rw [Nat.mod_eq_of_lt (hc.1.2 hres)]
      exact Block.told_size _
    | realloc ptr size res => exact h.realloc hc
    | strdup ptr length res =>
      rw [Interposed.perform, Call.performWith_some, Call.perform, HeapHelp.strdup, h.exit, hc.2.1,
        if_neg Bool.false_ne_true, if_neg Bool.false_ne_true]
      exact h.nested fun t₁ h₁ hs => h₁.acquire (b := ⟨res, length + 1, trace, true⟩)
        (hfresh hc.1.2.2 hc.2.2 hs) fun _ => Block.told_size _
    | free ptr =>
      rw [Interposed.perform, Call.performWith_some, Call.perform, HeapHelp.free, Interposed.own]
      by_cases hptr : ptr = 0
      · rw [if_pos hptr, if_pos hptr]
        exact ⟨t, rfl, h⟩
      · have hmem : ptr ∈ o.map Block.address := o.fst_owned ▸ hc.1.resolve_left hptr
        rw [if_neg hptr, if_neg hptr, if_neg (by rw [(h.tracked hmem).2]; exact Bool.false_ne_true)]
        refine h.nested fun t₁ h₁ _ => ?_
        obtain ⟨t₂, ht₂, h₂, -⟩ := h₁.allocFree hmem
        exact ⟨t₂, ht₂, h₂⟩
  | getline lineOld line length capacity => exact h.getline hc
  | getaddrinfo rc res size =>
    rw [Interposed.perform, HeapHelp.getaddrinfo]
    refine h.nested fun t₁ h₁ hs => ?_
    rw [Interposed.own]
    by_cases hrc : rc = 0
    · have htold : res ≠ 0 → (⟨res, size, trace, false⟩ : Block).Told addrinfoSize := fun hres =>
        Block.told_of_le (hc hrc hres).2.2 rfl
      obtain ⟨t₂, ht₂, h₂⟩ := h₁.acquire (b := ⟨res, size, trace, false⟩)
        (fun hres => ⟨(hc hrc hres).1, hs ▸ (hc hrc hres).2.1⟩) htold
      refine ⟨t₂, ?_, by rw [if_pos hrc]; exact h₂⟩
      rw [← ht₂, Tracker.traceResult]
      simp [hrc]
    · rw [if_neg hrc]
      exact ⟨t₁, by simp [hrc], h₁⟩
  | freeaddrinfo ai =>
    rw [Interposed.perform, HeapHelp.freeaddrinfo, Interposed.own]
    by_cases hai : ai = 0
    · rw [if_pos hai, if_pos hai]
      exact ⟨t, rfl, h⟩
    · have hmem := hc.resolve_left hai
      rw [if_neg hai, if_neg hai, if_neg (by rw [(h.tracked hmem).2]; exact Bool.false_ne_true)]
      refine h.nested fun t₁ h₁ _ => ?_
      obtain ⟨t₂, ht₂, h₂, -⟩ := h₁.allocFree hmem
      exact ⟨t₂, by rw [ht₂]; rfl, h₂⟩

end

end Accounts

/-! ### The loop over the leaks -/

section
variable (isInternal : List Address → Bool)

/-- The loop as a fold: a record is reported, or it is taken off the count. -/
def LeakWalk.tell (w : LeakWalk) (r : Allocation) : LeakWalk :=
  if r.counted isInternal then
    { a := r.next, count := w.count, reportCount := min reportLimit (w.reportCount + 1)
      leakSize := (w.leakSize + r.size) % sizeRange }
  else { w with a := r.next, count := w.count - 1 }

variable {isInternal} {records : Slot → Allocation} {w : LeakWalk} {live : List Slot}

theorem leakStep_eq {a : Slot} (ha : w.a = some a) (hcount : 0 < w.count)
    (hreport : w.reportCount ≤ reportLimit) :
    leakStep isInternal records w = some (.again (w.tell isInternal (records a))) := by
  simp only [leakStep, ha, hcount, not_true_eq_false, if_false, LeakWalk.tell, Allocation.counted]
  by_cases hempty : (records a).trace.length = 0
  · simp [hempty]
  · by_cases hinternal : isInternal (records a).trace = true
    · simp [hempty, hinternal]
    · simp only [hempty, if_false, hinternal, ne_eq, not_false_eq_true, decide_true, Bool.not_false,
        Bool.and_self, if_true, Bool.false_eq_true]
      split_ifs with hlimit
      · rw [Nat.min_eq_right hlimit]
      · rw [Nat.min_eq_left (by omega), Nat.le_antisymm hreport (Nat.not_lt.mp hlimit)]

/-- The loop goes through all records and adds up those that are reported. -/
theorem iterate_leakStep_eq {k n : ℕ} (h : Chain (fun a => (records a).next) w.a live)
    (hcount : w.count = k + live.length) (hreport : w.reportCount ≤ reportLimit)
    (hsize : w.leakSize < sizeRange) (hn : live.length < n) :
    iterate (leakStep isInternal records) n w = some {
      a := none
      count := k + (live.filter fun a => (records a).counted isInternal).length
      reportCount :=
        min reportLimit (w.reportCount + (live.filter fun a => (records a).counted isInternal).length)
      leakSize := (w.leakSize +
        ((live.filter fun a => (records a).counted isInternal).map fun a => (records a).size).sum) %
          sizeRange } := by
  induction live generalizing w k n with
  | nil =>
    obtain ⟨n, rfl⟩ : ∃ m, n = m + 1 := Nat.exists_eq_succ_of_ne_zero (by omega)
    have hnone : w.a = none := h
    have hend : leakStep isInternal records w = some (.done w) := by rw [leakStep, hnone]
    rw [iterate, hend]
    refine congrArg some ?_
    obtain ⟨a, count, reportCount, leakSize⟩ := w
    dsimp only at hnone hcount hreport hsize ⊢
    rw [hnone, hcount, List.filter_nil, List.length_nil, Nat.add_zero, Nat.min_eq_right hreport, List.map_nil,
      List.sum_nil, Nat.add_zero, Nat.mod_eq_of_lt hsize]
  | cons a live ih =>
    obtain ⟨n, rfl⟩ : ∃ m, n = m + 1 := Nat.exists_eq_succ_of_ne_zero (by omega)
    obtain ⟨ha, hrest⟩ := h
    rw [List.length_cons] at hcount hn
    rw [iterate, leakStep_eq ha (by omega) hreport]
    have hpositive : 0 < sizeRange := by decide
    show iterate (leakStep isInternal records) n (w.tell isInternal (records a)) = _
    by_cases hcounted : (records a).counted isInternal = true
    · have htell : w.tell isInternal (records a) = ⟨(records a).next, w.count,
          min reportLimit (w.reportCount + 1), (w.leakSize + (records a).size) % sizeRange⟩ := if_pos hcounted
      have hfilter : (a :: live).filter (fun a => (records a).counted isInternal) =
          a :: live.filter fun a => (records a).counted isInternal := List.filter_cons_of_pos hcounted
      have hcount' : w.count = (k + 1 : ℕ) + live.length := by
        push_cast at hcount ⊢
        omega
      rw [htell, ih (w := ⟨_, _, _, _⟩) (k := k + 1) (n := n) hrest hcount' (Nat.min_le_left ..)
        (Nat.mod_lt _ hpositive) (by omega), hfilter]
      simp only [List.length_cons, List.map_cons, List.sum_cons, Nat.mod_add_mod]
      congr 2
      · push_cast
        omega
      · omega
      · rw [Nat.add_assoc]
    · have htell : w.tell isInternal (records a) =
          ⟨(records a).next, w.count - 1, w.reportCount, w.leakSize⟩ := if_neg hcounted
      have hfilter : (a :: live).filter (fun a => (records a).counted isInternal) =
          live.filter fun a => (records a).counted isInternal := List.filter_cons_of_neg hcounted
      have hcount' : w.count - 1 = k + live.length := by
        push_cast at hcount
        omega
      rw [htell, ih (w := ⟨_, _, _, _⟩) (k := k) (n := n) hrest hcount' hreport hsize (by omega), hfilter]

end

/-! ### The report of a run -/

section
variable (isInternal : List Address → Bool)

/-- The entries that were not made inside the library. -/
def Books.leaks (books : Books) : Books :=
  books.filter fun entry => entry.2.length ≠ 0 && !isInternal entry.2

/-- The blocks that were not asked for inside the library. -/
def Blocks.leaks (o : Blocks) : Blocks := o.filter fun b => b.trace.length ≠ 0 && !isInternal b.trace

/-- What there is to say about the blocks, given how many bytes they are taken to have and how many there
have ever been. -/
def Blocks.report (reportMode : ReportMode) (bytes total : ℕ) (o : Blocks) : Printout :=
  if reportMode = .quiet then .nothing
  else if o.length = 0 then if reportMode = .verbose then .noLeaks total else .nothing
  else if (o.leaks isInternal).length = 0 ∧ reportMode ≠ .verbose then .nothing
  else .leaks {
    leaks := (o.leaks isInternal).length
    leakSize := bytes % sizeRange
    suppressed := o.length - (o.leaks isInternal).length
    shown := min reportLimit (o.leaks isInternal).length
    total := total }

variable {d : ℕ} {t : Tracker}

theorem Booked.leakLoop {o : Books} (h : Booked d t o) : leakLoop isInternal t = some {
    a := none
    count := (o.leaks isInternal).length
    reportCount := min reportLimit (o.leaks isInternal).length
    leakSize := ((o.leaks isInternal).map fun entry => entry.1.2).sum % sizeRange } := by
  obtain ⟨live, hchain, hperm⟩ := h.entries
  obtain ⟨live', spare, hlive, -⟩ := h.keeps.records
  obtain rfl := hlive.allocs.unique hchain
  have hcount : t.allocCount = (0 : ℕ) + live'.length := by
    rw [hlive.count]
    omega
  have hzero : 0 < sizeRange := by decide
  have hwalk : HeapHelp.leakLoop isInternal t = _ := iterate_leakStep_eq (w := ⟨t.allocs, t.allocCount, 0, 0⟩)
    hchain hcount (Nat.zero_le _) hzero (Nat.lt_succ_of_le hlive.length_le)
  have hleaks : ((live'.filter fun a => (t.records a).counted isInternal).map t.entry).Perm
      (o.leaks isInternal) := by
    have hfilter := hperm.filter fun entry => entry.2.length ≠ 0 && !isInternal entry.2
    rw [List.filter_map] at hfilter
    exact hfilter
  have hlength := hleaks.length_eq
  rw [List.length_map] at hlength
  have hsizes := (hleaks.map fun entry => entry.1.2).sum_nat
  rw [List.map_map] at hsizes
  rw [hwalk, ← hlength, ← hsizes]
  simp only [Int.natCast_zero, Int.zero_add, Nat.zero_add]
  rfl

/-- The report is about the blocks, with a size for each leak that the tracker has been told. -/
theorem Accounts.heaphAtexit {o : Blocks} (h : Accounts d t o) :
    ∃ sizes, List.Forall₂ Block.Told (o.leaks isInternal) sizes ∧ ∀ reportMode,
      heaphAtexit isInternal reportMode t =
        some (o.report isInternal reportMode sizes.sum t.allocCountTotal) := by
  have hcount : t.allocCount = o.length := h.count
  obtain ⟨books, hbooks, hentered⟩ := h.booked
  have hleaks : List.Forall₂ Block.Entered (o.leaks isInternal) (books.leaks isInternal) :=
    List.rel_filter (fun b entry hb => by simp [hb.trace]) hentered
  refine ⟨(books.leaks isInternal).map fun entry => entry.1.2, ?_, fun reportMode => ?_⟩
  · exact List.forall₂_map_right_iff.mpr (hleaks.imp fun _ _ hb => hb.told)
  · rw [HeapHelp.heaphAtexit, hbooks.leakLoop isInternal, Blocks.report, hcount, hleaks.length_eq]
    simp only [Int.natCast_eq_zero, Option.bind_eq_bind, Option.bind_some]
    split_ifs <;> rfl

end

namespace Act

def own (o : Blocks) : Act → Blocks
  | mk c trace _ => c.own trace o

/-- The call keeps the ledger exact, and the calls inside it pass their assertions. -/
def Proper (t : Tracker) (o : Blocks) : Act → Prop
  | mk c _ inner => c.Proper t o ∧ ∀ a ∈ inner, a.Sound t.allocIsStatic

def Step (s : Tracker × Blocks) (a : Act) (s' : Tracker × Blocks) : Prop :=
  a.perform s.1 = some s'.1 ∧ s'.2 = a.own s.2

end Act

theorem Accounts.act {t : Tracker} {o : Blocks} (h : Accounts 0 t o) {a : Act} (ha : a.Proper t o) :
    ∃ t', a.perform t = some t' ∧ Accounts 0 t' (a.own o) := by
  obtain ⟨c, trace, inner⟩ := a
  obtain ⟨t', ht', hout⟩ := h.perform ha.1 trace
  exact ⟨t', (Act.perform_outermost c trace ha.2 h.exit).trans ht', hout⟩

/-- Whatever the functions of the heap do inside each other, no assertion fails, and at any time the report
says what there is to say about the blocks that the program has not given back. The bytes are the sum of a
size for each leak: that of the block if the program has asked for it, and no more than that otherwise. -/
theorem report_exact (staticBuf : Option Address) {as : List Act} {s : Tracker × Blocks}
    (hrun : Run (restrict Act.Step fun s a => a.Proper s.1 s.2) (.initial staticBuf, []) as s) :
    (∀ a : Act, a.Proper s.1 s.2 → ∃ s', Act.Step s a s') ∧ heaphGetAllocCount s.1 = s.2.length ∧
      ∀ isInternal, ∃ sizes, List.Forall₂ Block.Told (s.2.leaks isInternal) sizes ∧ ∀ reportMode,
        heaphAtexit isInternal reportMode s.1 =
          some (s.2.report isInternal reportMode sizes.sum s.1.allocCountTotal) := by
  have haccounts : Accounts 0 s.1 s.2 := by
    refine hrun.invariant (I := fun s => Accounts 0 s.1 s.2) (.initial staticBuf) ?_
    rintro s a s' h ⟨hproper, hperform, hown⟩
    obtain ⟨t', ht', hout⟩ := h.act hproper
    obtain rfl := Option.some.inj (hperform.symm.trans ht')
    rwa [hown]
  refine ⟨fun a ha => ?_, haccounts.count, fun isInternal => haccounts.heaphAtexit isInternal⟩
  obtain ⟨t', ht', -⟩ := haccounts.act ha
  exact ⟨(t', a.own s.2), ht', rfl⟩

/-- Two lines are read into one buffer of 120 bytes, and a block of 8 bytes is allocated. -/
theorem report_exact_getline : ∃ (s : Tracker × Blocks) (n : ℕ),
    Run (restrict Act.Step fun s a => a.Proper s.1 s.2) (.initial none, [])
      [.mk (.getline 0 100 4 120) [7] [.mk (.heap (.malloc 120 100)) [8] []],
        .mk (.getline 100 100 118 120) [7] [], .mk (.heap (.malloc 8 300)) [9] []] s ∧
    s.2 = [⟨300, 8, [9], true⟩, ⟨100, 120, [7], false⟩] ∧ n ≤ 120 ∧
    heaphAtexit (fun _ => false) .leaks s.1 = some (.leaks ⟨2, 8 + n, 0, 2, s.1.allocCountTotal⟩) := by
  have hmalloc : ∀ static, (Act.mk (.heap (.malloc 120 100)) [8] []).Sound static :=
    fun _ => .mk trivial (by simp)
  have hfirst : (Act.mk (.getline 0 100 4 120) [7] [.mk (.heap (.malloc 120 100)) [8] []]).Proper
      (.initial none) [] :=
    ⟨⟨.inl rfl, by simp [allocIsStatic, Tracker.initial], by simp⟩, by simp [hmalloc]⟩
  obtain ⟨hprogress, -, -⟩ := report_exact none .nil
  obtain ⟨⟨t₁, o₁⟩, hstep₁, hblocks₁⟩ := hprogress _ hfirst
  obtain rfl : o₁ = [⟨100, 120, [7], false⟩] := hblocks₁
  have hrun₁ : Run (restrict Act.Step fun s a => a.Proper s.1 s.2) (.initial none, []) _
      (t₁, [⟨100, 120, [7], false⟩]) := .single ⟨hfirst, hstep₁, rfl⟩
  -- the second line is longer, and the buffer has room for it
  have hsecond : (Act.mk (.getline 100 100 118 120) [7] []).Proper t₁ [⟨100, 120, [7], false⟩] :=
    ⟨⟨.inr (by simp), by simp, by simp⟩, by simp⟩
  obtain ⟨hprogress₁, -, -⟩ := report_exact none hrun₁
  obtain ⟨⟨t₂, o₂⟩, hstep₂, hblocks₂⟩ := hprogress₁ _ hsecond
  obtain rfl : o₂ = [⟨100, 120, [7], false⟩] := hblocks₂
  have hrun₂ := hrun₁.snoc ⟨hsecond, hstep₂, rfl⟩
  have hbuf : t₂.staticBuf = 0 ∧ t₂.staticSize = 0 := by
    obtain rfl := Option.some.inj hstep₁
    obtain rfl := Option.some.inj hstep₂
    exact ⟨rfl, rfl⟩
  have hthird : (Act.mk (.heap (.malloc 8 300)) [9] []).Proper t₂ [⟨100, 120, [7], false⟩] := by
    have hout : ¬t₂.InStatic 300 := by simp [InStatic, hbuf.1, hbuf.2]
    have hfresh : t₂.allocIsStatic 300 = false := by simp [allocIsStatic, hbuf.1, hbuf.2]
    exact ⟨⟨fun _ => ⟨by simp [Blocks.owned], hout⟩, hfresh⟩, by simp⟩
  obtain ⟨hprogress₂, -, -⟩ := report_exact none hrun₂
  obtain ⟨⟨t₃, o₃⟩, hstep₃, hblocks₃⟩ := hprogress₂ _ hthird
  obtain rfl : o₃ = [⟨300, 8, [9], true⟩, ⟨100, 120, [7], false⟩] := hblocks₃
  have hrun := hrun₂.snoc ⟨hthird, hstep₃, rfl⟩
  obtain ⟨-, -, hreport⟩ := report_exact none hrun
  obtain ⟨sizes, hsizes, hout⟩ := hreport fun _ => false
  obtain ⟨m, _, hm, hrest, rfl⟩ := List.forall₂_cons_left_iff.mp hsizes
  obtain ⟨n, _, hn, hnil, rfl⟩ := List.forall₂_cons_left_iff.mp hrest
  obtain rfl := List.forall₂_nil_left_iff.mp hnil
  obtain rfl : m = 8 := hm.2 rfl
  have hle : n ≤ 120 := hn.1
  refine ⟨_, n, hrun, rfl, hle, (hout .leaks).trans ?_⟩
  have hbytes : (8 + n) % sizeRange = 8 + n := Nat.mod_eq_of_lt (by rw [sizeRange]; omega)
  rw [← hbytes]
  rfl

end SystemsProgramming.HeapHelp

import SystemsProgramming.HeapHelp.Records
import SystemsProgramming.Foundation.Transition

/-! The ledger of the leak tracker against the blocks that the program owns. Every call moves both alike,
but for two outcomes of `realloc`: one that fails takes the old block off the ledger, and one that
leaves the block in its place keeps the old size there. An address right behind the static buffer is
not put on the ledger at all. -/

namespace SystemsProgramming.HeapHelp

open Transition Tracker

/-- The blocks of a program with the sizes that it asked for last. -/
abbrev Owned := List (Address × ℕ)

def Owned.release (ptr : Address) (o : Owned) : Owned := o.filter fun block => block.1 ≠ ptr

def Owned.acquire (res : Address) (size : ℕ) (o : Owned) : Owned := if res ≠ 0 then (res, size) :: o else o

namespace Call

/-- What a call does to the blocks of the program. -/
def own (o : Owned) : Call → Owned
  | malloc size res => o.acquire res size
  | calloc num size res => o.acquire res (num * size)
  | realloc ptr size res =>
    if ptr = 0 then o.acquire res size
    else if size = 0 then o.release ptr
    else if res = 0 then o
    else (o.release ptr).acquire res size
  | strdup _ length res => o.acquire res (length + 1)
  | free ptr => if ptr = 0 then o else o.release ptr

end Call

/-- The static buffer of the tracker. -/
def Tracker.InStatic (t : Tracker) (ptr : Address) : Prop :=
  t.staticBuf ≤ ptr ∧ ptr < t.staticBuf + t.staticSize

/-- A new block is neither one of the program nor in the buffer of the tracker. -/
def Tracker.Fresh (t : Tracker) (o : Owned) (res : Address) : Prop :=
  res ≠ 0 → res ∉ o.map Prod.fst ∧ ¬t.InStatic res

namespace Call

/-- The program frees and reallocates only what it owns, and the underlying functions do what they are
documented to do. A `calloc` whose product is no `size_t` fails. -/
def Allowed (t : Tracker) (o : Owned) : Call → Prop
  | malloc _ res => t.Fresh o res
  | calloc num size res => t.Fresh o res ∧ (res ≠ 0 → num * size < sizeRange)
  | realloc ptr size res =>
    if ptr = 0 then t.Fresh o res
    else ptr ∈ o.map Prod.fst ∧ if size = 0 then res = 0 else res = ptr ∨ t.Fresh o res
  | strdup ptr _ res => ptr ≠ 0 ∧ ¬t.InStatic ptr ∧ t.Fresh o res
  | free ptr => ptr = 0 ∨ ptr ∈ o.map Prod.fst

/-- The blocks returned, and the string copied, are not right behind the static buffer; and a `realloc`
of a block does not fail, or change its size where it is. -/
def Covered (t : Tracker) (o : Owned) : Call → Prop
  | malloc _ res => t.allocIsStatic res = false
  | calloc _ _ res => t.allocIsStatic res = false
  | realloc ptr size res => t.allocIsStatic res = false ∧
    (ptr ≠ 0 → size ≠ 0 → res ≠ 0 ∧ (res = ptr → (ptr, size) ∈ o))
  | strdup ptr _ res => t.allocIsStatic ptr = false ∧ t.allocIsStatic res = false
  | free _ => True

end Call

/-- There is one record for each block of the program, with its address and its size. -/
structure Exact (t : Tracker) (o : Owned) : Prop where
  records : ∃ live, Chain t.next t.allocs live ∧ (live.map t.content).Perm o
  count : heaphGetAllocCount t = o.length

/-! ### The ledger -/

/-- The ledger is exact at some depth of calls. -/
structure Keeps (depth : ℕ) (t : Tracker) (o : Owned) : Prop where
  records : ∃ live spare, Holdings t live spare [] ∧ (live.map t.content).Perm o
  nodup : (o.map Prod.fst).Nodup
  tracked : ∀ ptr ∈ o.map Prod.fst, ptr ≠ 0 ∧ t.allocIsStatic ptr = false
  depth : t.depth = depth
  init : t.isInitDone = true
  exit : t.isExitDone = false

theorem Tracker.Frame.allocIsStatic {t t' : Tracker} (h : Frame t t') (ptr : Address) :
    t'.allocIsStatic ptr = t.allocIsStatic ptr := by
  rw [Tracker.allocIsStatic, h.staticBuf, h.staticSize, Tracker.allocIsStatic]

/-- In front of a block that is not owned nothing is released. -/
theorem Owned.release_of_not_mem {o : Owned} {ptr : Address} (h : ptr ∉ o.map Prod.fst) :
    o.release ptr = o := by
  refine List.filter_eq_self.mpr fun block hblock => decide_eq_true ?_
  rintro rfl
  exact h (List.mem_map_of_mem hblock)

theorem Owned.mem_release {o : Owned} {ptr q : Address} :
    q ∈ (o.release ptr).map Prod.fst ↔ q ∈ o.map Prod.fst ∧ q ≠ ptr := by
  simp only [Owned.release, List.mem_map, List.mem_filter, decide_eq_true_eq]
  constructor
  · rintro ⟨block, ⟨hmem, hne⟩, rfl⟩
    exact ⟨⟨block, hmem, rfl⟩, hne⟩
  · rintro ⟨⟨block, hmem, rfl⟩, hne⟩
    exact ⟨block, ⟨hmem, hne⟩, rfl⟩

namespace Keeps

variable {d : ℕ} {t t' : Tracker} {o : Owned} {ptr : Address}

theorem initial (staticBuf : Option Address) : Keeps 0 (.initial staticBuf) [] where
  records := ⟨[], [], .initial staticBuf, .refl []⟩
  nodup := List.nodup_nil
  tracked _ hptr := nomatch hptr
  depth := rfl
  init := rfl
  exit := rfl

theorem exact (h : Keeps d t o) : Exact t o := by
  obtain ⟨live, spare, hlive, hperm⟩ := h.records
  refine ⟨⟨live, hlive.allocs, hperm⟩, hlive.count.trans ?_⟩
  rw [← hperm.length_eq, List.length_map]

/-- A ledger stands for one list of blocks. -/
theorem perm_of_exact (h : Keeps d t o) {o' : Owned} (h' : Exact t o') : o'.Perm o := by
  obtain ⟨live, spare, hlive, hperm⟩ := h.records
  obtain ⟨live', hlive', hperm'⟩ := h'.records
  obtain rfl := hlive.allocs.unique hlive'
  exact hperm'.symm.trans hperm

theorem at_depth (h : Keeps d t o) (d' : ℕ) : Keeps d' { t with depth := d' } o := by
  obtain ⟨live, spare, hlive, hperm⟩ := h.records
  exact ⟨⟨live, spare, ⟨hlive.allocs, hlive.pool, hlive.slots, hlive.count, hlive.used⟩, hperm⟩,
    h.nodup, h.tracked, rfl, h.init, h.exit⟩

/-- A block is put on the ledger. -/
theorem traceNew (h : Keeps 1 t o) {res : Address} (hres : res ≠ 0) (hstatic : t.allocIsStatic res = false)
    (hnew : res ∉ o.map Prod.fst) (size : ℕ) (trace : List Address) :
    ∃ t', t.allocTraceNew res size trace = some t' ∧ Keeps 1 t' ((res, size) :: o) ∧ Frame t t' := by
  obtain ⟨live, spare, hlive, hperm⟩ := h.records
  obtain ⟨a, t₁, spare', htake, htaken, hrecords, hframe⟩ := hlive.take
  have hlinked := (htaken.fill a res size (if t₁.depth = 1 then trace else [])).link
  have hout : a ∉ live := by
    have hnodup := List.perm_middle.nodup_iff.mp htaken.nodup
    exact fun hmem => (List.nodup_cons.mp hnodup).1 (List.mem_append_left _ (List.mem_append_left _ hmem))
  have hcontent : ∀ b ∈ live, ((t₁.fillRecord a res size (if t₁.depth = 1 then trace else [])).linkRecord
      a).content b = t.content b := by
    intro b hb
    rw [Holdings.content_link, Function.update_of_ne (by rintro rfl; exact hout hb), content, content,
      hrecords]
  refine ⟨_, ?_, ⟨⟨a :: live, spare', hlinked, ?_⟩, ?_, ?_, ?_, ?_, ?_⟩, ?_⟩
  · rw [allocTraceNew, if_neg (by rw [hstatic]; exact Bool.false_ne_true), h.depth, h.init, h.exit,
      if_neg (Nat.lt_irrefl 1), if_neg (by decide), if_neg Bool.false_ne_true, htake]
    rfl
  · rw [List.map_cons, Holdings.content_link, Function.update_self, ← Holdings.content_link t₁ a res size
      (if t₁.depth = 1 then trace else []), List.map_congr_left hcontent]
    exact hperm.cons _
  · exact List.nodup_cons.mpr ⟨hnew, h.nodup⟩
  · intro ptr hptr
    rcases List.mem_cons.mp hptr with rfl | hptr
    · exact ⟨hres, (hframe.allocIsStatic _).trans hstatic⟩
    · exact ⟨(h.tracked ptr hptr).1, (hframe.allocIsStatic ptr).trans (h.tracked ptr hptr).2⟩
  · exact hframe.depth.trans h.depth
  · exact hframe.isInitDone.trans h.init
  · exact hframe.isExitDone.trans h.exit
  · exact ⟨hframe.staticBuf, hframe.staticSize, hframe.depth, hframe.isInitDone, hframe.isExitDone⟩

/-- A block is taken off the ledger. -/
theorem allocFree (h : Keeps 1 t o) (hptr : ptr ∈ o.map Prod.fst) :
    ∃ t', t.allocFree ptr = some t' ∧ Keeps 1 t' (o.release ptr) ∧ Frame t t' := by
  obtain ⟨live, spare, hlive, hperm⟩ := h.records
  have hmem : ∃ a ∈ live, (t.content a).1 = ptr := by
    obtain ⟨block, hblock, rfl⟩ := List.mem_map.mp hptr
    obtain ⟨a, ha, rfl⟩ := List.mem_map.mp (hperm.mem_iff.mpr hblock)
    exact ⟨a, ha, rfl⟩
  obtain ⟨t', l₁, a, l₂, rfl, ha, hfree, hfreed, hcontent, hframe⟩ := hlive.free hmem
  have hblocks : (t.content a :: (l₁ ++ l₂).map t.content).Perm o := by
    refine List.Perm.trans ?_ hperm
    rw [← List.map_cons]
    exact List.perm_middle.symm.map _
  have hkeys : (ptr :: ((l₁ ++ l₂).map t.content).map Prod.fst).Nodup := by
    have hnodup := (hblocks.map Prod.fst).nodup_iff.mpr h.nodup
    rwa [List.map_cons, ha] at hnodup
  have hrelease : ((l₁ ++ l₂).map t.content).Perm (o.release ptr) := by
    have hfilter := hblocks.filter fun block => block.1 ≠ ptr
    rw [List.filter_cons_of_neg (by simpa using ha)] at hfilter
    have hkept : ((l₁ ++ l₂).map t.content).filter (fun block => decide (block.1 ≠ ptr)) =
        (l₁ ++ l₂).map t.content := Owned.release_of_not_mem (List.nodup_cons.mp hkeys).1
    rwa [hkept] at hfilter
  refine ⟨t', ?_, ⟨⟨l₁ ++ l₂, a :: spare, hfreed, ?_⟩, ?_, ?_, ?_, ?_, ?_⟩, hframe⟩
  · rw [Tracker.allocFree, if_neg (by rw [(h.tracked ptr hptr).2]; exact Bool.false_ne_true), h.depth,
      h.init, h.exit, if_neg (Nat.lt_irrefl 1), if_neg (by decide), if_neg Bool.false_ne_true, hfree]
  · rw [hcontent]
    exact hrelease
  · exact (List.filter_sublist.map _).nodup h.nodup
  · intro q hq
    have hq' := (Owned.mem_release.mp hq).1
    exact ⟨(h.tracked q hq').1, (hframe.allocIsStatic q).trans (h.tracked q hq').2⟩
  · exact hframe.depth.trans h.depth
  · exact hframe.isInitDone.trans h.init
  · exact hframe.isExitDone.trans h.exit

theorem perm (h : Keeps d t o) {o' : Owned} (hp : o.Perm o') : Keeps d t o' := by
  obtain ⟨live, spare, hlive, hperm⟩ := h.records
  exact ⟨⟨live, spare, hlive, hperm.trans hp⟩, (hp.map Prod.fst).nodup_iff.mp h.nodup,
    fun ptr hptr => h.tracked ptr ((hp.map Prod.fst).mem_iff.mpr hptr), h.depth, h.init, h.exit⟩

end Keeps

/-! ### The calls -/

/-- A call keeps the ledger exact, or does not. -/
structure Outcome (depth : ℕ) (r : Option Tracker) (o : Owned) (covered : Prop) : Prop where
  keeps : covered → ∃ t, r = some t ∧ Keeps depth t o
  breaks : ¬covered → ∀ t, r = some t → ¬Exact t o

section
variable {t : Tracker} {o o' : Owned} {covered : Prop} {f : Tracker → Option Tracker}

theorem Outcome.congr {d : ℕ} {r r' : Option Tracker} {covered' : Prop} (h : Outcome d r o covered)
    (hr : r' = r) (ho : o' = o) (hc : covered' ↔ covered) : Outcome d r' o' covered' := by
  subst hr ho
  exact ⟨fun hcov => h.keeps (hc.mp hcov), fun hcov => h.breaks fun hcov' => hcov (hc.mpr hcov')⟩

theorem Outcome.of_keeps {d : ℕ} {r : Option Tracker} (hcovered : covered)
    (h : ∃ t, r = some t ∧ Keeps d t o) : Outcome d r o covered :=
  ⟨fun _ => h, fun hnot => absurd hcovered hnot⟩

/-- A call with another list of blocks on the ledger than there should be. -/
theorem Outcome.of_breaks {d : ℕ} {r : Option Tracker} (hcovered : ¬covered)
    (h : ∃ t o₁, r = some t ∧ Keeps d t o₁ ∧ ¬o.Perm o₁) : Outcome d r o covered := by
  refine ⟨fun hcov => absurd hcov hcovered, fun _ t' hr hexact => ?_⟩
  obtain ⟨t, o₁, hr', hkeeps, hnot⟩ := h
  obtain rfl := Option.some.inj (hr.symm.trans hr')
  exact hnot (hkeeps.perm_of_exact hexact)

theorem Keeps.nested (h : Keeps 0 t o)
    (hf : ∀ t₁, Keeps 1 t₁ o → (∀ ptr, t₁.allocIsStatic ptr = t.allocIsStatic ptr) →
      Outcome 1 (f t₁) o' covered) : Outcome 0 (t.nested f) o' covered := by
  have hdepth : t.depth + 1 = 1 := by rw [h.depth]
  have hout := hf { t with depth := t.depth + 1 } (by rw [hdepth]; exact h.at_depth 1) fun _ => rfl
  constructor
  · intro hcov
    obtain ⟨t₂, ht₂, hkeeps⟩ := hout.keeps hcov
    refine ⟨{ t₂ with depth := t₂.depth - 1 }, by rw [Tracker.nested, ht₂]; rfl, ?_⟩
    rw [hkeeps.depth]
    exact hkeeps.at_depth 0
  · intro hcov t' ht' hexact
    rw [Tracker.nested] at ht'
    obtain ⟨t₂, ht₂, ht'⟩ := Option.bind_eq_some_iff.mp ht'
    obtain rfl := Option.some.inj ht'
    exact hout.breaks hcov t₂ ht₂ ⟨hexact.records, hexact.count⟩

theorem allocIsStatic_null (t : Tracker) : t.allocIsStatic 0 = false := rfl

theorem Owned.not_perm_cons (block : Address × ℕ) (o : Owned) : ¬(block :: o).Perm o := fun hp => by
  have hlength := hp.length_eq
  rw [List.length_cons] at hlength
  omega

/-- The result of an underlying function is put on the ledger unless it is taken for static. -/
theorem Keeps.traceResult (h : Keeps 1 t o) {res : Address} (hfresh : res ≠ 0 → res ∉ o.map Prod.fst)
    (size : ℕ) (trace : List Address) : Outcome 1 (t.traceResult res size trace) (o.acquire res size)
      (t.allocIsStatic res = false) := by
  rw [Tracker.traceResult, Owned.acquire]
  split_ifs with hres
  · by_cases hstatic : t.allocIsStatic res = false
    · obtain ⟨t', ht', hkeeps, -⟩ := h.traceNew hres hstatic (hfresh hres) size trace
      exact .of_keeps hstatic ⟨t', ht', hkeeps⟩
    · refine .of_breaks hstatic ⟨t, o, ?_, h, Owned.not_perm_cons _ o⟩
      rw [allocTraceNew, if_pos (by simpa using hstatic)]
  · have hnull : res = 0 := by simpa using hres
    exact .of_keeps (hnull ▸ rfl) ⟨t, rfl, h⟩

theorem Owned.length_release {ptr : Address} (h : ptr ∈ o.map Prod.fst) :
    (o.release ptr).length < o.length := by
  obtain ⟨block, hblock, rfl⟩ := List.mem_map.mp h
  exact List.length_filter_lt_length_iff_exists.mpr ⟨block, hblock, by simp⟩

/-- A block of the program that is given back. -/
theorem Owned.cons_release {block : Address × ℕ} (hnodup : (o.map Prod.fst).Nodup) (h : block ∈ o) :
    (block :: o.release block.1).Perm o := by
  induction o with
  | nil => cases h
  | cons b o ih =>
    obtain ⟨hb, hnodup⟩ := List.nodup_cons.mp hnodup
    rcases List.mem_cons.mp h with rfl | h
    · have hrest : Owned.release block.1 o = o := Owned.release_of_not_mem hb
      rw [release, List.filter_cons_of_neg (by simp), ← release, hrest]
    · have hne : b.1 ≠ block.1 := fun heq => hb (heq ▸ List.mem_map_of_mem h)
      rw [release, List.filter_cons_of_pos (by simpa using hne)]
      exact (List.Perm.swap b block _).trans ((ih hnodup h).cons b)

/-- A block of the program is reallocated. -/
theorem Keeps.reallocate (h : Keeps 1 t o) {ptr res : Address} (hptr : ptr ∈ o.map Prod.fst)
    (hres : res = ptr ∨ (res ≠ 0 → res ∉ o.map Prod.fst)) (size : ℕ) (trace : List Address) :
    Outcome 1 (if res = 0 then t.allocFree ptr else if res ≠ ptr then do
        let t ← t.allocFree ptr
        t.allocTraceNew res size trace else some t)
      (if res = 0 then o else (o.release ptr).acquire res size)
      (t.allocIsStatic res = false ∧ res ≠ 0 ∧ (res = ptr → (ptr, size) ∈ o)) := by
  obtain ⟨t', hfree, hfreed, hframe⟩ := h.allocFree hptr
  split_ifs with hnull hmoved
  · refine .of_breaks (fun hcovered => hcovered.2.1 hnull) ⟨t', _, hfree, hfreed, fun hp => ?_⟩
    exact (Owned.length_release hptr).ne' hp.length_eq
  · -- the block has moved
    have hnew : res ∉ o.map Prod.fst := hres.resolve_left hmoved hnull
    have hnew' : res ∉ (o.release ptr).map Prod.fst := fun hmem => hnew (Owned.mem_release.mp hmem).1
    have htraced := hfreed.traceResult (fun _ => hnew') size trace
    rw [Tracker.traceResult, if_pos hnull, hframe.allocIsStatic] at htraced
    refine htraced.congr ?_ rfl ?_
    · rw [hfree]
      rfl
    · exact ⟨fun hcovered => hcovered.1, fun hstatic => ⟨hstatic, hnull, fun heq => absurd heq hmoved⟩⟩
  · -- the block is where it was
    obtain rfl : res = ptr := by simpa using hmoved
    rw [Owned.acquire, if_pos hnull]
    by_cases hsame : (res, size) ∈ o
    · have hperm : ((res, size) :: o.release res).Perm o := Owned.cons_release h.nodup hsame
      exact .of_keeps ⟨(h.tracked res hptr).2, hnull, fun _ => hsame⟩ ⟨t, rfl, h.perm hperm.symm⟩
    · refine .of_breaks (fun hcovered => hsame (hcovered.2.2 rfl)) ⟨t, o, rfl, h, fun hp => ?_⟩
      exact hsame (hp.mem_iff.mp List.mem_cons_self)

theorem Keeps.realloc (h : Keeps 0 t o) {ptr size res : ℕ} {trace : List Address}
    (hallowed : (Call.realloc ptr size res).Allowed t o) :
    Outcome 0 (HeapHelp.realloc ptr size res trace t) ((Call.realloc ptr size res).own o)
      ((Call.realloc ptr size res).Covered t o) := by
  simp only [Call.Allowed] at hallowed
  refine h.nested fun t₁ h₁ hstatic => ?_
  by_cases hptr : ptr = 0
  · -- like `malloc`
    subst hptr
    rw [if_pos rfl] at hallowed
    have htraced := h₁.traceResult (fun hres => (hallowed hres).1) size trace
    refine htraced.congr ?_ ?_ ?_
    · simp only [Tracker.traceResult, allocIsStatic_null, Bool.false_eq_true, if_false, true_and, ne_eq,
        not_true_eq_false, false_and]
    · rw [Call.own, if_pos rfl]
    · simp [Call.Covered, hstatic]
  · rw [if_neg hptr] at hallowed
    obtain ⟨hmem, hallowed⟩ := hallowed
    have hkept : (if t₁.allocIsStatic ptr = true then 0 else ptr) = ptr := by
      rw [(h₁.tracked ptr hmem).2]
      rfl
    by_cases hsize : size = 0
    · -- like `free`
      rw [if_pos hsize] at hallowed
      obtain ⟨t', hfree, hfreed, -⟩ := h₁.allocFree hmem
      refine .of_keeps ⟨hallowed ▸ rfl, fun _ hne => absurd hsize hne⟩ ⟨t', ?_, ?_⟩
      · simp only [hkept, hptr, hallowed, false_and, if_false, ne_eq, not_false_eq_true, true_and, if_true]
        exact hfree
      · simp only [Call.own, if_neg hptr, if_pos hsize]
        exact hfreed
    · rw [if_neg hsize] at hallowed
      have hres : res = ptr ∨ (res ≠ 0 → res ∉ o.map Prod.fst) :=
        hallowed.imp_right fun hfresh hres => (hfresh hres).1
      refine (h₁.reallocate hmem hres size trace).congr ?_ ?_ ?_
      · simp only [hkept, hptr, false_and, if_false, ne_eq, not_false_eq_true, true_and]
      · simp only [Call.own, if_neg hptr, if_neg hsize]
      · simp [Call.Covered, hptr, hsize, hstatic]

theorem Keeps.strdup (h : Keeps 0 t o) {ptr length res : ℕ} {trace : List Address}
    (hallowed : (Call.strdup ptr length res).Allowed t o) :
    Outcome 0 (HeapHelp.strdup ptr length res trace t) ((Call.strdup ptr length res).own o)
      ((Call.strdup ptr length res).Covered t o) := by
  rw [HeapHelp.strdup, h.exit, if_neg Bool.false_ne_true]
  split_ifs with hsource
  · -- the source is taken for static
    refine ⟨fun hcovered => ?_, fun _ t' ht' => nomatch ht'⟩
    have hnot : t.allocIsStatic ptr = false := hcovered.1
    rw [hsource] at hnot
    cases hnot
  · refine h.nested fun t₁ h₁ hstatic => ?_
    refine (h₁.traceResult (fun hres => (hallowed.2.2 hres).1) (length + 1) trace).congr rfl rfl ?_
    simp [Call.Covered, hstatic, hsource]

theorem Keeps.free (h : Keeps 0 t o) {ptr : ℕ} (hallowed : (Call.free ptr).Allowed t o) :
    Outcome 0 (HeapHelp.free ptr t) ((Call.free ptr).own o) True := by
  rw [HeapHelp.free, Call.own]
  by_cases hptr : ptr = 0
  · rw [if_pos hptr, if_pos hptr]
    exact .of_keeps trivial ⟨t, rfl, h⟩
  · have hmem := hallowed.resolve_left hptr
    rw [if_neg hptr, if_neg hptr, if_neg (by rw [(h.tracked ptr hmem).2]; exact Bool.false_ne_true)]
    refine h.nested fun t₁ h₁ _ => ?_
    obtain ⟨t', hfree, hfreed, -⟩ := h₁.allocFree hmem
    exact .of_keeps trivial ⟨t', hfree, hfreed⟩

/-- A call that the program may make. -/
theorem Keeps.perform (h : Keeps 0 t o) {c : Call} (hallowed : c.Allowed t o) (trace : List Address) :
    Outcome 0 (c.perform trace t) (c.own o) (c.Covered t o) := by
  cases c with
  | malloc size res =>
    refine h.nested fun t₁ h₁ hstatic => ?_
    refine (h₁.traceResult (fun hres => (hallowed hres).1) size trace).congr rfl rfl ?_
    simp [Call.Covered, hstatic]
  | calloc num size res =>
    refine h.nested fun t₁ h₁ hstatic => ?_
    refine (h₁.traceResult (fun hres => (hallowed.1 hres).1) (num * size % sizeRange) trace).congr rfl ?_ ?_
    · simp only [Call.own, Owned.acquire]
      split_ifs with hres
      · rw [Nat.mod_eq_of_lt (hallowed.2 hres)]
      · rfl
    · simp [Call.Covered, hstatic]
  | realloc ptr size res => exact h.realloc hallowed
  | strdup ptr length res => exact h.strdup hallowed
  | free ptr => exact h.free hallowed

end

/-- A call of the program, with the backtrace of its caller. -/
def Step (s : Tracker × Owned) (e : Call × List Address) (s' : Tracker × Owned) : Prop :=
  e.1.Allowed s.1 s.2 ∧ e.1.perform e.2 s.1 = some s'.1 ∧ s'.2 = e.1.own s.2

/-- As long as no `realloc` fails or changes a size in place, and nothing is given out right behind the
static buffer, the ledger is exact and no assertion fails. The first call that is not so ends this. -/
theorem ledger_exact_iff (staticBuf : Option Address) {es : List (Call × List Address)}
    {s : Tracker × Owned} (hrun : Run (restrict Step fun s e => e.1.Covered s.1 s.2)
      (.initial staticBuf, []) es s) :
    Exact s.1 s.2 ∧ ∀ (c : Call) trace, c.Allowed s.1 s.2 →
      ((∃ t, c.perform trace s.1 = some t ∧ Exact t (c.own s.2)) ↔ c.Covered s.1 s.2) := by
  have hkeeps : Keeps 0 s.1 s.2 := by
    refine hrun.invariant (I := fun s => Keeps 0 s.1 s.2) (.initial staticBuf) ?_
    rintro s ⟨c, trace⟩ s' h ⟨hcovered, hallowed, hperform, howned⟩
    obtain ⟨t, ht, hkeeps⟩ := (h.perform hallowed trace).keeps hcovered
    obtain rfl := Option.some.inj (hperform.symm.trans ht)
    rwa [howned]
  refine ⟨hkeeps.exact, fun c trace hallowed => ?_⟩
  have hout := hkeeps.perform hallowed trace
  constructor
  · rintro ⟨t, ht, hexact⟩
    by_contra hnot
    exact hout.breaks hnot t ht hexact
  · intro hcovered
    obtain ⟨t, ht, h⟩ := hout.keeps hcovered
    exact ⟨t, ht, h.exact⟩

/-- A block is allocated and moved; then it may not grow where it is. -/
theorem ledger_exact_iff_moved : ∃ s, Run (restrict Step fun s e => e.1.Covered s.1 s.2)
      (.initial none, []) [(.malloc 8 100, [7]), (.realloc 100 16 200, [7])] s ∧
    Exact s.1 [(200, 16)] ∧
    ¬∃ t, (Call.realloc 200 32 200).perform [7] s.1 = some t ∧ Exact t [(200, 32)] := by
  obtain ⟨t₁, ht₁⟩ : ∃ t, (Call.malloc 8 100).perform [7] (.initial none) = some t := ⟨_, rfl⟩
  obtain ⟨t₂, ht₂⟩ : ∃ t, (Call.realloc 100 16 200).perform [7] t₁ = some t := by
    obtain rfl := Option.some.inj ht₁
    exact ⟨_, rfl⟩
  have hbuf : t₁.staticBuf = 0 ∧ t₁.staticSize = 0 ∧ t₂.staticBuf = 0 ∧ t₂.staticSize = 0 := by
    obtain rfl := Option.some.inj ht₁
    obtain rfl := Option.some.inj ht₂
    exact ⟨rfl, rfl, rfl, rfl⟩
  obtain ⟨hbuf₁, hsize₁, hbuf₂, hsize₂⟩ := hbuf
  have hrun : Run (restrict Step fun s e => e.1.Covered s.1 s.2) (.initial none, [])
      [(.malloc 8 100, [7]), (.realloc 100 16 200, [7])] (t₂, [(200, 16)]) := by
    refine (Run.single (t := (t₁, [(100, 8)])) ?_).snoc ?_
    · exact ⟨rfl, fun _ => ⟨by simp, by simp [InStatic, Tracker.initial]⟩, ht₁, rfl⟩
    · refine ⟨⟨by simp [allocIsStatic, hbuf₁, hsize₁], by simp⟩, ?_, ht₂, rfl⟩
      simp [Call.Allowed, Fresh, InStatic, hbuf₁, hsize₁]
  obtain ⟨hexact, hiff⟩ := ledger_exact_iff none hrun
  refine ⟨_, hrun, hexact, fun hlater => ?_⟩
  have hcovered := (hiff (.realloc 200 32 200) [7] (by simp [Call.Allowed])).mp hlater
  simpa using (hcovered.2 (by decide) (by decide)).2 rfl

/-- A block whose `realloc` has failed cannot be freed any more, and one that has grown where it is has its
old size on the ledger. -/
theorem ledger_stale :
    (∃ s, Run Step (.initial none, []) [(.malloc 8 100, [7]), (.realloc 100 16 0, [7])] s ∧
      ¬Exact s.1 s.2 ∧ (Call.free 100).Allowed s.1 s.2 ∧ (Call.free 100).perform [7] s.1 = none) ∧
    ∃ s, Run Step (.initial none, []) [(.malloc 8 100, [7]), (.realloc 100 16 100, [7])] s ∧
      ¬Exact s.1 s.2 := by
  obtain ⟨t₁, ht₁⟩ : ∃ t, (Call.malloc 8 100).perform [7] (.initial none) = some t := ⟨_, rfl⟩
  have hmalloc : Step (.initial none, []) (.malloc 8 100, [7]) (t₁, [(100, 8)]) :=
    ⟨fun _ => ⟨by simp, by simp [InStatic, Tracker.initial]⟩, ht₁, rfl⟩
  constructor
  · obtain ⟨t₂, ht₂⟩ : ∃ t, (Call.realloc 100 16 0).perform [7] t₁ = some t := by
      obtain rfl := Option.some.inj ht₁
      exact ⟨_, rfl⟩
    refine ⟨(t₂, [(100, 8)]), (Run.single hmalloc).snoc ⟨?_, ht₂, rfl⟩, fun hexact => ?_, ?_, ?_⟩
    · exact ⟨by simp, .inr fun hne => absurd rfl hne⟩
    · obtain rfl := Option.some.inj ht₁
      obtain rfl := Option.some.inj ht₂
      exact absurd hexact.count (by decide)
    · exact .inr (by simp)
    · obtain rfl := Option.some.inj ht₁
      obtain rfl := Option.some.inj ht₂
      rfl
  · obtain ⟨t₂, ht₂⟩ : ∃ t, (Call.realloc 100 16 100).perform [7] t₁ = some t := by
      obtain rfl := Option.some.inj ht₁
      exact ⟨_, rfl⟩
    refine ⟨(t₂, [(100, 16)]), (Run.single hmalloc).snoc ⟨⟨by simp, .inl rfl⟩, ht₂, rfl⟩, fun hexact => ?_⟩
    obtain ⟨live, hlive, hperm⟩ := hexact.records
    obtain rfl := Option.some.inj ht₁
    obtain rfl := Option.some.inj ht₂
    have hone : live = [0] := hlive.unique ⟨rfl, rfl⟩
    subst hone
    exact absurd (List.perm_singleton.mp hperm) (by decide)

end SystemsProgramming.HeapHelp

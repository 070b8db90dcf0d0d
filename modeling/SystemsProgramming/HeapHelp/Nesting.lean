import SystemsProgramming.HeapHelp.Ledger

/-! Calls inside calls. The underlying function of a call may call the functions of the heap itself, to
any depth: `getline` grows its buffer, `getaddrinfo` builds a list. Only the outermost call is about a block
of the program, and the tracker takes no notice of the others. -/

namespace SystemsProgramming.HeapHelp

open Tracker

/-- `sizeof(struct addrinfo)` -/
def addrinfoSize : ℕ := 48

/-- A call of any of the functions, with what the underlying function returns. -/
inductive Interposed
  | heap (c : Call)
  /-- The buffer before and after, the length of the line in it, and the size that the buffer has now. -/
  | getline (lineOld line length capacity : ℕ)
  /-- The size is that of all that has been allocated for the list. -/
  | getaddrinfo (rc : ℤ) (res : Address) (size : ℕ)
  | freeaddrinfo (ai : Address)

/-- A call with the backtrace of its caller, and the calls that the underlying function makes. -/
inductive Act
  | mk (c : Interposed) (trace : List Address) (inner : List Act)

/-! ### The functions -/

section
variable (inner : Tracker → Option Tracker) (trace : List Address) (t : Tracker)

def getline (lineOld line length : ℕ) : Option Tracker :=
  t.nested fun t =>
    if t.allocIsStatic lineOld then none
    else do
      let t ← inner t
      if lineOld = 0 ∧ line ≠ 0 then t.allocTraceNew line (length + 1) trace
      else if lineOld ≠ 0 ∧ line = 0 then none
      else if lineOld ≠ 0 ∧ line ≠ 0 ∧ lineOld ≠ line then do
        let t ← t.allocFree lineOld
        t.allocTraceNew line (length + 1) trace
      else if lineOld ≠ line then none
      else some t

def getaddrinfo (rc : ℤ) (res : Address) : Option Tracker :=
  t.nested fun t => do
    let t ← inner t
    if rc = 0 ∧ res ≠ 0 then t.allocTraceNew res addrinfoSize trace else some t

def freeaddrinfo (ai : Address) : Option Tracker :=
  if ai = 0 then some t
  else if t.allocIsStatic ai then none
  else t.nested fun t => do
    let t ← t.allocFree ai
    inner t

/-- The functions of the model with calls inside. -/
def Call.performWith : Call → Option Tracker
  | malloc size res => t.nested fun t => do
    let t ← inner t
    t.traceResult res size trace
  | calloc num size res => t.nested fun t => do
    let t ← inner t
    t.traceResult res (num * size % sizeRange) trace
  | realloc ptr size res => t.nested fun t =>
    let ptr := if t.allocIsStatic ptr then 0 else ptr
    do
      let t ← inner t
      if ptr = 0 ∧ res ≠ 0 then t.allocTraceNew res size trace
      else if ptr ≠ 0 ∧ res = 0 then t.allocFree ptr
      else if ptr ≠ 0 ∧ res ≠ ptr then do
        let t ← t.allocFree ptr
        t.allocTraceNew res size trace
      else some t
  | strdup ptr length res =>
    if t.isExitDone then none
    else if t.allocIsStatic ptr then none
    else t.nested fun t => do
      let t ← inner t
      t.traceResult res (length + 1) trace
  | free ptr =>
    if ptr = 0 then some t
    else if t.allocIsStatic ptr then some t
    else t.nested fun t => do
      let t ← t.allocFree ptr
      inner t

def Interposed.perform : Interposed → Option Tracker
  | heap c => c.performWith inner trace t
  | getline lineOld line length _ => HeapHelp.getline inner trace t lineOld line length
  | getaddrinfo rc res _ => HeapHelp.getaddrinfo inner trace t rc res
  | freeaddrinfo ai => HeapHelp.freeaddrinfo inner t ai

end

mutual

def Act.perform : Act → Tracker → Option Tracker
  | .mk c trace inner, t => c.perform (performAll inner) trace t

def performAll : List Act → Tracker → Option Tracker
  | [], t => some t
  | a :: as, t => do
    let t ← a.perform t
    performAll as t

end

/-- Without calls inside, the functions are those of the model. -/
theorem Call.performWith_some (c : Call) (trace : List Address) (t : Tracker) :
    c.performWith some trace t = c.perform trace t := by
  cases c with
  | free ptr =>
    simp only [performWith, perform, HeapHelp.free, Option.bind_eq_bind, Option.bind_fun_some]
  | _ => rfl

/-! ### The calls inside -/

/-- The assertions of a call that hold at any depth. -/
def Interposed.Asserts (static : Address → Bool) : Interposed → Prop
  | heap (.strdup ptr _ _) => static ptr = false
  | heap _ => True
  | getline lineOld line _ _ => static lineOld = false ∧ (lineOld ≠ 0 → line ≠ 0)
  | getaddrinfo _ _ _ => True
  | freeaddrinfo ai => ai ≠ 0 → static ai = false

/-- A call and all calls inside it pass them. -/
inductive Act.Sound (static : Address → Bool) : Act → Prop
  | mk {c : Interposed} {trace : List Address} {inner : List Act} : c.Asserts static →
      (∀ a ∈ inner, a.Sound static) → Sound static (.mk c trace inner)

section
variable {t : Tracker} {ptr : Address} {size : ℕ} {trace : List Address} {f inner : Tracker → Option Tracker}

theorem allocTraceNew_deep (h : 1 < t.depth) (ptr : Address) (size : ℕ) (trace : List Address) :
    t.allocTraceNew ptr size trace = some t := by
  rw [allocTraceNew, if_pos h, ite_self]

theorem allocFree_deep (h : 1 < t.depth) (ptr : Address) : t.allocFree ptr = some t := by
  rw [Tracker.allocFree, if_pos h, ite_self]

theorem nested_of_eq (h : f { t with depth := t.depth + 1 } = some { t with depth := t.depth + 1 }) :
    t.nested f = some t := by
  rw [Tracker.nested, h]
  rfl

theorem traceResult_deep (h : 1 < t.depth) (res : Address) (size : ℕ) (trace : List Address) :
    t.traceResult res size trace = some t := by
  rw [Tracker.traceResult, allocTraceNew_deep h, ite_self]

/-- A call inside a call leaves the tracker alone. -/
theorem Interposed.perform_deep {c : Interposed} (hdepth : 1 ≤ t.depth) (hexit : t.isExitDone = false)
    (hc : c.Asserts t.allocIsStatic)
    (hinner : inner { t with depth := t.depth + 1 } = some { t with depth := t.depth + 1 }) :
    c.perform inner trace t = some t := by
  have hdeep : 1 < ({ t with depth := t.depth + 1 } : Tracker).depth := Nat.lt_succ_of_le hdepth
  have htrace := allocTraceNew_deep hdeep
  have hfree := allocFree_deep hdeep
  have hresult := traceResult_deep hdeep
  cases c with
  | heap c =>
    cases c with
    | malloc size res =>
      rw [Interposed.perform, Call.performWith]
      refine nested_of_eq ?_
      rw [hinner]
      exact hresult ..
    | calloc num size res =>
      rw [Interposed.perform, Call.performWith]
      refine nested_of_eq ?_
      rw [hinner]
      exact hresult ..
    | realloc ptr size res =>
      rw [Interposed.perform, Call.performWith]
      refine nested_of_eq ?_
      dsimp only
      rw [hinner, Option.bind_eq_bind, Option.bind_some, htrace, hfree, Option.bind_some, htrace, ite_self,
        ite_self, ite_self]
    | strdup ptr length res =>
      have hstatic : t.allocIsStatic ptr = false := hc
      rw [Interposed.perform, Call.performWith, hexit, hstatic, if_neg Bool.false_ne_true,
        if_neg Bool.false_ne_true]
      refine nested_of_eq ?_
      rw [hinner]
      exact hresult ..
    | free ptr =>
      rw [Interposed.perform, Call.performWith]
      have hnested : (t.nested fun t => do
          let t ← t.allocFree ptr
          inner t) = some t := by
        refine nested_of_eq ?_
        rw [hfree]
        exact hinner
      rw [hnested, ite_self, ite_self]
  | getline lineOld line length capacity =>
    rw [Interposed.perform, HeapHelp.getline]
    refine nested_of_eq ?_
    have hstatic : ({ t with depth := t.depth + 1 } : Tracker).allocIsStatic lineOld = false := hc.1
    rw [hstatic, if_neg Bool.false_ne_true, hinner, Option.bind_eq_bind, Option.bind_some, htrace, hfree,
      Option.bind_some, htrace]
    have hline := hc.2
    split_ifs <;> first | rfl | omega
  | getaddrinfo rc res size =>
    rw [Interposed.perform, HeapHelp.getaddrinfo]
    refine nested_of_eq ?_
    rw [hinner, Option.bind_eq_bind, Option.bind_some, htrace, ite_self]
  | freeaddrinfo ai =>
    rw [Interposed.perform, HeapHelp.freeaddrinfo]
    split_ifs with hnull hstatic
    · rfl
    · rw [hc hnull] at hstatic
      cases hstatic
    · refine nested_of_eq ?_
      rw [hfree]
      exact hinner

theorem Act.Sound.perform_deep {static : Address → Bool} {a : Act} (h : a.Sound static) {t : Tracker}
    (hstatic : t.allocIsStatic = static) (hexit : t.isExitDone = false) (hdepth : 1 ≤ t.depth) :
    a.perform t = some t := by
  induction h generalizing t with
  | @mk c trace inner hc hsound ih =>
    subst hstatic
    have hall : performAll inner { t with depth := t.depth + 1 } = some { t with depth := t.depth + 1 } := by
      clear hsound
      induction inner with
      | nil => rfl
      | cons a inner ih' =>
        have ha := ih a (.head _) (t := { t with depth := t.depth + 1 }) rfl hexit (Nat.le_add_left 1 _)
        rw [performAll, ha]
        exact ih' fun b hb => ih b (.tail _ hb)
    rw [Act.perform]
    exact Interposed.perform_deep hdepth hexit hc hall

/-! ### The outermost call -/

/-- What `alloc_free` does to the records. -/
theorem eq_of_freeRecord {t' : Tracker} (h : t.freeRecord ptr = some t') :
    ∃ prev a, t' = (t.unlinkRecord prev a).recycleRecord a := by
  obtain ⟨⟨prev, found⟩, -, h⟩ := Option.bind_eq_some_iff.mp h
  obtain ⟨a, -, h⟩ := Option.bind_eq_some_iff.mp h
  dsimp only at h
  split_ifs at h
  exact ⟨prev, a, (Option.some.inj h).symm⟩

theorem frame_allocFree {t t' : Tracker} (h : t.allocFree ptr = some t') : Frame t t' := by
  rw [Tracker.allocFree] at h
  split_ifs at h
  · exact Option.some.inj h ▸ ⟨rfl, rfl, rfl, rfl, rfl⟩
  · exact Option.some.inj h ▸ ⟨rfl, rfl, rfl, rfl, rfl⟩
  · exact Option.some.inj h ▸ ⟨rfl, rfl, rfl, rfl, rfl⟩
  · obtain ⟨prev, a, rfl⟩ := eq_of_freeRecord h
    exact Holdings.frame_recycle t prev a

/-- The tracker is as it is during an outermost call. -/
def Outermost (t t₁ : Tracker) : Prop :=
  t₁.allocIsStatic = t.allocIsStatic ∧ t₁.isExitDone = t.isExitDone ∧ t₁.depth = t.depth + 1

theorem Outermost.frame {t₁ t₂ : Tracker} (h : Outermost t t₁) (hframe : Frame t₁ t₂) : Outermost t t₂ :=
  ⟨(funext hframe.allocIsStatic).trans h.1, hframe.isExitDone.trans h.2.1, hframe.depth.trans h.2.2⟩

/-- A call does what it does without the calls inside it. -/
theorem Interposed.perform_outermost (hinner : ∀ t₁, Outermost t t₁ → inner t₁ = some t₁) (c : Interposed) :
    c.perform inner trace t = c.perform some trace t := by
  have houter : Outermost t { t with depth := t.depth + 1 } := ⟨rfl, rfl, rfl⟩
  have hstart := hinner _ houter
  have hfree : ∀ ptr, (Tracker.allocFree ptr { t with depth := t.depth + 1 } >>= inner) =
      (Tracker.allocFree ptr { t with depth := t.depth + 1 } >>= some) := fun ptr => by
    cases hfreed : Tracker.allocFree ptr { t with depth := t.depth + 1 } with
    | none => rfl
    | some t₁ => exact hinner t₁ (houter.frame (frame_allocFree hfreed))
  cases c with
  | heap c =>
    cases c with
    | free ptr => simp only [Interposed.perform, Call.performWith, Tracker.nested, hfree]
    | _ => simp only [Interposed.perform, Call.performWith, Tracker.nested, hstart]
  | getline lineOld line length capacity =>
    simp only [Interposed.perform, HeapHelp.getline, Tracker.nested, hstart]
  | getaddrinfo rc res size => simp only [Interposed.perform, HeapHelp.getaddrinfo, Tracker.nested, hstart]
  | freeaddrinfo ai => simp only [Interposed.perform, HeapHelp.freeaddrinfo, Tracker.nested, hfree]

/-- So does an act whose calls inside pass their assertions. -/
theorem Act.perform_outermost (c : Interposed) (trace : List Address) {inside : List Act}
    (hsound : ∀ a ∈ inside, a.Sound t.allocIsStatic) (hexit : t.isExitDone = false) :
    (Act.mk c trace inside).perform t = c.perform some trace t := by
  rw [Act.perform]
  refine Interposed.perform_outermost (fun t₁ h₁ => ?_) c
  obtain ⟨hstatic, hexit₁, hdepth⟩ := h₁
  have hdepth₁ : 1 ≤ t₁.depth := hdepth ▸ Nat.le_add_left 1 _
  induction inside with
  | nil => rfl
  | cons a inside ih =>
    rw [performAll, (hsound a (.head _)).perform_deep hstatic (hexit₁.trans hexit) hdepth₁]
    exact ih fun b hb => hsound b (.tail _ hb)

end

end SystemsProgramming.HeapHelp

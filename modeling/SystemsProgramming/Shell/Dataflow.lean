import SystemsProgramming.Shell.Processes
import Mathlib.Algebra.Order.BigOperators.Group.List
import Mathlib.Algebra.Order.Group.Nat
import Mathlib.Algebra.Ring.Nat

/-! What the children of a line make of their inputs, in whichever order the processes make their steps.
A pipe together with what its writer has yet to write is what its reader has yet to read. This is kept by
every step, so that at the end the shell has copied whole outputs. The steps that are left to the children,
the calls and the bytes to be copied bound every run. -/

namespace SystemsProgramming.Shell

open Transition

/-! ### The household once more -/

/-- Each pipe has one reader at most, and none while it counts as unread. -/
structure Household.Wired (h : Household) : Prop where
  child : ∀ i j, h.wiring i = some j → i ∈ h.children
  source : ∀ i j, h.wiring i = some j → j ∈ h.children ∧ j ∉ h.unread
  once : ∀ i k j, h.wiring i = some j → h.wiring k = some j → i = k

namespace Household

variable {h h' : Household} {c : Call} {cs : List Call} {i : ℕ}

theorem Wired.empty : Wired .empty := ⟨nofun, nofun, nofun⟩

theorem mem_children_of_step (hc : h.step c = some h') (hi : i ∈ h.children) : i ∈ h'.children := by
  cases c with
  | fork k command stdin =>
    rw [step] at hc
    split_ifs at hc
    obtain rfl := Option.some.inj hc
    exact List.mem_cons_of_mem k hi
  | fcloseStdin => cases hc
  | _ =>
    rw [step] at hc
    split_ifs at hc
    obtain rfl := Option.some.inj hc
    exact hi

/-- A call that wires nothing and has nobody begin to write to a pipe that is read. -/
theorem Wired.congr (hw : Wired h) (hwiring : h'.wiring = h.wiring) (hchildren : h'.children = h.children)
    (hunread : ∀ j ∈ h'.unread, j ∈ h.unread ∨ j ∉ h.children) : Wired h' where
  child i j hj := hchildren ▸ hw.child i j (hwiring ▸ hj)
  source i j hj := by
    obtain ⟨hchild, hnot⟩ := hw.source i j (hwiring ▸ hj)
    refine ⟨hchildren ▸ hchild, fun hmem => ?_⟩
    rcases hunread j hmem with hmem | hmem
    · exact hnot hmem
    · exact hmem hchild
  once i k j hi hk := hw.once i k j (hwiring ▸ hi) (hwiring ▸ hk)

theorem Wired.step (hw : Wired h) (hc : h.step c = some h') : Wired h' := by
  cases c with
  | fork i command stdin =>
    rw [Household.step] at hc
    split_ifs at hc with hfork
    obtain ⟨hfresh, -, hstdin⟩ := hfork
    obtain rfl := Option.some.inj hc
    have hcases : ∀ {k j}, Function.update h.wiring i stdin k = some j →
        (k = i ∧ stdin = some j) ∨ (k ≠ i ∧ h.wiring k = some j) := by
      intro k j hk
      rw [Function.update_apply] at hk
      split_ifs at hk with hki
      · exact .inl ⟨hki, hk⟩
      · exact .inr ⟨hki, hk⟩
    refine ⟨fun k j hk => ?_, fun k j hk => ?_, fun k l j hk hl => ?_⟩
    · rcases hcases hk with ⟨rfl, -⟩ | ⟨-, hk⟩
      · exact List.mem_cons_self
      · exact List.mem_cons_of_mem i (hw.child k j hk)
    · rcases hcases hk with ⟨-, rfl⟩ | ⟨-, hk⟩
      · exact ⟨List.mem_cons_of_mem i (hstdin j rfl).2.1, fun hmem => by simp at hmem⟩
      · obtain ⟨hchild, hnot⟩ := hw.source k j hk
        exact ⟨List.mem_cons_of_mem i hchild, fun hmem => hnot (List.mem_filter.mp hmem).1⟩
    · rcases hcases hk with ⟨rfl, rfl⟩ | ⟨-, hk'⟩
      · rcases hcases hl with ⟨rfl, -⟩ | ⟨-, hl'⟩
        · rfl
        · exact absurd (hstdin j rfl).1 (hw.source l j hl').2
      · rcases hcases hl with ⟨rfl, rfl⟩ | ⟨-, hl'⟩
        · exact absurd (hstdin j rfl).1 (hw.source k j hk').2
        · exact hw.once k l j hk' hl'
  | pipe i =>
    rw [Household.step] at hc
    split_ifs at hc with hpipe
    obtain rfl := Option.some.inj hc
    refine hw.congr rfl rfl fun j hj => ?_
    rcases List.mem_cons.mp hj with rfl | hj
    · exact .inr hpipe.1
    · exact .inl hj
  | copy i dest =>
    rw [Household.step] at hc
    split_ifs at hc
    obtain rfl := Option.some.inj hc
    exact hw.congr rfl rfl fun j hj => .inl (List.mem_filter.mp hj).1
  | fcloseStdin => cases hc
  | _ =>
    rw [Household.step] at hc
    split_ifs at hc
    obtain rfl := Option.some.inj hc
    exact hw.congr rfl rfl fun j hj => .inl hj

/-- The pipe of a child is not opened again. -/
theorem held_of_step (hc : h.step c = some h') (hi : i ∈ h.children) {fd : Fd}
    (hfd : fd = .readEnd i ∨ fd = .writeEnd i) (hheld : .pipe fd ∈ h'.held) : .pipe fd ∈ h.held := by
  cases c with
  | pipe k =>
    rw [step] at hc
    split_ifs at hc with hpipe
    obtain rfl := Option.some.inj hc
    have hik : i ≠ k := fun hik => hpipe.1 (hik ▸ hi)
    rcases hfd with rfl | rfl <;> simpa [hik] using hheld
  | fopen name overwrite =>
    rw [step] at hc
    split_ifs at hc
    obtain rfl := Option.some.inj hc
    simpa using hheld
  | close fd =>
    rw [step] at hc
    split_ifs at hc
    obtain rfl := Option.some.inj hc
    exact List.mem_of_mem_erase hheld
  | fclose name =>
    rw [step] at hc
    split_ifs at hc
    obtain rfl := Option.some.inj hc
    exact List.mem_of_mem_erase hheld
  | fcloseStdin => cases hc
  | _ =>
    rw [step] at hc
    split_ifs at hc
    obtain rfl := Option.some.inj hc
    exact hheld

/-- The pipe of a child is copied only while its read end is open. -/
theorem not_copied (hkeeps : h.Keeps cs h') (hi : i ∈ h.children) (hheld : .pipe (.readEnd i) ∉ h.held)
    (dest : Dest) : Call.copy i dest ∉ cs := by
  induction cs generalizing h with
  | nil => exact List.not_mem_nil
  | cons c cs ih =>
    obtain ⟨h₁, hc, hkeeps⟩ := keeps_cons_iff.mp hkeeps
    refine List.not_mem_cons_of_ne_of_not_mem ?_ (ih hkeeps (mem_children_of_step hc hi)
      fun hmem => hheld (held_of_step hc hi (.inl rfl) hmem))
    rintro rfl
    rw [step] at hc
    split_ifs at hc with hcopy
    exact hheld hcopy.2.2.1

theorem children_of_step (hc : h.step c = some h') (hi : i ∈ h'.children) :
    i ∈ h.children ∨ ∃ command stdin, c = .fork i command stdin := by
  cases c with
  | fork k command stdin =>
    rw [step] at hc
    split_ifs at hc
    obtain rfl := Option.some.inj hc
    rcases List.mem_cons.mp hi with rfl | hi
    · exact .inr ⟨command, stdin, rfl⟩
    · exact .inl hi
  | fcloseStdin => cases hc
  | _ =>
    rw [step] at hc
    split_ifs at hc
    obtain rfl := Option.some.inj hc
    exact .inl hi

/-- A pipe that is unread was so before, or is new. -/
theorem unread_of_step (hc : h.step c = some h') (hi : i ∈ h'.unread) :
    (i ∈ h.unread ∧ ∀ dest, c ≠ .copy i dest) ∨ i ∉ h.children := by
  cases c with
  | pipe k =>
    rw [step] at hc
    split_ifs at hc with hpipe
    obtain rfl := Option.some.inj hc
    rcases List.mem_cons.mp hi with rfl | hi
    · exact .inr hpipe.1
    · exact .inl ⟨hi, by simp⟩
  | copy k dest =>
    rw [step] at hc
    split_ifs at hc
    obtain rfl := Option.some.inj hc
    obtain ⟨hi, hik⟩ := List.mem_filter.mp hi
    refine .inl ⟨hi, ?_⟩
    rintro d heq
    obtain ⟨rfl, -⟩ := Call.copy.inj heq
    simp at hik
  | fork k command stdin =>
    rw [step] at hc
    split_ifs at hc
    obtain rfl := Option.some.inj hc
    exact .inl ⟨(List.mem_filter.mp hi).1, by simp⟩
  | fcloseStdin => cases hc
  | _ =>
    rw [step] at hc
    split_ifs at hc
    obtain rfl := Option.some.inj hc
    exact .inl ⟨hi, by simp⟩

/-- Each child keeps the stdin that it was forked with. -/
theorem wiring_of_step (hc : h.step c = some h') (hfork : ∀ command stdin, c ≠ .fork i command stdin) :
    h'.wiring i = h.wiring i := by
  cases c with
  | fork k command stdin =>
    rw [step] at hc
    split_ifs at hc
    obtain rfl := Option.some.inj hc
    refine Function.update_of_ne ?_ ..
    rintro rfl
    exact hfork command stdin rfl
  | fcloseStdin => cases hc
  | _ =>
    rw [step] at hc
    split_ifs at hc
    obtain rfl := Option.some.inj hc
    rfl

/-- A child is forked once, and what it reads nobody has read before. -/
theorem step_fork {command : Command} {stdin : Option ℕ} (hc : h.step (.fork i command stdin) = some h') :
    i ∉ h.children ∧ (∀ j, stdin = some j → j ∈ h.unread ∧ j ∈ h.children) ∧ h'.wiring i = stdin := by
  rw [step] at hc
  split_ifs at hc with hfork
  obtain rfl := Option.some.inj hc
  exact ⟨hfork.1, fun j hj => ⟨(hfork.2.2 j hj).1, (hfork.2.2 j hj).2.1⟩, Function.update_self ..⟩

end Household

/-! ### What the children do -/

/-- What the children of a line make of their inputs: their outputs and statuses, and in how many
steps. -/
structure Behaviour where
  output : ℕ → List Byte
  status : ℕ → WaitStatus
  steps : ℕ → ℕ

/-- What a child has to read if all others write what they are to write. -/
def Behaviour.incoming (B : Behaviour) (input : ℕ → List Byte) (i : ℕ) (stdin : Option ℕ) : List Byte :=
  stdin.elim (input i) B.output

/-- Each child that is forked makes of its input what is said. -/
def Explains {σ : Type} (P : Programs σ) (input : ℕ → List Byte) (B : Behaviour) (cs : List Call) : Prop :=
  ∀ i command stdin, .fork i command stdin ∈ cs → Behaves P.act (P.start command)
    (B.incoming input i stdin) (B.output i) (B.status i) (B.steps i)

/-- What a call makes of the contents of a destination. -/
def Call.write (output : ℕ → List Byte) (dest : Dest) (bs : List Byte) : Call → List Byte
  | .copy i d => if d = dest then bs ++ output i else bs
  | .fopen name overwrite => if overwrite ∧ dest = .file name then [] else bs
  | _ => bs

/-- What the calls make of the contents of a destination. -/
def outcome (output : ℕ → List Byte) (dest : Dest) (cs : List Call) (bs : List Byte) : List Byte :=
  cs.foldl (Call.write output dest) bs

/-- The steps that the shell makes for its calls. -/
def callSteps (output : ℕ → List Byte) : List Call → ℕ
  | [] => 0
  | .copy i _ :: cs => (output i).length + 1 + callSteps output cs
  | _ :: cs => 1 + callSteps output cs

/-- The children of a line. -/
def forks (cs : List Call) : List ℕ := cs.filterMap fun
  | .fork i _ _ => some i
  | _ => none

theorem mem_forks {cs : List Call} {i : ℕ} : i ∈ forks cs ↔ ∃ command stdin, .fork i command stdin ∈ cs := by
  rw [forks, List.mem_filterMap]
  constructor
  · rintro ⟨c, hc, hi⟩
    cases c <;> simp at hi
    subst hi
    exact ⟨_, _, hc⟩
  · rintro ⟨command, stdin, hc⟩
    exact ⟨_, hc, rfl⟩

/-- The steps of a run of the calls at most. A child makes one step more than its program. -/
def runSteps (B : Behaviour) (cs : List Call) : ℕ :=
  callSteps B.output cs + ((forks cs).map fun i => B.steps i + 1).sum

section
variable {σ : Type} {P : Programs σ} {B : Behaviour} {input : ℕ → List Byte} {written : Dest → List Byte}
  {cs : List Call} {s s' : System σ} {h h₁ : Household} {rest : ℕ → List Byte} {left : ℕ → ℕ}
  {past : List Call} {i j k : ℕ}

/-- What is yet to be read from a pipe. -/
def yet (s : System σ) (rest : ℕ → List Byte) (j : ℕ) : List Byte := s.pipes j ++ rest j

def toRead (s : System σ) (h : Household) (rest : ℕ → List Byte) (i : ℕ) : List Byte :=
  (h.wiring i).elim (s.input i) (yet s rest)

/-- The status is the one that is said, or the child was killed because nobody would read its pipe. -/
def StatusFits (B : Behaviour) (cs : List Call) (i : ℕ) (status : WaitStatus) : Prop :=
  status = B.status i ∨ status = .signaled sigpipe ∧ ∀ dest, .copy i dest ∉ cs

/-- A child with so much to read, to write and to do is on its way to what is said. -/
def Doing (P : Programs σ) (B : Behaviour) (cs : List Call) (i : ℕ) (toRead rest : List Byte) (left : ℕ) :
    Process σ → Prop
  | .forked command _ _ => ∃ n, left = n + 1 ∧
      Behaves P.act (P.start command) toRead rest (B.status i) n
  | .running _ p => Behaves P.act p toRead rest (B.status i) left
  | .ended status => StatusFits B cs i status
  | .reaped => True

/-- What the destination holds at the end if the rest goes as is said; a copy may have begun. -/
def final (B : Behaviour) (s : System σ) (rest : ℕ → List Byte) (dest : Dest) : List Byte :=
  match s.calls with
  | .copy i d :: calls =>
    outcome B.output dest calls (if d = dest then s.written dest ++ yet s rest i else s.written dest)
  | calls => outcome B.output dest calls (s.written dest)

/-- The steps that are left to the shell. -/
def shellSteps (B : Behaviour) (s : System σ) (rest : ℕ → List Byte) : ℕ :=
  match s.calls with
  | .copy i _ :: calls => (yet s rest i).length + 1 + callSteps B.output calls
  | calls => callSteps B.output calls

def stepsLeft (B : Behaviour) (cs : List Call) (s : System σ) (rest : ℕ → List Byte) (left : ℕ → ℕ) : ℕ :=
  shellSteps B s rest + ((forks cs).map left).sum

/-- The state after some of the calls, with what each child has yet to write and the steps that it has
left. -/
structure Carries (P : Programs σ) (B : Behaviour) (input : ℕ → List Byte) (written : Dest → List Byte)
    (cs : List Call) (s : System σ) (h : Household) (past : List Call) (rest : ℕ → List Byte)
    (left : ℕ → ℕ) : Prop where
  consistent : Consistent s h
  wired : h.Wired
  calls : cs = past ++ s.calls
  fresh : ∀ i, i ∉ h.children →
    s.pipes i = [] ∧ rest i = B.output i ∧ s.input i = input i ∧ left i = B.steps i + 1
  unread : ∀ j ∈ h.unread, (∀ dest, s.calls.head? ≠ some (.copy j dest)) → yet s rest j = B.output j
  doing : ∀ i, Doing P B cs i (toRead s h rest i) (rest i) (left i) (s.processes i)
  gone : ∀ i ∈ h.children, ¬(s.processes i).Alive → rest i = [] ∨ ¬s.Open (.pipe (.readEnd i))
  copied : ∀ i dest, .copy i dest ∈ past → i ∈ h.children ∧ ¬(s.processes i).Alive
  collected : ∀ i status, (i, status) ∈ s.collected → StatusFits B cs i status
  reaped : ∀ i ∈ h.children, s.processes i = .reaped → ∃ status, (i, status) ∈ s.collected
  written : ∀ dest, final B s rest dest = outcome B.output dest cs (written dest)
  forks : ∀ i ∈ h.children, i ∈ forks cs

/-! ### Steps of the children -/

/-- No process gets a pipe open by a step of a child. -/
theorem Moves.open_of_open (hm : Moves P h i s s') (h' : Consistent s h) (hs : Consistent s' h) {k : ℕ}
    (hopen : s'.Open (.pipe (.readEnd k))) : s.Open (.pipe (.readEnd k)) := by
  obtain ⟨-, htable, -, -, -, halive, p, hprocesses, -, hp⟩ := hm.frame (h'.process i)
  have hback : ∀ j, (s'.processes j).Alive → (s.processes j).Alive := fun j hj => by
    by_cases hji : j = i
    · exact hji ▸ halive
    · rwa [hprocesses, Function.update_of_ne hji] at hj
  rcases hs.open_readEnd hopen with hmem | ⟨j, hj, hw⟩ | ⟨command, stdin, table, hforked⟩
  · exact .inl (htable ▸ hmem)
  · exact (h'.alive_open (hback j hj)).2 k hw
  · by_cases hki : k = i
    · rw [hprocesses, hki, Function.update_self] at hforked
      exact absurd hforked (hp command stdin table)
    · have hp := h'.process k
      rw [hprocesses, Function.update_of_ne hki] at hforked
      rw [hforked] at hp
      refine .inr ⟨k, h'.forked ▸ h'.unwaited k hp.1, ?_⟩
      rw [hforked]
      exact hp.2.2.present _ (by simp)

theorem Moves.not_reaped (hm : Moves P h i s s') : s'.processes i ≠ .reaped := by
  cases hm <;> simp [System.setProcess]

/-- A pipe that is being copied is nobody's stdin. -/
theorem Consistent.head_copy (h' : Consistent s h) {dest : Dest} {calls : List Call}
    (hcalls : s.calls = .copy j dest :: calls) :
    j ∈ h.unread ∧ j ∈ h.children ∧ some (.pipe (.readEnd j)) ∈ s.table := by
  obtain ⟨h₁, hc, -, -⟩ := h'.next hcalls
  rw [Household.step] at hc
  split_ifs at hc with hcopy
  exact ⟨hcopy.1, hcopy.2.1, h'.table.present _ hcopy.2.2.1⟩

/-- What is at the end and how long it takes are seen on the pipes that are copied. -/
theorem final_congr (rest' : ℕ → List Byte) (hcalls : s'.calls = s.calls)
    (hwritten : s'.written = s.written)
    (hyet : ∀ j dest calls, s.calls = .copy j dest :: calls → yet s' rest' j = yet s rest j) :
    (∀ dest, final B s' rest' dest = final B s rest dest) ∧
      shellSteps B s' rest' = shellSteps B s rest := by
  constructor
  · intro dest
    rw [final, final, hcalls, hwritten]
    split
    · rename_i j d calls heq
      rw [hyet j d calls heq]
    · rfl
  · rw [shellSteps, shellSteps, hcalls]
    split
    · rename_i j d calls heq
      rw [hyet j d calls heq]
    · rfl

theorem Carries.childStep (hC : Carries P B input written cs s h past rest left) (hm : Moves P h i s s')
    {r : List Byte} {l : ℕ} (hpipes : ∀ k, k ∉ h.children → s'.pipes k = s.pipes k)
    (hyet : ∀ j, h.wiring i ≠ some j → yet s' (Function.update rest i r) j = yet s rest j)
    (hinput : ∀ k, k ≠ i → s'.input k = s.input k)
    (hdoing : Doing P B cs i (toRead s' h (Function.update rest i r) i) r l (s'.processes i))
    (hgone : ¬(s'.processes i).Alive → r = [] ∨ ¬s.Open (.pipe (.readEnd i))) (hl : l < left i) :
    Carries P B input written cs s' h past (Function.update rest i r) (Function.update left i l) ∧
      stepsLeft B cs s' (Function.update rest i r) (Function.update left i l) <
        stepsLeft B cs s rest left := by
  have h' := hC.consistent
  have hconsistent : Consistent s' h := h'.child (h'.childStep_iff.mpr hm)
  obtain ⟨hcalls, -, -, hcollected, hwritten, halive, p, hprocesses, -, -⟩ := hm.frame (h'.process i)
  have hi : i ∈ h.children := h'.unwaited i ((h'.process i).alive_table halive).1
  have hother : ∀ {k}, k ≠ i → s'.processes k = s.processes k := fun hk => by
    rw [hprocesses, Function.update_of_ne hk]
  have hclosed : ∀ {k}, ¬s.Open (.pipe (.readEnd k)) → ¬s'.Open (.pipe (.readEnd k)) :=
    fun hnot hopen => hnot (hm.open_of_open h' hconsistent hopen)
  have hunread : ∀ j ∈ h.unread, yet s' (Function.update rest i r) j = yet s rest j := fun j hj =>
    hyet j fun hw => (hC.wired.source i j hw).2 hj
  obtain ⟨hfinal, hshell⟩ := final_congr (B := B) (Function.update rest i r) hcalls hwritten
    fun j dest calls hcopy => hunread j (h'.head_copy hcopy).1
  refine ⟨⟨hconsistent, hC.wired, hcalls ▸ hC.calls, fun k hk => ?_, fun j hj hhead => ?_, fun k => ?_,
    fun k hk hdead => ?_, fun k dest hk => ?_, hcollected ▸ hC.collected, fun k hk hreaped => ?_,
    fun dest => (hfinal dest).trans (hC.written dest), hC.forks⟩, ?_⟩
  · have hki : k ≠ i := fun hki => hk (hki ▸ hi)
    rw [Function.update_of_ne hki, Function.update_of_ne hki, hpipes k hk, hinput k hki]
    exact hC.fresh k hk
  · rw [hunread j hj]
    exact hC.unread j hj (hcalls ▸ hhead)
  · by_cases hki : k = i
    · subst hki
      rwa [Function.update_self, Function.update_self]
    · rw [Function.update_of_ne hki, Function.update_of_ne hki, hother hki]
      have hread : toRead s' h (Function.update rest i r) k = toRead s h rest k := by
        rw [toRead, toRead]
        cases hw : h.wiring k with
        | none => exact hinput k hki
        | some j => exact hyet j fun hwi => hki (hC.wired.once k i j hw hwi)
      rw [hread]
      exact hC.doing k
  · by_cases hki : k = i
    · subst hki
      rw [Function.update_self]
      exact (hgone hdead).imp_right hclosed
    · rw [hother hki] at hdead
      rw [Function.update_of_ne hki]
      exact (hC.gone k hk hdead).imp_right hclosed
  · obtain ⟨hchild, hdead⟩ := hC.copied k dest hk
    have hki : k ≠ i := fun hki => hdead (hki ▸ halive)
    exact ⟨hchild, (hother hki).symm ▸ hdead⟩
  · have hki : k ≠ i := fun hki => hm.not_reaped (hki ▸ hreaped)
    rw [hcollected]
    exact hC.reaped k hk (hother hki ▸ hreaped)
  · rw [stepsLeft, stepsLeft, hshell]
    refine Nat.add_lt_add_left (List.sum_lt_sum _ _ (fun k _ => ?_) ⟨i, hC.forks i hi, ?_⟩) _
    · by_cases hki : k = i
      · rw [hki, Function.update_self]
        exact Nat.le_of_lt hl
      · rw [Function.update_of_ne hki]
    · rwa [Function.update_self]

/-- A step that moves no bytes. -/
theorem yet_update_self (hpipes : s'.pipes = s.pipes) :
    yet s' (Function.update rest i (rest i)) j = yet s rest j := by
  rw [Function.update_eq_self, yet, yet, hpipes]

theorem toRead_congr {rest' : ℕ → List Byte} (hinput : s'.input i = s.input i)
    (hyet : ∀ j, h.wiring i = some j → yet s' rest' j = yet s rest j) :
    toRead s' h rest' i = toRead s h rest i := by
  rw [toRead, toRead]
  cases hw : h.wiring i with
  | none => exact hinput
  | some j => exact hyet j hw

/-- A byte has been taken from a pipe. -/
theorem yet_setPipe {p : Process σ} {bs : List Byte} {k : ℕ} (hk : k ≠ j) :
    yet ((s.setPipe j bs).setProcess i p) rest k = yet s rest k := by
  show Function.update s.pipes j bs k ++ rest k = _
  rw [Function.update_of_ne hk]
  rfl

theorem Carries.child (hC : Carries P B input written cs s h past rest left)
    (hs : s.childStep P i = some s') : ∃ rest' left',
    Carries P B input written cs s' h past rest' left' ∧
      stepsLeft B cs s' rest' left' < stepsLeft B cs s rest left := by
  have h' := hC.consistent
  have hm := h'.childStep_iff.mp hs
  have hdoing := hC.doing i
  have hself : ∀ {p : Process σ} (t : System σ), (t.setProcess i p).processes i = p := fun t =>
    Function.update_self ..
  have hruns : ∀ {table : FdTable} {p : σ} (t : System σ),
      ((t.setProcess i (.running table p)).processes i).Alive := fun t => by
    rw [hself]
    trivial
  cases hm with
  | arrange hprocess =>
    rw [hprocess] at hdoing
    obtain ⟨n, hn, hbehaves⟩ := hdoing
    refine ⟨_, _, hC.childStep (.arrange hprocess) (r := rest i) (l := n) (fun _ _ => rfl)
      (fun j _ => yet_update_self rfl) (fun _ _ => rfl) ?_ (fun hnot => absurd (hruns _) hnot)
      (by omega)⟩
    rw [hself, toRead_congr rfl fun j _ => yet_update_self rfl]
    exact hbehaves
  | exit hprocess hact =>
    rw [hprocess] at hdoing
    obtain ⟨hrest, hstatus, hone⟩ := Behaves.of_exit hdoing hact
    refine ⟨_, _, hC.childStep (.exit hprocess hact) (r := rest i) (l := 0) (fun _ _ => rfl)
      (fun j _ => yet_update_self rfl) (fun _ _ => rfl) ?_ (fun _ => .inl hrest) (by omega)⟩
    rw [hself]
    exact .inl hstatus.symm
  | input hprocess hact hw hinput =>
    rw [hprocess] at hdoing
    rw [toRead, hw, Option.elim_none, hinput] at hdoing
    obtain ⟨n, hn, hbehaves⟩ := Behaves.of_read hdoing hact
    refine ⟨_, _, hC.childStep (.input hprocess hact hw hinput) (r := rest i) (l := n) (fun _ _ => rfl)
      (fun j _ => yet_update_self rfl) (fun k hk => Function.update_of_ne hk ..) ?_
      (fun hnot => absurd (hruns _) hnot) (by omega)⟩
    rw [hself, toRead, hw]
    show Behaves _ _ (Function.update s.input i _ i) _ _ _
    rwa [Function.update_self]
  | inputEnd hprocess hact hw hinput =>
    rw [hprocess] at hdoing
    rw [toRead, hw, Option.elim_none, hinput] at hdoing
    obtain ⟨n, hn, hbehaves⟩ := Behaves.of_eof hdoing hact
    refine ⟨_, _, hC.childStep (.inputEnd hprocess hact hw hinput) (r := rest i) (l := n)
      (fun _ _ => rfl) (fun j _ => yet_update_self rfl) (fun _ _ => rfl) ?_
      (fun hnot => absurd (hruns _) hnot) (by omega)⟩
    rw [hself, toRead, hw]
    show Behaves _ _ (s.input i) _ _ _
    rwa [hinput]
  | @read table p k j b bs hprocess hact hw hpipe =>
    rw [hprocess] at hdoing
    have hread : yet s rest j = b :: (bs ++ rest j) := by rw [yet, hpipe, List.cons_append]
    rw [toRead, hw, Option.elim_some, hread] at hdoing
    obtain ⟨n, hn, hbehaves⟩ := Behaves.of_read hdoing hact
    refine ⟨_, _, hC.childStep (.read hprocess hact hw hpipe) (r := rest i) (l := n) (fun k hk => ?_)
      (fun k hk => ?_) (fun _ _ => rfl) ?_ (fun hnot => absurd (hruns _) hnot) (by omega)⟩
    · have hkj : k ≠ j := fun hkj => hk (hkj ▸ (hC.wired.source i j hw).1)
      exact Function.update_of_ne hkj ..
    · rw [Function.update_eq_self]
      exact yet_setPipe fun hkj => hk (hkj ▸ hw)
    · rw [hself, toRead, hw, Option.elim_some, Function.update_eq_self]
      show Behaves _ _ (Function.update s.pipes j bs j ++ rest j) _ _ _
      rwa [Function.update_self]
  | @eof table p k j hprocess hact hw hpipe hopen =>
    rw [hprocess] at hdoing
    have hdead : ¬(s.processes j).Alive := fun halive => hopen (h'.alive_open halive).1
    have halive : (s.processes i).Alive := by rw [hprocess]; trivial
    have hrest : rest j = [] := (hC.gone j (hC.wired.source i j hw).1 hdead).resolve_right
      (not_not.mpr ((h'.alive_open halive).2 j hw))
    rw [toRead, hw, Option.elim_some, yet, hpipe, hrest, List.append_nil] at hdoing
    obtain ⟨n, hn, hbehaves⟩ := Behaves.of_eof hdoing hact
    refine ⟨_, _, hC.childStep (.eof hprocess hact hw hpipe hopen) (r := rest i) (l := n)
      (fun _ _ => rfl) (fun j _ => yet_update_self rfl) (fun _ _ => rfl) ?_
      (fun hnot => absurd (hruns _) hnot) (by omega)⟩
    rw [hself, toRead, hw, Option.elim_some, Function.update_eq_self]
    show Behaves _ _ (s.pipes j ++ rest j) _ _ _
    rwa [hpipe, hrest]
  | @write table p q b hprocess hact hopen hroom =>
    rw [hprocess] at hdoing
    obtain ⟨r, n, hr, hn, hbehaves⟩ := Behaves.of_write hdoing hact
    have hyet : ∀ j, yet ((s.setPipe i (s.pipes i ++ [b])).setProcess i (.running table q))
        (Function.update rest i r) j = yet s rest j := by
      intro j
      show Function.update s.pipes i _ j ++ Function.update rest i r j = s.pipes j ++ rest j
      by_cases hji : j = i
      · rw [hji, Function.update_self, Function.update_self, hr, List.append_assoc]
        rfl
      · rw [Function.update_of_ne hji, Function.update_of_ne hji]
    refine ⟨_, _, hC.childStep (.write hprocess hact hopen hroom) (r := r) (l := n) (fun k hk => ?_)
      (fun j _ => hyet j) (fun _ _ => rfl) ?_ (fun hnot => absurd (hruns _) hnot) (by omega)⟩
    · have hki : k ≠ i := fun hki => hk (hki ▸ h'.unwaited i ((h'.process i).alive_table
        (by rw [hprocess]; trivial)).1)
      exact Function.update_of_ne hki ..
    · have hread : toRead ((s.setPipe i (s.pipes i ++ [b])).setProcess i (.running table q)) h
          (Function.update rest i r) i = toRead s h rest i := toRead_congr rfl fun j _ => hyet j
      rw [hself, hread]
      exact hbehaves
  | killed hprocess hact hopen =>
    rw [hprocess] at hdoing
    have hpos := Behaves.pos hdoing
    refine ⟨_, _, hC.childStep (.killed hprocess hact hopen) (r := rest i) (l := 0) (fun _ _ => rfl)
      (fun j _ => yet_update_self rfl) (fun _ _ => rfl) ?_ (fun _ => .inr hopen) hpos⟩
    rw [hself]
    refine .inr ⟨rfl, fun dest => ?_⟩
    have halive : (s.processes i).Alive := by rw [hprocess]; trivial
    rw [hC.calls, List.mem_append, not_or]
    refine ⟨fun hpast => (hC.copied i dest hpast).2 halive, ?_⟩
    obtain ⟨h₂, hkeeps, -⟩ := h'.keeps
    exact Household.not_copied hkeeps (h'.unwaited i ((h'.process i).alive_table halive).1)
      (fun hmem => hopen (.inl (h'.table.present _ hmem))) dest

/-! ### Steps of the shell -/

/-- What is at the end and how long it takes, when no pipe is half copied. -/
theorem final_eq (h' : Consistent s h) (hyet : ∀ j ∈ h.unread, yet s rest j = B.output j) :
    (∀ dest, final B s rest dest = outcome B.output dest s.calls (s.written dest)) ∧
      shellSteps B s rest = callSteps B.output s.calls := by
  constructor
  · intro dest
    rw [final]
    split
    · rename_i j d calls heq
      rw [hyet j (h'.head_copy heq).1, heq]
      rfl
    · rfl
  · rw [shellSteps]
    split
    · rename_i j d calls heq
      rw [hyet j (h'.head_copy heq).1, heq]
      rfl
    · rfl

/-- What the shell makes of the system when it is through with a call. -/
structure Made (s : System σ) (c : Call) (s' : System σ) : Prop where
  calls : s.calls = c :: s'.calls
  input : s'.input = s.input
  pipes : ∀ k, s'.pipes k = s.pipes k ∨ c = .pipe k ∧ s'.pipes k = []
  processes : ∀ k, (∀ command stdin, c ≠ .fork k command stdin) ∧
      (s'.processes k = s.processes k ∨ s'.processes k = .reaped ∧ ¬(s.processes k).Alive ∧
        ∃ status, (k, status) ∈ s'.collected) ∨
    ∃ command stdin, c = .fork k command stdin ∧ s'.processes k = .forked command stdin s.table
  collected : ∀ i status, (i, status) ∈ s'.collected →
    (i, status) ∈ s.collected ∨ s.processes i = .ended status
  kept : s.collected ⊆ s'.collected
  copied : ∀ i dest, c = .copy i dest → s.pipes i = [] ∧ ¬s.Open (.pipe (.writeEnd i))
  written : ∀ dest, s'.written dest = c.write (fun _ => []) dest (s.written dest)

/-- A call makes no child alive that has been forked before, and ends none. -/
theorem Made.alive_iff (hm : Made s c s') (hc : h.step c = some h₁) (hk : k ∈ h.children) :
    (s'.processes k).Alive ↔ (s.processes k).Alive := by
  rcases hm.processes k with ⟨-, heq | ⟨heq, hdead, -⟩⟩ | ⟨command, stdin, rfl, -⟩
  · rw [heq]
  · rw [heq]
    exact ⟨fun halive => halive.elim, fun halive => (hdead halive).elim⟩
  · exact absurd hk (Household.step_fork hc).1

/-- Nobody gets a pipe of a child open by a call. -/
theorem Made.open_of_open (hm : Made s c s') (h' : Consistent s h) (hc : h.step c = some h₁)
    (hs : Consistent s' h₁) (hk : k ∈ h.children) (hopen : s'.Open (.pipe (.readEnd k))) :
    s.Open (.pipe (.readEnd k)) := by
  rcases hopen with hmem | ⟨i, -, hmem⟩
  · exact .inl (h'.table.present _
      (Household.held_of_step hc hk (.inl rfl) ((hs.table.mem_iff rfl).mp hmem)))
  · rcases hm.processes i with ⟨-, heq | ⟨heq, -⟩⟩ | ⟨command, stdin, rfl, heq⟩
    · rw [heq] at hmem
      obtain ⟨halive, -⟩ := (h'.process i).mem_table hmem
      exact .inr ⟨i, h'.forked ▸ h'.unwaited i ((h'.process i).alive_table halive).1, hmem⟩
    · rw [heq] at hmem
      cases hmem
    · rw [heq] at hmem
      exact .inl hmem

/-- What a call makes of the destinations, and that it takes a step. -/
theorem Carries.final_cons (hC : Carries P B input written cs s h past rest left) (hm : Made s c s') :
    (∀ dest, outcome B.output dest s'.calls (c.write (fun _ => []) dest (s.written dest)) =
      final B s rest dest) ∧ callSteps B.output s'.calls < shellSteps B s rest := by
  have hcalls := hm.calls
  cases c with
  | copy i d =>
    -- nobody can write to the pipe any more
    obtain ⟨hpipe, hopen⟩ := hm.copied i d rfl
    obtain ⟨-, hchild, hread⟩ := hC.consistent.head_copy hcalls
    have hrest : rest i = [] := (hC.gone i hchild fun halive =>
      hopen (hC.consistent.alive_open halive).1).resolve_right (not_not.mpr (.inl hread))
    have hyet : yet s rest i = [] := by rw [yet, hpipe, hrest]; rfl
    refine ⟨fun dest => ?_, ?_⟩
    · rw [final, hcalls, Call.write]
      simp only [hyet]
    · rw [shellSteps, hcalls]
      exact Nat.lt_add_of_pos_left (Nat.succ_pos _)
  | _ =>
    refine ⟨fun dest => ?_, ?_⟩
    · rw [final, hcalls]
      rfl
    · rw [shellSteps, hcalls]
      exact Nat.lt_add_of_pos_left Nat.one_pos

theorem Carries.made (hC : Carries P B input written cs s h past rest left)
    (hB : Explains P input B cs) (hm : Made s c s') (hc : h.step c = some h₁) (hs : Consistent s' h₁) :
    Carries P B input written cs s' h₁ (past ++ [c]) rest left ∧
      stepsLeft B cs s' rest left < stepsLeft B cs s rest left := by
  have h' := hC.consistent
  have hcs : cs = (past ++ [c]) ++ s'.calls := by
    rw [hC.calls, hm.calls, List.append_assoc]
    rfl
  have hmono : ∀ {k}, k ∉ h₁.children → k ∉ h.children := fun hk hmem =>
    hk (Household.mem_children_of_step hc hmem)
  have hpipes : s'.pipes = s.pipes := by
    funext k
    rcases hm.pipes k with heq | ⟨rfl, heq⟩
    · exact heq
    · rw [Household.step] at hc
      split_ifs at hc with hpipe
      rw [heq, (hC.fresh k hpipe.1).1]
  have hyet : ∀ j, yet s' rest j = yet s rest j := fun j => by rw [yet, yet, hpipes]
  have hdone : ∀ j ∈ h.unread, (∀ dest, c ≠ .copy j dest) → yet s rest j = B.output j :=
    fun j hj hcopy => hC.unread j hj fun dest => by
      rw [hm.calls, List.head?_cons, Ne, Option.some.injEq]
      exact hcopy dest
  have hunread : ∀ j ∈ h₁.unread, yet s' rest j = B.output j := fun j hj => by
    rw [hyet]
    rcases Household.unread_of_step hc hj with ⟨hj, hcopy⟩ | hnew
    · exact hdone j hj hcopy
    · obtain ⟨hempty, hrest, -⟩ := hC.fresh j hnew
      rw [yet, hempty, hrest]
      rfl
  obtain ⟨hfinal, hshell⟩ := final_eq hs hunread
  obtain ⟨hwritten, hsteps⟩ := hC.final_cons hm
  refine ⟨⟨hs, hC.wired.step hc, hcs, fun k hk => ?_, fun j hj _ => hunread j hj, fun k => ?_,
    fun k hk hdead => ?_, fun k dest hk => ?_, fun k status hk => ?_, fun k hk hreaped => ?_, fun dest => ?_,
    fun k hk => ?_⟩, ?_⟩
  · rw [hpipes, hm.input]
    exact hC.fresh k (hmono hk)
  · rcases hm.processes k with ⟨hfork, heq | ⟨heq, -⟩⟩ | ⟨command, stdin, rfl, heq⟩
    · have hsame : yet s' rest = yet s rest := funext hyet
      rw [heq, toRead, Household.wiring_of_step hc hfork, hm.input, hsame]
      exact hC.doing k
    · rw [heq]
      trivial
    · obtain ⟨hnew, hstdin, hwiring⟩ := Household.step_fork hc
      obtain ⟨-, hrest, hinput, hleft⟩ := hC.fresh k hnew
      have hread : toRead s' h₁ rest k = B.incoming input k stdin := by
        rw [toRead, hwiring, Behaviour.incoming]
        cases stdin with
        | none => exact (congrFun hm.input k).trans hinput
        | some j =>
          exact (hyet j).trans (hdone j (hstdin j rfl).1 (by simp))
      rw [heq, hread, hrest, hleft]
      refine ⟨_, rfl, hB k command stdin ?_⟩
      rw [hcs]
      simp
  · have hold : k ∈ h.children := by
      rcases Household.children_of_step hc hk with hold | ⟨command, stdin, rfl⟩
      · exact hold
      · rcases hm.processes k with ⟨hfork, -⟩ | ⟨_, _, -, heq⟩
        · exact absurd rfl (hfork command stdin)
        · rw [heq] at hdead
          exact absurd trivial hdead
    exact (hC.gone k hold (fun halive => hdead ((hm.alive_iff hc hold).mpr halive))).imp_right
      fun hnot hopen => hnot (hm.open_of_open h' hc hs hold hopen)
  · have hold : k ∈ h.children ∧ ¬(s.processes k).Alive := by
      rcases List.mem_append.mp hk with hk | hk
      · exact hC.copied k dest hk
      · obtain rfl := List.mem_singleton.mp hk
        refine ⟨(h'.head_copy hm.calls).2.1, fun halive => ?_⟩
        exact (hm.copied k dest rfl).2 (h'.alive_open halive).1
    exact ⟨Household.mem_children_of_step hc hold.1, fun halive =>
      hold.2 ((hm.alive_iff hc hold.1).mp halive)⟩
  · rcases hm.collected k status hk with hk | hended
    · exact hC.collected k status hk
    · have hdoing := hC.doing k
      rw [hended] at hdoing
      exact hdoing
  · rcases hm.processes k with ⟨hfork, heq | ⟨-, -, hcollected⟩⟩ | ⟨_, _, -, heq⟩
    · rcases Household.children_of_step hc hk with hold | ⟨command, stdin, rfl⟩
      · obtain ⟨status, hstatus⟩ := hC.reaped k hold (heq ▸ hreaped)
        exact ⟨status, hm.kept hstatus⟩
      · exact absurd rfl (hfork command stdin)
    · exact hcollected
    · rw [heq] at hreaped
      cases hreaped
  · rw [hfinal, hm.written, hwritten, hC.written]
  · rcases Household.children_of_step hc hk with hold | ⟨command, stdin, rfl⟩
    · exact hC.forks k hold
    · exact mem_forks.mpr ⟨command, stdin, by rw [hcs]; simp⟩
  · rw [stepsLeft, stepsLeft, hshell]
    exact Nat.add_lt_add_right hsteps _

/-- A byte is copied. -/
theorem Carries.byte (hC : Carries P B input written cs s h past rest left) {dest : Dest}
    {calls : List Call} {b : Byte} {bs : List Byte} (hcalls : s.calls = .copy i dest :: calls)
    (hpipe : s.pipes i = b :: bs) {s' : System σ}
    (hs' : s' = (s.setPipe i bs).setWritten dest (s.written dest ++ [b])) :
    Carries P B input written cs s' h past rest left ∧
      stepsLeft B cs s' rest left < stepsLeft B cs s rest left := by
  have h' := hC.consistent
  obtain ⟨hunread, hchild, -⟩ := h'.head_copy hcalls
  have hs : Consistent s' h := by
    subst hs'
    exact ⟨h'.keeps, h'.table, h'.forked, h'.unwaited, h'.order, h'.process⟩
  have hcalls' : s'.calls = .copy i dest :: calls := by rw [hs', ← hcalls]; rfl
  have hprocesses : s'.processes = s.processes := by rw [hs']; rfl
  have hpipes : ∀ {k}, k ≠ i → s'.pipes k = s.pipes k := fun hk => by
    rw [hs']
    exact Function.update_of_ne hk ..
  have hother : ∀ {k}, k ≠ i → yet s' rest k = yet s rest k := fun hk => by
    rw [yet, yet, hpipes hk]
  have hself : yet s rest i = b :: yet s' rest i := by
    rw [yet, yet, hpipe, hs']
    show _ = b :: (Function.update s.pipes i bs i ++ rest i)
    rw [Function.update_self]
    rfl
  have hopen : ∀ {k}, s'.Open (.pipe (.readEnd k)) → s.Open (.pipe (.readEnd k)) := fun hopen => by
    rwa [hs'] at hopen
  refine ⟨⟨hs, hC.wired, ?_, fun k hk => ?_, fun j hj hhead => ?_, fun k => ?_, fun k hk hdead => ?_,
    fun k d hk => ?_, ?_, ?_, fun d => ?_, hC.forks⟩, ?_⟩
  · rw [hcalls', ← hcalls]
    exact hC.calls
  · have hki : k ≠ i := fun hki => hk (hki ▸ hchild)
    rw [hpipes hki, show s'.input = s.input by rw [hs']; rfl]
    exact hC.fresh k hk
  · have hji : j ≠ i := fun hji => hhead dest (by rw [hcalls', hji]; rfl)
    rw [hother hji]
    exact hC.unread j hj fun d => by
      rw [hcalls, ← hcalls']
      exact hhead d
  · have hread : toRead s' h rest k = toRead s h rest k := toRead_congr (by rw [hs']; rfl) fun j hj =>
      hother fun hji => (hC.wired.source k j hj).2 (hji ▸ hunread)
    rw [hprocesses, hread]
    exact hC.doing k
  · exact (hC.gone k hk (hprocesses ▸ hdead)).imp_right fun hnot => hnot ∘ hopen
  · rw [hprocesses]
    exact hC.copied k d hk
  · rw [show s'.collected = s.collected by rw [hs']; rfl]
    exact hC.collected
  · rw [hprocesses, show s'.collected = s.collected by rw [hs']; rfl]
    exact hC.reaped
  · rw [← hC.written d, final, final, hcalls, hcalls']
    simp only [hself]
    by_cases hd : dest = d
    · subst hd
      have hwritten : s'.written dest = s.written dest ++ [b] := by
        rw [hs']
        exact Function.update_self ..
      rw [if_pos rfl, if_pos rfl, hwritten, List.append_assoc]
      rfl
    · have hwritten : s'.written d = s.written d := by
        rw [hs']
        exact Function.update_of_ne (Ne.symm hd) ..
      rw [if_neg hd, if_neg hd, hwritten]
  · rw [stepsLeft, stepsLeft, shellSteps, shellSteps, hcalls, hcalls']
    simp only [hself, List.length_cons]
    omega

/-- The calls that are made for no child. -/
theorem Carries.other (hC : Carries P B input written cs s h past rest left) (hB : Explains P input B cs)
    (hcalls : s.calls = c :: s'.calls) (hfork : ∀ i command stdin, c ≠ .fork i command stdin)
    (hwait : ∀ i, c ≠ .waitpid i) (htable : s'.table = c.act s.table) (hforked : s'.forked = s.forked)
    (hprocesses : s'.processes = s.processes) (hinput : s'.input = s.input)
    (hcollected : s'.collected = s.collected)
    (hpipes : ∀ k, s'.pipes k = s.pipes k ∨ c = .pipe k ∧ s'.pipes k = [])
    (hcopied : ∀ i dest, c = .copy i dest → s.pipes i = [] ∧ ¬s.Open (.pipe (.writeEnd i)))
    (hwritten : ∀ dest, s'.written dest = c.write (fun _ => []) dest (s.written dest)) :
    ∃ h₁ past', Carries P B input written cs s' h₁ past' rest left ∧
      stepsLeft B cs s' rest left < stepsLeft B cs s rest left := by
  obtain ⟨h₁, hc, h₁'⟩ := hC.consistent.other hcalls hfork hwait
  refine ⟨h₁, past ++ [c], hC.made hB ⟨hcalls, hinput, hpipes, fun k => .inl ⟨hfork k, .inl ?_⟩,
    fun k status hk => .inl ?_, ?_, hcopied, hwritten⟩ hc (h₁' s' rfl htable hforked hprocesses)⟩
  · rw [hprocesses]
  · rwa [← hcollected]
  · rw [hcollected]
    exact List.Subset.refl _

theorem Carries.shell (hC : Carries P B input written cs s h past rest left) (hB : Explains P input B cs)
    (hs : s.shellStep = some s') : ∃ h₁ past', Carries P B input written cs s' h₁ past' rest left ∧
      stepsLeft B cs s' rest left < stepsLeft B cs s rest left := by
  cases shellStep_iff.mp hs with
  | @pipe i calls hcalls =>
    refine hC.other hB hcalls nofun nofun rfl rfl rfl rfl rfl (fun k => ?_) nofun fun _ => rfl
    show Function.update s.pipes i [] k = _ ∨ _ ∧ Function.update s.pipes i [] k = _
    by_cases hki : k = i
    · subst hki
      exact .inr ⟨rfl, Function.update_self ..⟩
    · exact .inl (Function.update_of_ne hki ..)
  | @fork i command stdin calls hcalls =>
    obtain ⟨h₁, hc, h₁'⟩ := hC.consistent.forkStep hcalls
    refine ⟨h₁, _, hC.made hB ⟨hcalls, rfl, fun _ => .inl rfl, fun k => ?_, fun _ _ hk => .inl hk,
      List.Subset.refl _, nofun, fun _ => rfl⟩ hc h₁'⟩
    by_cases hki : k = i
    · subst hki
      exact .inr ⟨command, stdin, rfl, Function.update_self ..⟩
    · refine .inl ⟨?_, .inl (Function.update_of_ne hki ..)⟩
      rintro _ _ heq
      exact hki (Call.fork.inj heq).1.symm
  | byte hcalls hpipe => exact ⟨h, past, hC.byte hcalls hpipe rfl⟩
  | @copied i dest calls hcalls hpipe hopen =>
    refine hC.other hB hcalls nofun nofun rfl rfl rfl rfl rfl (fun _ => .inl rfl) ?_ fun d => ?_
    · rintro k d heq
      obtain ⟨rfl, -⟩ := Call.copy.inj heq
      exact ⟨hpipe, hopen⟩
    · rw [Call.write]
      split_ifs
      · exact (List.append_nil _).symm
      · rfl
  | close hcalls =>
    exact hC.other hB hcalls nofun nofun rfl rfl rfl rfl rfl (fun _ => .inl rfl) nofun fun _ => rfl
  | @fopen name overwrite calls hcalls =>
    cases overwrite with
    | false =>
      refine hC.other hB hcalls nofun nofun rfl rfl rfl rfl rfl (fun _ => .inl rfl) nofun fun d => ?_
      show s.written d = if false ∧ d = .file name then [] else s.written d
      rw [if_neg fun hand => Bool.false_ne_true hand.1]
    | true =>
      refine hC.other hB hcalls nofun nofun rfl rfl rfl rfl rfl (fun _ => .inl rfl) nofun fun d => ?_
      rw [Call.write]
      show Function.update s.written (.file name) [] d = _
      by_cases hd : d = .file name
      · rw [if_pos ⟨rfl, hd⟩, hd, Function.update_self]
      · rw [if_neg fun hand => hd hand.2, Function.update_of_ne hd]
  | fclose hcalls =>
    exact hC.other hB hcalls nofun nofun rfl rfl rfl rfl rfl (fun _ => .inl rfl) nofun fun _ => rfl
  | @waitpid i calls status hcalls hprocess =>
    obtain ⟨h₁, hc, h₁'⟩ := hC.consistent.waitStep hcalls
    refine ⟨h₁, _, hC.made hB ⟨hcalls, rfl, fun _ => .inl rfl, fun k => .inl ⟨nofun, ?_⟩,
      fun k st hk => ?_, List.subset_append_left _ _, nofun, fun _ => rfl⟩ hc (h₁' _ rfl rfl rfl rfl)⟩
    · by_cases hki : k = i
      · subst hki
        refine .inr ⟨Function.update_self .., ?_, status, by simp⟩
        rw [hprocess]
        exact id
      · exact .inl (Function.update_of_ne hki ..)
    · rcases List.mem_append.mp hk with hk | hk
      · exact .inl hk
      · obtain ⟨rfl, rfl⟩ := Prod.mk.inj (List.mem_singleton.mp hk)
        exact .inr hprocess
  | @noChild i calls hcalls hprocess =>
    obtain ⟨h₁, hc, h₁'⟩ := hC.consistent.waitStep hcalls
    refine ⟨h₁, _, hC.made hB ⟨hcalls, rfl, fun _ => .inl rfl, fun k => .inl ⟨nofun, .inl rfl⟩,
      fun _ _ hk => .inl hk, List.Subset.refl _, nofun, fun _ => rfl⟩ hc (h₁' _ rfl rfl rfl ?_)⟩
    rw [← hprocess, Function.update_eq_self]
    rfl
  | fcloseStdin hcalls =>
    exact hC.other hB hcalls nofun nofun rfl rfl rfl rfl rfl (fun _ => .inl rfl) nofun fun _ => rfl

/-! ### Whole runs -/

theorem carries_initial (hcs : ∃ h, Household.empty.Keeps cs h ∧ h.held = [] ∧ h.unwaited = [])
    (input : ℕ → List Byte) (written : Dest → List Byte) :
    Carries P B input written cs (System.initial cs input written) .empty [] B.output
      (fun i => B.steps i + 1) ∧
      stepsLeft B cs (System.initial cs input written : System σ) B.output (fun i => B.steps i + 1) =
        runSteps B cs := by
  have h' := consistent_initial (σ := σ) hcs input written
  obtain ⟨hfinal, hshell⟩ := final_eq (B := B) h' nofun
  refine ⟨⟨h', .empty, rfl, fun i _ => ⟨rfl, rfl, rfl, rfl⟩, nofun, fun i => trivial, nofun, nofun, nofun,
    nofun, hfinal, nofun⟩, ?_⟩
  rw [stepsLeft, hshell]
  rfl

/-- After every run the outputs are on their way, and the steps of the run have been taken from those that
there were. -/
theorem carries_run (hcs : ∃ h, Household.empty.Keeps cs h ∧ h.held = [] ∧ h.unwaited = [])
    (hB : Explains P input B cs) {as : List Actor}
    (hrun : Run (System.Step P) (System.initial cs input written) as s) :
    ∃ h past rest left, Carries P B input written cs s h past rest left ∧
      as.length + stepsLeft B cs s rest left ≤ runSteps B cs := by
  refine hrun.trace_invariant (I := fun as s => ∃ h past rest left,
    Carries P B input written cs s h past rest left ∧
      as.length + stepsLeft B cs s rest left ≤ runSteps B cs) ?_ ?_
  · obtain ⟨hC, hsteps⟩ := carries_initial (P := P) (B := B) hcs input written
    exact ⟨_, _, _, _, hC, by simp [hsteps]⟩
  · rintro as t a u - ⟨h, past, rest, left, hC, hle⟩ hs
    rw [List.length_append, List.length_singleton]
    cases a with
    | shell =>
      obtain ⟨h₁, past', hC', hlt⟩ := hC.shell hB hs
      exact ⟨_, _, _, _, hC', by omega⟩
    | child i =>
      obtain ⟨rest', left', hC', hlt⟩ := hC.child hs
      exact ⟨_, _, _, _, hC', by omega⟩

/-- What a run comes to. -/
theorem run_outcome (hcs : ∃ h, Household.empty.Keeps cs h ∧ h.held = [] ∧ h.unwaited = [])
    (hB : Explains P input B cs) {as : List Actor}
    (hrun : Run (System.Step P) (System.initial cs input written) as s) :
    as.length ≤ runSteps B cs ∧
      (s.calls = [] → (∀ dest, s.written dest = outcome B.output dest cs (written dest)) ∧
        (∀ i status, (i, status) ∈ s.collected → StatusFits B cs i status) ∧
        ∀ i dest, .copy i dest ∈ cs → (i, B.status i) ∈ s.collected) := by
  obtain ⟨h, past, rest, left, hC, hle⟩ := carries_run hcs hB hrun
  refine ⟨by omega, fun hcalls => ⟨fun dest => ?_, hC.collected, fun i dest hcopy => ?_⟩⟩
  · rw [← hC.written dest, final, hcalls]
    rfl
  · have hpast : .copy i dest ∈ past := by
      have hcs := hC.calls
      rw [hcalls, List.append_nil] at hcs
      exact hcs ▸ hcopy
    obtain ⟨status, hstatus⟩ := hC.reaped i (hC.copied i dest hpast).1
      ((hC.consistent.finished hcalls).1 i)
    have hfits := (hC.collected i status hstatus).resolve_right fun hkilled => hkilled.2 dest hcopy
    rwa [hfits] at hstatus

/-- Whatever the order of the steps and however much a pipe holds, the line comes to its end in so many
steps at most, and then every destination holds what the programs make of their inputs when each of them is
alone, with the output of a command for the input of the next one. The statuses are theirs too, but for a
child that was killed because the shell never read its pipe, and none is missing of those that were
copied. -/
theorem line_outcome {env : Env} {commands : List Command} {e : ℤ} {τ : Eval}
    (h : runLine env commands e = some (.foreground τ)) (hB : Explains P input B τ.calls)
    {as : List Actor} (hrun : Run (System.Step P) (System.initial τ.calls input written) as s) :
    as.length ≤ runSteps B τ.calls ∧
      (s.calls = [] → (∀ dest, s.written dest = outcome B.output dest τ.calls (written dest)) ∧
        (∀ i status, (i, status) ∈ s.collected → StatusFits B τ.calls i status) ∧
        ∀ i dest, .copy i dest ∈ τ.calls → (i, B.status i) ∈ s.collected) :=
  run_outcome (runLine_keeps h) hB hrun

end

/-- Two programs: one writes a letter, the other copies its input. -/
inductive Letters
  | letter | copies | puts (b : Byte) | ends

def Letters.act : Letters → Action Byte WaitStatus Letters
  | letter => .write (byte 'a') ends
  | copies => .read fun b => b.elim ends puts
  | puts b => .write b copies
  | ends => .exit (.exited 0)

def letters : Programs Letters :=
  ⟨Letters.act, fun c => if c = echoCommand.1 then .letter else .copies, 1, Nat.one_pos⟩

theorem letters_echo (input : List Byte) :
    Behaves Letters.act .letter input [byte 'a'] (.exited 0) 2 := .write rfl (.exit rfl)

theorem letters_cat (input : List Byte) :
    Behaves Letters.act .copies input input (.exited 0) (2 * input.length + 2) := by
  induction input with
  | nil => exact .eof rfl (.exit rfl)
  | cons b input ih => exact .read rfl (.write rfl ih)

/-- `echo | cat`, from its first call to its last. -/
theorem line_outcome_echo : ∃ τ s, runLine ⟨fun _ => .exited 0, .exited 0⟩
      (Line.pipeline ⟨echoCommand, [catCommand]⟩).commands 0 = some (.foreground τ) ∧
    Run (System.Step letters) (System.initial τ.calls (fun _ => []) fun _ => [])
      [.shell, .shell, .shell, .child 0, .shell, .child 0, .shell, .child 2, .shell, .child 2, .child 0,
        .child 2, .shell, .child 2, .child 2, .shell, .shell, .shell, .shell, .shell] s ∧
    s.written .stdout = [byte 'a'] := by
  obtain ⟨τ, hτ, hcalls⟩ := echo_cat_calls
  have hB : Explains letters (fun _ => []) ⟨fun _ => [byte 'a'], fun _ => .exited 0,
      fun i => if i = 0 then 2 else 4⟩ τ.calls := by
    intro i command stdin hmem
    rw [hcalls] at hmem
    simp only [List.mem_cons, reduceCtorEq, Call.fork.injEq, List.not_mem_nil, or_false, false_or] at hmem
    rcases hmem with ⟨rfl, rfl, rfl⟩ | ⟨rfl, rfl, rfl⟩
    · exact letters_echo _
    · exact letters_cat [byte 'a']
  obtain ⟨s, hs, hdone⟩ : ∃ s, [Actor.shell, .shell, .shell, .child 0, .shell, .child 0, .shell, .child 2,
      .shell, .child 2, .child 0, .child 2, .shell, .child 2, .child 2, .shell, .shell, .shell, .shell,
      .shell].foldlM (System.step letters) (System.initial τ.calls (fun _ => []) fun _ => []) = some s ∧
      s.calls = [] := by
    rw [hcalls]
    exact ⟨_, rfl, rfl⟩
  have hrun := run_of_foldlM hs
  refine ⟨τ, s, hτ, hrun, ?_⟩
  rw [((line_outcome hτ hB hrun).2 hdone).1, hcalls]
  rfl

end SystemsProgramming.Shell

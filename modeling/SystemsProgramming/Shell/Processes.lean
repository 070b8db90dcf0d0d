import SystemsProgramming.Shell.Inheritance
import SystemsProgramming.Foundation.Process

/-! The shell and its children as processes that run side by side. The shell makes the calls of a line one
after the other; a child first arranges the table that it has inherited and then runs its program, which
reads its stdin and writes to its stdout byte by byte. A pipe holds so many bytes at most. A read waits
while the pipe is empty and some process could still write to it, and a write waits while the pipe is full
and some process could still read from it; without a reader it kills the writer. What the children get of
the stdin of the shell is an input of the model. -/

namespace SystemsProgramming.Shell

/-- The programs, by the states that they go through, and the room in a pipe. -/
structure Programs (σ : Type) where
  act : σ → Action Byte WaitStatus σ
  start : Command → σ
  capacity : ℕ
  positive : 0 < capacity

inductive Process (σ : Type)
  /-- Forked for a command, with the stdin that it is to take, and a copy of the table of the shell. -/
  | forked (command : Command) (stdin : Option ℕ) (table : FdTable)
  | running (table : FdTable) (state : σ)
  | ended (status : WaitStatus)
  /-- There is no such child, or none any more. -/
  | reaped

def Process.table {σ : Type} : Process σ → FdTable
  | forked _ _ table => table
  | running table _ => table
  | _ => []

structure System (σ : Type) where
  /-- The calls that the shell has yet to make. -/
  calls : List Call
  table : FdTable
  forked : List ℕ
  processes : ℕ → Process σ
  pipes : ℕ → List Byte
  /-- What the child of each command can still read of the stdin of the shell. -/
  input : ℕ → List Byte
  written : Dest → List Byte
  /-- What `waitpid` has stored. -/
  collected : List (ℕ × WaitStatus)

/-- Who makes a step. -/
inductive Actor
  | shell
  | child (i : ℕ)
  deriving DecidableEq

/-- SIGPIPE -/
def sigpipe : ℕ := 13

namespace System

variable {σ : Type}

/-- Some process has the object open. -/
def Open (s : System σ) (x : Object) : Prop :=
  some x ∈ s.table ∨ ∃ i ∈ s.forked, some x ∈ (s.processes i).table

instance (s : System σ) (x : Object) : Decidable (s.Open x) := inferInstanceAs (Decidable (_ ∨ _))

def setProcess (s : System σ) (i : ℕ) (p : Process σ) : System σ :=
  { s with processes := Function.update s.processes i p }

def setPipe (s : System σ) (i : ℕ) (bs : List Byte) : System σ :=
  { s with pipes := Function.update s.pipes i bs }

def setInput (s : System σ) (i : ℕ) (bs : List Byte) : System σ :=
  { s with input := Function.update s.input i bs }

def setWritten (s : System σ) (dest : Dest) (bs : List Byte) : System σ :=
  { s with written := Function.update s.written dest bs }

/-- A call has been made. -/
def made (s : System σ) (c : Call) (calls : List Call) : System σ :=
  { s with calls := calls, table := c.act s.table }

/-- Before the calls of a line. -/
def initial (calls : List Call) (input : ℕ → List Byte) (written : Dest → List Byte) : System σ where
  calls := calls
  table := standardTable
  forked := []
  processes _ := .reaped
  pipes _ := []
  input := input
  written := written
  collected := []

/-- The next call of the shell. A call of `copy` takes a step for each byte. -/
def shellStep (s : System σ) : Option (System σ) :=
  match s.calls with
  | [] => none
  | c :: calls =>
    match c with
    | .pipe i => some ((s.made c calls).setPipe i [])
    | .fork i command stdin =>
      some { (s.made c calls).setProcess i (.forked command stdin s.table) with forked := i :: s.forked }
    | .copy i dest =>
      match s.pipes i with
      | b :: bs => some ((s.setPipe i bs).setWritten dest (s.written dest ++ [b]))
      | [] => if s.Open (.pipe (.writeEnd i)) then none else some (s.made c calls)
    | .fopen name overwrite =>
      some (if overwrite then (s.made c calls).setWritten (.file name) [] else s.made c calls)
    | .waitpid i =>
      match s.processes i with
      | .ended status =>
        some { (s.made c calls).setProcess i .reaped with collected := s.collected ++ [(i, status)] }
      | .reaped => some (s.made c calls)
      | _ => none
    | _ => some (s.made c calls)

variable (P : Programs σ)

/-- A read of a child from its stdin; one that fails finds no byte. -/
def childRead (i : ℕ) (table : FdTable) (k : Option Byte → σ) (s : System σ) : Option (System σ) :=
  match table.object 0 with
  | some .stdin =>
    match s.input i with
    | b :: bs => some ((s.setInput i bs).setProcess i (.running table (k (some b))))
    | [] => some (s.setProcess i (.running table (k none)))
  | some (.pipe (.readEnd j)) =>
    match s.pipes j with
    | b :: bs => some ((s.setPipe j bs).setProcess i (.running table (k (some b))))
    | [] =>
      if s.Open (.pipe (.writeEnd j)) then none else some (s.setProcess i (.running table (k none)))
  | _ => some (s.setProcess i (.running table (k none)))

/-- A write of a child to its stdout; one that fails has no effect. -/
def childWrite (i : ℕ) (table : FdTable) (b : Byte) (state : σ) (s : System σ) : Option (System σ) :=
  match table.object 1 with
  | some .stdout =>
    some ((s.setWritten .stdout (s.written .stdout ++ [b])).setProcess i (.running table state))
  | some (.pipe (.writeEnd j)) =>
    if ¬s.Open (.pipe (.readEnd j)) then some (s.setProcess i (.ended (.signaled sigpipe)))
    else if (s.pipes j).length < P.capacity then
      some ((s.setPipe j (s.pipes j ++ [b])).setProcess i (.running table state))
    else none
  | _ => some (s.setProcess i (.running table state))

def childStep (i : ℕ) (s : System σ) : Option (System σ) :=
  match s.processes i with
  | .forked command stdin table =>
    some (s.setProcess i (.running (childTable i stdin table) (P.start command)))
  | .running table state =>
    match P.act state with
    | .read k => s.childRead i table k
    | .write b state => s.childWrite P i table b state
    | .exit status => some (s.setProcess i (.ended status))
  | _ => none

def step (s : System σ) : Actor → Option (System σ)
  | .shell => s.shellStep
  | .child i => s.childStep P i

def Step (s : System σ) (a : Actor) (s' : System σ) : Prop := s.step P a = some s'

end System

/-! ### What the processes have open -/

/-- The process may still make steps. -/
def Process.Alive {σ : Type} : Process σ → Prop
  | forked .. => True
  | running .. => True
  | _ => False

section
variable {σ : Type} {s : System σ} {h : Household} {i j k : ℕ}

/-- A process is set up as the household says. -/
def Connected (h : Household) (i : ℕ) : Process σ → Prop
  | .forked _ stdin table => i ∈ h.unwaited ∧ stdin = h.wiring i ∧
      Inventory table (.pipe (.writeEnd i) :: .pipe (.readEnd i) :: readEnds stdin)
  | .running table _ => i ∈ h.unwaited ∧ ∀ n, table.object n = childObjects i (h.wiring i) n
  | .ended _ => i ∈ h.unwaited
  | .reaped => True

/-- The processes are those of the household, and the calls to come keep it in order. -/
structure Consistent (s : System σ) (h : Household) : Prop where
  keeps : ∃ h', h.Keeps s.calls h' ∧ h'.held = [] ∧ h'.unwaited = []
  table : Inventory s.table h.held
  forked : s.forked = h.children
  unwaited : ∀ i ∈ h.unwaited, i ∈ h.children
  order : ∀ i j, h.wiring i = some j → j < i
  process : ∀ i, Connected h i (s.processes i)

theorem mem_table_iff {t : FdTable} {x : Object} : some x ∈ t ↔ ∃ n, t.object n = some x := by
  rw [List.mem_iff_getElem?]
  exact exists_congr fun n => object_eq_some_iff.symm

/-- What a child has open. -/
theorem Connected.mem_table {p : Process σ} (hp : Connected h i p) {fd : Fd}
    (hfd : some (.pipe fd) ∈ p.table) : p.Alive ∧
      (fd = .writeEnd i ∨ (∃ j, h.wiring i = some j ∧ fd = .readEnd j) ∨
        fd = .readEnd i ∧ ∃ command stdin table, p = .forked command stdin table) := by
  cases p with
  | forked command stdin table =>
    obtain ⟨-, hstdin, htable⟩ := hp
    refine ⟨trivial, ?_⟩
    have hmem := (htable.mem_iff rfl).mp hfd
    simp only [List.mem_cons, Object.pipe.injEq, mem_readEnds, hstdin] at hmem
    rcases hmem with hfd | hfd | hfd
    · exact .inl hfd
    · exact .inr (.inr ⟨hfd, _, _, _, rfl⟩)
    · exact .inr (.inl hfd)
  | running table state =>
    refine ⟨trivial, ?_⟩
    obtain ⟨n, hn⟩ := mem_table_iff.mp hfd
    replace hn : childObjects i (h.wiring i) n = some (.pipe fd) := (hp.2 n).symm.trans hn
    match n with
    | 0 =>
      cases hw : h.wiring i with
      | none => simp [childObjects, hw] at hn
      | some j =>
        refine .inr (.inl ⟨j, rfl, ?_⟩)
        simpa [childObjects, hw, eq_comm] using hn
    | 1 =>
      left
      simpa [childObjects, eq_comm] using hn
    | 2 => simp [childObjects] at hn
    | n + 3 => simp [childObjects] at hn
  | ended status => cases hfd
  | reaped => cases hfd

/-- A child that is alive has the two pipes open that it is to use. -/
theorem Connected.alive_table {p : Process σ} (hp : Connected h i p) (halive : p.Alive) :
    i ∈ h.unwaited ∧ some (.pipe (.writeEnd i)) ∈ p.table ∧
      ∀ j, h.wiring i = some j → some (.pipe (.readEnd j)) ∈ p.table := by
  cases p with
  | forked command stdin table =>
    obtain ⟨hi, hstdin, htable⟩ := hp
    refine ⟨hi, htable.present _ List.mem_cons_self, fun j hj => htable.present _ ?_⟩
    simp [hstdin, hj, readEnds]
  | running table state =>
    refine ⟨hp.1, mem_table_iff.mpr ⟨1, hp.2 1⟩, fun j hj => mem_table_iff.mpr ⟨0, ?_⟩⟩
    rw [Process.table, hp.2 0, hj]
    rfl
  | ended status => exact halive.elim
  | reaped => exact halive.elim

namespace Consistent

/-- Only the child itself can write to its pipe, once the shell cannot. -/
theorem open_writeEnd (h' : Consistent s h) (hopen : s.Open (.pipe (.writeEnd k))) :
    some (.pipe (.writeEnd k)) ∈ s.table ∨ (s.processes k).Alive := by
  rcases hopen with hopen | ⟨i, -, hmem⟩
  · exact .inl hopen
  · obtain ⟨halive, hfd⟩ := (h'.process i).mem_table hmem
    have hk : k = i := by simpa using hfd
    exact .inr (hk ▸ halive)

/-- A pipe is read by the child that has it for its stdin; its writer has it open while it starts. -/
theorem open_readEnd (h' : Consistent s h) (hopen : s.Open (.pipe (.readEnd k))) :
    some (.pipe (.readEnd k)) ∈ s.table ∨ (∃ i, (s.processes i).Alive ∧ h.wiring i = some k) ∨
      ∃ command stdin table, s.processes k = .forked command stdin table := by
  rcases hopen with hopen | ⟨i, -, hmem⟩
  · exact .inl hopen
  · obtain ⟨halive, hfd | ⟨j, hj, hfd⟩ | ⟨hfd, hforked⟩⟩ := (h'.process i).mem_table hmem
    · cases hfd
    · obtain rfl := Fd.readEnd.inj hfd
      exact .inr (.inl ⟨i, halive, hj⟩)
    · obtain rfl := Fd.readEnd.inj hfd
      exact .inr (.inr hforked)

theorem alive_open (h' : Consistent s h) (halive : (s.processes i).Alive) :
    s.Open (.pipe (.writeEnd i)) ∧ ∀ j, h.wiring i = some j → s.Open (.pipe (.readEnd j)) := by
  obtain ⟨hi, hwrite, hread⟩ := (h'.process i).alive_table halive
  have hforked : i ∈ s.forked := h'.forked ▸ h'.unwaited i hi
  exact ⟨.inr ⟨i, hforked, hwrite⟩, fun j hj => .inr ⟨i, hforked, hread j hj⟩⟩

end Consistent

/-! ### Steps -/

variable {P : Programs σ} {s' : System σ}

/-- What a child can do, connected as the household says. -/
inductive Moves (P : Programs σ) (h : Household) (i : ℕ) (s : System σ) : System σ → Prop
  | arrange {command : Command} {stdin : Option ℕ} {table : FdTable} :
      s.processes i = .forked command stdin table →
      Moves P h i s (s.setProcess i (.running (childTable i stdin table) (P.start command)))
  | exit {table : FdTable} {p : σ} {status : WaitStatus} : s.processes i = .running table p →
      P.act p = .exit status → Moves P h i s (s.setProcess i (.ended status))
  | input {table : FdTable} {p : σ} {k : Option Byte → σ} {b : Byte} {bs : List Byte} :
      s.processes i = .running table p → P.act p = .read k → h.wiring i = none → s.input i = b :: bs →
      Moves P h i s ((s.setInput i bs).setProcess i (.running table (k (some b))))
  | inputEnd {table : FdTable} {p : σ} {k : Option Byte → σ} : s.processes i = .running table p →
      P.act p = .read k → h.wiring i = none → s.input i = [] →
      Moves P h i s (s.setProcess i (.running table (k none)))
  | read {table : FdTable} {p : σ} {k : Option Byte → σ} {j : ℕ} {b : Byte} {bs : List Byte} :
      s.processes i = .running table p → P.act p = .read k → h.wiring i = some j → s.pipes j = b :: bs →
      Moves P h i s ((s.setPipe j bs).setProcess i (.running table (k (some b))))
  | eof {table : FdTable} {p : σ} {k : Option Byte → σ} {j : ℕ} : s.processes i = .running table p →
      P.act p = .read k → h.wiring i = some j → s.pipes j = [] → ¬s.Open (.pipe (.writeEnd j)) →
      Moves P h i s (s.setProcess i (.running table (k none)))
  | write {table : FdTable} {p q : σ} {b : Byte} : s.processes i = .running table p →
      P.act p = .write b q → s.Open (.pipe (.readEnd i)) → (s.pipes i).length < P.capacity →
      Moves P h i s ((s.setPipe i (s.pipes i ++ [b])).setProcess i (.running table q))
  | killed {table : FdTable} {p q : σ} {b : Byte} : s.processes i = .running table p →
      P.act p = .write b q → ¬s.Open (.pipe (.readEnd i)) →
      Moves P h i s (s.setProcess i (.ended (.signaled sigpipe)))

/-- A step of a child is one of these. -/
theorem Consistent.childStep_iff (h' : Consistent s h) :
    s.childStep P i = some s' ↔ Moves P h i s s' := by
  have hp := h'.process i
  constructor
  · intro hs
    rw [System.childStep] at hs
    cases hprocess : s.processes i with
    | forked command stdin table =>
      rw [hprocess] at hs
      obtain rfl := Option.some.inj hs
      exact .arrange hprocess
    | running table p =>
      rw [hprocess] at hs hp
      have hin := hp.2 0
      have hout := hp.2 1
      cases hact : P.act p with
      | exit status =>
        simp only [hact] at hs
        obtain rfl := Option.some.inj hs
        exact .exit hprocess hact
      | write b q =>
        simp only [hact, System.childWrite, hout, childObjects] at hs
        split_ifs at hs with hopen hroom
        · obtain rfl := Option.some.inj hs
          exact .write hprocess hact hopen hroom
        · obtain rfl := Option.some.inj hs
          exact .killed hprocess hact hopen
      | read k =>
        simp only [hact, System.childRead, hin, childObjects] at hs
        cases hw : h.wiring i with
        | none =>
          simp only [hw, Option.elim_none] at hs
          cases hinput : s.input i with
          | nil =>
            simp only [hinput] at hs
            obtain rfl := Option.some.inj hs
            exact .inputEnd hprocess hact hw hinput
          | cons b bs =>
            simp only [hinput] at hs
            obtain rfl := Option.some.inj hs
            exact .input hprocess hact hw hinput
        | some j =>
          simp only [hw, Option.elim_some] at hs
          cases hpipe : s.pipes j with
          | nil =>
            simp only [hpipe] at hs
            split_ifs at hs with hopen
            obtain rfl := Option.some.inj hs
            exact .eof hprocess hact hw hpipe hopen
          | cons b bs =>
            simp only [hpipe] at hs
            obtain rfl := Option.some.inj hs
            exact .read hprocess hact hw hpipe
    | ended status =>
      rw [hprocess] at hs
      cases hs
    | reaped =>
      rw [hprocess] at hs
      cases hs
  · intro hs
    have hin : ∀ {table p}, s.processes i = .running table p →
        table.object 0 = childObjects i (h.wiring i) 0 := by
      intro table p hprocess
      rw [hprocess] at hp
      exact hp.2 0
    have hout : ∀ {table p}, s.processes i = .running table p →
        table.object 1 = some (.pipe (.writeEnd i)) := by
      intro table p hprocess
      rw [hprocess] at hp
      exact hp.2 1
    cases hs with
    | arrange hprocess => simp only [System.childStep, hprocess]
    | exit hprocess hact => simp only [System.childStep, hprocess, hact]
    | input hprocess hact hw hinput =>
      simp only [System.childStep, hprocess, hact, System.childRead, hin hprocess, childObjects, hw,
        Option.elim_none, hinput]
    | inputEnd hprocess hact hw hinput =>
      simp only [System.childStep, hprocess, hact, System.childRead, hin hprocess, childObjects, hw,
        Option.elim_none, hinput]
    | read hprocess hact hw hpipe =>
      simp only [System.childStep, hprocess, hact, System.childRead, hin hprocess, childObjects, hw,
        Option.elim_some, hpipe]
    | eof hprocess hact hw hpipe hopen =>
      simp only [System.childStep, hprocess, hact, System.childRead, hin hprocess, childObjects, hw,
        Option.elim_some, hpipe, if_neg hopen]
    | write hprocess hact hopen hroom =>
      simp only [System.childStep, hprocess, hact, System.childWrite, hout hprocess, hopen,
        not_true_eq_false, if_false, hroom, if_true]
    | killed hprocess hact hopen =>
      simp only [System.childStep, hprocess, hact, System.childWrite, hout hprocess, hopen,
        not_false_eq_true, if_true]

/-- What a step of a child leaves as it is, and what becomes of the child. -/
theorem Moves.frame (hm : Moves P h i s s') (hp : Connected h i (s.processes i)) :
    s'.calls = s.calls ∧ s'.table = s.table ∧ s'.forked = s.forked ∧ s'.collected = s.collected ∧
      s'.written = s.written ∧ (s.processes i).Alive ∧
      ∃ p, s'.processes = Function.update s.processes i p ∧ Connected h i p ∧
        ∀ command stdin table, p ≠ .forked command stdin table := by
  cases hm with
  | arrange hprocess =>
    rw [hprocess] at hp ⊢
    obtain ⟨hi, hstdin, htable⟩ := hp
    refine ⟨rfl, rfl, rfl, rfl, rfl, trivial, _, rfl, ⟨hi, fun n => ?_⟩, by simp⟩
    rw [← hstdin]
    exact htable.object_childTable n
  | exit hprocess =>
    rw [hprocess] at hp ⊢
    exact ⟨rfl, rfl, rfl, rfl, rfl, trivial, _, rfl, hp.1, by simp⟩
  | input hprocess =>
    rw [hprocess] at hp ⊢
    exact ⟨rfl, rfl, rfl, rfl, rfl, trivial, _, rfl, hp, by simp⟩
  | inputEnd hprocess =>
    rw [hprocess] at hp ⊢
    exact ⟨rfl, rfl, rfl, rfl, rfl, trivial, _, rfl, hp, by simp⟩
  | read hprocess =>
    rw [hprocess] at hp ⊢
    exact ⟨rfl, rfl, rfl, rfl, rfl, trivial, _, rfl, hp, by simp⟩
  | eof hprocess =>
    rw [hprocess] at hp ⊢
    exact ⟨rfl, rfl, rfl, rfl, rfl, trivial, _, rfl, hp, by simp⟩
  | write hprocess =>
    rw [hprocess] at hp ⊢
    exact ⟨rfl, rfl, rfl, rfl, rfl, trivial, _, rfl, hp, by simp⟩
  | killed hprocess =>
    rw [hprocess] at hp ⊢
    exact ⟨rfl, rfl, rfl, rfl, rfl, trivial, _, rfl, hp.1, by simp⟩

theorem Consistent.child (h' : Consistent s h) (hs : s.childStep P i = some s') : Consistent s' h := by
  obtain ⟨hcalls, htable, hforked, -, -, -, p, hprocesses, hp, -⟩ :=
    (h'.childStep_iff.mp hs).frame (h'.process i)
  refine ⟨hcalls ▸ h'.keeps, htable ▸ h'.table, hforked ▸ h'.forked, h'.unwaited, h'.order, fun j => ?_⟩
  rw [hprocesses, Function.update_apply]
  split_ifs with hj
  · exact hj ▸ hp
  · exact h'.process j

/-- What the shell can do. -/
inductive ShellMoves (s : System σ) : System σ → Prop
  | pipe {i : ℕ} {calls : List Call} : s.calls = .pipe i :: calls →
      ShellMoves s ((s.made (.pipe i) calls).setPipe i [])
  | fork {i : ℕ} {command : Command} {stdin : Option ℕ} {calls : List Call} :
      s.calls = .fork i command stdin :: calls → ShellMoves s
        { (s.made (.fork i command stdin) calls).setProcess i (.forked command stdin s.table) with
          forked := i :: s.forked }
  | byte {i : ℕ} {dest : Dest} {calls : List Call} {b : Byte} {bs : List Byte} :
      s.calls = .copy i dest :: calls → s.pipes i = b :: bs →
      ShellMoves s ((s.setPipe i bs).setWritten dest (s.written dest ++ [b]))
  | copied {i : ℕ} {dest : Dest} {calls : List Call} : s.calls = .copy i dest :: calls →
      s.pipes i = [] → ¬s.Open (.pipe (.writeEnd i)) → ShellMoves s (s.made (.copy i dest) calls)
  | close {fd : Fd} {calls : List Call} : s.calls = .close fd :: calls →
      ShellMoves s (s.made (.close fd) calls)
  | fopen {name : CString} {overwrite : Bool} {calls : List Call} :
      s.calls = .fopen name overwrite :: calls → ShellMoves s
        (if overwrite then (s.made (.fopen name overwrite) calls).setWritten (.file name) []
        else s.made (.fopen name overwrite) calls)
  | fclose {name : CString} {calls : List Call} : s.calls = .fclose name :: calls →
      ShellMoves s (s.made (.fclose name) calls)
  | waitpid {i : ℕ} {calls : List Call} {status : WaitStatus} : s.calls = .waitpid i :: calls →
      s.processes i = .ended status → ShellMoves s
        { (s.made (.waitpid i) calls).setProcess i .reaped with
          collected := s.collected ++ [(i, status)] }
  | noChild {i : ℕ} {calls : List Call} : s.calls = .waitpid i :: calls → s.processes i = .reaped →
      ShellMoves s (s.made (.waitpid i) calls)
  | fcloseStdin {calls : List Call} : s.calls = .fcloseStdin :: calls →
      ShellMoves s (s.made .fcloseStdin calls)

theorem shellStep_iff : s.shellStep = some s' ↔ ShellMoves s s' := by
  constructor
  · intro hs
    rw [System.shellStep] at hs
    cases hcalls : s.calls with
    | nil =>
      rw [hcalls] at hs
      cases hs
    | cons c calls =>
      cases c with
      | pipe i =>
        simp only [hcalls] at hs
        obtain rfl := Option.some.inj hs
        exact .pipe hcalls
      | fork i command stdin =>
        simp only [hcalls] at hs
        obtain rfl := Option.some.inj hs
        exact .fork hcalls
      | copy i dest =>
        simp only [hcalls] at hs
        cases hpipe : s.pipes i with
        | nil =>
          simp only [hpipe] at hs
          split_ifs at hs with hopen
          obtain rfl := Option.some.inj hs
          exact .copied hcalls hpipe hopen
        | cons b bs =>
          simp only [hpipe] at hs
          obtain rfl := Option.some.inj hs
          exact .byte hcalls hpipe
      | close fd =>
        simp only [hcalls] at hs
        obtain rfl := Option.some.inj hs
        exact .close hcalls
      | fopen name overwrite =>
        simp only [hcalls] at hs
        obtain rfl := Option.some.inj hs
        exact .fopen hcalls
      | fclose name =>
        simp only [hcalls] at hs
        obtain rfl := Option.some.inj hs
        exact .fclose hcalls
      | waitpid i =>
        simp only [hcalls] at hs
        cases hprocess : s.processes i with
        | ended status =>
          simp only [hprocess] at hs
          obtain rfl := Option.some.inj hs
          exact .waitpid hcalls hprocess
        | reaped =>
          simp only [hprocess] at hs
          obtain rfl := Option.some.inj hs
          exact .noChild hcalls hprocess
        | forked command stdin table => simp only [hprocess, reduceCtorEq] at hs
        | running table state => simp only [hprocess, reduceCtorEq] at hs
      | fcloseStdin =>
        simp only [hcalls] at hs
        obtain rfl := Option.some.inj hs
        exact .fcloseStdin hcalls
  · intro hs
    cases hs with
    | pipe hcalls => simp only [System.shellStep, hcalls]
    | fork hcalls => simp only [System.shellStep, hcalls]
    | byte hcalls hpipe => simp only [System.shellStep, hcalls, hpipe]
    | copied hcalls hpipe hopen => simp only [System.shellStep, hcalls, hpipe, if_neg hopen]
    | close hcalls => simp only [System.shellStep, hcalls]
    | fopen hcalls => simp only [System.shellStep, hcalls]
    | fclose hcalls => simp only [System.shellStep, hcalls]
    | waitpid hcalls hprocess => simp only [System.shellStep, hcalls, hprocess]
    | noChild hcalls hprocess => simp only [System.shellStep, hcalls, hprocess]
    | fcloseStdin hcalls => simp only [System.shellStep, hcalls]

/-! ### The processes stay consistent -/

/-- Only the calls that concern children change what is said about them. -/
theorem Household.step_frame {c : Call} {h₁ : Household} (hc : h.step c = some h₁)
    (hfork : ∀ i command stdin, c ≠ .fork i command stdin) (hwait : ∀ i, c ≠ .waitpid i) :
    h₁.children = h.children ∧ h₁.unwaited = h.unwaited ∧ h₁.wiring = h.wiring := by
  cases c with
  | fork i command stdin => exact absurd rfl (hfork i command stdin)
  | waitpid i => exact absurd rfl (hwait i)
  | fcloseStdin => cases hc
  | _ =>
    rw [Household.step] at hc
    split_ifs at hc
    obtain rfl := Option.some.inj hc
    exact ⟨rfl, rfl, rfl⟩

theorem Connected.congr {h₁ : Household} {p : Process σ} (hp : Connected h i p)
    (hunwaited : i ∈ h.unwaited → i ∈ h₁.unwaited) (hwiring : h₁.wiring i = h.wiring i) :
    Connected h₁ i p := by
  cases p with
  | forked command stdin table => exact ⟨hunwaited hp.1, hp.2.1.trans hwiring.symm, hp.2.2⟩
  | running table state => exact ⟨hunwaited hp.1, fun n => hwiring ▸ hp.2 n⟩
  | ended status => exact hunwaited hp
  | reaped => trivial

namespace Consistent

/-- What is left of the household after the next call. -/
theorem next (h' : Consistent s h) {c : Call} {calls : List Call} (hcalls : s.calls = c :: calls) :
    ∃ h₁, h.step c = some h₁ ∧ Inventory (c.act s.table) h₁.held ∧
      ∃ h₂, h₁.Keeps calls h₂ ∧ h₂.held = [] ∧ h₂.unwaited = [] := by
  obtain ⟨h₂, hkeeps, hend⟩ := h'.keeps
  rw [hcalls] at hkeeps
  obtain ⟨h₁, hc, hkeeps⟩ := Household.keeps_cons_iff.mp hkeeps
  exact ⟨h₁, hc, h'.table.act hc, h₂, hkeeps, hend⟩

/-- A call that concerns no child. -/
theorem other (h' : Consistent s h) {c : Call} {calls : List Call} (hcalls : s.calls = c :: calls)
    (hfork : ∀ i command stdin, c ≠ .fork i command stdin) (hwait : ∀ i, c ≠ .waitpid i) :
    ∃ h₁, h.step c = some h₁ ∧ ∀ s' : System σ, s'.calls = calls → s'.table = c.act s.table →
      s'.forked = s.forked → s'.processes = s.processes → Consistent s' h₁ := by
  obtain ⟨h₁, hc, htable, hkeeps⟩ := h'.next hcalls
  obtain ⟨hchildren, hunwaited, hwiring⟩ := Household.step_frame hc hfork hwait
  refine ⟨h₁, hc, fun s' hcalls' htable' hforked' hprocesses' =>
    ⟨hcalls' ▸ hkeeps, htable' ▸ htable, ?_, ?_, ?_, fun i => ?_⟩⟩
  · rw [hforked', h'.forked, hchildren]
  · rw [hunwaited, hchildren]
    exact h'.unwaited
  · rw [hwiring]
    exact h'.order
  · rw [hprocesses']
    exact (h'.process i).congr (fun hi => hunwaited ▸ hi) (by rw [hwiring])

theorem forkStep (h' : Consistent s h) {command : Command} {stdin : Option ℕ} {calls : List Call}
    (hcalls : s.calls = .fork i command stdin :: calls) : ∃ h₁,
    h.step (.fork i command stdin) = some h₁ ∧ Consistent
      { (s.made (.fork i command stdin) calls).setProcess i (.forked command stdin s.table) with
        forked := i :: s.forked } h₁ := by
  obtain ⟨h₁, hc, htable, hkeeps⟩ := h'.next hcalls
  have hstep := hc
  rw [Household.step] at hstep
  split_ifs at hstep with hfork
  obtain ⟨hfresh, hheld, hstdin⟩ := hfork
  obtain rfl := Option.some.inj hstep
  have hinventory := h'.table
  rw [hheld] at hinventory
  refine ⟨_, hc, hkeeps, htable, ?_, ?_, ?_, fun j => ?_⟩
  · show i :: s.forked = i :: h.children
    rw [h'.forked]
  · intro j hj
    rcases List.mem_cons.mp hj with rfl | hj
    · exact List.mem_cons_self
    · exact List.mem_cons_of_mem i (h'.unwaited j hj)
  · intro j k hj
    replace hj : Function.update h.wiring i stdin j = some k := hj
    rw [Function.update_apply] at hj
    split_ifs at hj with hji
    · exact hji ▸ (hstdin k hj).2.2
    · exact h'.order j k hj
  · show Connected _ j (Function.update s.processes i _ j)
    rw [Function.update_apply]
    split_ifs with hji
    · subst hji
      have hwiring : Function.update h.wiring j stdin j = stdin := Function.update_self ..
      exact ⟨List.mem_cons_self, hwiring.symm, hinventory⟩
    · exact (h'.process j).congr (List.mem_cons_of_mem i) (Function.update_of_ne hji ..)

/-- A child is waited for that has ended, or once more. -/
theorem waitStep (h' : Consistent s h) {calls : List Call} (hcalls : s.calls = .waitpid i :: calls) :
    ∃ h₁, h.step (.waitpid i) = some h₁ ∧ ∀ s' : System σ, s'.calls = calls → s'.table = s.table →
      s'.forked = s.forked → s'.processes = Function.update s.processes i .reaped →
      Consistent s' h₁ := by
  obtain ⟨h₁, hc, htable, hkeeps⟩ := h'.next hcalls
  have hstep := hc
  rw [Household.step] at hstep
  split_ifs at hstep with hwait
  obtain rfl := Option.some.inj hstep
  refine ⟨_, hc, fun s' hcalls' htable' hforked' hprocesses' => ⟨hcalls' ▸ hkeeps, htable' ▸ htable,
    hforked'.trans h'.forked, fun j hj => ?_, h'.order, fun j => ?_⟩⟩
  · exact h'.unwaited j (List.mem_filter.mp hj).1
  · rw [hprocesses', Function.update_apply]
    split_ifs with hji
    · trivial
    · exact (h'.process j).congr (fun hj => List.mem_filter.mpr ⟨hj, by simpa using hji⟩) rfl

theorem shell (h' : Consistent s h) (hs : s.shellStep = some s') : ∃ h₁, Consistent s' h₁ := by
  cases shellStep_iff.mp hs with
  | pipe hcalls =>
    obtain ⟨h₁, -, h₁'⟩ := h'.other hcalls (by simp) (by simp)
    exact ⟨h₁, h₁' _ rfl rfl rfl rfl⟩
  | fork hcalls =>
    obtain ⟨h₁, -, h₁'⟩ := h'.forkStep hcalls
    exact ⟨h₁, h₁'⟩
  | byte => exact ⟨h, h'.keeps, h'.table, h'.forked, h'.unwaited, h'.order, h'.process⟩
  | copied hcalls =>
    obtain ⟨h₁, -, h₁'⟩ := h'.other hcalls (by simp) (by simp)
    exact ⟨h₁, h₁' _ rfl rfl rfl rfl⟩
  | close hcalls =>
    obtain ⟨h₁, -, h₁'⟩ := h'.other hcalls (by simp) (by simp)
    exact ⟨h₁, h₁' _ rfl rfl rfl rfl⟩
  | fopen hcalls =>
    obtain ⟨h₁, -, h₁'⟩ := h'.other hcalls (by simp) (by simp)
    refine ⟨h₁, ?_⟩
    split_ifs
    · exact h₁' _ rfl rfl rfl rfl
    · exact h₁' _ rfl rfl rfl rfl
  | fclose hcalls =>
    obtain ⟨h₁, -, h₁'⟩ := h'.other hcalls (by simp) (by simp)
    exact ⟨h₁, h₁' _ rfl rfl rfl rfl⟩
  | waitpid hcalls =>
    obtain ⟨h₁, -, h₁'⟩ := h'.waitStep hcalls
    exact ⟨h₁, h₁' _ rfl rfl rfl rfl⟩
  | noChild hcalls hprocess =>
    obtain ⟨h₁, -, h₁'⟩ := h'.waitStep hcalls
    refine ⟨h₁, h₁' _ rfl rfl rfl ?_⟩
    rw [← hprocess, Function.update_eq_self]
    rfl
  | fcloseStdin hcalls =>
    obtain ⟨h₁, -, h₁'⟩ := h'.other hcalls (by simp) (by simp)
    exact ⟨h₁, h₁' _ rfl rfl rfl rfl⟩

theorem step (h' : Consistent s h) {a : Actor} (hs : s.Step P a s') : ∃ h₁, Consistent s' h₁ := by
  cases a with
  | shell => exact h'.shell hs
  | child i => exact ⟨h, h'.child hs⟩

/-! ### No deadlock -/

/-- Why a child cannot go on: it reads from an empty pipe that can be written to, or writes to a full one
that can be read. -/
theorem blocked (h' : Consistent s h) (halive : (s.processes i).Alive)
    (hnone : ∀ s', s.childStep P i ≠ some s') :
    (∃ j, h.wiring i = some j ∧ s.pipes j = [] ∧ s.Open (.pipe (.writeEnd j))) ∨
      P.capacity ≤ (s.pipes i).length ∧ s.Open (.pipe (.readEnd i)) ∧
        ∀ command stdin table, s.processes i ≠ .forked command stdin table := by
  have hmoves : ∀ s', ¬Moves P h i s s' := fun s' hm => hnone s' (h'.childStep_iff.mpr hm)
  cases hprocess : s.processes i with
  | forked command stdin table => exact absurd (.arrange hprocess) (hmoves _)
  | running table p =>
    cases hact : P.act p with
    | exit status => exact absurd (.exit hprocess hact) (hmoves _)
    | write b q =>
      right
      have hopen : s.Open (.pipe (.readEnd i)) := by
        by_contra hopen
        exact hmoves _ (.killed hprocess hact hopen)
      exact ⟨Nat.le_of_not_lt fun hroom => hmoves _ (.write hprocess hact hopen hroom), hopen, by simp⟩
    | read k =>
      left
      cases hw : h.wiring i with
      | none =>
        cases hinput : s.input i with
        | nil => exact absurd (.inputEnd hprocess hact hw hinput) (hmoves _)
        | cons b bs => exact absurd (.input hprocess hact hw hinput) (hmoves _)
      | some j =>
        cases hpipe : s.pipes j with
        | nil =>
          refine ⟨j, rfl, hpipe, ?_⟩
          by_contra hopen
          exact hmoves _ (.eof hprocess hact hw hpipe hopen)
        | cons b bs => exact absurd (.read hprocess hact hw hpipe) (hmoves _)
  | ended status =>
    rw [hprocess] at halive
    exact halive.elim
  | reaped =>
    rw [hprocess] at halive
    exact halive.elim

/-- While the shell can write to no pipe, a child with room in its pipe goes on, or one on its left
does. -/
theorem left_goes_on (h' : Consistent s h) (hshell : ∀ k, some (.pipe (.writeEnd k)) ∉ s.table)
    (halive : (s.processes i).Alive) (hroom : (s.pipes i).length < P.capacity) :
    ∃ j s', s.childStep P j = some s' := by
  induction i using Nat.strongRecOn with
  | ind i ih =>
    by_cases hstep : ∃ s', s.childStep P i = some s'
    · exact ⟨i, hstep⟩
    rcases h'.blocked halive (not_exists.mp hstep) with ⟨j, hj, hempty, hopen⟩ | ⟨hfull, -⟩
    · have hwriter := (h'.open_writeEnd hopen).resolve_left (hshell j)
      exact ih j (h'.order i j hj) hwriter (by simp [hempty, P.positive])
    · omega

/-- While the shell has no pipe open, some child goes on if one is left. -/
theorem child_goes_on (h' : Consistent s h) (hshell : ∀ fd, some (.pipe fd) ∉ s.table)
    (halive : (s.processes i).Alive) : ∃ j s', s.childStep P j = some s' := by
  obtain ⟨n, hn⟩ : ∃ n, ∀ k ∈ h.children, k < n := by
    obtain ⟨n, hn⟩ := h.children.toFinset.exists_nat_subset_range
    exact ⟨n, fun k hk => Finset.mem_range.mp (hn (List.mem_toFinset.mpr hk))⟩
  have hbelow : ∀ k, (s.processes k).Alive → k < n := fun k hk =>
    hn k (h'.unwaited k ((h'.process k).alive_table hk).1)
  -- a writer waits for its reader, whose command is to its right
  generalize hm : n - i = m
  induction m using Nat.strongRecOn generalizing i with
  | ind m ih =>
    by_cases hstep : ∃ s', s.childStep P i = some s'
    · exact ⟨i, hstep⟩
    rcases h'.blocked halive (not_exists.mp hstep) with ⟨j, hj, hempty, hopen⟩ | ⟨-, hopen, hforked⟩
    · have hwriter := (h'.open_writeEnd hopen).resolve_left (hshell _)
      exact h'.left_goes_on (fun k => hshell _) hwriter (by simp [hempty, P.positive])
    · rcases h'.open_readEnd hopen with hmem | ⟨k, hk, hw⟩ | ⟨command, stdin, table, hp⟩
      · exact absurd hmem (hshell _)
      · have hlt := h'.order k i hw
        have hkn := hbelow k hk
        exact ih (n - k) (by omega) hk rfl
      · exact absurd hp (hforked command stdin table)

/-- As long as the shell has calls to make, somebody can make a step. -/
theorem goes_on (h' : Consistent s h) (hcalls : s.calls ≠ []) : ∃ a s', s.Step P a s' := by
  obtain ⟨c, calls, hcalls⟩ := List.exists_cons_of_ne_nil hcalls
  obtain ⟨h₁, hc, -, -⟩ := h'.next hcalls
  have hchild : (∃ j s', s.childStep P j = some s') → ∃ a s', s.Step P a s' :=
    fun ⟨j, s', hs'⟩ => ⟨.child j, s', hs'⟩
  cases c with
  | pipe i => exact ⟨.shell, _, shellStep_iff.mpr (.pipe hcalls)⟩
  | fork i command stdin => exact ⟨.shell, _, shellStep_iff.mpr (.fork hcalls)⟩
  | copy i dest =>
    cases hpipe : s.pipes i with
    | cons b bs => exact ⟨.shell, _, shellStep_iff.mpr (.byte hcalls hpipe)⟩
    | nil =>
      by_cases hopen : s.Open (.pipe (.writeEnd i))
      · rw [Household.step] at hc
        split_ifs at hc with hcopy
        have hshell : ∀ k, some (.pipe (.writeEnd k)) ∉ s.table := fun k hk => by
          have hwrite := hcopy.2.2.2 _ ((h'.table.mem_iff rfl).mp hk)
          cases hwrite
        have hwriter := (h'.open_writeEnd hopen).resolve_left (hshell i)
        exact hchild (h'.left_goes_on hshell hwriter (by simp [hpipe, P.positive]))
      · exact ⟨.shell, _, shellStep_iff.mpr (.copied hcalls hpipe hopen)⟩
  | close fd => exact ⟨.shell, _, shellStep_iff.mpr (.close hcalls)⟩
  | fopen name overwrite => exact ⟨.shell, _, shellStep_iff.mpr (.fopen hcalls)⟩
  | fclose name => exact ⟨.shell, _, shellStep_iff.mpr (.fclose hcalls)⟩
  | waitpid i =>
    rw [Household.step] at hc
    split_ifs at hc with hwait
    have hshell : ∀ fd, some (.pipe fd) ∉ s.table := fun fd hfd => by
      have hmem := (h'.table.mem_iff rfl).mp hfd
      rw [hwait.2] at hmem
      cases hmem
    cases hprocess : s.processes i with
    | ended status => exact ⟨.shell, _, shellStep_iff.mpr (.waitpid hcalls hprocess)⟩
    | reaped => exact ⟨.shell, _, shellStep_iff.mpr (.noChild hcalls hprocess)⟩
    | forked command stdin table =>
      exact hchild (h'.child_goes_on hshell (i := i) (by rw [hprocess]; trivial))
    | running table p => exact hchild (h'.child_goes_on hshell (i := i) (by rw [hprocess]; trivial))
  | fcloseStdin => exact ⟨.shell, _, shellStep_iff.mpr (.fcloseStdin hcalls)⟩

/-- When the shell has made its calls there is no child left, alive or not, and no pipe is open. -/
theorem finished (h' : Consistent s h) (hcalls : s.calls = []) :
    (∀ i, s.processes i = .reaped) ∧ ∀ fd, ¬s.Open (.pipe fd) := by
  obtain ⟨h₂, hkeeps, hheld, hunwaited⟩ := h'.keeps
  rw [hcalls] at hkeeps
  obtain rfl := Option.some.inj hkeeps
  have hreaped : ∀ i, s.processes i = .reaped := fun i => by
    have hnone : i ∉ h.unwaited := by simp [hunwaited]
    have hp := h'.process i
    cases hprocess : s.processes i with
    | forked command stdin table =>
      rw [hprocess] at hp
      exact absurd hp.1 hnone
    | running table state =>
      rw [hprocess] at hp
      exact absurd hp.1 hnone
    | ended status =>
      rw [hprocess] at hp
      exact absurd hp hnone
    | reaped => rfl
  refine ⟨hreaped, fun fd => ?_⟩
  rintro (hfd | ⟨i, -, hfd⟩)
  · have hmem := (h'.table.mem_iff rfl).mp hfd
    rw [hheld] at hmem
    cases hmem
  · rw [hreaped i] at hfd
    cases hfd

end Consistent

open Transition

theorem run_of_foldlM {as : List Actor} (hs : as.foldlM (System.step P) s = some s') :
    Run (System.Step P) s as s' := by
  induction as generalizing s with
  | nil =>
    obtain rfl := Option.some.inj hs
    exact .nil
  | cons a as ih =>
    obtain ⟨t, ht, hs⟩ := Option.bind_eq_some_iff.mp hs
    exact .cons ht (ih hs)

theorem consistent_initial {cs : List Call}
    (hcs : ∃ h, Household.empty.Keeps cs h ∧ h.held = [] ∧ h.unwaited = [])
    (input : ℕ → List Byte) (written : Dest → List Byte) :
    Consistent (System.initial cs input written : System σ) .empty :=
  ⟨hcs, Inventory.start, rfl, nofun, nofun, fun _ => trivial⟩

theorem consistent_of_run {env : Env} {commands : List Command} {e : ℤ} {τ : Eval}
    (h : runLine env commands e = some (.foreground τ)) {input : ℕ → List Byte}
    {written : Dest → List Byte} {as : List Actor}
    (hrun : Run (System.Step P) (System.initial τ.calls input written) as s) :
    ∃ h₁, Consistent s h₁ :=
  hrun.invariant (I := fun s => ∃ h₁, Consistent s h₁)
    ⟨_, consistent_initial (runLine_keeps h) input written⟩ fun _ _ _ ⟨_, ht⟩ hs => ht.step hs

/-- Whatever the commands of a line in the foreground are, whatever their programs do, however much a pipe
holds and in whichever order the processes make their steps: as long as the shell is not through with the
line somebody can make a step, and when it is, every child has been waited for and no pipe is open. -/
theorem line_never_stuck {env : Env} {commands : List Command} {e : ℤ} {τ : Eval}
    (h : runLine env commands e = some (.foreground τ)) {input : ℕ → List Byte}
    {written : Dest → List Byte} {as : List Actor}
    (hrun : Run (System.Step P) (System.initial τ.calls input written) as s) :
    (s.calls ≠ [] → ∃ a s', s.Step P a s') ∧
      (s.calls = [] → (∀ i, s.processes i = .reaped) ∧ ∀ fd, ¬s.Open (.pipe fd)) := by
  obtain ⟨h₁, h₁'⟩ := consistent_of_run h hrun
  exact ⟨h₁'.goes_on, h₁'.finished⟩

/-- Programs that end at once. -/
def idle : Programs Unit := ⟨fun _ => .exit (.exited 0), fun _ => (), 1, Nat.one_pos⟩

/-- `echo | cat` -/
theorem echo_cat_calls : ∃ τ, runLine ⟨fun _ => .exited 0, .exited 0⟩
      (Line.pipeline ⟨echoCommand, [catCommand]⟩).commands 0 = some (.foreground τ) ∧
    τ.calls = [.pipe 0, .fork 0 echoCommand.1 none, .close (.writeEnd 0), .pipe 2,
      .fork 2 catCommand.1 (some 0), .close (.writeEnd 2), .copy 2 .stdout, .close (.readEnd 2),
      .close (.readEnd 0), .waitpid 2, .waitpid 0] :=
  exists_foreground _ (by decide) (by simp)

/-- `echo | cat`, when the first child has arranged its table. -/
theorem line_never_stuck_arranged : ∃ τ s,
    runLine ⟨fun _ => .exited 0, .exited 0⟩ (Line.pipeline ⟨echoCommand, [catCommand]⟩).commands 0 =
      some (.foreground τ) ∧
    [Actor.shell, .shell, .child 0].foldlM (System.step idle)
      (System.initial τ.calls (fun _ => []) fun _ => []) = some s ∧
    ∃ a s', s.Step idle a s' := by
  obtain ⟨τ, hτ, hcalls⟩ := echo_cat_calls
  obtain ⟨s, hs, hleft⟩ : ∃ s, [Actor.shell, .shell, .child 0].foldlM (System.step idle)
      (System.initial τ.calls (fun _ => []) fun _ => []) = some s ∧ s.calls ≠ [] := by
    rw [hcalls]
    exact ⟨_, rfl, List.cons_ne_nil _ _⟩
  exact ⟨τ, s, hτ, hs, (line_never_stuck hτ (run_of_foldlM hs)).1 hleft⟩

end

end SystemsProgramming.Shell

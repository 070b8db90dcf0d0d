import SystemsProgramming.Shell.Model

/-! Lines of pipelines joined by `&&` and `||`, and what they mean. The connectives associate to the
left, so a line is a tree that grows to the right end; its meaning is the list of forks, copies and
opened files that an observer of the shell sees. -/

namespace SystemsProgramming.Shell

/-- A command that is not an operator. -/
abbrev PlainCommand := { c : Command // isOperator c.name = false }

def Operator.command (op : Operator) : Command := ⟨op.text, []⟩

/-- One or more commands joined by `|`. -/
structure Pipeline where
  first : PlainCommand
  others : List PlainCommand

/-- What follows a command of a pipeline in the array. -/
def barredCommands : List PlainCommand → List Command
  | [] => []
  | c :: cs => Operator.pipe.command :: c.1 :: barredCommands cs

namespace Pipeline

def commands (p : Pipeline) : List Command := p.first.1 :: barredCommands p.others

/-- The position of the last command of a pipeline that begins at `i`. -/
def last (i : ℕ) (p : Pipeline) : ℕ := i + 2 * p.others.length

end Pipeline

/-- The forks for the commands to the right of the one at `i`. -/
def forksAfter (i : ℕ) : List PlainCommand → List Call
  | [] => []
  | c :: cs => .fork (i + 2) c.1 (some i) :: forksAfter (i + 2) cs

/-- The forks of a pipeline that begins at `i`: its first command reads from the shell's stdin, each
other command from the pipe of its left neighbour. -/
def Pipeline.forks (i : ℕ) (p : Pipeline) : List Call :=
  .fork i p.first.1 none :: forksAfter i p.others

inductive Connective
  | and | or

namespace Connective

def operator : Connective → Operator
  | and => .and
  | or => .or

/-- Whether the pipeline on the right runs, by the status of the last pipeline that ran. -/
def Runs (status : ℤ) : Connective → Prop
  | and => status = 0
  | or => status ≠ 0

instance (status : ℤ) : DecidablePred (Runs status) := fun op => by
  cases op <;> simp only [Runs] <;> infer_instance

end Connective

/-- `P1 op P2 op ... Pn`. -/
inductive Line
  | pipeline (p : Pipeline)
  | join (l : Line) (op : Connective) (p : Pipeline)

def Line.commands : Line → List Command
  | pipeline p => p.commands
  | join l op p => l.commands ++ op.operator.command :: p.commands

/-- The meaning of the left part of a line: the position after it, the status of the last pipeline
that ran, and what has been seen. -/
structure Progress where
  next : ℕ
  status : ℤ
  seen : List Call

section
variable (code : ℕ → ℤ)

/-- The pipeline runs, and its output is copied to the shell's stdout. -/
def Progress.run (g : Progress) (p : Pipeline) : Progress where
  next := p.last g.next + 1
  status := code (p.last g.next)
  seen := g.seen ++ p.forks g.next ++ [.copy (p.last g.next) .stdout]

/-- The pipeline is skipped as a whole. -/
def Progress.skip (g : Progress) (p : Pipeline) : Progress :=
  { g with next := p.last g.next + 1 }

/-- The connective has been passed. -/
def Progress.pass (g : Progress) : Progress := { g with next := g.next + 1 }

/-- The reference semantics: `code` gives the exit code of the command at each position. -/
def Line.progress : Line → Progress
  | pipeline p => (⟨0, 0, []⟩ : Progress).run code p
  | join l op p =>
    if op.Runs l.progress.status then l.progress.pass.run code p else l.progress.pass.skip p

/-- The line with the output of its last pipeline, if that runs, sent to a file. -/
def Line.redirected (file : CString) (overwrite : Bool) : Line → List Call
  | pipeline p => p.forks 0 ++ [.fopen file overwrite, .copy (p.last 0) (.file file)]
  | join l op p =>
    let g := (l.progress code).pass
    if op.Runs g.status then
      g.seen ++ p.forks g.next ++ [.fopen file overwrite, .copy (p.last g.next) (.file file)]
    else g.seen

end

/-- What an observer sees of the shell's calls. -/
def Call.Seen : Call → Bool
  | .fork .. => true
  | .copy .. => true
  | .fopen .. => true
  | _ => false

def Eval.seen (σ : Eval) : List Call := σ.calls.filter Call.Seen

@[simp] theorem length_barredCommands (cs : List PlainCommand) :
    (barredCommands cs).length = 2 * cs.length := by
  induction cs with
  | nil => rfl
  | cons c cs ih =>
    simp only [barredCommands, List.length_cons, ih]
    omega

@[simp] theorem Pipeline.length_commands (p : Pipeline) :
    p.commands.length = 2 * p.others.length + 1 := by simp [commands]

theorem Line.next_join (code : ℕ → ℤ) (l : Line) (op : Connective) (p : Pipeline) :
    ((join l op p).progress code).next = p.last (l.progress code).pass.next + 1 := by
  simp only [progress]
  split_ifs <;> rfl

theorem Line.length_commands (code : ℕ → ℤ) (l : Line) :
    l.commands.length = (l.progress code).next := by
  induction l with
  | pipeline p => simp [commands, progress, Progress.run, Pipeline.last]
  | join l op p ih =>
    rw [next_join]
    simp only [commands, List.length_append, List.length_cons, Pipeline.length_commands, ih,
      Pipeline.last, Progress.pass]
    omega

theorem Line.next_ne_zero (code : ℕ → ℤ) (l : Line) : (l.progress code).next ≠ 0 := by
  cases l with
  | pipeline p => exact Nat.succ_ne_zero _
  | join l op p =>
    rw [next_join]
    exact Nat.succ_ne_zero _

end SystemsProgramming.Shell

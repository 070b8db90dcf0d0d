import SystemsProgramming.Foundation.Loop
import Mathlib.Data.List.Basic
import Mathlib.Data.Int.Notation

/-! What the shell (`2/main.c`) does with a parsed line. A command of the line is named by its
position in the array; at most one child is forked for it, with one pipe for its output, so the child
and the pipe are named by the same position. The system calls of the shell's own process are listed
in order; `pipe`, `fork` and `fopen` succeed. A result of `none` is an access outside the array. -/

namespace SystemsProgramming.Shell

abbrev Byte := UInt8

/-- A string up to its terminating NUL. -/
abbrev CString := List Byte

def byte (c : Char) : Byte := c.toNat.toUInt8

inductive Operator
  | pipe | or | and | background | overwrite | append
  deriving DecidableEq

def Operator.text : Operator → CString
  | pipe => [byte '|']
  | or => [byte '|', byte '|']
  | and => [byte '&', byte '&']
  | background => [byte '&']
  | overwrite => [byte '>']
  | append => [byte '>', byte '>']

def exitName : CString := [byte 'e', byte 'x', byte 'i', byte 't']
def cdName : CString := [byte 'c', byte 'd']

/-- `is_operator`, which looks at the first character only. -/
def isOperator (string : CString) : Bool :=
  string.head?.any fun c => c = byte '&' || c = byte '|' || c = byte '>'

structure Command where
  name : CString
  argv : List CString
  deriving DecidableEq

/-- What `waitpid` stores: the child has exited with a code, or a signal has killed it. -/
inductive WaitStatus
  | exited (code : ℕ)
  | signaled (signal : ℕ)
  deriving DecidableEq

/-- `WIFEXITED(status) ? WEXITSTATUS(status) : 0`. -/
def WaitStatus.exitCode : WaitStatus → ℤ
  | exited code => code
  | signaled _ => 0

inductive Fd
  | readEnd (pipe : ℕ)
  | writeEnd (pipe : ℕ)
  deriving DecidableEq

inductive Dest
  | stdout
  | file (name : CString)
  deriving DecidableEq

/-- A system call of the shell's process, or a loop of them. -/
inductive Call
  | pipe (i : ℕ)
  /-- The child for the command at `i` is forked; its stdin is the read end of a pipe, or the
  shell's, and its stdout the write end of pipe `i`. -/
  | fork (i : ℕ) (command : Command) (stdin : Option ℕ)
  /-- Reads from pipe `i` until its end, and writes what it reads. -/
  | copy (i : ℕ) (dest : Dest)
  | close (fd : Fd)
  | fopen (name : CString) (overwrite : Bool)
  | fclose (name : CString)
  | waitpid (i : ℕ)
  | fcloseStdin
  deriving DecidableEq

/-- The outside of a line: how the child of each command ends, and what a status variable holds
before it is set. -/
structure Env where
  status : ℕ → WaitStatus
  unset : WaitStatus

/-- The variables of the evaluation loop of `main`, and the calls made so far. -/
structure Eval where
  commandArrayPtr : ℕ
  lastPipeEnd : Option ℕ
  lastOperator : Option CString
  lastChildExitCode : ℤ
  lastChildPid : Option ℕ
  childrenToWaitFor : List ℕ
  /-- The children waited for so far. -/
  reaped : List ℕ
  calls : List Call

namespace Eval

def call (σ : Eval) (cs : List Call) : Eval := { σ with calls := σ.calls ++ cs }

/-- `waitpid(pid, &status, 0)`, which leaves `status` as it is for a child already waited for. -/
def waitpid (env : Env) (pid : ℕ) (status : WaitStatus) (σ : Eval) : WaitStatus × Eval :=
  (if pid ∈ σ.reaped then status else env.status pid,
    { σ.call [.waitpid pid] with reaped := pid :: σ.reaped })

/-- Before `&&` or `||` is decided, the output of the pipeline on its left is copied and its last
child waited for. -/
def finishPipeline (env : Env) (σ : Eval) : Option Eval :=
  match σ.lastPipeEnd with
  | none => some σ
  | some lastPipeEnd => do
    let σ := σ.call [.copy lastPipeEnd .stdout, .close (.readEnd lastPipeEnd)]
    let σ := { σ with lastPipeEnd := none }
    let lastChildPid ← σ.lastChildPid
    let (status, σ) := σ.waitpid env lastChildPid env.unset
    return { σ with lastChildExitCode := status.exitCode }

/-- `command_array_ptr++; continue;` -/
def skip (σ : Eval) : Ctl Eval := .again { σ with commandArrayPtr := σ.commandArrayPtr + 1 }

end Eval

open Eval

section
variable (env : Env) (commands : List Command) (logicalCommandCount : ℕ)

/-- The part of the loop's body that forks the command at `command_array_ptr`. -/
def forkCommand (commandCountWithoutRedirection : ℕ) (σ : Eval) : Option (Ctl Eval) := do
  let i := σ.commandArrayPtr
  let command ← commands[i]?
  let σ := σ.call [.pipe i, .fork i command σ.lastPipeEnd, .close (.writeEnd i)]
  let σ := { σ with lastChildPid := some i, childrenToWaitFor := i :: σ.childrenToWaitFor }
  if i + 1 = logicalCommandCount then
    return .done (σ.call [.copy i .stdout, .close (.readEnd i)])
  else if i + 1 = commandCountWithoutRedirection then
    let redirector ← commands[logicalCommandCount - 2]?
    let file ← commands[logicalCommandCount - 1]?
    return .done (σ.call [.fopen file.name (redirector.name = Operator.overwrite.text),
      .copy i (.file file.name), .fclose file.name, .close (.readEnd i)])
  else
    let σ := σ.call (σ.lastPipeEnd.toList.map fun lastPipeEnd => .close (.readEnd lastPipeEnd))
    return .again { σ with lastOperator := none, lastPipeEnd := some i, commandArrayPtr := i + 1 }

/-- Whether `&&` or `||` skips the command on its right; any other operator is taken for `&&`. -/
def skips (lastOperator : CString) (lastChildExitCode : ℤ) : Bool :=
  if lastOperator = Operator.or.text then lastChildExitCode = 0 else lastChildExitCode ≠ 0

/-- The body of the loop once the command is known to be no operator. -/
def evaluateCommand (commandCountWithoutRedirection : ℕ) (σ : Eval) : Option (Ctl Eval) :=
  match σ.lastOperator with
  | none => forkCommand commands logicalCommandCount commandCountWithoutRedirection σ
  | some lastOperator =>
    if lastOperator ≠ Operator.pipe.text then do
      let σ ← σ.finishPipeline env
      if skips lastOperator σ.lastChildExitCode then return σ.skip
      let σ := { σ with lastOperator := none }
      forkCommand commands logicalCommandCount commandCountWithoutRedirection σ
    else if σ.commandArrayPtr ≠ 0 ∧ σ.lastPipeEnd = none then
      return { σ with lastOperator := none }.skip
    else forkCommand commands logicalCommandCount commandCountWithoutRedirection σ

/-- The body of the loop. -/
def evaluateStep (commandCountWithoutRedirection : ℕ) (σ : Eval) : Option (Ctl Eval) :=
  if σ.commandArrayPtr = logicalCommandCount then some (.done σ)
  else do
    let command ← commands[σ.commandArrayPtr]?
    if isOperator command.name then
      return { σ with lastOperator := some command.name }.skip
    else evaluateCommand env commands logicalCommandCount commandCountWithoutRedirection σ

end

/-- `get_command_count_before_redirection`. -/
def commandCountBeforeRedirection (commands : List Command) : Option ℕ :=
  if commands.length ≤ 1 then some commands.length
  else do
    let potentialRedirector ← commands[commands.length - 2]?
    if potentialRedirector.name = Operator.append.text ∨
        potentialRedirector.name = Operator.overwrite.text then
      return commands.length - 2
    else return commands.length

/-- The loop, and the `close` after it. Each turn of the loop that does not leave it moves to the
next command, so this fuel suffices. -/
def evaluate (env : Env) (commands : List Command) (logicalCommandCount : ℕ)
    (lastChildExitCode : ℤ) : Option Eval := do
  let commandCountWithoutRedirection ← commandCountBeforeRedirection commands
  let σ ← iterate
    (evaluateStep env commands logicalCommandCount commandCountWithoutRedirection)
    (logicalCommandCount + 1)
    { commandArrayPtr := 0, lastPipeEnd := none, lastOperator := none
      lastChildExitCode := lastChildExitCode, lastChildPid := none, childrenToWaitFor := []
      reaped := [], calls := [] }
  return σ.call (σ.lastPipeEnd.toList.map fun lastPipeEnd => .close (.readEnd lastPipeEnd))

/-- The loop at the end of a line that waits for the children. -/
def waitForChildren (env : Env) : List ℕ → WaitStatus → Eval → Eval
  | [], _, σ => σ
  | pid :: otherPids, status, σ =>
    let (status, σ) := σ.waitpid env pid status
    let σ := if some pid = σ.lastChildPid then { σ with lastChildExitCode := status.exitCode } else σ
    waitForChildren env otherPids status σ

/-- What `main` does with one line. -/
inductive LineResult
  | nothing
  | exits (command : Command)
  | changesDirectory (command : Command)
  /-- A subshell is forked, which closes its stdin and evaluates the line. -/
  | background (subshell : Eval)
  | foreground (σ : Eval)

def runLine (env : Env) (commands : List Command) (lastChildExitCode : ℤ) : Option LineResult := do
  match commands with
  | [] => return .nothing
  | firstCommand :: otherCommands =>
    if otherCommands = [] ∧ firstCommand.name = exitName then return .exits firstCommand
    else if otherCommands = [] ∧ firstCommand.name = cdName then
      return .changesDirectory firstCommand
    else
      let lastCommand ← commands[commands.length - 1]?
      if lastCommand.name = Operator.background.text then
        let σ ← evaluate env commands (commands.length - 1) lastChildExitCode
        let σ := { σ with calls := .fcloseStdin :: σ.calls }
        return .background (waitForChildren env σ.childrenToWaitFor (.exited 0) σ)
      else
        let σ ← evaluate env commands commands.length lastChildExitCode
        return .foreground (waitForChildren env σ.childrenToWaitFor (.exited 0) σ)

/-- A line as `main` reads it, with how its children end and what `chdir` returns if it is a lone
`cd`. -/
structure Input where
  env : Env
  commands : List Command
  chdir : ℤ

/-- How the shell ends: `main` returns at the end of its input, or a lone `exit` ends it. -/
inductive Outcome
  | returned (lastChildExitCode : ℤ)
  | exited (command : Command)

/-- The loop of `main` over the lines that are left. -/
def mainLoop : List Input → ℤ → Option Outcome
  | [], lastChildExitCode => some (.returned lastChildExitCode)
  | input :: otherInputs, lastChildExitCode => do
    match ← runLine input.env input.commands lastChildExitCode with
    | .nothing => mainLoop otherInputs lastChildExitCode
    | .exits command => return .exited command
    | .changesDirectory _ => mainLoop otherInputs input.chdir
    | .background _ => mainLoop otherInputs lastChildExitCode
    | .foreground σ => mainLoop otherInputs σ.lastChildExitCode

end SystemsProgramming.Shell

import SystemsProgramming.Shell.Dataflow
import SystemsProgramming.Shell.Redirection
import SystemsProgramming.Shell.Status

/-! What a line means when each program computes a function of its input. A pipeline is the composition of
its commands, `&&` and `||` go by the status of the last command of the pipeline that ran before, and what
is shown is the outputs of the pipelines that ran, one after the other. The shell and its children show
just that, in whichever order they make their steps. -/

namespace SystemsProgramming.Shell

open Transition

/-- What a program makes of an input, and in how many steps. -/
structure Effect where
  output : List Byte
  status : WaitStatus
  steps : ℕ

/-- What each command computes. -/
abbrev Meaning := Command → List Byte → Effect

def Computes {σ : Type} (P : Programs σ) (f : Meaning) : Prop := ∀ c input,
  Behaves P.act (P.start c) input (f c input).output (f c input).status (f c input).steps

/-! ### Lines -/

/-- The commands after the first one of a pipeline, each with the output of its left neighbour. -/
def effectAfter (f : Meaning) (r : Effect) : List PlainCommand → Effect
  | [] => r
  | c :: cs => effectAfter f (f c.1 r.output) cs

def Pipeline.effect (f : Meaning) (p : Pipeline) (input : List Byte) : Effect :=
  effectAfter f (f p.first.1 input) p.others

/-- The left part of a line: the position after it, the status of the last pipeline that ran, and what has
been shown. -/
structure Shown where
  next : ℕ
  status : ℤ
  output : List Byte

section
variable (f : Meaning) (input : ℕ → List Byte)

def Shown.run (s : Shown) (p : Pipeline) : Shown where
  next := p.last s.next + 1
  status := (p.effect f (input s.next)).status.exitCode
  output := s.output ++ (p.effect f (input s.next)).output

def Shown.skip (s : Shown) (p : Pipeline) : Shown := { s with next := p.last s.next + 1 }

def Shown.pass (s : Shown) : Shown := { s with next := s.next + 1 }

/-- What a line shows. What the pipeline that begins at a position can read of the stdin of the shell is the
input there. -/
def Line.shown : Line → Shown
  | pipeline p => (⟨0, 0, []⟩ : Shown).run f input p
  | join l op p =>
    if op.Runs l.shown.status then l.shown.pass.run f input p else l.shown.pass.skip p

/-- The status that a line leaves. One whose last pipeline is skipped leaves 0. -/
def Line.exitCode : Line → ℤ
  | pipeline p => ((pipeline p).shown f input).status
  | join l op p =>
    if op.Runs (l.shown f input).status then ((join l op p).shown f input).status else 0

/-- A line with a redirection: what it shows, and what it sends to the file if its last pipeline runs. -/
def Line.sent : Line → List Byte × Option (List Byte)
  | pipeline p => ([], some (p.effect f (input 0)).output)
  | join l op p =>
    let s := (l.shown f input).pass
    (s.output, if op.Runs s.status then some (p.effect f (input s.next)).output else none)

/-- The last pipeline is skipped by `||`, and the name of the file is run as a command. -/
def Line.Walks (file : CString) : Line → Prop
  | pipeline _ => False
  | join l op _ => op = .or ∧ (l.shown f input).status = 0 ∧ isOperator file = false

/-- The contents of a file that has been opened to be written or appended to, if it has. -/
def sendTo (overwrite : Bool) (contents : List Byte) : Option (List Byte) → List Byte
  | none => contents
  | some bs => (if overwrite then [] else contents) ++ bs

/-! ### Positions -/

def effectAt (cs : List Command) (i : ℕ) (stdin : List Byte) : Effect :=
  match cs[i]? with
  | none => ⟨[], .exited 0, 0⟩
  | some c => f c stdin

/-- What the command at each position of the array computes in its place. -/
def results (cs : List Command) : ℕ → Effect
  | 0 => effectAt f cs 0 (input 0)
  | 1 => effectAt f cs 1 (input 1)
  | i + 2 => effectAt f cs (i + 2)
    (if cs[i + 1]? = some Operator.pipe.command then (results cs i).output else input (i + 2))

/-- How the children of a line end. -/
def lineEnv (cs : List Command) (unset : WaitStatus) : Env :=
  ⟨fun i => (results f input cs i).status, unset⟩

def lineBehaviour (cs : List Command) : Behaviour where
  output i := (results f input cs i).output
  status i := (results f input cs i).status
  steps i := (results f input cs i).steps

end

section
variable {f : Meaning} {input : ℕ → List Byte} {cs tail : List Command} {i : ℕ} {c : Command}

theorem results_first (hc : cs[i]? = some c)
    (hfirst : ∀ j, i = j + 1 → cs[j]? ≠ some Operator.pipe.command) :
    results f input cs i = f c (input i) := by
  match i with
  | 0 => rw [results, effectAt, hc]
  | 1 => rw [results, effectAt, hc]
  | i + 2 => rw [results, if_neg (hfirst (i + 1) rfl), effectAt, hc]

theorem results_piped (hbar : cs[i + 1]? = some Operator.pipe.command) (hc : cs[i + 2]? = some c) :
    results f input cs (i + 2) = f c (results f input cs i).output := by
  rw [results, if_pos hbar, effectAt, hc]

/-- The command at the position computes its part from what it is to read. -/
def Placed (f : Meaning) (input : ℕ → List Byte) (cs : List Command) (i : ℕ) (c : Command)
    (stdin : Option ℕ) : Prop :=
  results f input cs i = f c ((lineBehaviour f input cs).incoming input i stdin)

theorem placed_forksAfter (f : Meaning) (input : ℕ → List Byte) {ds : List PlainCommand}
    (hcs : c :: barredCommands ds ++ tail <+: cs.drop i) :
    results f input cs (i + 2 * ds.length) = effectAfter f (results f input cs i) ds ∧
      ∀ j d stdin, .fork j d stdin ∈ forksAfter i ds → Placed f input cs j d stdin := by
  induction ds generalizing c i with
  | nil => exact ⟨rfl, fun j d stdin h => absurd h List.not_mem_nil⟩
  | cons d ds ih =>
    obtain ⟨-, hcs⟩ := uncons_drop hcs
    obtain ⟨hbar, hcs⟩ := uncons_drop hcs
    have hd := (uncons_drop hcs).1
    have hpiped : results f input cs (i + 2) = f d.1 (results f input cs i).output :=
      results_piped hbar hd
    obtain ⟨hlast, hforks⟩ := ih hcs
    have hlen : i + 2 * (d :: ds).length = i + 1 + 1 + 2 * ds.length := by
      rw [List.length_cons]
      omega
    rw [hlen, hlast, effectAfter, hpiped]
    refine ⟨rfl, fun j e stdin h => ?_⟩
    rcases List.mem_cons.mp h with heq | h
    · obtain ⟨rfl, rfl, rfl⟩ := Call.fork.inj heq
      exact hpiped
    · exact hforks j e stdin h

theorem Pipeline.placed (p : Pipeline) (f : Meaning) (input : ℕ → List Byte)
    (hcs : p.commands ++ tail <+: cs.drop i)
    (hfirst : ∀ j, i = j + 1 → cs[j]? ≠ some Operator.pipe.command) :
    results f input cs (p.last i) = p.effect f (input i) ∧
      ∀ j d stdin, .fork j d stdin ∈ p.forks i → Placed f input cs j d stdin := by
  have hself : results f input cs i = f p.first.1 (input i) := results_first (uncons_drop hcs).1 hfirst
  obtain ⟨hlast, hforks⟩ := placed_forksAfter f input hcs
  rw [hself] at hlast
  refine ⟨hlast, fun j d stdin h => ?_⟩
  rcases List.mem_cons.mp h with heq | h
  · obtain ⟨rfl, rfl, rfl⟩ := Call.fork.inj heq
    exact hself
  · exact hforks j d stdin h

end

/-! ### What is seen and what is shown -/

section
variable {output : ℕ → List Byte} {dest : Dest} {cs ds : List Call}

theorem outcome_append (bs : List Byte) :
    outcome output dest (cs ++ ds) bs = outcome output dest ds (outcome output dest cs bs) :=
  List.foldl_append ..

/-- Only what is seen makes a difference. -/
theorem outcome_seen (bs : List Byte) :
    outcome output dest (cs.filter Call.Seen) bs = outcome output dest cs bs := by
  induction cs generalizing bs with
  | nil => rfl
  | cons c cs ih =>
    rw [List.filter_cons]
    cases c <;> exact ih _

theorem outcome_forksAfter (i : ℕ) (cs : List PlainCommand) (bs : List Byte) :
    outcome output dest (forksAfter i cs) bs = bs := by
  induction cs generalizing i with
  | nil => rfl
  | cons c cs ih => exact ih (i + 2)

theorem outcome_forks (i : ℕ) (p : Pipeline) (bs : List Byte) :
    outcome output dest (p.forks i) bs = bs := outcome_forksAfter i p.others bs

theorem outcome_copy (i : ℕ) (d : Dest) (bs : List Byte) :
    outcome output dest [.copy i d] bs = if d = dest then bs ++ output i else bs := rfl

end

section
variable {f : Meaning} {input : ℕ → List Byte} {cs tail : List Command} {code : ℕ → ℤ} {g : Progress}
  {s : Shown} {p : Pipeline} {l : Line}

/-- The children that have been seen compute their parts. -/
def AllPlaced (f : Meaning) (input : ℕ → List Byte) (cs : List Command) (seen : List Call) : Prop :=
  ∀ i c stdin, .fork i c stdin ∈ seen → Placed f input cs i c stdin

theorem allPlaced_append {ds es : List Call} :
    AllPlaced f input cs (ds ++ es) ↔ AllPlaced f input cs ds ∧ AllPlaced f input cs es := by
  simp only [AllPlaced, List.mem_append, or_imp, forall_and]

theorem allPlaced_of_no_fork {ds : List Call} (h : ∀ i c stdin, .fork i c stdin ∉ ds) :
    AllPlaced f input cs ds := fun i c stdin hmem => absurd hmem (h i c stdin)

/-- The command before the one at the position after a connective is no `|`. -/
theorem Line.not_piped (code : ℕ → ℤ) {op : Connective} {rest : List Command}
    (hcs : l.commands ++ op.operator.command :: rest = cs) {j : ℕ}
    (hj : (l.progress code).pass.next = j + 1) : cs[j]? ≠ some Operator.pipe.command := by
  obtain rfl : (l.progress code).next = j := Nat.succ_injective hj
  rw [← hcs, ← l.length_commands code]
  simp only [List.getElem?_append_right (Nat.le_refl _), Nat.sub_self, List.getElem?_cons_zero]
  cases op <;> decide

/-- What is seen of a line and of a line with a redirection is of pipelines in their places. -/
theorem Line.placed (code : ℕ → ℤ) (name : CString) (overwrite : Bool) (hcs : l.commands ++ tail = cs) :
    AllPlaced f input cs (l.progress code).seen ∧
      AllPlaced f input cs (l.redirected code name overwrite) := by
  induction l generalizing tail with
  | pipeline p =>
    have hrest : p.commands ++ tail <+: cs.drop 0 := by
      rw [← hcs]
      exact List.prefix_rfl
    have hforks : AllPlaced f input cs (p.forks 0) :=
      (p.placed f input hrest fun j hj => absurd hj (Nat.succ_ne_zero j).symm).2
    exact ⟨allPlaced_append.mpr ⟨hforks, allPlaced_of_no_fork (by simp)⟩,
      allPlaced_append.mpr ⟨hforks, allPlaced_of_no_fork (by simp)⟩⟩
  | join l op p ih =>
    have hcs' : l.commands ++ op.operator.command :: (p.commands ++ tail) = cs := by
      rw [← hcs]
      simp [Line.commands]
    have hl : AllPlaced f input cs (l.progress code).pass.seen := (ih hcs').1
    have hrest : p.commands ++ tail <+: cs.drop (l.progress code).pass.next := by
      rw [← hcs', drop_join]
    have hforks : AllPlaced f input cs (p.forks (l.progress code).pass.next) :=
      (p.placed f input hrest fun j hj => l.not_piped code hcs' hj).2
    rw [progress, redirected]
    constructor
    · split_ifs
      · exact allPlaced_append.mpr ⟨allPlaced_append.mpr ⟨hl, hforks⟩, allPlaced_of_no_fork (by simp)⟩
      · exact hl
    · split_ifs
      · exact allPlaced_append.mpr ⟨allPlaced_append.mpr ⟨hl, hforks⟩, allPlaced_of_no_fork (by simp)⟩
      · exact hl

/-- What has been seen of a line shows what the line means. -/
structure Agrees (f : Meaning) (input : ℕ → List Byte) (cs : List Command) (g : Progress) (s : Shown) :
    Prop where
  next : s.next = g.next
  status : s.status = g.status
  stdout : ∀ bs, outcome (lineBehaviour f input cs).output .stdout g.seen bs = bs ++ s.output
  file : ∀ name bs, outcome (lineBehaviour f input cs).output (.file name) g.seen bs = bs

theorem Agrees.nil : Agrees f input cs ⟨0, 0, []⟩ ⟨0, 0, []⟩ where
  next := rfl
  status := rfl
  stdout bs := (List.append_nil bs).symm
  file _ _ := rfl

theorem Agrees.pass (h : Agrees f input cs g s) : Agrees f input cs g.pass s.pass where
  next := congrArg (· + 1) h.next
  status := h.status
  stdout := h.stdout
  file := h.file

theorem Agrees.skip (h : Agrees f input cs g s) : Agrees f input cs (g.skip p) (s.skip p) where
  next := by
    show p.last s.next + 1 = p.last g.next + 1
    rw [h.next]
  status := h.status
  stdout := h.stdout
  file := h.file

/-- The status is the one that the last command computes. -/
def Honest (f : Meaning) (input : ℕ → List Byte) (cs : List Command) (code : ℕ → ℤ) (seen : List Call) :
    Prop :=
  ∀ i dest, .copy i dest ∈ seen → code i = (results f input cs i).status.exitCode

theorem Agrees.run (h : Agrees f input cs g s)
    (hcode : code (p.last g.next) = (results f input cs (p.last g.next)).status.exitCode)
    (hcs : p.commands ++ tail <+: cs.drop g.next)
    (hfirst : ∀ j, g.next = j + 1 → cs[j]? ≠ some Operator.pipe.command) :
    Agrees f input cs (g.run code p) (s.run f input p) := by
  obtain ⟨hlast, -⟩ := p.placed f input hcs hfirst
  constructor
  · show p.last s.next + 1 = p.last g.next + 1
    rw [h.next]
  · show (p.effect f (input s.next)).status.exitCode = code (p.last g.next)
    rw [hcode, hlast, h.next]
  · intro bs
    show outcome _ _ (g.seen ++ p.forks g.next ++ [.copy (p.last g.next) .stdout]) bs = _
    rw [outcome_append, outcome_append, outcome_forks, outcome_copy, if_pos rfl, h.stdout,
      List.append_assoc]
    show bs ++ (s.output ++ (results f input cs (p.last g.next)).output) = _
    rw [hlast, ← h.next]
    rfl
  · intro name bs
    show outcome _ _ (g.seen ++ p.forks g.next ++ [.copy (p.last g.next) .stdout]) bs = _
    rw [outcome_append, outcome_append, outcome_forks, outcome_copy, if_neg (by simp), h.file]

theorem Line.agrees (hcode : Honest f input cs code (l.progress code).seen)
    (hcs : l.commands ++ tail = cs) : Agrees f input cs (l.progress code) (l.shown f input) := by
  induction l generalizing tail with
  | pipeline p =>
    have hrest : p.commands ++ tail <+: cs.drop 0 := by
      rw [← hcs]
      exact List.prefix_rfl
    exact Agrees.nil.run (hcode _ .stdout (by simp [progress, Progress.run])) hrest
      fun j hj => absurd hj (Nat.succ_ne_zero j).symm
  | join l op p ih =>
    have hcs' : l.commands ++ op.operator.command :: (p.commands ++ tail) = cs := by
      rw [← hcs]
      simp [Line.commands]
    have hrest : p.commands ++ tail <+: cs.drop (l.progress code).pass.next := by
      rw [← hcs', drop_join]
    rw [progress] at hcode ⊢
    rw [shown]
    by_cases hruns : op.Runs (l.progress code).status
    · rw [if_pos hruns] at hcode ⊢
      have hl := ih (fun i dest hi => hcode i dest (by simp [Progress.run, Progress.pass, hi])) hcs'
      rw [hl.status, if_pos hruns]
      exact hl.pass.run (hcode _ .stdout (by simp [Progress.run])) hrest
        fun j hj => l.not_piped code hcs' hj
    · rw [if_neg hruns] at hcode ⊢
      have hl := ih hcode hcs'
      rw [hl.status, if_neg hruns]
      exact hl.pass.skip

end

/-! ### The run of a line -/

section
variable {f : Meaning} {input : ℕ → List Byte} {cs tail : List Command} {l : Line} {env : Env} {e : ℤ}
  {τ : Eval} {σ : Type} {P : Programs σ} {written : Dest → List Byte} {as : List Actor} {s : System σ}
  {name : CString} {overwrite : Bool} {file : Command}

theorem fork_mem_seen {i : ℕ} {c : Command} {stdin : Option ℕ} :
    .fork i c stdin ∈ τ.seen ↔ .fork i c stdin ∈ τ.calls := by
  rw [Eval.seen, List.mem_filter]
  exact and_iff_left rfl

theorem copy_mem_seen {i : ℕ} {dest : Dest} : .copy i dest ∈ τ.seen ↔ .copy i dest ∈ τ.calls := by
  rw [Eval.seen, List.mem_filter]
  exact and_iff_left rfl

/-- The children do what is computed for their places. -/
theorem explains_of_placed (hf : Computes P f) (hplaced : AllPlaced f input cs τ.seen) :
    Explains P input (lineBehaviour f input cs) τ.calls := by
  intro i c stdin hmem
  have h := hplaced i c stdin (fork_mem_seen.mpr hmem)
  show Behaves P.act (P.start c) _ (results f input cs i).output (results f input cs i).status
    (results f input cs i).steps
  rw [h]
  exact hf c _

/-- The statuses of the children that are copied are those that the shell went by. -/
def Truthful (env : Env) (cs : List Call) (collected : List (ℕ × WaitStatus)) : Prop :=
  ∀ i status dest, (i, status) ∈ collected → .copy i dest ∈ cs → status = env.status i

/-- What becomes of a line with these calls whose children are in their places. -/
theorem placed_outcome (hf : Computes P f) (h : runLine env cs e = some (.foreground τ))
    (hplaced : AllPlaced f input cs τ.seen)
    (hrun : Run (System.Step P) (System.initial τ.calls input written) as s) :
    as.length ≤ runSteps (lineBehaviour f input cs) τ.calls ∧ (s.calls ≠ [] → ∃ a s', s.Step P a s') ∧
      (s.calls = [] →
        (∀ dest, s.written dest = outcome (lineBehaviour f input cs).output dest τ.seen (written dest)) ∧
        (Truthful env τ.calls s.collected ↔ ∀ i dest, .copy i dest ∈ τ.seen →
          env.status i = (results f input cs i).status)) := by
  have hcs := runLine_keeps h
  have hB := explains_of_placed hf hplaced
  obtain ⟨h₁, past, rest, left, hC, -⟩ := carries_run hcs hB hrun
  obtain ⟨hsteps, hend⟩ := run_outcome hcs hB hrun
  refine ⟨hsteps, hC.consistent.goes_on, fun hcalls => ?_⟩
  obtain ⟨hwritten, hfits, hall⟩ := hend hcalls
  refine ⟨fun dest => ?_, fun htrue i dest hcopy => ?_, fun hstatus i status dest hi hcopy => ?_⟩
  · rw [hwritten, Eval.seen, outcome_seen]
  · have hcopy := copy_mem_seen.mp hcopy
    exact (htrue i _ dest (hall i dest hcopy) hcopy).symm
  · rw [hstatus i dest (copy_mem_seen.mpr hcopy)]
    exact (hfits i status hi).resolve_right fun hkilled => hkilled.2 dest hcopy

theorem honest_of_status {seen : List Call}
    (h : ∀ i dest, .copy i dest ∈ seen → env.status i = (results f input cs i).status) :
    Honest f input cs env.code seen := fun i dest hi => congrArg WaitStatus.exitCode (h i dest hi)

theorem foreground_seen (env : Env) (e : ℤ)
    (hlone : ∀ c, l.commands = [c] → c.name ≠ exitName ∧ c.name ≠ cdName) :
    ∃ τ, runLine env l.commands e = some (.foreground τ) ∧ τ.seen = (l.progress env.code).seen ∧
      (l.Skipped env.code → τ.lastChildExitCode = 0) ∧
      (¬l.Skipped env.code → τ.lastChildExitCode = (l.progress env.code).status) := by
  obtain ⟨τ, hτ, hskipped, hran⟩ := runLine_code env e l hlone
  obtain ⟨t, ht, hseen, -⟩ := exits_line env e l [] (Nat.le_refl _)
  rw [List.append_nil] at ht
  have hsame := LineResult.foreground.inj (Option.some.inj (hτ.symm.trans (l.runLine_of_exits hlone ht)))
  refine ⟨τ, hτ, ?_, hskipped, hran⟩
  rw [hsame, seen_waitForChildren, seen_closeLastPipeEnd, hseen]

theorem seen_of_foreground (hlone : ∀ c, l.commands = [c] → c.name ≠ exitName ∧ c.name ≠ cdName)
    (h : runLine env l.commands e = some (.foreground τ)) : τ.seen = (l.progress env.code).seen := by
  obtain ⟨τ', hτ', hseen, -⟩ := foreground_seen env e hlone
  obtain rfl := LineResult.foreground.inj (Option.some.inj (h.symm.trans hτ'))
  exact hseen

/-- The status that is left, as the statuses of the children have it. -/
theorem Line.exitCode_eq {code : ℕ → ℤ} (hcode : Honest f input cs code (l.progress code).seen)
    (hcs : l.commands ++ tail = cs) : (l.Skipped code → l.exitCode f input = 0) ∧
      (¬l.Skipped code → l.exitCode f input = (l.progress code).status) := by
  have hall := l.agrees hcode hcs
  cases l with
  | pipeline p => exact ⟨fun h => h.elim, fun _ => hall.status⟩
  | join l op p =>
    have hcs' : l.commands ++ op.operator.command :: (p.commands ++ tail) = cs := by
      rw [← hcs]
      simp [Line.commands]
    have hl : (l.shown f input).status = (l.progress code).status := by
      refine (l.agrees (fun i dest hi => hcode i dest ?_) hcs').status
      rw [progress]
      split_ifs
      · simp [Progress.run, Progress.pass, hi]
      · exact hi
    rw [exitCode, hl, Skipped]
    exact ⟨fun hskip => if_neg hskip, fun hskip => (if_pos (not_not.mp hskip)).trans hall.status⟩

/-- A run of a line whose statuses were those that the shell went by shows what the line means. -/
theorem line_sound (hf : Computes P f)
    (hlone : ∀ c, l.commands = [c] → c.name ≠ exitName ∧ c.name ≠ cdName)
    (h : runLine env l.commands e = some (.foreground τ))
    (hrun : Run (System.Step P) (System.initial τ.calls input written) as s) (hcalls : s.calls = [])
    (htrue : Truthful env τ.calls s.collected) :
    s.written .stdout = written .stdout ++ (l.shown f input).output ∧
      (∀ name, s.written (.file name) = written (.file name)) ∧
      τ.lastChildExitCode = l.exitCode f input := by
  obtain ⟨τ', hτ', hseen, hskipped, hran⟩ := foreground_seen env e hlone
  obtain rfl := LineResult.foreground.inj (Option.some.inj (h.symm.trans hτ'))
  have hplaced : AllPlaced f input l.commands τ.seen :=
    hseen ▸ (l.placed env.code [] false (List.append_nil _)).1
  obtain ⟨hwritten, hiff⟩ := (placed_outcome hf h hplaced hrun).2.2 hcalls
  have hcode : Honest f input l.commands env.code (l.progress env.code).seen :=
    honest_of_status (hseen ▸ hiff.mp htrue)
  have hl := l.agrees hcode (List.append_nil _)
  refine ⟨by rw [hwritten, hseen, hl.stdout], fun name => by rw [hwritten, hseen, hl.file], ?_⟩
  obtain ⟨hzero, hstatus⟩ := l.exitCode_eq hcode (List.append_nil _)
  by_cases hskip : l.Skipped env.code
  · rw [hskipped hskip, hzero hskip]
  · rw [hran hskip, hstatus hskip]

/-- No run of a line goes on for ever or gets stuck, and its statuses are those that the commands compute. -/
theorem line_runs (hf : Computes P f)
    (hlone : ∀ c, l.commands = [c] → c.name ≠ exitName ∧ c.name ≠ cdName) (e : ℤ) (unset : WaitStatus)
    (input : ℕ → List Byte) :
    ∃ τ, runLine (lineEnv f input l.commands unset) l.commands e = some (.foreground τ) ∧
      ∀ (written : Dest → List Byte) as s, Run (System.Step P) (System.initial τ.calls input written) as s →
        as.length ≤ runSteps (lineBehaviour f input l.commands) τ.calls ∧
        (s.calls ≠ [] → ∃ a s', s.Step P a s') ∧
        (s.calls = [] → Truthful (lineEnv f input l.commands unset) τ.calls s.collected) := by
  obtain ⟨τ, hτ, hseen, -⟩ := foreground_seen (lineEnv f input l.commands unset) e hlone
  have hplaced : AllPlaced f input l.commands τ.seen :=
    hseen ▸ (l.placed (lineEnv f input l.commands unset).code [] false (List.append_nil _)).1
  refine ⟨τ, hτ, fun written as s hrun => ?_⟩
  obtain ⟨hsteps, hgo, hend⟩ := placed_outcome hf hτ hplaced hrun
  exact ⟨hsteps, hgo, fun hcalls => (hend hcalls).2.mpr fun i dest hi => rfl⟩

/-- Let each program compute a function of its input. Then a line shows what it means: it never gets stuck,
it comes to its end in so many steps at most, and then the shell has written the output of each pipeline
that runs, in order, has touched no file, and has the status that the line leaves. The statuses that it
went by are those of the children. -/
theorem line_meaning (hf : Computes P f)
    (hlone : ∀ c, l.commands = [c] → c.name ≠ exitName ∧ c.name ≠ cdName) (e : ℤ) (unset : WaitStatus)
    (input : ℕ → List Byte) (written : Dest → List Byte) :
    ∃ τ, runLine (lineEnv f input l.commands unset) l.commands e = some (.foreground τ) ∧
      ∀ as s, Run (System.Step P) (System.initial τ.calls input written) as s →
        as.length ≤ runSteps (lineBehaviour f input l.commands) τ.calls ∧
        (s.calls ≠ [] → ∃ a s', s.Step P a s') ∧
        (s.calls = [] → Truthful (lineEnv f input l.commands unset) τ.calls s.collected ∧
          s.written .stdout = written .stdout ++ (l.shown f input).output ∧
          (∀ name, s.written (.file name) = written (.file name)) ∧
          τ.lastChildExitCode = l.exitCode f input) := by
  obtain ⟨τ, hτ, hruns⟩ := line_runs hf hlone e unset input
  refine ⟨τ, hτ, fun as s hrun => ?_⟩
  obtain ⟨hsteps, hgo, hend⟩ := hruns written as s hrun
  exact ⟨hsteps, hgo, fun hcalls => ⟨hend hcalls, line_sound hf hlone hτ hrun hcalls (hend hcalls)⟩⟩

end

/-- The functions that the two programs compute. -/
def lettersMeaning : Meaning := fun c input =>
  if c = echoCommand.1 then ⟨[byte 'a'], .exited 0, 2⟩ else ⟨input, .exited 0, 2 * input.length + 2⟩

theorem letters_computes : Computes letters lettersMeaning := by
  intro c input
  rw [lettersMeaning]
  show Behaves Letters.act (if c = echoCommand.1 then .letter else .copies) _ _ _ _
  split_ifs
  · exact letters_echo input
  · exact letters_cat input

/-- `echo | cat && echo || cat` -/
def echoLine : Line :=
  .join (.join (.pipeline ⟨echoCommand, [catCommand]⟩) .and ⟨echoCommand, []⟩) .or ⟨catCommand, []⟩

/-- The line shows two letters. -/
theorem line_meaning_echo : ∃ τ, runLine (lineEnv lettersMeaning (fun _ => []) echoLine.commands (.exited 0))
      echoLine.commands 0 = some (.foreground τ) ∧
    ∀ as s, Run (System.Step letters) (System.initial τ.calls (fun _ => []) fun _ => []) as s →
      s.calls = [] → s.written .stdout = [byte 'a', byte 'a'] := by
  obtain ⟨τ, hτ, hrun⟩ := line_meaning letters_computes (l := echoLine)
    (by simp [echoLine, Line.commands, Pipeline.commands]) 0 (.exited 0) (fun _ => []) fun _ => []
  exact ⟨τ, hτ, fun as s has hcalls => ((hrun as s has).2.2 hcalls).2.1⟩

/-! ### A line with a redirection -/

section
variable {f : Meaning} {input : ℕ → List Byte} {cs tail : List Command} {l : Line} {env : Env} {e : ℤ}
  {code : ℕ → ℤ} {g : Progress} {p : Pipeline} {t : Shown} {τ : Eval} {σ : Type} {P : Programs σ}
  {written : Dest → List Byte} {as : List Actor} {s : System σ} {name : CString} {overwrite : Bool}
  {file : Command}

/-- What has been seen sends what is to be sent. -/
structure Sends (f : Meaning) (input : ℕ → List Byte) (cs : List Command) (name : CString)
    (overwrite : Bool) (seen : List Call) (sent : List Byte × Option (List Byte)) : Prop where
  stdout : ∀ bs, outcome (lineBehaviour f input cs).output .stdout seen bs = bs ++ sent.1
  file : ∀ bs, outcome (lineBehaviour f input cs).output (.file name) seen bs =
    sendTo overwrite bs sent.2
  other : ∀ d bs, d ≠ name → outcome (lineBehaviour f input cs).output (.file d) seen bs = bs

theorem Agrees.sends (h : Agrees f input cs g t) (hcs : p.commands ++ tail <+: cs.drop g.next)
    (hfirst : ∀ j, g.next = j + 1 → cs[j]? ≠ some Operator.pipe.command) :
    Sends f input cs name overwrite
      (g.seen ++ p.forks g.next ++ [.fopen name overwrite, .copy (p.last g.next) (.file name)])
      (t.output, some (p.effect f (input t.next)).output) := by
  obtain ⟨hlast, -⟩ := p.placed f input hcs hfirst
  have hend : ∀ dest bs, outcome (lineBehaviour f input cs).output dest
      [.fopen name overwrite, .copy (p.last g.next) (.file name)] bs =
        if .file name = dest then (if overwrite then [] else bs) ++ (p.effect f (input t.next)).output
        else bs := by
    intro dest bs
    rw [h.next, ← hlast]
    by_cases hdest : .file name = dest
    · subst hdest
      simp [outcome, Call.write, lineBehaviour]
    · simp [outcome, Call.write, hdest, Ne.symm hdest]
  constructor
  · intro bs
    rw [outcome_append, outcome_append, outcome_forks, hend, if_neg (by simp), h.stdout]
  · intro bs
    rw [outcome_append, outcome_append, outcome_forks, hend, if_pos rfl, h.file]
    rfl
  · intro d bs hd
    rw [outcome_append, outcome_append, outcome_forks, hend, if_neg (by simpa using Ne.symm hd), h.file]

theorem Line.sends (hcode : Honest f input cs code (l.redirected code name overwrite))
    (hcs : l.commands ++ tail = cs) :
    Sends f input cs name overwrite (l.redirected code name overwrite) (l.sent f input) := by
  cases l with
  | pipeline p =>
    have hrest : p.commands ++ tail <+: cs.drop 0 := by
      rw [← hcs]
      exact List.prefix_rfl
    exact Agrees.nil.sends hrest fun j hj => absurd hj (Nat.succ_ne_zero j).symm
  | join l op p =>
    have hcs' : l.commands ++ op.operator.command :: (p.commands ++ tail) = cs := by
      rw [← hcs]
      simp [Line.commands]
    have hl : Agrees f input cs (l.progress code) (l.shown f input) := by
      refine l.agrees (fun i dest hi => hcode i dest ?_) hcs'
      rw [redirected]
      split_ifs
      · simp [Progress.pass, hi]
      · exact hi
    have hrest : p.commands ++ tail <+: cs.drop (l.progress code).pass.next := by
      rw [← hcs', drop_join]
    have hstatus : (l.shown f input).pass.status = (l.progress code).pass.status := hl.status
    simp only [redirected, sent, hstatus]
    split_ifs with hruns
    · exact hl.pass.sends hrest fun j hj => l.not_piped code hcs' hj
    · exact ⟨hl.stdout, hl.file name, fun d bs _ => hl.file d bs⟩

/-- The foreground run of a line with a redirection that ends the loop in a state. -/
theorem runLine_redirected {u : Eval} (hfile : file.name ≠ Operator.background.text)
    (hu : Exits (evaluateStep env (l.redirectedCommands overwrite file) (l.commands.length + 2)
      l.commands.length) (start e) u) : ∃ τ,
    runLine env (l.redirectedCommands overwrite file) e = some (.foreground τ) ∧ τ.seen = u.seen := by
  rw [← l.length_redirectedCommands overwrite file] at hu
  have hlone : ∀ c, l.redirectedCommands overwrite file = [c] → c.name ≠ exitName ∧ c.name ≠ cdName :=
    fun c hc => absurd hc (l.redirectedCommands_ne_singleton overwrite file c)
  refine ⟨_, runLine_foreground hlone (l.getLast?_redirectedCommands overwrite file) hfile
    (evaluate_of_exits (l.commandCount_redirected overwrite file) hu), ?_⟩
  rw [seen_waitForChildren, seen_closeLastPipeEnd]

theorem seen_of_redirected (hfile : file.name ≠ Operator.background.text)
    (hnot : ¬l.WalksIntoFile env.code file.name)
    (h : runLine env (l.redirectedCommands overwrite file) e = some (.foreground τ)) :
    τ.seen = l.redirected env.code file.name overwrite := by
  obtain ⟨u, hu, hiff⟩ := exits_redirected env e l overwrite file
  obtain ⟨τ', hτ', hseen⟩ := runLine_redirected hfile hu
  obtain rfl := LineResult.foreground.inj (Option.some.inj (h.symm.trans hτ'))
  rw [hseen, hiff.mpr hnot]

/-- The file, where the loop walks into it, is in its place like any command. -/
theorem placed_walked (f : Meaning) (input : ℕ → List Byte) (overwrite : Bool)
    (hop : isOperator file.name = false) (hstatus : (l.progress code).status = 0) :
    l.walked code file = (l.progress code).seen ++ [.fork (l.commands.length + 1) file none,
        .copy (l.commands.length + 1) .stdout] ∧
      AllPlaced f input (l.redirectedCommands overwrite file) (l.walked code file) := by
  have hwalked : l.walked code file = (l.progress code).seen ++
      [.fork (l.commands.length + 1) file none, .copy (l.commands.length + 1) .stdout] :=
    if_pos ⟨hstatus, hop⟩
  have hfile := l.get_file overwrite file []
  have hredirector := l.get_redirector overwrite file []
  rw [List.append_nil] at hfile hredirector
  refine ⟨hwalked, ?_⟩
  rw [hwalked]
  refine allPlaced_append.mpr ⟨(l.placed code [] overwrite rfl).1, fun i c stdin hmem => ?_⟩
  obtain ⟨rfl, rfl, rfl⟩ : i = l.commands.length + 1 ∧ c = file ∧ stdin = none := by simpa using hmem
  refine results_first hfile fun j hj => ?_
  obtain rfl := Nat.succ_injective hj
  rw [hredirector]
  cases overwrite <;> decide

/-- A run walks into the file only if the commands make it. -/
theorem walks_of_run (hf : Computes P f) (hfile : file.name ≠ Operator.background.text)
    (h : runLine env (l.redirectedCommands overwrite file) e = some (.foreground τ))
    (hrun : Run (System.Step P) (System.initial τ.calls input written) as s) (hcalls : s.calls = [])
    (htrue : Truthful env τ.calls s.collected) (hwalks : l.WalksIntoFile env.code file.name) :
    l.Walks f input file.name := by
  cases l with
  | pipeline p => exact hwalks.elim
  | join l op p =>
    obtain ⟨rfl, hstatus, hop⟩ := hwalks
    have hskip : (Line.join l .or p).Skipped env.code := fun hruns => hruns hstatus
    have hzero : ((Line.join l .or p).progress env.code).status = 0 := by
      rw [Line.progress, if_neg hskip]
      exact hstatus
    obtain ⟨u, hu, hseen⟩ := exits_skipped_redirected e overwrite file [] (Nat.le_refl _) hskip
    rw [List.append_nil] at hu
    obtain ⟨τ', hτ', hseen'⟩ := runLine_redirected hfile hu
    obtain rfl := LineResult.foreground.inj (Option.some.inj (h.symm.trans hτ'))
    obtain ⟨hwalked, hplaced⟩ := placed_walked f input overwrite hop hzero
    rw [← hseen, ← hseen'] at hwalked hplaced
    obtain ⟨-, hiff⟩ := (placed_outcome hf h hplaced hrun).2.2 hcalls
    have hcode : Honest f input ((Line.join l .or p).redirectedCommands overwrite file) env.code
        (l.progress env.code).seen := by
      refine honest_of_status fun i dest hi => hiff.mp htrue i dest ?_
      rw [hwalked, Line.progress, if_neg hskip]
      exact List.mem_append_left _ hi
    have hcs : l.commands ++ Connective.or.operator.command :: (p.commands ++
        [(redirector overwrite).command, file]) = (Line.join l .or p).redirectedCommands overwrite file := by
      simp [Line.redirectedCommands, Line.commands]
    exact ⟨rfl, (l.agrees hcode hcs).status.trans hstatus, hop⟩

/-- A run of a line with a redirection whose statuses were those that the shell went by. -/
theorem redirected_sound (hf : Computes P f) (hfile : file.name ≠ Operator.background.text)
    (hwalks : ¬l.Walks f input file.name)
    (h : runLine env (l.redirectedCommands overwrite file) e = some (.foreground τ))
    (hrun : Run (System.Step P) (System.initial τ.calls input written) as s) (hcalls : s.calls = [])
    (htrue : Truthful env τ.calls s.collected) :
    s.written .stdout = written .stdout ++ (l.sent f input).1 ∧
      s.written (.file file.name) = sendTo overwrite (written (.file file.name)) (l.sent f input).2 ∧
      ∀ d, d ≠ file.name → s.written (.file d) = written (.file d) := by
  have hseen := seen_of_redirected hfile (mt (walks_of_run hf hfile h hrun hcalls htrue) hwalks) h
  have hplaced : AllPlaced f input (l.redirectedCommands overwrite file) τ.seen :=
    hseen ▸ (l.placed env.code file.name overwrite rfl).2
  obtain ⟨hwritten, htruth⟩ := (placed_outcome hf h hplaced hrun).2.2 hcalls
  have hcode : Honest f input (l.redirectedCommands overwrite file) env.code
      (l.redirected env.code file.name overwrite) := honest_of_status (hseen ▸ htruth.mp htrue)
  have hl := l.sends hcode rfl
  rw [← hseen] at hl
  exact ⟨by rw [hwritten, hl.stdout], by rw [hwritten, hl.file],
    fun d hd => by rw [hwritten, hl.other d _ hd]⟩

/-- No run of such a line goes on for ever or gets stuck, and its statuses are those that the commands
compute. -/
theorem redirected_runs (hf : Computes P f) (hfile : file.name ≠ Operator.background.text)
    (hwalks : ¬l.Walks f input file.name) (overwrite : Bool) (e : ℤ) (unset : WaitStatus) :
    ∃ τ, runLine (lineEnv f input (l.redirectedCommands overwrite file) unset)
        (l.redirectedCommands overwrite file) e = some (.foreground τ) ∧
      ∀ (written : Dest → List Byte) as s, Run (System.Step P) (System.initial τ.calls input written) as s →
        as.length ≤ runSteps (lineBehaviour f input (l.redirectedCommands overwrite file)) τ.calls ∧
        (s.calls ≠ [] → ∃ a s', s.Step P a s') ∧
        (s.calls = [] → Truthful (lineEnv f input (l.redirectedCommands overwrite file) unset) τ.calls
          s.collected) := by
  have hnot : ¬l.WalksIntoFile (lineEnv f input (l.redirectedCommands overwrite file) unset).code
      file.name := by
    intro hinto
    cases l with
    | pipeline p => exact hinto
    | join l op p =>
      obtain ⟨hop, hstatus, hname⟩ := hinto
      have hcs : l.commands ++ op.operator.command :: (p.commands ++
          [(redirector overwrite).command, file]) = (Line.join l op p).redirectedCommands overwrite file := by
        simp [Line.redirectedCommands, Line.commands]
      exact hwalks ⟨hop, (l.agrees (fun i dest hi => rfl) hcs).status.trans hstatus, hname⟩
  obtain ⟨u, hu, -⟩ := exits_redirected (lineEnv f input (l.redirectedCommands overwrite file) unset) e l
    overwrite file
  obtain ⟨τ, hτ, -⟩ := runLine_redirected hfile hu
  have hseen := seen_of_redirected hfile hnot hτ
  have hplaced : AllPlaced f input (l.redirectedCommands overwrite file) τ.seen :=
    hseen ▸ (l.placed _ file.name overwrite rfl).2
  refine ⟨τ, hτ, fun written as s hrun => ?_⟩
  obtain ⟨hsteps, hgo, hend⟩ := placed_outcome hf hτ hplaced hrun
  exact ⟨hsteps, hgo, fun hcalls => (hend hcalls).2.mpr fun i dest hi => rfl⟩

/-- Let each program compute a function of its input. Then a line with a redirection sends what its last
pipeline computes to the file, if that pipeline runs, and shows the outputs of the others that run. It never
gets stuck, and it comes to its end in so many steps at most. -/
theorem redirected_meaning (hf : Computes P f) (hfile : file.name ≠ Operator.background.text)
    (hwalks : ¬l.Walks f input file.name) (overwrite : Bool) (e : ℤ) (unset : WaitStatus)
    (written : Dest → List Byte) :
    ∃ τ, runLine (lineEnv f input (l.redirectedCommands overwrite file) unset)
        (l.redirectedCommands overwrite file) e = some (.foreground τ) ∧
      ∀ as s, Run (System.Step P) (System.initial τ.calls input written) as s →
        as.length ≤ runSteps (lineBehaviour f input (l.redirectedCommands overwrite file)) τ.calls ∧
        (s.calls ≠ [] → ∃ a s', s.Step P a s') ∧
        (s.calls = [] →
          Truthful (lineEnv f input (l.redirectedCommands overwrite file) unset) τ.calls s.collected ∧
          s.written .stdout = written .stdout ++ (l.sent f input).1 ∧
          s.written (.file file.name) = sendTo overwrite (written (.file file.name)) (l.sent f input).2 ∧
          ∀ d, d ≠ file.name → s.written (.file d) = written (.file d)) := by
  obtain ⟨τ, hτ, hruns⟩ := redirected_runs hf hfile hwalks overwrite e unset
  refine ⟨τ, hτ, fun as s hrun => ?_⟩
  obtain ⟨hsteps, hgo, hend⟩ := hruns written as s hrun
  exact ⟨hsteps, hgo, fun hcalls => ⟨hend hcalls,
    redirected_sound hf hfile hwalks hτ hrun hcalls (hend hcalls)⟩⟩

end

/-- `echo && echo | cat >> f`, with a letter in the file. -/
theorem redirected_meaning_append : ∃ τ, runLine (lineEnv lettersMeaning (fun _ => [])
      ((Line.join (.pipeline ⟨echoCommand, []⟩) .and ⟨echoCommand, [catCommand]⟩).redirectedCommands false
        fileCommand) (.exited 0))
      ((Line.join (.pipeline ⟨echoCommand, []⟩) .and ⟨echoCommand, [catCommand]⟩).redirectedCommands false
        fileCommand) 0 = some (.foreground τ) ∧
    ∀ as s, Run (System.Step letters) (System.initial τ.calls (fun _ => []) fun _ => [byte 'b']) as s →
      s.calls = [] → s.written (.file fileCommand.name) = [byte 'b', byte 'a'] := by
  have hwalks : ¬(Line.join (.pipeline ⟨echoCommand, []⟩) .and ⟨echoCommand, [catCommand]⟩).Walks
      lettersMeaning (fun _ => []) fileCommand.name := fun h => Connective.noConfusion h.1
  obtain ⟨τ, hτ, hrun⟩ := redirected_meaning letters_computes (by decide) hwalks false 0 (.exited 0)
    fun _ => [byte 'b']
  exact ⟨τ, hτ, fun as s has hcalls => ((hrun as s has).2.2 hcalls).2.2.1⟩

end SystemsProgramming.Shell

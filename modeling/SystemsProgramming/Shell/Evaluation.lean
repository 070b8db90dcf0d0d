import SystemsProgramming.Shell.Line
import Mathlib.Data.List.Infix

/-! The evaluation loop on lines of pipelines joined by `&&` and `||`. The loop has no tree of the
line: the state between two pipelines is recovered from its three variables. The invariant at such a
boundary says what they stand for, and each further connective and pipeline keeps it. -/

namespace SystemsProgramming.Shell

open Eval

/-! ### The array and the observer -/

theorem uncons_drop {cs l : List Command} {c : Command} {i : ℕ} (h : c :: l <+: cs.drop i) :
    cs[i]? = some c ∧ l <+: cs.drop (i + 1) := by
  obtain ⟨r, hr⟩ := h
  constructor
  · rw [← List.head?_drop, ← hr]
    rfl
  · refine ⟨r, ?_⟩
    rw [← List.tail_drop, ← hr]
    rfl

@[simp] theorem seen_call (σ : Eval) (cs : List Call) :
    (σ.call cs).seen = σ.seen ++ cs.filter Call.Seen := by simp [seen, call]

theorem isOperator_text (op : Operator) : isOperator op.text = true := by
  cases op <;> decide

/-! ### One turn of the loop -/

/-- An operator has been read. -/
def Eval.operator (text : CString) (σ : Eval) : Eval :=
  { σ with lastOperator := some text, commandArrayPtr := σ.commandArrayPtr + 1 }

@[simp] theorem seen_operator (text : CString) (σ : Eval) : (σ.operator text).seen = σ.seen := rfl

/-- A command in the middle of the line has been forked. -/
def Eval.fork (c : Command) (σ : Eval) : Eval where
  commandArrayPtr := σ.commandArrayPtr + 1
  lastPipeEnd := some σ.commandArrayPtr
  lastOperator := none
  lastChildExitCode := σ.lastChildExitCode
  lastChildPid := some σ.commandArrayPtr
  childrenToWaitFor := σ.commandArrayPtr :: σ.childrenToWaitFor
  reaped := σ.reaped
  calls := σ.calls ++ [.pipe σ.commandArrayPtr, .fork σ.commandArrayPtr c σ.lastPipeEnd,
    .close (.writeEnd σ.commandArrayPtr)] ++
      σ.lastPipeEnd.toList.map fun lastPipeEnd => .close (.readEnd lastPipeEnd)

theorem seen_fork (c : Command) (σ : Eval) :
    (σ.fork c).seen = σ.seen ++ [.fork σ.commandArrayPtr c σ.lastPipeEnd] := by
  cases h : σ.lastPipeEnd <;> simp [seen, Eval.fork, h, List.filter_cons, Call.Seen]

/-- A pipeline up to the fork of its last command. -/
def upToLast : Command → List PlainCommand → Eval → Eval
  | _, [], σ => σ
  | c, d :: ds, σ => upToLast d.1 ds ((σ.fork c).operator Operator.pipe.text)

def lastCommand : Command → List PlainCommand → Command
  | c, [] => c
  | _, d :: ds => lastCommand d.1 ds

theorem upToLast_spec (c : Command) (ds : List PlainCommand) (σ : Eval) :
    (upToLast c ds σ).commandArrayPtr = σ.commandArrayPtr + 2 * ds.length ∧
      (upToLast c ds σ).lastChildExitCode = σ.lastChildExitCode ∧
      (upToLast c ds σ).reaped = σ.reaped ∧
      (upToLast c ds σ).seen ++ [.fork (σ.commandArrayPtr + 2 * ds.length) (lastCommand c ds)
        (upToLast c ds σ).lastPipeEnd] =
          σ.seen ++ .fork σ.commandArrayPtr c σ.lastPipeEnd :: forksAfter σ.commandArrayPtr ds := by
  induction ds generalizing c σ with
  | nil => exact ⟨rfl, rfl, rfl, rfl⟩
  | cons d ds ih =>
    obtain ⟨hptr, hcode, hreaped, hseen⟩ := ih d.1 ((σ.fork c).operator Operator.pipe.text)
    have hstart : ((σ.fork c).operator Operator.pipe.text).commandArrayPtr =
        σ.commandArrayPtr + 2 := rfl
    have hlen : σ.commandArrayPtr + 2 * (d :: ds).length =
        σ.commandArrayPtr + 2 + 2 * ds.length := by
      rw [List.length_cons]
      omega
    refine ⟨hptr.trans (by rw [hlen, hstart]), hcode, hreaped, ?_⟩
    rw [hstart] at hseen
    rw [hlen]
    refine hseen.trans ?_
    rw [seen_operator, seen_fork, List.append_assoc]
    rfl

section
variable {env : Env} {cs : List Command} {n m : ℕ}

theorem evaluateStep_end {σ : Eval} (hn : σ.commandArrayPtr = n) :
    evaluateStep env cs n m σ = some (.done σ) := by rw [evaluateStep, if_pos hn]

theorem evaluateStep_operator {σ : Eval} {c : Command} (hn : σ.commandArrayPtr ≠ n)
    (hc : cs[σ.commandArrayPtr]? = some c) (hop : isOperator c.name = true) :
    evaluateStep env cs n m σ = some (.again (σ.operator c.name)) := by
  simp only [evaluateStep, if_neg hn, hc, Option.bind_eq_bind, Option.bind_some, if_pos hop,
    Option.pure_def]
  rfl

theorem evaluateStep_command {σ : Eval} {c : Command} (hn : σ.commandArrayPtr ≠ n)
    (hc : cs[σ.commandArrayPtr]? = some c) (hop : isOperator c.name = false) :
    evaluateStep env cs n m σ = evaluateCommand env cs n m σ := by
  simp only [evaluateStep, if_neg hn, hc, Option.bind_eq_bind, Option.bind_some, hop,
    Bool.false_eq_true, if_false]

theorem forkCommand_middle {σ : Eval} {c : Command} (hc : cs[σ.commandArrayPtr]? = some c)
    (hn : σ.commandArrayPtr + 1 ≠ n) (hm : σ.commandArrayPtr + 1 ≠ m) :
    forkCommand cs n m σ = some (.again (σ.fork c)) := by
  simp only [forkCommand, hc, Option.bind_eq_bind, Option.bind_some, if_neg hn, if_neg hm,
    Option.pure_def]
  cases h : σ.lastPipeEnd <;> simp [Eval.fork, call, h]

theorem forkCommand_last {σ : Eval} {c : Command} (hc : cs[σ.commandArrayPtr]? = some c)
    (hn : σ.commandArrayPtr + 1 = n) : ∃ τ, forkCommand cs n m σ = some (.done τ) ∧
      τ.seen = σ.seen ++ [.fork σ.commandArrayPtr c σ.lastPipeEnd,
        .copy σ.commandArrayPtr .stdout] ∧
      τ.lastChildPid = some σ.commandArrayPtr ∧ τ.reaped = σ.reaped := by
  simp only [forkCommand, hc, Option.bind_eq_bind, Option.bind_some, if_pos hn, Option.pure_def]
  exact ⟨_, rfl, by simp [seen, call, List.filter_cons, Call.Seen], rfl, rfl⟩

theorem forkCommand_redirected {σ : Eval} {c redirector file : Command}
    (hc : cs[σ.commandArrayPtr]? = some c) (hn : σ.commandArrayPtr + 1 ≠ n)
    (hm : σ.commandArrayPtr + 1 = m) (hr : cs[n - 2]? = some redirector)
    (hf : cs[n - 1]? = some file) : ∃ τ, forkCommand cs n m σ = some (.done τ) ∧
      τ.seen = σ.seen ++ [.fork σ.commandArrayPtr c σ.lastPipeEnd,
        .fopen file.name (redirector.name = Operator.overwrite.text),
        .copy σ.commandArrayPtr (.file file.name)] := by
  simp only [forkCommand, hc, hr, hf, Option.bind_eq_bind, Option.bind_some, if_neg hn, if_pos hm,
    Option.pure_def]
  exact ⟨_, rfl, by simp [seen, call, List.filter_cons, Call.Seen]⟩

/-! ### What a turn can do -/

/-- The calls for a fork, before its output is dealt with. -/
def Eval.forkCalls (c : Command) (σ : Eval) : List Call :=
  [.pipe σ.commandArrayPtr, .fork σ.commandArrayPtr c σ.lastPipeEnd,
    .close (.writeEnd σ.commandArrayPtr)]

/-- The loop is left with the fork of the command at the pointer. The output is copied to stdout, or
to a file if the command is the last one before a redirection. -/
structure Forked (m : ℕ) (c : Command) (σ τ : Eval) : Prop where
  pid : τ.lastChildPid = some σ.commandArrayPtr
  children : τ.childrenToWaitFor = σ.commandArrayPtr :: σ.childrenToWaitFor
  reaped : τ.reaped = σ.reaped
  calls : ∃ rest, τ.calls = σ.calls ++ σ.forkCalls c ++ rest ∧
    (∀ i d o, Call.fork i d o ∉ rest) ∧
    ((∃ name overwrite, Call.fopen name overwrite ∈ rest) → σ.commandArrayPtr + 1 = m)

theorem forkCommand_cases {σ : Eval} {r : Ctl Eval} (h : forkCommand cs n m σ = some r) :
    ∃ c, cs[σ.commandArrayPtr]? = some c ∧
      (r = .again (σ.fork c) ∨ ∃ τ, r = .done τ ∧ Forked m c σ τ) := by
  simp only [forkCommand, Option.bind_eq_bind, Option.pure_def] at h
  obtain ⟨c, hc, h⟩ := Option.bind_eq_some_iff.mp h
  refine ⟨c, hc, ?_⟩
  split_ifs at h with hn hm
  · obtain rfl := Option.some.inj h
    exact .inr ⟨_, rfl, rfl, rfl, rfl, _, rfl, by simp, by simp⟩
  · obtain ⟨redirector, -, h⟩ := Option.bind_eq_some_iff.mp h
    obtain ⟨file, -, h⟩ := Option.bind_eq_some_iff.mp h
    obtain rfl := Option.some.inj h
    exact .inr ⟨_, rfl, rfl, rfl, rfl, _, rfl, by simp, fun _ => hm⟩
  · obtain rfl := Option.some.inj h
    cases hend : σ.lastPipeEnd <;> simp [Eval.fork, call, hend]

theorem finishPipeline_cases {σ τ : Eval} (h : σ.finishPipeline env = some τ) :
    (σ.lastPipeEnd = none ∧ τ = σ) ∨ ∃ j pid code, σ.lastPipeEnd = some j ∧
      σ.lastChildPid = some pid ∧ τ = { σ with
        calls := σ.calls ++ [.copy j .stdout, .close (.readEnd j), .waitpid pid]
        lastPipeEnd := none
        reaped := pid :: σ.reaped
        lastChildExitCode := code } := by
  cases hend : σ.lastPipeEnd with
  | none =>
    rw [finishPipeline, hend] at h
    exact .inl ⟨rfl, (Option.some.inj h).symm⟩
  | some j =>
    simp only [finishPipeline, hend, Option.bind_eq_bind, Option.pure_def] at h
    obtain ⟨pid, hpid, h⟩ := Option.bind_eq_some_iff.mp h
    obtain rfl := Option.some.inj h
    have hpid' : σ.lastChildPid = some pid := hpid
    exact .inr ⟨j, pid, _, rfl, hpid', by simp [waitpid, call]; rfl⟩

/-- A turn ends the loop, reads an operator, skips a command, or forks it. Before the last two the
pipeline on the left may be finished. -/
theorem evaluateStep_cases {σ : Eval} {r : Ctl Eval} (h : evaluateStep env cs n m σ = some r) :
    (σ.commandArrayPtr = n ∧ r = .done σ) ∨
    (σ.commandArrayPtr ≠ n ∧ ∃ c, cs[σ.commandArrayPtr]? = some c ∧
      ((isOperator c.name = true ∧ r = .again (σ.operator c.name)) ∨
      (isOperator c.name = false ∧ ∃ τ o, (τ = σ ∨ σ.finishPipeline env = some τ) ∧
        (r = Eval.skip { τ with lastOperator := o } ∨
          forkCommand cs n m { τ with lastOperator := o } = some r)))) := by
  simp only [evaluateStep, Option.bind_eq_bind, Option.pure_def] at h
  split_ifs at h with hn
  · exact .inl ⟨hn, (Option.some.inj h).symm⟩
  obtain ⟨c, hc, h⟩ := Option.bind_eq_some_iff.mp h
  refine .inr ⟨hn, c, hc, ?_⟩
  split_ifs at h with hop
  · exact .inl ⟨hop, (Option.some.inj h).symm⟩
  refine .inr ⟨by simpa using hop, ?_⟩
  simp only [evaluateCommand, Option.bind_eq_bind, Option.pure_def] at h
  split at h
  · exact ⟨σ, σ.lastOperator, .inl rfl, .inr h⟩
  · split_ifs at h with hpipe hend
    · obtain ⟨τ, hτ, h⟩ := Option.bind_eq_some_iff.mp h
      refine ⟨τ, ?_⟩
      split_ifs at h with hskips
      · exact ⟨τ.lastOperator, .inr hτ, .inl (Option.some.inj h).symm⟩
      · exact ⟨none, .inr hτ, .inr h⟩
    · exact ⟨σ, none, .inl rfl, .inl (Option.some.inj h).symm⟩
    · exact ⟨σ, σ.lastOperator, .inl rfl, .inr h⟩

theorem finishPipeline_ptr {σ τ : Eval} (h : τ = σ ∨ σ.finishPipeline env = some τ) :
    τ.commandArrayPtr = σ.commandArrayPtr := by
  rcases h with rfl | h
  · rfl
  · rcases finishPipeline_cases h with ⟨-, rfl⟩ | ⟨j, pid, code, -, -, rfl⟩
    · rfl
    · rfl

/-- Whenever the loop goes on, it has moved to the next command of the array. -/
theorem evaluateStep_again {σ u : Eval} (h : evaluateStep env cs n m σ = some (.again u)) :
    u.commandArrayPtr = σ.commandArrayPtr + 1 ∧ σ.commandArrayPtr ≠ n ∧
      σ.commandArrayPtr < cs.length := by
  rcases evaluateStep_cases h with ⟨-, h⟩ | ⟨hn, c, hc, hturn⟩
  · cases h
  refine ⟨?_, hn, (List.getElem?_eq_some_iff.mp hc).1⟩
  rcases hturn with ⟨-, h⟩ | ⟨-, τ, o, hτ, hturn⟩
  · obtain rfl := Ctl.again.inj h
    rfl
  · rw [← finishPipeline_ptr hτ]
    rcases hturn with h | h
    · obtain rfl := Ctl.again.inj h
      rfl
    · obtain ⟨c, -, h | ⟨ρ, h, -⟩⟩ := forkCommand_cases h
      · obtain rfl := Ctl.again.inj h
        rfl
      · cases h

/-- The loop goes on from the result of a turn and ends in `t`. -/
def Continues (env : Env) (cs : List Command) (n m : ℕ) (r : Option (Ctl Eval)) (t : Eval) : Prop :=
  r = some (.done t) ∨ ∃ u, r = some (.again u) ∧ Exits (evaluateStep env cs n m) u t

theorem Continues.exits {σ t : Eval} (h : Continues env cs n m (evaluateStep env cs n m σ) t) :
    Exits (evaluateStep env cs n m) σ t := by
  rcases h with h | ⟨u, h, hu⟩
  · exact .done h
  · exact .again h hu

/-- The forks of a pipeline: from its first command, once it is to be forked, to its last. -/
theorem continues_upToLast {σ t : Eval} {c : Command} {ds : List PlainCommand} {tail : List Command}
    (hcs : c :: barredCommands ds ++ tail <+: cs.drop σ.commandArrayPtr)
    (hn : σ.commandArrayPtr + 2 * ds.length < n) (hm : σ.commandArrayPtr + 2 * ds.length < m)
    (h : Continues env cs n m (forkCommand cs n m (upToLast c ds σ)) t) :
    Continues env cs n m (forkCommand cs n m σ) t := by
  induction ds generalizing c σ with
  | nil => exact h
  | cons d ds ih =>
    rw [List.length_cons] at hn hm
    obtain ⟨hc, hcs⟩ := uncons_drop hcs
    obtain ⟨hbar, hcs⟩ := uncons_drop hcs
    have hd := (uncons_drop hcs).1
    refine .inr ⟨_, forkCommand_middle hc (by omega) (by omega), .again (t := (σ.fork c).operator
      Operator.pipe.text) ?_ (Continues.exits ?_)⟩
    · exact evaluateStep_operator (c := Operator.pipe.command)
        (show σ.commandArrayPtr + 1 ≠ n by omega) hbar (isOperator_text .pipe)
    · have hstep : evaluateStep env cs n m ((σ.fork c).operator Operator.pipe.text) =
          forkCommand cs n m ((σ.fork c).operator Operator.pipe.text) := by
        rw [evaluateStep_command (show σ.commandArrayPtr + 1 + 1 ≠ n by omega) hd d.2]
        simp [evaluateCommand, Eval.operator, Eval.fork]
      rw [hstep]
      exact ih hcs (show σ.commandArrayPtr + 1 + 1 + _ < n by omega)
        (show σ.commandArrayPtr + 1 + 1 + _ < m by omega) h

/-- The rest of a pipeline whose first command has been skipped: each command of it is skipped
because there is no pipe for it to read from. -/
theorem exits_skipped (env : Env) (m : ℕ) {σ : Eval} {ds : List PlainCommand} {tail : List Command}
    (hcs : barredCommands ds ++ tail <+: cs.drop σ.commandArrayPtr)
    (hn : σ.commandArrayPtr + 2 * ds.length ≤ n) (hptr : σ.commandArrayPtr ≠ 0)
    (hend : σ.lastPipeEnd = none) : ∃ o, ∀ t,
      Exits (evaluateStep env cs n m) { σ with
        lastOperator := o, commandArrayPtr := σ.commandArrayPtr + 2 * ds.length } t →
      Exits (evaluateStep env cs n m) σ t := by
  induction ds generalizing σ with
  | nil => exact ⟨σ.lastOperator, fun t h => h⟩
  | cons d ds ih =>
    rw [List.length_cons] at hn ⊢
    obtain ⟨hbar, hcs⟩ := uncons_drop hcs
    obtain ⟨hd, hcs⟩ := uncons_drop hcs
    have hlen : σ.commandArrayPtr + 2 * (ds.length + 1) =
        σ.commandArrayPtr + 1 + 1 + 2 * ds.length := by omega
    have hskip : evaluateStep env cs n m (σ.operator Operator.pipe.text) = some (.again { σ with
        lastOperator := none, commandArrayPtr := σ.commandArrayPtr + 1 + 1 }) := by
      rw [evaluateStep_command (show σ.commandArrayPtr + 1 ≠ n by omega) hd d.2]
      simp [evaluateCommand, Eval.operator, hend, skip]
    obtain ⟨o, ho⟩ := ih (σ := { σ with
      lastOperator := none, commandArrayPtr := σ.commandArrayPtr + 1 + 1 }) hcs
      (by rw [← hlen]; exact hn) (Nat.succ_ne_zero _) hend
    rw [hlen]
    refine ⟨o, fun t h => .again ?_ (.again hskip (ho t h))⟩
    exact evaluateStep_operator (c := Operator.pipe.command) (by omega) hbar (isOperator_text .pipe)

/-! ### Between two pipelines -/

/-- The last pipeline that ran is done with: its output is copied and its status known. -/
structure Settled (σ : Eval) (g : Progress) : Prop where
  next : σ.commandArrayPtr = g.next
  pipeEnd : σ.lastPipeEnd = none
  status : σ.lastChildExitCode = g.status
  seen : σ.seen = g.seen
  reaped : ∀ k ∈ σ.reaped, k < g.next
  waited : g.next = 0 ∨ ∃ j ∈ σ.reaped, σ.lastChildPid = some j

/-- The loop is about to read the operator after the left part of a line. If the last pipeline of it
ran, its output is still to be copied and its last child still to be waited for. -/
inductive Boundary (env : Env) (σ : Eval) (g : Progress) : Prop
  | settled : Settled σ g → Boundary env σ g
  | pending (j : ℕ) : σ.commandArrayPtr = g.next → σ.lastPipeEnd = some j →
      σ.lastChildPid = some j → j < g.next → (env.status j).exitCode = g.status →
      σ.seen ++ [.copy j .stdout] = g.seen → (∀ k ∈ σ.reaped, k < j) → Boundary env σ g

/-- The position of a state moves past an operator. -/
theorem Boundary.operator {σ : Eval} {g : Progress} (h : Boundary env σ g) (hg : g.next ≠ 0)
    (text : CString) : Boundary env (σ.operator text) g.pass := by
  cases h with
  | settled h =>
    refine .settled ⟨?_, h.pipeEnd, h.status, h.seen, fun k hk => Nat.lt_succ_of_lt (h.reaped k hk),
      .inr (h.waited.resolve_left hg)⟩
    show σ.commandArrayPtr + 1 = g.next + 1
    rw [h.next]
  | pending j hnext hend hpid hj hstatus hseen hreaped =>
    refine .pending j ?_ hend hpid (Nat.lt_succ_of_lt hj) hstatus hseen hreaped
    show σ.commandArrayPtr + 1 = g.next + 1
    rw [hnext]

/-- The output of the pipeline on the left is copied and its last child waited for, once. -/
theorem Boundary.finishPipeline {σ : Eval} {g : Progress} (h : Boundary env σ g) :
    ∃ τ, σ.finishPipeline env = some τ ∧ Settled τ g := by
  cases h with
  | settled h => exact ⟨σ, by simp [Eval.finishPipeline, h.pipeEnd], h⟩
  | pending j hnext hend hpid hj hstatus hseen hreaped =>
    have hnot : j ∉ σ.reaped := fun hj => Nat.lt_irrefl j (hreaped j hj)
    simp only [Eval.finishPipeline, hend, call, hpid, Option.bind_eq_bind, Option.bind_some,
      Eval.waitpid, if_neg hnot, Option.pure_def]
    refine ⟨_, rfl, hnext, rfl, hstatus, ?_, fun k hk => ?_, .inr ⟨j, List.mem_cons_self, rfl⟩⟩
    · rw [← hseen]
      simp [Eval.seen, List.filter_cons, Call.Seen]
    · rcases List.mem_cons.mp hk with rfl | hk
      · exact hj
      · exact Nat.lt_trans (hreaped k hk) hj

theorem skips_iff (op : Connective) (status : ℤ) :
    skips op.operator.text status = true ↔ ¬op.Runs status := by
  cases op with
  | and =>
    have hne : Operator.and.text ≠ Operator.or.text := by decide
    simp [skips, Connective.operator, Connective.Runs, hne]
  | or => simp [skips, Connective.operator, Connective.Runs]

theorem connective_ne_pipe (op : Connective) : op.operator.text ≠ Operator.pipe.text := by
  cases op <;> decide

theorem Boundary.next {σ : Eval} {g : Progress} (h : Boundary env σ g) :
    σ.commandArrayPtr = g.next := by
  cases h with
  | settled h => exact h.next
  | pending j hnext => exact hnext

/-- The first command after `&&` or `||`, or after what is taken for `&&`. -/
theorem Boundary.decides {σ : Eval} {g : Progress} (h : Boundary env σ g) {op c : Command}
    {tail : List Command} (hcs : op :: c :: tail <+: cs.drop g.next)
    (hop : isOperator op.name = true) (hpipe : op.name ≠ Operator.pipe.text)
    (hc : isOperator c.name = false) (hg : g.next ≠ 0) (hn : g.next + 1 < n) :
    ∃ τ, Settled τ g.pass ∧ ∀ t,
      Continues env cs n m (if skips op.name g.status then some τ.skip
        else forkCommand cs n m { τ with lastOperator := none }) t →
      Exits (evaluateStep env cs n m) σ t := by
  have hptr := h.next
  rw [← hptr] at hcs hn
  obtain ⟨hop', hcs⟩ := uncons_drop hcs
  have hc' := (uncons_drop hcs).1
  obtain ⟨τ, hτ, hsettled⟩ := (h.operator hg op.name).finishPipeline
  refine ⟨τ, hsettled, fun t ht => .again (evaluateStep_operator (by omega) hop' hop)
    (Continues.exits ?_)⟩
  have hstep : evaluateStep env cs n m (σ.operator op.name) =
      if skips op.name g.status then some τ.skip
        else forkCommand cs n m { τ with lastOperator := none } := by
    rw [evaluateStep_command (show σ.commandArrayPtr + 1 ≠ n by omega) hc' hc]
    simp only [evaluateCommand, Eval.operator]
    have hcode : τ.lastChildExitCode = g.status := hsettled.status
    simp only [Eval.operator] at hτ
    simp only [ne_eq, hpipe, not_false_eq_true, if_true, hτ, Option.bind_eq_bind, Option.bind_some,
      hcode, Option.pure_def]
  rw [hstep]
  exact ht

/-! ### A pipeline that runs -/

theorem get_lastCommand {i : ℕ} {c : Command} {ds : List PlainCommand} {tail : List Command}
    (hcs : c :: barredCommands ds ++ tail <+: cs.drop i) :
    cs[i + 2 * ds.length]? = some (lastCommand c ds) := by
  induction ds generalizing c i with
  | nil => exact (uncons_drop hcs).1
  | cons d ds ih =>
    have hlen : i + 2 * (d :: ds).length = i + 1 + 1 + 2 * ds.length := by
      rw [List.length_cons]
      omega
    rw [hlen]
    exact ih (uncons_drop (uncons_drop hcs).2).2

/-- The code of the child of each command. -/
def Env.code (env : Env) (i : ℕ) : ℤ := (env.status i).exitCode

/-- The state at the fork of the last command of a pipeline, and what the forks add up to. -/
theorem Settled.beforeLast {τ : Eval} {g : Progress} (h : Settled τ g) {p : Pipeline}
    {tail : List Command} (hcs : p.commands ++ tail <+: cs.drop g.next) :
    (upToLast p.first.1 p.others τ).commandArrayPtr = p.last g.next ∧
    cs[(upToLast p.first.1 p.others τ).commandArrayPtr]? =
      some (lastCommand p.first.1 p.others) ∧
    (∀ k ∈ (upToLast p.first.1 p.others τ).reaped, k < p.last g.next) ∧
    (upToLast p.first.1 p.others τ).seen ++ [.fork (p.last g.next)
      (lastCommand p.first.1 p.others) (upToLast p.first.1 p.others τ).lastPipeEnd] =
        g.seen ++ p.forks g.next := by
  obtain ⟨hptr, -, hreaped, hseen⟩ := upToLast_spec p.first.1 p.others τ
  rw [h.next] at hptr hseen
  refine ⟨hptr, ?_, fun k hk => ?_, ?_⟩
  · rw [hptr]
    exact get_lastCommand hcs
  · rw [hreaped] at hk
    have hlt := h.reaped k hk
    rw [Pipeline.last]
    omega
  · rw [h.seen, h.pipeEnd] at hseen
    exact hseen

theorem Settled.continues {τ t : Eval} {g : Progress} (h : Settled τ g) {p : Pipeline}
    {tail : List Command} (hcs : p.commands ++ tail <+: cs.drop g.next) (hn : p.last g.next < n)
    (hm : p.last g.next < m)
    (ht : Continues env cs n m (forkCommand cs n m (upToLast p.first.1 p.others τ)) t) :
    Continues env cs n m (forkCommand cs n m τ) t := by
  rw [Pipeline.last] at hn hm
  rw [← h.next] at hcs hn hm
  exact continues_upToLast hcs hn hm ht

/-- A pipeline before the last one ends with its output in its pipe. -/
theorem Settled.runs {τ : Eval} {g : Progress} (h : Settled τ g) {p : Pipeline}
    {tail : List Command} (hcs : p.commands ++ tail <+: cs.drop g.next)
    (hn : p.last g.next + 1 < n) (hm : p.last g.next + 1 < m) :
    ∃ σ, Boundary env σ (g.run env.code p) ∧ ∀ t, Exits (evaluateStep env cs n m) σ t →
      Continues env cs n m (forkCommand cs n m τ) t := by
  obtain ⟨hptr, hlast, hreaped, hseen⟩ := h.beforeLast hcs
  have hfork := forkCommand_middle (n := n) (m := m) hlast (by omega) (by omega)
  refine ⟨_, ?_, fun t ht => h.continues hcs (by omega) (by omega) (.inr ⟨_, hfork, ht⟩)⟩
  refine .pending (p.last g.next) (congrArg (· + 1) hptr) (congrArg some hptr) (congrArg some hptr)
    (Nat.lt_succ_self _) rfl ?_ hreaped
  rw [seen_fork, hptr, hseen]
  rfl

/-- The last pipeline of a line is copied to stdout and the loop is left. -/
theorem Settled.finishes {τ : Eval} {g : Progress} (h : Settled τ g) {p : Pipeline}
    {tail : List Command} (hcs : p.commands ++ tail <+: cs.drop g.next)
    (hn : p.last g.next + 1 = n) (hm : n ≤ m) : ∃ t,
      Continues env cs n m (forkCommand cs n m τ) t ∧ t.seen = (g.run env.code p).seen ∧
      t.lastChildPid = some (p.last g.next) ∧ p.last g.next ∉ t.reaped := by
  obtain ⟨hptr, hlast, hreaped, hseen⟩ := h.beforeLast hcs
  obtain ⟨t, ht, htseen, hpid, htreaped⟩ := forkCommand_last (n := n) (m := m) hlast (by omega)
  refine ⟨t, h.continues hcs (by omega) (by omega) (.inl ht), ?_, ?_, ?_⟩
  · rw [htseen, hptr, List.append_cons, hseen]
    rfl
  · rw [hpid, hptr]
  · rw [htreaped]
    exact fun hmem => Nat.lt_irrefl _ (hreaped _ hmem)

/-- The last pipeline of a line before `>` or `>>` is copied to the file and the loop is left. -/
theorem Settled.redirects {τ : Eval} {g : Progress} (h : Settled τ g) {p : Pipeline}
    {tail : List Command} {redirector file : Command}
    (hcs : p.commands ++ tail <+: cs.drop g.next) (hm : p.last g.next + 1 = m) (hn : m ≠ n)
    (hlen : m ≤ n) (hr : cs[n - 2]? = some redirector) (hf : cs[n - 1]? = some file) : ∃ t,
      Continues env cs n m (forkCommand cs n m τ) t ∧ t.seen = g.seen ++ p.forks g.next ++
        [.fopen file.name (redirector.name = Operator.overwrite.text),
          .copy (p.last g.next) (.file file.name)] := by
  obtain ⟨hptr, hlast, -, hseen⟩ := h.beforeLast hcs
  obtain ⟨t, ht, htseen⟩ := forkCommand_redirected (n := n) (m := m) hlast (by omega) (by omega) hr hf
  refine ⟨t, h.continues hcs (by omega) (by omega) (.inl ht), ?_⟩
  rw [htseen, hptr, List.append_cons, hseen]

/-- A pipeline that is skipped. -/
theorem Settled.skips {τ : Eval} {g : Progress} (h : Settled τ g) {p : Pipeline}
    {tail : List Command} (hcs : p.commands ++ tail <+: cs.drop g.next)
    (hn : p.last g.next + 1 ≤ n) (hg : g.next ≠ 0) : ∃ σ, Settled σ (g.skip p) ∧
      ∀ t, Exits (evaluateStep env cs n m) σ t → Continues env cs n m (some τ.skip) t := by
  rw [← h.next] at hcs
  have hrest := (uncons_drop hcs).2
  rw [Pipeline.last, ← h.next] at hn
  obtain ⟨o, ho⟩ := exits_skipped env m (σ := { τ with
    commandArrayPtr := τ.commandArrayPtr + 1 }) hrest
    (show τ.commandArrayPtr + 1 + 2 * p.others.length ≤ n by omega) (Nat.succ_ne_zero _) h.pipeEnd
  refine ⟨{ τ with
    lastOperator := o, commandArrayPtr := τ.commandArrayPtr + 1 + 2 * p.others.length },
    ⟨?_, h.pipeEnd, h.status, h.seen, fun k hk => ?_, .inr (h.waited.resolve_left hg)⟩,
    fun t ht => .inr ⟨_, rfl, ho t ht⟩⟩
  · show τ.commandArrayPtr + 1 + 2 * p.others.length = g.next + 2 * p.others.length + 1
    rw [h.next]
    omega
  · have hlt : k < g.next := h.reaped k hk
    show k < g.next + 2 * p.others.length + 1
    omega

/-! ### A line -/

/-- The state before the first command. -/
def start (lastChildExitCode : ℤ) : Eval where
  commandArrayPtr := 0
  lastPipeEnd := none
  lastOperator := none
  lastChildExitCode := lastChildExitCode
  lastChildPid := none
  childrenToWaitFor := []
  reaped := []
  calls := []

theorem settled_start (e : ℤ) : Settled (start e) ⟨0, e, []⟩ :=
  ⟨rfl, rfl, rfl, rfl, fun _ hk => absurd hk (List.not_mem_nil), .inl rfl⟩

theorem exits_start {t : Eval} {e : ℤ} {p : Pipeline} {tail : List Command}
    (hcs : p.commands ++ tail <+: cs) (hn : 0 < n)
    (h : Continues env cs n m (forkCommand cs n m (start e)) t) :
    Exits (evaluateStep env cs n m) (start e) t := by
  have hc : cs[(start e).commandArrayPtr]? = some p.first.1 := (uncons_drop (i := 0) hcs).1
  apply Continues.exits
  rw [evaluateStep_command (Nat.ne_of_lt hn) hc p.first.2]
  exact h

theorem drop_commands (code : ℕ → ℤ) (l : Line) (tail : List Command) :
    (l.commands ++ tail).drop (l.progress code).next = tail := by
  rw [← Line.length_commands code l, List.drop_left]

/-- The array after a connective that follows the left part of a line. -/
theorem drop_join (code : ℕ → ℤ) (l : Line) (op : Connective) (tail : List Command) :
    (l.commands ++ op.operator.command :: tail).drop (l.progress code).pass.next = tail := by
  rw [Progress.pass, ← List.tail_drop, drop_commands, List.tail_cons]

/-- The first command after a connective: it is forked, or its pipeline is skipped. -/
theorem Boundary.join {σ : Eval} {l : Line} {op : Connective} {p : Pipeline} {tail : List Command}
    (h : Boundary env σ (l.progress env.code))
    (hcs : l.commands ++ op.operator.command :: (p.commands ++ tail) = cs)
    (hn : (l.progress env.code).next + 1 < n) :
    ∃ τ, Settled τ (l.progress env.code).pass ∧ ∀ t,
      Continues env cs n m (if op.Runs (l.progress env.code).status then forkCommand cs n m τ
        else some τ.skip) t → Exits (evaluateStep env cs n m) σ t := by
  have hdrop : op.operator.command :: p.first.1 :: (barredCommands p.others ++ tail) <+:
      cs.drop (l.progress env.code).next := by
    rw [← hcs, drop_commands]
    exact List.prefix_rfl
  obtain ⟨τ, hτ, hexits⟩ := h.decides (m := m) hdrop (isOperator_text _) (connective_ne_pipe op)
    p.first.2 (Line.next_ne_zero env.code l) hn
  by_cases hruns : op.Runs (l.progress env.code).status
  · refine ⟨{ τ with lastOperator := none }, ⟨hτ.1, hτ.2, hτ.3, hτ.4, hτ.5, hτ.6⟩, fun t ht => hexits t ?_⟩
    rw [if_pos hruns] at ht
    have hskips : ¬skips op.operator.command.name (l.progress env.code).status = true :=
      fun hskips => (skips_iff op _).mp hskips hruns
    rw [if_neg hskips]
    exact ht
  · refine ⟨τ, hτ, fun t ht => hexits t ?_⟩
    rw [if_neg hruns] at ht
    have hskips : skips op.operator.command.name (l.progress env.code).status = true :=
      (skips_iff op _).mpr hruns
    rw [if_pos hskips]
    exact ht

/-- The loop reaches the end of any left part of the array, in a state that stands for its
progress. -/
theorem reaches_boundary (e : ℤ) (l : Line) {tail : List Command} (hcs : l.commands ++ tail = cs)
    (hn : l.commands.length < n) (hm : l.commands.length < m) :
    ∃ σ, Boundary env σ (l.progress env.code) ∧ ∀ t, Exits (evaluateStep env cs n m) σ t →
      Exits (evaluateStep env cs n m) (start e) t := by
  rw [Line.length_commands env.code] at hn hm
  induction l generalizing tail with
  | pipeline p =>
    have hrest : p.commands ++ tail <+: cs.drop 0 := by
      rw [List.drop_zero, ← hcs, Line.commands]
    obtain ⟨σ, hσ, hexits⟩ := (settled_start e).runs hrest hn hm
    exact ⟨σ, hσ, fun t ht => exits_start hrest (by omega) (hexits t ht)⟩
  | join l op p ih =>
    rw [Line.next_join] at hn hm
    have hcs' : l.commands ++ op.operator.command :: (p.commands ++ tail) = cs := by
      rw [← hcs]
      simp [Line.commands]
    have hrest : p.commands ++ tail <+: cs.drop (l.progress env.code).pass.next := by
      rw [← hcs', drop_join]
    have hpass : (l.progress env.code).pass.next = (l.progress env.code).next + 1 := rfl
    have hlast : (l.progress env.code).next + 1 ≤ p.last (l.progress env.code).pass.next :=
      Nat.le_add_right _ _
    obtain ⟨σ, hσ, hexits⟩ := ih hcs' (by omega) (by omega)
    obtain ⟨τ, hτ, hjoin⟩ := hσ.join (n := n) (m := m) hcs' (by omega)
    by_cases hruns : op.Runs (l.progress env.code).status
    · obtain ⟨ρ, hρ, hrun⟩ := hτ.runs hrest hn hm
      refine ⟨ρ, ?_, fun t ht => hexits t (hjoin t ?_)⟩
      · rw [Line.progress, if_pos hruns]
        exact hρ
      · rw [if_pos hruns]
        exact hrun t ht
    · obtain ⟨ρ, hρ, hskip⟩ := hτ.skips hrest hn.le (Nat.succ_ne_zero _)
      refine ⟨ρ, ?_, fun t ht => hexits t (hjoin t ?_)⟩
      · rw [Line.progress, if_neg hruns]
        exact .settled hρ
      · rw [if_neg hruns]
        exact hskip t ht

/-- The loop reaches the last pipeline of a line. -/
theorem reaches_join (e : ℤ) (l : Line) {op : Connective} {p : Pipeline} {tail : List Command}
    (hcs : l.commands ++ op.operator.command :: (p.commands ++ tail) = cs)
    (hn : l.commands.length + 1 < n) (hm : l.commands.length + 1 < m) :
    p.commands ++ tail <+: cs.drop (l.progress env.code).pass.next ∧
    ∃ τ, Settled τ (l.progress env.code).pass ∧ ∀ t,
      Continues env cs n m (if op.Runs (l.progress env.code).status then forkCommand cs n m τ
        else some τ.skip) t → Exits (evaluateStep env cs n m) (start e) t := by
  constructor
  · rw [← hcs, drop_join]
  · obtain ⟨σ, hσ, hexits⟩ := reaches_boundary e l hcs (Nat.lt_of_succ_lt hn) (Nat.lt_of_succ_lt hm)
    rw [Line.length_commands env.code] at hn
    obtain ⟨τ, hτ, hjoin⟩ := hσ.join hcs hn
    exact ⟨τ, hτ, fun t ht => hexits t (hjoin t ht)⟩

/-- The last pipeline of a line is skipped. -/
def Line.Skipped (code : ℕ → ℤ) : Line → Prop
  | pipeline _ => False
  | join l op _ => ¬op.Runs (l.progress code).status

/-- The loop on a whole line. It ends with the fork of the last command, whose child nobody has waited
for yet, or after the last pipeline has been skipped. -/
theorem exits_line (env : Env) (e : ℤ) (l : Line) (tail : List Command) {m : ℕ}
    (hm : l.commands.length ≤ m) : ∃ t,
    Exits (evaluateStep env (l.commands ++ tail) l.commands.length m) (start e) t ∧
      t.seen = (l.progress env.code).seen ∧
      (l.Skipped env.code → Settled t (l.progress env.code)) ∧
      (¬l.Skipped env.code → ∃ j, t.lastChildPid = some j ∧ j ∉ t.reaped ∧
        env.code j = (l.progress env.code).status) := by
  have hlen := Line.length_commands env.code l
  cases l with
  | pipeline p =>
    have hrest : p.commands ++ tail <+: (p.commands ++ tail).drop 0 := List.prefix_rfl
    obtain ⟨t, ht, hseen, hpid, hreaped⟩ := (settled_start e).finishes hrest hlen.symm hm
    exact ⟨t, exits_start hrest (by simp [Line.commands]) ht, hseen, fun h => h.elim,
      fun _ => ⟨_, hpid, hreaped, rfl⟩⟩
  | join l op p =>
    have hcs : l.commands ++ op.operator.command :: (p.commands ++ tail) =
        (Line.join l op p).commands ++ tail := by simp [Line.commands]
    rw [Line.next_join] at hlen
    have hlt : l.commands.length + 1 < (Line.join l op p).commands.length := by simp [Line.commands]
    obtain ⟨hrest, τ, hτ, hexits⟩ := reaches_join e l hcs hlt (Nat.lt_of_lt_of_le hlt hm)
    by_cases hruns : op.Runs (l.progress env.code).status
    · obtain ⟨t, ht, hseen, hpid, hreaped⟩ := hτ.finishes hrest hlen.symm hm
      rw [Line.progress, if_pos hruns]
      exact ⟨t, hexits t (by rwa [if_pos hruns]), hseen, fun h => absurd hruns h,
        fun _ => ⟨_, hpid, hreaped, rfl⟩⟩
    · obtain ⟨ρ, hρ, hskip⟩ := hτ.skips hrest hlen.ge (Nat.succ_ne_zero _)
      rw [Line.progress, if_neg hruns]
      refine ⟨ρ, hexits ρ ?_, hρ.seen, fun _ => hρ, fun h => absurd hruns h⟩
      rw [if_neg hruns]
      apply hskip
      apply Exits.done
      exact evaluateStep_end (hρ.next.trans hlen.symm)

end

end SystemsProgramming.Shell

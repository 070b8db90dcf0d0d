import SystemsProgramming.Shell.Descriptors
import SystemsProgramming.Shell.Redirection

/-! A line with `&` behind it, compared with the line itself. The subshell counts one command less, but
the redirection is looked for at the end of the whole array, where the `&` now stands; and the
subshell has closed its stdin, so its children read from no pipe. -/

namespace SystemsProgramming.Shell

open Eval

/-! ### What is seen of a run -/

theorem deafen_seen (c : Call) : c.deafen.Seen = c.Seen := by cases c <;> rfl

theorem filter_map_deafen (cs : List Call) :
    (cs.map Call.deafen).filter Call.Seen = (cs.filter Call.Seen).map Call.deafen := by
  rw [List.filter_map]
  congr 1
  apply List.filter_congr
  intro c _
  exact deafen_seen c

theorem calls_waitForChildren (env : Env) (pids : List ℕ) (status : WaitStatus) (σ : Eval) :
    (waitForChildren env pids status σ).calls = σ.calls ++ pids.map Call.waitpid := by
  induction pids generalizing status σ with
  | nil => simp [waitForChildren]
  | cons pid pids ih =>
    rw [waitForChildren_cons, ih]
    split_ifs <;> simp [Eval.waitpid, call]

section
variable {env : Env} {cs : List Command} {n m : ℕ} {e : ℤ} {t : Eval}

/-- The calls that follow the loop. -/
def Eval.lastCalls (t : Eval) : List Call :=
  (t.lastPipeEnd.toList.map fun lastPipeEnd => .close (.readEnd lastPipeEnd)) ++
    t.childrenToWaitFor.map .waitpid

theorem calls_afterLoop (env : Env) (t : Eval) (first : List Call) :
    (waitForChildren env t.childrenToWaitFor (.exited 0)
      { t.closeLastPipeEnd with calls := first ++ t.closeLastPipeEnd.calls }).calls =
        first ++ (t.calls ++ t.lastCalls) := by
  rw [calls_waitForChildren]
  simp [closeLastPipeEnd, lastCalls, call]

theorem fork_notMem_lastCalls (t : Eval) (i : ℕ) (d : Command) (o : Option ℕ) :
    Call.fork i d o ∉ t.lastCalls := by simp [lastCalls]

theorem seen_lastCalls (t : Eval) : t.lastCalls.filter Call.Seen = [] := by
  cases h : t.lastPipeEnd <;> simp [lastCalls, h, List.filter_eq_nil_iff, Call.Seen]

/-- In the foreground the children find what the calls say. -/
theorem observed_foreground (ht : Exits (evaluateStep env cs n m) (start e) t) :
    (waitForChildren env t.childrenToWaitFor (.exited 0) t.closeLastPipeEnd).observed = t.seen := by
  have hcalls := calls_afterLoop env t []
  simp only [List.nil_append] at hcalls
  have hstart : Discipline.Kept Hears id standardTable (start e) :=
    ⟨⟨rfl, fun j hj => nomatch hj⟩, (fun j hj => nomatch hj), rfl⟩
  rw [Eval.observed, hcalls, observe_append, discipline_hears.exits hstart ht,
    discipline_hears.observe_others _ (fork_notMem_lastCalls t), List.map_id, List.map_id,
    List.filter_append, seen_lastCalls, List.append_nil]
  rfl

/-- In a subshell no child finds a pipe. -/
theorem observed_background (ht : Exits (evaluateStep env cs n m) (start e) t) :
    (waitForChildren env t.childrenToWaitFor (.exited 0)
      { t.closeLastPipeEnd with calls := .fcloseStdin :: t.closeLastPipeEnd.calls }).observed =
        t.seen.map Call.deafen := by
  have hcalls := calls_afterLoop env t [.fcloseStdin]
  simp only [List.singleton_append] at hcalls
  have hstart : Discipline.Kept Deaf Call.deafen (Call.act standardTable .fcloseStdin) (start e) :=
    ⟨.inl rfl, (fun j hj => nomatch hj), rfl⟩
  rw [Eval.observed, hcalls, observe, observe_append, discipline_deaf.exits hstart ht,
    discipline_deaf.observe_others _ (fork_notMem_lastCalls t), ← List.map_append]
  show (List.map Call.deafen _).filter Call.Seen = _
  rw [filter_map_deafen, List.filter_append, seen_lastCalls, List.append_nil]
  rfl

/-- A turn that does not fork the command before a redirection opens no file. -/
theorem fopen_step {σ : Eval} {r : Ctl Eval} (hm : ∀ c, cs[σ.commandArrayPtr]? = some c →
      σ.commandArrayPtr + 1 = m → σ.commandArrayPtr ≠ n → isOperator c.name = true)
    (hσ : ∀ name o, Call.fopen name o ∉ σ.calls) (hr : evaluateStep env cs n m σ = some r) :
    ∀ name o, Call.fopen name o ∉ r.state.calls := by
  rcases evaluateStep_cases hr with ⟨-, rfl⟩ | ⟨hn, c, hc, ⟨-, rfl⟩ | ⟨hop, τ, o, hτ, hturn⟩⟩
  · exact hσ
  · exact hσ
  have hptr := finishPipeline_ptr hτ
  have hτ' : ∀ name o, Call.fopen name o ∉ τ.calls := by
    rcases hτ with rfl | hτ
    · exact hσ
    · rcases finishPipeline_cases hτ with ⟨-, rfl⟩ | ⟨j, pid, code, -, -, rfl⟩
      · exact hσ
      · intro name o
        simpa using hσ name o
  rcases hturn with rfl | hturn
  · exact hτ'
  obtain ⟨d, -, rfl | ⟨ρ, rfl, hρ⟩⟩ := forkCommand_cases hturn
  · intro name o
    simpa [Ctl.state, Eval.fork] using hτ' name o
  · obtain ⟨rest, hcalls, -, hfopen⟩ := hρ.calls
    intro name o hmem
    have hmem' : Call.fopen name o ∈ ρ.calls := hmem
    rw [hcalls] at hmem'
    have hrest : Call.fopen name o ∈ rest := by
      simpa [Eval.forkCalls, hτ' name o] using hmem'
    have hlast : τ.commandArrayPtr + 1 = m := hfopen ⟨name, o, hrest⟩
    rw [hptr] at hlast
    rw [hm c hc hlast hn] at hop
    cases hop

/-- The loop opens no file if it does not find a command before a redirection. -/
theorem fopen_exits (hm : ∀ i c, cs[i]? = some c → i + 1 = m → i ≠ n → isOperator c.name = true)
    {σ : Eval} (hσ : ∀ name o, Call.fopen name o ∉ σ.calls)
    (ht : Exits (evaluateStep env cs n m) σ t) : ∀ name o, Call.fopen name o ∉ t.calls := by
  induction ht with
  | done hs => exact fopen_step (hm _) hσ hs
  | again hs _ ih => exact ih (fopen_step (hm _) hσ hs)

end

/-! ### The two lines -/

/-- Every pipeline that runs is a single command. -/
def Line.Unpiped (code : ℕ → ℤ) : Line → Prop
  | pipeline p => p.others = []
  | join l op p => l.Unpiped code ∧ (op.Runs (l.progress code).status → p.others = [])

theorem map_deafen_append (cs ds : List Call) : (cs ++ ds).map Call.deafen = cs ++ ds ↔
    cs.map Call.deafen = cs ∧ ds.map Call.deafen = ds := by
  rw [List.map_append]
  exact ⟨fun h => List.append_inj h (List.length_map _), fun h => by rw [h.1, h.2]⟩

theorem Pipeline.map_deafen (i : ℕ) (p : Pipeline) :
    (p.forks i).map Call.deafen = p.forks i ↔ p.others = [] := by
  rw [Pipeline.forks]
  cases p.others with
  | nil => exact iff_of_true rfl rfl
  | cons c cs => simp [forksAfter, Call.deafen]

theorem Progress.map_deafen (code : ℕ → ℤ) (g : Progress) (p : Pipeline) :
    (g.run code p).seen.map Call.deafen = (g.run code p).seen ↔
      g.seen.map Call.deafen = g.seen ∧ p.others = [] := by
  rw [Progress.run, map_deafen_append, map_deafen_append, Pipeline.map_deafen]
  simp [Call.deafen]

theorem Line.map_deafen (code : ℕ → ℤ) (l : Line) :
    (l.progress code).seen.map Call.deafen = (l.progress code).seen ↔ l.Unpiped code := by
  induction l with
  | pipeline p =>
    rw [progress, Progress.map_deafen, Unpiped]
    simp
  | join l op p ih =>
    rw [progress, Unpiped, ← ih]
    split_ifs with hruns
    · rw [Progress.map_deafen]
      simp [Progress.pass, hruns]
    · simp [Progress.skip, Progress.pass, hruns]

theorem Line.map_deafen_walked (code : ℕ → ℤ) (l : Line) (file : Command) :
    (l.walked code file).map Call.deafen = l.walked code file ↔ l.Unpiped code := by
  rw [walked, ← Line.map_deafen]
  split_ifs
  · rw [map_deafen_append]
    simp [Call.deafen]
  · rfl

/-- The words of a line with an optional redirection. -/
def Line.words (l : Line) : Option (Bool × Command) → List Command
  | none => l.commands
  | some (overwrite, file) => l.redirectedCommands overwrite file

theorem Line.commands_ne_nil (l : Line) : l.commands ≠ [] := by
  cases l <;> simp [commands, Pipeline.commands]

theorem commandCount_background {cs : List Command} {c : Command} (hlast : cs.getLast? = some c) :
    commandCountBeforeRedirection (cs ++ [Operator.background.command]) =
      some (if c.name = Operator.append.text ∨ c.name = Operator.overwrite.text
        then cs.length - 1 else cs.length + 1) := by
  have hpos : 0 < cs.length := List.length_pos_of_ne_nil (by rintro rfl; cases hlast)
  have hlen : (cs ++ [Operator.background.command]).length = cs.length + 1 := by simp
  have hget : (cs ++ [Operator.background.command])[cs.length - 1]? = some c := by
    rw [List.getElem?_append_left (Nat.sub_lt hpos Nat.one_pos), ← List.getLast?_eq_getElem?, hlast]
  have hindex : cs.length + 1 - 2 = cs.length - 1 := by omega
  rw [commandCountBeforeRedirection, if_neg (by omega), hlen, hindex]
  simp only [hget, Option.bind_eq_bind, Option.bind_some, Option.pure_def]
  split_ifs <;> rfl

section
variable {env : Env} {cs : List Command} {e : ℤ}

/-- The subshell that is forked for a line with `&` behind it. -/
def subshell (env : Env) (t : Eval) : Eval := waitForChildren env t.childrenToWaitFor (.exited 0)
  { t.closeLastPipeEnd with calls := .fcloseStdin :: t.closeLastPipeEnd.calls }

theorem runLine_ampersand (hne : cs ≠ []) : runLine env (cs ++ [Operator.background.command]) e =
    (evaluate env (cs ++ [Operator.background.command]) cs.length e).map fun σ =>
      .background (waitForChildren env σ.childrenToWaitFor (.exited 0)
        { σ with calls := .fcloseStdin :: σ.calls }) := by
  cases cs with
  | nil => exact absurd rfl hne
  | cons c cs =>
    have hlast : (c :: (cs ++ [Operator.background.command]))[(c :: (cs ++
        [Operator.background.command])).length - 1]? = some Operator.background.command := by
      simp
    rw [List.cons_append, runLine]
    simp only [List.append_eq_nil_iff, List.cons_ne_nil, and_false, false_and, if_false, hlast,
      Option.bind_eq_bind, Option.bind_some]
    have hname : Operator.background.command.name = Operator.background.text := rfl
    have hlen : (c :: (cs ++ [Operator.background.command])).length - 1 = (c :: cs).length := by simp
    rw [if_pos hname, Option.map_eq_bind, hlen]
    rfl

theorem runLine_subshell {m : ℕ} {t : Eval} (hne : cs ≠ [])
    (hm : commandCountBeforeRedirection (cs ++ [Operator.background.command]) = some m)
    (ht : Exits (evaluateStep env (cs ++ [Operator.background.command]) cs.length m) (start e) t) :
    runLine env (cs ++ [Operator.background.command]) e = some (.background (subshell env t)) := by
  rw [runLine_ampersand hne, evaluate_of_exits hm ht]
  rfl

theorem exits_of_background {m : ℕ} {τ : Eval} (hne : cs ≠ [])
    (hm : commandCountBeforeRedirection (cs ++ [Operator.background.command]) = some m)
    (hτ : runLine env (cs ++ [Operator.background.command]) e = some (.background τ)) : ∃ t,
    Exits (evaluateStep env (cs ++ [Operator.background.command]) cs.length m) (start e) t ∧
      τ = subshell env t := by
  rw [runLine_ampersand hne] at hτ
  obtain ⟨σ, hσ, hτ⟩ := Option.map_eq_some_iff.mp hτ
  simp only [evaluate, hm, Option.bind_eq_bind, Option.bind_some] at hσ
  obtain ⟨t, ht, hσ⟩ := Option.bind_eq_some_iff.mp hσ
  obtain rfl := Option.some.inj hσ
  exact ⟨t, exits_of_iterate ht, (LineResult.background.inj hτ).symm⟩

end

/-! ### Lines without redirection -/

section
variable {env : Env} {e : ℤ}

/-- Without a redirection the subshell sees the end of the line where it is. -/
theorem subshell_line (env : Env) (e : ℤ) (l : Line) : ∃ τ,
    runLine env (l.commands ++ [Operator.background.command]) e = some (.background τ) ∧
      τ.observed = (l.progress env.code).seen.map Call.deafen := by
  have hlast := List.getLast?_eq_some_getLast l.commands_ne_nil
  have hmem := List.getLast_mem l.commands_ne_nil
  have hcount := commandCount_background hlast
  rw [if_neg (not_or.mpr ⟨Line.name_ne hmem (.inr (.inr rfl)), Line.name_ne hmem (.inr (.inl rfl))⟩)]
    at hcount
  obtain ⟨t, ht, hseen, -⟩ := exits_line env e l [Operator.background.command]
    (Nat.le_succ l.commands.length)
  exact ⟨_, runLine_subshell l.commands_ne_nil hcount ht, by
    rw [← hseen]
    exact observed_background ht⟩

theorem foreground_line (env : Env) (e : ℤ) (l : Line)
    (hlone : ∀ c, l.commands = [c] → c.name ≠ exitName ∧ c.name ≠ cdName) : ∃ σ,
    runLine env l.commands e = some (.foreground σ) ∧ σ.observed = (l.progress env.code).seen := by
  obtain ⟨t, ht, hseen, -⟩ := exits_line env e l [] (Nat.le_refl _)
  rw [List.append_nil] at ht
  exact ⟨_, l.runLine_of_exits hlone ht, by rw [observed_foreground ht, hseen]⟩

/-! ### Lines with a redirection -/

variable {l : Line} {overwrite : Bool} {file : Command}

/-- Where the subshell looks for the last command before the redirection, there is none. -/
theorem commandCount_ampersand (l : Line) (overwrite : Bool) (file : Command) : ∃ m,
    commandCountBeforeRedirection
      (l.redirectedCommands overwrite file ++ [Operator.background.command]) = some m ∧
    l.commands.length ≤ m ∧
    ∀ i c, (l.redirectedCommands overwrite file ++ [Operator.background.command])[i]? = some c →
      i + 1 = m → i ≠ (l.redirectedCommands overwrite file).length → isOperator c.name = true := by
  have hlen := l.length_redirectedCommands overwrite file
  have hlast := l.getLast?_redirectedCommands overwrite file
  refine ⟨_, commandCount_background hlast, ?_, fun i c hc hi hne => ?_⟩
  · split_ifs <;> omega
  · split_ifs at hi
    · obtain rfl : i = l.commands.length := by omega
      rw [l.get_redirector] at hc
      obtain rfl := Option.some.inj hc
      exact isOperator_text _
    · exact absurd (Nat.succ.inj hi) hne

theorem redirectedCommands_ne_nil : l.redirectedCommands overwrite file ≠ [] := by
  simp [Line.redirectedCommands]

/-- No subshell opens a file. -/
theorem fopen_notMem_subshell {τ : Eval} (hτ : runLine env
    (l.redirectedCommands overwrite file ++ [Operator.background.command]) e =
      some (.background τ)) (name : CString) (o : Bool) : Call.fopen name o ∉ τ.observed := by
  obtain ⟨m, hm, -, hop⟩ := commandCount_ampersand l overwrite file
  obtain ⟨t, ht, rfl⟩ := exits_of_background redirectedCommands_ne_nil hm hτ
  have hcalls := fopen_exits hop (by simp [start]) ht name o
  rw [subshell, observed_background ht]
  intro hmem
  obtain ⟨c, hc, heq⟩ := List.mem_map.mp hmem
  cases c with
  | fopen name' o' =>
    rw [← heq] at hcalls
    exact hcalls (List.mem_filter.mp hc).1
  | _ => cases heq

/-- A line with a redirection whose last pipeline runs opens its file. -/
theorem Line.fopen_mem_redirected {code : ℕ → ℤ} (hran : ¬l.Skipped code) (name : CString) :
    Call.fopen name overwrite ∈ l.redirected code name overwrite := by
  cases l with
  | pipeline p => simp [redirected]
  | join l op p =>
    have hruns : op.Runs (l.progress code).status := not_not.mp hran
    have hruns' : op.Runs (l.progress code).pass.status := hruns
    simp [redirected, hruns']

theorem subshell_skipped (env : Env) (e : ℤ) (overwrite : Bool) (file : Command)
    (hskip : l.Skipped env.code) : ∃ τ,
    runLine env (l.redirectedCommands overwrite file ++ [Operator.background.command]) e =
      some (.background τ) ∧ τ.observed = (l.walked env.code file).map Call.deafen := by
  obtain ⟨m, hm, hle, -⟩ := commandCount_ampersand l overwrite file
  obtain ⟨t, ht, hseen⟩ := exits_skipped_redirected e overwrite file
    [Operator.background.command] hle hskip
  rw [← l.length_redirectedCommands overwrite file] at ht
  exact ⟨_, runLine_subshell redirectedCommands_ne_nil hm ht, by
    rw [← hseen]
    exact observed_background ht⟩

theorem foreground_redirected {t : Eval} (hfile : file.name ≠ Operator.background.text)
    (ht : Exits (evaluateStep env (l.redirectedCommands overwrite file) (l.commands.length + 2)
      l.commands.length) (start e) t) : ∃ σ,
    runLine env (l.redirectedCommands overwrite file) e = some (.foreground σ) ∧
      σ.observed = t.seen := by
  have hlone : ∀ c, l.redirectedCommands overwrite file = [c] →
      c.name ≠ exitName ∧ c.name ≠ cdName :=
    fun c hc => absurd hc (l.redirectedCommands_ne_singleton overwrite file c)
  have hlast := l.getLast?_redirectedCommands overwrite file
  rw [← l.length_redirectedCommands overwrite file] at ht
  have hσ := evaluate_of_exits (l.commandCount_redirected overwrite file) ht
  exact ⟨_, runLine_foreground hlone hlast hfile hσ, observed_foreground ht⟩

theorem redirected_background_iff (env : Env) (e : ℤ) (l : Line) (overwrite : Bool)
    (file : Command) :
    (∃ σ τ, runLine env (l.redirectedCommands overwrite file) e = some (.foreground σ) ∧
        runLine env (l.redirectedCommands overwrite file ++ [Operator.background.command]) e =
          some (.background τ) ∧ τ.observed = σ.observed) ↔
      l.Unpiped env.code ∧ file.name ≠ Operator.background.text ∧ l.Skipped env.code := by
  by_cases hfile : file.name = Operator.background.text
  · refine iff_of_false ?_ fun h => h.2.1 hfile
    rintro ⟨σ, τ, hσ, -⟩
    exact runLine_background (l.getLast?_redirectedCommands overwrite file) hfile σ hσ
  by_cases hskip : l.Skipped env.code
  · obtain ⟨t, ht, hseen⟩ := exits_skipped_redirected e overwrite file [] (Nat.le_refl _) hskip
    rw [List.append_nil] at ht
    obtain ⟨σ, hσ, hobserved⟩ := foreground_redirected hfile ht
    obtain ⟨τ, hτ, hτobserved⟩ := subshell_skipped env e overwrite file hskip
    rw [hσ, hτ, ← Line.map_deafen_walked env.code l file, ← hseen]
    rw [hseen] at hobserved
    simp [hfile, hskip, hobserved, hτobserved, hseen]
  · obtain ⟨t, ht, hseen⟩ := exits_ran_redirected e overwrite file hskip
    obtain ⟨σ, hσ, hobserved⟩ := foreground_redirected hfile ht
    refine iff_of_false ?_ fun h => hskip h.2.2
    rintro ⟨σ', τ, hσ', hτ, heq⟩
    obtain rfl := LineResult.foreground.inj (Option.some.inj (hσ.symm.trans hσ'))
    have hfopen := fopen_notMem_subshell hτ file.name overwrite
    rw [heq, hobserved, hseen] at hfopen
    exact hfopen (Line.fopen_mem_redirected hskip file.name)

/-- With `&` behind it, a line runs the same commands with the same pipes and files if and only if it
runs no pipe, and, when it has a redirection, does not run the pipeline before it. -/
theorem background_iff (env : Env) (lastChildExitCode : ℤ) (l : Line)
    (redirection : Option (Bool × Command))
    (hlone : ∀ c, l.words redirection = [c] → c.name ≠ exitName ∧ c.name ≠ cdName) :
    (∃ σ τ, runLine env (l.words redirection) lastChildExitCode = some (.foreground σ) ∧
        runLine env (l.words redirection ++ [Operator.background.command]) lastChildExitCode =
          some (.background τ) ∧ τ.observed = σ.observed) ↔
      l.Unpiped env.code ∧ ∀ overwrite file, redirection = some (overwrite, file) →
        file.name ≠ Operator.background.text ∧ l.Skipped env.code := by
  cases redirection with
  | none =>
    obtain ⟨σ, hσ, hobserved⟩ := foreground_line env lastChildExitCode l hlone
    obtain ⟨τ, hτ, hτobserved⟩ := subshell_line env lastChildExitCode l
    rw [Line.words, hσ, hτ, ← Line.map_deafen]
    simp [hobserved, hτobserved]
  | some r =>
    obtain ⟨overwrite, file⟩ := r
    rw [Line.words, redirected_background_iff]
    simp

/-- `false && echo > f`, which runs `false` alone in both cases. -/
theorem background_iff_skipped : ∃ σ τ, runLine ⟨fun _ => .exited 1, .exited 0⟩
    ((Line.join (.pipeline ⟨falseCommand, []⟩) .and ⟨echoCommand, []⟩).words
      (some (true, fileCommand))) 0 = some (.foreground σ) ∧
    runLine ⟨fun _ => .exited 1, .exited 0⟩
      ((Line.join (.pipeline ⟨falseCommand, []⟩) .and ⟨echoCommand, []⟩).words
        (some (true, fileCommand)) ++ [Operator.background.command]) 0 = some (.background τ) ∧
    τ.observed = σ.observed := by
  refine (background_iff _ 0 (.join (.pipeline ⟨falseCommand, []⟩) .and ⟨echoCommand, []⟩)
    (some (true, fileCommand)) fun c hc => ?_).mpr ⟨⟨rfl, fun _ => rfl⟩, fun overwrite file h => ?_⟩
  · simp [Line.words, Line.redirectedCommands, Line.commands, Pipeline.commands] at hc
  · obtain ⟨rfl, rfl⟩ := Prod.mk.inj (Option.some.inj h)
    exact ⟨by decide, show ¬Connective.and.Runs 1 by decide⟩

/-- `true > f` in the background: the output of `true` goes to stdout, and `f` is run. -/
theorem background_runs_file : ¬∃ σ τ, runLine ⟨fun _ => .exited 0, .exited 0⟩
    ((Line.pipeline ⟨trueCommand, []⟩).words (some (true, fileCommand))) 0 =
      some (.foreground σ) ∧
    runLine ⟨fun _ => .exited 0, .exited 0⟩
      ((Line.pipeline ⟨trueCommand, []⟩).words (some (true, fileCommand)) ++
        [Operator.background.command]) 0 = some (.background τ) ∧
    τ.observed = σ.observed := by
  rintro ⟨σ, τ, hσ, hτ, heq⟩
  have hforeground : (runLine ⟨fun _ => .exited 0, .exited 0⟩
      ((Line.pipeline ⟨trueCommand, []⟩).words (some (true, fileCommand))) 0).bind (fun
        | .foreground σ => some σ.observed
        | _ => none) = some [.fork 0 trueCommand.1 none, .fopen fileCommand.name true,
          .copy 0 (.file fileCommand.name)] := by decide
  have hbackground : (runLine ⟨fun _ => .exited 0, .exited 0⟩
      ((Line.pipeline ⟨trueCommand, []⟩).words (some (true, fileCommand)) ++
        [Operator.background.command]) 0).bind (fun
        | .background τ => some τ.observed
        | _ => none) = some [.fork 0 trueCommand.1 none, .copy 0 .stdout,
          .fork 2 fileCommand none, .copy 2 .stdout] := by decide
  rw [hσ] at hforeground
  rw [hτ] at hbackground
  have hne := (Option.some.inj hbackground).symm.trans (heq.trans (Option.some.inj hforeground))
  revert hne
  decide

end

end SystemsProgramming.Shell

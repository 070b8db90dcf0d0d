import SystemsProgramming.Shell.Evaluation

/-! Lines without redirection run as they mean. The body of the loop goes to the end of the array, so
what the loop exits with is what `main` computes. -/

namespace SystemsProgramming.Shell

open Eval

/-! ### From the loop to the line -/

/-- The `close` after the loop. -/
def Eval.closeLastPipeEnd (σ : Eval) : Eval :=
  σ.call (σ.lastPipeEnd.toList.map fun lastPipeEnd => .close (.readEnd lastPipeEnd))

theorem seen_closeLastPipeEnd (σ : Eval) : σ.closeLastPipeEnd.seen = σ.seen := by
  cases hend : σ.lastPipeEnd <;> simp [closeLastPipeEnd, hend, Call.Seen]

theorem evaluate_of_exits {env : Env} {cs : List Command} {n m : ℕ} {t : Eval} {e : ℤ}
    (hm : commandCountBeforeRedirection cs = some m)
    (h : Exits (evaluateStep env cs n m) (start e) t) :
    evaluate env cs n e = some t.closeLastPipeEnd := by
  -- the loop has no guard against walking past the end, so the measure needs a case for it
  have hloop := h.iterate (n := n + 1) (μ := fun σ => if σ.commandArrayPtr ≤ n
      then n - σ.commandArrayPtr else cs.length - σ.commandArrayPtr)
    (fun s u hs => by
      obtain ⟨hptr, hne, hlt⟩ := evaluateStep_again hs
      simp only [hptr]
      split_ifs <;> omega) (by simp [start])
  rw [start] at hloop
  simp only [evaluate, hm, hloop, Option.bind_eq_bind, Option.bind_some, Option.pure_def,
    closeLastPipeEnd]

/-- Waiting for the children of the line shows nothing. -/
theorem seen_waitForChildren (env : Env) (pids : List ℕ) (status : WaitStatus) (σ : Eval) :
    (waitForChildren env pids status σ).seen = σ.seen := by
  induction pids generalizing status σ with
  | nil => rfl
  | cons pid pids ih =>
    rw [waitForChildren, ih]
    split_ifs <;> simp [Eval.waitpid, seen, call, Call.Seen]

/-- A line for which no subshell is forked. -/
theorem runLine_foreground {env : Env} {cs : List Command} {e : ℤ} {c : Command} {σ : Eval}
    (hlone : ∀ c, cs = [c] → c.name ≠ exitName ∧ c.name ≠ cdName) (hlast : cs.getLast? = some c)
    (hc : c.name ≠ Operator.background.text) (hσ : evaluate env cs cs.length e = some σ) :
    runLine env cs e =
      some (.foreground (waitForChildren env σ.childrenToWaitFor (.exited 0) σ)) := by
  cases cs with
  | nil => cases hlast
  | cons d ds =>
    have hexit : ¬(ds = [] ∧ d.name = exitName) := fun h => (hlone d (by rw [h.1])).1 h.2
    have hcd : ¬(ds = [] ∧ d.name = cdName) := fun h => (hlone d (by rw [h.1])).2 h.2
    rw [List.getLast?_eq_getElem?] at hlast
    simp only [runLine, if_neg hexit, if_neg hcd, hlast, if_neg hc, hσ, Option.bind_eq_bind,
      Option.bind_some, Option.pure_def]

/-! ### Lines without redirection -/

theorem mem_barredCommands {c : Command} {ds : List PlainCommand} (h : c ∈ barredCommands ds) :
    c = Operator.pipe.command ∨ isOperator c.name = false := by
  induction ds with
  | nil => cases h
  | cons d ds ih =>
    rcases List.mem_cons.mp h with rfl | h
    · exact .inl rfl
    · rcases List.mem_cons.mp h with rfl | h
      · exact .inr d.2
      · exact ih h

theorem Pipeline.mem_commands {c : Command} {p : Pipeline} (h : c ∈ p.commands) :
    c = Operator.pipe.command ∨ isOperator c.name = false := by
  rcases List.mem_cons.mp h with rfl | h
  · exact .inr p.first.2
  · exact mem_barredCommands h

/-- The operators of a line are `|`, `&&` and `||`. -/
theorem Line.mem_commands {c : Command} {l : Line} (h : c ∈ l.commands) :
    c = Operator.pipe.command ∨ c = Operator.and.command ∨ c = Operator.or.command ∨
      isOperator c.name = false := by
  induction l with
  | pipeline p =>
    rcases Pipeline.mem_commands h with h | h
    · exact .inl h
    · exact .inr (.inr (.inr h))
  | join l op p ih =>
    rcases List.mem_append.mp h with h | h
    · exact ih h
    rcases List.mem_cons.mp h with rfl | h
    · cases op with
      | and => exact .inr (.inl rfl)
      | or => exact .inr (.inr (.inl rfl))
    · rcases Pipeline.mem_commands h with h | h
      · exact .inl h
      · exact .inr (.inr (.inr h))

/-- No command of a line is `&`, `>` or `>>`. -/
theorem Line.name_ne {c : Command} {l : Line} (h : c ∈ l.commands) {op : Operator}
    (hop : op = .background ∨ op = .overwrite ∨ op = .append) : c.name ≠ op.text := by
  rcases Line.mem_commands h with rfl | rfl | rfl | h
  · rcases hop with rfl | rfl | rfl <;> decide
  · rcases hop with rfl | rfl | rfl <;> decide
  · rcases hop with rfl | rfl | rfl <;> decide
  · rintro hname
    rw [hname, isOperator_text] at h
    cases h

theorem Line.commandCount (l : Line) :
    commandCountBeforeRedirection l.commands = some l.commands.length := by
  rw [commandCountBeforeRedirection]
  split_ifs with hle
  · rfl
  · obtain ⟨c, hc⟩ : ∃ c, l.commands[l.commands.length - 2]? = some c :=
      ⟨_, List.getElem?_eq_getElem (by omega)⟩
    have hmem := List.mem_of_getElem? hc
    have happend := Line.name_ne hmem (.inr (.inr rfl))
    have hoverwrite := Line.name_ne hmem (.inr (.inl rfl))
    simp only [hc, Option.bind_eq_bind, Option.bind_some, happend, hoverwrite, or_self, if_false,
      Option.pure_def]

/-- The foreground run of a line that ends the loop in `t`. -/
theorem Line.runLine_of_exits {env : Env} {e : ℤ} {l : Line} {t : Eval}
    (hlone : ∀ c, l.commands = [c] → c.name ≠ exitName ∧ c.name ≠ cdName)
    (ht : Exits (evaluateStep env l.commands l.commands.length l.commands.length) (start e) t) :
    runLine env l.commands e = some (.foreground
      (waitForChildren env t.childrenToWaitFor (.exited 0) t.closeLastPipeEnd)) := by
  have hne : l.commands ≠ [] := by
    cases l <;> simp [Line.commands, Pipeline.commands]
  exact runLine_foreground hlone (List.getLast?_eq_some_getLast hne)
    (Line.name_ne (List.getLast_mem hne) (.inl rfl)) (evaluate_of_exits l.commandCount ht)

/-- A line of pipelines joined by `&&` and `||` runs exactly what it means: what is forked, with
which stdin, and what is copied to the shell's stdout, all in order. -/
theorem runLine_line (env : Env) (lastChildExitCode : ℤ) (l : Line)
    (hlone : ∀ c, l.commands = [c] → c.name ≠ exitName ∧ c.name ≠ cdName) :
    ∃ σ, runLine env l.commands lastChildExitCode = some (.foreground σ) ∧
      σ.seen = (l.progress env.code).seen := by
  obtain ⟨t, ht, hseen, -⟩ := exits_line env lastChildExitCode l [] (Nat.le_refl _)
  rw [List.append_nil] at ht
  refine ⟨_, l.runLine_of_exits hlone ht, ?_⟩
  rw [seen_waitForChildren, seen_closeLastPipeEnd, hseen]

def plain (name : CString) (h : isOperator name = false) : PlainCommand := ⟨⟨name, []⟩, h⟩

def trueCommand : PlainCommand := plain [byte 't', byte 'r', byte 'u', byte 'e'] (by decide)
def echoCommand : PlainCommand := plain [byte 'e', byte 'c', byte 'h', byte 'o'] (by decide)
def catCommand : PlainCommand := plain [byte 'c', byte 'a', byte 't'] (by decide)

/-- `true || echo | cat && echo | cat`: the second pipeline is skipped, the third runs. -/
theorem runLine_line_skip : ∃ σ, runLine ⟨fun _ => .exited 0, .exited 0⟩
    (Line.join (.join (.pipeline ⟨trueCommand, []⟩) .or ⟨echoCommand, [catCommand]⟩) .and
      ⟨echoCommand, [catCommand]⟩).commands 0 = some (.foreground σ) ∧
    σ.seen = [.fork 0 trueCommand.1 none, .copy 0 .stdout, .fork 6 echoCommand.1 none,
      .fork 8 catCommand.1 (some 6), .copy 8 .stdout] := by
  obtain ⟨σ, hσ, hseen⟩ := runLine_line ⟨fun _ => .exited 0, .exited 0⟩ 0
    (.join (.join (.pipeline ⟨trueCommand, []⟩) .or ⟨echoCommand, [catCommand]⟩) .and
      ⟨echoCommand, [catCommand]⟩) (fun c hc => by simp [Line.commands, Pipeline.commands] at hc)
  exact ⟨σ, hσ, hseen.trans (by decide)⟩

end SystemsProgramming.Shell

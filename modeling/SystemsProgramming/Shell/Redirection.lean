import SystemsProgramming.Shell.ShortCircuit

/-! Lines that end in `> f` or `>> f`. The loop stops before the redirection only if it forks the
command there. When the last pipeline is skipped it walks on, takes the redirection for `&&`, and
may fork `f`. -/

namespace SystemsProgramming.Shell

open Eval

/-- `>` or `>>`. -/
def redirector (overwrite : Bool) : Operator := if overwrite then .overwrite else .append

def Line.redirectedCommands (l : Line) (overwrite : Bool) (file : Command) : List Command :=
  l.commands ++ [(redirector overwrite).command, file]

/-- The last pipeline is skipped by `||` and the redirection, taken for `&&`, does not skip the file's
name. -/
def Line.WalksIntoFile (code : ℕ → ℤ) (file : CString) : Line → Prop
  | pipeline _ => False
  | join l op _ => op = .or ∧ (l.progress code).status = 0 ∧ isOperator file = false

theorem redirector_text (overwrite : Bool) : isOperator (redirector overwrite).text = true ∧
    (redirector overwrite).text ≠ Operator.pipe.text ∧
    (redirector overwrite).text ≠ Operator.or.text ∧
    ((redirector overwrite).text = Operator.append.text ∨
      (redirector overwrite).text = Operator.overwrite.text) ∧
    decide ((redirector overwrite).text = Operator.overwrite.text) = overwrite := by
  cases overwrite <;> decide

section
variable (l : Line) (overwrite : Bool) (file : Command)

theorem Line.length_redirectedCommands :
    (l.redirectedCommands overwrite file).length = l.commands.length + 2 := by
  simp [redirectedCommands]

theorem Line.get_redirector (tail : List Command) :
    (l.redirectedCommands overwrite file ++ tail)[l.commands.length]? =
      some (redirector overwrite).command := by simp [redirectedCommands]

theorem Line.get_file (tail : List Command) :
    (l.redirectedCommands overwrite file ++ tail)[l.commands.length + 1]? = some file := by
  simp [redirectedCommands]

theorem Line.getLast?_redirectedCommands :
    (l.redirectedCommands overwrite file).getLast? = some file := by simp [redirectedCommands]

theorem Line.redirectedCommands_ne_singleton (c : Command) :
    l.redirectedCommands overwrite file ≠ [c] := by
  intro hc
  have hlen := congrArg List.length hc
  rw [length_redirectedCommands] at hlen
  cases hlen

theorem Line.commandCount_redirected :
    commandCountBeforeRedirection (l.redirectedCommands overwrite file) =
      some l.commands.length := by
  have hlt : ¬(l.redirectedCommands overwrite file).length ≤ 1 := by
    cases l <;> simp [redirectedCommands]
  have hname := (redirector_text overwrite).2.2.2.1
  have hget := l.get_redirector overwrite file []
  rw [List.append_nil] at hget
  rw [commandCountBeforeRedirection, if_neg hlt, length_redirectedCommands, Nat.add_sub_cancel]
  simp only [hget, Operator.command, if_pos hname, Option.bind_eq_bind, Option.bind_some,
    Option.pure_def]

end

section
variable {env : Env} {l : Line} {overwrite : Bool} {file : Command}

/-- What is seen of a line whose last pipeline is skipped. -/
def Line.walked (code : ℕ → ℤ) (l : Line) (file : Command) : List Call :=
  if (l.progress code).status = 0 ∧ isOperator file.name = false then
    (l.progress code).seen ++ [.fork (l.commands.length + 1) file none,
      .copy (l.commands.length + 1) .stdout]
  else (l.progress code).seen

/-- The loop walks on into the redirection after a skipped pipeline. -/
theorem exits_redirection {ρ : Eval} {m : ℕ} (tail : List Command)
    (h : Settled ρ (l.progress env.code)) :
    ∃ t, Exits (evaluateStep env (l.redirectedCommands overwrite file ++ tail)
      (l.commands.length + 2) m) ρ t ∧ t.seen = l.walked env.code file := by
  obtain ⟨hop, hpipe, hor, -⟩ := redirector_text overwrite
  have hnext := Line.length_commands env.code l
  have hptr : ρ.commandArrayPtr = l.commands.length := h.next.trans hnext.symm
  have hredirector := l.get_redirector overwrite file tail
  have hfile := l.get_file overwrite file tail
  rw [← hptr] at hredirector hfile
  rw [Line.walked]
  cases hf : isOperator file.name with
  | true =>
    -- the name is itself taken for an operator, and the line ends after it
    refine ⟨(ρ.operator (redirector overwrite).text).operator file.name, .again
      (evaluateStep_operator (by omega) hredirector hop) (.again (evaluateStep_operator ?_ hfile hf)
        (.done ?_)), ?_⟩
    · show ρ.commandArrayPtr + 1 ≠ _
      omega
    · exact evaluateStep_end (show ρ.commandArrayPtr + 1 + 1 = _ by omega)
    · simpa using h.seen
  | false =>
    have hdrop : (redirector overwrite).command :: file :: tail <+:
        (l.redirectedCommands overwrite file ++ tail).drop (l.progress env.code).next := by
      rw [← hnext, Line.redirectedCommands, List.append_assoc, List.drop_left]
      exact List.prefix_rfl
    obtain ⟨τ, hτ, hexits⟩ := (Boundary.settled h).decides (m := m) hdrop hop hpipe hf
      (Line.next_ne_zero env.code l)
      (show (l.progress env.code).next + 1 < l.commands.length + 2 by omega)
    have hτptr : τ.commandArrayPtr = l.commands.length + 1 := by
      rw [hτ.next, Progress.pass, hnext]
    by_cases hstatus : (l.progress env.code).status = 0
    · have hskips : ¬skips (redirector overwrite).command.name (l.progress env.code).status = true := by
        simp [skips, Operator.command, hor, hstatus]
      have hfile' : (l.redirectedCommands overwrite file ++ tail)[τ.commandArrayPtr]? =
          some file := by
        rw [hτptr, ← hptr]
        exact hfile
      obtain ⟨t, ht, hseen, -⟩ := forkCommand_last (m := m) (n := l.commands.length + 2)
        (σ := { τ with lastOperator := none }) hfile' (show τ.commandArrayPtr + 1 = _ by omega)
      refine ⟨t, hexits t ?_, hseen.trans ?_⟩
      · rw [if_neg hskips]
        exact .inl ht
      · have hend : τ.lastPipeEnd = none := hτ.pipeEnd
        have hseen' : ({ τ with lastOperator := none } : Eval).seen = (l.progress env.code).seen :=
          hτ.seen
        rw [if_pos ⟨hstatus, rfl⟩, hseen', hend, hτptr]
    · have hskips : skips (redirector overwrite).command.name (l.progress env.code).status = true := by
        simp [skips, Operator.command, hor, hstatus]
      refine ⟨{ τ with commandArrayPtr := τ.commandArrayPtr + 1 }, hexits _ ?_, ?_⟩
      · rw [if_pos hskips]
        refine .inr ⟨_, rfl, .done ?_⟩
        exact evaluateStep_end (show τ.commandArrayPtr + 1 = _ by omega)
      · rw [if_neg fun h => hstatus h.1]
        exact hτ.seen

/-- The loop on a line with a redirection whose last pipeline is skipped. -/
theorem exits_skipped_redirected (e : ℤ) (overwrite : Bool) (file : Command) (tail : List Command)
    {m : ℕ}
    (hm : l.commands.length ≤ m) (hskip : l.Skipped env.code) :
    ∃ t, Exits (evaluateStep env (l.redirectedCommands overwrite file ++ tail)
      (l.commands.length + 2) m) (start e) t ∧ t.seen = l.walked env.code file := by
  have hlen := Line.length_commands env.code l
  cases l with
  | pipeline p => exact hskip.elim
  | join l op p =>
    have hcs : l.commands ++ op.operator.command :: (p.commands ++ ([(redirector overwrite).command,
        file] ++ tail)) = (Line.join l op p).redirectedCommands overwrite file ++ tail := by
      simp [Line.redirectedCommands, Line.commands]
    have hlt : l.commands.length + 1 < (Line.join l op p).commands.length := by simp [Line.commands]
    obtain ⟨hrest, τ, hτ, hexits⟩ := reaches_join e l hcs (Nat.lt_add_right 2 hlt)
      (Nat.lt_of_lt_of_le hlt hm)
    rw [Line.next_join] at hlen
    obtain ⟨ρ, hρ, hskips⟩ := hτ.skips hrest (hlen.ge.trans (Nat.le_add_right _ 2))
      (Nat.succ_ne_zero _)
    have hsettled : Settled ρ ((Line.join l op p).progress env.code) := by
      rw [Line.progress, if_neg hskip]
      exact hρ
    obtain ⟨t, ht, hseen⟩ := exits_redirection tail hsettled
    refine ⟨t, hexits t ?_, hseen⟩
    rw [if_neg hskip]
    exact hskips t ht

/-- The loop on a line with a redirection whose last pipeline runs. -/
theorem exits_ran_redirected (e : ℤ) (overwrite : Bool) (file : Command) (hran : ¬l.Skipped env.code) :
    ∃ t, Exits (evaluateStep env (l.redirectedCommands overwrite file) (l.commands.length + 2)
      l.commands.length) (start e) t ∧ t.seen = l.redirected env.code file.name overwrite := by
  have hoverwrite : decide ((redirector overwrite).command.name = Operator.overwrite.text) =
    overwrite := (redirector_text overwrite).2.2.2.2
  have hlen := Line.length_commands env.code l
  have hredirector := l.get_redirector overwrite file []
  have hfile := l.get_file overwrite file []
  rw [List.append_nil] at hredirector hfile
  cases l with
  | pipeline p =>
    have hrest : p.commands ++ [(redirector overwrite).command, file] <+:
        ((Line.pipeline p).redirectedCommands overwrite file).drop 0 := List.prefix_rfl
    obtain ⟨t, ht, hseen⟩ := (settled_start e).redirects hrest hlen.symm
      (by omega) (Nat.le_add_right _ 2) hredirector hfile
    refine ⟨t, exits_start hrest (Nat.zero_lt_succ _) ht, ?_⟩
    rw [hseen, hoverwrite]
    rfl
  | join l op p =>
    have hcs : l.commands ++ op.operator.command :: (p.commands ++ [(redirector overwrite).command,
        file]) = (Line.join l op p).redirectedCommands overwrite file := by
      simp [Line.redirectedCommands, Line.commands]
    have hlt : l.commands.length + 1 < (Line.join l op p).commands.length := by simp [Line.commands]
    obtain ⟨hrest, τ, hτ, hexits⟩ := reaches_join e l hcs (Nat.lt_add_right 2 hlt) hlt
    have hruns : op.Runs (l.progress env.code).status := not_not.mp hran
    rw [Line.next_join] at hlen
    obtain ⟨t, ht, hseen⟩ := hτ.redirects hrest hlen.symm (by omega) (Nat.le_add_right _ 2)
      hredirector hfile
    refine ⟨t, hexits t (by rwa [if_pos hruns]), ?_⟩
    rw [hseen, hoverwrite]
    exact (if_pos hruns).symm

/-- A skipped pipeline is seen to be skipped if and only if the loop does not walk into the file. -/
theorem Line.walked_eq_iff {code : ℕ → ℤ} (hskip : l.Skipped code) :
    l.walked code file = l.redirected code file.name overwrite ↔
      ¬l.WalksIntoFile code file.name := by
  cases l with
  | pipeline p => exact hskip.elim
  | join l op p =>
    have hredirected : (Line.join l op p).redirected code file.name overwrite =
        (l.progress code).seen := if_neg hskip
    rw [hredirected, walked, progress, if_neg hskip, WalksIntoFile]
    cases op with
    | and =>
      rw [if_neg fun h => hskip h.1]
      simp [Progress.skip, Progress.pass]
    | or =>
      have hstatus : (l.progress code).status = 0 := not_not.mp hskip
      cases hf : isOperator file.name <;> simp [Progress.skip, Progress.pass, hstatus]

/-- The loop on a line with a redirection. -/
theorem exits_redirected (env : Env) (e : ℤ) (l : Line) (overwrite : Bool) (file : Command) : ∃ t,
    Exits (evaluateStep env (l.redirectedCommands overwrite file) (l.commands.length + 2)
      l.commands.length) (start e) t ∧
    (t.seen = l.redirected env.code file.name overwrite ↔
      ¬l.WalksIntoFile env.code file.name) := by
  by_cases hskip : l.Skipped env.code
  · obtain ⟨t, ht, hseen⟩ := exits_skipped_redirected e overwrite file [] (Nat.le_refl _) hskip
    rw [List.append_nil] at ht
    refine ⟨t, ht, ?_⟩
    rw [hseen]
    exact Line.walked_eq_iff hskip
  · obtain ⟨t, ht, hseen⟩ := exits_ran_redirected e overwrite file hskip
    refine ⟨t, ht, iff_of_true hseen ?_⟩
    cases l with
    | pipeline p => exact not_false
    | join l op p =>
      rintro ⟨rfl, hstatus, -⟩
      exact hskip fun hruns => hruns hstatus

end

/-- A line that ends in `&` is left to a subshell. -/
theorem runLine_background {env : Env} {cs : List Command} {e : ℤ} {c : Command}
    (hlast : cs.getLast? = some c) (hc : c.name = Operator.background.text) (σ : Eval) :
    runLine env cs e ≠ some (.foreground σ) := by
  intro h
  cases cs with
  | nil => cases hlast
  | cons d ds =>
    rw [List.getLast?_eq_getElem?] at hlast
    simp only [runLine, hlast, if_pos hc, Option.bind_eq_bind, Option.bind_some,
      Option.pure_def] at h
    split_ifs at h
    · cases h
    · cases h
    · obtain ⟨τ, -, h⟩ := Option.bind_eq_some_iff.mp h
      cases h

/-- With a redirection, a line runs as it means if and only if the loop does not walk into the file's
name. A line whose last word is `&` is not in the foreground. -/
theorem runLine_redirected_iff (env : Env) (lastChildExitCode : ℤ) (l : Line) (overwrite : Bool)
    (file : Command) :
    (∃ σ, runLine env (l.redirectedCommands overwrite file) lastChildExitCode =
        some (.foreground σ) ∧ σ.seen = l.redirected env.code file.name overwrite) ↔
      file.name ≠ Operator.background.text ∧ ¬l.WalksIntoFile env.code file.name := by
  obtain ⟨t, ht, hiff⟩ := exits_redirected env lastChildExitCode l overwrite file
  rw [← l.length_redirectedCommands overwrite file] at ht
  have hσ := evaluate_of_exits (l.commandCount_redirected overwrite file) ht
  have hlone : ∀ c, l.redirectedCommands overwrite file = [c] →
      c.name ≠ exitName ∧ c.name ≠ cdName :=
    fun c hc => absurd hc (l.redirectedCommands_ne_singleton overwrite file c)
  have hlast := l.getLast?_redirectedCommands overwrite file
  by_cases hfile : file.name = Operator.background.text
  · refine iff_of_false ?_ fun h => h.1 hfile
    rintro ⟨τ, hτ, -⟩
    exact runLine_background hlast hfile τ hτ
  · rw [runLine_foreground hlone hlast hfile hσ, ← hiff]
    simp [hfile, seen_waitForChildren, seen_closeLastPipeEnd]

/-- `true || echo > f`. -/
def walkingLine : Line := .join (.pipeline ⟨trueCommand, []⟩) .or ⟨echoCommand, []⟩

def fileCommand : Command := ⟨[byte 'f'], []⟩

/-- The second pipeline is skipped, and the file's name is run as a command. -/
theorem file_runs : ¬∃ σ, runLine ⟨fun _ => .exited 0, .exited 0⟩
    (walkingLine.redirectedCommands true fileCommand) 0 = some (.foreground σ) ∧
      σ.seen = walkingLine.redirected (fun _ => 0) fileCommand.name true := by
  rintro ⟨σ, hσ, hseen⟩
  have hrun : (runLine ⟨fun _ => .exited 0, .exited 0⟩
    (walkingLine.redirectedCommands true fileCommand) 0).bind (fun
      | .foreground σ => some σ.seen
      | _ => none) = some [.fork 0 trueCommand.1 none, .copy 0 .stdout, .fork 4 fileCommand none,
        .copy 4 .stdout] := by decide
  rw [hσ] at hrun
  have hseen' := hseen.symm.trans (Option.some.inj hrun)
  revert hseen'
  decide

end SystemsProgramming.Shell

import SystemsProgramming.Shell.ShortCircuit

/-! The exit status of a line. The loop at the end of `main` waits for all children, the last one first.
When the last pipeline has been skipped this child is waited for a second time, and the status that
is stored for it is the one the variable was initialised with. -/

namespace SystemsProgramming.Shell

open Eval

section
variable {env : Env} {cs : List Command} {n m : ℕ}

/-! ### The children -/

/-- The children are listed from the last one forked to the first. -/
structure Lineage (σ : Eval) : Prop where
  last : σ.childrenToWaitFor.head? = σ.lastChildPid
  sorted : σ.childrenToWaitFor.Pairwise (· > ·)

/-- At the top of the loop the children belong to commands before the current one. -/
structure Ancestry (σ : Eval) : Prop extends Lineage σ where
  below : ∀ k ∈ σ.childrenToWaitFor, k < σ.commandArrayPtr

/-- A change that concerns no child. -/
theorem Ancestry.congr {σ τ : Eval} (h : Ancestry σ) (hpid : τ.lastChildPid = σ.lastChildPid)
    (hchildren : τ.childrenToWaitFor = σ.childrenToWaitFor)
    (hptr : σ.commandArrayPtr ≤ τ.commandArrayPtr) : Ancestry τ where
  last := by rw [hchildren, hpid, h.last]
  sorted := hchildren ▸ h.sorted
  below k hk := Nat.lt_of_lt_of_le (h.below k (hchildren ▸ hk)) hptr

theorem Ancestry.finish {σ τ : Eval} (h : Ancestry σ)
    (hτ : τ = σ ∨ σ.finishPipeline env = some τ) : Ancestry τ := by
  rcases hτ with rfl | hτ
  · exact h
  · rcases finishPipeline_cases hτ with ⟨-, rfl⟩ | ⟨j, pid, code, -, -, rfl⟩
    · exact h
    · exact h.congr rfl rfl (Nat.le_refl _)

theorem Ancestry.lineage {σ τ : Eval} (h : Ancestry σ)
    (hpid : τ.lastChildPid = some σ.commandArrayPtr)
    (hchildren : τ.childrenToWaitFor = σ.commandArrayPtr :: σ.childrenToWaitFor) : Lineage τ where
  last := by rw [hchildren, hpid, List.head?_cons]
  sorted := by
    rw [hchildren]
    exact List.pairwise_cons.mpr ⟨h.below, h.sorted⟩

theorem Ancestry.fork {σ : Eval} (h : Ancestry σ) (c : Command) : Ancestry (σ.fork c) where
  toLineage := h.lineage rfl rfl
  below k hk := by
    rcases List.mem_cons.mp hk with rfl | hk
    · exact Nat.lt_succ_self _
    · exact Nat.lt_succ_of_lt (h.below k hk)

/-- What a turn of the loop leaves behind. -/
def Ancestral : Ctl Eval → Prop
  | .again σ => Ancestry σ
  | .done σ => Lineage σ

theorem Ancestry.step {σ : Eval} {r : Ctl Eval} (h : Ancestry σ)
    (hr : evaluateStep env cs n m σ = some r) : Ancestral r := by
  rcases evaluateStep_cases hr with ⟨-, rfl⟩ | ⟨-, c, -, ⟨-, rfl⟩ | ⟨-, τ, o, hτ, hturn⟩⟩
  · exact h.toLineage
  · exact h.congr rfl rfl (Nat.le_succ _)
  · have hτ' : Ancestry { τ with lastOperator := o } :=
      (h.finish hτ).congr rfl rfl (Nat.le_refl _)
    rcases hturn with rfl | hturn
    · exact hτ'.congr rfl rfl (Nat.le_succ _)
    · obtain ⟨c, -, rfl | ⟨ρ, rfl, hρ⟩⟩ := forkCommand_cases hturn
      · exact hτ'.fork c
      · exact hτ'.lineage hρ.pid hρ.children

theorem ancestry_start (e : ℤ) : Ancestry (start e) := ⟨⟨rfl, .nil⟩, fun _ hk => nomatch hk⟩

theorem Ancestry.exits {σ t : Eval} (h : Ancestry σ) (ht : Exits (evaluateStep env cs n m) σ t) :
    Lineage t := by
  induction ht with
  | done hs => exact h.step hs
  | again hs _ ih => exact ih (h.step hs)

/-! ### The last wait -/

theorem waitForChildren_cons (env : Env) (pid : ℕ) (pids : List ℕ) (status : WaitStatus) (σ : Eval) :
    waitForChildren env (pid :: pids) status σ =
      waitForChildren env pids (σ.waitpid env pid status).1
        (if some pid = σ.lastChildPid then
          { (σ.waitpid env pid status).2 with
            lastChildExitCode := (σ.waitpid env pid status).1.exitCode }
        else (σ.waitpid env pid status).2) := rfl

theorem waitForChildren_others (env : Env) {pids : List ℕ} {status : WaitStatus} {σ : Eval}
    (hother : ∀ pid ∈ pids, some pid ≠ σ.lastChildPid) :
    (waitForChildren env pids status σ).lastChildExitCode = σ.lastChildExitCode := by
  induction pids generalizing status σ with
  | nil => rfl
  | cons pid pids ih =>
    rw [waitForChildren_cons, if_neg (hother pid List.mem_cons_self)]
    exact ih (σ := (σ.waitpid env pid status).2) fun k hk => hother k (List.mem_cons_of_mem pid hk)

/-- A child that has been waited for before counts as one that has exited with 0. -/
theorem Lineage.waitForChildren {σ : Eval} (h : Lineage σ) {j : ℕ} (hj : σ.lastChildPid = some j)
    (env : Env) : (waitForChildren env σ.childrenToWaitFor (.exited 0) σ).lastChildExitCode =
      if j ∈ σ.reaped then 0 else env.code j := by
  have hlast := h.last
  have hsorted := h.sorted
  cases hchildren : σ.childrenToWaitFor with
  | nil =>
    rw [hchildren, hj] at hlast
    cases hlast
  | cons pid pids =>
    rw [hchildren] at hlast hsorted
    obtain rfl : pid = j := Option.some.inj (hlast.trans hj)
    have hothers : ∀ k ∈ pids, some k ≠ some pid := fun k hk heq => by
      have hlt : k < pid := (List.pairwise_cons.mp hsorted).1 k hk
      exact Nat.ne_of_lt hlt (Option.some.inj heq)
    rw [waitForChildren_cons, if_pos hj.symm, waitForChildren_others]
    · simp only [Eval.waitpid]
      split_ifs <;> rfl
    · intro k hk
      rw [← hj] at hothers
      exact hothers k hk

end

/-- `&&` skips the last pipeline of the line. -/
def Line.SkippedByAnd (code : ℕ → ℤ) : Line → Prop
  | pipeline _ => False
  | join l op _ => op = .and ∧ (l.progress code).status ≠ 0

theorem Line.skipped_status {code : ℕ → ℤ} {l : Line} (h : l.Skipped code) :
    (l.progress code).status = 0 ↔ ¬l.SkippedByAnd code := by
  cases l with
  | pipeline p => exact h.elim
  | join l op p =>
    rw [progress, if_neg h, SkippedByAnd]
    cases op with
    | and =>
      have hne : (l.progress code).status ≠ 0 := h
      exact iff_of_false hne fun hnot => hnot ⟨rfl, hne⟩
    | or =>
      have hzero : (l.progress code).status = 0 := not_not.mp h
      exact iff_of_true hzero fun hand => hand.2 hzero

theorem Line.not_skipped {code : ℕ → ℤ} {l : Line} (h : ¬l.Skipped code) :
    ¬l.SkippedByAnd code := by
  cases l with
  | pipeline p => exact not_false
  | join l op p =>
    rintro ⟨rfl, hne⟩
    exact h hne

/-- The exit code after a line: 0 if its last pipeline is skipped, and else the status of that pipeline. -/
theorem runLine_code (env : Env) (e : ℤ) (l : Line)
    (hlone : ∀ c, l.commands = [c] → c.name ≠ exitName ∧ c.name ≠ cdName) :
    ∃ σ, runLine env l.commands e = some (.foreground σ) ∧
      (l.Skipped env.code → σ.lastChildExitCode = 0) ∧
      (¬l.Skipped env.code → σ.lastChildExitCode = (l.progress env.code).status) := by
  obtain ⟨t, ht, -, hskipped, hran⟩ := exits_line env e l [] (Nat.le_refl _)
  rw [List.append_nil] at ht
  have hlineage := (ancestry_start e).exits ht
  have hclosed : Lineage t.closeLastPipeEnd := ⟨hlineage.last, hlineage.sorted⟩
  refine ⟨_, l.runLine_of_exits hlone ht, fun hskip => ?_, fun hskip => ?_⟩
  · obtain ⟨j, hj, hpid⟩ := (hskipped hskip).waited.resolve_left (Line.next_ne_zero env.code l)
    exact (hclosed.waitForChildren hpid env).trans (if_pos hj)
  · obtain ⟨j, hpid, hj, hstatus⟩ := hran hskip
    exact ((hclosed.waitForChildren hpid env).trans (if_neg hj)).trans hstatus

theorem runLine_status (env : Env) (e : ℤ) (l : Line)
    (hlone : ∀ c, l.commands = [c] → c.name ≠ exitName ∧ c.name ≠ cdName) :
    ∃ σ, runLine env l.commands e = some (.foreground σ) ∧
      (σ.lastChildExitCode = (l.progress env.code).status ↔ ¬l.SkippedByAnd env.code) := by
  obtain ⟨σ, hσ, hskipped, hran⟩ := runLine_code env e l hlone
  refine ⟨σ, hσ, ?_⟩
  by_cases hskip : l.Skipped env.code
  · rw [hskipped hskip, ← Line.skipped_status hskip]
    exact ⟨Eq.symm, Eq.symm⟩
  · exact iff_of_true (hran hskip) (Line.not_skipped hskip)

/-! ### The end of the shell -/

/-- A line that changes no status: an empty one, or one left to a subshell. -/
def Input.Quiet (input : Input) : Prop :=
  ∀ e, runLine input.env input.commands e = some .nothing ∨
    ∃ τ, runLine input.env input.commands e = some (.background τ)

theorem mainLoop_quiet {inputs : List Input} (h : ∀ input ∈ inputs, input.Quiet) (e : ℤ) :
    mainLoop inputs e = some (.returned e) := by
  induction inputs with
  | nil => rfl
  | cons input inputs ih =>
    rw [mainLoop]
    rcases h input List.mem_cons_self e with hrun | ⟨τ, hrun⟩
    · rw [hrun]
      exact ih fun i hi => h i (List.mem_cons_of_mem input hi)
    · rw [hrun]
      exact ih fun i hi => h i (List.mem_cons_of_mem input hi)

/-- A line leaves the status of the last pipeline that ran, and the shell returns it if only empty
lines and background lines follow, if and only if `&&` does not skip its last pipeline. A lone `exit`
or `cd` runs in the shell itself. -/
theorem status_iff (env : Env) (chdir e : ℤ) (l : Line) :
    (∃ σ, runLine env l.commands e = some (.foreground σ) ∧
        σ.lastChildExitCode = (l.progress env.code).status ∧
        ∀ others, (∀ input ∈ others, Input.Quiet input) →
          mainLoop (⟨env, l.commands, chdir⟩ :: others) e =
            some (.returned (l.progress env.code).status)) ↔
      (∀ c, l.commands = [c] → c.name ≠ exitName ∧ c.name ≠ cdName) ∧
        ¬l.SkippedByAnd env.code := by
  by_cases hlone : ∀ c, l.commands = [c] → c.name ≠ exitName ∧ c.name ≠ cdName
  · obtain ⟨σ, hσ, hiff⟩ := runLine_status env e l hlone
    constructor
    · rintro ⟨τ, hτ, hcode, -⟩
      obtain rfl : σ = τ := LineResult.foreground.inj (Option.some.inj (hσ.symm.trans hτ))
      exact ⟨hlone, hiff.mp hcode⟩
    · rintro ⟨-, hskip⟩
      have hcode := hiff.mpr hskip
      refine ⟨σ, hσ, hcode, fun others hothers => ?_⟩
      rw [mainLoop, hσ]
      exact (mainLoop_quiet hothers _).trans (by rw [hcode])
  · refine iff_of_false ?_ fun h => hlone h.1
    rintro ⟨σ, hσ, -⟩
    push Not at hlone
    obtain ⟨c, hc, hname⟩ := hlone
    rw [hc] at hσ
    by_cases hexit : c.name = exitName
    · simp [runLine, hexit] at hσ
    · have hne : cdName ≠ exitName := by decide
      simp [runLine, hname hexit, hne] at hσ

def falseCommand : PlainCommand :=
  plain [byte 'f', byte 'a', byte 'l', byte 's', byte 'e'] (by decide)

/-- `false && echo`, after which the shell takes 0 for the status. -/
theorem skipped_status_lost : ¬∃ σ, runLine ⟨fun _ => .exited 1, .exited 0⟩
    (Line.join (.pipeline ⟨falseCommand, []⟩) .and ⟨echoCommand, []⟩).commands 0 =
      some (.foreground σ) ∧ σ.lastChildExitCode = 1 := by
  rintro ⟨σ, hσ, hcode⟩
  have hrun : (runLine ⟨fun _ => .exited 1, .exited 0⟩
    (Line.join (.pipeline ⟨falseCommand, []⟩) .and ⟨echoCommand, []⟩).commands 0).bind (fun
      | .foreground σ => some σ.lastChildExitCode
      | _ => none) = some 0 := by decide
  rw [hσ] at hrun
  exact absurd (hcode.symm.trans (Option.some.inj hrun)) (by decide)

end SystemsProgramming.Shell

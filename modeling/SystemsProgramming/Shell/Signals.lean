import SystemsProgramming.Shell.Status

/-! Commands killed by a signal. Both places that decode a wait status take a death for an exit with 0,
so a line is not affected by what a death stands for just when no pipeline that runs ends in one. -/

namespace SystemsProgramming.Shell

open Eval

/-! ### Where the pipelines that run end -/

/-- Every pipeline that runs ends in a command whose position satisfies `P`. -/
def Line.EndsIn (code : ℕ → ℤ) (P : ℕ → Prop) : Line → Prop
  | pipeline p => P (p.last 0)
  | join l op p => l.EndsIn code P ∧
      (op.Runs (l.progress code).status → P (p.last (l.progress code).pass.next))

/-- The command at position `i` is forked. -/
def Line.Forked (code : ℕ → ℤ) (l : Line) (i : ℕ) : Prop :=
  ∃ c stdin, Call.fork i c stdin ∈ (l.progress code).seen

theorem le_of_mem_forksAfter {i j : ℕ} {c : Command} {stdin : Option ℕ} {cs : List PlainCommand}
    (h : Call.fork j c stdin ∈ forksAfter i cs) : i < j ∧ j ≤ i + 2 * cs.length := by
  induction cs generalizing i with
  | nil => cases h
  | cons d ds ih =>
    rw [List.length_cons]
    rcases List.mem_cons.mp h with heq | h
    · cases heq
      omega
    · have := ih h
      omega

theorem Pipeline.le_of_mem_forks {p : Pipeline} {i j : ℕ} {c : Command} {stdin : Option ℕ}
    (h : Call.fork j c stdin ∈ p.forks i) : i ≤ j ∧ j ≤ p.last i := by
  rw [last]
  rcases List.mem_cons.mp h with heq | h
  · cases heq
    omega
  · have := le_of_mem_forksAfter h
    omega

section
variable {code : ℕ → ℤ} {l : Line} {op : Connective} {p : Pipeline} {i : ℕ}

theorem Line.forked_join : (join l op p).Forked code i ↔ l.Forked code i ∨
    op.Runs (l.progress code).status ∧
      ∃ c stdin, Call.fork i c stdin ∈ p.forks (l.progress code).pass.next := by
  rw [Forked, progress]
  split_ifs with hruns
  · simp only [Progress.run, List.mem_append, List.mem_singleton, reduceCtorEq, or_false, exists_or,
      hruns, true_and]
    exact Iff.rfl
  · simp only [hruns, false_and, or_false]
    exact Iff.rfl

theorem Line.Forked.lt (h : l.Forked code i) : i < l.commands.length := by
  rw [length_commands code]
  induction l with
  | pipeline p =>
    obtain ⟨c, stdin, hmem⟩ := h
    simp only [progress, Progress.run, List.mem_append, List.mem_singleton, reduceCtorEq, or_false,
      List.nil_append] at hmem
    exact Nat.lt_succ_of_le (Pipeline.le_of_mem_forks hmem).2
  | join l op p ih =>
    rw [next_join]
    rcases forked_join.mp h with h | ⟨-, c, stdin, hmem⟩
    · have hlt := ih h
      simp only [Progress.pass, Pipeline.last]
      omega
    · exact Nat.lt_succ_of_le (Pipeline.le_of_mem_forks hmem).2

/-- The commands on the left are forked or not as they are without the last pipeline. -/
theorem Line.forked_join_left (hi : i < l.commands.length) :
    (join l op p).Forked code i ↔ l.Forked code i := by
  rw [forked_join, or_iff_left]
  rintro ⟨-, c, stdin, hmem⟩
  have hle := (Pipeline.le_of_mem_forks hmem).1
  rw [length_commands code] at hi
  simp only [Progress.pass] at hle
  omega

/-- The first command of the last pipeline is forked just when the pipeline runs. -/
theorem Line.forked_join_first :
    (join l op p).Forked code (l.commands.length + 1) ↔ op.Runs (l.progress code).status := by
  rw [forked_join, or_iff_right fun h => absurd h.lt (by omega)]
  refine and_iff_left ⟨p.first.1, none, ?_⟩
  rw [length_commands code]
  exact List.mem_cons_self

/-! ### Two assignments of codes -/

variable {other : ℕ → ℤ} {P : ℕ → Prop}

theorem Line.EndsIn.progress (h : l.EndsIn code P) (hP : ∀ i, P i → code i = other i) :
    l.progress code = l.progress other := by
  induction l with
  | pipeline p =>
    simp only [Line.progress, Progress.run]
    rw [hP _ h]
  | join l op p ih =>
    have hl := ih h.1
    simp only [Line.progress]
    rw [← hl]
    split_ifs with hruns
    · simp only [Progress.run]
      rw [hP _ (h.2 hruns)]
    · rfl

theorem Line.EndsIn.congr (h : l.EndsIn code P) (hP : ∀ i, P i → code i = other i) :
    l.EndsIn other P := by
  induction l with
  | pipeline p => exact h
  | join l op p ih =>
    rw [EndsIn, ← h.1.progress hP]
    exact ⟨ih h.1, h.2⟩

theorem Line.EndsIn.skipped (h : l.EndsIn code P) (hP : ∀ i, P i → code i = other i) :
    l.Skipped code ↔ l.Skipped other := by
  cases l with
  | pipeline p => exact Iff.rfl
  | join l op p => rw [Skipped, Skipped, h.1.progress hP]

/-- The two assignments lead to different forks, or the last pipeline runs with both and its status is 0
with only one of them. -/
def Line.Diverges (code other : ℕ → ℤ) (l : Line) : Prop :=
  (∃ i, ¬(l.Forked code i ↔ l.Forked other i)) ∨
    ¬l.Skipped code ∧ ¬l.Skipped other ∧ (l.progress code).status = 0 ∧ (l.progress other).status ≠ 0

theorem Line.Diverges.join (h : l.Diverges code other) : (join l op p).Diverges code other := by
  left
  rcases h with ⟨i, hi⟩ | ⟨-, -, hzero, hne⟩
  · have hlt : i < l.commands.length := by
      by_contra hle
      exact hi ⟨fun h => absurd h.lt hle, fun h => absurd h.lt hle⟩
    exact ⟨i, by rwa [forked_join_left hlt, forked_join_left hlt]⟩
  · refine ⟨l.commands.length + 1, ?_⟩
    rw [forked_join_first, forked_join_first]
    cases op <;> simp [Connective.Runs, hzero, hne]

/-- A pipeline that runs and ends in a command outside of `P`, which has succeeded by `code` and failed
by `other`, shows: what follows it is decided the other way. -/
theorem Line.diverges (hsame : ∀ i, P i → code i = other i)
    (hflip : ∀ i, ¬P i → code i = 0 ∧ other i ≠ 0) (h : ¬l.EndsIn code P) :
    l.Diverges code other := by
  induction l with
  | pipeline p => exact .inr ⟨id, id, hflip _ h⟩
  | join l op p ih =>
    by_cases hl : l.EndsIn code P
    · have hruns : op.Runs (l.progress code).status ∧ ¬P (p.last (l.progress code).pass.next) := by
        simpa [EndsIn, hl] using h
      have hprogress := hl.progress hsame
      have hrun : ∀ c : ℕ → ℤ, l.progress c = l.progress code →
          ¬(Line.join l op p).Skipped c ∧ ((Line.join l op p).progress c).status =
            c (p.last (l.progress code).pass.next) := fun c hc => by
        rw [Skipped, Line.progress, hc, if_pos hruns.1]
        exact ⟨not_not.mpr hruns.1, rfl⟩
      obtain ⟨hzero, hne⟩ := hflip _ hruns.2
      have hcode := hrun code rfl
      have hother := hrun other hprogress.symm
      exact .inr ⟨hcode.1, hother.1, hcode.2.trans hzero, by rwa [hother.2]⟩
    · exact (ih hl).join

end

/-! ### Deaths by a signal -/

def WaitStatus.Killed (status : WaitStatus) : Prop := ∃ signal, status = signaled signal

/-- What bash takes for the status of a command: a death by a signal is a failure. -/
def WaitStatus.reported : WaitStatus → ℤ
  | exited code => code
  | signaled signal => 128 + signal

/-- No pipeline that runs, as bash runs the line, ends in a command killed by a signal. -/
def Line.Spared (status : ℕ → WaitStatus) (l : Line) : Prop :=
  l.EndsIn (fun i => (status i).reported) fun i => ¬(status i).Killed

/-- `env'` has an exit with a nonzero code for each death by a signal, and all else as `env`. -/
structure Env.ExitsInstead (env env' : Env) : Prop where
  same : ∀ i, ¬(env.status i).Killed → env'.status i = env.status i
  failed : ∀ i, (env.status i).Killed → ∃ code ≠ 0, env'.status i = .exited code
  unset : env'.unset = env.unset

def Call.Forks : Call → Bool
  | fork .. => true
  | _ => false

/-- The commands that have been executed. -/
def Eval.forks (σ : Eval) : List Call := σ.calls.filter Call.Forks

/-- The same commands are executed, and the final status is zero in both cases or in none. -/
def LineResult.Alike : LineResult → LineResult → Prop
  | foreground σ, foreground τ =>
    σ.forks = τ.forks ∧ (σ.lastChildExitCode = 0 ↔ τ.lastChildExitCode = 0)
  | nothing, nothing => True
  | exits c, exits d => c = d
  | changesDirectory c, changesDirectory d => c = d
  | background σ, background τ => σ.forks = τ.forks
  | _, _ => False

theorem Eval.forks_eq (σ : Eval) : σ.forks = σ.seen.filter Call.Forks := by
  rw [forks, seen, List.filter_filter]
  refine List.filter_congr fun c _ => ?_
  cases c <;> rfl

/-- The foreground run of a line: what it forks, and its exit code. -/
theorem runLine_forks (env : Env) (e : ℤ) (l : Line)
    (hlone : ∀ c, l.commands = [c] → c.name ≠ exitName ∧ c.name ≠ cdName) :
    ∃ σ, runLine env l.commands e = some (.foreground σ) ∧
      σ.forks = (l.progress env.code).seen.filter Call.Forks ∧
      (l.Skipped env.code → σ.lastChildExitCode = 0) ∧
      (¬l.Skipped env.code → σ.lastChildExitCode = (l.progress env.code).status) := by
  obtain ⟨σ, hσ, hseen⟩ := runLine_line env e l hlone
  obtain ⟨τ, hτ, hcode⟩ := runLine_code env e l hlone
  obtain rfl : σ = τ := LineResult.foreground.inj (Option.some.inj (hσ.symm.trans hτ))
  exact ⟨σ, hσ, by rw [σ.forks_eq, hseen], hcode⟩

theorem Line.forked_iff {code : ℕ → ℤ} {l : Line} {i : ℕ} : l.Forked code i ↔
    ∃ c stdin, Call.fork i c stdin ∈ (l.progress code).seen.filter Call.Forks := by
  simp [Forked, Call.Forks]

theorem Env.reported_eq (env : Env) {i : ℕ} (hi : ¬(env.status i).Killed) :
    (env.status i).reported = env.code i := by
  rw [Env.code]
  cases hstatus : env.status i with
  | exited code => rfl
  | signaled signal => exact absurd ⟨signal, hstatus⟩ hi

namespace Env.ExitsInstead

variable {env env' : Env} {l : Line} {e : ℤ}

theorem code_eq (h : env.ExitsInstead env') {i : ℕ} (hi : ¬(env.status i).Killed) :
    env'.code i = env.code i := by rw [Env.code, Env.code, h.same i hi]

theorem code_flip (h : env.ExitsInstead env') {i : ℕ} (hi : (env.status i).Killed) :
    env.code i = 0 ∧ env'.code i ≠ 0 := by
  obtain ⟨code, hne, hcode⟩ := h.failed i hi
  obtain ⟨signal, hsignal⟩ := hi
  rw [Env.code, Env.code, hcode, hsignal]
  exact ⟨rfl, Int.natCast_ne_zero.mpr hne⟩

/-- What a death stands for does not matter if no pipeline that runs ends in one. -/
theorem alike (h : env.ExitsInstead env') (hspared : l.Spared env.status)
    (hlone : ∀ c, l.commands = [c] → c.name ≠ exitName ∧ c.name ≠ cdName) :
    ∃ r r', runLine env l.commands e = some r ∧ runLine env' l.commands e = some r' ∧ r.Alike r' := by
  have hcode := fun i => env.reported_eq (i := i)
  have hcode' : ∀ i, ¬(env.status i).Killed → (env.status i).reported = env'.code i :=
    fun i hi => (hcode i hi).trans (h.code_eq hi).symm
  have hprogress : l.progress env.code = l.progress env'.code :=
    (hspared.progress hcode).symm.trans (hspared.progress hcode')
  have hskipped : l.Skipped env.code ↔ l.Skipped env'.code :=
    (hspared.skipped hcode).symm.trans (hspared.skipped hcode')
  obtain ⟨σ, hσ, hforks, hskip, hran⟩ := runLine_forks env e l hlone
  obtain ⟨τ, hτ, hforks', hskip', hran'⟩ := runLine_forks env' e l hlone
  refine ⟨_, _, hσ, hτ, by rw [hforks, hforks', hprogress], ?_⟩
  by_cases hs : l.Skipped env.code
  · rw [hskip hs, hskip' (hskipped.mp hs)]
  · rw [hran hs, hran' (mt hskipped.mpr hs), hprogress]

/-- The deaths show if some pipeline that runs ends in one. -/
theorem not_alike (h : env.ExitsInstead env') (hspared : ¬l.Spared env.status)
    (hlone : ∀ c, l.commands = [c] → c.name ≠ exitName ∧ c.name ≠ cdName) {r r' : LineResult}
    (hr : runLine env l.commands e = some r) (hr' : runLine env' l.commands e = some r') :
    ¬r.Alike r' := by
  have hends : ¬l.EndsIn env.code fun i => ¬(env.status i).Killed := fun hends =>
    hspared (hends.congr fun i hi => (env.reported_eq hi).symm)
  obtain ⟨σ, hσ, hforks, -, hran⟩ := runLine_forks env e l hlone
  obtain ⟨τ, hτ, hforks', -, hran'⟩ := runLine_forks env' e l hlone
  obtain rfl := Option.some.inj (hr.symm.trans hσ)
  obtain rfl := Option.some.inj (hr'.symm.trans hτ)
  rintro ⟨hsame, hcode⟩
  rcases l.diverges (fun i hi => (h.code_eq hi).symm) (fun i hi => h.code_flip (not_not.mp hi)) hends
    with ⟨i, hi⟩ | ⟨hs, hs', hzero, hne⟩
  · rw [Line.forked_iff, Line.forked_iff, ← hforks, ← hforks', hsame] at hi
    exact hi Iff.rfl
  · rw [hran hs, hran' hs'] at hcode
    exact hne (hcode.mp hzero)

end Env.ExitsInstead

/-- Each death by a signal as an exit with 1. -/
def Env.unkilled (env : Env) : Env where
  status i := match env.status i with
    | .exited code => .exited code
    | .signaled _ => .exited 1
  unset := env.unset

theorem Env.exitsInstead_unkilled (env : Env) : env.ExitsInstead env.unkilled where
  same i hi := by
    cases hstatus : env.status i with
    | exited code => simp only [unkilled, hstatus]
    | signaled signal => exact absurd ⟨signal, hstatus⟩ hi
  failed i hi := by
    obtain ⟨signal, hsignal⟩ := hi
    exact ⟨1, Nat.one_ne_zero, by simp only [unkilled, hsignal]⟩
  unset := rfl

/-- A lone `exit` or `cd` runs in the shell itself. -/
theorem runLine_lone {c : Command} (h : c.name = exitName ∨ c.name = cdName) :
    ∃ r : LineResult, r.Alike r ∧ ∀ env e, runLine env [c] e = some r := by
  have hne : cdName ≠ exitName := by decide
  by_cases hexit : c.name = exitName
  · exact ⟨.exits c, rfl, fun env e => by simp [runLine, hexit]⟩
  · have hcd := h.resolve_left hexit
    exact ⟨.changesDirectory c, rfl, fun env e => by simp [runLine, hcd, hne]⟩

/-- A death by a signal counts as a failure, whatever code it is given, if and only if no pipeline
that runs ends in a command killed by one. A lone `exit` or `cd` has no child. -/
theorem signals_iff (env : Env) (e : ℤ) (l : Line) :
    (∀ env', env.ExitsInstead env' → ∃ r r', runLine env l.commands e = some r ∧
        runLine env' l.commands e = some r' ∧ r.Alike r') ↔
      (∃ c, l.commands = [c] ∧ (c.name = exitName ∨ c.name = cdName)) ∨ l.Spared env.status := by
  by_cases hlone : ∃ c, l.commands = [c] ∧ (c.name = exitName ∨ c.name = cdName)
  · refine iff_of_true (fun env' _ => ?_) (.inl hlone)
    obtain ⟨c, hc, hname⟩ := hlone
    obtain ⟨r, hr, hrun⟩ := runLine_lone hname
    rw [hc]
    exact ⟨r, r, hrun env e, hrun env' e, hr⟩
  · rw [or_iff_right hlone]
    have hplain : ∀ c, l.commands = [c] → c.name ≠ exitName ∧ c.name ≠ cdName := by
      simpa only [not_exists, not_and, not_or] using hlone
    constructor
    · intro h
      by_contra hspared
      obtain ⟨r, r', hr, hr', halike⟩ := h _ env.exitsInstead_unkilled
      exact env.exitsInstead_unkilled.not_alike hspared hplain hr hr' halike
    · exact fun hspared env' h => h.alike hspared hplain

/-- The first command is killed, and all others succeed. -/
def killedFirst : Env := ⟨fun i => if i = 0 then .signaled 9 else .exited 0, .exited 0⟩

/-- `cat && echo` with `cat` killed: `echo` runs, and does not if `cat` exits with 1. -/
theorem killed_counts_as_success : killedFirst.ExitsInstead killedFirst.unkilled ∧ ¬∃ r r',
    runLine killedFirst
      (Line.join (.pipeline ⟨catCommand, []⟩) .and ⟨echoCommand, []⟩).commands 0 = some r ∧
    runLine killedFirst.unkilled
      (Line.join (.pipeline ⟨catCommand, []⟩) .and ⟨echoCommand, []⟩).commands 0 = some r' ∧
    r.Alike r' := by
  refine ⟨killedFirst.exitsInstead_unkilled, ?_⟩
  rintro ⟨r, r', hr, hr', halike⟩
  have hspared : ¬(Line.join (.pipeline ⟨catCommand, []⟩) .and ⟨echoCommand, []⟩).Spared
      killedFirst.status := fun h => h.1 ⟨9, rfl⟩
  exact killedFirst.exitsInstead_unkilled.not_alike hspared
    (fun c hc => by simp [Line.commands, Pipeline.commands] at hc) hr hr' halike

end SystemsProgramming.Shell

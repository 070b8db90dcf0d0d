import SystemsProgramming.Shell.Rendering
import SystemsProgramming.Shell.Stdin

/-! Whole sessions of the shell: it reads the bytes of a script, parses each line, and runs it with its
children, which share its stdin. Lines in the background are left out. What a script of lines in the
foreground makes of the destinations is what its lines make of them, one after the other, if the children
leave the rest of the script alone. -/

namespace SystemsProgramming.Shell

open Transition

/-! ### Sessions -/

/-- What the shell is run in. -/
structure Setting where
  /-- `execvp` finds the program of the command. -/
  finds : Command → Prop
  /-- The stdin of the shell is a file, and not a pipe or a terminal. -/
  seekable : Prop
  /-- The file of that name is the stdin of the shell. -/
  isStdin : CString → Prop

/-- The call may change what the shell reads next, other than by a read of a child. A child that comes to
`exit`, for the command of that name or after an `execvp` that has failed, sets the file that it shares with
the shell back to where the buffer of stdio has been read to. -/
def Setting.Disturbs (setting : Setting) : Call → Prop
  | .fork _ c none => setting.seekable ∧ (c.name = exitName ∨ ¬setting.finds c)
  | .fopen name _ => setting.isStdin name
  | _ => False

section
variable {σ : Type} (setting : Setting) (P : Programs σ)

/-- What becomes of a line that does not end the shell: of what has been written, of `last_child_exit_code`,
and of what is left of the stdin of the shell. The statuses that the shell goes by are those of its children.
What a child finds in the stdin of the shell depends on how far ahead the shell has read, and what the shell
finds there after a child has read from it, or after a call that may change it, is not said. -/
inductive Handles (cs : List Command) (written : Dest → List Byte) (e : ℤ) (stream : List Byte) :
    (Dest → List Byte) → ℤ → List Byte → Prop
  | nothing {env : Env} : runLine env cs e = some .nothing → Handles cs written e stream written e stream
  | changesDirectory {env : Env} {c : Command} {chdir : ℤ} :
      runLine env cs e = some (.changesDirectory c) → Handles cs written e stream written chdir stream
  | foreground {env : Env} {τ : Eval} {input : ℕ → List Byte} {as : List Actor} {s : System σ}
      {stream' : List Byte} : runLine env cs e = some (.foreground τ) →
      Run (System.Step P) (System.initial τ.calls input written) as s → s.calls = [] →
      Truthful env τ.calls s.collected →
      (Run (restrict (System.Step P) (System.Spares P)) (System.initial τ.calls input written) as s →
        (∀ c ∈ τ.calls, ¬setting.Disturbs c) → stream' = stream) →
      Handles cs written e stream s.written τ.lastChildExitCode stream'

end

/-! ### Scripts -/

/-- A line of a script. -/
inductive Item
  | line (l : Line)
  | redirected (l : Line) (overwrite : Bool) (file : Command)

namespace Item

def commands : Item → List Command
  | line l => l.commands
  | redirected l overwrite file => l.redirectedCommands overwrite file

/-- The commands that have the stdin of the shell. -/
def firsts : Item → List Command
  | line l => l.firsts
  | redirected l _ _ => l.firsts

/-- The file that is opened. -/
def file : Item → Option CString
  | line _ => none
  | redirected _ _ file => some file.name

section
variable (f : Meaning)

/-- The line is run in the foreground, as it means. -/
def Foreground : Item → Prop
  | line l => ∀ c, l.commands = [c] → c.name ≠ exitName ∧ c.name ≠ cdName
  | redirected l _ file => file.name ≠ Operator.background.text ∧ ¬l.Walks f (fun _ => []) file.name

/-- What a line makes of the destinations when nobody reads from the stdin of the shell. -/
def writes (written : Dest → List Byte) : Item → Dest → List Byte
  | line l, .stdout => written .stdout ++ (l.shown f fun _ => []).output
  | line _, .file name => written (.file name)
  | redirected l _ _, .stdout => written .stdout ++ (l.sent f fun _ => []).1
  | redirected l overwrite file, .file name =>
    if name = file.name then sendTo overwrite (written (.file name)) (l.sent f fun _ => []).2
    else written (.file name)

end

/-- A line of a script that is written and run in the foreground, and whose children leave the stdin of the
shell alone. -/
structure Runnable {σ : Type} (setting : Setting) (P : Programs σ) (f : Meaning) (item : Item) : Prop where
  foreground : item.Foreground f
  writable : Writable item.commands
  reads : ∀ c ∈ item.firsts, ReadsNothing P.act (P.start c)
  ends : ∀ c ∈ item.firsts, ∀ i, ¬setting.Disturbs (.fork i c none)
  opens : ∀ name ∈ item.file, ¬setting.isStdin name

end Item

section
variable {σ : Type} {setting : Setting} {P : Programs σ} {f : Meaning} {item : Item}
  {written written' : Dest → List Byte} {e e' : ℤ} {stream left : List Byte}

/-! ### One line -/

theorem Item.Foreground.starts (h : item.Foreground f) (env : Env) (e : ℤ) :
    ∃ τ, runLine env item.commands e = some (.foreground τ) := by
  cases item with
  | line l =>
    obtain ⟨τ, hτ, -⟩ := foreground_seen env e h
    exact ⟨τ, hτ⟩
  | redirected l overwrite file =>
    obtain ⟨u, hu, -⟩ := exits_redirected env e l overwrite file
    obtain ⟨τ, hτ, -⟩ := runLine_redirected h.1 hu
    exact ⟨τ, hτ⟩

/-- A run of a line, whatever there was to be read, and what the shell has done for it. -/
theorem Item.Runnable.sound (h : item.Runnable setting P f) (hf : Computes P f) {env : Env} {τ : Eval}
    {input : ℕ → List Byte} {as : List Actor} {s : System σ}
    (hτ : runLine env item.commands e = some (.foreground τ))
    (hrun : Run (System.Step P) (System.initial τ.calls input written) as s) (hcalls : s.calls = [])
    (htrue : Truthful env τ.calls s.collected) :
    s.written = item.writes f written ∧
      (∀ l, item = .line l → τ.lastChildExitCode = l.exitCode f fun _ => []) ∧
      ∀ c ∈ τ.seen, c.Within item.firsts item.file := by
  cases item with
  | line l =>
    obtain ⟨hstdout, hfile, hcode⟩ := line_sound hf h.foreground hτ hrun hcalls htrue
    have hseen := seen_of_foreground h.foreground hτ
    refine ⟨funext fun dest => ?_, ?_, fun c hc => Line.within (hseen ▸ hc)⟩
    · cases dest with
      | stdout => rw [hstdout, Line.shown_eq hf h.reads input, writes]
      | file name => exact hfile name
    · rintro l' heq
      obtain rfl := Item.line.inj heq
      rw [hcode, Line.exitCode_congr hf h.reads input]
  | redirected l overwrite file =>
    obtain ⟨hfile, hwalks⟩ := h.foreground
    rw [← Line.walks_congr hf h.reads input] at hwalks
    obtain ⟨hstdout, hsent, hother⟩ := redirected_sound hf hfile hwalks hτ hrun hcalls htrue
    have hseen := seen_of_redirected hfile (mt (walks_of_run hf hfile hτ hrun hcalls htrue) hwalks) hτ
    refine ⟨funext fun dest => ?_, fun l' heq => Item.noConfusion heq,
      fun c hc => Line.within_redirected (hseen ▸ hc)⟩
    have hcongr := Line.sent_congr hf h.reads input fun _ => []
    rw [hcongr] at hstdout hsent
    cases dest with
    | stdout => exact hstdout
    | file name =>
      rw [Item.writes]
      split_ifs with hname
      · rw [hname]
        exact hsent
      · exact hother name hname

/-- The calls of such a line leave the stdin of the shell as it is. -/
theorem Item.Runnable.not_disturbs (h : item.Runnable setting P f) {c : Call}
    (hc : c.Within item.firsts item.file) : ¬setting.Disturbs c := by
  cases c with
  | fork i c stdin =>
    cases stdin with
    | none => exact h.ends c (hc rfl) i
    | some j => exact not_false
  | fopen name overwrite => exact h.opens name hc.symm
  | _ => exact not_false

theorem seen_of_disturbs {c : Call} (hc : setting.Disturbs c) : c.Seen = true := by
  cases c with
  | fork => rfl
  | fopen => rfl
  | _ => exact hc.elim

/-- What becomes of such a line. -/
theorem Item.Runnable.handles (h : item.Runnable setting P f) (hf : Computes P f)
    (hline : Handles setting P item.commands written e stream written' e' left) :
    written' = item.writes f written ∧ (∀ l, item = .line l → e' = l.exitCode f fun _ => []) ∧
      left = stream := by
  cases hline with
  | @nothing env hnothing =>
    obtain ⟨τ, hτ⟩ := h.foreground.starts env e
    cases hnothing.symm.trans hτ
  | @changesDirectory env c chdir hcd =>
    obtain ⟨τ, hτ⟩ := h.foreground.starts env e
    cases hcd.symm.trans hτ
  | foreground hτ hrun hcalls htrue hleft =>
    obtain ⟨hwritten, hcode, hwithin⟩ := h.sound hf hτ hrun hcalls htrue
    refine ⟨hwritten, hcode, hleft (run_spares hτ (fun i c hc => ?_) hrun) fun c hc hdisturbs => ?_⟩
    · exact h.reads c (hwithin _ (fork_mem_seen.mpr hc) rfl)
    · exact h.not_disturbs (hwithin c (List.mem_filter.mpr ⟨hc, seen_of_disturbs hdisturbs⟩)) hdisturbs

/-- Every line that is to be run can be. -/
theorem Item.Foreground.exists_run (h : item.Foreground f) (hf : Computes P f)
    (written : Dest → List Byte) (e : ℤ) (stream : List Byte) :
    ∃ written' e', Handles setting P item.commands written e stream written' e' stream := by
  obtain ⟨env, τ, n, hτ, hruns⟩ : ∃ env τ n, runLine env item.commands e = some (.foreground τ) ∧
      ∀ as s, Run (System.Step P) (System.initial τ.calls (fun _ => []) written) as s → as.length ≤ n ∧
        (s.calls ≠ [] → ∃ a s', s.Step P a s') ∧ (s.calls = [] → Truthful env τ.calls s.collected) := by
    cases item with
    | line l =>
      obtain ⟨τ, hτ, hruns⟩ := line_runs hf h e (.exited 0) fun _ => []
      exact ⟨_, τ, _, hτ, hruns written⟩
    | redirected l overwrite file =>
      obtain ⟨τ, hτ, hruns⟩ := redirected_runs hf h.1 h.2 overwrite e (.exited 0)
      exact ⟨_, τ, _, hτ, hruns written⟩
  obtain ⟨as, s, hrun, hcalls⟩ := exists_run_final_of_bounded (fun s : System σ => s.calls = [])
    (fun as s hrun => (hruns as s hrun).1) fun as s hrun => (hruns as s hrun).2.1
  exact ⟨_, _, .foreground hτ hrun hcalls ((hruns as s hrun).2.2 hcalls) fun _ _ => rfl⟩

/-! ### All lines -/

end

section
variable {σ : Type} {setting : Setting} {P : Programs σ} {f : Meaning} {script : List Item}
  {written written' : Dest → List Byte} {e : ℤ} {outcome : Outcome}

end

end SystemsProgramming.Shell

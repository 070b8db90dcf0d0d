import SystemsProgramming.Shell.Descriptors
import SystemsProgramming.Foundation.Custody

/-! The descriptors that the shell itself has open while it works on a line. At the top of the loop it
holds the read end of the last pipe and nothing else of the line; every way out of the loop gives back
what it has taken. This holds of every array of commands, with operators in whatever places. -/

namespace SystemsProgramming.Shell

open Eval Transition Custody

def Dest.object : Dest → Object
  | stdout => .stdout
  | file name => .file name

/-- What the calls do to the table of the shell. A child that is forked has a table of its own. -/
def descriptorUsage : Usage Call Object where
  opens
    | .pipe i => [.pipe (.readEnd i), .pipe (.writeEnd i)]
    | .fopen name _ => [.file name]
    | _ => []
  uses
    | .copy i dest => [.pipe (.readEnd i), dest.object]
    | _ => []
  closes
    | .close fd => [.pipe fd]
    | .fclose name => [.file name]
    | .fcloseStdin => [.stdin]
    | _ => []

/-- The table of the shell before a line. Only the numbers of its standard streams are fixed. -/
def tableBefore (fds : Finset ℕ) : Table Object ℕ where
  opened := fds
  number
    | .stdin => some 0
    | .stdout => some 1
    | .stderr => some 2
    | _ => none

/-- The calls that the shell itself makes for a line; a subshell makes its own. -/
def LineResult.calls : LineResult → List Call
  | foreground σ => σ.calls
  | _ => []

/-- Holding some objects, with stdout to write to, the calls can be made, and leave these. -/
def Balances (held : List Object) (cs : List Call) (held' : List Object) : Prop :=
  cs.foldlM (descriptorUsage.track [.stdout]) held = some held'

/-- The descriptors in `last_pipe_end`. -/
def Eval.held (σ : Eval) : List Object := σ.lastPipeEnd.toList.map fun j => .pipe (.readEnd j)

theorem Balances.append {held₁ held₂ held₃ : List Object} {cs ds : List Call}
    (h : Balances held₁ cs held₂) (k : Balances held₂ ds held₃) :
    Balances held₁ (cs ++ ds) held₃ := by
  rw [Balances, List.foldlM_append, h]
  exact k

/-! ### The calls of a turn -/

/-- What has been read of a pipe has been dealt with. -/
inductive Drained (i : ℕ) : List Call → Prop
  | stdout : Drained i [.copy i .stdout, .close (.readEnd i)]
  | file (name : CString) (overwrite : Bool) :
    Drained i [.fopen name overwrite, .copy i (.file name), .fclose name, .close (.readEnd i)]

section
variable {env : Env} {cs : List Command} {n m : ℕ} {σ τ : Eval}

theorem forkCommand_done (h : forkCommand cs n m σ = some (.done τ)) :
    τ.lastPipeEnd = σ.lastPipeEnd ∧ ∃ c rest, Drained σ.commandArrayPtr rest ∧
      τ.calls = σ.calls ++ σ.forkCalls c ++ rest := by
  simp only [forkCommand, Option.bind_eq_bind, Option.pure_def] at h
  obtain ⟨c, -, h⟩ := Option.bind_eq_some_iff.mp h
  split_ifs at h
  · obtain rfl := Ctl.done.inj (Option.some.inj h)
    exact ⟨rfl, c, _, .stdout, rfl⟩
  · obtain ⟨redirector, -, h⟩ := Option.bind_eq_some_iff.mp h
    obtain ⟨file, -, h⟩ := Option.bind_eq_some_iff.mp h
    obtain rfl := Ctl.done.inj (Option.some.inj h)
    exact ⟨rfl, c, _, .file file.name _, rfl⟩
  · cases Option.some.inj h

/-- The read end is not that of the pipe of the next command. -/
theorem balances_forkCalls (hσ : ∀ j, σ.lastPipeEnd = some j → j ≠ σ.commandArrayPtr)
    (c : Command) : Balances σ.held (σ.forkCalls c)
      (.pipe (.readEnd σ.commandArrayPtr) :: σ.held) := by
  cases hend : σ.lastPipeEnd with
  | none =>
    simp [Balances, forkCalls, held, hend, Usage.track, descriptorUsage]
  | some j =>
    have hj := hσ j hend
    simp [Balances, forkCalls, held, hend, Usage.track, descriptorUsage, Ne.symm hj]

theorem balances_close (held : List Object) (i : ℕ) :
    Balances (.pipe (.readEnd i) :: held) [.close (.readEnd i)] held := by
  simp [Balances, Usage.track, descriptorUsage]

theorem balances_drained {i : ℕ} {rest : List Call} (h : Drained i rest) {held : List Object}
    (hfile : ∀ name, .file name ∉ held) : Balances (.pipe (.readEnd i) :: held) rest held := by
  cases h with
  | stdout => simp [Balances, Usage.track, descriptorUsage, Dest.object]
  | file name overwrite => simp [Balances, Usage.track, descriptorUsage, Dest.object, hfile]

theorem balances_closeLastPipeEnd (i : ℕ) (hσ : ∀ j, σ.lastPipeEnd = some j → j ≠ i) :
    Balances (.pipe (.readEnd i) :: σ.held)
      (σ.lastPipeEnd.toList.map fun j => .close (.readEnd j)) [.pipe (.readEnd i)] := by
  cases hend : σ.lastPipeEnd with
  | none => simp [Balances, held, hend]
  | some j =>
    have hj := hσ j hend
    simp [Balances, held, hend, Usage.track, descriptorUsage, hj.symm]

/-! ### The loop -/

/-- Everything that has been opened is a pipe of one of the first commands. -/
def PipesBelow (k : ℕ) (cs : List Call) : Prop :=
  ∀ x ∈ cs.flatMap descriptorUsage.opens, ∃ i < k, x = .pipe (.readEnd i) ∨ x = .pipe (.writeEnd i)

/-- What is held at the top of the loop: the last pipe, if there is one. -/
structure Holding (σ : Eval) : Prop where
  balances : Balances [] σ.calls σ.held
  below : ∀ j, σ.lastPipeEnd = some j → j < σ.commandArrayPtr
  child : ∀ j, σ.lastPipeEnd = some j → ∃ pid, σ.lastChildPid = some pid
  pipes : PipesBelow σ.commandArrayPtr σ.calls
  nodup : (σ.calls.flatMap descriptorUsage.opens).Nodup

/-- What is held when the loop has been left: a pipe that nobody has read. -/
structure Leaving (σ : Eval) : Prop where
  balances : Balances [] σ.calls σ.held
  nodup : (σ.calls.flatMap descriptorUsage.opens).Nodup

namespace Holding

theorem ne (h : Holding σ) (j : ℕ) (hj : σ.lastPipeEnd = some j) : j ≠ σ.commandArrayPtr :=
  (h.below j hj).ne

theorem start (e : ℤ) : Holding (start e) where
  balances := rfl
  below _ hj := nomatch hj
  child _ hj := nomatch hj
  pipes _ hx := nomatch hx
  nodup := List.nodup_nil

/-- A change that concerns no descriptor. -/
theorem congr (h : Holding σ) (hcalls : τ.calls = σ.calls) (hend : τ.lastPipeEnd = σ.lastPipeEnd)
    (hpid : τ.lastChildPid = σ.lastChildPid) (hptr : σ.commandArrayPtr ≤ τ.commandArrayPtr) :
    Holding τ where
  balances := by
    rw [hcalls, held, hend]
    exact h.balances
  below j hj := Nat.lt_of_lt_of_le (h.below j (hend ▸ hj)) hptr
  child j hj := hpid ▸ h.child j (hend ▸ hj)
  pipes x hx := by
    rw [hcalls] at hx
    obtain ⟨i, hi, hx⟩ := h.pipes x hx
    exact ⟨i, Nat.lt_of_lt_of_le hi hptr, hx⟩
  nodup := hcalls ▸ h.nodup

theorem finish (h : Holding σ) (hτ : τ = σ ∨ σ.finishPipeline env = some τ) : Holding τ := by
  rcases hτ with rfl | hτ
  · exact h
  rcases finishPipeline_cases hτ with ⟨-, rfl⟩ | ⟨j, pid, code, hend, -, rfl⟩
  · exact h
  · have hbalances := h.balances
    rw [held, hend] at hbalances
    have hopens : (σ.calls ++ [Call.copy j .stdout, .close (.readEnd j), .waitpid pid]).flatMap
        descriptorUsage.opens = σ.calls.flatMap descriptorUsage.opens := by
      rw [List.flatMap_append]
      exact List.append_nil _
    refine ⟨hbalances.append ?_, (fun _ hj => nomatch hj), (fun _ hj => nomatch hj), ?_, ?_⟩
    · simp [Balances, held, Usage.track, descriptorUsage, Dest.object]
    · rw [PipesBelow, hopens]
      exact h.pipes
    · rw [hopens]
      exact h.nodup

/-- A new pipe has names of its own. -/
theorem nodup_forkCalls (h : Holding σ) (c : Command) :
    ((σ.calls ++ σ.forkCalls c).flatMap descriptorUsage.opens).Nodup := by
  rw [List.flatMap_append]
  refine h.nodup.append (by simp [forkCalls, descriptorUsage]) fun x hx hnew => ?_
  obtain ⟨i, hi, hx⟩ := h.pipes x hx
  have hnew' : x = .pipe (.readEnd σ.commandArrayPtr) ∨ x = .pipe (.writeEnd σ.commandArrayPtr) := by
    simpa [forkCalls, descriptorUsage] using hnew
  have hi' : i ≠ σ.commandArrayPtr := hi.ne
  rcases hx with rfl | rfl <;> simp [hi'] at hnew'

theorem opens_fork (c : Command) : (σ.fork c).calls.flatMap descriptorUsage.opens =
    (σ.calls ++ σ.forkCalls c).flatMap descriptorUsage.opens := by
  have hcalls : (σ.fork c).calls = (σ.calls ++ σ.forkCalls c) ++
    σ.lastPipeEnd.toList.map fun j => .close (.readEnd j) := rfl
  have hcloses : (σ.lastPipeEnd.toList.map fun j => Call.close (.readEnd j)).flatMap
      descriptorUsage.opens = [] := by cases σ.lastPipeEnd <;> rfl
  rw [hcalls, List.flatMap_append, hcloses, List.append_nil]

theorem fork (h : Holding σ) (c : Command) : Holding (σ.fork c) where
  balances := (h.balances.append (balances_forkCalls h.ne c)).append
    (balances_closeLastPipeEnd _ h.ne)
  below j hj := by
    obtain rfl := Option.some.inj hj
    exact Nat.lt_succ_self _
  child j hj := ⟨_, rfl⟩
  pipes x hx := by
    rw [opens_fork, List.flatMap_append] at hx
    rcases List.mem_append.mp hx with hx | hx
    · obtain ⟨i, hi, hx⟩ := h.pipes x hx
      exact ⟨i, Nat.lt_succ_of_lt hi, hx⟩
    · exact ⟨σ.commandArrayPtr, Nat.lt_succ_self _, by simpa [forkCalls, descriptorUsage] using hx⟩
  nodup := by
    rw [opens_fork]
    exact h.nodup_forkCalls c

theorem leave (h : Holding σ) (hend : τ.lastPipeEnd = σ.lastPipeEnd) {c : Command} {rest : List Call}
    (hrest : Drained σ.commandArrayPtr rest) (hcalls : τ.calls = σ.calls ++ σ.forkCalls c ++ rest) :
    Leaving τ where
  balances := by
    rw [hcalls, held, hend]
    exact (h.balances.append (balances_forkCalls h.ne c)).append
      (balances_drained hrest (by simp [held]))
  nodup := by
    rw [hcalls, List.flatMap_append]
    refine (h.nodup_forkCalls c).append (by cases hrest <;> simp [descriptorUsage]) fun x hx hnew => ?_
    have hfile : ∃ name, x = .file name := by
      cases hrest with
      | stdout => simp [descriptorUsage] at hnew
      | file name overwrite => exact ⟨name, by simpa [descriptorUsage] using hnew⟩
    obtain ⟨name, rfl⟩ := hfile
    rw [← opens_fork] at hx
    obtain ⟨i, -, hx | hx⟩ := (h.fork c).pipes _ hx
    · cases hx
    · cases hx

end Holding

/-- What a turn of the loop leaves behind. -/
def Held : Ctl Eval → Prop
  | .again σ => Holding σ
  | .done σ => Leaving σ

theorem Holding.step {r : Ctl Eval} (h : Holding σ) (hr : evaluateStep env cs n m σ = some r) :
    Held r := by
  rcases evaluateStep_cases hr with ⟨-, rfl⟩ | ⟨-, c, -, ⟨-, rfl⟩ | ⟨-, τ, o, hτ, hturn⟩⟩
  · exact ⟨h.balances, h.nodup⟩
  · exact h.congr rfl rfl rfl (Nat.le_succ _)
  · have hτ' : Holding { τ with lastOperator := o } :=
      (h.finish hτ).congr rfl rfl rfl (Nat.le_refl _)
    rcases hturn with rfl | hturn
    · exact hτ'.congr rfl rfl rfl (Nat.le_succ _)
    · obtain ⟨c, -, rfl | ⟨ρ, rfl, -⟩⟩ := forkCommand_cases hturn
      · exact hτ'.fork c
      · obtain ⟨hend, c, rest, hrest, hcalls⟩ := forkCommand_done hturn
        exact hτ'.leave hend hrest hcalls

/-- No turn of the loop gets stuck. -/
theorem Holding.progress (h : Holding σ) (env : Env) (m : ℕ) (hptr : σ.commandArrayPtr ≤ n)
    (hn : n ≤ cs.length) : ∃ r, evaluateStep env cs n m σ = some r := by
  have hfork : ∀ τ : Eval, τ.commandArrayPtr < n → ∃ r, forkCommand cs n m τ = some r := by
    intro τ hτ
    simp only [forkCommand, Option.bind_eq_bind, Option.pure_def,
      List.getElem?_eq_getElem (show τ.commandArrayPtr < cs.length by omega),
      List.getElem?_eq_getElem (show n - 2 < cs.length by omega),
      List.getElem?_eq_getElem (show n - 1 < cs.length by omega), Option.bind_some]
    split_ifs
    all_goals exact ⟨_, rfl⟩
  by_cases hend : σ.commandArrayPtr = n
  · exact ⟨_, evaluateStep_end hend⟩
  have hlt : σ.commandArrayPtr < n := by omega
  have hc := List.getElem?_eq_getElem (show σ.commandArrayPtr < cs.length by omega)
  cases hop : isOperator (cs[σ.commandArrayPtr]).name with
  | true => exact ⟨_, evaluateStep_operator hend hc hop⟩
  | false =>
    rw [evaluateStep_command hend hc hop, evaluateCommand]
    split
    · exact hfork σ hlt
    · split_ifs
      · obtain ⟨τ, hτ⟩ : ∃ τ, σ.finishPipeline env = some τ := by
          cases hpipe : σ.lastPipeEnd with
          | none => exact ⟨σ, by rw [finishPipeline, hpipe]⟩
          | some j =>
            obtain ⟨pid, hpid⟩ := h.child j hpipe
            simp only [finishPipeline, hpipe, call, hpid, Option.bind_eq_bind, Option.bind_some,
              Option.pure_def]
            exact ⟨_, rfl⟩
        have hτlt : τ.commandArrayPtr < n := by rwa [finishPipeline_ptr (.inr hτ)]
        simp only [hτ, Option.bind_eq_bind, Option.bind_some, Option.pure_def]
        split_ifs
        · exact ⟨_, rfl⟩
        · exact hfork _ hτlt
      · exact ⟨_, rfl⟩
      · exact hfork σ hlt

/-- The loop ends. -/
theorem Holding.exits (h : Holding σ) (env : Env) (m : ℕ) (hptr : σ.commandArrayPtr ≤ n)
    (hn : n ≤ cs.length) : ∃ t, Exits (evaluateStep env cs n m) σ t ∧ Leaving t := by
  generalize hk : n - σ.commandArrayPtr = k
  induction k generalizing σ with
  | zero =>
    exact ⟨σ, .done (evaluateStep_end (by omega)), h.balances, h.nodup⟩
  | succ k ih =>
    obtain ⟨r, hr⟩ := h.progress env m hptr hn
    cases r with
    | again u =>
      have hu := (evaluateStep_again hr).1
      obtain ⟨t, ht, hleaving⟩ := ih (h.step hr : Holding u) (by omega) (by omega)
      exact ⟨t, .again hr ht, hleaving⟩
    | done u => exact ⟨u, .done hr, h.step hr⟩

end

/-! ### A line -/

/-- The calls of a line give back everything that they take. -/
structure Clean (cs : List Call) : Prop where
  balances : Balances [] cs []
  nodup : (cs.flatMap descriptorUsage.opens).Nodup

theorem Leaving.clean {σ : Eval} (h : Leaving σ) : Clean σ.closeLastPipeEnd.calls := by
  cases hend : σ.lastPipeEnd with
  | none =>
    have hcalls : σ.closeLastPipeEnd.calls = σ.calls := by simp [closeLastPipeEnd, call, hend]
    have hbalances := h.balances
    rw [held, hend] at hbalances
    rw [hcalls]
    exact ⟨hbalances, h.nodup⟩
  | some j =>
    have hcalls : σ.closeLastPipeEnd.calls = σ.calls ++ [.close (.readEnd j)] := by
      simp [closeLastPipeEnd, call, hend]
    have hbalances := h.balances
    rw [held, hend] at hbalances
    rw [hcalls]
    refine ⟨hbalances.append (balances_close [] j), ?_⟩
    rw [List.flatMap_append]
    exact (List.append_nil (σ.calls.flatMap descriptorUsage.opens)).symm ▸ h.nodup

/-- Waiting for children takes nothing. -/
theorem Clean.waitForChildren {σ : Eval} (h : Clean σ.calls) (env : Env) (pids : List ℕ)
    (status : WaitStatus) : Clean (waitForChildren env pids status σ).calls := by
  induction pids generalizing status σ with
  | nil => exact h
  | cons pid pids ih =>
    have hwait : Clean (σ.calls ++ [.waitpid pid]) := by
      refine ⟨h.balances.append rfl, ?_⟩
      rw [List.flatMap_append]
      exact (List.append_nil (σ.calls.flatMap descriptorUsage.opens)).symm ▸ h.nodup
    rw [waitForChildren_cons]
    apply ih
    split_ifs
    · exact hwait
    · exact hwait

theorem evaluate_clean (env : Env) {cs : List Command} {n : ℕ} (hn : n ≤ cs.length) (e : ℤ) :
    ∃ σ, evaluate env cs n e = some σ ∧ Clean σ.calls := by
  obtain ⟨m, hm⟩ : ∃ m, commandCountBeforeRedirection cs = some m := by
    rw [commandCountBeforeRedirection]
    split_ifs
    · exact ⟨_, rfl⟩
    · simp only [List.getElem?_eq_getElem (show cs.length - 2 < cs.length by omega),
        Option.bind_eq_bind, Option.bind_some, Option.pure_def]
      split_ifs
      · exact ⟨_, rfl⟩
      · exact ⟨_, rfl⟩
  obtain ⟨t, ht, hleaving⟩ := (Holding.start e).exits env m (Nat.zero_le n) hn
  exact ⟨_, evaluate_of_exits hm ht, hleaving.clean⟩

theorem runLine_clean (env : Env) (commands : List Command) (e : ℤ) :
    ∃ r, runLine env commands e = some r ∧ Clean r.calls := by
  have hnone : Clean [] := ⟨rfl, List.nodup_nil⟩
  cases commands with
  | nil => exact ⟨.nothing, rfl, hnone⟩
  | cons firstCommand otherCommands =>
    simp only [runLine, Option.bind_eq_bind, Option.pure_def, List.getElem?_eq_getElem
      (show (firstCommand :: otherCommands).length - 1 < (firstCommand :: otherCommands).length by
        simp), Option.bind_some]
    split_ifs
    · exact ⟨_, rfl, hnone⟩
    · exact ⟨_, rfl, hnone⟩
    · obtain ⟨σ, hσ, -⟩ := evaluate_clean env (Nat.sub_le
        (firstCommand :: otherCommands).length 1) e
      rw [hσ]
      exact ⟨_, rfl, hnone⟩
    · obtain ⟨σ, hσ, hclean⟩ := evaluate_clean env
        (Nat.le_refl (firstCommand :: otherCommands).length) e
      rw [hσ]
      exact ⟨_, rfl, hclean.waitForChildren env _ _⟩

/-- Whatever the commands of a line are and however its children end, the shell gets through the line.
Whichever free numbers it is given, afterwards the same descriptors are open as before, each thing
that was opened has been closed once, and nothing was read, written or closed that was not open (if
the shell's stdout was open before). -/
theorem runLine_descriptors (env : Env) (commands : List Command) (e : ℤ) :
    ∃ r, runLine env commands e = some r ∧
      (r.calls.flatMap descriptorUsage.opens).Nodup ∧
      (r.calls.flatMap descriptorUsage.closes).Perm (r.calls.flatMap descriptorUsage.opens) ∧
      ∀ fds, (∃ t, Run descriptorUsage.Step (tableBefore fds) r.calls t) ∧
        (∀ t, Run descriptorUsage.Step (tableBefore fds) r.calls t → t.opened = fds) ∧
        (1 ∈ fds → ∀ pre c post t, r.calls = pre ++ c :: post →
          Run descriptorUsage.Step (tableBefore fds) pre t → descriptorUsage.Valid t c) := by
  obtain ⟨r, hr, hclean, hnodup⟩ := runLine_clean env commands e
  have hbalances : r.calls.foldlM (descriptorUsage.track [.stdout]) [] = some [] := hclean
  refine ⟨r, hr, hnodup, ?_, fun fds => ⟨Usage.exists_run _ _ _, fun t hrun => ?_,
    fun hstdout pre c post t hcalls hrun => ?_⟩⟩
  · simpa using Usage.perm_run hbalances
  · exact (Usage.holds_run (.start _ [.stdout]) hbalances hrun).opened_eq
  · rw [hcalls] at hbalances
    refine Usage.valid_run (.start _ [.stdout]) (fun x hx => ?_) hbalances hrun
    obtain rfl := List.mem_singleton.mp hx
    exact ⟨1, hstdout, rfl⟩

end SystemsProgramming.Shell

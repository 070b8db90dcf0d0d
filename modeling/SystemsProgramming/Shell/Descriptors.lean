import SystemsProgramming.Shell.Status
import SystemsProgramming.Foundation.FreeSlot

/-! The numbers of the file descriptors behind the calls of a line. A call that opens something gets the
lowest free number, and a child rearranges its copy of the table by number before it executes its
command. In the foreground the children read what the calls say; once stdin has been closed, the
pipes take its number and no child reads from a pipe. -/

namespace SystemsProgramming.Shell

/-- What a descriptor refers to. -/
inductive Object
  | stdin
  | stdout
  | stderr
  | pipe (fd : Fd)
  | file (name : CString)
  deriving DecidableEq

/-- The objects of a process by their descriptors. -/
abbrev FdTable := List (Option Object)

def standardTable : FdTable := [some .stdin, some .stdout, some .stderr]

/-- What a process has for its stdin. -/
def stdinOf (t : FdTable) : Option Object := t[0]?.join

/-- The number under which an object has been opened. -/
def number (x : Object) (t : FdTable) : Option ℕ := t.findIdx? fun y => y = some x

def closeNumber : Option ℕ → FdTable → FdTable
  | none, t => t
  | some n, t => t.set n none

def dup2 : Option ℕ → ℕ → FdTable → FdTable
  | none, _, t => t
  | some n, m, t => t.set m t[n]?.join

/-- The child takes the last pipe for its stdin. -/
def takeStdin (lastPipeEnd : Option ℕ) (t : FdTable) : FdTable :=
  match lastPipeEnd with
  | none => t
  | some j =>
    let n := number (.pipe (.readEnd j)) t
    closeNumber n (dup2 n 0 t)

/-- The table of the child for the command at `i`, with the numbers that its parent knows. -/
def childTable (i : ℕ) (lastPipeEnd : Option ℕ) (t : FdTable) : FdTable :=
  let readNumber := number (.pipe (.readEnd i)) t
  let writeNumber := number (.pipe (.writeEnd i)) t
  closeNumber readNumber (closeNumber writeNumber (dup2 writeNumber 1 (takeStdin lastPipeEnd t)))

/-- The pipe that a child reads from, if it does not have the stdin of its parent. -/
def childStdin (i : ℕ) (lastPipeEnd : Option ℕ) (t : FdTable) : Option ℕ :=
  match stdinOf (childTable i lastPipeEnd t) with
  | some (.pipe (.readEnd j)) => some j
  | _ => none

namespace Call

/-- What a call does to the table of the shell. -/
def act (t : FdTable) : Call → FdTable
  | pipe i => place (place t (.pipe (.readEnd i))) (.pipe (.writeEnd i))
  | fork _ _ _ => t
  | copy _ _ => t
  | close fd => closeNumber (number (.pipe fd) t) t
  | fopen name _ => place t (.file name)
  | fclose name => closeNumber (number (.file name) t) t
  | waitpid _ => t
  | fcloseStdin => closeNumber (some 0) t

/-- The call with the stdin that a forked child finds. -/
def actual (t : FdTable) : Call → Call
  | fork i command stdin => fork i command (childStdin i stdin t)
  | c => c

end Call

/-- The calls with the stdins that the children find. -/
def observe (t : FdTable) : List Call → List Call
  | [] => []
  | c :: cs => c.actual t :: observe (c.act t) cs

/-- What an observer of a line sees who looks at the children themselves. -/
def Eval.observed (σ : Eval) : List Call := (observe standardTable σ.calls).filter Call.Seen

/-! ### Tables -/

section
variable {t : FdTable} {x : Object} {n : ℕ}

theorem number_eq (h : number x t = some n) : t[n]? = some (some x) := by
  obtain ⟨hlt, hn, -⟩ := List.findIdx?_eq_some_iff_getElem.mp h
  rw [List.getElem?_eq_getElem hlt]
  simpa using hn

theorem number_of_mem (h : some x ∈ t) : ∃ n, number x t = some n := by
  cases hn : number x t with
  | some n => exact ⟨n, rfl⟩
  | none => exact absurd (List.findIdx?_eq_none_iff.mp hn _ h) (by simp)

theorem number_ne_zero (h : stdinOf t ≠ some x) : number x t ≠ some 0 := fun hn => by
  rw [stdinOf, number_eq hn] at h
  exact h rfl

theorem stdinOf_closeNumber {o : Option ℕ} (h : o ≠ some 0) :
    stdinOf (closeNumber o t) = stdinOf t := by
  cases o with
  | none => rfl
  | some n => rw [closeNumber, stdinOf, List.getElem?_set_ne fun hn => h (congrArg some hn), stdinOf]

theorem stdinOf_close_zero : stdinOf (closeNumber (some 0) t) = none := by
  cases t with
  | nil => rfl
  | cons x t => rfl

/-- What is closed is not opened again. -/
theorem stdinOf_closeNumber_none (o : Option ℕ) (h : stdinOf t = none) :
    stdinOf (closeNumber o t) = none := by
  by_cases ho : o = some 0
  · rw [ho, stdinOf_close_zero]
  · rw [stdinOf_closeNumber ho, h]

theorem stdinOf_dup2_one (o : Option ℕ) : stdinOf (dup2 o 1 t) = stdinOf t := by
  cases o with
  | none => rfl
  | some n => rw [dup2, stdinOf, List.getElem?_set_ne (Nat.succ_ne_zero 0), stdinOf]

theorem stdinOf_dup2_zero (h : stdinOf t ≠ none) (hn : number x t = some n) :
    stdinOf (dup2 (some n) 0 t) = some x := by
  cases t with
  | nil => exact absurd rfl h
  | cons y t =>
    rw [dup2, number_eq hn]
    rfl

theorem stdinOf_place (h : stdinOf t ≠ none) (y : Object) : stdinOf (place t y) = stdinOf t := by
  cases hx : t[0]?.join with
  | none => exact absurd hx h
  | some x =>
    have hx' := Option.join_eq_some_iff.mp hx
    rw [stdinOf, stdinOf, getElem?_place_of_some hx' y, hx']

end

theorem act_close (t : FdTable) (fd : Fd) :
    Call.act t (.close fd) = closeNumber (number (.pipe fd) t) t := rfl

/-! ### The loop -/

def tableAfter (t : FdTable) (cs : List Call) : FdTable := cs.foldl Call.act t

theorem tableAfter_append (t : FdTable) (cs ds : List Call) :
    tableAfter t (cs ++ ds) = tableAfter (tableAfter t cs) ds := List.foldl_append

theorem observe_append (t : FdTable) (cs ds : List Call) :
    observe t (cs ++ ds) = observe t cs ++ observe (tableAfter t cs) ds := by
  induction cs generalizing t with
  | nil => rfl
  | cons c cs ih =>
    rw [List.cons_append, observe, observe, ih, List.cons_append]
    rfl

/-- What the table is like at the top of the loop, by the pipe that is open there, and what the
children then find instead of what the calls say. -/
structure Discipline (I : FdTable → Option ℕ → Prop) (f : Call → Call) : Prop where
  fork : ∀ {t o}, I t o → ∀ i c, (Call.fork i c o).actual (Call.act t (.pipe i)) = f (.fork i c o)
  next : ∀ {t o}, I t o → ∀ i, o ≠ some i → I (tableAfter t ([.pipe i, .close (.writeEnd i)] ++
    o.toList.map fun j => .close (.readEnd j))) (some i)
  finish : ∀ {t j}, I t (some j) → I (Call.act t (.close (.readEnd j))) none
  other : ∀ {c : Call}, (∀ i d o, c ≠ .fork i d o) → f c = c

namespace Discipline

variable {I : FdTable → Option ℕ → Prop} {f : Call → Call} {env : Env} {cs : List Command}
  {n m : ℕ} {t₀ : FdTable}

/-- Calls without a fork are what they say. -/
theorem observe_others (h : Discipline I f) (t : FdTable) {calls : List Call}
    (hcalls : ∀ i d o, Call.fork i d o ∉ calls) : observe t calls = calls.map f := by
  induction calls generalizing t with
  | nil => rfl
  | cons c calls ih =>
    have hc : ∀ i d o, c ≠ .fork i d o := by
      rintro i d o rfl
      exact hcalls i d o List.mem_cons_self
    have hactual : c.actual t = c := by
      cases c with
      | fork i d o => exact absurd rfl (hc i d o)
      | _ => rfl
    rw [observe, hactual, List.map_cons, h.other hc,
      ih _ fun i d o hmem => hcalls i d o (List.mem_cons_of_mem c hmem)]

/-- The state at the top of the loop. -/
structure Kept (I : FdTable → Option ℕ → Prop) (f : Call → Call) (t₀ : FdTable) (σ : Eval) :
    Prop where
  table : I (tableAfter t₀ σ.calls) σ.lastPipeEnd
  below : ∀ j, σ.lastPipeEnd = some j → j < σ.commandArrayPtr
  observed : observe t₀ σ.calls = σ.calls.map f

theorem observe_forkCalls (h : Discipline I f) {σ : Eval} (hσ : Kept I f t₀ σ) (c : Command) :
    observe t₀ (σ.calls ++ σ.forkCalls c) = (σ.calls ++ σ.forkCalls c).map f := by
  rw [observe_append, hσ.observed, List.map_append]
  congr 1
  have hfork := h.fork hσ.table σ.commandArrayPtr c
  have hpipe : f (.pipe σ.commandArrayPtr) = .pipe σ.commandArrayPtr := h.other (by simp)
  have hclose : f (.close (.writeEnd σ.commandArrayPtr)) = .close (.writeEnd σ.commandArrayPtr) :=
    h.other (by simp)
  simp only [Eval.forkCalls, List.map_cons, List.map_nil, observe, hfork, hpipe, hclose]
  rfl

theorem step_fork (h : Discipline I f) {σ : Eval} (hσ : Kept I f t₀ σ) (c : Command) :
    Kept I f t₀ (σ.fork c) where
  table := by
    have hcalls : (σ.fork c).calls = σ.calls ++ (σ.forkCalls c ++
      σ.lastPipeEnd.toList.map fun j => .close (.readEnd j)) := List.append_assoc ..
    rw [hcalls, tableAfter_append]
    exact h.next hσ.table σ.commandArrayPtr fun hend => Nat.lt_irrefl _ (hσ.below _ hend)
  below j hj := by
    obtain rfl := Option.some.inj hj
    exact Nat.lt_succ_self _
  observed := by
    have hcalls : (σ.fork c).calls = (σ.calls ++ σ.forkCalls c) ++
      σ.lastPipeEnd.toList.map fun j => .close (.readEnd j) := rfl
    rw [hcalls, observe_append, h.observe_forkCalls hσ,
      h.observe_others _ (by simp), ← List.map_append]

theorem finished (h : Discipline I f) {σ τ : Eval} (hσ : Kept I f t₀ σ)
    (hτ : τ = σ ∨ σ.finishPipeline env = some τ) : Kept I f t₀ τ := by
  rcases hτ with rfl | hτ
  · exact hσ
  rcases finishPipeline_cases hτ with ⟨-, rfl⟩ | ⟨j, pid, code, hend, -, rfl⟩
  · exact hσ
  · have htable := hσ.table
    rw [hend] at htable
    refine ⟨?_, (fun _ hk => nomatch hk), ?_⟩
    · show I (tableAfter t₀ (σ.calls ++ _)) none
      rw [tableAfter_append]
      exact h.finish htable
    · show observe t₀ (σ.calls ++ _) = (σ.calls ++ _).map f
      rw [observe_append, hσ.observed, h.observe_others _ (by simp), List.map_append]

/-- What a turn of the loop leaves behind. -/
def Left (I : FdTable → Option ℕ → Prop) (f : Call → Call) (t₀ : FdTable) : Ctl Eval → Prop
  | .again σ => Kept I f t₀ σ
  | .done σ => observe t₀ σ.calls = σ.calls.map f

theorem step (h : Discipline I f) {σ : Eval} {r : Ctl Eval} (hσ : Kept I f t₀ σ)
    (hr : evaluateStep env cs n m σ = some r) : Left I f t₀ r := by
  rcases evaluateStep_cases hr with ⟨-, rfl⟩ | ⟨-, c, -, ⟨-, rfl⟩ | ⟨-, τ, o, hτ, hturn⟩⟩
  · exact hσ.observed
  · exact ⟨hσ.table, fun j hj => Nat.lt_succ_of_lt (hσ.below j hj), hσ.observed⟩
  · have hfinished := h.finished hσ hτ
    have hτ' : Kept I f t₀ { τ with lastOperator := o } :=
      ⟨hfinished.table, hfinished.below, hfinished.observed⟩
    rcases hturn with rfl | hturn
    · exact ⟨hτ'.table, fun j hj => Nat.lt_succ_of_lt (hτ'.below j hj), hτ'.observed⟩
    · obtain ⟨c, -, rfl | ⟨ρ, rfl, hρ⟩⟩ := forkCommand_cases hturn
      · exact h.step_fork hτ' c
      · obtain ⟨rest, hcalls, hrest, -⟩ := hρ.calls
        show observe t₀ ρ.calls = ρ.calls.map f
        rw [hcalls, observe_append, h.observe_forkCalls hτ', h.observe_others _ hrest,
          ← List.map_append]

theorem exits (h : Discipline I f) {σ t : Eval} (hσ : Kept I f t₀ σ)
    (ht : Exits (evaluateStep env cs n m) σ t) : observe t₀ t.calls = t.calls.map f := by
  induction ht with
  | done hs => exact h.step hσ hs
  | again hs _ ih => exact ih (h.step hσ hs)

end Discipline

/-! ### In the foreground -/

/-- The shell has its stdin, and the pipe to read from is open. -/
structure Hears (t : FdTable) (o : Option ℕ) : Prop where
  stdin : stdinOf t = some .stdin
  pipeEnd : ∀ j, o = some j → some (.pipe (.readEnd j)) ∈ t

/-- The ends of a new pipe, in a table whose first entry is taken. -/
structure Piped (i : ℕ) (t t' : FdTable) : Prop where
  stdin : stdinOf t' = stdinOf t
  readEnd : some (.pipe (.readEnd i)) ∈ t'
  kept : ∀ x, some x ∈ t → some x ∈ t'

theorem piped {t : FdTable} (h : stdinOf t ≠ none) (i : ℕ) : Piped i t (Call.act t (.pipe i)) := by
  have hplace : ∀ {t : FdTable} {x y : Object}, some x ∈ t → some x ∈ place t y := by
    intro t x y hx
    obtain ⟨k, hk⟩ := List.mem_iff_getElem?.mp hx
    exact List.mem_of_getElem? (getElem?_place_of_some hk y)
  have hfirst : stdinOf (place t (.pipe (.readEnd i))) = stdinOf t := stdinOf_place h _
  constructor
  · exact (stdinOf_place (hfirst ▸ h) _).trans hfirst
  · refine hplace (List.mem_of_getElem? (i := freeSlot t) ?_)
    rw [getElem?_place, if_pos rfl]
  · exact fun x hx => hplace (hplace hx)

theorem mem_close {t : FdTable} {x y : Object} (hx : some x ∈ t) (hxy : x ≠ y) :
    some x ∈ closeNumber (number y t) t := by
  cases hn : number y t with
  | none => exact hx
  | some n =>
    obtain ⟨k, hk⟩ := List.mem_iff_getElem?.mp hx
    have hkn : n ≠ k := by
      rintro rfl
      exact hxy (Option.some.inj (Option.some.inj (hk.symm.trans (number_eq hn))))
    refine List.mem_of_getElem? (i := k) ?_
    rw [closeNumber, List.getElem?_set_ne hkn, hk]

/-- No pipe has the number of the shell's stdin. -/
theorem number_ne_stdin {t : FdTable} (h : stdinOf t = some .stdin) (fd : Fd) :
    number (.pipe fd) t ≠ some 0 := number_ne_zero (by simp [h])

theorem childStdin_hears {t : FdTable} {o : Option ℕ} (h : Hears t o) (i : ℕ) :
    childStdin i o t = o := by
  have hread := number_ne_stdin h.stdin (.readEnd i)
  have hwrite := number_ne_stdin h.stdin (.writeEnd i)
  rw [childStdin]
  cases o with
  | none =>
    rw [childTable, stdinOf_closeNumber hread, stdinOf_closeNumber hwrite, stdinOf_dup2_one,
      takeStdin, h.stdin]
  | some j =>
    obtain ⟨n, hn⟩ := number_of_mem (h.pipeEnd j rfl)
    have hj := number_ne_stdin h.stdin (.readEnd j)
    have hdup := stdinOf_dup2_zero (t := t) (by simp [h.stdin]) hn
    rw [childTable, stdinOf_closeNumber hread, stdinOf_closeNumber hwrite, stdinOf_dup2_one,
      takeStdin, stdinOf_closeNumber hj, hn, hdup]

theorem discipline_hears : Discipline Hears id where
  fork {t o} h i c := by
    have hstdin : stdinOf t ≠ none := by simp [h.stdin]
    have hpiped := piped hstdin i
    have hears : Hears (Call.act t (.pipe i)) o :=
      ⟨hpiped.stdin.trans h.stdin, fun j hj => hpiped.kept _ (h.pipeEnd j hj)⟩
    rw [Call.actual, childStdin_hears hears]
    rfl
  next {t o} h i hi := by
    have hstdin : stdinOf t ≠ none := by simp [h.stdin]
    have hpiped := piped hstdin i
    have hown := hpiped.stdin.trans h.stdin
    generalize hw : Call.act (Call.act t (.pipe i)) (.close (.writeEnd i)) = u
    have hu : stdinOf u = some .stdin := by
      rw [← hw, act_close, stdinOf_closeNumber (number_ne_stdin hown _), hown]
    have hmem : some (.pipe (.readEnd i)) ∈ u := by
      rw [← hw]
      exact mem_close hpiped.readEnd (by simp)
    cases o with
    | none =>
      show Hears (Call.act (Call.act t (.pipe i)) (.close (.writeEnd i))) (some i)
      rw [hw]
      exact ⟨hu, fun j hj => Option.some.inj hj ▸ hmem⟩
    | some j =>
      show Hears (Call.act (Call.act (Call.act t (.pipe i)) (.close (.writeEnd i)))
        (.close (.readEnd j))) (some i)
      rw [hw]
      refine ⟨?_, fun k hk => ?_⟩
      · rw [act_close, stdinOf_closeNumber (number_ne_stdin hu _), hu]
      · obtain rfl := Option.some.inj hk
        have hij : i ≠ j := fun hij => hi (congrArg some hij.symm)
        exact mem_close hmem (by simpa using hij)
  finish {t j} h := by
    refine ⟨?_, fun k hk => nomatch hk⟩
    rw [act_close, stdinOf_closeNumber (number_ne_stdin h.stdin _), h.stdin]
  other _ := rfl

/-! ### In a subshell -/

/-- The stdin of the shell is closed, or a pipe that is to be read has taken its number. -/
def Deaf (t : FdTable) (o : Option ℕ) : Prop :=
  stdinOf t = none ∨ ∃ j, o = some j ∧ stdinOf t = some (.pipe (.readEnd j))

/-- The call with a child that reads from no pipe. -/
def Call.deafen : Call → Call
  | .fork i command _ => .fork i command none
  | c => c

theorem stdinOf_place_free {t : FdTable} (h : stdinOf t = none) (x : Object) :
    stdinOf (place t x) = some x := by
  have hzero : freeSlot t = 0 := by
    cases t with
    | nil => rfl
    | cons y t =>
      obtain rfl : y = none := h
      rfl
  rw [stdinOf, getElem?_place, if_pos hzero.symm]
  rfl

/-- The read end of a new pipe takes the number of a closed stdin. -/
theorem stdinOf_pipe_free {t : FdTable} (h : stdinOf t = none) (i : ℕ) :
    stdinOf (Call.act t (.pipe i)) = some (.pipe (.readEnd i)) := by
  have hread := stdinOf_place_free h (.pipe (.readEnd i))
  rw [Call.act, stdinOf_place (by simp [hread]), hread]

theorem number_zero {t : FdTable} {x : Object} (h : stdinOf t = some x) : number x t = some 0 := by
  cases t with
  | nil => cases h
  | cons y t =>
    obtain rfl : y = some x := h
    simp [number, List.findIdx?_cons]

theorem childStdin_none {t : FdTable} {o : Option ℕ} {i : ℕ}
    (h : stdinOf (childTable i o t) = none) : childStdin i o t = none := by rw [childStdin, h]

theorem discipline_deaf : Discipline Deaf Call.deafen where
  fork {t o} h i c := by
    rw [Call.actual, Call.deafen, childStdin_none]
    rcases h with h | ⟨j, rfl, h⟩
    · -- the child closes the read end of its own pipe
      have hread := number_zero (stdinOf_pipe_free h i)
      simp only [childTable, hread, stdinOf_close_zero]
    · -- the child closes the pipe that it has just taken for its stdin
      have hpipe : stdinOf (Call.act t (.pipe i)) = some (.pipe (.readEnd j)) :=
        (piped (by simp [h]) i).stdin.trans h
      apply stdinOf_closeNumber_none
      apply stdinOf_closeNumber_none
      rw [stdinOf_dup2_one, takeStdin, number_zero hpipe, stdinOf_close_zero]
  next {t o} h i hi := by
    have hclose : ∀ {u : FdTable} {j : ℕ} {fd : Fd}, stdinOf u = some (.pipe (.readEnd j)) →
        fd ≠ .readEnd j → stdinOf (Call.act u (.close fd)) = some (.pipe (.readEnd j)) := by
      intro u j fd hu hfd
      rw [act_close, stdinOf_closeNumber (number_ne_zero _), hu]
      rw [hu]
      simpa using hfd.symm
    rcases h with h | ⟨j, rfl, h⟩
    · have hne : Fd.writeEnd i ≠ .readEnd i := by simp
      have hwrite := hclose (stdinOf_pipe_free h i) hne
      cases o with
      | none => exact .inr ⟨i, rfl, hwrite⟩
      | some j =>
        have hij : j ≠ i := fun hij => hi (congrArg some hij)
        exact .inr ⟨i, rfl, hclose hwrite (by simpa using hij)⟩
    · have hpipe : stdinOf (Call.act t (.pipe i)) = some (.pipe (.readEnd j)) :=
        (piped (by simp [h]) i).stdin.trans h
      have hne : Fd.writeEnd i ≠ .readEnd j := by simp
      have hwrite := hclose hpipe hne
      left
      show stdinOf (Call.act (Call.act (Call.act t (.pipe i)) (.close (.writeEnd i)))
        (.close (.readEnd j))) = none
      rw [act_close, number_zero hwrite, stdinOf_close_zero]
  finish {t j} h := by
    left
    rcases h with h | ⟨k, hk, h⟩
    · exact stdinOf_closeNumber_none _ h
    · obtain rfl := Option.some.inj hk
      rw [act_close, number_zero h, stdinOf_close_zero]
  other {c} hc := by
    cases c with
    | fork i d o => exact absurd rfl (hc i d o)
    | _ => rfl

end SystemsProgramming.Shell

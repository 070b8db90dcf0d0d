import SystemsProgramming.Shell.Meaning

/-! The stdin of the shell, which the children inherit that begin a pipeline. If the programs of these
children read nothing, no step of a line takes anything from it, and what the line means does not depend on
what could be read there. -/

namespace SystemsProgramming.Shell

open Transition

/-! ### Steps -/

section
variable {σ : Type} (P : Programs σ)

/-- The step reads nothing from the stdin of the shell. -/
def System.Spares (s : System σ) : Actor → Prop
  | .shell => True
  | .child i => ∀ table p k, s.processes i = .running table p → P.act p = .read k →
      table.object 0 ≠ some .stdin

/-- The process reads nothing from the stdin of the shell, whenever it makes its steps. -/
def Process.Spares : Process σ → Prop
  | forked command stdin _ => stdin = none → ReadsNothing P.act (P.start command)
  | running table p => table.object 0 = some .stdin → ReadsNothing P.act p
  | _ => True

/-- Nor do those that are yet to be forked. -/
structure Spared (s : System σ) : Prop where
  calls : ∀ i c, .fork i c none ∈ s.calls → ReadsNothing P.act (P.start c)
  process : ∀ i, (s.processes i).Spares P

end

section
variable {σ : Type} {P : Programs σ} {s s' : System σ} {h : Household} {i : ℕ} {p : Process σ}

namespace Spared

theorem spares (hs : Spared P s) (a : Actor) : s.Spares P a := by
  cases a with
  | shell => trivial
  | child i =>
    intro table p k hprocess hact hstdin
    have hp := hs.process i
    rw [hprocess] at hp
    exact (hp hstdin).not_read hact

theorem setProcess (hs : Spared P s) (hcalls : s'.calls ⊆ s.calls)
    (hprocesses : s'.processes = Function.update s.processes i p) (hp : p.Spares P) : Spared P s' := by
  refine ⟨fun k c hmem => hs.calls k c (hcalls hmem), fun k => ?_⟩
  rw [hprocesses, Function.update_apply]
  split_ifs
  · exact hp
  · exact hs.process k

theorem congr (hs : Spared P s) (hcalls : s'.calls ⊆ s.calls) (hprocesses : s'.processes = s.processes) :
    Spared P s' :=
  ⟨fun k c hmem => hs.calls k c (hcalls hmem), fun k => hprocesses ▸ hs.process k⟩

/-- A process that reads has something else for its stdin. -/
theorem running (hs : Spared P s) {table : FdTable} {q : σ} {k : Option Byte → σ}
    (hprocess : s.processes i = .running table q) (hact : P.act q = .read k) (q' : σ) :
    (Process.running table q').Spares P := fun hstdin =>
  absurd hstdin (hs.spares (.child i) table q k hprocess hact)

/-- A child that arranges its table finds the stdin of the shell there only if it is to have it. -/
theorem child (hs : Spared P s) (h' : Consistent s h) (hm : Moves P h i s s') : Spared P s' := by
  cases hm with
  | @arrange command stdin table hprocess =>
    have hp := hs.process i
    have hconnected := h'.process i
    rw [hprocess] at hp hconnected
    obtain ⟨-, -, htable⟩ := hconnected
    refine hs.setProcess (List.Subset.refl _) rfl fun hstdin => hp ?_
    rw [htable.object_childTable] at hstdin
    cases stdin with
    | none => rfl
    | some j => simp [childObjects] at hstdin
  | exit => exact hs.setProcess (List.Subset.refl _) rfl trivial
  | input hprocess hact => exact hs.setProcess (List.Subset.refl _) rfl (hs.running hprocess hact _)
  | inputEnd hprocess hact => exact hs.setProcess (List.Subset.refl _) rfl (hs.running hprocess hact _)
  | read hprocess hact => exact hs.setProcess (List.Subset.refl _) rfl (hs.running hprocess hact _)
  | eof hprocess hact => exact hs.setProcess (List.Subset.refl _) rfl (hs.running hprocess hact _)
  | write hprocess hact =>
    have hp := hs.process i
    rw [hprocess] at hp
    exact hs.setProcess (List.Subset.refl _) rfl fun hstdin => (hp hstdin).of_write hact
  | killed => exact hs.setProcess (List.Subset.refl _) rfl trivial

theorem shell (hs : Spared P s) (hm : ShellMoves s s') : Spared P s' := by
  have htail : ∀ {c calls}, s.calls = c :: calls → calls ⊆ s.calls := fun hcalls =>
    hcalls ▸ List.subset_cons_self _ _
  cases hm with
  | pipe hcalls => exact hs.congr (htail hcalls) rfl
  | @fork i command stdin calls hcalls =>
    refine hs.setProcess (htail hcalls) rfl ?_
    rintro rfl
    exact hs.calls i command (hcalls ▸ List.mem_cons_self)
  | byte => exact hs.congr (List.Subset.refl _) rfl
  | copied hcalls => exact hs.congr (htail hcalls) rfl
  | close hcalls => exact hs.congr (htail hcalls) rfl
  | fopen hcalls => split_ifs <;> exact hs.congr (htail hcalls) rfl
  | fclose hcalls => exact hs.congr (htail hcalls) rfl
  | waitpid hcalls => exact hs.setProcess (htail hcalls) rfl trivial
  | noChild hcalls => exact hs.congr (htail hcalls) rfl
  | fcloseStdin hcalls => exact hs.congr (htail hcalls) rfl

theorem step (hs : Spared P s) (h' : Consistent s h) {a : Actor} (hstep : s.Step P a s') : Spared P s' := by
  cases a with
  | shell => exact hs.shell (shellStep_iff.mp hstep)
  | child i => exact hs.child h' (h'.childStep_iff.mp hstep)

end Spared

/-- If the children that have the stdin of the shell do not read, no step of a line in the foreground takes
anything from it, in whichever order the steps are made. -/
theorem run_spares {env : Env} {commands : List Command} {e : ℤ} {τ : Eval} {input : ℕ → List Byte}
    {written : Dest → List Byte} {as : List Actor} (h : runLine env commands e = some (.foreground τ))
    (hnothing : ∀ i c, .fork i c none ∈ τ.calls → ReadsNothing P.act (P.start c))
    (hrun : Run (System.Step P) (System.initial τ.calls input written) as s) :
    Run (restrict (System.Step P) (System.Spares P)) (System.initial τ.calls input written) as s :=
  hrun.restrict (I := fun s => (∃ h₁, Consistent s h₁) ∧ Spared P s)
    ⟨⟨_, consistent_initial (runLine_keeps h) input written⟩, hnothing, fun _ => trivial⟩
    (fun _ _ _ ⟨⟨_, ht⟩, hs⟩ hstep => ⟨ht.step hstep, hs.step ht hstep⟩)
    fun _ a _ ht _ => ht.2.spares a

end

/-! ### Who has the stdin of the shell -/

/-- The commands that begin the pipelines of a line. -/
def Line.firsts : Line → List Command
  | pipeline p => [p.first.1]
  | join l _ p => p.first.1 :: l.firsts

/-- Of the children only those for some commands have the stdin of the shell, and no file is opened but the
one with the name, if any. -/
def Call.Within (firsts : List Command) (file : Option CString) : Call → Prop
  | fork _ c stdin => stdin = none → c ∈ firsts
  | fopen name _ => some name = file
  | _ => True

section
variable {firsts firsts' : List Command} {file file' : Option CString} {c : Call}

theorem Call.Within.mono (h : c.Within firsts none) (hfirsts : firsts ⊆ firsts') : c.Within firsts' file := by
  cases c with
  | fork i c stdin => exact fun hstdin => hfirsts (h hstdin)
  | fopen name overwrite => cases h
  | _ => trivial

theorem within_forksAfter {ds : List PlainCommand} {i : ℕ} (hc : c ∈ forksAfter i ds) :
    c.Within firsts file := by
  induction ds generalizing i with
  | nil => cases hc
  | cons d ds ih =>
    rcases List.mem_cons.mp hc with rfl | hc
    · exact fun hstdin => by cases hstdin
    · exact ih hc

theorem Pipeline.within {p : Pipeline} {i : ℕ} (hp : p.first.1 ∈ firsts) (hc : c ∈ p.forks i) :
    c.Within firsts file := by
  rcases List.mem_cons.mp hc with rfl | hc
  · exact fun _ => hp
  · exact within_forksAfter hc

theorem Line.within {code : ℕ → ℤ} {l : Line} (hc : c ∈ (l.progress code).seen) :
    c.Within l.firsts none := by
  induction l with
  | pipeline p =>
    rcases List.mem_append.mp hc with hc | hc
    · exact Pipeline.within List.mem_cons_self hc
    · obtain rfl := List.mem_singleton.mp hc
      trivial
  | join l op p ih =>
    have hl : c ∈ (l.progress code).seen → c.Within (join l op p).firsts none := fun hc =>
      (ih hc).mono (List.subset_cons_self _ _)
    rw [progress] at hc
    split_ifs at hc
    · rcases List.mem_append.mp hc with hc | hc
      · rcases List.mem_append.mp hc with hc | hc
        · exact hl hc
        · exact Pipeline.within List.mem_cons_self hc
      · obtain rfl := List.mem_singleton.mp hc
        trivial
    · exact hl hc

theorem Line.within_redirected {code : ℕ → ℤ} {l : Line} {name : CString} {overwrite : Bool}
    (hc : c ∈ l.redirected code name overwrite) : c.Within l.firsts (some name) := by
  have hend : ∀ {i}, c ∈ [.fopen name overwrite, .copy i (.file name)] → c.Within l.firsts (some name) := by
    intro i hc
    rcases List.mem_pair.mp hc with rfl | rfl
    · rfl
    · trivial
  cases l with
  | pipeline p =>
    rcases List.mem_append.mp hc with hc | hc
    · exact Pipeline.within List.mem_cons_self hc
    · exact hend hc
  | join l op p =>
    have hl : c ∈ (l.progress code).seen → c.Within (join l op p).firsts (some name) := fun hc =>
      (within hc).mono (List.subset_cons_self _ _)
    rw [redirected] at hc
    split_ifs at hc
    · rcases List.mem_append.mp hc with hc | hc
      · rcases List.mem_append.mp hc with hc | hc
        · exact hl hc
        · exact Pipeline.within List.mem_cons_self hc
      · exact hend hc
    · exact hl hc

end

/-! ### What a line means -/

section
variable {σ : Type} {P : Programs σ} {f : Meaning} {l : Line}

theorem Computes.eq_of_readsNothing (hf : Computes P f) {c : Command} (hc : ReadsNothing P.act (P.start c))
    (input input' : List Byte) : f c input = f c input' := by
  obtain ⟨houtput, hstatus, hsteps⟩ := hc.behaves_eq (hf c input) (hf c input')
  show Effect.mk (f c input).output (f c input).status (f c input).steps = _
  rw [houtput, hstatus, hsteps]

theorem Computes.effect_eq (hf : Computes P f) {p : Pipeline} (hp : ReadsNothing P.act (P.start p.first.1))
    (input input' : List Byte) : p.effect f input = p.effect f input' := by
  rw [Pipeline.effect, Pipeline.effect, hf.eq_of_readsNothing hp input input']

/-- What a line shows does not depend on the stdin of the shell if nobody reads there. -/
theorem Line.shown_eq (hf : Computes P f) (hl : ∀ c ∈ l.firsts, ReadsNothing P.act (P.start c))
    (input input' : ℕ → List Byte) : l.shown f input = l.shown f input' := by
  induction l with
  | pipeline p =>
    rw [shown, shown, Shown.run, Shown.run,
      hf.effect_eq (hl _ List.mem_cons_self) (input 0) (input' 0)]
  | join l op p ih =>
    obtain ⟨hp, hl⟩ := List.forall_mem_cons.mp hl
    rw [shown, shown, ih hl, Shown.run, Shown.run, hf.effect_eq hp (input _) (input' _)]

theorem Line.exitCode_congr (hf : Computes P f) (hl : ∀ c ∈ l.firsts, ReadsNothing P.act (P.start c))
    (input input' : ℕ → List Byte) : l.exitCode f input = l.exitCode f input' := by
  cases l with
  | pipeline p => rw [exitCode, exitCode, shown_eq hf hl input input']
  | join l op p =>
    rw [exitCode, exitCode, shown_eq hf hl input input',
      shown_eq hf (List.forall_mem_cons.mp hl).2 input input']

theorem Line.sent_congr (hf : Computes P f) (hl : ∀ c ∈ l.firsts, ReadsNothing P.act (P.start c))
    (input input' : ℕ → List Byte) : l.sent f input = l.sent f input' := by
  cases l with
  | pipeline p => rw [sent, sent, hf.effect_eq (hl _ List.mem_cons_self) (input 0) (input' 0)]
  | join l op p =>
    obtain ⟨hp, hl⟩ := List.forall_mem_cons.mp hl
    simp only [sent, shown_eq hf hl input input']
    rw [hf.effect_eq hp (input _) (input' _)]

theorem Line.walks_congr (hf : Computes P f) (hl : ∀ c ∈ l.firsts, ReadsNothing P.act (P.start c))
    (input input' : ℕ → List Byte) (file : CString) : l.Walks f input file ↔ l.Walks f input' file := by
  cases l with
  | pipeline p => exact Iff.rfl
  | join l op p => rw [Walks, Walks, shown_eq hf (List.forall_mem_cons.mp hl).2 input input']

end

end SystemsProgramming.Shell

import SystemsProgramming.Foundation.Decimal
import SystemsProgramming.Sorting.Pool

/-! `main` of `1/solution.c` from the texts of the files to the text that it writes. What is written is read
back by the same `fscanf`, so the program sorts in stages: the outputs of some runs are sorted by another
one. -/

namespace SystemsProgramming.Sorting

open Libcoro Transition

variable {text text' : String → List UInt8} {fileNames : List String} {fuel : ℕ} {xs : List ℤ}
  {out out' : List UInt8}

/-- The values of an `int`. -/
def IsInt (x : ℤ) : Prop := -2 ^ 31 ≤ x ∧ x < 2 ^ 31

instance (x : ℤ) : Decidable (IsInt x) := inferInstanceAs (Decidable (_ ∧ _))

/-- What `fscanf` assigns in the loops of `count_numbers_in_file` and `get_numbers_in_file`, with one more
call than there are numbers. That a number is no `int` is undefined. -/
def fscanfNumbers : ℕ → List UInt8 → Option (List ℤ)
  | 0, _ => none
  | fuel + 1, text =>
    match Decimal.scan text with
    | none => some []
    | some (x, rest) => if IsInt x then (fscanfNumbers fuel rest).map (x :: ·) else none

def numbersInText (text : List UInt8) : Option (List ℤ) := fscanfNumbers (text.length + 1) text

/-- `fprintf(fp, "%d ", x)` -/
def fprintfNumber (x : ℤ) : List UInt8 := Decimal.print x ++ [32]

/-- The text that `output_merged_sorted_numbers_to_file` writes. -/
def outputMergedSortedNumbersToFile (w : World) (fuel : ℕ) : Option (List UInt8) :=
  (outputMergedSortedNumbers w fuel).map fun out => out.flatMap fprintfNumber

/-! ### Reading and writing -/

theorem isInt_of_fscanfNumbers {text : List UInt8} (h : fscanfNumbers fuel text = some xs) :
    ∀ x ∈ xs, IsInt x := by
  induction fuel generalizing text xs with
  | zero => cases h
  | succ fuel ih =>
    simp only [fscanfNumbers] at h
    split at h
    · cases h
      exact fun x hx => by cases hx
    · split_ifs at h with hint
      obtain ⟨ys, hys, rfl⟩ := Option.map_eq_some_iff.mp h
      exact List.forall_mem_cons.mpr ⟨hint, ih hys⟩

/-- More fuel makes no difference. -/
theorem fscanfNumbers_stable {n m : ℕ} {text : List UInt8} (hn : text.length < n) (hm : text.length < m) :
    fscanfNumbers n text = fscanfNumbers m text := by
  induction n generalizing m text with
  | zero => exact absurd hn (Nat.not_lt_zero _)
  | succ n ih =>
    cases m with
    | zero => exact absurd hm (Nat.not_lt_zero _)
    | succ m =>
      simp only [fscanfNumbers]
      cases hscan : Decimal.scan text with
      | none => rfl
      | some r =>
        have hlt := Decimal.length_lt_of_scan hscan
        have hrest : fscanfNumbers n r.2 = fscanfNumbers m r.2 := ih (by omega) (by omega)
        simp only [hrest]

/-- One call after another, without fuel. -/
theorem numbersInText_of_scan {text rest : List UInt8} {x : ℤ} (h : Decimal.scan text = some (x, rest))
    (hint : IsInt x) : numbersInText text = (numbersInText rest).map (x :: ·) := by
  have hlt := Decimal.length_lt_of_scan h
  rw [numbersInText, fscanfNumbers, h]
  simp only [if_pos hint, fscanfNumbers_stable hlt (Nat.lt_succ_self _)]
  rfl

theorem numbersInText_cons_space (text : List UInt8) : numbersInText (32 :: text) = numbersInText text := by
  have hscan := Decimal.scan_cons_space (c := 32) rfl text
  cases h : Decimal.scan text with
  | none => simp only [numbersInText, fscanfNumbers, hscan, h]
  | some r =>
    by_cases hint : IsInt r.1
    · rw [numbersInText_of_scan h hint, numbersInText_of_scan (hscan.trans h) hint]
    · simp only [numbersInText, fscanfNumbers, hscan, h, if_neg hint]

/-- What has been written is read. -/
theorem numbersInText_flatMap (hxs : ∀ x ∈ xs, IsInt x) :
    numbersInText (xs.flatMap fprintfNumber) = some xs := by
  induction xs with
  | nil => rfl
  | cons x xs ih =>
    obtain ⟨hx, hxs⟩ := List.forall_mem_cons.mp hxs
    have hends : Decimal.Ends (32 :: xs.flatMap fprintfNumber) := by
      intro c hc
      obtain rfl := Option.some.inj hc
      rfl
    rw [List.flatMap_cons, fprintfNumber, List.append_assoc, List.singleton_append,
      numbersInText_of_scan (Decimal.scan_print x hends) hx, numbersInText_cons_space, ih hxs, Option.map_some]

/-! ### From text to text -/

/-- What is read from a file. -/
def numbers (text : String → List UInt8) (fileName : String) : List ℤ :=
  (numbersInText (text fileName)).getD []

/-- The numbers in the files are of type `int`. -/
def Readable (text : String → List UInt8) (fileNames : List String) : Prop :=
  ∀ fileName ∈ fileNames, (numbersInText (text fileName)).isSome

/-- For every number of coroutines and every behaviour of the clock, `main` comes to its end from every state
of every run, and this is what it writes. -/
def Writes (text : String → List UInt8) (fileNames : List String) (out : List UInt8) : Prop :=
  ∃ bound, ∀ count quantum fuel, 1 ≤ count → bound ≤ fuel →
    ∃ s₀, State.start (funcs quantum (numbers text) fuel count) (createFileQueue fileNames) = some s₀ ∧
      ∀ es s, Run State.Step s₀ es s →
        (∃ es' s', Run State.Step s es' s' ∧ s'.control = .done) ∧
        (s.control = .done → outputMergedSortedNumbersToFile s.shared fuel = some out)

theorem isInt_of_mem (hread : Readable text fileNames) {x : ℤ} (hx : x ∈ fileNames.flatMap (numbers text)) :
    IsInt x := by
  obtain ⟨fileName, hname, hx⟩ := List.mem_flatMap.mp hx
  obtain ⟨xs, hxs⟩ := Option.isSome_iff_exists.mp (hread fileName hname)
  rw [numbers, hxs] at hx
  exact isInt_of_fscanfNumbers hxs x hx

/-- All numbers of the files in ascending order. -/
def sortedText (text : String → List UInt8) (fileNames : List String) : List UInt8 :=
  (ascending (fileNames.flatMap (numbers text))).flatMap fprintfNumber

theorem numbersInText_sortedText (hread : Readable text fileNames) :
    numbersInText (sortedText text fileNames) = some (ascending (fileNames.flatMap (numbers text))) :=
  numbersInText_flatMap fun _ hx => isInt_of_mem hread ((ascending_perm _).mem_iff.mp hx)

theorem writes_sortedText (text : String → List UInt8) (fileNames : List String) :
    Writes text fileNames (sortedText text fileNames) := by
  obtain ⟨bound, hbound⟩ := exists_ample (numbers text) fileNames
  refine ⟨max bound ((fileNames.flatMap (numbers text)).length + 1),
    fun count quantum fuel hcount hfuel => ?_⟩
  obtain ⟨s₀, hstart, -, h₀⟩ := start_eq (funcs quantum (numbers text) fuel count) (createFileQueue fileNames)
  refine ⟨s₀, hstart, fun es s hrun => ?_⟩
  obtain ⟨p, hplan, hs, hp⟩ := h₀.run (Plan.valid_initial _ _) hrun
  have hpooled : Pooled (numbers text) fileNames count p :=
    hplan.invariant (I := Pooled (numbers text) fileNames count)
      (.initial (hbound fuel ((le_max_left ..).trans hfuel))) fun _ _ _ h hstep => h.step hstep
  refine ⟨Represents.comes_to_end (I := Pooled (numbers text) fileNames count)
    (fun _ _ _ h _ hstep => h.step hstep) (fun _ _ h hp hphase => h.teamed.not_stuck hp hphase) hs hp hpooled,
    fun hdone => ?_⟩
  have hcomplete := hpooled.complete hcount (hs.phase_done hdone) hplan
  rw [hs.shared, outputMergedSortedNumbersToFile, hcomplete.output fuel ((le_max_right ..).trans hfuel)]
  rfl

theorem Writes.unique (h : Writes text fileNames out) (h' : Writes text fileNames out') : out = out' := by
  obtain ⟨bound, h⟩ := h
  obtain ⟨bound', h'⟩ := h'
  obtain ⟨s₀, hstart, hruns⟩ := h 1 (fun _ => true) (max bound bound') le_rfl (le_max_left ..)
  obtain ⟨s₀', hstart', hruns'⟩ := h' 1 (fun _ => true) (max bound bound') le_rfl (le_max_right ..)
  obtain rfl := Option.some.inj (hstart.symm.trans hstart')
  obtain ⟨⟨es, s, hrun, hdone⟩, -⟩ := hruns [] s₀ .nil
  exact Option.some.inj (((hruns es s hrun).2 hdone).symm.trans ((hruns' es s hrun).2 hdone))

theorem writes_iff : Writes text fileNames out ↔ out = sortedText text fileNames :=
  ⟨fun h => h.unique (writes_sortedText text fileNames), fun h => h ▸ writes_sortedText text fileNames⟩

/-- From the texts of the files, `main` writes all their numbers in ascending order, and these are what
`fscanf` reads from the text it has written. -/
theorem main_sorts_texts (hread : Readable text fileNames) :
    Writes text fileNames ((ascending (fileNames.flatMap (numbers text))).flatMap fprintfNumber) ∧
      numbersInText ((ascending (fileNames.flatMap (numbers text))).flatMap fprintfNumber) =
        some (ascending (fileNames.flatMap (numbers text))) :=
  ⟨writes_sortedText text fileNames, numbersInText_sortedText hread⟩

/-- Two files, the second one with something that is no number at its end. -/
def textFiles (fileName : String) : List UInt8 :=
  if fileName = "a" then [51, 32, 45, 49, 10, 49, 50] else [32, 43, 52, 9, 120, 53]

theorem numbers_textFiles : numbers textFiles "a" = [3, -1, 12] ∧ numbers textFiles "b" = [4] := by decide

theorem ascending_textFiles : ascending (["a", "b"].flatMap (numbers textFiles)) = [-1, 3, 4, 12] := by
  obtain ⟨ha, hb⟩ := numbers_textFiles
  rw [List.flatMap_cons, List.flatMap_singleton, ha, hb]
  exact (eq_ascending (by decide) (by decide)).symm

theorem main_sorts_texts_two :
    Writes textFiles ["a", "b"] [45, 49, 32, 51, 32, 52, 32, 49, 50, 32] ∧
      numbersInText [45, 49, 32, 51, 32, 52, 32, 49, 50, 32] = some [-1, 3, 4, 12] := by
  have hread : Readable textFiles ["a", "b"] := by unfold Readable; decide
  have h := main_sorts_texts hread
  rw [ascending_textFiles] at h
  exact h

/-! ### Sorting in stages -/

theorem numbers_of_writes (hread : Readable text fileNames) {name : String}
    (h : Writes text fileNames (text' name)) :
    numbers text' name = ascending (fileNames.flatMap (numbers text)) := by
  rw [numbers, writes_iff.mp h, numbersInText_sortedText hread, Option.getD_some]

/-- A run over the outputs of runs over some groups of files writes, byte by byte, what a run over all the
files writes. -/
theorem writes_staged {groups : List (List String)} {names : List String}
    (hread : ∀ group ∈ groups, Readable text group)
    (h : List.Forall₂ (fun group name => Writes text group (text' name)) groups names) (out : List UInt8) :
    Writes text' names out ↔ Writes text groups.flatten out := by
  have hperm : (names.flatMap (numbers text')).Perm (groups.flatten.flatMap (numbers text)) := by
    induction h with
    | nil => exact .nil
    | @cons group name groups names hwrites _ ih =>
      obtain ⟨hgroup, hgroups⟩ := List.forall_mem_cons.mp hread
      rw [List.flatMap_cons, List.flatten_cons, List.flatMap_append, numbers_of_writes hgroup hwrites]
      exact (ascending_perm _).append (ih hgroups)
  rw [writes_iff, writes_iff, sortedText, sortedText, ascending_congr hperm]

/-- The outputs for the two files one by one. -/
def sortedFiles (name : String) : List UInt8 := sortedText textFiles [if name = "c" then "a" else "b"]

theorem writes_staged_two : Writes sortedFiles ["c", "d"] (sortedText textFiles ["a", "b"]) := by
  have hread : ∀ group ∈ [["a"], ["b"]], Readable textFiles group := by unfold Readable; decide
  have hwrites : List.Forall₂ (fun group name => Writes textFiles group (sortedFiles name))
      [["a"], ["b"]] ["c", "d"] := .cons (writes_sortedText ..) (.cons (writes_sortedText ..) .nil)
  exact (writes_staged hread hwrites _).mpr (writes_sortedText ..)

end SystemsProgramming.Sorting

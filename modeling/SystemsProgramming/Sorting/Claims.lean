import SystemsProgramming.Sorting.QuickSort

/-! A coroutine claims one file after another, reads it into an array of its own, sorts the array and puts it
into the slot of the file. -/

namespace SystemsProgramming.Sorting

variable {disk : String → List ℤ} {fileNames : List String} {p i : ℕ} {w w' : World}
  {file xs ys : List ℤ} {fileName : String} {quantum : ℕ → Bool} {fuel : ℕ}

/-- What a coroutine needs to come to this end. -/
abbrev Runs {α : Type} (disk : String → List ℤ) (fileNames : List String) (p : ℕ) (c : Code World α)
    (Q : α → World → Prop) (w : World) : Prop :=
  c.wp (Rely disk fileNames p) (Guarantee disk fileNames p) Q w

/-- A coroutine sorts a file that it has claimed, and these numbers are in its array. -/
structure Busy (disk : String → List ℤ) (fileNames : List String) (p i a : ℕ) (xs : List ℤ)
    (w : World) : Prop where
  orderly : Orderly disk fileNames w
  claims : .claims p i ∈ w.log
  starts : .starts p i a ∈ w.log
  slot : w.queue.sortedFiles[i]? = some none
  others : ∀ j, .claims p j ∈ w.log → j ≠ i → w.IsSet j
  array : w.arrays[a]? = some xs

/-- What the quick sort needs of the array. -/
theorem busy_keeper (disk : String → List ℤ) (fileNames : List String) (p i a : ℕ) :
    Keeper (Rely disk fileNames p) (Guarantee disk fileNames p) a (Busy disk fileNames p i a) where
  array _ _ h := h.array
  set xs ys w h := by
    have hfree : w.Free p i a := fun _ _ hq => h.orderly.alone _ _ _ _ a hq h.starts
    have hdoes := Does.setArray h.orderly h.slot hfree ys
    refine ⟨fun _ => hdoes, hdoes.orderly, h.claims, h.starts, h.slot, h.others, ?_⟩
    exact List.getElem?_set_self (List.getElem?_eq_some_iff.mp h.array).1
  clock xs w n h := by
    have hdoes := Does.clock (p := p) h.orderly n
    exact ⟨fun _ => hdoes, hdoes.orderly, h.claims, h.starts, h.slot, h.others, h.array⟩
  kept xs w w' h hR := by
    have hk := hR h.orderly
    refine ⟨hk.orderly, hk.log h.claims, hk.log h.starts, (hk.slots i h.claims).trans h.slot,
      fun j hj hne => ?_, (hk.arrays i a h.starts).trans h.array⟩
    have hj' := hk.mine _ hj rfl
    obtain ⟨data, hdata⟩ := h.others j hj' hne
    exact ⟨data, (hk.slots j hj').trans hdata⟩

/-! ### Reading -/

theorem countNumbersInFile_eq (file : List ℤ) : countNumbersInFile file = file.length := by
  have h : ∀ n, file.foldl (fun numberCount _ => numberCount + 1) n = n + file.length := by
    induction file with
    | nil => exact fun n => rfl
    | cons x file ih =>
      intro n
      rw [List.foldl_cons, ih, List.length_cons]
      omega
  rw [countNumbersInFile, h, Nat.zero_add]

theorem Does.extend_extend (h : Orderly disk fileNames w) (xs ys : List ℤ) :
    Does disk fileNames p (w.extend xs) (w.extend ys) := by
  refine ofArrays (extend (p := p) h xs).orderly ?_ fun q j a ha _ => ?_
  · simp [World.extend]
  · have hlt := h.started q j a ha
    exact (List.getElem?_append_left hlt).trans (List.getElem?_append_left hlt).symm

theorem runs_readNumbers (h : Orderly disk fileNames w) {Q : Unit → World → Prop}
    (hlength : ys.length = file.length) (hQ : Q () (w.extend (xs ++ file))) :
    Runs disk fileNames p (readNumbers w.arrays.length file xs.length) Q (w.extend (xs ++ ys)) := by
  induction file generalizing xs ys with
  | nil =>
    obtain rfl := List.length_eq_zero_iff.mp hlength
    exact hQ
  | cons x file ih =>
    cases ys with
    | nil => cases hlength
    | cons y ys =>
      have harray : (w.extend (xs ++ y :: ys)).arrays[w.arrays.length]? = some (xs ++ y :: ys) :=
        List.getElem?_concat_length ..
      have hset : (w.extend (xs ++ y :: ys)).setArray w.arrays.length
          ((xs ++ y :: ys).set (0 + xs.length) x) = w.extend (xs ++ [x] ++ ys) := by
        simp [World.extend, World.setArray]
      rw [Runs, readNumbers, Code.wp_bind]
      refine wp_store harray (by simp) ?_ ?_
      · rw [hset]
        exact fun _ => .extend_extend h _ _
      · rw [hset]
        have hrest : Runs disk fileNames p (readNumbers w.arrays.length file (xs ++ [x]).length) Q
            (w.extend (xs ++ [x] ++ ys)) := ih (Nat.succ.inj hlength) (by simpa using hQ)
        rwa [List.length_append] at hrest

theorem runs_getNumbersInFile (h : Orderly disk fileNames w) {Q : ℕ → World → Prop}
    (hQ : Q w.arrays.length (w.extend file)) :
    Runs disk fileNames p (getNumbersInFile file file.length) Q w := by
  rw [Runs, getNumbersInFile, Code.wp_bind]
  simp only [mallocNumbers, Code.wp_bind, Code.wp_read, Code.wp_write, Code.wp_pure]
  refine ⟨fun _ => .extend h _, ?_⟩
  show Runs disk fileNames p (readNumbers w.arrays.length file ([] : List ℤ).length) _
    (w.extend ([] ++ List.replicate file.length 0))
  exact runs_readNumbers h (List.length_replicate ..) hQ

/-! ### Sorting -/

/-- A coroutine has no file that is not sorted. -/
structure Idle (disk : String → List ℤ) (fileNames : List String) (p : ℕ) (w : World) : Prop where
  orderly : Orderly disk fileNames w
  set : ∀ i, .claims p i ∈ w.log → w.IsSet i

theorem Busy.runs_setSortedFile {a : ℕ} (h : Busy disk fileNames p i a (ascending (disk fileName)) w)
    (hname : fileNames[i]? = some fileName) {Q : Unit → World → Prop}
    (hQ : ∀ w', Idle disk fileNames p w' → i < w'.queue.filePtr → Q () w') :
    Runs disk fileNames p (setSortedFile i ⟨(disk fileName).length, a⟩) Q w := by
  have hlt : i < w.queue.sortedFiles.length := (List.getElem?_eq_some_iff.mp h.slot).1
  have hholds : w.Holds disk fileNames i ⟨(disk fileName).length, a⟩ := by
    refine ⟨?_, ?_⟩
    · rw [hname, Option.map_some]
    · rw [hname, Option.map_some, h.array]
  have hdoes := Does.setSlot h.orderly h.claims h.starts hholds
  simp only [Runs, setSortedFile, Code.wp_bind, Code.wp_read, if_pos hlt, Code.wp_write]
  refine ⟨fun _ => hdoes, hQ _ ⟨hdoes.orderly, fun j hj => ?_⟩ (h.orderly.claimed_iff.mp ⟨p, h.claims⟩)⟩
  by_cases hji : j = i
  · subst hji
    exact ⟨_, List.getElem?_set_self hlt⟩
  · obtain ⟨data, hdata⟩ := h.others j hj hji
    exact ⟨data, (List.getElem?_set_ne fun heq => hji heq.symm).trans hdata⟩

theorem runs_sortFile (h : Orderly disk fileNames w) (hclaims : .claims p i ∈ w.log)
    (hslot : w.queue.sortedFiles[i]? = some none)
    (hothers : ∀ j, .claims p j ∈ w.log → j ≠ i → w.IsSet j) (hname : fileNames[i]? = some fileName)
    (hfuel : 2 * (disk fileName).length < fuel) {Q : Unit → World → Prop}
    (hQ : ∀ w', Idle disk fileNames p w' → i < w'.queue.filePtr → Q () w') :
    Runs disk fileNames p (sortFile quantum disk fuel p i fileName) Q w := by
  rw [Runs, sortFile]
  simp only [countNumbersInFile_eq]
  rw [Code.wp_bind]
  refine runs_getNumbersInFile h ?_
  -- the array is new
  have hlast : (w.extend (disk fileName)).arrays[w.arrays.length]? = some (disk fileName) :=
    List.getElem?_concat_length ..
  have hstarts := Does.starts (p := p) (i := i) (Does.extend (p := p) h (disk fileName)).orderly
    (List.getElem?_eq_some_iff.mp hlast).1 fun q j hq => Nat.lt_irrefl _ (h.started q j _ hq)
  simp only [note, Code.wp_bind, Code.wp_read, Code.wp_write]
  refine ⟨fun _ => hstarts, ?_⟩
  have hbusy : Busy disk fileNames p i w.arrays.length ([] ++ disk fileName ++ [])
      ((w.extend (disk fileName)).addRecord (.starts p i w.arrays.length)) := by
    refine ⟨hstarts.orderly, List.mem_append_left _ hclaims, List.mem_concat_self .., hslot,
      fun j hj hne => ?_, ?_⟩
    · refine hothers j ((List.mem_append.mp hj).resolve_right fun hj => ?_) hne
      cases List.mem_singleton.mp hj
    · rw [List.nil_append, List.append_nil]
      exact hlast
  rw [getSortedInplaceFileData, Code.wp_bind]
  refine (busy_keeper disk fileNames p i _).wp_getSorted hbusy ⟨by omega, .inl (by omega)⟩ fun w' h' => ?_
  rw [Code.wp_pure]
  rw [List.nil_append, List.append_nil] at h'
  exact h'.runs_setSortedFile hname hQ

theorem runs_coroutineLoop (h : Idle disk fileNames p w) {rounds : ℕ}
    (hfuel : ∀ fileName ∈ fileNames, 2 * (disk fileName).length < fuel)
    (hrounds : fileNames.length - w.queue.filePtr < rounds) {Q : Unit → World → Prop}
    (hQ : ∀ w', Idle disk fileNames p w' → fileNames.length ≤ w'.queue.filePtr → Q () w') :
    Runs disk fileNames p (coroutineLoop quantum disk fuel p rounds) Q w := by
  induction rounds generalizing w with
  | zero => exact absurd hrounds (Nat.not_lt_zero _)
  | succ rounds ih =>
    rw [Runs, coroutineLoop, Code.wp_bind, Code.wp_read]
    by_cases hlt : w.queue.filePtr < fileNames.length
    · rw [if_pos (h.orderly.count ▸ hlt)]
      have hname := List.getElem?_eq_getElem hlt
      have hname' : w.queue.fileNames[w.queue.filePtr]? = some fileNames[w.queue.filePtr] :=
        h.orderly.names.symm ▸ hname
      have hdoes := Does.claims (p := p) h.orderly hlt
      simp only [claimFile, Code.wp_bind, Code.wp_read, Code.wp_write]
      refine ⟨fun _ => hdoes, ?_⟩
      simp only [hname']
      rw [Code.wp_bind]
      refine runs_sortFile hdoes.orderly (List.mem_concat_self ..) (h.orderly.slot_none le_rfl hlt)
        (fun j hj hne => ?_) hname (hfuel _ (List.getElem_mem hlt)) fun w' h' hptr => ?_
      · refine h.set j ((List.mem_append.mp hj).resolve_right fun hj => hne ?_)
        exact (Record.claims.inj (List.mem_singleton.mp hj)).2
      · exact ih h' (by omega)
    · rw [if_neg (h.orderly.count ▸ hlt)]
      exact hQ w h (Nat.not_lt.mp hlt)

/-- Fuel for every file and for the loop that claims them. -/
def Ample (disk : String → List ℤ) (fileNames : List String) (fuel : ℕ) : Prop :=
  fileNames.length < fuel ∧ ∀ fileName ∈ fileNames, 2 * (disk fileName).length < fuel

theorem runs_coroutineFuncF (h : Idle disk fileNames p w) (hfuel : Ample disk fileNames fuel) :
    Runs disk fileNames p (coroutineFuncF quantum disk fuel p) (Finished disk fileNames p) w := by
  rw [Runs, coroutineFuncF, Code.wp_bind]
  refine runs_coroutineLoop h hfuel.2 (Nat.lt_of_le_of_lt (Nat.sub_le _ _) hfuel.1) fun w' h' hptr => ?_
  rw [Code.wp_pure]
  exact ⟨rfl, h'.orderly, hptr, h'.set⟩

end SystemsProgramming.Sorting

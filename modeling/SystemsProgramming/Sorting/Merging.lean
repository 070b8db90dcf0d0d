import SystemsProgramming.Sorting.Sharing
import Mathlib.Data.List.Perm.Basic

/-! The merge of the sorted files. The loop of `output_merged_sorted_numbers_to_file` looks for the least of
the numbers that come next in the files, so the output is in ascending order. -/

namespace SystemsProgramming.Sorting

variable {disk : String → List ℤ} {fileNames : List String} {w : World} {files : List (List ℤ)}
  {ptrs : List ℕ} {minimum : Minimum} {k : ℕ}

/-- The slots have these files. -/
def World.Contains (w : World) (files : List (List ℤ)) : Prop := ∀ (i : ℕ) (xs : List ℤ), files[i]? = some xs →
  ∃ data, w.queue.sortedFiles[i]? = some (some data) ∧ data.numberCount = xs.length ∧
    w.arrays[data.sortedNumbers]? = some xs

/-- There is a place in each file. -/
structure Places (files : List (List ℤ)) (ptrs : List ℕ) : Prop where
  length : ptrs.length = files.length
  le : ∀ (i : ℕ) (xs : List ℤ) (n : ℕ), files[i]? = some xs → ptrs[i]? = some n → n ≤ xs.length

/-- What is left of the files. -/
def rests (files : List (List ℤ)) (ptrs : List ℕ) : List (List ℤ) := files.zipWith (fun xs n => xs.drop n) ptrs

theorem Places.length_rests (h : Places files ptrs) : (rests files ptrs).length = files.length := by
  rw [rests, List.length_zipWith, h.length, Nat.min_self]

theorem Places.getElem?_rests (h : Places files ptrs) {i : ℕ} (hi : i < files.length) :
    ∃ xs n, files[i]? = some xs ∧ ptrs[i]? = some n ∧ n ≤ xs.length ∧
      (rests files ptrs)[i]? = some (xs.drop n) := by
  have hi' : i < ptrs.length := h.length ▸ hi
  have hxs := List.getElem?_eq_getElem hi
  have hn := List.getElem?_eq_getElem hi'
  refine ⟨_, _, hxs, hn, h.le i _ _ hxs hn, ?_⟩
  rw [rests, List.getElem?_zipWith, hxs, hn]

/-! ### The inner loop -/

/-- The least of the first numbers of some lists. -/
def Least (rs : List (List ℤ)) (seen : List (List ℤ)) : Minimum → Prop
  | none => ∀ r ∈ seen, r = []
  | some (filePtr, x) => (∃ r, rs[filePtr]? = some (x :: r)) ∧ ∀ r ∈ seen, ∀ y ∈ r.head?, x ≤ y

namespace Least

variable {rs seen : List (List ℤ)} {r : List ℤ} {filePtr : ℕ} {x y : ℤ}

theorem skip (h : Least rs seen minimum) : Least rs (seen ++ [[]]) minimum := by
  cases minimum with
  | none => exact List.forall_mem_append.mpr ⟨h, by simp⟩
  | some m => exact ⟨h.1, List.forall_mem_append.mpr ⟨h.2, by simp⟩⟩

theorem keep (h : Least rs seen (some (filePtr, y))) (hle : y ≤ x) :
    Least rs (seen ++ [x :: r]) (some (filePtr, y)) :=
  ⟨h.1, List.forall_mem_append.mpr ⟨h.2, by simpa using hle⟩⟩

theorem change (h : Least rs seen minimum) (hr : rs[k]? = some (x :: r))
    (hlt : ∀ m ∈ minimum, x < m.2) : Least rs (seen ++ [x :: r]) (some (k, x)) := by
  refine ⟨⟨r, hr⟩, List.forall_mem_append.mpr ⟨fun s hs y hy => ?_, by simp⟩⟩
  cases minimum with
  | none =>
    rw [h s hs] at hy
    cases hy
  | some m => exact le_of_lt ((hlt m rfl).trans_le (h.2 s hs y hy))

end Least

theorem minimumBody_least (hw : w.Contains files) (h : Places files ptrs) (hk : k < files.length)
    (hleast : Least (rests files ptrs) ((rests files ptrs).take k) minimum) :
    ∃ minimum', minimumBody w ptrs minimum k = some minimum' ∧
      Least (rests files ptrs) ((rests files ptrs).take (k + 1)) minimum' := by
  obtain ⟨xs, n, hxs, hn, hle, hrest⟩ := h.getElem?_rests hk
  obtain ⟨data, hdata, hcount, harray⟩ := hw k xs hxs
  simp only [minimumBody, hn, hdata, harray, hcount, Option.bind_eq_bind, Option.bind_some]
  by_cases hend : xs.length = n
  · rw [if_pos hend]
    rw [List.drop_eq_nil_of_le (Nat.le_of_eq hend)] at hrest
    rw [List.take_add_one, hrest]
    exact ⟨minimum, rfl, hleast.skip⟩
  have hlt : n < xs.length := Nat.lt_of_le_of_ne hle fun heq => hend heq.symm
  rw [if_neg hend, List.getElem?_eq_getElem hlt, Option.bind_some]
  rw [List.drop_eq_getElem_cons hlt] at hrest
  rw [List.take_add_one, hrest, Option.toList_some]
  cases minimum with
  | none => exact ⟨_, rfl, hleast.change hrest fun m hm => (by cases hm)⟩
  | some m =>
    by_cases hgt : m.2 > xs[n]
    · refine ⟨_, if_pos hgt, hleast.change hrest fun m' hm' => ?_⟩
      obtain rfl := Option.some.inj hm'
      exact hgt
    · exact ⟨_, if_neg hgt, hleast.keep (not_lt.mp hgt)⟩

theorem foldlM_least (hw : w.Contains files) (h : Places files ptrs) (hk : k ≤ files.length) :
    ∃ minimum, (List.range k).foldlM (minimumBody w ptrs) none = some minimum ∧
      Least (rests files ptrs) ((rests files ptrs).take k) minimum := by
  induction k with
  | zero => exact ⟨none, rfl, fun r hr => (by cases hr)⟩
  | succ k ih =>
    obtain ⟨minimum, hfold, hleast⟩ := ih (Nat.le_of_lt hk)
    obtain ⟨minimum', hbody, hleast'⟩ := minimumBody_least hw h hk hleast
    refine ⟨minimum', ?_, hleast'⟩
    rw [List.range_succ, List.foldlM_append, hfold]
    simp only [Option.bind_eq_bind, Option.bind_some, List.foldlM_cons, hbody, List.foldlM_nil]
    rfl

/-! ### The outer loop -/

theorem Places.modify (h : Places files ptrs) {i : ℕ} {x : ℤ} {r : List ℤ}
    (hi : (rests files ptrs)[i]? = some (x :: r)) : Places files (ptrs.modify i (· + 1)) ∧
      rests files (ptrs.modify i (· + 1)) = (rests files ptrs).set i r := by
  have hlt : i < files.length := by
    rw [← h.length_rests]
    exact (List.getElem?_eq_some_iff.mp hi).1
  obtain ⟨xs, n, hxs, hn, hle, hrest⟩ := h.getElem?_rests hlt
  have hdrop : xs.drop n = x :: r := Option.some.inj (hrest.symm.trans hi)
  have hn' : n < xs.length := by
    by_contra hge
    rw [List.drop_eq_nil_of_le (Nat.not_lt.mp hge)] at hdrop
    cases hdrop
  refine ⟨⟨by rw [List.length_modify, h.length], fun j ys m hys hm => ?_⟩, ?_⟩
  · by_cases hij : i = j
    · subst hij
      rw [List.getElem?_modify_eq, hn] at hm
      obtain rfl := Option.some.inj hm
      obtain rfl := Option.some.inj (hxs.symm.trans hys)
      exact hn'
    · rw [List.getElem?_modify_ne _ _ hij] at hm
      exact h.le j ys m hys hm
  · refine List.ext_getElem? fun j => ?_
    rw [rests, List.getElem?_zipWith]
    by_cases hij : i = j
    · subst hij
      rw [hxs, List.getElem?_modify_eq, hn, List.getElem?_set_self (h.length_rests ▸ hlt)]
      rw [List.drop_eq_getElem_cons hn'] at hdrop
      exact congrArg some (List.cons.inj hdrop).2
    · rw [List.getElem?_modify_ne _ _ hij, List.getElem?_set_ne hij, rests, List.getElem?_zipWith]

theorem iterate_mergeBody (hw : w.Contains files) (hcount : w.queue.fileCount = files.length)
    (h : Places files ptrs) {fuel : ℕ} (hfuel : (rests files ptrs).flatten.length < fuel)
    (out : List ℤ) : ∃ ptrs' merged, Merges (rests files ptrs) merged ∧
      iterate (mergeBody w) fuel (ptrs, out) = some (ptrs', out ++ merged) := by
  induction fuel generalizing ptrs out with
  | zero => exact absurd hfuel (Nat.not_lt_zero _)
  | succ fuel ih =>
    obtain ⟨minimum, hfold, hleast⟩ := foldlM_least hw h le_rfl
    rw [← hcount] at hfold
    rw [List.take_of_length_le h.length_rests.le] at hleast
    cases minimum with
    | none =>
      refine ⟨ptrs, [], .nil hleast, ?_⟩
      rw [iterate, mergeBody, hfold, List.append_nil]
      rfl
    | some m =>
      obtain ⟨filePtr, x⟩ := m
      obtain ⟨⟨r, hr⟩, hle⟩ := hleast
      obtain ⟨hplaces, hrests⟩ := h.modify hr
      have hperm := flatten_set_perm hr
      have hfewer : (rests files (ptrs.modify filePtr (· + 1))).flatten.length < fuel := by
        rw [hrests]
        have hlength := hperm.length_eq
        rw [List.length_cons] at hlength
        omega
      obtain ⟨ptrs', merged, hmerges, hiterate⟩ := ih hplaces hfewer (out ++ [x])
      rw [hrests] at hmerges
      refine ⟨ptrs', x :: merged, .cons hr hle hmerges, ?_⟩
      rw [iterate, mergeBody, hfold]
      simp only [Option.bind_eq_bind, Option.bind_some]
      rw [List.append_assoc, List.singleton_append] at hiterate
      exact hiterate

/-- The loop ends, and what is printed is a merge of the files. -/
theorem outputMergedSortedNumbers_merges (hw : w.Contains files) (hcount : w.queue.fileCount = files.length)
    {fuel : ℕ} (hfuel : files.flatten.length < fuel) :
    ∃ merged, Merges files merged ∧ outputMergedSortedNumbers w fuel = some merged := by
  have hplaces : Places files (List.replicate files.length 0) := by
    refine ⟨List.length_replicate .., fun i xs n _ hn => ?_⟩
    rw [(List.mem_replicate.mp (List.mem_of_getElem? hn)).2]
    exact Nat.zero_le _
  have hrests : rests files (List.replicate files.length 0) = files := by
    refine List.ext_getElem? fun i => ?_
    rw [rests, List.getElem?_zipWith, List.getElem?_replicate]
    split_ifs with hi
    · rw [List.getElem?_eq_getElem hi]
      rfl
    · rw [List.getElem?_eq_none (Nat.not_lt.mp hi)]
  obtain ⟨ptrs, merged, hmerges, hiterate⟩ := iterate_mergeBody hw hcount hplaces (by rwa [hrests]) []
  rw [hrests] at hmerges
  refine ⟨merged, hmerges, ?_⟩
  rw [outputMergedSortedNumbers, hcount, hiterate]
  rfl

/-- The merge of files in ascending order ends without an access outside of them. It prints their numbers in
ascending order, each file's numbers in the order of the file. -/
theorem outputMergedSortedNumbers_complete (hw : w.Contains files)
    (hcount : w.queue.fileCount = files.length) (hfiles : ∀ xs ∈ files, xs.Pairwise (· ≤ ·)) {fuel : ℕ}
    (hfuel : files.flatten.length < fuel) : ∃ out tagged,
      outputMergedSortedNumbers w fuel = some out ∧ out.Pairwise (· ≤ ·) ∧ out.Perm files.flatten ∧
        Interleaves files tagged ∧ tagged.map Prod.snd = out := by
  obtain ⟨out, hmerges, hout⟩ := outputMergedSortedNumbers_merges hw hcount hfuel
  obtain ⟨tagged, htagged, hmap⟩ := hmerges.interleaves
  have hsorted := hmerges.eq_ascending hfiles
  refine ⟨out, tagged, hout, ?_, ?_, htagged, hmap⟩
  · rw [hsorted]
    exact ascending_pairwise _
  · rw [hsorted]
    exact ascending_perm _

/-- Three files, one of them empty, and an equal number in the two others. -/
theorem outputMergedSortedNumbers_complete_three : ∃ out tagged,
    outputMergedSortedNumbers
      ⟨⟨3, 3, [], [some ⟨2, 0⟩, some ⟨0, 1⟩, some ⟨2, 2⟩]⟩, [[1, 2], [], [2, 3]], 0, []⟩ 5 = some out ∧
    out.Pairwise (· ≤ ·) ∧ out.Perm [1, 2, 2, 3] ∧ Interleaves [[1, 2], [], [2, 3]] tagged ∧
    tagged.map Prod.snd = out := by
  have hw : (World.mk ⟨3, 3, [], [some ⟨2, 0⟩, some ⟨0, 1⟩, some ⟨2, 2⟩]⟩
      [[1, 2], [], [2, 3]] 0 []).Contains [[1, 2], [], [2, 3]] := by
    intro i xs hxs
    match i, hxs with
    | 0, hxs => exact ⟨⟨2, 0⟩, rfl, by rw [← Option.some.inj hxs]; rfl, hxs⟩
    | 1, hxs => exact ⟨⟨0, 1⟩, rfl, by rw [← Option.some.inj hxs]; rfl, hxs⟩
    | 2, hxs => exact ⟨⟨2, 2⟩, rfl, by rw [← Option.some.inj hxs]; rfl, hxs⟩
  exact outputMergedSortedNumbers_complete hw rfl (by decide) (by decide)

/-- The files as they are put into the slots. -/
def sortedNumbers (disk : String → List ℤ) (fileNames : List String) : List (List ℤ) :=
  fileNames.map fun fileName => ascending (disk fileName)

theorem flatten_sortedNumbers_perm (disk : String → List ℤ) (fileNames : List String) :
    (sortedNumbers disk fileNames).flatten.Perm (fileNames.flatMap disk) :=
  List.Perm.flatMap_left fileNames fun fileName _ => ascending_perm (disk fileName)

theorem Orderly.contains (h : Orderly disk fileNames w)
    (hset : ∀ i, i < fileNames.length → w.IsSet i) : w.Contains (sortedNumbers disk fileNames) := by
  intro i xs hxs
  rw [sortedNumbers, List.getElem?_map] at hxs
  obtain ⟨fileName, hname, rfl⟩ := Option.map_eq_some_iff.mp hxs
  rw [length_ascending]
  exact h.slot_set (hset i (List.getElem?_eq_some_iff.mp hname).1) hname

/-- When all slots are set, the output has the numbers of all files in ascending order. -/
theorem outputMergedSortedNumbers_eq (h : Orderly disk fileNames w)
    (hset : ∀ i, i < fileNames.length → w.IsSet i) {fuel : ℕ}
    (hfuel : (fileNames.flatMap disk).length < fuel) :
    outputMergedSortedNumbers w fuel = some (ascending (fileNames.flatMap disk)) := by
  have hlength : (sortedNumbers disk fileNames).length = fileNames.length := List.length_map ..
  have hperm := flatten_sortedNumbers_perm disk fileNames
  obtain ⟨merged, hmerges, hout⟩ := outputMergedSortedNumbers_merges (h.contains hset)
    (h.count.trans hlength.symm) (by rwa [hperm.length_eq])
  have hmerged := hmerges.eq_ascending fun r hr => by
    obtain ⟨fileName, -, rfl⟩ := List.mem_map.mp hr
    exact ascending_pairwise _
  rw [hout, hmerged, ascending_congr hperm]

end SystemsProgramming.Sorting

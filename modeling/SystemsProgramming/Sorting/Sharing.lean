import SystemsProgramming.Sorting.Model
import SystemsProgramming.Foundation.Ascending
import Mathlib.Data.List.Nodup
import Mathlib.Algebra.Order.Ring.Int

/-! What the coroutines of `1/solution.c` leave to each other in the memory. The log says who has claimed a
file and who sorts it in which array; a coroutine writes to the slots it has claimed and to the arrays in
which nobody else sorts, and it can rely on the others to do the same. -/

namespace SystemsProgramming.Sorting

namespace Record

def name : Record → ℕ
  | claims name _ => name
  | starts name _ _ => name

/-- The file that is claimed. -/
def claimed : Record → Option ℕ
  | claims _ filePtr => some filePtr
  | starts .. => none

theorem mem_of_name_ne {log : List Record} {r r' : Record} (hr : r ∈ log ++ [r'])
    (hne : r.name ≠ r'.name) : r ∈ log :=
  (List.mem_append.mp hr).resolve_right fun hr => hne (congrArg name (List.mem_singleton.mp hr))

end Record

/-- The slot of a file has been set. -/
def World.IsSet (w : World) (i : ℕ) : Prop := ∃ data, w.queue.sortedFiles[i]? = some (some data)

section
variable (disk : String → List ℤ) (fileNames : List String)

/-- What is put into the slot of a file. -/
structure World.Holds (w : World) (i : ℕ) (data : SingleSortedFileData) : Prop where
  numberCount : fileNames[i]?.map (fun fileName => (disk fileName).length) = some data.numberCount
  sortedNumbers : fileNames[i]?.map (fun fileName => ascending (disk fileName)) =
    w.arrays[data.sortedNumbers]?

/-- The files are claimed one after another, an array is used for one of them, and a slot is set when its
file is sorted. -/
structure Orderly (w : World) : Prop where
  names : w.queue.fileNames = fileNames
  count : w.queue.fileCount = fileNames.length
  slots : w.queue.sortedFiles.length = fileNames.length
  ptr : w.queue.filePtr ≤ fileNames.length
  claims : w.log.filterMap Record.claimed = List.range w.queue.filePtr
  started : ∀ p i a, .starts p i a ∈ w.log → a < w.arrays.length
  alone : ∀ p q i j a, .starts p i a ∈ w.log → .starts q j a ∈ w.log → p = q ∧ i = j
  sorted : ∀ i data, w.queue.sortedFiles[i]? = some (some data) →
    ∃ p, .claims p i ∈ w.log ∧ .starts p i data.sortedNumbers ∈ w.log ∧ w.Holds disk fileNames i data

/-- What a coroutine does when it writes. -/
structure Does (p : ℕ) (w w' : World) : Prop where
  orderly : Orderly disk fileNames w'
  log : w.log ⊆ w'.log
  others : ∀ r ∈ w'.log, r.name ≠ p → r ∈ w.log
  arrays : ∀ q i a, q ≠ p → .starts q i a ∈ w.log → w'.arrays[a]? = w.arrays[a]?
  slots : ∀ i, .claims p i ∉ w.log → w'.queue.sortedFiles[i]? = w.queue.sortedFiles[i]?
  ptr : w.queue.filePtr ≤ w'.queue.filePtr

/-- What the others keep when they write. -/
structure Kept (p : ℕ) (w w' : World) : Prop where
  orderly : Orderly disk fileNames w'
  log : w.log ⊆ w'.log
  mine : ∀ r ∈ w'.log, r.name = p → r ∈ w.log
  arrays : ∀ i a, .starts p i a ∈ w.log → w'.arrays[a]? = w.arrays[a]?
  slots : ∀ i, .claims p i ∈ w.log → w'.queue.sortedFiles[i]? = w.queue.sortedFiles[i]?
  ptr : w.queue.filePtr ≤ w'.queue.filePtr

def Guarantee (p : ℕ) (w w' : World) : Prop := Orderly disk fileNames w → Does disk fileNames p w w'

def Rely (p : ℕ) (w w' : World) : Prop := Orderly disk fileNames w → Kept disk fileNames p w w'

/-- A coroutine has returned: all files are claimed, and those it has claimed are sorted. -/
structure Finished (p : ℕ) (value : ℤ) (w : World) : Prop where
  value : value = 0
  orderly : Orderly disk fileNames w
  ptr : fileNames.length ≤ w.queue.filePtr
  set : ∀ i, .claims p i ∈ w.log → w.IsSet i

end

variable {disk : String → List ℤ} {fileNames : List String} {w w' : World} {p q i a : ℕ}

theorem World.Holds.congr {data : SingleSortedFileData} (h : w.Holds disk fileNames i data)
    (harray : w'.arrays[data.sortedNumbers]? = w.arrays[data.sortedNumbers]?) :
    w'.Holds disk fileNames i data :=
  ⟨h.numberCount, h.sortedNumbers.trans harray.symm⟩

namespace Orderly

theorem claims_unique (h : Orderly disk fileNames w) (hp : .claims p i ∈ w.log)
    (hq : .claims q i ∈ w.log) : p = q := by
  have hnodup : (w.log.filterMap Record.claimed).Nodup := h.claims ▸ List.nodup_range
  have hpairwise := List.pairwise_filterMap.mp hnodup
  have hsymm : Std.Symm fun r r' : Record =>
      ∀ b, r.claimed = some b → ∀ b', r'.claimed = some b' → b ≠ b' :=
    ⟨fun _ _ hr b hb b' hb' => (hr b' hb' b hb).symm⟩
  by_contra hne
  exact hpairwise.forall hp hq (fun heq => hne (Record.claims.inj heq).1) i rfl i rfl rfl

theorem claimed_iff (h : Orderly disk fileNames w) : (∃ p, .claims p i ∈ w.log) ↔ i < w.queue.filePtr := by
  rw [← List.mem_range, ← h.claims, List.mem_filterMap]
  constructor
  · rintro ⟨p, hp⟩
    exact ⟨_, hp, rfl⟩
  · rintro ⟨r, hr, hclaimed⟩
    cases r with
    | claims p j =>
      obtain rfl := Option.some.inj hclaimed
      exact ⟨p, hr⟩
    | starts => cases hclaimed

/-- A file that was not claimed has an empty slot. -/
theorem slot_none (h : Orderly disk fileNames w) (hi : w.queue.filePtr ≤ i) (hlt : i < fileNames.length) :
    w.queue.sortedFiles[i]? = some none := by
  rw [← h.slots] at hlt
  rw [List.getElem?_eq_getElem hlt]
  cases hslot : w.queue.sortedFiles[i] with
  | none => rfl
  | some data =>
    obtain ⟨p, hp, -⟩ := h.sorted i data (by rw [List.getElem?_eq_getElem hlt, hslot])
    exact absurd (h.claimed_iff.mp ⟨p, hp⟩) (Nat.not_lt.mpr hi)

theorem slot_set (h : Orderly disk fileNames w) (hset : w.IsSet i) {fileName : String}
    (hname : fileNames[i]? = some fileName) : ∃ data, w.queue.sortedFiles[i]? = some (some data) ∧
      data.numberCount = (disk fileName).length ∧
      w.arrays[data.sortedNumbers]? = some (ascending (disk fileName)) := by
  obtain ⟨data, hdata⟩ := hset
  obtain ⟨-, -, -, hholds⟩ := h.sorted i data hdata
  have hcount := hholds.numberCount
  have harray := hholds.sortedNumbers
  rw [hname] at hcount harray
  exact ⟨data, hdata, (Option.some.inj hcount).symm, harray.symm⟩

end Orderly

/-! ### Writes -/

namespace World

/-- An array of these numbers is added. -/
def extend (w : World) (xs : List ℤ) : World := { w with arrays := w.arrays ++ [xs] }

def setArray (w : World) (a : ℕ) (xs : List ℤ) : World := { w with arrays := w.arrays.set a xs }

def addRecord (w : World) (r : Record) : World := { w with log := w.log ++ [r] }

def setSlot (w : World) (i : ℕ) (data : SingleSortedFileData) : World :=
  { w with queue := { w.queue with sortedFiles := w.queue.sortedFiles.set i (some data) } }

end World

/-- Nobody sorts another file in the array. -/
def World.Free (w : World) (p i a : ℕ) : Prop := ∀ q j, .starts q j a ∈ w.log → q = p ∧ j = i

namespace Does

theorem clock (h : Orderly disk fileNames w) (n : ℕ) : Does disk fileNames p w { w with calls := n } where
  orderly := ⟨h.names, h.count, h.slots, h.ptr, h.claims, h.started, h.alone, fun i data hi => by
    obtain ⟨q, hclaims, hstarts, hholds⟩ := h.sorted i data hi
    exact ⟨q, hclaims, hstarts, hholds.congr rfl⟩⟩
  log := List.Subset.refl _
  others _ hr _ := hr
  arrays _ _ _ _ _ := rfl
  slots _ _ := rfl
  ptr := le_rfl

/-- The arrays are changed where nobody has a slot for them. -/
theorem ofArrays (h : Orderly disk fileNames w) {arrays : List (List ℤ)}
    (hlength : w.arrays.length ≤ arrays.length)
    (hothers : ∀ q j a, .starts q j a ∈ w.log → w.queue.sortedFiles[j]? ≠ some none ∨ q ≠ p →
      arrays[a]? = w.arrays[a]?) : Does disk fileNames p w { w with arrays := arrays } where
  orderly := ⟨h.names, h.count, h.slots, h.ptr, h.claims,
    fun q j a ha => (h.started q j a ha).trans_le hlength, h.alone, fun j data hj => by
    obtain ⟨q, hclaims, hstarts, hholds⟩ := h.sorted j data hj
    refine ⟨q, hclaims, hstarts, hholds.congr (hothers q j _ hstarts (.inl ?_))⟩
    rw [hj]
    rintro ⟨⟩⟩
  log := List.Subset.refl _
  others _ hr _ := hr
  arrays q j a hq ha := hothers q j a ha (.inr hq)
  slots _ _ := rfl
  ptr := le_rfl

theorem extend (h : Orderly disk fileNames w) (xs : List ℤ) :
    Does disk fileNames p w (w.extend xs) :=
  ofArrays h (by simp) fun q j a ha _ => List.getElem?_append_left (h.started q j a ha)

theorem setArray (h : Orderly disk fileNames w) (hslot : w.queue.sortedFiles[i]? = some none)
    (hfree : w.Free p i a) (xs : List ℤ) : Does disk fileNames p w (w.setArray a xs) := by
  refine ofArrays h (by simp) fun q j b hb hne => List.getElem?_set_ne ?_
  rintro rfl
  obtain ⟨rfl, rfl⟩ := hfree q j hb
  exact hne.elim (fun hset => hset hslot) fun hq => hq rfl

theorem starts (h : Orderly disk fileNames w) (ha : a < w.arrays.length)
    (hfree : ∀ q j, .starts q j a ∉ w.log) :
    Does disk fileNames p w (w.addRecord (.starts p i a)) where
  orderly := by
    have hmem : ∀ q j b, .starts q j b ∈ w.log ++ [.starts p i a] →
        .starts q j b ∈ w.log ∨ q = p ∧ j = i ∧ b = a := fun q j b hb => by
      rcases List.mem_append.mp hb with hb | hb
      · exact .inl hb
      · exact .inr (Record.starts.inj (List.mem_singleton.mp hb))
    refine ⟨h.names, h.count, h.slots, h.ptr, ?_, ?_, ?_, fun j data hj => ?_⟩
    · show (w.log ++ [Record.starts p i a]).filterMap Record.claimed = _
      rw [List.filterMap_append, h.claims]
      exact List.append_nil _
    · intro q j b hb
      rcases hmem q j b hb with hb | ⟨-, -, rfl⟩
      · exact h.started q j b hb
      · exact ha
    · intro q r j k b hq hr
      rcases hmem q j b hq with hq' | ⟨rfl, rfl, rfl⟩
      · rcases hmem r k b hr with hr' | ⟨-, -, rfl⟩
        · exact h.alone q r j k b hq' hr'
        · exact absurd hq' (hfree q j)
      · rcases hmem r k b hr with hr' | ⟨rfl, rfl, -⟩
        · exact absurd hr' (hfree r k)
        · exact ⟨rfl, rfl⟩
    · obtain ⟨q, hclaims, hstarts, hholds⟩ := h.sorted j data hj
      exact ⟨q, List.mem_append_left _ hclaims, List.mem_append_left _ hstarts, hholds.congr rfl⟩
  log := List.subset_append_left _ _
  others r hr hname := Record.mem_of_name_ne hr hname
  arrays _ _ _ _ _ := rfl
  slots _ _ := rfl
  ptr := le_rfl

theorem claims (h : Orderly disk fileNames w) (hlt : w.queue.filePtr < fileNames.length) :
    Does disk fileNames p w { w with
      queue := { w.queue with filePtr := w.queue.filePtr + 1 }
      log := w.log ++ [.claims p w.queue.filePtr] } where
  orderly := by
    have hmem : ∀ q j b, .starts q j b ∈ w.log ++ [.claims p w.queue.filePtr] → .starts q j b ∈ w.log :=
      fun q j b hb => (List.mem_append.mp hb).resolve_right fun hb => by
        cases List.mem_singleton.mp hb
    refine ⟨h.names, h.count, h.slots, hlt, ?_, fun q j b hb => h.started q j b (hmem q j b hb),
      fun q r j k b hq hr => h.alone q r j k b (hmem q j b hq) (hmem r k b hr), fun j data hj => ?_⟩
    · show (w.log ++ [Record.claims p w.queue.filePtr]).filterMap Record.claimed = _
      rw [List.filterMap_append, h.claims]
      exact List.range_succ.symm
    · obtain ⟨q, hclaims, hstarts, hholds⟩ := h.sorted j data hj
      exact ⟨q, List.mem_append_left _ hclaims, List.mem_append_left _ hstarts, hholds.congr rfl⟩
  log := List.subset_append_left _ _
  others r hr hname := Record.mem_of_name_ne hr hname
  arrays _ _ _ _ _ := rfl
  slots _ _ := rfl
  ptr := Nat.le_succ _

theorem setSlot (h : Orderly disk fileNames w) {data : SingleSortedFileData} (hclaims : .claims p i ∈ w.log)
    (hstarts : .starts p i data.sortedNumbers ∈ w.log) (hholds : w.Holds disk fileNames i data) :
    Does disk fileNames p w (w.setSlot i data) where
  orderly := by
    refine ⟨h.names, h.count, (List.length_set ..).trans h.slots, h.ptr, h.claims, h.started, h.alone,
      fun j data' hj => ?_⟩
    have hset : (w.queue.sortedFiles.set i (some data))[j]? = some (some data') := hj
    by_cases hji : i = j
    · subst hji
      have hlt : i < w.queue.sortedFiles.length := by
        have hlt := (List.getElem?_eq_some_iff.mp hset).1
        rwa [List.length_set] at hlt
      rw [List.getElem?_set_self hlt] at hset
      obtain rfl := Option.some.inj (Option.some.inj hset)
      exact ⟨p, hclaims, hstarts, hholds.congr rfl⟩
    · rw [List.getElem?_set_ne hji] at hset
      obtain ⟨q, hclaims, hstarts, hholds⟩ := h.sorted j data' hset
      exact ⟨q, hclaims, hstarts, hholds.congr rfl⟩
  log := List.Subset.refl _
  others _ hr _ := hr
  arrays _ _ _ _ _ := rfl
  slots j hj := List.getElem?_set_ne (by rintro rfl; exact hj hclaims)
  ptr := le_rfl

end Does

/-! ### Rely and guarantee -/

theorem compatible (disk : String → List ℤ) (fileNames : List String) :
    Compatible (Rely disk fileNames) (Guarantee disk fileNames) (Finished disk fileNames) where
  guarantee p q hne w w' h hw := by
    have hdoes := h hw
    exact {
      orderly := hdoes.orderly
      log := hdoes.log
      mine r hr hq := hdoes.others r hr (by rw [hq]; exact hne.symm)
      arrays i a ha := hdoes.arrays q i a hne.symm ha
      slots i hi := hdoes.slots i fun hp => hne (hw.claims_unique hp hi)
      ptr := hdoes.ptr }
  refl p w hw :=
    ⟨hw, List.Subset.refl _, fun _ hr _ => hr, fun _ _ _ => rfl, fun _ _ => rfl, le_rfl⟩
  trans p w w' w'' h h' hw := by
    have hk := h hw
    have hk' := h' hk.orderly
    exact {
      orderly := hk'.orderly
      log := List.Subset.trans hk.log hk'.log
      mine r hr hp := hk.mine r (hk'.mine r hr hp) hp
      arrays i a ha := (hk'.arrays i a (hk.log ha)).trans (hk.arrays i a ha)
      slots i hi := (hk'.slots i (hk.log hi)).trans (hk.slots i hi)
      ptr := hk.ptr.trans hk'.ptr }
  post p v w w' h hR := by
    have hk := hR h.orderly
    refine ⟨h.value, hk.orderly, h.ptr.trans hk.ptr, fun i hi => ?_⟩
    have hi' := hk.mine _ hi rfl
    obtain ⟨data, hdata⟩ := h.set i hi'
    exact ⟨data, (hk.slots i hi').trans hdata⟩

end SystemsProgramming.Sorting

import SystemsProgramming.UserFs.Table
import SystemsProgramming.UserFs.Release
import Mathlib.Data.List.InsertIdx

/-! The list of files: the search for a name, and a file that is taken out of the list. -/

namespace SystemsProgramming.UserFs

variable {fs : Fs} {l : Layout} {v : Volume}

/-- The walk along the rest of the list. -/
theorem Listed.find {directory rest : List (CString × ℕ)} {filename : CString}
    (h : Listed fs.files.load fs.names.load fs.fileList directory)
    (front : List (CString × ℕ)) (hsplit : directory = front ++ rest)
    {fuel : ℕ} (hfuel : rest.length < fuel) :
    iterate (fs.filenameStep filename) fuel (rest.map Prod.snd).head? =
      some ((rest.find? fun entry => entry.1 = filename).map Prod.snd) := by
  induction rest generalizing front fuel with
  | nil =>
    obtain ⟨fuel, rfl⟩ := Nat.exists_eq_succ_of_ne_zero (Nat.ne_of_gt hfuel)
    rfl
  | cons entry rest ih =>
    obtain ⟨fuel, rfl⟩ := Nat.exists_eq_succ_of_ne_zero (Nat.ne_of_gt (Nat.zero_lt_of_lt hfuel))
    obtain ⟨name, f⟩ := entry
    obtain ⟨file, hfile, hname, -⟩ := h.entry name f (by rw [hsplit]; simp)
    have hf : (directory.map Prod.snd)[front.length]? = some f := by
      rw [hsplit]
      simp
    obtain ⟨file', hfile', hnext, -⟩ := h.linked _ f hf
    obtain rfl := Option.some.inj (hfile.symm.trans hfile')
    have hrest : file.next = (rest.map Prod.snd).head? := by
      rw [hnext, hsplit, List.head?_eq_getElem?]
      simp [List.getElem?_append_right]
    have hih := ih (front ++ [(name, f)]) (by rw [hsplit]; simp)
      (Nat.lt_of_succ_lt_succ hfuel)
    rw [List.map_cons, List.head?_cons, iterate, Fs.filenameStep]
    simp only [hfile, hname, Option.bind_eq_bind, Option.bind_some, Option.pure_def]
    by_cases heq : name = filename
    · rw [if_pos heq, List.find?_cons_of_pos (by simp [heq])]
      rfl
    · rw [if_neg heq, List.find?_cons_of_neg (by simp [heq]), Option.bind_some, hrest]
      exact hih

theorem Listed.lookup {directory : List (CString × ℕ)}
    (h : Listed fs.files.load fs.names.load fs.fileList directory) (filename : CString) :
    fs.tryGetFileByFilename filename =
      some ((directory.find? fun entry => entry.1 = filename).map Prod.snd) := by
  have hlen := h.linked.length_le fun _ _ hp => Heap.lt_next hp
  rw [List.length_map] at hlen
  rw [Fs.tryGetFileByFilename, h.head, h.find [] rfl (Nat.lt_succ_of_le hlen)]

theorem Represents.lookup (hr : Represents fs l v) (filename : CString) :
    fs.tryGetFileByFilename filename = some (v.lookup filename) := hr.listed.lookup filename

theorem find_some {directory : List (CString × ℕ)} {filename : CString} {f : ℕ}
    (h : (directory.find? fun entry => entry.1 = filename).map Prod.snd = some f) :
    ∃ i, directory[i]? = some (filename, f) ∧
      (directory.eraseP fun entry => entry.1 = filename) = directory.eraseIdx i := by
  obtain ⟨⟨name, f'⟩, hfind, rfl⟩ := Option.map_eq_some_iff.mp h
  obtain ⟨hname, i, hlt, hi, hbefore⟩ := List.find?_eq_some_iff_getElem.mp hfind
  obtain rfl : name = filename := by simpa using hname
  refine ⟨i, List.getElem?_eq_some_iff.mpr ⟨hlt, hi⟩, ?_⟩
  have hindex : (directory.findIdx? fun entry => entry.1 = name) = some i := by
    rw [List.findIdx?_eq_some_iff_getElem]
    refine ⟨hlt, by rw [hi]; exact hname, fun j hj => ?_⟩
    have := hbefore j hj
    simpa using this
  rw [List.eraseP_eq_eraseIdx, hindex]

theorem Volume.lookup_some {filename : CString} {f : ℕ} (h : v.lookup filename = some f) :
    ∃ i, v.directory[i]? = some (filename, f) ∧
      (v.directory.eraseP fun entry => entry.1 = filename) = v.directory.eraseIdx i := find_some h

/-! ### A file leaves the list -/

/-- A link of another node, if there is one, is set. -/
def setLink (files : Heap File) (p : Option ℕ) (φ : File → File) : Heap File :=
  match p with
  | none => files
  | some p => files.update p φ

theorem load_setLink (files : Heap File) (p : Option ℕ) (φ : File → File) (q : ℕ) :
    (setLink files p φ).load q = (files.load q).map fun b => if p = some q then φ b else b := by
  cases p with
  | none => cases h : files.load q <;> simp [setLink, h]
  | some p =>
    rw [setLink, Heap.load_update]
    by_cases hqp : q = p
    · simp [hqp]
    · rw [if_neg hqp]
      cases h : files.load q with
      | none => rfl
      | some b => rw [Option.map_some, if_neg fun h => hqp (Option.some.inj h).symm]

theorem modifyFile_eq (fs : Fs) {f : ℕ} {file : File} (hfile : fs.files.load f = some file)
    (φ : File → File) : fs.modifyFile f φ = some { fs with files := fs.files.update f φ } := by
  rw [Fs.modifyFile, Heap.modify_eq hfile]
  rfl

/-- The files after one of them has been taken out of the list. -/
def unlinked (files : Heap File) (f : ℕ) (file : File) : Heap File :=
  (setLink (setLink files file.prev fun b => { b with next := file.next }) file.next
    fun b => { b with prev := file.prev }).update f fun b => { b with prev := none, next := none }

/-- The neighbours of a file in the list are there, and it is none of them. -/
structure Neighbours (files : ℕ → Option File) (f : ℕ) (file : File) : Prop where
  load : files f = some file
  prev : ∀ p, file.prev = some p → p ≠ f ∧ ∃ a, files p = some a
  next : ∀ p, file.next = some p → p ≠ f ∧ ∃ a, files p = some a

theorem disconnect_eq {fs : Fs} {f : ℕ} {file : File} (h : Neighbours fs.files.load f file) :
    fs.disconnectFileFromFileList f = some { fs with
      files := unlinked fs.files f file
      fileList := if fs.fileList = some f then file.next else fs.fileList } := by
  have hself : ∀ {files : Heap File} {p : ℕ} {φ : File → File} {a : File}, p ≠ f →
      files.load f = some a → (files.update p φ).load f = some a := fun hp hf =>
    (Heap.load_update_ne _ hp.symm).trans hf
  obtain ⟨fs₁, hfs₁⟩ : ∃ fs₁ : Fs, fs₁ = { fs with
    fileList := if fs.fileList = some f then file.next else fs.fileList } := ⟨_, rfl⟩
  have hhead : (if fs.fileList = some f then { fs with fileList := file.next } else fs) = fs₁ := by
    rw [hfs₁]
    split_ifs <;> rfl
  have hfinal : { fs with
      files := unlinked fs.files f file
      fileList := if fs.fileList = some f then file.next else fs.fileList } =
        { fs₁ with files := unlinked fs₁.files f file } := by rw [hfs₁]
  have h₁ : Neighbours fs₁.files.load f file := by rwa [hfs₁]
  rw [hfinal, Fs.disconnectFileFromFileList, h.load]
  simp only [Option.bind_eq_bind, Option.bind_some, hhead, unlinked]
  have hload := h₁.load
  cases hprev : file.prev with
  | none =>
    simp only [hload, Option.bind_some, setLink]
    cases hnext : file.next with
    | none => exact modifyFile_eq _ hload _
    | some q =>
      obtain ⟨hq, a, ha⟩ := h₁.next q hnext
      simp only [hprev]
      rw [modifyFile_eq _ ha, Option.bind_some]
      exact modifyFile_eq _ (hself hq hload) _
  | some p =>
    obtain ⟨hp, a, ha⟩ := h₁.prev p hprev
    dsimp only
    rw [modifyFile_eq _ ha, Option.bind_some]
    have hload' := hself (φ := fun b : File => { b with next := file.next }) hp hload
    simp only [hload', Option.bind_some, setLink]
    cases hnext : file.next with
    | none =>
      rw [hnext] at hload'
      exact modifyFile_eq _ hload' _
    | some q =>
      obtain ⟨hq, b, hb⟩ := h₁.next q hnext
      rw [hnext] at hload'
      obtain ⟨b', hb'⟩ : ∃ b', (fs₁.files.update p fun b => { b with next := some q }).load q =
          some b' := by
        rw [Heap.load_update, hb]
        split_ifs
        · exact ⟨_, rfl⟩
        · exact ⟨_, rfl⟩
      simp only [hprev]
      rw [modifyFile_eq _ hb', Option.bind_some]
      exact modifyFile_eq _ (hself hq hload') _

theorem load_unlinked {files : Heap File} {f q : ℕ} (file : File) (hq : q ≠ f) :
    (unlinked files f file).load q = (files.load q).map fun b => { b with
      next := if file.prev = some q then file.next else b.next
      prev := if file.next = some q then file.prev else b.prev } := by
  rw [unlinked, Heap.load_update_ne _ hq, load_setLink, load_setLink, Option.map_map]
  congr 1
  funext b
  simp only [Function.comp]
  split_ifs <;> rfl

theorem load_unlinked_self {files : Heap File} {f : ℕ} {file : File}
    (h : Neighbours files.load f file) : (unlinked files f file).load f =
      some { file with prev := none, next := none } := by
  have hprev : ¬file.prev = some f := fun heq => (h.prev f heq).1 rfl
  have hnext : ¬file.next = some f := fun heq => (h.next f heq).1 rfl
  rw [unlinked, Heap.load_update, if_pos rfl, load_setLink, load_setLink, h.load, Option.map_some,
    Option.map_some, Option.map_some, if_neg hprev, if_neg hnext]

section
variable {files : Heap File} {names : ℕ → Option CString} {fileList : Option ℕ}
  {directory : List (CString × ℕ)} {i f : ℕ} {s : CString}

theorem Listed.neighbours (h : Listed files.load names fileList directory)
    (hi : directory[i]? = some (s, f)) {file : File} (hfile : files.load f = some file) :
    Neighbours files.load f file := by
  have hf : (directory.map Prod.snd)[i]? = some f := by rw [List.getElem?_map, hi]; rfl
  refine ⟨hfile, fun p hp => ?_, fun p hp => ?_⟩
  · obtain ⟨hmem, hne⟩ := h.linked.prev_mem hf hfile hp
    exact ⟨hne, h.linked.exists_load hmem⟩
  · obtain ⟨hmem, hne⟩ := h.linked.next_mem hf hfile hp
    exact ⟨hne, h.linked.exists_load hmem⟩

theorem next_setLink (files : Heap File) (p : Option ℕ) (φ : File → File) :
    (setLink files p φ).next = files.next := by cases p <;> rfl

theorem next_unlinked (files : Heap File) (f : ℕ) (file : File) :
    (unlinked files f file).next = files.next := by
  rw [unlinked, Heap.next_update, next_setLink, next_setLink]

theorem sameFiles_setLink {β : Type*} {g : File → β} (files : Heap File) (p : Option ℕ)
    {φ : File → File} (hφ : ∀ b, g (φ b) = g b) :
    SameFiles g files.load (setLink files p φ).load := by
  cases p with
  | none => exact fun _ => rfl
  | some p => exact sameFiles_update files p hφ

/-- What is not about the links of a file stays as it is. -/
theorem sameFiles_unlinked {β : Type*} {g : File → β} (file : File)
    (hg : ∀ b next prev, g { b with next := next, prev := prev } = g b) :
    SameFiles g files.load (unlinked files f file).load :=
  ((sameFiles_setLink files file.prev fun b => hg b file.next b.prev).trans
    (sameFiles_setLink _ file.next fun b => hg b b.next file.prev)).trans
      (sameFiles_update _ f fun b => hg b none none)

/-- A file is in the list once. -/
theorem Listed.ne_of_mem_eraseIdx (h : Listed files.load names fileList directory)
    (hi : directory[i]? = some (s, f)) {g : ℕ} (hg : g ∈ (directory.eraseIdx i).map Prod.snd) :
    g ≠ f := by
  rw [← List.eraseIdx_map] at hg
  obtain ⟨j, hji, hj⟩ := List.mem_eraseIdx_iff_getElem?.mp hg
  rintro rfl
  exact hji (h.linked.index_eq hj (by rw [List.getElem?_map, hi]; rfl))

/-- A file that is taken out of the list is marked. -/
theorem Listed.unlink (h : Listed files.load names fileList directory)
    (hi : directory[i]? = some (s, f)) {file : File} (hfile : files.load f = some file) :
    Listed ((unlinked files f file).update f fun b => { b with markedForDeletion := true }).load
      names (if fileList = some f then file.next else fileList) (directory.eraseIdx i) := by
  have hf : (directory.map Prod.snd)[i]? = some f := by rw [List.getElem?_map, hi]; rfl
  have hself : ((unlinked files f file).update f fun b => { b with markedForDeletion := true }).load
      f = some { file with prev := none, next := none, markedForDeletion := true } :=
    Heap.load_update_self (load_unlinked_self (h.neighbours hi hfile)) _
  have hother : ∀ {q b}, q ≠ f → files.load q = some b →
      ((unlinked files f file).update f fun b => { b with markedForDeletion := true }).load q =
        some { b with
          next := if file.prev = some q then file.next else b.next
          prev := if file.next = some q then file.prev else b.prev } := fun hq hb => by
    rw [Heap.load_update_ne _ hq, load_unlinked file hq, hb]
    rfl
  have hname : SameFiles File.name files.load
      ((unlinked files f file).update f fun b => { b with markedForDeletion := true }).load :=
    (sameFiles_unlinked file fun _ _ _ => rfl).trans (sameFiles_update _ f fun _ => rfl)
  constructor
  · rw [h.head, ← List.eraseIdx_map, h.linked.head?_eraseIdx hf hfile]
  · rw [← List.eraseIdx_map]
    refine h.linked.eraseIdx hf hfile fun q hq hne b hb => ⟨_, hother hne hb, ?_, ?_⟩
    · obtain ⟨j, hj⟩ := List.mem_iff_getElem?.mp hq
      have hiff := h.linked.next_iff hf hj hfile hb
      by_cases hprev : file.prev = some q
      · rw [if_pos (hiff.mpr hprev), if_pos hprev]
      · rw [if_neg fun hnext => hprev (hiff.mp hnext), if_neg hprev]
    · obtain ⟨j, hj⟩ := List.mem_iff_getElem?.mp hq
      have hiff := h.linked.next_iff hj hf hb hfile
      by_cases hnext : file.next = some q
      · rw [if_pos (hiff.mp hnext), if_pos hnext]
      · rw [if_neg fun hprev => hnext (hiff.mpr hprev), if_neg hnext]
  · intro t g hmem
    obtain ⟨b, hb, hbname, hbmarked⟩ := h.entry t g (List.mem_of_mem_eraseIdx hmem)
    have hne := h.ne_of_mem_eraseIdx hi (List.mem_map_of_mem hmem)
    exact ⟨_, hother hne hb, hbname, hbmarked⟩
  · intro g b hg hnot
    by_cases hne : g = f
    · subst hne
      obtain rfl := Option.some.inj (hself.symm.trans hg)
      exact ⟨rfl, rfl, rfl⟩
    · obtain ⟨b₀, hb₀, -⟩ := hname.symm_some hg
      obtain rfl := Option.some.inj ((hother hne hb₀).symm.trans hg)
      have hnot' : g ∉ directory.map Prod.snd := fun hmem => by
        obtain ⟨j, hj⟩ := List.mem_iff_getElem?.mp hmem
        refine hnot (List.eraseIdx_map .. ▸ List.mem_eraseIdx_iff_getElem?.mpr ⟨j, ?_, hj⟩)
        rintro rfl
        exact hne (Option.some.inj (hj.symm.trans hf))
      obtain ⟨hnext, hprev, hmarked⟩ := h.hidden g b₀ hb₀ hnot'
      have hnotnext : ¬file.next = some g := fun heq => hnot' (h.linked.next_mem hf hfile heq).1
      have hnotprev : ¬file.prev = some g := fun heq => hnot' (h.linked.prev_mem hf hfile heq).1
      rw [if_neg hnotnext, if_neg hnotprev]
      exact ⟨hnext, hprev, hmarked⟩
  · exact (h.names_of_same hname).1
  · exact (h.names_of_same hname).2.1
  · exact (h.names_of_same hname).2.2

/-- A file outside the list is released with its name. -/
theorem Listed.forget {names : Heap CString} (h : Listed files.load names.load fileList directory)
    {file : File} (hfile : files.load f = some file) (hnot : f ∉ directory.map Prod.snd) :
    Listed (files.erase f).load (names.erase file.name).load fileList directory := by
  have hother : ∀ {g b}, g ≠ f → files.load g = some b →
      (names.erase file.name).load b.name = names.load b.name := fun hg hb =>
    Heap.load_erase_ne fun heq => hg (h.name_unique _ f _ file hb hfile heq)
  have hlisted : ∀ {t g}, (t, g) ∈ directory → g ≠ f := by
    rintro t g hmem rfl
    exact hnot (List.mem_map_of_mem hmem)
  constructor
  · exact h.head
  · refine h.linked.congr fun g hg b hb => ⟨b, ?_, rfl, rfl⟩
    refine (Heap.load_erase_ne ?_).trans hb
    rintro rfl
    exact hnot hg
  · intro t g hmem
    obtain ⟨b, hb, hname, hmarked⟩ := h.entry t g hmem
    exact ⟨b, (Heap.load_erase_ne (hlisted hmem)).trans hb, (hother (hlisted hmem) hb).trans hname,
      hmarked⟩
  · intro g b hg
    exact h.hidden g b (Heap.of_load_erase hg).2
  · intro g b hg
    obtain ⟨hne, hb⟩ := Heap.of_load_erase hg
    rw [hother hne hb]
    exact h.named g b hb
  · intro g g' b b' hg hg' heq
    exact h.name_unique g g' b b' (Heap.of_load_erase hg).2 (Heap.of_load_erase hg').2 heq
  · intro n t hn
    obtain ⟨hne, hn'⟩ := Heap.of_load_erase hn
    obtain ⟨g, b, hb, rfl⟩ := h.name_owned n t hn'
    refine ⟨g, b, (Heap.load_erase_ne ?_).trans hb, rfl⟩
    rintro rfl
    exact hne (congrArg File.name (Option.some.inj (hb.symm.trans hfile)))

end

end SystemsProgramming.UserFs

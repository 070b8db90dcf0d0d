import SystemsProgramming.Shell.OpenFiles

/-! What the children of a line in the foreground inherit. The calls of the shell keep a household in order:
what is open of the line, which children there are, and which pipes nobody reads yet. Its state before a
`fork` says what the table of the shell is like there, and so what the child finds in its copy of it. -/

namespace SystemsProgramming.Shell

open Eval

/-! ### The household -/

def Object.IsWriteEnd : Object → Bool
  | .pipe (.writeEnd _) => true
  | _ => false

/-- The end in `last_pipe_end`. -/
def readEnds (lastPipeEnd : Option ℕ) : List Object := lastPipeEnd.toList.map fun j => .pipe (.readEnd j)

structure Household where
  /-- What is open besides the standard streams. -/
  held : List Object
  children : List ℕ
  /-- The pipes that no child has for its stdin, and that the shell has not copied. -/
  unread : List ℕ
  unwaited : List ℕ
  /-- The pipe that each child has for its stdin, if it is not the stdin of the shell. -/
  wiring : ℕ → Option ℕ

namespace Household

def empty : Household := ⟨[], [], [], [], fun _ => none⟩

/-- What a call makes of the household, if it may stand there. A child is forked with the ends of its own
pipe open, and the one that it is to read from; nothing is copied while the shell could write to a pipe,
and no child is waited for while it has one open. -/
def step (h : Household) : Call → Option Household
  | .pipe i =>
    if i ∉ h.children ∧ .pipe (.readEnd i) ∉ h.held ∧ .pipe (.writeEnd i) ∉ h.held then
      some { h with held := .pipe (.writeEnd i) :: .pipe (.readEnd i) :: h.held, unread := i :: h.unread }
    else none
  | .fork i _ stdin =>
    if i ∉ h.children ∧ h.held = .pipe (.writeEnd i) :: .pipe (.readEnd i) :: readEnds stdin ∧
        ∀ j ∈ stdin, j ∈ h.unread ∧ j ∈ h.children ∧ j < i then
      some { h with
        children := i :: h.children, unwaited := i :: h.unwaited
        unread := h.unread.filter fun j => some j ≠ stdin
        wiring := Function.update h.wiring i stdin }
    else none
  | .copy i _ =>
    if i ∈ h.unread ∧ i ∈ h.children ∧ .pipe (.readEnd i) ∈ h.held ∧ ∀ x ∈ h.held, x.IsWriteEnd = false then
      some { h with unread := h.unread.filter fun j => j ≠ i }
    else none
  | .close fd => if .pipe fd ∈ h.held then some { h with held := h.held.erase (.pipe fd) } else none
  | .fopen name _ => if .file name ∉ h.held then some { h with held := .file name :: h.held } else none
  | .fclose name => if .file name ∈ h.held then some { h with held := h.held.erase (.file name) } else none
  | .waitpid i =>
    if i ∈ h.children ∧ h.held = [] then some { h with unwaited := h.unwaited.filter fun j => j ≠ i } else none
  | .fcloseStdin => none

/-- The calls keep the household in order. -/
def Keeps (h : Household) (cs : List Call) (h' : Household) : Prop := cs.foldlM step h = some h'

variable {h h' h'' : Household} {cs ds : List Call} {c : Call}

theorem Keeps.append (hc : h.Keeps cs h') (hd : h'.Keeps ds h'') : h.Keeps (cs ++ ds) h'' := by
  rw [Keeps, List.foldlM_append, hc]
  exact hd

theorem step_copy {i : ℕ} {dest : Dest} (hunread : i ∈ h.unread) (hchild : i ∈ h.children)
    (hheld : .pipe (.readEnd i) ∈ h.held) (hends : ∀ x ∈ h.held, x.IsWriteEnd = false) :
    h.step (.copy i dest) = some { h with unread := h.unread.filter fun j => j ≠ i } :=
  if_pos ⟨hunread, hchild, hheld, hends⟩

theorem keeps_cons_iff : h.Keeps (c :: cs) h'' ↔ ∃ h', h.step c = some h' ∧ h'.Keeps cs h'' := by
  rw [Keeps, List.foldlM_cons]
  exact Option.bind_eq_some_iff

theorem keeps_append_iff : h.Keeps (cs ++ ds) h'' ↔ ∃ h', h.Keeps cs h' ∧ h'.Keeps ds h'' := by
  rw [Keeps, List.foldlM_append]
  exact Option.bind_eq_some_iff

end Household

/-! ### The table of the shell -/

def Object.IsStandard : Object → Bool
  | .stdin => true
  | .stdout => true
  | .stderr => true
  | _ => false

/-- The table has the standard streams under their numbers and the objects held, each of them once. -/
structure Inventory (t : FdTable) (held : List Object) : Prop where
  stdin : t[0]? = some (some .stdin)
  stdout : t[1]? = some (some .stdout)
  stderr : t[2]? = some (some .stderr)
  present : ∀ x ∈ held, some x ∈ t
  known : ∀ {n : ℕ} {x : Object}, t[n]? = some (some x) → x ∈ held ∨ x.IsStandard = true
  once : ∀ {n m : ℕ} {x : Object}, t[n]? = some (some x) → t[m]? = some (some x) → n = m
  apart : ∀ x ∈ held, x.IsStandard = false
  nodup : held.Nodup

namespace Inventory

variable {t : FdTable} {held : List Object} {x : Object} {n : ℕ}

theorem start : Inventory standardTable [] where
  stdin := rfl
  stdout := rfl
  stderr := rfl
  present _ hx := nomatch hx
  known {n x} h := by
    have hx : some x ∈ standardTable := List.mem_of_getElem? h
    right
    simp only [standardTable, List.mem_cons, Option.some.injEq, List.not_mem_nil, or_false] at hx
    rcases hx with rfl | rfl | rfl <;> rfl
  once {n m x} hn hm := by
    have hnodup : standardTable.Nodup := by decide
    exact (List.getElem?_inj (List.getElem?_eq_some_iff.mp hn).1 hnodup).mp (hn.trans hm.symm)
  apart _ hx := nomatch hx
  nodup := .nil

theorem mem_iff (h : Inventory t held) (hx : x.IsStandard = false) : some x ∈ t ↔ x ∈ held := by
  refine ⟨fun hmem => ?_, h.present x⟩
  obtain ⟨n, hn⟩ := List.mem_iff_getElem?.mp hmem
  exact (h.known hn).resolve_right (by simp [hx])

theorem place (h : Inventory t held) (hheld : x ∉ held) (hx : x.IsStandard = false) :
    Inventory (place t x) (x :: held) where
  stdin := getElem?_place_of_some h.stdin x
  stdout := getElem?_place_of_some h.stdout x
  stderr := getElem?_place_of_some h.stderr x
  present y hy := by
    rcases List.mem_cons.mp hy with rfl | hy
    · exact List.mem_of_getElem? (i := freeSlot t) (by rw [getElem?_place, if_pos rfl])
    · obtain ⟨n, hn⟩ := List.mem_iff_getElem?.mp (h.present y hy)
      exact List.mem_of_getElem? (getElem?_place_of_some hn x)
  known {n y} hy := by
    rw [getElem?_place] at hy
    split_ifs at hy
    · obtain rfl : x = y := by simpa using hy
      exact .inl List.mem_cons_self
    · exact (h.known hy).imp_left (List.mem_cons_of_mem x)
  once {n m y} hn hm := by
    have hnew : ∀ {k : ℕ}, t[k]? ≠ some (some x) := fun hk =>
      hheld ((h.known hk).resolve_right (by simp [hx]))
    rw [getElem?_place] at hn hm
    split_ifs at hn hm with hn' hm' hm'
    · rw [hn', hm']
    · obtain rfl : x = y := by simpa using hn
      exact absurd hm hnew
    · obtain rfl : x = y := by simpa using hm
      exact absurd hn hnew
    · exact h.once hn hm
  apart y hy := by
    rcases List.mem_cons.mp hy with rfl | hy
    · exact hx
    · exact h.apart y hy
  nodup := List.nodup_cons.mpr ⟨hheld, h.nodup⟩

/-- What is held has a number above those of the standard streams. -/
theorem number (h : Inventory t held) (hx : x ∈ held) :
    ∃ n, number x t = some n ∧ t[n]? = some (some x) ∧ 2 < n := by
  obtain ⟨n, hn⟩ := number_of_mem (h.present x hx)
  have hget := number_eq hn
  refine ⟨n, hn, hget, ?_⟩
  have hstandard := h.apart x hx
  by_contra hle
  have hcases : n = 0 ∨ n = 1 ∨ n = 2 := by omega
  rcases hcases with rfl | rfl | rfl
  · rw [h.stdin] at hget
    cases hget
    cases hstandard
  · rw [h.stdout] at hget
    cases hget
    cases hstandard
  · rw [h.stderr] at hget
    cases hget
    cases hstandard

theorem close (h : Inventory t held) (hx : x ∈ held) :
    Inventory (closeNumber (SystemsProgramming.Shell.number x t) t) (held.erase x) := by
  obtain ⟨n, hn, hget, hlt⟩ := h.number hx
  rw [hn, closeNumber]
  have hother : ∀ {m : ℕ}, n ≠ m → (t.set n none)[m]? = t[m]? := fun hne => List.getElem?_set_ne hne
  have hself : ∀ {y : Object}, (t.set n none)[n]? ≠ some (some y) := by
    intro y hy
    rw [List.getElem?_set_self (List.getElem?_eq_some_iff.mp hget).1] at hy
    cases hy
  constructor
  · rw [hother (by omega), h.stdin]
  · rw [hother (by omega), h.stdout]
  · rw [hother (by omega), h.stderr]
  · intro y hy
    obtain ⟨hne, hy⟩ := h.nodup.mem_erase_iff.mp hy
    obtain ⟨m, hm⟩ := List.mem_iff_getElem?.mp (h.present y hy)
    refine List.mem_of_getElem? (i := m) ((hother ?_).trans hm)
    rintro rfl
    exact hne (Option.some.inj (Option.some.inj (hm.symm.trans hget)))
  · intro m y hm
    by_cases hnm : n = m
    · subst hnm
      exact absurd hm hself
    · rw [hother hnm] at hm
      refine (h.known hm).imp_left fun hy => (List.mem_erase_of_ne ?_).mpr hy
      rintro rfl
      exact hnm (h.once hget hm)
  · intro m k y hm hk
    by_cases hnm : n = m
    · subst hnm
      exact absurd hm hself
    by_cases hnk : n = k
    · subst hnk
      exact absurd hk hself
    · rw [hother hnm] at hm
      rw [hother hnk] at hk
      exact h.once hm hk
  · exact fun y hy => h.apart y (List.mem_of_mem_erase hy)
  · exact h.nodup.erase x

end Inventory

/-- What a call makes of the household it makes of the table. -/
theorem Inventory.act {t : FdTable} {h h' : Household} {c : Call} (ht : Inventory t h.held)
    (hc : h.step c = some h') : Inventory (c.act t) h'.held := by
  cases c with
  | pipe i =>
    rw [Household.step] at hc
    split_ifs at hc with hfresh
    obtain rfl := Option.some.inj hc
    exact (ht.place hfresh.2.1 rfl).place (by simp [hfresh.2.2]) rfl
  | fork i c stdin =>
    rw [Household.step] at hc
    split_ifs at hc
    obtain rfl := Option.some.inj hc
    exact ht
  | copy i dest =>
    rw [Household.step] at hc
    split_ifs at hc
    obtain rfl := Option.some.inj hc
    exact ht
  | close fd =>
    rw [Household.step] at hc
    split_ifs at hc with hmem
    obtain rfl := Option.some.inj hc
    exact ht.close hmem
  | fopen name overwrite =>
    rw [Household.step] at hc
    split_ifs at hc with hfresh
    obtain rfl := Option.some.inj hc
    exact ht.place hfresh rfl
  | fclose name =>
    rw [Household.step] at hc
    split_ifs at hc with hmem
    obtain rfl := Option.some.inj hc
    exact ht.close hmem
  | waitpid i =>
    rw [Household.step] at hc
    split_ifs at hc
    obtain rfl := Option.some.inj hc
    exact ht
  | fcloseStdin => cases hc

theorem Inventory.tableAfter {t : FdTable} {h h' : Household} {cs : List Call}
    (ht : Inventory t h.held) (hcs : h.Keeps cs h') : Inventory (tableAfter t cs) h'.held := by
  induction cs generalizing t h with
  | nil =>
    obtain rfl := Option.some.inj hcs
    exact ht
  | cons c cs ih =>
    obtain ⟨h₁, hc, hcs⟩ := Household.keeps_cons_iff.mp hcs
    exact ih (ht.act hc) hcs

/-! ### The table of a child -/

/-- What is behind a number. -/
def FdTable.object (t : FdTable) (n : ℕ) : Option Object := t[n]?.join

/-- The objects of the child for the command at `i`, by their numbers. -/
def childObjects (i : ℕ) (stdin : Option ℕ) : ℕ → Option Object
  | 0 => some (stdin.elim .stdin fun j => .pipe (.readEnd j))
  | 1 => some (.pipe (.writeEnd i))
  | 2 => some .stderr
  | _ => none

section
variable {t : FdTable} {held : List Object} {x : Object} {n m k : ℕ}

theorem object_eq_some_iff : t.object n = some x ↔ t[n]? = some (some x) := Option.join_eq_some_iff

theorem object_closeNumber (hn : n < t.length) :
    FdTable.object (closeNumber (some n) t) k = if k = n then none else t.object k := by
  rw [closeNumber, FdTable.object, FdTable.object]
  split_ifs with hk
  · rw [hk, List.getElem?_set_self hn]
    rfl
  · rw [List.getElem?_set_ne (Ne.symm hk)]

theorem object_dup2 (hm : m < t.length) :
    FdTable.object (dup2 (some n) m t) k = if k = m then t.object n else t.object k := by
  rw [dup2, FdTable.object, FdTable.object, FdTable.object]
  split_ifs with hk
  · rw [hk, List.getElem?_set_self hm]
    rfl
  · rw [List.getElem?_set_ne (Ne.symm hk)]

@[simp] theorem length_closeNumber (o : Option ℕ) (t : FdTable) :
    (closeNumber o t).length = t.length := by cases o <;> simp [closeNumber]

@[simp] theorem length_dup2 (o : Option ℕ) (m : ℕ) (t : FdTable) : (dup2 o m t).length = t.length := by
  cases o <;> simp [dup2]

/-- Only what is held has a number above those of the standard streams. -/
theorem Inventory.held_of_object (h : Inventory t held) (hk : 2 < k) (hx : t.object k = some x) :
    x ∈ held := by
  rw [object_eq_some_iff] at hx
  refine (h.known hx).resolve_right fun hstandard => ?_
  cases x with
  | stdin => exact absurd (h.once hx h.stdin) (by omega)
  | stdout => exact absurd (h.once hx h.stdout) (by omega)
  | stderr => exact absurd (h.once hx h.stderr) (by omega)
  | pipe fd => cases hstandard
  | file name => cases hstandard

/-- The objects that are held are behind these numbers. -/
theorem Inventory.object_eq_none (h : Inventory t held) (hk : 2 < k)
    (hheld : ∀ x ∈ held, ∀ n, t.object n = some x → k ≠ n) : t.object k = none := by
  cases hx : t.object k with
  | none => rfl
  | some x => exact absurd rfl (hheld x (h.held_of_object hk hx) k hx)

/-- The pipe that the child takes for its stdin is behind that number, and no more behind its own. -/
theorem Inventory.object_takeStdin (h : Inventory t held) (stdin : Option ℕ)
    (hstdin : ∀ x ∈ readEnds stdin, x ∈ held) (k : ℕ) : (takeStdin stdin t).object k =
      if k = 0 then some (stdin.elim .stdin fun j => .pipe (.readEnd j))
      else if ∃ x ∈ readEnds stdin, t.object k = some x then none else t.object k := by
  cases stdin with
  | none =>
    simp only [takeStdin, readEnds, Option.toList_none, List.map_nil, List.not_mem_nil, false_and,
      exists_false, if_false]
    split_ifs with hk
    · rw [hk]
      exact object_eq_some_iff.mpr h.stdin
    · rfl
  | some j =>
    obtain ⟨n, hn, hnget, hn2⟩ := h.number (hstdin (.pipe (.readEnd j)) (by simp [readEnds]))
    have hnlt := (List.getElem?_eq_some_iff.mp hnget).1
    have hnobject := object_eq_some_iff.mpr hnget
    have hiff : (∃ x ∈ readEnds (some j), t.object k = some x) ↔ k = n := by
      simp only [readEnds, Option.toList_some, List.map_cons, List.map_nil, List.mem_singleton,
        exists_eq_left]
      exact ⟨fun hk => h.once (object_eq_some_iff.mp hk) hnget, fun hk => hk ▸ hnobject⟩
    simp only [takeStdin, hn, hiff]
    rw [object_closeNumber (by simpa), object_dup2 (by omega), hnobject]
    split_ifs with hkn hk
    · omega
    · rfl
    · rfl
    · rfl

/-- The child has its stdin, its stdout and its stderr, and nothing else. -/
theorem Inventory.object_childTable {i : ℕ} {stdin : Option ℕ} (h : Inventory t
    (.pipe (.writeEnd i) :: .pipe (.readEnd i) :: readEnds stdin)) (k : ℕ) :
    (childTable i stdin t).object k = childObjects i stdin k := by
  obtain ⟨w, hw, hwget, hw2⟩ := h.number (x := .pipe (.writeEnd i)) (by simp)
  obtain ⟨r, hr, hrget, hr2⟩ := h.number (x := .pipe (.readEnd i)) (by simp)
  have hwlt := (List.getElem?_eq_some_iff.mp hwget).1
  have hrlt := (List.getElem?_eq_some_iff.mp hrget).1
  have hwobject := object_eq_some_iff.mpr hwget
  have htake := h.object_takeStdin stdin fun x hx => by simp [hx]
  have hlength : (takeStdin stdin t).length = t.length := by
    cases stdin <;> simp [takeStdin]
  have hreads : ∀ {n x}, t.object n = some x → n = 2 ∨ n = w → x ∉ readEnds stdin := by
    rintro n x hn (rfl | rfl) hx
    · obtain rfl := Option.some.inj ((object_eq_some_iff.mpr h.stderr).symm.trans hn)
      simp [readEnds] at hx
    · obtain rfl := Option.some.inj (hwobject.symm.trans hn)
      simp [readEnds] at hx
  have hwtake : (takeStdin stdin t).object w = some (.pipe (.writeEnd i)) := by
    have hread : ¬∃ x ∈ readEnds stdin, t.object w = some x := by
      rintro ⟨x, hx, hwx⟩
      exact hreads hwx (.inr rfl) hx
    rw [htake, if_neg (by omega), if_neg hread, hwobject]
  simp only [childTable, hw, hr]
  rw [object_closeNumber (by simp [hlength, hrlt]), object_closeNumber (by simp [hlength, hwlt]),
    object_dup2 (by omega), hwtake, htake]
  rcases k with _ | _ | _ | k
  · simp [childObjects, show (0 : ℕ) ≠ r by omega, show (0 : ℕ) ≠ w by omega]
  · simp [childObjects, show (1 : ℕ) ≠ r by omega, show (1 : ℕ) ≠ w by omega]
  · have herr := object_eq_some_iff.mpr h.stderr
    have hread : ¬∃ x ∈ readEnds stdin, t.object 2 = some x := by
      rintro ⟨x, hx, h2⟩
      exact hreads h2 (.inl rfl) hx
    rw [if_neg (by omega), if_neg (by omega), if_neg (by omega), if_neg (by omega), if_neg hread, herr,
      childObjects]
  · simp only [childObjects, show k + 1 + 1 + 1 ≠ 1 by omega, show k + 1 + 1 + 1 ≠ 0 by omega, if_false]
    split_ifs with hkr hkw hread
    · rfl
    · rfl
    · rfl
    · refine h.object_eq_none (by omega) fun x hx n hn hkn => ?_
      subst hkn
      simp only [List.mem_cons] at hx
      rcases hx with rfl | rfl | hx
      · exact hkw (h.once (object_eq_some_iff.mp hn) hwget)
      · exact hkr (h.once (object_eq_some_iff.mp hn) hrget)
      · exact hread ⟨x, hx, hn⟩

end

/-! ### The calls of a line -/

/-- After the fork of the command at `i`, with the read end of its pipe. -/
def Household.fork (i : ℕ) (stdin : Option ℕ) (h : Household) : Household where
  held := .pipe (.readEnd i) :: readEnds stdin
  children := i :: h.children
  unread := (i :: h.unread).filter fun j => some j ≠ stdin
  unwaited := i :: h.unwaited
  wiring := Function.update h.wiring i stdin

/-- The household at the top of the loop. -/
structure Orderly (σ : Eval) (h : Household) : Prop where
  keeps : Household.empty.Keeps σ.calls h
  held : h.held = readEnds σ.lastPipeEnd
  below : ∀ k ∈ h.children, k < σ.commandArrayPtr
  pipe : ∀ j, σ.lastPipeEnd = some j → j ∈ h.unread ∧ j ∈ h.children
  pid : ∀ k, σ.lastChildPid = some k → k ∈ h.children
  unwaited : ∀ k ∈ h.unwaited, k ∈ σ.childrenToWaitFor
  waits : ∀ k ∈ σ.childrenToWaitFor, k ∈ h.children

/-- The household when the loop has been left. -/
structure Closing (σ : Eval) (h : Household) : Prop where
  keeps : Household.empty.Keeps σ.calls h
  held : h.held = readEnds σ.lastPipeEnd
  unwaited : ∀ k ∈ h.unwaited, k ∈ σ.childrenToWaitFor
  waits : ∀ k ∈ σ.childrenToWaitFor, k ∈ h.children

theorem mem_readEnds {x : Object} {o : Option ℕ} :
    x ∈ readEnds o ↔ ∃ j, o = some j ∧ x = .pipe (.readEnd j) := by
  cases o <;> simp [readEnds]

namespace Orderly

variable {env : Env} {cs : List Command} {n m : ℕ} {σ τ : Eval} {h : Household}

theorem start (e : ℤ) : Orderly (start e) .empty :=
  ⟨rfl, rfl, nofun, nofun, nofun, nofun, nofun⟩

theorem closing (h' : Orderly σ h) : Closing σ h := ⟨h'.keeps, h'.held, h'.unwaited, h'.waits⟩

/-- A change that concerns neither pipes nor children. -/
theorem congr (h' : Orderly σ h) (hcalls : τ.calls = σ.calls) (hend : τ.lastPipeEnd = σ.lastPipeEnd)
    (hpid : τ.lastChildPid = σ.lastChildPid) (hchildren : τ.childrenToWaitFor = σ.childrenToWaitFor)
    (hptr : σ.commandArrayPtr ≤ τ.commandArrayPtr) : Orderly τ h where
  keeps := hcalls ▸ h'.keeps
  held := hend ▸ h'.held
  below k hk := Nat.lt_of_lt_of_le (h'.below k hk) hptr
  pipe j hj := h'.pipe j (hend ▸ hj)
  pid k hk := h'.pid k (hpid ▸ hk)
  unwaited := hchildren ▸ h'.unwaited
  waits := hchildren ▸ h'.waits

theorem finish (h' : Orderly σ h) (hτ : τ = σ ∨ σ.finishPipeline env = some τ) : ∃ h₁, Orderly τ h₁ := by
  rcases hτ with rfl | hτ
  · exact ⟨h, h'⟩
  rcases finishPipeline_cases hτ with ⟨-, rfl⟩ | ⟨j, pid, code, hend, hpid, rfl⟩
  · exact ⟨h, h'⟩
  · obtain ⟨hunread, hchild⟩ := h'.pipe j hend
    have hheld : h.held = [.pipe (.readEnd j)] := by rw [h'.held, hend]; rfl
    refine ⟨{ h with
      held := [], unread := h.unread.filter fun k => k ≠ j
      unwaited := h.unwaited.filter fun k => k ≠ pid }, h'.keeps.append ?_, rfl, h'.below,
        nofun, h'.pid, fun k hk => h'.unwaited k (List.mem_filter.mp hk).1, h'.waits⟩
    simp [Household.Keeps, Household.step, hunread, hchild, hheld, h'.pid pid hpid, Object.IsWriteEnd]

theorem keeps_forkCalls (h' : Orderly σ h) (c : Command) :
    h.Keeps (σ.forkCalls c) (h.fork σ.commandArrayPtr σ.lastPipeEnd) := by
  have hfresh : σ.commandArrayPtr ∉ h.children := fun hmem => Nat.lt_irrefl _ (h'.below _ hmem)
  have hread : .pipe (.readEnd σ.commandArrayPtr) ∉ readEnds σ.lastPipeEnd := fun hmem => by
    obtain ⟨j, hj, heq⟩ := mem_readEnds.mp hmem
    have hne : σ.commandArrayPtr = j := by simpa using heq
    exact hfresh (hne ▸ (h'.pipe j hj).2)
  have hwrite : .pipe (.writeEnd σ.commandArrayPtr) ∉ readEnds σ.lastPipeEnd := fun hmem => by
    obtain ⟨j, -, heq⟩ := mem_readEnds.mp hmem
    cases heq
  have hstdin : ∀ j ∈ σ.lastPipeEnd, (j = σ.commandArrayPtr ∨ j ∈ h.unread) ∧ j ∈ h.children ∧
      j < σ.commandArrayPtr := fun j hj =>
    ⟨.inr (h'.pipe j hj).1, (h'.pipe j hj).2, h'.below j (h'.pipe j hj).2⟩
  simp only [Household.Keeps, Eval.forkCalls, List.foldlM_cons, List.foldlM_nil, Household.step, h'.held,
    Option.bind_eq_bind, Option.pure_def]
  rw [if_pos ⟨hfresh, hread, hwrite⟩, Option.bind_some, if_pos ⟨hfresh, rfl, by simpa using hstdin⟩,
    Option.bind_some, if_pos List.mem_cons_self, Option.bind_some, List.erase_cons_head]
  rfl

theorem fork (h' : Orderly σ h) (c : Command) : ∃ h₁, Orderly (σ.fork c) h₁ := by
  have hptr : (σ.fork c).commandArrayPtr = σ.commandArrayPtr + 1 := rfl
  have hne : ∀ j, σ.lastPipeEnd = some j → j ≠ σ.commandArrayPtr := fun j hj =>
    Nat.ne_of_lt (h'.below j (h'.pipe j hj).2)
  refine ⟨{ h.fork σ.commandArrayPtr σ.lastPipeEnd with held := [.pipe (.readEnd σ.commandArrayPtr)] },
    (h'.keeps.append (h'.keeps_forkCalls c)).append ?_, rfl, ?_, ?_, ?_, ?_, ?_⟩
  · cases hend : σ.lastPipeEnd with
    | none => rfl
    | some j =>
      have hj := hne j hend
      simp [Household.Keeps, Household.step, Household.fork, readEnds, Ne.symm hj]
  · intro k hk
    rw [hptr]
    rcases List.mem_cons.mp hk with rfl | hk
    · exact Nat.lt_succ_self _
    · exact Nat.lt_succ_of_lt (h'.below k hk)
  · rintro j hj
    obtain rfl := Option.some.inj hj
    refine ⟨List.mem_filter.mpr ⟨List.mem_cons_self, ?_⟩, List.mem_cons_self⟩
    simpa using fun heq => hne _ heq.symm rfl
  · rintro k hk
    obtain rfl := Option.some.inj hk
    exact List.mem_cons_self
  · intro k hk
    rcases List.mem_cons.mp hk with rfl | hk
    · exact List.mem_cons_self
    · exact List.mem_cons_of_mem _ (h'.unwaited k hk)
  · intro k hk
    rcases List.mem_cons.mp hk with rfl | hk
    · exact List.mem_cons_self
    · exact List.mem_cons_of_mem _ (h'.waits k hk)

/-- The output of the command has been dealt with. -/
theorem leave (h' : Orderly σ h) {c : Command} {rest : List Call} (hrest : Drained σ.commandArrayPtr rest)
    (hcalls : τ.calls = σ.calls ++ σ.forkCalls c ++ rest) (hend : τ.lastPipeEnd = σ.lastPipeEnd)
    (hchildren : τ.childrenToWaitFor = σ.commandArrayPtr :: σ.childrenToWaitFor) :
    ∃ h₁, Closing τ h₁ := by
  have hunread : σ.commandArrayPtr ∈ (h.fork σ.commandArrayPtr σ.lastPipeEnd).unread := by
    refine List.mem_filter.mpr ⟨List.mem_cons_self, ?_⟩
    simpa using fun heq => Nat.lt_irrefl _ (h'.below _ (h'.pipe _ heq.symm).2)
  have hends : ∀ x ∈ readEnds σ.lastPipeEnd, x.IsWriteEnd = false := fun x hx => by
    obtain ⟨j, -, rfl⟩ := mem_readEnds.mp hx
    rfl
  have hfile : ∀ name, .file name ∉ readEnds σ.lastPipeEnd := fun name hx => by
    obtain ⟨j, -, hx⟩ := mem_readEnds.mp hx
    cases hx
  refine ⟨{ h.fork σ.commandArrayPtr σ.lastPipeEnd with
    held := readEnds σ.lastPipeEnd
    unread := (h.fork σ.commandArrayPtr σ.lastPipeEnd).unread.filter fun j => j ≠ σ.commandArrayPtr },
    hcalls ▸ (h'.keeps.append (h'.keeps_forkCalls c)).append ?_, hend ▸ rfl, ?_, ?_⟩
  · cases hrest with
    | stdout =>
      refine Household.keeps_cons_iff.mpr ⟨_, Household.step_copy hunread List.mem_cons_self
        List.mem_cons_self (List.forall_mem_cons.mpr ⟨rfl, hends⟩), ?_⟩
      simp [Household.Keeps, Household.step, Household.fork]
    | file name overwrite =>
      have hname : .file name ∉ (h.fork σ.commandArrayPtr σ.lastPipeEnd).held := by
        simp [Household.fork, hfile]
      refine Household.keeps_cons_iff.mpr ⟨_, if_pos hname, Household.keeps_cons_iff.mpr
        ⟨_, Household.step_copy hunread List.mem_cons_self (List.mem_cons_of_mem _ List.mem_cons_self)
          (List.forall_mem_cons.mpr ⟨rfl, List.forall_mem_cons.mpr ⟨rfl, hends⟩⟩), ?_⟩⟩
      simp [Household.Keeps, Household.step, Household.fork]
  · rw [hchildren]
    intro k hk
    rcases List.mem_cons.mp hk with rfl | hk
    · exact List.mem_cons_self
    · exact List.mem_cons_of_mem _ (h'.unwaited k hk)
  · rw [hchildren]
    intro k hk
    rcases List.mem_cons.mp hk with rfl | hk
    · exact List.mem_cons_self
    · exact List.mem_cons_of_mem _ (h'.waits k hk)

/-- What a turn of the loop leaves behind. -/
def Tidy : Ctl Eval → Prop
  | .again σ => ∃ h, Orderly σ h
  | .done σ => ∃ h, Closing σ h

theorem step {r : Ctl Eval} (h' : Orderly σ h) (hr : evaluateStep env cs n m σ = some r) : Tidy r := by
  rcases evaluateStep_cases hr with ⟨-, rfl⟩ | ⟨-, c, -, ⟨-, rfl⟩ | ⟨-, τ, o, hτ, hturn⟩⟩
  · exact ⟨h, h'.closing⟩
  · exact ⟨h, h'.congr rfl rfl rfl rfl (Nat.le_succ _)⟩
  · obtain ⟨h₁, hfinished⟩ := h'.finish hτ
    have hτ' : Orderly { τ with lastOperator := o } h₁ :=
      hfinished.congr rfl rfl rfl rfl (Nat.le_refl _)
    rcases hturn with rfl | hturn
    · exact ⟨h₁, hτ'.congr rfl rfl rfl rfl (Nat.le_succ _)⟩
    · obtain ⟨c, -, rfl | ⟨ρ, rfl, hρ⟩⟩ := forkCommand_cases hturn
      · exact hτ'.fork c
      · obtain ⟨hend, c, rest, hrest, hcalls⟩ := forkCommand_done hturn
        exact hτ'.leave hrest hcalls hend hρ.children

theorem exits {t : Eval} (h' : Orderly σ h) (ht : Exits (evaluateStep env cs n m) σ t) :
    ∃ h₁, Closing t h₁ := by
  induction ht generalizing h with
  | done hs => exact h'.step hs
  | again hs _ ih =>
    obtain ⟨h₁, h₁'⟩ : ∃ h₁, Orderly _ h₁ := h'.step hs
    exact ih h₁'

end Orderly

/-- The last pipe is closed. -/
theorem Closing.clear {t : Eval} {h : Household} (h' : Closing t h) :
    Household.empty.Keeps t.closeLastPipeEnd.calls { h with held := [] } := by
  refine h'.keeps.append ?_
  have hheld := h'.held
  cases hend : t.lastPipeEnd with
  | none =>
    rw [hend] at hheld
    obtain ⟨held, children, unread, unwaited, wiring⟩ := h
    obtain rfl : held = [] := hheld
    rfl
  | some j =>
    rw [hend] at hheld
    simp [Household.Keeps, Household.step, hheld, readEnds]

/-- Each child is waited for. -/
theorem keeps_waitForChildren (env : Env) {σ : Eval} {h : Household} {pids : List ℕ}
    (hkeeps : Household.empty.Keeps σ.calls h) (hheld : h.held = []) (hpids : ∀ k ∈ pids, k ∈ h.children)
    (status : WaitStatus) : ∃ h₁,
      Household.empty.Keeps (waitForChildren env pids status σ).calls h₁ ∧ h₁.held = [] ∧
      ∀ k ∈ h₁.unwaited, k ∈ h.unwaited ∧ k ∉ pids := by
  induction pids generalizing status σ h with
  | nil => exact ⟨h, hkeeps, hheld, fun k hk => ⟨hk, List.not_mem_nil⟩⟩
  | cons pid pids ih =>
    obtain ⟨hpid, hpids⟩ := List.forall_mem_cons.mp hpids
    have hwait : Household.empty.Keeps (σ.calls ++ [.waitpid pid])
        { h with unwaited := h.unwaited.filter fun k => k ≠ pid } :=
      hkeeps.append (Household.keeps_cons_iff.mpr ⟨_, if_pos ⟨hpid, hheld⟩, rfl⟩)
    rw [waitForChildren_cons]
    obtain ⟨h₁, hkeeps₁, hheld₁, hunwaited⟩ := ih
      (h := { h with unwaited := h.unwaited.filter fun k => k ≠ pid }) (σ := if some pid = σ.lastChildPid then
        { (σ.waitpid env pid status).2 with
          lastChildExitCode := (σ.waitpid env pid status).1.exitCode }
      else (σ.waitpid env pid status).2) (by split_ifs <;> exact hwait) hheld hpids
      (σ.waitpid env pid status).1
    refine ⟨h₁, hkeeps₁, hheld₁, fun k hk => ?_⟩
    obtain ⟨hk, hkpids⟩ := hunwaited k hk
    rw [List.mem_filter] at hk
    have hne : k ≠ pid := by simpa using hk.2
    exact ⟨hk.1, by simp [hne, hkpids]⟩

theorem evaluate_exits {env : Env} {cs : List Command} {n : ℕ} {e : ℤ} {σ : Eval}
    (h : evaluate env cs n e = some σ) :
    ∃ m t, Exits (evaluateStep env cs n m) (start e) t ∧ σ = t.closeLastPipeEnd := by
  simp only [evaluate, Option.bind_eq_bind, Option.pure_def] at h
  obtain ⟨m, -, h⟩ := Option.bind_eq_some_iff.mp h
  obtain ⟨t, ht, h⟩ := Option.bind_eq_some_iff.mp h
  exact ⟨m, t, exits_of_iterate ht, (Option.some.inj h).symm⟩

theorem runLine_evaluate {env : Env} {commands : List Command} {e : ℤ} {σ : Eval}
    (h : runLine env commands e = some (.foreground σ)) :
    ∃ τ, evaluate env commands commands.length e = some τ ∧
      σ = waitForChildren env τ.childrenToWaitFor (.exited 0) τ := by
  cases commands with
  | nil => cases h
  | cons firstCommand otherCommands =>
    simp only [runLine, Option.bind_eq_bind, Option.pure_def] at h
    split_ifs at h
    · cases Option.some.inj h
    · cases Option.some.inj h
    · obtain ⟨last, -, h⟩ := Option.bind_eq_some_iff.mp h
      split_ifs at h
      · obtain ⟨τ, -, h⟩ := Option.bind_eq_some_iff.mp h
        cases Option.some.inj h
      · obtain ⟨τ, hτ, h⟩ := Option.bind_eq_some_iff.mp h
        exact ⟨τ, hτ, (LineResult.foreground.inj (Option.some.inj h)).symm⟩

/-- The calls of a line in the foreground keep the household in order, and at the end nothing is open
and every child has been waited for. -/
theorem runLine_keeps {env : Env} {commands : List Command} {e : ℤ} {σ : Eval}
    (h : runLine env commands e = some (.foreground σ)) :
    ∃ h₁, Household.empty.Keeps σ.calls h₁ ∧ h₁.held = [] ∧ h₁.unwaited = [] := by
  obtain ⟨τ, hτ, rfl⟩ := runLine_evaluate h
  obtain ⟨m, t, ht, rfl⟩ := evaluate_exits hτ
  obtain ⟨h₁, h₁'⟩ := (Orderly.start e).exits ht
  obtain ⟨h₂, hkeeps, hheld, hunwaited⟩ := keeps_waitForChildren env h₁'.clear rfl h₁'.waits (.exited 0)
  refine ⟨h₂, hkeeps, hheld, List.eq_nil_iff_forall_not_mem.mpr fun k hk => ?_⟩
  exact (hunwaited k hk).2 (h₁'.unwaited k (hunwaited k hk).1)

/-- Whatever the commands of a line in the foreground are and however its children end: each child finds
the pipe that it is to read from, or the stdin of the shell, as its stdin, its own pipe as its stdout,
stderr, and nothing else open. The shell can write to no pipe when it copies one, and has no pipe open
when it waits for a child. -/
theorem child_inherits {env : Env} {commands : List Command} {e : ℤ} {σ : Eval}
    (h : runLine env commands e = some (.foreground σ)) {pre post : List Call} {c : Call}
    (hcalls : σ.calls = pre ++ c :: post) :
    (∀ i command stdin, c = .fork i command stdin → ∀ n,
      (childTable i stdin (tableAfter standardTable pre)).object n = childObjects i stdin n) ∧
    (∀ i dest, c = .copy i dest → some (.pipe (.readEnd i)) ∈ tableAfter standardTable pre ∧
      ∀ k, some (.pipe (.writeEnd k)) ∉ tableAfter standardTable pre) ∧
    (∀ i, c = .waitpid i → ∀ fd, some (.pipe fd) ∉ tableAfter standardTable pre) := by
  obtain ⟨h₁, hkeeps, -, -⟩ := runLine_keeps h
  rw [hcalls] at hkeeps
  obtain ⟨h₂, hpre, hpost⟩ := Household.keeps_append_iff.mp hkeeps
  obtain ⟨h₃, hc, -⟩ := Household.keeps_cons_iff.mp hpost
  have ht := Inventory.start.tableAfter hpre
  refine ⟨?_, ?_, ?_⟩
  · rintro i command stdin rfl n
    rw [Household.step] at hc
    split_ifs at hc with hfork
    rw [hfork.2.1] at ht
    exact ht.object_childTable n
  · rintro i dest rfl
    rw [Household.step] at hc
    split_ifs at hc with hcopy
    obtain ⟨-, -, hread, hends⟩ := hcopy
    refine ⟨ht.present _ hread, fun k hk => ?_⟩
    have hwrite := hends _ ((ht.mem_iff rfl).mp hk)
    cases hwrite
  · rintro i rfl fd hfd
    rw [Household.step] at hc
    split_ifs at hc with hwait
    have hmem := (ht.mem_iff rfl).mp hfd
    rw [hwait.2] at hmem
    cases hmem

/-- A line that makes calls is one in the foreground. -/
theorem exists_foreground {r : Option LineResult} (cs : List Call) (h : r.map LineResult.calls = some cs)
    (hcs : cs ≠ []) : ∃ σ, r = some (.foreground σ) ∧ σ.calls = cs := by
  obtain ⟨l, rfl, hl⟩ := Option.map_eq_some_iff.mp h
  cases l with
  | foreground σ => exact ⟨σ, rfl, hl⟩
  | nothing => exact absurd hl.symm hcs
  | exits c => exact absurd hl.symm hcs
  | changesDirectory c => exact absurd hl.symm hcs
  | background τ => exact absurd hl.symm hcs

/-- `echo | cat | cat`: the child in the middle. -/
theorem child_inherits_middle :
    let t := tableAfter standardTable [.pipe 0, .fork 0 echoCommand.1 none, .close (.writeEnd 0), .pipe 2]
    (childTable 2 (some 0) t).object 0 = some (.pipe (.readEnd 0)) ∧
      (childTable 2 (some 0) t).object 1 = some (.pipe (.writeEnd 2)) ∧
      (childTable 2 (some 0) t).object 4 = none := by
  let pre : List Call := [.pipe 0, .fork 0 echoCommand.1 none, .close (.writeEnd 0), .pipe 2]
  obtain ⟨σ, hσ, hcalls⟩ := exists_foreground (r := runLine ⟨fun _ => .exited 0, .exited 0⟩
    (Line.pipeline ⟨echoCommand, [catCommand, catCommand]⟩).commands 0) (pre ++
      .fork 2 catCommand.1 (some 0) :: [.close (.writeEnd 2), .close (.readEnd 0), .pipe 4,
      .fork 4 catCommand.1 (some 2), .close (.writeEnd 4), .copy 4 .stdout, .close (.readEnd 4),
      .close (.readEnd 2), .waitpid 4, .waitpid 2, .waitpid 0]) (by decide) (by simp)
  have h := (child_inherits hσ hcalls).1 2 catCommand.1 (some 0) rfl
  exact ⟨h 0, h 1, h 4⟩

end SystemsProgramming.Shell

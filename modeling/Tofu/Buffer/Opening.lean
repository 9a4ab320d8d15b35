import Tofu.Buffer.CurrentBuffer

/-!
# Opening a file

`BuffrCollection::switch_current_buffer`, `src/src/current_buffer.rs:381–398`, as a program
on the collection that may fail on the way: what it changed before a failure stays changed.
The calls of the operating system it makes are parameters, and each of them may fail on its
own. The loop over the open buffers gives up on the first path that cannot be resolved.
-/

namespace Tofu

open Rope

variable {X : XiRope UInt8}

/-- `Path::canonicalize` and `std::fs::read`; `none` is an error. -/
structure PathCalls where
  canonicalize : Path → Option Path
  read : Path → Option (List UInt8)

/-- The calls on a file system. -/
def FileSystem.calls (fs : FileSystem) : PathCalls :=
  { canonicalize := fs.canonicalize, read := fs.read }

namespace BuffrCollection

/-- A program on a collection that may end with an error. -/
abbrev Program (X : XiRope UInt8) := ExceptT Unit (StateM (BuffrCollection X))

/-- The `?` of a call. -/
def attempt {α : Type} : Option α → Program X α
  | some a => pure a
  | none => throw ()

/-- The loop, `current_buffer.rs:383–390`: whether a buffer for the file was made current. -/
def switchToOpen (calls : PathCalls) (canon : Path) :
    Nat → List (CurrentBuffer X) → Program X Bool
  | _, [] => pure false
  | i, buf :: list =>
    match buf.path with
    | none => switchToOpen calls canon (i + 1) list
    | some path => do
      let other ← attempt (calls.canonicalize path)
      if other = canon then do
        modify fun c ↦ { c with curBufIndex := i }
        pure true
      else switchToOpen calls canon (i + 1) list

/-- `current_buffer.rs:381–398`. -/
def switchProgram (calls : PathCalls) (filename : Path) : Program X Unit := do
  let canon ← attempt (calls.canonicalize filename)
  let list := (← get).list
  if ← switchToOpen calls canon 0 list then pure ()
  else do
    let data ← attempt (calls.read filename)
    modify fun c ↦
      { c with list := c.list ++ [CurrentBuffer.fromDataAndPath data (some filename)] }
    modify fun c ↦ { c with curBufIndex := c.list.length - 1 }

/-- The result of a program and the collection it leaves. -/
def execute {α : Type} (p : Program X α) (c : BuffrCollection X) :
    Except Unit α × BuffrCollection X :=
  p.run.run c

variable {α β : Type} {c : BuffrCollection X}

/-- A value is returned at once. -/
@[simp] theorem execute_pure (a : α) : execute (pure a) c = (.ok a, c) := rfl

/-- A call that succeeds returns its value. -/
@[simp] theorem execute_attempt_some (a : α) : execute (attempt (some a)) c = (.ok a, c) := rfl

/-- One that fails returns its error. -/
@[simp] theorem execute_attempt_none : execute (attempt (none : Option α)) c = (.error (), c) := rfl

/-- A change is made and nothing returned. -/
@[simp] theorem execute_modify (f : BuffrCollection X → BuffrCollection X) :
    execute (modify f) c = (.ok (), f c) := rfl

/-- The buffers are returned as they are. -/
@[simp] theorem execute_get : execute get c = (.ok c, c) := rfl

private theorem execute_bind (p : Program X α) (q : α → Program X β) :
    execute (p >>= q) c =
      match execute p c with
      | (.ok a, c') => execute (q a) c'
      | (.error e, c') => (.error e, c') := by
  unfold execute
  simp only [ExceptT.run_bind, StateT.run_bind]
  cases p.run.run c with
  | mk result c' => cases result <;> rfl

/-! ## What the loop finds -/

/-- The buffer is one for the file with the canonical path. -/
def IsFor (calls : PathCalls) (canon : Path) (buf : CurrentBuffer X) : Prop :=
  ∃ path, buf.path = some path ∧ calls.canonicalize path = some canon

/-- The path of the buffer cannot be resolved. -/
def Dangling (calls : PathCalls) (buf : CurrentBuffer X) : Prop :=
  ∃ path, buf.path = some path ∧ calls.canonicalize path = none

/-- The loop goes on to the next buffer. -/
def Passes (calls : PathCalls) (canon : Path) (buf : CurrentBuffer X) : Prop :=
  ¬ IsFor calls canon buf ∧ ¬ Dangling calls buf

/-- The buffers the loop passes before it stops at an index. -/
def StopsAt (calls : PathCalls) (canon : Path) (list : List (CurrentBuffer X)) (k : Nat)
    (P : CurrentBuffer X → Prop) : Prop :=
  (∃ buf, list[k]? = some buf ∧ P buf) ∧
    ∀ j < k, ∀ buf, list[j]? = some buf → Passes calls canon buf

variable {calls : PathCalls} {canon : Path} {buf : CurrentBuffer X}
  {list : List (CurrentBuffer X)} {P : CurrentBuffer X → Prop}

private theorem stopsAt_zero (h : P buf) : StopsAt calls canon (buf :: list) 0 P :=
  ⟨⟨buf, rfl, h⟩, fun j hj ↦ absurd hj (Nat.not_lt_zero j)⟩

private theorem StopsAt.cons {k : Nat} (h : StopsAt calls canon list k P)
    (hb : Passes calls canon buf) :
    StopsAt calls canon (buf :: list) (k + 1) P := by
  refine ⟨h.1, fun j hj b hget ↦ ?_⟩
  cases j with
  | zero =>
    cases hget
    exact hb
  | succ j => exact h.2 j (Nat.lt_of_succ_lt_succ hj) b hget

private theorem execute_cons_of_isFor (h : IsFor calls canon buf) (i : Nat) :
    execute (switchToOpen calls canon i (buf :: list)) c =
      (.ok true, { c with curBufIndex := i }) := by
  obtain ⟨path, hpath, hcanon⟩ := h
  simp only [switchToOpen, hpath, hcanon, execute_bind, execute_attempt_some, if_true,
    execute_modify, execute_pure]

private theorem execute_cons_of_dangling (h : Dangling calls buf) (i : Nat) :
    execute (switchToOpen calls canon i (buf :: list)) c = (.error (), c) := by
  obtain ⟨path, hpath, hcanon⟩ := h
  simp only [switchToOpen, hpath, hcanon, execute_bind, execute_attempt_none]

private theorem execute_cons_of_passes (h : Passes calls canon buf) (i : Nat) :
    execute (switchToOpen calls canon i (buf :: list)) c =
      execute (switchToOpen calls canon (i + 1) list) c := by
  cases hpath : buf.path with
  | none => simp only [switchToOpen, hpath]
  | some path =>
    cases hcanon : calls.canonicalize path with
    | none => exact absurd ⟨path, hpath, hcanon⟩ h.2
    | some other =>
      have hne : other ≠ canon := by
        rintro rfl
        exact h.1 ⟨path, hpath, hcanon⟩
      simp only [switchToOpen, hpath, hcanon, execute_bind, execute_attempt_some, if_neg hne]

/-- The loop makes the first buffer for the file current, gives up on a path that cannot be
resolved, or passes all buffers. -/
theorem execute_switchToOpen (i : Nat) (list : List (CurrentBuffer X)) (c : BuffrCollection X) :
    (∃ k, StopsAt calls canon list k (IsFor calls canon) ∧
      execute (switchToOpen calls canon i list) c =
        (.ok true, { c with curBufIndex := i + k })) ∨
    (∃ k, StopsAt calls canon list k (Dangling calls) ∧
      execute (switchToOpen calls canon i list) c = (.error (), c)) ∨
    (∀ buf ∈ list, Passes calls canon buf) ∧
      execute (switchToOpen calls canon i list) c = (.ok false, c) := by
  induction list generalizing i with
  | nil => exact .inr (.inr ⟨by simp, rfl⟩)
  | cons buf list ih =>
    by_cases hfor : IsFor calls canon buf
    · exact .inl ⟨0, stopsAt_zero hfor, execute_cons_of_isFor hfor i⟩
    by_cases hdangling : Dangling calls buf
    · exact .inr (.inl ⟨0, stopsAt_zero hdangling, execute_cons_of_dangling hdangling i⟩)
    have hpass : Passes calls canon buf := ⟨hfor, hdangling⟩
    rw [execute_cons_of_passes hpass]
    rcases ih (i + 1) with ⟨k, hk, hrun⟩ | ⟨k, hk, hrun⟩ | ⟨hall, hrun⟩
    · refine .inl ⟨k + 1, hk.cons hpass, ?_⟩
      rw [hrun, Nat.add_assoc, Nat.add_comm 1 k]
    · exact .inr (.inl ⟨k + 1, hk.cons hpass, hrun⟩)
    · exact .inr (.inr ⟨List.forall_mem_cons.mpr ⟨hpass, hall⟩, hrun⟩)

/-! ## Opening -/

/-- The collection has a buffer for the file as its current one: an open one of the old collection,
or a new one with the content of the file when none was open. -/
def Opened (calls : PathCalls) (filename canon : Path) (data : List UInt8)
    (c c' : BuffrCollection X) : Prop :=
  (∃ buf, c'.list = c.list ∧ c'.current = some buf ∧ IsFor calls canon buf) ∨
    (∀ buf ∈ c.list, ¬ IsFor calls canon buf) ∧
      ∃ buf, buf = CurrentBuffer.fromDataAndPath data (some filename) ∧
        c'.list = c.list ++ [buf] ∧ c'.current = some buf

/-- Every open buffer whose path cannot be resolved comes behind one for the file. -/
def DanglingBehind (calls : PathCalls) (canon : Path) (list : List (CurrentBuffer X)) : Prop :=
  ∀ (k : Nat) buf, list[k]? = some buf → Dangling calls buf →
    ∃ j < k, ∃ buf', list[j]? = some buf' ∧ IsFor calls canon buf'

private theorem IsFor.not_dangling (h : IsFor calls canon buf) : ¬ Dangling calls buf := by
  obtain ⟨path, hpath, hcanon⟩ := h
  rintro ⟨path', hpath', hnone⟩
  rw [hpath] at hpath'
  cases hpath'
  rw [hcanon] at hnone
  cases hnone

private theorem execute_switchProgram_none {filename : Path}
    (h : calls.canonicalize filename = none) :
    execute (switchProgram calls filename) c = (.error (), c) := by
  rw [switchProgram, execute_bind, h, execute_attempt_none]

private theorem execute_switchProgram_some {filename : Path}
    (h : calls.canonicalize filename = some canon) :
    execute (switchProgram calls filename) c =
      match execute (switchToOpen calls canon 0 c.list) c with
      | (.ok true, c') => (.ok (), c')
      | (.ok false, c') =>
        match calls.read filename with
        | none => (.error (), c')
        | some data =>
          (.ok (), { list := c'.list ++ [CurrentBuffer.fromDataAndPath data (some filename)]
                     curBufIndex := c'.list.length })
      | (.error e, c') => (.error e, c') := by
  simp only [switchProgram, execute_bind, h, execute_attempt_some, execute_get]
  cases execute (switchToOpen calls canon 0 c.list) c with
  | mk result c' =>
    rcases result with e | (_ | _)
    · rfl
    · cases calls.read filename with
      | none => rfl
      | some data =>
        simp only [Bool.false_eq_true, if_false, execute_bind, execute_attempt_some, execute_modify,
          List.length_append, List.length_singleton, Nat.add_sub_cancel]
    · rfl

/-- An error comes before the first change. -/
theorem eq_of_execute_error {filename : Path} {e : Unit} {c' : BuffrCollection X}
    (h : execute (switchProgram calls filename) c = (.error e, c')) : c' = c := by
  cases hcanon : calls.canonicalize filename with
  | none =>
    rw [execute_switchProgram_none hcanon] at h
    cases h
    rfl
  | some canon =>
    rw [execute_switchProgram_some hcanon] at h
    rcases @execute_switchToOpen X calls canon 0 c.list c with
      ⟨k, -, hrun⟩ | ⟨k, -, hrun⟩ | ⟨-, hrun⟩
    · rw [hrun] at h
      cases h
    · rw [hrun] at h
      cases h
      rfl
    · rw [hrun] at h
      cases hread : calls.read filename with
      | none =>
        rw [hread] at h
        cases h
        rfl
      | some data =>
        rw [hread] at h
        cases h

/-- A file that can be resolved and read is opened exactly when no path that cannot be resolved
stands before a buffer for it. -/
theorem opened_iff {filename : Path} {data : List UInt8}
    (hcanon : calls.canonicalize filename = some canon) (hread : calls.read filename = some data)
    (c : BuffrCollection X) :
    (∃ c', execute (switchProgram calls filename) c = (.ok (), c') ∧
      Opened calls filename canon data c c') ↔ DanglingBehind calls canon c.list := by
  rw [execute_switchProgram_some hcanon]
  rcases @execute_switchToOpen X calls canon 0 c.list c with
    ⟨k, ⟨⟨buf, hget, hfor⟩, hpass⟩, hrun⟩ | ⟨k, ⟨⟨buf, hget, hdangling⟩, hpass⟩, hrun⟩ |
      ⟨hall, hrun⟩
  · rw [hrun, Nat.zero_add]
    refine iff_of_true ⟨_, rfl, .inl ⟨buf, rfl, hget, hfor⟩⟩ fun j buf' hget' hdangling ↦ ?_
    -- before the buffer that was found there is none that cannot be resolved
    rcases Nat.lt_trichotomy j k with hlt | rfl | hgt
    · exact absurd hdangling (hpass j hlt buf' hget').2
    · cases hget.symm.trans hget'
      exact absurd hdangling hfor.not_dangling
    · exact ⟨k, hgt, buf, hget, hfor⟩
  · rw [hrun]
    refine iff_of_false ?_ fun hbehind ↦ ?_
    · rintro ⟨c', heq, -⟩
      cases heq
    · obtain ⟨j, hj, buf', hget', hfor⟩ := hbehind k buf hget hdangling
      exact (hpass j hj buf' hget').1 hfor
  · rw [hrun, hread]
    refine iff_of_true ⟨_, rfl, .inr ⟨fun buf hbuf ↦ (hall buf hbuf).1, _, rfl, rfl, ?_⟩⟩ ?_
    · simp [current]
    · intro j buf hget hdangling
      exact absurd hdangling (hall buf (List.mem_of_getElem? hget)).2

/-- For every name: where it can be resolved and read, it is opened exactly when no path that
cannot be resolved stands before a buffer for the file; and an error leaves the collection as it
was. -/
theorem switchCurrentBuffer_opens_iff (calls : PathCalls) (filename : Path)
    (c : BuffrCollection X) :
    (∀ canon data, calls.canonicalize filename = some canon → calls.read filename = some data →
      ((∃ c', execute (switchProgram calls filename) c = (.ok (), c') ∧
        Opened calls filename canon data c c') ↔ DanglingBehind calls canon c.list)) ∧
    ∀ e c', execute (switchProgram calls filename) c = (.error e, c') → c' = c :=
  ⟨fun _ _ hcanon hread ↦ opened_iff hcanon hread c, fun _ _ h ↦ eq_of_execute_error h⟩

/-- A buffer for another file is open, and the new one is opened beside it. -/
theorem switchCurrentBuffer_opens_beside :
    let calls : PathCalls := { canonicalize := some, read := fun _ ↦ some [1] }
    let c : BuffrCollection (XiRope.reference UInt8) :=
      .withCurrentBuffer (.fromDataAndPath [] (some ['b']))
    ∃ c', execute (switchProgram calls ['a']) c = (.ok (), c') ∧
      Opened calls ['a'] ['a'] [1] c c' := by
  intro calls c
  apply ((switchCurrentBuffer_opens_iff calls ['a'] c).1 ['a'] [1] rfl rfl).mpr
  rintro k buf - ⟨path, -, hnone⟩
  cases hnone

/-- The file of an open buffer is gone, and no other file can be opened. -/
theorem switchCurrentBuffer_fails_beside :
    let calls := (FileSystem.single ['a'] [1]).calls
    let c : BuffrCollection (XiRope.reference UInt8) :=
      .withCurrentBuffer (.fromDataAndPath [2] (some ['b']))
    calls.canonicalize ['a'] = some ['a'] ∧ calls.read ['a'] = some [1] ∧
      execute (switchProgram calls ['a']) c = (.error (), c) :=
  ⟨rfl, rfl, rfl⟩

/-! ## The operation of the model -/

private theorem execute_switchToOpen_calls (fs : FileSystem) (i : Nat) :
    execute (switchToOpen fs.calls canon i list) c =
      match findPath fs canon i list with
      | none => (.error (), c)
      | some none => (.ok false, c)
      | some (some k) => (.ok true, { c with curBufIndex := k }) := by
  induction list generalizing i with
  | nil => rfl
  | cons buf list ih =>
    cases hpath : buf.path with
    | none => simp only [switchToOpen, findPath, hpath, ih]
    | some path =>
      cases hcanon : fs.canonicalize path with
      | none =>
        rw [execute_cons_of_dangling ⟨path, hpath, hcanon⟩]
        simp only [findPath, hpath, hcanon, Option.bind_eq_bind, Option.bind_none]
      | some other =>
        simp only [findPath, hpath, hcanon, Option.bind_eq_bind, Option.bind_some]
        by_cases heq : other = canon
        · subst heq
          rw [execute_cons_of_isFor ⟨path, hpath, hcanon⟩, if_pos rfl]
        · rw [if_neg heq, ← ih, execute_cons_of_passes]
          refine ⟨?_, ?_⟩
          · rintro ⟨path', hpath', hcanon'⟩
            cases hpath.symm.trans hpath'
            cases hcanon.symm.trans hcanon'
            exact heq rfl
          · rintro ⟨path', hpath', hcanon'⟩
            cases hpath.symm.trans hpath'
            cases hcanon.symm.trans hcanon'

/-- On a file system the program is `switchCurrentBuffer`. -/
theorem execute_switchProgram_calls (fs : FileSystem) (filename : Path) (c : BuffrCollection X) :
    execute (switchProgram fs.calls filename) c =
      match c.switchCurrentBuffer fs filename with
      | some c' => (.ok (), c')
      | none => (.error (), c) := by
  rw [switchCurrentBuffer]
  cases hcanon : fs.canonicalize filename with
  | none => exact execute_switchProgram_none hcanon
  | some canon =>
    rw [execute_switchProgram_some hcanon, execute_switchToOpen_calls]
    simp only [Option.bind_eq_bind, Option.bind_some]
    rcases findPath fs canon 0 c.list with _ | (_ | k)
    · rfl
    · simp only [Option.bind_some, FileSystem.calls]
      cases fs.read filename with
      | none => rfl
      | some data => simp
    · rfl

end BuffrCollection

end Tofu

import Mathlib.Data.List.InsertIdx
import Tofu.Buffer.Window
import Tofu.Modes.Command

/-!
# One buffer per file

The commands that open, write and close buffers (`src/src/modes/command.rs:64–141`), run
one after the other with changes to the current buffer in between. `:e` looks for an open
buffer of the file before it opens one, so that no two buffers stand for one file. `:w`
with a name gives a buffer without a path that name, and looks for nothing.
-/

namespace Tofu

open Rope

variable {X : XiRope UInt8}

/-- What changes the open buffers: a change to the current one, or a command. -/
inductive WorkspaceStep (X : XiRope UInt8) where
  | change (s : WindowStep X)
  | edit (filename : Path)
  | write (filename : Path)
  | writeAll
  | deleteCurrentBuffer
  | forceDeleteCurrentBuffer
  | quit

namespace WorkspaceStep

/-- The transition of a step and what it leaves. -/
def run : WorkspaceStep X → Workspace X → Option (ModeTransition × Workspace X)
  | change s, ws => do
    let b ← ws.buffers.current
    let b ← s.run ws.fs b
    some (.none, { ws with buffers := ws.buffers.setCurrent b })
  | edit filename, ws => Cmd.edit ws filename
  | write filename, ws => Cmd.write ws filename
  | writeAll, ws => Cmd.writeAll ws []
  | deleteCurrentBuffer, ws => Cmd.deleteCurrentBuffer ws []
  | forceDeleteCurrentBuffer, ws => Cmd.forceDeleteCurrentBuffer ws []
  | quit, ws => Cmd.quit ws []

/-- The buffers after a step. -/
def step (i : WorkspaceStep X) (ws : Workspace X) : Option (Workspace X) :=
  (i.run ws).map Prod.snd

end WorkspaceStep

/-! ## What the commands do -/

namespace Workspace

/-- The paths of the open buffers. -/
def paths (ws : Workspace X) : List (Option Path) := ws.buffers.list.map CurrentBuffer.path

private theorem getElem?_paths {ws : Workspace X} {b : CurrentBuffer X}
    (h : ws.buffers.current = some b) : ws.paths[ws.buffers.curBufIndex]? = some b.path := by
  rw [paths, List.getElem?_map, show ws.buffers.list[_]? = some b from h]
  rfl

private theorem paths_setCurrent (ws : Workspace X) (fs : FileSystem) (b : CurrentBuffer X) :
    paths { fs, buffers := ws.buffers.setCurrent b } =
      ws.paths.set ws.buffers.curBufIndex b.path := List.map_set

/-- A change to the current buffer that keeps its path keeps all paths. -/
theorem paths_setCurrent_of_path {ws : Workspace X} (fs : FileSystem) {b b' : CurrentBuffer X}
    (h : ws.buffers.current = some b) (hp : b'.path = b.path) :
    paths { fs, buffers := ws.buffers.setCurrent b' } = ws.paths := by
  obtain ⟨hlt, hget⟩ := List.getElem?_eq_some_iff.mp (getElem?_paths h)
  rw [paths_setCurrent, hp, ← hget, List.set_getElem_self]

end Workspace

private theorem CurrentBuffer.path_updatePathIfMissing (b : CurrentBuffer X) (path : Path) :
    (b.updatePathIfMissing path).path = some (b.path.getD path) := by
  unfold updatePathIfMissing
  cases h : b.path <;> simp [h]

namespace BuffrCollection

/-- The loop finds a buffer of the file, or every path has another canonical form. -/
theorem findPath_cases {fs : FileSystem} {canon : Path} {i : Nat} {list : List (CurrentBuffer X)}
    {r : Option Nat} (h : findPath fs canon i list = some r) :
    (∃ j, r = some j ∧ j < i + list.length) ∨
      (r = none ∧ ∀ b ∈ list, ∀ p ∈ b.path, ∃ c, fs.canonicalize p = some c ∧ c ≠ canon) := by
  induction list generalizing i with
  | nil =>
    obtain rfl := Option.some.inj h
    exact .inr ⟨rfl, by simp⟩
  | cons b list ih =>
    rw [findPath] at h
    rw [List.length_cons]
    split at h
    · next hp =>
      rcases ih h with ⟨j, hr, hj⟩ | ⟨hr, hall⟩
      · exact .inl ⟨j, hr, by omega⟩
      · refine .inr ⟨hr, List.forall_mem_cons.mpr ⟨fun p hp' ↦ ?_, hall⟩⟩
        rw [hp] at hp'
        cases hp'
    · next path hp =>
      obtain ⟨other, hother, h⟩ := Option.bind_eq_some_iff.mp h
      split at h
      · obtain rfl := Option.some.inj h
        exact .inl ⟨i, rfl, by omega⟩
      · next hne =>
        rcases ih h with ⟨j, hr, hj⟩ | ⟨hr, hall⟩
        · exact .inl ⟨j, hr, by omega⟩
        · refine .inr ⟨hr, List.forall_mem_cons.mpr ⟨fun p hp' ↦ ?_, hall⟩⟩
          obtain rfl : path = p := Option.some.inj (hp.symm.trans hp')
          exact ⟨other, hother, hne⟩

end BuffrCollection

namespace Cmd

/-- `:q` changes no buffer. -/
theorem eq_of_quit {ws ws' : Workspace X} {t : ModeTransition} (arg : Path)
    (h : quit ws arg = some (t, ws')) : ws' = ws := by
  unfold quit at h
  split at h <;> exact (Prod.mk.inj (Option.some.inj h)).2.symm

/-- `:w` with a name that can be written. -/
theorem write_of_ne_nil {ws : Workspace X} {fs : FileSystem} {b : CurrentBuffer X}
    {filename : Path} (hb : ws.buffers.current = some b) (hne : filename ≠ [])
    (hw : ws.fs.write filename b.data = some fs) :
    write ws filename = some (.newMode (.normal .new), Workspace.mk fs (ws.buffers.setCurrent
      (CurrentBuffer.updatePathIfMissing { b with dirty := false } filename))) := by
  simp only [write, hb, Option.bind_eq_bind, Option.bind_some, if_neg hne, hw]

/-- Writing all buffers keeps the paths. -/
theorem map_path_writeBuffers (fs : FileSystem) (list : List (CurrentBuffer X)) :
    (writeBuffers fs list).2.2.map CurrentBuffer.path = list.map CurrentBuffer.path := by
  induction list generalizing fs with
  | nil => rfl
  | cons b list ih =>
    rw [writeBuffers]
    split
    · simp only [List.map_cons, ih]
    · split
      · rfl
      · simp only [List.map_cons, ih]

private theorem extends_writeBuffers (fs : FileSystem) (list : List (CurrentBuffer X)) :
    fs.Extends (writeBuffers fs list).2.1 := by
  induction list generalizing fs with
  | nil => exact .refl fs
  | cons b list ih =>
    rw [writeBuffers]
    split
    · exact ih fs
    · split
      · exact .refl fs
      · next fs' hw => exact (FileSystem.extends_of_write hw).trans (ih fs')

end Cmd

namespace WorkspaceStep

/-- What a step does to the files, the paths and the current buffer. -/
inductive Effect (ws : Workspace X) : WorkspaceStep X → Workspace X → Prop where
  /-- All files and paths stay, and so does the current buffer. -/
  | keep {i : WorkspaceStep X} {ws' : Workspace X} (hfs : ws.fs.Extends ws'.fs)
      (hpaths : ws'.paths = ws.paths) (hcur : ws'.buffers.curBufIndex = ws.buffers.curBufIndex) :
      Effect ws i ws'
  /-- `:e` of a file that is open. -/
  | switch {filename : Path} {index : Nat} (hi : index < ws.buffers.list.length) :
      Effect ws (.edit filename)
        { ws with buffers := { ws.buffers with curBufIndex := index } }
  /-- `:e` of a file that is not. -/
  | opened {filename canon : Path} {ws' : Workspace X}
      (hcanon : ws.fs.canonicalize filename = some canon)
      (hnew : ∀ p, some p ∈ ws.paths → ∃ c, ws.fs.canonicalize p = some c ∧ c ≠ canon)
      (hfs : ws'.fs = ws.fs) (hpaths : ws'.paths = ws.paths ++ [some filename])
      (hcur : ws'.buffers.curBufIndex = ws.paths.length) : Effect ws (.edit filename) ws'
  /-- `:w` with a name, on a buffer without a path. -/
  | named {filename : Path} {content : List UInt8} {ws' : Workspace X} (hne : filename ≠ [])
      (hnone : ws.paths[ws.buffers.curBufIndex]? = some none)
      (hwrite : ws.fs.write filename content = some ws'.fs)
      (hpaths : ws'.paths = ws.paths.set ws.buffers.curBufIndex (some filename))
      (hcur : ws'.buffers.curBufIndex = ws.buffers.curBufIndex) : Effect ws (.write filename) ws'
  | closed {i : WorkspaceStep X} {ws' : Workspace X}
      (hi : ws.buffers.curBufIndex < ws.buffers.list.length) (hfs : ws'.fs = ws.fs)
      (hpaths : ws'.paths = if ws.paths.eraseIdx ws.buffers.curBufIndex = [] then [none]
        else ws.paths.eraseIdx ws.buffers.curBufIndex)
      (hcur : ws'.buffers.curBufIndex = ws.buffers.curBufIndex - 1) : Effect ws i ws'

variable {ws ws' : Workspace X} {i : WorkspaceStep X}

private theorem effect_edit {filename : Path} {t : ModeTransition}
    (h : Cmd.edit ws filename = some (t, ws')) : Effect ws (.edit filename) ws' := by
  unfold Cmd.edit at h
  split at h
  · obtain ⟨-, rfl⟩ := Prod.mk.inj (Option.some.inj h)
    exact .keep (.refl _) rfl rfl
  · next buffers hs =>
    obtain ⟨-, rfl⟩ := Prod.mk.inj (Option.some.inj h)
    obtain ⟨canon, hcanon, hs⟩ := Option.bind_eq_some_iff.mp hs
    obtain ⟨r, hfind, hs⟩ := Option.bind_eq_some_iff.mp hs
    rcases BuffrCollection.findPath_cases hfind with ⟨index, rfl, hi⟩ | ⟨rfl, hnew⟩
    · obtain rfl := Option.some.inj hs
      exact .switch (by omega)
    · obtain ⟨data, -, hs⟩ := Option.bind_eq_some_iff.mp hs
      obtain rfl := Option.some.inj hs
      refine .opened hcanon ?_ rfl ?_ ?_
      · intro p hp
        obtain ⟨b, hb, hbp⟩ := List.mem_map.mp hp
        exact hnew b hb p hbp
      · simp [Workspace.paths, CurrentBuffer.fromDataAndPath]
      · simp [Workspace.paths]

private theorem effect_write {filename : Path} {t : ModeTransition}
    (h : Cmd.write ws filename = some (t, ws')) : Effect ws (.write filename) ws' := by
  obtain ⟨b, hb, h⟩ := Option.bind_eq_some_iff.mp h
  split at h
  · next path hpath =>
    split at h
    · obtain ⟨-, rfl⟩ := Prod.mk.inj (Option.some.inj h)
      exact .keep (.refl _) rfl rfl
    · next fs hw =>
      obtain ⟨-, rfl⟩ := Prod.mk.inj (Option.some.inj h)
      have hsaved : (CurrentBuffer.updatePathIfMissing { b with dirty := false } path).path =
          some (b.path.getD path) := CurrentBuffer.path_updatePathIfMissing _ path
      rcases Option.eq_none_or_eq_some b.path with hp | ⟨p, hp⟩
      · rw [hp] at hpath
        split at hpath
        · cases hpath
        · next hne =>
          obtain rfl := Option.some.inj hpath
          exact .named hne (hp ▸ Workspace.getElem?_paths hb) hw
            (by rw [Workspace.paths_setCurrent, hsaved, hp]; rfl) rfl
      · refine .keep (FileSystem.extends_of_write hw)
          (Workspace.paths_setCurrent_of_path fs hb ?_) rfl
        rw [hsaved, hp]
        rfl
  · obtain ⟨-, rfl⟩ := Prod.mk.inj (Option.some.inj h)
    exact .keep (.refl _) rfl rfl

private theorem effect_forceDelete {t : ModeTransition}
    (h : Cmd.forceDeleteCurrentBuffer ws [] = some (t, ws')) : Effect ws i ws' := by
  obtain ⟨buffers, hd, h⟩ := Option.bind_eq_some_iff.mp h
  obtain ⟨-, rfl⟩ := Prod.mk.inj (Option.some.inj h)
  unfold BuffrCollection.deleteCurrent at hd
  split at hd
  · next hi =>
    obtain rfl := Option.some.inj hd
    refine .closed hi rfl ?_ rfl
    simp only [Workspace.paths, List.eraseIdx_map, List.map_eq_nil_iff]
    split <;> rfl
  · cases hd

private theorem effect_of_run {t : ModeTransition} (h : i.run ws = some (t, ws')) :
    Effect ws i ws' := by
  cases i with
  | change s =>
    obtain ⟨b, hb, h⟩ := Option.bind_eq_some_iff.mp h
    obtain ⟨b', hb', h⟩ := Option.bind_eq_some_iff.mp h
    obtain ⟨-, rfl⟩ := Prod.mk.inj (Option.some.inj h)
    exact .keep (.refl _) (Workspace.paths_setCurrent_of_path _ hb (s.path_run hb')) rfl
  | edit filename => exact effect_edit h
  | write filename => exact effect_write h
  | writeAll =>
    obtain ⟨-, rfl⟩ := Prod.mk.inj (Option.some.inj h)
    exact .keep (Cmd.extends_writeBuffers _ _) (Cmd.map_path_writeBuffers _ _) rfl
  | deleteCurrentBuffer =>
    obtain ⟨b, -, h⟩ := Option.bind_eq_some_iff.mp h
    split at h
    · obtain ⟨-, rfl⟩ := Prod.mk.inj (Option.some.inj h)
      exact .keep (.refl _) rfl rfl
    · exact effect_forceDelete h
  | forceDeleteCurrentBuffer => exact effect_forceDelete h
  | quit =>
    rw [Cmd.eq_of_quit [] h]
    exact .keep (.refl _) rfl rfl

end WorkspaceStep

/-! ## The files of the open buffers -/

namespace Workspace

/-- There is a current buffer, every path has its file, and no two paths share one. -/
structure Distinct (ws : Workspace X) : Prop where
  index_lt : ws.buffers.curBufIndex < ws.paths.length
  canonical : ∀ p, some p ∈ ws.paths → (ws.fs.canonicalize p).isSome
  distinct : ws.paths.Pairwise fun a b ↦ ∀ p ∈ a, ∀ q ∈ b, ws.fs.resolve p ≠ ws.fs.resolve q

/-- There is a current buffer, and no two buffers have paths with the same canonical form. -/
structure OneBufferPerFile (ws : Workspace X) : Prop where
  nonempty : ws.buffers.list ≠ []
  index_lt : ws.buffers.curBufIndex < ws.buffers.list.length
  distinct : ws.buffers.list.Pairwise fun a b ↦ ∀ p ∈ a.path, ∀ q ∈ b.path,
    ∀ c ∈ ws.fs.canonicalize p, c ∉ ws.fs.canonicalize q

instance (ws : Workspace X) : Decidable ws.OneBufferPerFile :=
  decidable_of_iff (ws.buffers.list.length ≠ 0 ∧
      ws.buffers.curBufIndex < ws.buffers.list.length ∧
      ws.buffers.list.Pairwise fun a b ↦ ∀ p ∈ a.path, ∀ q ∈ b.path,
        ∀ c ∈ ws.fs.canonicalize p, c ∉ ws.fs.canonicalize q)
    ⟨fun h ↦ ⟨fun hn ↦ h.1 (by rw [hn]; rfl), h.2.1, h.2.2⟩,
      fun h ↦ ⟨fun hn ↦ h.1 (List.eq_nil_of_length_eq_zero hn), h.2, h.3⟩⟩

/-- A `:wa` that succeeds leaves every buffer's own data in the file of its path. -/
def WriteAllSaves (ws : Workspace X) : Prop :=
  ∀ ws', Cmd.writeAll ws [] = some (.newMode (.normal .new), ws') →
    ∀ b ∈ ws'.buffers.list, ∀ p ∈ b.path, ws'.fs.read p = some b.data

end Workspace

/-- A buffer without a path is not given one that names the file of another buffer. -/
def WorkspaceStep.NamesNoOpenFile (i : WorkspaceStep X) (ws : Workspace X) : Prop :=
  match i with
  | .write filename =>
    filename ≠ [] ∧ ws.fs.writable filename = true ∧
        ws.paths[ws.buffers.curBufIndex]? = some none →
      ∀ path ∈ ws.paths, ∀ p ∈ path, ws.fs.resolve p ≠ ws.fs.resolve filename
  | _ => True

instance (i : WorkspaceStep X) (ws : Workspace X) : Decidable (i.NamesNoOpenFile ws) :=
  match i with
  | .write filename => inferInstanceAs (Decidable
      (filename ≠ [] ∧ ws.fs.writable filename = true ∧
          ws.paths[ws.buffers.curBufIndex]? = some none →
        ∀ path ∈ ws.paths, ∀ p ∈ path, ws.fs.resolve p ≠ ws.fs.resolve filename))
  | .change _ | .edit _ | .writeAll | .deleteCurrentBuffer | .forceDeleteCurrentBuffer | .quit =>
    isTrue trivial

namespace Workspace

variable {ws ws' : Workspace X}

private theorem Distinct.oneBufferPerFile (h : ws.Distinct) : ws.OneBufferPerFile := by
  have hlt : ws.buffers.curBufIndex < ws.buffers.list.length := by
    simpa [paths] using h.index_lt
  refine ⟨List.ne_nil_of_length_pos (by omega), hlt, ?_⟩
  refine (List.pairwise_map.mp h.distinct).imp_of_mem fun {a b} ha hb hab p hp q hq c hc hc' ↦ ?_
  refine hab p hp q hq ?_
  have hpc := FileSystem.canonicalize_of_isSome
    (h.canonical p (List.mem_map.mpr ⟨a, ha, hp⟩))
  have hqc := FileSystem.canonicalize_of_isSome
    (h.canonical q (List.mem_map.mpr ⟨b, hb, hq⟩))
  rw [hc] at hpc
  rw [hc'] at hqc
  exact Option.some.inj (hpc.symm.trans hqc)

private theorem Distinct.extend (h : ws.Distinct) (hfs : ws.fs.Extends ws'.fs)
    (hpaths : ws'.paths = ws.paths) (hi : ws'.buffers.curBufIndex < ws.paths.length) :
    ws'.Distinct := by
  constructor
  · rwa [hpaths]
  · intro p hp
    exact hfs.canonicalize p (h.canonical p (hpaths ▸ hp))
  · rw [hpaths, hfs.resolve]
    exact h.distinct

private theorem pairwise_set {α : Type} {R : α → α → Prop} {l : List α} {i : Nat} {v : α}
    (h : l.Pairwise R) (hl : ∀ a ∈ l, R a v) (hr : ∀ a ∈ l, R v a) : (l.set i v).Pairwise R := by
  induction l generalizing i with
  | nil => simp
  | cons a l ih =>
    obtain ⟨ha, h⟩ := List.pairwise_cons.mp h
    obtain ⟨hla, hl⟩ := List.forall_mem_cons.mp hl
    obtain ⟨-, hr⟩ := List.forall_mem_cons.mp hr
    cases i with
    | zero => exact List.pairwise_cons.mpr ⟨hr, h⟩
    | succ i =>
      refine List.pairwise_cons.mpr ⟨fun b hb ↦ ?_, ih h hl hr⟩
      rcases List.mem_or_eq_of_mem_set hb with hb | rfl
      · exact ha b hb
      · exact hla

private theorem or_of_pairwise_set {α : Type} {R : α → α → Prop} {l : List α} {i j : Nat} {a v : α}
    (h : (l.set i v).Pairwise R) (hi : i < l.length) (ha : l[j]? = some a) (hij : i ≠ j) :
    R a v ∨ R v a := by
  have hv : (l.set i v)[i]? = some v := List.getElem?_set_self hi
  have ha' : (l.set i v)[j]? = some a := by rwa [List.getElem?_set_ne hij]
  obtain ⟨hi, hv⟩ := List.getElem?_eq_some_iff.mp hv
  obtain ⟨hj, ha'⟩ := List.getElem?_eq_some_iff.mp ha'
  have hp := List.pairwise_iff_getElem.mp h
  rcases Nat.lt_or_gt_of_ne hij with hlt | hlt
  · exact .inr (hv ▸ ha' ▸ hp i j hi hj hlt)
  · exact .inl (hv ▸ ha' ▸ hp j i hj hi hlt)

/-- Only a path given by `:w` can make two buffers share a file. -/
theorem Distinct.step {i : WorkspaceStep X} (h : ws.Distinct)
    (hi : i.NamesNoOpenFile ws) (hs : i.step ws = some ws') : ws'.Distinct := by
  obtain ⟨⟨t, ws''⟩, hrun, rfl⟩ := Option.map_eq_some_iff.mp hs
  cases WorkspaceStep.effect_of_run hrun with
  | keep hfs hpaths hcur => exact h.extend hfs hpaths (hcur ▸ h.index_lt)
  | switch hindex => exact h.extend (.refl _) rfl (by simpa [paths] using hindex)
  | @opened filename canon _ hcanon hnew hfs hpaths hcur =>
    have hres : ws.fs.canonicalize filename = some (ws.fs.resolve filename) :=
      FileSystem.canonicalize_of_isSome (by rw [hcanon]; rfl)
    rw [hcanon] at hres
    constructor
    · rw [hcur, hpaths, List.length_append]
      exact Nat.lt_succ_self _
    · rw [hfs, hpaths]
      intro p hp
      rcases List.mem_append.mp hp with hp | hp
      · exact h.canonical p hp
      · obtain ⟨rfl⟩ := List.mem_singleton.mp hp
        rw [hcanon]
        rfl
    · rw [hfs, hpaths, List.pairwise_append]
      refine ⟨h.distinct, List.pairwise_singleton _ _, fun a ha b hb p hp q hq ↦ ?_⟩
      obtain rfl := List.mem_singleton.mp hb
      obtain ⟨rfl⟩ := hq
      obtain rfl : a = some p := hp
      obtain ⟨c, hc, hne⟩ := hnew p ha
      have hpc := FileSystem.canonicalize_of_isSome (h.canonical p ha)
      rw [hc] at hpc
      rwa [← Option.some.inj hpc, ← Option.some.inj hres]
  | @named filename content _ hne hnone hwrite hpaths hcur =>
    have hfs := FileSystem.extends_of_write hwrite
    have hfree := hi ⟨hne, FileSystem.writable_of_write hwrite, hnone⟩
    constructor
    · rw [hcur, hpaths, List.length_set]
      exact h.index_lt
    · intro p hp
      rw [hpaths] at hp
      rcases List.mem_or_eq_of_mem_set hp with hp | hp
      · exact hfs.canonicalize p (h.canonical p hp)
      · obtain ⟨rfl⟩ := hp
        rw [FileSystem.isSome_canonicalize, FileSystem.read_of_write hwrite]
        rfl
    · rw [hpaths, hfs.resolve]
      refine pairwise_set h.distinct ?_ ?_
      · rintro a ha p hp q ⟨rfl⟩
        exact hfree a ha p hp
      · rintro a ha q ⟨rfl⟩ p hp
        exact (hfree a ha p hp).symm
  | closed hindex hfs hpaths hcur =>
    have hlen : ws.paths.length = ws.buffers.list.length := List.length_map _
    have herase : (ws.paths.eraseIdx ws.buffers.curBufIndex).length = ws.paths.length - 1 :=
      List.length_eraseIdx_of_lt h.index_lt
    have hsub := List.eraseIdx_sublist ws.paths ws.buffers.curBufIndex
    split at hpaths
    · next hnil =>
      rw [hnil, List.length_nil] at herase
      constructor
      · rw [hcur, hpaths, List.length_singleton]
        omega
      · simp [hpaths]
      · rw [hpaths]
        exact List.pairwise_singleton _ _
    · next hne =>
      have hpos := List.length_pos_iff.mpr hne
      constructor
      · rw [hcur, hpaths]
        omega
      · rw [hfs, hpaths]
        intro p hp
        exact h.canonical p (hsub.subset hp)
      · rw [hfs, hpaths]
        exact h.distinct.sublist hsub

/-- A path given by `:w` that names an open file makes two buffers share it. -/
theorem Distinct.namesNoOpenFile {i : WorkspaceStep X} (h : ws.Distinct)
    (hs : ∀ ws', i.step ws = some ws' → ws'.OneBufferPerFile) : i.NamesNoOpenFile ws := by
  cases i with
  | write filename =>
    rintro ⟨hne, hwritable, hnone⟩ path hpath p hp heq
    obtain rfl : path = some p := hp
    obtain ⟨j, hj⟩ := List.mem_iff_getElem?.mp hpath
    have hij : ws.buffers.curBufIndex ≠ j := by
      rintro rfl
      rw [hnone] at hj
      cases hj
    rw [paths, List.getElem?_map, Option.map_eq_some_iff] at hnone
    obtain ⟨b, hb, hbp⟩ := hnone
    obtain ⟨fs', hwrite⟩ : ∃ fs', ws.fs.write filename b.data = some fs' :=
      ⟨_, if_pos hwritable⟩
    have hfs := FileSystem.extends_of_write hwrite
    have hstep := congrArg (Option.map Prod.snd) (Cmd.write_of_ne_nil hb hne hwrite)
    have hd := (hs _ hstep).distinct
    rw [← List.pairwise_map (f := CurrentBuffer.path) (R := fun x y ↦ ∀ p ∈ x, ∀ q ∈ y,
      ∀ c ∈ fs'.canonicalize p, c ∉ fs'.canonicalize q)] at hd
    change (paths (Workspace.mk fs' (ws.buffers.setCurrent _))).Pairwise _ at hd
    rw [paths_setCurrent, CurrentBuffer.path_updatePathIfMissing, hbp] at hd
    have hpc : fs'.canonicalize p = some (ws.fs.resolve p) := by
      rw [FileSystem.canonicalize_of_isSome (hfs.canonicalize p (h.canonical p hpath)), hfs.resolve]
    have hfc : fs'.canonicalize filename = some (ws.fs.resolve p) := by
      have hread : (fs'.read filename).isSome := by
        rw [FileSystem.read_of_write hwrite]
        rfl
      rw [FileSystem.canonicalize_of_isSome (FileSystem.isSome_canonicalize.mpr hread),
        hfs.resolve, heq]
    rcases or_of_pairwise_set hd h.index_lt hj hij with hr | hr
    · exact hr p rfl filename rfl _ hpc hfc
    · exact hr filename rfl p rfl _ hfc hpc
  | change _ => trivial
  | edit _ => trivial
  | writeAll => trivial
  | deleteCurrentBuffer => trivial
  | forceDeleteCurrentBuffer => trivial
  | quit => trivial

/-- The loop of `:wa`, where no two buffers share a file. -/
theorem read_writeBuffers {fs : FileSystem} {list : List (CurrentBuffer X)}
    (hd : list.Pairwise fun a b ↦ ∀ p ∈ a.path, ∀ q ∈ b.path, fs.resolve p ≠ fs.resolve q)
    (h : (Cmd.writeBuffers fs list).1 = false) :
    (∀ b ∈ (Cmd.writeBuffers fs list).2.2, ∀ p ∈ b.path,
      (Cmd.writeBuffers fs list).2.1.read p = some b.data) ∧
    ∀ q, (∀ b ∈ list, ∀ p ∈ b.path, fs.resolve p ≠ fs.resolve q) →
      (Cmd.writeBuffers fs list).2.1.read q = fs.read q := by
  induction list generalizing fs with
  | nil => exact ⟨by simp [Cmd.writeBuffers], fun _ _ ↦ rfl⟩
  | cons b list ih =>
    obtain ⟨hb, hd⟩ := List.pairwise_cons.mp hd
    rw [Cmd.writeBuffers] at h ⊢
    split at h
    · next hp =>
      obtain ⟨hsaved, hrest⟩ := ih hd h
      refine ⟨List.forall_mem_cons.mpr ⟨by simp [hp], hsaved⟩, fun q hq ↦ hrest q ?_⟩
      exact (List.forall_mem_cons.mp hq).2
    · next path hp =>
      split at h
      · cases h
      · next fs' hw =>
        have hres := (FileSystem.extends_of_write hw).resolve
        obtain ⟨hsaved, hrest⟩ := ih (by rwa [hres]) h
        rw [hres] at hrest
        refine ⟨List.forall_mem_cons.mpr ⟨?_, hsaved⟩, fun q hq ↦ ?_⟩
        · intro p hp'
          obtain rfl : path = p := Option.some.inj (hp.symm.trans hp')
          rw [hrest path fun c hc q hq ↦ (hb c hc path hp q hq).symm]
          exact FileSystem.read_of_write hw
        · obtain ⟨hqb, hq⟩ := List.forall_mem_cons.mp hq
          rw [hrest q hq]
          exact FileSystem.read_of_write_ne hw (hqb path hp).symm

private theorem Distinct.writeAllSaves (h : ws.Distinct) : ws.WriteAllSaves := by
  intro ws' hw
  obtain ⟨ht, rfl⟩ := Prod.mk.inj (Option.some.inj hw)
  refine (read_writeBuffers (List.pairwise_map.mp h.distinct) ?_).1
  by_contra hc
  rw [Bool.not_eq_false] at hc
  rw [if_pos hc] at ht
  cases ht

/-- From one buffer, whose file is there if it has a path: along exactly the runs that give
no buffer the path of another one's file there is one buffer per file, and then `:wa` saves
every buffer. -/
theorem one_buffer_per_file_iff (steps : List (WorkspaceStep X)) (fs : FileSystem)
    (b : CurrentBuffer X) (hb : ∀ p ∈ b.path, (fs.canonicalize p).isSome) :
    (Along WorkspaceStep.step WorkspaceStep.NamesNoOpenFile steps
        { fs, buffers := .withCurrentBuffer b } ↔
      Always WorkspaceStep.step OneBufferPerFile steps
        { fs, buffers := .withCurrentBuffer b }) ∧
    (Along WorkspaceStep.step WorkspaceStep.NamesNoOpenFile steps
        { fs, buffers := .withCurrentBuffer b } →
      Always WorkspaceStep.step WriteAllSaves steps
        { fs, buffers := .withCurrentBuffer b }) := by
  have hstart : Distinct { fs, buffers := BuffrCollection.withCurrentBuffer b } := by
    refine ⟨Nat.zero_lt_one, fun p hp ↦ ?_, List.pairwise_singleton _ _⟩
    exact hb p (List.mem_singleton.mp hp).symm
  refine ⟨along_iff_always_of_invariant hstart (fun _ h ↦ h.oneBufferPerFile)
    (fun i ws ws' h ↦ h.step) fun i ws h ↦ h.namesNoOpenFile, fun ha ↦ ?_⟩
  exact (ha.always hstart fun i ws ws' h ↦ h.step).imp fun _ h ↦ h.writeAllSaves

-- Two files of one byte each.
private def twoFiles : FileSystem :=
  { files := fun p ↦ if p = ['f'] then some [1] else if p = ['g'] then some [2] else none
    resolve := id
    writable := fun _ ↦ true
    errorText := "" }

-- The editor as it starts without a file.
private def scratch : Workspace (XiRope.reference UInt8) :=
  { fs := twoFiles, buffers := .withCurrentBuffer .default }

-- Both files are opened, and the first one closed, which leads back to the scratch buffer.
private def backToScratch : List (WorkspaceStep (XiRope.reference UInt8)) :=
  [.edit ['f'], .edit ['g'], .edit ['f'], .deleteCurrentBuffer]

/-- The scratch buffer is written to a file that is not open. -/
theorem one_buffer_per_new_file :
    Always WorkspaceStep.step OneBufferPerFile (backToScratch ++ [.write ['h'], .writeAll])
      scratch := by
  refine (one_buffer_per_file_iff (backToScratch ++ [.write ['h'], .writeAll]) twoFiles .default
    ?_).1.mp ?_
  · rintro p ⟨⟩
  · decide

/-- The scratch buffer is written under the name of the other open file. Both buffers have its
path, and `:wa` overwrites the data of the one with that of the other. -/
theorem write_shares_open_file :
    (runSteps WorkspaceStep.step (backToScratch ++ [.write ['g']]) scratch).map
      (fun ws ↦ (ws.paths, ws.buffers.list.map CurrentBuffer.data, ws.fs.read ['g'])) =
      some ([some ['g'], some ['g']], [[], [2]], some []) ∧
    (runSteps WorkspaceStep.step (backToScratch ++ [.write ['g'], .writeAll]) scratch).map
      (fun ws ↦ ws.fs.read ['g']) = some (some [2]) ∧
    ¬ Always WorkspaceStep.step OneBufferPerFile (backToScratch ++ [.write ['g']]) scratch := by
  refine ⟨by decide, by decide, fun ha ↦ ?_⟩
  have hno : (runSteps WorkspaceStep.step (backToScratch ++ [.write ['g']]) scratch).map
      (fun ws ↦ decide ws.OneBufferPerFile) = some false := by decide
  obtain ⟨ws, hrun, hws⟩ := Option.map_eq_some_iff.mp hno
  exact of_decide_eq_false hws (ha.last hrun)

end Workspace

end Tofu

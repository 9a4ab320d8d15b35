import Tofu.Buffer.Editing

/-!
# The window of the file and the edits

A buffer opened by `main` holds the first bytes of its file. `load_next_chunk` appends
what follows in the file at the offset given by the length of the data
(`src/src/current_buffer.rs:99–149`), and `trim_buffer_top` drops the first bytes
(`src/src/hex_view/view.rs:653–688`). Both change the data behind the back of the history,
and edits that change the length move the place from which the next chunk is read.
-/

namespace Tofu

open Rope

variable {X : XiRope UInt8}

/-- What `trim_buffer_top` leaves of the data, `view.rs:653–688`. -/
def trimTop (data : List UInt8) (chunkSize : Nat) : List UInt8 :=
  if chunkSize = 0 ∨ data.length ≤ chunkSize * 2 then data
  else if chunkSize < data.length then data.drop chunkSize
  else data

/-- The steps that change data and history of a buffer. -/
inductive WindowStep (X : XiRope UInt8) where
  | final (e : BufferEdit X)
  | incomplete (e : BufferEdit X)
  | commit
  | undo
  | redo
  | load (chunkSize : Nat)
  | trim (chunkSize : Nat)

namespace WindowStep

/-- `none` is a panic, or the error of a file that cannot be opened. -/
def run (fs : FileSystem) : WindowStep X → CurrentBuffer X → Option (CurrentBuffer X)
  | final e, b => e.run true b
  | incomplete e, b => e.run false b
  | commit, b => some b.commitDelta
  | undo, b => some b.undoStep
  | redo, b => some b.redoStep
  | load chunkSize, b => (b.loadNextChunk fs chunkSize).map Prod.fst
  | trim chunkSize, b => some { b with data := trimTop b.data chunkSize }

/-- The step is an edit, an undo or a redo. -/
def edits : WindowStep X → CurrentBuffer X → Bool
  | final _, _ | incomplete _, _ => true
  | undo, b => b.performUndo.isSome
  | redo, b => b.performRedo.isSome
  | commit, _ | load _, _ | trim _, _ => false

end WindowStep

section

variable {fs : FileSystem} {path : Path} {F : List UInt8}

/-- Loading appends what the file holds at the offset given by the length of the data. -/
theorem CurrentBuffer.loadNextChunk_eq {b : CurrentBuffer X} (hp : b.path = some path)
    (hF : fs.read path = some F) (chunkSize : Nat) :
    b.loadNextChunk fs chunkSize =
      some ({ b with data := b.data ++ (F.drop b.data.length).take chunkSize },
        decide (0 < ((F.drop b.data.length).take chunkSize).length)) := by
  unfold loadNextChunk
  split
  · next h => rw [hp] at h; cases h
  · next p h =>
    obtain rfl : path = p := Option.some.inj (hp.symm.trans h)
    simp only [FileSystem.readAt, hF, Option.map_some]
    split
    · next h => rw [X.apply_simpleEdit_end, decide_eq_true h]
    · next h =>
      have hn : (F.drop b.data.length).take chunkSize = [] :=
        List.eq_nil_of_length_eq_zero (by omega)
      rw [hn, List.append_nil]
      rfl

/-- Loading appends what it reads, and says whether it read anything. -/
theorem CurrentBuffer.loadNextChunk_reads {b b' : CurrentBuffer X} {chunkSize : Nat} {r : Bool}
    (h : b.loadNextChunk fs chunkSize = some (b', r)) :
    ∃ chunk, b' = { b with data := b.data ++ chunk } ∧ (r = true ↔ chunk ≠ []) := by
  unfold loadNextChunk at h
  split at h
  · obtain ⟨rfl, rfl⟩ := Prod.mk.inj (Option.some.inj h)
    exact ⟨[], by rw [List.append_nil], by simp⟩
  · obtain ⟨chunk, -, h⟩ := Option.map_eq_some_iff.mp h
    split at h
    · next hpos =>
      obtain ⟨rfl, rfl⟩ := Prod.mk.inj h
      exact ⟨chunk, by rw [X.apply_simpleEdit_end], by simpa using List.length_pos_iff.mp hpos⟩
    · obtain ⟨rfl, rfl⟩ := Prod.mk.inj h
      exact ⟨[], by rw [List.append_nil], by simp⟩

/-- Loading only ever appends to the data. -/
theorem CurrentBuffer.loadNextChunk_appends {b b' : CurrentBuffer X} {chunkSize : Nat} {r : Bool}
    (h : b.loadNextChunk fs chunkSize = some (b', r)) :
    ∃ chunk, b' = { b with data := b.data ++ chunk } := by
  obtain ⟨chunk, hb', -⟩ := loadNextChunk_reads h
  exact ⟨chunk, hb'⟩

/-- Loading reads no more than it is asked for. -/
theorem CurrentBuffer.length_loadNextChunk {b b' : CurrentBuffer X} {chunkSize : Nat} {r : Bool}
    (h : b.loadNextChunk fs chunkSize = some (b', r)) :
    b'.data.length ≤ b.data.length + chunkSize := by
  unfold loadNextChunk at h
  split at h
  · obtain ⟨rfl, -⟩ := Prod.mk.inj (Option.some.inj h)
    exact Nat.le_add_right _ _
  · obtain ⟨chunk, hread, h⟩ := Option.map_eq_some_iff.mp h
    obtain ⟨content, -, rfl⟩ := Option.map_eq_some_iff.mp hread
    split at h
    · obtain ⟨rfl, -⟩ := Prod.mk.inj h
      rw [X.apply_simpleEdit_end, List.length_append]
      exact Nat.add_le_add_left (List.length_take_le _ _) _
    · obtain ⟨rfl, -⟩ := Prod.mk.inj h
      exact Nat.le_add_right _ _

namespace WindowStep

variable {s : WindowStep X} {b b' : CurrentBuffer X}

/-- Steps change data, selection and history, and the flag is set by those that edit. -/
theorem exists_run (h : s.run fs b = some b') : ∃ data selection history,
    b' = { b with data, selection, history, dirty := s.edits b || b.dirty } := by
  cases s with
  | final e | incomplete e =>
    simp only [run, BufferEdit.run_eq] at h
    obtain ⟨sel, -, rfl⟩ := Option.map_eq_some_iff.mp h
    exact ⟨_, _, _, rfl⟩
  | commit | trim =>
    obtain rfl := Option.some.inj h
    exact ⟨_, _, _, rfl⟩
  | undo =>
    obtain rfl := Option.some.inj h
    simp only [CurrentBuffer.undoStep, edits, CurrentBuffer.performUndo]
    cases b.history.undo b.data b.selection <;> exact ⟨_, _, _, rfl⟩
  | redo =>
    obtain rfl := Option.some.inj h
    simp only [CurrentBuffer.redoStep, edits, CurrentBuffer.performRedo]
    cases b.history.redo b.data b.selection <;> exact ⟨_, _, _, rfl⟩
  | load chunkSize =>
    obtain ⟨⟨b₁, read⟩, hl, rfl⟩ := Option.map_eq_some_iff.mp h
    obtain ⟨chunk, rfl⟩ := CurrentBuffer.loadNextChunk_appends hl
    exact ⟨_, _, _, rfl⟩

/-- A step leaves the path of the buffer. -/
theorem path_run (h : s.run fs b = some b') : b'.path = b.path := by
  obtain ⟨_, _, _, rfl⟩ := exists_run h
  rfl

/-- The flag is left alone by everything but edits, undos and redos. -/
theorem dirty_run (h : s.run fs b = some b') : b'.dirty = (s.edits b || b.dirty) := by
  obtain ⟨_, _, _, rfl⟩ := exists_run h
  rfl

end WindowStep

end

/-! ## What has been loaded -/

/-- A buffer, with the file offsets of all bytes loaded into it so far, in order. -/
structure Tracked (X : XiRope UInt8) where
  buffer : CurrentBuffer X
  loaded : List Nat

/-- The file offsets that a step reads. -/
def WindowStep.reads (fs : FileSystem) : WindowStep X → CurrentBuffer X → List Nat
  | load chunkSize, b =>
    match b.path.bind fun path ↦ fs.readAt path b.data.length chunkSize with
    | some chunk => (List.range chunk.length).map (b.data.length + ·)
    | none => []
  | _, _ => []

/-- The buffer after a step, and what has been read so far. -/
def WindowStep.track (fs : FileSystem) (s : WindowStep X) (w : Tracked X) : Option (Tracked X) :=
  (s.run fs w.buffer).map fun b ↦ { buffer := b, loaded := w.loaded ++ s.reads fs w.buffer }

/-- A file opened by `main`, which reads the first `chunkSize` bytes. -/
def Tracked.opened (path : Path) (F : List UInt8) (chunkSize : Nat) : Tracked X :=
  { buffer := CurrentBuffer.fromDataAndPath (F.take chunkSize) (some path)
    loaded := List.range (F.take chunkSize).length }

/-- What is read comes right behind what has been loaded. -/
def WindowStep.Aligned (fs : FileSystem) (s : WindowStep X) (w : Tracked X) : Prop :=
  s.reads fs w.buffer ≠ [] → w.buffer.data.length = w.loaded.length

/-- The bytes loaded, in order. -/
def loadedBytes (F : List UInt8) (loaded : List Nat) : List UInt8 :=
  loaded.filterMap fun i ↦ F[i]?

private theorem range_append_eq_iff (m c k : Nat) :
    List.range m ++ (List.range c).map (k + ·) = List.range (m + c) ↔ (c ≠ 0 → k = m) := by
  rw [List.range_add, List.append_cancel_left_eq]
  constructor
  · intro h hc
    have := congrArg (fun l : List Nat ↦ l[0]?) h
    simpa [List.getElem?_range, Nat.pos_of_ne_zero hc] using this
  · intro h
    by_cases hc : c = 0
    · rw [hc]
      rfl
    · rw [h hc]

private theorem loadedBytes_range (F : List UInt8) (n : Nat) :
    loadedBytes F (List.range n) = F.take n := by
  induction n with
  | zero => rfl
  | succ n ih =>
    rw [List.range_succ, loadedBytes, List.filterMap_append]
    change loadedBytes F (List.range n) ++ _ = _
    rw [ih, List.take_add_one]
    cases h : F[n]? <;> simp [h]

section

variable {fs : FileSystem} {path : Path} {F : List UInt8}

private theorem track_eq_some_iff {s : WindowStep X} {w w' : Tracked X} :
    s.track fs w = some w' ↔
      s.run fs w.buffer = some w'.buffer ∧ w'.loaded = w.loaded ++ s.reads fs w.buffer := by
  obtain ⟨b', l'⟩ := w'
  simp only [WindowStep.track, Option.map_eq_some_iff, Tracked.mk.injEq]
  constructor
  · rintro ⟨b, h, rfl, rfl⟩
    exact ⟨h, rfl⟩
  · rintro ⟨h, rfl⟩
    exact ⟨b', h, rfl, rfl⟩

private theorem reads_load {b : CurrentBuffer X} (hp : b.path = some path)
    (hF : fs.read path = some F) (n : Nat) :
    (WindowStep.load n).reads fs b =
      (List.range ((F.drop b.data.length).take n).length).map (b.data.length + ·) := by
  simp [WindowStep.reads, hp, FileSystem.readAt, hF]

/-- A step keeps the order of what is loaded exactly when it is aligned. -/
theorem aligned_iff {s : WindowStep X} {w : Tracked X} (hp : w.buffer.path = some path)
    (hF : fs.read path = some F) (hl : w.loaded = List.range w.loaded.length) :
    s.Aligned fs w ↔ ∀ w', s.track fs w = some w' →
      w'.buffer.path = some path ∧ w'.loaded = List.range w'.loaded.length := by
  have hpath : ∀ w', s.track fs w = some w' → w'.buffer.path = some path := fun w' h ↦
    (WindowStep.path_run (track_eq_some_iff.mp h).1).trans hp
  have hnil : s.reads fs w.buffer = [] → ∀ w', s.track fs w = some w' →
      w'.loaded = List.range w'.loaded.length := by
    intro hn w' h
    have hw := (track_eq_some_iff.mp h).2
    rw [hn, List.append_nil] at hw
    rw [hw]
    exact hl
  cases s with
  | load n =>
    have hr := reads_load hp hF n
    generalize ((F.drop w.buffer.data.length).take n).length = c at hr
    have hrun : (WindowStep.load n).track fs w = some
        { buffer := { w.buffer with
            data := w.buffer.data ++ (F.drop w.buffer.data.length).take n }
          loaded := w.loaded ++ (WindowStep.load n).reads fs w.buffer } := by
      simp [WindowStep.track, WindowStep.run, CurrentBuffer.loadNextChunk_eq hp hF]
    have hlen : (w.loaded ++ (List.range c).map (w.buffer.data.length + ·)).length =
        w.loaded.length + c := by simp
    have hiff := range_append_eq_iff w.loaded.length c w.buffer.data.length
    rw [← hl] at hiff
    have hal : (WindowStep.load n).Aligned fs w ↔
        (c ≠ 0 → w.buffer.data.length = w.loaded.length) := by
      simp [WindowStep.Aligned, hr]
    rw [hal, ← hiff]
    constructor
    · intro h w' hw
      refine ⟨hpath w' hw, ?_⟩
      have hw' := (track_eq_some_iff.mp hw).2
      rw [hr] at hw'
      rw [hw', hlen, h]
    · intro h
      have := (h _ hrun).2
      rwa [hr, hlen] at this
  | _ =>
    constructor
    · intro _ w' h
      exact ⟨hpath w' h, hnil rfl w' h⟩
    · intro _ h
      exact absurd rfl h

/-- For a file opened by `main` and every run of edits, undos, redos, loads and trims:
every byte of the file is loaded once and in order exactly when each load that reads
something happens with as many bytes in the buffer as have been loaded. What is loaded is
then a prefix of the file. A further load leaves the data alone exactly when the buffer is
at least as long as the file. -/
theorem loaded_in_order_iff (hF : fs.read path = some F) (chunkSize : Nat)
    (steps : List (WindowStep X)) :
    (Along (WindowStep.track fs) (WindowStep.Aligned fs) steps (Tracked.opened path F chunkSize) ↔
      Always (WindowStep.track fs) (fun w ↦ w.loaded = List.range w.loaded.length) steps
        (Tracked.opened path F chunkSize)) ∧
    (Along (WindowStep.track fs) (WindowStep.Aligned fs) steps (Tracked.opened path F chunkSize) →
      Always (WindowStep.track fs) (fun w ↦ loadedBytes F w.loaded <+: F) steps
        (Tracked.opened path F chunkSize)) ∧
    ∀ w, runSteps (WindowStep.track fs) steps (Tracked.opened path F chunkSize) = some w →
      ∀ size, (w.buffer.loadNextChunk fs size).map (fun r ↦ r.1.data) = some w.buffer.data ↔
        size = 0 ∨ F.length ≤ w.buffer.data.length := by
  have hrange : (Tracked.opened (X := X) path F chunkSize).loaded =
      List.range (Tracked.opened (X := X) path F chunkSize).loaded.length := by
    simp [Tracked.opened]
  have hpath : Always (WindowStep.track fs) (fun w : Tracked X ↦ w.buffer.path = some path) steps
      (Tracked.opened path F chunkSize) := by
    refine always_of_step rfl ?_
    intro s w w' hp h
    exact (WindowStep.path_run (track_eq_some_iff.mp h).1).trans hp
  have hiff : Along _ _ steps _ ↔ Always _ _ steps _ := along_iff_always
    (Q := fun w : Tracked X ↦ w.buffer.path = some path ∧ w.loaded = List.range w.loaded.length)
    ⟨rfl, hrange⟩ fun s w ⟨hp, hl⟩ ↦ aligned_iff (s := s) hp hF hl
  refine ⟨⟨fun h ↦ (hiff.mp h).imp fun w hw ↦ hw.2, fun h ↦ hiff.mpr (hpath.and h)⟩,
    fun h ↦ (hiff.mp h).imp fun w hw ↦ ?_, fun w hw size ↦ ?_⟩
  · rw [hw.2, loadedBytes_range]
    exact List.take_prefix _ _
  · rw [CurrentBuffer.loadNextChunk_eq (hpath.last hw) hF]
    simp only [Option.map_some, Option.some.injEq, List.append_right_eq_self, List.take_eq_nil_iff,
      List.drop_eq_nil_iff]

/-- Four bytes, two of them loaded at first and the others by the next load. -/
theorem loaded_in_order_twoLoads :
    let fs := FileSystem.single ['f'] [1, 2, 3, 4]
    let steps : List (WindowStep (XiRope.reference UInt8)) := [.load 64]
    Always (WindowStep.track fs) (fun w ↦ loadedBytes [1, 2, 3, 4] w.loaded <+: [1, 2, 3, 4]) steps
      (Tracked.opened ['f'] [1, 2, 3, 4] 2) := by
  intro fs steps
  have ha : Along (WindowStep.track fs) (WindowStep.Aligned fs) steps
      (Tracked.opened ['f'] [1, 2, 3, 4] 2) := ⟨fun _ ↦ rfl, fun _ _ ↦ trivial⟩
  exact (loaded_in_order_iff rfl 2 steps).2.1 ha

/-- A file of two bytes is loaded whole; deleting the first byte makes the next redraw load
the second one again. -/
theorem load_after_deletion_repeats :
    let X := XiRope.reference UInt8
    let fs := FileSystem.single ['f'] [1, 2]
    let steps : List (WindowStep X) := [.final ⟨X.simpleEdit 0 1 [] 2, none⟩, .load 64]
    (runSteps (WindowStep.track fs) steps (Tracked.opened ['f'] [1, 2] 368)).map
        (fun w ↦ (w.buffer.data, w.loaded)) = some ([2, 2], [0, 1, 1]) ∧
      ¬ loadedBytes [1, 2] [0, 1, 1] <+: [1, 2] := by
  decide

end

end Tofu

import Tofu.View.Scrolling
import Tofu.View.Windows

/-!
# How much of a file is held

The readme promises that of a large file at most three screens are in memory. CTRL-e loads
a chunk on every press (`src/src/hex_view/view.rs:1407–1425`), and bytes are dropped only
when `scroll_down` itself has to load: once the next screen is there already, pressing
the key holds more and more of the file.
-/

namespace Tofu

open Rope

variable {X : XiRope UInt8} {path : Path} {F : List UInt8} {fs : FileSystem} {height : Nat}

/-- Three chunks and a freshly loaded one. -/
def memoryBound (height : Nat) : Nat := chunkSize height * 3 + max (chunkSize height) 64

/-- The key that scrolls down by a line. -/
def ctrlE : Event := .key (onCtrl 'e' ()).1

/-- CTRL-e, CTRL-y and the cursor keys. -/
def scrollingKeys : List Event :=
  [ctrlE, .key (onCtrl 'y' ()).1, .key (.plain (.char 'h')), .key (.plain (.char 'j')),
    .key (.plain (.char 'k')), .key (.plain (.char 'l'))]

/-- No more of the file is in memory, and no more was after any load. -/
def HexView.HoldsAtMost (n : Nat) (v : HexView X) : Prop :=
  (∀ b ∈ v.current, b.data.length ≤ n) ∧ ∀ c ∈ v.calls, c.data.length ≤ n

/-! ## The mode and the screen -/

/-- The mode, the message, the screen and the number of buffers are the same. -/
structure HexView.SameFrame (v v' : HexView X) : Prop where
  mode : v'.mode = v.mode
  info : v'.info = v.info
  size : v'.size = v.size
  bytesPerLine : v'.bytesPerLine = v.bytesPerLine
  buffer : ∀ b, v.buffrCollection = .withCurrentBuffer b →
    ∃ b', v'.buffrCollection = .withCurrentBuffer b'

namespace HexView

variable {v v' : HexView X}

private theorem SameFrame.rfl : SameFrame v v :=
  ⟨Eq.refl _, Eq.refl _, Eq.refl _, Eq.refl _, fun b hb ↦ ⟨b, hb⟩⟩

private theorem SameFrame.trans {v'' : HexView X} (h : SameFrame v v') (h' : SameFrame v' v'') :
    SameFrame v v'' where
  mode := h'.mode.trans h.mode
  info := h'.info.trans h.info
  size := h'.size.trans h.size
  bytesPerLine := h'.bytesPerLine.trans h.bytesPerLine
  buffer b hb := by
    obtain ⟨b', hb'⟩ := h.buffer b hb
    exact h'.buffer b' hb'

private theorem sameFrame_trimAfterLoad (h : v.trimAfterLoad height = some v') :
    SameFrame v v' := by
  obtain rfl | ⟨b, -, -, rfl⟩ := trimAfterLoad_cases h
  · exact .rfl
  · exact ⟨rfl, rfl, rfl, rfl, fun _ hb ↦ ⟨_, setCurrent_of_eq hb⟩⟩

/-- No part of drawing and scrolling changes the size or the line length. -/
theorem SameFrame.steps (fs : FileSystem) (height : Nat) :
    Steps (X := X) fs height SameFrame where
  refl _ := .rfl
  trans := .trans
  load h := by
    obtain ⟨b, -, h⟩ := Option.bind_eq_some_iff.mp h
    obtain ⟨⟨b', loaded⟩, -, h⟩ := Option.bind_eq_some_iff.mp h
    obtain ⟨rfl, -⟩ := Prod.mk.inj (Option.some.inj h)
    exact ⟨Eq.refl _, Eq.refl _, Eq.refl _, Eq.refl _, fun _ hb ↦ ⟨b', setCurrent_of_eq hb⟩⟩
  trim := sameFrame_trimAfterLoad
  move _ _ := ⟨Eq.refl _, Eq.refl _, Eq.refl _, Eq.refl _, fun b hb ↦ ⟨b, hb⟩⟩

/-- Moving the cursors does not change them either. -/
theorem sameFrame_moveCursors {direction : Direction} (h : v.moveCursors direction = some v') :
    SameFrame v v' := by
  obtain ⟨b, -, h⟩ := Option.bind_eq_some_iff.mp h
  obtain ⟨⟨b', d⟩, -, h⟩ := Option.bind_eq_some_iff.mp h
  obtain rfl := Option.some.inj h
  exact ⟨rfl, rfl, rfl, rfl, fun _ hb ↦ ⟨b', setCurrent_of_eq hb⟩⟩

/-- No key that the view itself handles does. -/
theorem sameFrame_handleEventDefault {evt : KeyEvent}
    (h : v.handleEventDefault fs height (.key evt) = some v') : SameFrame v v' := by
  have hs := SameFrame.steps (X := X) fs height
  cases handles_of_handleEventDefault fs height v h with
  | down _ hl hm hscroll hd =>
    exact (hs.load hl).trans
      ((sameFrame_moveCursors hm).trans ((hs.scrollDown hscroll).trans (hs.draw hd)))
  | up _ hm hscroll hd =>
    exact (sameFrame_moveCursors hm).trans ((hs.scrollUp hscroll).trans (hs.draw hd))
  | key => exact .rfl

/-- The mode after a transition is the one that it names. -/
theorem mode_transition {t : ModeTransition} (h : v.transition fs height t = some v') :
    v'.mode = t.mode v.mode := by
  have hs := SameFrame.steps (X := X) fs height
  cases t with
  | none | newMode | modeAndInfo =>
    obtain rfl := Option.some.inj h
    rfl
  | dirtyBytes dirty => exact (hs.transitionDirtyBytes h).mode
  | modeAndDirtyBytes mode dirty => exact (hs.transitionDirtyBytes h).mode

end HexView

/-! ## Runs of these keys -/

section Keys

variable {E : SearchEngine} {evt : Event}

private theorem exists_key_of_mem_scrollingKeys (hevt : evt ∈ scrollingKeys) :
    ∃ key, evt = .key key := by
  simp only [scrollingKeys, ctrlE, List.mem_cons, List.not_mem_nil, or_false] at hevt
  rcases hevt with rfl | rfl | rfl | rfl | rfl | rfl <;> exact ⟨_, rfl⟩

private theorem transition_of_mem_scrollingKeys (hevt : evt ∈ scrollingKeys) (b : CurrentBuffer X)
    (bytesPerLine : Nat) :
    Normal.transition .new evt b bytesPerLine = .unhandled ∨
      ∃ r, Normal.transition .new evt b bytesPerLine = .modeAndDirty (.normal .new) r := by
  simp only [scrollingKeys, List.mem_cons, List.not_mem_nil, or_false] at hevt
  rcases hevt with rfl | rfl | rfl | rfl | rfl | rfl
  · exact .inl rfl
  · exact .inl rfl
  · exact .inr ⟨_, rfl⟩
  · exact .inr ⟨_, rfl⟩
  · exact .inr ⟨_, rfl⟩
  · exact .inr ⟨_, rfl⟩

private theorem reads_of_mem_scrollingKeys (hevt : evt ∈ scrollingKeys) {e : Editor X}
    (hm : e.view.mode = .normal .new) : e.Reads evt := by
  obtain ⟨key, rfl⟩ := exists_key_of_mem_scrollingKeys hevt
  refine ⟨trivial, ?_⟩
  rw [hm]
  have hall : ∀ evt ∈ scrollingKeys, Mode.Reads evt (.normal .new) := by decide
  exact hall _ hevt

private theorem mode_step_of_mem_scrollingKeys (hevt : evt ∈ scrollingKeys) {e e' : Editor X}
    (hm : e.view.mode = .normal .new) (hs : Editor.step E height evt e = some e') :
    e'.view.mode = .normal .new := by
  rcases Editor.round_cases hs with ⟨t, ws, ho, -, hv⟩ | ⟨-, -, hv⟩
  · rw [hm] at ho
    obtain ⟨b, -, ho⟩ := Option.bind_eq_some_iff.mp ho
    obtain ⟨outcome, hn, ho⟩ := Option.bind_eq_some_iff.mp ho
    obtain ⟨p, rfl, hp⟩ := Option.map_eq_some_iff.mp (Option.some.inj ho)
    obtain ⟨rfl, -⟩ := Prod.mk.inj hp
    have hn : Normal.transition .new evt b e.view.bytesPerLine = some (some p) := hn
    rw [HexView.mode_transition hv]
    rcases transition_of_mem_scrollingKeys hevt b e.view.bytesPerLine with hk | ⟨r, hk⟩
    · exact absurd (hk.symm.trans hn) (by simp [Outcome.unhandled])
    · obtain ⟨⟨d, hd⟩, -⟩ := Outcome.of_modeAndDirty (hk.symm.trans hn)
      rw [hd]
      rfl
  · obtain ⟨key, rfl⟩ := exists_key_of_mem_scrollingKeys hevt
    exact (HexView.sameFrame_handleEventDefault hv).mode.trans hm

/-- Such a run does not edit. -/
theorem along_reads_of_scrollingKeys {inputs : List Event}
    (hin : ∀ evt ∈ inputs, evt ∈ scrollingKeys)
    {e : Editor X} (hm : e.view.mode = .normal .new) :
    Along (Editor.step E height) Editor.Reads inputs e := by
  induction inputs generalizing e with
  | nil => trivial
  | cons evt inputs ih =>
    obtain ⟨hevt, hin⟩ := List.forall_mem_cons.mp hin
    exact ⟨reads_of_mem_scrollingKeys hevt hm,
      fun e' hs ↦ ih hin (mode_step_of_mem_scrollingKeys hevt hm hs)⟩

end Keys

/-! ## Never more than the file -/

/-- One buffer, on the file, and no more bytes than the file has. -/
structure Held (path : Path) (F : List UInt8) (v : HexView X) : Prop where
  buffer : ∃ b, v.buffrCollection = .withCurrentBuffer b ∧ b.path = some path ∧
    b.data.length ≤ F.length
  calls : ∀ c ∈ v.calls, c.data.length ≤ F.length

namespace Held

variable {v v' : HexView X}

private theorem loadNextChunk (hF : fs.read path = some F) (h : Held path F v) {n : Nat}
    {loaded : Bool}
    (hr : v.loadNextChunk fs n = some (v', loaded)) : Held path F v' := by
  obtain ⟨⟨b, hb, hp, hl⟩, hc⟩ := h
  rw [HexView.loadNextChunk_eq (HexView.current_of_eq hb) hp hF] at hr
  obtain ⟨rfl, -⟩ := Prod.mk.inj (Option.some.inj hr)
  have hlen : (b.data ++ (F.drop b.data.length).take n).length ≤ F.length := by
    rw [List.length_append, List.length_take, List.length_drop]
    omega
  exact ⟨⟨_, HexView.setCurrent_of_eq hb, hp, hlen⟩, List.forall_mem_cons.mpr ⟨hlen, hc⟩⟩

private theorem trimAfterLoad (h : Held path F v) (hr : v.trimAfterLoad height = some v') :
    Held path F v' := by
  obtain ⟨b, hb, hp, hl⟩ := h.buffer
  obtain rfl | ⟨b', hb', -, rfl⟩ := HexView.trimAfterLoad_cases hr
  · exact h
  · obtain rfl := Option.some.inj ((HexView.current_of_eq hb).symm.trans hb')
    have htop : (b.data.drop (chunkSize height)).length ≤ F.length := by
      rw [List.length_drop]
      omega
    exact ⟨⟨_, HexView.setCurrent_of_eq hb, hp, htop⟩, List.forall_mem_cons.mpr ⟨htop, h.calls⟩⟩

private theorem kept (hF : fs.read path = some F) :
    HexView.Kept (X := X) fs height (Held path F) where
  buffer h := by
    obtain ⟨b, hb, -⟩ := h.buffer
    exact ⟨b, hb⟩
  load h hr := h.loadNextChunk hF hr
  trim h hr := h.trimAfterLoad hr
  sameFile := by
    rintro v v' b b' ⟨⟨b₀, hb₀, hp, hl⟩, hc⟩ hb hs hv hcalls
    obtain rfl : b₀ = b := by
      have := hb₀.symm.trans hb
      simpa [BuffrCollection.withCurrentBuffer] using this
    exact ⟨⟨b', hv, hs.path.trans hp, hs.data ▸ hl⟩, hcalls ▸ hc⟩

private theorem holdsAtMost (h : Held path F v) {n : Nat} (hn : F.length ≤ n) :
    v.HoldsAtMost n := by
  obtain ⟨b, hb, -, hl⟩ := h.buffer
  refine ⟨fun b' hb' ↦ ?_, fun c hc ↦ Nat.le_trans (h.calls c hc) hn⟩
  obtain rfl := Option.some.inj ((HexView.current_of_eq hb).symm.trans hb')
  exact Nat.le_trans hl hn

/-- What is held of a file that nothing was dropped of. -/
theorem of_loaded (h : Loaded path F height v) (hu : v.Untrimmed) : Held path F v := by
  obtain ⟨b, hb, hp, -, hd⟩ := h.buffer
  refine ⟨⟨b, hb, hp, (hd hu).2.length_le⟩, fun c hc ↦ ?_⟩
  rw [h.calls hu c hc, List.length_take, List.length_drop]
  omega

end Held

/-! ## Pressing CTRL-e -/

/-- A single cursor in a file opened on a screen of this height, in normal mode. -/
structure Scrolled (fs : FileSystem) (path : Path) (height start : Nat) (b : CurrentBuffer X)
    (e : Editor X) : Prop where
  fs : e.fs = fs
  mode : e.view.mode = .normal .new
  size : e.view.size.2 = height
  bytesPerLine : e.view.bytesPerLine = 16
  startOffset : e.view.startOffset = start
  buffers : e.view.buffrCollection = .withCurrentBuffer b
  path : b.path = some path
  regions : b.selection.regions.length = 1
  main : b.selection.mainSelection = 0

/-- A single cursor moves without being merged. -/
theorem exists_moveCursors {v : HexView X} {b : CurrentBuffer X}
    (hb : v.current = some b) (hr : b.selection.regions.length = 1)
    (hm : b.selection.mainSelection = 0) (direction : Direction) :
    ∃ selection : Selection, v.moveCursors direction = some (v.setCurrent { b with selection }) ∧
      selection.regions.length = 1 ∧ selection.mainSelection = 0 := by
  let g (region : SelRegion) := region.simpleMove direction v.bytesPerLine b.data.length 1
  have hmap : (b.selection.mapRegions fun r ↦ [g r]) = some (b.selection.mapEach g) := by
    refine Selection.mapRegions_of_before ?_ (by omega)
    obtain ⟨r, hr⟩ := List.length_eq_one_iff.mp hr
    rw [hr]
    exact List.pairwise_singleton _ _
  have hfst := b.map_fst_mapSelections_pure fun r ↦ [g r]
  rw [hmap, Option.map_some] at hfst
  obtain ⟨⟨b', d⟩, hmaps, rfl⟩ := Option.map_eq_some_iff.mp hfst
  refine ⟨b.selection.mapEach g, ?_, ?_, hm⟩
  · rw [HexView.moveCursors, hb, Option.bind_eq_bind, Option.bind_some, hmaps]
    rfl
  · simp [Selection.mapEach, setMain, hr]

section Press

variable {E : SearchEngine} {e : Editor X} {b : CurrentBuffer X} {start : Nat}

private theorem step_ctrlE (E : SearchEngine) (hm : e.view.mode = .normal .new)
    (hb : e.view.buffrCollection = .withCurrentBuffer b) :
    Editor.step E height ctrlE e =
      (e.view.handleEventDefault e.fs height ctrlE).map fun view ↦ { e with view } := by
  have hmode : Mode.transition E (.normal .new) ctrlE
      { fs := e.fs, buffers := .withCurrentBuffer b } e.view.bytesPerLine = some none := rfl
  rw [Editor.step_of_ne (by rw [hm]; exact Mode.noConfusion), hm, hb, hmode, Option.bind_some]

/-- A press first loads a chunk and moves the cursor, which touches nothing else the view has. -/
theorem exists_loadAndMove (hF : fs.read path = some F)
    (hs : Scrolled fs path height start b e) :
    ∃ (b₂ : CurrentBuffer X) (calls : List WindowCall),
      ((e.view.loadNextChunk fs (chunkSize height)).bind fun p ↦ p.1.moveCursors .down) =
        some { e.view with buffrCollection := .withCurrentBuffer b₂, calls } ∧
      b₂.path = some path ∧
      b₂.data.length = b.data.length + min (chunkSize height) (F.length - b.data.length) ∧
      b₂.selection.regions.length = 1 ∧ b₂.selection.mainSelection = 0 := by
  let b₁ : CurrentBuffer X :=
    { b with data := b.data ++ (F.drop b.data.length).take (chunkSize height) }
  have hlen : b₁.data.length =
      b.data.length + min (chunkSize height) (F.length - b.data.length) := by
    rw [List.length_append, List.length_take, List.length_drop]
  have hload := HexView.loadNextChunk_eq (HexView.current_of_eq hs.buffers) hs.path hF
    (chunkSize height)
  have hset : ∀ v : HexView X, v.buffrCollection = .withCurrentBuffer b → ∀ b' : CurrentBuffer X,
      v.setCurrent b' = { v with buffrCollection := .withCurrentBuffer b' } := by
    intro v hv b'
    rw [HexView.setCurrent, hv]
    rfl
  rw [hset _ hs.buffers] at hload
  obtain ⟨selection, hmove, hregions, hmain⟩ :=
    exists_moveCursors (v := { e.view with
      buffrCollection := .withCurrentBuffer b₁
      calls := { trimmed := false, dataStartOffset := b.dataStartOffset, data := b₁.data } ::
        e.view.calls }) rfl hs.regions hs.main .down
  rw [hload, Option.bind_some, hmove]
  exact ⟨{ b₁ with selection }, _, rfl, hs.path, hlen, hregions, hmain⟩

/-- A press loads a chunk, moves the cursor and scrolls. -/
theorem exists_press (E : SearchEngine) (hF : fs.read path = some F)
    (hs : Scrolled fs path height start b e) (hh : 2 ≤ height) {loaded : Nat}
    (hloaded : loaded = b.data.length + min (chunkSize height) (F.length - b.data.length))
    (htrims : ¬ e.view.ScrollTrims height 1 loaded F.length) :
    ∃ e' b', Editor.step E height ctrlE e = some e' ∧
      loaded + e.view.scrollLoads 1 loaded F.length ≤ b'.data.length ∧
      Scrolled fs path height
        (if e.view.nextPosition 1 < loaded + e.view.scrollLoads 1 loaded F.length then
          e.view.nextPosition 1
        else start) b' e' := by
  obtain ⟨b₂, calls, hmove, hpath, hlen, hregions, hmain⟩ := exists_loadAndMove hF hs
  rw [← hloaded] at hlen
  obtain ⟨v₃, chunk, dropped, hdown, hb₃, hchunk, hdropped, -, hstart⟩ :=
    HexView.exists_scrollDown (v := { e.view with buffrCollection := .withCurrentBuffer b₂, calls })
      rfl hpath hF hh 1
  obtain ⟨v₄, b₄, hdraw, hg⟩ := HexView.exists_draw hb₃ hpath hF
  obtain ⟨more, rfl⟩ := hg.buffer
  have hframe := ((HexView.SameFrame.steps fs height).scrollDown hdown).trans
    ((HexView.SameFrame.steps fs height).draw hdraw)
  obtain ⟨b', hb'⟩ := hframe.buffer b₂ rfl
  obtain rfl := Option.some.inj ((HexView.current_of_eq hb').symm.trans hg.current)
  have hstep : Editor.step E height ctrlE e = some { e with view := v₄ } := by
    have hdefault : e.view.handleEventDefault fs height ctrlE = some v₄ := by
      show ((e.view.loadNextChunk fs (chunkSize height)).bind fun p ↦
        (p.1.moveCursors .down).bind fun v ↦ (v.scrollDown fs height 1).bind (HexView.draw fs)) = _
      rw [← Option.bind_assoc, hmove, Option.bind_some, hdown, Option.bind_some, hdraw]
    rw [step_ctrlE E hs.mode hs.buffers, hs.fs, hdefault, Option.map_some]
  -- neither the load nor the move touches what the scrolling depends on
  change _ = if e.view.ScrollTrims height 1 b₂.data.length F.length then _ else _ at hdropped
  change e.view.scrollLoads 1 b₂.data.length F.length ≤ _ at hchunk
  rw [hlen, if_neg htrims] at hdropped
  rw [hlen] at hchunk
  subst hdropped
  refine ⟨_, _, hstep, ?_, hs.fs, ?_, ?_, ?_, ?_, hb', hpath, hregions, hmain⟩
  · show _ ≤ (((b₂.data ++ chunk).drop 0) ++ more).length
    rw [List.drop_zero, List.length_append, List.length_append, hlen]
    omega
  · exact hframe.mode.trans hs.mode
  · exact (congrArg Prod.snd hframe.size).trans hs.size
  · exact hframe.bytesPerLine.trans hs.bytesPerLine
  · rw [← hlen, ← hs.startOffset]
    exact hg.startOffset.trans hstart

private theorem nextPosition_eq (hs : Scrolled fs path height start b e)
    (hsmall : start + 16 < 2 ^ 64) : e.view.nextPosition 1 = start + 16 := by
  rw [HexView.nextPosition, hs.startOffset, show usizeMul 1 16 = 16 from rfl, usizeAdd_of_lt hsmall]

private theorem scrollLoads_eq (hs : Scrolled fs path height start b e)
    (hsmall : start + 16 + height * 16 < 2 ^ 64) (dataLen fileLen : Nat) :
    e.view.scrollLoads 1 dataLen fileLen =
      if start + 16 + height * 16 > dataLen then min 64 (fileLen - dataLen) else 0 := by
  rw [HexView.scrollLoads, nextPosition_eq hs (by omega), hs.size, hs.bytesPerLine,
    usizeAdd_of_lt hsmall]

private theorem exists_press_of_room (E : SearchEngine) (hF : fs.read path = some F)
    (hs : Scrolled fs path height start b e) {len : Nat} (hlen : min len F.length ≤ b.data.length)
    (hh : 2 ≤ height) (hsmall : start + 16 + height * 16 < 2 ^ 64) (hroom : start + 32 ≤ len)
    (hfile : start + 32 + chunkSize height ≤ F.length) :
    ∃ e' b', Editor.step E height ctrlE e = some e' ∧
      min (len + chunkSize height) F.length ≤ b'.data.length ∧
      Scrolled fs path height (start + 16) b' e' := by
  have hchunk : height * 16 = chunkSize height + 16 := by
    unfold chunkSize
    omega
  have hloads : e.view.scrollLoads 1
      (b.data.length + min (chunkSize height) (F.length - b.data.length)) F.length = 0 := by
    rw [scrollLoads_eq hs hsmall, if_neg (by omega)]
  have htrims : ¬ e.view.ScrollTrims height 1
      (b.data.length + min (chunkSize height) (F.length - b.data.length)) F.length := fun h ↦ by
    rw [HexView.ScrollTrims, hloads] at h
    exact Nat.lt_irrefl 0 h.1
  obtain ⟨e', b', hstep, hb', hs'⟩ := exists_press E hF hs hh rfl htrims
  rw [hloads, nextPosition_eq hs (by omega), if_pos (by omega)] at hs'
  exact ⟨e', b', hstep, by omega, hs'⟩

/-- Every further press adds a chunk. -/
theorem exists_presses (E : SearchEngine) (hF : fs.read path = some F)
    (hs : Scrolled fs path height start b e) {len : Nat} (hlen : min len F.length ≤ b.data.length)
    (hh : 2 ≤ height) (hsmall : height < 2 ^ 16) (hroom : start + 32 ≤ len) (n : Nat)
    (hstart : start + 16 * n < 2 ^ 16)
    (hfile : start + 16 * n + 16 + chunkSize height ≤ F.length) :
    ∃ e' b', runSteps (Editor.step E height) (List.replicate n ctrlE) e = some e' ∧
      e'.view.current = some b' ∧ min (len + n * chunkSize height) F.length ≤ b'.data.length := by
  have hchunk : 16 ≤ chunkSize height := by
    unfold chunkSize
    omega
  induction n generalizing e b start len with
  | zero => exact ⟨e, b, rfl, HexView.current_of_eq hs.buffers, by omega⟩
  | succ n ih =>
    obtain ⟨e₁, b₁, hstep, hb₁, hs₁⟩ := exists_press_of_room E hF hs hlen hh (by omega) hroom
      (by omega)
    obtain ⟨e', b', hrun, hb', hlen'⟩ := ih hs₁ hb₁ (by omega) (by omega) (by omega)
    refine ⟨e', b', ?_, hb', ?_⟩
    · rw [List.replicate_succ, runSteps_cons, hstep]
      exact hrun
    · rw [Nat.succ_mul]
      omega

end Press

/-- Of a longer file four presses load more than the bound. -/
theorem exists_exceeding (E : SearchEngine) (hF : fs.read path = some F) (width : Nat)
    (hh : 5 ≤ height ∧ height < 2 ^ 16) (hlong : memoryBound height < F.length) {e₀ : Editor X}
    (hopen : Editor.opened fs path (width, height) = some e₀) :
    ∃ n e b, runSteps (Editor.step E height) (List.replicate n ctrlE) e₀ = some e ∧
      e.view.current = some b ∧ memoryBound height < b.data.length := by
  have hbound : memoryBound height = chunkSize height * 3 + max (chunkSize height) 64 := rfl
  rw [Editor.opened_eq hF width hh.2, if_neg (by omega), Option.map_some] at hopen
  obtain rfl := Option.some.inj hopen
  have hs : Scrolled fs path height 0
      (.fromDataAndPath (F.take (chunkSize height)) (some path) : CurrentBuffer X)
      ⟨fs, HexView.start path F (width, height)⟩ :=
    ⟨rfl, rfl, rfl, rfl, rfl, rfl, rfl, rfl, rfl⟩
  have hlen : (F.take (chunkSize height)).length = chunkSize height :=
    List.length_take_of_le (by omega)
  have hc : 64 ≤ chunkSize height := by
    unfold chunkSize
    omega
  obtain ⟨e, b, hrun, hb, hl⟩ := exists_presses E hF hs
    (Nat.le_trans (Nat.min_le_left _ _) hlen.ge) (by omega) hh.2 (by omega) 4 (by decide) (by omega)
  exact ⟨4, e, b, hrun, hb, by omega⟩

/-- For a file opened on a screen of a fixed height: scrolling and moving the cursors keep no
more than three chunks and a fresh one in memory exactly when that is the whole file. On fewer
than five rows the first drawing does not come to an end, and no key is read. -/
theorem memory_bounded_iff (E : SearchEngine) (hF : fs.read path = some F) (width : Nat)
    (hh : 5 ≤ height ∧ height < 2 ^ 16) :
    ∃ e₀ : Editor X, Editor.opened fs path (width, height) = some e₀ ∧
      ((∀ inputs : List Event, (∀ evt ∈ inputs, evt ∈ scrollingKeys) →
        Always (Editor.step E height) (fun e ↦ e.view.HoldsAtMost (memoryBound height)) inputs
          e₀) ↔
        F.length ≤ memoryBound height) := by
  obtain ⟨e₀, hopen, rfl, hmode, hu, hl, -⟩ := Editor.opened_spec (X := X) hF width hh.2
  refine ⟨e₀, hopen, fun h ↦ ?_, fun hshort inputs hin ↦ ?_⟩
  · by_contra hlong
    obtain ⟨n, e, b, hrun, hb, hgt⟩ := exists_exceeding E hF width hh (Nat.not_le.mp hlong) hopen
    have hin : ∀ evt ∈ List.replicate n ctrlE, evt ∈ scrollingKeys := by
      intro evt hevt
      rw [List.eq_of_mem_replicate hevt]
      exact List.mem_cons_self
    exact Nat.not_le.mpr hgt (((h _ hin).last hrun).1 b hb)
  · have hr : Along (Editor.step E height) Editor.Reads inputs e₀ :=
      along_reads_of_scrollingKeys hin hmode
    exact ((Held.kept hF).always (.of_loaded hl hu) hr).imp fun e he ↦ he.2.holdsAtMost hshort

/-- A file of three hundred bytes on six rows. -/
theorem memory_bounded_short :
    let F : List UInt8 := (List.range 300).map Nat.toUInt8
    let fs := FileSystem.single ['f'] F
    ∃ e₀ : Editor (XiRope.reference UInt8), Editor.opened fs ['f'] (80, 6) = some e₀ ∧
      Always (Editor.step .reference 6) (fun e ↦ e.view.HoldsAtMost 320)
        [ctrlE, .key (.plain (.char 'j')), ctrlE] e₀ := by
  intro F fs
  obtain ⟨e₀, hopen, h⟩ := memory_bounded_iff (X := XiRope.reference UInt8) .reference
    (F := F) (show fs.read ['f'] = some F from rfl) 80 (show 5 ≤ 6 ∧ 6 < 2 ^ 16 by decide)
  exact ⟨e₀, hopen, h.mpr (by decide +kernel) _ (by decide)⟩

/-- On six rows the bound is 320. Of a file of 321 bytes CTRL-e loads eighty more on every press,
and nothing is dropped: after five presses the buffer holds the whole file. -/
theorem ctrlE_exceeds_bound :
    let F : List UInt8 := (List.range 321).map Nat.toUInt8
    let opened : Option (Editor (XiRope.reference UInt8)) :=
      Editor.opened (.single ['f'] F) ['f'] (80, 6)
    let scrolled := opened.bind (runSteps (Editor.step .reference 6) (List.replicate 5 ctrlE))
    scrolled.bind (fun e ↦ e.view.current.map CurrentBuffer.data) = some F ∧ F.length = 321 ∧
      memoryBound 6 = 320 := by
  decide +kernel

end Tofu

import Tofu.View.Reading

/-!
# What reading keeps

An event that does not edit changes the view by loading, by trimming after a load, and by
moving the offset and the cursors. A property of the view that these keep is kept by
every such event, and holds along every run of them.
-/

namespace Tofu

open Rope

variable {X : XiRope UInt8} {fs : FileSystem} {height : Nat}

namespace HexView

/-- A single buffer is the one that is shown. -/
theorem current_of_eq {v : HexView X} {b : CurrentBuffer X}
    (h : v.buffrCollection = .withCurrentBuffer b) : v.current = some b := by
  rw [current, h]
  rfl

/-- Another one in its place is the single buffer. -/
theorem setCurrent_of_eq {v : HexView X} {b b' : CurrentBuffer X}
    (h : v.buffrCollection = .withCurrentBuffer b) :
    (v.setCurrent b').buffrCollection = .withCurrentBuffer b' := by
  rw [setCurrent, h]
  rfl

end HexView

/-! ## Drawing and scrolling -/

/-- A preorder on views that loading, trimming after a load and moving the offset respect. -/
structure HexView.Steps (fs : FileSystem) (height : Nat) (R : HexView X → HexView X → Prop) :
    Prop where
  refl : ∀ v, R v v
  trans : ∀ {v v' v''}, R v v' → R v' v'' → R v v''
  load : ∀ {v v' n loaded}, v.loadNextChunk fs n = some (v', loaded) → R v v'
  trim : ∀ {v v'}, v.trimAfterLoad height = some v' → R v v'
  move : ∀ v startOffset, R v { v with startOffset }

namespace HexView.Steps

variable {R : HexView X → HexView X → Prop} {v v' : HexView X} (hR : Steps fs height R)
include hR

/-- Drawing is made of such steps. -/
theorem draw (h : v.draw fs = some v') : R v v' := by
  rcases draw_cases h with ⟨loaded, hl⟩ | rfl
  · exact hR.load hl
  · exact hR.refl v'

/-- Moving the offset and drawing, all of the view or some rows. -/
theorem moveAndDraw {startOffset : Nat} {p : Prop} [Decidable p]
    (h : (if p then HexView.draw fs { v with startOffset }
      else HexView.drawRows fs { v with startOffset }) = some v') : R v v' := by
  refine hR.trans (hR.move v startOffset) ?_
  split at h
  · exact hR.draw h
  · exact hR.draw h

/-- So is scrolling up. -/
theorem scrollUp {lineCount : Nat} (h : v.scrollUp fs lineCount = some v') : R v v' := by
  rw [scrollUp_def] at h
  split at h
  · obtain rfl := Option.some.inj h
    exact hR.refl v
  · exact hR.moveAndDraw h

/-- So is loading before scrolling down. -/
theorem loadForScroll {nextPosition : Nat} {goesOn : Bool}
    (h : v.loadForScroll fs height nextPosition = some (v', goesOn)) : R v v' := by
  obtain ⟨b, -, h⟩ := Option.bind_eq_some_iff.mp h
  simp only at h
  split at h
  · obtain ⟨⟨v₁, loaded⟩, hl, h⟩ := Option.bind_eq_some_iff.mp h
    simp only at h
    split at h
    · obtain ⟨v₂, ht, h⟩ := Option.map_eq_some_iff.mp h
      obtain ⟨rfl, -⟩ := Prod.mk.inj h
      exact hR.trans (hR.load hl) (hR.trim ht)
    · obtain ⟨rfl, -⟩ := Prod.mk.inj (Option.some.inj h)
      exact hR.load hl
  · obtain ⟨rfl, -⟩ := Prod.mk.inj (Option.some.inj h)
    exact hR.refl v

/-- So is scrolling down. -/
theorem scrollDown {lineCount : Nat} (h : v.scrollDown fs height lineCount = some v') :
    R v v' := by
  obtain ⟨⟨v₁, goesOn⟩, hl, h⟩ := Option.bind_eq_some_iff.mp h
  obtain ⟨b, -, h⟩ := Option.bind_eq_some_iff.mp h
  refine hR.trans (hR.loadForScroll hl) ?_
  simp only at h
  split at h
  · obtain rfl := Option.some.inj h
    exact hR.refl v₁
  · exact hR.moveAndDraw h

/-- So is bringing the cursor into view. -/
theorem maybeUpdateOffset (h : v.maybeUpdateOffset fs height = some v') : R v v' := by
  obtain ⟨b, -, h⟩ := Option.bind_eq_some_iff.mp h
  split at h
  · obtain rfl := Option.some.inj h
    exact hR.move v 0
  · obtain ⟨main, -, h⟩ := Option.bind_eq_some_iff.mp h
    simp only at h
    split at h
    · split at h
      · exact hR.scrollUp h
      · exact hR.scrollDown h
    · split at h
      · split at h
        · exact hR.scrollUp h
        · exact hR.scrollDown h
      · obtain rfl := Option.some.inj h
        exact hR.refl v

/-- So is what follows a change of the data. -/
theorem transitionDirtyBytes {dirty : DirtyBytes}
    (h : v.transitionDirtyBytes fs height dirty = some v') : R v v' := by
  cases dirty with
  | changeInPlace intervals =>
    rw [transitionDirtyBytes_changeInPlace] at h
    obtain ⟨v₁, hm, h⟩ := Option.bind_eq_some_iff.mp h
    exact hR.trans (hR.maybeUpdateOffset hm) (hR.draw h)
  | changeLength =>
    obtain ⟨b, -, h⟩ := Option.bind_eq_some_iff.mp h
    obtain ⟨main, -, h⟩ := Option.bind_eq_some_iff.mp h
    exact hR.trans (hR.move v _) (hR.draw h)

end HexView.Steps

/-! ## Properties of what is held -/

/-- One buffer is open, and loading, trimming after a load and changes to anything but the
part of the file in it keep the property. -/
structure HexView.Kept (fs : FileSystem) (height : Nat) (I : HexView X → Prop) : Prop where
  buffer : ∀ {v}, I v → ∃ b, v.buffrCollection = .withCurrentBuffer b
  load : ∀ {v v' n loaded}, I v → v.loadNextChunk fs n = some (v', loaded) → I v'
  trim : ∀ {v v'}, I v → v.trimAfterLoad height = some v' → I v'
  sameFile : ∀ {v v' b b'}, I v → v.buffrCollection = .withCurrentBuffer b → SameFile b b' →
    v'.buffrCollection = .withCurrentBuffer b' → v'.calls = v.calls → I v'

namespace HexView.Kept

variable {I : HexView X → Prop} {v v' : HexView X} (hk : Kept fs height I)
include hk

/-- Only the buffers and the calls count. -/
theorem congr (h : I v) (hb : v'.buffrCollection = v.buffrCollection)
    (hc : v'.calls = v.calls) : I v' := by
  obtain ⟨b, hv⟩ := hk.buffer h
  exact hk.sameFile h hv .rfl (hb.trans hv) hc

private theorem steps : Steps fs height fun v v' ↦ I v → I v' where
  refl _ h := h
  trans h h' hi := h' (h hi)
  load hl h := hk.load h hl
  trim ht h := hk.trim h ht
  move _ _ h := hk.congr h rfl rfl

private theorem transition (h : I v) {t : ModeTransition}
    (hr : v.transition fs height t = some v') :
    I v' := by
  have h' (mode : Mode) (info : Option String) : I { v with mode, info } := hk.congr h rfl rfl
  cases t with
  | none =>
    obtain rfl := Option.some.inj hr
    exact h' _ _
  | newMode mode =>
    obtain rfl := Option.some.inj hr
    exact h' _ _
  | modeAndInfo mode info =>
    obtain rfl := Option.some.inj hr
    exact h' _ _
  | dirtyBytes dirty => exact hk.steps.transitionDirtyBytes hr (h' v.mode none)
  | modeAndDirtyBytes mode dirty => exact hk.steps.transitionDirtyBytes hr (h' mode none)

private theorem moveCursors (h : I v) {direction : Direction}
    (hr : v.moveCursors direction = some v') : I v' := by
  obtain ⟨b, hb⟩ := hk.buffer h
  obtain ⟨b₀, hb₀, hr⟩ := Option.bind_eq_some_iff.mp hr
  obtain rfl : b = b₀ := Option.some.inj ((current_of_eq hb).symm.trans hb₀)
  obtain ⟨⟨b', d⟩, hm, hr⟩ := Option.bind_eq_some_iff.mp hr
  obtain rfl := Option.some.inj hr
  exact hk.sameFile h hb (.of_mapSelections b' (congrArg (Option.map Prod.fst) hm))
    (setCurrent_of_eq hb) rfl

private theorem handleEventDefault (h : I v) {evt : Event}
    (he : ∀ width height, evt ≠ .resize width height)
    (hr : v.handleEventDefault fs height evt = some v') : I v' := by
  cases handles_of_handleEventDefault fs height v hr with
  | resized => exact absurd rfl (he _ _)
  | down _ hl hm hs hd =>
    exact hk.steps.draw hd (hk.steps.scrollDown hs (hk.moveCursors (hk.load h hl) hm))
  | up _ hm hs hd => exact hk.steps.draw hd (hk.steps.scrollUp hs (hk.moveCursors h hm))
  | key | mouse => exact h

end HexView.Kept

/-! ## Runs -/

section Runs

variable {E : SearchEngine} {e e' : Editor X}

/-- The mode does not edit on the event, and the terminal keeps its size. -/
def Editor.Reads (evt : Event) (e : Editor X) : Prop :=
  (match evt with
    | .resize _ _ => False
    | _ => True) ∧ e.view.mode.Reads evt

instance (evt : Event) (e : Editor X) : Decidable (e.Reads evt) :=
  match evt with
  | .resize _ _ => isFalse fun h ↦ h.1
  | .key evt => inferInstanceAs (Decidable (True ∧ e.view.mode.Reads (.key evt)))
  | .mouse => inferInstanceAs (Decidable (True ∧ e.view.mode.Reads .mouse))

/-- A transition of a mode that reads keeps the files and the part of the file. -/
theorem reads_transition {mode : Mode} {evt : Event} {fs : FileSystem}
    {b : CurrentBuffer X} {bytesPerLine : Nat} {t : ModeTransition} {ws : Workspace X}
    (hm : mode.Reads evt)
    (hr : mode.transition E evt { fs, buffers := .withCurrentBuffer b } bytesPerLine =
      some (some (t, ws))) :
    ws.fs = fs ∧ ∃ b', ws.buffers = .withCurrentBuffer b' ∧ SameFile b b' := by
  have hb : mode.transition E evt { fs, buffers := .withCurrentBuffer b } bytesPerLine =
      (mode.onBuffer E evt b bytesPerLine).bind fun outcome ↦
        some (outcome.map fun p ↦ (p.1, { fs, buffers := .withCurrentBuffer p.2 })) := by
    cases mode <;> first | rfl | exact hm.elim
  rw [hb] at hr
  obtain ⟨outcome, ho, hr⟩ := Option.bind_eq_some_iff.mp hr
  obtain ⟨⟨t', b'⟩, rfl, hws⟩ := Option.map_eq_some_iff.mp (Option.some.inj hr)
  obtain ⟨-, rfl⟩ := Prod.mk.inj hws
  exact ⟨rfl, b', rfl, Mode.reads_onBuffer hm t' b' ho⟩

/-- One event that does not edit. -/
theorem HexView.Kept.step {I : HexView X → Prop} {evt : Event} (hk : Kept e.fs height I)
    (h : I e.view) (hr : e.Reads evt) (hs : Editor.step E height evt e = some e') :
    e'.fs = e.fs ∧ I e'.view := by
  obtain ⟨b, hb⟩ := hk.buffer h
  have hevt : ∀ width height, evt ≠ .resize width height := by
    rintro width height rfl
    exact hr.1
  rcases Editor.round_cases hs with ⟨t, ws, ho, hfs', hv⟩ | ⟨-, hfs', hv⟩
  · rw [hb] at ho
    obtain ⟨hfs, b', hb', hsame⟩ := reads_transition hr.2 ho
    have h' : I { e.view with buffrCollection := ws.buffers } := hk.sameFile h hb hsame hb' rfl
    exact ⟨hfs'.trans hfs, hk.transition h' (hfs ▸ hv)⟩
  · exact ⟨hfs', hk.handleEventDefault h hevt hv⟩

/-- Along a run without an edit the files stay as they are and the property holds. -/
theorem HexView.Kept.always {I : HexView X → Prop} {inputs : List Event}
    (hk : Kept e.fs height I) (h : I e.view)
    (hr : Along (Editor.step E height) Editor.Reads inputs e) :
    Always (Editor.step E height) (fun e' ↦ e'.fs = e.fs ∧ I e'.view) inputs e := by
  refine hr.always ⟨rfl, h⟩ fun evt e₁ e₂ h₁ hr hs ↦ ?_
  obtain ⟨hfs, hl⟩ := (show Kept e₁.fs height I from h₁.1 ▸ hk).step h₁.2 hr hs
  exact ⟨hfs.trans h₁.1, hl⟩

end Runs

end Tofu

import Tofu.Buffer.Editing
import Tofu.Modes.Command
import Tofu.Modes.Redraw
import Tofu.Modes.Requests

/-!
# What a key does

Every event that a mode handles leaves the data and the selection alone, selects something
else in the same data, edits the data, or moves in the history; and it reports bytes to
redraw accordingly. The edits of the insertion modes stay pending until the mode is left.
-/

namespace Tofu

open Rope Selection

variable {X : XiRope UInt8}

/-- Another selection of the same data, and the intervals that are reported with it. -/
inductive Reselects (b : CurrentBuffer X) : List Interval → CurrentBuffer X → Prop
  | mapped {σ : Type} {f : σ → SelRegion → Option (σ × List SelRegion)} {s : σ}
      {intervals : List Interval} {b' : CurrentBuffer X}
      (h : b.mapSelections f s = some (b', .changeInPlace intervals))
      (hf : ∀ s' outputs, collect f b.selection.regions s = some (s', outputs) →
        outputs.flatten.Pairwise Meets) : Reselects b intervals b'
  | narrowed {f : Selection → Option Selection} {intervals : List Interval} {b' : CurrentBuffer X}
      (h : b.modifySelsInPlace f = some (b', .changeInPlace intervals))
      (hf : ∀ sel, f b.selection = some sel → ∀ x, Covered sel.regions x →
        Covered b.selection.regions x) : Reselects b intervals b'
  | switched {f : Selection → Option Selection} {intervals : List Interval} {b' : CurrentBuffer X}
      (h : b.switchMainSel f = some (b', .changeInPlace intervals))
      (hf : ∀ sel, f b.selection = some sel → sel.regions =
        setMain (setMain b.selection.regions b.selection.mainSelection false) sel.mainSelection
          true) : Reselects b intervals b'

/-- Only the selection is another one. -/
theorem Reselects.exists_selection {b b' : CurrentBuffer X} {intervals : List Interval}
    (h : Reselects b intervals b') : ∃ selection : Selection, b' = { b with selection } := by
  cases h with
  | mapped h =>
    obtain ⟨p, -, h⟩ := Option.bind_eq_some_iff.mp h
    exact ⟨p.2, (Prod.mk.inj (Option.some.inj h)).1.symm⟩
  | narrowed h =>
    obtain ⟨sel, -, h⟩ := Option.bind_eq_some_iff.mp h
    exact ⟨sel, (Prod.mk.inj (Option.some.inj h)).1.symm⟩
  | switched h =>
    obtain ⟨oldMain, -, h⟩ := Option.bind_eq_some_iff.mp h
    obtain ⟨sel, -, h⟩ := Option.bind_eq_some_iff.mp h
    obtain ⟨newMain, -, h⟩ := Option.bind_eq_some_iff.mp h
    exact ⟨sel, (Prod.mk.inj (Option.some.inj h)).1.symm⟩

/-- What an event does to the buffer in a mode, with the bytes that are reported. -/
inductive Effect (mode : Mode) (evt : Event) (b : CurrentBuffer X) :
    Option DirtyBytes → CurrentBuffer X → Prop
  | kept {registers : List (Char × List (List UInt8))} (hr : Yanks b registers) :
      Effect mode evt b none { b with registers }
  | reselected {intervals : List Interval} {b' : CurrentBuffer X} (h : Reselects b intervals b') :
      Effect mode evt b (some (.changeInPlace intervals)) b'
  | selectedAll (h : mode.selectsAll evt = true) :
      Effect mode evt b (some (.changeInPlace [{ start := 0, stop := b.data.length }]))
        { b with selection := b.selection.selectAll b.data.length }
  | edited {registers : List (Char × List (List UInt8))} (hr : Yanks b registers)
      (op : Ops.Operation) (e : BufferEdit X) {b' : CurrentBuffer X}
      (hop : op.delta X b.data b.selection = some e.delta)
      (ho : e.offsets = none ∨ e.offsets = some (-1, 0))
      (h : e.run (!mode.isInsert) { b with registers } = some b') :
      Effect mode evt b (some .changeLength) b'
  | undone {b' : CurrentBuffer X} (hm : mode.isInsert = false)
      (h : b.performUndo = some (b', .changeLength)) : Effect mode evt b (some .changeLength) b'
  | redone {b' : CurrentBuffer X} (hm : mode.isInsert = false)
      (h : b.performRedo = some (b', .changeLength)) : Effect mode evt b (some .changeLength) b'
  | finished (hm : mode.isInsert = true) (hdrop : mode.dropsHalf evt = true) (op : Ops.Operation)
      (e : BufferEdit X) {b₁ : CurrentBuffer X} (sel : Selection) (intervals : List Interval)
      (hop : op.delta X b.data b.selection = some e.delta) (ho : e.offsets = none)
      (h : e.run false b = some b₁) :
      Effect mode evt b (some (.changeInPlace intervals)) { b₁ with selection := sel }

private theorem BufferEdit.registers_of_run {e : BufferEdit X} {isFinal : Bool}
    {b b' : CurrentBuffer X}
    (h : e.run isFinal b = some b') : b'.registers = b.registers := by
  rw [BufferEdit.run_eq] at h
  obtain ⟨sel, -, rfl⟩ := Option.map_eq_some_iff.mp h
  rfl

/-- The registers are as before, or one holds what was selected. -/
theorem Effect.yanks {mode : Mode} {evt : Event} {b b' : CurrentBuffer X}
    {report : Option DirtyBytes} (h : Effect mode evt b report b') : Yanks b b'.registers := by
  cases h with
  | kept hr => exact hr
  | reselected h =>
    obtain ⟨selection, rfl⟩ := h.exists_selection
    exact .inl rfl
  | selectedAll => exact .inl rfl
  | edited hr op e _ _ h => exact BufferEdit.registers_of_run h ▸ hr
  | undone _ h | redone _ h =>
    obtain ⟨p, -, heq⟩ := Option.map_eq_some_iff.mp h
    obtain ⟨rfl, -⟩ := Prod.mk.inj heq
    exact .inl rfl
  | finished _ _ op e sel intervals _ _ h =>
    have hregisters := BufferEdit.registers_of_run h
    exact .inl hregisters

/-- An insertion mode that is left commits its edits. -/
structure Leaves (mode : Mode) (b : CurrentBuffer X) (t : ModeTransition) (b' : CurrentBuffer X) :
    Prop where
  inserting : mode.isInsert = true
  left : (t.mode mode).isInsert = false
  report : t.report = none
  commits : b' = b.commitDelta

/-- A transition of a mode: it leaves an insertion mode, or does something in a mode that it
stays in if that is an insertion mode; and half a byte stays half a byte where nothing else is
reported. -/
structure Handled (mode : Mode) (evt : Event) (b : CurrentBuffer X) (t : ModeTransition)
    (b' : CurrentBuffer X) : Prop where
  does : Leaves mode b t b' ∨
    (mode.isInsert = true → (t.mode mode).isInsert = true) ∧ Effect mode evt b t.report b'
  half : t.report = some .changeLength ∨ mode.dropsHalf evt = true ∨
    (t.mode mode).hasHalfCursor = mode.hasHalfCursor

/-! ## Changes -/

/-- What was or is selected is redrawn. -/
theorem Reselects.seesChanges {b b' : CurrentBuffer X} {intervals : List Interval}
    (hsmall : b.data.length < 2 ^ 63) (hin : ∀ r ∈ b.selection.regions, r.InBounds b.data.length)
    (h : Reselects b intervals b') : SeesChanges b b' intervals := by
  cases h with
  | mapped h hf => exact seesChanges_of_mapSelections hsmall hin h hf
  | narrowed h hf => exact seesChanges_of_modifySelsInPlace hsmall hin h hf
  | switched h hf => exact seesChanges_of_switchMainSel hsmall h hf

/-- The changes that select something else in the data, one region at a time. -/
def Change.reselects : Change → Bool
  | .region _ | .width _ | .remove _ | .retain _ | .selectNext _ | .selectPrev _ => true
  | .selectAll | .edit _ _ | .type _ _ | .finish _ _ _ | .undo | .redo => false

section Changes

variable {mode : Mode} {evt : Event} {b b' : CurrentBuffer X} {d : DirtyBytes} {c : Change}

private theorem reselects_of_mapSelections {σ : Type}
    {f : σ → SelRegion → Option (σ × List SelRegion)} {s : σ}
    (h : b.mapSelections f s = some (b', d))
    (hf : ∀ s' outputs, collect f b.selection.regions s = some (s', outputs) →
      outputs.flatten.Pairwise Meets) :
    ∃ intervals, d = .changeInPlace intervals ∧ Reselects b intervals b' := by
  obtain ⟨p, -, heq⟩ := Option.bind_eq_some_iff.mp h
  obtain rfl := (Prod.mk.inj (Option.some.inj heq)).2
  exact ⟨_, rfl, .mapped h hf⟩

private theorem reselects_of_modifySelsInPlace {f : Selection → Option Selection}
    (h : b.modifySelsInPlace f = some (b', d))
    (hf : ∀ sel, f b.selection = some sel → ∀ x, Covered sel.regions x →
      Covered b.selection.regions x) :
    ∃ intervals, d = .changeInPlace intervals ∧ Reselects b intervals b' := by
  obtain ⟨sel, hs, heq⟩ := Option.bind_eq_some_iff.mp h
  obtain rfl := (Prod.mk.inj (Option.some.inj heq)).2
  exact ⟨_, rfl, .narrowed h hf⟩

private theorem reselects_of_switchMainSel {f : Selection → Option Selection}
    (h : b.switchMainSel f = some (b', d))
    (hf : ∀ sel, f b.selection = some sel → Switches b.selection sel) :
    ∃ intervals, d = .changeInPlace intervals ∧ Reselects b intervals b' := by
  obtain ⟨oldMain, -, heq⟩ := Option.bind_eq_some_iff.mp h
  obtain ⟨sel, -, heq⟩ := Option.bind_eq_some_iff.mp heq
  obtain ⟨newMain, -, heq⟩ := Option.bind_eq_some_iff.mp heq
  obtain rfl := (Prod.mk.inj (Option.some.inj heq)).2
  exact ⟨_, rfl, .switched h fun sel hs ↦ (hf sel hs).regions_eq⟩

variable (hsmall : b.data.length < 2 ^ 63) (hp : b.selection.Placed b.data.length)
include hp

private theorem meets_widthClosure {step : Nat} {s' : Unit} {outputs : List (List SelRegion)}
    (h : collect (Split.widthClosure step) b.selection.regions () = some (s', outputs)) :
    outputs.flatten.Pairwise Meets := by
  by_cases hz : step = 0
  · cases hregions : b.selection.regions with
    | nil =>
      rw [hregions] at h
      obtain ⟨-, rfl⟩ := Prod.mk.inj (Option.some.inj h)
      exact .nil
    | cons r regions => simp [hregions, collect, Split.widthClosure, hz] at h
  · have hpure : Split.widthClosure step = pureClosure (Split.pieces step) := by
      funext s r
      rw [Split.widthClosure, if_neg hz, pureClosure]
    rw [hpure, collect_pureClosure] at h
    obtain ⟨-, rfl⟩ := Prod.mk.inj (Option.some.inj h)
    exact meets_pieces _ hp.sorted

/-- Changes of the selection report what they change. -/
theorem Change.reselects_of_run (hc : c.reselects = true) (h : c.run b = some (b', d)) :
    ∃ intervals, d = .changeInPlace intervals ∧ Reselects b intervals b' := by
  cases c with
  | region f =>
    refine reselects_of_mapSelections h fun s' outputs hc ↦ ?_
    rw [collect_pureClosure] at hc
    obtain ⟨-, rfl⟩ := Prod.mk.inj (Option.some.inj hc)
    rw [flatten_map_singleton]
    exact List.pairwise_map.mpr (hp.sorted.imp f.meets_apply)
  | width step => exact reselects_of_mapSelections h fun s' outputs ↦ meets_widthClosure hp
  | remove index =>
    have h : b.removeSelection index = some (b', d) := h
    exact reselects_of_modifySelsInPlace h fun _ hs _ ↦ covered_remove hs
  | retain index =>
    have h : b.retainSelection index = some (b', d) := h
    exact reselects_of_modifySelsInPlace h fun _ hs _ ↦ covered_retain hs
  | selectNext count =>
    have h : b.selectNext count = some (b', d) := h
    exact reselects_of_switchMainSel h fun _ ↦ switches_selectNext
  | selectPrev count =>
    have h : b.selectPrev count = some (b', d) := h
    exact reselects_of_switchMainSel h fun _ ↦ switches_selectPrev
  | selectAll | edit | type | finish | undo | redo => cases hc

/-- What a change does that suits the mode. -/
theorem Change.effect (hs : c.Suits mode evt b) (h : c.run b = some (b', d)) :
    Effect mode evt b (some d) b' := by
  have hreselect (hc : c.reselects = true) : Effect mode evt b (some d) b' := by
    obtain ⟨intervals, rfl, hr⟩ := c.reselects_of_run hp hc h
    exact .reselected hr
  cases c with
  | region | width | remove | retain | selectNext | selectPrev => exact hreselect rfl
  | selectAll =>
    obtain ⟨rfl, rfl⟩ := Prod.mk.inj (Option.some.inj h)
    exact .selectedAll hs
  | edit registers op =>
    obtain ⟨rfl, delta, hdelta, hrun⟩ := Change.of_run_edit h
    exact .edited hs.2 op ⟨delta, none⟩ hdelta (.inl rfl) (hs.1 ▸ hrun)
  | type op back =>
    obtain ⟨rfl, e, hdelta, ho, hrun⟩ := Change.of_run_type h
    have hm : mode.isInsert = true := hs
    exact .edited (.inl rfl) op e hdelta ho (hm ▸ hrun)
  | finish half direction bytesPerLine =>
    obtain ⟨delta, b₁, hdelta, hrun, hmove⟩ := Change.of_run_finish h
    obtain ⟨p, -, heq⟩ := Option.bind_eq_some_iff.mp hmove
    obtain ⟨rfl, rfl⟩ := Prod.mk.inj (Option.some.inj heq)
    exact .finished hs.1 hs.2 (.change [half ||| 0]) ⟨delta, none⟩ p.2 _ hdelta rfl hrun
  | undo =>
    obtain ⟨p, -, heq⟩ := Option.map_eq_some_iff.mp h
    obtain rfl := (Prod.mk.inj heq).2
    exact .undone hs h
  | redo =>
    obtain ⟨p, -, heq⟩ := Option.map_eq_some_iff.mp h
    obtain rfl := (Prod.mk.inj heq).2
    exact .redone hs h

omit hp in
/-- After the other changes everything is drawn. -/
theorem Change.dirty_of_run (hc : c.changesLength = true) (h : c.run b = some (b', d)) :
    d = .changeLength := by
  cases c with
  | edit => exact (Change.of_run_edit h).1
  | type => exact (Change.of_run_type h).1
  | undo | redo =>
    obtain ⟨p, -, heq⟩ := Option.map_eq_some_iff.mp h
    exact (Prod.mk.inj heq).2.symm
  | region | width | remove | retain | selectNext | selectPrev | selectAll | finish => cases hc

include hsmall

/-- A search reports what it changes. -/
theorem SearchAcceptor.reselects_of_applySearch {E : SearchEngine} {next : SearchAcceptor}
    {pattern : Pattern} {t : ModeTransition}
    (h : next.applySearch E pattern b = some (some (t, b'))) :
    t.report = none ∧ b' = b ∨
      ∃ intervals, t.report = some (.changeInPlace intervals) ∧ Reselects b intervals b' := by
  rcases of_applySearch hp.inBounds hsmall h with hkeep | ⟨hpat, d, ht, hm⟩
  · exact .inl hkeep
  · obtain ⟨intervals, rfl, hr⟩ := reselects_of_mapSelections hm fun s' outputs hc ↦ by
      rw [collect_takeFront] at hc
      obtain ⟨-, rfl⟩ := Prod.mk.inj (Option.some.inj hc)
      exact meets_divides hp.sorted fun r ↦
        next.divides_keptOf (pattern.rangesIn_matchesIn hpat b.data r)
    exact .inr ⟨intervals, ht, hr⟩

/-- What comes of an event in a mode that works on the current buffer. -/
theorem Mode.handled_of_onBuffer {E : SearchEngine} {bytesPerLine : Nat} {t : ModeTransition}
    (h : mode.onBuffer E evt b bytesPerLine = some (some (t, b'))) :
    Handled mode evt b t b' := by
  obtain ⟨r, hr, hrun⟩ := mode.exists_asks E evt b bytesPerLine
  rw [hrun] at h
  have hnext := Request.mode_of_run h mode
  have hsuits := hr.suits
  constructor
  · by_cases hleave : r = .leave
    · subst hleave
      obtain ⟨rfl, rfl⟩ := Outcome.of_keep h
      exact .inl ⟨hsuits, rfl, rfl, rfl⟩
    · refine .inr ⟨fun hm ↦ hnext ▸ (hr.isInsert_next hm).resolve_left hleave, ?_⟩
      match r with
      | .panic | .unhandled => cases h
      | .go registers t' =>
        obtain ⟨rfl, rfl⟩ := Outcome.of_keep h
        rw [hsuits.1]
        exact .kept hsuits.2
      | .leave => exact absurd rfl hleave
      | .search next pattern =>
        rcases next.reselects_of_applySearch hsmall hp h with ⟨ht, rfl⟩ | ⟨intervals, ht, hr⟩
        · rw [ht]
          exact .kept (.inl rfl)
        · rw [ht]
          exact .reselected hr
      | .change new c =>
        obtain ⟨d, hc, ht⟩ := Request.of_run_change h
        rw [ht]
        exact c.effect hp hsuits hc
  · rw [hnext]
    refine hr.half.imp_left ?_
    rintro ⟨new, c, rfl, hlength⟩
    obtain ⟨d, hc, ht⟩ := Request.of_run_change h
    rw [ht, c.dirty_of_run hlength hc]

end Changes

/-! ## Commands -/

/-- A command asks for everything to be drawn, or the current buffer has the same data and
selection after it. -/
structure Commanded (ws : Workspace X) (t : ModeTransition) (ws' : Workspace X) : Prop where
  shown : t.report = some .changeLength ∨ t.report = none ∧
    ∀ b ∈ ws.buffers.current, ∃ b' ∈ ws'.buffers.current, b'.snapshot = b.snapshot
  half : ∀ m : Command, (t.mode (.command m)).hasHalfCursor = false

section Commands

variable {ws ws' : Workspace X} {t : ModeTransition}

private theorem Commanded.same (ht : t.report = none)
    (hhalf : ∀ m : Command, (t.mode (.command m)).hasHalfCursor = false) : Commanded ws t ws :=
  ⟨.inr ⟨ht, fun b hb ↦ ⟨b, hb, rfl⟩⟩, hhalf⟩

namespace Cmd

/-- Writing all buffers keeps their data and selections. -/
theorem map_snapshot_writeBuffers (fs : FileSystem) (list : List (CurrentBuffer X)) :
    (writeBuffers fs list).2.2.map CurrentBuffer.snapshot = list.map CurrentBuffer.snapshot := by
  induction list generalizing fs with
  | nil => rfl
  | cons b list ih =>
    rw [writeBuffers]
    split
    · simp only [List.map_cons, ih]
    · split
      · rfl
      · simp only [List.map_cons, ih]
        rfl

private theorem commanded_quit {arg : Path} (h : quit ws arg = some (t, ws')) :
    Commanded ws t ws' := by
  unfold quit at h
  split at h <;> obtain ⟨rfl, rfl⟩ := Prod.mk.inj (Option.some.inj h) <;>
    exact .same rfl fun _ ↦ rfl

private theorem commanded_write {filename : Path} (h : write ws filename = some (t, ws')) :
    Commanded ws t ws' := by
  obtain ⟨b, hb, h⟩ := Option.bind_eq_some_iff.mp h
  split at h
  · next path _ =>
    split at h
    · obtain ⟨rfl, rfl⟩ := Prod.mk.inj (Option.some.inj h)
      exact .same rfl fun _ ↦ rfl
    · next fs _ =>
      obtain ⟨rfl, rfl⟩ := Prod.mk.inj (Option.some.inj h)
      refine ⟨.inr ⟨rfl, fun b' hb' ↦ ?_⟩, fun _ ↦ rfl⟩
      obtain rfl : b = b' := Option.some.inj (hb.symm.trans hb')
      refine ⟨CurrentBuffer.updatePathIfMissing { b with dirty := false } path, ?_, ?_⟩
      · exact List.getElem?_set_self (List.getElem?_eq_some_iff.mp hb).1
      · unfold CurrentBuffer.updatePathIfMissing
        split <;> rfl
  · obtain ⟨rfl, rfl⟩ := Prod.mk.inj (Option.some.inj h)
    exact .same rfl fun _ ↦ rfl

private theorem commanded_writeAllThen {mode : Mode} (hmode : mode.hasHalfCursor = false)
    (h : writeAllThen mode ws = some (t, ws')) : Commanded ws t ws' := by
  obtain ⟨rfl, rfl⟩ := Prod.mk.inj (Option.some.inj h)
  refine ⟨.inr ⟨?_, fun b hb ↦ ?_⟩, fun m ↦ ?_⟩
  · split <;> rfl
  · have hsame := congrArg (·[ws.buffers.curBufIndex]?)
      (map_snapshot_writeBuffers ws.fs ws.buffers.list)
    simp only [List.getElem?_map, show ws.buffers.list[ws.buffers.curBufIndex]? = some b from hb,
      Option.map_some] at hsame
    obtain ⟨b', hb', hsnapshot⟩ := Option.map_eq_some_iff.mp hsame
    exact ⟨b', hb', hsnapshot⟩
  · split
    · rfl
    · exact hmode

private theorem commanded_edit {filename : Path} (h : edit ws filename = some (t, ws')) :
    Commanded ws t ws' := by
  unfold edit at h
  split at h
  · obtain ⟨rfl, rfl⟩ := Prod.mk.inj (Option.some.inj h)
    exact .same rfl fun _ ↦ rfl
  · obtain ⟨rfl, rfl⟩ := Prod.mk.inj (Option.some.inj h)
    exact ⟨.inl rfl, fun _ ↦ rfl⟩

private theorem commanded_forceDelete {arg : Path}
    (h : forceDeleteCurrentBuffer ws arg = some (t, ws')) : Commanded ws t ws' := by
  obtain ⟨buffers, -, h⟩ := Option.bind_eq_some_iff.mp h
  obtain ⟨rfl, rfl⟩ := Prod.mk.inj (Option.some.inj h)
  exact ⟨.inl rfl, fun _ ↦ rfl⟩

private theorem commanded_delete {arg : Path} (h : deleteCurrentBuffer ws arg = some (t, ws')) :
    Commanded ws t ws' := by
  obtain ⟨b, -, h⟩ := Option.bind_eq_some_iff.mp h
  split at h
  · obtain ⟨rfl, rfl⟩ := Prod.mk.inj (Option.some.inj h)
    exact .same rfl fun _ ↦ rfl
  · exact commanded_forceDelete h

end Cmd

namespace Command

/-- The commands of the prompt. -/
theorem commanded_of_mem {name : List Char}
    {handler : Workspace X → Path → Option (ModeTransition × Workspace X)}
    (hmem : (name, handler) ∈ defaultCommands) {arg : Path}
    (h : handler ws arg = some (t, ws')) : Commanded ws t ws' := by
  simp only [defaultCommands, List.mem_cons, Prod.mk.injEq, List.not_mem_nil, or_false] at hmem
  rcases hmem with ⟨-, rfl⟩ | ⟨-, rfl⟩ | ⟨-, rfl⟩ | ⟨-, rfl⟩ | ⟨-, rfl⟩ | ⟨-, rfl⟩ | ⟨-, rfl⟩ |
    ⟨-, rfl⟩ | ⟨-, rfl⟩ | ⟨-, rfl⟩ | ⟨-, rfl⟩ | ⟨-, rfl⟩ | ⟨-, rfl⟩ | ⟨-, rfl⟩ | ⟨-, rfl⟩
  · exact Cmd.commanded_quit h
  · exact Cmd.commanded_quit h
  · obtain ⟨rfl, rfl⟩ := Prod.mk.inj (Option.some.inj h)
    exact .same rfl fun _ ↦ rfl
  · obtain ⟨rfl, rfl⟩ := Prod.mk.inj (Option.some.inj h)
    exact .same rfl fun _ ↦ rfl
  · exact Cmd.commanded_write h
  · exact Cmd.commanded_write h
  · exact Cmd.commanded_writeAllThen rfl h
  · exact Cmd.commanded_writeAllThen rfl h
  · exact Cmd.commanded_writeAllThen rfl h
  · exact Cmd.commanded_edit h
  · exact Cmd.commanded_edit h
  · exact Cmd.commanded_delete h
  · exact Cmd.commanded_delete h
  · exact Cmd.commanded_forceDelete h
  · exact Cmd.commanded_forceDelete h

private theorem commanded_finish {m : Command} (h : m.finish ws = some (t, ws')) :
    Commanded ws t ws' := by
  unfold finish at h
  simp only at h
  split at h
  · next handler hlookup =>
    obtain ⟨before, behind, heq, -⟩ := List.lookup_eq_some_iff.mp hlookup
    have hmem : (m.command.takeWhile (· ≠ ' '), handler) ∈ defaultCommands := by
      rw [heq]
      exact List.mem_append_right _ List.mem_cons_self
    exact commanded_of_mem hmem h
  · obtain ⟨rfl, rfl⟩ := Prod.mk.inj (Option.some.inj h)
    exact .same rfl fun _ ↦ rfl

/-- What comes of an event in the prompt. -/
theorem commanded_transition {m : Command} {evt : Event}
    (h : m.transition evt ws = some (some (t, ws'))) : Commanded ws t ws' := by
  have hprompt : ∀ (o : Option (List Char)) (cursor : Nat),
      (o.map fun command ↦ (ModeTransition.newMode (.command { command, cursor }), ws)) =
        some (t, ws') → Commanded ws t ws' := by
    intro o cursor h
    obtain ⟨command, -, h⟩ := Option.map_eq_some_iff.mp h
    obtain ⟨rfl, rfl⟩ := Prod.mk.inj h
    exact .same rfl fun _ ↦ rfl
  have hsame : ∀ mode : Mode, mode.hasHalfCursor = false →
      some (ModeTransition.newMode mode, ws) = some (t, ws') → Commanded ws t ws' := by
    intro mode hmode h
    obtain ⟨rfl, rfl⟩ := Prod.mk.inj (Option.some.inj h)
    exact .same rfl fun _ ↦ hmode
  unfold transition at h
  split at h
  · next action _ =>
    obtain ⟨p, hact, h⟩ := Option.map_eq_some_iff.mp h
    obtain rfl := Option.some.inj h
    cases action with
    | removeLast =>
      simp only [act] at hact
      split at hact
      · exact hprompt _ _ hact
      · obtain ⟨rfl, rfl⟩ := Prod.mk.inj (Option.some.inj hact)
        exact .same rfl fun _ ↦ rfl
    | removeThis => exact hprompt _ _ hact
    | cursorLeft => exact hsame _ rfl hact
    | cursorRight => exact hsame _ rfl hact
    | cancel => exact hsame _ rfl hact
    | finish => exact commanded_finish hact
  · split at h
    · split at h
      · simp at h
      · obtain ⟨command, -, h⟩ := Option.map_eq_some_iff.mp h
        exact hsame _ rfl h
    · simp at h

end Command

end Commands

end Tofu

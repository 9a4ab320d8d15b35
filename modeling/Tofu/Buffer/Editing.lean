import Tofu.Base.Run
import Tofu.Base.Timeline
import Tofu.Buffer.CurrentBuffer
import Tofu.Rope.Reference

/-!
# Undo and redo

The history of a buffer stores inverse deltas and re-inverts them at each undo and redo
(`src/src/history.rs:74–149`, `src/src/current_buffer.rs:187–272`). As long as no chunk is
loaded and nothing is trimmed, it behaves as a linear history of snapshots: a committed
edit, or a group of partial edits closed by `commit_delta`, appends a snapshot of data
and selection, and undo and redo move between them.
-/

namespace Tofu

open Rope

variable {X : XiRope UInt8}

/-- Data and selection of a buffer. -/
abbrev Snapshot := List UInt8 × Selection

/-- What undo and redo give back. -/
def CurrentBuffer.snapshot (b : CurrentBuffer X) : Snapshot := (b.data, b.selection)

/-- A delta, with the offsets that the `*_offset_carets` functions take. -/
structure BufferEdit (X : XiRope UInt8) where
  delta : X.Delta
  offsets : Option (Int × Int)

namespace BufferEdit

/-- The call of the `apply_*delta*` function that takes this edit. -/
def run (e : BufferEdit X) (isFinal : Bool) (b : CurrentBuffer X) : Option (CurrentBuffer X) :=
  match isFinal, e.offsets with
  | true, none => (b.applyDelta e.delta).map Prod.fst
  | true, some (caret, tail) => (b.applyDeltaOffsetCarets e.delta caret tail).map Prod.fst
  | false, none => (b.applyIncompleteDelta e.delta).map Prod.fst
  | false, some (caret, tail) =>
    (b.applyIncompleteDeltaOffsetCarets e.delta caret tail).map Prod.fst

/-- The selection after the edit. -/
def select (e : BufferEdit X) (sel : Selection) (maxLen : Nat) : Option Selection :=
  match e.offsets with
  | none => sel.applyDelta X e.delta maxLen
  | some (caret, tail) => sel.applyDeltaOffsetCarets X e.delta caret tail maxLen

/-- What the edit does to data and selection. -/
def effect (e : BufferEdit X) (s : Snapshot) : Option Snapshot :=
  (e.select s.2 s.1.length).map fun sel ↦ (X.apply e.delta s.1, sel)

/-- The delta is made for data of this length. -/
def Fits (e : BufferEdit X) (s : Snapshot) : Prop := s.1.length = X.baseLen e.delta

/-- An edit runs when a selection is found for the new data. -/
theorem run_eq (e : BufferEdit X) (isFinal : Bool) (b : CurrentBuffer X) :
    e.run isFinal b = (e.select b.selection b.data.length).map fun sel ↦
      { b.applyDeltaToCurrentBuffer e.delta isFinal with selection := sel } := by
  obtain ⟨delta, offsets⟩ := e
  cases isFinal <;> rcases offsets with _ | ⟨caret, tail⟩ <;>
    simp only [run, select, CurrentBuffer.applyDelta, CurrentBuffer.applyDeltaOffsetCarets,
      CurrentBuffer.applyIncompleteDelta, CurrentBuffer.applyIncompleteDeltaOffsetCarets,
      CurrentBuffer.applyWith, CurrentBuffer.applyDeltaToCurrentBuffer, Option.bind_eq_bind,
      Option.map_eq_bind, Option.bind_assoc] <;> rfl

/-- An edit of the buffer has the effect on its snapshot. -/
theorem effect_snapshot (e : BufferEdit X) (isFinal : Bool) (b : CurrentBuffer X) :
    e.effect b.snapshot = (e.run isFinal b).map CurrentBuffer.snapshot := by
  rw [run_eq, Option.map_map]
  rfl

end BufferEdit

/-- Partial edits, one after the other. -/
def runPartial : List (BufferEdit X) → CurrentBuffer X → Option (CurrentBuffer X) :=
  runSteps fun e b ↦ e.run false b

/-- The effect of partial edits, one after the other. -/
def effectPartial : List (BufferEdit X) → Snapshot → Option Snapshot :=
  runSteps fun e s ↦ e.effect s

/-- A committed action, or a move in the history. -/
inductive HistoryAct (X : XiRope UInt8) where
  | final (e : BufferEdit X)
  | group (e : BufferEdit X) (es : List (BufferEdit X))
  | undo
  | redo

namespace CurrentBuffer

/-- An undo that leaves the buffer alone when there is nothing to undo. -/
def undoStep (b : CurrentBuffer X) : CurrentBuffer X := (b.performUndo.map Prod.fst).getD b

/-- Redoes once, or stays when there is nothing to redo. -/
def redoStep (b : CurrentBuffer X) : CurrentBuffer X := (b.performRedo.map Prod.fst).getD b

end CurrentBuffer

namespace HistoryAct

/-- The step is an edit, on its own or with those that follow it. -/
def IsAction : HistoryAct X → Prop
  | final _ => True
  | group _ _ => True
  | undo => False
  | redo => False

/-- The action on the buffer. -/
def run : HistoryAct X → CurrentBuffer X → Option (CurrentBuffer X)
  | final e, b => e.run true b
  | group e es, b => (runPartial (e :: es) b).map CurrentBuffer.commitDelta
  | undo, b => some b.undoStep
  | redo, b => some b.redoStep

/-- The action on a linear history of snapshots. -/
def step : HistoryAct X → Timeline Snapshot → Option (Timeline Snapshot)
  | final e, t => (e.effect t.present).map t.commit
  | group e es, t => (effectPartial (e :: es) t.present).map t.commit
  | undo, t => some t.undo
  | redo, t => some t.redo

end HistoryAct

/-- Every delta of the group is made for the data it meets. -/
def FitsPartial : List (BufferEdit X) → CurrentBuffer X → Prop :=
  Along (fun e b ↦ e.run false b) fun e b ↦ e.Fits b.snapshot

/-- The edits of the step fit the buffer they come to. -/
def HistoryAct.Fits : HistoryAct X → CurrentBuffer X → Prop
  | final e, b => e.Fits b.snapshot
  | group e es, b => FitsPartial (e :: es) b
  | undo, _ => True
  | redo, _ => True

/-- The buffer after the steps. -/
def runActs : List (HistoryAct X) → CurrentBuffer X → Option (CurrentBuffer X) :=
  runSteps HistoryAct.run

/-- The timeline after the steps. -/
def stepActs : List (HistoryAct X) → Timeline Snapshot → Option (Timeline Snapshot) :=
  runSteps HistoryAct.step

/-- Every delta of the run is made for the data it meets. -/
def FitsRun : List (HistoryAct X) → CurrentBuffer X → Prop := Along HistoryAct.run HistoryAct.Fits

/-! ## The history of a buffer and the linear history -/

/-- A stack of inverse edits that leads from the data through the snapshots. -/
def Restores : List UInt8 → List (Action X × Selection) → List Snapshot → Prop
  | _, [], [] => True
  | xs, (a, sel) :: stack, s :: past => X.Takes a.delta xs s.1 ∧ sel = s.2 ∧ Restores s.1 stack past
  | _, _, _ => False

/-- The buffer is at the present of the linear history and its stacks lead through the
rest of it. -/
structure Follows (b : CurrentBuffer X) (t : Timeline Snapshot) : Prop where
  present : t.present = b.snapshot
  complete : b.history.partialDelta = none
  undo : Restores b.data b.history.undoStack t.past
  redo : Restores b.data b.history.redoStack t.future

/-- In the middle of a group that started at the present of the linear history. -/
structure FollowsPartial (b : CurrentBuffer X) (t : Timeline Snapshot) : Prop where
  started : ∃ a, b.history.partialDelta = some (a, t.present.2) ∧
    X.Takes a.delta b.data t.present.1
  undo : Restores t.present.1 b.history.undoStack t.past

/-- An edit that is complete is one step of the timeline. -/
theorem Follows.final {b b' : CurrentBuffer X} {t : Timeline Snapshot} {e : BufferEdit X}
    (h : Follows b t) (hf : e.Fits b.snapshot) (hr : e.run true b = some b') :
    Follows b' (t.commit b'.snapshot) := by
  rw [BufferEdit.run_eq] at hr
  obtain ⟨sel, -, rfl⟩ := Option.map_eq_some_iff.mp hr
  have ht : X.Takes e.delta b.data (X.apply e.delta b.data) := ⟨hf, rfl⟩
  refine ⟨rfl, h.complete, ⟨?_, ?_, ?_⟩, trivial⟩
  · rw [h.present]
    exact Action.takes_invert ht
  · rw [h.present]
    rfl
  · rw [h.present]
    exact h.undo

/-- An edit that is not leaves the timeline where it is. -/
theorem Follows.startPartial {b b' : CurrentBuffer X} {t : Timeline Snapshot} {e : BufferEdit X}
    (h : Follows b t) (hf : e.Fits b.snapshot) (hr : e.run false b = some b') :
    FollowsPartial b' t := by
  rw [BufferEdit.run_eq] at hr
  obtain ⟨sel, -, rfl⟩ := Option.map_eq_some_iff.mp hr
  have ht : X.Takes e.delta b.data (X.apply e.delta b.data) := ⟨hf, rfl⟩
  refine ⟨⟨(Action.fromDelta e.delta).invert b.data, ?_, ?_⟩, ?_⟩
  · simp [CurrentBuffer.applyDeltaToCurrentBuffer, History.performPartial, h.complete, h.present,
      CurrentBuffer.snapshot]
  · rw [h.present]
    exact Action.takes_invert ht
  · rw [h.present]
    exact h.undo

/-- So does every further one. -/
theorem FollowsPartial.next {b b' : CurrentBuffer X} {t : Timeline Snapshot} {e : BufferEdit X}
    (h : FollowsPartial b t) (hf : e.Fits b.snapshot) (hr : e.run false b = some b') :
    FollowsPartial b' t := by
  rw [BufferEdit.run_eq] at hr
  obtain ⟨sel, -, rfl⟩ := Option.map_eq_some_iff.mp hr
  obtain ⟨a, ha, hta⟩ := h.started
  have ht : X.Takes e.delta b.data (X.apply e.delta b.data) := ⟨hf, rfl⟩
  refine ⟨⟨((Action.fromDelta e.delta).invert b.data).chain b.data a.delta, ?_, ?_⟩, h.undo⟩
  · simp [CurrentBuffer.applyDeltaToCurrentBuffer, History.performPartial, ha]
  · exact Action.takes_chain (Action.takes_invert ht) hta

/-- What they did becomes one step when they are committed. -/
theorem FollowsPartial.commit {b : CurrentBuffer X} {t : Timeline Snapshot}
    (h : FollowsPartial b t) : Follows b.commitDelta (t.commit b.snapshot) := by
  obtain ⟨a, ha, hta⟩ := h.started
  refine ⟨rfl, ?_, ?_, ?_⟩ <;>
    simp only [CurrentBuffer.commitDelta, History.commitPartial, ha, Timeline.commit]
  · exact ⟨hta, rfl, h.undo⟩
  · trivial

private theorem effectPartial_snapshot (es : List (BufferEdit X)) (b : CurrentBuffer X) :
    effectPartial es b.snapshot = (runPartial es b).map CurrentBuffer.snapshot := by
  induction es generalizing b with
  | nil => rfl
  | cons e es ih =>
    rw [effectPartial, runPartial, runSteps_cons, runSteps_cons, e.effect_snapshot false b]
    cases e.run false b with
    | none => rfl
    | some b' => exact ih b'

private theorem FollowsPartial.run {es : List (BufferEdit X)} {b b' : CurrentBuffer X}
    {t : Timeline Snapshot} (h : FollowsPartial b t) (hf : FitsPartial es b)
    (hr : runPartial es b = some b') : FollowsPartial b' t :=
  (Along.always (Q := fun b ↦ FollowsPartial b t) hf h fun _ _ _ h hf hr ↦ h.next hf hr).last hr

/-- A group of partial edits, committed, is one action. -/
theorem Follows.group {e : BufferEdit X} {es : List (BufferEdit X)} {b b' : CurrentBuffer X}
    {t : Timeline Snapshot} (h : Follows b t) (hf : FitsPartial (e :: es) b)
    (hr : runPartial (e :: es) b = some b') : Follows b'.commitDelta (t.commit b'.snapshot) := by
  obtain ⟨mid, hm, hr⟩ := Option.bind_eq_some_iff.mp hr
  exact ((h.startPartial hf.1 hm).run (hf.2 mid hm) hr).commit

/-- The buffer goes back with the timeline. -/
theorem Follows.undoStep {b : CurrentBuffer X} {t : Timeline Snapshot} (h : Follows b t) :
    Follows b.undoStep t.undo := by
  obtain ⟨path, data, selection, registers, dirty, ⟨pending, undoStack, redoStack⟩, start⟩ := b
  obtain ⟨past, present, future⟩ := t
  obtain ⟨hp, hc, hu, hr⟩ := h
  obtain rfl : present = (data, selection) := hp
  match undoStack, past, hu with
  | [], [], _ => exact ⟨rfl, hc, trivial, hr⟩
  | (a, sel) :: stack, (xs, sel') :: past, ⟨ht, hs, hu⟩ =>
    obtain rfl : sel = sel' := hs
    obtain ⟨hl, rfl⟩ : X.Takes a.delta data xs := ht
    exact ⟨rfl, hc, hu, Action.takes_invert ⟨hl, rfl⟩, rfl, hr⟩

/-- It goes ahead with it. -/
theorem Follows.redoStep {b : CurrentBuffer X} {t : Timeline Snapshot} (h : Follows b t) :
    Follows b.redoStep t.redo := by
  obtain ⟨path, data, selection, registers, dirty, ⟨pending, undoStack, redoStack⟩, start⟩ := b
  obtain ⟨past, present, future⟩ := t
  obtain ⟨hp, hc, hu, hr⟩ := h
  obtain rfl : present = (data, selection) := hp
  match redoStack, future, hr with
  | [], [], _ => exact ⟨rfl, hc, hu, trivial⟩
  | (a, sel) :: stack, (xs, sel') :: future, ⟨ht, hs, hr⟩ =>
    obtain rfl : sel = sel' := hs
    obtain ⟨hl, rfl⟩ : X.Takes a.delta data xs := ht
    exact ⟨rfl, hc, ⟨Action.takes_invert ⟨hl, rfl⟩, rfl, hu⟩, hr⟩

/-- One action of the buffer is one action of the linear history; the one panics when the
other does. -/
theorem Follows.act {a : HistoryAct X} {b : CurrentBuffer X} {t : Timeline Snapshot}
    (h : Follows b t) (hf : a.Fits b) : Option.Rel Follows (a.run b) (a.step t) := by
  cases a with
  | final e =>
    simp only [HistoryAct.run, HistoryAct.step]
    rw [h.present, e.effect_snapshot true b]
    cases hr : e.run true b with
    | none => exact .none
    | some b' => exact .some (h.final hf hr)
  | group e es =>
    simp only [HistoryAct.run, HistoryAct.step]
    rw [h.present, effectPartial_snapshot]
    cases hr : runPartial (e :: es) b with
    | none => exact .none
    | some b' => exact .some (h.group hf hr)
  | undo => exact .some h.undoStep
  | redo => exact .some h.redoStep

/-- Whole runs of the buffer are runs of the linear history. -/
theorem Follows.acts {acts : List (HistoryAct X)} {b : CurrentBuffer X} {t : Timeline Snapshot}
    (h : Follows b t) (hf : FitsRun acts b) :
    Option.Rel Follows (runActs acts b) (stepActs acts t) :=
  Along.rel hf h fun _ _ _ h hf ↦ h.act hf

/-- It goes back any number of steps with it. -/
theorem Follows.iterate_undoStep {b : CurrentBuffer X} {t : Timeline Snapshot} (h : Follows b t)
    (k : Nat) : Follows (CurrentBuffer.undoStep^[k] b) (Timeline.undo^[k] t) := by
  induction k with
  | zero => exact h
  | succ k ih =>
    rw [Function.iterate_succ_apply', Function.iterate_succ_apply']
    exact ih.undoStep

/-- It goes ahead any number of steps with it. -/
theorem Follows.iterate_redoStep {b : CurrentBuffer X} {t : Timeline Snapshot} (h : Follows b t)
    (k : Nat) : Follows (CurrentBuffer.redoStep^[k] b) (Timeline.redo^[k] t) := by
  induction k with
  | zero => exact h
  | succ k ih =>
    rw [Function.iterate_succ_apply', Function.iterate_succ_apply']
    exact ih.redoStep

/-- Without a past there is nothing to undo. -/
theorem Follows.performUndo_eq_none {b : CurrentBuffer X} {t : Timeline Snapshot}
    (h : Follows b t) (hp : t.past = []) : b.performUndo = none := by
  have hu := h.undo
  rw [hp] at hu
  cases hs : b.history.undoStack with
  | nil => simp [CurrentBuffer.performUndo, History.undo, hs]
  | cons p stack => rw [hs] at hu; exact hu.elim

private theorem Follows.performRedo_eq_none {b : CurrentBuffer X} {t : Timeline Snapshot}
    (h : Follows b t) (hp : t.future = []) : b.performRedo = none := by
  have hr := h.redo
  rw [hp] at hr
  cases hs : b.history.redoStack with
  | nil => simp [CurrentBuffer.performRedo, History.redo, hs]
  | cons p stack => rw [hs] at hr; exact hr.elim

private theorem step_of_isAction {a : HistoryAct X} {t t' : Timeline Snapshot} (ha : a.IsAction)
    (h : a.step t = some t') : ∃ s, t' = t.commit s := by
  cases a with
  | final e =>
    obtain ⟨s, -, rfl⟩ := Option.map_eq_some_iff.mp h
    exact ⟨s, rfl⟩
  | group e es =>
    obtain ⟨s, -, rfl⟩ := Option.map_eq_some_iff.mp h
    exact ⟨s, rfl⟩
  | undo => exact ha.elim
  | redo => exact ha.elim

/-- As many undos as there were actions go back to where the actions started. -/
theorem undo_of_actions {es : List (HistoryAct X)} {t t' : Timeline Snapshot}
    (he : ∀ a ∈ es, a.IsAction) (h : stepActs es t = some t') :
    es.length ≤ t'.past.length ∧
      ∃ future, Timeline.undo^[es.length] t' = { t with future := future } := by
  suffices hs : t'.past.length = t.past.length + es.length ∧
      ∃ future, Timeline.undo^[es.length] t' = { t with future := future } from
    ⟨by omega, hs.2⟩
  induction es generalizing t with
  | nil =>
    obtain rfl := Option.some.inj h
    exact ⟨rfl, t.future, rfl⟩
  | cons a es ih =>
    obtain ⟨ha, hes⟩ := List.forall_mem_cons.mp he
    obtain ⟨mid, hm, h⟩ := Option.bind_eq_some_iff.mp h
    obtain ⟨s, rfl⟩ := step_of_isAction ha hm
    obtain ⟨hl, future, hu⟩ := ih hes h
    refine ⟨?_, s :: future, ?_⟩
    · simp only [Timeline.commit, List.length_cons] at hl ⊢
      omega
    · rw [List.length_cons, Function.iterate_succ_apply', hu]
      rfl

private theorem future_of_actions {es : List (HistoryAct X)} {t t' : Timeline Snapshot}
    (he : ∀ a ∈ es, a.IsAction) (hne : es ≠ []) (h : stepActs es t = some t') :
    t'.future = [] := by
  induction es generalizing t with
  | nil => exact absurd rfl hne
  | cons a es ih =>
    obtain ⟨ha, hes⟩ := List.forall_mem_cons.mp he
    obtain ⟨mid, hm, h⟩ := Option.bind_eq_some_iff.mp h
    obtain ⟨s, rfl⟩ := step_of_isAction ha hm
    by_cases hes' : es = []
    · subst hes'
      obtain rfl := Option.some.inj h
      rfl
    · exact ih hes hes' h

/-- Every run of committed actions, undos and redos from a buffer without a history is a
run of the linear history of its snapshots. In particular as many undos as there were
actions restore what held before them, as many redos return, exhausted stacks change
nothing, and a new action leaves nothing to redo. -/
theorem runActs_refines_timeline (b₀ : CurrentBuffer X) (acts : List (HistoryAct X))
    (hn : b₀.history = History.new) (hf : FitsRun acts b₀) :
    (runActs acts b₀).map CurrentBuffer.snapshot =
      (stepActs acts (Timeline.start b₀.snapshot)).map Timeline.present ∧
    ∀ b t, runActs acts b₀ = some b → stepActs acts (Timeline.start b₀.snapshot) = some t →
      (t.past = [] → b.performUndo = none) ∧ (t.future = [] → b.performRedo = none) ∧
      ∀ es b', (∀ a ∈ es, a.IsAction) → FitsRun es b → runActs es b = some b' →
        (CurrentBuffer.undoStep^[es.length] b').snapshot = b.snapshot ∧
        (CurrentBuffer.redoStep^[es.length]
          (CurrentBuffer.undoStep^[es.length] b')).snapshot = b'.snapshot ∧
        (es ≠ [] → b'.performRedo = none) := by
  have hstart : Follows b₀ (Timeline.start b₀.snapshot) := by
    refine ⟨rfl, ?_, ?_, ?_⟩ <;> rw [hn]
    · rfl
    · trivial
    · trivial
  have hrel := hstart.acts hf
  constructor
  · generalize runActs acts b₀ = r at hrel ⊢
    generalize stepActs acts (Timeline.start b₀.snapshot) = t at hrel ⊢
    cases hrel with
    | none => rfl
    | some h => exact congrArg some h.present.symm
  · intro b t hb ht
    rw [hb, ht] at hrel
    cases hrel with
    | some h =>
    refine ⟨h.performUndo_eq_none, h.performRedo_eq_none, fun es b' he hfe hr ↦ ?_⟩
    have hrel' := h.acts hfe
    rw [hr] at hrel'
    cases ht' : stepActs es t with
    | none => rw [ht'] at hrel'; cases hrel'
    | some t' =>
      rw [ht'] at hrel'
      cases hrel' with
      | some h' =>
      obtain ⟨hlen, future, hu⟩ := undo_of_actions he ht'
      have hback := h'.iterate_undoStep es.length
      have hforth := hback.iterate_redoStep es.length
      rw [Timeline.redo_iterate_undo_iterate hlen] at hforth
      rw [hu] at hback
      exact ⟨hback.present.symm.trans h.present, hforth.present.symm.trans h'.present,
        fun hne ↦ h'.performRedo_eq_none (future_of_actions he hne ht')⟩

/-- A deletion of the first byte and its undo. -/
theorem runActs_delete_undo :
    let X := XiRope.reference UInt8
    let b : CurrentBuffer X := CurrentBuffer.fromDataAndPath [1, 2, 3] none
    let acts : List (HistoryAct X) := [.final ⟨X.simpleEdit 0 1 [] 3, none⟩, .undo]
    (runActs acts b).map CurrentBuffer.snapshot = some ([1, 2, 3], Selection.new) := by
  intro X b acts
  have hf : FitsRun acts b := ⟨rfl, fun _ _ ↦ ⟨trivial, fun _ _ ↦ trivial⟩⟩
  refine (runActs_refines_timeline b acts rfl hf).1.trans ?_
  rfl

end Tofu

import Tofu.Modes.Session
import Tofu.Rope.Reference

/-!
# Typed counts

A count is part of the state of normal mode, and only a transition that installs a mode
clears it (`src/src/hex_view/view.rs:1700–1721`). The actions that hand back their dirty
bytes alone, or nothing, leave the count to the next command.
-/

namespace Tofu

open Rope

variable {X : XiRope UInt8}

/-- The actions after which normal mode goes on with the count it had. Removing or retaining
a region does so for the count zero, which names no region. -/
def Normal.Action.keepsCount (count : CmdCount.State) : Normal.Action → Bool
  | .swapCaret | .collapseSelection | .delete _ | .yank _ | .paste _ _ | .selectAll => true
  | .removeMain | .retainMain => decide (count.toCount = 0)
  | _ => false

section

variable {m : Normal} {b b' : CurrentBuffer X} {t : ModeTransition}

private theorem mode_of_dirty {r : Option (CurrentBuffer X × DirtyBytes)} (old : Mode)
    (h : Outcome.dirty r = some (some (t, b'))) : t.mode old = old := by
  obtain ⟨⟨d, rfl⟩, -⟩ := Outcome.of_dirty h
  rfl

private theorem mode_of_modeAndDirty {mode : Mode} {r : Option (CurrentBuffer X × DirtyBytes)}
    (old : Mode) (h : Outcome.modeAndDirty mode r = some (some (t, b'))) : t.mode old = mode := by
  obtain ⟨⟨d, rfl⟩, -⟩ := Outcome.of_modeAndDirty h
  rfl

private theorem mode_of_keep {t' : ModeTransition} (old : Mode)
    (h : Outcome.keep b t' = some (some (t, b'))) : t.mode old = t'.mode old := by
  rw [(Outcome.of_keep h).1]

private theorem dirty_ne_unhandled (r : Option (CurrentBuffer X × DirtyBytes)) :
    Outcome.dirty r ≠ some none := by
  cases r <;> simp [Outcome.dirty]

private theorem modeAndDirty_ne_unhandled (mode : Mode)
    (r : Option (CurrentBuffer X × DirtyBytes)) : Outcome.modeAndDirty mode r ≠ some none := by
  cases r <;> simp [Outcome.modeAndDirty]

private theorem keep_ne_unhandled (b : CurrentBuffer X) (t : ModeTransition) :
    Outcome.keep b t ≠ some none := by
  simp [Outcome.keep]

/-- A bound key is handled. -/
theorem Normal.act_ne_unhandled (m : Normal) (action : Normal.Action) (b : CurrentBuffer X)
    (bytesPerLine : Nat) : m.act action b bytesPerLine ≠ some none := by
  cases action with
  | jumpToMode | extendToMode =>
    simp only [Normal.act]
    split
    · exact keep_ne_unhandled _ _
    · exact modeAndDirty_ne_unhandled _ _
  | splitMode | replaceMode | overwrite | collapseMode | commandMode => exact keep_ne_unhandled _ _
  | insert | append | move | extend | selectNext | selectPrev =>
    exact modeAndDirty_ne_unhandled _ _
  | swapCaret | collapseSelection | selectAll | paste => exact dirty_ne_unhandled _
  | delete register =>
    intro h
    obtain ⟨b₁, -, h⟩ := Option.bind_eq_some_iff.mp h
    split at h
    · exact keep_ne_unhandled _ _ h
    · exact dirty_ne_unhandled _ h
  | change hex register =>
    intro h
    obtain ⟨b₁, -, h⟩ := Option.bind_eq_some_iff.mp h
    split at h
    · exact keep_ne_unhandled _ _ h
    · exact modeAndDirty_ne_unhandled _ _ h
  | yank register =>
    intro h
    obtain ⟨b₁, -, h⟩ := Option.bind_eq_some_iff.mp h
    exact keep_ne_unhandled _ _ h
  | measure =>
    intro h
    obtain ⟨main, -, h⟩ := Option.bind_eq_some_iff.mp h
    exact keep_ne_unhandled _ _ h
  | removeMain | retainMain =>
    simp only [Normal.act]
    split
    · exact modeAndDirty_ne_unhandled _ _
    · exact dirty_ne_unhandled _
  | undo | redo =>
    simp only [Normal.act, Normal.stepped]
    split
    · exact keep_ne_unhandled _ _
    · exact modeAndDirty_ne_unhandled _ _

/-- An action that keeps the count leaves the mode as it is. -/
theorem Normal.mode_of_keepsCount {action : Normal.Action} {bytesPerLine : Nat}
    (hk : action.keepsCount m.countState = true)
    (h : m.act action b bytesPerLine = some (some (t, b'))) :
    t.mode (.normal m) = .normal m := by
  cases action with
  | swapCaret => exact mode_of_dirty _ h
  | collapseSelection => exact mode_of_dirty _ h
  | selectAll => exact mode_of_dirty _ h
  | paste after register => exact mode_of_dirty _ h
  | yank register =>
    obtain ⟨b₁, -, h⟩ := Option.bind_eq_some_iff.mp h
    exact mode_of_keep _ h
  | delete register =>
    obtain ⟨b₁, -, h⟩ := Option.bind_eq_some_iff.mp h
    split at h
    · exact mode_of_keep _ h
    · exact mode_of_dirty _ h
  | removeMain | retainMain =>
    have hzero : m.countState.toCount = 0 := of_decide_eq_true hk
    simp only [Normal.act] at h
    split at h
    · next heq => simp [heq, CmdCount.State.toCount] at hzero
    · exact mode_of_dirty _ h
  | _ => cases hk

/-- An action that does not keep the count leaves normal mode, or a fresh normal mode. -/
theorem Normal.mode_of_not_keepsCount {action : Normal.Action} {bytesPerLine : Nat}
    (hk : action.keepsCount m.countState = false)
    (h : m.act action b bytesPerLine = some (some (t, b'))) {m' : Normal}
    (hm : t.mode (.normal m) = .normal m') : m' = .new := by
  have hfresh {mode : Mode} (ht : t.mode (.normal m) = mode)
      (hmode : ∀ m', mode = .normal m' → m' = .new) : m' = .new := hmode m' (ht.symm.trans hm)
  have hstepped {info : String} {r : Option (CurrentBuffer X × DirtyBytes)}
      (hs : Normal.stepped b info r = some (some (t, b'))) : t.mode (.normal m) = .normal .new := by
    cases r with
    | none => exact mode_of_keep _ hs
    | some r => exact mode_of_modeAndDirty _ hs
  cases action with
  | jumpToMode | extendToMode =>
    simp only [Normal.act] at h
    split at h
    · exact hfresh (mode_of_keep _ h) (by simp [ModeTransition.mode])
    · exact hfresh (mode_of_modeAndDirty _ h) (by simp)
  | splitMode | replaceMode | overwrite | collapseMode | commandMode =>
    exact hfresh (mode_of_keep _ h) (by simp [ModeTransition.mode])
  | insert | append | move | extend | selectNext | selectPrev =>
    exact hfresh (mode_of_modeAndDirty _ h) (by simp)
  | change hex register =>
    obtain ⟨b₁, -, h⟩ := Option.bind_eq_some_iff.mp h
    split at h
    · exact hfresh (mode_of_keep _ h) (by simp [ModeTransition.mode])
    · exact hfresh (mode_of_modeAndDirty _ h) (by simp)
  | removeMain | retainMain =>
    simp only [Normal.act] at h
    split at h
    · exact hfresh (mode_of_modeAndDirty _ h) (by simp)
    · next hpos =>
      -- without a count, or with the count zero, the mode stays
      obtain rfl : m = .new := by
        obtain ⟨_ | ⟨hex, _ | count⟩⟩ := m
        · rfl
        · cases hk
        · exact absurd rfl (hpos hex count)
      exact hfresh (mode_of_dirty _ h) (by simp)
  | measure =>
    obtain ⟨main, -, h⟩ := Option.bind_eq_some_iff.mp h
    exact hfresh (mode_of_keep _ h) (by simp [ModeTransition.mode])
  | undo => exact hfresh (hstepped h) (by simp)
  | redo => exact hfresh (hstepped h) (by simp)
  | _ => cases hk

end

/-- After a key that normal mode takes as a command no count is left exactly when none was
typed or the action does not keep it. Whatever is typed then acts as in a fresh normal mode. -/
theorem count_cleared_iff (E : SearchEngine) (fs : FileSystem) (bytesPerLine : Nat)
    {m : Normal} {b : CurrentBuffer X} {evt : KeyEvent} {action : Normal.Action} {s : Session X}
    (hentry : m.countState.transition (.key evt) = none)
    (haction : Normal.defaultMaps.eventToAction (.key evt) = some action)
    (hstep : Session.step E fs bytesPerLine (.key evt) { mode := .normal m, buffer := b } =
      some s) :
    ((∀ m', s.mode = .normal m' → m'.countState = .none) ↔
      m.countState = .none ∨ action.keepsCount m.countState = false) ∧
    (m.countState = .none ∨ action.keepsCount m.countState = false →
      ∀ m', s.mode = .normal m' → ∀ inputs,
        runSteps (Session.step E fs bytesPerLine) inputs s =
          runSteps (Session.step E fs bytesPerLine) inputs { s with mode := .normal .new }) := by
  obtain ⟨o, ho, hs⟩ := Option.bind_eq_some_iff.mp hstep
  have hact : m.act action b bytesPerLine = some o := by
    rw [← ho]
    simp only [Mode.onBuffer, Normal.transition, hentry, haction]
  match o, hact, hs with
  | none, hact, _ => exact absurd hact (m.act_ne_unhandled action b bytesPerLine)
  | some (t, b'), hact, hs =>
  obtain rfl := Option.some.inj hs
  have hnew (hc : m.countState = .none ∨ action.keepsCount m.countState = false) (m' : Normal)
      (hm : t.mode (.normal m) = .normal m') : m' = .new := by
    cases hk : action.keepsCount m.countState with
    | false => exact Normal.mode_of_not_keepsCount hk hact hm
    | true =>
      rw [Normal.mode_of_keepsCount hk hact, Mode.normal.injEq] at hm
      obtain hc | hc := hc
      · rw [← hm]
        exact congrArg Normal.mk hc
      · simp [hk] at hc
  refine ⟨⟨fun h ↦ ?_, fun hc m' hm ↦ ?_⟩, fun hc m' hm inputs ↦ ?_⟩
  · cases hk : action.keepsCount m.countState with
    | false => exact .inr rfl
    | true => exact .inl (h m (Normal.mode_of_keepsCount hk hact))
  · rw [hnew hc m' hm]
    rfl
  · have hmode : t.mode (.normal m) = .normal .new :=
      hm.trans (congrArg Mode.normal (hnew hc m' hm))
    rw [hmode]

/-- A movement with a count goes back to a mode without one. -/
theorem count_cleared_move :
    let X := XiRope.reference UInt8
    let fs := FileSystem.single ['f'] [1, 2, 3, 4]
    let b : CurrentBuffer X := CurrentBuffer.fromDataAndPath [1, 2, 3, 4] (some ['f'])
    ∃ s : Session X, Session.step .reference fs 16 (.key (.plain (.char 'l')))
        { mode := .normal { countState := .some false 3 }, buffer := b } = some s ∧
      ∀ m', s.mode = .normal m' → m'.countState = .none := by
  intro X fs b
  have hentry : (CmdCount.State.some false 3).transition (.key (.plain (.char 'l'))) = none := rfl
  have haction : Normal.defaultMaps.eventToAction (.key (.plain (.char 'l'))) =
      some (.move .right) := rfl
  obtain ⟨s, hs⟩ : ∃ s, Session.step (X := X) .reference fs 16 (.key (.plain (.char 'l')))
      { mode := .normal { countState := .some false 3 }, buffer := b } = some s := ⟨_, rfl⟩
  exact ⟨s, hs, (count_cleared_iff .reference fs 16 (by exact hentry) haction hs).1.mpr (.inr rfl)⟩

/-- The count of a collapse is still there for the movement typed next. -/
theorem collapse_keeps_count :
    let X := XiRope.reference UInt8
    let fs := FileSystem.single ['f'] [1, 2, 3, 4]
    let step := Session.step (X := X) .reference fs 16
    let start := Session.opened [1, 2, 3, 4] (some ['f'])
    ∃ s s', runSteps step (typedKeys ['3', ';']) start = some s ∧
      s.mode = .normal { countState := .some false 3 } ∧
      runSteps step (typedKeys ['l']) s = some s' ∧
      s'.buffer.selection.main.map SelRegion.caret = some 3 ∧
      (runSteps step (typedKeys ['l']) { s with mode := .normal .new }).map
        (fun s' ↦ s'.buffer.selection.main.map SelRegion.caret) = some (some 1) :=
  ⟨_, _, rfl, rfl, rfl, rfl, rfl⟩

end Tofu

import Tofu.Base.Run
import Tofu.View.HexView

/-!
# Reading a file

Runs of the editor without an edit: moving the cursors, jumping, searching, changing the
selection and scrolling. They change the data of the buffer by loading and trimming only.
As long as nothing was trimmed the data is a prefix of the file.
-/

namespace Tofu

open Rope

variable {X : XiRope UInt8}

/-! ## Keys that do not edit -/

/-- The actions of normal mode that neither edit nor lead to a mode that does. -/
def Normal.Action.Reads : Normal.Action → Prop
  | .delete _ | .paste _ _ | .change _ _ | .insert _ | .append _ | .overwrite _
  | .replaceMode _ | .undo | .redo | .commandMode => False
  | .move _ | .extend _ | .splitMode | .jumpToMode | .extendToMode | .collapseMode _ | .swapCaret
  | .collapseSelection | .yank _ | .removeMain | .retainMain | .selectPrev | .selectNext
  | .selectAll | .measure => True

instance : DecidablePred Normal.Action.Reads
  | .delete _ | .paste _ _ | .change _ _ | .insert _ | .append _ | .overwrite _
  | .replaceMode _ | .undo | .redo | .commandMode => isFalse id
  | .move _ | .extend _ | .splitMode | .jumpToMode | .extendToMode | .collapseMode _ | .swapCaret
  | .collapseSelection | .yank _ | .removeMain | .retainMain | .selectPrev | .selectNext
  | .selectAll | .measure => isTrue trivial

/-- The mode does not edit on the event. -/
def Mode.Reads (evt : Event) : Mode → Prop
  | .normal m => m.countState.transition evt = none →
      ∀ action ∈ Normal.defaultMaps.eventToAction evt, action.Reads
  | .jumpTo _ | .split _ | .search _ => True
  | .insert _ | .replace _ | .command _ | .quitting => False

instance (evt : Event) : DecidablePred (Mode.Reads evt)
  | .normal m => inferInstanceAs (Decidable (m.countState.transition evt = none →
      ∀ action ∈ Normal.defaultMaps.eventToAction evt, action.Reads))
  | .jumpTo _ | .split _ | .search _ => isTrue trivial
  | .insert _ | .replace _ | .command _ | .quitting => isFalse id

/-- The buffer still shows the same part of the same file. -/
structure SameFile (b b' : CurrentBuffer X) : Prop where
  path : b'.path = b.path
  data : b'.data = b.data
  dataStartOffset : b'.dataStartOffset = b.dataStartOffset

/-- An outcome that changes neither data nor path of a buffer. -/
def Outcome.Reads (b : CurrentBuffer X) (o : Outcome X) : Prop :=
  ∀ t b', o = some (some (t, b')) → SameFile b b'

section Outcomes

variable {b : CurrentBuffer X} {r : Option (CurrentBuffer X × DirtyBytes)}

/-- A buffer shows the same part of the same file as itself. -/
theorem SameFile.rfl : SameFile b b := ⟨Eq.refl _, Eq.refl _, Eq.refl _⟩

namespace Outcome

private theorem reads_unhandled : (unhandled : Outcome X).Reads b := by
  intro t b' h
  simp [unhandled] at h

private theorem reads_keep {b₁ : CurrentBuffer X} (t : ModeTransition) (h : SameFile b b₁) :
    (keep b₁ t).Reads b := by
  intro t' b' hk
  obtain ⟨-, rfl⟩ := of_keep hk
  exact h

private theorem reads_dirty (h : ∀ b', r.map Prod.fst = some b' → SameFile b b') :
    (dirty r).Reads b := fun _ b' hr ↦ h b' (of_dirty hr).2

private theorem reads_modeAndDirty (mode : Mode)
    (h : ∀ b', r.map Prod.fst = some b' → SameFile b b') :
    (modeAndDirty mode r).Reads b := fun _ b' hr ↦ h b' (of_modeAndDirty hr).2

private theorem reads_bind {α : Type} {o : Option α} {f : α → Outcome X}
    (h : ∀ a, o = some a → (f a).Reads b) : Reads b (o.bind f) := by
  intro t b' hr
  obtain ⟨a, ha, hr⟩ := Option.bind_eq_some_iff.mp hr
  exact h a ha t b' hr

end Outcome

/-- Another selection shows the same part. -/
theorem SameFile.of_mapSelections {σ : Type} {f : σ → SelRegion → Option (σ × List SelRegion)}
    {s : σ} (b' : CurrentBuffer X) (h : (b.mapSelections f s).map Prod.fst = some b') :
    SameFile b b' := by
  rw [CurrentBuffer.map_fst_mapSelections] at h
  obtain ⟨p, -, rfl⟩ := Option.map_eq_some_iff.mp h
  exact ⟨Eq.refl _, Eq.refl _, Eq.refl _⟩

private theorem SameFile.of_modifySelsInPlace {f : Selection → Option Selection}
    (b' : CurrentBuffer X)
    (h : (b.modifySelsInPlace f).map Prod.fst = some b') : SameFile b b' := by
  obtain ⟨p, hm, rfl⟩ := Option.map_eq_some_iff.mp h
  obtain ⟨sel, -, hm⟩ := Option.bind_eq_some_iff.mp hm
  obtain rfl := Option.some.inj hm
  exact ⟨Eq.refl _, Eq.refl _, Eq.refl _⟩

private theorem SameFile.of_switchMainSel {f : Selection → Option Selection} (b' : CurrentBuffer X)
    (h : (b.switchMainSel f).map Prod.fst = some b') : SameFile b b' := by
  obtain ⟨p, hm, rfl⟩ := Option.map_eq_some_iff.mp h
  obtain ⟨_, -, hm⟩ := Option.bind_eq_some_iff.mp hm
  obtain ⟨sel, -, hm⟩ := Option.bind_eq_some_iff.mp hm
  obtain ⟨_, -, hm⟩ := Option.bind_eq_some_iff.mp hm
  obtain rfl := Option.some.inj hm
  exact ⟨Eq.refl _, Eq.refl _, Eq.refl _⟩

private theorem SameFile.of_yankSelections {register : Char} {b' : CurrentBuffer X}
    (h : b.yankSelections register = some b') : SameFile b b' := by
  rw [CurrentBuffer.yankSelections] at h
  split at h
  · obtain rfl := Option.some.inj h
    exact ⟨Eq.refl _, Eq.refl _, Eq.refl _⟩
  · obtain ⟨_, -, h⟩ := Option.bind_eq_some_iff.mp h
    obtain rfl := Option.some.inj h
    exact ⟨Eq.refl _, Eq.refl _, Eq.refl _⟩

end Outcomes

/-! ## The modes -/

section Modes

variable {b : CurrentBuffer X} {bytesPerLine : Nat} {E : SearchEngine}

open Outcome SameFile

private theorem SearchAcceptor.reads_applySearch (next : SearchAcceptor) (pattern : Pattern) :
    (next.applySearch E pattern b).Reads b := by
  cases next with
  | split m =>
    show (Split.applySearch E pattern b).Reads b
    unfold Split.applySearch
    split
    · exact reads_keep _ .rfl
    · refine reads_bind fun ranges _ ↦ ?_
      split
      · exact reads_keep _ .rfl
      · exact reads_modeAndDirty _ of_mapSelections
  | collapse =>
    show (collapseSearch E pattern b).Reads b
    unfold collapseSearch
    split
    · exact reads_keep _ .rfl
    · refine reads_bind fun ranges _ ↦ ?_
      split
      · exact reads_keep _ .rfl
      · exact reads_modeAndDirty _ of_mapSelections

private theorem Search.reads_transition (m : Search) (evt : Event) :
    (m.transition E evt b).Reads b := by
  unfold transition
  split
  · next action _ =>
    cases action with
    | insertNull | insertWildcard => exact reads_bind fun _ _ ↦ reads_keep _ .rfl
    | removeLast =>
      simp only [act]
      split <;> split <;> exact reads_keep _ .rfl
    | removeThis | cursorLeft | cursorRight | switchInputMode | cancel =>
      exact reads_keep _ .rfl
    | finish => exact SearchAcceptor.reads_applySearch _ _
  · split
    · split
      · exact reads_unhandled
      · unfold typed
        split
        · exact reads_bind fun _ _ ↦ reads_keep _ .rfl
        · split
          · exact reads_unhandled
          · split <;> exact reads_bind fun _ _ ↦ reads_keep _ .rfl
    · exact reads_unhandled

private theorem Split.reads_transition (m : Split) (evt : Event) :
    (m.transition E evt b).Reads b := by
  unfold transition
  split
  · exact reads_keep _ .rfl
  · split
    · exact reads_modeAndDirty _ of_mapSelections
    · exact SearchAcceptor.reads_applySearch (.split m) _
    · exact reads_keep _ .rfl
    · split
      · exact reads_keep _ .rfl
      · exact reads_unhandled

private theorem JumpTo.reads_transition (m : JumpTo) (evt : Event) :
    (m.transition evt b bytesPerLine).Reads b := by
  unfold transition
  split
  · exact reads_modeAndDirty _ of_mapSelections
  · split
    · exact reads_keep _ .rfl
    · exact reads_unhandled

private theorem Normal.reads_act (m : Normal) {action : Normal.Action} (ha : action.Reads) :
    (m.act action b bytesPerLine).Reads b := by
  cases action with
  | delete | paste | change | insert | append | overwrite | replaceMode | undo | redo
  | commandMode => exact ha.elim
  | splitMode | collapseMode => exact reads_keep _ .rfl
  | move | extend => exact reads_modeAndDirty _ of_mapSelections
  | swapCaret | collapseSelection => exact reads_dirty of_mapSelections
  | jumpToMode | extendToMode =>
    simp only [act]
    split
    · exact reads_keep _ .rfl
    · exact reads_modeAndDirty _ of_mapSelections
  | yank register =>
    exact reads_bind fun b₁ hy ↦ reads_keep _ (of_yankSelections hy)
  | removeMain | retainMain =>
    simp only [act]
    split
    · exact reads_modeAndDirty _ of_modifySelsInPlace
    · exact reads_dirty of_modifySelsInPlace
  | selectPrev | selectNext => exact reads_modeAndDirty _ of_switchMainSel
  | selectAll =>
    refine reads_dirty fun b' hb ↦ ?_
    obtain rfl := Option.some.inj hb
    exact ⟨Eq.refl _, Eq.refl _, Eq.refl _⟩
  | measure => exact reads_bind fun main _ ↦ reads_keep _ .rfl

/-- A mode that reads changes neither data nor path of the buffer. -/
theorem Mode.reads_onBuffer {mode : Mode} {evt : Event} (h : mode.Reads evt) :
    (mode.onBuffer E evt b bytesPerLine).Reads b := by
  cases mode with
  | normal m =>
    unfold onBuffer Normal.transition
    simp only
    split
    · exact reads_keep _ .rfl
    · next hc =>
      split
      · next action ha => exact m.reads_act (h hc action ha)
      · exact reads_unhandled
  | jumpTo m => exact m.reads_transition evt
  | split m => exact m.reads_transition evt
  | search m => exact m.reads_transition evt
  | insert | replace | command | quitting => exact h.elim

end Modes

end Tofu

import Tofu.Buffer.Editing
import Tofu.Modes.Closures
import Tofu.Modes.Session

/-!
# What the keys ask for

Every event that a mode handles on the current buffer asks for one of a few things: to go on in
another mode, to select something else in the same data, to edit it, or to step in its history.
`Mode.Asks` lists for each mode and key what is asked for and when, and `Mode.exists_asks` says
that the transitions do just that. What holds of every key is derived from the list.
-/

namespace Tofu

open Rope Selection

variable {X : XiRope UInt8}

/-! ## Requests -/

/-- A change to the current buffer. -/
inductive Change where
  /-- Each region becomes one region. -/
  | region (f : RegionMap)
  /-- The regions are split into pieces of some width. -/
  | width (step : Nat)
  /-- A region is removed from the selection. -/
  | remove (index : Nat)
  /-- Only one region is kept. -/
  | retain (index : Nat)
  /-- The main region becomes one of those behind it. -/
  | selectNext (count : Nat)
  /-- The main region becomes one of those before it. -/
  | selectPrev (count : Nat)
  /-- All the data is selected. -/
  | selectAll
  /-- An edit that is recorded at once, after registers were written. -/
  | edit (registers : List (Char × List (List UInt8))) (op : Ops.Operation)
  /-- An edit that stays pending, perhaps with the carets set back onto what was written. -/
  | type (op : Ops.Operation) (back : Bool)
  /-- Half a byte is finished with a zero, and the carets are moved away from it. -/
  | finish (half : UInt8) (direction : Direction) (bytesPerLine : Nat)
  /-- The last edit is undone. -/
  | undo
  /-- The last undo is undone. -/
  | redo

/-- The change to a buffer, with what is reported of it; `none` is a panic, or a history that is
exhausted. -/
def Change.run (b : CurrentBuffer X) : Change → Option (CurrentBuffer X × DirtyBytes)
  | .region f => b.mapSelections (pureClosure fun r ↦ [f.apply r]) ()
  | .width step => b.mapSelections (Split.widthClosure step) ()
  | .remove index => b.removeSelection index
  | .retain index => b.retainSelection index
  | .selectNext count => b.selectNext count
  | .selectPrev count => b.selectPrev count
  | .selectAll => some ({ b with selection := b.selection.selectAll b.data.length },
      .changeInPlace [{ start := 0, stop := b.data.length }])
  | .edit registers op =>
    (op.delta X b.data b.selection).bind (CurrentBuffer.applyDelta { b with registers })
  | .type op false => (op.delta X b.data b.selection).bind b.applyIncompleteDelta
  | .type op true => (op.delta X b.data b.selection).bind fun delta ↦
      b.applyIncompleteDeltaOffsetCarets delta (-1) 0
  | .finish half direction bytesPerLine =>
    (((Ops.change X b.data b.selection [half ||| 0]).bind b.applyIncompleteDelta).map
      Prod.fst).bind fun b ↦ b.mapSelections (pureClosure fun r ↦
        [RegionMap.apply (.insertMove direction bytesPerLine b.data.length true) r]) ()
  | .undo => b.performUndo
  | .redo => b.performRedo

/-- What an event asks of the current buffer. -/
inductive Request where
  /-- The editor panics. -/
  | panic
  /-- The event is not handled. -/
  | unhandled
  /-- Nothing but registers is written. -/
  | go (registers : List (Char × List (List UInt8))) (t : ModeTransition)
  /-- An insertion mode is left, and what is pending is recorded. -/
  | leave
  /-- A pattern is searched for. -/
  | search (next : SearchAcceptor) (pattern : Pattern)
  /-- The buffer is changed, in the mode that goes on or with a new one. -/
  | change (new : Option Mode) (c : Change)

namespace Request

/-- The outcome of a request. -/
def run (E : SearchEngine) (b : CurrentBuffer X) : Request → Outcome X
  | .panic => none
  | .unhandled => .unhandled
  | .go registers t => .keep { b with registers } t
  | .leave => .keep b.commitDelta (.newMode (.normal .new))
  | .search next pattern => next.applySearch E pattern b
  | .change none c => .dirty (c.run b)
  | .change (some mode) c => .modeAndDirty mode (c.run b)

/-- The mode behind a request. -/
def next (old : Mode) : Request → Mode
  | .panic | .unhandled => old
  | .go _ t => t.mode old
  | .leave | .search _ _ => .normal .new
  | .change new _ => new.getD old

end Request

/-! ## Normal mode -/

/-- The index of a region that a count other than zero stands for, `normal.rs:263–264`. -/
def Normal.typedIndex (m : Normal) : Option Nat :=
  match m.countState with
  | .some _ (count + 1) => some count
  | _ => none

/-- What the bound keys of normal mode ask for. -/
inductive Normal.Asks (m : Normal) (b : CurrentBuffer X) (bytesPerLine : Nat) :
    Normal.Action → Request → Prop
  | jumpToMode (hc : m.countState = .none) :
      Asks m b bytesPerLine .jumpToMode (.go b.registers (.newMode (.jumpTo { extend := false })))
  | jumpTo {hex : Bool} {offset : Nat} (hc : m.countState = .some hex offset) :
      Asks m b bytesPerLine .jumpToMode (.change (some (.normal .new)) (.region (.jumpTo offset)))
  | extendToMode (hc : m.countState = .none) :
      Asks m b bytesPerLine .extendToMode (.go b.registers (.newMode (.jumpTo { extend := true })))
  | extendTo {hex : Bool} {offset : Nat} (hc : m.countState = .some hex offset) :
      Asks m b bytesPerLine .extendToMode
        (.change (some (.normal .new)) (.region (.extendTo offset)))
  | splitMode : Asks m b bytesPerLine .splitMode (.go b.registers (.newMode (.split .new)))
  | replaceMode {hex : Bool} : Asks m b bytesPerLine (.replaceMode hex)
      (.go b.registers (.newMode (.replace { hex, hexHalf := none })))
  | collapseMode {hex : Bool} : Asks m b bytesPerLine (.collapseMode hex)
      (.go b.registers (.newMode (.search (.new .collapse hex))))
  | commandMode : Asks m b bytesPerLine .commandMode (.go b.registers (.newMode (.command .new)))
  | insert {hex : Bool} : Asks m b bytesPerLine (.insert hex)
      (.change (some (.insert { hex, mode := .insert, hexHalf := none })) (.region .toBackward))
  | append {hex : Bool} : Asks m b bytesPerLine (.append hex)
      (.change (some (.insert { hex, mode := .append, hexHalf := none }))
        (.region (.append bytesPerLine b.data.length)))
  | overwrite {hex : Bool} : Asks m b bytesPerLine (.overwrite hex)
      (.go b.registers (.newMode (.insert { hex, mode := .overwrite, hexHalf := none })))
  | move {direction : Direction} : Asks m b bytesPerLine (.move direction)
      (.change (some (.normal .new))
        (.region (.move direction bytesPerLine b.data.length m.countState.toCount)))
  | extend {direction : Direction} : Asks m b bytesPerLine (.extend direction)
      (.change (some (.normal .new))
        (.region (.extend direction bytesPerLine b.data.length m.countState.toCount)))
  | swapCaret : Asks m b bytesPerLine .swapCaret (.change none (.region .swapCaret))
  | collapseSelection :
      Asks m b bytesPerLine .collapseSelection (.change none (.region .collapse))
  | delete {register : Char} {registers : List (Char × List (List UInt8))}
      (hy : b.yankSelections register = some { b with registers }) (hd : b.data ≠ []) :
      Asks m b bytesPerLine (.delete register) (.change none (.edit registers .deletion))
  | deleteNothing {register : Char} {registers : List (Char × List (List UInt8))}
      (hy : b.yankSelections register = some { b with registers }) (hd : b.data = []) :
      Asks m b bytesPerLine (.delete register) (.go registers .none)
  | change {hex : Bool} {register : Char} {registers : List (Char × List (List UInt8))}
      (hy : b.yankSelections register = some { b with registers }) (hd : b.data ≠ []) :
      Asks m b bytesPerLine (.change hex register)
        (.change (some (.insert { hex, mode := .insert, hexHalf := none }))
          (.edit registers .deletion))
  | changeNothing {hex : Bool} {register : Char} {registers : List (Char × List (List UInt8))}
      (hy : b.yankSelections register = some { b with registers }) (hd : b.data = []) :
      Asks m b bytesPerLine (.change hex register)
        (.go registers (.newMode (.insert { hex, mode := .insert, hexHalf := none })))
  | yank {register : Char} {registers : List (Char × List (List UInt8))}
      (hy : b.yankSelections register = some { b with registers }) :
      Asks m b bytesPerLine (.yank register) (.go registers .none)
  | yankFails {action : Action} {register : Char} (hy : b.yankSelections register = none) :
      Asks m b bytesPerLine action .panic
  | paste {after : Bool} {register : Char} : Asks m b bytesPerLine (.paste after register)
      (.change none (.edit b.registers (.paste ((b.registers.lookup register).getD [[]]) after
        m.countState.toCount)))
  | removeMain (hc : m.typedIndex = none) :
      Asks m b bytesPerLine .removeMain (.change none (.remove b.selection.mainSelection))
  | removeNth {index : Nat} (hc : m.typedIndex = some index) :
      Asks m b bytesPerLine .removeMain (.change (some (.normal .new)) (.remove index))
  | retainMain (hc : m.typedIndex = none) :
      Asks m b bytesPerLine .retainMain (.change none (.retain b.selection.mainSelection))
  | retainNth {index : Nat} (hc : m.typedIndex = some index) :
      Asks m b bytesPerLine .retainMain (.change (some (.normal .new)) (.retain index))
  | selectNext : Asks m b bytesPerLine .selectNext
      (.change (some (.normal .new)) (.selectNext m.countState.toCount))
  | selectPrev : Asks m b bytesPerLine .selectPrev
      (.change (some (.normal .new)) (.selectPrev m.countState.toCount))
  | selectAll : Asks m b bytesPerLine .selectAll (.change none .selectAll)
  | measure {main : SelRegion} (hm : b.selection.main = some main) :
      Asks m b bytesPerLine .measure
        (.go b.registers (.modeAndInfo (.normal .new) (measured main.len)))
  | measureFails (hm : b.selection.main = none) : Asks m b bytesPerLine .measure .panic
  | undo {p : CurrentBuffer X × DirtyBytes} (hu : b.performUndo = some p) :
      Asks m b bytesPerLine .undo (.change (some (.normal .new)) .undo)
  | undoNothing {info : String} :
      Asks m b bytesPerLine .undo (.go b.registers (.modeAndInfo (.normal .new) info))
  | redo {p : CurrentBuffer X × DirtyBytes} (hu : b.performRedo = some p) :
      Asks m b bytesPerLine .redo (.change (some (.normal .new)) .redo)
  | redoNothing {info : String} :
      Asks m b bytesPerLine .redo (.go b.registers (.modeAndInfo (.normal .new) info))

/-! ## Insertion modes -/

/-- The edit of a typed text. -/
def InsertionMode.writes (text : List UInt8) : InsertionMode → Ops.Operation
  | .insert | .append => .insert text
  | .overwrite => .change text

/-- The edit of half a byte. -/
def InsertionMode.writesHalf (top : UInt8) : InsertionMode → Ops.Operation
  | .insert | .append => .insert [top]
  | .overwrite => .overwriteHalf top

/-- What the keys of an insertion mode ask for. -/
inductive Insert.Asks (m : Insert) (b : CurrentBuffer X) (bytesPerLine : Nat) :
    Event → Request → Prop
  | exit {evt : Event} (hkey : defaultMaps.eventToAction evt = some .exit) :
      Asks m b bytesPerLine evt .leave
  | switchInputMode {evt : Event} (hkey : defaultMaps.eventToAction evt = some .switchInputMode) :
      Asks m b bytesPerLine evt
        (.go b.registers (.newMode (.insert { m with hex := !m.hex, hexHalf := none })))
  | insertNull {evt : Event} (hkey : defaultMaps.eventToAction evt = some .insertNull) :
      Asks m b bytesPerLine evt
        (.change (some (.insert { m with hexHalf := none })) (.type (.insert [0]) false))
  | removeNothing {evt : Event} {action : Action}
      (hkey : defaultMaps.eventToAction evt = some action)
      (ha : action = .removeLast ∨ action = .removeThis) (hd : b.data = []) :
      Asks m b bytesPerLine evt (.go b.registers .none)
  | removeHalf {evt : Event} {action : Action}
      (hkey : defaultMaps.eventToAction evt = some action)
      (ha : action = .removeLast ∨ action = .removeThis) (hd : b.data ≠ [])
      (hh : m.hexHalf.isSome = true) :
      Asks m b bytesPerLine evt
        (.change (some (.insert { m with hexHalf := none })) (.type .deleteCursor false))
  | removeLast {evt : Event} (hkey : defaultMaps.eventToAction evt = some .removeLast)
      (hd : b.data ≠ []) (hh : m.hexHalf.isSome = false) :
      Asks m b bytesPerLine evt (.change none (.type .backspace false))
  | removeThis {evt : Event} (hkey : defaultMaps.eventToAction evt = some .removeThis)
      (hd : b.data ≠ []) (hh : m.hexHalf.isSome = false) :
      Asks m b bytesPerLine evt (.change none (.type .deleteCursor false))
  | move {evt : Event} {direction : Direction}
      (hkey : defaultMaps.eventToAction evt = some (.move direction)) (hh : m.hexHalf = none) :
      Asks m b bytesPerLine evt (.change (some (.insert { m with hexHalf := none }))
        (.region (.insertMove direction bytesPerLine b.data.length false)))
  | finish {evt : Event} {direction : Direction} {half : UInt8}
      (hkey : defaultMaps.eventToAction evt = some (.move direction))
      (hh : m.hexHalf = some half) :
      Asks m b bytesPerLine evt (.change (some (.insert { m with hexHalf := none }))
        (.finish half direction bytesPerLine))
  | secondDigit {key : Char} {modifiers : KeyModifiers} {digit half : UInt8}
      (hkey : defaultMaps.eventToAction (.key { code := .char key, modifiers }) = none)
      (hmod : modifiers.withoutShift.isEmpty = true) (hx : m.hex = true)
      (hd : hexDigit key = some digit) (hh : m.hexHalf = some half) :
      Asks m b bytesPerLine (.key { code := .char key, modifiers })
        (.change (some (.insert { mode := m.mode, hex := true, hexHalf := none }))
          (.type (.change [half ||| digit]) false))
  | firstDigit {key : Char} {modifiers : KeyModifiers} {digit : UInt8}
      (hkey : defaultMaps.eventToAction (.key { code := .char key, modifiers }) = none)
      (hmod : modifiers.withoutShift.isEmpty = true) (hx : m.hex = true)
      (hd : hexDigit key = some digit) (hh : m.hexHalf = none) :
      Asks m b bytesPerLine (.key { code := .char key, modifiers })
        (.change (some (.insert { mode := m.mode, hex := true, hexHalf := some (digit <<< 4) }))
          (.type (m.mode.writesHalf (digit <<< 4)) true))
  | char {key : Char} {modifiers : KeyModifiers}
      (hkey : defaultMaps.eventToAction (.key { code := .char key, modifiers }) = none)
      (hmod : modifiers.withoutShift.isEmpty = true) (hx : m.hex = false) :
      Asks m b bytesPerLine (.key { code := .char key, modifiers })
        (.change none (.type (m.mode.writes (String.utf8EncodeChar key)) false))
  | ignored {evt : Event} (hkey : defaultMaps.eventToAction evt = none)
      (h : ∀ key modifiers, evt = .key { code := .char key, modifiers } →
        modifiers.withoutShift.isEmpty = true → m.hex = true ∧ hexDigit key = none) :
      Asks m b bytesPerLine evt .unhandled

/-! ## All modes -/

/-- What an event asks for in a mode. -/
inductive Mode.Asks (b : CurrentBuffer X) (bytesPerLine : Nat) : Mode → Event → Request → Prop
  | count {m : Normal} {evt : Event} {state : CmdCount.State}
      (hc : m.countState.transition evt = some state) :
      Asks b bytesPerLine (.normal m) evt
        (.go b.registers (.newMode (.normal { countState := state })))
  | normal {m : Normal} {evt : Event} {action : Normal.Action} {r : Request}
      (hc : m.countState.transition evt = none)
      (hkey : Normal.defaultMaps.eventToAction evt = some action)
      (h : m.Asks b bytesPerLine action r) : Asks b bytesPerLine (.normal m) evt r
  | normalIgnored {m : Normal} {evt : Event} (hc : m.countState.transition evt = none)
      (hkey : Normal.defaultMaps.eventToAction evt = none) :
      Asks b bytesPerLine (.normal m) evt .unhandled
  | jump {m : JumpTo} {evt : Event} {direction : Direction}
      (hkey : JumpTo.defaultMaps.eventToAction evt = some direction) :
      Asks b bytesPerLine (.jumpTo m) evt (.change (some (.normal .new))
        (.region (.boundary m direction bytesPerLine b.data.length)))
  | jumpLeft {m : JumpTo} {evt : Event} (hkey : JumpTo.defaultMaps.eventToAction evt = none) :
      Asks b bytesPerLine (.jumpTo m) evt (.go b.registers (.newMode (.normal .new)))
  | jumpIgnored {m : JumpTo} {evt : Event} (hkey : JumpTo.defaultMaps.eventToAction evt = none) :
      Asks b bytesPerLine (.jumpTo m) evt .unhandled
  | splitCount {m : Split} {evt : Event} {state : CmdCount.State}
      (hc : m.countState.transition evt = some state) :
      Asks b bytesPerLine (.split m) evt
        (.go b.registers (.newMode (.split { countState := state })))
  | splitWidth {m : Split} {evt : Event} {width : Nat} (hc : m.countState.transition evt = none)
      (hkey : Split.defaultMaps.eventToAction evt = some (.width width)) :
      Asks b bytesPerLine (.split m) evt (.change (some (.normal .new))
        (.width (usizeMul width m.countState.toCount)))
  | splitNull {m : Split} {evt : Event} (hc : m.countState.transition evt = none)
      (hkey : Split.defaultMaps.eventToAction evt = some .null) :
      Asks b bytesPerLine (.split m) evt
        (.search (.split m) { pieces := List.replicate m.countState.toCount (.literal 0) })
  | splitSearch {m : Split} {evt : Event} {hex : Bool} (hc : m.countState.transition evt = none)
      (hkey : Split.defaultMaps.eventToAction evt = some (.search hex)) :
      Asks b bytesPerLine (.split m) evt
        (.go b.registers (.newMode (.search (.new (.split m) hex))))
  | splitLeft {m : Split} {evt : Event} (hc : m.countState.transition evt = none)
      (hkey : Split.defaultMaps.eventToAction evt = none) :
      Asks b bytesPerLine (.split m) evt (.go b.registers (.newMode (.normal .new)))
  | splitIgnored {m : Split} {evt : Event} (hc : m.countState.transition evt = none)
      (hkey : Split.defaultMaps.eventToAction evt = none) :
      Asks b bytesPerLine (.split m) evt .unhandled
  | find {m : Search} {evt : Event} (hkey : Search.defaultMaps.eventToAction evt = some .finish) :
      Asks b bytesPerLine (.search m) evt (.search m.next m.pattern)
  | prompt {m m' : Search} {evt : Event}
      (hkey : Search.defaultMaps.eventToAction evt ≠ some .finish) :
      Asks b bytesPerLine (.search m) evt (.go b.registers (.newMode (.search m')))
  | promptKept {m : Search} {evt : Event}
      (hkey : Search.defaultMaps.eventToAction evt ≠ some .finish) :
      Asks b bytesPerLine (.search m) evt (.go b.registers .none)
  | promptLeft {m : Search} {evt : Event}
      (hkey : Search.defaultMaps.eventToAction evt ≠ some .finish) :
      Asks b bytesPerLine (.search m) evt (.go b.registers (.newMode (.normal .new)))
  | promptFails {m : Search} {evt : Event}
      (hkey : Search.defaultMaps.eventToAction evt ≠ some .finish) :
      Asks b bytesPerLine (.search m) evt .panic
  | promptIgnored {m : Search} {evt : Event}
      (hkey : Search.defaultMaps.eventToAction evt ≠ some .finish) :
      Asks b bytesPerLine (.search m) evt .unhandled
  | insert {m : Insert} {evt : Event} {r : Request} (h : m.Asks b bytesPerLine evt r) :
      Asks b bytesPerLine (.insert m) evt r
  | replace {m : Replace} {evt : Event} (ch : UInt8) :
      Asks b bytesPerLine (.replace m) evt
        (.change (some (.normal .new)) (.edit b.registers (.replace ch)))
  | replaceHalf {m m' : Replace} {evt : Event} :
      Asks b bytesPerLine (.replace m) evt (.go b.registers (.newMode (.replace m')))
  | replaceLeft {m : Replace} {evt : Event} :
      Asks b bytesPerLine (.replace m) evt (.go b.registers (.newMode (.normal .new)))
  | replaceIgnored {m : Replace} {evt : Event} : Asks b bytesPerLine (.replace m) evt .unhandled
  | command {m : Command} {evt : Event} : Asks b bytesPerLine (.command m) evt .unhandled
  | quitting {evt : Event} : Asks b bytesPerLine .quitting evt .panic

/-! ## Yanking -/

/-- The registers are kept, or one of them gets a text for each region. -/
def Yanks (b : CurrentBuffer X) (registers : List (Char × List (List UInt8))) : Prop :=
  registers = b.registers ∨ ∃ register texts, registers = (register, texts) :: b.registers ∧
    texts.length = b.selection.len

private theorem length_of_mapM {α β : Type} {f : α → Option β} {l : List α} {l' : List β}
    (h : l.mapM f = some l') : l'.length = l.length := by
  induction l generalizing l' with
  | nil =>
    obtain rfl := Option.some.inj h
    rfl
  | cons a l ih =>
    rw [List.mapM_cons] at h
    obtain ⟨c, -, h⟩ := Option.bind_eq_some_iff.mp h
    obtain ⟨cs, hcs, h⟩ := Option.bind_eq_some_iff.mp h
    obtain rfl := Option.some.inj h
    rw [List.length_cons, List.length_cons, ih hcs]

/-- Yanking writes a register and nothing else. -/
theorem CurrentBuffer.of_yankSelections {b b' : CurrentBuffer X} {register : Char}
    (h : b.yankSelections register = some b') :
    ∃ registers, b' = { b with registers } ∧ Yanks b registers := by
  unfold yankSelections at h
  split at h
  · exact ⟨_, (Option.some.inj h).symm, .inr ⟨_, _, rfl, List.length_replicate⟩⟩
  · obtain ⟨selections, hs, h⟩ := Option.bind_eq_some_iff.mp h
    exact ⟨_, (Option.some.inj h).symm, .inr ⟨_, _, rfl, length_of_mapM hs⟩⟩

private theorem yanks_of_yankSelections {b : CurrentBuffer X} {register : Char}
    {registers : List (Char × List (List UInt8))}
    (h : b.yankSelections register = some { b with registers }) : Yanks b registers := by
  obtain ⟨registers', heq, hr⟩ := CurrentBuffer.of_yankSelections h
  have hsame : registers = registers' := congrArg CurrentBuffer.registers heq
  exact hsame ▸ hr

/-! ## The transitions -/

section Transitions

variable {b : CurrentBuffer X} {bytesPerLine : Nat}

private theorem Normal.exists_asks_act (E : SearchEngine) (m : Normal) (action : Normal.Action) :
    ∃ r, m.Asks b bytesPerLine action r ∧ m.act action b bytesPerLine = r.run E b := by
  cases action with
  | jumpToMode =>
    cases hc : m.countState with
    | none => exact ⟨_, .jumpToMode hc, by simp only [act, hc]; rfl⟩
    | some hex offset => exact ⟨_, .jumpTo hc, by simp only [act, hc]; rfl⟩
  | extendToMode =>
    cases hc : m.countState with
    | none => exact ⟨_, .extendToMode hc, by simp only [act, hc]; rfl⟩
    | some hex offset => exact ⟨_, .extendTo hc, by simp only [act, hc]; rfl⟩
  | splitMode => exact ⟨_, .splitMode, rfl⟩
  | insert hex => exact ⟨_, .insert, rfl⟩
  | append hex => exact ⟨_, .append, rfl⟩
  | replaceMode hex => exact ⟨_, .replaceMode, rfl⟩
  | overwrite hex => exact ⟨_, .overwrite, rfl⟩
  | move direction => exact ⟨_, .move, rfl⟩
  | extend direction => exact ⟨_, .extend, rfl⟩
  | swapCaret => exact ⟨_, .swapCaret, rfl⟩
  | collapseSelection => exact ⟨_, .collapseSelection, rfl⟩
  | delete register =>
    cases hy : b.yankSelections register with
    | none => exact ⟨_, .yankFails hy, by simp only [act, hy]; rfl⟩
    | some b₁ =>
      obtain ⟨registers, rfl, -⟩ := CurrentBuffer.of_yankSelections hy
      by_cases hd : b.data = []
      · exact ⟨_, .deleteNothing hy hd, by simp only [act, hy]; exact if_pos hd⟩
      · exact ⟨_, .delete hy hd, by simp only [act, hy]; exact if_neg hd⟩
  | change hex register =>
    cases hy : b.yankSelections register with
    | none => exact ⟨_, .yankFails hy, by simp only [act, hy]; rfl⟩
    | some b₁ =>
      obtain ⟨registers, rfl, -⟩ := CurrentBuffer.of_yankSelections hy
      by_cases hd : b.data = []
      · exact ⟨_, .changeNothing hy hd, by simp only [act, hy]; exact if_pos hd⟩
      · exact ⟨_, .change hy hd, by simp only [act, hy]; exact if_neg hd⟩
  | yank register =>
    cases hy : b.yankSelections register with
    | none => exact ⟨_, .yankFails hy, by simp only [act, hy]; rfl⟩
    | some b₁ =>
      obtain ⟨registers, rfl, -⟩ := CurrentBuffer.of_yankSelections hy
      exact ⟨_, .yank hy, by simp only [act, hy]; rfl⟩
  | paste after register => exact ⟨_, .paste, rfl⟩
  | removeMain =>
    rcases hc : m.countState with _ | ⟨hex, _ | count⟩
    · exact ⟨_, .removeMain (by simp [typedIndex, hc]), by simp only [act, hc]; rfl⟩
    · exact ⟨_, .removeMain (by simp [typedIndex, hc]), by simp only [act, hc]; rfl⟩
    · exact ⟨_, .removeNth (show m.typedIndex = some count by simp [typedIndex, hc]), by
        simp only [act, hc]; rfl⟩
  | retainMain =>
    rcases hc : m.countState with _ | ⟨hex, _ | count⟩
    · exact ⟨_, .retainMain (by simp [typedIndex, hc]), by simp only [act, hc]; rfl⟩
    · exact ⟨_, .retainMain (by simp [typedIndex, hc]), by simp only [act, hc]; rfl⟩
    · exact ⟨_, .retainNth (show m.typedIndex = some count by simp [typedIndex, hc]), by
        simp only [act, hc]; rfl⟩
  | selectNext => exact ⟨_, .selectNext, rfl⟩
  | selectPrev => exact ⟨_, .selectPrev, rfl⟩
  | selectAll => exact ⟨_, .selectAll, rfl⟩
  | collapseMode hex => exact ⟨_, .collapseMode, rfl⟩
  | measure =>
    cases hm : b.selection.main with
    | none => exact ⟨_, .measureFails hm, by simp only [act, hm]; rfl⟩
    | some main => exact ⟨_, .measure hm, by simp only [act, hm]; rfl⟩
  | commandMode => exact ⟨_, .commandMode, rfl⟩
  | undo =>
    cases hu : b.performUndo with
    | none => exact ⟨_, .undoNothing, by simp only [act, hu]; rfl⟩
    | some p => exact ⟨_, .undo hu, by simp only [act, hu, Request.run, Change.run]; rfl⟩
  | redo =>
    cases hu : b.performRedo with
    | none => exact ⟨_, .redoNothing, by simp only [act, hu]; rfl⟩
    | some p => exact ⟨_, .redo hu, by simp only [act, hu, Request.run, Change.run]; rfl⟩

/-- A half byte is finished as the second digit of a byte is. -/
theorem Insert.finishHalf_of_half {m : Insert} {half : UInt8} (hh : m.hexHalf = some half) :
    m.finishHalf b = ((Ops.change X b.data b.selection [half ||| 0]).bind
      b.applyIncompleteDelta).map Prod.fst := by
  have hdigit : hexDigit '0' = some 0 := by decide
  simp only [finishHalf, hh, Option.isSome_some, if_true, transitionHexInsertion, hdigit,
    hexInsertion, Outcome.modeAndDirty, Option.map_map]
  rfl

private theorem Insert.exists_asks_act (E : SearchEngine) (m : Insert) {evt : Event}
    {action : Insert.Action} (hkey : defaultMaps.eventToAction evt = some action) :
    ∃ r, m.Asks b bytesPerLine evt r ∧ m.act action b bytesPerLine = r.run E b := by
  cases action with
  | exit => exact ⟨_, .exit hkey, rfl⟩
  | insertNull => exact ⟨_, .insertNull hkey, rfl⟩
  | switchInputMode => exact ⟨_, .switchInputMode hkey, rfl⟩
  | removeLast =>
    by_cases hd : b.data = []
    · exact ⟨_, .removeNothing hkey (.inl rfl) hd, if_pos hd⟩
    · cases hh : m.hexHalf.isSome with
      | true => exact ⟨_, .removeHalf hkey (.inl rfl) hd hh, by simp only [act, if_neg hd, hh]; rfl⟩
      | false => exact ⟨_, .removeLast hkey hd hh, by simp only [act, if_neg hd, hh]; rfl⟩
  | removeThis =>
    by_cases hd : b.data = []
    · exact ⟨_, .removeNothing hkey (.inr rfl) hd, if_pos hd⟩
    · cases hh : m.hexHalf.isSome with
      | true => exact ⟨_, .removeHalf hkey (.inr rfl) hd hh, by simp only [act, if_neg hd, hh]; rfl⟩
      | false => exact ⟨_, .removeThis hkey hd hh, by simp only [act, if_neg hd, hh]; rfl⟩
  | move direction =>
    cases hh : m.hexHalf with
    | none => exact ⟨_, .move hkey hh, by simp only [act, finishHalf, hh]; rfl⟩
    | some half => exact ⟨_, .finish hkey hh, by simp only [act, finishHalf_of_half hh, hh]; rfl⟩

private theorem Insert.exists_asks (E : SearchEngine) (m : Insert) (evt : Event) :
    ∃ r, m.Asks b bytesPerLine evt r ∧ m.transition evt b bytesPerLine = r.run E b := by
  unfold transition
  cases hkey : defaultMaps.eventToAction evt with
  | some action => exact m.exists_asks_act E hkey
  | none =>
    dsimp only
    split
    · next key modifiers =>
      cases hmod : modifiers.withoutShift.isEmpty with
      | false =>
        refine ⟨_, .ignored hkey fun key' modifiers' heq hmod' ↦ ?_, rfl⟩
        cases heq
        rw [hmod] at hmod'
        cases hmod'
      | true =>
        cases hx : m.hex with
        | false =>
          refine ⟨_, .char hkey hmod hx, ?_⟩
          cases hm : m.mode <;> rfl
        | true =>
          cases hd : hexDigit key with
          | none =>
            refine ⟨_, .ignored hkey fun key' modifiers' heq _ ↦ ?_, ?_⟩
            · cases heq
              exact ⟨hx, hd⟩
            · simp [transitionHexInsertion, hd, Request.run]
          | some digit =>
            cases hh : m.hexHalf with
            | some half =>
              refine ⟨_, .secondDigit hkey hmod hx hd hh, ?_⟩
              simp only [transitionHexInsertion, hd, hexInsertion]
              rfl
            | none =>
              refine ⟨_, .firstDigit hkey hmod hx hd hh, ?_⟩
              simp only [transitionHexInsertion, hd, hexInsertion]
              cases hm : m.mode <;> rfl
    · next hchar =>
      exact ⟨_, .ignored hkey fun key modifiers heq _ ↦ absurd heq (hchar key modifiers), rfl⟩

private theorem Search.exists_asks (E : SearchEngine) (m : Search) (evt : Event) :
    ∃ r, Mode.Asks b bytesPerLine (.search m) evt r ∧ m.transition E evt b = r.run E b := by
  by_cases hkey : defaultMaps.eventToAction evt = some .finish
  · exact ⟨_, .find hkey, by simp only [transition, hkey]; rfl⟩
  have hprompt (m' : Search) : ∃ r, Mode.Asks b bytesPerLine (.search m) evt r ∧
      Outcome.keep b (.newMode (.search m')) = r.run E b :=
    ⟨_, .prompt hkey, rfl⟩
  -- a piece that is put into the pattern, or does not fit into it
  have hpiece (o : Option (Pattern × Nat)) (k : Pattern × Nat → Search) :
      ∃ r, Mode.Asks b bytesPerLine (.search m) evt r ∧
        (o.bind fun p ↦ Outcome.keep b (.newMode (.search (k p)))) = r.run E b := by
    cases o with
    | none => exact ⟨_, .promptFails hkey, rfl⟩
    | some p => exact hprompt (k p)
  have hignored : ∃ r, Mode.Asks b bytesPerLine (.search m) evt r ∧
      (Outcome.unhandled : Outcome X) = r.run E b := ⟨_, .promptIgnored hkey, rfl⟩
  unfold transition
  split
  · next action haction =>
    cases action with
    | insertNull | insertWildcard => exact hpiece _ _
    | removeLast =>
      simp only [act]
      split <;> split
      · exact hprompt _
      · exact ⟨_, .promptKept hkey, rfl⟩
      · exact hprompt _
      · exact ⟨_, .promptKept hkey, rfl⟩
    | removeThis | cursorLeft | cursorRight | switchInputMode => exact hprompt _
    | cancel => exact ⟨_, .promptLeft hkey, rfl⟩
    | finish => exact absurd haction hkey
  · split
    · split
      · exact hignored
      · unfold typed
        split
        · exact hpiece _ _
        · split
          · exact hignored
          · split
            · exact hpiece _ _
            · exact hpiece _ _
    · exact hignored

private theorem Replace.exists_asks (E : SearchEngine) (m : Replace) (evt : Event) :
    ∃ r, Mode.Asks b bytesPerLine (.replace m) evt r ∧ m.transition evt b = r.run E b := by
  have hreplace (ch : UInt8) : ∃ r, Mode.Asks b bytesPerLine (.replace m) evt r ∧
      replaceWith b ch = r.run E b := ⟨_, .replace ch, rfl⟩
  have hleft : ∃ r, Mode.Asks b bytesPerLine (.replace m) evt r ∧
      Outcome.keep b (.newMode (.normal .new)) = r.run E b := ⟨_, .replaceLeft, rfl⟩
  unfold transition
  split
  · split
    · exact hreplace _
    · split
      · exact hleft
      · split
        · exact hreplace _
        · split
          · exact hleft
          · split
            · exact ⟨_, .replaceHalf, rfl⟩
            · exact hreplace _
  · exact hleft
  · exact ⟨_, .replaceIgnored, rfl⟩

private theorem Split.exists_asks (E : SearchEngine) (m : Split) (evt : Event) :
    ∃ r, Mode.Asks b bytesPerLine (.split m) evt r ∧ m.transition E evt b = r.run E b := by
  unfold transition
  cases hc : m.countState.transition evt with
  | some state => exact ⟨_, .splitCount hc, rfl⟩
  | none =>
    dsimp only
    split
    · next width hkey => exact ⟨_, .splitWidth hc hkey, rfl⟩
    · next hkey => exact ⟨_, .splitNull hc hkey, rfl⟩
    · next hex hkey => exact ⟨_, .splitSearch hc hkey, rfl⟩
    · next hkey =>
      split
      · exact ⟨_, .splitLeft hc hkey, rfl⟩
      · exact ⟨_, .splitIgnored hc hkey, rfl⟩

/-- Every event asks for something in the list, and that is what comes of it. -/
theorem Mode.exists_asks (E : SearchEngine) (mode : Mode) (evt : Event) (b : CurrentBuffer X)
    (bytesPerLine : Nat) :
    ∃ r, mode.Asks b bytesPerLine evt r ∧ mode.onBuffer E evt b bytesPerLine = r.run E b := by
  cases mode with
  | normal m =>
    simp only [onBuffer, Normal.transition]
    cases hc : m.countState.transition evt with
    | some state => exact ⟨_, .count hc, rfl⟩
    | none =>
      cases hkey : Normal.defaultMaps.eventToAction evt with
      | none => exact ⟨_, .normalIgnored hc hkey, rfl⟩
      | some action =>
        obtain ⟨r, hr, hrun⟩ := m.exists_asks_act E action
        exact ⟨r, .normal hc hkey hr, hrun⟩
  | jumpTo m =>
    simp only [onBuffer, JumpTo.transition]
    split
    · next direction hkey => exact ⟨_, .jump hkey, rfl⟩
    · next hkey =>
      split
      · exact ⟨_, .jumpLeft hkey, rfl⟩
      · exact ⟨_, .jumpIgnored hkey, rfl⟩
  | split m => exact m.exists_asks E evt
  | search m => exact m.exists_asks E evt
  | insert m =>
    obtain ⟨r, hr, hrun⟩ := m.exists_asks E evt
    exact ⟨r, .insert hr, hrun⟩
  | replace m => exact m.exists_asks E evt
  | command m => exact ⟨_, .command, rfl⟩
  | quitting => exact ⟨_, .quitting, rfl⟩

end Transitions

/-! ## What holds of every request -/

/-- The modes whose edits stay pending. -/
def Mode.isInsert : Mode → Bool
  | .insert _ => true
  | _ => false

/-- The keys that forget half a byte that was typed, but do not edit it away. -/
def Insert.Action.dropsHalf : Insert.Action → Bool
  | .exit | .switchInputMode | .move _ => true
  | .insertNull | .removeLast | .removeThis => false

/-- The event is such a key, after half a byte was typed. -/
def Mode.dropsHalf : Mode → Event → Bool
  | .insert m, evt =>
    m.hexHalf.isSome && (Insert.defaultMaps.eventToAction evt).any Insert.Action.dropsHalf
  | _, _ => false

/-- The event selects everything. -/
def Mode.selectsAll : Mode → Event → Bool
  | .normal m, evt => (m.countState.transition evt).isNone &&
    (Normal.defaultMaps.eventToAction evt).any (· = .selectAll)
  | _, _ => false

/-- The changes after which everything is drawn anew. -/
def Change.changesLength : Change → Bool
  | .edit _ _ | .type _ _ | .undo | .redo => true
  | .region _ | .width _ | .remove _ | .retain _ | .selectNext _ | .selectPrev _ | .selectAll
  | .finish _ _ _ => false

/-- What a change presupposes: edits stay pending in the insertion modes only, and only there
half a byte is finished. -/
def Change.Suits (mode : Mode) (evt : Event) (b : CurrentBuffer X) : Change → Prop
  | .edit registers _ => mode.isInsert = false ∧ Yanks b registers
  | .undo | .redo => mode.isInsert = false
  | .type _ _ => mode.isInsert = true
  | .finish _ _ _ => mode.isInsert = true ∧ mode.dropsHalf evt = true
  | .selectAll => mode.selectsAll evt = true
  | .region _ | .width _ | .remove _ | .retain _ | .selectNext _ | .selectPrev _ => True

/-- What a request presupposes. -/
def Request.Suits (mode : Mode) (evt : Event) (b : CurrentBuffer X) : Request → Prop
  | .go registers t => t.report = none ∧ Yanks b registers
  | .leave => mode.isInsert = true
  | .search _ _ => mode.isInsert = false
  | .change _ c => c.Suits mode evt b
  | .panic | .unhandled => True

namespace Mode.Asks

variable {b : CurrentBuffer X} {bytesPerLine : Nat} {mode : Mode} {evt : Event} {r : Request}

/-- A key asks for what suits its mode. -/
theorem suits (h : mode.Asks b bytesPerLine evt r) : r.Suits mode evt b := by
  cases h with
  | normal hc hkey h =>
    cases h with
    | delete hy | change hy => exact ⟨rfl, yanks_of_yankSelections hy⟩
    | deleteNothing hy | changeNothing hy | yank hy => exact ⟨rfl, yanks_of_yankSelections hy⟩
    | paste => exact ⟨rfl, .inl rfl⟩
    | selectAll => simp [Request.Suits, Change.Suits, selectsAll, hc, hkey]
    | undo | redo => rfl
    | jumpToMode | extendToMode | splitMode | replaceMode | collapseMode | commandMode | overwrite
    | measure | undoNothing | redoNothing => exact ⟨rfl, .inl rfl⟩
    | jumpTo | extendTo | insert | append | move | extend | swapCaret | collapseSelection
    | yankFails | removeMain | removeNth | retainMain | retainNth | selectNext | selectPrev
    | measureFails => trivial
  | insert h =>
    cases h with
    | switchInputMode | removeNothing => exact ⟨rfl, .inl rfl⟩
    | finish hkey hh =>
      exact ⟨rfl, by simp [dropsHalf, hh, hkey, Insert.Action.dropsHalf]⟩
    | exit | insertNull | removeHalf | removeLast | removeThis | secondDigit | firstDigit
    | char => rfl
    | move | ignored => trivial
  | replace ch => exact ⟨rfl, .inl rfl⟩
  | splitNull | find => rfl
  | count | jumpLeft | splitCount | splitSearch | splitLeft | prompt | promptKept | promptLeft
  | replaceHalf | replaceLeft => exact ⟨rfl, .inl rfl⟩
  | normalIgnored | jump | jumpIgnored | splitWidth | splitIgnored | promptFails | promptIgnored
  | replaceIgnored | command | quitting => trivial

/-- No key but those of the command prompt quits. -/
theorem next_ne_quitting (h : mode.Asks b bytesPerLine evt r) (hr : r ≠ .panic) :
    r.next mode ≠ .quitting := by
  cases h with
  | normal _ _ h => cases h <;> simp [Request.next, ModeTransition.mode]
  | insert h => cases h <;> simp [Request.next, ModeTransition.mode]
  | quitting => exact absurd rfl hr
  | _ => simp [Request.next, ModeTransition.mode]

/-- An insertion mode is left by the request to leave it only. -/
theorem isInsert_next (h : mode.Asks b bytesPerLine evt r) (hm : mode.isInsert = true) :
    r = .leave ∨ (r.next mode).isInsert = true := by
  cases h with
  | insert h => cases h <;> simp [Request.next, ModeTransition.mode, isInsert]
  | _ => cases hm

/-- Half a byte stays half a byte, unless it is edited or forgotten. -/
theorem half (h : mode.Asks b bytesPerLine evt r) :
    (∃ new c, r = .change new c ∧ c.changesLength = true) ∨ mode.dropsHalf evt = true ∨
      (r.next mode).hasHalfCursor = mode.hasHalfCursor := by
  cases h with
  | normal _ _ h => cases h <;> exact .inr (.inr rfl)
  | insert h =>
    cases h with
    | exit hkey | switchInputMode hkey =>
      rename_i m
      cases hh : m.hexHalf.isSome <;>
        simp [dropsHalf, hh, hkey, Insert.Action.dropsHalf, Request.next, hasHalfCursor,
          ModeTransition.mode]
    | move hkey hh => exact .inr (.inr (by simp [Request.next, hasHalfCursor, hh]))
    | finish hkey hh =>
      exact .inr (.inl (by simp [dropsHalf, hh, hkey, Insert.Action.dropsHalf]))
    | insertNull | removeHalf | removeLast | removeThis | secondDigit | firstDigit | char =>
      exact .inl ⟨_, _, rfl, rfl⟩
    | removeNothing | ignored => exact .inr (.inr rfl)
  | _ => exact .inr (.inr rfl)

end Mode.Asks

/-! ## Outcomes of requests -/

section Outcomes

variable {E : SearchEngine} {b b' : CurrentBuffer X} {t : ModeTransition}

private theorem dirty_of_applyWith {delta : X.Delta} {isFinal : Bool} {d : DirtyBytes}
    {select : Selection → Nat → Option Selection}
    (h : b.applyWith delta isFinal select = some (b', d)) : d = .changeLength := by
  obtain ⟨sel, -, h⟩ := Option.bind_eq_some_iff.mp h
  exact (Prod.mk.inj (Option.some.inj h)).2.symm

/-- An edit that is recorded at once. -/
theorem Change.of_run_edit {registers : List (Char × List (List UInt8))} {op : Ops.Operation}
    {d : DirtyBytes} (h : (Change.edit registers op).run b = some (b', d)) :
    d = .changeLength ∧ ∃ delta, op.delta X b.data b.selection = some delta ∧
      (⟨delta, none⟩ : BufferEdit X).run true { b with registers } = some b' := by
  obtain ⟨delta, hdelta, h⟩ := Option.bind_eq_some_iff.mp h
  exact ⟨dirty_of_applyWith h, delta, hdelta, congrArg (Option.map Prod.fst) h⟩

/-- An edit that stays pending. -/
theorem Change.of_run_type {op : Ops.Operation} {back : Bool} {d : DirtyBytes}
    (h : (Change.type op back).run b = some (b', d)) :
    d = .changeLength ∧ ∃ e : BufferEdit X, op.delta X b.data b.selection = some e.delta ∧
      (e.offsets = none ∨ e.offsets = some (-1, 0)) ∧ e.run false b = some b' := by
  cases back with
  | false =>
    obtain ⟨delta, hdelta, h⟩ := Option.bind_eq_some_iff.mp h
    exact ⟨dirty_of_applyWith h, ⟨delta, none⟩, hdelta, .inl rfl, congrArg (Option.map Prod.fst) h⟩
  | true =>
    obtain ⟨delta, hdelta, h⟩ := Option.bind_eq_some_iff.mp h
    exact ⟨dirty_of_applyWith h, ⟨delta, some (-1, 0)⟩, hdelta, .inr rfl,
      congrArg (Option.map Prod.fst) h⟩

/-- Half a byte is finished by an edit that stays pending, and cursors are moved then. -/
theorem Change.of_run_finish {half : UInt8} {direction : Direction} {bytesPerLine : Nat}
    {d : DirtyBytes} (h : (Change.finish half direction bytesPerLine).run b = some (b', d)) :
    ∃ delta b₁, Ops.change X b.data b.selection [half ||| 0] = some delta ∧
      (⟨delta, none⟩ : BufferEdit X).run false b = some b₁ ∧
      (Change.region (.insertMove direction bytesPerLine b₁.data.length true)).run b₁ =
        some (b', d) := by
  obtain ⟨b₁, hb₁, h⟩ := Option.bind_eq_some_iff.mp h
  obtain ⟨⟨b₂, d'⟩, hedit, rfl⟩ := Option.map_eq_some_iff.mp hb₁
  obtain ⟨delta, hdelta, hedit⟩ := Option.bind_eq_some_iff.mp hedit
  exact ⟨delta, b₂, hdelta, congrArg (Option.map Prod.fst) hedit, h⟩

/-- The shape of both searches: every way out of them is normal mode. -/
theorem mode_of_search {matched : Option (List (List Interval))} {p : Prop} [Decidable p]
    {q : List (List Interval) → Prop} [DecidablePred q]
    {change : List (List Interval) → Option (CurrentBuffer X × DirtyBytes)} (old : Mode)
    (h : (if p then Outcome.keep b (.newMode (.normal .new))
      else matched.bind fun ranges ↦
        if q ranges then Outcome.keep b (.newMode (.normal .new))
        else Outcome.modeAndDirty (.normal .new) (change ranges)) = some (some (t, b'))) :
    t.mode old = .normal .new := by
  have hkeep : Outcome.keep b (.newMode (.normal .new)) = some (some (t, b')) →
      t.mode old = .normal .new := by
    intro hk
    rw [(Outcome.of_keep hk).1]
    rfl
  split at h
  · exact hkeep h
  · obtain ⟨ranges, -, h⟩ := Option.bind_eq_some_iff.mp h
    split at h
    · exact hkeep h
    · obtain ⟨d, rfl⟩ := (Outcome.of_modeAndDirty h).1
      rfl

/-- A search ends in normal mode. -/
theorem SearchAcceptor.mode_of_applySearch {next : SearchAcceptor} {pattern : Pattern}
    (h : next.applySearch E pattern b = some (some (t, b'))) (old : Mode) :
    t.mode old = .normal .new := by
  cases next with
  | split m => exact mode_of_search old h
  | collapse => exact mode_of_search old h

/-- The mode that goes on is the one the request leads to. -/
theorem Request.mode_of_run {r : Request} (h : r.run E b = some (some (t, b'))) (old : Mode) :
    t.mode old = r.next old := by
  match r with
  | .panic | .unhandled => cases h
  | .go registers t' => rw [(Outcome.of_keep h).1, next]
  | .leave => rw [(Outcome.of_keep h).1, next, ModeTransition.mode]
  | .search next pattern => exact next.mode_of_applySearch h old
  | .change none c =>
    obtain ⟨d, rfl⟩ := (Outcome.of_dirty h).1
    rfl
  | .change (some mode) c =>
    obtain ⟨d, rfl⟩ := (Outcome.of_modeAndDirty h).1
    rfl

/-- A change reports what was changed, in the mode that the request leads to. -/
theorem Request.of_run_change {new : Option Mode} {c : Change}
    (h : (Request.change new c).run E b = some (some (t, b'))) :
    ∃ d, c.run b = some (b', d) ∧ t.report = some d := by
  cases new with
  | none =>
    obtain ⟨⟨b₁, d⟩, hc, heq⟩ := Option.map_eq_some_iff.mp h
    obtain ⟨rfl, rfl⟩ := Prod.mk.inj (Option.some.inj heq)
    exact ⟨d, hc, rfl⟩
  | some mode =>
    obtain ⟨⟨b₁, d⟩, hc, heq⟩ := Option.map_eq_some_iff.mp h
    obtain ⟨rfl, rfl⟩ := Prod.mk.inj (Option.some.inj heq)
    exact ⟨d, hc, rfl⟩

/-- The event loop goes on behind every event that a mode handles on the current buffer. -/
theorem Mode.ne_quitting_of_onBuffer {mode : Mode} {evt : Event} {bytesPerLine : Nat}
    (h : mode.onBuffer E evt b bytesPerLine = some (some (t, b'))) : t.mode mode ≠ .quitting := by
  obtain ⟨r, hr, hrun⟩ := mode.exists_asks E evt b bytesPerLine
  rw [hrun] at h
  rw [Request.mode_of_run h]
  exact hr.next_ne_quitting fun hpanic ↦ by rw [hpanic] at h; cases h

end Outcomes

end Tofu

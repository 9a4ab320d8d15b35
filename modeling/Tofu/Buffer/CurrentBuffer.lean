import Mathlib.Data.List.Sort
import Tofu.Base.FileSystem
import Tofu.Buffer.History
import Tofu.Selection.Transform

/-!
# Buffers

`src/src/current_buffer.rs:61–407`. A buffer holds a part of a file, the selection, the
registers and the history. Functions that can panic return `none` then; those that
change the buffer return the new one with the bytes to redraw. Debug output is left out,
and so is `name`, which only the view prints.
-/

namespace Tofu

open Rope

/-- An interval of `xi_rope`, without its end. -/
structure Interval where
  start : Nat
  stop : Nat
  deriving DecidableEq, Repr

namespace Interval

/-- `Interval::is_empty` of the rope library. -/
def isEmpty (i : Interval) : Bool := decide (i.stop ≤ i.start)

/-- `Interval::contains` of the rope library. -/
def contains (i : Interval) (val : Nat) : Bool := decide (i.start ≤ val) && decide (val < i.stop)

/-- The smallest interval around both. -/
def union (i j : Interval) : Interval :=
  if i.isEmpty then j
  else if j.isEmpty then i
  else { start := min i.start j.start, stop := max i.stop j.stop }

end Interval

/-- `selection.rs:455–459`, the conversion of `min()..=max()`, which `xi_rope` ends with a
`saturating_add(1)`. -/
def SelRegion.interval (r : SelRegion) : Interval :=
  { start := r.min, stop := usizeSaturatingAdd r.max 1 }

/-- `modes/mode.rs:27–31`. -/
inductive DirtyBytes where
  | changeInPlace (intervals : List Interval)
  | changeLength
  deriving DecidableEq, Repr

/-- `byte_rope.rs:116–133`, on the bytes of the rope: a cursor cannot start behind the
end. -/
def sliceToCow (data : List UInt8) (range : Interval) : Option (List UInt8) :=
  if range.start < range.stop ∧ data.length < range.start then none
  else some ((data.drop range.start).take (range.stop - range.start))

/-- `current_buffer.rs:70–79`. -/
structure CurrentBuffer (X : XiRope UInt8) where
  path : Option Path
  data : List UInt8
  selection : Selection
  registers : List (Char × List (List UInt8))
  dirty : Bool
  history : History X
  dataStartOffset : Nat

variable {X : XiRope UInt8}

/-- The loop over the sorted ranges, `current_buffer.rs:171–183`; the list is kept in
reverse. -/
def joinRanges : List Interval → List Interval → List Interval
  | disjoint, [] => disjoint
  | [], r :: ranges => joinRanges [r] ranges
  | last :: disjoint, r :: ranges =>
    if last.contains r.start then joinRanges (last.union r :: disjoint) ranges
    else joinRanges (r :: last :: disjoint) ranges

namespace CurrentBuffer

/-- `#[derive(Default)]`. -/
def default : CurrentBuffer X :=
  { path := none
    data := []
    selection := Selection.new
    registers := []
    dirty := false
    history := History.new
    dataStartOffset := 0 }

/-- `current_buffer.rs:83–93`. -/
def fromDataAndPath (data : List UInt8) (path : Option Path) : CurrentBuffer X :=
  { path
    data
    selection := Selection.new
    registers := []
    dirty := false
    history := History.new
    dataStartOffset := 0 }

/-- `current_buffer.rs:99–149`: `none` is the error of a file that cannot be opened. The
length of the data is used as the position in the file. -/
def loadNextChunk (fs : FileSystem) (b : CurrentBuffer X) (chunkSize : Nat) :
    Option (CurrentBuffer X × Bool) :=
  match b.path with
  | none => some (b, false)
  | some path =>
    (fs.readAt path b.data.length chunkSize).map fun chunk ↦
      if 0 < chunk.length then
        let delta := X.simpleEdit b.data.length b.data.length chunk b.data.length
        ({ b with data := X.apply delta b.data }, true)
      else (b, false)

/-- `current_buffer.rs:159–185`. -/
def mapSelections {σ : Type} (b : CurrentBuffer X)
    (f : σ → SelRegion → Option (σ × List SelRegion)) (s : σ) :
    Option (CurrentBuffer X × DirtyBytes) := do
  let ((_, invalidatedRanges), selection) ← b.selection.mapSelections
    (fun (s, invalidatedRanges) region ↦ (f s region).map fun (s, new) ↦
      ((s, invalidatedRanges ++ region.interval :: new.map SelRegion.interval), new))
    (s, ([] : List Interval))
  let sorted := invalidatedRanges.insertionSort fun a b ↦ a.start ≤ b.start
  some ({ b with selection }, .changeInPlace (joinRanges [] sorted).reverse)

/-- Recording the ranges to redraw changes nothing of what the closure returns. -/
theorem collect_recording {σ : Type} (f : σ → SelRegion → Option (σ × List SelRegion))
    (regions : List SelRegion) (s : σ) (ranges : List Interval) :
    (collect (fun (s, ranges) region ↦ (f s region).map fun (s, new) ↦
      ((s, ranges ++ region.interval :: new.map SelRegion.interval), new)) regions
        (s, ranges)).map (fun p ↦ (p.1.1, p.2)) = collect f regions s := by
  induction regions generalizing s ranges with
  | nil => rfl
  | cons region regions ih =>
    simp only [collect, Option.bind_eq_bind]
    cases f s region with
    | none => rfl
    | some p =>
      simp only [Option.map_some, Option.bind_some, ← ih p.1
        (ranges ++ region.interval :: p.2.map SelRegion.interval)]
      cases collect _ regions (p.1, ranges ++ region.interval :: p.2.map SelRegion.interval) <;> rfl

/-- Mapping over a buffer maps over its selection and changes nothing else. -/
theorem map_fst_mapSelections {σ : Type} (b : CurrentBuffer X)
    (f : σ → SelRegion → Option (σ × List SelRegion)) (s : σ) :
    (b.mapSelections f s).map Prod.fst =
      (b.selection.mapSelections f s).map fun p ↦ { b with selection := p.2 } := by
  rw [mapSelections, Selection.mapSelections_eq, Selection.mapSelections_eq,
    ← collect_recording f b.selection.regions s []]
  cases collect _ b.selection.regions (s, ([] : List Interval)) with
  | none => rfl
  | some p =>
    simp only [Option.map_some, Option.bind_some, Option.bind_eq_bind]
    cases Selection.ofOutputs b.selection.mainSelection p.2 <;> rfl

/-- Mapping a closure without state over a buffer. -/
theorem map_fst_mapSelections_pure (b : CurrentBuffer X) (g : SelRegion → List SelRegion) :
    (b.mapSelections (Selection.pureClosure g) ()).map Prod.fst =
      (b.selection.mapRegions g).map fun sel ↦ { b with selection := sel } := by
  rw [map_fst_mapSelections, Selection.mapSelections_pure, Option.map_map]
  rfl

/-- `current_buffer.rs:187–198`. -/
def applyDeltaToCurrentBuffer (b : CurrentBuffer X) (delta : X.Delta) (isFinal : Bool) :
    CurrentBuffer X :=
  { b with
    data := X.apply delta b.data
    history :=
      if isFinal then b.history.performFinal b.data delta b.selection
      else b.history.performPartial b.data delta b.selection
    dirty := true }

/-- The four `apply_*delta*` functions: the edit, and the selection after it. -/
def applyWith (b : CurrentBuffer X) (delta : X.Delta) (isFinal : Bool)
    (select : Selection → Nat → Option Selection) : Option (CurrentBuffer X × DirtyBytes) := do
  let maxLen := b.data.length
  let b' := b.applyDeltaToCurrentBuffer delta isFinal
  let selection ← select b'.selection maxLen
  some ({ b' with selection }, .changeLength)

/-- `current_buffer.rs:200–206`. -/
def applyDelta (b : CurrentBuffer X) (delta : X.Delta) : Option (CurrentBuffer X × DirtyBytes) :=
  b.applyWith delta true fun sel maxLen ↦ sel.applyDelta X delta maxLen

/-- `current_buffer.rs:208–220`. -/
def applyDeltaOffsetCarets (b : CurrentBuffer X) (delta : X.Delta)
    (caretOffset tailOffset : Int) : Option (CurrentBuffer X × DirtyBytes) :=
  b.applyWith delta true fun sel maxLen ↦
    sel.applyDeltaOffsetCarets X delta caretOffset tailOffset maxLen

/-- `current_buffer.rs:222–228`. -/
def applyIncompleteDelta (b : CurrentBuffer X) (delta : X.Delta) :
    Option (CurrentBuffer X × DirtyBytes) :=
  b.applyWith delta false fun sel maxLen ↦ sel.applyDelta X delta maxLen

/-- `current_buffer.rs:230–242`. -/
def applyIncompleteDeltaOffsetCarets (b : CurrentBuffer X) (delta : X.Delta)
    (caretOffset tailOffset : Int) : Option (CurrentBuffer X × DirtyBytes) :=
  b.applyWith delta false fun sel maxLen ↦
    sel.applyDeltaOffsetCarets X delta caretOffset tailOffset maxLen

/-- `current_buffer.rs:244–246`. -/
def commitDelta (b : CurrentBuffer X) : CurrentBuffer X :=
  { b with history := b.history.commitPartial }

/-- `current_buffer.rs:248–259`; `none` when nothing is left to undo. -/
def performUndo (b : CurrentBuffer X) : Option (CurrentBuffer X × DirtyBytes) :=
  (b.history.undo b.data b.selection).map fun ((undoDelta, oldSelection), history) ↦
    ({ b with
        history := history
        selection := oldSelection
        data := X.apply undoDelta b.data
        dirty := true }, .changeLength)

/-- `current_buffer.rs:261–272`; `none` when nothing is left to redo. -/
def performRedo (b : CurrentBuffer X) : Option (CurrentBuffer X × DirtyBytes) :=
  (b.history.redo b.data b.selection).map fun ((redoDelta, oldSelection), history) ↦
    ({ b with
        history := history
        selection := oldSelection
        data := X.apply redoDelta b.data
        dirty := true }, .changeLength)

/-- `current_buffer.rs:274–279`. -/
def switchMainSel (b : CurrentBuffer X) (f : Selection → Option Selection) :
    Option (CurrentBuffer X × DirtyBytes) := do
  let oldMainSel ← b.selection.main
  let selection ← f b.selection
  let newMainSel ← selection.main
  some ({ b with selection }, .changeInPlace [oldMainSel.interval, newMainSel.interval])

/-- `current_buffer.rs:281–287`. -/
def modifySelsInPlace (b : CurrentBuffer X) (f : Selection → Option Selection) :
    Option (CurrentBuffer X × DirtyBytes) := do
  let dirty := DirtyBytes.changeInPlace (b.selection.regions.map SelRegion.interval)
  let selection ← f b.selection
  some ({ b with selection }, dirty)

/-- `current_buffer.rs:289–291`. -/
def removeSelection (b : CurrentBuffer X) (index : Nat) : Option (CurrentBuffer X × DirtyBytes) :=
  b.modifySelsInPlace fun sel ↦ sel.remove (index % sel.len)

/-- `current_buffer.rs:292–294`. -/
def retainSelection (b : CurrentBuffer X) (index : Nat) : Option (CurrentBuffer X × DirtyBytes) :=
  b.modifySelsInPlace fun sel ↦ sel.retain (index % sel.len)

/-- `current_buffer.rs:295–297`. -/
def selectNext (b : CurrentBuffer X) (count : Nat) : Option (CurrentBuffer X × DirtyBytes) :=
  b.switchMainSel fun sel ↦ sel.selectNext count

/-- `current_buffer.rs:298–300`. -/
def selectPrev (b : CurrentBuffer X) (count : Nat) : Option (CurrentBuffer X × DirtyBytes) :=
  b.switchMainSel fun sel ↦ sel.selectPrev count

/-- `current_buffer.rs:302–315`. -/
def yankSelections (b : CurrentBuffer X) (reg : Char) : Option (CurrentBuffer X) :=
  if b.data = [] then
    some { b with
      registers := (reg, List.replicate b.selection.len []) :: b.registers }
  else do
    let selections ← b.selection.regions.mapM fun region ↦ sliceToCow b.data region.interval
    some { b with registers := (reg, selections) :: b.registers }

/-- `current_buffer.rs:331–335`. -/
def updatePathIfMissing (b : CurrentBuffer X) (path : Path) : CurrentBuffer X :=
  if b.path.isNone then { b with path := some path } else b

end CurrentBuffer

/-- `current_buffer.rs:338–341`. -/
structure BuffrCollection (X : XiRope UInt8) where
  list : List (CurrentBuffer X)
  curBufIndex : Nat

namespace BuffrCollection

/-- `current_buffer.rs:360–365`. -/
def withCurrentBuffer (buf : CurrentBuffer X) : BuffrCollection X :=
  { list := [buf], curBufIndex := 0 }

/-- `current_buffer.rs:356–358`. -/
def new : BuffrCollection X := withCurrentBuffer CurrentBuffer.default

/-- `current_buffer.rs:367–372`. -/
def current (c : BuffrCollection X) : Option (CurrentBuffer X) := c.list[c.curBufIndex]?

/-- A change made through `current_mut`. -/
def setCurrent (c : BuffrCollection X) (b : CurrentBuffer X) : BuffrCollection X :=
  { c with list := c.list.set c.curBufIndex b }

/-- The loop of `switch_current_buffer`, `current_buffer.rs:383–390`, from index `i` on:
`none` is a path that cannot be canonicalized, `some none` a loop that found nothing. -/
def findPath (fs : FileSystem) (canon : Path) : Nat → List (CurrentBuffer X) → Option (Option Nat)
  | _, [] => some none
  | i, buf :: list =>
    match buf.path with
    | none => findPath fs canon (i + 1) list
    | some path => do
      let other ← fs.canonicalize path
      if other = canon then some (some i) else findPath fs canon (i + 1) list

/-- `current_buffer.rs:381–398`; `none` is an error. -/
def switchCurrentBuffer (fs : FileSystem) (c : BuffrCollection X) (filename : Path) :
    Option (BuffrCollection X) := do
  let canon ← fs.canonicalize filename
  match ← findPath fs canon 0 c.list with
  | some i => some { c with curBufIndex := i }
  | none =>
    let data ← fs.read filename
    let list := c.list ++ [CurrentBuffer.fromDataAndPath data (some filename)]
    some { list, curBufIndex := list.length - 1 }

/-- `current_buffer.rs:400–406`. -/
def deleteCurrent (c : BuffrCollection X) : Option (BuffrCollection X) :=
  if c.curBufIndex < c.list.length then
    let list := c.list.eraseIdx c.curBufIndex
    some
      { list := if list = [] then [CurrentBuffer.default] else list
        curBufIndex := c.curBufIndex - 1 }
  else none

end BuffrCollection

end Tofu

import Tofu.Rope.Reference
import Tofu.Selection.Selection

/-!
# The editing history

`src/src/history.rs:5–149`. The history keeps, for every committed edit, the delta that
takes the buffer back, with the selection to go back to. An insertion that is still
being typed is kept apart as one delta that is chained with the next key. Stacks have
their top at the head.
-/

namespace Tofu

open Rope

variable {α : Type} {X : XiRope α}

/-- `history.rs:5–8`. -/
structure Action (X : XiRope α) where
  delta : X.Delta

namespace Action

/-- `history.rs:11–13`. -/
def fromDelta (delta : X.Delta) : Action X := { delta }

/-- `history.rs:15–29`. -/
def invert (a : Action X) (baseRope : List α) : Action X :=
  let (inserts, deletions) := X.factor a.delta
  let insSubset := X.insertedSubset inserts
  let deletedNow := X.deleteFrom (X.complement deletions) baseRope
  let deletionsFromBase := X.transformExpand deletions insSubset
  let deletionsFromInverted := insSubset
  { delta := X.synthesize deletedNow deletionsFromBase deletionsFromInverted }

/-- `history.rs:31–60`. -/
def subsetsForChain (a : Action X) (next : X.Delta) : X.Subset × X.Subset × X.Subset :=
  let (ins1, del1) := X.factor a.delta
  let (ins2, del2) := X.factor next
  let insertsInMidUnion := X.insertedSubset ins1
  let deletesFromMidUnion := X.transformExpand del1 (X.insertedSubset ins1)
  let unionInsDelta := X.transformExpandInsert ins2 deletesFromMidUnion
  let newInserts := X.insertedSubset unionInsDelta
  let newDeletes :=
    let preExpand := X.transformExpand del2 deletesFromMidUnion
    if X.isEmpty newInserts then preExpand else X.transformExpand preExpand newInserts
  let rebasedDeletesFromUnion := X.transformExpand deletesFromMidUnion newInserts
  let deletesFromUnion := X.union rebasedDeletesFromUnion newDeletes
  let rebasedInsertsInUnion := X.transformExpand insertsInMidUnion newInserts
  let insertsInUnion := X.union rebasedInsertsInUnion newInserts
  let insertsInMidText := X.transformShrink insertsInMidUnion deletesFromMidUnion
  let prefinalInsertion := X.insertedSubset ins2
  let insertsInPrefinal := X.transformUnion insertsInMidText prefinalInsertion
  (insertsInUnion, deletesFromUnion, insertsInPrefinal)

/-- `history.rs:62–71`. -/
def chain (a : Action X) (afterSelf : List α) (next : X.Delta) : Action X :=
  let afterNext := X.applyInsert (X.factor next).1 afterSelf
  let (inserted, deleted, insertsInPrefinal) := a.subsetsForChain next
  let tombstones := X.deleteFrom (X.complement insertsInPrefinal) afterNext
  { delta := X.synthesize tombstones inserted deleted }

end Action

/-- `history.rs:74–80`. -/
structure History (X : XiRope α) where
  partialDelta : Option (Action X × Selection)
  undoStack : List (Action X × Selection)
  redoStack : List (Action X × Selection)

namespace History

/-- `history.rs:83–85`. -/
def new : History X := { partialDelta := none, undoStack := [], redoStack := [] }

/-- `history.rs:87–91`. -/
def performFinal (h : History X) (currentRope : List α) (delta : X.Delta)
    (selection : Selection) : History X :=
  { h with
    undoStack := ((Action.fromDelta delta).invert currentRope, selection) :: h.undoStack
    redoStack := [] }

/-- `history.rs:93–111`. -/
def performPartial (h : History X) (currentRope : List α) (delta : X.Delta)
    (selection : Selection) : History X :=
  let thisInversion := (Action.fromDelta delta).invert currentRope
  let replaced :=
    match h.partialDelta with
    | none => (thisInversion, selection)
    | some (action, selection) => (thisInversion.chain currentRope action.delta, selection)
  { h with partialDelta := some replaced }

/-- `history.rs:113–118`. -/
def commitPartial (h : History X) : History X :=
  match h.partialDelta with
  | some (action, selection) =>
    { partialDelta := none, undoStack := (action, selection) :: h.undoStack, redoStack := [] }
  | none => h

/-- `history.rs:120–133`; the delta and selection to go back to, with the new history. -/
def undo (h : History X) (currentRope : List α) (selection : Selection) :
    Option ((X.Delta × Selection) × History X) :=
  match h.undoStack with
  | (action, oldSelection) :: undoStack =>
    some ((action.delta, oldSelection),
      { h with
        undoStack := undoStack
        redoStack := (action.invert currentRope, selection) :: h.redoStack })
  | [] => none

/-- `history.rs:135–148`. -/
def redo (h : History X) (currentRope : List α) (selection : Selection) :
    Option ((X.Delta × Selection) × History X) :=
  match h.redoStack with
  | (action, oldSelection) :: redoStack =>
    some ((action.delta, oldSelection),
      { h with
        undoStack := (action.invert currentRope, selection) :: h.undoStack
        redoStack := redoStack })
  | [] => none

section

variable {h h' : History X} {xs : List α} {delta : X.Delta} {sel old : Selection}

/-- An undo takes the top of the undo stack and puts its inverse on the redo stack. -/
theorem of_undo (hu : h.undo xs sel = some ((delta, old), h')) :
    ∃ action stack, h.undoStack = (action, old) :: stack ∧ delta = action.delta ∧
      h' = { h with
        undoStack := stack, redoStack := (action.invert xs, sel) :: h.redoStack } := by
  unfold undo at hu
  split at hu
  · next action oldSel stack hs =>
    obtain ⟨⟨rfl, rfl⟩, rfl⟩ : (action.delta = delta ∧ oldSel = old) ∧ _ = h' := by
      simpa using hu
    exact ⟨action, stack, hs, rfl, rfl⟩
  · cases hu

/-- A redo takes the last entry of its stack and gives undo what takes it back. -/
theorem of_redo (hu : h.redo xs sel = some ((delta, old), h')) :
    ∃ action stack, h.redoStack = (action, old) :: stack ∧ delta = action.delta ∧
      h' = { h with
        undoStack := (action.invert xs, sel) :: h.undoStack, redoStack := stack } := by
  unfold redo at hu
  split at hu
  · next action oldSel stack hs =>
    obtain ⟨⟨rfl, rfl⟩, rfl⟩ : (action.delta = delta ∧ oldSel = old) ∧ _ = h' := by
      simpa using hu
    exact ⟨action, stack, hs, rfl, rfl⟩
  · cases hu

end

end History

/-! ## Inverting and chaining -/

section

variable {d d' : X.Delta} {xs ys zs : List α}

open Rope.Mask

private theorem unmarked_inserted (h : xs.length = X.baseLen d) :
    (X.mask (X.factor d).2).length = unmarked (X.mask (X.insertedSubset (X.factor d).1)) :=
  X.unmarked_insertedSubset d xs h

private theorem mask_deletionsFromBase (h : xs.length = X.baseLen d) :
    X.mask (X.transformExpand (X.factor d).2 (X.insertedSubset (X.factor d).1)) =
      expand (X.mask (X.factor d).2) (X.mask (X.insertedSubset (X.factor d).1)) :=
  X.mask_transformExpand _ _ (unmarked_inserted h)

private theorem length_inserted (h : xs.length = X.baseLen d) :
    (X.mask (X.insertedSubset (X.factor d).1)).length = (X.applyInsert (X.factor d).1 xs).length :=
  X.length_insertedSubset _ xs (h.trans (X.insertBaseLen_factor d).symm)

private theorem delete_inserted (h : xs.length = X.baseLen d) :
    delete (X.mask (X.insertedSubset (X.factor d).1)) (X.applyInsert (X.factor d).1 xs) = xs :=
  X.delete_insertedSubset _ xs (h.trans (X.insertBaseLen_factor d).symm)

private theorem deleteFrom_complement (s : X.Subset) (h : (X.mask s).length = xs.length) :
    X.deleteFrom (X.complement s) xs = select (X.mask s) xs := by
  rw [X.deleteFrom_eq _ _ (by rw [X.mask_complement, List.length_map, h]), X.mask_complement]
  rfl

/-- The inverse of an edit takes its result back to its base. -/
theorem Action.takes_invert (h : X.Takes d xs ys) :
    X.Takes ((fromDelta d).invert xs).delta ys xs := by
  obtain ⟨hl, rfl⟩ := h
  have hexp := mask_deletionsFromBase hl
  have hins := length_inserted hl
  have hdel : (X.mask (X.factor d).2).length = xs.length :=
    (X.length_mask_factor d).trans hl.symm
  have hlen : (expand (X.mask (X.factor d).2)
      (X.mask (X.insertedSubset (X.factor d).1))).length =
        (X.applyInsert (X.factor d).1 xs).length := by rw [length_expand, hins]
  have hold : X.deleteFrom (X.complement (X.factor d).2) xs =
      select (X.mask (X.transformExpand (X.factor d).2 (X.insertedSubset (X.factor d).1)))
        (X.applyInsert (X.factor d).1 xs) := by
    rw [deleteFrom_complement _ hdel, hexp, select_expand _ _ _ hins (unmarked_inserted hl),
      delete_inserted hl]
  have happ : X.apply d xs =
      delete (X.mask (X.transformExpand (X.factor d).2 (X.insertedSubset (X.factor d).1)))
        (X.applyInsert (X.factor d).1 xs) := by rw [X.apply_factor d xs hl, hexp]
  simp only [Action.invert, fromDelta]
  rw [hold, happ]
  constructor
  · rw [X.baseLen_synthesize _ _ _ (by rw [hexp, length_expand]), hexp, length_delete _ _ hlen]
  · rw [X.apply_synthesize _ _ _ (by rw [hexp, hlen]) hins, delete_inserted hl]

/-- Marking the insertions of both edits in the union leaves exactly the marks that are
seen once the deletions of the first edit are gone. -/
theorem select_insertsInUnion {i d n : List Bool} {u : List α}
    (hi : i.length = unmarked n) (hd : d.length = unmarked n) (hn : n.length = u.length)
    (hid : Disjoint i d) :
    select (union (expand (delete d i) (delete (expand d n) n)) (delete (expand d n) n))
        (delete (expand d n) u) =
      select (union (expand i n) n) u := by
  have hlu : (union (expand i n) n).length = u.length := by
    rw [length_union _ _ (length_expand i n), length_expand, hn]
  have hle : (expand d n).length = u.length := by rw [length_expand, hn]
  have hdis : Disjoint (union (expand i n) n) (expand d n) :=
    disjoint_union _ _ _ (by rw [length_expand, length_expand]) (length_expand d n).symm
      (disjoint_expand_expand i d n hi hd hid) (disjoint_expand d n hd)
  rw [← select_delete _ _ _ hlu hle hdis,
    delete_union_right _ _ _ (by rw [length_expand, length_expand]) (length_expand d n).symm,
    delete_expand_expand d i n hd hi]

-- The deletions of an edit, in the union of its base and its insertions.
private def midDeletes (d : X.Delta) : X.Subset :=
  X.transformExpand (X.factor d).2 (X.insertedSubset (X.factor d).1)

-- The insertions of a second edit, carried into that union.
private def midInsert (d d' : X.Delta) : X.InsertDelta :=
  X.transformExpandInsert (X.factor d').1 (midDeletes d)

-- The deletions of a second edit, in the union of the base and both insertions.
private def newDeletes (d d' : X.Delta) : X.Subset :=
  if X.isEmpty (X.insertedSubset (midInsert d d')) then
    X.transformExpand (X.factor d').2 (midDeletes d)
  else
    X.transformExpand (X.transformExpand (X.factor d').2 (midDeletes d))
      (X.insertedSubset (midInsert d d'))

private theorem subsetsForChain_eq (d d' : X.Delta) :
    (Action.fromDelta d).subsetsForChain d' =
      (X.union (X.transformExpand (X.insertedSubset (X.factor d).1)
          (X.insertedSubset (midInsert d d'))) (X.insertedSubset (midInsert d d')),
        X.union (X.transformExpand (midDeletes d) (X.insertedSubset (midInsert d d')))
          (newDeletes d d'),
        X.transformUnion (X.transformShrink (X.insertedSubset (X.factor d).1) (midDeletes d))
          (X.insertedSubset (X.factor d').1)) := rfl

-- Two edits in a row, over the union of the base and both insertions. `mid` is the union of the
-- base and the first insertion, `full` that and the second one.
private structure Chained (d d' : X.Delta) (xs ys mid full : List α) : Prop where
  length_ins : (X.mask (X.insertedSubset (X.factor d).1)).length = mid.length
  delete_ins : delete (X.mask (X.insertedSubset (X.factor d).1)) mid = xs
  length_dels : (X.mask (midDeletes d)).length = mid.length
  delete_dels : delete (X.mask (midDeletes d)) mid = ys
  length_dels' : (X.mask (X.factor d').2).length = unmarked (X.mask (midDeletes d))
  unmarked_ins' : unmarked (X.mask (midDeletes d)) =
    unmarked (X.mask (X.insertedSubset (X.factor d').1))
  disjoint : Disjoint (X.mask (X.insertedSubset (X.factor d).1)) (X.mask (midDeletes d))
  length_new : (X.mask (X.insertedSubset (midInsert d d'))).length = full.length
  unmarked_new : mid.length = unmarked (X.mask (X.insertedSubset (midInsert d d')))
  delete_new : delete (X.mask (X.insertedSubset (midInsert d d'))) full = mid
  delete_full : delete (expand (X.mask (midDeletes d))
    (X.mask (X.insertedSubset (midInsert d d')))) full = X.applyInsert (X.factor d').1 ys
  delete_inserts : delete (expand (X.mask (midDeletes d))
    (X.mask (X.insertedSubset (midInsert d d')))) (X.mask (X.insertedSubset (midInsert d d'))) =
      X.mask (X.insertedSubset (X.factor d').1)

private theorem chained (h : X.Takes d xs ys) (hl' : ys.length = X.baseLen d') :
    Chained d d' xs ys (X.applyInsert (X.factor d).1 xs)
      (X.applyInsert (midInsert d d') (X.applyInsert (X.factor d).1 xs)) := by
  obtain ⟨hl, hys⟩ := h
  have hmask : X.mask (midDeletes d) = expand (X.mask (X.factor d).2)
    (X.mask (X.insertedSubset (X.factor d).1)) := mask_deletionsFromBase hl
  have hins := length_inserted hl
  have hdels : (X.mask (midDeletes d)).length = (X.applyInsert (X.factor d).1 xs).length := by
    rw [hmask, length_expand, hins]
  rw [X.apply_factor d xs hl, ← hmask] at hys
  have hylen : ys.length = unmarked (X.mask (midDeletes d)) := by
    rw [← hys, length_delete _ _ hdels]
  have hbase : X.insertBaseLen (X.factor d').1 = unmarked (X.mask (midDeletes d)) := by
    rw [X.insertBaseLen_factor, ← hl', hylen]
  have hmid : (X.applyInsert (X.factor d).1 xs).length = X.insertBaseLen (midInsert d d') :=
    hdels.symm.trans (X.insertBaseLen_transformExpandInsert _ _ hbase).symm
  have hnew := X.length_insertedSubset (midInsert d d') _ hmid
  have hfull := X.delete_insertedSubset (midInsert d d') _ hmid
  have hdels' : (X.mask (X.factor d').2).length = unmarked (X.mask (midDeletes d)) := by
    rw [X.length_mask_factor, ← hl', hylen]
  refine ⟨hins, delete_inserted hl, hdels, hys, hdels', ?_, ?_, hnew, ?_, hfull, ?_, ?_⟩
  · rw [← hdels', unmarked_inserted hl']
  · rw [hmask]
    exact disjoint_expand _ _ (unmarked_inserted hl)
  · rw [← length_delete _ _ hnew, hfull]
  · rw [← hys]
    exact X.apply_transformExpandInsert _ _ _ hdels.symm hbase
  · exact X.inserted_transformExpandInsert _ _ hbase

section

variable {mid full : List α} (c : Chained d d' xs ys mid full)
include c

private theorem Chained.mask_newDeletes :
    X.mask (newDeletes d d') =
      expand (expand (X.mask (X.factor d').2) (X.mask (midDeletes d)))
        (X.mask (X.insertedSubset (midInsert d d'))) := by
  have hpre := X.mask_transformExpand _ _ c.length_dels'
  have hlen : (X.mask (X.transformExpand (X.factor d').2 (midDeletes d))).length =
      unmarked (X.mask (X.insertedSubset (midInsert d d'))) := by
    rw [hpre, length_expand, c.length_dels, c.unmarked_new]
  unfold newDeletes
  split
  · next he =>
    have hany : (X.mask (X.insertedSubset (midInsert d d'))).any id = false := by
      simpa [X.isEmpty_eq] using he
    rw [expand_of_not_any _ _ _ hany, hpre]
    rw [← hpre, hlen, unmarked_of_not_any _ hany]
  · rw [X.mask_transformExpand _ _ hlen, hpre]

private theorem Chained.mask_subsets :
    X.mask ((Action.fromDelta d).subsetsForChain d').1 =
      union (expand (X.mask (X.insertedSubset (X.factor d).1))
        (X.mask (X.insertedSubset (midInsert d d'))))
        (X.mask (X.insertedSubset (midInsert d d'))) ∧
    X.mask ((Action.fromDelta d).subsetsForChain d').2.1 =
      union (expand (X.mask (midDeletes d)) (X.mask (X.insertedSubset (midInsert d d'))))
        (expand (expand (X.mask (X.factor d').2) (X.mask (midDeletes d)))
          (X.mask (X.insertedSubset (midInsert d d')))) ∧
    X.mask ((Action.fromDelta d).subsetsForChain d').2.2 =
      union (expand (delete (X.mask (midDeletes d)) (X.mask (X.insertedSubset (X.factor d).1)))
        (X.mask (X.insertedSubset (X.factor d').1)))
          (X.mask (X.insertedSubset (X.factor d').1)) := by
  have hins := X.mask_transformExpand (X.insertedSubset (X.factor d).1)
    (X.insertedSubset (midInsert d d')) (c.length_ins.trans c.unmarked_new)
  have hdels := X.mask_transformExpand (midDeletes d) (X.insertedSubset (midInsert d d'))
    (c.length_dels.trans c.unmarked_new)
  have hshrink := X.mask_transformShrink (X.insertedSubset (X.factor d).1) (midDeletes d)
    (c.length_ins.trans c.length_dels.symm)
  rw [subsetsForChain_eq]
  refine ⟨?_, ?_, ?_⟩
  · rw [X.mask_union _ _ (by rw [hins, length_expand]), hins]
  · rw [X.mask_union _ _ (by rw [hdels, c.mask_newDeletes, length_expand, length_expand]), hdels,
      c.mask_newDeletes]
  · rw [X.mask_transformUnion, hshrink]
    rw [hshrink, length_delete _ _ (c.length_dels.trans c.length_ins.symm), c.unmarked_ins']

end

/-- Chaining two edits gives one edit from the base of the first to the result of the
second. -/
theorem Action.takes_chain (h : X.Takes d xs ys) (h' : X.Takes d' ys zs) :
    X.Takes ((fromDelta d).chain ys d').delta xs zs := by
  have c := chained h h'.1
  obtain ⟨hl', rfl⟩ := h'
  obtain ⟨hfrom, hto, hpre⟩ := c.mask_subsets
  generalize X.applyInsert (X.factor d).1 xs = mid at c
  generalize X.applyInsert (midInsert d d') mid = full at c
  have hins := c.length_ins.trans c.unmarked_new
  have hdels := c.length_dels.trans c.unmarked_new
  have hfull : (X.mask ((fromDelta d).subsetsForChain d').1).length = full.length := by
    rw [hfrom, length_union _ _ (length_expand _ _), length_expand, c.length_new]
  have hfull' : (X.mask ((fromDelta d).subsetsForChain d').2.1).length = full.length := by
    rw [hto, length_union _ _ (by rw [length_expand, length_expand]), length_expand, c.length_new]
  -- what the base lacks of the union is what the two edits inserted
  have htomb : X.deleteFrom (X.complement ((fromDelta d).subsetsForChain d').2.2)
      (X.applyInsert (X.factor d').1 ys) =
      select (X.mask ((fromDelta d).subsetsForChain d').1) full := by
    have hsel := select_insertsInUnion hins hdels c.length_new c.disjoint
    rw [c.delete_inserts, c.delete_full] at hsel
    rw [deleteFrom_complement, hpre, hsel, hfrom]
    rw [hpre, length_union _ _ (length_expand _ _), length_expand, length_inserted hl']
  have hbase : delete (X.mask ((fromDelta d).subsetsForChain d').1) full = xs := by
    rw [hfrom, ← delete_delete _ _ _ c.length_new hins, c.delete_new, c.delete_ins]
  have hresult : delete (X.mask ((fromDelta d).subsetsForChain d').2.1) full = X.apply d' ys := by
    rw [hto, delete_union _ _ _ (by rw [length_expand, c.length_new])
        (by rw [length_expand, c.length_new]),
      delete_expand_twice _ _ _ hdels c.length_dels', c.delete_full, c.delete_inserts,
      X.apply_factor d' ys hl']
  have hchain : ((fromDelta d).chain ys d').delta =
      X.synthesize (select (X.mask ((fromDelta d).subsetsForChain d').1) full)
        ((fromDelta d).subsetsForChain d').1 ((fromDelta d).subsetsForChain d').2.1 := by
    rw [← htomb]
    rfl
  rw [hchain]
  constructor
  · rw [X.baseLen_synthesize _ _ _ (hfull.trans hfull'.symm), ← hbase, length_delete _ _ hfull]
  · rw [← hresult, ← X.apply_synthesize _ _ _ hfull hfull', hbase]

/-- The inverse of an edit undoes it, and the inverse of the inverse, taken against the edited
rope, makes the edit again. Both are made for the rope they meet. -/
theorem Action.invert_undoes (rope : List α) (d : X.Delta) (h : rope.length = X.baseLen d) :
    let edited := X.apply d rope
    let inverse := (fromDelta d).invert rope
    let again := inverse.invert edited
    edited.length = X.baseLen inverse.delta ∧ X.apply inverse.delta edited = rope ∧
      rope.length = X.baseLen again.delta ∧ X.apply again.delta rope = edited := by
  intro edited inverse again
  have hedit : X.Takes d rope edited := ⟨h, rfl⟩
  have hback : X.Takes inverse.delta edited rope := takes_invert hedit
  have hagain : X.Takes again.delta rope edited := takes_invert hback
  exact ⟨hback.1, hback.2, hagain.1, hagain.2⟩

/-- Bytes inserted beside a deleted stretch. -/
theorem Action.invert_undoes_replace :
    let X := XiRope.reference Nat
    let d := X.simpleEdit 1 2 [5, 6] 4
    X.apply d [0, 1, 2, 3] = [0, 5, 6, 2, 3] ∧
      X.apply ((fromDelta d).invert [0, 1, 2, 3]).delta [0, 5, 6, 2, 3] = [0, 1, 2, 3] := by
  intro X d
  have h := invert_undoes (X := X) [0, 1, 2, 3] d (by decide)
  exact ⟨by decide, h.2.1⟩

/-- The chain of two edits has the effect of the one after the other. It is made for the rope
the first one meets. -/
theorem Action.chain_composes (rope : List α) (d₁ d₂ : X.Delta)
    (h₁ : rope.length = X.baseLen d₁) (h₂ : (X.apply d₁ rope).length = X.baseLen d₂) :
    let chained := (fromDelta d₁).chain (X.apply d₁ rope) d₂
    rope.length = X.baseLen chained.delta ∧
      X.apply chained.delta rope = X.apply d₂ (X.apply d₁ rope) := by
  intro chained
  have hfirst : X.Takes d₁ rope (X.apply d₁ rope) := ⟨h₁, rfl⟩
  have hsecond : X.Takes d₂ (X.apply d₁ rope) (X.apply d₂ (X.apply d₁ rope)) := ⟨h₂, rfl⟩
  exact takes_chain hfirst hsecond

/-- A byte that the first edit inserts and the second one deletes. -/
theorem Action.chain_composes_insert_delete :
    let X := XiRope.reference Nat
    let d₁ := X.simpleEdit 0 0 [5, 6, 7] 4
    let d₂ := X.simpleEdit 0 1 [] 7
    X.apply ((fromDelta d₁).chain [5, 6, 7, 0, 1, 2, 3] d₂).delta [0, 1, 2, 3] =
      [6, 7, 0, 1, 2, 3] := by
  intro X d₁ d₂
  exact (chain_composes (X := X) [0, 1, 2, 3] d₁ d₂ (by decide) (by decide)).2

end

end Tofu

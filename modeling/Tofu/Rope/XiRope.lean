import Tofu.Rope.Mask
import Tofu.Rope.Splice

/-!
# The rope library's deltas

The crate `xi_rope` (locked 0.3.0) is not part of the repository. The structure below
takes its types and the operations the editor calls as parameters, together with the
behaviour the crate documents for them. A rope is its sequence of elements, a `Subset`
is observed through the mask of its marked positions, and a `DeltaBuilder` through the
edits it has accepted. Every law about a delta asks for a base of the delta's own
length, as the crate does.
-/

namespace Tofu.Rope

/-- The part of `xi_rope` the editor depends on, over elements of type `α`. -/
structure XiRope (α : Type) where
  Delta : Type
  InsertDelta : Type
  Subset : Type
  DeltaBuilder : Type
  -- `Delta`, and `Transformer::transform` with `after` set
  baseLen : Delta → Nat
  apply : Delta → List α → List α
  newDocumentLen : Delta → Nat
  transform : Delta → Nat → Nat
  simpleEdit : Nat → Nat → List α → Nat → Delta
  factor : Delta → InsertDelta × Subset
  synthesize : List α → Subset → Subset → Delta
  -- `InsertDelta`, with `transform_expand` called with `after` set
  insertBaseLen : InsertDelta → Nat
  applyInsert : InsertDelta → List α → List α
  insertedSubset : InsertDelta → Subset
  transformExpandInsert : InsertDelta → Subset → InsertDelta
  -- `Subset`
  mask : Subset → List Bool
  isEmpty : Subset → Bool
  complement : Subset → Subset
  union : Subset → Subset → Subset
  transformExpand : Subset → Subset → Subset
  transformShrink : Subset → Subset → Subset
  transformUnion : Subset → Subset → Subset
  deleteFrom : Subset → List α → List α
  -- `DeltaBuilder`; `none` is the panic on an interval that is not sorted
  newBuilder : Nat → DeltaBuilder
  replace : DeltaBuilder → Nat → Nat → List α → Option DeltaBuilder
  delete : DeltaBuilder → Nat → Nat → Option DeltaBuilder
  build : DeltaBuilder → Delta
  builderLen : DeltaBuilder → Nat
  edits : DeltaBuilder → List (Edit α)
  -- a delta maps a base to the document of the length it announces
  length_apply : ∀ d xs, xs.length = baseLen d → (apply d xs).length = newDocumentLen d
  -- a simple edit replaces one interval
  baseLen_simpleEdit : ∀ s e t n, s ≤ e → e ≤ n → baseLen (simpleEdit s e t n) = n
  apply_simpleEdit : ∀ s e t xs, s ≤ e → e ≤ xs.length →
    apply (simpleEdit s e t xs.length) xs = xs.take s ++ t ++ xs.drop e
  -- inserting and then deleting the factored parts is the delta itself
  insertBaseLen_factor : ∀ d, insertBaseLen (factor d).1 = baseLen d
  length_mask_factor : ∀ d, (mask (factor d).2).length = baseLen d
  apply_factor : ∀ d xs, xs.length = baseLen d →
    apply d xs =
      Mask.delete (Mask.expand (mask (factor d).2) (mask (insertedSubset (factor d).1)))
        (applyInsert (factor d).1 xs)
  -- the inserted subset marks what an insertion added
  length_insertedSubset : ∀ i xs, xs.length = insertBaseLen i →
    (mask (insertedSubset i)).length = (applyInsert i xs).length
  delete_insertedSubset : ∀ i xs, xs.length = insertBaseLen i →
    Mask.delete (mask (insertedSubset i)) (applyInsert i xs) = xs
  -- an insertion carried through a subset inserts the same around its elements
  insertBaseLen_transformExpandInsert : ∀ i s,
    insertBaseLen i = Mask.unmarked (mask s) →
    insertBaseLen (transformExpandInsert i s) = (mask s).length
  apply_transformExpandInsert : ∀ i s xs, xs.length = (mask s).length →
    insertBaseLen i = Mask.unmarked (mask s) →
    Mask.delete (Mask.expand (mask s) (mask (insertedSubset (transformExpandInsert i s))))
      (applyInsert (transformExpandInsert i s) xs) = applyInsert i (Mask.delete (mask s) xs)
  inserted_transformExpandInsert : ∀ i s,
    insertBaseLen i = Mask.unmarked (mask s) →
    Mask.delete (Mask.expand (mask s) (mask (insertedSubset (transformExpandInsert i s))))
      (mask (insertedSubset (transformExpandInsert i s))) = mask (insertedSubset i)
  -- synthesis goes from the union without `from` to the union without `to`
  baseLen_synthesize : ∀ t from' to', (mask from').length = (mask to').length →
    baseLen (synthesize t from' to') = Mask.unmarked (mask from')
  apply_synthesize : ∀ from' to' union', (mask from').length = union'.length →
    (mask to').length = union'.length →
    apply (synthesize (Mask.select (mask from') union') from' to')
      (Mask.delete (mask from') union') = Mask.delete (mask to') union'
  -- subsets act on their masks
  isEmpty_eq : ∀ s, isEmpty s = !(mask s).any id
  mask_complement : ∀ s, mask (complement s) = (mask s).map (fun b ↦ !b)
  mask_union : ∀ s t, (mask s).length = (mask t).length →
    mask (union s t) = Mask.union (mask s) (mask t)
  mask_transformExpand : ∀ s t, (mask s).length = Mask.unmarked (mask t) →
    mask (transformExpand s t) = Mask.expand (mask s) (mask t)
  mask_transformShrink : ∀ s t, (mask s).length = (mask t).length →
    mask (transformShrink s t) = Mask.delete (mask t) (mask s)
  mask_transformUnion : ∀ s t, (mask s).length = Mask.unmarked (mask t) →
    mask (transformUnion s t) = Mask.union (Mask.expand (mask s) (mask t)) (mask t)
  deleteFrom_eq : ∀ s xs, (mask s).length = xs.length →
    deleteFrom s xs = Mask.delete (mask s) xs
  -- the builder accepts sorted edits and refuses the others
  builderLen_newBuilder : ∀ n, builderLen (newBuilder n) = n
  edits_newBuilder : ∀ n, edits (newBuilder n) = []
  replace_sorted : ∀ b s e t, Splice.lastOffset 0 (edits b) ≤ s →
    ∃ b', replace b s e t = some b' ∧ builderLen b' = builderLen b ∧
      edits b' = edits b ++ [⟨s, e, t⟩]
  replace_unsorted : ∀ b s e t, s < Splice.lastOffset 0 (edits b) → replace b s e t = none
  delete_eq : ∀ b s e, delete b s e = replace b s e []
  baseLen_build : ∀ b, Splice.Sorted 0 (edits b) → Splice.Within (builderLen b) (edits b) →
    baseLen (build b) = builderLen b
  apply_build : ∀ b xs, Splice.Sorted 0 (edits b) →
    Splice.Within (builderLen b) (edits b) → xs.length = builderLen b →
    apply (build b) xs = Splice.apply 0 (edits b) xs
  transform_build : ∀ b ix, Splice.Sorted 0 (edits b) →
    Splice.Within (builderLen b) (edits b) →
    transform (build b) ix = Splice.transform (builderLen b) 0 (edits b) ix

namespace XiRope

variable {α : Type} (X : XiRope α)

/-- The delta is made for the one rope and turns it into the other. -/
def Takes (d : X.Delta) (xs ys : List α) : Prop := xs.length = X.baseLen d ∧ X.apply d xs = ys

variable {X} in
/-- A delta announces the length of what it leads to. -/
theorem Takes.newDocumentLen {d : X.Delta} {xs ys : List α} (h : X.Takes d xs ys) :
    X.newDocumentLen d = ys.length := by
  rw [← h.2, X.length_apply d xs h.1]

/-- The built delta announces the length to which the end of the base is mapped. -/
theorem newDocumentLen_build (b : X.DeltaBuilder) (xs : List α)
    (hs : Splice.Sorted 0 (X.edits b)) (hw : Splice.Within (X.builderLen b) (X.edits b))
    (hl : xs.length = X.builderLen b) :
    X.newDocumentLen (X.build b) =
      Splice.transform (X.builderLen b) 0 (X.edits b) (X.builderLen b) := by
  have hb := X.baseLen_build b hs hw
  rw [← X.length_apply _ xs (hl.trans hb.symm), X.apply_build b xs hs hw hl,
    Splice.length_apply _ _ _ (hl ▸ hw), hl]

/-- Appending to a base is a simple edit at its end. -/
theorem apply_simpleEdit_end (t xs : List α) :
    X.apply (X.simpleEdit xs.length xs.length t xs.length) xs = xs ++ t := by
  rw [X.apply_simpleEdit _ _ _ _ (Nat.le_refl _) (Nat.le_refl _)]
  simp

/-- Expanding the deletions of a delta covers the union of base and insertions. -/
theorem unmarked_insertedSubset (d : X.Delta) (xs : List α) (h : xs.length = X.baseLen d) :
    (X.mask (X.factor d).2).length =
      Mask.unmarked (X.mask (X.insertedSubset (X.factor d).1)) := by
  have hi : xs.length = X.insertBaseLen (X.factor d).1 := h.trans (X.insertBaseLen_factor d).symm
  rw [X.length_mask_factor, ← Mask.length_delete _ _ (X.length_insertedSubset _ xs hi),
    X.delete_insertedSubset _ xs hi, h]

end XiRope

end Tofu.Rope

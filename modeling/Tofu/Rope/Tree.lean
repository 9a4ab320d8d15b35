import Mathlib.Data.List.Basic

/-!
# The rope library's trees

The crate `xi_rope` keeps a rope as a tree of leaves. The structure below takes the tree,
its builder and its cursor as parameters, together with what the crate documents of them:
a builder keeps what is pushed in order, and a cursor reports the leaf that its position is
in. How a tree divides its elements into leaves is left open; a builder may join the leaves
it is given.
-/

namespace Tofu.Rope

/-- Trees of leaves over elements of type `α`. -/
structure XiTree (α : Type) where
  Node : Type
  TreeBuilder : Type
  Cursor : Type
  -- `Node`
  leaves : Node → List (List α)
  len : Node → Nat
  -- `TreeBuilder`, observed through the elements pushed so far
  newBuilder : TreeBuilder
  pushLeaf : TreeBuilder → List α → TreeBuilder
  build : TreeBuilder → Node
  pushed : TreeBuilder → List α
  -- `Cursor`, observed through the leaves ahead of its own; behind the last one it has none
  newCursor : Node → Nat → Cursor
  pos : Cursor → Nat
  getLeaf : Cursor → Option (List α × Nat)
  nextLeaf : Cursor → Cursor
  ahead : Cursor → List (List α)
  -- a tree is as long as its leaves together
  len_eq : ∀ n, len n = (leaves n).flatten.length
  -- a builder keeps the order
  pushed_newBuilder : pushed newBuilder = []
  pushed_pushLeaf : ∀ b leaf, pushed (pushLeaf b leaf) = pushed b ++ leaf
  flatten_build : ∀ b, (leaves (build b)).flatten = pushed b
  -- a new cursor is in a leaf of its position
  pos_newCursor : ∀ n p, pos (newCursor n p) = p
  getLeaf_newCursor : ∀ n p, p ≤ len n → ∃ before leaf offset,
    getLeaf (newCursor n p) = some (leaf, offset) ∧
      leaves n = before ++ leaf :: ahead (newCursor n p) ∧
      p = before.flatten.length + offset ∧ offset ≤ leaf.length
  -- the next leaf is entered at its start
  pos_nextLeaf : ∀ c leaf offset, getLeaf c = some (leaf, offset) →
    pos (nextLeaf c) = pos c + (leaf.length - offset)
  nextLeaf_cons : ∀ c next rest, (getLeaf c).isSome → ahead c = next :: rest →
    getLeaf (nextLeaf c) = some (next, 0) ∧ ahead (nextLeaf c) = rest
  nextLeaf_nil : ∀ c, (getLeaf c).isSome → ahead c = [] → getLeaf (nextLeaf c) = none

namespace XiTree

variable {α : Type} (T : XiTree α)

/-- The elements from the position of a cursor on. -/
def rest (c : T.Cursor) : List α :=
  match T.getLeaf c with
  | none => []
  | some (leaf, offset) => leaf.drop offset ++ (T.ahead c).flatten

/-- The leaves a cursor can still report. -/
def leavesLeft (c : T.Cursor) : Nat :=
  match T.getLeaf c with
  | none => 0
  | some _ => (T.ahead c).length + 1

/-- The position is not behind the leaf it is reported in. -/
def InLeaf (c : T.Cursor) : Prop :=
  ∀ leaf offset, T.getLeaf c = some (leaf, offset) → offset ≤ leaf.length

variable {T} {c : T.Cursor} {leaf : List α} {offset : Nat}

/-- Without a leaf nothing is left. -/
theorem rest_of_none (h : T.getLeaf c = none) : T.rest c = [] := by rw [rest, h]

/-- What is left of a leaf comes before the leaves ahead. -/
theorem rest_of_some (h : T.getLeaf c = some (leaf, offset)) :
    T.rest c = leaf.drop offset ++ (T.ahead c).flatten := by rw [rest, h]

/-- A leaf that is reported and those ahead are left. -/
theorem leavesLeft_of_some (h : T.getLeaf c = some (leaf, offset)) :
    T.leavesLeft c = (T.ahead c).length + 1 := by rw [leavesLeft, h]

/-- Moving on leaves the leaves ahead. -/
theorem rest_nextLeaf (h : T.getLeaf c = some (leaf, offset)) :
    T.rest (T.nextLeaf c) = (T.ahead c).flatten := by
  have hsome : (T.getLeaf c).isSome := by rw [h]; rfl
  cases hahead : T.ahead c with
  | nil => rw [rest_of_none (T.nextLeaf_nil c hsome hahead), List.flatten_nil]
  | cons next rest =>
    obtain ⟨hleaf, hrest⟩ := T.nextLeaf_cons c next rest hsome hahead
    rw [rest_of_some hleaf, hrest, List.drop_zero, List.flatten_cons]

/-- Going on to the next leaf leaves those ahead. -/
theorem leavesLeft_nextLeaf (h : T.getLeaf c = some (leaf, offset)) :
    T.leavesLeft (T.nextLeaf c) = (T.ahead c).length := by
  have hsome : (T.getLeaf c).isSome := by rw [h]; rfl
  cases hahead : T.ahead c with
  | nil => rw [leavesLeft, T.nextLeaf_nil c hsome hahead, List.length_nil]
  | cons next rest =>
    obtain ⟨hleaf, hrest⟩ := T.nextLeaf_cons c next rest hsome hahead
    rw [leavesLeft_of_some hleaf, hrest, List.length_cons]

/-- The next leaf is entered at its start. -/
theorem inLeaf_nextLeaf (h : T.getLeaf c = some (leaf, offset)) : T.InLeaf (T.nextLeaf c) := by
  have hsome : (T.getLeaf c).isSome := by rw [h]; rfl
  intro leaf' offset' hleaf'
  cases hahead : T.ahead c with
  | nil =>
    rw [T.nextLeaf_nil c hsome hahead] at hleaf'
    cases hleaf'
  | cons next rest =>
    rw [(T.nextLeaf_cons c next rest hsome hahead).1] at hleaf'
    cases hleaf'
    exact Nat.zero_le _

/-- A new cursor has the elements from its position on before it. -/
theorem rest_newCursor {n : T.Node} {p : Nat} (h : p ≤ T.len n) :
    T.rest (T.newCursor n p) = (T.leaves n).flatten.drop p := by
  obtain ⟨before, leaf, offset, hleaf, hleaves, rfl, hle⟩ := T.getLeaf_newCursor n p h
  rw [rest_of_some hleaf, hleaves, List.flatten_append, List.flatten_cons,
    List.drop_length_add_append, List.drop_append_of_le_length hle]

/-- A new cursor has at most all leaves before it. -/
theorem leavesLeft_newCursor {n : T.Node} {p : Nat} (h : p ≤ T.len n) :
    T.leavesLeft (T.newCursor n p) ≤ (T.leaves n).length := by
  obtain ⟨before, leaf, offset, hleaf, hleaves, -⟩ := T.getLeaf_newCursor n p h
  rw [leavesLeft_of_some hleaf, hleaves, List.length_append, List.length_cons]
  omega

/-- A new cursor is in the leaf that it reports. -/
theorem inLeaf_newCursor {n : T.Node} {p : Nat} (h : p ≤ T.len n) :
    T.InLeaf (T.newCursor n p) := by
  obtain ⟨before, leaf, offset, hleaf, -, -, hle⟩ := T.getLeaf_newCursor n p h
  intro leaf' offset' hleaf'
  rw [hleaf] at hleaf'
  cases hleaf'
  exact hle

end XiTree

/-! ## A realization

A tree is the list of its leaves, of which there is at least one. -/

namespace XiTree

variable {α : Type}

/-- The leaf a position is in, the offset there and the leaves ahead: the search goes on while
the position is not before the end of a leaf. -/
def seek : List α → List (List α) → Nat → (List α × Nat) × List (List α)
  | leaf, [], p => ((leaf, p), [])
  | leaf, next :: rest, p =>
    if p < leaf.length then ((leaf, p), next :: rest) else seek next rest (p - leaf.length)

private theorem seek_spec (leaf : List α) (rest : List (List α)) (p : Nat)
    (h : p ≤ (leaf :: rest).flatten.length) :
    ∃ before, leaf :: rest = before ++ (seek leaf rest p).1.1 :: (seek leaf rest p).2 ∧
      p = before.flatten.length + (seek leaf rest p).1.2 ∧
      (seek leaf rest p).1.2 ≤ (seek leaf rest p).1.1.length := by
  induction rest generalizing leaf p with
  | nil =>
    exact ⟨[], rfl, by simp [seek], by simpa [seek] using h⟩
  | cons next rest ih =>
    by_cases hlt : p < leaf.length
    · rw [seek, if_pos hlt]
      exact ⟨[], rfl, by simp, Nat.le_of_lt hlt⟩
    · rw [List.flatten_cons, List.length_append] at h
      obtain ⟨before, hsplit, hp, hle⟩ := ih next (p - leaf.length) (by omega)
      rw [seek, if_neg hlt]
      refine ⟨leaf :: before, by rw [hsplit]; rfl, ?_, hle⟩
      rw [List.flatten_cons, List.length_append]
      omega

/-- The cursor of the realization. -/
structure LeafCursor (α : Type) where
  pos : Nat
  leaf : Option (List α × Nat)
  ahead : List (List α)

/-- Enter the next leaf, or run out of them. -/
def LeafCursor.nextLeaf (c : LeafCursor α) : LeafCursor α :=
  match c.leaf, c.ahead with
  | none, _ => c
  | some (leaf, offset), [] => { pos := c.pos + (leaf.length - offset), leaf := none, ahead := [] }
  | some (leaf, offset), next :: rest =>
    { pos := c.pos + (leaf.length - offset), leaf := some (next, 0), ahead := rest }

/-- Trees as non-empty lists of leaves. -/
def reference (α : Type) : XiTree α where
  Node := List α × List (List α)
  TreeBuilder := List (List α)
  Cursor := LeafCursor α
  leaves n := n.1 :: n.2
  len n := (n.1 :: n.2).flatten.length
  newBuilder := []
  pushLeaf b leaf := b ++ [leaf]
  build b := (b.head?.getD [], b.tail)
  pushed b := b.flatten
  newCursor n p := { pos := p, leaf := some (seek n.1 n.2 p).1, ahead := (seek n.1 n.2 p).2 }
  pos c := c.pos
  getLeaf c := c.leaf
  nextLeaf := LeafCursor.nextLeaf
  ahead c := c.ahead
  len_eq _ := rfl
  pushed_newBuilder := rfl
  pushed_pushLeaf b leaf := by simp
  flatten_build b := by cases b <;> simp
  pos_newCursor _ _ := rfl
  getLeaf_newCursor n p h := by
    obtain ⟨before, hspec⟩ := seek_spec n.1 n.2 p h
    exact ⟨before, _, _, rfl, hspec⟩
  pos_nextLeaf c leaf offset h := by
    rcases c with ⟨pos, _, _ | ⟨next, rest⟩⟩ <;> cases h <;> rfl
  nextLeaf_cons c next rest hsome h := by
    rcases c with ⟨pos, _ | leaf, ahead⟩
    · cases hsome
    · cases h
      exact ⟨rfl, rfl⟩
  nextLeaf_nil c hsome h := by
    rcases c with ⟨pos, _ | leaf, ahead⟩
    · cases hsome
    · cases h
      rfl

end XiTree

end Tofu.Rope

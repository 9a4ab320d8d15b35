import Tofu.Buffer.CurrentBuffer
import Tofu.Rope.Tree

/-!
# The byte rope

`src/src/byte_rope.rs`: the leaves of a rope, the rope made of a vector, and the chunks a
slice is read in. Everywhere else a rope is its list of bytes and a slice is `sliceToCow`;
here both are taken down to the leaves, for trees that divide the bytes in any way.
-/

namespace Tofu

open Rope

/-- `&xs[first..last]`. -/
def checkedSlice {α : Type} (xs : List α) (first last : Nat) : Option (List α) :=
  if first ≤ last ∧ last ≤ xs.length then some ((xs.take last).drop first) else none

/-- A slice whose ends are in order and in the list is there. -/
theorem checkedSlice_of_le {α : Type} {xs : List α} {first last : Nat} (h : first ≤ last)
    (h' : last ≤ xs.length) :
    checkedSlice xs first last = some ((xs.drop first).take (last - first)) := by
  rw [checkedSlice, if_pos ⟨h, h'⟩, List.drop_take]

/-- A slice is one of a range in order and inside the list. -/
theorem of_checkedSlice {α : Type} {xs ys : List α} {first last : Nat}
    (h : checkedSlice xs first last = some ys) :
    first ≤ last ∧ last ≤ xs.length ∧ ys = (xs.take last).drop first := by
  unfold checkedSlice at h
  split at h
  · next hle => exact ⟨hle.1, hle.2, (Option.some.inj h).symm⟩
  · cases h

/-! ## Leaves -/

/-- `byte_rope.rs:9`. -/
def minLeaf : Nat := 511

/-- `byte_rope.rs:10`. -/
def maxLeaf : Nat := 1024

/-- `byte_rope.rs:12–13`. -/
abbrev Bytes := List UInt8

namespace Bytes

/-- `byte_rope.rs:26–28`. -/
def isOkChild (leaf : Bytes) : Bool := decide (minLeaf ≤ leaf.length)

/-- `byte_rope.rs:29–40`: the leaf with the part appended, and what is split off it. -/
def pushMaybeSplit (leaf other : Bytes) (iv : Interval) : Option (Bytes × Option Bytes) := do
  let part ← checkedSlice other iv.start iv.stop
  let bytes := leaf ++ part
  if bytes.length ≤ maxLeaf then some (bytes, none)
  else some (bytes.take maxLeaf, some (bytes.drop maxLeaf))

/-- What `xi_rope` documents of pushing a part onto a leaf, for the leaf and the split that
are left. -/
structure Pushed (leaf part leaf' : Bytes) (split : Option Bytes) : Prop where
  no_split : leaf = [] ∨ part = [] → split = none
  append_eq : leaf' ++ split.getD [] = leaf ++ part
  length_le : leaf'.length ≤ maxLeaf ∧ ∀ rest ∈ split, rest.length ≤ maxLeaf
  isOkChild : leaf.isOkChild = true ∨ part.isOkChild = true →
    leaf'.isOkChild = true ∧ ∀ rest ∈ split, rest.isOkChild = true

private theorem isOkChild_iff {leaf : Bytes} : leaf.isOkChild = true ↔ minLeaf ≤ leaf.length :=
  decide_eq_true_iff

private theorem pushMaybeSplit_eq {leaf other part : Bytes} {iv : Interval}
    (h : checkedSlice other iv.start iv.stop = some part) :
    leaf.pushMaybeSplit other iv =
      if (leaf ++ part).length ≤ maxLeaf then some (leaf ++ part, none)
      else some ((leaf ++ part).take maxLeaf, some ((leaf ++ part).drop maxLeaf)) := by
  rw [pushMaybeSplit, h]
  rfl

/-- Without a split the contract holds. -/
theorem pushed_of_le {leaf part : Bytes} (h : (leaf ++ part).length ≤ maxLeaf) :
    Pushed leaf part (leaf ++ part) none := by
  refine ⟨fun _ ↦ rfl, by simp, ⟨h, by simp⟩, fun hok ↦ ⟨?_, by simp⟩⟩
  simp only [isOkChild_iff, List.length_append] at hok ⊢
  omega

/-- With a split it holds exactly when enough bytes are split off. -/
theorem pushed_split_iff {leaf part : Bytes} (hl : leaf.length ≤ maxLeaf)
    (hp : part.length ≤ maxLeaf) (h : maxLeaf < (leaf ++ part).length) :
    Pushed leaf part ((leaf ++ part).take maxLeaf) (some ((leaf ++ part).drop maxLeaf)) ↔
      maxLeaf + minLeaf ≤ (leaf ++ part).length := by
  have hmax : maxLeaf = 1024 := rfl
  have hmin : minLeaf = 511 := rfl
  rw [List.length_append] at h
  constructor
  · intro hpushed
    -- more than fits a leaf is too much for two parts below the minimum
    have hok : leaf.isOkChild = true ∨ part.isOkChild = true := by
      rw [isOkChild_iff, isOkChild_iff]
      omega
    have hrest := (hpushed.isOkChild hok).2 _ rfl
    rw [isOkChild_iff, List.length_drop] at hrest
    omega
  · intro hlen
    have hrest : ((leaf ++ part).drop maxLeaf).length = leaf.length + part.length - maxLeaf := by
      rw [List.length_drop, List.length_append]
    rw [List.length_append] at hlen
    constructor
    case no_split =>
      intro hempty
      have hzero : leaf.length = 0 ∨ part.length = 0 :=
        hempty.imp List.length_eq_zero_iff.mpr List.length_eq_zero_iff.mpr
      omega
    case append_eq => exact List.take_append_drop _ _
    case length_le =>
      refine ⟨List.length_take_le _ _, fun rest hr ↦ ?_⟩
      obtain rfl := Option.some.inj hr
      omega
    case isOkChild =>
      intro _
      rw [isOkChild_iff, List.length_take, List.length_append]
      refine ⟨by omega, fun rest hr ↦ ?_⟩
      obtain rfl := Option.some.inj hr
      rw [isOkChild_iff]
      omega

/-- Pushing a part of one leaf onto another meets the contract of `xi_rope` exactly when
nothing is split off or a whole child is. -/
theorem pushMaybeSplit_contract_iff {leaf other : Bytes} {iv : Interval}
    (hl : leaf.length ≤ maxLeaf) (ho : other.length ≤ maxLeaf) (hle : iv.start ≤ iv.stop)
    (hiv : iv.stop ≤ other.length) :
    (∃ leaf' split, leaf.pushMaybeSplit other iv = some (leaf', split) ∧
      Pushed leaf ((other.drop iv.start).take (iv.stop - iv.start)) leaf' split) ↔
      leaf.length + (iv.stop - iv.start) ≤ maxLeaf ∨
        maxLeaf + minLeaf ≤ leaf.length + (iv.stop - iv.start) := by
  have hpart : ((other.drop iv.start).take (iv.stop - iv.start)).length = iv.stop - iv.start := by
    rw [List.length_take, List.length_drop]
    omega
  rw [pushMaybeSplit_eq (checkedSlice_of_le hle hiv)]
  generalize (other.drop iv.start).take (iv.stop - iv.start) = part at hpart ⊢
  have hlen : leaf.length + (iv.stop - iv.start) = (leaf ++ part).length := by
    rw [List.length_append, hpart]
  rw [hlen]
  by_cases h : (leaf ++ part).length ≤ maxLeaf
  · rw [if_pos h]
    refine iff_of_true ?_ (.inl h)
    exact ⟨_, none, rfl, pushed_of_le h⟩
  · rw [if_neg h, or_iff_right h, ← pushed_split_iff hl (by omega) (Nat.lt_of_not_le h)]
    constructor
    · rintro ⟨leaf', split, heq, hpushed⟩
      cases heq
      exact hpushed
    · exact fun hpushed ↦ ⟨_, _, rfl, hpushed⟩

/-- A whole leaf and a child of the least size: the child is split off again. -/
theorem pushMaybeSplit_contract_child :
    let leaf : Bytes := List.replicate 1024 0
    let other : Bytes := List.replicate 511 1
    ∃ leaf' split, leaf.pushMaybeSplit other { start := 0, stop := 511 } = some (leaf', split) ∧
      Pushed leaf ((other.drop 0).take (511 - 0)) leaf' split := by
  intro leaf other
  have hleaf : leaf.length = 1024 := List.length_replicate
  have hother : other.length = 511 := List.length_replicate
  apply (@pushMaybeSplit_contract_iff leaf other { start := 0, stop := 511 } hleaf.le
    (hother.le.trans (by decide)) (by decide) hother.ge).mpr
  rw [hleaf]
  decide

/-- One byte pushed onto a whole leaf is split off alone and is no child. -/
theorem pushMaybeSplit_splits_one :
    let leaf : Bytes := List.replicate 1024 0
    leaf.pushMaybeSplit [1] { start := 0, stop := 1 } = some (leaf, some [1]) ∧
      leaf.isOkChild = true ∧ isOkChild [1] = false := by
  intro leaf
  have hleaf : leaf.length = 1024 := List.length_replicate
  have hmax : maxLeaf = 1024 := rfl
  refine ⟨?_, ?_, rfl⟩
  · rw [pushMaybeSplit_eq (checkedSlice_of_le (by decide) (by decide))]
    simp [hmax, hleaf]
  · rw [isOkChild_iff, hleaf]
    decide

end Bytes

/-! ## Ropes and their chunks -/

variable {T : XiTree UInt8}

/-- `byte_rope.rs:184–187`. -/
structure ChunkIter (T : XiTree UInt8) where
  cursor : T.Cursor
  stop : Nat

namespace ChunkIter

/-- `byte_rope.rs:191–202`. A position behind its leaf makes the slice start behind the end. -/
def next (it : ChunkIter T) : Option (Option Bytes × ChunkIter T) :=
  if it.stop ≤ T.pos it.cursor then some (none, it)
  else
    match T.getLeaf it.cursor with
    | none => some (none, it)
    | some (leaf, startPos) => do
      let len := min (it.stop - T.pos it.cursor) (leaf.length - startPos)
      let chunk ← checkedSlice leaf startPos (startPos + len)
      some (some chunk, { it with cursor := T.nextLeaf it.cursor })

/-- Appending the chunks that are left. `none` is a panic, or a loop that is still running after
`fuel` rounds. -/
def appendTo (it : ChunkIter T) (acc : Bytes) : Nat → Option Bytes
  | 0 => none
  | fuel + 1 => do
    match ← it.next with
    | (none, _) => some acc
    | (some chunk, it) => it.appendTo (acc ++ chunk) fuel

end ChunkIter

namespace ByteRope

/-- `byte_rope.rs:108–114`. -/
def iterChunks (n : T.Node) (range : Interval) : ChunkIter T :=
  { cursor := T.newCursor n range.start, stop := range.stop }

/-- `byte_rope.rs:116–133`; the last branch is `unreachable!`. -/
def sliceToCow (n : T.Node) (range : Interval) : Option Bytes := do
  let (first, it) ← (iterChunks n range).next
  let (second, it) ← it.next
  match first, second with
  | none, none => some []
  | some b, none => some b
  | some one, some two => it.appendTo (one ++ two) ((T.leaves n).length + 1)
  | none, some _ => none

/-- The loop that pushes the leaves of a vector, `byte_rope.rs:159–164`. -/
def pushPieces (builder : T.TreeBuilder) (source : Bytes) : T.TreeBuilder :=
  if source = [] then builder
  else
    let splitPoint := min source.length maxLeaf
    pushPieces (T.pushLeaf builder (source.take splitPoint)) (source.drop splitPoint)
termination_by source.length
decreasing_by
  have hpos : 0 < source.length := List.length_pos_of_ne_nil (by assumption)
  rw [List.length_drop]
  have hmax : maxLeaf = 1024 := rfl
  omega

/-- `byte_rope.rs:148–167`. -/
def fromVec (T : XiTree UInt8) (vec : Bytes) : T.Node :=
  if vec.length ≤ maxLeaf then
    T.build (if vec ≠ [] then T.pushLeaf T.newBuilder vec else T.newBuilder)
  else T.build (pushPieces T.newBuilder vec)

/-- `byte_rope.rs:175–182`. -/
def toVec (n : T.Node) : Option Bytes :=
  (iterChunks n { start := 0, stop := T.len n }).appendTo [] ((T.leaves n).length + 1)

end ByteRope

/-! ### The chunks of a slice -/

namespace ChunkIter

variable {it : ChunkIter T}

private theorem next_of_le (h : it.stop ≤ T.pos it.cursor) : it.next = some (none, it) := by
  rw [next, if_pos h]

private theorem next_of_none (h : T.getLeaf it.cursor = none) : it.next = some (none, it) := by
  rw [next, h, ite_self]

/-- A chunk is what the range takes of the rest of a leaf. -/
theorem next_of_some {leaf : Bytes} {startPos : Nat} (hlt : T.pos it.cursor < it.stop)
    (h : T.getLeaf it.cursor = some (leaf, startPos)) (hle : startPos ≤ leaf.length) :
    it.next = some (some ((leaf.drop startPos).take (it.stop - T.pos it.cursor)),
      { it with cursor := T.nextLeaf it.cursor }) := by
  have hslice : checkedSlice leaf startPos
      (startPos + min (it.stop - T.pos it.cursor) (leaf.length - startPos)) =
        some ((leaf.drop startPos).take (it.stop - T.pos it.cursor)) := by
    rw [checkedSlice_of_le (by omega) (by omega), Nat.add_sub_cancel_left, ← List.length_drop,
      ← List.take_take, List.take_length]
  rw [next, if_neg (Nat.not_le.mpr hlt), h]
  simp only [hslice]
  rfl

/-- An iterator that has ended stays where it is. -/
theorem eq_of_next_none {it' : ChunkIter T} (h : it.next = some (none, it')) : it' = it := by
  rw [next] at h
  split at h
  · cases h
    rfl
  · split at h
    · cases h
      rfl
    · obtain ⟨chunk, -, hchunk⟩ := Option.bind_eq_some_iff.mp h
      cases hchunk

/-- Rounds for all leaves that are left append what the range takes of the rest of the rope. -/
theorem appendTo_eq {acc : Bytes} {fuel : Nat} (hin : T.InLeaf it.cursor)
    (hfuel : T.leavesLeft it.cursor < fuel) :
    it.appendTo acc fuel =
      some (acc ++ (T.rest it.cursor).take (it.stop - T.pos it.cursor)) := by
  induction fuel generalizing it acc with
  | zero => omega
  | succ fuel ih =>
    rw [appendTo]
    by_cases hle : it.stop ≤ T.pos it.cursor
    · rw [next_of_le hle, Nat.sub_eq_zero_of_le hle, List.take_zero, List.append_nil]
      rfl
    cases hleaf : T.getLeaf it.cursor with
    | none =>
      rw [next_of_none hleaf, XiTree.rest_of_none hleaf, List.take_nil, List.append_nil]
      rfl
    | some pair =>
      obtain ⟨leaf, offset⟩ := pair
      rw [next_of_some (Nat.not_le.mp hle) hleaf (hin leaf offset hleaf)]
      have hleft := XiTree.leavesLeft_of_some hleaf
      have hnext := XiTree.leavesLeft_nextLeaf hleaf
      -- the next position is that of the next leaf
      have hrec := @ih { it with cursor := T.nextLeaf it.cursor }
        (acc ++ (leaf.drop offset).take (it.stop - T.pos it.cursor))
        (XiTree.inLeaf_nextLeaf hleaf) (by simp only; omega)
      refine hrec.trans ?_
      rw [XiTree.rest_nextLeaf hleaf, T.pos_nextLeaf _ _ _ hleaf, XiTree.rest_of_some hleaf,
        List.take_append, List.length_drop, List.append_assoc, Nat.sub_add_eq]

end ChunkIter

namespace ByteRope

/-- Taking the first two chunks before the loop makes no difference, and no chunk comes after
the end. -/
theorem sliceToCow_eq_appendTo (n : T.Node) (range : Interval) :
    sliceToCow n range = (iterChunks n range).appendTo [] ((T.leaves n).length + 3) := by
  rw [sliceToCow, ChunkIter.appendTo]
  cases hfirst : (iterChunks n range).next with
  | none => rfl
  | some p =>
    obtain ⟨_ | one, it⟩ := p
    · obtain rfl := ChunkIter.eq_of_next_none hfirst
      simp only [Option.bind_eq_bind, Option.bind_some, hfirst]
    · simp only [Option.bind_eq_bind, Option.bind_some, ChunkIter.appendTo]
      cases hsecond : it.next with
      | none => rfl
      | some q =>
        obtain ⟨_ | two, it'⟩ := q
        · rfl
        · rfl

/-- The slice of a rope is that of its bytes, where it starts within them. -/
theorem sliceToCow_eq (n : T.Node) {range : Interval} (h : range.start ≤ T.len n) :
    sliceToCow n range = Tofu.sliceToCow (T.leaves n).flatten range := by
  have hfuel := XiTree.leavesLeft_newCursor h
  rw [sliceToCow_eq_appendTo, ChunkIter.appendTo_eq (XiTree.inLeaf_newCursor h)
    (Nat.lt_of_le_of_lt hfuel (by omega)), List.nil_append]
  simp only [iterChunks, T.pos_newCursor, XiTree.rest_newCursor h]
  rw [Tofu.sliceToCow, if_neg]
  rw [← T.len_eq]
  omega

private theorem toVec_eq (n : T.Node) : toVec n = some (T.leaves n).flatten := by
  have hfuel := XiTree.leavesLeft_newCursor (Nat.zero_le (T.len n))
  rw [toVec, ChunkIter.appendTo_eq (XiTree.inLeaf_newCursor (Nat.zero_le _))
    (Nat.lt_of_le_of_lt hfuel (by omega)), List.nil_append]
  simp only [iterChunks, T.pos_newCursor, XiTree.rest_newCursor (Nat.zero_le _), List.drop_zero,
    Nat.sub_zero, T.len_eq, List.take_length]

private theorem pushed_pushPieces (builder : T.TreeBuilder) (source : Bytes) :
    T.pushed (pushPieces builder source) = T.pushed builder ++ source := by
  induction builder, source using pushPieces.induct (T := T) with
  | case1 builder =>
    rw [pushPieces, if_pos rfl, List.append_nil]
  | case2 builder source hne splitPoint ih =>
    rw [pushPieces, if_neg hne]
    exact ih.trans (by rw [T.pushed_pushLeaf, List.append_assoc, List.take_append_drop])

/-- The rope made of a vector holds its bytes. -/
theorem flatten_fromVec (vec : Bytes) : (T.leaves (fromVec T vec)).flatten = vec := by
  rw [fromVec]
  split
  · split
    · rw [T.flatten_build, T.pushed_pushLeaf, T.pushed_newBuilder, List.nil_append]
    · next h =>
      rw [T.flatten_build, T.pushed_newBuilder]
      exact (not_ne_iff.mp h).symm
  · rw [T.flatten_build, pushed_pushPieces, T.pushed_newBuilder, List.nil_append]

/-- A rope is its list of bytes, however they are divided into leaves: it is made of them and
read back, and a slice holds those in its range. -/
theorem rope_eq_bytes (T : XiTree UInt8) (vec : Bytes) :
    toVec (fromVec T vec) = some vec ∧ T.len (fromVec T vec) = vec.length ∧
      ∀ (n : T.Node) (a b : Nat), (T.leaves n).flatten = vec → a ≤ b → a ≤ vec.length →
        sliceToCow n { start := a, stop := b } = some ((vec.take (min b vec.length)).drop a) := by
  refine ⟨by rw [toVec_eq, flatten_fromVec], by rw [T.len_eq, flatten_fromVec], ?_⟩
  intro n a b hvec hab ha
  subst hvec
  rw [sliceToCow_eq n (by rw [T.len_eq]; exact ha), Tofu.sliceToCow, if_neg (by simp only; omega)]
  rw [← List.take_eq_take_min, List.drop_take]

/-- A range that starts inside a leaf and ends behind the data. -/
theorem rope_eq_bytes_two_leaves :
    sliceToCow (T := XiTree.reference UInt8) ([1, 2], [[3]]) { start := 1, stop := 5 } =
      some [2, 3] :=
  (rope_eq_bytes (XiTree.reference UInt8) [1, 2, 3]).2.2 ([1, 2], [[3]]) 1 5 rfl (by decide)
    (by decide)

end ByteRope

end Tofu

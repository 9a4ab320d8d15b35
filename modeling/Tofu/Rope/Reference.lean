import Tofu.Rope.XiRope

/-!
# A reference implementation of the rope library's deltas

A delta is written out as one piece per element: keep the next base element, drop it,
or insert a new one. All operations are structural recursions over the pieces, so that
runs of the editor on concrete buffers can be evaluated. The record at the end shows
that the behaviour asked of `XiRope` can be met.
-/

namespace Tofu.Rope

variable {α : Type}

/-- What happens at one position of the union of base and insertions. -/
inductive Piece (α : Type) where
  | keep
  | drop
  | insert (a : α)
  deriving DecidableEq, Repr

namespace Piece

/-- Number of base elements a list of pieces consumes. -/
def baseLen : List (Piece α) → Nat
  | [] => 0
  | insert _ :: w => baseLen w
  | _ :: w => baseLen w + 1

/-- Number of elements a list of pieces produces. -/
def newLen : List (Piece α) → Nat
  | [] => 0
  | drop :: w => newLen w
  | _ :: w => newLen w + 1

/-- Run the pieces over a base. -/
def apply : List (Piece α) → List α → List α
  | [], _ => []
  | keep :: w, xs => xs.take 1 ++ apply w xs.tail
  | drop :: w, xs => apply w xs.tail
  | insert a :: w, xs => a :: apply w xs

/-- New offset of the first kept base element at or after `ix`. -/
def transform : List (Piece α) → Nat → Nat
  | [], _ => 0
  | keep :: _, 0 => 0
  | keep :: w, ix + 1 => transform w ix + 1
  | drop :: w, ix => transform w (ix - 1)
  | insert _ :: w, ix => transform w ix + 1

/-- The insertions of a list of pieces; `none` keeps a base element. -/
def inserts : List (Piece α) → List (Option α) :=
  List.map fun
    | insert a => some a
    | _ => none

/-- The base positions a list of pieces drops. -/
def deletions : List (Piece α) → List Bool
  | [] => []
  | keep :: w => false :: deletions w
  | drop :: w => true :: deletions w
  | insert _ :: w => deletions w

/-- Pieces from the union without `from'` to the union without `to'`. -/
def synthesize : List α → List Bool → List Bool → List (Piece α)
  | t, true :: f, true :: g => synthesize t.tail f g
  | a :: t, true :: f, false :: g => insert a :: synthesize t f g
  | [], true :: f, false :: g => synthesize [] f g
  | t, false :: f, true :: g => drop :: synthesize t f g
  | t, false :: f, false :: g => keep :: synthesize t f g
  | _, _, _ => []

/-- Pieces of a sorted list of edits of a base of length `n`, from position `pos` on. -/
def ofEdits (n : Nat) : Nat → List (Edit α) → List (Piece α)
  | pos, [] => List.replicate (n - pos) keep
  | pos, e :: es =>
    List.replicate (e.start - pos) keep ++ e.text.map insert ++
      List.replicate (min e.stop n - e.start) drop ++ ofEdits n e.stop es

end Piece

namespace Insertion

/-- Number of base elements an insertion keeps. -/
def baseLen (i : List (Option α)) : Nat := i.countP Option.isNone

/-- Run an insertion over a base. -/
def apply : List (Option α) → List α → List α
  | [], _ => []
  | none :: i, xs => xs.take 1 ++ apply i xs.tail
  | some a :: i, xs => a :: apply i xs

/-- Carry an insertion through a mask; what it inserts goes behind marked elements. -/
def expand : List (Option α) → List Bool → List (Option α)
  | [], m => m.map (fun _ ↦ none)
  | some a :: i, m =>
    (m.takeWhile id).map (fun _ ↦ none) ++ some a :: expand i (m.dropWhile id)
  | none :: i, m =>
    (m.takeWhile id).map (fun _ ↦ none) ++ none :: expand i (m.dropWhile id).tail

private theorem expand_true (i : List (Option α)) (m : List Bool) :
    expand i (true :: m) = none :: expand i m := by
  cases i with
  | nil => rfl
  | cons a i => cases a <;> simp [expand]

private theorem expand_some_false (a : α) (i : List (Option α)) (m : List Bool) :
    expand (some a :: i) (false :: m) = some a :: expand i (false :: m) := by
  simp [expand]

private theorem expand_none_false (i : List (Option α)) (m : List Bool) :
    expand (none :: i) (false :: m) = none :: expand i m := by
  simp [expand]

private theorem expand_some_nil (a : α) (i : List (Option α)) :
    expand (some a :: i) [] = some a :: expand i [] := rfl

/-- An element of the base is taken over. -/
@[simp] theorem apply_none (i : List (Option α)) (x : α) (xs : List α) :
    apply (none :: i) (x :: xs) = x :: apply i xs := rfl

/-- A new element is put before what is left of the base. -/
@[simp] theorem apply_some (a : α) (i : List (Option α)) (xs : List α) :
    apply (some a :: i) xs = a :: apply i xs := rfl

/-- An element that is taken over is part of the base. -/
@[simp] theorem baseLen_none (i : List (Option α)) :
    baseLen (none :: i) = baseLen i + 1 := by
  simp [baseLen]

/-- A new element is not part of the base. -/
@[simp] theorem baseLen_some (a : α) (i : List (Option α)) :
    baseLen (some a :: i) = baseLen i := by
  simp [baseLen]

/-- A law about an insertion and a base of its length, element by element. -/
theorem induction_base {P : List (Option α) → List α → Prop} (hn : P [] [])
    (hk : ∀ i x xs, P i xs → P (none :: i) (x :: xs))
    (hs : ∀ a i xs, P i xs → P (some a :: i) xs) (i : List (Option α)) (xs : List α)
    (h : xs.length = baseLen i) : P i xs := by
  induction i generalizing xs with
  | nil =>
    rw [List.eq_nil_of_length_eq_zero h]
    exact hn
  | cons a i ih =>
    cases a with
    | some a => exact hs a i xs (ih xs (by rwa [baseLen_some] at h))
    | none =>
      cases xs with
      | nil => simp at h
      | cons x xs => exact hk i x xs (ih xs (by simpa using h))

/-- The inserted positions cover the whole result. -/
theorem length_inserted (i : List (Option α)) (xs : List α) (h : xs.length = baseLen i) :
    (i.map Option.isSome).length = (apply i xs).length := by
  rw [List.length_map]
  refine induction_base (P := fun i xs ↦ i.length = (apply i xs).length) rfl ?_ ?_ i xs h
  · intro i x xs ih
    rw [apply_none, List.length_cons, List.length_cons, ih]
  · intro a i xs ih
    rw [apply_some, List.length_cons, List.length_cons, ih]

/-- Deleting what was inserted restores the base. -/
theorem delete_inserted (i : List (Option α)) (xs : List α) (h : xs.length = baseLen i) :
    Mask.delete (i.map Option.isSome) (apply i xs) = xs := by
  refine induction_base (P := fun i xs ↦ Mask.delete (i.map Option.isSome) (apply i xs) = xs)
    rfl ?_ ?_ i xs h
  · intro i x xs ih
    rw [apply_none, List.map_cons, Option.isSome_none, Mask.delete_false, ih]
  · intro a i xs ih
    rw [apply_some, List.map_cons, Option.isSome_some, Mask.delete_true, ih]

/-- A law about an insertion into the unmarked positions of a mask, step by step. -/
theorem induction_expand {P : List (Option α) → List Bool → Prop} (hn : P [] [])
    (ht : ∀ i m, P i m → P i (true :: m)) (hk : ∀ i m, P i m → P (none :: i) (false :: m))
    (hs : ∀ a i m, P i (false :: m) → P (some a :: i) (false :: m))
    (he : ∀ a i, P i [] → P (some a :: i) []) (i : List (Option α)) (m : List Bool)
    (h : baseLen i = Mask.unmarked m) : P i m := by
  induction m generalizing i with
  | nil =>
    induction i with
    | nil => exact hn
    | cons a i ih =>
      cases a with
      | none => simp at h
      | some a => exact he a i (ih (by simpa using h))
  | cons b m ih =>
    cases b with
    | true => exact ht i m (ih i (by simpa using h))
    | false =>
      induction i with
      | nil => simp [baseLen] at h
      | cons a i ihi =>
        cases a with
        | none => exact hk i m (ih i (by simpa using h))
        | some a => exact hs a i m (ihi (by simpa using h))

/-- A carried insertion keeps every position of the mask. -/
theorem baseLen_expand (i : List (Option α)) (m : List Bool)
    (h : baseLen i = Mask.unmarked m) : baseLen (expand i m) = m.length := by
  refine induction_expand (P := fun i m ↦ baseLen (expand i m) = m.length)
    rfl ?_ ?_ ?_ ?_ i m h
  · intro i m ih
    rw [expand_true, baseLen_none, ih, List.length_cons]
  · intro i m ih
    rw [expand_none_false, baseLen_none, ih, List.length_cons]
  · intro a i m ih
    rw [expand_some_false, baseLen_some, ih]
  · intro a i ih
    rw [expand_some_nil, baseLen_some, ih]

/-- Removing the marked elements again leaves the original insertion's result. -/
theorem delete_apply_expand (i : List (Option α)) (m : List Bool) (xs : List α)
    (hx : xs.length = m.length) (h : baseLen i = Mask.unmarked m) :
    Mask.delete (Mask.expand m ((expand i m).map Option.isSome)) (apply (expand i m) xs) =
      apply i (Mask.delete m xs) := by
  revert xs
  refine induction_expand (P := fun i m ↦ ∀ xs : List α, xs.length = m.length →
    Mask.delete (Mask.expand m ((expand i m).map Option.isSome)) (apply (expand i m) xs) =
      apply i (Mask.delete m xs)) ?_ ?_ ?_ ?_ ?_ i m h
  · intro xs _
    rfl
  · intro i m ih xs hx
    cases xs with
    | nil => simp at hx
    | cons x xs =>
      rw [expand_true, List.map_cons, Option.isSome_none, Mask.expand_false, apply_none,
        Mask.delete_true, Mask.delete_true, ih xs (Nat.succ.inj hx)]
  · intro i m ih xs hx
    cases xs with
    | nil => simp at hx
    | cons x xs =>
      rw [expand_none_false, List.map_cons, Option.isSome_none, Mask.expand_false, apply_none,
        Mask.delete_false, Mask.delete_false, apply_none, ih xs (Nat.succ.inj hx)]
  · intro a i m ih xs hx
    rw [expand_some_false, List.map_cons, Option.isSome_some, Mask.expand_true, apply_some,
      Mask.delete_false, apply_some, ih xs hx]
  · intro a i ih xs hx
    rw [expand_some_nil, List.map_cons, Option.isSome_some, Mask.expand_true, apply_some,
      Mask.delete_false, apply_some, ih xs hx]

/-- The carried insertion inserts at the same places as the original one. -/
theorem delete_inserted_expand (i : List (Option α)) (m : List Bool)
    (h : baseLen i = Mask.unmarked m) :
    Mask.delete (Mask.expand m ((expand i m).map Option.isSome))
      ((expand i m).map Option.isSome) = i.map Option.isSome := by
  refine induction_expand (P := fun i m ↦
    Mask.delete (Mask.expand m ((expand i m).map Option.isSome))
      ((expand i m).map Option.isSome) = i.map Option.isSome) rfl ?_ ?_ ?_ ?_ i m h
  · intro i m ih
    rw [expand_true, List.map_cons, Option.isSome_none, Mask.expand_false, Mask.delete_true, ih]
  · intro i m ih
    rw [expand_none_false, List.map_cons, Option.isSome_none, Mask.expand_false,
      Mask.delete_false, ih, List.map_cons, Option.isSome_none]
  · intro a i m ih
    rw [expand_some_false, List.map_cons, Option.isSome_some, Mask.expand_true,
      Mask.delete_false, ih, List.map_cons, Option.isSome_some]
  · intro a i ih
    rw [expand_some_nil, List.map_cons, Option.isSome_some, Mask.expand_true,
      Mask.delete_false, ih, List.map_cons, Option.isSome_some]

end Insertion

namespace Piece

/-- A kept element is taken over. -/
@[simp] theorem apply_keep (w : List (Piece α)) (x : α) (xs : List α) :
    apply (keep :: w) (x :: xs) = x :: apply w xs := rfl

/-- A dropped one is not. -/
@[simp] theorem apply_drop (w : List (Piece α)) (x : α) (xs : List α) :
    apply (drop :: w) (x :: xs) = apply w xs := rfl

/-- A new one is put before what is left of the base. -/
@[simp] theorem apply_insert (a : α) (w : List (Piece α)) (xs : List α) :
    apply (insert a :: w) xs = a :: apply w xs := rfl

/-- A law about pieces and a base of their length, piece by piece. -/
theorem induction_base {P : List (Piece α) → List α → Prop} (hn : P [] [])
    (hk : ∀ w x xs, P w xs → P (keep :: w) (x :: xs))
    (hd : ∀ w x xs, P w xs → P (drop :: w) (x :: xs))
    (hi : ∀ a w xs, P w xs → P (insert a :: w) xs) (w : List (Piece α)) (xs : List α)
    (h : xs.length = baseLen w) : P w xs := by
  induction w generalizing xs with
  | nil =>
    rw [List.eq_nil_of_length_eq_zero h]
    exact hn
  | cons p w ih =>
    cases p with
    | insert a => exact hi a w xs (ih xs h)
    | keep =>
      cases xs with
      | nil => simp [baseLen] at h
      | cons x xs => exact hk w x xs (ih xs (Nat.succ.inj h))
    | drop =>
      cases xs with
      | nil => simp [baseLen] at h
      | cons x xs => exact hd w x xs (ih xs (Nat.succ.inj h))

/-- The pieces produce the length they announce. -/
theorem length_apply (w : List (Piece α)) (xs : List α) (h : xs.length = baseLen w) :
    (apply w xs).length = newLen w := by
  refine induction_base (P := fun w xs ↦ (apply w xs).length = newLen w) rfl ?_ ?_ ?_ w xs h
  · intro w x xs ih
    rw [apply_keep, List.length_cons, ih, newLen]
    simp
  · intro w x xs ih
    rw [apply_drop, ih, newLen]
  · intro a w xs ih
    rw [apply_insert, List.length_cons, ih, newLen]
    simp

/-- Factoring keeps the base. -/
theorem baseLen_inserts (w : List (Piece α)) : Insertion.baseLen (inserts w) = baseLen w := by
  induction w with
  | nil => rfl
  | cons p w ih =>
    cases p with
    | insert a => exact (Insertion.baseLen_some a _).trans ih
    | keep => exact (Insertion.baseLen_none _).trans (congrArg Nat.succ ih)
    | drop => exact (Insertion.baseLen_none _).trans (congrArg Nat.succ ih)

/-- The dropped positions are positions of the base. -/
theorem length_deletions (w : List (Piece α)) : (deletions w).length = baseLen w := by
  induction w with
  | nil => rfl
  | cons p w ih =>
    cases p with
    | insert a => exact ih
    | keep => exact congrArg Nat.succ ih
    | drop => exact congrArg Nat.succ ih

/-- Inserting and then deleting is running the pieces. -/
theorem apply_factor (w : List (Piece α)) (xs : List α) (h : xs.length = baseLen w) :
    apply w xs =
      Mask.delete (Mask.expand (deletions w) ((inserts w).map Option.isSome))
        (Insertion.apply (inserts w) xs) := by
  refine induction_base (P := fun w xs ↦ apply w xs =
    Mask.delete (Mask.expand (deletions w) ((inserts w).map Option.isSome))
      (Insertion.apply (inserts w) xs)) rfl ?_ ?_ ?_ w xs h
  · intro w x xs ih
    exact congrArg (x :: ·) ih
  · intro w x xs ih
    exact ih
  · intro a w xs ih
    change a :: apply w xs = Mask.delete (Mask.expand (deletions w) (true :: _)) (a :: _)
    rw [Mask.expand_true, Mask.delete_false, ih]
    rfl

/-- Synthesis consumes what `from'` leaves of the union. -/
theorem baseLen_synthesize (t : List α) (f g : List Bool) (h : f.length = g.length) :
    baseLen (synthesize t f g) = Mask.unmarked f := by
  refine Mask.induction₂ (P := fun f g ↦ ∀ t : List α,
    baseLen (synthesize t f g) = Mask.unmarked f) (fun _ ↦ rfl) ?_ f g h t
  intro a f b g ih t
  cases a with
  | true =>
    rw [Mask.unmarked_true]
    cases b with
    | true => exact ih t.tail
    | false =>
      cases t with
      | nil => exact ih []
      | cons x t => exact ih t
  | false =>
    rw [Mask.unmarked_false]
    cases b with
    | true => exact congrArg Nat.succ (ih t)
    | false => exact congrArg Nat.succ (ih t)

/-- Synthesis goes from the union without `from'` to the union without `to'`. -/
theorem apply_synthesize (f g : List Bool) (u : List α) (hf : f.length = u.length)
    (hg : g.length = u.length) :
    apply (synthesize (Mask.select f u) f g) (Mask.delete f u) = Mask.delete g u := by
  refine Mask.induction₂ (P := fun f g ↦ ∀ u : List α, f.length = u.length →
    apply (synthesize (Mask.select f u) f g) (Mask.delete f u) = Mask.delete g u)
    ?_ ?_ f g (hf.trans hg.symm) u hf
  · intro u _
    rw [Mask.delete_nil]
    rfl
  · intro a f b g ih u hu
    cases u with
    | nil => simp at hu
    | cons x u =>
      have hs := ih u (Nat.succ.inj hu)
      cases a with
      | true =>
        rw [Mask.select_true, Mask.delete_true]
        cases b with
        | true => exact hs
        | false => exact congrArg (x :: ·) hs
      | false =>
        rw [Mask.select_false, Mask.delete_false]
        cases b with
        | true => exact hs
        | false => exact congrArg (x :: ·) hs

/-! ### Pieces of sorted edits -/

private theorem apply_keeps (k : Nat) (w : List (Piece α)) (xs : List α) :
    apply (List.replicate k keep ++ w) xs = xs.take k ++ apply w (xs.drop k) := by
  induction k generalizing xs with
  | zero => rfl
  | succ k ih =>
    cases xs with
    | nil => simpa [List.replicate_succ, apply] using ih []
    | cons x xs => exact congrArg (x :: ·) (ih xs)

private theorem apply_inserts (t : List α) (w : List (Piece α)) (xs : List α) :
    apply (t.map insert ++ w) xs = t ++ apply w xs := by
  induction t with
  | nil => rfl
  | cons a t ih => exact congrArg (a :: ·) ih

private theorem apply_drops (k : Nat) (w : List (Piece α)) (xs : List α) :
    apply (List.replicate k drop ++ w) xs = apply w (xs.drop k) := by
  induction k generalizing xs with
  | zero => rfl
  | succ k ih =>
    cases xs with
    | nil => simpa [List.replicate_succ, apply] using ih []
    | cons x xs => exact ih xs

private theorem baseLen_append (v w : List (Piece α)) :
    baseLen (v ++ w) = baseLen v + baseLen w := by
  induction v with
  | nil => exact (Nat.zero_add _).symm
  | cons p v ih => cases p <;> simp only [List.cons_append, baseLen, ih] <;> omega

private theorem baseLen_map_insert (t : List α) : baseLen (t.map insert) = 0 := by
  induction t with
  | nil => rfl
  | cons a t ih => exact ih

private theorem baseLen_replicate_keep (k : Nat) :
    baseLen (List.replicate k (keep : Piece α)) = k := by
  induction k with
  | zero => rfl
  | succ k ih => exact congrArg Nat.succ ih

private theorem baseLen_replicate_drop (k : Nat) :
    baseLen (List.replicate k (drop : Piece α)) = k := by
  induction k with
  | zero => rfl
  | succ k ih => exact congrArg Nat.succ ih

private theorem transform_keeps (k : Nat) (w : List (Piece α)) (ix : Nat) :
    transform (List.replicate k keep ++ w) ix =
      if ix < k then ix else k + transform w (ix - k) := by
  induction k generalizing ix with
  | zero => simp
  | succ k ih =>
    cases ix with
    | zero => simp [List.replicate_succ, transform]
    | succ ix =>
      rw [List.replicate_succ, List.cons_append, transform, ih, Nat.succ_sub_succ]
      split <;> split <;> omega

private theorem transform_inserts (t : List α) (w : List (Piece α)) (ix : Nat) :
    transform (t.map insert ++ w) ix = t.length + transform w ix := by
  induction t with
  | nil => exact (Nat.zero_add _).symm
  | cons a t ih =>
    rw [List.map_cons, List.cons_append, transform, ih, List.length_cons]
    omega

private theorem transform_drops (k : Nat) (w : List (Piece α)) (ix : Nat) :
    transform (List.replicate k drop ++ w) ix = transform w (ix - k) := by
  induction k generalizing ix with
  | zero => rfl
  | succ k ih =>
    rw [List.replicate_succ, List.cons_append, transform, ih]
    congr 1
    omega

/-- Behind an edit that reaches past the end of the base there is no further edit. -/
theorem eq_nil_of_lt_stop {n stop : Nat} {es : List (Edit α)} (hs : Splice.Sorted stop es)
    (hw : Splice.Within n es) (h : n < stop) : es = [] := by
  cases es with
  | nil => rfl
  | cons e es =>
    have hstart := hs.1
    have hin := hw e (by simp)
    omega

/-- The pieces of edits consume the rest of the base. -/
theorem baseLen_ofEdits (n pos : Nat) (es : List (Edit α)) (hs : Splice.Sorted pos es)
    (hw : Splice.Within n es) : baseLen (ofEdits n pos es) = n - pos := by
  induction es generalizing pos with
  | nil => exact baseLen_replicate_keep _
  | cons e es ih =>
    obtain ⟨hp, he, ht⟩ := hs
    have hin : e.start ≤ n := hw e (by simp)
    have hi := ih e.stop ht (fun a ha ↦ hw a (by simp [ha]))
    simp only [ofEdits, baseLen_append, baseLen_map_insert, baseLen_replicate_keep,
      baseLen_replicate_drop, hi]
    omega

/-- Running the pieces of edits rewrites the base by the edits. -/
theorem apply_ofEdits (xs : List α) (pos : Nat) (es : List (Edit α))
    (hs : Splice.Sorted pos es) (hw : Splice.Within xs.length es) :
    apply (ofEdits xs.length pos es) (xs.drop pos) = Splice.apply pos es xs := by
  induction es generalizing pos with
  | nil =>
    have h := apply_keeps (xs.length - pos) [] (xs.drop pos)
    rw [List.append_nil] at h
    rw [ofEdits, Splice.apply, h, ← List.length_drop, List.take_length]
    exact List.append_nil _
  | cons e es ih =>
    obtain ⟨hp, he, ht⟩ := hs
    have hin : e.start ≤ xs.length := hw e (by simp)
    have hi := ih e.stop ht (fun a ha ↦ hw a (by simp [ha]))
    have hd : ((xs.drop pos).drop (e.start - pos)).drop (min e.stop xs.length - e.start) =
        xs.drop e.stop := by
      rw [List.drop_drop, List.drop_drop]
      by_cases h : e.stop ≤ xs.length
      · congr 1
        omega
      · rw [List.drop_of_length_le (by omega), List.drop_of_length_le (by omega)]
    rw [ofEdits, List.append_assoc, List.append_assoc, apply_keeps, apply_inserts, apply_drops,
      hd, hi, Splice.apply, List.append_assoc]

/-- The pieces of edits move offsets as the edits do. -/
theorem transform_ofEdits (n pos ix : Nat) (es : List (Edit α)) (hs : Splice.Sorted pos es)
    (hw : Splice.Within n es) (hp : pos ≤ ix) :
    transform (ofEdits n pos es) (ix - pos) = Splice.transform n pos es ix := by
  induction es generalizing pos ix with
  | nil =>
    have h := transform_keeps (n - pos) ([] : List (Piece α)) (ix - pos)
    rw [List.append_nil] at h
    rw [ofEdits, Splice.transform, h]
    simp only [transform]
    split <;> omega
  | cons e es ih =>
    obtain ⟨hps, he, ht⟩ := hs
    have hwt : Splice.Within n es := fun a ha ↦ hw a (by simp [ha])
    rw [ofEdits, List.append_assoc, List.append_assoc, transform_keeps, transform_inserts,
      transform_drops, Splice.transform]
    by_cases h : ix < e.start
    · rw [if_pos h, if_pos (by omega)]
    · rw [if_neg h, if_neg (by omega), Nat.add_assoc]
      congr 2
      by_cases hn : e.stop ≤ n
      · rw [← ih e.stop (max ix e.stop) ht hwt (by omega)]
        congr 1
        omega
      · have hz : n - e.stop = 0 := by omega
        rw [eq_nil_of_lt_stop ht hwt (by omega), ofEdits, hz, Splice.transform]
        simp only [List.replicate_zero, transform]
        omega

end Piece

/-- A builder holds the base length and the edits it has accepted. -/
structure EditList (α : Type) where
  len : Nat
  edits : List (Edit α)

/-- Accept an edit that starts at or after the last offset. -/
def EditList.replace (b : EditList α) (s e : Nat) (t : List α) : Option (EditList α) :=
  if Splice.lastOffset 0 b.edits ≤ s then some ⟨b.len, b.edits ++ [⟨s, e, t⟩]⟩ else none

private theorem EditList.replace_of_le (b : EditList α) (s e : Nat) (t : List α)
    (h : Splice.lastOffset 0 b.edits ≤ s) :
    b.replace s e t = some ⟨b.len, b.edits ++ [⟨s, e, t⟩]⟩ := by
  rw [replace, if_pos h]

private theorem EditList.replace_of_lt (b : EditList α) (s e : Nat) (t : List α)
    (h : s < Splice.lastOffset 0 b.edits) : b.replace s e t = none := by
  rw [replace, if_neg (Nat.not_le_of_lt h)]

/-- A single edit inside the base is sorted and starts inside it. -/
theorem Splice.single (s e n : Nat) (t : List α) (hse : s ≤ e) (hen : e ≤ n) :
    Splice.Sorted 0 [(⟨s, e, t⟩ : Edit α)] ∧ Splice.Within n [(⟨s, e, t⟩ : Edit α)] := by
  refine ⟨⟨Nat.zero_le _, hse, True.intro⟩, ?_⟩
  intro a ha
  rw [List.mem_singleton.mp ha]
  exact Nat.le_trans hse hen

/-- Deltas as lists of pieces behave as the editor needs. -/
def XiRope.reference (α : Type) : XiRope α where
  Delta := List (Piece α)
  InsertDelta := List (Option α)
  Subset := List Bool
  DeltaBuilder := EditList α
  baseLen := Piece.baseLen
  apply := Piece.apply
  newDocumentLen := Piece.newLen
  transform := Piece.transform
  simpleEdit s e t n := Piece.ofEdits n 0 [⟨s, e, t⟩]
  factor w := (Piece.inserts w, Piece.deletions w)
  synthesize := Piece.synthesize
  insertBaseLen := Insertion.baseLen
  applyInsert := Insertion.apply
  insertedSubset := List.map Option.isSome
  transformExpandInsert := Insertion.expand
  mask := id
  isEmpty m := !m.any id
  complement := List.map (fun b ↦ !b)
  union := Mask.union
  transformExpand := Mask.expand
  transformShrink s t := Mask.delete t s
  transformUnion s t := Mask.union (Mask.expand s t) t
  deleteFrom := Mask.delete
  newBuilder n := ⟨n, []⟩
  replace := EditList.replace
  delete b s e := EditList.replace b s e []
  build b := Piece.ofEdits b.len 0 b.edits
  builderLen := EditList.len
  edits := EditList.edits
  length_apply := Piece.length_apply
  baseLen_simpleEdit s e t n hse hen := by
    have h := Splice.single s e n t hse hen
    exact Piece.baseLen_ofEdits n 0 _ h.1 h.2
  apply_simpleEdit s e t xs hse hen := by
    have h := Splice.single s e xs.length t hse hen
    have ha := Piece.apply_ofEdits xs 0 _ h.1 h.2
    rw [List.drop_zero] at ha
    exact ha
  insertBaseLen_factor := Piece.baseLen_inserts
  length_mask_factor := Piece.length_deletions
  apply_factor := Piece.apply_factor
  length_insertedSubset := Insertion.length_inserted
  delete_insertedSubset := Insertion.delete_inserted
  insertBaseLen_transformExpandInsert := Insertion.baseLen_expand
  apply_transformExpandInsert := Insertion.delete_apply_expand
  inserted_transformExpandInsert := Insertion.delete_inserted_expand
  baseLen_synthesize := Piece.baseLen_synthesize
  apply_synthesize := Piece.apply_synthesize
  isEmpty_eq _ := rfl
  mask_complement _ := rfl
  mask_union _ _ _ := rfl
  mask_transformExpand _ _ _ := rfl
  mask_transformShrink _ _ _ := rfl
  mask_transformUnion _ _ _ := rfl
  deleteFrom_eq _ _ _ := rfl
  builderLen_newBuilder _ := rfl
  edits_newBuilder _ := rfl
  replace_sorted b s e t h := ⟨_, b.replace_of_le s e t h, rfl, rfl⟩
  replace_unsorted b s e t h := b.replace_of_lt s e t h
  delete_eq _ _ _ := rfl
  baseLen_build b hs hw := Piece.baseLen_ofEdits b.len 0 b.edits hs hw
  apply_build b xs hs hw hl := by
    have h := Piece.apply_ofEdits xs 0 b.edits hs (hl ▸ hw)
    rwa [List.drop_zero, hl] at h
  transform_build b ix hs hw := Piece.transform_ofEdits b.len 0 ix b.edits hs hw (Nat.zero_le _)

end Tofu.Rope

import Mathlib.Data.List.Basic

/-!
# Position masks

A mask marks positions of a sequence: `true` is a marked position. Deleting a mask
drops the marked elements, expanding a mask carries it through the positions that a
second mask adds. The laws below are the coordinate changes needed to invert and to
compose edits that are described by masks over one union sequence.
-/

namespace Tofu.Rope.Mask

variable {α : Type*}

/-- Number of unmarked positions, the length that remains after deletion. -/
def unmarked (m : List Bool) : Nat := m.countP (fun b ↦ !b)

/-- Drop the elements at marked positions. -/
def delete : List Bool → List α → List α
  | true :: m, _ :: xs => delete m xs
  | false :: m, x :: xs => x :: delete m xs
  | _, _ => []

/-- Keep only the elements at marked positions. -/
def select (m : List Bool) (xs : List α) : List α := delete (m.map (fun b ↦ !b)) xs

/-- Carry `m` through the positions added by `t`; the added positions are unmarked. -/
def expand : List Bool → List Bool → List Bool
  | _, [] => []
  | m, true :: t => false :: expand m t
  | b :: m, false :: t => b :: expand m t
  | [], false :: t => false :: expand [] t

/-- Positions marked in either of two masks over one sequence. -/
def union (m n : List Bool) : List Bool := List.zipWith (fun a b ↦ a || b) m n

/-- Two masks over one sequence mark no common position. -/
def Disjoint (m n : List Bool) : Prop := ∀ p ∈ List.zip m n, ¬ (p.1 = true ∧ p.2 = true)

/-- Nothing is unmarked in an empty mask. -/
@[simp] theorem unmarked_nil : unmarked [] = 0 := rfl

/-- A mark does not count. -/
@[simp] theorem unmarked_true (m : List Bool) : unmarked (true :: m) = unmarked m := by
  simp [unmarked]

/-- A position without a mark counts. -/
@[simp] theorem unmarked_false (m : List Bool) :
    unmarked (false :: m) = unmarked m + 1 := by
  simp [unmarked]

/-- An empty mask leaves nothing. -/
@[simp] theorem delete_nil (xs : List α) : delete [] xs = [] := by cases xs <;> rfl

/-- A marked element is dropped. -/
@[simp] theorem delete_true (m : List Bool) (x : α) (xs : List α) :
    delete (true :: m) (x :: xs) = delete m xs := rfl

/-- An unmarked element is kept. -/
@[simp] theorem delete_false (m : List Bool) (x : α) (xs : List α) :
    delete (false :: m) (x :: xs) = x :: delete m xs := rfl

/-- An empty mask selects nothing. -/
@[simp] theorem select_nil (xs : List α) : select [] xs = [] := delete_nil xs

/-- A marked element is selected. -/
@[simp] theorem select_true (m : List Bool) (x : α) (xs : List α) :
    select (true :: m) (x :: xs) = x :: select m xs := rfl

/-- An unmarked element is not. -/
@[simp] theorem select_false (m : List Bool) (x : α) (xs : List α) :
    select (false :: m) (x :: xs) = select m xs := rfl

/-- Over no positions nothing is carried. -/
@[simp] theorem expand_nil (m : List Bool) : expand m [] = [] := by cases m <;> rfl

/-- An added position is unmarked. -/
@[simp] theorem expand_true (m t : List Bool) :
    expand m (true :: t) = false :: expand m t := by cases m <;> rfl

/-- The other positions keep their marks. -/
@[simp] theorem expand_false (b : Bool) (m t : List Bool) :
    expand (b :: m) (false :: t) = b :: expand m t := rfl

/-- The union with an empty mask is empty. -/
@[simp] theorem union_nil (m : List Bool) : union m [] = [] := by cases m <;> rfl

/-- A position is marked when it is in either mask. -/
@[simp] theorem union_cons (a b : Bool) (m n : List Bool) :
    union (a :: m) (b :: n) = (a || b) :: union m n := rfl

/-- A mask and an empty one have no position in common. -/
@[simp] theorem disjoint_nil (m : List Bool) : Disjoint m [] := by
  intro p hp
  simp at hp

/-- Masks are disjoint at the first position and behind it. -/
@[simp] theorem disjoint_cons (a b : Bool) (m n : List Bool) :
    Disjoint (a :: m) (b :: n) ↔ ¬ (a = true ∧ b = true) ∧ Disjoint m n := by
  simp only [Disjoint, List.zip_cons_cons, List.forall_mem_cons]

/-- A law about two sequences of one length is proved position by position. -/
theorem induction₂ {β γ : Type*} {P : List β → List γ → Prop} (hn : P [] [])
    (hc : ∀ b m x xs, P m xs → P (b :: m) (x :: xs)) (m : List β) (xs : List γ)
    (h : m.length = xs.length) : P m xs := by
  induction m generalizing xs with
  | nil =>
    rw [List.eq_nil_of_length_eq_zero h.symm]
    exact hn
  | cons b m ih =>
    cases xs with
    | nil => simp at h
    | cons x xs => exact hc b m x xs (ih xs (Nat.succ.inj h))

/-- Deletion leaves exactly the unmarked positions. -/
theorem length_delete (m : List Bool) (xs : List α) (h : m.length = xs.length) :
    (delete m xs).length = unmarked m := by
  refine induction₂ (P := fun m xs ↦ (delete m xs).length = unmarked m) rfl ?_ m xs h
  intro b m x xs ih
  cases b with
  | true => rw [delete_true, unmarked_true, ih]
  | false => rw [delete_false, unmarked_false, List.length_cons, ih]

/-- Expansion has the length of the mask it expands through. -/
@[simp] theorem length_expand (m t : List Bool) : (expand m t).length = t.length := by
  induction t generalizing m with
  | nil => rw [expand_nil]
  | cons b t ih =>
    cases b with
    | true => rw [expand_true, List.length_cons, ih, List.length_cons]
    | false =>
      cases m with
      | nil => exact congrArg Nat.succ (ih [])
      | cons c m => exact congrArg Nat.succ (ih m)

/-- Union has the common length of its arguments. -/
theorem length_union (m n : List Bool) (h : m.length = n.length) :
    (union m n).length = m.length := by
  rw [union, List.length_zipWith, h, Nat.min_self]

/-- Without a mark every position is left. -/
theorem unmarked_of_not_any (t : List Bool) (hn : t.any id = false) : unmarked t = t.length :=
  List.countP_eq_length.mpr fun b hb ↦ by
    cases b with
    | false => rfl
    | true => exact absurd rfl (List.any_eq_false.mp hn true hb)

/-- Expansion through a mask that marks nothing is the identity. -/
theorem expand_of_not_any (m t : List Bool) (h : m.length = t.length)
    (hn : t.any id = false) : expand m t = m := by
  revert hn
  refine induction₂ (P := fun m t ↦ t.any id = false → expand m t = m) (fun _ ↦ rfl) ?_ m t h
  intro c m b t ih hn
  cases b with
  | true => simp at hn
  | false => rw [expand_false, ih hn]

/-- A law about a mask over the positions another mask leaves, position by position. -/
theorem induction_unmarked {P : List Bool → List Bool → Prop} (hn : P [] [])
    (ht : ∀ m t, P m t → P m (true :: t)) (hf : ∀ b m t, P m t → P (b :: m) (false :: t))
    (m t : List Bool) (h : m.length = unmarked t) : P m t := by
  induction t generalizing m with
  | nil =>
    rw [List.eq_nil_of_length_eq_zero h]
    exact hn
  | cons b t ih =>
    cases b with
    | true => exact ht m t (ih m (by rwa [unmarked_true] at h))
    | false =>
      cases m with
      | nil => simp at h
      | cons c m => exact hf c m t (ih m (by simpa using h))

/-- The elements selected by an expanded mask are those the mask selects after deletion. -/
theorem select_expand (m t : List Bool) (xs : List α) (h : t.length = xs.length)
    (hm : m.length = unmarked t) : select (expand m t) xs = select m (delete t xs) := by
  revert xs
  refine induction_unmarked (P := fun m t ↦ ∀ xs : List α, t.length = xs.length →
    select (expand m t) xs = select m (delete t xs)) ?_ ?_ ?_ m t hm
  · intro xs _
    rw [expand_nil, select_nil, select_nil]
  · intro m t ih xs h
    cases xs with
    | nil => simp at h
    | cons x xs => rw [expand_true, select_false, delete_true, ih xs (Nat.succ.inj h)]
  · intro b m t ih xs h
    cases xs with
    | nil => simp at h
    | cons x xs =>
      have hs := ih xs (Nat.succ.inj h)
      cases b with
      | true => rw [expand_false, select_true, delete_false, select_true, hs]
      | false => rw [expand_false, select_false, delete_false, select_false, hs]

/-- Deleting two masks one after the other deletes the union of their expansions. -/
theorem delete_delete (m t : List Bool) (xs : List α) (h : t.length = xs.length)
    (hm : m.length = unmarked t) :
    delete m (delete t xs) = delete (union (expand m t) t) xs := by
  revert xs
  refine induction_unmarked (P := fun m t ↦ ∀ xs : List α, t.length = xs.length →
    delete m (delete t xs) = delete (union (expand m t) t) xs) ?_ ?_ ?_ m t hm
  · intro xs _
    rw [union_nil, delete_nil, delete_nil]
  · intro m t ih xs h
    cases xs with
    | nil => simp at h
    | cons x xs =>
      rw [delete_true, ih xs (Nat.succ.inj h), expand_true, union_cons, Bool.false_or,
        delete_true]
  · intro b m t ih xs h
    cases xs with
    | nil => simp at h
    | cons x xs =>
      have hs := ih xs (Nat.succ.inj h)
      rw [delete_false, expand_false, union_cons, Bool.or_false]
      cases b with
      | true => rw [delete_true, delete_true, hs]
      | false => rw [delete_false, delete_false, hs]

/-- Deleting a union deletes one part and then what is left of the other. -/
theorem delete_union (p q : List Bool) (xs : List α) (hp : p.length = xs.length)
    (hq : q.length = xs.length) :
    delete (union p q) xs = delete (delete p q) (delete p xs) := by
  refine induction₂ (P := fun p q ↦ ∀ xs : List α, p.length = xs.length →
    q.length = xs.length → delete (union p q) xs = delete (delete p q) (delete p xs))
    ?_ ?_ p q (hp.trans hq.symm) xs hp hq
  · intro xs _ _
    rw [union_nil, delete_nil, delete_nil, delete_nil]
  · intro b p c q ih xs hp hq
    cases xs with
    | nil => simp at hp
    | cons x xs =>
      have hs := ih xs (Nat.succ.inj hp) (Nat.succ.inj hq)
      rw [union_cons]
      cases b with
      | true => rw [Bool.true_or, delete_true, delete_true, delete_true, hs]
      | false =>
        rw [Bool.false_or, delete_false, delete_false]
        cases c with
        | true => rw [delete_true, delete_true, hs]
        | false => rw [delete_false, delete_false, hs]

/-- An expanded mask marks nothing that the expanding mask marks. -/
theorem disjoint_expand (m t : List Bool) (hm : m.length = unmarked t) :
    Disjoint t (expand m t) := by
  refine induction_unmarked (P := fun m t ↦ Disjoint t (expand m t)) ?_ ?_ ?_ m t hm
  · exact disjoint_nil []
  · intro m t ih
    rw [expand_true, disjoint_cons]
    exact ⟨by simp, ih⟩
  · intro b m t ih
    rw [expand_false, disjoint_cons]
    exact ⟨by simp, ih⟩

/-- A law about two masks over the positions a third one leaves, position by position. -/
theorem induction_unmarked₂ {P : List Bool → List Bool → List Bool → Prop} (hn : P [] [] [])
    (ht : ∀ p q t, P p q t → P p q (true :: t))
    (hf : ∀ a b p q t, P p q t → P (a :: p) (b :: q) (false :: t))
    (p q t : List Bool) (hp : p.length = unmarked t) (hq : q.length = unmarked t) :
    P p q t := by
  induction t generalizing p q with
  | nil =>
    rw [List.eq_nil_of_length_eq_zero hp, List.eq_nil_of_length_eq_zero hq]
    exact hn
  | cons b t ih =>
    cases b with
    | true =>
      rw [unmarked_true] at hp hq
      exact ht p q t (ih p q hp hq)
    | false =>
      cases p with
      | nil => simp at hp
      | cons a p =>
        cases q with
        | nil => simp at hq
        | cons c q => exact hf a c p q t (ih p q (by simpa using hp) (by simpa using hq))

/-- Disjointness is kept by expanding both masks through a third. -/
theorem disjoint_expand_expand (p q t : List Bool) (hp : p.length = unmarked t)
    (hq : q.length = unmarked t) (h : Disjoint p q) :
    Disjoint (expand p t) (expand q t) := by
  revert h
  refine induction_unmarked₂ (P := fun p q t ↦ Disjoint p q →
    Disjoint (expand p t) (expand q t)) (fun h ↦ h) ?_ ?_ p q t hp hq
  · intro p q t ih h
    rw [expand_true, expand_true, disjoint_cons]
    exact ⟨by simp, ih h⟩
  · intro a b p q t ih h
    rw [disjoint_cons] at h
    rw [expand_false, expand_false, disjoint_cons]
    exact ⟨h.1, ih h.2⟩

/-- A union is disjoint from a mask when both its parts are. -/
theorem disjoint_union (p q d : List Bool) (hp : p.length = d.length)
    (hq : q.length = d.length) (hpd : Disjoint p d) (hqd : Disjoint q d) :
    Disjoint (union p q) d := by
  revert hpd hqd
  refine induction₂ (P := fun p q ↦ ∀ d : List Bool, p.length = d.length →
    Disjoint p d → Disjoint q d → Disjoint (union p q) d) ?_ ?_ p q (hp.trans hq.symm) d hp
  · intro d _ h _
    exact h
  · intro a p b q ih d hd hp hq
    cases d with
    | nil => simp at hd
    | cons c d =>
      rw [disjoint_cons] at hp hq
      rw [union_cons, disjoint_cons]
      refine ⟨?_, ih d (Nat.succ.inj hd) hp.2 hq.2⟩
      rintro ⟨hab, hc⟩
      rcases Bool.or_eq_true _ _ ▸ hab with ha | hb
      · exact hp.1 ⟨ha, hc⟩
      · exact hq.1 ⟨hb, hc⟩

/-- A mask disjoint from `q` selects the same elements before and after deleting `q`. -/
theorem select_delete (p q : List Bool) (xs : List α) (hp : p.length = xs.length)
    (hq : q.length = xs.length) (h : Disjoint p q) :
    select (delete q p) (delete q xs) = select p xs := by
  revert h
  refine induction₂ (P := fun p q ↦ ∀ xs : List α, p.length = xs.length →
    Disjoint p q → select (delete q p) (delete q xs) = select p xs)
    ?_ ?_ p q (hp.trans hq.symm) xs hp
  · intro xs _ _
    rw [delete_nil, select_nil, select_nil]
  · intro b p c q ih xs hp h
    cases xs with
    | nil => simp at hp
    | cons x xs =>
      rw [disjoint_cons] at h
      have hs := ih xs (Nat.succ.inj hp) h.2
      cases c with
      | true =>
        cases b with
        | true => exact absurd ⟨rfl, rfl⟩ h.1
        | false => rw [delete_true, delete_true, select_false, hs]
      | false =>
        rw [delete_false, delete_false]
        cases b with
        | true => rw [select_true, select_true, hs]
        | false => rw [select_false, select_false, hs]

/-- Deleting an expanded mask from another expansion commutes with expansion. -/
theorem delete_expand_expand (a b n : List Bool) (ha : a.length = unmarked n)
    (hb : b.length = unmarked n) :
    delete (expand a n) (expand b n) = expand (delete a b) (delete (expand a n) n) := by
  refine induction_unmarked₂ (P := fun a b n ↦ delete (expand a n) (expand b n) =
    expand (delete a b) (delete (expand a n) n)) rfl ?_ ?_ a b n ha hb
  · intro a b n ih
    rw [expand_true, expand_true, delete_false, delete_false, ih, expand_true]
  · intro c d a b n ih
    rw [expand_false, expand_false]
    cases c with
    | true => rw [delete_true, delete_true, delete_true, ih]
    | false => rw [delete_false, delete_false, delete_false, ih, expand_false]

/-- A mask carried through two expansions loses the first one again by deletion. -/
theorem delete_expand_twice (a b n : List Bool) (ha : a.length = unmarked n)
    (hb : b.length = unmarked a) :
    delete (expand a n) (expand (expand b a) n) = expand b (delete (expand a n) n) := by
  have he : (expand b a).length = unmarked n := (length_expand b a).trans ha
  rw [delete_expand_expand a (expand b a) n ha he]
  congr 1
  -- Deleting a mask from its own expansion gives the expanded mask back.
  refine induction_unmarked (P := fun b a ↦ delete a (expand b a) = b) rfl ?_ ?_ b a hb
  · intro b a ih
    rw [expand_true, delete_true, ih]
  · intro c b a ih
    rw [expand_false, delete_false, ih]

/-- Deleting a third mask distributes over union. -/
theorem delete_union_right (d p q : List Bool) (hp : p.length = d.length)
    (hq : q.length = d.length) :
    delete d (union p q) = union (delete d p) (delete d q) := by
  refine induction₂ (P := fun p q ↦ ∀ d : List Bool, p.length = d.length →
    delete d (union p q) = union (delete d p) (delete d q)) ?_ ?_ p q (hp.trans hq.symm) d hp
  · intro d hd
    rw [List.eq_nil_of_length_eq_zero hd.symm]
    rfl
  · intro a p b q ih d hd
    cases d with
    | nil => simp at hd
    | cons c d =>
      have hs := ih d (Nat.succ.inj hd)
      rw [union_cons]
      cases c with
      | true => rw [delete_true, delete_true, delete_true, hs]
      | false => rw [delete_false, delete_false, delete_false, union_cons, hs]

end Tofu.Rope.Mask

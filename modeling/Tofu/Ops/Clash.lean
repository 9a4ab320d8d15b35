import Tofu.Ops.Carets

/-!
# Edits that make regions clash

Which selections an edit at the carets makes `SelRegion::merge` panic on. Deleting under
the carets joins a forward region to the neighbour behind it, deleting before the carets
joins a backward region to the neighbour before it, and setting the carets back behind a
half byte does both. A clash is a stretch of joined regions that holds two which, after
the edit, are longer than one offset and point different ways.
-/

namespace Tofu

open Rope SelRegion

variable {X : XiRope UInt8} {d : X.Delta} {n : Nat} {es : List (Edit UInt8)}

/-! ## Removing the byte under each caret -/

/-- Nothing is left between the regions when the byte under the first one's caret goes. -/
def DeleteJoins (a b : SelRegion) : Prop := b.min = a.max + 1 ∧ a.tail ≤ a.caret

/-- The regions are opposed once the byte under each caret is gone. -/
def DeleteOpposed (a b : SelRegion) : Prop :=
  (a.StrictForward ∧ b.caret + 2 ≤ b.tail) ∨ (a.caret + 2 ≤ a.tail ∧ b.StrictForward)

/-- Nothing is left between the regions when the byte before the second one's caret goes. -/
def BackspaceJoins (a b : SelRegion) : Prop := b.min = a.max + 1 ∧ b.caret ≤ b.tail

/-- The regions are opposed once the byte before each caret is gone. -/
def BackspaceOpposed (a b : SelRegion) : Prop :=
  (a.tail + 2 ≤ a.caret ∧ b.StrictBackward) ∨ (a.StrictBackward ∧ b.tail + 2 ≤ b.caret)

/-- The regions touch when the carets go back onto the bytes put for those under them. -/
def HalfJoins (a b : SelRegion) : Prop :=
  b.min = a.max + 1 ∧ ¬ a.StrictBackward ∧ ¬ (a.StrictForward ∧ b.StrictForward)

/-- One caret behind its tail and one not: a cursor points backward once its caret is set
back. -/
def HalfOpposed (a b : SelRegion) : Prop :=
  (a.StrictForward ∧ ¬ b.StrictForward) ∨ (¬ a.StrictForward ∧ b.StrictForward)

instance : DecidableRel DeleteJoins := fun _ _ ↦ inferInstanceAs (Decidable (_ ∧ _))

instance : DecidableRel DeleteOpposed := fun _ _ ↦ inferInstanceAs (Decidable (_ ∨ _))

instance : DecidableRel BackspaceJoins := fun _ _ ↦ inferInstanceAs (Decidable (_ ∧ _))

instance : DecidableRel BackspaceOpposed := fun _ _ ↦ inferInstanceAs (Decidable (_ ∨ _))

instance : DecidableRel HalfJoins := fun _ _ ↦ inferInstanceAs (Decidable (_ ∧ _ ∧ _))

instance : DecidableRel HalfOpposed := fun _ _ ↦ inferInstanceAs (Decidable (_ ∨ _))

section Delete

variable {l : List SelRegion} {a b r : SelRegion} (h : Makes d n es) (hl : l.Pairwise Before)
  (hb : ∀ r ∈ l, r.InBounds n) (hrem : ∀ x < n, Splice.Removes es x ↔ CaretAt l x)
include h hl hb hrem

omit h hb in
private theorem removes_iff_caret (hr : r ∈ l) {x : Nat} (h1 : r.min ≤ x) (h2 : x ≤ r.max)
    (h3 : x < n) : Splice.Removes es x ↔ r.caret = x :=
  (hrem x h3).trans (caretAt_iff hl hr h1 h2)

private theorem delete_strictForward_iff (hr : r ∈ l) :
    (carried n es r).StrictForward ↔ r.StrictForward := by
  have hin := hb r hr
  rw [strictForward_carried_iff h hin]
  constructor
  · rintro ⟨x, h1, h2, _⟩
    exact Nat.lt_of_le_of_lt h1 h2
  · intro (hlt : r.tail < r.caret)
    refine ⟨r.tail, Nat.le_refl _, hlt, ?_⟩
    rw [removes_iff_caret hl hrem hr r.min_le_tail r.tail_le_max
      (Nat.lt_of_lt_of_le hlt hin.1)]
    exact Nat.ne_of_gt hlt

private theorem delete_strictBackward_iff (hr : r ∈ l) :
    (carried n es r).StrictBackward ↔ r.caret + 2 ≤ r.tail := by
  obtain ⟨hc, ht⟩ := hb r hr
  have hmin := r.min_le_caret
  have hmax := r.tail_le_max
  have hiff : ∀ x, r.caret ≤ x → x < r.tail → (Splice.Removes es x ↔ r.caret = x) := fun x h1 h2 ↦
    removes_iff_caret hl hrem hr (by omega) (by omega) (by omega)
  rw [strictBackward_carried_iff h (hb r hr)]
  constructor
  · rintro ⟨x, h1, h2, h3⟩
    rw [hiff x h1 h2] at h3
    omega
  · intro hlt
    refine ⟨r.caret + 1, by omega, by omega, ?_⟩
    rw [hiff _ (by omega) (by omega)]
    omega

omit h in
private theorem removes_between_iff (ha : a ∈ l) (hbl : b ∈ l) (hab : Before a b)
    (hgap : ∀ c ∈ l, c = a ∨ c = b ∨ Before c a ∨ Before b c) :
    (∀ x, a.max ≤ x → x < b.min → Splice.Removes es x) ↔ DeleteJoins a b := by
  have hbn : b.min ≤ n := Nat.le_trans b.min_le_caret (hb b hbl).1
  have hac := a.caret_le_max
  have hlt : a.max < b.min := hab
  have hat : Splice.Removes es a.max ↔ a.caret = a.max :=
    removes_iff_caret hl hrem ha a.min_le_max (Nat.le_refl _) (by omega)
  rw [DeleteJoins]
  constructor
  · intro hall
    have hcar := hat.mp (hall a.max (Nat.le_refl _) hlt)
    refine ⟨?_, hcar ▸ a.tail_le_max⟩
    by_contra hne
    refine not_caretAt_between hgap (Nat.lt_succ_self a.max) (by omega) ?_
    exact (hrem _ (by omega)).mp (hall (a.max + 1) (by omega) (by omega))
  · rintro ⟨heq, hft⟩ x h1 h2
    obtain rfl : x = a.max := by omega
    rw [hat, SelRegion.max]
    omega

/-- Where the bytes under the carets are removed, the update clashes on joined regions. -/
theorem clashOn_carried_iff_delete :
    ClashOn Touch Opposed (l.map (carried n es)) ↔ ClashOn DeleteJoins DeleteOpposed l := by
  rw [clashOn_map]
  refine clashOn_congr ((isChain_neighbours hl).imp ?_) (hl.imp_of_mem ?_)
  · rintro a b ⟨ha, hbl, hab, hgap⟩
    exact (touch_carried_iff h hab (hb b hbl)).trans
      (removes_between_iff hl hb hrem ha hbl hab hgap)
  · intro a b ha hbl _
    rw [Opposed, DeleteOpposed, delete_strictForward_iff h hl hb hrem ha,
      delete_strictBackward_iff h hl hb hrem hbl, delete_strictBackward_iff h hl hb hrem ha,
      delete_strictForward_iff h hl hb hrem hbl]

end Delete

/-! ## Removing the byte before each caret -/

section Backspace

variable {l : List SelRegion} {a b r : SelRegion} (h : Makes d n es) (hl : l.Pairwise Before)
  (hb : ∀ r ∈ l, r.InBounds n) (hrem : ∀ x < n, Splice.Removes es x ↔ CaretAt l (x + 1))
include h hl hb hrem

private theorem backspace_strictForward_iff (hr : r ∈ l) :
    (carried n es r).StrictForward ↔ r.tail + 2 ≤ r.caret := by
  obtain ⟨hc, ht⟩ := hb r hr
  have hmin := r.min_le_tail
  have hmax := r.caret_le_max
  have hiff : ∀ x, r.tail ≤ x → x < r.caret → (Splice.Removes es x ↔ r.caret = x + 1) :=
    fun x h1 h2 ↦ (hrem x (by omega)).trans (caretAt_iff hl hr (by omega) (by omega))
  rw [strictForward_carried_iff h (hb r hr)]
  constructor
  · rintro ⟨x, h1, h2, h3⟩
    rw [hiff x h1 h2] at h3
    omega
  · intro hlt
    refine ⟨r.tail, Nat.le_refl _, by omega, ?_⟩
    rw [hiff _ (Nat.le_refl _) (by omega)]
    omega

private theorem backspace_strictBackward_iff (hr : r ∈ l) :
    (carried n es r).StrictBackward ↔ r.StrictBackward := by
  obtain ⟨hc, ht⟩ := hb r hr
  rw [strictBackward_carried_iff h (hb r hr)]
  constructor
  · rintro ⟨x, h1, h2, _⟩
    exact Nat.lt_of_le_of_lt h1 h2
  · intro (hlt : r.caret < r.tail)
    have hmin := r.min_le_caret
    have hmax := r.tail_le_max
    refine ⟨r.caret, Nat.le_refl _, hlt, ?_⟩
    rw [hrem _ (by omega), caretAt_iff hl hr (by omega) (by omega)]
    omega

private theorem backspace_touch_iff (hbl : b ∈ l) (hab : Before a b)
    (hgap : ∀ c ∈ l, c = a ∨ c = b ∨ Before c a ∨ Before b c) :
    Touch (carried n es a) (carried n es b) ↔ BackspaceJoins a b := by
  have hin := hb b hbl
  have hbn : b.min ≤ n := Nat.le_trans b.min_le_caret hin.1
  have hbmax := b.min_le_max
  have hlt : a.max < b.min := hab
  have hat : ∀ x, x + 1 = b.min → (Splice.Removes es x ↔ b.caret = b.min) := fun x hx ↦ by
    rw [hrem x (by omega), hx, caretAt_iff hl hbl (Nat.le_refl _) hbmax]
  rw [touch_carried_iff h hab hin, BackspaceJoins]
  constructor
  · intro hall
    have hcar := (hat (b.min - 1) (by omega)).mp (hall (b.min - 1) (by omega) (by omega))
    refine ⟨?_, hcar ▸ b.min_le_tail⟩
    by_contra hne
    refine not_caretAt_between hgap (Nat.lt_succ_self a.max) (by omega) ?_
    exact (hrem _ (by omega)).mp (hall a.max (Nat.le_refl _) hlt)
  · rintro ⟨heq, hft⟩ x h1 h2
    rw [hat x (by omega), SelRegion.min]
    omega

/-- Where the bytes before the carets are removed, the update clashes on joined regions. -/
theorem clashOn_carried_iff_backspace :
    ClashOn Touch Opposed (l.map (carried n es)) ↔ ClashOn BackspaceJoins BackspaceOpposed l := by
  rw [clashOn_map]
  refine clashOn_congr ((isChain_neighbours hl).imp ?_) (hl.imp_of_mem ?_)
  · rintro a b ⟨ha, hbl, hab, hgap⟩
    exact backspace_touch_iff h hl hb hrem hbl hab hgap
  · intro a b ha hbl _
    rw [Opposed, BackspaceOpposed, backspace_strictForward_iff h hl hb hrem ha,
      backspace_strictBackward_iff h hl hb hrem hbl, backspace_strictBackward_iff h hl hb hrem ha,
      backspace_strictForward_iff h hl hb hrem hbl]

end Backspace

/-! ## Removing nothing -/

/-- Where nothing is removed, regions stay apart. -/
theorem not_clashOn_carried_of_kept {l : List SelRegion} (h : Makes d n es)
    (hl : l.Pairwise Before) (hb : ∀ r ∈ l, r.InBounds n)
    (hkeep : ∀ x < n, ¬ Splice.Removes es x) :
    ¬ ClashOn Touch Opposed (l.map (carried n es)) := by
  rw [clashOn_map]
  refine not_clashOn_of_isChain ((isChain_neighbours hl).imp ?_)
  rintro a b ⟨-, hbl, hab, -⟩ ht
  have hlt : a.max < n := Nat.lt_of_lt_of_le hab (Nat.le_trans b.min_le_caret (hb b hbl).1)
  exact hkeep a.max hlt ((touch_carried_iff h hab (hb b hbl)).mp ht a.max (Nat.le_refl _) hab)

/-! ## Setting the carets back -/

section Half

variable {l : List SelRegion} {a b r : SelRegion} (h : Makes d n es) (hl : l.Pairwise Before)
  (hb : ∀ r ∈ l, r.InBounds n)
  (hedit : ∀ r ∈ l, ∃ e ∈ es, e.start = r.caret ∧ e.text.length = 1)
include h hedit

/-- The caret lands behind the text put at it. -/
theorem one_le_transform_caret (hr : r ∈ l) : 1 ≤ Splice.transform n 0 es r.caret := by
  obtain ⟨e, he, hs, ht⟩ := hedit r hr
  rw [← hs, ← ht]
  exact Splice.text_le_transform n es 0 h.sorted e he

private theorem kept_before_caret (hr : r ∈ l) {p : Nat} (hk : ¬ Splice.Removes es p)
    (hp : p < r.caret) :
    Splice.transform n 0 es p + 2 ≤ Splice.transform n 0 es r.caret := by
  obtain ⟨e, he, hs, ht⟩ := hedit r hr
  have hle := Splice.transform_add_text_le n es 0 p h.sorted (Nat.zero_le _) hk e he (hs ▸ hp)
  rwa [ht, hs] at hle

include hl hb

/-- Where nothing is removed, regions stay apart when the carets go back onto the new
bytes. -/
theorem not_clashOn_carriedBack_of_kept (hkeep : ∀ x < n, ¬ Splice.Removes es x) :
    ¬ ClashOn Touch Opposed (l.map (carriedBack n es)) := by
  rw [clashOn_map]
  refine not_clashOn_of_isChain ((isChain_neighbours hl).imp ?_)
  rintro a b ⟨-, hbl, hab, -⟩
  have hlt : a.max < b.min := hab
  have hbc := b.min_le_caret
  have hk : ¬ Splice.Removes es a.max := hkeep _ (by have := (hb b hbl).1; omega)
  have h1 := kept_before_caret h hedit hbl hk (by omega)
  have h2 : Splice.transform n 0 es a.max < Splice.transform n 0 es b.tail :=
    Splice.transform_lt_of_kept n es 0 _ _ h.sorted (Nat.zero_le _)
      (by have := (hb b hbl).1; omega) hk (by have := b.min_le_tail; omega)
  have h3 := h.mono a.caret_le_max
  have h4 := h.mono a.tail_le_max
  simp only [Touch, carriedBack, min_new, max_new]
  omega

variable (hrem : ∀ x < n, Splice.Removes es x ↔ CaretAt l x)
include hrem

omit h hb hedit in
private theorem kept_tail (hr : r ∈ l) (hne : r.tail ≠ r.caret) (ht : r.tail < n) :
    ¬ Splice.Removes es r.tail := by
  rw [removes_iff_caret hl hrem hr r.min_le_tail r.tail_le_max ht]
  exact hne.symm

private theorem tail_of_strictForward (hr : r ∈ l) (hf : r.StrictForward) :
    Splice.transform n 0 es r.tail + 2 ≤ Splice.transform n 0 es r.caret :=
  kept_before_caret h hedit hr
    (kept_tail hl hrem hr (Nat.ne_of_lt hf) (Nat.lt_of_lt_of_le hf (hb r hr).1)) hf

private theorem half_strictForward_iff (hr : r ∈ l) :
    (carriedBack n es r).StrictForward ↔ r.StrictForward := by
  simp only [carriedBack, StrictForward, caret_new, tail_new]
  constructor
  · intro hlt
    by_contra hc
    have := h.mono (Nat.not_lt.mp hc)
    omega
  · intro hf
    have := tail_of_strictForward h hl hb hedit hrem hr hf
    omega

private theorem half_strictBackward_iff (hr : r ∈ l) :
    (carriedBack n es r).StrictBackward ↔ ¬ r.StrictForward := by
  simp only [carriedBack, StrictBackward, caret_new, tail_new]
  constructor
  · intro hlt hf
    have := tail_of_strictForward h hl hb hedit hrem hr hf
    omega
  · intro hf
    have h1 := h.mono (Nat.not_lt.mp hf)
    have h2 := one_le_transform_caret h hedit hr
    omega

private theorem min_carriedBack (hr : r ∈ l) :
    (carriedBack n es r).min =
      if r.StrictForward then Splice.transform n 0 es r.min
      else Splice.transform n 0 es r.min - 1 := by
  simp only [carriedBack, min_new]
  split
  · next hf =>
    have := tail_of_strictForward h hl hb hedit hrem hr hf
    rw [show r.min = r.tail from Nat.min_eq_right (Nat.le_of_lt hf)]
    omega
  · next hf =>
    have := h.mono (Nat.not_lt.mp hf)
    rw [show r.min = r.caret from Nat.min_eq_left (Nat.not_lt.mp hf)]
    omega

private theorem max_carriedBack (hr : r ∈ l) :
    (carriedBack n es r).max =
      if r.StrictForward then Splice.transform n 0 es r.max - 1
      else Splice.transform n 0 es r.max := by
  simp only [carriedBack, max_new]
  split
  · next hf =>
    have := tail_of_strictForward h hl hb hedit hrem hr hf
    rw [show r.max = r.caret from Nat.max_eq_left (Nat.le_of_lt hf)]
    omega
  · next hf =>
    have := h.mono (Nat.not_lt.mp hf)
    rw [show r.max = r.tail from Nat.max_eq_right (Nat.not_lt.mp hf)]
    omega

private theorem half_touch_iff (ha : a ∈ l) (hbl : b ∈ l) (hab : Before a b)
    (hgap : ∀ c ∈ l, c = a ∨ c = b ∨ Before c a ∨ Before b c) :
    Touch (carriedBack n es a) (carriedBack n es b) ↔ HalfJoins a b := by
  have hlt : a.max < b.min := hab
  have hbn : b.min ≤ n := Nat.le_trans b.min_le_caret (hb b hbl).1
  have hmono := h.mono (Nat.le_of_lt hlt)
  have hone := one_le_transform_caret h hedit ha
  have hcar := h.mono a.caret_le_max
  -- the regions end up at one offset exactly when they are joined as by a deletion
  have hjoin : Splice.transform n 0 es a.max = Splice.transform n 0 es b.min ↔ DeleteJoins a b :=
    (h.transform_eq_iff (Nat.le_of_lt hlt) hbn).trans
      (removes_between_iff hl hb hrem ha hbl hab hgap)
  -- something kept before the caret of the second region keeps them two apart
  have hkept : ¬ b.StrictForward → Splice.transform n 0 es a.max ≠ Splice.transform n 0 es b.min →
      Splice.transform n 0 es a.max + 2 ≤ Splice.transform n 0 es b.min := by
    intro hf hne
    rw [Ne, h.transform_eq_iff (Nat.le_of_lt hlt) hbn] at hne
    push Not at hne
    obtain ⟨p, h1, h2, hk⟩ := hne
    rw [show b.min = b.caret from Nat.min_eq_left (Nat.not_lt.mp hf)] at h2 ⊢
    exact Nat.le_trans (Nat.add_le_add_right (h.mono h1) 2) (kept_before_caret h hedit hbl hk h2)
  rw [Touch, min_carriedBack h hl hb hedit hrem hbl, max_carriedBack h hl hb hedit hrem ha]
  generalize Splice.transform n 0 es a.max = A at *
  generalize Splice.transform n 0 es b.min = B at *
  unfold DeleteJoins at hjoin
  unfold HalfJoins StrictBackward
  by_cases hg : b.StrictForward
  · rw [if_pos hg]
    by_cases hf : a.StrictForward
    · rw [if_pos hf]
      simp only [hf, hg, and_self, not_true, and_false, iff_false]
      omega
    · rw [if_neg hf]
      unfold StrictForward at hf ⊢
      constructor <;> omega
  · have hkept := hkept hg
    rw [if_neg hg]
    split <;> unfold StrictForward at * <;> constructor <;> omega

/-- Where the bytes under the carets are replaced and the carets set back onto the new
ones, the update clashes on joined regions. -/
theorem clashOn_carriedBack_iff_half :
    ClashOn Touch Opposed (l.map (carriedBack n es)) ↔ ClashOn HalfJoins HalfOpposed l := by
  rw [clashOn_map]
  refine clashOn_congr ((isChain_neighbours hl).imp ?_) (hl.imp_of_mem ?_)
  · rintro a b ⟨ha, hbl, hab, hgap⟩
    exact half_touch_iff h hl hb hedit hrem ha hbl hab hgap
  · intro a b ha hbl _
    rw [Opposed, HalfOpposed, half_strictForward_iff h hl hb hedit hrem ha,
      half_strictBackward_iff h hl hb hedit hrem hbl,
      half_strictBackward_iff h hl hb hedit hrem ha,
      half_strictForward_iff h hl hb hedit hrem hbl]

end Half

/-! ## What each operation removes -/

namespace Ops

variable (l : List SelRegion)

/-- `delete_cursor` removes the byte under each caret. -/
theorem removes_deleteCursor {n x : Nat} (hx : x < n) :
    Splice.Removes (l.filterMap (deleteCursorEdit n)) x ↔ CaretAt l x := by
  simp only [Splice.Removes, CaretAt, List.mem_filterMap]
  constructor
  · rintro ⟨e, ⟨r, hr, he⟩, h1, h2⟩
    unfold deleteCursorEdit at he
    split at he <;> simp only [reduceCtorEq, Option.some.injEq] at he
    subst he
    exact ⟨r, hr, by simp only at h1 h2; omega⟩
  · rintro ⟨r, hr, rfl⟩
    exact ⟨_, ⟨r, hr, if_pos hx⟩, Nat.le_refl _, Nat.lt_succ_self _⟩

/-- `backspace` removes the byte before each caret. -/
theorem removes_backspace (x : Nat) :
    Splice.Removes (l.filterMap backspaceEdit) x ↔ CaretAt l (x + 1) := by
  simp only [Splice.Removes, CaretAt, List.mem_filterMap]
  constructor
  · rintro ⟨e, ⟨r, hr, he⟩, h1, h2⟩
    unfold backspaceEdit at he
    split at he <;> simp only [reduceCtorEq, Option.some.injEq] at he
    subst he
    exact ⟨r, hr, by simp only at h1 h2; omega⟩
  · rintro ⟨r, hr, hc⟩
    exact ⟨_, ⟨r, hr, if_neg (by omega)⟩, by simp only; omega, by simp only; omega⟩

/-- `change` removes the byte under each caret, and puts another in its place. -/
theorem removes_change (text : SelRegion → List UInt8) (x : Nat) :
    Splice.Removes (l.filterMap (changeEdit text)) x ↔ CaretAt l x := by
  simp only [Splice.Removes, CaretAt, List.mem_filterMap]
  constructor
  · rintro ⟨e, ⟨r, hr, ⟨rfl⟩⟩, h1, h2⟩
    exact ⟨r, hr, by simp only at h1 h2; omega⟩
  · rintro ⟨r, hr, rfl⟩
    exact ⟨_, ⟨r, hr, rfl⟩, Nat.le_refl _, Nat.lt_succ_self _⟩

/-- `insert` removes nothing. -/
theorem not_removes_insert (text : List UInt8) (x : Nat) :
    ¬ Splice.Removes (l.filterMap (insertEdit text)) x := by
  rintro ⟨e, he, h1, h2⟩
  obtain ⟨r, hr, ⟨rfl⟩⟩ := List.mem_filterMap.mp he
  exact absurd h2 (Nat.not_lt.mpr h1)

end Ops

end Tofu

import Tofu.Ops.Operations

/-!
# Carets carried through an edit

How `Selection::apply_delta` and `apply_delta_offset_carets` move the regions when the
delta makes the edits of an operation. Carets and tails keep their order, so the update
can only panic where two regions come to touch: everything between them was removed.
-/

namespace Tofu

open Rope SelRegion

variable {X : XiRope UInt8} {d : X.Delta} {n : Nat} {es : List (Edit UInt8)}

/-! ## The region an edit leaves -/

/-- Caret and tail carried through the edits. -/
def carried (n : Nat) (es : List (Edit UInt8)) (r : SelRegion) : SelRegion :=
  SelRegion.new (Splice.transform n 0 es r.caret) (Splice.transform n 0 es r.tail)

/-- The same, with the caret one further back. -/
def carriedBack (n : Nat) (es : List (Edit UInt8)) (r : SelRegion) : SelRegion :=
  SelRegion.new (Splice.transform n 0 es r.caret - 1) (Splice.transform n 0 es r.tail)

/-- Offsets are carried in order. -/
theorem Makes.mono (h : Makes d n es) {p q : Nat} (hpq : p ≤ q) :
    Splice.transform n 0 es p ≤ Splice.transform n 0 es q :=
  Splice.transform_mono n es 0 p q h.sorted (Nat.zero_le _) hpq

/-- No offset is carried behind the end. -/
theorem Makes.transform_le (h : Makes d n es) (p : Nat) :
    Splice.transform n 0 es p ≤ Splice.transform n 0 es n :=
  Splice.transform_le n es 0 p n h.sorted h.within (Nat.zero_le _) (Nat.le_refl _)

/-- A delta moves the regions of a selection as its edits move offsets. -/
theorem Makes.applyDelta_eq (h : Makes d n es) (sel : Selection) :
    sel.applyDelta X d n =
      if Splice.transform n 0 es n = 0 then some sel.clear
      else sel.mapRegions fun r ↦ [carried n es r] := by
  simp only [Selection.applyDelta, Selection.map_snd_mapSelections, h.newDocumentLen, h.transform]
  congr 1
  refine Selection.mapRegions_congr fun r hr ↦ ?_
  have hpoint : ∀ p,
      (if n = p then Splice.transform n 0 es n
        else min (Splice.transform n 0 es n) (Splice.transform n 0 es p)) =
      Splice.transform n 0 es p := by
    intro p
    split
    · next heq => rw [heq]
    · exact Nat.min_eq_right (h.transform_le p)
  rw [hpoint, hpoint, carried]

private theorem asUsize_sub_one {p : Nat} (h1 : 1 ≤ p) (h2 : p < 2 ^ 63) :
    asUsize (isizeAdd (asIsize p) (-1)) = p - 1 := by
  have := asUsize_isizeAdd (b := -1) h2 (by omega) (by omega)
  omega

private theorem asUsize_add_zero {p : Nat} (h : p < 2 ^ 63) :
    asUsize (isizeAdd (asIsize p) 0) = p := by
  have := asUsize_isizeAdd (b := 0) h (by omega) (by omega)
  omega

/-- The same with the carets set back by one, where text was put before each of them. -/
theorem Makes.applyDeltaOffsetCarets_eq (h : Makes d n es) {sel : Selection}
    (hlen : Splice.transform n 0 es n < 2 ^ 63)
    (hc : ∀ r ∈ sel.regions, 1 ≤ Splice.transform n 0 es r.caret) :
    sel.applyDeltaOffsetCarets X d (-1) 0 n =
      if Splice.transform n 0 es n = 0 then some sel.clear
      else sel.mapRegions fun r ↦ [carriedBack n es r] := by
  simp only [Selection.applyDeltaOffsetCarets, Selection.map_snd_mapSelections,
    h.newDocumentLen, h.transform]
  congr 1
  refine Selection.mapRegions_congr fun r hr ↦ ?_
  have hlt : ∀ p, Splice.transform n 0 es p < 2 ^ 63 := fun p ↦
    Nat.lt_of_le_of_lt (h.transform_le p) hlen
  have hcaret : (if n = r.caret then asUsize (isizeAdd (asIsize (Splice.transform n 0 es n)) (-1))
        else min (Splice.transform n 0 es n)
          (asUsize (isizeAdd (asIsize (Splice.transform n 0 es r.caret)) (-1)))) =
      Splice.transform n 0 es r.caret - 1 := by
    rw [asUsize_sub_one (hc r hr) (hlt _)]
    split
    · next heq =>
      rw [congrArg (Splice.transform n 0 es) heq, asUsize_sub_one (hc r hr) (hlt _)]
    · have := h.transform_le r.caret
      exact Nat.min_eq_right (by omega)
  have htail : (if n = r.tail then asUsize (isizeAdd (asIsize (Splice.transform n 0 es n)) 0)
        else min (Splice.transform n 0 es n)
          (asUsize (isizeAdd (asIsize (Splice.transform n 0 es r.tail)) 0))) =
      Splice.transform n 0 es r.tail := by
    rw [asUsize_add_zero (hlt _), asUsize_add_zero (hlt _)]
    split
    · next heq => rw [heq]
    · exact Nat.min_eq_right (h.transform_le r.tail)
  rw [hcaret, htail, carriedBack]

/-! ## What is left after the update -/

private theorem Makes.inBounds_carried (h : Makes d n es) (r : SelRegion) :
    (carried n es r).InBounds (Splice.transform n 0 es n) :=
  ⟨h.transform_le _, h.transform_le _⟩

private theorem Makes.inBounds_carriedBack (h : Makes d n es) (r : SelRegion) :
    (carriedBack n es r).InBounds (Splice.transform n 0 es n) :=
  ⟨Nat.le_trans (Nat.sub_le _ _) (h.transform_le _), h.transform_le _⟩

private theorem Makes.notBehind_carried (h : Makes d n es) {a b : SelRegion} (hab : Before a b) :
    NotBehind (carried n es a) (carried n es b) := by
  have hc := h.mono (Nat.le_of_lt hab.caret_lt)
  have ht := h.mono (Nat.le_of_lt hab.tail_lt)
  simp only [NotBehind, carried, min_new, max_new]
  omega

private theorem Makes.notBehind_carriedBack (h : Makes d n es) {a b : SelRegion}
    (hab : Before a b) :
    NotBehind (carriedBack n es a) (carriedBack n es b) := by
  have hc := h.mono (Nat.le_of_lt hab.caret_lt)
  have ht := h.mono (Nat.le_of_lt hab.tail_lt)
  simp only [NotBehind, carriedBack, min_new, max_new]
  omega

/-- A region update that keeps the order of the regions and stays in the new document
panics exactly on a clash, and leaves a valid selection in the new document otherwise. -/
theorem Selection.Valid.update {g : SelRegion → SelRegion} {sel : Selection} {m : Nat}
    (hv : sel.Valid) (hm : ∀ r, (g r).main = false)
    (ho : ∀ a b, Before a b → NotBehind (g a) (g b)) (hb : ∀ r, (g r).InBounds m) :
    ((sel.mapRegions fun r ↦ [g r]) = none ↔ ClashOn Touch Opposed (sel.regions.map g)) ∧
    ∀ sel', (sel.mapRegions fun r ↦ [g r]) = some sel' → sel'.Valid ∧ sel'.Placed m := by
  have hs : sel.regions.Pairwise fun a b ↦ NotBehind (g a) (g b) := hv.sorted.imp (ho _ _)
  constructor
  · rw [← Option.not_isSome_iff_eq_none, Selection.isSome_mapRegions_iff (List.pairwise_map.mpr hs),
      not_not]
  · intro sel' h
    have hv' := hv.mapRegions h (fun r _ ht ↦ by simp [hm r] at ht) (.inl (hs.imp fun hab ↦ hab.1))
    refine ⟨hv', hv'.sorted, Selection.inBounds_mapRegions h fun r _ s hs ↦ ?_⟩
    rw [List.mem_singleton.mp hs]
    exact hb r

private theorem Selection.valid_clear (sel : Selection) (m : Nat) :
    sel.clear.Valid ∧ sel.clear.Placed m := by
  refine ⟨show Selection.new.Valid by decide, by simp [Selection.clear], fun r hr ↦ ?_⟩
  obtain rfl : r = { SelRegion.new 0 0 with main := true } := by simpa [Selection.clear] using hr
  exact ⟨Nat.zero_le _, Nat.zero_le _⟩

/-- `apply_delta` panics exactly on a clash of the carried regions and leaves a valid
selection in the new document otherwise. -/
theorem Makes.applyDelta_update (h : Makes d n es) {sel : Selection} (hv : sel.Valid) :
    (sel.applyDelta X d n = none ↔ ClashOn Touch Opposed (sel.regions.map (carried n es))) ∧
    ∀ sel', sel.applyDelta X d n = some sel' →
      sel'.Valid ∧ sel'.Placed (Splice.transform n 0 es n) := by
  rw [h.applyDelta_eq]
  split
  · next hz =>
    -- everything lands at offset zero, where nothing points anywhere
    refine ⟨⟨fun hn ↦ by simp at hn, fun hc ↦ ?_⟩, fun sel' hs ↦ ?_⟩
    · obtain ⟨a, ha, b, -, ho⟩ := hc.exists_mem
      obtain ⟨r, -, rfl⟩ := List.mem_map.mp ha
      have hc := h.transform_le r.caret
      have ht := h.transform_le r.tail
      simp only [Opposed, StrictForward, StrictBackward, carried, caret_new, tail_new] at ho
      omega
    · obtain ⟨rfl⟩ := hs
      exact sel.valid_clear _
  · exact hv.update (fun _ ↦ rfl) (fun _ _ hab ↦ h.notBehind_carried hab) h.inBounds_carried

/-- The same for `apply_delta_offset_carets` with the carets set back by one. -/
theorem Makes.applyDeltaOffsetCarets_update (h : Makes d n es) {sel : Selection} (hv : sel.Valid)
    (hlen : Splice.transform n 0 es n < 2 ^ 63)
    (hc : ∀ r ∈ sel.regions, 1 ≤ Splice.transform n 0 es r.caret) :
    (sel.applyDeltaOffsetCarets X d (-1) 0 n = none ↔
      ClashOn Touch Opposed (sel.regions.map (carriedBack n es))) ∧
    ∀ sel', sel.applyDeltaOffsetCarets X d (-1) 0 n = some sel' →
      sel'.Valid ∧ sel'.Placed (Splice.transform n 0 es n) := by
  obtain ⟨r, hr⟩ := List.exists_mem_of_ne_nil _ hv.nonempty
  have hpos := Nat.le_trans (hc r hr) (h.transform_le r.caret)
  rw [h.applyDeltaOffsetCarets_eq hlen hc, if_neg (by omega)]
  exact hv.update (fun _ ↦ rfl) (fun _ _ hab ↦ h.notBehind_carriedBack hab) h.inBounds_carriedBack

/-! ## When regions come to touch -/

section Clash

variable {l : List SelRegion} {a b r : SelRegion}

/-- The only caret within a region is its own. -/
theorem caret_of_mem (hl : l.Pairwise Before) (ha : a ∈ l) (hr : r ∈ l) (h1 : r.min ≤ a.caret)
    (h2 : a.caret ≤ r.max) : a = r := by
  rcases eq_or_rel_of_pairwise hl ha hr with h | h | h
  · exact h
  · have := a.caret_le_max
    unfold Before at h
    omega
  · have := a.min_le_caret
    unfold Before at h
    omega

/-- Between neighbours there is no other region. -/
theorem isChain_neighbours (hl : l.Pairwise Before) :
    l.IsChain fun a b ↦ a ∈ l ∧ b ∈ l ∧ Before a b ∧
      ∀ c ∈ l, c = a ∨ c = b ∨ Before c a ∨ Before b c := by
  rw [List.isChain_iff_getElem]
  intro i hi
  have hp := List.pairwise_iff_getElem.mp hl
  refine ⟨List.getElem_mem _, List.getElem_mem _, hp i (i + 1) _ hi (by omega), fun c hc ↦ ?_⟩
  obtain ⟨k, hk, rfl⟩ := List.mem_iff_getElem.mp hc
  rcases Nat.lt_trichotomy k i with h | rfl | h
  · exact .inr (.inr (.inl (hp k i hk _ h)))
  · exact .inl rfl
  · rcases Nat.eq_or_lt_of_le h with rfl | h
    · exact .inr (.inl rfl)
    · exact .inr (.inr (.inr (hp (i + 1) k hi hk h)))

/-- Some region has its caret at the offset. -/
def CaretAt (l : List SelRegion) (x : Nat) : Prop := ∃ r ∈ l, r.caret = x

/-- The only caret at an offset of a region is its own. -/
theorem caretAt_iff (hl : l.Pairwise Before) (hr : r ∈ l) {x : Nat} (h1 : r.min ≤ x)
    (h2 : x ≤ r.max) : CaretAt l x ↔ r.caret = x := by
  constructor
  · rintro ⟨a, ha, rfl⟩
    rw [caret_of_mem hl ha hr h1 h2]
  · intro h
    exact ⟨r, hr, h⟩

/-- Between neighbouring regions there is no caret. -/
theorem not_caretAt_between (h : ∀ c ∈ l, c = a ∨ c = b ∨ Before c a ∨ Before b c) {x : Nat}
    (h1 : a.max < x) (h2 : x < b.min) : ¬ CaretAt l x := by
  rintro ⟨c, hc, rfl⟩
  have h3 := c.caret_le_max
  have h4 := c.min_le_caret
  have h5 := a.min_le_max
  have h6 := b.min_le_max
  rcases h c hc with rfl | rfl | h | h
  · omega
  · omega
  · unfold Before at h
    omega
  · unfold Before at h
    omega

/-- Two offsets are carried to one exactly when all that is between them goes. -/
theorem Makes.transform_eq_iff (h : Makes d n es) {p q : Nat} (hpq : p ≤ q) (hq : q ≤ n) :
    Splice.transform n 0 es p = Splice.transform n 0 es q ↔
      ∀ x, p ≤ x → x < q → Splice.Removes es x :=
  Splice.transform_eq_iff n es 0 p q h.sorted (Nat.zero_le _) hpq hq

private theorem min_carried (h : Makes d n es) (r : SelRegion) :
    (carried n es r).min = Splice.transform n 0 es r.min := by
  rw [carried, min_new, SelRegion.min]
  rcases Nat.le_total r.caret r.tail with hle | hle
  · rw [Nat.min_eq_left hle, Nat.min_eq_left (h.mono hle)]
  · rw [Nat.min_eq_right hle, Nat.min_eq_right (h.mono hle)]

private theorem max_carried (h : Makes d n es) (r : SelRegion) :
    (carried n es r).max = Splice.transform n 0 es r.max := by
  rw [carried, max_new, SelRegion.max]
  rcases Nat.le_total r.caret r.tail with hle | hle
  · rw [Nat.max_eq_right hle, Nat.max_eq_right (h.mono hle)]
  · rw [Nat.max_eq_left hle, Nat.max_eq_left (h.mono hle)]

/-- Regions come to touch when everything between them is removed. -/
theorem touch_carried_iff (h : Makes d n es) (hab : Before a b) (hb : b.InBounds n) :
    Touch (carried n es a) (carried n es b) ↔
      ∀ x, a.max ≤ x → x < b.min → Splice.Removes es x := by
  have hle : a.max ≤ b.min := Nat.le_of_lt hab
  rw [Touch, min_carried h, max_carried h,
    ← h.transform_eq_iff hle (Nat.le_trans b.min_le_caret hb.1)]
  exact ⟨fun ht ↦ Nat.le_antisymm (h.mono hle) ht, fun ht ↦ Nat.le_of_eq ht.symm⟩

private theorem transform_lt_iff (h : Makes d n es) {p q : Nat} (hq : q ≤ n) :
    Splice.transform n 0 es p < Splice.transform n 0 es q ↔
      ∃ x, p ≤ x ∧ x < q ∧ ¬ Splice.Removes es x := by
  rcases Nat.le_total p q with hpq | hpq
  · rw [Nat.lt_iff_le_and_ne, and_iff_right (h.mono hpq), Ne, h.transform_eq_iff hpq hq]
    push Not
    rfl
  · refine ⟨fun hlt ↦ absurd (h.mono hpq) (Nat.not_le.mpr hlt), ?_⟩
    rintro ⟨x, h1, h2, _⟩
    omega

/-- A region stays longer than one offset when something between its ends is kept. -/
theorem strictForward_carried_iff (h : Makes d n es) (hr : r.InBounds n) :
    (carried n es r).StrictForward ↔
      ∃ x, r.tail ≤ x ∧ x < r.caret ∧ ¬ Splice.Removes es x := transform_lt_iff h hr.1

/-- A region still points backward exactly when something between caret and tail is kept. -/
theorem strictBackward_carried_iff (h : Makes d n es) (hr : r.InBounds n) :
    (carried n es r).StrictBackward ↔
      ∃ x, r.caret ≤ x ∧ x < r.tail ∧ ¬ Splice.Removes es x := transform_lt_iff h hr.2

end Clash

end Tofu

import Tofu.Selection.Selection

/-!
# Extending a selection to a common point

`extend_to` moves every caret to one offset and `extend_to_boundary` every caret of a
line to one end of the line (`src/src/selection.rs:320–366`); tails stay where they are.
Neighbours on both sides of the common point then overlap and point towards it, and
merging them panics.
-/

namespace Tofu

open SelRegion

/-- Two regions whose carets go to one point with the tails on opposite sides of it. -/
def Surrounds (loc : SelRegion → Nat) (r s : SelRegion) : Prop :=
  loc r = loc s ∧ r.tail < loc r ∧ loc s < s.tail

section

variable {loc : SelRegion → Nat}

private def toward (loc : SelRegion → Nat) (r : SelRegion) : SelRegion := new (loc r) r.tail

-- Regions in order whose carets move in order.
private def InOrder (loc : SelRegion → Nat) (r s : SelRegion) : Prop :=
  loc r ≤ loc s ∧ r.tail < s.tail

private theorem InOrder.notBehind {r s : SelRegion} (h : InOrder loc r s) :
    NotBehind (toward loc r) (toward loc s) := by
  obtain ⟨h1, h2⟩ := h
  simp only [NotBehind, toward, min_new, max_new]
  omega

private theorem touch_iff {r s : SelRegion} :
    Touch (toward loc r) (toward loc s) ↔ min (loc s) s.tail ≤ max (loc r) r.tail := Iff.rfl

private theorem opposed_iff {r s : SelRegion} :
    (toward loc r).Opposed (toward loc s) ↔
      (r.tail < loc r ∧ loc s < s.tail) ∨ (loc r < r.tail ∧ s.tail < loc s) := Iff.rfl

/-- A region that points forward reaches one that points backward only across a point at
which two such regions meet. -/
theorem surrounds_of_reaches {c : SelRegion} {l : List SelRegion}
    (ho : (c :: l).Pairwise (InOrder loc)) (hc : c.tail ≤ loc c)
    (h : Reaches (fun r s ↦ Touch (toward loc r) (toward loc s)) (fun s ↦ loc s < s.tail) c l) :
    (∃ s ∈ l, loc c = loc s ∧ loc s < s.tail) ∨ ∃ r ∈ l, ∃ s ∈ l, Surrounds loc r s := by
  induction l generalizing c with
  | nil => exact h.elim
  | cons d l ih =>
    obtain ⟨hcl, hl⟩ := List.pairwise_cons.mp ho
    obtain ⟨hlc, htc⟩ := hcl d (by simp)
    obtain ⟨ht, h⟩ := h
    rw [touch_iff] at ht
    by_cases hd : loc d < d.tail
    · exact .inl ⟨d, by simp, by omega, hd⟩
    · rcases h with h | h
      · exact absurd h hd
      · rcases ih hl (by omega) h with ⟨s, hs, heq, hlt⟩ | ⟨r, hr, s, hs, hp⟩
        · -- a cursor hands the point on, a forward region meets the other one itself
          by_cases hcur : d.tail < loc d
          · exact .inr ⟨d, by simp, s, by simp [hs], heq, hcur, hlt⟩
          · exact .inl ⟨s, by simp [hs], by omega, hlt⟩
        · exact .inr ⟨r, by simp [hr], s, by simp [hs], hp⟩

/-- From a region that points backward only such regions are reached. -/
theorem not_reaches_forward {c : SelRegion} {l : List SelRegion}
    (ho : (c :: l).Pairwise (InOrder loc)) (hc : loc c < c.tail) :
    ¬ Reaches (fun r s ↦ Touch (toward loc r) (toward loc s)) (fun s ↦ s.tail < loc s) c l := by
  induction l generalizing c with
  | nil => exact id
  | cons d l ih =>
    obtain ⟨hcl, hl⟩ := List.pairwise_cons.mp ho
    obtain ⟨hlc, htc⟩ := hcl d (by simp)
    rintro ⟨ht, h⟩
    rw [touch_iff] at ht
    have hd : loc d < d.tail := by omega
    rcases h with h | h
    · omega
    · exact ih hl hd h

/-- All regions between two whose carets meet are linked. -/
theorem reaches_of_mem {c s : SelRegion} {l : List SelRegion}
    (ho : (c :: l).Pairwise (InOrder loc)) (hs : s ∈ l) (heq : loc c = loc s)
    {P : SelRegion → Prop} (hp : P s) :
    Reaches (fun r s ↦ Touch (toward loc r) (toward loc s)) P c l := by
  induction l generalizing c with
  | nil => simp at hs
  | cons d l ih =>
    obtain ⟨hcl, hl⟩ := List.pairwise_cons.mp ho
    have hcd := (hcl d (by simp)).1
    have hds : loc d ≤ loc s := by
      rcases List.mem_cons.mp hs with rfl | hs
      · exact Nat.le_refl _
      · exact ((List.pairwise_cons.mp hl).1 s hs).1
    refine ⟨touch_iff.mpr (by omega), ?_⟩
    rcases List.mem_cons.mp hs with rfl | hs
    · exact .inl hp
    · exact .inr (ih hl hs (by omega))

/-- Moving carets in order and keeping tails clashes exactly around a common point. -/
theorem clashOn_toward_iff {l : List SelRegion} (ho : l.Pairwise (InOrder loc)) :
    ClashOn Touch Opposed (l.map (toward loc)) ↔ ∃ r ∈ l, ∃ s ∈ l, Surrounds loc r s := by
  rw [clashOn_map]
  induction l with
  | nil => simp
  | cons c l ih =>
    obtain ⟨hc, hl⟩ := List.pairwise_cons.mp ho
    rw [clashOn_cons, ih hl]
    constructor
    · rintro (h | ⟨r, hr, s, hs, hp⟩)
      · by_cases hf : c.tail < loc c
        · have hb : (toward loc c).Opposed ∘ toward loc = fun s ↦ loc s < s.tail := by
            funext s
            rw [Function.comp, eq_iff_iff, opposed_iff]
            omega
          change Reaches _ ((toward loc c).Opposed ∘ toward loc) c l at h
          rw [hb] at h
          rcases surrounds_of_reaches ho (Nat.le_of_lt hf) h with
            ⟨s, hs, heq, hlt⟩ | ⟨r, hr, s, hs, hp⟩
          · exact ⟨c, by simp, s, by simp [hs], heq, hf, hlt⟩
          · exact ⟨r, by simp [hr], s, by simp [hs], hp⟩
        · obtain ⟨s, hs, hopp⟩ := h.exists_mem
          rw [opposed_iff] at hopp
          have hb : (toward loc c).Opposed ∘ toward loc = fun s ↦ s.tail < loc s := by
            funext s
            rw [Function.comp, eq_iff_iff, opposed_iff]
            omega
          change Reaches _ ((toward loc c).Opposed ∘ toward loc) c l at h
          rw [hb] at h
          exact absurd h (not_reaches_forward ho (by omega))
      · exact ⟨r, by simp [hr], s, by simp [hs], hp⟩
    · rintro ⟨r, hr, s, hs, heq, hf, hb⟩
      rcases List.mem_cons.mp hr with rfl | hr'
      · rcases List.mem_cons.mp hs with rfl | hs'
        · omega
        · exact .inl (reaches_of_mem ho hs' heq (opposed_iff.mpr (.inl ⟨hf, hb⟩)))
      · rcases List.mem_cons.mp hs with rfl | hs'
        · have := (hc r hr').2
          omega
        · exact .inr ⟨r, hr', s, hs', heq, hf, hb⟩

end

namespace Selection

/-- Mapping the carets of sorted, disjoint regions in order and keeping the tails panics
exactly when two carets meet between the tails. -/
theorem mapSelections_toward_eq_none_iff (loc : SelRegion → Nat) {sel : Selection}
    (hs : sel.regions.Pairwise Before)
    (hm : ∀ r ∈ sel.regions, ∀ s ∈ sel.regions, r.caret ≤ s.caret → loc r ≤ loc s) :
    sel.mapSelections (pureClosure fun r ↦ [SelRegion.new (loc r) r.tail]) () = none ↔
      ∃ r ∈ sel.regions, ∃ s ∈ sel.regions, Surrounds loc r s := by
  have ho : sel.regions.Pairwise (InOrder loc) := hs.imp_of_mem fun hr hs h ↦
    ⟨hm _ hr _ hs (Nat.le_of_lt h.caret_lt), h.tail_lt⟩
  have hn : (sel.regions.map (toward loc)).Pairwise NotBehind :=
    List.pairwise_map.mpr (ho.imp InOrder.notBehind)
  rw [mapSelections_pure, Option.map_eq_none_iff, ← Option.not_isSome_iff_eq_none,
    ← clashOn_toward_iff ho]
  exact (not_congr (isSome_mapRegions_iff (g := toward loc) hn)).trans not_not

/-- With one point for all regions, it is enough that there are tails on both sides of it. -/
theorem surrounds_const_iff {regions : List SelRegion} {offset : Nat} :
    (∃ r ∈ regions, ∃ s ∈ regions, Surrounds (fun _ ↦ offset) r s) ↔
      (∃ r ∈ regions, r.tail < offset) ∧ ∃ s ∈ regions, offset < s.tail := by
  constructor
  · rintro ⟨r, hr, s, hs, -, h1, h2⟩
    exact ⟨⟨r, hr, h1⟩, s, hs, h2⟩
  · rintro ⟨⟨r, hr, h1⟩, s, hs, h2⟩
    exact ⟨r, hr, s, hs, rfl, h1, h2⟩

/-- Sorted, disjoint regions can be extended to a boundary or to an offset without a panic
exactly when the carets of no two of them meet strictly between their tails. -/
theorem extend_eq_none_iff (sel : Selection) (hs : sel.regions.Pairwise Before) :
    (∀ direction bytesPerLine maxSize,
      (∀ r ∈ sel.regions, LineFits direction bytesPerLine r.caret) →
      (sel.mapSelections (pureClosure fun r ↦
          [r.extendToBoundary direction bytesPerLine maxSize]) () = none ↔
        0 < maxSize ∧ ∃ r ∈ sel.regions, ∃ s ∈ sel.regions,
          Surrounds (fun r ↦ boundaryCaret direction bytesPerLine maxSize r.caret) r s)) ∧
    (∀ offset,
      sel.mapSelections (pureClosure fun r ↦ [r.extendTo offset]) () = none ↔
        (∃ r ∈ sel.regions, r.tail < offset) ∧ ∃ s ∈ sel.regions, offset < s.tail) := by
  constructor
  · intro direction bytesPerLine maxSize hfits
    by_cases hz : maxSize = 0
    · -- on an empty buffer the regions are mapped to themselves
      have hid : (fun r : SelRegion ↦ [r.extendToBoundary direction bytesPerLine maxSize]) =
          fun r ↦ [id r] := by
        funext r
        simp [extendToBoundary, hz]
      have hn : (sel.regions.map id).Pairwise NotBehind := by
        rw [List.map_id]
        exact hs.imp Before.notBehind
      have hsome : (sel.mapRegions fun r ↦ [id r]).isSome := by
        rw [isSome_mapRegions_iff hn, List.map_id]
        exact not_clashOn_of_isChain (hs.imp fun h ↦ not_touch_iff_before.mpr h).isChain
      rw [hid, mapSelections_pure, Option.map_eq_none_iff, ← Option.not_isSome_iff_eq_none]
      exact iff_of_false (not_not.mpr hsome) fun h ↦ absurd h.1 (by omega)
    · have hg : (fun r : SelRegion ↦ [r.extendToBoundary direction bytesPerLine maxSize]) =
          fun r ↦
            [SelRegion.new (boundaryCaret direction bytesPerLine maxSize r.caret) r.tail] := by
        funext r
        simp [extendToBoundary, hz]
      rw [hg, mapSelections_toward_eq_none_iff _ hs fun r _ s hs h ↦
        boundaryCaret_mono maxSize (hfits s hs) h]
      exact ⟨fun h ↦ ⟨by omega, h⟩, fun h ↦ h.2⟩
  · intro offset
    exact (mapSelections_toward_eq_none_iff (fun _ ↦ offset) hs
      fun _ _ _ _ _ ↦ Nat.le_refl _).trans surrounds_const_iff

/-- Two cursors at the start and the end of ten bytes extend to either side of both. -/
theorem extend_twoCursors :
    let sel : Selection :=
      { regions := [⟨0, 0, true⟩, ⟨10, 10, false⟩], mainSelection := 0 }
    sel.Valid ∧ sel.mapSelections (pureClosure fun r ↦ [r.extendTo 12]) () ≠ none ∧
      sel.mapSelections (pureClosure fun r ↦ [r.extendToBoundary .up 16 10]) () ≠ none := by
  intro sel
  have hs : sel.regions.Pairwise Before := by decide
  obtain ⟨hb, ho⟩ := extend_eq_none_iff sel hs
  refine ⟨by decide, fun h ↦ ?_, fun h ↦ ?_⟩
  · have := (ho 12).mp h
    revert this
    decide
  · obtain ⟨_, r, hr, s, hs, _, h, _⟩ := (hb .up 16 10 (by decide)).mp h
    exact absurd h (Nat.not_lt_zero _)

/-- Extending the same two cursors to the last byte panics. -/
theorem extendToBoundary_down_panics :
    let sel : Selection :=
      { regions := [⟨0, 0, true⟩, ⟨10, 10, false⟩], mainSelection := 0 }
    sel.Valid ∧ (∀ r ∈ sel.regions, r.InBounds 10) ∧
      sel.mapSelections (pureClosure fun r ↦ [r.extendToBoundary .down 16 10]) () = none := by
  decide

end Selection

end Tofu

import Tofu.Selection.Selection

/-!
# The offsets a selection covers

Which offsets the regions cover that `map_selections` assembles from what its closure
returned: the same ones, as long as two regions are only merged where they meet.
-/

namespace Tofu

open SelRegion

/-- Some region of the list runs over the offset. -/
def Covered (regions : List SelRegion) (x : Nat) : Prop := ∃ r ∈ regions, r.min ≤ x ∧ x ≤ r.max

instance (regions : List SelRegion) (x : Nat) : Decidable (Covered regions x) :=
  inferInstanceAs (Decidable (∃ r ∈ regions, r.min ≤ x ∧ x ≤ r.max))

section Covered

variable {r : SelRegion} {l l' : List SelRegion} {x : Nat}

/-- No region covers nothing. -/
@[simp] theorem not_covered_nil : ¬ Covered [] x := by simp [Covered]

/-- An offset is in the first region or in another one. -/
@[simp] theorem covered_cons : Covered (r :: l) x ↔ (r.min ≤ x ∧ x ≤ r.max) ∨ Covered l x := by
  simp [Covered]

/-- An offset is covered by either of two lists of regions. -/
@[simp] theorem covered_append : Covered (l ++ l') x ↔ Covered l x ∨ Covered l' x := by
  simp only [Covered, List.mem_append, or_and_right, exists_or]

/-- The order of the regions does not matter. -/
@[simp] theorem covered_reverse : Covered l.reverse x ↔ Covered l x := by
  simp only [Covered, List.mem_reverse]

/-- An offset is covered by mapped regions when it is in one of them. -/
theorem covered_map {f : SelRegion → SelRegion} :
    Covered (l.map f) x ↔ ∃ r ∈ l, (f r).min ≤ x ∧ x ≤ (f r).max := by
  simp only [Covered, List.mem_map, exists_exists_and_eq_and]

/-- The main flag does not count. -/
theorem covered_setMain {main : Bool} :
    Covered ({ r with main := main } :: l) x ↔ Covered (r :: l) x := by
  rw [covered_cons, covered_cons]
  rfl

end Covered

/-- The second region does not lie before the first one, or both are cursors. Cursors at
different offsets are never merged. -/
def Meets (a b : SelRegion) : Prop := a.min ≤ b.max ∨ a.caret = a.tail ∧ b.caret = b.tail

/-- Regions in order meet. -/
theorem Before.meets {a b : SelRegion} (h : Before a b) : Meets a b := by
  have := a.min_le_max
  have := b.min_le_max
  unfold Before at h
  exact .inl (by omega)

/-- So do regions that may overlap but do not go back. -/
theorem NotBehind.meets {a b : SelRegion} (h : NotBehind a b) : Meets a b :=
  .inl (Nat.le_trans h.1 b.min_le_max)

/-- Regions that meet cover the same offsets when they are merged. -/
theorem SelRegion.IsMerge.covers_iff {a b m : SelRegion} (hm : IsMerge a b m) (ht : Touch a b)
    (hab : Meets a b) (x : Nat) :
    (m.min ≤ x ∧ x ≤ m.max) ↔ (a.min ≤ x ∧ x ≤ a.max) ∨ b.min ≤ x ∧ x ≤ b.max := by
  have hmin := hm.min_eq
  have hmax := hm.max_eq
  unfold Touch at ht
  rcases hab with hab | ⟨ha, hb⟩
  · have := a.min_le_max
    have := b.min_le_max
    omega
  · -- two cursors make a cursor, so they are at the same offset
    have hf := hm.strictForward_iff
    have hb' := hm.strictBackward_iff
    simp only [StrictForward, StrictBackward, SelRegion.min, SelRegion.max] at *
    omega

private theorem SelRegion.IsMerge.meets {a b m s : SelRegion} (hm : IsMerge a b m) (ha : Meets a s)
    (hb : Meets b s) : Meets m s := by
  have hmin := hm.min_eq
  rcases ha with ha | ⟨ha, hs⟩
  · exact .inl (by omega)
  · rcases hb with hb | ⟨hb, -⟩
    · exact .inl (by omega)
    · have hf := hm.strictForward_iff
      have hb' := hm.strictBackward_iff
      simp only [StrictForward, StrictBackward] at hf hb'
      exact .inr ⟨by omega, hs⟩

-- The regions so far and those to come cover what they all do, and the last one meets those to
-- come.
private structure Assembles (all out rest : List SelRegion) : Prop where
  covers : ∀ x, Covered out x ∨ Covered rest x ↔ Covered all x
  head : ∀ last ∈ out.head?, ∀ r ∈ rest, Meets last r
  rest_meets : rest.Pairwise Meets

private theorem Assembles.pushRegion {all out out' rs : List SelRegion} {r : SelRegion}
    (h : Assembles all out (r :: rs)) (hp : pushRegion out r = some out') :
    Assembles all out' rs := by
  obtain ⟨hr, hrs⟩ := List.pairwise_cons.mp h.rest_meets
  have hcov := h.covers
  rcases pushRegion_cases hp with ⟨rfl, rfl⟩ | ⟨last, rest, rfl, hb, rfl⟩ |
    ⟨last, rest, m, rfl, ht, hm, rfl⟩
  · refine ⟨fun x ↦ ?_, by simpa using hr, hrs⟩
    rw [← hcov x]
    simp only [covered_cons, not_covered_nil, or_false, false_or]
  · refine ⟨fun x ↦ ?_, by simpa using hr, hrs⟩
    rw [← hcov x]
    simp only [covered_cons, or_assoc, or_left_comm]
  · have hlast : ∀ s ∈ r :: rs, Meets last s := h.head last (by simp)
    obtain ⟨hlr, hls⟩ := List.forall_mem_cons.mp hlast
    refine ⟨fun x ↦ ?_, fun y hy s hs ↦ ?_, hrs⟩
    · rw [← hcov x]
      simp only [covered_cons, hm.covers_iff ht hlr, or_assoc, or_left_comm]
    · simp only [List.head?_cons, Option.mem_def, Option.some.injEq] at hy
      subst hy
      exact hm.meets (hls s hs) (hr s hs)

/-- The assembled regions cover what the closure returned. -/
theorem covered_assemble {mainSelection i m m' : Nat} {outputs : List (List SelRegion)}
    {out' : List SelRegion} (h : assemble mainSelection i outputs [] m = some (out', m'))
    (ho : outputs.flatten.Pairwise Meets) (x : Nat) :
    Covered out' x ↔ Covered outputs.flatten x := by
  have hi : Assembles outputs.flatten [] outputs.flatten := ⟨by simp, by simp, ho⟩
  have hend : Assembles outputs.flatten out' [] := by
    refine assemble_induction (I := Assembles outputs.flatten)
      (fun _ _ _ _ hi hp ↦ hi.pushRegion hp) ?_ h hi
    intro last rest rs ⟨hc, hh, hr⟩
    refine ⟨fun x ↦ covered_setMain.or Iff.rfl |>.trans (hc x), fun y hy s hs ↦ ?_, hr⟩
    obtain rfl : { last with main := true } = y := by simpa using hy
    exact hh last (by simp) s hs
  simpa using hend.covers x

/-- A selection covers what it was assembled from. -/
theorem Selection.covered_ofOutputs {mainSelection : Nat} {outputs : List (List SelRegion)}
    {sel : Selection} (h : ofOutputs mainSelection outputs = some sel)
    (ho : outputs.flatten.Pairwise Meets) (x : Nat) :
    Covered sel.regions x ↔ Covered outputs.flatten x := by
  obtain ⟨⟨out, m⟩, ha, rfl⟩ := Option.map_eq_some_iff.mp h
  rw [covered_reverse]
  exact covered_assemble ha ho x

/-- Every region that arrived lies in one that was assembled. -/
theorem Selection.within_ofOutputs {mainSelection : Nat} {outputs : List (List SelRegion)}
    {sel : Selection} (h : ofOutputs mainSelection outputs = some sel) :
    ∀ p ∈ outputs.flatten, ∃ s ∈ sel.regions, s.min ≤ p.min ∧ p.max ≤ s.max := by
  obtain ⟨⟨out, m⟩, ha, rfl⟩ := Option.map_eq_some_iff.mp h
  have hend := assemble_induction (I := fun out rest ↦ ∀ p ∈ outputs.flatten,
    (∃ s ∈ out, s.min ≤ p.min ∧ p.max ≤ s.max) ∨ p ∈ rest) ?_ ?_ ha (fun p hp ↦ .inr hp)
  · intro p hp
    obtain ⟨s, hs, hle⟩ := (hend p hp).resolve_right List.not_mem_nil
    exact ⟨s, List.mem_reverse.mpr hs, hle⟩
  · intro out r rs out' hi hp p hmem
    rcases pushRegion_cases hp with ⟨rfl, rfl⟩ | ⟨last, rest, rfl, -, rfl⟩ |
      ⟨last, rest, m, rfl, -, hm, rfl⟩
    · rcases hi p hmem with ⟨s, hs, -⟩ | hr
      · exact absurd hs List.not_mem_nil
      · exact (List.mem_cons.mp hr).imp (fun h ↦ ⟨r, List.mem_cons_self, by simp [h]⟩) id
    · rcases hi p hmem with ⟨s, hs, hle⟩ | hr
      · exact .inl ⟨s, List.mem_cons_of_mem _ hs, hle⟩
      · exact (List.mem_cons.mp hr).imp (fun h ↦ ⟨r, List.mem_cons_self, by simp [h]⟩) id
    · -- the merge spans both regions
      have hmin := hm.min_eq
      have hmax := hm.max_eq
      rcases hi p hmem with ⟨s, hs, hle⟩ | hr
      · rcases List.mem_cons.mp hs with rfl | hs
        · exact .inl ⟨m, List.mem_cons_self, by omega, by omega⟩
        · exact .inl ⟨s, List.mem_cons_of_mem _ hs, hle⟩
      · refine (List.mem_cons.mp hr).imp (fun h ↦ ⟨m, List.mem_cons_self, ?_⟩) id
        subst h
        omega
  · intro last rest rs hi p hmem
    rcases hi p hmem with ⟨s, hs, hle⟩ | hr
    · rcases List.mem_cons.mp hs with rfl | hs
      · exact .inl ⟨_, List.mem_cons_self, hle⟩
      · exact .inl ⟨s, List.mem_cons_of_mem _ hs, hle⟩
    · exact .inr hr

private theorem pairwise_before_of_map {l l' : List SelRegion} (hl : l.Pairwise Before)
    (h : l'.map (fun r ↦ (r.caret, r.tail)) = l.map fun r ↦ (r.caret, r.tail)) :
    l'.Pairwise Before := by
  have hmap : ∀ l : List SelRegion, l.Pairwise Before ↔
      (l.map fun r ↦ (r.caret, r.tail)).Pairwise fun p q ↦ max p.1 p.2 < min q.1 q.2 := by
    intro l
    rw [List.pairwise_map]
    rfl
  rw [hmap, h]
  exact (hmap l).mp hl

/-- Regions that arrive one behind the other are all kept. -/
theorem Selection.map_ofOutputs_of_before {mainSelection : Nat}
    {outputs : List (List SelRegion)} {sel : Selection}
    (h : ofOutputs mainSelection outputs = some sel) (ho : outputs.flatten.Pairwise Before) :
    sel.regions.map (fun r ↦ (r.caret, r.tail)) =
      outputs.flatten.map fun r ↦ (r.caret, r.tail) := by
  obtain ⟨⟨out, m⟩, ha, rfl⟩ := Option.map_eq_some_iff.mp h
  have hend := assemble_induction (I := fun out rest ↦
    (out.reverse ++ rest).map (fun r ↦ (r.caret, r.tail)) =
      outputs.flatten.map fun r ↦ (r.caret, r.tail)) ?_ ?_ ha rfl
  · simpa using hend
  · intro out r rs out' hi hp
    have hpair := pairwise_before_of_map ho hi
    rcases pushRegion_cases hp with ⟨rfl, rfl⟩ | ⟨last, rest, rfl, -, rfl⟩ |
      ⟨last, rest, m, rfl, ht, -, rfl⟩
    · exact hi
    · simpa using hi
    · have hb := (List.pairwise_append.mp hpair).2.2 last (by simp) r (by simp)
      exact absurd ht (not_touch_iff_before.mpr hb)
  · intro last rest rs hi
    simpa using hi

/-- When mapped regions meet, merging them covers what they cover. -/
theorem Selection.covered_mapRegions {g : SelRegion → SelRegion} {sel sel' : Selection}
    (h : (sel.mapRegions fun r ↦ [g r]) = some sel') (hg : (sel.regions.map g).Pairwise Meets)
    (x : Nat) : Covered sel'.regions x ↔ Covered (sel.regions.map g) x := by
  have hflat := flatten_map_singleton g sel.regions
  have := covered_ofOutputs h (hflat ▸ hg) x
  rwa [hflat] at this

end Tofu

import Tofu.Selection.Coverage

/-!
# Mapping a selection

What `Selection::map_selections`, `src/src/selection.rs:151–169`, makes of regions that
arrive in order and agree with what they are merged into: nothing panics, the result is
sorted and disjoint and covers what arrived, and the main region is the one around the last
region that the old main region became.
-/

namespace Tofu

open SelRegion

/-- The two regions point the same way; two cursors share their caret. -/
def SameWay (a b : SelRegion) : Prop :=
  (a.forward = true ∧ b.forward = true ∨ a.backward = true ∧ b.backward = true) ∧
    (a.caret = a.tail → b.caret = b.tail → a.caret = b.caret)

/-- The merge of the regions so far after one more: one that overlaps it is merged into it, and
one that does not begins the next. -/
def merged (sofar r : SelRegion) : SelRegion :=
  if sofar.overlaps r then (sofar.merge r).getD sofar else r

/-- Every region that overlaps the merge of those before it points the same way. -/
def MergeSameWayFrom (sofar : SelRegion) : List SelRegion → Prop
  | [] => True
  | r :: rs => (sofar.overlaps r = true → SameWay sofar r) ∧ MergeSameWayFrom (merged sofar r) rs

/-- Every region that overlaps the merge of those before it points the same way. -/
def MergeSameWay : List SelRegion → Prop
  | [] => True
  | r :: rs => MergeSameWayFrom r rs

instance : DecidableRel SameWay := fun a b ↦ inferInstanceAs (Decidable
  ((a.forward = true ∧ b.forward = true ∨ a.backward = true ∧ b.backward = true) ∧
    (a.caret = a.tail → b.caret = b.tail → a.caret = b.caret)))

instance MergeSameWayFrom.decidable : ∀ sofar rs, Decidable (MergeSameWayFrom sofar rs)
  | _, [] => isTrue trivial
  | sofar, r :: rs =>
    have := MergeSameWayFrom.decidable (merged sofar r) rs
    inferInstanceAs (Decidable ((sofar.overlaps r = true → SameWay sofar r) ∧ _))

instance : DecidablePred MergeSameWay
  | [] => isTrue trivial
  | r :: rs => inferInstanceAs (Decidable (MergeSameWayFrom r rs))

/-- Regions that point the same way can be merged. -/
theorem SameWay.merge_ne_none {a b : SelRegion} (h : SameWay a b) : a.merge b ≠ none := by
  rw [Ne, merge_eq_none_iff]
  obtain ⟨hway, hcaret⟩ := h
  simp only [forward, backward, decide_eq_true_eq] at hway
  rintro (ho | ⟨ha, hb, hne⟩)
  · simp only [Opposed, StrictForward, StrictBackward] at ho
    omega
  · exact hne (hcaret ha hb)

private theorem head?_pushRegion {sofar r : SelRegion}
    (h : sofar.overlaps r = true → SameWay sofar r) :
    ∃ out, pushRegion [sofar] r = some out ∧ out.head? = some (merged sofar r) := by
  by_cases ho : sofar.overlaps r = true
  · obtain ⟨m, hm⟩ := Option.ne_none_iff_exists'.mp (h ho).merge_ne_none
    simp [pushRegion, merged, ho, hm]
  · simp [pushRegion, merged, ho]

/-- Regions in order that agree with the merge before them do not clash. -/
theorem MergeSameWayFrom.not_clashOn {sofar : SelRegion} {rs : List SelRegion}
    (h : MergeSameWayFrom sofar rs)
    (hs : (sofar :: rs).Pairwise NotBehind) : ¬ ClashOn Touch Opposed (sofar :: rs) := by
  induction rs generalizing sofar with
  | nil => simp
  | cons r rs ih =>
    obtain ⟨out, hpush, hhead⟩ := head?_pushRegion h.1
    have hstep := @clashOn_pushRegion [sofar] out rs r hs hpush
    rw [hhead] at hstep
    intro hclash
    exact ih h.2 hstep.2 (hstep.1.mp hclash)

private theorem MergeSameWay.not_clashOn {rs : List SelRegion} (h : MergeSameWay rs)
    (hs : rs.Pairwise NotBehind) :
    ¬ ClashOn Touch Opposed rs := by
  cases rs with
  | nil => simp
  | cons r rs => exact MergeSameWayFrom.not_clashOn h hs

/-! ## The main region -/

/-- The region runs around the other one. -/
def Around (s r : SelRegion) : Prop := s.min ≤ r.min ∧ r.max ≤ s.max

private theorem SelRegion.IsMerge.around {a b m : SelRegion} (h : IsMerge a b m) :
    Around m a ∧ Around m b := by
  have hmin := h.min_eq
  have hmax := h.max_eq
  unfold Around
  omega

/-- After the inner loop the last region is around the last one that arrived. -/
theorem around_of_pushAll {out new rest : List SelRegion} {last s : SelRegion}
    (h : pushAll out new = some (s :: rest)) (hl : new.getLast? = some last) : Around s last := by
  obtain ⟨init, rfl⟩ := List.getLast?_eq_some_iff.mp hl
  rw [pushAll_append] at h
  obtain ⟨mid, -, hpush⟩ := Option.bind_eq_some_iff.mp h
  have hpush : pushRegion mid last = some (s :: rest) := by simpa using hpush
  rcases pushRegion_cases hpush with ⟨-, heq⟩ | ⟨_, _, -, -, heq⟩ | ⟨_, _, m, -, -, hm, heq⟩
  · cases heq
    exact ⟨Nat.le_refl _, Nat.le_refl _⟩
  · cases heq
    exact ⟨Nat.le_refl _, Nat.le_refl _⟩
  · cases heq
    exact hm.around.2

/-- A flagged region around another one is still there after a round, merged or not. -/
theorem flagged_pushRegion {out out' : List SelRegion} {r p : SelRegion}
    (h : pushRegion out r = some out') (hi : ∃ s ∈ out, s.main = true ∧ Around s p) :
    ∃ s ∈ out', s.main = true ∧ Around s p := by
  obtain ⟨s, hs, hmain, haround⟩ := hi
  rcases pushRegion_cases h with ⟨rfl, -⟩ | ⟨_, _, rfl, -, rfl⟩ | ⟨last, rest, m, rfl, -, hm, rfl⟩
  · cases hs
  · exact ⟨s, List.mem_cons_of_mem _ hs, hmain, haround⟩
  · rcases List.mem_cons.mp hs with rfl | hs
    · refine ⟨m, List.mem_cons_self, by rw [hm.main_eq, hmain, Bool.true_or], ?_⟩
      have hms := hm.around.1
      unfold Around at *
      omega
    · exact ⟨s, List.mem_cons_of_mem _ hs, hmain, haround⟩

/-- The assembled regions have a flagged one around the last region that the main one became. -/
theorem flagged_of_assemble {mainSelection i m m' : Nat} {outputs : List (List SelRegion)}
    {out out' new : List SelRegion} {last : SelRegion}
    (h : assemble mainSelection i outputs out m = some (out', m')) (hi : i ≤ mainSelection)
    (hnew : outputs[mainSelection - i]? = some new) (hl : new.getLast? = some last) :
    ∃ s ∈ out', s.main = true ∧ Around s last := by
  induction outputs generalizing i out m with
  | nil => simp at hnew
  | cons head outputs ih =>
    obtain ⟨mid, hpush, h⟩ := Option.bind_eq_some_iff.mp h
    split at h
    · next heq =>
      rw [heq, Nat.sub_self, List.getElem?_cons_zero] at hnew
      cases hnew
      cases mid with
      | nil => simp at h
      | cons s rest =>
        have haround := around_of_pushAll hpush hl
        refine assemble_induction (I := fun out _ ↦ ∃ s ∈ out, s.main = true ∧ Around s last)
          (fun _ _ _ _ hi hp ↦ flagged_pushRegion hp hi) ?_ h
          ⟨_, List.mem_cons_self, rfl, haround⟩
        rintro head rest - ⟨s, hs, hmain, haround⟩
        rcases List.mem_cons.mp hs with rfl | hs
        · exact ⟨_, List.mem_cons_self, rfl, haround⟩
        · exact ⟨s, List.mem_cons_of_mem _ hs, hmain, haround⟩
    · next hne =>
      refine ih h (by omega) ?_
      rwa [show mainSelection - i = mainSelection - (i + 1) + 1 by omega,
        List.getElem?_cons_succ] at hnew

/-- The closure is called once for each region. -/
theorem length_of_collect {σ : Type} {f : σ → SelRegion → Option (σ × List SelRegion)}
    {regions : List SelRegion} {s s' : σ} {outputs : List (List SelRegion)}
    (h : collect f regions s = some (s', outputs)) : outputs.length = regions.length := by
  induction regions generalizing s outputs with
  | nil =>
    cases h
    rfl
  | cons r regions ih =>
    obtain ⟨⟨s₁, new⟩, -, h⟩ := Option.bind_eq_some_iff.mp h
    obtain ⟨⟨s₂, rest⟩, hrest, h⟩ := Option.bind_eq_some_iff.mp h
    cases h
    rw [List.length_cons, List.length_cons, ih hrest]

namespace Selection

/-- The main region of an assembled selection is around the last region that the old one
became. -/
theorem main_of_ofOutputs {mainSelection : Nat} {outputs : List (List SelRegion)}
    {sel : Selection} {new : List SelRegion} {last : SelRegion}
    (h : ofOutputs mainSelection outputs = some sel) (hv : sel.Valid)
    (hnew : outputs[mainSelection]? = some new) (hl : new.getLast? = some last) :
    ∃ main, sel.main = some main ∧ Around main last := by
  obtain ⟨⟨out, m⟩, ha, rfl⟩ := Option.map_eq_some_iff.mp h
  obtain ⟨s, hs, hmain, haround⟩ := flagged_of_assemble ha (Nat.zero_le _) hnew hl
  obtain ⟨k, hk⟩ := List.mem_iff_getElem?.mp (List.mem_reverse.mpr hs)
  have hindex := (hv.main_iff k s hk).mp hmain
  refine ⟨s, ?_, haround⟩
  rw [main, ← hindex]
  exact hk

/-- Mapping a closure over a valid selection, when what it returns comes in order and agrees with
the merge before it: the result is sorted and disjoint, covers what was returned, and has the one
flag on the region around the last one that the old main region became. -/
theorem mapSelections_merges {σ : Type} {f : σ → SelRegion → Option (σ × List SelRegion)}
    {s s' : σ} {sel : Selection} {outputs : List (List SelRegion)} (hv : sel.Valid)
    (hc : collect f sel.regions s = some (s', outputs)) (hne : ∀ new ∈ outputs, new ≠ [])
    (hnew : ∀ r ∈ outputs.flatten, r.main = false) (hmono : outputs.flatten.Pairwise NotBehind)
    (hagree : MergeSameWay outputs.flatten) :
    ∃ sel', sel.mapSelections f s = some (s', sel') ∧ sel'.regions.Pairwise Before ∧
      (∀ x, Covered sel'.regions x ↔ Covered outputs.flatten x) ∧
      (∃ new last main, outputs[sel.mainSelection]? = some new ∧ new.getLast? = some last ∧
        sel'.main = some main ∧ Around main last) ∧
      ∀ k r, sel'.regions[k]? = some r → (r.isMain = true ↔ k = sel'.mainSelection) := by
  have hlt : sel.mainSelection < outputs.length := by
    rw [length_of_collect hc]
    exact hv.main_lt
  have hmem : outputs[sel.mainSelection] ∈ outputs := List.getElem_mem hlt
  -- the main region has something to point at, and no merge panics
  have hsome : (ofOutputs sel.mainSelection outputs).isSome := by
    rw [isSome_ofOutputs_iff hmono]
    refine ⟨hagree.not_clashOn hmono, fun _ hnil ↦ hne _ hmem ?_⟩
    apply List.flatten_eq_nil_iff.mp hnil
    exact List.mem_take_iff_getElem.mpr ⟨sel.mainSelection, by omega, rfl⟩
  obtain ⟨sel', hsel⟩ := Option.isSome_iff_exists.mp hsome
  have hfresh : Fresh sel.mainSelection 0 outputs := by
    intro k new hk r hr
    refine hnew r (List.mem_flatten.mpr ⟨new, List.mem_of_getElem? hk, ?_⟩)
    unfold unflagged at hr
    split at hr
    · exact List.dropLast_subset _ hr
    · exact hr
  have hvalid : sel'.Valid :=
    valid_of_ofOutputs hsel hfresh hlt (.inl (hmono.imp fun h ↦ h.1))
  obtain ⟨last, hlast⟩ := Option.ne_none_iff_exists'.mp
    (mt List.getLast?_eq_none_iff.mp (hne _ hmem))
  have hget := List.getElem?_eq_getElem hlt
  obtain ⟨main, hmain, haround⟩ := main_of_ofOutputs hsel hvalid hget hlast
  refine ⟨sel', ?_, hvalid.sorted, fun x ↦ ?_, ⟨_, last, main, hget, hlast, hmain, haround⟩,
    hvalid.main_iff⟩
  · rw [mapSelections_eq, hc, Option.bind_some, hsel, Option.map_some]
  · exact covered_ofOutputs hsel (hmono.imp NotBehind.meets) x

/-- Two regions grow into each other and become one. -/
theorem mapSelections_merges_two :
    let sel : Selection := { regions := [⟨2, 0, true⟩, ⟨5, 5, false⟩], mainSelection := 0 }
    ∃ sel', sel.mapSelections (pureClosure fun r ↦ [SelRegion.new (r.max + 4) r.min]) () =
        some ((), sel') ∧ sel'.regions.Pairwise Before ∧
      ∀ x, Covered sel'.regions x ↔ Covered [SelRegion.new 6 0, SelRegion.new 9 5] x := by
  intro sel
  obtain ⟨sel', hmap, hsorted, hcovered, -⟩ := @mapSelections_merges Unit
    (pureClosure fun r ↦ [SelRegion.new (r.max + 4) r.min]) () () sel
    [[SelRegion.new 6 0], [SelRegion.new 9 5]] (by decide) rfl (by decide) (by decide)
    (by unfold NotBehind; decide) (by decide)
  exact ⟨sel', hmap, hsorted, hcovered⟩

end Selection

end Tofu

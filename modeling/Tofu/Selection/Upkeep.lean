import Tofu.Selection.Selection

/-!
# Changing which region is the main one

`clear`, `retain`, `remove`, `select_all`, `select_next` and `select_prev` of
`src/src/selection.rs` against the representation invariant, which all but `remove` keep,
and against the bounds of the buffer.
-/

namespace Tofu

/-- Setting a flag leaves as many regions. -/
@[simp] theorem length_setMain (regions : List SelRegion) (index : Nat) (b : Bool) :
    (setMain regions index b).length = regions.length := List.length_modify ..

private theorem getElem?_setMain (regions : List SelRegion) (index k : Nat) (b : Bool) :
    (setMain regions index b)[k]? =
      (regions[k]?).map fun r ↦ if index = k then { r with main := b } else r := by
  rw [setMain, List.getElem?_modify]
  rfl

/-- The main flag does not count for the order of regions. -/
theorem pairwise_setMain (regions : List SelRegion) (index : Nat) (b : Bool) :
    (setMain regions index b).Pairwise Before ↔ regions.Pairwise Before := by
  have hmap : (setMain regions index b).map (fun r ↦ (r.max, r.min)) =
      regions.map fun r ↦ (r.max, r.min) := by
    refine List.ext_getElem? fun k ↦ ?_
    rw [List.getElem?_map, List.getElem?_map, getElem?_setMain, Option.map_map]
    congr 1
    funext r
    by_cases h : index = k <;> simp [h, SelRegion.max_setMain, SelRegion.min_setMain]
  have hpair (l : List SelRegion) : l.Pairwise Before ↔
      (l.map fun r ↦ (r.max, r.min)).Pairwise fun p q ↦ p.1 < q.2 := by
    rw [List.pairwise_map]
    rfl
  rw [hpair, hpair, hmap]

namespace Selection

/-- Flagging one region makes the selection valid when no other is flagged. -/
theorem valid_setMain {regions : List SelRegion} {m : Nat} (hs : regions.Pairwise Before)
    (hm : m < regions.length) (hf : ∀ k r, regions[k]? = some r → k ≠ m → r.main = false) :
    Valid { regions := setMain regions m true, mainSelection := m } := by
  have hl : m < (setMain regions m true).length := by rwa [length_setMain]
  refine ⟨List.ne_nil_of_length_pos (Nat.zero_lt_of_lt hl), (pairwise_setMain ..).mpr hs, hl,
    fun k r hr ↦ ?_⟩
  rw [getElem?_setMain, Option.map_eq_some_iff] at hr
  obtain ⟨r, hr, rfl⟩ := hr
  by_cases h : m = k
  · simp [h, SelRegion.isMain]
  · simp [h, SelRegion.isMain, hf k r hr (Ne.symm h), Ne.symm h]

private theorem Valid.main_eq_false {sel : Selection} (hv : sel.Valid) {k : Nat} {r : SelRegion}
    (hr : sel.regions[k]? = some r) (hk : k ≠ sel.mainSelection) : r.main = false :=
  Bool.eq_false_iff.mpr fun h ↦ hk ((hv.main_iff k r hr).mp h)

/-- A single cursor at the start is a valid selection. -/
theorem valid_new : new.Valid := by decide

/-- A single region that is kept is a valid selection. -/
theorem Valid.retain {sel sel' : Selection} {index : Nat}
    (h : sel.retain index = some sel') : sel'.Valid := by
  obtain ⟨main, -, h⟩ := Option.bind_eq_some_iff.mp h
  obtain rfl := Option.some.inj h
  exact valid_of_flags (m := 0) (a := 0) (by simp) rfl

/-- So is the region of all data. -/
theorem valid_selectAll (sel : Selection) (bufSize : Nat) : (sel.selectAll bufSize).Valid := by
  rw [selectAll]
  split
  · exact valid_of_flags (m := 0) (a := 0) (by simp) rfl
  · exact valid_of_flags (m := 0) (a := 0) (by simp) rfl

/-- The main flag is moved to another region. -/
structure Switches (sel sel' : Selection) : Prop where
  regions_eq : sel'.regions =
    setMain (setMain sel.regions sel.mainSelection false) sel'.mainSelection true
  main_lt : sel'.mainSelection < sel.regions.length

/-- `select_next` moves the main flag only. -/
theorem switches_selectNext {sel sel' : Selection} {count : Nat}
    (h : sel.selectNext count = some sel') : Switches sel sel' := by
  rw [Selection.selectNext] at h
  split at h
  · next hm =>
    obtain rfl := Option.some.inj h
    simp only [length_setMain]
    exact ⟨rfl, Nat.mod_lt _ (Nat.zero_lt_of_lt hm)⟩
  · simp at h

/-- So does `select_prev`. -/
theorem switches_selectPrev {sel sel' : Selection} {count : Nat}
    (h : sel.selectPrev count = some sel') : Switches sel sel' := by
  rw [Selection.selectPrev] at h
  split at h
  · next hm =>
    obtain rfl := Option.some.inj h
    simp only [length_setMain]
    exact ⟨rfl, Nat.mod_lt _ (Nat.zero_lt_of_lt hm)⟩
  · simp at h

/-- Moving the flag keeps a selection valid. -/
theorem Switches.valid {sel sel' : Selection} (h : Switches sel sel') (hv : sel.Valid) :
    sel'.Valid := by
  obtain ⟨regions, m⟩ := sel'
  obtain ⟨hregions, hm⟩ := h
  dsimp only at hregions hm
  subst hregions
  refine valid_setMain ((pairwise_setMain ..).mpr hv.sorted) (by rwa [length_setMain])
    fun k r hr _ ↦ ?_
  rw [getElem?_setMain, Option.map_eq_some_iff] at hr
  obtain ⟨r, hr, rfl⟩ := hr
  split
  · rfl
  · next h => exact hv.main_eq_false hr (Ne.symm h)

/-! ## Cycling through the regions -/

/-- `select_next` with a sum that does not overflow. -/
def selectNextChecked (sel : Selection) (count : Nat) : Option Selection :=
  (usizeCheckedAdd sel.mainSelection count).bind fun _ ↦ sel.selectNext count

/-- `select_prev` with a sum that does not overflow; the difference cannot. -/
def selectPrevChecked (sel : Selection) (count : Nat) : Option Selection :=
  (usizeCheckedAdd sel.mainSelection sel.len).bind fun _ ↦ sel.selectPrev count

/-- Moving the flag away and back restores the flags. -/
theorem Switches.back {sel sel₁ sel₂ : Selection} (hv : sel.Valid) (h₁ : Switches sel sel₁)
    (h₂ : Switches sel₁ sel₂) (hm : sel₂.mainSelection = sel.mainSelection) : sel₂ = sel := by
  have hregions : sel₂.regions = sel.regions := by
    refine List.ext_getElem? fun k ↦ ?_
    rw [h₂.regions_eq, h₁.regions_eq, hm]
    simp only [getElem?_setMain, Option.map_map]
    cases hr : sel.regions[k]? with
    | none => rfl
    | some r =>
      have hmain := hv.main_iff k r hr
      by_cases hk : sel.mainSelection = k
      · have : r.main = true := hmain.mpr hk.symm
        by_cases hk' : sel₁.mainSelection = k <;> simp [hk, hk', ← this]
      · have : r.main = false := hv.main_eq_false hr (Ne.symm hk)
        by_cases hk' : sel₁.mainSelection = k <;> simp [hk, hk', ← this]
  cases sel₂
  cases sel
  simp only [Selection.mk.injEq]
  exact ⟨hregions, hm⟩

/-- `select_next` counts on from the main region, around the end of the list. -/
theorem Valid.exists_selectNext {sel : Selection} (hv : sel.Valid) (count : Nat) :
    ∃ sel', sel.selectNext count = some sel' ∧ Switches sel sel' ∧
      sel'.mainSelection = usizeAdd sel.mainSelection count % sel.len := by
  have h : (sel.selectNext count).isSome := by rw [selectNext, if_pos hv.main_lt]; rfl
  obtain ⟨sel', h⟩ := Option.isSome_iff_exists.mp h
  refine ⟨sel', h, switches_selectNext h, ?_⟩
  rw [selectNext, if_pos hv.main_lt] at h
  obtain rfl := Option.some.inj h
  simp only [length_setMain, len]

/-- `select_prev` counts back from it, around the start. -/
theorem Valid.exists_selectPrev {sel : Selection} (hv : sel.Valid) (count : Nat) :
    ∃ sel', sel.selectPrev count = some sel' ∧ Switches sel sel' ∧
      sel'.mainSelection = (sel.mainSelection + sel.len - count % sel.len) % sel.len := by
  have h : (sel.selectPrev count).isSome := by rw [selectPrev, if_pos hv.main_lt]; rfl
  obtain ⟨sel', h⟩ := Option.isSome_iff_exists.mp h
  refine ⟨sel', h, switches_selectPrev h, ?_⟩
  rw [selectPrev, if_pos hv.main_lt] at h
  obtain rfl := Option.some.inj h
  simp only [length_setMain, len]

private theorem Switches.len_eq {sel sel' : Selection} (h : Switches sel sel') :
    sel'.len = sel.len := by
  rw [len, h.regions_eq, length_setMain, length_setMain, len]

private theorem back_and_forth {m n : Nat} (c : Nat) (hm : m < n) :
    ((m + c) % n + n - c % n) % n = m ∧ ((m + n - c % n) % n + c) % n = m := by
  have hlt := Nat.mod_lt c (show 0 < n by omega)
  rw [← Nat.add_mod_mod m c n, ← Nat.add_mod_mod _ c n]
  generalize c % n = a at hlt
  constructor
  · by_cases h : m + a < n
    · rw [Nat.mod_eq_of_lt h, show m + a + n - a = m + n by omega, Nat.add_mod_right,
        Nat.mod_eq_of_lt hm]
    · have hwrap : (m + a) % n = m + a - n := by
        rw [Nat.mod_eq_sub_mod (by omega), Nat.mod_eq_of_lt (by omega)]
      rw [hwrap, show m + a - n + n - a = m by omega, Nat.mod_eq_of_lt hm]
  · rw [Nat.mod_add_mod, show m + n - a + a = m + n by omega, Nat.add_mod_right,
      Nat.mod_eq_of_lt hm]

private theorem next_after_prev_lt_iff {m n : Nat} (c bound : Nat) (hm : m < n) :
    (m + n - c % n) % n + c < bound ↔ ∃ v, c ≤ v ∧ v < bound ∧ v % n = m := by
  have hmod := (back_and_forth c hm).2
  have hlt := Nat.mod_lt (m + n - c % n) (show 0 < n by omega)
  constructor
  · exact fun h ↦ ⟨_, by omega, h, hmod⟩
  · rintro ⟨v, hc, hv, hvm⟩
    by_contra hn
    have hdvd := Nat.sub_mod_eq_zero_of_mod_eq (hmod.trans hvm.symm)
    rw [Nat.mod_eq_of_lt (by omega)] at hdvd
    omega

/-- Cycling one way and the other restores the selection without a wrap exactly when the sums
of `select_next` fit the word: the index plus the count, and the first value from the count
on that has the remainder of the index. -/
theorem cycling_restores_iff {sel : Selection} {count : Nat} (hv : sel.Valid)
    (hl : sel.len < 2 ^ 63) :
    ((sel.selectNext count).bind (·.selectPrev count) = some sel ∧
      (sel.selectPrev count).bind (·.selectNext count) = some sel ∧
      ((sel.selectNextChecked count).bind (·.selectPrevChecked count)).isSome ∧
      ((sel.selectPrevChecked count).bind (·.selectNextChecked count)).isSome) ↔
      sel.mainSelection + count < 2 ^ 64 ∧
        ∃ v, count ≤ v ∧ v < 2 ^ 64 ∧ v % sel.len = sel.mainSelection := by
  have hm : sel.mainSelection < sel.len := hv.main_lt
  obtain ⟨nxt, hnext, hsn, hin⟩ := hv.exists_selectNext count
  obtain ⟨prv, hprev, hsp, hip⟩ := hv.exists_selectPrev count
  obtain ⟨back, hback, hsb, hib⟩ := (hsn.valid hv).exists_selectPrev count
  obtain ⟨forth, hforth, hsf, hif⟩ := (hsp.valid hv).exists_selectNext count
  rw [← next_after_prev_lt_iff count _ hm, ← hip]
  have hnm : nxt.mainSelection < sel.len := hsn.main_lt
  have hchecked : ((sel.selectNextChecked count).bind (·.selectPrevChecked count)).isSome ∧
      ((sel.selectPrevChecked count).bind (·.selectNextChecked count)).isSome ↔
        sel.mainSelection + count < 2 ^ 64 ∧ prv.mainSelection + count < 2 ^ 64 := by
    rw [← isSome_usizeCheckedAdd, ← isSome_usizeCheckedAdd]
    have h₁ : usizeCheckedAdd sel.mainSelection sel.len = some (sel.mainSelection + sel.len) :=
      if_pos (by omega)
    have h₂ : usizeCheckedAdd nxt.mainSelection nxt.len = some (nxt.mainSelection + nxt.len) :=
      if_pos (by rw [hsn.len_eq]; omega)
    simp only [selectNextChecked, selectPrevChecked, h₁, hprev, Option.bind_some]
    cases usizeCheckedAdd sel.mainSelection count <;>
      cases usizeCheckedAdd prv.mainSelection count <;> simp [hnext, h₂, hback, hforth]
  rw [hchecked, hnext, hprev, Option.bind_some, Option.bind_some, hback, hforth]
  constructor
  · exact fun h ↦ h.2.2
  · rintro ⟨h₁, h₂⟩
    rw [usizeAdd_of_lt h₁] at hin
    rw [usizeAdd_of_lt h₂, hsp.len_eq, hip, (back_and_forth count hm).2] at hif
    rw [hsn.len_eq, hin, (back_and_forth count hm).1] at hib
    rw [hsn.back hv hsb hib, hsp.back hv hsf hif]
    exact ⟨rfl, rfl, h₁, h₂⟩

/-- Three cursors, cycled by four. -/
theorem cycling_restores_three :
    let sel : Selection :=
      { regions := [SelRegion.new 0 0, { SelRegion.new 2 2 with main := true }, SelRegion.new 5 4],
        mainSelection := 1 }
    (sel.selectNext 4).bind (·.selectPrev 4) = some sel ∧
      (sel.selectPrev 4).bind (·.selectNext 4) = some sel := by
  intro sel
  have h := (@cycling_restores_iff sel 4 (by decide) (by decide)).mpr
    ⟨by decide, 4, by decide, by decide, by decide⟩
  exact ⟨h.1, h.2.1⟩

/-- The largest count adds one and then takes none of three regions away. -/
theorem cycling_wraps :
    let sel : Selection :=
      { regions := [SelRegion.new 0 0, { SelRegion.new 2 2 with main := true }, SelRegion.new 5 4],
        mainSelection := 1 }
    sel.Valid ∧ (sel.selectNext (2 ^ 64 - 1)).bind (·.selectPrev (2 ^ 64 - 1)) ≠ some sel ∧
      sel.selectNextChecked (2 ^ 64 - 1) = none := by
  decide +kernel

/-! ## Removing a region -/

/-- A region before the main one is removed and one behind the main one is left, so that
the index of the main region should have been shifted. -/
def Shifts (sel : Selection) (index : Nat) : Prop :=
  index < sel.mainSelection ∧ sel.mainSelection + 1 < sel.len

instance (sel : Selection) (index : Nat) : Decidable (sel.Shifts index) :=
  inferInstanceAs (Decidable (_ ∧ _))

private theorem remove_eq {sel : Selection} {index : Nat} (h1 : sel.regions.length ≠ 1)
    (hi : index < sel.regions.length) :
    sel.remove index = some
      { regions := setMain (sel.regions.eraseIdx index)
          (min (sel.regions.length - 2) sel.mainSelection) true
        mainSelection := min (sel.regions.length - 2) sel.mainSelection } := by
  simp only [remove, if_neg h1, if_pos hi, List.length_eraseIdx_of_lt hi, Nat.sub_sub]

/-- Without a shift the removal keeps the invariant. -/
theorem Valid.remove {sel sel' : Selection} {index : Nat} (hv : sel.Valid)
    (hi : index < sel.len) (hn : ¬ sel.Shifts index) (h : sel.remove index = some sel') :
    sel'.Valid := by
  have hm := hv.main_lt
  simp only [Shifts, len] at hi hn
  by_cases h1 : sel.regions.length = 1
  · rw [Selection.remove, if_pos h1] at h
    obtain rfl := Option.some.inj h
    exact hv
  · rw [remove_eq h1 hi] at h
    obtain rfl := Option.some.inj h
    refine valid_setMain (hv.sorted.sublist (List.eraseIdx_sublist ..))
      (by rw [List.length_eraseIdx_of_lt hi]; omega) fun k r hr hk ↦ ?_
    rw [List.getElem?_eraseIdx] at hr
    split at hr
    · exact hv.main_eq_false hr (by omega)
    · have := (List.getElem?_eq_some_iff.mp hr).1
      exact hv.main_eq_false hr (by omega)

/-- Without a shift, removing another region leaves the main region the main one. -/
theorem Valid.main_remove {sel sel' : Selection} {index : Nat} (hv : sel.Valid)
    (hi : index < sel.len) (hne : index ≠ sel.mainSelection) (hn : ¬ sel.Shifts index)
    (h : sel.remove index = some sel') : sel'.main = sel.main := by
  have hm := hv.main_lt
  simp only [Shifts, len] at hi hn
  rw [remove_eq (by omega) hi] at h
  obtain rfl := Option.some.inj h
  have hr := List.getElem?_eq_getElem hm
  have hflag : sel.regions[sel.mainSelection].main = true := (hv.main_iff _ _ hr).mpr rfl
  have hpos : (sel.regions.eraseIdx index)[min (sel.regions.length - 2) sel.mainSelection]? =
      sel.regions[sel.mainSelection]? := by
    rw [List.getElem?_eraseIdx]
    split
    · congr 1
      omega
    · congr 1
      omega
  simp only [Selection.main, getElem?_setMain, hpos, hr, if_true, Option.map_some]
  rw [← hflag]

/-- With a shift the flag stays on a region that is no longer at the main index. -/
theorem Valid.remove_shifts {sel sel' : Selection} {index : Nat} (hv : sel.Valid)
    (hs : sel.Shifts index) (h : sel.remove index = some sel') :
    ¬ sel'.Valid ∧ sel'.main ≠ sel.main := by
  obtain ⟨hi, hm⟩ := hs
  simp only [len] at hm
  have hil : index < sel.regions.length := by omega
  rw [remove_eq (by omega) hil, Nat.min_eq_right (by omega)] at h
  obtain rfl := Option.some.inj h
  have hr := List.getElem?_eq_getElem hv.main_lt
  have hnext := List.getElem?_eq_getElem hm
  constructor
  · intro hv'
    have hprev : (setMain (sel.regions.eraseIdx index) sel.mainSelection true)[
        sel.mainSelection - 1]? = some sel.regions[sel.mainSelection] := by
      rw [getElem?_setMain, List.getElem?_eraseIdx, if_neg (by omega),
        Nat.sub_add_cancel (by omega), hr, Option.map_some, if_neg (by omega)]
    have := (hv'.main_iff _ _ hprev).mp ((hv.main_iff _ _ hr).mpr rfl)
    simp only at this
    omega
  · have hlt := List.pairwise_iff_getElem.mp hv.sorted _ _ hv.main_lt hm (Nat.lt_succ_self _)
    simp only [Selection.main, getElem?_setMain, List.getElem?_eraseIdx, if_true]
    rw [if_neg (by omega), hnext, hr, Option.map_some, Ne, Option.some.injEq]
    intro heq
    have := congrArg SelRegion.caret heq
    have hc := hlt.caret_lt
    simp only at this
    omega

/-! ## Staying in the buffer -/

private theorem inBounds_setMain {n index : Nat} {b : Bool} {regions : List SelRegion}
    (h : ∀ r ∈ regions, r.InBounds n) : ∀ r ∈ setMain regions index b, r.InBounds n := by
  intro r hr
  obtain ⟨k, hk⟩ := List.mem_iff_getElem?.mp hr
  rw [getElem?_setMain, Option.map_eq_some_iff] at hk
  obtain ⟨r, hk, rfl⟩ := hk
  have := h r (List.mem_of_getElem? hk)
  split
  · exact this
  · exact this

/-- What is left after a removal, up to the main flag. -/
theorem regions_remove {sel sel' : Selection} {index : Nat} (h : sel.remove index = some sel') :
    sel'.regions = sel.regions ∨
      ∃ m, sel'.regions = setMain (sel.regions.eraseIdx index) m true := by
  rw [Selection.remove] at h
  split at h
  · obtain rfl := Option.some.inj h
    exact .inl rfl
  · split at h
    · obtain rfl := Option.some.inj h
      exact .inr ⟨_, rfl⟩
    · simp at h

section InBounds

variable {n : Nat} {sel sel' : Selection} (hb : ∀ r ∈ sel.regions, r.InBounds n)
include hb

/-- A region that is kept stays within the data. -/
theorem inBounds_retain {index : Nat} (h : sel.retain index = some sel') :
    ∀ r ∈ sel'.regions, r.InBounds n := by
  obtain ⟨main, hm, h⟩ := Option.bind_eq_some_iff.mp h
  obtain rfl := Option.some.inj h
  simp only [List.mem_singleton, forall_eq]
  exact hb main (List.mem_of_getElem? hm)

/-- So do those left when one is removed. -/
theorem inBounds_remove {index : Nat} (h : sel.remove index = some sel') :
    ∀ r ∈ sel'.regions, r.InBounds n := by
  rcases regions_remove h with heq | ⟨m, heq⟩
  · rwa [heq]
  · rw [heq]
    exact inBounds_setMain fun r hr ↦ hb r (List.mem_of_mem_eraseIdx hr)

/-- So do all when the flag moves. -/
theorem Switches.inBounds (h : Switches sel sel') : ∀ r ∈ sel'.regions, r.InBounds n := by
  rw [h.regions_eq]
  exact inBounds_setMain (inBounds_setMain hb)

end InBounds

/-- The region of all data is within it. -/
theorem inBounds_selectAll (sel : Selection) (n : Nat) :
    ∀ r ∈ (sel.selectAll n).regions, r.InBounds n := by
  intro r hr
  rw [selectAll] at hr
  split at hr
  · obtain rfl := List.mem_singleton.mp hr
    exact ⟨Nat.zero_le _, Nat.zero_le _⟩
  · obtain rfl := List.mem_singleton.mp hr
    exact ⟨Nat.sub_le _ _, Nat.zero_le _⟩

end Selection

end Tofu

import Mathlib.Data.List.Perm.Subperm
import Tofu.Modes.HexByte

/-!
# Deleting and pasting back

`d` yanks the selected bytes, removes them and leaves a cursor at each place,
`src/src/modes/normal.rs:218–226`; `P` puts the entries of the register before the cursors,
`:249–258`. While no two cursors fall together, the entries go back where they came from.
-/

namespace Tofu

open Rope SelRegion Ops

variable {X : XiRope UInt8}

namespace Selection

/-- Cursors mapped in order of which none was merged lie apart. -/
theorem before_of_length_eq {g : SelRegion → SelRegion} {sel sel' : Selection}
    (h : (sel.mapRegions fun r ↦ [g r]) = some sel') (hs : sel'.regions.Pairwise Before)
    (hg : ∀ r ∈ sel.regions, (g r).caret = (g r).tail)
    (ho : sel.regions.Pairwise fun r s ↦ (g r).caret ≤ (g s).caret)
    (hl : sel'.regions.length = sel.regions.length) : (sel.regions.map g).Pairwise Before := by
  have hcursors : ∀ s ∈ sel'.regions,
      s.caret = s.tail ∧ s.caret ∈ sel.regions.map fun r ↦ (g r).caret := by
    refine forall_of_ofOutputs (fun a b m ha hb hm ↦ ?_) (fun _ hs ↦ hs) h ?_
    · have hf := hm.strictForward_iff
      have hb' := hm.strictBackward_iff
      have hmax := hm.max_eq
      simp only [StrictForward, StrictBackward, SelRegion.max] at hf hb' hmax
      refine ⟨by omega, ?_⟩
      rcases Nat.le_total a.caret b.caret with hle | hle
      · rw [show m.caret = b.caret by omega]
        exact hb.2
      · rw [show m.caret = a.caret by omega]
        exact ha.2
    · rw [flatten_map_singleton]
      exact List.forall_mem_map.mpr fun r hr ↦ ⟨hg r hr, List.mem_map_of_mem hr⟩
  have hnodup : (sel'.regions.map caret).Nodup := (pairwise_caret hs).imp Nat.ne_of_lt
  have hsub : sel'.regions.map caret ⊆ sel.regions.map fun r ↦ (g r).caret := by
    intro c hc
    obtain ⟨s, hs, rfl⟩ := List.mem_map.mp hc
    exact (hcursors s hs).2
  have hperm := (List.subperm_of_subset hnodup hsub).perm_of_length_le (by simp [hl])
  have hne : sel.regions.Pairwise fun r s ↦ (g r).caret ≠ (g s).caret :=
    List.pairwise_map.mp (hperm.nodup_iff.mp hnodup)
  refine List.pairwise_map.mpr ((ho.and hne).imp_of_mem fun {r s} hr hs hrs ↦ ?_)
  have hr' := hg r hr
  have hs' := hg s hs
  simp only [Before, SelRegion.max, SelRegion.min]
  omega

end Selection

/-! ## Deleting -/

section Delete

variable {data : List UInt8} {sel : Selection} (hp : sel.Placed data.length)
  (hlen : data.length < 2 ^ 63)

/-- The edits of a deletion. -/
def deletions (sel : Selection) : List (Edit UInt8) :=
  sel.regions.map fun r ↦ ⟨r.min, r.max + 1, []⟩

/-- The register after yanking. -/
def yanked (data : List UInt8) (sel : Selection) : List (List UInt8) :=
  (deletions sel).map (Splice.removed data)

include hp hlen

/-- The register holds the bytes of each region. -/
theorem yankSelections_eq {b : CurrentBuffer X} (hdata : b.data = data) (hsel : b.selection = sel)
    (hne : b.data ≠ []) (register : Char) :
    b.yankSelections register =
      some { b with registers := (register, yanked data sel) :: b.registers } := by
  subst hdata hsel
  have hslice : ∀ r ∈ b.selection.regions, sliceToCow b.data r.interval =
      some (Splice.removed b.data ⟨r.min, r.max + 1, []⟩) := by
    intro r hr
    have hmax := (inBounds_iff_max_le _ r).mp (hp.inBounds r hr)
    have hmin := r.min_le_max
    rw [interval, usizeSaturatingAdd_of_lt (by omega), sliceToCow, if_neg (by simp only; omega)]
    rfl
  have hmapM : (b.selection.regions.mapM fun r ↦ sliceToCow b.data r.interval) =
      some (yanked b.data b.selection) := by
    rw [yanked, deletions, List.map_map]
    generalize b.selection.regions = regions at hslice
    induction regions with
    | nil => rfl
    | cons r regions ih =>
      rw [List.mapM_cons, hslice r (by simp), ih fun s hs ↦ hslice s (by simp [hs])]
      rfl
  rw [CurrentBuffer.yankSelections, if_neg hne, hmapM]
  rfl

private theorem exists_deletion : ∃ d : X.Delta, deletion X data sel = some d ∧
    Makes d data.length (deletions sel) := by
  obtain ⟨d, hd, hm⟩ := @exists_delta X deletionEdit _ _ hp
    (fun r hr ↦ fits_regionEdit hr fun _ ↦ []) (follow_regionEdit fun _ ↦ [])
  rw [← deletion_eq hp.inBounds hlen] at hd
  refine ⟨d, hd, ?_⟩
  have hes : sel.regions.filterMap deletionEdit = deletions sel := by
    rw [deletions, ← List.filterMap_eq_map]
    rfl
  rwa [hes] at hm

omit hlen

/-- A region is left as a cursor at the place of its first byte. -/
theorem carried_of_deletions {d : X.Delta} (hm : Makes d data.length (deletions sel))
    {r : SelRegion} (hr : r ∈ sel.regions) :
    carried data.length (deletions sel) r =
      new (Splice.transform data.length 0 (deletions sel) r.min)
        (Splice.transform data.length 0 (deletions sel) r.min) := by
  have hmax := (inBounds_iff_max_le _ r).mp (hp.inBounds r hr)
  have hcursor : ∀ q, r.min ≤ q → q ≤ r.max →
      Splice.transform data.length 0 (deletions sel) q =
        Splice.transform data.length 0 (deletions sel) r.min := by
    intro q hq hq'
    refine ((hm.transform_eq_iff hq (by omega)).mpr fun x hx hx' ↦ ?_).symm
    exact ⟨_, List.mem_map_of_mem hr, hx, by simp only; omega⟩
  rw [carried, hcursor _ r.min_le_caret r.caret_le_max, hcursor _ r.min_le_tail r.tail_le_max]

/-- The selection after a deletion: it is there, and unless regions were lost it has a cursor at
the place of every region. -/
theorem applyDelta_of_deletions {d : X.Delta} (hm : Makes d data.length (deletions sel))
    (hv : sel.Valid) :
    ∃ sel', sel.applyDelta X d data.length = some sel' ∧ sel'.Valid ∧
      sel'.Placed (Splice.transform data.length 0 (deletions sel) data.length) ∧
      (sel'.len = sel.len → sel'.regions.map SelRegion.min =
        sel.regions.map fun r ↦ Splice.transform data.length 0 (deletions sel) r.min) := by
  obtain ⟨hnone, hsome⟩ := hm.applyDelta_update hv
  have hcursor := fun r hr ↦ carried_of_deletions hp hm (r := r) hr
  cases hsel : sel.applyDelta X d data.length with
  | none =>
    -- cursors point nowhere, so they do not clash
    obtain ⟨a, ha, b, -, ho⟩ := (hnone.mp hsel).exists_mem
    obtain ⟨r, hr, rfl⟩ := List.mem_map.mp ha
    rw [hcursor r hr] at ho
    simp [Opposed, StrictForward, StrictBackward] at ho
  | some sel' =>
    obtain ⟨hv', hp'⟩ := hsome sel' hsel
    refine ⟨sel', rfl, hv', hp', fun hl ↦ ?_⟩
    rw [hm.applyDelta_eq] at hsel
    split at hsel
    · next hz =>
      -- the one region there was covered the whole buffer
      obtain rfl := Option.some.inj hsel
      obtain ⟨r, hr⟩ := List.length_eq_one_iff.mp hl.symm
      have hzero : Splice.transform data.length 0 (deletions sel) r.min = 0 :=
        Nat.le_zero.mp (Nat.le_trans (hm.transform_le r.min) (Nat.le_of_eq hz))
      rw [hr, List.map_singleton, hzero]
      rfl
    · have ho : sel.regions.Pairwise fun r s ↦ (carried data.length (deletions sel) r).caret ≤
          (carried data.length (deletions sel) s).caret :=
        hv.sorted.imp fun hrs ↦ hm.mono (Nat.le_of_lt hrs.caret_lt)
      have hbefore := Selection.before_of_length_eq hsel hp'.sorted
        (fun r hr ↦ by rw [hcursor r hr]; rfl) ho hl
      rw [Selection.mapRegions_of_before hbefore hv.main_lt, Option.some.injEq] at hsel
      rw [← hsel, Selection.map_mapEach (fun _ _ ↦ rfl)]
      refine List.map_congr_left fun r hr ↦ ?_
      rw [hcursor r hr, min_new, Nat.min_self]

end Delete

/-! ## Pasting -/

section Paste

variable {data base : List UInt8} {sel sel' : Selection}
  (hpos : sel'.regions.map SelRegion.min =
    sel.regions.map fun r ↦ Splice.transform data.length 0 (deletions sel) r.min)
include hpos

private theorem length_yanked : sel'.regions.length = (yanked data sel).length := by
  simpa [yanked, deletions] using congrArg List.length hpos

private theorem pasteItems_yanked (lastValue : List UInt8) :
    pasteItems sel'.regions (yanked data sel) lastValue =
      sel'.regions.zip (yanked data sel) := by
  have hzip : (sel'.regions ++ []).zip (yanked data sel ++
        List.replicate sel'.regions.length lastValue) =
      sel'.regions.zip (yanked data sel) ++ [].zip (List.replicate sel'.regions.length lastValue) :=
    List.zip_append (length_yanked hpos)
  rwa [List.append_nil, List.zip_nil_left, List.append_nil] at hzip

private theorem pasteEdits_yanked :
    (sel'.regions.zip (yanked data sel)).filterMap (pasteEdit base.length 1 false) =
      Splice.reinsertions data (deletions sel) := by
  have hedit : pasteEdit base.length 1 false =
      some ∘ fun item ↦ ⟨item.1.min, item.1.min, item.2⟩ := by
    funext item
    simp [pasteEdit]
  have hzip : (sel'.regions.zip (yanked data sel)).map
      (fun item ↦ (⟨item.1.min, item.1.min, item.2⟩ : Edit UInt8)) =
        List.zipWith (fun p text ↦ ⟨p, p, text⟩) (sel'.regions.map SelRegion.min)
          (yanked data sel) := by
    rw [List.zip, List.map_zipWith, List.zipWith_map_left]
  rw [hedit, List.filterMap_eq_map, hzip, hpos, Splice.reinsertions, yanked, deletions,
    List.map_map, List.zipWith_map, List.zipWith_self, List.map_map]
  rfl

/-- Pasting the yanked bytes before the cursors a deletion left makes the reinsertions. -/
theorem exists_paste (hbase : base.length < 2 ^ 63) (hp' : sel'.Placed base.length)
    (hne : sel.regions ≠ []) :
    ∃ d : X.Delta, paste X base sel' (yanked data sel) false 1 = some d ∧
      Makes d base.length (Splice.reinsertions data (deletions sel)) := by
  obtain ⟨lastValue, hlast⟩ : ∃ lastValue, (yanked data sel).getLast? = some lastValue :=
    Option.isSome_iff_exists.mp (by simpa [yanked, deletions] using hne)
  have hfst : ∀ item ∈ sel'.regions.zip (yanked data sel), item.1 ∈ sel'.regions :=
    fun item hi ↦ (List.of_mem_zip hi).1
  have hsorted : (sel'.regions.zip (yanked data sel)).Pairwise fun a b ↦ Before a.1 b.1 := by
    have hregions : (sel'.regions.zip (yanked data sel)).map Prod.fst = sel'.regions :=
      List.map_fst_zip (Nat.le_of_eq (length_yanked hpos))
    rw [← List.pairwise_map (f := Prod.fst) (R := Before), hregions]
    exact hp'.sorted
  have hfit : ∀ item ∈ sel'.regions.zip (yanked data sel),
      Fits (pasteEdit base.length 1 false) base.length item :=
    fun item hi ↦ fits_pasteEdit (hp'.inBounds item.1 (hfst item hi)) 1 false item.2
  obtain ⟨d, hd⟩ := Option.isSome_iff_exists.mp (isSome_editItems (X := X) (n := base.length)
    hsorted (follow_pasteEdit base.length 1 false) fun item hi e he ↦ (hfit item hi e he).1)
  have hm := editItems_makes hd hfit
  rw [pasteEdits_yanked hpos] at hm
  refine ⟨d, ?_, hm⟩
  rw [paste_eq hp'.inBounds hbase, hlast, Option.bind_some, pasteItems_yanked hpos, hd]

end Paste

/-- `apply_delta` once the selection is known. -/
theorem CurrentBuffer.exists_applyDelta {b : CurrentBuffer X} {d : X.Delta} {sel' : Selection}
    (h : b.selection.applyDelta X d b.data.length = some sel') :
    ∃ b', b.applyDelta d = some (b', .changeLength) ∧ b'.data = X.apply d b.data ∧
      b'.selection = sel' ∧ b'.registers = b.registers := by
  refine ⟨{ b.applyDeltaToCurrentBuffer d true with selection := sel' }, ?_, rfl, rfl, rfl⟩
  have hsel : (b.applyDeltaToCurrentBuffer d true).selection = b.selection := rfl
  simp only [applyDelta, applyWith, hsel, h, Option.bind_eq_bind, Option.bind_some]

/-- Inserting moves regions apart, so the selection after a paste is there. -/
theorem exists_applyDelta_of_reinsertions {d : X.Delta} {base data : List UInt8} {sel : Selection}
    {es : List (Edit UInt8)} (hm : Makes d base.length (Splice.reinsertions data es))
    (hv : sel.Valid) (hp : sel.Placed base.length) :
    ∃ sel', sel.applyDelta X d base.length = some sel' := by
  rw [← Option.isSome_iff_exists, Option.isSome_iff_ne_none, Ne, (hm.applyDelta_update hv).1]
  refine not_clashOn_carried_of_kept hm hp.sorted hp.inBounds fun x _ ↦ ?_
  rintro ⟨e, he, h1, h2⟩
  obtain ⟨f, -, rfl⟩ := List.mem_map.mp he
  exact absurd h2 (Nat.not_lt.mpr h1)

/-- `d` and then `P` with the count one: the deletion does not panic, and if it leaves as many
regions as there were, the paste does not panic and restores the data. -/
theorem delete_paste_restores (m m' : Normal) {b : CurrentBuffer X} (register : Char)
    (bytesPerLine : Nat) (hv : b.selection.Valid)
    (hin : ∀ r ∈ b.selection.regions, r.InBounds b.data.length) (hne : b.data ≠ [])
    (hlen : b.data.length < 2 ^ 63) (hcount : m'.countState.toCount = 1) :
    ∃ b₁, m.act (.delete register) b bytesPerLine = some (some (.dirtyBytes .changeLength, b₁)) ∧
      (b₁.selection.len = b.selection.len →
        ∃ b₂, m'.act (.paste false register) b₁ bytesPerLine =
            some (some (.dirtyBytes .changeLength, b₂)) ∧ b₂.data = b.data) := by
  have hp : b.selection.Placed b.data.length := ⟨hv.sorted, hin⟩
  have hyank := yankSelections_eq hp hlen (b := b) rfl rfl hne register
  obtain ⟨d, hd, hm⟩ := exists_deletion (X := X) hp hlen
  obtain ⟨sel', hsel, hv', hp', hpos⟩ := applyDelta_of_deletions hp hm hv
  obtain ⟨b₁, hb₁, hdata, rfl, hreg⟩ := CurrentBuffer.exists_applyDelta
    (b := { b with registers := (register, yanked b.data b.selection) :: b.registers }) hsel
  refine ⟨b₁, ?_, fun hl ↦ ?_⟩
  · simp only [Normal.act, hyank, Option.bind_eq_bind, Option.bind_some, if_neg hne,
      Normal.deleteSelected, hd, hb₁, Outcome.dirty, Option.map_some]
  · have hlen₁ : b₁.data.length =
        Splice.transform b.data.length 0 (deletions b.selection) b.data.length := by
      rw [hdata]
      exact hm.length_apply rfl
    rw [← hlen₁] at hp'
    have hle : b₁.data.length ≤ b.data.length := by
      have hadd := Splice.transform_le_add b.data.length (deletions b.selection) 0 b.data.length
        hm.sorted hm.within
      simpa [hlen₁, deletions, Function.comp_def] using hadd
    obtain ⟨d', hd', hm'⟩ := exists_paste (X := X) (hpos hl) (by omega) hp' hv.nonempty
    obtain ⟨sel₂, hsel₂⟩ := exists_applyDelta_of_reinsertions hm' hv' hp'
    obtain ⟨b₂, hb₂, hdata₂, -, -⟩ := CurrentBuffer.exists_applyDelta (b := b₁) hsel₂
    refine ⟨b₂, ?_, ?_⟩
    · have hlookup : (b₁.registers.lookup register).getD [[]] = yanked b.data b.selection := by
        simp [hreg]
      simp only [Normal.act, hlookup, hcount, hd', Option.bind_some, hb₂, Outcome.dirty,
        Option.map_some]
    · rw [hdata₂, hm'.apply _ rfl, hdata, hm.apply _ rfl]
      exact Splice.apply_reinsertions _ _ hm.sorted hm.within fun e he ↦ by
        obtain ⟨r, -, rfl⟩ := List.mem_map.mp he
        rfl

/-- Two regions, of which the second one includes the overflow position. -/
theorem delete_paste_restores_overflow :
    let b : CurrentBuffer (XiRope.reference UInt8) :=
      .withRegions [1, 2, 3, 4, 5] [⟨0, 1, true⟩, ⟨5, 3, false⟩]
    ∃ b₁ b₂, Normal.new.act (.delete '"') b 16 = some (some (.dirtyBytes .changeLength, b₁)) ∧
      b₁.data = [3] ∧
      Normal.new.act (.paste false '"') b₁ 16 = some (some (.dirtyBytes .changeLength, b₂)) ∧
      b₂.data = [1, 2, 3, 4, 5] := by
  intro b
  obtain ⟨b₁, hb₁, h⟩ := delete_paste_restores Normal.new Normal.new (b := b) '"' 16 (by decide)
    (by decide) (by decide) (by decide) rfl
  have hdel : (Normal.new.act (.delete '"') b 16).map
      (Option.map fun p ↦ (p.2.data, p.2.selection.len)) = some (some ([3], 2)) := by decide
  rw [hb₁, Option.map_some, Option.map_some] at hdel
  obtain ⟨hdata, hl⟩ := Prod.mk.inj (Option.some.inj (Option.some.inj hdel))
  obtain ⟨b₂, hb₂, hrestored⟩ := h hl
  exact ⟨b₁, b₂, hb₁, hdata, hb₂, hrestored⟩

end Tofu

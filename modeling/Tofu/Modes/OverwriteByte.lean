import Tofu.Modes.CaretWrites

/-!
# A byte overwritten as two hex digits

In overwrite mode the first digit goes into the upper half of the byte under each caret and
the carets are set back onto these bytes, the second one writes the whole byte
(`src/src/modes/insert.rs:80–130`). Setting the carets back by one takes a run of cursors on
neighbouring bytes to its last byte, so that the second digit reaches that one only.
-/

namespace Tofu

open Rope SelRegion

variable {X : XiRope UInt8}

/-! ## The carets left after merging -/

/-- Regions with one caret keep it when they are merged. -/
theorem SelRegion.IsMerge.caret_eq {a b m : SelRegion} (hm : IsMerge a b m)
    (h : a.caret = b.caret) : m.caret = a.caret := by
  by_cases hb : m.StrictBackward
  · have hf : ¬ a.StrictForward ∧ ¬ b.StrictForward :=
      not_or.mp fun hf ↦ Nat.lt_asymm hb (hm.strictForward_iff.mpr hf)
    rw [caret_eq_min (Nat.lt_asymm hb), hm.min_eq, ← caret_eq_min hf.1, ← caret_eq_min hf.2, h,
      Nat.min_self]
  · obtain ⟨ha, hb'⟩ := not_or.mp (mt hm.strictBackward_iff.mpr hb)
    rw [caret_eq_max hb, hm.max_eq, ← caret_eq_max ha, ← caret_eq_max hb', h, Nat.max_self]

-- The carets so far are those of the regions done, and the last region ends as one of them.
private structure KeepsCarets (done out : List SelRegion) : Prop where
  carets : ∀ p, CaretAt out p ↔ CaretAt done p
  head : ∀ last ∈ out.head?, ∃ d ∈ done, last.caret = d.caret ∧ last.max = d.max

private theorem caretAt_cons {r : SelRegion} {l : List SelRegion} {p : Nat} :
    CaretAt (r :: l) p ↔ r.caret = p ∨ CaretAt l p := by
  simp [CaretAt]

private theorem caretAt_concat {r : SelRegion} {l : List SelRegion} {p : Nat} :
    CaretAt (l ++ [r]) p ↔ r.caret = p ∨ CaretAt l p := by
  simp only [CaretAt, List.mem_append, List.mem_singleton, or_and_right, exists_or,
    exists_eq_left]
  exact or_comm

private theorem KeepsCarets.pushRegion {done out out' : List SelRegion} {r : SelRegion}
    (h : KeepsCarets done out) (hp : pushRegion out r = some out')
    (hr : ∀ a ∈ done, NotBehind a r ∧ (Touch a r → a.caret = r.caret)) :
    KeepsCarets (done ++ [r]) out' := by
  rcases pushRegion_cases hp with ⟨rfl, rfl⟩ | ⟨last, rest, rfl, -, rfl⟩ |
    ⟨last, rest, m, rfl, ht, hm, rfl⟩
  · refine ⟨fun p ↦ ?_, by simp⟩
    rw [caretAt_cons, caretAt_concat, h.carets]
  · refine ⟨fun p ↦ ?_, by simp⟩
    rw [caretAt_cons, caretAt_concat, h.carets]
  · obtain ⟨d, hd, hcaret, hmax⟩ := h.head last rfl
    have hdr := (hr d hd).2 (by unfold Touch at ht ⊢; omega)
    have hmc : m.caret = last.caret := hm.caret_eq (hcaret.trans hdr)
    refine ⟨fun p ↦ ?_, fun y hy ↦ ?_⟩
    · rw [caretAt_cons, hmc, ← caretAt_cons, h.carets, caretAt_concat, or_iff_right_of_imp]
      rintro rfl
      exact ⟨d, hd, hdr⟩
    · obtain rfl : m = y := by simpa using hy
      refine ⟨r, by simp, by rw [hmc, hcaret, hdr], ?_⟩
      rw [hm.max_eq, hmax, Nat.max_eq_right (hr d hd).1.2]

/-- Where regions that touch have one caret, merging them keeps all carets. -/
theorem Selection.caretAt_mapRegions {g : SelRegion → SelRegion} {sel sel' : Selection}
    (h : (sel.mapRegions fun r ↦ [g r]) = some sel')
    (hg : sel.regions.Pairwise fun a b ↦
      NotBehind (g a) (g b) ∧ (Touch (g a) (g b) → (g a).caret = (g b).caret)) (p : Nat) :
    CaretAt sel'.regions p ↔ ∃ r ∈ sel.regions, (g r).caret = p := by
  obtain ⟨⟨out, m⟩, ha, rfl⟩ := Option.map_eq_some_iff.mp h
  have hpair : (sel.regions.map g).Pairwise fun a b ↦
      NotBehind a b ∧ (Touch a b → a.caret = b.caret) := List.pairwise_map.mpr hg
  have hend : ∃ done, done ++ [] = sel.regions.map g ∧ KeepsCarets done out := by
    refine assemble_induction
      (I := fun out rest ↦ ∃ done, done ++ rest = sel.regions.map g ∧ KeepsCarets done out)
      ?_ ?_ ha ⟨[], flatten_map_singleton g sel.regions, by simp [CaretAt], by simp⟩
    · rintro out r rs out' ⟨done, hdone, hc⟩ hp
      refine ⟨done ++ [r], by rw [← hdone, List.append_assoc]; rfl, hc.pushRegion hp fun a ha ↦ ?_⟩
      rw [← hdone] at hpair
      exact (List.pairwise_append.mp hpair).2.2 a ha r List.mem_cons_self
    · rintro last rest rs ⟨done, hdone, hcarets, hhead⟩
      refine ⟨done, hdone, fun p ↦ ?_, fun y hy ↦ ?_⟩
      · rw [← hcarets, caretAt_cons, caretAt_cons]
      · obtain rfl : { last with main := true } = y := by simpa using hy
        exact hhead last rfl
  obtain ⟨done, hdone, hc⟩ := hend
  rw [List.append_nil] at hdone
  have hrev : CaretAt out.reverse p ↔ CaretAt out p := by simp only [CaretAt, List.mem_reverse]
  rw [hrev, hc.carets, hdone]
  simp only [CaretAt, List.mem_map, exists_exists_and_eq_and]

/-! ## Neighbouring regions -/

/-- Of regions next to each other the first one points backward, or both or neither point
forward. -/
def NeighboursAgree (regions : List SelRegion) : Prop :=
  ∀ r ∈ regions, ∀ s ∈ regions, s.min = r.max + 1 →
    r.StrictBackward ∨ (r.StrictForward ↔ s.StrictForward)

section Neighbours

variable {l : List SelRegion} {a b : SelRegion} (hl : l.Pairwise Before)
include hl

/-- The first digit panics where neighbouring regions do not agree. -/
theorem not_clashOn_half_iff : ¬ ClashOn HalfJoins HalfOpposed l ↔ NeighboursAgree l := by
  have hsides : HalfOpposed = fun a b ↦ ¬ (a.StrictForward ↔ b.StrictForward) := by
    funext a b
    rw [HalfOpposed]
    exact propext ⟨fun h ↦ by tauto, fun h ↦ by tauto⟩
  rw [hsides, not_clashOn_sides_iff]
  constructor
  · intro hchain r hr s hs hnext
    by_cases hb : r.StrictBackward
    · exact .inl hb
    · have hmin := r.min_le_max
      have hmax := s.min_le_max
      have hjoins := rel_of_isChain hl hchain hr hs (by unfold Before; omega)
        (by rintro rfl; omega) fun c _ h1 h2 ↦ by
          have := c.min_le_max
          unfold Before at h1 h2
          omega
      refine .inr ⟨fun hf ↦ ?_, fun hf ↦ ?_⟩
      · by_contra hg
        exact hg ((hjoins ⟨hnext, hb, fun h ↦ hg h.2⟩).mp hf)
      · by_contra hg
        exact hg ((hjoins ⟨hnext, hb, fun h ↦ hg h.1⟩).mpr hf)
  · intro hagree
    refine (isChain_neighbours hl).imp ?_
    rintro a b ⟨ha, hb, -, -⟩ ⟨hnext, hback, -⟩
    exact (hagree a ha b hb hnext).resolve_left hback

/-- A region whose tail is not its caret has no caret at its tail. -/
theorem tail_notMem (hr : a ∈ l) (hne : a.tail ≠ a.caret) : a.tail ∉ l.map caret := by
  intro hmem
  exact hne ((caretAt_iff hl hr a.min_le_tail a.tail_le_max).mp (List.mem_map.mp hmem)).symm

/-- A region whose caret lies directly before another one ends there. -/
theorem min_eq_of_caret_succ (ha : a ∈ l) (hb : b ∈ l) (h : a.caret + 1 = b.min) :
    b.min = a.max + 1 := by
  have hcaret := a.caret_le_max
  rcases eq_or_rel_of_pairwise hl ha hb with rfl | hab | hba
  · have := a.min_le_caret
    omega
  · unfold Before at hab
    omega
  · have := hba.caret_lt
    have := b.min_le_caret
    omega

/-- A backward region ends where it did, before the next ones. -/
theorem not_touch_of_strictBackward (ha : a ∈ l) (hb : b ∈ l) (hab : Before a b)
    (hback : a.StrictBackward) : ¬ Touch (writtenBack l a) (writtenBack l b) := by
  have hlt : a.max < b.min := hab
  have hat := a.tail_le_max
  have hbc := b.min_le_caret
  have hbt := b.min_le_tail
  have hcaret := lt_behind_caret hl hb
  have htail := Splice.le_behind (l.map caret) b.tail
  simp only [Touch, writtenBack, min_new, max_new]
  rw [behind_tail hl ha (Nat.ne_of_gt hback), behind_caret hl ha hback]
  unfold StrictBackward at hback
  omega

/-- A forward region starts at its tail, which the carets before it do not reach: the last one of
them would belong to a forward region too, and its tail lie among them. -/
theorem not_touch_of_strictForward (hagree : NeighboursAgree l) (ha : a ∈ l) (hb : b ∈ l)
    (hab : Before a b) (hback : ¬ a.StrictBackward) (hf : b.StrictForward) :
    ¬ Touch (writtenBack l a) (writtenBack l b) := by
  intro ht
  have hcs := pairwise_caret hl
  have hlt : a.max < b.min := hab
  have hac := a.caret_le_max
  have hla := lt_behind_caret hl ha
  have hlb := lt_behind_caret hl hb
  have hstart : b.tail = b.min := tail_eq_min hf
  have htail : Splice.behind (l.map caret) a.tail ≤ Splice.behind (l.map caret) a.caret :=
    Splice.behind_mono hcs (Nat.not_lt.mp hback)
  have hbtail := tail_notMem hl hb (Nat.ne_of_lt hf)
  simp only [Touch, writtenBack, min_new, max_new] at ht
  rw [behind_tail hl hb (Nat.ne_of_lt hf)] at ht
  unfold StrictForward at hf
  have hrun : Splice.behind (l.map caret) a.caret = b.tail := by
    by_contra hne
    exact hbtail (Splice.mem_of_lt_behind (p := a.caret) (by omega) (by omega))
  have hlast : b.tail - 1 ∈ l.map caret :=
    Splice.mem_of_lt_behind (p := a.caret) (by omega) (by omega)
  obtain ⟨e, he, hec⟩ := List.mem_map.mp hlast
  have hnext := min_eq_of_caret_succ hl he hb (by omega)
  have hef : e.StrictForward := by
    refine ((hagree e he b hb hnext).resolve_left ?_).mpr hf
    have := e.tail_le_max
    unfold StrictBackward
    omega
  refine tail_notMem hl he (Nat.ne_of_lt hef) (Splice.mem_of_lt_behind (p := a.caret) ?_ ?_)
  · rcases eq_or_rel_of_pairwise hl ha he with rfl | h | h
    · -- two forward regions next to each other do not touch
      rw [behind_tail hl ha (Nat.ne_of_lt hef)] at ht
      unfold StrictForward at hef
      omega
    · have := e.min_le_tail
      unfold Before at h
      omega
    · have := h.caret_lt
      omega
  · unfold StrictForward at hef
    omega

/-- Where neighbouring regions agree, the ones that touch once their carets are set back have
one caret. -/
theorem caret_eq_of_touch (hagree : NeighboursAgree l) (ha : a ∈ l) (hb : b ∈ l)
    (hab : Before a b) (ht : Touch (writtenBack l a) (writtenBack l b)) :
    (writtenBack l a).caret = (writtenBack l b).caret := by
  have hback : ¬ a.StrictBackward := fun h ↦ not_touch_of_strictBackward hl ha hb hab h ht
  have hf : ¬ b.StrictForward := fun h ↦ not_touch_of_strictForward hl hagree ha hb hab hback h ht
  have hcs := pairwise_caret hl
  have hmono := Splice.behind_mono hcs (Nat.le_of_lt hab.caret_lt)
  have hla := lt_behind_caret hl ha
  have hlb := lt_behind_caret hl hb
  have hlt : a.max < b.min := hab
  have hac : a.caret = a.max := caret_eq_max hback
  have hbc : b.caret = b.min := caret_eq_min hf
  have hatail : Splice.behind (l.map caret) a.tail ≤ Splice.behind (l.map caret) a.caret :=
    Splice.behind_mono hcs (Nat.not_lt.mp hback)
  have hbtail : Splice.behind (l.map caret) b.caret ≤ Splice.behind (l.map caret) b.tail :=
    Splice.behind_mono hcs (Nat.not_lt.mp hf)
  simp only [Touch, writtenBack, min_new, max_new] at ht
  simp only [writtenBack, caret_new]
  by_contra hne
  -- what lies behind the first run of carets is at or before the last caret of the second
  exact Splice.behind_notMem hcs a.caret
    (Splice.mem_of_lt_behind (p := b.caret) (by omega) (by omega))

/-- The carets set back are the last ones of runs of carets. -/
theorem caret_writtenBack_iff (p : Nat) :
    (∃ r ∈ l, (writtenBack l r).caret = p) ↔ CaretAt l p ∧ ¬ CaretAt l (p + 1) := by
  have h := Splice.exists_behind_sub_one_iff (p := p) (pairwise_caret hl)
  simp only [List.mem_map, exists_exists_and_eq_and] at h
  exact h

end Neighbours

/-! ## The digits one after the other -/

/-- What the first digit leaves: half a byte under every caret, and the carets on the last byte of
each run of them. -/
structure HalfOverwritten (top : UInt8) (b b₁ : CurrentBuffer X) : Prop where
  data : ∀ i, b₁.data[i]? = if CaretAt b.selection.regions i
    then some (Ops.withUpperHalf top (b.data[i]?.getD 0)) else b.data[i]?
  length : b₁.data.length ≤ b.data.length + 1
  placed : b₁.selection.Placed b₁.data.length
  carets : ∀ p, CaretAt b₁.selection.regions p ↔
    CaretAt b.selection.regions p ∧ ¬ CaretAt b.selection.regions (p + 1)

namespace CurrentBuffer

variable {b : CurrentBuffer X} (hp : b.selection.Placed b.data.length)
  (hne : b.selection.regions ≠ []) (hlen : b.data.length + 1 < 2 ^ 63)
include hp hne hlen

private theorem overwrite_half {top : UInt8} (ht : top % 16 = 0) :
    (((Ops.overwriteHalf X b.data b.selection top).bind fun delta ↦
        b.applyIncompleteDeltaOffsetCarets delta (-1) 0).isSome ↔
      NeighboursAgree b.selection.regions) ∧
    ∀ b₁ dirty, ((Ops.overwriteHalf X b.data b.selection top).bind fun delta ↦
        b.applyIncompleteDeltaOffsetCarets delta (-1) 0) = some (b₁, dirty) →
      HalfOverwritten top b b₁ := by
  obtain ⟨d, hd, hdata, hlength, hsel⟩ := overwriteHalf_carets hp hne hlen ht
  have horder : b.selection.regions.Pairwise fun r s ↦
      NotBehind (writtenBack b.selection.regions r) (writtenBack b.selection.regions s) :=
    hp.sorted.imp (notBehind_writtenBack hp.sorted)
  have hsome : (b.selection.mapRegions fun r ↦ [writtenBack b.selection.regions r]).isSome ↔
      NeighboursAgree b.selection.regions := by
    rw [Selection.isSome_mapRegions_iff (List.pairwise_map.mpr horder), clashOn_writtenBack_iff hp,
      not_clashOn_half_iff hp.sorted]
  rw [hd, Option.bind_some]
  refine ⟨?_, fun b₁ dirty h ↦ ?_⟩
  · rw [← hsome, ← Option.isSome_map (f := Prod.fst), hsel, Option.isSome_map]
  · rw [h, Option.map_some] at hsel
    obtain ⟨sel, hmap, rfl⟩ := Option.map_eq_some_iff.mp hsel.symm
    have hagree := hsome.mp (Option.isSome_iff_exists.mpr ⟨sel, hmap⟩)
    refine ⟨hdata, hlength ▸ behind_length_le hp, ?_, fun p ↦ ?_⟩
    · refine Selection.placed_mapRegions hmap (horder.imp And.left) fun r hr ↦ ?_
      have hmono : ∀ p ≤ b.data.length, Splice.behind (b.selection.regions.map caret) p ≤
          (X.apply d b.data).length := fun p hpn ↦
        hlength ▸ Splice.behind_mono (pairwise_caret hp.sorted) hpn
      obtain ⟨hc, htail⟩ := hp.inBounds r hr
      exact ⟨Nat.le_trans (Nat.sub_le _ _) (hmono _ hc), hmono _ htail⟩
    · rw [← caret_writtenBack_iff hp.sorted]
      exact Selection.caretAt_mapRegions hmap (hp.sorted.imp_of_mem fun hr hs hrs ↦
        ⟨notBehind_writtenBack hp.sorted hrs, caret_eq_of_touch hp.sorted hagree hr hs hrs⟩) p

/-- The second digit reaches the bytes the carets are left on. -/
theorem change_overwritten {top : UInt8} {b₁ : CurrentBuffer X}
    (h : HalfOverwritten top b b₁) (x : UInt8) :
    ∃ b₂ dirty, (Ops.change X b₁.data b₁.selection [x]).bind b₁.applyIncompleteDelta =
        some (b₂, dirty) ∧
      ∀ i, b₂.data[i]? = if CaretAt b.selection.regions i ∧ ¬ CaretAt b.selection.regions (i + 1)
        then some x else b₁.data[i]? := by
  have hne₁ : b₁.selection.regions ≠ [] := by
    obtain ⟨r, hr⟩ := List.exists_mem_of_ne_nil _ hne
    obtain ⟨s, hs, -⟩ := (h.carets _).mpr ((caret_writtenBack_iff hp.sorted _).mp ⟨r, hr, rfl⟩)
    exact List.ne_nil_of_mem hs
  have hclash : ¬ ClashOn DeleteJoins DeleteOpposed b₁.selection.regions := by
    intro hc
    obtain ⟨a, ha, s, hs, hopp, ⟨e, he, hae⟩, c, hcm, hcs⟩ := hc.exists_links
    -- a region that another one is joined to starts with its tail, as carets lie apart
    have hforward : s.StrictForward := by
      by_contra hf
      have hcaret : c.caret + 1 = s.caret := by
        have h1 := hcs.1
        have h2 := caret_eq_max (Nat.not_lt.mpr hcs.2)
        have h3 := caret_eq_min hf
        omega
      exact ((h.carets c.caret).mp ⟨c, hcm, rfl⟩).2
        ((h.carets _).mp ⟨s, hs, hcaret.symm⟩).1
    have hbackward := hae.2
    unfold DeleteOpposed StrictForward at *
    omega
  obtain ⟨d, hd, hdata, -, hsel⟩ :=
    change_carets h.placed hne₁ (Nat.lt_of_le_of_lt h.length hlen) x
  have hsome : (b₁.selection.mapRegions fun r ↦ [written b₁.selection.regions r]).isSome := by
    rw [Selection.isSome_mapRegions_iff (List.pairwise_map.mpr
      (h.placed.sorted.imp (notBehind_written h.placed.sorted))), clashOn_written_iff h.placed]
    exact hclash
  obtain ⟨sel, hmap⟩ := Option.isSome_iff_exists.mp hsome
  rw [hmap, Option.map_some] at hsel
  obtain ⟨⟨b₂, dirty⟩, hb₂, rfl⟩ := Option.map_eq_some_iff.mp hsel
  refine ⟨_, dirty, by rw [hd, Option.bind_some, hb₂], fun i ↦ ?_⟩
  exact (hdata i).trans (if_congr (h.carets i) rfl rfl)

end CurrentBuffer

private theorem withUpperHalf_eq_iff {hi lo ch : UInt8} (hhi : hi.toNat < 16)
    (hlo : lo.toNat < 16) :
    Ops.withUpperHalf (hi <<< 4) ch = 16 * hi + lo ↔ ch % 16 = lo := by
  have htop : (hi <<< 4).toNat = 16 * hi.toNat := by
    rw [UInt8.toNat_shiftLeft]
    simp only [UInt8.reduceToNat, Nat.reduceMod, Nat.shiftLeft_eq]
    omega
  rw [← UInt8.toNat_inj, ← UInt8.toNat_inj, Ops.withUpperHalf]
  simp only [UInt8.toNat_add, UInt8.toNat_mul, UInt8.toNat_div, UInt8.toNat_mod, htop,
    UInt8.reduceToNat]
  omega

namespace Insert

/-- Overwriting in hex, with no half pending. -/
def overwritingHex : Insert := { mode := .overwrite, hex := true, hexHalf := none }

/-- Every two neighbouring regions keep a lower digit apart: the first one points backward, both
point forward, or the first one is a cursor on a byte that has the digit already. -/
def DigitReaches (lo : UInt8) (b : CurrentBuffer X) : Prop :=
  ∀ r ∈ b.selection.regions, ∀ s ∈ b.selection.regions, s.min = r.max + 1 →
    r.StrictBackward ∨ (r.StrictForward ∧ s.StrictForward) ∨
      (r.caret = r.tail ∧ ¬ s.StrictForward ∧ b.data[r.caret]?.map (· % 16) = some lo)

/-- The digit reaches every caret where neighbouring regions agree and the bytes before other
carets have it. -/
theorem digitReaches_iff {lo : UInt8} {b : CurrentBuffer X}
    (hl : b.selection.regions.Pairwise Before) :
    DigitReaches lo b ↔ NeighboursAgree b.selection.regions ∧
      ∀ i, CaretAt b.selection.regions i → CaretAt b.selection.regions (i + 1) →
        b.data[i]?.map (· % 16) = some lo := by
  constructor
  · refine fun h ↦ ⟨fun r hr s hs hnext ↦ ?_, ?_⟩
    · rcases h r hr s hs hnext with hb | ⟨hf, hg⟩ | ⟨hc, hg, -⟩
      · exact .inl hb
      · exact .inr ⟨fun _ ↦ hg, fun _ ↦ hf⟩
      · exact .inr ⟨fun hf ↦ absurd hc (Nat.ne_of_gt hf), fun hf ↦ absurd hf hg⟩
    · rintro i ⟨r, hr, rfl⟩ ⟨s, hs, hsc⟩
      have h1 := r.caret_le_max
      have h2 := s.min_le_caret
      have hrs : Before r s := by
        rcases eq_or_rel_of_pairwise hl hr hs with rfl | h | h
        · omega
        · exact h
        · have := h.caret_lt
          omega
      unfold Before at hrs
      rcases h r hr s hs (by omega) with hb | ⟨-, hg⟩ | ⟨-, -, hdata⟩
      · have := Nat.le_trans hb r.tail_le_max
        omega
      · have := tail_eq_min hg
        unfold StrictForward at hg
        omega
      · exact hdata
  · rintro ⟨hagree, hdata⟩ r hr s hs hnext
    rcases hagree r hr s hs hnext with hb | hiff
    · exact .inl hb
    · by_cases hf : r.StrictForward
      · exact .inr (.inl ⟨hf, hiff.mp hf⟩)
      · by_cases hb : r.StrictBackward
        · exact .inl hb
        · have hg := fun h ↦ hf (hiff.mpr h)
          have h1 := caret_eq_max hb
          have h2 := caret_eq_min hg
          refine .inr (.inr ⟨Nat.le_antisymm (Nat.not_lt.mp hf) (Nat.not_lt.mp hb), hg, ?_⟩)
          exact hdata r.caret ⟨r, hr, rfl⟩ ⟨s, hs, by omega⟩

section Digits

variable {b : CurrentBuffer X} {key₁ key₂ : Char} {hi lo : UInt8} (E : SearchEngine)
  (shift₁ shift₂ : Bool) (bytesPerLine : Nat) (hhi : hexDigit key₁ = some hi)
  (hlo : hexDigit key₂ = some lo) (hp : b.selection.Placed b.data.length)
  (hne : b.selection.regions ≠ []) (hlen : b.data.length + 1 < 2 ^ 63)
include hhi hlo hp hne hlen

/-- The two digits do not panic where neighbouring regions agree. They write the byte at the last
of each run of carets and the upper half before it. -/
theorem digits_overwrite :
    ((runSteps (Session.press E bytesPerLine)
        [EditKey.event shift₁ (.char key₁), EditKey.event shift₂ (.char key₂)]
        { mode := .insert overwritingHex, buffer := b }).isSome →
      NeighboursAgree b.selection.regions) ∧
    (NeighboursAgree b.selection.regions → ∃ b₂,
      runSteps (Session.press E bytesPerLine)
        [EditKey.event shift₁ (.char key₁), EditKey.event shift₂ (.char key₂)]
        { mode := .insert overwritingHex, buffer := b } =
          some { mode := .insert overwritingHex, buffer := b₂ } ∧
      ∀ i, b₂.data[i]? =
        if CaretAt b.selection.regions i ∧ ¬ CaretAt b.selection.regions (i + 1)
        then some (16 * hi + lo)
        else if CaretAt b.selection.regions i
        then some (Ops.withUpperHalf (hi <<< 4) (b.data[i]?.getD 0)) else b.data[i]?) := by
  obtain ⟨hsome, hhalf⟩ :=
    CurrentBuffer.overwrite_half hp hne hlen (shiftLeft_four_mod hi)
  have hkey₁ : (Mode.insert overwritingHex).onBuffer E
      (.key (EditKey.event shift₁ (.char key₁))) b bytesPerLine =
        .modeAndDirty (.insert { overwritingHex with hexHalf := some (hi <<< 4) })
          ((Ops.overwriteHalf X b.data b.selection (hi <<< 4)).bind fun delta ↦
            b.applyIncompleteDeltaOffsetCarets delta (-1) 0) := by
    rw [Mode.onBuffer, transition_char, overwritingHex, if_pos rfl, transitionHexInsertion, hhi]
    rfl
  have hkey₂ : ∀ b₁ : CurrentBuffer X,
      (Mode.insert { overwritingHex with hexHalf := some (hi <<< 4) }).onBuffer E
        (.key (EditKey.event shift₂ (.char key₂))) b₁ bytesPerLine =
          .modeAndDirty (.insert overwritingHex)
            ((Ops.change X b₁.data b₁.selection [16 * hi + lo]).bind b₁.applyIncompleteDelta) := by
    intro b₁
    rw [Mode.onBuffer, transition_char, overwritingHex, if_pos rfl, transitionHexInsertion, hlo,
      ← shiftLeft_or (toNat_lt_of_hexDigit hhi) (toNat_lt_of_hexDigit hlo)]
    rfl
  rw [runSteps_cons, Session.press_of_modeAndDirty hkey₁]
  cases hfirst : (Ops.overwriteHalf X b.data b.selection (hi <<< 4)).bind fun delta ↦
      b.applyIncompleteDeltaOffsetCarets delta (-1) 0 with
  | none =>
    rw [hfirst] at hsome
    exact ⟨fun h ↦ by simp at h, fun h ↦ by simp at hsome; exact absurd h hsome⟩
  | some p =>
    obtain ⟨b₁, dirty⟩ := p
    rw [hfirst] at hsome
    have hb₁ := hhalf b₁ dirty hfirst
    obtain ⟨b₂, dirty₂, hsecond, hdata⟩ :=
      CurrentBuffer.change_overwritten hp hne hlen hb₁ (16 * hi + lo)
    refine ⟨fun _ ↦ hsome.mp rfl, fun _ ↦ ⟨b₂, ?_, fun i ↦ ?_⟩⟩
    · rw [Option.map_some, Option.map_some, Option.bind_some, runSteps_cons,
        Session.press_of_modeAndDirty (hkey₂ b₁), hsecond]
      rfl
    · rw [hdata, hb₁.data]

/-- Two hex digits typed in overwrite mode, with no half pending, write their byte over the byte
under every caret and nothing else, as `change` does, exactly when the second digit reaches all
carets. -/
theorem digits_overwrite_byte_iff :
    (∃ b₂ d, runSteps (Session.press E bytesPerLine)
        [EditKey.event shift₁ (.char key₁), EditKey.event shift₂ (.char key₂)]
        { mode := .insert overwritingHex, buffer := b } =
          some { mode := .insert overwritingHex, buffer := b₂ } ∧
      Ops.change X b.data b.selection [16 * hi + lo] = some d ∧ b₂.data = X.apply d b.data ∧
      ∀ i, b₂.data[i]? =
        if CaretAt b.selection.regions i then some (16 * hi + lo) else b.data[i]?) ↔
    DigitReaches lo b := by
  obtain ⟨hrun, hdigits⟩ :=
    digits_overwrite (b := b) E shift₁ shift₂ bytesPerLine hhi hlo hp hne hlen
  rw [digitReaches_iff hp.sorted]
  have hbyte : ∀ i, CaretAt b.selection.regions i → CaretAt b.selection.regions (i + 1) →
      (Ops.withUpperHalf (hi <<< 4) (b.data[i]?.getD 0) = 16 * hi + lo ↔
        b.data[i]?.map (· % 16) = some lo) := by
    rintro i - ⟨s, hs, hsc⟩
    have := (hp.inBounds s hs).1
    rw [List.getElem?_eq_getElem (by omega), Option.getD_some, Option.map_some, Option.some.injEq]
    exact withUpperHalf_eq_iff (toNat_lt_of_hexDigit hhi) (toNat_lt_of_hexDigit hlo)
  constructor
  · rintro ⟨b₂, d, hb₂, -, -, hdata⟩
    have hagree := hrun (by rw [hb₂]; rfl)
    obtain ⟨b₂', hb₂', hdata'⟩ := hdigits hagree
    rw [hb₂, Option.some.injEq, Session.mk.injEq] at hb₂'
    obtain ⟨-, rfl⟩ := hb₂'
    refine ⟨hagree, fun i hi hnext ↦ (hbyte i hi hnext).mp ?_⟩
    have := (hdata' i).symm.trans (hdata i)
    rw [if_neg (fun h ↦ h.2 hnext), if_pos hi, if_pos hi] at this
    exact Option.some.inj this
  · rintro ⟨hagree, hlow⟩
    obtain ⟨b₂, hb₂, hdata⟩ := hdigits hagree
    obtain ⟨d, hd, happly, -⟩ :=
      CurrentBuffer.change_carets hp hne (Nat.lt_of_succ_lt hlen) (16 * hi + lo)
    have hall : ∀ i, b₂.data[i]? =
        if CaretAt b.selection.regions i then some (16 * hi + lo) else b.data[i]? := by
      intro i
      rw [hdata]
      by_cases hi : CaretAt b.selection.regions i
      · by_cases hnext : CaretAt b.selection.regions (i + 1)
        · rw [if_neg (fun h ↦ h.2 hnext), if_pos hi, if_pos hi,
            (hbyte i hi hnext).mpr (hlow i hi hnext)]
        · rw [if_pos ⟨hi, hnext⟩, if_pos hi]
      · rw [if_neg (fun h ↦ hi h.1), if_neg hi, if_neg hi]
    exact ⟨b₂, d, hb₂, hd, List.ext_getElem? fun i ↦ by rw [hall, happly], hall⟩

end Digits

instance (lo : UInt8) (b : CurrentBuffer X) : Decidable (DigitReaches lo b) := by
  unfold DigitReaches
  infer_instance

/-- A backward region, a cursor next to it, and a cursor behind the last byte. -/
theorem digits_overwrite_apart :
    ∃ b₂, runSteps (Session.press .reference 16)
        [EditKey.event false (.char '4'), EditKey.event true (.char 'F')]
        { mode := .insert overwritingHex,
          buffer := .withRegions [1, 2, 3, 4] [⟨0, 1, true⟩, ⟨2, 2, false⟩, ⟨4, 4, false⟩] } =
          some { mode := .insert overwritingHex, buffer := b₂ } ∧
      b₂.data[0]? = some 0x4f ∧ b₂.data[1]? = some 2 ∧ b₂.data[4]? = some 0x4f := by
  obtain ⟨b₂, d, hrun, -, -, hdata⟩ := (digits_overwrite_byte_iff
    (b := .withRegions [1, 2, 3, 4] [⟨0, 1, true⟩, ⟨2, 2, false⟩, ⟨4, 4, false⟩])
    .reference false true 16 (show hexDigit '4' = some 4 from rfl)
    (show hexDigit 'F' = some 15 from rfl) (by decide) (by decide) (by decide)).mpr (by decide)
  refine ⟨b₂, hrun, ?_, ?_, ?_⟩ <;> rw [hdata] <;> decide

/-- Two cursors on neighbouring bytes: only the second byte gets its lower half. -/
theorem digits_overwrite_neighbours :
    (runSteps (Session.press .reference 16)
      [EditKey.event false (.char '4'), EditKey.event true (.char 'F')]
      { mode := .insert overwritingHex,
        buffer := .withRegions [1, 2] [⟨0, 0, true⟩, ⟨1, 1, false⟩] }).map (fun s ↦ s.buffer.data) =
      some [0x41, 0x4f] ∧
    (Ops.change (XiRope.reference UInt8) [1, 2]
      (CurrentBuffer.withRegions [1, 2] [⟨0, 0, true⟩, ⟨1, 1, false⟩]).selection [16 * 4 + 15]).map
        (fun d ↦ (XiRope.reference UInt8).apply d [1, 2]) = some [0x4f, 0x4f] := by
  decide

end Insert

end Tofu

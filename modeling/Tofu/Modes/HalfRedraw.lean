import Tofu.Modes.CaretWrites
import Tofu.Modes.Effects

/-!
# Moving away from half a byte

A cursor key of the insertion modes first types a zero behind the digit that is pending,
which writes over the byte under every caret and carries the carets behind it
(`insert.rs:206–232`). What that step changes is not reported, only the regions it leaves
and the cursors they are moved to.
-/

namespace Tofu

open Rope Selection SelRegion

variable {X : XiRope UInt8}

/-! ## The carets left after merging -/

/-- The second region comes after the first one, which reaches it with its caret only. -/
structure Trails (a b : SelRegion) : Prop where
  notBehind : NotBehind a b
  caret_le : a.caret ≤ b.caret
  caret_le_tail : a.caret ≤ b.tail
  touch : Touch a b → ¬ a.StrictBackward

/-- A caret that no forward region starts at. -/
def FreeCaret (regions : List SelRegion) (p : Nat) : Prop :=
  CaretAt regions p ∧ ∀ b ∈ regions, b.StrictForward → b.tail ≠ p

-- What is assembled of the regions done so far: the last region ends with the last of them and has
-- its caret, and all others have their carets before it.
private structure Collected (done out : List SelRegion) : Prop where
  nil : out = [] → done = []
  head : ∀ last ∈ out.head?, ∃ d ∈ done, last.caret = d.caret ∧ last.max = d.max ∧
    ∀ a ∈ done, a.max ≤ d.max ∧ a.caret ≤ d.caret
  sorted : (out.map caret).Pairwise (· > ·)
  carets : ∀ p, p ∈ out.map caret ↔ FreeCaret done p

private theorem freeCaret_concat {done : List SelRegion} {r : SelRegion} {p : Nat} :
    FreeCaret (done ++ [r]) p ↔
      (CaretAt done p ∨ r.caret = p) ∧ (∀ b ∈ done, b.StrictForward → b.tail ≠ p) ∧
        (r.StrictForward → r.tail ≠ p) := by
  simp only [FreeCaret, CaretAt, List.mem_append, List.mem_singleton, or_and_right, exists_or,
    exists_eq_left, or_imp, forall_and, forall_eq]

/-- A region merged with one that follows it ends up with the caret of that one. -/
theorem caret_merge {last d r m : SelRegion} (hm : IsMerge last r m) (ht : Touch last r)
    (hf : Trails d r) (hcaret : last.caret = d.caret) (hmax : last.max = d.max) :
    last.caret = last.max ∧ m.caret = r.caret ∧
      (r.StrictForward → r.tail = d.caret) ∧ (¬ r.StrictForward → r.caret = d.caret) := by
  have htouch : ¬ d.StrictBackward := hf.touch (by unfold Touch at ht ⊢; omega)
  have hlast : last.caret = last.max := by rw [hcaret, caret_eq_max htouch, hmax]
  have hstart : r.min = d.caret :=
    Nat.le_antisymm (hcaret ▸ hlast ▸ ht) (Nat.le_min.mpr ⟨hf.caret_le, hf.caret_le_tail⟩)
  refine ⟨hlast, ?_, fun h ↦ (tail_eq_min h).trans hstart, fun h ↦ (caret_eq_min h).trans hstart⟩
  by_cases hb : r.StrictBackward
  · -- all three have their caret where the last region ends
    have hmb : m.StrictBackward := hm.strictBackward_iff.mpr (.inr hb)
    have hlf : ¬ last.StrictForward := fun h ↦
      Nat.lt_asymm (hm.strictForward_iff.mpr (.inl h)) hmb
    rw [caret_eq_min (Nat.lt_asymm hmb), caret_eq_min (Nat.lt_asymm hb), hm.min_eq,
      ← caret_eq_min hlf, hcaret, hstart, Nat.min_self]
  · have hlb : ¬ last.StrictBackward := Nat.not_lt.mpr (hlast ▸ last.tail_le_max)
    have hmb : ¬ m.StrictBackward := fun h ↦
      (hm.strictBackward_iff.mp h).elim hlb hb
    rw [caret_eq_max hmb, caret_eq_max hb, hm.max_eq, hmax, Nat.max_eq_right hf.notBehind.2]

section Collected

variable {done rest : List SelRegion} {last r : SelRegion}

private theorem tail_ne_caret (hf : r.StrictForward) : r.tail ≠ r.caret := Nat.ne_of_lt hf

private theorem le_last (hr : ∀ a ∈ done, Trails a r) :
    ∀ a ∈ done ++ [r], a.max ≤ r.max ∧ a.caret ≤ r.caret := by
  intro a ha
  rcases List.mem_append.mp ha with ha | ha
  · exact ⟨(hr a ha).notBehind.2, (hr a ha).caret_le⟩
  · rw [List.mem_singleton.mp ha]
    exact ⟨Nat.le_refl _, Nat.le_refl _⟩

private theorem Collected.single : Collected [r] [r] := by
  refine ⟨by simp, by simp, by simp, fun p ↦ ?_⟩
  simp only [FreeCaret, CaretAt, List.map_cons, List.map_nil, List.mem_singleton, exists_eq_left,
    forall_eq]
  constructor
  · rintro rfl
    exact ⟨rfl, tail_ne_caret⟩
  · rintro ⟨hc, -⟩
    exact hc.symm

/-- A region behind the last one keeps all carets and adds its own. -/
theorem Collected.push (h : Collected done (last :: rest)) (hr : ∀ a ∈ done, Trails a r)
    (hb : Before last r) : Collected (done ++ [r]) (r :: last :: rest) := by
  obtain ⟨d, hd, hcaret, hmax, hall⟩ := h.head last rfl
  have hbehind : ∀ a ∈ done, a.max < r.min := by
    intro a ha
    have := (hall a ha).1
    unfold Before at hb
    omega
  refine ⟨by simp, ?_, ?_, fun p ↦ ?_⟩
  · intro y hy
    obtain rfl : r = y := by simpa using hy
    exact ⟨r, by simp, rfl, rfl, le_last hr⟩
  · rw [List.map_cons, List.pairwise_cons]
    refine ⟨fun y hy ↦ ?_, h.sorted⟩
    have h1 := hbehind d hd
    have h2 := d.caret_le_max
    have h3 := r.min_le_caret
    rcases List.mem_cons.mp hy with rfl | hy
    · omega
    · have := (List.pairwise_cons.mp h.sorted).1 y hy
      omega
  · rw [List.map_cons, List.mem_cons, h.carets, freeCaret_concat]
    constructor
    · rintro (rfl | ⟨hc, hfree⟩)
      · refine ⟨.inr rfl, fun a ha _ ↦ ?_, tail_ne_caret⟩
        have h1 := hbehind a ha
        have h2 := a.tail_le_max
        have h3 := r.min_le_caret
        omega
      · refine ⟨.inl hc, hfree, fun _ ↦ ?_⟩
        obtain ⟨a, ha, rfl⟩ := hc
        have h1 := hbehind a ha
        have h2 := a.caret_le_max
        have h3 := r.min_le_tail
        omega
    · rintro ⟨hc | hc, hfree, -⟩
      · exact .inr ⟨hc, hfree⟩
      · exact .inl hc.symm

/-- A region merged with the last one takes its caret over, or has its own there. -/
theorem Collected.merge {m : SelRegion} (h : Collected done (last :: rest))
    (hr : ∀ a ∈ done, Trails a r) (ht : Touch last r) (hm : IsMerge last r m) :
    Collected (done ++ [r]) (m :: rest) := by
  obtain ⟨d, hd, hcaret, hmax, hall⟩ := h.head last rfl
  obtain ⟨hlm, hmr, hforward, hother⟩ := caret_merge hm ht (hr d hd) hcaret hmax
  have hdr := (hr d hd).caret_le
  obtain ⟨hrest, hsorted⟩ := List.pairwise_cons.mp h.sorted
  have hold := h.carets
  simp only [List.map_cons, List.mem_cons] at hold
  refine ⟨by simp, ?_, ?_, fun p ↦ ?_⟩
  · intro y hy
    obtain rfl : m = y := by simpa using hy
    refine ⟨r, by simp, hmr, ?_, le_last hr⟩
    rw [hm.max_eq, hmax, Nat.max_eq_right (hr d hd).notBehind.2]
  · refine List.pairwise_cons.mpr ⟨fun y hy ↦ ?_, hsorted⟩
    have := hrest y hy
    omega
  · rw [List.map_cons, List.mem_cons, hmr, freeCaret_concat]
    by_cases hf : r.StrictForward
    · have hreach := hforward hf
      constructor
      · rintro (rfl | hp)
        · refine ⟨.inr rfl, fun a ha hfa ↦ ?_, tail_ne_caret⟩
          have := (hall a ha).2
          unfold StrictForward at hf hfa
          omega
        · obtain ⟨hc, hfree⟩ := (hold p).mp (.inr hp)
          have := hrest p hp
          exact ⟨.inl hc, hfree, fun _ ↦ by omega⟩
      · rintro ⟨hc | hc, hfree, hne⟩
        · rcases (hold p).mpr ⟨hc, hfree⟩ with rfl | hp
          · exact absurd (hreach.trans hcaret.symm) (hne hf)
          · exact .inr hp
        · exact .inl hc.symm
    · rw [hother hf, ← hcaret, hold]
      constructor
      · rintro ⟨hc, hfree⟩
        exact ⟨.inl hc, hfree, fun h ↦ absurd h hf⟩
      · rintro ⟨hc | hc, hfree, -⟩
        · exact ⟨hc, hfree⟩
        · exact ⟨⟨d, hd, hcaret.symm.trans hc⟩, hfree⟩

private theorem Collected.pushRegion {out out' : List SelRegion} (h : Collected done out)
    (hr : ∀ a ∈ done, Trails a r) (hp : pushRegion out r = some out') :
    Collected (done ++ [r]) out' := by
  rcases pushRegion_cases hp with ⟨rfl, rfl⟩ | ⟨last, rest, rfl, hb, rfl⟩ |
    ⟨last, rest, m, rfl, ht, hm, rfl⟩
  · obtain rfl := h.nil rfl
    exact .single
  · exact h.push hr hb
  · exact h.merge hr ht hm

end Collected

/-- The carets of a selection assembled from regions that follow each other. -/
theorem Selection.mem_carets_mapRegions {g : SelRegion → SelRegion} {sel sel' : Selection}
    (h : (sel.mapRegions fun r ↦ [g r]) = some sel') (hg : (sel.regions.map g).Pairwise Trails)
    (p : Nat) : p ∈ sel'.regions.map caret ↔ FreeCaret (sel.regions.map g) p := by
  obtain ⟨⟨out, m⟩, ha, rfl⟩ := Option.map_eq_some_iff.mp h
  have hflat := flatten_map_singleton g sel.regions
  have hend : ∃ done, done ++ [] = sel.regions.map g ∧ Collected done out := by
    refine assemble_induction
      (I := fun out rest ↦ ∃ done, done ++ rest = sel.regions.map g ∧ Collected done out)
      ?_ ?_ ha ⟨[], hflat, by simp, by simp, by simp, by simp [FreeCaret, CaretAt]⟩
    · rintro out r rs out' ⟨done, hdone, hc⟩ hp
      refine ⟨done ++ [r], by rw [← hdone, List.append_assoc]; rfl,
        hc.pushRegion (fun a ha ↦ ?_) hp⟩
      rw [← hdone] at hg
      exact (List.pairwise_append.mp hg).2.2 a ha r List.mem_cons_self
    · rintro last rest rs ⟨done, hdone, hnil, hhead, hsorted, hcarets⟩
      refine ⟨done, hdone, by simp, fun y hy ↦ ?_, hsorted, hcarets⟩
      obtain rfl : { last with main := true } = y := by simpa using hy
      exact hhead last rfl
  obtain ⟨done, hdone, hc⟩ := hend
  rw [List.append_nil] at hdone
  rw [List.map_reverse, List.mem_reverse, hc.carets, hdone]

/-! ## The regions after the bytes are written -/

section Written

variable {l : List SelRegion} {a b r : SelRegion} (hl : l.Pairwise Before)
include hl

/-- A backward region loses its caret, a forward one grows, and a cursor moves on. -/
theorem written_cases (hr : r ∈ l) :
    (r.StrictForward ∧ written l r = .new (Splice.behind (l.map caret) r.caret) r.tail) ∨
    (r.StrictBackward ∧ written l r = .new (r.caret + 1) r.tail) ∨
    (r.tail = r.caret ∧ written l r =
      .new (Splice.behind (l.map caret) r.caret) (Splice.behind (l.map caret) r.caret)) := by
  rcases Nat.lt_trichotomy r.tail r.caret with h | h | h
  · exact .inl ⟨h, by rw [written, behind_tail hl hr (Nat.ne_of_lt h)]⟩
  · exact .inr (.inr ⟨h, by rw [written, h]⟩)
  · exact .inr (.inl ⟨h, by
      rw [written, behind_tail hl hr (Nat.ne_of_gt h), behind_caret hl hr h]⟩)

private theorem trails_written (ha : a ∈ l) (hab : Before a b) :
    Trails (written l a) (written l b) := by
  have hcs := pairwise_caret hl
  have hmono : ∀ p q, p ≤ a.max → b.min ≤ q →
      Splice.behind (l.map caret) p ≤ Splice.behind (l.map caret) q := by
    intro p q hp hq
    refine Splice.behind_mono hcs ?_
    unfold Before at hab
    omega
  have h1 := hmono a.caret b.caret a.caret_le_max b.min_le_caret
  have h2 := hmono a.caret b.tail a.caret_le_max b.min_le_tail
  have h3 := hmono a.tail b.caret a.tail_le_max b.min_le_caret
  have h4 := hmono a.tail b.tail a.tail_le_max b.min_le_tail
  refine ⟨?_, h1, h2, fun ht hback ↦ ?_⟩
  · simp only [NotBehind, written, min_new, max_new]
    omega
  · rcases written_cases hl ha with ⟨hf, heq⟩ | ⟨hb, heq⟩ | ⟨hc, heq⟩
    · rw [heq] at hback
      exact Nat.lt_asymm hback (Nat.lt_trans hf (lt_behind_caret hl ha))
    · -- a region that points backward ends where it did
      have h5 := Splice.le_behind (l.map caret) b.caret
      have h6 := Splice.le_behind (l.map caret) b.tail
      have h7 := Nat.le_trans hb a.tail_le_max
      have h8 := a.tail_le_max
      have h9 := b.min_le_caret
      have h10 := b.min_le_tail
      rw [heq, Touch, written, max_new, min_new] at ht
      unfold Before at hab
      omega
    · rw [heq] at hback
      exact Nat.lt_irrefl _ hback

private theorem pairwise_trails : (l.map (written l)).Pairwise Trails :=
  List.pairwise_map.mpr (hl.imp_of_mem fun ha _ hab ↦ trails_written hl ha hab)

/-- Of a region at most the caret is lost, and only if it does not point forward. -/
theorem covered_written {x : Nat} (hr : r ∈ l) (h1 : r.min ≤ x) (h2 : x ≤ r.max)
    (hx : r.StrictForward ∨ x ≠ r.caret) : Covered (l.map (written l)) x := by
  have hlt := lt_behind_caret hl hr
  refine covered_map.mpr ⟨r, hr, ?_⟩
  rcases written_cases hl hr with ⟨hf, heq⟩ | ⟨hb, heq⟩ | ⟨hc, heq⟩ <;>
    rw [heq, min_new, max_new] <;>
    simp only [StrictForward, StrictBackward, SelRegion.min, SelRegion.max] at * <;>
    omega

/-- A lost caret is covered where a forward region grows over it. -/
theorem covered_written_caret_iff (hr : r ∈ l) (hf : ¬ r.StrictForward) :
    Covered (l.map (written l)) r.caret ↔ ∃ s ∈ l, s.StrictForward ∧ s.caret < r.caret ∧
      r.caret < Splice.behind (l.map caret) s.caret := by
  have hnot : ∀ p, Splice.behind (l.map caret) p ≠ r.caret := by
    intro p heq
    refine Splice.behind_notMem (pairwise_caret hl) p ?_
    rw [heq]
    exact List.mem_map_of_mem hr
  rw [covered_map]
  constructor
  · rintro ⟨s, hs, h1, h2⟩
    have hout : s.min ≤ r.caret → r.caret ≤ s.max → r = s := caret_of_mem hl hr hs
    have hmin := s.min_le_tail
    have hmax := s.tail_le_max
    have hmin' := s.min_le_caret
    rcases written_cases hl hs with ⟨hf', heq⟩ | ⟨hb, heq⟩ | ⟨hc, heq⟩ <;>
      rw [heq] at h1 h2 <;> simp only [min_new, max_new] at h1 h2
    · have hlt := lt_behind_caret hl hs
      have hne := hnot s.caret
      refine ⟨s, hs, hf', ?_, ?_⟩
      · by_contra hle
        obtain rfl := hout (by unfold StrictForward at hf'; omega)
          (Nat.le_trans (Nat.not_lt.mp hle) s.caret_le_max)
        exact hf hf'
      · unfold StrictForward at hf'
        omega
    · unfold StrictBackward at hb
      obtain rfl := hout (by omega) (by omega)
      omega
    · exact absurd (by omega) (hnot s.caret)
  · rintro ⟨s, hs, hf', h1, h2⟩
    refine ⟨s, hs, ?_⟩
    unfold StrictForward at hf'
    rw [written, behind_tail hl hs (Nat.ne_of_lt hf'), min_new, max_new]
    omega

private theorem strictForward_written_iff (hr : r ∈ l) :
    (written l r).StrictForward ↔ r.StrictForward := by
  have hlt := lt_behind_caret hl hr
  rcases written_cases hl hr with ⟨hf, heq⟩ | ⟨hb, heq⟩ | ⟨hc, heq⟩ <;>
    rw [heq] <;>
    simp only [StrictForward, StrictBackward, caret_new, tail_new] at * <;>
    omega

private theorem freeCaret_written_iff {p : Nat} :
    FreeCaret (l.map (written l)) p ↔ ∃ s ∈ l, Splice.behind (l.map caret) s.caret = p ∧
      ∀ u ∈ l, u.StrictForward → u.tail ≠ p := by
  have htail : (∀ u ∈ l.map (written l), u.StrictForward → u.tail ≠ p) ↔
      ∀ u ∈ l, u.StrictForward → u.tail ≠ p := by
    rw [List.forall_mem_map]
    refine forall₂_congr fun u hu ↦ ?_
    rw [strictForward_written_iff hl hu]
    refine imp_congr_right fun hf ↦ ?_
    rw [written, tail_new, behind_tail hl hu (Nat.ne_of_lt hf)]
  have hcaret : CaretAt (l.map (written l)) p ↔
      ∃ s ∈ l, Splice.behind (l.map caret) s.caret = p := by
    simp only [CaretAt, List.mem_map, exists_exists_and_eq_and]
    rfl
  rw [FreeCaret, htail, hcaret]
  simp only [← exists_and_right, and_assoc]

end Written

/-! ## The byte is finished -/

/-- What typing the second digit leaves: the bytes under the carets are others, and the regions go
where writing over these takes them. -/
structure Finished (b b₁ : CurrentBuffer X) : Prop where
  data : ∀ x ∉ b.selection.regions.map caret, b₁.data[x]? = b.data[x]?
  length : b₁.data.length = Splice.behind (b.selection.regions.map caret) b.data.length
  length_pos : 0 < b₁.data.length
  regions : (b.selection.mapRegions fun r ↦ [written b.selection.regions r]) = some b₁.selection

section Half

variable {b : CurrentBuffer X} (hsmall : b.data.length < 2 ^ 63)
  (hp : b.selection.Placed b.data.length) (hne : b.selection.regions ≠ [])
include hp

include hsmall hne in
private theorem finished_of_change {x : UInt8} {b₁ : CurrentBuffer X} {dirty : DirtyBytes}
    (h : (Ops.change X b.data b.selection [x]).bind b.applyIncompleteDelta = some (b₁, dirty)) :
    Finished b b₁ := by
  obtain ⟨d, hd, hdata, hlength, hsel⟩ := CurrentBuffer.change_carets hp hne hsmall x
  rw [hd, Option.bind_some] at h
  rw [h, Option.map_some] at hsel
  obtain ⟨sel, hregions, rfl⟩ := Option.map_eq_some_iff.mp hsel.symm
  refine ⟨fun p hp' ↦ ?_, hlength, hlength.symm ▸ CurrentBuffer.behind_length_pos hp hne, hregions⟩
  have hno : ¬ CaretAt b.selection.regions p := fun hc ↦ hp' (List.mem_map.mpr hc)
  exact (hdata p).trans (if_neg hno)

end Half

/-! ## Moving away -/

/-- Where a cursor key takes a caret with half a byte typed. -/
def Insert.landing (direction : Direction) (bytesPerLine maxBytes c : Nat) : Nat :=
  movedCaret .left bytesPerLine maxBytes 1 (movedCaret direction bytesPerLine maxBytes 1 c)

/-- A cursor key with half a byte typed shows everything: a caret that does not end a forward
region is run over by one, or some cursor lands on it. -/
def Insert.HalfShown (direction : Direction) (bytesPerLine : Nat) (b : CurrentBuffer X) : Prop :=
  let carets := b.selection.regions.map caret
  ∀ r ∈ b.selection.regions, r.StrictForward ∨
    (∃ s ∈ b.selection.regions, s.StrictForward ∧ s.caret < r.caret ∧
      r.caret < Splice.behind carets s.caret) ∨
    ∃ s ∈ b.selection.regions,
      landing direction bytesPerLine (Splice.behind carets b.data.length)
          (Splice.behind carets s.caret) = r.caret ∧
        ∀ u ∈ b.selection.regions, u.StrictForward → u.tail ≠ Splice.behind carets s.caret

instance (direction : Direction) (bytesPerLine : Nat) (b : CurrentBuffer X) :
    Decidable (Insert.HalfShown direction bytesPerLine b) := by
  unfold Insert.HalfShown StrictForward
  infer_instance

namespace Insert

variable {b : CurrentBuffer X} {bytesPerLine : Nat} {direction : Direction}

/-- Behind half a byte a region becomes a cursor where its caret lands. -/
theorem moved_half {maxBytes : Nat} (hpos : 0 < maxBytes) (r : SelRegion) :
    moved direction bytesPerLine maxBytes true r =
      .new (landing direction bytesPerLine maxBytes r.caret)
        (landing direction bytesPerLine maxBytes r.caret) := by
  simp only [moved, simpleMove, if_neg (Nat.ne_of_gt hpos), if_true, caret_new, landing]

/-- The cursors of moving away cover what the free carets land on. -/
theorem covered_moved_iff (hl : b.selection.regions.Pairwise Before) {b₁ : CurrentBuffer X}
    (hb₁ : Finished b b₁) {x : Nat} :
    Covered (b₁.selection.regions.map (moved direction bytesPerLine b₁.data.length true)) x ↔
      ∃ s ∈ b.selection.regions,
        landing direction bytesPerLine
            (Splice.behind (b.selection.regions.map caret) b.data.length)
            (Splice.behind (b.selection.regions.map caret) s.caret) = x ∧
          ∀ u ∈ b.selection.regions, u.StrictForward →
            u.tail ≠ Splice.behind (b.selection.regions.map caret) s.caret := by
  have hcover : Covered (b₁.selection.regions.map
      (moved direction bytesPerLine b₁.data.length true)) x ↔
      ∃ p ∈ b₁.selection.regions.map caret,
        landing direction bytesPerLine b₁.data.length p = x := by
    simp only [covered_map, moved_half hb₁.length_pos, min_new, max_new, min_self, max_self,
      List.mem_map, exists_exists_and_eq_and]
    exact exists_congr fun r ↦ and_congr_right fun _ ↦ Nat.le_antisymm_iff.symm
  rw [hcover, ← hb₁.length]
  simp only [mem_carets_mapRegions hb₁.regions (pairwise_trails hl), freeCaret_written_iff hl]
  constructor
  · rintro ⟨p, ⟨s, hs, rfl, hfree⟩, hland⟩
    exact ⟨s, hs, hland, hfree⟩
  · rintro ⟨s, hs, hland, hfree⟩
    exact ⟨_, ⟨s, hs, rfl, hfree⟩, hland⟩

/-- The regions left by the byte and the cursors cover the old regions exactly when every lost
caret is covered again. -/
theorem covered_again_iff (hl : b.selection.regions.Pairwise Before) {b₁ : CurrentBuffer X}
    (hb₁ : Finished b b₁) :
    (∀ x, Covered b.selection.regions x → Covered b₁.selection.regions x ∨
      Covered (b₁.selection.regions.map (moved direction bytesPerLine b₁.data.length true)) x) ↔
      HalfShown direction bytesPerLine b := by
  have hwritten : ∀ x, Covered b₁.selection.regions x ↔
      Covered (b.selection.regions.map (written b.selection.regions)) x :=
    covered_mapRegions hb₁.regions ((pairwise_trails hl).imp fun hf ↦ hf.notBehind.meets)
  simp only [hwritten, covered_moved_iff hl hb₁]
  constructor
  · intro h r hr
    by_cases hf : r.StrictForward
    · exact .inl hf
    · have hcaret := h r.caret ⟨r, hr, r.min_le_caret, r.caret_le_max⟩
      rw [covered_written_caret_iff hl hr hf] at hcaret
      exact .inr hcaret
  · rintro h x ⟨r, hr, h1, h2⟩
    by_cases hx : r.StrictForward ∨ x ≠ r.caret
    · exact .inl (covered_written hl hr h1 h2 hx)
    · obtain ⟨hf, hx⟩ := not_or.mp hx
      obtain rfl := not_ne_iff.mp hx
      rw [covered_written_caret_iff hl hr hf]
      exact (h r hr).resolve_left hf

/-- A cursor key with half a byte typed reports all it changes exactly when every lost caret is
covered again. -/
theorem seesChanges_finish_iff (hsmall : b.data.length < 2 ^ 63)
    (hp : b.selection.Placed b.data.length) (hne : b.selection.regions ≠ []) {half : UInt8}
    {b' : CurrentBuffer X} {intervals : List Interval}
    (h : (Change.finish half direction bytesPerLine).run b =
      some (b', .changeInPlace intervals)) :
    SeesChanges b b' intervals ↔ HalfShown direction bytesPerLine b := by
  obtain ⟨b₁, h₁, hmove⟩ := Option.bind_eq_some_iff.mp h
  obtain ⟨⟨b₂, dirty⟩, hchange, heq⟩ := Option.map_eq_some_iff.mp h₁
  obtain rfl : b₁ = b₂ := heq.symm
  have hb₁ := finished_of_change hsmall hp hne hchange
  obtain ⟨s', outputs, hc, ho, hdata, hcov⟩ := CurrentBuffer.of_mapSelections hmove
  rw [collect_pureClosure] at hc
  obtain ⟨-, rfl⟩ := Prod.mk.inj (Option.some.inj hc)
  rw [flatten_map_singleton] at hcov
  have hlen := CurrentBuffer.behind_length_le hp
  rw [seesChanges_iff hp.inBounds, ← covered_again_iff hp.sorted hb₁]
  · refine forall_congr' fun x ↦ imp_congr_right fun hx ↦ hcov x ?_
    obtain ⟨r, hr, -, hx⟩ := hx
    have := (inBounds_iff_max_le _ r).mp (hp.inBounds r hr)
    omega
  · -- the cursors of moving away are reported
    intro x hx hnew
    rw [hdata, hb₁.length] at hx
    rw [hcov x (by omega)]
    have hmeets : (b₁.selection.regions.map
        (moved direction bytesPerLine b₁.data.length true)).Pairwise Meets := by
      refine List.pairwise_map.mpr (List.pairwise_of_forall fun r s ↦ .inr ?_)
      rw [moved_half hb₁.length_pos, moved_half hb₁.length_pos]
      exact ⟨rfl, rfl⟩
    exact .inr ((covered_mapRegions ho hmeets x).mp hnew)
  · -- other bytes are found under the carets
    intro x hx
    by_contra hnot
    refine hx ?_
    rw [hdata, hb₁.data x fun hmem ↦ hnot ?_]
    obtain ⟨r, hr, rfl⟩ := List.mem_map.mp hmem
    exact ⟨r, hr, r.min_le_caret, r.caret_le_max⟩

end Insert

/-! ## Every key -/

/-- A key shows all it changes, unless it selects all over a region behind the bytes or moves away
from half a byte that no new cursor covers. -/
def Mode.RedrawsAll (evt : Event) (b : CurrentBuffer X) (bytesPerLine : Nat) : Mode → Prop
  | .normal m => m.countState.transition evt = none →
      Normal.defaultMaps.eventToAction evt = some .selectAll → b.SelectAllShown
  | .insert m => m.hexHalf.isSome → ∀ direction,
      Insert.defaultMaps.eventToAction evt = some (.move direction) →
        Insert.HalfShown direction bytesPerLine b
  | .jumpTo _ | .split _ | .search _ | .replace _ | .command _ | .quitting => True

/-- The two keys are the only ones that may miss something. -/
theorem Mode.Asks.redrawsAll {mode : Mode} {evt : Event} {b : CurrentBuffer X}
    {bytesPerLine : Nat} {r : Request} (h : mode.Asks b bytesPerLine evt r) (hpanic : r ≠ .panic)
    (hall : r ≠ .change none .selectAll)
    (hhalf : ∀ new half direction, r ≠ .change new (.finish half direction bytesPerLine)) :
    mode.RedrawsAll evt b bytesPerLine := by
  cases h with
  | normal _ hkey h =>
    intro _ hselect
    obtain rfl := Option.some.inj (hkey.symm.trans hselect)
    cases h with
    | selectAll => exact absurd rfl hall
    | yankFails => exact absurd rfl hpanic
  | count hc =>
    intro hnone
    rw [hc] at hnone
    cases hnone
  | normalIgnored _ hkey =>
    intro _ hselect
    rw [hkey] at hselect
    cases hselect
  | insert h =>
    intro hsome direction hmove
    cases h with
    | finish => exact absurd rfl (hhalf _ _ _)
    | move _ hh =>
      rw [hh] at hsome
      cases hsome
    | removeNothing hkey ha | removeHalf hkey ha =>
      obtain rfl := Option.some.inj (hkey.symm.trans hmove)
      rcases ha with ha | ha <;> cases ha
    | exit hkey | switchInputMode hkey | insertNull hkey | removeLast hkey | removeThis hkey
    | secondDigit hkey | firstDigit hkey | char hkey | ignored hkey =>
      rw [hkey] at hmove
      cases hmove
  | _ => trivial

/-- The intervals that a key reports as changed in place contain every offset that looks different
after it, with two exceptions. -/
theorem redraw_sees_changes_iff (E : SearchEngine) {mode : Mode} {evt : Event}
    {b b' : CurrentBuffer X} {bytesPerLine : Nat} {t : ModeTransition} {intervals : List Interval}
    (hsmall : b.data.length < 2 ^ 63) (hp : b.selection.Placed b.data.length)
    (hmain : ∃ r ∈ b.selection.regions, r.isMain = true)
    (h : mode.onBuffer E evt b bytesPerLine = some (some (t, b')))
    (ht : t.report = some (.changeInPlace intervals)) :
    SeesChanges b b' intervals ↔ mode.RedrawsAll evt b bytesPerLine := by
  obtain ⟨r, hr, hrun⟩ := mode.exists_asks E evt b bytesPerLine
  rw [hrun] at h
  have hsees (hpanic : r ≠ .panic) (hall : r ≠ .change none .selectAll)
      (hhalf : ∀ new half direction, r ≠ .change new (.finish half direction bytesPerLine))
      (hs : SeesChanges b b' intervals) :
      SeesChanges b b' intervals ↔ mode.RedrawsAll evt b bytesPerLine :=
    iff_of_true hs (hr.redrawsAll hpanic hall hhalf)
  match r with
  | .panic | .unhandled => cases h
  | .go registers t' =>
    rw [(Outcome.of_keep h).1, hr.suits.1] at ht
    cases ht
  | .leave =>
    rw [(Outcome.of_keep h).1] at ht
    cases ht
  | .search next pattern =>
    refine hsees (by simp) (by simp) (by simp) ?_
    rcases next.reselects_of_applySearch hsmall hp h with ⟨hnone, -⟩ | ⟨intervals', ht', hr'⟩
    · rw [hnone] at ht
      cases ht
    · obtain ⟨rfl⟩ := Option.some.inj (ht'.symm.trans ht)
      exact hr'.seesChanges hsmall hp.inBounds
  | .change mode' c =>
    obtain ⟨d, hc, ht'⟩ := Request.of_run_change h
    obtain rfl := Option.some.inj (ht'.symm.trans ht)
    by_cases hreselects : c.reselects = true
    · refine hsees (by simp) ?_ ?_ ?_
      · rintro ⟨⟩
        cases hreselects
      · rintro new half direction ⟨⟩
        cases hreselects
      · obtain ⟨intervals', ⟨rfl⟩, hr'⟩ := c.reselects_of_run hp hreselects hc
        exact hr'.seesChanges hsmall hp.inBounds
    · cases c with
      | region | width | remove | retain | selectNext | selectPrev => exact absurd rfl hreselects
      | edit | type | undo | redo => cases Change.dirty_of_run rfl hc
      | selectAll =>
        obtain ⟨rfl, ⟨rfl⟩⟩ := Prod.mk.inj (Option.some.inj hc)
        rw [seesChanges_selectAll_iff hp hmain]
        cases hr with
        | normal hcount hkey hr =>
          cases hr
          exact ⟨fun hshown _ _ ↦ hshown, fun hall ↦ hall hcount hkey⟩
        | insert hr => cases hr
      | finish half direction bytesPerLine' =>
        obtain ⟨r, hmem, -⟩ := hmain
        cases hr with
        | normal _ _ hr => cases hr
        | insert hr =>
          cases hr with
          | finish hkey hh =>
            rw [Insert.seesChanges_finish_iff hsmall hp (List.ne_nil_of_mem hmem) hc]
            refine ⟨fun hshown _ direction' hkey' ↦ ?_, fun hall ↦ hall (by simp [hh]) _ hkey⟩
            obtain ⟨rfl⟩ := Option.some.inj (hkey.symm.trans hkey')
            exact hshown

private def selecting (data : List UInt8) (caret tail : Nat) :
    CurrentBuffer (XiRope.reference UInt8) :=
  { CurrentBuffer.fromDataAndPath data none with
    selection := { regions := [⟨caret, tail, true⟩], mainSelection := 0 } }

/-- Behind the last byte a cursor key to the right comes back to the half byte typed there. -/
theorem redraw_sees_changes_last :
    ∃ t b' intervals, (Mode.insert { mode := .insert, hex := true, hexHalf := some 0x40 }).onBuffer
        .reference (.key (.plain .right)) (selecting [1, 0x40] 1 2) 16 = some (some (t, b')) ∧
      t.report = some (.changeInPlace intervals) ∧
      SeesChanges (selecting [1, 0x40] 1 2) b' intervals := by
  have hrun : ((Mode.insert { mode := .insert, hex := true, hexHalf := some 0x40 }).onBuffer
      .reference (.key (.plain .right)) (selecting [1, 0x40] 1 2) 16).map
      (fun o ↦ o.map fun (t, _) ↦ t.report) =
        some (some (some (.changeInPlace [⟨1, 2⟩, ⟨2, 3⟩]))) := by
    decide
  obtain ⟨o, ho, hrun⟩ := Option.map_eq_some_iff.mp hrun
  obtain ⟨⟨t, b'⟩, rfl, ht⟩ := Option.map_eq_some_iff.mp hrun
  refine ⟨t, b', _, ho, ht, ?_⟩
  refine (redraw_sees_changes_iff .reference (by decide) (by decide) (by decide) ho ht).mpr ?_
  intro _ direction hkey
  have hright : Insert.defaultMaps.eventToAction (.key (.plain .right)) = some (.move .right) := by
    decide
  obtain ⟨rfl⟩ := Option.some.inj (hright.symm.trans hkey)
  decide

/-- Selecting all leaves a cursor behind the last byte on the screen, and a cursor key to the left
leaves the caret on the half byte typed before it there. -/
theorem redraw_misses_caret :
    (((Mode.normal .new).onBuffer .reference (.key (.plain (.char '%'))) (selecting [1, 2] 2 2)
      16).map fun o ↦ o.map fun (t, b') ↦
        (t.report, (selecting [1, 2] 2 2).shownAt 2, b'.shownAt 2)) =
      some (some (some (.changeInPlace [⟨0, 2⟩]), ⟨none, true, true, true⟩,
        ⟨none, false, false, false⟩)) ∧
    (((Mode.insert { mode := .insert, hex := true, hexHalf := some 0x40 }).onBuffer .reference
      (.key (.plain .left)) (selecting [1, 0x40, 2] 1 2) 16).map fun o ↦ o.map fun (t, b') ↦
        (t.report, (selecting [1, 0x40, 2] 1 2).shownAt 1, b'.shownAt 1)) =
      some (some (some (.changeInPlace [⟨0, 1⟩, ⟨2, 3⟩]), ⟨some 0x40, true, true, true⟩,
        ⟨some 0x40, false, false, false⟩)) ∧
    ¬ Reported [⟨0, 2⟩] 2 ∧ ¬ Reported [⟨0, 1⟩, ⟨2, 3⟩] 1 := by
  decide

end Tofu

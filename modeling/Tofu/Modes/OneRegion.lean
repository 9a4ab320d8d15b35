import Tofu.Modes.CaretWrites

/-!
# Edits with one region

What the edits of the insertion modes leave when there is a single region: the data around
its caret, and the region.
-/

namespace Tofu

open Rope SelRegion

variable {X : XiRope UInt8}

/-- One region, which is the main one. -/
def Selection.single (caret tail : Nat) : Selection :=
  { regions := [⟨caret, tail, true⟩], mainSelection := 0 }

namespace Selection

variable {c t n : Nat}

private theorem placed_single (hc : c ≤ n) (ht : t ≤ n) : (single c t).Placed n :=
  ⟨by simp [single], by simp only [single, List.mem_singleton, forall_eq]; exact ⟨hc, ht⟩⟩

private theorem mapEach_single (g : SelRegion → SelRegion) :
    (single c t).mapEach g = single (g ⟨c, t, true⟩).caret (g ⟨c, t, true⟩).tail := rfl

/-- A single region is mapped to a single one. -/
theorem mapRegions_single (g : SelRegion → SelRegion) :
    ((single c t).mapRegions fun r ↦ [g r]) =
      some (single (g ⟨c, t, true⟩).caret (g ⟨c, t, true⟩).tail) := by
  rw [mapRegions_of_before (by simp [single]) (by simp [single]), mapEach_single]

end Selection

namespace CurrentBuffer

variable {b : CurrentBuffer X} {c t : Nat} (hsel : b.selection = .single c t)

section Insert

variable (hct : c ≤ t) (ht : t ≤ b.data.length)
include hsel hct ht

private theorem transform_single (x : UInt8) {p : Nat} (hcp : c ≤ p) (hp : p ≤ b.data.length) :
    Splice.transform b.data.length 0
      (Splice.insertions x (b.selection.regions.map caret)) p = p + 1 := by
  rw [hsel]
  simp only [Selection.single, List.map_cons, List.map_nil, Splice.insertions, Splice.transform,
    List.length_singleton, if_neg (Nat.not_lt.mpr hcp)]
  omega

omit hct ht in
private theorem apply_single (x : UInt8) :
    Splice.apply 0 (Splice.insertions x (b.selection.regions.map caret)) b.data =
      b.data.take c ++ x :: b.data.drop c := by
  rw [hsel]
  simp [Selection.single, Splice.insertions, Splice.apply]

/-- A byte is put before the caret of one region. -/
theorem insert_single (x : UInt8) : ∃ b', (Ops.insert X b.data b.selection [x]).bind
      b.applyIncompleteDelta = some (b', .changeLength) ∧
    b'.data = b.data.take c ++ x :: b.data.drop c ∧ b'.selection = .single (c + 1) (t + 1) := by
  have hp : b.selection.Placed b.data.length :=
    hsel ▸ Selection.placed_single (Nat.le_trans hct ht) ht
  obtain ⟨b', h, hdata, hsel'⟩ := insert_byte hp (by simp [hsel, Selection.single]) x
  refine ⟨b', h, hdata.trans (apply_single hsel x), ?_⟩
  have h1 := transform_single hsel hct ht x (Nat.le_refl c) (Nat.le_trans hct ht)
  have h2 := transform_single hsel hct ht x hct ht
  rw [hsel', hsel, Selection.mapEach_single, ← hsel, carried]
  simp only [caret_new, tail_new, h1, h2]

/-- Half a byte is put before the caret, which is set back onto it. -/
theorem insertHalf_single (hlen : b.data.length + 1 < 2 ^ 63) (x : UInt8) :
    ∃ b', ((Ops.insert X b.data b.selection [x]).bind fun delta ↦
        b.applyIncompleteDeltaOffsetCarets delta (-1) 0) = some (b', .changeLength) ∧
    b'.data = b.data.take c ++ x :: b.data.drop c ∧ b'.selection = .single c (t + 1) := by
  have hp : b.selection.Placed b.data.length :=
    hsel ▸ Selection.placed_single (Nat.le_trans hct ht) ht
  obtain ⟨b', h, hdata, hsel'⟩ := insert_half hp (by simp [hsel, Selection.single])
    (by simpa [hsel, Selection.single] using hlen) x
  refine ⟨b', h, hdata.trans (apply_single hsel x), ?_⟩
  have h1 := transform_single hsel hct ht x (Nat.le_refl c) (Nat.le_trans hct ht)
  have h2 := transform_single hsel hct ht x hct ht
  rw [hsel', hsel, Selection.mapEach_single, ← hsel, carriedBack]
  simp only [caret_new, tail_new, h1, h2, Nat.add_sub_cancel]

end Insert

private theorem behind_single (p : Nat) :
    Splice.behind ((Selection.single c t).regions.map caret) p = if p = c then p + 1 else p := rfl

private theorem caretAt_single {i : Nat} : CaretAt (Selection.single c t).regions i ↔ c = i := by
  simp [CaretAt, Selection.single]

private theorem eq_of_getElem? {data data' : List UInt8} {x : UInt8} (hc : c ≤ data.length)
    (h : ∀ i, data'[i]? = if c = i then some x else data[i]?) :
    data' = data.take c ++ x :: data.drop (c + 1) := by
  refine List.ext_getElem? fun i ↦ ?_
  have hlen : (data.take c).length = c := List.length_take_of_le hc
  rw [h]
  rcases Nat.lt_trichotomy i c with hi | rfl | hi
  · rw [if_neg (Nat.ne_of_gt hi), List.getElem?_append_left (by omega), List.getElem?_take_of_lt hi]
  · rw [if_pos rfl, List.getElem?_append_right (by omega), hlen, Nat.sub_self,
      List.getElem?_cons_zero]
  · obtain ⟨k, rfl⟩ : ∃ k, i = c + 1 + k := ⟨i - (c + 1), by omega⟩
    rw [if_neg (by omega), List.getElem?_append_right (by omega), hlen,
      show c + 1 + k - c = k + 1 by omega, List.getElem?_cons_succ, List.getElem?_drop]

include hsel

/-- The byte under the caret of a backward region is written over. -/
theorem change_single (hct : c < t) (ht : t ≤ b.data.length) (hlen : b.data.length < 2 ^ 63)
    (x : UInt8) : ∃ b' dirty, (Ops.change X b.data b.selection [x]).bind
      b.applyIncompleteDelta = some (b', dirty) ∧
    b'.data = b.data.take c ++ x :: b.data.drop (c + 1) ∧ b'.selection = .single (c + 1) t := by
  have hp : b.selection.Placed b.data.length := hsel ▸ Selection.placed_single (by omega) ht
  obtain ⟨d, hd, hdata, -, hmap⟩ := change_carets hp (by simp [hsel, Selection.single]) hlen x
  rw [hsel, Selection.mapRegions_single, Option.map_some] at hmap
  obtain ⟨⟨b', dirty⟩, h, rfl⟩ := Option.map_eq_some_iff.mp hmap
  refine ⟨_, dirty, by rw [hd, Option.bind_some, h], ?_, ?_⟩
  · refine eq_of_getElem? (by omega) fun i ↦ (hdata i).trans (if_congr ?_ rfl rfl)
    rw [hsel, caretAt_single]
  · simp only [written, caret_new, tail_new, behind_single, if_true, if_neg (Nat.ne_of_gt hct)]

/-- Half a byte is written into the byte at a cursor, which is left on it. -/
theorem overwriteHalf_single (heq : t = c) (hc : c ≤ b.data.length)
    (hlen : b.data.length + 1 < 2 ^ 63) {top : UInt8} (htop : top % 16 = 0) :
    ∃ b' dirty, ((Ops.overwriteHalf X b.data b.selection top).bind fun delta ↦
        b.applyIncompleteDeltaOffsetCarets delta (-1) 0) = some (b', dirty) ∧
    b'.data = b.data.take c ++
      Ops.withUpperHalf top (b.data[c]?.getD 0) :: b.data.drop (c + 1) ∧
    b'.selection = .single c (c + 1) := by
  subst heq
  have hp : b.selection.Placed b.data.length := hsel ▸ Selection.placed_single hc hc
  obtain ⟨d, hd, hdata, -, hmap⟩ :=
    overwriteHalf_carets hp (by simp [hsel, Selection.single]) hlen htop
  rw [hsel, Selection.mapRegions_single, Option.map_some] at hmap
  obtain ⟨⟨b', dirty⟩, h, rfl⟩ := Option.map_eq_some_iff.mp hmap
  refine ⟨_, dirty, by rw [hd, Option.bind_some, h], ?_, ?_⟩
  · refine eq_of_getElem? hc fun i ↦ (hdata i).trans ?_
    rw [if_congr (hsel ▸ caretAt_single) rfl rfl]
    split
    · next heq => rw [heq]
    · rfl
  · simp only [writtenBack, caret_new, tail_new, behind_single, if_true, Nat.add_sub_cancel]

end CurrentBuffer

end Tofu

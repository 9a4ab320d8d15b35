import Tofu.Modes.Closures
import Tofu.Selection.Coverage

/-!
# Splitting by width

The width keys of `Split` (`src/src/modes/split.rs:117–129`) with a typed count. The width
of the pieces is a product of machine words, and so are their ends; the split panics on a
width of zero. Where none of that wraps around, each region is replaced by consecutive
stretches of the width.
-/

namespace Tofu

open SelRegion

variable {X : Rope.XiRope UInt8}

/-- Consecutive stretches that cover `lo..=hi`, each of them `w` long, the last one perhaps
shorter. -/
inductive Chunks (w : Nat) : Nat → Nat → List (Nat × Nat) → Prop where
  | last {lo hi : Nat} (le : lo ≤ hi) (lt : hi < lo + w) : Chunks w lo hi [(lo, hi)]
  | next {lo hi : Nat} {rest : List (Nat × Nat)} (behind : Chunks w (lo + w) hi rest) :
      Chunks w lo hi ((lo, lo + w - 1) :: rest)

namespace Chunks

variable {w lo hi : Nat} {l : List (Nat × Nat)}

private theorem pos (h : Chunks w lo hi l) : 0 < w ∧ lo ≤ hi := by
  induction h with
  | last le lt => omega
  | next _ ih => omega

/-- Each stretch lies in the whole and is not longer than `w`. -/
theorem within (h : Chunks w lo hi l) :
    ∀ p ∈ l, lo ≤ p.1 ∧ p.2 ≤ hi ∧ p.2 < p.1 + w := by
  induction h with
  | last le lt =>
    simp only [List.forall_mem_singleton]
    omega
  | next behind ih =>
    have hpos := behind.pos
    refine List.forall_mem_cons.mpr ⟨by simp only; omega, fun p hp ↦ ?_⟩
    have := ih p hp
    omega

/-- What is not longer than `w` is one stretch. -/
theorem eq_singleton (h : Chunks w lo hi l) (hlt : hi < lo + w) : l = [(lo, hi)] := by
  cases h with
  | last => rfl
  | next behind =>
    have := behind.pos
    omega

end Chunks

/-- Cutting every `w` offsets gives the stretches. -/
theorem chunks_range {w : Nat} (hw : 0 < w) {lo hi : Nat} (h : lo ≤ hi) :
    Chunks w lo hi ((List.range ((hi - lo) / w + 1)).map fun k ↦
      (lo + k * w, min hi (lo + k * w + w - 1))) := by
  generalize hn : (hi - lo) / w = n
  induction n generalizing lo with
  | zero =>
    have hlt : hi - lo < w := (Nat.div_eq_zero_iff_lt hw).mp hn
    have hmin : min hi (lo + w - 1) = hi := by omega
    simp only [Nat.zero_add, List.range_one, List.map_cons, List.map_nil, Nat.zero_mul,
      Nat.add_zero, hmin]
    exact .last h (by omega)
  | succ n ih =>
    have hle : w ≤ hi - lo := by
      by_contra hc
      rw [Nat.div_eq_of_lt (by omega)] at hn
      omega
    have hdiv : (hi - (lo + w)) / w = n := by
      rw [Nat.div_eq_sub_div hw hle, Nat.sub_sub] at hn
      omega
    have hmin : min hi (lo + w - 1) = lo + w - 1 := by omega
    rw [List.range_succ_eq_map, List.map_cons, List.map_map, Nat.zero_mul, Nat.add_zero, hmin]
    refine .next ?_
    have hrest := @ih (lo + w) (by omega) hdiv
    have hfun : (fun k ↦ (lo + w + k * w, min hi (lo + w + k * w + w - 1))) =
        (fun k ↦ (lo + k * w, min hi (lo + k * w + w - 1))) ∘ Nat.succ := by
      funext k
      have hcut : lo + k.succ * w = lo + w + k * w := by
        rw [Nat.succ_mul]
        omega
      rw [Function.comp_apply, hcut]
    rwa [hfun] at hrest

/-- The regions cut into consecutive stretches of `w` offsets each, region by region. -/
def Partitions (w : Nat) (regions out : List SelRegion) : Prop :=
  ∃ chunks : SelRegion → List (Nat × Nat), (∀ r ∈ regions, Chunks w r.min r.max (chunks r)) ∧
    out.map (fun s ↦ (s.min, s.max)) = (regions.map chunks).flatten

/-- A width that fits the word, or leaves regions whole that are not longer than what is
left of it in the word; and no piece that starts where a region does ends behind the last
word. -/
def WidthSafe (w : Nat) (regions : List SelRegion) : Prop :=
  w % 2 ^ 64 ≠ 0 ∧
    ∀ r ∈ regions, (w < 2 ^ 64 ∨ r.len ≤ w % 2 ^ 64) ∧ r.min + w % 2 ^ 64 ≤ 2 ^ 64

instance (w : Nat) (regions : List SelRegion) : Decidable (WidthSafe w regions) :=
  inferInstanceAs (Decidable (_ ∧ _))

namespace Split

/-- Pieces that are shorter than the region fit a word, so that only a first one may not. -/
theorem cutsFit_iff {step : Nat} {r : SelRegion} (hpos : 0 < step)
    (hmax : r.max < 2 ^ 63) : CutsFit step r ↔ r.min + step ≤ 2 ^ 64 := by
  constructor
  · rintro ⟨-, h⟩
    simpa using h 0 (Nat.zero_le _)
  · intro h
    refine ⟨hpos, fun k hk ↦ ?_⟩
    have hcut := cut_le_max hk
    rcases Nat.eq_zero_or_pos k with rfl | hk'
    · omega
    · have : step ≤ k * step := Nat.le_mul_of_pos_left _ hk'
      omega

private theorem chunks_pieces {step : Nat} {r : SelRegion} (h : CutsFit step r) :
    Chunks step r.min r.max ((pieces step r).map fun s ↦ (s.min, s.max)) := by
  rw [bounds_pieces h]
  exact chunks_range h.1 r.min_le_max

/-- The first piece starts at or before the region and reaches its first offset. -/
theorem exists_first_piece (step : Nat) (r : SelRegion) :
    ∃ s ∈ pieces step r, s.min = min r.min (min r.max (usizeSub (usizeAdd r.min step) 1)) ∧
      r.min ≤ s.max := by
  refine ⟨_, List.mem_map_of_mem (List.mem_range.mpr (Nat.succ_pos _)), ?_⟩
  simp only [bounds_withDirection, min_new, max_new, Nat.zero_mul, Nat.add_zero, true_and]
  exact Nat.le_max_left _ _

variable {sel sel' : Selection} {w : Nat}

private theorem bounds_mapRegions {step : Nat} (hs : sel.regions.Pairwise Before)
    (hfit : ∀ r ∈ sel.regions, CutsFit step r) (h : sel.mapRegions (pieces step) = some sel') :
    sel'.regions.map (fun s ↦ (s.min, s.max)) =
      (sel.regions.map fun r ↦ (pieces step r).map fun s ↦ (s.min, s.max)).flatten := by
  have hsorted : (sel.regions.map (pieces step)).flatten.Pairwise Before := by
    rw [List.pairwise_flatten, List.forall_mem_map, List.pairwise_map]
    refine ⟨fun r hr ↦ (divides_pieces (hfit r hr)).sorted,
      hs.imp_of_mem fun ha hb hab s hs t ht ↦ ?_⟩
    exact Nat.lt_of_le_of_lt ((divides_pieces (hfit _ ha)).inside s hs).2
      (Nat.lt_of_lt_of_le hab ((divides_pieces (hfit _ hb)).inside t ht).1)
  have hends := congrArg (List.map fun p ↦ (min p.1 p.2, max p.1 p.2))
    (Selection.map_ofOutputs_of_before h hsorted)
  rw [List.map_map, List.map_map, List.map_flatten, List.map_map] at hends
  exact hends

/-- A partition keeps what starts in a region in it. -/
theorem min_le_of_partitions {r : SelRegion} (hs : sel.regions.Pairwise Before)
    (hp : Partitions w sel.regions sel'.regions) (hr : r ∈ sel.regions) {s : SelRegion}
    (hmem : s ∈ sel'.regions) (hle : r.min ≤ s.max) : r.min ≤ s.min := by
  obtain ⟨chunks, hall, heq⟩ := hp
  have hin : (s.min, s.max) ∈ (sel.regions.map chunks).flatten := heq ▸ List.mem_map_of_mem hmem
  rw [List.mem_flatten] at hin
  obtain ⟨_, hg, hin⟩ := hin
  obtain ⟨r', hr', rfl⟩ := List.mem_map.mp hg
  have hwithin := (hall r' hr').within _ hin
  rcases eq_or_rel_of_pairwise hs hr hr' with rfl | hb | hb
  · exact hwithin.1
  · have := r.min_le_max
    unfold Before at hb
    omega
  · unfold Before at hb
    omega

/-- Where the pieces partition the selection no first piece wraps around. -/
theorem cutsFit_of_partitions {step : Nat} (hpos : 0 < step) (hlt : step < 2 ^ 64)
    (hs : sel.regions.Pairwise Before) (hmax : ∀ r ∈ sel.regions, r.max < 2 ^ 63)
    (h : sel.mapRegions (pieces step) = some sel') (hp : Partitions w sel.regions sel'.regions) :
    ∀ r ∈ sel.regions, CutsFit step r := by
  intro r hr
  rw [cutsFit_iff hpos (hmax r hr)]
  by_contra hc
  obtain ⟨piece, hpiece, hmin, hreach⟩ := exists_first_piece step r
  have hflat : piece ∈ (sel.regions.map (pieces step)).flatten :=
    List.mem_flatten.mpr ⟨_, List.mem_map_of_mem hr, hpiece⟩
  obtain ⟨s, hs', h1, h2⟩ := Selection.within_ofOutputs h piece hflat
  have hle := min_le_of_partitions hs hp hr hs' (by omega)
  have := hmax r hr
  have := r.min_le_max
  unfold usizeSub usizeAdd at hmin
  omega

/-- A width that leaves the word keeps only regions whole that are not longer than what is
left of it. -/
theorem len_le_of_partitions {step : Nat} (hw : 2 ^ 64 ≤ w)
    (hs : sel.regions.Pairwise Before) (hmax : ∀ r ∈ sel.regions, r.max < 2 ^ 63)
    (hfit : ∀ r ∈ sel.regions, CutsFit step r) (h : sel.mapRegions (pieces step) = some sel')
    (hp : Partitions w sel.regions sel'.regions) : ∀ r ∈ sel.regions, r.len ≤ step := by
  intro r hr
  obtain ⟨chunks, hall, heq⟩ := hp
  have hone : chunks r = [(r.min, r.max)] := (hall r hr).eq_singleton (by have := hmax r hr; omega)
  have hmem : (r.min, r.max) ∈ (sel.regions.map chunks).flatten :=
    List.mem_flatten.mpr ⟨_, List.mem_map_of_mem hr, by simp [hone]⟩
  rw [← heq, bounds_mapRegions hs hfit h, List.mem_flatten] at hmem
  obtain ⟨_, hg, hmem⟩ := hmem
  obtain ⟨r', hr', rfl⟩ := List.mem_map.mp hg
  have := (chunks_pieces (hfit r' hr')).within _ hmem
  have := r.min_le_max
  unfold SelRegion.len
  omega

/-- Pieces that fit partition the selection. -/
theorem partitions_of_widthSafe (hs : sel.regions.Pairwise Before)
    (hmax : ∀ r ∈ sel.regions, r.max < 2 ^ 63) (hw : WidthSafe w sel.regions)
    (h : sel.mapRegions (pieces (w % 2 ^ 64)) = some sel') :
    Partitions w sel.regions sel'.regions := by
  obtain ⟨hpos, hsafe⟩ := hw
  have hfit : ∀ r ∈ sel.regions, CutsFit (w % 2 ^ 64) r := fun r hr ↦
    (cutsFit_iff (by omega) (hmax r hr)).mpr (hsafe r hr).2
  refine ⟨fun r ↦ (pieces (w % 2 ^ 64) r).map fun s ↦ (s.min, s.max), fun r hr ↦ ?_,
    bounds_mapRegions hs hfit h⟩
  have hchunks := chunks_pieces (hfit r hr)
  beta_reduce
  rcases (hsafe r hr).1 with hlt | hlen
  · rwa [Nat.mod_eq_of_lt hlt] at hchunks ⊢
  · have hmin := r.min_le_max
    have hstep : w % 2 ^ 64 ≤ w := Nat.mod_le _ _
    unfold SelRegion.len at hlen
    rw [hchunks.eq_singleton (by omega)]
    exact .last hmin (by omega)

end Split

end Tofu

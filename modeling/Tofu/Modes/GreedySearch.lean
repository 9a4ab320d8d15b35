import Tofu.Modes.Matches

/-!
# The search against a reference matcher

The reference takes, in each region, the leftmost occurrence that starts at or behind the
end of the last one, where a literal stands for its byte and a wildcard for any byte
(`src/README.md:110–116`). The two paths of `modes/search.rs:64–111` are compared with it:
the literal path follows it, and the path through a regular expression follows it as long
as no match puts a wildcard on a line feed.
-/

namespace Tofu

open Rope Matching

variable {X : XiRope UInt8}

/-- The bytes a piece of a pattern stands for. -/
def PatternPiece.StandsFor : PatternPiece → UInt8 → Prop
  | .literal c, x => x = c
  | .wildcard, _ => True

namespace Pattern

/-- The pattern occurs at an offset, inside the region. -/
structure OccursAt (p : Pattern) (data : List UInt8) (r : SelRegion) (s : Nat) : Prop where
  behind_min : r.min ≤ s
  upto_max : s + p.pieces.length ≤ r.max + 1
  pieces : ∀ (i : Nat) (piece : PatternPiece), p.pieces[i]? = some piece →
    ∃ x, data[s + i]? = some x ∧ piece.StandsFor x

/-- The starts the reference takes in a region. -/
def GreedyStarts (p : Pattern) (data : List UInt8) (r : SelRegion) : List Nat → Prop :=
  Greedy (p.OccursAt data r) p.pieces.length r.min

/-- The ranges the reference takes in a region. -/
def GreedyRanges (p : Pattern) (data : List UInt8) (r : SelRegion) (ranges : List Interval) :
    Prop :=
  ∃ starts, p.GreedyStarts data r starts ∧
    ranges = starts.map fun s ↦ { start := s, stop := s + p.pieces.length }

/-- An occurrence puts a wildcard on a line feed. -/
def WildcardOnLineFeed (p : Pattern) (data : List UInt8) (s : Nat) : Prop :=
  ∃ i < p.pieces.length, p.pieces[i]? = some .wildcard ∧ data[s + i]? = some 0x0A

instance (p : Pattern) (data : List UInt8) (s : Nat) : Decidable (p.WildcardOnLineFeed data s) :=
  inferInstanceAs (Decidable (∃ i < p.pieces.length, _))

private theorem startsWith_tests_iff {p : Pattern} (hp : p.pieces ≠ []) {data : List UInt8}
    {r : SelRegion} {s : Nat} (hs : r.min ≤ s) :
    startsWith p.tests ((data.take (r.max + 1)).drop s) = true ↔
      p.OccursAt data r s ∧ ¬ p.WildcardOnLineFeed data s := by
  have hl : p.tests.length = p.pieces.length := List.length_map _
  have hpos : 0 < p.pieces.length := List.length_pos_iff.mpr hp
  constructor
  · intro h
    have hlen := length_le_of_startsWith h
    rw [hl, List.length_drop, List.length_take] at hlen
    rw [startsWith_iff] at h
    have hget : ∀ (i : Nat) (piece : PatternPiece), p.pieces[i]? = some piece →
        ∃ x, data[s + i]? = some x ∧ (piece = .literal x ∨ piece = .wildcard ∧ x ≠ 0x0A) := by
      intro i piece hi
      have hlt := (List.getElem?_eq_some_iff.mp hi).1
      obtain ⟨x, hx, ht⟩ := h i _ (by rw [tests, List.getElem?_map, hi]; rfl)
      rw [List.getElem?_drop, List.getElem?_take_of_lt (by omega)] at hx
      refine ⟨x, hx, ?_⟩
      cases piece with
      | literal c => exact .inl (by rw [eq_of_beq ht])
      | wildcard => exact .inr ⟨rfl, bne_iff_ne.mp ht⟩
    refine ⟨⟨hs, by omega, fun i piece hi ↦ ?_⟩, ?_⟩
    · obtain ⟨x, hx, hc⟩ := hget i piece hi
      refine ⟨x, hx, ?_⟩
      rcases hc with rfl | ⟨rfl, -⟩
      · rfl
      · trivial
    · rintro ⟨i, -, hi, hfeed⟩
      obtain ⟨x, hx, hc⟩ := hget i _ hi
      rw [hfeed, Option.some.injEq] at hx
      simp [← hx] at hc
  · rintro ⟨⟨-, hmax, hpieces⟩, hno⟩
    rw [startsWith_iff]
    intro i t ht
    rw [tests, List.getElem?_map, Option.map_eq_some_iff] at ht
    obtain ⟨piece, hi, rfl⟩ := ht
    have hlt := (List.getElem?_eq_some_iff.mp hi).1
    obtain ⟨x, hx, hc⟩ := hpieces i piece hi
    refine ⟨x, by rw [List.getElem?_drop, List.getElem?_take_of_lt (by omega), hx], ?_⟩
    cases piece with
    | literal c => exact beq_iff_eq.mpr hc
    | wildcard =>
      refine bne_iff_ne.mpr ?_
      rintro rfl
      exact hno ⟨i, hlt, hi, hx⟩

/-- The matches in a region are a greedy search for the occurrences without a wildcard on
a line feed. -/
theorem greedy_matchesIn {p : Pattern} (hp : p.pieces ≠ []) (data : List UInt8)
    (r : SelRegion) :
    Greedy (fun s ↦ p.OccursAt data r s ∧ ¬ p.WildcardOnLineFeed data s) p.pieces.length r.min
      (occurrences p.tests 0 r.min (slice data r)) := by
  have hl : p.tests.length = p.pieces.length := List.length_map _
  have h := greedy_occurrences (by simpa [tests] using hp : p.tests ≠ []) (data.take (r.max + 1))
    0 r.min
  have hslice : (data.take (r.max + 1)).drop r.min = slice data r := List.drop_take ..
  rw [hl, Nat.add_zero, hslice] at h
  refine h.restrict (fun s hs ↦ (startsWith_tests_iff hp hs).mpr) fun s hs ↦ ?_
  exact (startsWith_tests_iff hp (mem_occurrences hs).1).mp (h.occurs_of_mem s hs)

/-- There is a reference for each region. -/
theorem exists_greedyStarts {p : Pattern} (hp : p.pieces ≠ []) (data : List UInt8)
    (r : SelRegion) : ∃ starts, p.GreedyStarts data r starts := by
  have hpos : 0 < p.pieces.length := List.length_pos_iff.mpr hp
  refine Greedy.exists_of_bounded hpos (r.max + 1) (fun s hs ↦ ?_) r.min
  have := hs.upto_max
  omega

/-- The search finds in a region what the reference takes there exactly when the reference
never puts a wildcard on a line feed. -/
theorem greedyRanges_matchesIn_iff {p : Pattern} (hp : p.pieces ≠ []) (data : List UInt8)
    (r : SelRegion) :
    p.GreedyRanges data r (p.matchesIn data r) ↔
      ∀ starts, p.GreedyStarts data r starts → ∀ s ∈ starts, ¬ p.WildcardOnLineFeed data s := by
  have hcode := greedy_matchesIn hp data r
  constructor
  · rintro ⟨starts, hstarts, heq⟩ starts' hstarts'
    obtain rfl : starts = starts' := hstarts.unique hstarts'
    have hinj : Function.Injective fun s : Nat ↦
        ({ start := s, stop := s + p.pieces.length } : Interval) :=
      fun s t hst ↦ congrArg Interval.start hst
    rw [← List.map_injective_iff.mpr hinj heq]
    exact fun s hs ↦ (hcode.occurs_of_mem s hs).2
  · intro h
    obtain ⟨starts, hstarts⟩ := exists_greedyStarts hp data r
    have hsame : Greedy (fun s ↦ p.OccursAt data r s ∧ ¬ p.WildcardOnLineFeed data s)
        p.pieces.length r.min starts :=
      hstarts.restrict (fun _ _ hs ↦ hs.1) fun s hs ↦
        ⟨hstarts.occurs_of_mem s hs, h starts hstarts s hs⟩
    refine ⟨starts, hstarts, ?_⟩
    rw [matchesIn, hcode.unique hsame]

/-- Without wildcards no expression is built. -/
theorem isSome_asBasicSlice_iff (p : Pattern) :
    p.asBasicSlice.isSome ↔ .wildcard ∉ p.pieces := by
  obtain ⟨pieces⟩ := p
  simp only [asBasicSlice]
  induction pieces with
  | nil => simp
  | cons piece pieces ih =>
    cases piece with
    | wildcard => simp
    | literal c => simpa [Option.isSome_bind] using ih

variable {p : Pattern} {b : CurrentBuffer X}

/-- A search without wildcards ends, slices in range and finds what the reference takes in
each region. -/
theorem literal_search_greedy (E : SearchEngine) (hp : p.pieces ≠ [])
    (hw : .wildcard ∉ p.pieces) (hb : ∀ r ∈ b.selection.regions, r.InBounds b.data.length)
    (hn : b.data.length < 2 ^ 63) :
    ∃ found, p.mapSelectionsToMatches E b = some found ∧
      List.Forall₂ (p.GreedyRanges b.data) b.selection.regions found := by
  refine ⟨_, by rw [mapSelectionsToMatches_eq E hp hb hn,
    if_pos (.inl ((isSome_asBasicSlice_iff p).mpr hw))], ?_⟩
  rw [List.forall₂_map_right_iff, List.forall₂_same]
  intro r _
  refine (greedyRanges_matchesIn_iff hp b.data r).mpr fun _ _ s _ ↦ ?_
  rintro ⟨i, -, hi, -⟩
  exact hw (List.mem_of_getElem? hi)

/-- Two ones among five are found twice: the matches do not overlap. -/
theorem literal_search_ones :
    GreedyRanges { pieces := [.literal 1, .literal 1] } [1, 1, 1, 1, 1]
      { caret := 4, tail := 0, main := true }
      [{ start := 0, stop := 2 }, { start := 2, stop := 4 }] := by
  obtain ⟨found, hfound, hall⟩ := literal_search_greedy .reference
    (p := { pieces := [.literal 1, .literal 1] }) (b := selectedAll [1, 1, 1, 1, 1])
    (by decide) (by decide) (by decide) (by decide)
  have hcode : mapSelectionsToMatches .reference { pieces := [.literal 1, .literal 1] }
      (selectedAll [1, 1, 1, 1, 1]) =
        some [[{ start := 0, stop := 2 }, { start := 2, stop := 4 }]] := by decide
  obtain rfl : _ = found := Option.some.inj (hcode.symm.trans hfound)
  exact (List.forall₂_cons.mp hall).1

/-- A search with a wildcard finds what the reference takes in each region exactly when its
expression can be built and the reference never puts a wildcard on a line feed. -/
theorem wildcard_search_greedy_iff (E : SearchEngine) (hw : .wildcard ∈ p.pieces)
    (hb : ∀ r ∈ b.selection.regions, r.InBounds b.data.length) (hn : b.data.length < 2 ^ 63) :
    (∃ found, p.mapSelectionsToMatches E b = some found ∧
      List.Forall₂ (p.GreedyRanges b.data) b.selection.regions found) ↔
    (E.build p.expr).isSome ∧ ∀ r ∈ b.selection.regions, ∀ starts,
      p.GreedyStarts b.data r starts → ∀ s ∈ starts, ¬ p.WildcardOnLineFeed b.data s := by
  have hp : p.pieces ≠ [] := List.ne_nil_of_mem hw
  have hc : p.Compiles E ↔ (E.build p.expr).isSome := by
    rw [Compiles, isSome_asBasicSlice_iff]
    exact or_iff_right fun h ↦ h hw
  rw [mapSelectionsToMatches_eq E hp hb hn]
  by_cases h : (E.build p.expr).isSome
  · rw [if_pos (hc.mpr h)]
    simp only [Option.some.injEq, exists_eq_left', h, true_and]
    rw [List.forall₂_map_right_iff, List.forall₂_same]
    simp only [greedyRanges_matchesIn_iff hp]
  · rw [if_neg (mt hc.mp h)]
    simp [h]

/-- A wildcard before a line feed is found. -/
theorem wildcard_search_before_lineFeed :
    ∃ found, mapSelectionsToMatches .reference { pieces := [.wildcard, .literal 0x0A] }
        (selectedAll [7, 0x0A, 8]) = some found ∧
      List.Forall₂ (GreedyRanges { pieces := [.wildcard, .literal 0x0A] } [7, 0x0A, 8])
        (selectedAll [7, 0x0A, 8]).selection.regions found := by
  refine (wildcard_search_greedy_iff .reference (p := { pieces := [.wildcard, .literal 0x0A] })
    (b := selectedAll [7, 0x0A, 8]) (by decide) (by decide) (by decide)).mpr ⟨rfl, ?_⟩
  intro r hr starts hstarts s hs
  obtain rfl := List.mem_singleton.mp hr
  obtain ⟨-, hmax, hpieces⟩ := hstarts.occurs_of_mem s hs
  obtain ⟨x, hx, hlit⟩ := hpieces 1 (.literal 0x0A) rfl
  obtain rfl : x = 0x0A := hlit
  have hle : s ≤ 1 := Nat.le_of_add_le_add_right hmax
  -- only the first byte is followed by a line feed
  obtain rfl | rfl : s = 0 ∨ s = 1 := by omega
  · decide
  · exact absurd hx (by decide)

/-- A wildcard does not find a line feed. -/
theorem wildcard_misses_lineFeed :
    mapSelectionsToMatches .reference { pieces := [.wildcard] } (selectedAll [0x0A]) = some [[]] ∧
    GreedyRanges { pieces := [.wildcard] } [0x0A] { caret := 0, tail := 0, main := true }
      [{ start := 0, stop := 1 }] ∧
    ¬ GreedyRanges { pieces := [.wildcard] } [0x0A] { caret := 0, tail := 0, main := true } [] := by
  have hstarts : GreedyStarts { pieces := [.wildcard] } [0x0A]
      { caret := 0, tail := 0, main := true } [0] := by
    refine .next (by decide) ⟨by decide, by decide, fun i piece hi ↦ ?_⟩ (by omega)
      (.done fun s hle hs ↦ ?_)
    · obtain ⟨rfl, rfl⟩ : i = 0 ∧ piece = .wildcard := by
        cases i with
        | zero => exact ⟨rfl, (Option.some.inj hi).symm⟩
        | succ i => simp at hi
      exact ⟨0x0A, rfl, trivial⟩
    · have h1 : 1 ≤ s := hle
      have h2 : s + 1 ≤ 1 := hs.upto_max
      omega
  refine ⟨by decide, ⟨[0], hstarts, rfl⟩, ?_⟩
  rintro ⟨starts, hempty, heq⟩
  rw [← hstarts.unique hempty] at heq
  simp at heq

end Pattern

end Tofu

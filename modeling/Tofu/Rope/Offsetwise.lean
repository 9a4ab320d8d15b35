import Tofu.Rope.Splice

/-!
# Sorted edits, offset by offset

What a sorted list of edits makes of a base, said for every offset of the base and for the
one just behind it: edits that replace, and edits that only insert.
-/

namespace Tofu.Rope

variable {α : Type*}

/-- What comes for the offsets from `a` up to `b`, one after the other. -/
def segment (f : Nat → List α) (a b : Nat) : List α := (List.range' a (b - a)).flatMap f

/-- What comes for every offset of the base and for the one behind it. -/
def offsetwise (f : Nat → Option α → List α) (xs : List α) : List α :=
  (List.range (xs.length + 1)).flatMap fun i ↦ f i xs[i]?

section Segment

variable {f g : Nat → List α} {a b c : Nat}

/-- What comes for all offsets is the segment of them. -/
theorem offsetwise_eq_segment (f : Nat → Option α → List α) (xs : List α) :
    offsetwise f xs = segment (fun i ↦ f i xs[i]?) 0 (xs.length + 1) := by
  rw [offsetwise, segment, List.range_eq_range', Nat.sub_zero]

private theorem segment_append (hab : a ≤ b) (hbc : b ≤ c) :
    segment f a c = segment f a b ++ segment f b c := by
  rw [segment, segment, segment, ← List.flatMap_append,
    show c - a = (b - a) + (c - b) by omega, ← List.range'_append_1,
    show a + (b - a) = b by omega]

/-- A segment depends on what comes for its offsets only. -/
theorem segment_congr (h : ∀ i, a ≤ i → i < b → f i = g i) : segment f a b = segment g a b := by
  apply List.flatMap_congr
  intro i hi
  obtain ⟨hai, hib⟩ := List.mem_range'_1.mp hi
  exact h i hai (by omega)

private theorem segment_cons (hab : a < b) : segment f a b = f a ++ segment f (a + 1) b := by
  rw [segment, show b - a = (b - (a + 1)) + 1 by omega, List.range'_succ, List.flatMap_cons]
  rfl

/-- A segment of one offset. -/
@[simp] theorem segment_one (f : Nat → List α) (a : Nat) : segment f a (a + 1) = f a := by
  rw [segment_cons (Nat.lt_succ_self a), segment, Nat.sub_self]
  simp

/-- The same text for every offset is repeated as often as there are offsets. -/
theorem segment_const (text : List α) (a b : Nat) :
    segment (fun _ ↦ text) a b = (List.replicate (b - a) text).flatten := by
  rw [segment, List.flatMap_def, List.map_const', List.length_range']

/-- The base itself, up to an offset. -/
theorem segment_base (xs : List α) (a b : Nat) :
    segment (fun i ↦ xs[i]?.toList) a b = (xs.drop a).take (b - a) := by
  rw [segment]
  generalize b - a = n
  induction n generalizing a with
  | zero => simp
  | succ n ih =>
    rw [List.range'_succ, List.flatMap_cons, ih]
    by_cases h : a < xs.length
    · rw [List.drop_eq_getElem_cons h, List.take_succ_cons, List.getElem?_eq_getElem h]
      rfl
    · have hlen : xs.length ≤ a := Nat.not_lt.mp h
      rw [List.drop_of_length_le hlen, List.drop_of_length_le (by omega),
        List.getElem?_eq_none hlen]
      simp

end Segment

namespace Splice

variable {xs : List α} {f : Nat → List α}

private theorem not_removes_before {es : List (Edit α)} {pos i : Nat} (hs : Sorted pos es)
    (hi : i < pos) : ¬ Removes es i := by
  rintro ⟨e, he, hle, -⟩
  have := hs.le_start he
  omega

/-- Edits whose texts come offset by offset for the offsets they remove. -/
theorem apply_eq_segment {es : List (Edit α)} {pos : Nat} (hs : Sorted pos es)
    (hpos : pos ≤ xs.length + 1) (hstop : ∀ e ∈ es, e.stop ≤ xs.length + 1)
    (htext : ∀ e ∈ es, segment f e.start e.stop = e.text)
    (hkept : ∀ i, pos ≤ i → ¬ Removes es i → f i = xs[i]?.toList) :
    apply pos es xs = segment f pos (xs.length + 1) := by
  induction es generalizing pos with
  | nil =>
    rw [segment_congr fun i hi _ ↦ hkept i hi (by simp [Removes]), segment_base, apply,
      List.take_of_length_le]
    rw [List.length_drop]
    omega
  | cons e es ih =>
    obtain ⟨h1, h2, hs⟩ := hs
    obtain ⟨hstop1, hstop2⟩ := List.forall_mem_cons.mp hstop
    obtain ⟨htext1, htext2⟩ := List.forall_mem_cons.mp htext
    have hbefore : segment f pos e.start = (xs.drop pos).take (e.start - pos) := by
      rw [← segment_base]
      refine segment_congr fun i hi hlt ↦ hkept i hi ?_
      have hfrom : Sorted e.start (e :: es) := ⟨Nat.le_refl _, h2, hs⟩
      exact not_removes_before hfrom hlt
    have hrest := ih hs hstop1 hstop2 htext2 fun i hi hk ↦ hkept i (by omega) (by
      rintro ⟨e', he', hr⟩
      rcases List.mem_cons.mp he' with rfl | he'
      · omega
      · exact hk ⟨e', he', hr⟩)
    rw [apply, hrest, segment_append (b := e.start) h1 (by omega),
      segment_append (b := e.stop) h2 hstop1, hbefore, htext1, List.append_assoc]

/-- The texts that edits starting at an offset bring, in their order. -/
def textAt (es : List (Edit α)) (i : Nat) : List α :=
  (es.filter fun e ↦ decide (e.start = i)).flatMap Edit.text

private theorem textAt_before {es : List (Edit α)} {pos i : Nat} (hs : Sorted pos es)
    (hi : i < pos) : textAt es i = [] := by
  have hnone : (es.filter fun e ↦ decide (e.start = i)) = [] := by
    refine List.filter_eq_nil_iff.mpr fun e he ↦ ?_
    have := hs.le_start he
    simp only [decide_eq_true_eq]
    omega
  rw [textAt, hnone, List.flatMap_nil]

/-- The text of the first edit comes first where it starts. -/
theorem textAt_cons (e : Edit α) (es : List (Edit α)) (i : Nat) :
    textAt (e :: es) i = (if e.start = i then e.text else []) ++ textAt es i := by
  by_cases h : e.start = i <;> simp [textAt, h]

/-- Edits that only insert. -/
theorem apply_inserts {es : List (Edit α)} {pos : Nat} (hs : Sorted pos es)
    (hpos : pos ≤ xs.length + 1) (hw : Within xs.length es) (hins : ∀ e ∈ es, e.stop = e.start) :
    apply pos es xs =
      segment (fun i ↦ textAt es i ++ xs[i]?.toList) pos (xs.length + 1) := by
  induction es generalizing pos with
  | nil =>
    have hnil : (fun i ↦ textAt ([] : List (Edit α)) i ++ xs[i]?.toList) =
        fun i ↦ xs[i]?.toList := rfl
    rw [hnil, segment_base, apply, List.take_of_length_le]
    rw [List.length_drop]
    omega
  | cons e es ih =>
    obtain ⟨h1, -, hs'⟩ := hs
    obtain ⟨hstop, hins'⟩ := List.forall_mem_cons.mp hins
    obtain ⟨hstart, hw'⟩ := List.forall_mem_cons.mp hw
    rw [hstop] at hs'
    have hrest := ih hs' (by omega) hw' hins'
    have hbefore : segment (fun i ↦ textAt (e :: es) i ++ xs[i]?.toList) pos e.start =
        (xs.drop pos).take (e.start - pos) := by
      rw [← segment_base]
      refine segment_congr fun i _ hlt ↦ ?_
      rw [textAt_cons, if_neg (by omega), textAt_before hs' hlt]
      rfl
    -- at its own offset the edit brings its text before all others
    have hafter : segment (fun i ↦ textAt (e :: es) i ++ xs[i]?.toList) e.start (xs.length + 1) =
        e.text ++ segment (fun i ↦ textAt es i ++ xs[i]?.toList) e.start (xs.length + 1) := by
      have htail : segment (fun i ↦ textAt (e :: es) i ++ xs[i]?.toList) (e.start + 1)
          (xs.length + 1) =
          segment (fun i ↦ textAt es i ++ xs[i]?.toList) (e.start + 1) (xs.length + 1) := by
        refine segment_congr fun i hi _ ↦ ?_
        rw [textAt_cons, if_neg (by omega), List.nil_append]
      rw [segment_cons (by omega), htail, segment_cons (a := e.start) (by omega), textAt_cons,
        if_pos rfl]
      simp only [List.append_assoc]
    rw [apply, hstop, hrest, segment_append (b := e.start) h1 (by omega), hbefore, hafter,
      List.append_assoc]

end Splice

end Tofu.Rope

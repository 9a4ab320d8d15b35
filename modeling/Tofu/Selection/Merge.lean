import Tofu.Base.Chain
import Tofu.Selection.Region

/-!
# Merging regions in order

The inner loop of `Selection::map_selections`, `src/src/selection.rs:155–161`. The
regions produced so far are kept in reverse, so that `regions_out.last()` is the head
of the list. A new region is pushed behind the last one or, when the two overlap, merged
into it. For regions that arrive in order the loop panics exactly when a stretch of
overlapping regions holds two that point different ways.
-/

namespace Tofu

open SelRegion

/-- One round of the inner loop, `selection.rs:156–160`. -/
def pushRegion (regionsOut : List SelRegion) (newRegion : SelRegion) :
    Option (List SelRegion) :=
  match regionsOut with
  | [] => some [newRegion]
  | last :: rest =>
    if last.overlaps newRegion then (last.merge newRegion).map (· :: rest)
    else some (newRegion :: last :: rest)

/-- The inner loop over what the closure returned for one region. -/
def pushAll (regionsOut newRegions : List SelRegion) : Option (List SelRegion) :=
  newRegions.foldlM pushRegion regionsOut

/-- The region ends before the other one starts. -/
def Before (r s : SelRegion) : Prop := r.max < s.min

/-- The other region starts at or before the end of this one. -/
def Touch (r s : SelRegion) : Prop := s.min ≤ r.max

/-- The other region starts and ends at or behind this one. -/
def NotBehind (r s : SelRegion) : Prop := r.min ≤ s.min ∧ r.max ≤ s.max

instance : DecidableRel Before := fun r s ↦ inferInstanceAs (Decidable (r.max < s.min))

instance : DecidableRel Touch := fun r s ↦ inferInstanceAs (Decidable (s.min ≤ r.max))

private theorem Before.trans {r s t : SelRegion} (h : Before r s) (h' : Before s t) : Before r t :=
  Nat.lt_trans h (Nat.lt_of_le_of_lt s.min_le_max h')

/-- The caret of a region lies before the caret of a region behind it. -/
theorem Before.caret_lt {a b : SelRegion} (h : Before a b) : a.caret < b.caret :=
  Nat.lt_of_le_of_lt a.caret_le_max (Nat.lt_of_lt_of_le h b.min_le_caret)

/-- Tails are in the order of the regions. -/
theorem Before.tail_lt {a b : SelRegion} (h : Before a b) : a.tail < b.tail :=
  Nat.lt_of_le_of_lt a.tail_le_max (Nat.lt_of_lt_of_le h b.min_le_tail)

/-- Regions that do not touch are in order. -/
theorem not_touch_iff_before {r s : SelRegion} : ¬ Touch r s ↔ Before r s := Nat.not_le

/-- A region before another one is not behind it. -/
theorem Before.notBehind {r s : SelRegion} (h : Before r s) : NotBehind r s := by
  have hr := r.min_le_max
  have hs := s.min_le_max
  unfold Before at h
  exact ⟨by omega, by omega⟩

/-- Nothing is pushed. -/
@[simp] theorem pushAll_nil (out : List SelRegion) : pushAll out [] = some out := rfl

/-- Regions are pushed one after the other. -/
@[simp] theorem pushAll_cons (out : List SelRegion) (r : SelRegion) (rs : List SelRegion) :
    pushAll out (r :: rs) = (pushRegion out r).bind (pushAll · rs) := rfl

/-- A round opens the list, pushes a region that lies behind the last one, or replaces the
last one by the merge. -/
theorem pushRegion_cases {out out' : List SelRegion} {r : SelRegion}
    (h : pushRegion out r = some out') :
    (out = [] ∧ out' = [r]) ∨
    (∃ last rest, out = last :: rest ∧ Before last r ∧ out' = r :: out) ∨
    (∃ last rest m, out = last :: rest ∧ Touch last r ∧ IsMerge last r m ∧ out' = m :: rest) := by
  cases out with
  | nil =>
    simp only [pushRegion, Option.some.injEq] at h
    exact .inl ⟨rfl, h.symm⟩
  | cons last rest =>
    simp only [pushRegion, overlaps, decide_eq_true_eq] at h
    split at h
    · next ht =>
      obtain ⟨m, hm, rfl⟩ := Option.map_eq_some_iff.mp h
      exact .inr (.inr ⟨last, rest, m, rfl, ht, isMerge_of_merge hm, rfl⟩)
    · next ht =>
      simp only [Option.some.injEq] at h
      exact .inr (.inl ⟨last, rest, rfl, not_touch_iff_before.mp ht, h.symm⟩)

/-! ## What holds of the regions produced -/

/-- An invariant of the list and of the region that arrives next is kept by whole loops,
when each arriving region makes it hold for the next. -/
theorem pushAll_induction {I : List SelRegion → List SelRegion → Prop}
    (hstep : ∀ out r rs out', I out (r :: rs) → pushRegion out r = some out' → I out' rs)
    {out out' : List SelRegion} {rs rest : List SelRegion} (h : pushAll out rs = some out')
    (hi : I out (rs ++ rest)) : I out' rest := by
  induction rs generalizing out with
  | nil =>
    rw [pushAll_nil, Option.some.injEq] at h
    rwa [← h]
  | cons r rs ih =>
    rw [pushAll_cons, Option.bind_eq_some_iff] at h
    obtain ⟨mid, hm, h⟩ := h
    exact ih h (hstep out r (rs ++ rest) mid hi hm)

private theorem desc_push {last r : SelRegion} {rest : List SelRegion} (hb : Before last r)
    (hd : (last :: rest).Pairwise fun r s ↦ Before s r) :
    (r :: last :: rest).Pairwise fun r s ↦ Before s r := by
  refine List.pairwise_cons.mpr ⟨fun s hs ↦ ?_, hd⟩
  rcases List.mem_cons.mp hs with rfl | hs
  · exact hb
  · exact ((List.pairwise_cons.mp hd).1 s hs).trans hb

private theorem desc_replace {last m : SelRegion} {rest : List SelRegion} (hm : m.min = last.min)
    (hd : (last :: rest).Pairwise fun r s ↦ Before s r) :
    (m :: rest).Pairwise fun r s ↦ Before s r := by
  obtain ⟨hl, hr⟩ := List.pairwise_cons.mp hd
  refine List.pairwise_cons.mpr ⟨fun s hs ↦ ?_, hr⟩
  have := hl s hs
  rwa [Before, hm]

/-- The regions produced so far are sorted and disjoint, and the rest starts behind the
start of the last one. -/
structure Ordered (out rest : List SelRegion) : Prop where
  desc : out.Pairwise fun r s ↦ Before s r
  head : ∀ last ∈ out.head?, ∀ r ∈ rest, last.min ≤ r.min
  rest_mono : rest.Pairwise fun r s ↦ r.min ≤ s.min

/-- A round keeps regions that arrive in the order of their starts sorted and disjoint. -/
theorem Ordered.pushRegion {out out' rs : List SelRegion} {r : SelRegion}
    (h : Ordered out (r :: rs)) (hp : pushRegion out r = some out') : Ordered out' rs := by
  obtain ⟨hr, hrs⟩ := List.pairwise_cons.mp h.rest_mono
  rcases pushRegion_cases hp with ⟨rfl, rfl⟩ | ⟨last, rest, rfl, hb, rfl⟩ |
    ⟨last, rest, m, rfl, ht, hm, rfl⟩
  · exact ⟨by simp, by simpa using hr, hrs⟩
  · exact ⟨desc_push hb h.desc, by simpa using hr, hrs⟩
  · have hl : last.min ≤ r.min := h.head last (by simp) r (by simp)
    have hmin : m.min = last.min := hm.min_eq.trans (Nat.min_eq_left hl)
    refine ⟨desc_replace hmin h.desc, fun x hx s hs ↦ ?_, hrs⟩
    simp only [List.head?_cons, Option.mem_def, Option.some.injEq] at hx
    subst hx
    have := hr s hs
    omega

/-- Every region produced so far and every one to come is a cursor. -/
structure Cursors (out rest : List SelRegion) : Prop where
  desc : out.Pairwise fun r s ↦ Before s r
  out_cursor : ∀ r ∈ out, r.caret = r.tail
  rest_cursor : ∀ r ∈ rest, r.caret = r.tail

/-- Cursors may arrive in any order: those that are out of order make the round panic. -/
theorem Cursors.pushRegion {out out' rs : List SelRegion} {r : SelRegion}
    (h : Cursors out (r :: rs)) (hp : pushRegion out r = some out') : Cursors out' rs := by
  have hr : r.caret = r.tail := h.rest_cursor r (by simp)
  have hrs : ∀ s ∈ rs, s.caret = s.tail := fun s hs ↦ h.rest_cursor s (by simp [hs])
  rcases pushRegion_cases hp with ⟨rfl, rfl⟩ | ⟨last, rest, rfl, hb, rfl⟩ |
    ⟨last, rest, m, rfl, ht, hm, rfl⟩
  · exact ⟨by simp, by simpa using hr, hrs⟩
  · exact ⟨desc_push hb h.desc, List.forall_mem_cons.mpr ⟨hr, h.out_cursor⟩, hrs⟩
  · have hl : last.caret = last.tail := h.out_cursor last (by simp)
    have hm' : last.merge r ≠ none := by
      intro hn
      simp [Tofu.pushRegion, overlaps, show r.min ≤ last.max from ht, hn] at hp
    have heq : last.caret = r.caret := by
      by_contra hc
      exact hm' ((merge_eq_none_iff last r).mpr (.inr ⟨hl, hr, hc⟩))
    have hmin : m.min = last.min := by
      have := hm.min_eq
      unfold SelRegion.min at this ⊢
      omega
    have hmc : m.caret = m.tail := by
      have hf := hm.strictForward_iff
      have hb := hm.strictBackward_iff
      unfold StrictForward at hf
      unfold StrictBackward at hb
      omega
    exact ⟨desc_replace hmin h.desc,
      List.forall_mem_cons.mpr ⟨hmc, (List.forall_mem_cons.mp h.out_cursor).2⟩, hrs⟩

/-- What merging keeps holds of the regions produced when it holds of those that arrive. -/
theorem forall_pushRegion {P : SelRegion → Prop}
    (hmerge : ∀ a b m, P a → P b → IsMerge a b m → P m) {out out' : List SelRegion}
    {r : SelRegion} (h : pushRegion out r = some out') (ho : ∀ s ∈ out, P s) (hr : P r) :
    ∀ s ∈ out', P s := by
  rcases pushRegion_cases h with ⟨rfl, rfl⟩ | ⟨last, rest, rfl, -, rfl⟩ |
    ⟨last, rest, m, rfl, -, hm, rfl⟩
  · simpa using hr
  · exact List.forall_mem_cons.mpr ⟨hr, ho⟩
  · obtain ⟨hl, hrest⟩ := List.forall_mem_cons.mp ho
    exact List.forall_mem_cons.mpr ⟨hmerge last r m hl hr hm, hrest⟩

/-! ## When the loop panics -/

/-- Setting the main flag of a region changes none of its clashes. -/
theorem clashOn_setMain (r : SelRegion) (b : Bool) (l : List SelRegion) :
    ClashOn Touch Opposed ({ r with main := b } :: l) ↔ ClashOn Touch Opposed (r :: l) := by
  rw [clashOn_cons, clashOn_cons]
  exact or_congr (reaches_congr_start fun _ ↦ Iff.rfl) Iff.rfl

/-- Replacing two overlapping regions by their merge keeps the clashes of the list. -/
theorem clashOn_merge {last r m : SelRegion} {l : List SelRegion} (hm : IsMerge last r m)
    (ht : Touch last r) (hb : NotBehind last r) (hn : ¬ last.Opposed r) :
    ClashOn Touch Opposed (last :: r :: l) ↔ ClashOn Touch Opposed (m :: l) := by
  have hmax : m.max = r.max := hm.max_eq.trans (Nat.max_eq_right hb.2)
  have hstart : ∀ P, Reaches Touch P m l ↔ Reaches Touch P r l := fun P ↦
    reaches_congr_start fun c ↦ by rw [Touch, Touch, hmax]
  have hopp : m.Opposed = fun c ↦ last.Opposed c ∨ r.Opposed c := by
    funext c
    simp only [Opposed, hm.strictForward_iff, hm.strictBackward_iff, eq_iff_iff]
    tauto
  rw [clashOn_cons, clashOn_cons, clashOn_cons, reaches_cons, hopp, hstart, reaches_or]
  tauto

/-- A round that succeeds hands all clashes on to the next ones. -/
theorem clashOn_pushRegion {out out' rs : List SelRegion} {r : SelRegion}
    (hs : (out.head?.toList ++ r :: rs).Pairwise NotBehind) (hp : pushRegion out r = some out') :
    (ClashOn Touch Opposed (out.head?.toList ++ r :: rs) ↔
      ClashOn Touch Opposed (out'.head?.toList ++ rs)) ∧
    (out'.head?.toList ++ rs).Pairwise NotBehind := by
  cases out with
  | nil =>
    simp only [pushRegion, Option.some.injEq] at hp
    subst hp
    exact ⟨Iff.rfl, hs⟩
  | cons last rest =>
    simp only [List.head?_cons, Option.toList_some, List.singleton_append] at hs ⊢
    obtain ⟨hl, hr⟩ := List.pairwise_cons.mp hs
    obtain ⟨hr', hrs⟩ := List.pairwise_cons.mp hr
    rcases pushRegion_cases hp with ⟨h, _⟩ | ⟨l', rest', h, hb, rfl⟩
      | ⟨l', rest', m, h, ht, hm, rfl⟩
    · simp at h
    · obtain ⟨rfl, rfl⟩ := List.cons.inj h
      refine ⟨?_, hr⟩
      simp only [List.head?_cons, Option.toList_some, List.singleton_append]
      rw [clashOn_cons, reaches_cons, iff_false_intro (not_touch_iff_before.mpr hb), false_and,
        false_or]
    · obtain ⟨rfl, rfl⟩ := List.cons.inj h
      have hn : ¬ last.Opposed r := by
        intro ho
        have := (merge_eq_none_iff last r).mpr (.inl ho)
        simp [pushRegion, overlaps, show r.min ≤ last.max from ht, this] at hp
      refine ⟨clashOn_merge hm ht (hl r (by simp)) hn, List.pairwise_cons.mpr ⟨?_, hrs⟩⟩
      intro s (hs : s ∈ rs)
      have h1 := hl s (by simp [hs])
      have h2 := hr' s hs
      exact ⟨by rw [hm.min_eq]; exact Nat.le_trans (Nat.min_le_left _ _) h1.1,
        by rw [hm.max_eq]; exact Nat.max_le.mpr ⟨h1.2, h2.2⟩⟩

/-- A round panics on a clash with the last region only. -/
theorem clashOn_of_pushRegion_eq_none {out rs : List SelRegion} {r : SelRegion}
    (hs : (out.head?.toList ++ r :: rs).Pairwise NotBehind) (hp : pushRegion out r = none) :
    ClashOn Touch Opposed (out.head?.toList ++ r :: rs) := by
  cases out with
  | nil => simp [pushRegion] at hp
  | cons last rest =>
    simp only [List.head?_cons, Option.toList_some, List.singleton_append] at hs ⊢
    have hb : NotBehind last r := (List.pairwise_cons.mp hs).1 r (by simp)
    simp only [pushRegion, overlaps, decide_eq_true_eq] at hp
    split at hp
    · next ht =>
      rw [Option.map_eq_none_iff, merge_eq_none_iff] at hp
      -- cursors that touch and come in order are at one offset
      have ho : last.Opposed r := by
        rcases hp with ho | ⟨h1, h2, h3⟩
        · exact ho
        · unfold NotBehind SelRegion.min SelRegion.max at hb
          unfold SelRegion.min SelRegion.max at ht
          omega
      exact .inl ⟨ht, .inl ho⟩
    · simp at hp

/-- For regions that arrive in order the loop panics or hands all clashes on. -/
theorem clashOn_pushAll {out new rs : List SelRegion}
    (hs : (out.head?.toList ++ (new ++ rs)).Pairwise NotBehind) :
    match pushAll out new with
    | none => ClashOn Touch Opposed (out.head?.toList ++ (new ++ rs))
    | some out' =>
      (ClashOn Touch Opposed (out.head?.toList ++ (new ++ rs)) ↔
        ClashOn Touch Opposed (out'.head?.toList ++ rs)) ∧
      (out'.head?.toList ++ rs).Pairwise NotBehind := by
  induction new generalizing out with
  | nil => exact ⟨Iff.rfl, hs⟩
  | cons r new ih =>
    rw [pushAll_cons]
    cases hp : pushRegion out r with
    | none => exact clashOn_of_pushRegion_eq_none hs hp
    | some mid =>
      obtain ⟨hiff, hmid⟩ := clashOn_pushRegion hs hp
      have hi := ih hmid
      rw [Option.bind_some, List.cons_append]
      cases hq : pushAll mid new with
      | none =>
        rw [hq] at hi
        exact hiff.mpr hi
      | some out' =>
        rw [hq] at hi
        exact ⟨hiff.trans hi.1, hi.2⟩

end Tofu

import Mathlib.Data.List.Pairwise
import Tofu.Rope.Offsetwise

/-!
# Inserting an element and writing over it

Edits that put one element before each of some offsets, and edits that write over single
elements. Writing over what was just inserted is inserting the other element.
-/

namespace Tofu.Rope.Splice

variable {α : Type*}

/-- Put `x` before each of the offsets. -/
def insertions (x : α) (cs : List Nat) : List (Edit α) := cs.map fun c ↦ ⟨c, c, [x]⟩

/-- Write `x` over the element at each of the offsets. -/
def overwrites (x : α) (cs : List Nat) : List (Edit α) := cs.map fun c ↦ ⟨c, c + 1, [x]⟩

/-- Write an element of its own over the one at each of the offsets. -/
def overwritesWith (f : Nat → α) (cs : List Nat) : List (Edit α) :=
  cs.map fun c ↦ ⟨c, c + 1, [f c]⟩

/-- Where the elements put before the offsets come to lie. -/
def insertedAt (x : α) (n : Nat) (cs : List Nat) : List Nat :=
  cs.map fun c ↦ transform n 0 (insertions x cs) c - 1

/-- Where offsets go does not depend on what is inserted. -/
theorem transform_insertions (x y : α) (n pos : Nat) (cs : List Nat) (p : Nat) :
    transform n pos (insertions x cs) p = transform n pos (insertions y cs) p := by
  induction cs generalizing pos p with
  | nil => rfl
  | cons c cs ih =>
    have := ih c (max p c)
    simp only [insertions, List.map_cons, transform, List.length_singleton] at this ⊢
    rw [this]

/-- The first offset from `p` on that is none of the given ones, which are sorted. -/
def behind : List Nat → Nat → Nat
  | [], p => p
  | c :: cs, p => behind cs (if p = c then p + 1 else p)

section Behind

variable {cs : List Nat} {p q y : Nat}

/-- What is behind an offset is not before it. -/
theorem le_behind (cs : List Nat) (p : Nat) : p ≤ behind cs p := by
  induction cs generalizing p with
  | nil => exact Nat.le_refl p
  | cons c cs ih =>
    have hstep : p ≤ if p = c then p + 1 else p := by split <;> omega
    exact Nat.le_trans hstep (ih _)

/-- Everything passed over is one of the offsets. -/
theorem mem_of_lt_behind (hp : p ≤ y) (hy : y < behind cs p) : y ∈ cs := by
  induction cs generalizing p with
  | nil => exact absurd hp (Nat.not_le.mpr hy)
  | cons c cs ih =>
    rw [behind] at hy
    by_cases hyc : y = c
    · rw [hyc]
      exact List.mem_cons_self
    · refine List.mem_cons_of_mem c (ih ?_ hy)
      split <;> omega

/-- Nothing is passed over where none of the offsets is. -/
theorem behind_of_notMem (hp : p ∉ cs) : behind cs p = p := by
  have := le_behind cs p
  by_contra hne
  exact hp (mem_of_lt_behind (Nat.le_refl p) (by omega))

variable (hs : cs.Pairwise (· < ·))
include hs

/-- What is behind them is none of them. -/
theorem behind_notMem (p : Nat) : behind cs p ∉ cs := by
  induction cs generalizing p with
  | nil => exact List.not_mem_nil
  | cons c cs ih =>
    obtain ⟨hc, hs⟩ := List.pairwise_cons.mp hs
    rw [behind, List.mem_cons, not_or]
    refine ⟨?_, ih hs _⟩
    rcases Nat.lt_trichotomy p c with h | rfl | h
    · have hnot : p ∉ cs := fun hmem ↦ Nat.lt_asymm h (hc p hmem)
      rw [if_neg (Nat.ne_of_lt h), behind_of_notMem hnot]
      exact Nat.ne_of_lt h
    · have := le_behind cs (p + 1)
      rw [if_pos rfl]
      omega
    · have := le_behind cs p
      rw [if_neg (Nat.ne_of_gt h)]
      omega

/-- One of the offsets is passed over. -/
theorem lt_behind (hp : p ∈ cs) : p < behind cs p := by
  refine Nat.lt_of_le_of_ne (le_behind cs p) fun heq ↦ behind_notMem hs p ?_
  rwa [← heq]

/-- Passing over the offsets keeps the order. -/
theorem behind_mono (hpq : p ≤ q) : behind cs p ≤ behind cs q := by
  by_contra h
  have := le_behind cs q
  exact behind_notMem hs q (mem_of_lt_behind (Nat.le_trans hpq this) (Nat.not_le.mp h))

/-- The offsets that some run of the given ones ends with. -/
theorem exists_behind_sub_one_iff : (∃ c ∈ cs, behind cs c - 1 = p) ↔ p ∈ cs ∧ p + 1 ∉ cs := by
  constructor
  · rintro ⟨c, hc, rfl⟩
    have hlt := lt_behind hs hc
    have hnot := behind_notMem hs c
    rw [Nat.sub_add_cancel (by omega)]
    exact ⟨mem_of_lt_behind (p := c) (by omega) (by omega), hnot⟩
  · rintro ⟨hp, hnext⟩
    refine ⟨p, hp, ?_⟩
    have hlt := lt_behind hs hp
    by_contra hne
    exact hnext (mem_of_lt_behind (p := p) (Nat.le_succ p) (by omega))

end Behind

/-- An offset written over lands behind all elements written from it on; all others stay. -/
theorem transform_overwritesWith {f : Nat → α} {n pos p : Nat} {cs : List Nat}
    (hs : cs.Pairwise (· < ·)) (hpos : ∀ c ∈ cs, pos ≤ c) (hn : ∀ c ∈ cs, c ≤ n) (hp : pos ≤ p)
    (hpn : p ≤ n ∨ p = pos) :
    transform n pos (overwritesWith f cs) p = behind cs p - pos := by
  induction cs generalizing pos p with
  | nil =>
    simp only [overwritesWith, List.map_nil, transform, behind]
    omega
  | cons c cs ih =>
    obtain ⟨hc, hs⟩ := List.pairwise_cons.mp hs
    obtain ⟨hposc, -⟩ := List.forall_mem_cons.mp hpos
    obtain ⟨hcn, hn⟩ := List.forall_mem_cons.mp hn
    have hrest : ∀ q, c + 1 ≤ q → (q ≤ n ∨ q = c + 1) →
        transform n (c + 1) (overwritesWith f cs) q = behind cs q - (c + 1) :=
      fun q hq hqn ↦ ih hs hc hn hq hqn
    rw [overwritesWith, List.map_cons, transform, behind, ← overwritesWith]
    simp only [List.length_singleton]
    rcases Nat.lt_trichotomy p c with h | rfl | h
    · have hnot : p ∉ cs := fun hmem ↦ Nat.lt_asymm h (hc p hmem)
      rw [if_pos h, if_neg (Nat.ne_of_lt h), behind_of_notMem hnot]
    · have := le_behind cs (p + 1)
      rw [if_neg (Nat.lt_irrefl p), if_pos rfl, Nat.max_eq_right (Nat.le_succ p),
        hrest _ (Nat.le_refl _) (.inr rfl)]
      omega
    · have := le_behind cs p
      rw [if_neg (Nat.lt_asymm h), if_neg (Nat.ne_of_gt h), Nat.max_eq_left h,
        hrest p h (.inl (by omega))]
      omega

private theorem transform_overwrites_eq {x : α} {n pos p : Nat} {cs : List Nat}
    (hs : cs.Pairwise (· < ·)) (hpos : ∀ c ∈ cs, pos ≤ c) (hn : ∀ c ∈ cs, c ≤ n) (hp : pos ≤ p)
    (hpn : p ≤ n ∨ p = pos) :
    transform n pos (overwrites x cs) p = behind cs p - pos :=
  transform_overwritesWith (f := fun _ ↦ x) hs hpos hn hp hpn

/-- Where the next element is kept the offset lands behind its own. -/
theorem transform_overwrites {x : α} {n p : Nat} {cs : List Nat}
    (hgap : cs.Pairwise fun a b ↦ a + 1 < b) (hn : ∀ c ∈ cs, c < n) (hpn : p ≤ n) :
    transform n 0 (overwrites x cs) p = if p ∈ cs then p + 1 else p := by
  have hs : cs.Pairwise (· < ·) := hgap.imp Nat.lt_of_succ_lt
  rw [transform_overwrites_eq hs (fun _ _ ↦ Nat.zero_le _) (fun c hc ↦ Nat.le_of_lt (hn c hc))
    (Nat.zero_le _) (.inl hpn), Nat.sub_zero]
  split
  · next hmem =>
    have hlt := lt_behind hs hmem
    by_contra hne
    have hnext : p + 1 ∈ cs := mem_of_lt_behind (Nat.le_succ p) (by omega)
    have hapart : cs.Pairwise fun a b ↦ a + 1 ≠ b ∧ b + 1 ≠ a :=
      hgap.imp fun hab ↦ by omega
    have hsymm : Std.Symm fun a b : Nat ↦ a + 1 ≠ b ∧ b + 1 ≠ a := ⟨fun _ _ h ↦ ⟨h.2, h.1⟩⟩
    exact (hapart.forall_of_forall (fun _ _ ↦ by omega) hmem hnext).1 rfl
  · next hmem => exact behind_of_notMem hmem

/-- What is found at each offset after writing over elements; an offset just behind the last one
is appended. -/
theorem getElem?_apply_overwritesWith {f : Nat → α} {pos : Nat} {cs : List Nat} {xs : List α}
    (hs : cs.Pairwise (· < ·)) (hpos : ∀ c ∈ cs, pos ≤ c) (hn : ∀ c ∈ cs, c ≤ xs.length) (i : Nat) :
    (apply pos (overwritesWith f cs) xs)[i]? =
      if pos + i ∈ cs then some (f (pos + i)) else xs[pos + i]? := by
  induction cs generalizing pos i with
  | nil =>
    rw [overwritesWith, List.map_nil, apply, List.getElem?_drop, if_neg List.not_mem_nil]
  | cons c cs ih =>
    obtain ⟨hc, hs⟩ := List.pairwise_cons.mp hs
    obtain ⟨hposc, -⟩ := List.forall_mem_cons.mp hpos
    obtain ⟨hcn, hn⟩ := List.forall_mem_cons.mp hn
    have hlen : ((xs.drop pos).take (c - pos)).length = c - pos := by
      rw [List.length_take, List.length_drop]
      omega
    rw [overwritesWith, List.map_cons, apply, ← overwritesWith, List.append_assoc]
    simp only
    rcases Nat.lt_trichotomy i (c - pos) with h | rfl | h
    · have hnot : pos + i ∉ c :: cs := by
        intro hmem
        rcases List.mem_cons.mp hmem with heq | hmem
        · omega
        · have := hc _ hmem
          omega
      rw [List.getElem?_append_left (by omega), List.getElem?_take_of_lt h, List.getElem?_drop,
        if_neg hnot]
    · rw [List.getElem?_append_right (by omega), hlen, Nat.sub_self, Nat.add_sub_cancel' hposc,
        if_pos List.mem_cons_self]
      rfl
    · have hshift : c + 1 + (i - (c - pos) - 1) = pos + i := by omega
      rw [List.getElem?_append_right (by omega), hlen, List.getElem?_append_right (by simp; omega),
        List.length_singleton, ih hs hc hn, hshift]
      simp only [List.mem_cons, show pos + i ≠ c by omega, false_or]

private theorem getElem?_apply_overwrites {x : α} {pos : Nat} {cs : List Nat} {xs : List α}
    (hs : cs.Pairwise (· < ·)) (hpos : ∀ c ∈ cs, pos ≤ c) (hn : ∀ c ∈ cs, c ≤ xs.length) (i : Nat) :
    (apply pos (overwrites x cs) xs)[i]? = if pos + i ∈ cs then some x else xs[pos + i]? :=
  getElem?_apply_overwritesWith (f := fun _ ↦ x) hs hpos hn i

/-- Writing over elements, said element by element. -/
theorem apply_overwrites {x : α} {cs : List Nat} {xs : List α} (hs : cs.Pairwise (· < ·))
    (hn : ∀ c ∈ cs, c < xs.length) :
    apply 0 (overwrites x cs) xs = xs.mapIdx fun i y ↦ if i ∈ cs then x else y := by
  apply List.ext_getElem?
  intro i
  rw [getElem?_apply_overwrites hs (fun _ _ ↦ Nat.zero_le _) fun c hc ↦ Nat.le_of_lt (hn c hc),
    List.getElem?_mapIdx, Nat.zero_add]
  split
  · next hmem =>
    rw [List.getElem?_eq_getElem (hn i hmem), Option.map_some]
  · rw [Option.map_id']

private theorem transform_insertions_cons {x : α} {n pos c p : Nat} {cs : List Nat}
    (hp : c ≤ p) : transform n pos (insertions x (c :: cs)) p =
      (c - pos) + 1 + transform n c (insertions x cs) p := by
  rw [insertions, List.map_cons, transform, if_neg (Nat.not_lt.mpr hp), Nat.max_eq_left hp]
  rfl

private theorem transform_insertions_self {x : α} {n c : Nat} {cs : List Nat} (hcn : c ≤ n)
    (hc : ∀ d ∈ cs, c < d) : transform n c (insertions x cs) c = 0 := by
  cases cs with
  | nil => simp only [insertions, List.map_nil, transform]; omega
  | cons d cs =>
    rw [insertions, List.map_cons, transform, if_pos (hc d List.mem_cons_self), Nat.sub_self]

/-- Inserting one element differs from inserting the other where they come to lie. -/
theorem apply_insertions {x y : α} {pos : Nat} {cs : List Nat} {xs : List α}
    (hs : cs.Pairwise (· < ·)) (hpos : ∀ c ∈ cs, pos ≤ c) (hn : ∀ c ∈ cs, c ≤ xs.length) :
    apply pos (insertions y cs) xs = (apply pos (insertions x cs) xs).mapIdx fun i z ↦
      if i + 1 ∈ cs.map (transform xs.length pos (insertions x cs)) then y else z := by
  induction cs generalizing pos with
  | nil =>
    refine (List.mapIdx_eq_iff.mpr fun i ↦ ?_).symm
    simp only [List.map_nil, List.not_mem_nil, if_false, Option.map_id']
    rfl
  | cons c cs ih =>
    obtain ⟨hc, hs⟩ := List.pairwise_cons.mp hs
    obtain ⟨hposc, -⟩ := List.forall_mem_cons.mp hpos
    obtain ⟨hcn, hn⟩ := List.forall_mem_cons.mp hn
    have hrest := ih hs (fun d hd ↦ Nat.le_of_lt (hc d hd)) hn
    have hself : transform xs.length pos (insertions x (c :: cs)) c = c - pos + 1 := by
      rw [transform_insertions_cons (Nat.le_refl c), transform_insertions_self hcn hc]
    have hmap : cs.map (transform xs.length pos (insertions x (c :: cs))) =
        cs.map fun d ↦ (c - pos) + 1 + transform xs.length c (insertions x cs) d :=
      List.map_congr_left fun d hd ↦ transform_insertions_cons (Nat.le_of_lt (hc d hd))
    have hcons : ∀ z : α, apply pos (insertions z (c :: cs)) xs =
        (xs.drop pos).take (c - pos) ++ [z] ++ apply c (insertions z cs) xs := fun _ ↦ rfl
    have hlen : ((xs.drop pos).take (c - pos)).length = c - pos := by
      rw [List.length_take, List.length_drop]
      omega
    rw [hcons, hcons, hrest, List.map_cons, hself, hmap, List.mapIdx_append, List.mapIdx_append,
      List.length_append, hlen]
    congr 2
    · -- what lies before the first insertion
      refine (List.mapIdx_eq_iff.mpr fun i ↦ ?_).symm
      by_cases hi : i < c - pos
      · have hnot : i + 1 ∉ (c - pos + 1) ::
            cs.map fun d ↦ c - pos + 1 + transform xs.length c (insertions x cs) d := by
          simp only [List.mem_cons, List.mem_map, not_or, not_exists, not_and]
          exact ⟨by omega, fun d _ ↦ by omega⟩
        simp only [if_neg hnot, Option.map_id']
      · rw [List.getElem?_eq_none (by omega)]
        rfl
    · simp
    · -- the offsets behind the first insertion, counted from there
      have hiff : ∀ i, i + (c - pos + 1) + 1 ∈ (c - pos + 1) ::
          cs.map (fun d ↦ c - pos + 1 + transform xs.length c (insertions x cs) d) ↔
          i + 1 ∈ cs.map (transform xs.length c (insertions x cs)) := by
        intro i
        rw [List.mem_cons, or_iff_right (by omega), List.mem_map, List.mem_map]
        exact exists_congr fun d ↦ and_congr_right fun _ ↦ by omega
      simp only [List.length_singleton, hiff]

/-- Insertions up to the end of the base are within it. -/
theorem within_insertions {x : α} {n : Nat} {cs : List Nat} (hn : ∀ c ∈ cs, c ≤ n) :
    Within n (insertions x cs) := List.forall_mem_map.mpr hn

private theorem textAt_insertions {x : α} {cs : List Nat} (hs : cs.Pairwise (· < ·)) (i : Nat) :
    textAt (insertions x cs) i = if i ∈ cs then [x] else [] := by
  induction cs with
  | nil => rfl
  | cons c cs ih =>
    obtain ⟨hc, hs⟩ := List.pairwise_cons.mp hs
    rw [insertions, List.map_cons, textAt_cons, ← insertions, ih hs]
    by_cases h : c = i
    · have hnot : i ∉ cs := fun hmem ↦ Nat.ne_of_lt (hc i hmem) h
      rw [if_pos h, if_neg hnot, if_pos (List.mem_cons.mpr (.inl h.symm)), List.append_nil]
    · simp only [if_neg h, List.nil_append, List.mem_cons, Ne.symm h, false_or]

section Written

variable {x : α} {n : Nat} {cs : List Nat} (hs : cs.Pairwise (· < ·))
include hs

/-- Insertions at sorted offsets are sorted. -/
theorem sorted_insertions : Sorted 0 (insertions x cs) := by
  refine sorted_of_pairwise (fun _ _ ↦ Nat.zero_le _) ?_
    (List.pairwise_map.mpr (hs.imp fun h ↦ Nat.le_of_lt h))
  intro e he
  obtain ⟨c, -, rfl⟩ := List.mem_map.mp he
  exact Nat.le_refl c

/-- Something is put before every one of the offsets. -/
theorem one_le_transform_insertions {c : Nat} (hc : c ∈ cs) :
    1 ≤ transform n 0 (insertions x cs) c :=
  text_le_transform n _ 0 (sorted_insertions hs) ⟨c, c, [x]⟩ (List.mem_map_of_mem hc)

omit hs in
private theorem not_removes_insertions (p : Nat) : ¬ Removes (insertions x cs) p := by
  rintro ⟨e, he, h1, h2⟩
  obtain ⟨d, -, rfl⟩ := List.mem_map.mp he
  exact Nat.not_lt.mpr h1 h2

/-- Insertions keep offsets apart. -/
theorem transform_insertions_lt {p q : Nat} (hpq : p < q) (hq : q ≤ n) :
    transform n 0 (insertions x cs) p < transform n 0 (insertions x cs) q :=
  transform_lt_of_kept n _ 0 p q (sorted_insertions hs) (Nat.zero_le _) (Nat.lt_of_lt_of_le hpq hq)
    (not_removes_insertions p) hpq

/-- Between an offset and an element inserted behind it the offset's own element is left. -/
theorem transform_insertions_add_two_le {p c : Nat} (hc : c ∈ cs) (hp : p < c) :
    transform n 0 (insertions x cs) p + 2 ≤ transform n 0 (insertions x cs) c :=
  transform_add_text_le n _ 0 p (sorted_insertions hs) (Nat.zero_le _)
    (not_removes_insertions p) ⟨c, c, [x]⟩ (List.mem_map_of_mem hc) hp

/-- What was put in lies before the end. -/
theorem insertedAt_lt (hn : ∀ c ∈ cs, c ≤ n) :
    ∀ p ∈ insertedAt x n cs, p < transform n 0 (insertions x cs) n := by
  refine List.forall_mem_map.mpr fun c hc ↦ ?_
  have h1 := one_le_transform_insertions (x := x) (n := n) hs hc
  have h2 := transform_mono n _ 0 c n (sorted_insertions (x := x) hs) (Nat.zero_le _) (hn c hc)
  omega

/-- No two inserted elements lie next to each other. -/
theorem pairwise_insertedAt : (insertedAt x n cs).Pairwise fun a b ↦ a + 1 < b := by
  refine List.pairwise_map.mpr (hs.imp_of_mem fun {a b} ha hb hab ↦ ?_)
  have h1 := one_le_transform_insertions (x := x) (n := n) hs ha
  have h2 := transform_insertions_add_two_le (x := x) (n := n) hs hb hab
  omega

end Written

/-- Inserting an element before each of some offsets, said offset by offset. -/
theorem apply_insertions_eq_offsetwise {x : α} {cs : List Nat} {xs : List α}
    (hs : cs.Pairwise (· < ·)) (hn : ∀ c ∈ cs, c ≤ xs.length) :
    apply 0 (insertions x cs) xs =
      offsetwise (fun i y ↦ (if i ∈ cs then [x] else []) ++ y.toList) xs := by
  rw [apply_inserts (sorted_insertions hs) (Nat.zero_le _) (within_insertions hn)
    (List.forall_mem_map.mpr fun _ _ ↦ rfl), offsetwise_eq_segment]
  exact segment_congr fun i _ _ ↦ by rw [textAt_insertions hs]

/-- The base gets longer by one element for each offset. -/
theorem length_apply_insertions {x : α} {pos : Nat} {cs : List Nat} {xs : List α}
    (hs : cs.Pairwise (· < ·)) (hpos : ∀ c ∈ cs, pos ≤ c) (hn : ∀ c ∈ cs, c ≤ xs.length) :
    (apply pos (insertions x cs) xs).length = xs.length - pos + cs.length := by
  induction cs generalizing pos with
  | nil => exact List.length_drop
  | cons c cs ih =>
    obtain ⟨hc, hs⟩ := List.pairwise_cons.mp hs
    obtain ⟨hposc, -⟩ := List.forall_mem_cons.mp hpos
    obtain ⟨hcn, hn⟩ := List.forall_mem_cons.mp hn
    have hrest := ih hs (fun d hd ↦ Nat.le_of_lt (hc d hd)) hn
    rw [insertions, List.map_cons, apply, ← insertions, List.length_append, List.length_append,
      hrest, List.length_take, List.length_drop, List.length_singleton, List.length_cons]
    simp only
    omega

/-- Inserting an element before each of some offsets and writing another one over it is
inserting the other one. -/
theorem apply_overwrites_insertions {x y : α} {cs : List Nat} {xs : List α}
    (hs : cs.Pairwise (· < ·)) (hn : ∀ c ∈ cs, c ≤ xs.length) :
    apply 0 (overwrites y (insertedAt x xs.length cs)) (apply 0 (insertions x cs) xs) =
      apply 0 (insertions y cs) xs := by
  rw [apply_insertions (x := x) (y := y) hs (fun _ _ ↦ Nat.zero_le _) hn, apply_overwrites]
  · have hiff : ∀ i, i ∈ insertedAt x xs.length cs ↔
        i + 1 ∈ cs.map (transform xs.length 0 (insertions x cs)) := by
      intro i
      rw [insertedAt, List.mem_map, List.mem_map]
      refine exists_congr fun c ↦ and_congr_right fun hc ↦ ?_
      have := one_le_transform_insertions (x := x) (n := xs.length) hs hc
      omega
    simp only [hiff]
  · exact (pairwise_insertedAt hs).imp fun h ↦ Nat.lt_of_succ_lt h
  · rw [length_apply _ _ _ (within_insertions hn)]
    exact insertedAt_lt hs hn

end Tofu.Rope.Splice

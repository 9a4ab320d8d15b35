import Mathlib.Algebra.Ring.Nat
import Mathlib.Data.List.Basic

/-!
# Sorted edits of a sequence

An edit replaces a half-open interval of a base sequence by new text; an empty
interval inserts, an empty text deletes. A sorted list of edits describes a whole new
sequence. `transform` maps a base offset to the new offset of the first base element
at or after it that the edits keep, so an offset at an insertion lands behind the
inserted text and an offset inside a deletion lands behind the deleted stretch.
-/

namespace Tofu.Rope

variable {α : Type*}

/-- Replace the base interval `start..stop` by `text`. -/
structure Edit (α : Type*) where
  start : Nat
  stop : Nat
  text : List α
  deriving DecidableEq, Repr

namespace Splice

/-- The base elements from `pos` on, rewritten by the edits. -/
def apply : Nat → List (Edit α) → List α → List α
  | pos, [], xs => xs.drop pos
  | pos, e :: es, xs =>
    (xs.drop pos).take (e.start - pos) ++ e.text ++ apply e.stop es xs

/-- New offset, counted from base position `pos`, of the first kept element at or
after `ix` in a base of length `n`. -/
def transform (n : Nat) : Nat → List (Edit α) → Nat → Nat
  | pos, [], ix => min ix n - pos
  | pos, e :: es, ix =>
    if ix < e.start then ix - pos
    else (e.start - pos) + e.text.length + transform n e.stop es (max ix e.stop)

/-- The point up to which the base has been consumed by a list of edits. -/
def lastOffset : Nat → List (Edit α) → Nat
  | pos, [] => pos
  | _, e :: es => lastOffset e.stop es

/-- Every edit starts at or after the end of the one before it. -/
def Sorted : Nat → List (Edit α) → Prop
  | _, [] => True
  | pos, e :: es => pos ≤ e.start ∧ e.start ≤ e.stop ∧ Sorted e.stop es

/-- Every edit starts inside a base of length `n` or at its end. -/
def Within (n : Nat) (es : List (Edit α)) : Prop := ∀ e ∈ es, e.start ≤ n

/-- Some edit removes the base element at `p`. -/
def Removes (es : List (Edit α)) (p : Nat) : Prop := ∃ e ∈ es, e.start ≤ p ∧ p < e.stop

/-- The offset reached by an appended edit is its own end. -/
@[simp] theorem lastOffset_concat (pos : Nat) (es : List (Edit α)) (e : Edit α) :
    lastOffset pos (es ++ [e]) = e.stop := by
  induction es generalizing pos with
  | nil => rfl
  | cons a es ih => exact ih a.stop

/-- Appending an edit behind the last offset keeps a list of edits sorted. -/
theorem Sorted.concat {pos : Nat} {es : List (Edit α)} {e : Edit α} (h : Sorted pos es)
    (hl : lastOffset pos es ≤ e.start) (he : e.start ≤ e.stop) : Sorted pos (es ++ [e]) := by
  induction es generalizing pos with
  | nil => exact ⟨hl, he, True.intro⟩
  | cons a es ih => exact ⟨h.1, h.2.1, ih h.2.2 hl⟩

/-- Later edits of a sorted list start at or after every position before them. -/
theorem Sorted.le_start {pos : Nat} {es : List (Edit α)} (h : Sorted pos es) {e : Edit α}
    (he : e ∈ es) : pos ≤ e.start := by
  induction es generalizing pos with
  | nil => simp at he
  | cons a es ih =>
    rcases List.mem_cons.mp he with rfl | he
    · exact h.1
    · exact Nat.le_trans h.1 (Nat.le_trans h.2.1 (ih h.2.2 he))

/-- Edits that end before the next ones start are sorted. -/
theorem sorted_of_pairwise {pos : Nat} {es : List (Edit α)} (hp : ∀ e ∈ es, pos ≤ e.start)
    (he : ∀ e ∈ es, e.start ≤ e.stop) (hs : es.Pairwise fun a b ↦ a.stop ≤ b.start) :
    Sorted pos es := by
  induction es generalizing pos with
  | nil => trivial
  | cons a es ih =>
    obtain ⟨ha, hs⟩ := List.pairwise_cons.mp hs
    exact ⟨hp a (by simp), he a (by simp), ih ha (fun e h ↦ he e (by simp [h])) hs⟩

/-- The new sequence has the length to which the end of the base is mapped. -/
theorem length_apply (es : List (Edit α)) (pos : Nat) (xs : List α)
    (hw : Within xs.length es) :
    (apply pos es xs).length = transform xs.length pos es xs.length := by
  have all : ∀ (es : List (Edit α)) (pos q : Nat), xs.length ≤ q → Within xs.length es →
      (apply pos es xs).length = transform xs.length pos es q := by
    intro es
    induction es with
    | nil =>
      intro pos q hq _
      simp only [apply, transform, List.length_drop, Nat.min_eq_right hq]
    | cons e es ih =>
      intro pos q hq hw
      have he : e.start ≤ xs.length := hw e (by simp)
      have hs := ih e.stop (max q e.stop) (by omega) (fun a ha ↦ hw a (by simp [ha]))
      simp only [apply, transform, List.length_append, List.length_take, List.length_drop, hs,
        if_neg (show ¬ q < e.start by omega)]
      omega
  exact all es pos xs.length (Nat.le_refl _) hw

/-- Offsets keep their order. -/
theorem transform_mono (n : Nat) (es : List (Edit α)) (pos p q : Nat) (hs : Sorted pos es)
    (hp : pos ≤ p) (hpq : p ≤ q) : transform n pos es p ≤ transform n pos es q := by
  induction es generalizing pos p q with
  | nil => simp only [transform]; omega
  | cons e es ih =>
    have hi := ih e.stop (max p e.stop) (max q e.stop) hs.2.2 (by omega) (by omega)
    simp only [transform]
    split <;> split <;> omega

/-- No offset is mapped behind the end of the new sequence. -/
theorem transform_le (n : Nat) (es : List (Edit α)) (pos p q : Nat) (hs : Sorted pos es)
    (hw : Within n es) (hp : pos ≤ p) (hq : n ≤ q) :
    transform n pos es p ≤ transform n pos es q := by
  induction es generalizing pos p q with
  | nil => simp only [transform]; omega
  | cons e es ih =>
    have he : e.start ≤ n := hw e (by simp)
    have hi := ih e.stop (max p e.stop) (max q e.stop) hs.2.2
      (fun a ha ↦ hw a (by simp [ha])) (by omega) (by omega)
    simp only [transform, if_neg (show ¬ q < e.start by omega)]
    split <;> omega

/-- Edits move an offset no further than their texts are long. -/
theorem transform_le_add (n : Nat) (es : List (Edit α)) (pos p : Nat) (hs : Sorted pos es)
    (hw : Within n es) :
    transform n pos es p ≤ (n - pos) + (es.map fun e ↦ e.text.length).sum := by
  induction es generalizing pos p with
  | nil => simp only [transform, List.map_nil, List.sum_nil]; omega
  | cons e es ih =>
    have he : e.start ≤ n := hw e (by simp)
    have hi := ih e.stop (max p e.stop) hs.2.2 (fun a ha ↦ hw a (by simp [ha]))
    have h1 := hs.1
    have h2 := hs.2.1
    simp only [transform, List.map_cons, List.sum_cons]
    split <;> omega

/-- A removed offset and its successor land at the same place. -/
theorem transform_succ_of_removes (n : Nat) (es : List (Edit α)) (pos p : Nat)
    (hs : Sorted pos es) (hr : Removes es p) :
    transform n pos es (p + 1) = transform n pos es p := by
  induction es generalizing pos with
  | nil => obtain ⟨e, he, _⟩ := hr; simp at he
  | cons a es ih =>
    obtain ⟨e, he, h1, h2⟩ := hr
    rcases List.mem_cons.mp he with rfl | he
    · simp only [transform, if_neg (show ¬ p + 1 < e.start by omega),
        if_neg (show ¬ p < e.start by omega),
        Nat.max_eq_right (show p + 1 ≤ e.stop by omega), Nat.max_eq_right (Nat.le_of_lt h2)]
    · have hstart : a.stop ≤ e.start := hs.2.2.le_start he
      have ha : a.start ≤ a.stop := hs.2.1
      have hi := ih a.stop hs.2.2 ⟨e, he, h1, h2⟩
      simp only [transform, if_neg (show ¬ p + 1 < a.start by omega),
        if_neg (show ¬ p < a.start by omega),
        Nat.max_eq_left (show a.stop ≤ p + 1 by omega),
        Nat.max_eq_left (show a.stop ≤ p by omega), hi]

/-- Offsets on both sides of a kept element stay apart. -/
theorem transform_lt_of_kept (n : Nat) (es : List (Edit α)) (pos p q : Nat)
    (hs : Sorted pos es) (hp : pos ≤ p) (hn : p < n) (hk : ¬ Removes es p) (hpq : p < q) :
    transform n pos es p < transform n pos es q := by
  have hstep : transform n pos es p < transform n pos es (p + 1) := by
    clear hpq
    induction es generalizing pos with
    | nil => simp only [transform]; omega
    | cons e es ih =>
      simp only [transform]
      by_cases h : p < e.start
      · rw [if_pos h]
        split <;> omega
      · have hstop : e.stop ≤ p := by
          by_contra hc
          exact hk ⟨e, by simp, by omega, by omega⟩
        have hi := ih e.stop hs.2.2 hstop
          (fun ⟨a, ha, hr⟩ ↦ hk ⟨a, by simp [ha], hr⟩)
        rw [if_neg h, if_neg (by omega), Nat.max_eq_left hstop,
          Nat.max_eq_left (show e.stop ≤ p + 1 by omega)]
        omega
  exact Nat.lt_of_lt_of_le hstep (transform_mono n es pos (p + 1) q hs (by omega) hpq)

/-- Two offsets land at the same place exactly when everything between them is removed. -/
theorem transform_eq_iff (n : Nat) (es : List (Edit α)) (pos p q : Nat) (hs : Sorted pos es)
    (hp : pos ≤ p) (hpq : p ≤ q) (hq : q ≤ n) :
    transform n pos es p = transform n pos es q ↔ ∀ x, p ≤ x → x < q → Removes es x := by
  constructor
  · intro h x hx hxq
    by_contra hk
    have h1 := transform_mono n es pos p x hs hp hx
    have h2 := transform_lt_of_kept n es pos x q hs (by omega) (by omega) hk hxq
    omega
  · intro h
    obtain ⟨k, rfl⟩ := Nat.exists_eq_add_of_le hpq
    clear hpq hq
    induction k with
    | zero => rfl
    | succ k ih =>
      rw [← Nat.add_assoc, transform_succ_of_removes n es pos (p + k) hs
        (h (p + k) (by omega) (by omega))]
      exact ih fun x hx hxk ↦ h x hx (by omega)

/-- An offset at the start of an edit lands behind its text. -/
theorem text_le_transform (n : Nat) (es : List (Edit α)) (pos : Nat) (hs : Sorted pos es)
    (e : Edit α) (he : e ∈ es) : e.text.length ≤ transform n pos es e.start := by
  induction es generalizing pos with
  | nil => simp at he
  | cons a es ih =>
    rcases List.mem_cons.mp he with rfl | he
    · simp only [transform, Nat.lt_irrefl, if_false]
      omega
    · have hstart : a.stop ≤ e.start := hs.2.2.le_start he
      have ha : a.start ≤ a.stop := hs.2.1
      have hi := ih a.stop hs.2.2 he
      simp only [transform, if_neg (show ¬ e.start < a.start by omega),
        Nat.max_eq_left hstart]
      omega

/-- Between a kept element and a later edit lies the element and the edit's text. -/
theorem transform_add_text_le (n : Nat) (es : List (Edit α)) (pos p : Nat)
    (hs : Sorted pos es) (hp : pos ≤ p) (hk : ¬ Removes es p) (e : Edit α)
    (he : e ∈ es) (hpe : p < e.start) :
    transform n pos es p + 1 + e.text.length ≤ transform n pos es e.start := by
  induction es generalizing pos with
  | nil => simp at he
  | cons a es ih =>
    rcases List.mem_cons.mp he with rfl | he
    · simp only [transform, if_pos hpe, Nat.lt_irrefl, if_false]
      omega
    · have hstart : a.stop ≤ e.start := hs.2.2.le_start he
      have ha : a.start ≤ a.stop := hs.2.1
      have htext := text_le_transform n es a.stop hs.2.2 e he
      simp only [transform, if_neg (show ¬ e.start < a.start by omega),
        Nat.max_eq_left hstart]
      by_cases h : p < a.start
      · rw [if_pos h]
        omega
      · have hstop : a.stop ≤ p := by
          by_contra hc
          exact hk ⟨a, by simp, by omega, by omega⟩
        have hi := ih a.stop hs.2.2 hstop
          (fun ⟨b, hb, hr⟩ ↦ hk ⟨b, by simp [hb], hr⟩) he
        rw [if_neg h, Nat.max_eq_left hstop]
        omega

/-! ## Putting removed text back -/

/-- What an edit takes out of a sequence. -/
def removed (xs : List α) (e : Edit α) : List α := (xs.drop e.start).take (e.stop - e.start)

/-- The edits that put what was taken out back at the places it was taken from. -/
def reinsertions (xs : List α) (es : List (Edit α)) : List (Edit α) :=
  es.map fun e ↦
    ⟨transform xs.length 0 es e.start, transform xs.length 0 es e.start, removed xs e⟩

/-- Removing alone does not move the position it starts from. -/
theorem transform_start_of_removals (n : Nat) (es : List (Edit α)) (pos : Nat)
    (hs : Sorted pos es) (ht : ∀ e ∈ es, e.text = []) : transform n pos es pos = 0 := by
  induction es generalizing pos with
  | nil => simp only [transform]; omega
  | cons e es ih =>
    have hrest := ih e.stop hs.2.2 fun f hf ↦ ht f (by simp [hf])
    have hstart : pos ≤ e.start := hs.1
    have hstop : e.start ≤ e.stop := hs.2.1
    rw [transform]
    split
    · omega
    · rw [Nat.max_eq_right (by omega), hrest, ht e (by simp), List.length_nil]
      omega

/-- Behind a prefix `pre` that is kept, the removals and their reinsertions cancel out. -/
theorem apply_reinsertions_from (xs : List α) (es : List (Edit α)) (pos : Nat)
    (pre : List α) (hs : Sorted pos es) (hw : Within xs.length es) (ht : ∀ e ∈ es, e.text = []) :
    apply pre.length
        (es.map fun e ↦ ⟨pre.length + transform xs.length pos es e.start,
          pre.length + transform xs.length pos es e.start, removed xs e⟩)
        (pre ++ apply pos es xs) = xs.drop pos := by
  induction es generalizing pos pre with
  | nil => simp [apply]
  | cons e es ih =>
    have hstart : pos ≤ e.start := hs.1
    have hstop : e.start ≤ e.stop := hs.2.1
    have hle : e.start ≤ xs.length := hw e (by simp)
    have ht' : ∀ f ∈ es, f.text = [] := fun f hf ↦ ht f (by simp [hf])
    generalize hkept : (xs.drop pos).take (e.start - pos) = kept
    have hlen : kept.length = e.start - pos := by
      rw [← hkept, List.length_take, List.length_drop]
      omega
    have happly : apply pos (e :: es) xs = kept ++ apply e.stop es xs := by
      rw [apply, hkept, ht e (by simp), List.append_nil]
    have hhead : transform xs.length pos (e :: es) e.start = kept.length := by
      rw [transform, if_neg (Nat.lt_irrefl _), Nat.max_eq_right hstop,
        transform_start_of_removals _ _ _ hs.2.2 ht', ht e (by simp), List.length_nil]
      omega
    have htail : ∀ f ∈ es, transform xs.length pos (e :: es) f.start =
        kept.length + transform xs.length e.stop es f.start := by
      intro f hf
      have hf' : e.stop ≤ f.start := hs.2.2.le_start hf
      rw [transform, if_neg (by omega), Nat.max_eq_left hf', ht e (by simp), List.length_nil]
      omega
    have hrest := ih e.stop (pre ++ kept) hs.2.2 (fun f hf ↦ hw f (by simp [hf])) ht'
    have hedits : (es.map fun f ↦ (⟨pre.length + transform xs.length pos (e :: es) f.start,
          pre.length + transform xs.length pos (e :: es) f.start, removed xs f⟩ : Edit α)) =
        es.map fun f ↦ ⟨(pre ++ kept).length + transform xs.length e.stop es f.start,
          (pre ++ kept).length + transform xs.length e.stop es f.start, removed xs f⟩ := by
      refine List.map_congr_left fun f hf ↦ ?_
      rw [htail f hf, List.length_append, Nat.add_assoc]
    have htake : ((pre ++ kept ++ apply e.stop es xs).drop pre.length).take
        ((pre ++ kept).length - pre.length) = kept := by
      rw [List.append_assoc, List.drop_left, List.length_append, Nat.add_sub_cancel_left,
        List.take_left]
    have hjoin : removed xs e ++ xs.drop e.stop = xs.drop e.start := by
      rw [removed, show e.stop = e.start + (e.stop - e.start) by omega, ← List.drop_drop,
        Nat.add_sub_cancel_left, List.take_append_drop]
    have hdrop : xs.drop e.start = (xs.drop pos).drop (e.start - pos) := by
      rw [List.drop_drop, Nat.add_sub_cancel' hstart]
    rw [List.map_cons, hedits, hhead, happly, apply, ← List.append_assoc, ← List.length_append,
      hrest, List.append_assoc]
    dsimp only
    rw [htake, hjoin, hdrop, ← hkept, List.take_append_drop]

/-- Taking text out and putting it back gives the sequence it was taken from. -/
theorem apply_reinsertions (xs : List α) (es : List (Edit α)) (hs : Sorted 0 es)
    (hw : Within xs.length es) (ht : ∀ e ∈ es, e.text = []) :
    apply 0 (reinsertions xs es) (apply 0 es xs) = xs := by
  have h := apply_reinsertions_from xs es 0 [] hs hw ht
  simpa [reinsertions] using h

end Splice

end Tofu.Rope

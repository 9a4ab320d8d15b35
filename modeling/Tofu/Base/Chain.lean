import Mathlib.Data.List.Chain
import Mathlib.Data.List.Pairwise

/-!
# Clashes along chains

In a list whose neighbours may be linked, two elements clash when they are incompatible
and every neighbour between them is linked to the next.
-/

namespace Tofu

variable {α β : Type*} {R R' : α → α → Prop} {Q Q' : α → α → Prop}

/-- Along linked neighbours from `a` on, some element of the list satisfies `P`. -/
def Reaches (R : α → α → Prop) (P : α → Prop) : α → List α → Prop
  | _, [] => False
  | a, b :: l => R a b ∧ (P b ∨ Reaches R P b l)

/-- Some element reaches a later one that it is incompatible with. -/
def ClashOn (R Q : α → α → Prop) : List α → Prop
  | [] => False
  | a :: l => Reaches R (Q a) a l ∨ ClashOn R Q l

/-- Nothing is reached along no elements. -/
@[simp] theorem reaches_nil (P : α → Prop) (a : α) : ¬ Reaches R P a [] := id

/-- The next element is reached when it is linked, and is looked for from there on. -/
@[simp] theorem reaches_cons (P : α → Prop) (a b : α) (l : List α) :
    Reaches R P a (b :: l) ↔ R a b ∧ (P b ∨ Reaches R P b l) := Iff.rfl

/-- An empty chain has no clash. -/
@[simp] theorem clashOn_nil : ¬ ClashOn R Q [] := id

/-- A clash starts at the first element or behind it. -/
@[simp] theorem clashOn_cons (a : α) (l : List α) :
    ClashOn R Q (a :: l) ↔ Reaches R (Q a) a l ∨ ClashOn R Q l := Iff.rfl

/-- Only the link to the first element depends on where a chain starts. -/
theorem reaches_congr_start {P : α → Prop} {a b : α} {l : List α} (h : ∀ c, R a c ↔ R b c) :
    Reaches R P a l ↔ Reaches R P b l := by
  cases l with
  | nil => rfl
  | cons c l => rw [reaches_cons, reaches_cons, h]

/-- A chain reaches one of two properties when it reaches the one or the other. -/
theorem reaches_or {P P' : α → Prop} {a : α} {l : List α} :
    Reaches R (fun c ↦ P c ∨ P' c) a l ↔ Reaches R P a l ∨ Reaches R P' a l := by
  induction l generalizing a with
  | nil => simp
  | cons b l ih =>
    simp only [reaches_cons, ih]
    tauto

/-- What is reached is an element of the list. -/
theorem Reaches.exists_mem {P : α → Prop} {a : α} {l : List α} (h : Reaches R P a l) :
    ∃ b ∈ l, P b := by
  induction l generalizing a with
  | nil => exact h.elim
  | cons b l ih =>
    rcases h.2 with hp | hr
    · exact ⟨b, by simp, hp⟩
    · obtain ⟨c, hc, hp⟩ := ih hr
      exact ⟨c, by simp [hc], hp⟩

/-- A clash is one between elements of the list. -/
theorem ClashOn.exists_mem {l : List α} (h : ClashOn R Q l) : ∃ a ∈ l, ∃ b ∈ l, Q a b := by
  induction l with
  | nil => exact h.elim
  | cons a l ih =>
    rcases h with hr | hc
    · obtain ⟨b, hb, hq⟩ := hr.exists_mem
      exact ⟨a, by simp, b, by simp [hb], hq⟩
    · obtain ⟨c, hc, b, hb, hq⟩ := ih hc
      exact ⟨c, by simp [hc], b, by simp [hb], hq⟩

private theorem reaches_map {R : β → β → Prop} (g : α → β) (P : β → Prop) (a : α) (l : List α) :
    Reaches R P (g a) (l.map g) ↔ Reaches (fun x y ↦ R (g x) (g y)) (fun x ↦ P (g x)) a l := by
  induction l generalizing a with
  | nil => rfl
  | cons b l ih => rw [List.map_cons, reaches_cons, reaches_cons, ih]

/-- Clashes in a mapped list are clashes of the relations seen through the map. -/
theorem clashOn_map {R Q : β → β → Prop} (g : α → β) (l : List α) :
    ClashOn R Q (l.map g) ↔
      ClashOn (fun x y ↦ R (g x) (g y)) (fun x y ↦ Q (g x) (g y)) l := by
  induction l with
  | nil => rfl
  | cons a l ih => rw [List.map_cons, clashOn_cons, clashOn_cons, ih, reaches_map]

private theorem reaches_congr {P P' : α → Prop} {a : α} {l : List α}
    (hR : (a :: l).IsChain fun x y ↦ R x y ↔ R' x y) (hP : ∀ x ∈ l, P x ↔ P' x) :
    Reaches R P a l ↔ Reaches R' P' a l := by
  induction l generalizing a with
  | nil => rfl
  | cons b l ih =>
    obtain ⟨hab, hl⟩ := List.isChain_cons_cons.mp hR
    rw [reaches_cons, reaches_cons, hab, hP b (by simp), ih hl fun x hx ↦ hP x (by simp [hx])]

/-- Links matter between neighbours only, incompatibility between any two elements. -/
theorem clashOn_congr {l : List α} (hR : l.IsChain fun x y ↦ R x y ↔ R' x y)
    (hQ : l.Pairwise fun x y ↦ Q x y ↔ Q' x y) : ClashOn R Q l ↔ ClashOn R' Q' l := by
  induction l with
  | nil => rfl
  | cons a l ih =>
    obtain ⟨ha, hl⟩ := List.pairwise_cons.mp hQ
    rw [clashOn_cons, clashOn_cons, reaches_congr hR ha, ih hR.tail hl]

/-- Without a link between neighbours nothing clashes. -/
theorem not_clashOn_of_isChain {l : List α} (h : l.IsChain fun x y ↦ ¬ R x y) :
    ¬ ClashOn R Q l := by
  induction l with
  | nil => exact id
  | cons a l ih =>
    rintro (hr | hc)
    · cases l with
      | nil => exact hr
      | cons b l => exact (List.isChain_cons_cons.mp h).1 hr.1
    · exact ih h.tail hc

/-- Along linked neighbours on the same side every element reached is on that side. -/
theorem reaches_sides {P : α → Prop} {a b : α} {l : List α}
    (h : (b :: l).IsChain fun x y ↦ R x y → (P x ↔ P y)) (hab : P a ↔ P b) :
    ¬ Reaches R (fun c ↦ ¬ (P a ↔ P c)) b l := by
  induction l generalizing b with
  | nil => exact id
  | cons c l ih =>
    obtain ⟨hbc, hl⟩ := List.isChain_cons_cons.mp h
    rintro ⟨hr, hp | hp⟩
    · exact hp (hab.trans (hbc hr))
    · exact ih hl (hab.trans (hbc hr)) hp

/-- Where incompatible means on different sides, a clash shows between linked neighbours. -/
theorem not_clashOn_sides_iff {P : α → Prop} {l : List α} :
    ¬ ClashOn R (fun a b ↦ ¬ (P a ↔ P b)) l ↔ l.IsChain fun a b ↦ R a b → (P a ↔ P b) := by
  induction l with
  | nil => simp
  | cons a l ih =>
    constructor
    · intro hno
      obtain ⟨hr, hc⟩ := not_or.mp hno
      refine List.isChain_cons.mpr ⟨fun b hb hab ↦ ?_, ih.mp hc⟩
      obtain ⟨l', rfl⟩ : ∃ l', l = b :: l' := by
        cases l with
        | nil => simp at hb
        | cons c l => exact ⟨l, by simpa using hb⟩
      by_contra hne
      exact hr ⟨hab, .inl hne⟩
    · rintro h (hr | hc)
      · exact reaches_sides h Iff.rfl hr
      · exact ih.mpr h.tail hc

/-- What is reached has a link before it, and so does what reaches it one behind it. -/
theorem Reaches.exists_links {P : α → Prop} {a : α} {l : List α} (h : Reaches R P a l) :
    (∃ c ∈ l, R a c) ∧ ∃ b ∈ l, P b ∧ ∃ c ∈ a :: l, R c b := by
  induction l generalizing a with
  | nil => exact h.elim
  | cons b l ih =>
    obtain ⟨hab, hp | hr⟩ := h
    · exact ⟨⟨b, by simp, hab⟩, b, by simp, hp, a, by simp, hab⟩
    · obtain ⟨-, d, hd, hpd, c, hc, hcd⟩ := ih hr
      exact ⟨⟨b, by simp, hab⟩, d, by simp [hd], hpd, c, List.mem_cons_of_mem a hc, hcd⟩

/-- Of two elements that clash the first is linked to one, and the second has one linked to
it. -/
theorem ClashOn.exists_links {l : List α} (h : ClashOn R Q l) :
    ∃ a ∈ l, ∃ b ∈ l, Q a b ∧ (∃ c ∈ l, R a c) ∧ ∃ c ∈ l, R c b := by
  induction l with
  | nil => exact h.elim
  | cons a l ih =>
    rcases h with hr | hc
    · obtain ⟨⟨c, hc, hac⟩, b, hb, hq, e, he, heb⟩ := hr.exists_links
      exact ⟨a, by simp, b, by simp [hb], hq, ⟨c, by simp [hc], hac⟩, e, he, heb⟩
    · obtain ⟨e, he, b, hb, hq, ⟨c, hc, hec⟩, f, hf, hfb⟩ := ih hc
      exact ⟨e, by simp [he], b, by simp [hb], hq, ⟨c, by simp [hc], hec⟩, f, by simp [hf], hfb⟩

/-- Elements of an ordered list with nothing between them are neighbours. -/
theorem rel_of_isChain {l : List α} {a b : α} (hp : l.Pairwise R) (hc : l.IsChain R')
    (ha : a ∈ l) (hb : b ∈ l) (hab : ¬ R b a) (hne : a ≠ b) (hgap : ∀ c ∈ l, R a c → ¬ R c b) :
    R' a b := by
  induction l with
  | nil => exact absurd ha List.not_mem_nil
  | cons x l ih =>
    obtain ⟨hx, hl⟩ := List.pairwise_cons.mp hp
    rcases List.mem_cons.mp ha with rfl | hal
    · rcases List.mem_cons.mp hb with rfl | hbl
      · exact absurd rfl hne
      · cases l with
        | nil => exact absurd hbl List.not_mem_nil
        | cons y l =>
          rcases List.mem_cons.mp hbl with rfl | hbl
          · exact (List.isChain_cons_cons.mp hc).1
          · exact absurd ((List.pairwise_cons.mp hl).1 b hbl)
              (hgap y (by simp) (hx y List.mem_cons_self))
    · rcases List.mem_cons.mp hb with rfl | hbl
      · exact absurd (hx a hal) hab
      · exact ih hl hc.tail hal hbl fun c hc ↦ hgap c (List.mem_cons_of_mem x hc)

/-- Two elements of a list in order are the same or in order. -/
theorem eq_or_rel_of_pairwise {l : List α} {a b : α} (h : l.Pairwise R) (ha : a ∈ l)
    (hb : b ∈ l) : a = b ∨ R a b ∨ R b a := by
  have hp : l.Pairwise fun a b ↦ R a b ∨ R b a := h.imp .inl
  have hsymm : Std.Symm fun a b ↦ R a b ∨ R b a := ⟨fun _ _ h ↦ h.symm⟩
  exact or_iff_not_imp_left.mpr (hp.forall ha hb)

end Tofu

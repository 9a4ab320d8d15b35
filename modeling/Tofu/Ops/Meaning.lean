import Tofu.Ops.Clash
import Tofu.Rope.Offsetwise
import Tofu.Rope.Reference
import Tofu.Selection.Coverage

/-!
# What the edit operations mean

For each operation of `src/src/operations.rs` the bytes it is there to make, offset by
offset: what comes for every byte of the base, and for the offset just behind the last
one. The deltas the operations build make exactly these bytes.
-/

namespace Tofu

open Rope

variable {X : XiRope UInt8}

instance (l : List SelRegion) (i : Nat) : Decidable (CaretAt l i) :=
  inferInstanceAs (Decidable (∃ r ∈ l, r.caret = i))

namespace Ops

/-- The upper half of the one byte and the lower half of the other. -/
def withUpperHalf (top ch : UInt8) : UInt8 := top / 16 * 16 + ch % 16

/-- The entry of a register for the `k`-th region; the last entry serves all further ones. -/
def registerEntry (registerContents : List (List UInt8)) (k : Nat) : List UInt8 :=
  registerContents[min k (registerContents.length - 1)]?.getD []

/-- Where a region is pasted: behind its last byte, or before its first one. -/
def pastePos (n : Nat) (after : Bool) (r : SelRegion) : Nat :=
  if after then min n (r.max + 1) else r.min

/-- What is pasted before an offset, region by region. -/
def pastedAt (n : Nat) (registerContents : List (List UInt8)) (after : Bool) (count : Nat)
    (regions : List SelRegion) (i : Nat) : List UInt8 :=
  (regions.zipIdx.filter fun p ↦ decide (pastePos n after p.1 = i)).flatMap fun p ↦
    (List.replicate count (registerEntry registerContents p.2)).flatten

/-- The bytes an operation is there to make of a base. -/
def Operation.meaning (base : List UInt8) (sel : Selection) : Operation → List UInt8
  | .deletion => offsetwise (fun i x ↦ if Covered sel.regions i then [] else x.toList) base
  | .backspace =>
    offsetwise (fun i x ↦ if CaretAt sel.regions (i + 1) then [] else x.toList) base
  | .deleteCursor => offsetwise (fun i x ↦ if CaretAt sel.regions i then [] else x.toList) base
  | .insert text =>
    offsetwise (fun i x ↦ (if CaretAt sel.regions i then text else []) ++ x.toList) base
  | .paste registerContents after count =>
    offsetwise (fun i x ↦
      pastedAt base.length registerContents after count sel.regions i ++ x.toList) base
  | .change text => offsetwise (fun i x ↦ if CaretAt sel.regions i then text else x.toList) base
  | .overwriteHalf top =>
    offsetwise (fun i x ↦
      if CaretAt sel.regions i then [withUpperHalf top (x.getD 0)] else x.toList) base
  | .replace ch => offsetwise (fun i x ↦ if Covered sel.regions i then [ch] else x.toList) base

/-- What the callers of an operation see to: a register is never empty, and half a byte is
given in its upper half. -/
def Operation.Proper : Operation → Prop
  | .paste registerContents _ _ => registerContents ≠ []
  | .overwriteHalf top => top % 16 = 0
  | _ => True

instance (op : Operation) : Decidable op.Proper :=
  match op with
  | .paste registerContents _ _ => inferInstanceAs (Decidable (registerContents ≠ []))
  | .overwriteHalf top => inferInstanceAs (Decidable (top % 16 = 0))
  | .deletion | .backspace | .deleteCursor | .insert _ | .change _ | .replace _ => isTrue trivial

/-! ## Operations that replace -/

section Blocks

variable {base : List UInt8} {sel : Selection} (hp : sel.Placed base.length)
include hp

/-- A loop that replaces, said offset by offset. -/
theorem delta_of_blocks {edit : SelRegion → Option (Edit UInt8)}
    (hfit : ∀ r, r.InBounds base.length → Fits edit base.length r) (hfol : Follow id edit)
    {f : Nat → Option UInt8 → List UInt8}
    (hstop : ∀ r ∈ sel.regions, ∀ e, edit r = some e → e.stop ≤ base.length + 1)
    (htext : ∀ r ∈ sel.regions, ∀ e, edit r = some e →
      segment (fun i ↦ f i base[i]?) e.start e.stop = e.text)
    (hkept : ∀ i, ¬ Splice.Removes (sel.regions.filterMap edit) i →
      f i base[i]? = base[i]?.toList) :
    ∃ d : X.Delta, editItems edit sel.regions base.length = some d ∧
      X.baseLen d = base.length ∧ X.apply d base = offsetwise f base := by
  obtain ⟨d, hd, hm⟩ := exists_delta (X := X) hp hfit hfol
  refine ⟨d, hd, hm.baseLen, ?_⟩
  have hof {P : Edit UInt8 → Prop} (h : ∀ r ∈ sel.regions, ∀ e, edit r = some e → P e) :
      ∀ e ∈ sel.regions.filterMap edit, P e := by
    intro e he
    obtain ⟨r, hr, he⟩ := List.mem_filterMap.mp he
    exact h r hr e he
  rw [hm.apply base rfl, offsetwise_eq_segment]
  exact Splice.apply_eq_segment hm.sorted (Nat.zero_le _) (hof hstop) (hof htext)
    fun i _ hk ↦ hkept i hk

/-- An operation that puts something in the place of every selected byte. -/
theorem regionEdit_meaning {text : SelRegion → List UInt8} {out : List UInt8}
    (hout : ∀ r, text r = (List.replicate (r.max + 1 - r.min) out).flatten) :
    ∃ d : X.Delta, editItems (fun r ↦ some ⟨r.min, r.max + 1, text r⟩) sel.regions base.length =
        some d ∧ X.baseLen d = base.length ∧
      X.apply d base =
        offsetwise (fun i x ↦ if Covered sel.regions i then out else x.toList) base := by
  refine delta_of_blocks hp (fun r hr ↦ fits_regionEdit hr text) (follow_regionEdit text) ?_ ?_ ?_
  · rintro r hr e ⟨rfl⟩
    have := (SelRegion.inBounds_iff_max_le _ r).mp (hp.inBounds r hr)
    exact Nat.succ_le_succ this
  · rintro r hr e ⟨rfl⟩
    rw [segment_congr (g := fun _ ↦ out) fun i h1 h2 ↦ if_pos ⟨r, hr, h1, Nat.le_of_lt_succ h2⟩,
      segment_const, hout]
  · intro i hk
    refine if_neg ?_
    rintro ⟨r, hr, h1, h2⟩
    exact hk ⟨_, List.mem_filterMap.mpr ⟨r, hr, rfl⟩, h1, Nat.lt_succ_of_le h2⟩

variable (hn : base.length < 2 ^ 63)
include hn

private theorem deletion_meaning : ∃ d : X.Delta, deletion X base sel = some d ∧
    X.baseLen d = base.length ∧ X.apply d base = Operation.deletion.meaning base sel := by
  rw [deletion_eq hp.inBounds hn]
  exact regionEdit_meaning hp fun r ↦ by simp

private theorem replace_meaning (ch : UInt8) : ∃ d : X.Delta, replace X base sel ch = some d ∧
    X.baseLen d = base.length ∧ X.apply d base = (Operation.replace ch).meaning base sel := by
  rw [replace_eq hp.inBounds hn]
  refine regionEdit_meaning hp fun r ↦ ?_
  have hle := r.min_le_max
  rw [List.flatten_replicate_singleton, show r.max + 1 - r.min = r.max - r.min + 1 by omega]

private theorem deleteCursor_meaning : ∃ d : X.Delta, deleteCursor X base sel = some d ∧
    X.baseLen d = base.length ∧ X.apply d base = Operation.deleteCursor.meaning base sel := by
  rw [deleteCursor_eq hp.inBounds hn]
  simp only [Operation.meaning]
  refine delta_of_blocks hp (fun r hr ↦ fits_deleteCursorEdit hr) (follow_deleteCursorEdit _)
    ?_ ?_ ?_
  · intro r hr e he
    have := (hp.inBounds r hr).1
    unfold deleteCursorEdit at he
    split at he <;> simp only [reduceCtorEq, Option.some.injEq] at he
    subst he
    exact Nat.succ_le_succ this
  · intro r hr e he
    unfold deleteCursorEdit at he
    split at he <;> simp only [reduceCtorEq, Option.some.injEq] at he
    subst he
    rw [segment_one, if_pos ⟨r, hr, rfl⟩]
  · intro i hk
    by_cases hi : i < base.length
    · rw [removes_deleteCursor _ hi] at hk
      exact if_neg hk
    · rw [List.getElem?_eq_none (Nat.not_lt.mp hi)]
      exact ite_self _

omit hn in
private theorem backspace_meaning : ∃ d : X.Delta, backspace X base sel = some d ∧
    X.baseLen d = base.length ∧ X.apply d base = Operation.backspace.meaning base sel := by
  rw [backspace_eq]
  simp only [Operation.meaning]
  refine delta_of_blocks hp (fun r hr ↦ fits_backspaceEdit hr) follow_backspaceEdit ?_ ?_ ?_
  · intro r hr e he
    have := (hp.inBounds r hr).1
    unfold backspaceEdit at he
    split at he <;> simp only [reduceCtorEq, Option.some.injEq] at he
    subst he
    exact Nat.le_succ_of_le this
  · intro r hr e he
    unfold backspaceEdit at he
    split at he <;> simp only [reduceCtorEq, Option.some.injEq] at he
    next hpos =>
    subst he
    obtain ⟨c, hc⟩ : ∃ c, r.caret = c + 1 := Nat.exists_eq_succ_of_ne_zero hpos
    simp only [hc, Nat.add_sub_cancel]
    rw [segment_one, if_pos ⟨r, hr, hc⟩]
  · intro i hk
    rw [removes_backspace] at hk
    exact if_neg hk

omit hn in
/-- An operation that puts something in the place of the byte under each caret. -/
theorem changeEdit_meaning {text : SelRegion → List UInt8}
    {g : Option UInt8 → List UInt8} (hg : ∀ r ∈ sel.regions, g base[r.caret]? = text r) :
    ∃ d : X.Delta, editItems (changeEdit text) sel.regions base.length = some d ∧
      X.baseLen d = base.length ∧
      X.apply d base =
        offsetwise (fun i x ↦ if CaretAt sel.regions i then g x else x.toList) base := by
  refine delta_of_blocks hp (fun r hr ↦ fits_changeEdit hr text) (follow_changeEdit text) ?_ ?_ ?_
  · rintro r hr e ⟨rfl⟩
    exact Nat.succ_le_succ (hp.inBounds r hr).1
  · rintro r hr e ⟨rfl⟩
    rw [segment_one, if_pos ⟨r, hr, rfl⟩, hg r hr]
  · intro i hk
    rw [removes_change] at hk
    exact if_neg hk

private theorem change_meaning (text : List UInt8) : ∃ d : X.Delta,
    change X base sel text = some d ∧ X.baseLen d = base.length ∧
      X.apply d base = (Operation.change text).meaning base sel := by
  rw [change_eq hp.inBounds hn]
  exact changeEdit_meaning hp (g := fun _ ↦ text) fun _ _ ↦ rfl

end Blocks

/-- A half byte put into a byte stays what it is where the lower half is zero. -/
theorem withUpperHalf_eq_self_iff {top ch : UInt8} (ht : top % 16 = 0) :
    withUpperHalf top ch = top ↔ ch % 16 = 0 := by
  have := congrArg UInt8.toNat ht
  have hlt := top.toNat_lt
  rw [← UInt8.toNat_inj, ← UInt8.toNat_inj, withUpperHalf]
  simp only [UInt8.toNat_add, UInt8.toNat_mul, UInt8.toNat_div, UInt8.toNat_mod,
    UInt8.reduceToNat] at this ⊢
  omega

/-- Half a byte in the upper half of one and in the lower half of another. -/
theorem and_or_eq_withUpperHalf {top : UInt8} (ht : top % 16 = 0) (ch : UInt8) :
    ch &&& 0x0F ||| top = withUpperHalf top ch := by
  have htop : top.toNat = 2 ^ 4 * (top.toNat / 16) := by
    have := congrArg UInt8.toNat ht
    simp only [UInt8.toNat_mod, UInt8.reduceToNat] at this
    omega
  have hlow : (ch &&& 0x0F).toNat = ch.toNat % 16 := by
    rw [UInt8.toNat_and]
    exact Nat.and_two_pow_sub_one_eq_mod ch.toNat 4
  have hlt := top.toNat_lt
  apply UInt8.toNat.inj
  rw [withUpperHalf, UInt8.toNat_or, hlow, htop, Nat.or_comm,
    ← Nat.two_pow_add_eq_or_of_lt (Nat.mod_lt _ (by decide))]
  simp only [UInt8.toNat_add, UInt8.toNat_mul, UInt8.toNat_div, UInt8.toNat_mod,
    UInt8.reduceToNat]
  omega

private theorem overwriteHalf_meaning {base : List UInt8} {sel : Selection}
    (hp : sel.Placed base.length) (hn : base.length < 2 ^ 63) {top : UInt8} (ht : top % 16 = 0) :
    ∃ d : X.Delta, overwriteHalf X base sel top = some d ∧ X.baseLen d = base.length ∧
      X.apply d base = (Operation.overwriteHalf top).meaning base sel := by
  rw [overwriteHalf_eq hp.inBounds hn]
  refine changeEdit_meaning hp (g := fun x ↦ [withUpperHalf top (x.getD 0)]) fun r _ ↦ ?_
  rw [overwrittenHalf]
  cases base[r.caret]? with
  | none => rw [← and_or_eq_withUpperHalf ht]; rfl
  | some ch => rw [and_or_eq_withUpperHalf ht]; rfl

/-! ## Operations that insert -/

section Inserts

variable {base : List UInt8} {sel : Selection} (hp : sel.Placed base.length)

/-- A loop that only inserts, said offset by offset. -/
theorem apply_of_inserts {d : X.Delta} {es : List (Edit UInt8)}
    (hm : Makes d base.length es) (hins : ∀ e ∈ es, e.stop = e.start) :
    X.baseLen d = base.length ∧
      X.apply d base = offsetwise (fun i x ↦ Splice.textAt es i ++ x.toList) base := by
  refine ⟨hm.baseLen, ?_⟩
  rw [hm.apply base rfl, offsetwise_eq_segment]
  exact Splice.apply_inserts hm.sorted (Nat.zero_le _) hm.within hins

private theorem textAt_insertEdit {l : List SelRegion} (hl : l.Pairwise Before)
    (text : List UInt8) (i : Nat) :
    Splice.textAt (l.filterMap (insertEdit text)) i = if CaretAt l i then text else [] := by
  induction l with
  | nil => rfl
  | cons r l ih =>
    obtain ⟨hr, hl⟩ := List.pairwise_cons.mp hl
    rw [List.filterMap_cons_some (f := insertEdit text) (a := r) rfl, Splice.textAt_cons, ih hl]
    by_cases h : r.caret = i
    · -- the carets behind this one are further on
      have hrest : ¬ CaretAt l i := by
        rintro ⟨s, hs, hc⟩
        have := (hr s hs).caret_lt
        omega
      rw [if_pos h, if_neg hrest, if_pos ⟨r, List.mem_cons_self, h⟩, List.append_nil]
    · have hiff : CaretAt (r :: l) i ↔ CaretAt l i := by simp [CaretAt, h]
      rw [if_neg h, List.nil_append]
      simp only [hiff]

include hp

private theorem insert_meaning (text : List UInt8) : ∃ d : X.Delta,
    insert X base sel text = some d ∧ X.baseLen d = base.length ∧
      X.apply d base = (Operation.insert text).meaning base sel := by
  rw [insert_eq]
  obtain ⟨d, hd, hm⟩ := exists_delta (X := X) hp (fun r hr ↦ fits_insertEdit hr text)
    (follow_insertEdit text)
  obtain ⟨hlen, happly⟩ := apply_of_inserts hm fun e he ↦ by
    obtain ⟨r, -, ⟨rfl⟩⟩ := List.mem_filterMap.mp he
    rfl
  refine ⟨d, hd, hlen, ?_⟩
  simp only [happly, textAt_insertEdit hp.sorted, Operation.meaning]

omit hp in
/-- The `k`-th region is paired with the entry of the register for it. -/
theorem pasteItems_eq {registerContents : List (List UInt8)} {lastValue : List UInt8}
    (hlast : registerContents.getLast? = some lastValue) (regions : List SelRegion) :
    pasteItems regions registerContents lastValue =
      regions.zipIdx.map fun p ↦ (p.1, registerEntry registerContents p.2) := by
  rw [List.getLast?_eq_getElem?] at hlast
  have hentry : ∀ k < regions.length,
      (registerContents ++ List.replicate regions.length lastValue)[k]? =
        some (registerEntry registerContents k) := by
    intro k hk
    rw [registerEntry]
    by_cases hin : k < registerContents.length
    · rw [List.getElem?_append_left hin, Nat.min_eq_left (by omega), List.getElem?_eq_getElem hin]
      rfl
    · rw [List.getElem?_append_right (Nat.not_lt.mp hin), Nat.min_eq_right (by omega), hlast,
        List.getElem?_replicate, if_pos (by omega)]
      rfl
  refine List.ext_getElem? fun k ↦ ?_
  rw [pasteItems, List.zip, List.getElem?_zipWith, List.getElem?_map, List.getElem?_zipIdx,
    Nat.zero_add]
  cases hk : regions[k]? with
  | none => rfl
  | some r =>
    obtain ⟨hlt, -⟩ := List.getElem?_eq_some_iff.mp hk
    rw [hentry k hlt]
    rfl

private theorem paste_meaning (hn : base.length < 2 ^ 63) {registerContents : List (List UInt8)}
    (hne : registerContents ≠ []) (after : Bool) (count : Nat) : ∃ d : X.Delta,
    paste X base sel registerContents after count = some d ∧ X.baseLen d = base.length ∧
      X.apply d base = (Operation.paste registerContents after count).meaning base sel := by
  obtain ⟨lastValue, hlast⟩ : ∃ lastValue, registerContents.getLast? = some lastValue :=
    Option.isSome_iff_exists.mp (by simpa using hne)
  rw [paste_eq hp.inBounds hn, hlast, Option.bind_some, pasteItems_eq hlast]
  generalize hitems : (sel.regions.zipIdx.map fun p ↦
    (p.1, registerEntry registerContents p.2)) = items
  have hfst : items.map Prod.fst = sel.regions := by
    rw [← hitems, List.map_map]
    exact List.zipIdx_map_fst 0 sel.regions
  have hsorted : items.Pairwise fun a b ↦ Before a.1 b.1 := by
    rw [← List.pairwise_map (f := Prod.fst) (R := Before), hfst]
    exact hp.sorted
  have hfit : ∀ item ∈ items, Fits (pasteEdit base.length count after) base.length item := by
    intro item hi
    refine fits_pasteEdit (hp.inBounds item.1 ?_) count after item.2
    exact hfst ▸ List.mem_map_of_mem hi
  obtain ⟨d, hd⟩ := Option.isSome_iff_exists.mp (isSome_editItems (X := X) (n := base.length)
    hsorted (follow_pasteEdit base.length count after) fun item hi e he ↦ (hfit item hi e he).1)
  obtain ⟨hlen, happly⟩ := apply_of_inserts (editItems_makes hd hfit) fun e he ↦ by
    obtain ⟨item, -, ⟨rfl⟩⟩ := List.mem_filterMap.mp he
    rfl
  refine ⟨d, hd, hlen, ?_⟩
  have htext (i : Nat) : Splice.textAt (items.filterMap (pasteEdit base.length count after)) i =
      pastedAt base.length registerContents after count sel.regions i := by
    have hedit : (pasteEdit base.length count after ∘ fun p : SelRegion × Nat ↦
        (p.1, registerEntry registerContents p.2)) = fun p ↦ some
          ⟨pastePos base.length after p.1, pastePos base.length after p.1,
            (List.replicate count (registerEntry registerContents p.2)).flatten⟩ := rfl
    rw [← hitems, Splice.textAt, List.filterMap_map, hedit, List.filterMap_eq_map',
      List.filter_map, List.flatMap_map]
    rfl
  simp only [happly, htext, Operation.meaning]

end Inserts

/-- On sorted, disjoint regions within the base every operation is accepted by the builder,
and its delta, which is made for the base, makes of it what the operation means. -/
theorem Operation.delta_makes_meaning {op : Operation} {base : List UInt8} {sel : Selection}
    (hp : sel.Placed base.length) (hn : base.length < 2 ^ 63) (hop : op.Proper) :
    ∃ d : X.Delta, op.delta X base sel = some d ∧ X.baseLen d = base.length ∧
      X.apply d base = op.meaning base sel := by
  cases op with
  | deletion => exact deletion_meaning hp hn
  | backspace => exact backspace_meaning hp
  | deleteCursor => exact deleteCursor_meaning hp hn
  | insert text => exact insert_meaning hp text
  | paste registerContents after count => exact paste_meaning hp hn hop after count
  | change text => exact change_meaning hp hn text
  | overwriteHalf top => exact overwriteHalf_meaning hp hn hop
  | replace ch => exact replace_meaning hp hn ch

/-- Two regions next to each other, the second one on the offset behind the data. -/
theorem Operation.replace_overflow :
    let X := XiRope.reference UInt8
    let sel : Selection := { regions := [⟨1, 0, true⟩, ⟨2, 2, false⟩], mainSelection := 0 }
    ∃ d : X.Delta, (Operation.replace 9).delta X [1, 2] sel = some d ∧
      X.apply d [1, 2] = [9, 9, 9] := by
  intro X sel
  have hp : sel.Placed (List.length [(1 : UInt8), 2]) := by decide
  obtain ⟨d, hd, -, happly⟩ : ∃ d : X.Delta, (Operation.replace 9).delta X [1, 2] sel = some d ∧
      X.baseLen d = 2 ∧ X.apply d [1, 2] = (Operation.replace 9).meaning [1, 2] sel :=
    delta_makes_meaning hp (by decide) (by decide)
  exact ⟨d, hd, happly.trans (by decide)⟩

end Ops

end Tofu

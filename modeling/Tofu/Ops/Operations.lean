import Tofu.Buffer.CurrentBuffer

/-!
# The edit operations

`src/src/operations.rs`. Each operation walks over the regions and hands one interval per
region to a `DeltaBuilder`; `none` is the builder's panic on an interval that is not
sorted. The loops are those of the source; `editItems` is what they have in common.
-/

namespace Tofu

open Rope

variable (X : XiRope UInt8)

namespace Ops

/-- `operations.rs:5–15`. -/
def deletion (base : List UInt8) (selection : Selection) : Option X.Delta :=
  (selection.regions.foldlM (fun builder region ↦
    let iv : Interval := { start := region.min, stop := usizeAdd region.max 1 }
    if iv.isEmpty then some builder else X.delete builder iv.start iv.stop)
    (X.newBuilder base.length)).map X.build

/-- `operations.rs:17–28`. -/
def backspace (base : List UInt8) (selection : Selection) : Option X.Delta :=
  (selection.regions.foldlM (fun builder region ↦
    if region.caret = 0 then some builder
    else X.delete builder (region.caret - 1) region.caret)
    (X.newBuilder base.length)).map X.build

/-- `operations.rs:30–41`. -/
def deleteCursor (base : List UInt8) (selection : Selection) : Option X.Delta :=
  let baseLen := base.length
  (selection.regions.foldlM (fun builder region ↦
    let iv : Interval :=
      { start := region.caret, stop := min baseLen (usizeAdd region.caret 1) }
    if iv.isEmpty then some builder else X.delete builder iv.start iv.stop)
    (X.newBuilder baseLen)).map X.build

/-- `operations.rs:43–52`. -/
def insert (base : List UInt8) (selection : Selection) (text : List UInt8) : Option X.Delta :=
  (selection.regions.foldlM (fun builder region ↦
    X.replace builder region.caret region.caret text)
    (X.newBuilder base.length)).map X.build

/-- `operations.rs:54–87`: `none` is also the panic on an empty register. -/
def paste (base : List UInt8) (selection : Selection) (registerContents : List (List UInt8))
    (after : Bool) (count : Nat) : Option X.Delta := do
  let lastValue ← registerContents.getLast?
  let regIter := registerContents ++ List.replicate selection.regions.length lastValue
  let builder ← (selection.regions.zip regIter).foldlM (fun builder (region, pasted) ↦
    let insertPos :=
      if after then min base.length (usizeAdd region.max 1) else region.min
    X.replace builder insertPos insertPos (List.replicate count pasted).flatten)
    (X.newBuilder base.length)
  some (X.build builder)

/-- `operations.rs:89–98`. -/
def change (base : List UInt8) (selection : Selection) (text : List UInt8) : Option X.Delta :=
  (selection.regions.foldlM (fun builder region ↦
    X.replace builder region.caret (usizeAdd region.caret 1) text)
    (X.newBuilder base.length)).map X.build

/-- `operations.rs:100–115`. -/
def overwriteHalf (base : List UInt8) (selection : Selection) (top : UInt8) : Option X.Delta :=
  (selection.regions.foldlM (fun builder region ↦
    let baseChar :=
      match base[region.caret]? with
      | some ch => ch &&& 0x0F
      | none => 0
    X.replace builder region.caret (usizeAdd region.caret 1) [baseChar ||| top])
    (X.newBuilder base.length)).map X.build

/-- `operations.rs:117–128`. -/
def replace (base : List UInt8) (selection : Selection) (ch : UInt8) : Option X.Delta :=
  (selection.regions.foldlM (fun builder region ↦
    X.replace builder region.min (usizeAdd region.max 1)
      (List.replicate (region.max - region.min + 1) ch))
    (X.newBuilder base.length)).map X.build

end Ops

/-! ## What the builder makes of the intervals -/

variable {X}

/-- A delta that makes the given edits in a base of length `n`. -/
structure Makes (d : X.Delta) (n : Nat) (es : List (Edit UInt8)) : Prop where
  sorted : Splice.Sorted 0 es
  within : Splice.Within n es
  baseLen : X.baseLen d = n
  apply : ∀ xs, xs.length = n → X.apply d xs = Splice.apply 0 es xs
  transform : ∀ ix, X.transform d ix = Splice.transform n 0 es ix
  newDocumentLen : X.newDocumentLen d = Splice.transform n 0 es n

/-- The new document is as long as the delta announces. -/
theorem Makes.length_apply {d : X.Delta} {n : Nat} {es : List (Edit UInt8)} (h : Makes d n es)
    {xs : List UInt8} (hx : xs.length = n) : (X.apply d xs).length = Splice.transform n 0 es n := by
  rw [X.length_apply d xs (hx.trans h.baseLen.symm), h.newDocumentLen]

/-- A round of a loop that hands the builder at most one edit. -/
def editStep (builder : X.DeltaBuilder) : Option (Edit UInt8) → Option X.DeltaBuilder
  | none => some builder
  | some e => X.replace builder e.start e.stop e.text

/-- The loop of an operation that hands the builder at most one edit for each item. -/
def editItems {ι : Type} (edit : ι → Option (Edit UInt8)) (items : List ι) (n : Nat) :
    Option X.Delta :=
  (items.foldlM (fun builder item ↦ editStep builder (edit item)) (X.newBuilder n)).map X.build

section Loop

variable {ι : Type} {step : X.DeltaBuilder → ι → Option X.DeltaBuilder}
  {edit : ι → Option (Edit UInt8)} {items : List ι} {n : Nat}

private theorem editItems_of_steps
    (hstep : ∀ item ∈ items, ∀ b, step b item = editStep b (edit item)) :
    (items.foldlM step (X.newBuilder n)).map X.build = editItems edit items n := by
  rw [editItems]
  congr 1
  generalize X.newBuilder n = b
  induction items generalizing b with
  | nil => rfl
  | cons item items ih =>
    obtain ⟨hitem, hitems⟩ := List.forall_mem_cons.mp hstep
    simp only [List.foldlM_cons, hitem, ih hitems]

/-- The builder refuses edits that are not sorted. -/
theorem sorted_of_editSteps {b b' : X.DeltaBuilder}
    (h : items.foldlM (fun builder item ↦ editStep builder (edit item)) b = some b')
    (hs : Splice.Sorted 0 (X.edits b))
    (he : ∀ a ∈ items, ∀ e, edit a = some e → e.start ≤ e.stop) :
    X.builderLen b' = X.builderLen b ∧ X.edits b' = X.edits b ++ items.filterMap edit ∧
      Splice.Sorted 0 (X.edits b') := by
  induction items generalizing b with
  | nil =>
    rw [List.foldlM_nil] at h
    obtain ⟨rfl⟩ := h
    exact ⟨rfl, by simp, hs⟩
  | cons item items ih =>
    obtain ⟨hitem, hitems⟩ := List.forall_mem_cons.mp he
    obtain ⟨mid, (hm : editStep b (edit item) = some mid), h⟩ := Option.bind_eq_some_iff.mp h
    cases heq : edit item with
    | none =>
      rw [heq] at hm
      obtain ⟨rfl⟩ := hm
      rw [List.filterMap_cons_none heq]
      exact ih h hs hitems
    | some e =>
      rw [heq] at hm
      rw [List.filterMap_cons_some heq]
      have hl : Splice.lastOffset 0 (X.edits b) ≤ e.start := by
        by_contra hc
        have hn : X.replace b e.start e.stop e.text = none :=
          X.replace_unsorted b _ _ _ (Nat.not_le.mp hc)
        rw [editStep, hn] at hm
        simp at hm
      obtain ⟨mid', hr, hlen, hes⟩ := X.replace_sorted b e.start e.stop e.text hl
      obtain rfl : mid' = mid := Option.some.inj (hr.symm.trans hm)
      obtain ⟨h1, h2, h3⟩ := ih h (by rw [hes]; exact hs.concat hl (hitem e heq)) hitems
      exact ⟨h1.trans hlen, by rw [h2, hes, List.append_assoc, List.singleton_append], h3⟩

/-- A loop that is not refused makes the edits of its items. -/
theorem editItems_makes {d : X.Delta} (h : editItems edit items n = some d)
    (he : ∀ a ∈ items, ∀ e, edit a = some e → e.start ≤ e.stop ∧ e.start ≤ n) :
    Makes d n (items.filterMap edit) := by
  obtain ⟨b, hf, rfl⟩ := Option.map_eq_some_iff.mp h
  obtain ⟨hl, hes, hs⟩ := sorted_of_editSteps hf (by rw [X.edits_newBuilder]; trivial)
    fun a ha e h ↦ (he a ha e h).1
  rw [X.edits_newBuilder, List.nil_append] at hes
  rw [X.builderLen_newBuilder] at hl
  have hw : Splice.Within (X.builderLen b) (X.edits b) := by
    intro e hm
    rw [hes] at hm
    obtain ⟨a, ha, h⟩ := List.mem_filterMap.mp hm
    rw [hl]
    exact (he a ha e h).2
  rw [← hes]
  refine ⟨hs, hl ▸ hw, by rw [X.baseLen_build b hs hw, hl], fun xs hx ↦ ?_, fun ix ↦ ?_, ?_⟩
  · exact X.apply_build b xs hs hw (hx.trans hl.symm)
  · rw [X.transform_build b ix hs hw, hl]
  · rw [X.newDocumentLen_build b (List.replicate n 0) hs hw (by rw [List.length_replicate, hl]), hl]

private theorem isSome_editSteps (b : X.DeltaBuilder)
    (hs : Splice.Sorted (Splice.lastOffset 0 (X.edits b)) (items.filterMap edit)) :
    (items.foldlM (fun builder item ↦ editStep builder (edit item)) b).isSome := by
  induction items generalizing b with
  | nil => rfl
  | cons item items ih =>
    rw [List.foldlM_cons]
    cases he : edit item with
    | none =>
      rw [List.filterMap_cons_none he] at hs
      exact ih b hs
    | some e =>
      rw [List.filterMap_cons_some he] at hs
      obtain ⟨h1, h2, h3⟩ := hs
      obtain ⟨b', hr, -, hes⟩ := X.replace_sorted b e.start e.stop e.text h1
      simp only [editStep, hr, Option.bind_eq_bind, Option.bind_some]
      exact ih b' (by rw [hes, Splice.lastOffset_concat]; exact h3)

/-- The loop is accepted when the edit of each item ends before that of the next starts. -/
theorem isSome_editItems {R : ι → ι → Prop} (hs : items.Pairwise R)
    (hr : ∀ a b e e', R a b → edit a = some e → edit b = some e' → e.stop ≤ e'.start)
    (he : ∀ a ∈ items, ∀ e, edit a = some e → e.start ≤ e.stop) :
    (editItems (X := X) edit items n).isSome := by
  rw [editItems, Option.isSome_map]
  apply isSome_editSteps
  rw [X.edits_newBuilder]
  refine Splice.sorted_of_pairwise (fun _ _ ↦ Nat.zero_le _) ?_ ?_
  · intro e h
    obtain ⟨a, ha, h⟩ := List.mem_filterMap.mp h
    exact he a ha e h
  · refine List.pairwise_filterMap.mpr (hs.imp ?_)
    intro a b hab e h e' h'
    exact hr a b e e' hab h h'

end Loop

/-! ## The edits of each operation -/

namespace Ops

/-- At one region: its bytes go. -/
def deletionEdit (r : SelRegion) : Option (Edit UInt8) := some ⟨r.min, r.max + 1, []⟩

/-- At one region: the byte before its caret goes. -/
def backspaceEdit (r : SelRegion) : Option (Edit UInt8) :=
  if r.caret = 0 then none else some ⟨r.caret - 1, r.caret, []⟩

/-- At one region: the byte under its caret goes, if there is one. -/
def deleteCursorEdit (n : Nat) (r : SelRegion) : Option (Edit UInt8) :=
  if r.caret < n then some ⟨r.caret, r.caret + 1, []⟩ else none

/-- At one region: text comes before its caret. -/
def insertEdit (text : List UInt8) (r : SelRegion) : Option (Edit UInt8) :=
  some ⟨r.caret, r.caret, text⟩

/-- At one region: text comes for the byte under its caret. -/
def changeEdit (text : SelRegion → List UInt8) (r : SelRegion) : Option (Edit UInt8) :=
  some ⟨r.caret, r.caret + 1, text r⟩

/-- The byte under the caret with its upper half overwritten. -/
def overwrittenHalf (base : List UInt8) (top : UInt8) (r : SelRegion) : List UInt8 :=
  [(match base[r.caret]? with
    | some ch => ch &&& 0x0F
    | none => 0) ||| top]

/-- At one region: every byte of it becomes the same one. -/
def replaceEdit (ch : UInt8) (r : SelRegion) : Option (Edit UInt8) :=
  some ⟨r.min, r.max + 1, List.replicate (r.max - r.min + 1) ch⟩

/-- At one region: the text it is paired with comes before or behind it. -/
def pasteEdit (n count : Nat) (after : Bool) (item : SelRegion × List UInt8) :
    Option (Edit UInt8) :=
  let insertPos := if after then min n (item.1.max + 1) else item.1.min
  some ⟨insertPos, insertPos, (List.replicate count item.2).flatten⟩

/-- What is pasted at each region: the register, its last text over and over behind it. -/
def pasteItems (regions : List SelRegion) (registerContents : List (List UInt8))
    (lastValue : List UInt8) : List (SelRegion × List UInt8) :=
  regions.zip (registerContents ++ List.replicate regions.length lastValue)

section Equations

variable {base : List UInt8} {sel : Selection}
  (hb : ∀ r ∈ sel.regions, r.InBounds base.length) (hn : base.length < 2 ^ 63)
include hb hn

private theorem usizeAdd_max {r : SelRegion} (hr : r ∈ sel.regions) :
    usizeAdd r.max 1 = r.max + 1 := by
  have := (SelRegion.inBounds_iff_max_le _ r).mp (hb r hr)
  exact usizeAdd_of_lt (by omega)

private theorem usizeAdd_caret {r : SelRegion} (hr : r ∈ sel.regions) :
    usizeAdd r.caret 1 = r.caret + 1 := by
  have := (hb r hr).1
  exact usizeAdd_of_lt (by omega)

/-- The loop of `deletion`, as one edit for each region. -/
theorem deletion_eq : deletion X base sel = editItems deletionEdit sel.regions base.length := by
  refine editItems_of_steps fun r hr b ↦ ?_
  have hlt := r.min_le_max
  simp only [usizeAdd_max hb hn hr, Interval.isEmpty, deletionEdit, editStep, X.delete_eq]
  rw [if_neg (by simp only [decide_eq_true_eq]; omega)]

/-- The loop of `delete_cursor`. -/
theorem deleteCursor_eq :
    deleteCursor X base sel =
      editItems (deleteCursorEdit base.length) sel.regions base.length := by
  refine editItems_of_steps fun r hr b ↦ ?_
  have hle := (hb r hr).1
  simp only [usizeAdd_caret hb hn hr, Interval.isEmpty, deleteCursorEdit, X.delete_eq]
  by_cases h : r.caret < base.length
  · rw [if_neg (by simp only [decide_eq_true_eq]; omega), if_pos h,
      Nat.min_eq_right (show r.caret + 1 ≤ base.length by omega)]
    rfl
  · rw [if_pos (by simp only [decide_eq_true_eq]; omega), if_neg h]
    rfl

/-- The loop of `change`. -/
theorem change_eq (text : List UInt8) :
    change X base sel text = editItems (changeEdit fun _ ↦ text) sel.regions base.length :=
  editItems_of_steps fun r hr b ↦ by simp only [usizeAdd_caret hb hn hr, changeEdit, editStep]

/-- The loop of `overwrite_half`, in which the new byte depends on the one under the caret. -/
theorem overwriteHalf_eq (top : UInt8) :
    overwriteHalf X base sel top =
      editItems (changeEdit (overwrittenHalf base top)) sel.regions base.length :=
  editItems_of_steps fun r hr b ↦ by
    simp only [usizeAdd_caret hb hn hr, changeEdit, overwrittenHalf, editStep]

/-- The loop of `replace`. -/
theorem replace_eq (ch : UInt8) :
    replace X base sel ch = editItems (replaceEdit ch) sel.regions base.length :=
  editItems_of_steps fun r hr b ↦ by simp only [usizeAdd_max hb hn hr, replaceEdit, editStep]

/-- The loop of `paste`, over the regions and their entries of the register. -/
theorem paste_eq (registerContents : List (List UInt8)) (after : Bool) (count : Nat) :
    paste X base sel registerContents after count =
      registerContents.getLast?.bind fun lastValue ↦
        editItems (pasteEdit base.length count after)
          (pasteItems sel.regions registerContents lastValue) base.length := by
  rw [paste]
  congr 1
  funext lastValue
  refine Option.map_eq_bind.symm.trans (editItems_of_steps fun item hitem b ↦ ?_)
  have hr : item.1 ∈ sel.regions := (List.of_mem_zip hitem).1
  simp only [usizeAdd_max hb hn hr, pasteEdit, editStep]

end Equations

/-- The loop of `backspace`. -/
theorem backspace_eq (base : List UInt8) (sel : Selection) :
    backspace X base sel = editItems backspaceEdit sel.regions base.length :=
  editItems_of_steps fun r _ b ↦ by
    simp only [backspaceEdit, X.delete_eq]
    split <;> rfl

/-- The loop of `insert`. -/
theorem insert_eq (base : List UInt8) (sel : Selection) (text : List UInt8) :
    insert X base sel text = editItems (insertEdit text) sel.regions base.length :=
  editItems_of_steps fun _ _ _ ↦ rfl

/-- Every edit of the operation starts within a base of length `n` and does not end before
it starts. -/
def Fits {ι : Type} (edit : ι → Option (Edit UInt8)) (n : Nat) (item : ι) : Prop :=
  ∀ e, edit item = some e → e.start ≤ e.stop ∧ e.start ≤ n

/-- The edit of a region ends before that of a region behind it starts. -/
def Follow {ι : Type} (region : ι → SelRegion) (edit : ι → Option (Edit UInt8)) : Prop :=
  ∀ a b e e', Before (region a) (region b) → edit a = some e → edit b = some e' →
    e.stop ≤ e'.start

section Fits

variable {n : Nat} {r : SelRegion} (hr : r.InBounds n)
include hr

/-- `deletion` and `replace` put something in the place of a whole region. -/
theorem fits_regionEdit (text : SelRegion → List UInt8) :
    Fits (fun r ↦ some ⟨r.min, r.max + 1, text r⟩) n r := by
  rintro e ⟨rfl⟩
  have hle := r.min_le_max
  have hmax := (SelRegion.inBounds_iff_max_le _ r).mp hr
  exact ⟨Nat.le_succ_of_le hle, Nat.le_trans hle hmax⟩

/-- The byte before a caret is in the data. -/
theorem fits_backspaceEdit : Fits backspaceEdit n r := by
  intro e he
  unfold backspaceEdit at he
  split at he <;> simp only [reduceCtorEq, Option.some.injEq] at he
  subst he
  exact ⟨Nat.sub_le _ _, Nat.le_trans (Nat.sub_le _ _) hr.1⟩

/-- A byte is removed only where there is one. -/
theorem fits_deleteCursorEdit : Fits (deleteCursorEdit n) n r := by
  intro e he
  unfold deleteCursorEdit at he
  split at he <;> simp only [reduceCtorEq, Option.some.injEq] at he
  subst he
  exact ⟨Nat.le_succ _, hr.1⟩

/-- A text is put in at the end of the data at the latest. -/
theorem fits_insertEdit (text : List UInt8) : Fits (insertEdit text) n r := by
  rintro e ⟨rfl⟩
  exact ⟨Nat.le_refl _, hr.1⟩

/-- A byte that is put in the place of another starts there. -/
theorem fits_changeEdit (text : SelRegion → List UInt8) : Fits (changeEdit text) n r := by
  rintro e ⟨rfl⟩
  exact ⟨Nat.le_succ _, hr.1⟩

/-- What is pasted goes in at the end of the data at the latest. -/
theorem fits_pasteEdit (count : Nat) (after : Bool) (text : List UInt8) :
    Fits (pasteEdit n count after) n (r, text) := by
  rintro e ⟨rfl⟩
  refine ⟨Nat.le_refl _, ?_⟩
  cases after with
  | true => exact Nat.min_le_left _ _
  | false => exact Nat.le_trans r.min_le_caret hr.1

end Fits

/-- Edits of whole regions follow each other as the regions do. -/
theorem follow_regionEdit (text : SelRegion → List UInt8) :
    Follow id fun r ↦ some ⟨r.min, r.max + 1, text r⟩ := by
  rintro a b e e' hab ⟨rfl⟩ ⟨rfl⟩
  exact hab

/-- So do the removals before the carets. -/
theorem follow_backspaceEdit : Follow id backspaceEdit := by
  intro a b e e' hab he he'
  unfold backspaceEdit at he he'
  split at he <;> simp only [reduceCtorEq, Option.some.injEq] at he
  split at he' <;> simp only [reduceCtorEq, Option.some.injEq] at he'
  subst he he'
  exact Nat.le_sub_one_of_lt hab.caret_lt

/-- So do those under the carets. -/
theorem follow_deleteCursorEdit (n : Nat) : Follow id (deleteCursorEdit n) := by
  intro a b e e' hab he he'
  unfold deleteCursorEdit at he he'
  split at he <;> simp only [reduceCtorEq, Option.some.injEq] at he
  split at he' <;> simp only [reduceCtorEq, Option.some.injEq] at he'
  subst he he'
  exact hab.caret_lt

/-- So do insertions at the carets. -/
theorem follow_insertEdit (text : List UInt8) : Follow id (insertEdit text) := by
  rintro a b e e' hab ⟨rfl⟩ ⟨rfl⟩
  exact Nat.le_of_lt hab.caret_lt

/-- So do changes under the carets. -/
theorem follow_changeEdit (text : SelRegion → List UInt8) : Follow id (changeEdit text) := by
  rintro a b e e' hab ⟨rfl⟩ ⟨rfl⟩
  exact hab.caret_lt

/-- So do insertions before or behind the regions. -/
theorem follow_pasteEdit (n count : Nat) (after : Bool) :
    Follow Prod.fst (pasteEdit n count after) := by
  rintro ⟨a, s⟩ ⟨b, t⟩ e e' (hab : a.max < b.min) ⟨rfl⟩ ⟨rfl⟩
  have ha := a.min_le_max
  have hb := b.min_le_max
  cases after <;> simp only [Bool.false_eq_true, if_false, if_true] <;> omega

/-- On sorted, disjoint regions within the base the loop of an operation builds a delta. -/
theorem exists_delta {edit : SelRegion → Option (Edit UInt8)} {sel : Selection} {n : Nat}
    (hp : sel.Placed n) (hfit : ∀ r, r.InBounds n → Fits edit n r) (hfol : Follow id edit) :
    ∃ d : X.Delta, editItems edit sel.regions n = some d ∧
      Makes d n (sel.regions.filterMap edit) := by
  have hin : ∀ r ∈ sel.regions, Fits edit n r := fun r hr ↦ hfit r (hp.inBounds r hr)
  obtain ⟨d, hd⟩ := Option.isSome_iff_exists.mp (isSome_editItems (X := X) (n := n)
    hp.sorted hfol fun r hr e he ↦ (hin r hr e he).1)
  exact ⟨d, hd, editItems_makes hd hin⟩

/-! ## All operations -/

/-- The operations with their arguments. -/
inductive Operation where
  | deletion
  | backspace
  | deleteCursor
  | insert (text : List UInt8)
  | paste (registerContents : List (List UInt8)) (after : Bool) (count : Nat)
  | change (text : List UInt8)
  | overwriteHalf (top : UInt8)
  | replace (ch : UInt8)
  deriving DecidableEq, Repr

/-- The delta of an operation. -/
def Operation.delta (X : XiRope UInt8) (base : List UInt8) (sel : Selection) :
    Operation → Option X.Delta
  | .deletion => Ops.deletion X base sel
  | .backspace => Ops.backspace X base sel
  | .deleteCursor => Ops.deleteCursor X base sel
  | .insert text => Ops.insert X base sel text
  | .paste registerContents after count => Ops.paste X base sel registerContents after count
  | .change text => Ops.change X base sel text
  | .overwriteHalf top => Ops.overwriteHalf X base sel top
  | .replace ch => Ops.replace X base sel ch

/-- An operation that does not panic makes edits of the data it is given. -/
theorem Operation.exists_makes {op : Operation} {base : List UInt8} {sel : Selection} {d : X.Delta}
    (hb : ∀ r ∈ sel.regions, r.InBounds base.length) (hn : base.length < 2 ^ 63)
    (h : op.delta X base sel = some d) : ∃ es, Makes d base.length es := by
  cases op with
  | deletion =>
    rw [delta, deletion_eq hb hn] at h
    exact ⟨_, editItems_makes h fun r hr ↦ fits_regionEdit (hb r hr) fun _ ↦ []⟩
  | backspace =>
    rw [delta, backspace_eq] at h
    exact ⟨_, editItems_makes h fun r hr ↦ fits_backspaceEdit (hb r hr)⟩
  | deleteCursor =>
    rw [delta, deleteCursor_eq hb hn] at h
    exact ⟨_, editItems_makes h fun r hr ↦ fits_deleteCursorEdit (hb r hr)⟩
  | insert text =>
    rw [delta, insert_eq] at h
    exact ⟨_, editItems_makes h fun r hr ↦ fits_insertEdit (hb r hr) text⟩
  | paste registerContents after count =>
    rw [delta, paste_eq hb hn] at h
    obtain ⟨lastValue, -, h⟩ := Option.bind_eq_some_iff.mp h
    refine ⟨_, editItems_makes h fun item hitem ↦ ?_⟩
    exact fits_pasteEdit (hb item.1 (List.of_mem_zip hitem).1) count after item.2
  | change text =>
    rw [delta, change_eq hb hn] at h
    exact ⟨_, editItems_makes h fun r hr ↦ fits_changeEdit (hb r hr) _⟩
  | overwriteHalf top =>
    rw [delta, overwriteHalf_eq hb hn] at h
    exact ⟨_, editItems_makes h fun r hr ↦ fits_changeEdit (hb r hr) _⟩
  | replace ch =>
    rw [delta, replace_eq hb hn] at h
    exact ⟨_, editItems_makes h fun r hr ↦
      fits_regionEdit (hb r hr) fun r ↦ List.replicate (r.max - r.min + 1) ch⟩

end Ops

end Tofu

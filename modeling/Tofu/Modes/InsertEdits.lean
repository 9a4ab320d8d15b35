import Tofu.Modes.Session
import Tofu.Rope.Reference

/-!
# Edit keys in the insertion modes

When an edit key of an insertion mode panics. The deltas are always accepted by the
builder; only the update of the selection can fail, where it joins regions that point
different ways.
-/

namespace Tofu

open Rope SelRegion

variable {X : XiRope UInt8}

/-! ## Edits at the carets of a buffer -/

/-- A change to a buffer panics exactly on a clash and otherwise leaves a valid selection in
the new data. -/
structure SafeUnless (clash : Prop) (r : Option (CurrentBuffer X × DirtyBytes)) : Prop where
  eq_none_iff : r.map Prod.fst = none ↔ clash
  placed : ∀ b', r.map Prod.fst = some b' →
    b'.selection.Valid ∧ b'.selection.Placed b'.data.length

namespace CurrentBuffer

/-- A delta is applied when a selection is found for the new data. -/
theorem map_fst_applyWith (b : CurrentBuffer X) (delta : X.Delta) (isFinal : Bool)
    (select : Selection → Nat → Option Selection) :
    (b.applyWith delta isFinal select).map Prod.fst =
      (select b.selection b.data.length).map fun sel ↦
        { b.applyDeltaToCurrentBuffer delta isFinal with selection := sel } := by
  simp only [applyWith, applyDeltaToCurrentBuffer, Option.bind_eq_bind]
  cases select b.selection b.data.length <;> rfl

/-- Applying a delta panics exactly when its selection does, and leaves it in the data. -/
theorem safe_applyWith {b : CurrentBuffer X} {delta : X.Delta} {es : List (Edit UInt8)}
    {clash : Prop} (h : Makes delta b.data.length es) (isFinal : Bool)
    {select : Selection → Nat → Option Selection}
    (hs : (select b.selection b.data.length = none ↔ clash) ∧
      ∀ sel, select b.selection b.data.length = some sel →
        sel.Valid ∧ sel.Placed (Splice.transform b.data.length 0 es b.data.length)) :
    SafeUnless clash (b.applyWith delta isFinal select) := by
  constructor
  · rw [map_fst_applyWith, Option.map_eq_none_iff, hs.1]
  · intro b' hb'
    rw [map_fst_applyWith] at hb'
    obtain ⟨sel, hsel, rfl⟩ := Option.map_eq_some_iff.mp hb'
    have hlen : (X.apply delta b.data).length =
        Splice.transform b.data.length 0 es b.data.length := h.length_apply rfl
    exact ⟨(hs.2 sel hsel).1, hlen ▸ (hs.2 sel hsel).2⟩

variable {b : CurrentBuffer X} (hv : b.selection.Valid) (hp : b.selection.Placed b.data.length)
include hv hp

private theorem safe_of_edit {edit : SelRegion → Option (Edit UInt8)} {clash : Prop}
    (hfit : ∀ r, r.InBounds b.data.length → Ops.Fits edit b.data.length r)
    (hfol : Ops.Follow id edit)
    (hclash : ∀ d : X.Delta, Makes d b.data.length (b.selection.regions.filterMap edit) →
      (ClashOn Touch Opposed (b.selection.regions.map
        (carried b.data.length (b.selection.regions.filterMap edit))) ↔ clash)) :
    SafeUnless clash ((editItems edit b.selection.regions b.data.length).bind
      b.applyIncompleteDelta) := by
  obtain ⟨d, hd, hm⟩ := Ops.exists_delta (X := X) hp hfit hfol
  rw [hd, Option.bind_some]
  have hu := hm.applyDelta_update hv
  rw [hclash d hm] at hu
  exact safe_applyWith hm false hu

omit hv hp in
/-- One byte at each caret makes at most as many bytes as there are regions. -/
theorem sum_text_le {edit : SelRegion → Option (Edit UInt8)} {regions : List SelRegion}
    (hone : ∀ r ∈ regions, ∃ e, edit r = some e ∧ e.start = r.caret ∧ e.text.length = 1) :
    ((regions.filterMap edit).map fun e ↦ e.text.length).sum ≤ regions.length := by
  induction regions with
  | nil => exact Nat.le_refl _
  | cons r regions ih =>
    obtain ⟨⟨e, he, -, ht⟩, hrest⟩ := List.forall_mem_cons.mp hone
    have := ih hrest
    rw [List.filterMap_cons_some he, List.map_cons, List.sum_cons, ht, List.length_cons]
    omega

private theorem safe_of_editBack {edit : SelRegion → Option (Edit UInt8)} {clash : Prop}
    (hlen : b.data.length < 2 ^ 62)
    (hfit : ∀ r, r.InBounds b.data.length → Ops.Fits edit b.data.length r)
    (hfol : Ops.Follow id edit)
    (hone : ∀ r ∈ b.selection.regions,
      ∃ e, edit r = some e ∧ e.start = r.caret ∧ e.text.length = 1)
    (hclash : ∀ d : X.Delta, Makes d b.data.length (b.selection.regions.filterMap edit) →
      (∀ r ∈ b.selection.regions,
        ∃ e ∈ b.selection.regions.filterMap edit, e.start = r.caret ∧ e.text.length = 1) →
      (ClashOn Touch Opposed (b.selection.regions.map
        (carriedBack b.data.length (b.selection.regions.filterMap edit))) ↔ clash)) :
    SafeUnless clash ((editItems edit b.selection.regions b.data.length).bind fun delta ↦
      b.applyIncompleteDeltaOffsetCarets delta (-1) 0) := by
  obtain ⟨d, hd, hm⟩ := Ops.exists_delta (X := X) hp hfit hfol
  have hedit : ∀ r ∈ b.selection.regions,
      ∃ e ∈ b.selection.regions.filterMap edit, e.start = r.caret ∧ e.text.length = 1 := by
    intro r hr
    obtain ⟨e, he, h⟩ := hone r hr
    exact ⟨e, List.mem_filterMap.mpr ⟨r, hr, he⟩, h⟩
  have hbound := Splice.transform_le_add _ _ 0 b.data.length hm.sorted hm.within
  have hsum := sum_text_le hone
  have hcount := hp.length_le
  rw [hd, Option.bind_some]
  have hu := hm.applyDeltaOffsetCarets_update hv (by omega) fun r hr ↦
    one_le_transform_caret hm hedit hr
  rw [hclash d hm hedit] at hu
  exact safe_applyWith hm false hu

/-! ## The edits of the insertion modes -/

/-- An insertion never panics. -/
theorem insert_safe (text : List UInt8) :
    SafeUnless False ((Ops.insert X b.data b.selection text).bind b.applyIncompleteDelta) := by
  rw [Ops.insert_eq]
  refine safe_of_edit hv hp (fun r hr ↦ Ops.fits_insertEdit hr text)
    (Ops.follow_insertEdit text) fun d hm ↦ iff_false_intro ?_
  exact not_clashOn_carried_of_kept hm hp.sorted hp.inBounds fun x _ ↦
    Ops.not_removes_insert _ text x

/-- Removing the bytes before the carets panics where regions meet from opposite sides. -/
theorem backspace_safe :
    SafeUnless (ClashOn BackspaceJoins BackspaceOpposed b.selection.regions)
      ((Ops.backspace X b.data b.selection).bind b.applyIncompleteDelta) := by
  rw [Ops.backspace_eq]
  exact safe_of_edit hv hp (fun r hr ↦ Ops.fits_backspaceEdit hr) Ops.follow_backspaceEdit
    fun d hm ↦ clashOn_carried_iff_backspace hm hp.sorted hp.inBounds fun x _ ↦
      Ops.removes_backspace _ x

variable (hn : b.data.length < 2 ^ 62)
include hn

/-- So does writing over the bytes under the carets. -/
theorem change_safe (text : List UInt8) :
    SafeUnless (ClashOn DeleteJoins DeleteOpposed b.selection.regions)
      ((Ops.change X b.data b.selection text).bind b.applyIncompleteDelta) := by
  rw [Ops.change_eq hp.inBounds (by omega)]
  exact safe_of_edit hv hp (fun r hr ↦ Ops.fits_changeEdit hr _) (Ops.follow_changeEdit _)
    fun d hm ↦ clashOn_carried_iff_delete hm hp.sorted hp.inBounds fun x _ ↦
      Ops.removes_change _ _ x

/-- So does removing them. -/
theorem deleteCursor_safe :
    SafeUnless (ClashOn DeleteJoins DeleteOpposed b.selection.regions)
      ((Ops.deleteCursor X b.data b.selection).bind b.applyIncompleteDelta) := by
  rw [Ops.deleteCursor_eq hp.inBounds (by omega)]
  exact safe_of_edit hv hp (fun r hr ↦ Ops.fits_deleteCursorEdit hr)
    (Ops.follow_deleteCursorEdit _) fun d hm ↦
      clashOn_carried_iff_delete hm hp.sorted hp.inBounds fun x hx ↦
        Ops.removes_deleteCursor _ hx

/-- An insertion of half a byte never panics. -/
theorem insertHalf_safe (top : UInt8) :
    SafeUnless False ((Ops.insert X b.data b.selection [top]).bind fun delta ↦
      b.applyIncompleteDeltaOffsetCarets delta (-1) 0) := by
  rw [Ops.insert_eq]
  refine safe_of_editBack hv hp hn (fun r hr ↦ Ops.fits_insertEdit hr _)
    (Ops.follow_insertEdit _) (fun r _ ↦ ⟨_, rfl, rfl, rfl⟩) fun d hm hedit ↦ iff_false_intro ?_
  exact not_clashOn_carriedBack_of_kept hm hp.sorted hp.inBounds hedit fun x _ ↦
    Ops.not_removes_insert _ _ x

/-- Writing half a byte over others panics where regions meet from opposite sides. -/
theorem overwriteHalf_safe (top : UInt8) :
    SafeUnless (ClashOn HalfJoins HalfOpposed b.selection.regions)
      ((Ops.overwriteHalf X b.data b.selection top).bind fun delta ↦
        b.applyIncompleteDeltaOffsetCarets delta (-1) 0) := by
  rw [Ops.overwriteHalf_eq hp.inBounds (by omega)]
  refine safe_of_editBack hv hp hn (fun r hr ↦ Ops.fits_changeEdit hr _)
    (Ops.follow_changeEdit _) (fun r _ ↦ ⟨_, rfl, rfl, rfl⟩) fun d hm hedit ↦ ?_
  exact clashOn_carriedBack_iff_half hm hp.sorted hp.inBounds hedit fun x _ ↦
    Ops.removes_change _ _ x

end CurrentBuffer

/-! ## The edit keys -/

/-- The keys that edit in an insertion mode. -/
inductive EditKey where
  | char (c : Char)
  | null
  | backspace
  | delete
  deriving DecidableEq, Repr

namespace EditKey

/-- The event of an edit key, with or without SHIFT. -/
def event (shift : Bool) : EditKey → KeyEvent
  | .char c => { code := .char c, modifiers := { KeyModifiers.none with shift } }
  | .null => { code := .char 'n', modifiers := { KeyModifiers.none with shift, control := true } }
  | .backspace => { code := .backspace, modifiers := { KeyModifiers.none with shift } }
  | .delete => { code := .delete, modifiers := { KeyModifiers.none with shift } }

/-- The selections on which an edit key panics. -/
def Clashes (m : Insert) (regions : List SelRegion) : EditKey → Prop
  | .null => False
  | .delete => ClashOn DeleteJoins DeleteOpposed regions
  | .backspace =>
    if m.hexHalf.isSome then ClashOn DeleteJoins DeleteOpposed regions
    else ClashOn BackspaceJoins BackspaceOpposed regions
  | .char c =>
    if m.hex then
      match hexDigit c, m.hexHalf, m.mode with
      | none, _, _ => False
      | some _, some _, _ => ClashOn DeleteJoins DeleteOpposed regions
      | some _, none, .overwrite => ClashOn HalfJoins HalfOpposed regions
      | some _, none, _ => False
    else
      match m.mode with
      | .overwrite => ClashOn DeleteJoins DeleteOpposed regions
      | _ => False

end EditKey

/-- What a mode makes of an event: `none` exactly on a clash, and a valid selection in the data
otherwise. -/
structure OutcomeSafe (clash : Prop) (o : Outcome X) : Prop where
  eq_none_iff : o = none ↔ clash
  placed : ∀ t b', o = some (some (t, b')) →
    b'.selection.Valid ∧ b'.selection.Placed b'.data.length

/-- A result that is redrawn panics where it does. -/
theorem SafeUnless.dirty {clash : Prop} {r : Option (CurrentBuffer X × DirtyBytes)}
    (h : SafeUnless clash r) : OutcomeSafe clash (Outcome.dirty r) := by
  constructor
  · rw [← h.eq_none_iff, ← Option.not_isSome_iff_eq_none, Outcome.isSome_dirty,
      Option.not_isSome_iff_eq_none]
  · intro t b' ho
    exact h.placed b' (Outcome.of_dirty ho).2

/-- So does one that changes the mode. -/
theorem SafeUnless.modeAndDirty {clash : Prop} {r : Option (CurrentBuffer X × DirtyBytes)}
    (h : SafeUnless clash r) (mode : Mode) :
    OutcomeSafe clash (Outcome.modeAndDirty mode r) := by
  constructor
  · rw [← h.eq_none_iff, ← Option.not_isSome_iff_eq_none, Outcome.isSome_modeAndDirty,
      Option.not_isSome_iff_eq_none]
  · intro t b' ho
    exact h.placed b' (Outcome.of_modeAndDirty ho).2

/-- An event that is not handled does not panic. -/
theorem outcomeSafe_unhandled : OutcomeSafe (X := X) False Outcome.unhandled :=
  ⟨by simp [Outcome.unhandled], fun t b' h ↦ by simp [Outcome.unhandled] at h⟩

namespace Insert

private theorem eventToAction_char (c : Char) (shift : Bool) :
    defaultMaps.eventToAction (.key (EditKey.event shift (.char c))) = none := by
  simp [KeyMap.eventToAction, EditKey.event, KeyModifiers.withoutShift, KeyModifiers.none,
    List.lookup_eq_none_iff, defaultMaps, onCtrl, onKey]

/-- A character is typed as a hex digit or as a byte. -/
theorem transition_char (m : Insert) (c : Char) (shift : Bool) (b : CurrentBuffer X)
    (bytesPerLine : Nat) :
    m.transition (.key (EditKey.event shift (.char c))) b bytesPerLine =
      if m.hex then transitionHexInsertion c b m.mode m.hexHalf
      else transitionAsciiInsertion c b m.mode := by
  unfold transition
  rw [eventToAction_char]
  cases m.hex <;> rfl

variable (m : Insert) {b : CurrentBuffer X} (hv : b.selection.Valid)
  (hp : b.selection.Placed b.data.length) (hn : b.data.length < 2 ^ 62)
include hv hp hn

private theorem hexInsertion_safe (digit : UInt8) :
    OutcomeSafe (match m.hexHalf, m.mode with
      | some _, _ => ClashOn DeleteJoins DeleteOpposed b.selection.regions
      | none, .overwrite => ClashOn HalfJoins HalfOpposed b.selection.regions
      | none, _ => False) (hexInsertion digit b m.mode m.hexHalf) := by
  rcases m with ⟨mode, hex, hexHalf⟩
  cases hexHalf with
  | some half => exact (CurrentBuffer.change_safe hv hp hn _).modeAndDirty _
  | none =>
    cases mode with
    | insert => exact (CurrentBuffer.insertHalf_safe hv hp hn _).modeAndDirty _
    | append => exact (CurrentBuffer.insertHalf_safe hv hp hn _).modeAndDirty _
    | overwrite => exact (CurrentBuffer.overwriteHalf_safe hv hp hn _).modeAndDirty _

private theorem asciiInsertion_safe (c : Char) :
    OutcomeSafe (match m.mode with
      | .overwrite => ClashOn DeleteJoins DeleteOpposed b.selection.regions
      | _ => False) (transitionAsciiInsertion c b m.mode) := by
  rcases m with ⟨mode, hex, hexHalf⟩
  cases mode with
  | insert => exact (CurrentBuffer.insert_safe hv hp _).dirty
  | append => exact (CurrentBuffer.insert_safe hv hp _).dirty
  | overwrite => exact (CurrentBuffer.change_safe hv hp hn _).dirty

/-- An edit key of an insertion mode panics exactly on a clash of joined regions, and leaves a
valid selection in the new data otherwise. -/
theorem edit_eq_none_iff (key : EditKey) (shift : Bool) (bytesPerLine : Nat)
    (hne : b.data ≠ []) :
    (m.transition (.key (key.event shift)) b bytesPerLine = none ↔
      key.Clashes m b.selection.regions) ∧
    ∀ t b', m.transition (.key (key.event shift)) b bytesPerLine = some (some (t, b')) →
      b'.selection.Valid ∧ b'.selection.Placed b'.data.length := by
  suffices h : OutcomeSafe (key.Clashes m b.selection.regions)
      (m.transition (.key (key.event shift)) b bytesPerLine) from ⟨h.eq_none_iff, h.placed⟩
  cases key with
  | char c =>
    rw [transition_char, EditKey.Clashes]
    by_cases hx : m.hex
    · rw [if_pos hx, if_pos hx, transitionHexInsertion]
      cases hexDigit c with
      | none => exact outcomeSafe_unhandled
      | some digit =>
        have h := hexInsertion_safe m hv hp hn digit
        rcases m with ⟨mode, hex, hexHalf⟩
        cases hexHalf <;> cases mode <;> exact h
    · rw [if_neg hx, if_neg hx]
      exact asciiInsertion_safe m hv hp hn c
  | null => exact (CurrentBuffer.insert_safe hv hp _).modeAndDirty _
  | backspace =>
    rw [show m.transition (.key (EditKey.event shift .backspace)) b bytesPerLine =
      m.act .removeLast b bytesPerLine from rfl, act, if_neg hne, EditKey.Clashes]
    by_cases hh : m.hexHalf.isSome
    · rw [if_pos hh, if_pos hh]
      exact (CurrentBuffer.deleteCursor_safe hv hp hn).modeAndDirty _
    · rw [if_neg hh, if_neg hh]
      exact (CurrentBuffer.backspace_safe hv hp).dirty
  | delete =>
    rw [show m.transition (.key (EditKey.event shift .delete)) b bytesPerLine =
      m.act .removeThis b bytesPerLine from rfl, act, if_neg hne, EditKey.Clashes]
    by_cases hh : m.hexHalf.isSome
    · rw [if_pos hh]
      exact (CurrentBuffer.deleteCursor_safe hv hp hn).modeAndDirty _
    · rw [if_neg hh]
      exact (CurrentBuffer.deleteCursor_safe hv hp hn).dirty

end Insert

/-! ## A run into the panic -/

/-- Thirteen bytes, the seventh of which is the letter `x`. -/
def thirteenBytes : Session (XiRope.reference UInt8) :=
  .opened [0, 1, 2, 3, 4, 5, 0x78, 7, 8, 9, 10, 11, 12] none

/-- Selects the bytes from the sixth on, splits them at the `x`, extends both parts by two
bytes and deletes under the carets. -/
def overwriteKeys : List SessionInput :=
  typedKeys ['5', 'g', '7', 'L'] ++
    [.key { code := .char 's', modifiers := { KeyModifiers.none with alt := true } }] ++
    typedKeys ['/', 'x'] ++ [.key (.plain .enter)] ++ typedKeys ['2', 'L', 'o'] ++
    [.key (.plain .delete)]

/-- A deletion in the same place keeps a single cursor in the data. -/
theorem Insert.edit_oneCursor :
    (thirteenBytes.buffer.selection.Valid ∧
      thirteenBytes.buffer.selection.Placed thirteenBytes.buffer.data.length) ∧
    Insert.transition { mode := .overwrite, hex := false, hexHalf := none }
      (.key (EditKey.delete.event false)) thirteenBytes.buffer 16 ≠ none := by
  refine ⟨⟨by decide, by decide⟩, ?_⟩
  rw [Ne, (Insert.edit_eq_none_iff { mode := .overwrite, hex := false, hexHalf := none }
    (b := thirteenBytes.buffer) (by decide) (by decide) (by decide) .delete false 16
    (by decide)).1]
  exact not_clashOn_of_isChain (List.isChain_singleton _)

/-- In overwrite mode a second deletion reaches the panic of `SelRegion::merge`: the first one
has made a forward and a backward region neighbours. -/
theorem Insert.overwrite_delete_panics :
    ((runSteps (Session.step .reference (.single [] []) 16) overwriteKeys thirteenBytes).map
      fun s ↦ (s.mode, s.buffer.selection)) =
      some (.insert { mode := .overwrite, hex := false, hexHalf := none },
        { regions := [{ caret := 7, tail := 5, main := false },
            { caret := 8, tail := 10, main := true }]
          mainSelection := 1 }) ∧
    (runSteps (Session.step .reference (.single [] []) 16)
      (overwriteKeys ++ [.key (.plain .delete)]) thirteenBytes).isNone := by
  constructor <;> rfl

end Tofu

import Tofu.Modes.SafeEdits
import Tofu.Modes.SearchPrompt
import Tofu.Modes.UndoKeys

/-!
# Keys that panic

In a session on one buffer a key panics where `SelRegion::merge` is handed regions that point
different ways, where a search leaves nothing that could be the main region, where an
expression cannot be built, and where a region is split into pieces of no bytes. Whatever else
could panic is kept from it by what holds after any keys: the selection is valid and lies in
the data, so does every selection that the history brings back, no register is empty, and the
cursor of a search prompt is in its pattern.
-/

namespace Tofu

open Rope Selection

variable {X : XiRope UInt8}

/-! ## The modes -/

/-- The searches that panic: something is searched for, and the expression cannot be built, or
the selection changes and nothing is kept of the main region and of those before it. -/
def SearchAcceptor.Panics (E : SearchEngine) (next : SearchAcceptor) (pattern : Pattern)
    (b : CurrentBuffer X) : Prop :=
  pattern.pieces ≠ [] ∧ (¬ pattern.Compiles E ∨ ¬ next.Refuses pattern b ∧
    ∀ r ∈ b.selection.regions.take (b.selection.mainSelection + 1),
      ¬ next.Keeps pattern b.data r)

instance (E : SearchEngine) (next : SearchAcceptor) (pattern : Pattern) (b : CurrentBuffer X) :
    Decidable (next.Panics E pattern b) :=
  inferInstanceAs (Decidable (_ ∧ (_ ∨ _ ∧ ∀ r ∈ _, _)))

/-- A typed offset lies in the buffer, and counts are far from the end of the signed word. -/
def Normal.InRange (m : Normal) (b : CurrentBuffer X) (bytesPerLine : Nat) : Action → Prop
  | .jumpToMode | .extendToMode =>
    m.countState = .none ∨ m.countState.toCount ≤ b.data.length
  | .move _ | .extend _ => bytesPerLine * m.countState.toCount + b.data.length < 2 ^ 63
  | _ => True

instance (m : Normal) (b : CurrentBuffer X) (bytesPerLine : Nat) (action : Normal.Action) :
    Decidable (m.InRange b bytesPerLine action) :=
  match action with
  | .jumpToMode | .extendToMode => inferInstanceAs (Decidable (_ ∨ _))
  | .move _ | .extend _ => inferInstanceAs (Decidable (_ < _))
  | .splitMode | .insert _ | .append _ | .replaceMode _ | .overwrite _ | .swapCaret
  | .collapseSelection | .delete _ | .change _ _ | .yank _ | .paste _ _ | .removeMain
  | .retainMain | .selectNext | .selectPrev | .selectAll | .collapseMode _ | .measure
  | .commandMode | .undo | .redo => inferInstanceAs (Decidable True)

/-- No removal by a typed number leaves the main region at an index that is not its own. -/
def Normal.KeepsMain (m : Normal) (sel : Selection) (action : Action) : Prop :=
  action = .removeMain → ∀ index ∈ m.typedIndex, ¬ sel.Shifts (index % sel.len)

instance (m : Normal) (sel : Selection) (action : Normal.Action) :
    Decidable (m.KeepsMain sel action) :=
  inferInstanceAs (Decidable (_ → ∀ index ∈ _, _))

/-- The only key of normal mode that panics extends to a typed offset. -/
def Normal.Panics (m : Normal) (regions : List SelRegion) : Action → Prop
  | .extendToMode =>
    match m.countState with
    | .none => False
    | .some _ offset => RegionMap.Clashes (.extendTo offset) regions
  | _ => False

/-- The pieces of a split are of no bytes, or do not end behind the last word; a pattern of null
bytes, of two bytes a piece, can be allocated. -/
def Split.InRange (m : Split) (regions : List SelRegion) : Action → Prop
  | .width width => usizeMul width m.countState.toCount = 0 ∨
    ∀ r ∈ regions, WidthFits (usizeMul width m.countState.toCount) r
  | .null => m.countState.toCount < 2 ^ 62
  | .search _ => True

instance (m : Split) (regions : List SelRegion) (action : Split.Action) :
    Decidable (m.InRange regions action) :=
  match action with
  | .width _ => inferInstanceAs (Decidable (_ ∨ ∀ r ∈ regions, _))
  | .null => inferInstanceAs (Decidable (_ < _))
  | .search _ => inferInstanceAs (Decidable True)

/-- The keys of split mode that panic: pieces of no bytes, and a search that does. -/
def Split.Panics (E : SearchEngine) (m : Split) (b : CurrentBuffer X) : Action → Prop
  | .width width => usizeMul width m.countState.toCount = 0
  | .null => (SearchAcceptor.split m).Panics E
      { pieces := List.replicate m.countState.toCount (.literal 0) } b
  | .search _ => False

/-- The keys of an insertion mode that panic: edits that join regions which point different
ways, also those that finish half a byte. -/
def Insert.Panics (m : Insert) (evt : Event) (b : CurrentBuffer X) : Prop :=
  match defaultMaps.eventToAction evt with
  | some .removeLast => b.data ≠ [] ∧ EditKey.Clashes m b.selection.regions .backspace
  | some .removeThis => b.data ≠ [] ∧ EditKey.Clashes m b.selection.regions .delete
  | some (.move _) =>
    m.hexHalf.isSome = true ∧ ClashOn DeleteJoins DeleteOpposed b.selection.regions
  | some _ => False
  | none =>
    match evt with
    | .key { code := .char c, modifiers } =>
      modifiers.withoutShift.isEmpty = true ∧ EditKey.Clashes m b.selection.regions (.char c)
    | _ => False

/-- The modes that work on the current buffer alone: all but the command prompt, whose keys are
not those of a session, and `Quitting`, which takes none. -/
def Mode.WorksOnBuffer : Mode → Prop
  | .command _ | .quitting => False
  | .normal _ | .jumpTo _ | .split _ | .search _ | .insert _ | .replace _ => True

instance (mode : Mode) : Decidable mode.WorksOnBuffer :=
  match mode with
  | .command _ | .quitting => inferInstanceAs (Decidable False)
  | .normal _ | .jumpTo _ | .split _ | .search _ | .insert _ | .replace _ =>
    inferInstanceAs (Decidable True)

/-- What the key asks for is in range. -/
def Mode.InRange (mode : Mode) (evt : Event) (b : CurrentBuffer X) (bytesPerLine : Nat) : Prop :=
  match mode with
  | .normal m => m.countState.transition evt = none →
    ∀ action ∈ Normal.defaultMaps.eventToAction evt, m.InRange b bytesPerLine action
  | .split m => m.countState.transition evt = none →
    ∀ action ∈ Split.defaultMaps.eventToAction evt, m.InRange b.selection.regions action
  | .jumpTo _ | .search _ | .insert _ | .replace _ | .command _ | .quitting => True

instance (mode : Mode) (evt : Event) (b : CurrentBuffer X) (bytesPerLine : Nat) :
    Decidable (mode.InRange evt b bytesPerLine) :=
  match mode with
  | .normal _ | .split _ => inferInstanceAs (Decidable (_ → ∀ action ∈ _, _))
  | .jumpTo _ | .search _ | .insert _ | .replace _ | .command _ | .quitting =>
    inferInstanceAs (Decidable True)

/-- The key does not remove a region by its number where the index of the main region would have
to follow. -/
def Mode.KeepsMain (mode : Mode) (evt : Event) (sel : Selection) : Prop :=
  match mode with
  | .normal m => m.countState.transition evt = none →
    ∀ action ∈ Normal.defaultMaps.eventToAction evt, m.KeepsMain sel action
  | .jumpTo _ | .split _ | .search _ | .insert _ | .replace _ | .command _ | .quitting => True

instance (mode : Mode) (evt : Event) (sel : Selection) : Decidable (mode.KeepsMain evt sel) :=
  match mode with
  | .normal _ => inferInstanceAs (Decidable (_ → ∀ action ∈ _, _))
  | .jumpTo _ | .split _ | .search _ | .insert _ | .replace _ | .command _ | .quitting =>
    inferInstanceAs (Decidable True)

/-- The keys that panic. -/
def Mode.Panics (E : SearchEngine) (mode : Mode) (evt : Event) (b : CurrentBuffer X)
    (bytesPerLine : Nat) : Prop :=
  match mode with
  | .normal m => m.countState.transition evt = none ∧
    ∃ action ∈ Normal.defaultMaps.eventToAction evt, m.Panics b.selection.regions action
  | .jumpTo m => ∃ direction ∈ JumpTo.defaultMaps.eventToAction evt,
    RegionMap.Clashes (.boundary m direction bytesPerLine b.data.length) b.selection.regions
  | .split m => m.countState.transition evt = none ∧
    ∃ action ∈ Split.defaultMaps.eventToAction evt, m.Panics E b action
  | .search m => Search.defaultMaps.eventToAction evt = some .finish ∧ m.next.Panics E m.pattern b
  | .insert m => m.Panics evt b
  | .replace _ | .command _ | .quitting => False

/-! ## Their requests -/

/-- The edits of the insertion modes that join regions. -/
def Ops.Operation.Clashes (regions : List SelRegion) : Ops.Operation → Prop
  | .backspace => ClashOn BackspaceJoins BackspaceOpposed regions
  | .deleteCursor | .change _ => ClashOn DeleteJoins DeleteOpposed regions
  | .overwriteHalf _ => ClashOn HalfJoins HalfOpposed regions
  | .deletion | .insert _ | .paste _ _ _ | .replace _ => False

/-- The changes that panic, of those in range. -/
def Change.Panics (regions : List SelRegion) : Change → Prop
  | .region f => f.Clashes regions
  | .width step => step = 0
  | .type op _ => op.Clashes regions
  | .finish _ _ _ => ClashOn DeleteJoins DeleteOpposed regions
  | .remove _ | .retain _ | .selectNext _ | .selectPrev _ | .selectAll | .edit _ _ | .undo
  | .redo => False

/-- The requests that panic. -/
def Request.Panics (E : SearchEngine) (b : CurrentBuffer X) : Request → Prop
  | .panic => True
  | .search next pattern => next.Panics E pattern b
  | .change _ c => c.Panics b.selection.regions
  | .unhandled | .go _ _ | .leave => False

/-- A valid selection in the data. -/
def Snapshot.Good (snapshot : Snapshot) : Prop :=
  snapshot.2.Valid ∧ snapshot.2.Placed snapshot.1.length

/-- The operations that edit at once: the selected bytes are deleted or replaced, or a register is
pasted that has something in it. -/
inductive Ops.Operation.IsFinal : Ops.Operation → Prop
  | deletion : IsFinal .deletion
  | replace (ch : UInt8) : IsFinal (.replace ch)
  | paste {registerContents : List (List UInt8)} (h : registerContents ≠ []) (after : Bool)
      (count : Nat) : IsFinal (.paste registerContents after count)

/-- The operations whose edits stay pending, and those that set the carets back. -/
inductive Ops.Operation.IsTyped : Ops.Operation → Bool → Prop
  | insert (text : List UInt8) : IsTyped (.insert text) false
  | change (text : List UInt8) : IsTyped (.change text) false
  | backspace : IsTyped .backspace false
  | deleteCursor : IsTyped .deleteCursor false
  | insertHalf (top : UInt8) : IsTyped (.insert [top]) true
  | overwriteHalf (top : UInt8) : IsTyped (.overwriteHalf top) true

private theorem InsertionMode.isTyped_writes (mode : InsertionMode) (text : List UInt8) :
    (mode.writes text).IsTyped false := by
  cases mode with
  | insert | append => exact .insert text
  | overwrite => exact .change text

private theorem InsertionMode.isTyped_writesHalf (mode : InsertionMode) (top : UInt8) :
    (mode.writesHalf top).IsTyped true := by
  cases mode with
  | insert | append => exact .insertHalf top
  | overwrite => exact .overwriteHalf top

/-- What keeps a change from panicking in another way. -/
def Change.InRange (b : CurrentBuffer X) : Change → Prop
  | .region f => f.InRange b.data.length
  | .width step => step = 0 ∨ ∀ r ∈ b.selection.regions, Split.WidthFits step r
  | .remove index => ¬ b.selection.Shifts (index % b.selection.len)
  | .edit _ op => op.IsFinal
  | .type op back => op.IsTyped back
  | .finish _ _ bytesPerLine => 1 ≤ bytesPerLine ∧ bytesPerLine < 2 ^ 61
  | .undo => ∃ p, b.performUndo = some p ∧ Snapshot.Good p.1.snapshot
  | .redo => ∃ p, b.performRedo = some p ∧ Snapshot.Good p.1.snapshot
  | .retain _ | .selectNext _ | .selectPrev _ | .selectAll => True

section Requests

variable {b : CurrentBuffer X} {bytesPerLine : Nat} (hv : b.selection.Valid)
  (hp : b.selection.Placed b.data.length) (hn : b.data.length < 2 ^ 61)
include hv hp hn

omit hv in
/-- A byte at each caret adds no more bytes than there are regions. -/
theorem CurrentBuffer.length_of_change {byte : UInt8} {b' : CurrentBuffer X}
    (h : ((Ops.change X b.data b.selection [byte]).bind b.applyIncompleteDelta).map Prod.fst =
      some b') : b'.data.length ≤ 2 * b.data.length + 1 := by
  rw [Ops.change_eq hp.inBounds (by omega)] at h
  obtain ⟨d, hd, hm⟩ := Ops.exists_delta (X := X) hp (fun r hr ↦ Ops.fits_changeEdit hr _)
    (Ops.follow_changeEdit fun _ ↦ [byte])
  have hbound := Splice.transform_le_add _ _ 0 b.data.length hm.sorted hm.within
  have hsum : ((b.selection.regions.filterMap (Ops.changeEdit fun _ ↦ [byte])).map
      fun e ↦ e.text.length).sum ≤ b.selection.regions.length :=
    sum_text_le fun r _ ↦ ⟨_, rfl, rfl, rfl⟩
  have hcount := hp.length_le
  rw [hd, Option.bind_some, applyIncompleteDelta, map_fst_applyWith] at h
  obtain ⟨sel, -, rfl⟩ := Option.map_eq_some_iff.mp h
  have hlen : (X.apply d b.data).length = _ := hm.length_apply rfl
  show (X.apply d b.data).length ≤ _
  omega

/-- Moving away from half a byte panics where finishing it does: the carets are moved in a buffer
that a byte may have been added to at each of them. -/
theorem CurrentBuffer.finish_safe (hb : 1 ≤ bytesPerLine) (hb' : bytesPerLine < 2 ^ 61)
    (half : UInt8) (direction : Direction) :
    SafeUnless (ClashOn DeleteJoins DeleteOpposed b.selection.regions)
      ((Change.finish half direction bytesPerLine).run b) := by
  have hchange := CurrentBuffer.change_safe hv hp (by omega) [half ||| 0]
  simp only [Change.run]
  cases hr : ((Ops.change X b.data b.selection [half ||| 0]).bind
      b.applyIncompleteDelta).map Prod.fst with
  | none => exact ⟨iff_of_true rfl (hchange.eq_none_iff.mp hr), fun b' hb' ↦ by cases hb'⟩
  | some b₁ =>
    obtain ⟨hv₁, hp₁⟩ := hchange.placed b₁ hr
    have hlen := CurrentBuffer.length_of_change hp hn hr
    have hclash : ¬ ClashOn DeleteJoins DeleteOpposed b.selection.regions := fun hc ↦ by
      rw [hchange.eq_none_iff.mpr hc] at hr
      cases hr
    have hmoves := CurrentBuffer.region_safe hv₁ hp₁ (by omega)
      (f := .insertMove direction bytesPerLine b₁.data.length true) ⟨rfl, hb, by omega⟩
    exact ⟨hmoves.eq_none_iff.trans (iff_of_false id hclash), hmoves.placed⟩

/-- A change in range panics exactly in the cases above. -/
theorem Change.safe {c : Change} (hc : c.InRange b) :
    SafeUnless (c.Panics b.selection.regions) (c.run b) := by
  have hword : b.data.length < 2 ^ 62 := by omega
  cases c with
  | region f => exact CurrentBuffer.region_safe hv hp (by omega) hc
  | width step => exact CurrentBuffer.width_safe hv hp hc
  | remove index => exact CurrentBuffer.removeSelection_safe hv hp hc
  | retain index => exact CurrentBuffer.retainSelection_safe hv hp index
  | selectNext count =>
    obtain ⟨sel, hsel, hs, -⟩ := hv.exists_selectNext count
    have hsafe : SafeUnless False (b.selectNext count) :=
      CurrentBuffer.switchMainSel_safe hv hp hsel hs
    exact hsafe
  | selectPrev count =>
    obtain ⟨sel, hsel, hs, -⟩ := hv.exists_selectPrev count
    have hsafe : SafeUnless False (b.selectPrev count) :=
      CurrentBuffer.switchMainSel_safe hv hp hsel hs
    exact hsafe
  | selectAll =>
    refine ⟨by simp [run, Panics], fun b' hb' ↦ ?_⟩
    obtain rfl := Option.some.inj hb'
    have hvalid := b.selection.valid_selectAll b.data.length
    exact ⟨hvalid, hvalid.sorted, b.selection.inBounds_selectAll _⟩
  | edit registers op =>
    cases hc with
    | deletion => exact CurrentBuffer.deletion_safe (b := { b with registers }) hv hp hword
    | replace ch => exact CurrentBuffer.replace_safe (b := { b with registers }) hv hp hword ch
    | paste hne after count =>
      exact CurrentBuffer.paste_safe (b := { b with registers }) hv hp hword hne after count
  | type op back =>
    cases hc with
    | insert text => exact CurrentBuffer.insert_safe hv hp text
    | change text => exact CurrentBuffer.change_safe hv hp hword text
    | backspace => exact CurrentBuffer.backspace_safe hv hp
    | deleteCursor => exact CurrentBuffer.deleteCursor_safe hv hp hword
    | insertHalf top => exact CurrentBuffer.insertHalf_safe hv hp hword top
    | overwriteHalf top => exact CurrentBuffer.overwriteHalf_safe hv hp hword top
  | finish half direction bytesPerLine =>
    exact CurrentBuffer.finish_safe hv hp hn hc.1 hc.2 half direction
  | undo | redo =>
    obtain ⟨p, hstep, hgood⟩ := hc
    rw [run, hstep]
    refine ⟨by simp [Panics], fun b' hb' ↦ ?_⟩
    obtain rfl := Option.some.inj hb'
    exact hgood

/-- So does a search. -/
theorem SearchAcceptor.safe_applySearch (E : SearchEngine) (next : SearchAcceptor)
    (pattern : Pattern) :
    OutcomeSafe (next.Panics E pattern b) (next.applySearch E pattern b) := by
  by_cases hpieces : pattern.pieces = []
  · have hkeep : next.applySearch E pattern b = Outcome.keep b (.newMode (.normal .new)) := by
      cases next <;> simp only [applySearch, Split.applySearch, collapseSearch, if_pos hpieces]
    rw [hkeep]
    refine ⟨iff_of_false (by simp [Outcome.keep]) fun h ↦ h.1 hpieces, fun t b' h ↦ ?_⟩
    obtain ⟨-, rfl⟩ := Outcome.of_keep h
    exact ⟨hv, hp⟩
  · obtain ⟨hnone, hsome⟩ := applySearch_spec E next hpieces hv hp (by omega)
    refine ⟨hnone.trans ⟨fun h ↦ ⟨hpieces, h⟩, fun h ↦ h.2⟩, fun t b' h ↦ ?_⟩
    obtain ⟨t', b'', heq, hplaced⟩ := hsome _ h
    obtain ⟨-, rfl⟩ := Prod.mk.inj (Option.some.inj heq)
    exact hplaced

/-- A request panics exactly in the cases above, if the change it asks for is in range. -/
theorem Request.safe (E : SearchEngine) {r : Request}
    (hr : ∀ new c, r = .change new c → c.InRange b) :
    OutcomeSafe (r.Panics E b) (r.run E b) := by
  have hkeep (b₁ : CurrentBuffer X) (t : ModeTransition) (hv : b₁.selection.Valid)
      (hp : b₁.selection.Placed b₁.data.length) : OutcomeSafe False (Outcome.keep b₁ t) := by
    refine ⟨by simp [Outcome.keep], fun t' b' h ↦ ?_⟩
    obtain ⟨-, rfl⟩ := Outcome.of_keep h
    exact ⟨hv, hp⟩
  cases r with
  | panic => exact ⟨iff_of_true rfl trivial, fun t b' h ↦ by cases h⟩
  | unhandled => exact outcomeSafe_unhandled
  | go registers t => exact hkeep { b with registers } t hv hp
  | leave => exact hkeep b.commitDelta _ hv hp
  | search next pattern => exact next.safe_applySearch hv hp hn E pattern
  | change mode c =>
    have hsafe := c.safe hv hp hn (hr _ _ rfl)
    cases mode with
    | none => exact hsafe.dirty
    | some mode => exact hsafe.modeAndDirty mode

end Requests

/-! ## The keys that ask for them -/

/-- The cursor of a search prompt is in its pattern. -/
def Mode.Formed : Mode → Prop
  | .search m => m.WellFormed
  | _ => True

/-- An event panics exactly in one case, and leaves a valid selection in the data and a mode in
order otherwise. -/
structure HandledUnless (mode : Mode) (panics : Prop) (o : Outcome X) : Prop
    extends OutcomeSafe panics o where
  formed : ∀ t b', o = some (some (t, b')) → (t.mode mode).Formed

namespace Mode.Asks

variable {E : SearchEngine} {b : CurrentBuffer X} {mode : Mode} {evt : KeyEvent}
  {bytesPerLine : Nat} {r : Request}

/-- The keys that panic are those whose requests do. -/
theorem panics_iff (h : mode.Asks b bytesPerLine (.key evt) r) (hr : r ≠ .panic) :
    mode.Panics E (.key evt) b bytesPerLine ↔ r.Panics E b := by
  cases h with
  | normal hc hkey h =>
    cases h with
    | yankFails | measureFails => exact absurd rfl hr
    | extendToMode hcount | extendTo hcount =>
      simp only [Mode.Panics, hc, hkey, true_and, Option.mem_some_iff, exists_eq_left',
        Normal.Panics, Request.Panics, Change.Panics]
      rw [hcount]
    | _ => simp [Mode.Panics, hc, hkey, Normal.Panics, Request.Panics, Change.Panics,
        RegionMap.Clashes]
  | insert h =>
    cases h with
    | removeNothing hkey ha hd =>
      rcases ha with rfl | rfl <;> simp [Mode.Panics, Insert.Panics, hkey, hd, Request.Panics]
    | removeHalf hkey ha hd hh =>
      rcases ha with rfl | rfl <;>
        simp [Mode.Panics, Insert.Panics, hkey, hd, hh, EditKey.Clashes, Request.Panics,
          Change.Panics, Ops.Operation.Clashes]
    | removeLast hkey hd hh | removeThis hkey hd hh =>
      simp [Mode.Panics, Insert.Panics, hkey, hd, hh, EditKey.Clashes, Request.Panics,
        Change.Panics, Ops.Operation.Clashes]
    | move hkey hh | finish hkey hh =>
      simp [Mode.Panics, Insert.Panics, hkey, hh, Request.Panics, Change.Panics,
        RegionMap.Clashes]
    | secondDigit hkey hmod hx hd hh =>
      simp [Mode.Panics, Insert.Panics, hkey, hmod, hx, hd, hh, EditKey.Clashes, Request.Panics,
        Change.Panics, Ops.Operation.Clashes]
    | firstDigit hkey hmod hx hd hh =>
      rename_i m _ _ _
      cases hm : m.mode <;>
        simp [Mode.Panics, Insert.Panics, hkey, hmod, hx, hd, hh, hm, EditKey.Clashes,
          InsertionMode.writesHalf, Request.Panics, Change.Panics, Ops.Operation.Clashes]
    | char hkey hmod hx =>
      rename_i m _ _
      cases hm : m.mode <;>
        simp [Mode.Panics, Insert.Panics, hkey, hmod, hx, hm, EditKey.Clashes,
          InsertionMode.writes, Request.Panics, Change.Panics, Ops.Operation.Clashes]
    | ignored hkey hignored =>
      refine iff_of_false (fun hpanics ↦ ?_) id
      simp only [Mode.Panics, Insert.Panics, hkey] at hpanics
      split at hpanics
      · next key modifiers heq =>
        obtain ⟨hmod, hclash⟩ := hpanics
        obtain ⟨hx, hd⟩ := hignored key modifiers heq hmod
        simp [EditKey.Clashes, hx, hd] at hclash
      · exact hpanics
    | exit hkey | switchInputMode hkey | insertNull hkey =>
      simp [Mode.Panics, Insert.Panics, hkey, Request.Panics, Change.Panics,
        Ops.Operation.Clashes]
  | jump hkey => simp [Mode.Panics, hkey, Request.Panics, Change.Panics]
  | splitWidth hc hkey | splitNull hc hkey | splitSearch hc hkey =>
    simp [Mode.Panics, hc, hkey, Split.Panics, Request.Panics, Change.Panics]
  | count hc | splitCount hc => simp [Mode.Panics, hc, Request.Panics]
  | normalIgnored hc hkey | splitLeft hc hkey | splitIgnored hc hkey =>
    simp [Mode.Panics, hkey, Request.Panics]
  | jumpLeft hkey | jumpIgnored hkey => simp [Mode.Panics, hkey, Request.Panics]
  | find hkey | prompt hkey | promptKept hkey | promptLeft hkey | promptIgnored hkey =>
    simp [Mode.Panics, hkey, Request.Panics]
  | promptFails => exact absurd rfl hr
  | replace | replaceHalf | replaceLeft | replaceIgnored | command =>
    simp [Mode.Panics, Request.Panics, Change.Panics]
  | quitting => exact absurd rfl hr

/-- A key in range asks for a change in range. -/
theorem inRange {new : Option Mode} {c : Change}
    (h : mode.Asks b bytesPerLine (.key evt) (.change new c)) (hv : b.selection.Valid)
    (hn : b.data.length < 2 ^ 61) (hb : 1 ≤ bytesPerLine) (hb' : bytesPerLine < 2 ^ 61)
    (hr : mode.InRange (.key evt) b bytesPerLine)
    (hkeeps : mode.KeepsMain (.key evt) b.selection)
    (hregisters : ∀ register ∈ b.registers, register.2 ≠ [])
    (hundo : mode.isInsert = false →
      (∀ b', b.performUndo.map Prod.fst = some b' → Snapshot.Good b'.snapshot) ∧
        ∀ b', b.performRedo.map Prod.fst = some b' → Snapshot.Good b'.snapshot) :
    c.InRange b := by
  have hmain : b.selection.mainSelection % b.selection.len = b.selection.mainSelection :=
    Nat.mod_eq_of_lt hv.main_lt
  cases h with
  | normal hc hkey h =>
    have hr := hr hc _ hkey
    cases h with
    | jumpTo hcount | extendTo hcount =>
      simpa [Normal.InRange, hcount, CmdCount.State.toCount, Change.InRange, RegionMap.InRange]
        using hr
    | move | extend => exact ⟨rfl, hb, by omega, hr⟩
    | append => exact ⟨rfl, hb, by omega⟩
    | insert | swapCaret | collapseSelection => trivial
    | delete | change => exact .deletion
    | paste =>
      rename_i after register
      refine .paste ?_ after _
      cases hl : b.registers.lookup register with
      | none => exact List.cons_ne_nil _ _
      | some texts =>
        obtain ⟨before, after, hsplit, -⟩ := List.lookup_eq_some_iff.mp hl
        exact hregisters (register, texts) (by simp [hsplit])
    | removeMain => exact fun hs ↦ Nat.lt_irrefl _ (hmain ▸ hs.1)
    | removeNth hindex => exact hkeeps hc _ hkey rfl _ hindex
    | undo hu =>
      exact ⟨_, hu, (hundo rfl).1 _ (congrArg (Option.map Prod.fst) hu)⟩
    | redo hu =>
      exact ⟨_, hu, (hundo rfl).2 _ (congrArg (Option.map Prod.fst) hu)⟩
    | retainMain | retainNth | selectNext | selectPrev | selectAll => trivial
  | insert h =>
    cases h with
    | insertNull => exact .insert _
    | removeHalf | removeThis => exact .deleteCursor
    | removeLast => exact .backspace
    | move => exact ⟨rfl, hb, by omega⟩
    | finish => exact ⟨hb, hb'⟩
    | secondDigit => exact .change _
    | firstDigit => exact InsertionMode.isTyped_writesHalf _ _
    | char => exact InsertionMode.isTyped_writes _ _
  | jump => exact ⟨rfl, by omega⟩
  | splitWidth hc hkey => exact hr hc _ hkey
  | replace ch => exact .replace ch

/-- Nothing else panics. -/
theorem ne_panic (h : mode.Asks b bytesPerLine (.key evt) r)
    (hrun : mode.onBuffer E (.key evt) b bytesPerLine = r.run E b) (hv : b.selection.Valid)
    (hp : b.selection.Placed b.data.length) (hn : b.data.length < 2 ^ 61)
    (hworks : mode.WorksOnBuffer) (hm : mode.Formed) : r ≠ .panic := by
  rintro rfl
  cases h with
  | normal _ _ h =>
    cases h with
    | yankFails hy =>
      obtain ⟨registers, hyank⟩ := CurrentBuffer.exists_yankSelections hp (by omega) _
      rw [hyank] at hy
      cases hy
    | measureFails hmain =>
      rw [Selection.main, List.getElem?_eq_getElem hv.main_lt] at hmain
      cases hmain
  | insert h => cases h
  | promptFails hkey => exact hkey (Search.WellFormed.of_transition_eq_none hm hrun).1
  | quitting => exact hworks

/-- The mode behind a key is in order. -/
theorem formed {b' : CurrentBuffer X} {t : ModeTransition}
    (h : mode.Asks b bytesPerLine (.key evt) r)
    (ht : mode.onBuffer E (.key evt) b bytesPerLine = some (some (t, b')))
    (hnext : t.mode mode = r.next mode) (hm : mode.Formed) : (t.mode mode).Formed := by
  cases hmode : t.mode mode with
  | search m' =>
    rw [hmode] at hnext
    cases h with
    | normal _ _ h =>
      cases h with
      | collapseMode =>
        obtain ⟨rfl⟩ := hnext
        exact Search.wellFormed_new _ _
      | _ => cases hnext
    | splitSearch =>
      obtain ⟨rfl⟩ := hnext
      exact Search.wellFormed_new _ _
    | find | prompt | promptKept | promptLeft | promptFails | promptIgnored =>
      exact (Search.WellFormed.of_transition hm ht hmode).wellFormed
    | insert h => cases h <;> cases hnext
    | _ => cases hnext
  | normal | jumpTo | split | insert | replace | command | quitting => trivial

end Mode.Asks

/-! ## Sessions -/

section Sessions

variable {b : CurrentBuffer X} {mode : Mode} {bytesPerLine : Nat}

/-- Undo and redo bring back what the history went through. -/
theorem Follows.good_steps {t : Timeline Snapshot} (h : Follows b t)
    (hpast : ∀ s ∈ t.past, Snapshot.Good s) (hfuture : ∀ s ∈ t.future, Snapshot.Good s)
    (hpresent : Snapshot.Good t.present) :
    (∀ b', b.performUndo.map Prod.fst = some b' → Snapshot.Good b'.snapshot) ∧
      ∀ b', b.performRedo.map Prod.fst = some b' → Snapshot.Good b'.snapshot := by
  constructor
  · intro b' hb'
    have hstep : b.undoStep = b' := by rw [CurrentBuffer.undoStep, hb', Option.getD_some]
    rw [← hstep, ← h.undoStep.present, Timeline.undo]
    split
    · exact hpresent
    · next s past heq => exact hpast s (by simp [heq])
  · intro b' hb'
    have hstep : b.redoStep = b' := by rw [CurrentBuffer.redoStep, hb', Option.getD_some]
    rw [← hstep, ← h.redoStep.present, Timeline.redo]
    split
    · exact hpresent
    · next s future heq => exact hfuture s (by simp [heq])

/-- An event panics exactly in the cases above. -/
theorem Mode.handledUnless_onBuffer (E : SearchEngine) {evt : KeyEvent} (hv : b.selection.Valid)
    (hp : b.selection.Placed b.data.length) (hn : b.data.length < 2 ^ 61)
    (hb : 1 ≤ bytesPerLine) (hb' : bytesPerLine < 2 ^ 61)
    (hworks : mode.WorksOnBuffer) (hr : mode.InRange (.key evt) b bytesPerLine)
    (hkeeps : mode.KeepsMain (.key evt) b.selection) (hm : mode.Formed)
    (hregisters : ∀ register ∈ b.registers, register.2 ≠ [])
    (hundo : mode.isInsert = false →
      (∀ b', b.performUndo.map Prod.fst = some b' → Snapshot.Good b'.snapshot) ∧
        ∀ b', b.performRedo.map Prod.fst = some b' → Snapshot.Good b'.snapshot) :
    HandledUnless mode (mode.Panics E (.key evt) b bytesPerLine)
      (mode.onBuffer E (.key evt) b bytesPerLine) := by
  obtain ⟨r, hasks, hrun⟩ := mode.exists_asks E (.key evt) b bytesPerLine
  have hpanic := hasks.ne_panic hrun hv hp hn hworks hm
  have hsafe : OutcomeSafe (r.Panics E b) (r.run E b) := by
    refine Request.safe hv hp hn E fun new c hc ↦ ?_
    subst hc
    exact hasks.inRange hv hn hb hb' hr hkeeps hregisters hundo
  rw [← hrun] at hsafe
  refine ⟨⟨hsafe.eq_none_iff.trans (hasks.panics_iff hpanic).symm, hsafe.placed⟩, ?_⟩
  intro t b' ht
  exact hasks.formed ht (Request.mode_of_run (hrun ▸ ht) mode) hm

end Sessions

namespace Session

variable {E : SearchEngine} {bytesPerLine : Nat} {evt : KeyEvent} {s s' : Session X}
  {keys : List KeyEvent}

/-- The buffer is far from the end of the word, and the key is in range. -/
def InRange (bytesPerLine : Nat) (evt : KeyEvent) (s : Session X) : Prop :=
  s.buffer.data.length < 2 ^ 61 ∧ s.mode.InRange (.key evt) s.buffer bytesPerLine

instance (bytesPerLine : Nat) (evt : KeyEvent) (s : Session X) :
    Decidable (s.InRange bytesPerLine evt) :=
  inferInstanceAs (Decidable (_ ∧ _))

/-- The key is pressed outside the command prompt, is in range, and removes no region in front of
the main one by its number. -/
def Considered (bytesPerLine : Nat) (evt : KeyEvent) (s : Session X) : Prop :=
  s.mode.WorksOnBuffer ∧ s.InRange bytesPerLine evt ∧
    s.mode.KeepsMain (.key evt) s.buffer.selection

instance (bytesPerLine : Nat) (evt : KeyEvent) (s : Session X) :
    Decidable (s.Considered bytesPerLine evt) :=
  inferInstanceAs (Decidable (_ ∧ _ ∧ _))

/-- The key is one that panics. -/
def Panics (E : SearchEngine) (bytesPerLine : Nat) (evt : KeyEvent) (s : Session X) : Prop :=
  s.mode.Panics E (.key evt) s.buffer bytesPerLine

/-- What every key keeps. -/
structure Safe (s : Session X) : Prop where
  valid : s.buffer.selection.Valid
  placed : s.buffer.selection.Placed s.buffer.data.length
  formed : s.mode.Formed
  registers : ∀ register ∈ s.buffer.registers, register.2 ≠ []
  history : ∃ d, s.Tracked d ∧ d.All Snapshot.Good

private theorem Safe.settles (h : s.Safe) (E : SearchEngine) (hb : 1 ≤ bytesPerLine)
    (hb' : bytesPerLine < 2 ^ 61) (hr : s.Considered bytesPerLine evt) :
    HandledUnless s.mode (s.Panics E bytesPerLine evt)
      (s.mode.onBuffer E (.key evt) s.buffer bytesPerLine) := by
  obtain ⟨hworks, ⟨hn, hr⟩, hkeeps⟩ := hr
  refine Mode.handledUnless_onBuffer E h.valid h.placed hn hb hb' hworks hr hkeeps h.formed
    h.registers fun hm ↦ ?_
  obtain ⟨d, ht, hd⟩ := h.history
  have hfollows : Follows s.buffer d.timeline := by
    refine (ht.tracks.resolve_right fun ⟨hsome, _⟩ ↦ ?_).2
    have := ht.inserting (by rw [hsome]; rfl)
    rw [hm] at this
    cases this
  exact hfollows.good_steps hd.past hd.future hd.present

/-- A key that no mode handles does not panic. -/
theorem Safe.exists_pressDefault (h : s.Safe) (hb : 1 ≤ bytesPerLine)
    (hb' : bytesPerLine < 2 ^ 61) (hn : s.buffer.data.length < 2 ^ 61) (evt : KeyEvent) :
    ∃ s', s.pressDefault bytesPerLine evt = some s' ∧ Snapshot.Good s'.buffer.snapshot := by
  unfold Session.pressDefault
  split
  · exact ⟨s, rfl, h.valid, h.placed⟩
  · next direction _ =>
    have hsafe : SafeUnless False (s.buffer.mapSelections (pureClosure fun region ↦
        [region.simpleMove direction bytesPerLine s.buffer.data.length 1]) ()) :=
      CurrentBuffer.region_safe h.valid h.placed (by omega)
        (f := .move direction bytesPerLine s.buffer.data.length 1)
        ⟨rfl, hb, by omega, by omega⟩
    obtain ⟨b', hb'⟩ := Option.ne_none_iff_exists'.mp fun hnone ↦ hsafe.eq_none_iff.mp hnone
    obtain ⟨r, hr, rfl⟩ := Option.map_eq_some_iff.mp hb'
    rw [hr]
    exact ⟨_, rfl, hsafe.placed r.1 hb'⟩

/-- Keys write to the registers what is selected, or nothing. -/
theorem yanks_of_press (hs : s.Sound) (h : s.press E bytesPerLine evt = some s') :
    Yanks s.buffer s'.buffer.registers := by
  obtain ⟨outcome, ho, h⟩ := Option.bind_eq_some_iff.mp h
  match outcome, ho, h with
  | some (t, b'), ho, h =>
    obtain rfl := Option.some.inj h
    rcases (Mode.handled_of_onBuffer hs.1 hs.2 ho).does with
      hleft | ⟨-, heffect⟩
    · have hregisters : b'.registers = _ := congrArg CurrentBuffer.registers hleft.commits
      exact .inl hregisters
    · exact heffect.yanks
  | none, ho, h =>
    obtain ⟨selection, rfl⟩ := exists_of_pressDefault h
    exact .inl rfl

/-- What is to be shown of a key, besides the history and the registers. -/
theorem Safe.of_press (h : s.Safe) (hn : s.buffer.data.length < 2 ^ 61)
    (hpress : s.press E bytesPerLine evt = some s') (hgood : Snapshot.Good s'.buffer.snapshot)
    (hformed : s'.mode.Formed) : s'.Safe := by
  have hs : s.Sound := ⟨by omega, h.placed⟩
  refine ⟨hgood.1, hgood.2, hformed, fun register hregister ↦ ?_, ?_⟩
  · rcases yanks_of_press hs hpress with heq | ⟨name, texts, heq, hlen⟩
    · exact h.registers register (heq ▸ hregister)
    · rw [heq] at hregister
      rcases List.mem_cons.mp hregister with rfl | hold
      · have hpos : 0 < s.buffer.selection.len := List.length_pos_iff.mpr h.valid.nonempty
        exact List.length_pos_iff.mp (hlen ▸ hpos)
      · exact h.registers register hold
  · obtain ⟨d, ht, hd⟩ := h.history
    obtain ⟨d', ht', ⟨hstep, -⟩ | ⟨-, -, rfl⟩⟩ := ht.press hs hpress
    · refine ⟨d', ht', hd.step (fun hm ↦ ?_) hstep (ht'.tracks.now ▸ hgood)⟩
      by_contra hsome
      have := ht.inserting (Option.isSome_iff_ne_none.mpr hsome)
      rw [hm] at this
      cases this
    · exact ⟨_, ht', hd.commit⟩

/-- A key panics exactly where it is said to, and keeps what keeps the others from panicking. -/
theorem Safe.press (h : s.Safe) (E : SearchEngine) (hb : 1 ≤ bytesPerLine)
    (hb' : bytesPerLine < 2 ^ 61) (hr : s.Considered bytesPerLine evt) :
    (s.press E bytesPerLine evt = none ↔ s.Panics E bytesPerLine evt) ∧
      ∀ s', s.press E bytesPerLine evt = some s' → s'.Safe := by
  have hsettles := h.settles E hb hb' hr
  have hn := hr.2.1.1
  match ho : s.mode.onBuffer E (.key evt) s.buffer bytesPerLine with
  | none =>
    have hnone : s.press E bytesPerLine evt = none := by
      simp only [Session.press, ho, Option.bind_eq_bind, Option.bind_none]
    exact ⟨iff_of_true hnone (hsettles.eq_none_iff.mp ho),
      fun s' hs' ↦ by rw [hnone] at hs'; cases hs'⟩
  | some none =>
    have heq : s.press E bytesPerLine evt = s.pressDefault bytesPerLine evt := by
      simp only [Session.press, ho, Option.bind_eq_bind, Option.bind_some]
    obtain ⟨s₁, hs₁, hgood⟩ := h.exists_pressDefault hb hb' hn evt
    have hpanics : ¬ s.Panics E bytesPerLine evt := fun hc ↦ by
      rw [hsettles.eq_none_iff.mpr hc] at ho
      cases ho
    refine ⟨iff_of_false (by rw [heq, hs₁]; simp) hpanics, fun s' hs' ↦ ?_⟩
    have hsame : s' = s₁ := Option.some.inj (hs'.symm.trans (heq.trans hs₁))
    obtain ⟨selection, hselection⟩ := exists_of_pressDefault hs₁
    refine h.of_press hn hs' (hsame ▸ hgood) ?_
    rw [hsame, hselection]
    exact h.formed
  | some (some (t, b')) =>
    have heq : s.press E bytesPerLine evt = some { mode := t.mode s.mode, buffer := b' } := by
      simp only [Session.press, ho, Option.bind_eq_bind, Option.bind_some]
    have hpanics : ¬ s.Panics E bytesPerLine evt := fun hc ↦ by
      rw [hsettles.eq_none_iff.mpr hc] at ho
      cases ho
    refine ⟨iff_of_false (by rw [heq]; simp) hpanics, fun s' hs' ↦ ?_⟩
    obtain rfl := Option.some.inj (heq.symm.trans hs')
    exact h.of_press hn heq (hsettles.placed t b' ho) (hsettles.formed t b' ho)

private theorem safe_opened (data : List UInt8) (path : Option Path) :
    (opened data path : Session X).Safe := by
  have hvalid : Selection.new.Valid := by decide
  have hgood : Snapshot.Good (data, Selection.new) := by
    refine ⟨hvalid, hvalid.sorted, fun r hr ↦ ?_⟩
    obtain rfl := List.mem_singleton.mp hr
    exact ⟨Nat.zero_le _, Nat.zero_le _⟩
  exact ⟨hgood.1, hgood.2, trivial, (fun _ h ↦ by cases h), _, tracked_opened data path,
    Draft.all_start hgood⟩

/-- Keys are all handled when none of them is one that panics. -/
theorem Safe.isSome_run_iff (h : s.Safe) (E : SearchEngine) (hb : 1 ≤ bytesPerLine)
    (hb' : bytesPerLine < 2 ^ 61)
    (hr : Along (Session.press E bytesPerLine) (Considered bytesPerLine) keys s) :
    (runSteps (Session.press E bytesPerLine) keys s).isSome ↔
      Along (Session.press E bytesPerLine) (fun evt s ↦ ¬ s.Panics E bytesPerLine evt) keys s := by
  induction keys generalizing s with
  | nil => exact iff_of_true rfl trivial
  | cons key keys ih =>
    obtain ⟨hiff, hsafe⟩ := h.press E hb hb' hr.1
    rw [runSteps_cons]
    cases hs : s.press E bytesPerLine key with
    | none => exact iff_of_false (by simp) fun hc ↦ hc.1 (hiff.mp hs)
    | some s₁ =>
      rw [Option.bind_some, ih (hsafe s₁ hs) (hr.2 s₁ hs)]
      refine ⟨fun hrest ↦ ⟨fun hc ↦ ?_, fun s₂ hs₂ ↦ ?_⟩, fun hc ↦ hc.2 s₁ hs⟩
      · rw [hiff.mpr hc] at hs
        cases hs
      · obtain rfl := Option.some.inj (hs.symm.trans hs₂)
        exact hrest

/-- From a buffer just opened, keys that are in range are all handled exactly when none of them is
one that panics; up to the first of those the selection is valid and within the data. No key is
pressed at the command prompt, and none removes a region in front of the main one by its number
while others follow. -/
theorem keys_handled_iff (E : SearchEngine) (bytesPerLine : Nat) (hb : 1 ≤ bytesPerLine)
    (hb' : bytesPerLine < 2 ^ 61) (data : List UInt8) (path : Option Path) (keys : List KeyEvent)
    (hr : Along (press E bytesPerLine) (fun evt s ↦ s.mode.WorksOnBuffer ∧
      s.InRange bytesPerLine evt ∧ s.mode.KeepsMain (.key evt) s.buffer.selection) keys
      (opened (X := X) data path)) :
    ((runSteps (press E bytesPerLine) keys (opened (X := X) data path)).isSome ↔
      Along (press E bytesPerLine) (fun evt s ↦ ¬ s.Panics E bytesPerLine evt) keys
        (opened (X := X) data path)) ∧
    Always (press E bytesPerLine) (fun s ↦ s.buffer.selection.Valid ∧
      s.buffer.selection.Placed s.buffer.data.length) keys (opened (X := X) data path) := by
  refine ⟨(safe_opened data path).isSome_run_iff E hb hb' hr, ?_⟩
  have hsafe := hr.always (safe_opened data path) fun evt s s' h hr hs ↦
    (h.press E hb hb' hr).2 s' hs
  exact hsafe.imp fun s h ↦ ⟨h.valid, h.placed⟩

-- Four bytes are split into cursors, deleted, brought back and pasted; then all cursors are
-- extended to an offset between them.
private def cursorKeys : List KeyEvent :=
  [.plain (.char '%'), ⟨.char 's', { KeyModifiers.none with alt := true }⟩] ++
    ['b', 'd', 'u', 'p', 'u', '2', 'G'].map fun c ↦ .plain (.char c)

/-- The last key makes two of the cursors meet head on, and panics. -/
theorem keys_handled_cursors :
    runSteps (press .reference 16) cursorKeys
      (opened (X := XiRope.reference UInt8) [1, 2, 3, 4] none) = none ∧
    ¬ Along (press .reference 16) (fun evt s ↦ ¬ s.Panics .reference 16 evt) cursorKeys
      (opened (X := XiRope.reference UInt8) [1, 2, 3, 4] none) := by
  have hnone : runSteps (press .reference 16) cursorKeys
      (opened (X := XiRope.reference UInt8) [1, 2, 3, 4] none) = none := by
    decide
  have hiff := (keys_handled_iff (X := XiRope.reference UInt8) .reference 16 (by decide) (by decide)
    [1, 2, 3, 4] none cursorKeys (by decide)).1
  rw [hnone] at hiff
  exact ⟨hnone, fun h ↦ by simp [hiff.symm] at h⟩

end Session

end Tofu

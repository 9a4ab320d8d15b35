import Tofu.Buffer.Applicability
import Tofu.Modes.Requests

/-!
# Cursors in the buffer

Carets and tails stay within the data or just behind it along every session in which
typed offsets lie in the buffer, counts fit the signed word, and no delta is applied or
chained on data it was not made for. Undo and redo bring back old selections, so the
invariant speaks of every entry of the history too.
-/

namespace Tofu

open Rope Selection

variable {X : XiRope UInt8}

/-- The selection of the entry lies in the data its delta leads to. -/
def Restorable (p : Action X × Selection) : Prop :=
  ∀ r ∈ p.2.regions, r.InBounds (X.newDocumentLen p.1.delta)

/-- The entry that takes back an edit restores a selection of the data before it. -/
theorem Restorable.invert {d : X.Delta} {xs : List UInt8} {sel : Selection}
    (hl : xs.length = X.baseLen d) (hs : ∀ r ∈ sel.regions, r.InBounds xs.length) :
    Restorable ((Action.fromDelta d).invert xs, sel) := by
  have ht : X.Takes d xs (X.apply d xs) := ⟨hl, rfl⟩
  rw [Restorable, (Action.takes_invert ht).newDocumentLen]
  exact hs

/-- The entry of a group restores what it did before the group went on. -/
theorem Restorable.chain {d : X.Delta} {xs : List UInt8} {p : Action X × Selection}
    (h : Restorable p) (hl : xs.length = X.baseLen d) (hp : xs.length = X.baseLen p.1.delta) :
    Restorable (((Action.fromDelta d).invert xs).chain xs p.1.delta, p.2) := by
  have ht : X.Takes d xs (X.apply d xs) := ⟨hl, rfl⟩
  have hp : X.Takes p.1.delta xs (X.apply p.1.delta xs) := ⟨hp, rfl⟩
  have hc := (Action.takes_chain (Action.takes_invert ht) hp).newDocumentLen
  rw [← hp.newDocumentLen] at hc
  intro r hr
  exact hc ▸ h r hr

/-- The pending group can be chained with a delta for the data. -/
def GroupFits (b : CurrentBuffer X) : Prop :=
  ∀ p ∈ b.history.partialDelta, b.data.length = X.baseLen p.1.delta

instance (b : CurrentBuffer X) : Decidable (GroupFits b) :=
  inferInstanceAs (Decidable (∀ p ∈ b.history.partialDelta, b.data.length = X.baseLen p.1.delta))

/-- The cursors are in the buffer now, and so they are after whatever the history restores; a
group of edits may be pending. -/
structure Inside (pending : Bool) (b : CurrentBuffer X) : Prop where
  small : b.data.length < 2 ^ 63
  now : ∀ r ∈ b.selection.regions, r.InBounds b.data.length
  group : ∀ p ∈ b.history.partialDelta, pending = true ∧ Restorable p
  undoStack : ∀ p ∈ b.history.undoStack, Restorable p
  redoStack : ∀ p ∈ b.history.redoStack, Restorable p

namespace Inside

variable {pending : Bool} {b b' : CurrentBuffer X}

/-! ## What keeps the invariant -/

private theorem weaken (h : Inside false b) : Inside pending b :=
  { h with group := fun p hp ↦ absurd (h.group p hp).1 Bool.false_ne_true }

/-- A buffer without a history. -/
theorem of_isEmpty (hs : b.data.length < 2 ^ 63)
    (hn : ∀ r ∈ b.selection.regions, r.InBounds b.data.length) (he : b.history.IsEmpty) :
    Inside pending b where
  small := hs
  now := hn
  group := by simp [he.1]
  undoStack := by simp [he.2.1]
  redoStack := by simp [he.2.2]

/-- More bytes behind the data. -/
theorem append (h : Inside pending b) {chunk : List UInt8}
    (hs : (b.data ++ chunk).length < 2 ^ 63) : Inside pending { b with data := b.data ++ chunk } :=
  { h with
    small := hs
    now := fun r hr ↦ (h.now r hr).mono (List.length_append ▸ Nat.le_add_right _ _) }

/-- A new selection within the data, and whatever registers. -/
theorem select (h : Inside pending b) {sel : Selection}
    {registers : List (Char × List (List UInt8))}
    (hsel : ∀ r ∈ sel.regions, r.InBounds b.data.length) :
    Inside pending { b with selection := sel, registers } :=
  { h with now := hsel }

private theorem commit (h : Inside pending b) : Inside false b.commitDelta := by
  cases hp : b.history.partialDelta with
  | none =>
    have hc : b.commitDelta = b := by rw [CurrentBuffer.commitDelta, History.commitPartial, hp]
    rw [hc]
    exact { h with group := by simp [hp] }
  | some p =>
    have hc : b.history.commitPartial =
        { partialDelta := none, undoStack := p :: b.history.undoStack, redoStack := [] } := by
      rw [History.commitPartial, hp]
    refine ⟨h.small, h.now, ?_, ?_, ?_⟩ <;> simp only [CurrentBuffer.commitDelta, hc]
    · simp
    · exact List.forall_mem_cons.mpr ⟨(h.group p hp).2, h.undoStack⟩
    · simp

private theorem undo (h : Inside false b) (hf : TopFits b.data.length b.history.undoStack)
    {d : DirtyBytes} (hr : b.performUndo = some (b', d)) (hs : b'.data.length < 2 ^ 63) :
    Inside false b' := by
  obtain ⟨⟨⟨delta, sel⟩, history⟩, hu, hb⟩ := Option.map_eq_some_iff.mp hr
  obtain ⟨rfl, -⟩ := Prod.mk.inj hb
  obtain ⟨action, stack, hstack, rfl, rfl⟩ := History.of_undo hu
  have hl : b.data.length = X.baseLen action.delta := (hf (action, sel) (by simp [hstack])).symm
  obtain ⟨htop, hrest⟩ := List.forall_mem_cons.mp (hstack ▸ h.undoStack)
  refine ⟨hs, ?_, h.group, hrest, List.forall_mem_cons.mpr ⟨.invert hl h.now, h.redoStack⟩⟩
  exact (X.length_apply _ _ hl) ▸ htop

private theorem redo (h : Inside false b) (hf : TopFits b.data.length b.history.redoStack)
    {d : DirtyBytes} (hr : b.performRedo = some (b', d)) (hs : b'.data.length < 2 ^ 63) :
    Inside false b' := by
  obtain ⟨⟨⟨delta, sel⟩, history⟩, hu, hb⟩ := Option.map_eq_some_iff.mp hr
  obtain ⟨rfl, -⟩ := Prod.mk.inj hb
  obtain ⟨action, stack, hstack, rfl, rfl⟩ := History.of_redo hu
  have hl : b.data.length = X.baseLen action.delta := (hf (action, sel) (by simp [hstack])).symm
  obtain ⟨htop, hrest⟩ := List.forall_mem_cons.mp (hstack ▸ h.redoStack)
  refine ⟨hs, ?_, h.group, List.forall_mem_cons.mpr ⟨.invert hl h.now, h.undoStack⟩, hrest⟩
  exact (X.length_apply _ _ hl) ▸ htop

/-- An edit made by an operation, with or without the carets set back. -/
theorem edit {isFinal : Bool} (h : Inside pending b) (hp : isFinal = true → pending = false)
    (hg : GroupFits b) {op : Ops.Operation} {e : BufferEdit X}
    (hop : op.delta X b.data b.selection = some e.delta)
    (ho : e.offsets = none ∨ e.offsets = some (-1, 0)) (hr : e.run isFinal b = some b')
    (hs : b'.data.length < 2 ^ 63) : Inside (!isFinal) b' := by
  obtain ⟨es, hm⟩ := op.exists_makes h.now h.small hop
  have hfit : b.data.length = X.baseLen e.delta := hm.baseLen.symm
  have hlen : (X.apply e.delta b.data).length = X.newDocumentLen e.delta :=
    X.length_apply _ _ hfit
  rw [BufferEdit.run_eq] at hr
  obtain ⟨sel, hsel, rfl⟩ := Option.map_eq_some_iff.mp hr
  have hs : (X.apply e.delta b.data).length < 2 ^ 63 := hs
  have hnow : ∀ r ∈ sel.regions, r.InBounds (X.apply e.delta b.data).length := by
    rw [hlen] at hs ⊢
    rcases ho with ho | ho <;> rw [BufferEdit.select, ho] at hsel
    · exact inBounds_applyDelta hsel
    · exact inBounds_applyDeltaOffsetCarets hs hsel
  cases isFinal with
  | true =>
    refine ⟨hs, hnow, fun p hmem ↦ ?_, List.forall_mem_cons.mpr ⟨.invert hfit h.now, h.undoStack⟩,
      by simp [CurrentBuffer.applyDeltaToCurrentBuffer, History.performFinal]⟩
    exact absurd ((hp rfl).symm.trans (h.group p hmem).1) Bool.false_ne_true
  | false =>
    refine ⟨hs, hnow, fun p hmem ↦ ⟨rfl, ?_⟩, h.undoStack, h.redoStack⟩
    cases hb : b.history.partialDelta with
    | none =>
      obtain rfl : _ = p := by
        simpa [CurrentBuffer.applyDeltaToCurrentBuffer, History.performPartial, hb] using hmem
      exact .invert hfit h.now
    | some q =>
      obtain rfl : _ = p := by
        simpa [CurrentBuffer.applyDeltaToCurrentBuffer, History.performPartial, hb] using hmem
      exact (h.group q hb).2.chain hfit (hg q hb)

/-- Mapping a closure that stays in the buffer. -/
theorem mapSelections {σ : Type} {f : σ → SelRegion → Option (σ × List SelRegion)} {s : σ}
    (h : Inside pending b) (hr : (b.mapSelections f s).map Prod.fst = some b')
    (hf : ∀ s s' new, ∀ r ∈ b.selection.regions, f s r = some (s', new) →
      ∀ x ∈ new, x.InBounds b.data.length) : Inside pending b' := by
  rw [CurrentBuffer.map_fst_mapSelections] at hr
  obtain ⟨⟨s', sel⟩, hm, rfl⟩ := Option.map_eq_some_iff.mp hr
  exact h.select (inBounds_mapSelections hm hf)

private theorem region (h : Inside pending b) (f : RegionMap) (hf : f.StaysIn b.data.length)
    (hr : (b.mapSelections (pureClosure fun r ↦ [f.apply r]) ()).map Prod.fst = some b') :
    Inside pending b' := by
  refine h.mapSelections hr fun s s' new r hmem hnew x hx ↦ ?_
  obtain ⟨-, rfl⟩ := Prod.mk.inj (Option.some.inj hnew)
  obtain rfl := List.mem_singleton.mp hx
  exact RegionMap.inBounds_apply h.small hf (h.now r hmem)

/-- A change of the selection by itself. -/
theorem modifySelsInPlace {f : Selection → Option Selection} (h : Inside pending b)
    (hr : (b.modifySelsInPlace f).map Prod.fst = some b')
    (hf : ∀ sel, f b.selection = some sel → ∀ r ∈ sel.regions, r.InBounds b.data.length) :
    Inside pending b' := by
  obtain ⟨⟨b₁, d⟩, hm, rfl⟩ := Option.map_eq_some_iff.mp hr
  obtain ⟨sel, hsel, hm⟩ := Option.bind_eq_some_iff.mp hm
  obtain ⟨rfl, -⟩ := Prod.mk.inj (Option.some.inj hm)
  exact h.select (hf sel hsel)

private theorem switchMainSel {f : Selection → Option Selection} (h : Inside pending b)
    (hr : (b.switchMainSel f).map Prod.fst = some b')
    (hf : ∀ sel, f b.selection = some sel → ∀ r ∈ sel.regions, r.InBounds b.data.length) :
    Inside pending b' := by
  obtain ⟨⟨b₁, d⟩, hm, rfl⟩ := Option.map_eq_some_iff.mp hr
  obtain ⟨_, -, hm⟩ := Option.bind_eq_some_iff.mp hm
  obtain ⟨sel, hsel, hm⟩ := Option.bind_eq_some_iff.mp hm
  obtain ⟨_, -, hm⟩ := Option.bind_eq_some_iff.mp hm
  obtain ⟨rfl, -⟩ := Prod.mk.inj (Option.some.inj hm)
  exact h.select (hf sel hsel)

end Inside

/-! ## Changes -/

/-- The pieces of a region end with it at the latest, even where their ends wrap around. -/
theorem inBounds_widthClosure {n step : Nat} {r : SelRegion} {s s' : Unit}
    {new : List SelRegion} (hr : r.InBounds n) (h : Split.widthClosure step s r = some (s', new)) :
    ∀ x ∈ new, x.InBounds n := by
  rw [Split.widthClosure] at h
  split at h
  · simp at h
  · obtain ⟨-, rfl⟩ := Prod.mk.inj (Option.some.inj h)
    intro x hx
    obtain ⟨k, hk, rfl⟩ := List.mem_map.mp hx
    have hmax := (SelRegion.inBounds_iff_max_le n r).mp hr
    have hstart := Nat.mul_le_of_le_div _ _ _ (Nat.le_of_lt_succ (List.mem_range.mp hk))
    have hlen := r.min_le_max
    rw [SelRegion.inBounds_iff_max_le, (SelRegion.bounds_withDirection _ _).2.1,
      SelRegion.max_new]
    omega

/-- What keeps the cursors in the buffer: typed offsets lie in it, and what is undone, redone or
chained was made for the data. -/
def Change.Bounded (b : CurrentBuffer X) : Change → Prop
  | .region f => f.StaysIn b.data.length
  | .undo => TopFits b.data.length b.history.undoStack
  | .redo => TopFits b.data.length b.history.redoStack
  | .type _ _ => GroupFits b
  | .finish _ _ bytesPerLine => GroupFits b ∧ bytesPerLine < 2 ^ 63
  | .width _ | .remove _ | .retain _ | .selectNext _ | .selectPrev _ | .selectAll
  | .edit _ _ => True

section Changes

variable {E : SearchEngine} {mode : Mode} {evt : Event} {b b' : CurrentBuffer X}

/-- A change that is bounded keeps the cursors in the buffer. -/
theorem Change.inside {c : Change} {d : DirtyBytes} (h : Inside mode.isInsert b)
    (hs : c.Suits mode evt b) (hc : c.Bounded b) (hlen : b'.data.length < 2 ^ 63)
    (hr : c.run b = some (b', d)) : Inside mode.isInsert b' := by
  have hfst : (c.run b).map Prod.fst = some b' := congrArg (Option.map Prod.fst) hr
  cases c with
  | region f => exact h.region f hc hfst
  | width step =>
    exact h.mapSelections hfst fun _ _ _ r hmem hnew ↦ inBounds_widthClosure (h.now r hmem) hnew
  | remove index =>
    have hfst : (b.removeSelection index).map Prod.fst = some b' := hfst
    exact h.modifySelsInPlace hfst fun _ ↦ inBounds_remove h.now
  | retain index =>
    have hfst : (b.retainSelection index).map Prod.fst = some b' := hfst
    exact h.modifySelsInPlace hfst fun _ ↦ inBounds_retain h.now
  | selectNext count =>
    have hfst : (b.selectNext count).map Prod.fst = some b' := hfst
    exact h.switchMainSel hfst fun _ hs ↦ (switches_selectNext hs).inBounds h.now
  | selectPrev count =>
    have hfst : (b.selectPrev count).map Prod.fst = some b' := hfst
    exact h.switchMainSel hfst fun _ hs ↦ (switches_selectPrev hs).inBounds h.now
  | selectAll =>
    obtain rfl := Option.some.inj hfst
    exact h.select (inBounds_selectAll b.selection b.data.length)
  | edit registers op =>
    obtain ⟨hm, -⟩ := hs
    obtain ⟨-, delta, hdelta, hrun⟩ := Change.of_run_edit hr
    have hyank : Inside mode.isInsert { b with registers } := h.select h.now
    rw [hm] at hyank ⊢
    have hgroup : GroupFits { b with registers } := fun p hp ↦
      absurd (hyank.group p hp).1 Bool.false_ne_true
    exact hyank.edit (fun _ ↦ rfl) hgroup hdelta (.inl rfl) hrun hlen
  | type op back =>
    have hm : mode.isInsert = true := hs
    obtain ⟨-, e, hdelta, ho, hrun⟩ := Change.of_run_type hr
    rw [hm] at h ⊢
    exact h.edit (by simp) hc hdelta ho hrun hlen
  | finish half direction bytesPerLine =>
    obtain ⟨hm, -⟩ := hs
    obtain ⟨hgroup, hb⟩ := hc
    obtain ⟨delta, b₁, hdelta, hrun, hmove⟩ := Change.of_run_finish hr
    have hmove : (b₁.mapSelections _ ()).map Prod.fst = some b' :=
      congrArg (Option.map Prod.fst) hmove
    have hlen₁ : b₁.data.length < 2 ^ 63 := by
      have hsame := hmove
      rw [CurrentBuffer.map_fst_mapSelections_pure] at hsame
      obtain ⟨sel, -, rfl⟩ := Option.map_eq_some_iff.mp hsame
      exact hlen
    rw [hm] at h ⊢
    have hop : Ops.Operation.delta X b.data b.selection (.change [half ||| 0]) = some delta :=
      hdelta
    have h₁ : Inside true b₁ := h.edit (by simp) hgroup hop (.inl rfl) hrun hlen₁
    exact h₁.region (.insertMove direction bytesPerLine b₁.data.length true) ⟨rfl, hb⟩ hmove
  | undo =>
    have hm : mode.isInsert = false := hs
    rw [hm] at h ⊢
    exact h.undo hc hr hlen
  | redo =>
    have hm : mode.isInsert = false := hs
    rw [hm] at h ⊢
    exact h.redo hc hr hlen

/-- So does a search. -/
theorem SearchAcceptor.inside_applySearch {next : SearchAcceptor} {pattern : Pattern}
    {t : ModeTransition} {pending : Bool} (h : Inside pending b)
    (hr : next.applySearch E pattern b = some (some (t, b'))) : Inside pending b' := by
  rcases of_applySearch h.now h.small hr with ⟨-, rfl⟩ | ⟨hp, d, -, hm⟩
  · exact h
  · have hfst := congrArg (Option.map Prod.fst) hm
    rw [map_fst_mapSelections_takeFront] at hfst
    obtain ⟨sel, hsel, rfl⟩ := Option.map_eq_some_iff.mp hfst
    refine h.select (inBounds_mapRegions hsel fun r hmem s hs ↦ ?_)
    have hd := next.divides_keptOf (pattern.rangesIn_matchesIn hp b.data r)
    rw [SelRegion.inBounds_iff_max_le]
    exact Nat.le_trans (hd.inside s hs).2 ((SelRegion.inBounds_iff_max_le _ r).mp (h.now r hmem))

/-- A bounded event keeps the cursors in the buffer, in the mode it leads to. -/
theorem Mode.inside_of_onBuffer {bytesPerLine : Nat} {t : ModeTransition}
    (h : Inside mode.isInsert b) (hlen : b'.data.length < 2 ^ 63)
    (hbounded : ∀ new c, mode.Asks b bytesPerLine evt (.change new c) → c.Bounded b)
    (hr : mode.onBuffer E evt b bytesPerLine = some (some (t, b'))) :
    Inside (t.mode mode).isInsert b' := by
  obtain ⟨r, hasks, hrun⟩ := mode.exists_asks E evt b bytesPerLine
  rw [hrun] at hr
  rw [Request.mode_of_run hr mode]
  have hsuits := hasks.suits
  by_cases hleave : r = .leave
  · subst hleave
    obtain ⟨-, rfl⟩ := Outcome.of_keep hr
    exact h.commit
  suffices hin : Inside mode.isInsert b' by
    cases hm : mode.isInsert with
    | false =>
      rw [hm] at hin
      exact hin.weaken
    | true =>
      rw [(hasks.isInsert_next hm).resolve_left hleave, ← hm]
      exact hin
  match r with
  | .panic | .unhandled => cases hr
  | .go registers t' =>
    obtain ⟨-, rfl⟩ := Outcome.of_keep hr
    exact h.select h.now
  | .leave => exact absurd rfl hleave
  | .search next pattern => exact next.inside_applySearch h hr
  | .change new c =>
    obtain ⟨d, hc, -⟩ := Request.of_run_change hr
    exact c.inside h hsuits (hbounded new c hasks) hlen hc

end Changes

/-! ## Keys -/

/-- A typed offset lies in the buffer, a typed count of steps to the left or up fits the
signed word, and what is undone or redone was made for the data. -/
def Normal.Bounded (m : Normal) (b : CurrentBuffer X) : Normal.Action → Prop
  | .jumpToMode | .extendToMode =>
    m.countState = .none ∨ m.countState.toCount ≤ b.data.length
  | .move direction | .extend direction =>
    direction = .up ∨ direction = .left → m.countState.toCount < 2 ^ 63
  | .undo => TopFits b.data.length b.history.undoStack
  | .redo => TopFits b.data.length b.history.redoStack
  | _ => True

instance (m : Normal) (b : CurrentBuffer X) (action : Normal.Action) :
    Decidable (m.Bounded b action) :=
  match action with
  | .jumpToMode | .extendToMode =>
    inferInstanceAs (Decidable (m.countState = .none ∨ m.countState.toCount ≤ b.data.length))
  | .move direction | .extend direction => inferInstanceAs
      (Decidable (direction = .up ∨ direction = .left → m.countState.toCount < 2 ^ 63))
  | .undo => inferInstanceAs (Decidable (TopFits b.data.length b.history.undoStack))
  | .redo => inferInstanceAs (Decidable (TopFits b.data.length b.history.redoStack))
  | .splitMode | .collapseMode _ | .commandMode | .swapCaret | .collapseSelection | .delete _
  | .yank _ | .paste _ _ | .change _ _ | .insert _ | .append _ | .overwrite _ | .removeMain
  | .retainMain | .selectPrev | .selectNext | .selectAll | .replaceMode _ | .measure =>
    isTrue trivial

/-- The key may edit, and so chain a delta to the pending one. -/
def Insert.chains (m : Insert) (evt : Event) : Bool :=
  match defaultMaps.eventToAction evt with
  | some .exit | some .switchInputMode => false
  | some (.move _) => m.hexHalf.isSome
  | _ => true

/-! ## Sessions -/

namespace Session

variable {E : SearchEngine} {fs : FileSystem} {bytesPerLine : Nat}

/-- The key types no offset outside the buffer and no count that is too large, and meets no
delta that was made for other data than it is applied to or chained on. -/
def KeyBounded (evt : KeyEvent) (s : Session X) : Prop :=
  match s.mode with
  | .normal m => ∀ action ∈ Normal.defaultMaps.eventToAction (.key evt),
      m.Bounded s.buffer action
  | .insert m => m.chains (.key evt) = true → GroupFits s.buffer
  | _ => True

instance (evt : KeyEvent) (s : Session X) : Decidable (s.KeyBounded evt) :=
  match s with
  | ⟨.normal m, b⟩ => inferInstanceAs (Decidable (∀ action ∈
      Normal.defaultMaps.eventToAction (.key evt), m.Bounded b action))
  | ⟨.insert m, b⟩ => inferInstanceAs (Decidable (m.chains (.key evt) = true → GroupFits b))
  | ⟨.jumpTo _, _⟩ | ⟨.split _, _⟩ | ⟨.search _, _⟩ | ⟨.replace _, _⟩ | ⟨.command _, _⟩
  | ⟨.quitting, _⟩ => isTrue trivial

/-- The data stays shorter than the signed word can count, and keys are bounded. -/
def Bounded (E : SearchEngine) (fs : FileSystem) (bytesPerLine : Nat) (input : SessionInput)
    (s : Session X) : Prop :=
  (∀ s' ∈ step E fs bytesPerLine input s, s'.buffer.data.length < 2 ^ 63) ∧
  match input with
  | .key evt => s.KeyBounded evt
  | .load _ => True

instance (input : SessionInput) (s : Session X) :
    Decidable (s.Bounded E fs bytesPerLine input) :=
  match input with
  | .key evt => inferInstanceAs (Decidable
      ((∀ s' ∈ step E fs bytesPerLine (.key evt) s, s'.buffer.data.length < 2 ^ 63) ∧
        s.KeyBounded evt))
  | .load n => inferInstanceAs (Decidable
      ((∀ s' ∈ step E fs bytesPerLine (.load n) s, s'.buffer.data.length < 2 ^ 63) ∧ True))

/-- The cursors of the session are in its buffer, now and in its history. -/
def Contained (s : Session X) : Prop := Inside s.mode.isInsert s.buffer

/-- A bounded key asks for bounded changes. -/
theorem KeyBounded.bounded {s : Session X} {evt : KeyEvent} {new : Option Mode} {c : Change}
    (hk : s.KeyBounded evt) (hb : bytesPerLine < 2 ^ 63)
    (h : s.mode.Asks s.buffer bytesPerLine (.key evt) (.change new c)) : c.Bounded s.buffer := by
  obtain ⟨mode, b⟩ := s
  cases h with
  | normal hc hkey h =>
    have hbounded := hk _ hkey
    cases h with
    | jumpTo hc | extendTo hc =>
      simpa [Normal.Bounded, hc, CmdCount.State.toCount, Change.Bounded, RegionMap.StaysIn]
        using hbounded
    | move | extend => exact ⟨rfl, hb, hbounded⟩
    | append => exact ⟨rfl, hb⟩
    | undo | redo => exact hbounded
    | insert | swapCaret | collapseSelection | delete | change | paste | removeMain | removeNth
    | retainMain | retainNth | selectNext | selectPrev | selectAll => trivial
  | insert h =>
    cases h with
    | insertNull hkey | removeLast hkey | removeThis hkey | secondDigit hkey | firstDigit hkey
    | char hkey => exact hk (by simp [Insert.chains, hkey])
    | removeHalf hkey ha => exact hk (by rcases ha with rfl | rfl <;> simp [Insert.chains, hkey])
    | move => exact ⟨rfl, hb⟩
    | finish hkey hh => exact ⟨hk (by simp [Insert.chains, hkey, hh]), hb⟩
  | jump => exact ⟨rfl, hb⟩
  | splitWidth | replace => trivial

private theorem contained_pressDefault {s s' : Session X} {evt : KeyEvent}
    (hb : bytesPerLine < 2 ^ 63) (h : s.Contained)
    (hr : s.pressDefault bytesPerLine evt = some s') : s'.Contained := by
  unfold pressDefault at hr
  split at hr
  · obtain rfl := Option.some.inj hr
    exact h
  · next direction hd =>
    obtain ⟨⟨b', d⟩, hm, rfl⟩ := Option.map_eq_some_iff.mp hr
    exact h.region (.move direction bytesPerLine s.buffer.data.length 1)
      ⟨rfl, hb, by simp⟩ (congrArg (Option.map Prod.fst) hm)

/-- One input keeps the cursors in the buffer. -/
theorem contained_step {input : SessionInput} {s s' : Session X} (hb : bytesPerLine < 2 ^ 63)
    (h : s.Contained) (hi : s.Bounded E fs bytesPerLine input)
    (hr : step E fs bytesPerLine input s = some s') : s'.Contained := by
  obtain ⟨hs, hi⟩ := hi
  have hs := hs s' hr
  cases input with
  | key evt =>
    obtain ⟨o, ho, hr⟩ := Option.bind_eq_some_iff.mp hr
    match o, ho, hr with
    | some (t, b'), ho, hr =>
      obtain rfl := Option.some.inj hr
      exact Mode.inside_of_onBuffer h hs (fun new c ↦ KeyBounded.bounded hi hb) ho
    | none, _, hr => exact contained_pressDefault hb h hr
  | load n =>
    obtain ⟨⟨b', r⟩, hl, rfl⟩ := Option.map_eq_some_iff.mp hr
    obtain ⟨chunk, rfl⟩ := CurrentBuffer.loadNextChunk_appends hl
    exact h.append hs

end Session

/-- In every state of a bounded session from an opened buffer all carets and tails lie in the
data or just behind it. -/
theorem cursors_stay_inside (E : SearchEngine) (fs : FileSystem) {bytesPerLine : Nat}
    (hb : bytesPerLine < 2 ^ 63) (data : List UInt8) (path : Option Path)
    (hd : data.length < 2 ^ 63) (inputs : List SessionInput)
    (h : Along (Session.step (X := X) E fs bytesPerLine) (fun i s ↦ s.Bounded E fs bytesPerLine i)
      inputs (Session.opened data path)) :
    Always (Session.step (X := X) E fs bytesPerLine)
      (fun s ↦ ∀ r ∈ s.buffer.selection.regions,
        r.caret ≤ s.buffer.data.length ∧ r.tail ≤ s.buffer.data.length)
      inputs (Session.opened data path) := by
  have hopen : (Session.opened data path : Session X).Contained := by
    refine Inside.of_isEmpty hd (fun r hr ↦ ?_) ⟨rfl, rfl, rfl⟩
    obtain rfl := List.mem_singleton.mp hr
    exact ⟨Nat.zero_le _, Nat.zero_le _⟩
  have hall := h.always (Q := Session.Contained) hopen fun i s s' hc hi hr ↦
    Session.contained_step hb hc hi hr
  exact hall.imp fun s hc ↦ hc.now

/-- The first two bytes are deleted, a chunk is loaded, and another deletion is undone. -/
theorem cursors_stay_inside_undo :
    let X := XiRope.reference UInt8
    let fs := FileSystem.single ['f'] [1, 2, 3, 4]
    let inputs := typedKeys ['L', 'd'] ++ .load 64 :: typedKeys ['2', 'g', 'd', 'u']
    Always (Session.step (X := X) .reference fs 16)
      (fun s ↦ ∀ r ∈ s.buffer.selection.regions,
        r.caret ≤ s.buffer.data.length ∧ r.tail ≤ s.buffer.data.length)
      inputs (Session.opened [1, 2] (some ['f'])) := by
  intro X fs inputs
  exact cursors_stay_inside .reference fs (by decide) [1, 2] (some ['f']) (by decide) inputs
    (by decide)

/-- Jumping to an offset that is typed puts the caret there, wherever the data ends. -/
theorem jump_leaves_buffer :
    let X := XiRope.reference UInt8
    ∃ s, runSteps (Session.step (X := X) .reference (FileSystem.single ['f'] [1, 2, 3, 4]) 16)
        (typedKeys ['9', '9', '9', 'g']) (Session.opened [1, 2, 3, 4] (some ['f'])) = some s ∧
      s.buffer.data.length = 4 ∧ s.buffer.selection.main.map SelRegion.caret = some 999 :=
  ⟨_, rfl, rfl, rfl⟩

end Tofu

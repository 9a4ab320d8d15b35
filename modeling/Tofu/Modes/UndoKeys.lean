import Tofu.Base.Draft
import Tofu.Modes.Effects

/-!
# Undo over keys

What is undone by `u` when the buffer was edited with keys. A key of the normal modes records
at most one edit, the keys of an insertion mode write to a draft that is recorded when the
mode is left, and new selections are no edits: undo and redo carry them along. So every run of
keys is a run of a linear history with a draft.
-/

namespace Tofu

open Rope Selection

variable {X : XiRope UInt8}

/-! ## Buffers and drafts -/

/-- The buffer shows the history, or the draft with the edits pending. -/
def Tracks (b : CurrentBuffer X) (d : Draft Snapshot) : Prop :=
  d.draft = none ∧ Follows b d.timeline ∨
    d.draft = some b.snapshot ∧ FollowsPartial b d.timeline

section Tracks

variable {b b' : CurrentBuffer X} {d : Draft Snapshot}

/-- The state that is shown is the buffer's. -/
theorem Tracks.now (h : Tracks b d) : d.now = b.snapshot := by
  rcases h with ⟨hd, h⟩ | ⟨hd, -⟩
  · rw [Draft.now, hd, Option.getD_none, h.present]
  · rw [Draft.now, hd, Option.getD_some]

private theorem Tracks.start (hn : b.history = History.new) : Tracks b (.start b.snapshot) := by
  refine .inl ⟨rfl, rfl, ?_, ?_, ?_⟩ <;> rw [hn]
  · rfl
  · trivial
  · trivial

/-- Another selection is a revision. -/
theorem Tracks.reselect (h : Tracks b d) (selection : Selection) :
    Tracks { b with selection } (d.revise (b.data, selection)) := by
  rcases h with ⟨hd, h⟩ | ⟨hd, h⟩
  · have heq : d.revise (b.data, selection) =
        { d with timeline := d.timeline.revise (b.data, selection) } := by
      rw [Draft.revise, hd]
    rw [heq]
    exact .inl ⟨hd, rfl, h.complete, h.undo, h.redo⟩
  · rw [Draft.revise, hd]
    exact .inr ⟨rfl, h.started, h.undo⟩

/-- Registers have no part in the history. -/
theorem Tracks.yank (h : Tracks b d) (registers : List (Char × List (List UInt8))) :
    Tracks { b with registers } d :=
  h.imp (fun ⟨hd, h⟩ ↦ ⟨hd, h.present, h.complete, h.undo, h.redo⟩)
    fun ⟨hd, h⟩ ↦ ⟨hd, h.started, h.undo⟩

/-- An edit that stays pending is written to the draft. -/
theorem Tracks.write (h : Tracks b d) {e : BufferEdit X} (hf : e.Fits b.snapshot)
    (hr : e.run false b = some b') : Tracks b' (d.write b'.snapshot) := by
  rcases h with ⟨-, h⟩ | ⟨-, h⟩
  · exact .inr ⟨rfl, h.startPartial hf hr⟩
  · exact .inr ⟨rfl, h.next hf hr⟩

private theorem Tracks.commit (h : Tracks b d) : Tracks b.commitDelta d.commit := by
  rcases h with ⟨hd, h⟩ | ⟨hd, h⟩
  · have hsame : b.commitDelta = b := by
      rw [CurrentBuffer.commitDelta, History.commitPartial, h.complete]
    rw [hsame, Draft.commit, hd]
    exact .inl ⟨hd, h⟩
  · rw [Draft.commit, hd]
    exact .inl ⟨rfl, h.commit⟩

/-- An operation makes deltas for the data. -/
theorem fits_of_operation {op : Ops.Operation} {e : BufferEdit X}
    (hsmall : b.data.length < 2 ^ 63) (hin : ∀ r ∈ b.selection.regions, r.InBounds b.data.length)
    (hop : op.delta X b.data b.selection = some e.delta) : e.Fits b.snapshot := by
  obtain ⟨es, hm⟩ := op.exists_makes hin hsmall hop
  exact hm.baseLen.symm

/-- What a key does is a step of the history with a draft. -/
theorem Effect.tracks {mode : Mode} {evt : Event} {report : Option DirtyBytes}
    (hsmall : b.data.length < 2 ^ 63) (hin : ∀ r ∈ b.selection.regions, r.InBounds b.data.length)
    (h : Effect mode evt b report b') (hd : d.draft.isSome → mode.isInsert = true)
    (ht : Tracks b d) : ∃ d', d.Step Prod.fst mode.isInsert d' ∧ Tracks b' d' := by
  have hfollows (hm : mode.isInsert = false) : d.draft = none ∧ Follows b d.timeline := by
    refine ht.resolve_right fun ⟨hsome, _⟩ ↦ ?_
    rw [hd (by rw [hsome]; rfl)] at hm
    cases hm
  have hreselect (selection : Selection) : ∃ d', d.Step Prod.fst mode.isInsert d' ∧
      Tracks { b with selection } d' :=
    ⟨_, .revise (by rw [ht.now]; rfl), ht.reselect selection⟩
  cases h with
  | kept hr => exact ⟨d, by simpa using Draft.Step.revise rfl, ht.yank _⟩
  | reselected h =>
    obtain ⟨selection, rfl⟩ := h.exists_selection
    exact hreselect selection
  | selectedAll => exact hreselect _
  | @edited registers hr op e b' hop _ h =>
    have hf := fits_of_operation hsmall hin hop
    cases hm : mode.isInsert with
    | true =>
      rw [hm] at h
      exact ⟨_, .write rfl b'.snapshot, (ht.yank registers).write hf h⟩
    | false =>
      rw [hm] at h
      obtain ⟨hnone, -⟩ := hfollows hm
      obtain ⟨-, hyank⟩ := (ht.yank registers).resolve_right fun h ↦ by simp [hnone] at h
      exact ⟨_, .record rfl b'.snapshot, .inl ⟨hnone, hyank.final hf h⟩⟩
  | undone hm h =>
    obtain ⟨hnone, hf⟩ := hfollows hm
    have hstep : b.undoStep = b' := by rw [CurrentBuffer.undoStep, h]; rfl
    exact ⟨_, .undo hm, .inl ⟨hnone, hstep ▸ hf.undoStep⟩⟩
  | redone hm h =>
    obtain ⟨hnone, hf⟩ := hfollows hm
    have hstep : b.redoStep = b' := by rw [CurrentBuffer.redoStep, h]; rfl
    exact ⟨_, .redo hm, .inl ⟨hnone, hstep ▸ hf.redoStep⟩⟩
  | finished hm hdrop op e sel intervals hop _ h =>
    have hwrite := (ht.write (fits_of_operation hsmall hin hop) h).reselect sel
    exact ⟨_, .write hm _, hwrite⟩

end Tracks

/-! ## Sessions -/

namespace Session

variable {E : SearchEngine} {bytesPerLine : Nat} {evt : KeyEvent} {s s' s₁ : Session X}
  {d d₁ : Draft Snapshot} {keys : List KeyEvent}

/-- The selection is sorted and within the data, which is at most half of the address space. -/
def Sound (s : Session X) : Prop :=
  s.buffer.data.length < 2 ^ 63 ∧ s.buffer.selection.Placed s.buffer.data.length

instance (s : Session X) : Decidable s.Sound := inferInstanceAs (Decidable (_ ∧ _))

/-- The buffer shows the history or a draft; there is a draft only in an insertion mode. -/
structure Tracked (s : Session X) (d : Draft Snapshot) : Prop where
  tracks : Tracks s.buffer d
  inserting : d.draft.isSome → s.mode.isInsert = true

private theorem Tracked.draft_eq_none {d : Draft Snapshot} (h : s.Tracked d)
    (hout : s.mode.isInsert = false) : d.draft = none := by
  by_contra hsome
  have hin := h.inserting (Option.isSome_iff_ne_none.mpr hsome)
  rw [hout] at hin
  cases hin

/-- Outside an insertion mode nothing is pending. -/
theorem Tracked.follows {d : Draft Snapshot} (h : s.Tracked d) (hout : s.mode.isInsert = false) :
    Follows s.buffer d.timeline := by
  rcases h.tracks with ⟨-, hfollows⟩ | ⟨hsome, -⟩
  · exact hfollows
  · rw [h.draft_eq_none hout] at hsome
    cases hsome

/-- A key that no mode handles changes the selection at most. -/
theorem exists_of_pressDefault (h : s.pressDefault bytesPerLine evt = some s') :
    ∃ selection : Selection, s' = { s with buffer := { s.buffer with selection } } := by
  unfold pressDefault at h
  split at h
  · exact ⟨s.buffer.selection, (Option.some.inj h).symm⟩
  · obtain ⟨⟨b', dirty⟩, hmap, rfl⟩ := Option.map_eq_some_iff.mp h
    obtain ⟨p, -, heq⟩ := Option.bind_eq_some_iff.mp hmap
    obtain ⟨rfl, -⟩ := Prod.mk.inj (Option.some.inj heq)
    exact ⟨p.2, rfl⟩

/-- A key is a step of the history with a draft, or leaves an insertion mode and commits the
draft. -/
theorem Tracked.press (ht : s.Tracked d) (hs : s.Sound)
    (h : s.press E bytesPerLine evt = some s') :
    ∃ d', s'.Tracked d' ∧
      (d.Step Prod.fst s.mode.isInsert d' ∧
          (s.mode.isInsert = true → s'.mode.isInsert = true) ∨
        s.mode.isInsert = true ∧ s'.mode.isInsert = false ∧ d' = d.commit) := by
  obtain ⟨hsmall, hp⟩ := hs
  -- a step in a mode that it stays in if that is an insertion mode
  have hstep {mode : Mode} {b' : CurrentBuffer X} {d' : Draft Snapshot}
      (hstep : d.Step Prod.fst s.mode.isInsert d') (ht' : Tracks b' d')
      (hstays : s.mode.isInsert = true → mode.isInsert = true) :
      (⟨mode, b'⟩ : Session X).Tracked d' := by
    refine ⟨ht', fun hsome ↦ ?_⟩
    cases hm : s.mode.isInsert with
    | true => exact hstays hm
    | false =>
      have hnone : d.draft = none := by
        by_contra hne
        have := ht.inserting (Option.isSome_iff_ne_none.mpr hne)
        rw [hm] at this
        cases this
      rw [hm] at hstep
      rw [hstep.draft_eq_none hnone] at hsome
      cases hsome
  obtain ⟨outcome, ho, h⟩ := Option.bind_eq_some_iff.mp h
  match outcome, ho, h with
  | some (t, b'), ho, h =>
    obtain rfl := Option.some.inj h
    rcases (Mode.handled_of_onBuffer hsmall hp ho).does with
      hleft | ⟨hstays, heffect⟩
    · refine ⟨d.commit, ⟨hleft.commits ▸ ht.tracks.commit, fun hsome ↦ ?_⟩,
        .inr ⟨hleft.inserting, hleft.left, rfl⟩⟩
      have hnone : d.commit.draft = none := by
        unfold Draft.commit
        split
        · next hd => exact hd
        · rfl
      rw [hnone] at hsome
      cases hsome
    · obtain ⟨d', hd', ht'⟩ := heffect.tracks hsmall hp.inBounds ht.inserting ht.tracks
      exact ⟨d', hstep hd' ht' hstays, .inl ⟨hd', hstays⟩⟩
  | none, ho, h =>
    obtain ⟨selection, rfl⟩ := exists_of_pressDefault h
    have hrevise : d.Step Prod.fst s.mode.isInsert (d.revise (s.buffer.data, selection)) :=
      .revise (by rw [ht.tracks.now]; rfl)
    exact ⟨_, hstep hrevise (ht.tracks.reselect selection) id, .inl ⟨hrevise, id⟩⟩

/-- A run of keys keeps the origin of the history, and records at most one state for each key. -/
theorem Tracked.run (ht : s.Tracked d)
    (hs : Along (Session.press E bytesPerLine) (fun _ s ↦ s.Sound) keys s)
    (h : runSteps (Session.press E bytesPerLine) keys s = some s') :
    ∃ d', s'.Tracked d' ∧ d'.timeline.origin Prod.fst = d.timeline.origin Prod.fst ∧
      d'.timeline.past.length ≤ d.timeline.past.length + keys.length := by
  induction keys generalizing s d with
  | nil =>
    obtain rfl := Option.some.inj h
    exact ⟨d, ht, rfl, Nat.le_refl _⟩
  | cons key keys ih =>
    obtain ⟨s₁, hs₁, h⟩ := Option.bind_eq_some_iff.mp h
    obtain ⟨d₁, ht₁, hd₁⟩ := ht.press hs.1 hs₁
    obtain ⟨d', ht', horigin, hlen⟩ := ih ht₁ (hs.2 s₁ hs₁) h
    have hkey : d₁.timeline.origin Prod.fst = d.timeline.origin Prod.fst ∧
        d₁.timeline.past.length ≤ d.timeline.past.length + 1 := by
      rcases hd₁ with ⟨hstep, -⟩ | ⟨-, -, rfl⟩
      · exact ⟨hstep.origin, hstep.length_past_le⟩
      · exact ⟨d.origin_draft_commit, d.length_past_commit_le⟩
    refine ⟨d', ht', horigin.trans hkey.1, ?_⟩
    rw [List.length_cons]
    omega

/-- A buffer that was just opened starts its history. -/
theorem tracked_opened (data : List UInt8) (path : Option Path) :
    (opened data path : Session X).Tracked (.start (data, Selection.new)) :=
  ⟨Tracks.start rfl, fun h ↦ by cases h⟩

/-! ## Undo and redo -/

/-- The key that undoes. -/
def undoKey : KeyEvent := .plain (.char 'u')

/-- The key that redoes. -/
def redoKey : KeyEvent := .plain (.char 'U')

private theorem press_undoKey (E : SearchEngine) (bytesPerLine : Nat) {m : Normal}
    (hmode : s.mode = .normal m) :
    s.press E bytesPerLine undoKey =
      some { mode := .normal .new, buffer := s.buffer.undoStep } := by
  have hcount : m.countState.transition (.key undoKey) = none := rfl
  have haction : Normal.defaultMaps.eventToAction (.key undoKey) = some .undo := by decide
  rw [press, hmode, Mode.onBuffer, Normal.transition]
  simp only [hcount, haction, Normal.act, CurrentBuffer.undoStep]
  cases s.buffer.performUndo <;> rfl

private theorem press_redoKey (E : SearchEngine) (bytesPerLine : Nat) {m : Normal}
    (hmode : s.mode = .normal m) :
    s.press E bytesPerLine redoKey =
      some { mode := .normal .new, buffer := s.buffer.redoStep } := by
  have hcount : m.countState.transition (.key redoKey) = none := rfl
  have haction : Normal.defaultMaps.eventToAction (.key redoKey) = some .redo := by decide
  rw [press, hmode, Mode.onBuffer, Normal.transition]
  simp only [hcount, haction, Normal.act, CurrentBuffer.redoStep]
  cases s.buffer.performRedo <;> rfl

/-- A key that is pressed again and again in normal mode. -/
theorem exists_run_replicate {key : KeyEvent} {f : CurrentBuffer X → CurrentBuffer X}
    (hkey : ∀ (s : Session X) (m : Normal), s.mode = .normal m →
      s.press E bytesPerLine key = some { mode := .normal .new, buffer := f s.buffer })
    (n : Nat) {m : Normal} (hmode : s.mode = .normal m) :
    ∃ s', runSteps (press E bytesPerLine) (List.replicate n key) s = some s' ∧
      s'.buffer = f^[n] s.buffer ∧ ∃ m', s'.mode = .normal m' := by
  induction n generalizing s m with
  | zero => exact ⟨s, rfl, rfl, m, hmode⟩
  | succ n ih =>
    obtain ⟨s', hrun, hbuffer, hmode'⟩ :=
      ih (s := { mode := .normal .new, buffer := f s.buffer }) rfl
    refine ⟨s', ?_, hbuffer, hmode'⟩
    rw [List.replicate_succ, runSteps_cons, hkey s m hmode, Option.bind_some, hrun]

/-- In normal mode, after any keys, some number of undos leads back to the data that was opened,
where nothing is left to undo, and as many redos return to the data and the selection. -/
theorem undo_reaches_opened (E : SearchEngine) (bytesPerLine : Nat) (data : List UInt8)
    (path : Option Path) (keys : List KeyEvent) {m : Normal}
    (hs : Along (press E bytesPerLine) (fun _ s ↦ s.Sound) keys (opened (X := X) data path))
    (h : runSteps (press E bytesPerLine) keys (opened data path) = some s)
    (hmode : s.mode = .normal m) :
    ∃ n ≤ keys.length, ∃ s₁ s₂,
      runSteps (press E bytesPerLine) (List.replicate n undoKey) s = some s₁ ∧
      s₁.buffer.data = data ∧ s₁.buffer.performUndo = none ∧
      runSteps (press E bytesPerLine) (List.replicate n redoKey) s₁ = some s₂ ∧
      s₂.buffer.snapshot = s.buffer.snapshot := by
  obtain ⟨d, ht, horigin, hlen⟩ := (tracked_opened data path).run hs h
  have hfollows := ht.follows (by rw [hmode]; rfl)
  obtain ⟨s₁, hrun₁, hbuffer₁, m₁, hmode₁⟩ := exists_run_replicate
    (fun _ _ ↦ press_undoKey E bytesPerLine) d.timeline.past.length hmode
  obtain ⟨s₂, hrun₂, hbuffer₂, -⟩ := exists_run_replicate
    (fun _ _ ↦ press_redoKey E bytesPerLine) d.timeline.past.length hmode₁
  have hundo := hfollows.iterate_undoStep d.timeline.past.length
  have hredo := hundo.iterate_redoStep d.timeline.past.length
  rw [← hbuffer₁] at hundo hredo
  rw [← hbuffer₂, Timeline.redo_iterate_undo_iterate (Nat.le_refl _)] at hredo
  obtain ⟨hpast, hdata⟩ := d.timeline.origin_of_iterate_undo Prod.fst
  refine ⟨_, ?_, s₁, s₂, hrun₁, ?_, hundo.performUndo_eq_none hpast, hrun₂,
    hredo.present.symm.trans hfollows.present⟩
  · simpa [Draft.start, Timeline.start] using hlen
  · rw [hundo.present, horigin] at hdata
    exact hdata

-- A byte is changed, everything is deleted, that is undone, and the deleted bytes are pasted.
private def someKeys : List KeyEvent :=
  ['l', 'c', 'x', 'y'].map (fun c ↦ .plain (.char c)) ++ [.plain .esc] ++
    ['%', 'd', 'u', 'H', 'p'].map (fun c ↦ .plain (.char c))

/-- Three bytes that were changed, deleted, brought back and pasted. -/
theorem undo_reaches_opened_typed :
    ∃ s : Session (XiRope.reference UInt8),
      runSteps (press .reference 16) someKeys (opened [1, 2, 3] none) = some s ∧
      s.buffer.data.length = 8 ∧
      ∃ n ≤ someKeys.length, ∃ s₁ s₂,
        runSteps (press .reference 16) (List.replicate n undoKey) s = some s₁ ∧
        s₁.buffer.data = [1, 2, 3] ∧ s₁.buffer.performUndo = none ∧
        runSteps (press .reference 16) (List.replicate n redoKey) s₁ = some s₂ ∧
        s₂.buffer.snapshot = s.buffer.snapshot := by
  obtain ⟨s, h, hmode, hlen⟩ : ∃ s ∈ runSteps (press (X := XiRope.reference UInt8) .reference 16)
      someKeys (opened [1, 2, 3] none), s.mode = .normal .new ∧ s.buffer.data.length = 8 := by
    decide
  exact ⟨s, h, hlen, undo_reaches_opened .reference 16 [1, 2, 3] none someKeys (by decide) h hmode⟩

/-! ## One insertion -/

/-- The keys of an insertion mode write drafts of one history, until the mode is left. -/
theorem Tracked.insertion {d₀ : Draft Snapshot} (ht : s.Tracked d)
    (hd : Draft.Drafts Prod.fst d₀ d)
    (hs : Along (Session.press E bytesPerLine) (fun _ s ↦ s.Sound ∧ s.mode.isInsert = true) keys s)
    (h : runSteps (Session.press E bytesPerLine) keys s = some s')
    (hleft : s'.mode.isInsert = false) (hin : s.mode.isInsert = true) :
    ∃ d', Draft.Drafts Prod.fst d₀ d' ∧ s'.Tracked d'.commit ∧ d'.now.1 = s'.buffer.data := by
  induction keys generalizing s d with
  | nil =>
    obtain rfl := Option.some.inj h
    rw [hin] at hleft
    cases hleft
  | cons key keys ih =>
    obtain ⟨s₁, hs₁, h⟩ := Option.bind_eq_some_iff.mp h
    obtain ⟨d₁, ht₁, hd₁⟩ := ht.press hs.1.1 hs₁
    rcases hd₁ with ⟨hstep, hstays⟩ | ⟨-, hout, rfl⟩
    · rw [hin] at hstep
      exact ih ht₁ (hd.step hstep) (hs.2 s₁ hs₁) h (hstays hin)
    · -- the mode is left with the last key
      cases keys with
      | nil =>
        obtain rfl := Option.some.inj h
        exact ⟨d, hd, ht₁, by rw [← d.now_commit, ht₁.tracks.now]; rfl⟩
      | cons key' keys =>
        have := (hs.2 s₁ hs₁).1.2
        rw [hout] at this
        cases this

/-- Whatever was typed between a key that opens an insertion mode and the key that leaves it, cursor
keys and deletions among it, is taken back by one undo and made again by one redo. -/
theorem insertion_undone_at_once (E : SearchEngine) (bytesPerLine : Nat) (data : List UInt8)
    (path : Option Path) (keys typed : List KeyEvent) {opening : KeyEvent} {s₂ : Session X}
    {m : Normal}
    (hs : Along (press E bytesPerLine) (fun _ s ↦ s.Sound) (keys ++ opening :: typed)
      (opened (X := X) data path))
    (h : runSteps (press E bytesPerLine) keys (opened data path) = some s)
    (hout : s.mode.isInsert = false) (h₁ : s.press E bytesPerLine opening = some s₁)
    (hin : Along (press E bytesPerLine) (fun _ s ↦ s.mode.isInsert = true) typed s₁)
    (h₂ : runSteps (press E bytesPerLine) typed s₁ = some s₂) (hleft : s₂.mode = .normal m)
    (hne : s₂.buffer.data ≠ s₁.buffer.data) :
    ∃ s₃ s₄, s₂.press E bytesPerLine undoKey = some s₃ ∧ s₃.buffer.data = s₁.buffer.data ∧
      s₃.press E bytesPerLine redoKey = some s₄ ∧ s₄.buffer.snapshot = s₂.buffer.snapshot := by
  obtain ⟨hsound, hrest⟩ := along_append.mp hs
  obtain ⟨d, ht, -, -⟩ := (tracked_opened data path).run hsound h
  obtain ⟨d₁, ht₁, hd₁⟩ := ht.press (hrest s h).1 h₁
  -- nothing is drafted when the mode is opened
  have hnone : d₁.draft = none := by
    rw [hout] at hd₁
    exact (hd₁.resolve_right fun h ↦ by cases h.1).1.draft_eq_none (ht.draft_eq_none hout)
  have hpresent : d₁.timeline.present = s₁.buffer.snapshot := by
    rw [← ht₁.tracks.now, Draft.now, hnone, Option.getD_none]
  cases typed with
  | nil =>
    obtain rfl := Option.some.inj h₂
    exact absurd rfl hne
  | cons key typed =>
    have hboth := ((hrest s h).2 s₁ h₁).and hin
    have hstart : Draft.Drafts Prod.fst d₁ d₁ := ⟨rfl, rfl⟩
    obtain ⟨d₂, hd₂, ht₂, hdata⟩ := ht₁.insertion hstart hboth h₂ (by rw [hleft]; rfl) hin.1
    obtain ⟨hpast, hundo⟩ := hd₂.undo_commit
      (by rw [hdata, hpresent]; exact hne)
    have hfollows := ht₂.follows (by rw [hleft]; rfl)
    refine ⟨_, _, press_undoKey E bytesPerLine hleft, ?_, press_redoKey E bytesPerLine rfl, ?_⟩
    · rw [hpresent, hfollows.undoStep.present] at hundo
      exact hundo
    · have hredo := hfollows.undoStep.redoStep.present
      rw [Timeline.redo_undo hpast, hfollows.present] at hredo
      exact hredo.symm

-- Hex digits, a cursor key, a character that is removed again and another digit, typed after an
-- edit.
private def mixedTyping : List KeyEvent :=
  [.plain (.char '4'), .plain (.char '1'), .plain .left, .plain (.char '5'), .plain (.char '2'),
    .plain .backspace, .plain (.char '6'), .plain .esc]

/-- The keys are typed after a deletion that stays. -/
theorem insertion_undone_mixed :
    ∃ s₁ s₂ : Session (XiRope.reference UInt8),
      runSteps (press .reference 16) [.plain (.char 'd'), .plain (.char 'I')]
        (opened [1, 2, 3] none) = some s₁ ∧
      runSteps (press .reference 16) mixedTyping s₁ = some s₂ ∧
      s₂.buffer.data ≠ s₁.buffer.data ∧
      ∃ s₃ s₄, s₂.press .reference 16 undoKey = some s₃ ∧ s₃.buffer.data = s₁.buffer.data ∧
        s₃.press .reference 16 redoKey = some s₄ ∧ s₄.buffer.snapshot = s₂.buffer.snapshot := by
  obtain ⟨s, h, hout, s₁, h₁, hin, s₂, h₂, hleft, hne⟩ :
      ∃ s ∈ runSteps (press (X := XiRope.reference UInt8) .reference 16) [.plain (.char 'd')]
          (opened [1, 2, 3] none), s.mode.isInsert = false ∧
        ∃ s₁ ∈ s.press .reference 16 (.plain (.char 'I')),
          Along (press .reference 16) (fun _ s ↦ s.mode.isInsert = true) mixedTyping s₁ ∧
          ∃ s₂ ∈ runSteps (press .reference 16) mixedTyping s₁,
            s₂.mode = .normal .new ∧ s₂.buffer.data ≠ s₁.buffer.data := by
    decide
  have h₁' : runSteps (press .reference 16) [.plain (.char 'd'), .plain (.char 'I')]
      (opened [1, 2, 3] none) = some s₁ := by
    rw [show [KeyEvent.plain (.char 'd'), .plain (.char 'I')] =
      [.plain (.char 'd')] ++ [.plain (.char 'I')] from rfl, runSteps_append, h, Option.bind_some,
      runSteps_cons, h₁]
    rfl
  exact ⟨s₁, s₂, h₁', h₂, hne, insertion_undone_at_once .reference 16 [1, 2, 3] none
    [.plain (.char 'd')] mixedTyping (by decide) h hout h₁ hin h₂ hleft hne⟩

end Session

end Tofu

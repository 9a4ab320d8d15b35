import Tofu.Modes.Workspace

/-!
# Unsaved changes

`:q` and `:db` refuse to drop a buffer that has a path and is dirty
(`src/src/modes/command.rs:49–58,127–136`). The flag is set by every edit, undo and redo
(`src/src/current_buffer.rs:187–272`) and cleared by every write of the buffer, also by
`:w` with the name of another file. It is compared here with what it stands for: whether
the buffer was changed since its data was last written to the file of its own path.
-/

namespace Tofu

open Rope

variable {X : XiRope UInt8}

/-- The open buffers, and for each one whether it was edited, or an edit of it undone or
redone, since its data was last written to its own file. -/
structure Watched (X : XiRope UInt8) where
  ws : Workspace X
  unsaved : List Bool

/-- Nothing was changed yet. -/
def Watched.start (ws : Workspace X) : Watched X :=
  { ws, unsaved := ws.buffers.list.map fun _ ↦ false }

/-- `:w` goes to the file of the buffer's own path, if it has one. -/
def Workspace.OwnFile (ws : Workspace X) (filename : Path) : Prop :=
  filename = [] ∨
    ∀ b ∈ ws.buffers.current, ∀ p ∈ b.path, ws.fs.resolve filename = ws.fs.resolve p

instance (ws : Workspace X) (filename : Path) : Decidable (ws.OwnFile filename) :=
  inferInstanceAs (Decidable (_ ∨ _))

/-- The buffers that the loop of `:wa` writes before a write fails. -/
def Cmd.written (fs : FileSystem) : List (CurrentBuffer X) → List Bool
  | [] => []
  | b :: list =>
    match b.path with
    | none => false :: written fs list
    | some path =>
      match fs.write path b.data with
      | none => false :: list.map fun _ ↦ false
      | some fs => true :: written fs list

namespace WorkspaceStep

/-- What is unsaved after a step, which is known to have succeeded by its transition. -/
def unsavedAfter (i : WorkspaceStep X) (w : Watched X) (t : ModeTransition) (ws' : Workspace X) :
    List Bool :=
  match i with
  | change s =>
    if w.ws.buffers.current.any s.edits then w.unsaved.set w.ws.buffers.curBufIndex true
    else w.unsaved
  | edit _ =>
    w.unsaved ++ List.replicate (ws'.buffers.list.length - w.ws.buffers.list.length) false
  | write filename =>
    if t = .newMode (.normal .new) ∧ w.ws.OwnFile filename then
      w.unsaved.set w.ws.buffers.curBufIndex false
    else w.unsaved
  | writeAll =>
    List.zipWith (fun unsaved written ↦ unsaved && !written) w.unsaved
      (Cmd.written w.ws.fs w.ws.buffers.list)
  | deleteCurrentBuffer | forceDeleteCurrentBuffer =>
    if t = .modeAndDirtyBytes (.normal .new) .changeLength then
      let unsaved := w.unsaved.eraseIdx w.ws.buffers.curBufIndex
      if unsaved = [] then [false] else unsaved
    else w.unsaved
  | quit => w.unsaved

/-- A step, and what is unsaved after it. -/
def watch (i : WorkspaceStep X) (w : Watched X) : Option (Watched X) :=
  (i.run w.ws).map fun (t, ws') ↦ { ws := ws', unsaved := i.unsavedAfter w t ws' }

/-- A buffer with unsaved changes is not written to a file that is not its own. -/
def WritesOwnFile (i : WorkspaceStep X) (w : Watched X) : Prop :=
  match i with
  | write filename =>
    w.ws.fs.writable filename = true → w.ws.OwnFile filename ∨
      w.unsaved[w.ws.buffers.curBufIndex]? = some false
  | _ => True

end WorkspaceStep

/-- If `:q` would quit, no buffer with a path has unsaved changes, and if `:db` would close the
current buffer and it has a path, it has none. -/
structure Watched.ClosesSaved (w : Watched X) : Prop where
  quit : ∀ ws', Cmd.quit w.ws [] = some (.newMode .quitting, ws') →
    ∀ (k : Nat) (b : CurrentBuffer X), w.ws.buffers.list[k]? = some b → b.path.isSome →
      w.unsaved[k]? = some false
  close : ∀ ws', Cmd.deleteCurrentBuffer w.ws [] =
      some (.modeAndDirtyBytes (.normal .new) .changeLength, ws') →
    ∀ b, w.ws.buffers.current = some b → b.path.isSome →
      w.unsaved[w.ws.buffers.curBufIndex]? = some false

/-! ## The flag stands for unsaved changes -/

/-- A buffer with a path and unsaved changes is dirty. -/
def Flagged (b : CurrentBuffer X) (unsaved : Bool) : Prop :=
  b.path.isSome → unsaved = true → b.dirty = true

/-- This holds of every open buffer. -/
def Watched.Honest (w : Watched X) : Prop :=
  List.Forall₂ Flagged w.ws.buffers.list w.unsaved

section Lists

variable {α β : Type} {R : α → β → Prop} {l : List α} {u : List β}

private theorem forall₂_set (h : List.Forall₂ R l u) (i : Nat) {a : α} {v : β} (hv : R a v) :
    List.Forall₂ R (l.set i a) (u.set i v) := by
  induction h generalizing i with
  | nil => exact .nil
  | cons hr h ih =>
    cases i with
    | zero => exact .cons hv h
    | succ i => exact .cons hr (ih i)

private theorem forall₂_eraseIdx (h : List.Forall₂ R l u) (i : Nat) :
    List.Forall₂ R (l.eraseIdx i) (u.eraseIdx i) := by
  induction h generalizing i with
  | nil => exact .nil
  | cons hr h ih =>
    cases i with
    | zero => exact h
    | succ i => exact .cons hr (ih i)

private theorem forall₂_getElem? (h : List.Forall₂ R l u) {i : Nat} {a : α} (ha : l[i]? = some a) :
    ∃ v, u[i]? = some v ∧ R a v := by
  induction h generalizing i with
  | nil => simp at ha
  | cons hr h ih =>
    cases i with
    | zero =>
      obtain rfl := Option.some.inj ha
      exact ⟨_, rfl, hr⟩
    | succ i => exact ih ha

end Lists

private theorem list_switchCurrentBuffer {fs : FileSystem} {c c' : BuffrCollection X}
    {filename : Path} (h : c.switchCurrentBuffer fs filename = some c') :
    c'.list = c.list ∨
      ∃ data, c'.list = c.list ++ [CurrentBuffer.fromDataAndPath data (some filename)] := by
  obtain ⟨canon, -, h⟩ := Option.bind_eq_some_iff.mp h
  obtain ⟨r, -, h⟩ := Option.bind_eq_some_iff.mp h
  cases r with
  | some i =>
    obtain rfl := Option.some.inj h
    exact .inl rfl
  | none =>
    obtain ⟨data, -, h⟩ := Option.bind_eq_some_iff.mp h
    obtain rfl := Option.some.inj h
    exact .inr ⟨data, rfl⟩

private theorem zipWith_unwritten {R : CurrentBuffer X → Bool → Prop}
    {list : List (CurrentBuffer X)} {unsaved : List Bool} (h : List.Forall₂ R list unsaved) :
    List.zipWith (fun unsaved written ↦ unsaved && !written) unsaved
      (list.map fun _ ↦ false) = unsaved := by
  induction h with
  | nil => rfl
  | cons _ _ ih =>
    rw [List.map_cons, List.zipWith_cons_cons, ih, Bool.not_false, Bool.and_true]

private theorem flagged_writeBuffers {list : List (CurrentBuffer X)} {unsaved : List Bool}
    (h : List.Forall₂ Flagged list unsaved) (fs : FileSystem) :
    List.Forall₂ Flagged (Cmd.writeBuffers fs list).2.2
      (List.zipWith (fun unsaved written ↦ unsaved && !written) unsaved (Cmd.written fs list)) := by
  induction h generalizing fs with
  | nil => exact .nil
  | @cons b u list unsaved hb h ih =>
    have hskip : Flagged b (u && !false) := by rwa [Bool.not_false, Bool.and_true]
    rcases Option.eq_none_or_eq_some b.path with hp | ⟨path, hp⟩
    · simp only [Cmd.writeBuffers, Cmd.written, hp, List.zipWith_cons_cons]
      exact .cons hskip (ih fs)
    · rcases Option.eq_none_or_eq_some (fs.write path b.data) with hw | ⟨fs', hw⟩
      · -- the loop ends here, and nothing behind is written
        simp only [Cmd.writeBuffers, Cmd.written, hp, hw, List.zipWith_cons_cons,
          zipWith_unwritten h]
        exact .cons hskip h
      · simp only [Cmd.writeBuffers, Cmd.written, hp, hw, List.zipWith_cons_cons]
        refine .cons (fun _ hu ↦ ?_) (ih fs')
        rw [Bool.not_true, Bool.and_false] at hu
        cases hu

namespace Watched

variable {w w' : Watched X}

private theorem honest_start (ws : Workspace X) : (start ws).Honest := by
  have h : ∀ list : List (CurrentBuffer X), List.Forall₂ Flagged list (list.map fun _ ↦ false) := by
    intro list
    induction list with
    | nil => exact .nil
    | cons b list ih => exact .cons (fun _ h ↦ by cases h) ih
  exact h _

private theorem Honest.closesSaved (h : w.Honest) : w.ClosesSaved := by
  have hsaved : ∀ (k : Nat) b, w.ws.buffers.list[k]? = some b → b.path.isSome →
      b.dirty = false → w.unsaved[k]? = some false := by
    intro k b hb hp hd
    obtain ⟨v, hv, hf⟩ := forall₂_getElem? h hb
    cases v with
    | false => exact hv
    | true => rw [hf hp rfl] at hd; cases hd
  constructor
  · intro ws' hq k b hb hp
    refine hsaved k b hb hp ?_
    unfold Cmd.quit at hq
    split at hq
    · cases hq
    · next hany =>
      by_contra hd
      rw [Bool.not_eq_false] at hd
      refine hany (List.any_eq_true.mpr ⟨b, List.mem_of_getElem? hb, ?_⟩)
      rw [hd, hp]
      rfl
  · intro ws' hc b hb hp
    refine hsaved _ b hb hp ?_
    simp only [Cmd.deleteCurrentBuffer, hb, Option.bind_eq_bind, Option.bind_some, hp,
      Bool.and_true] at hc
    by_contra hd
    rw [Bool.not_eq_false] at hd
    rw [if_pos hd] at hc
    cases hc

/-- The flags of the other buffers stay when the current one is changed. -/
theorem Honest.setCurrent (h : w.Honest) {fs : FileSystem} {b : CurrentBuffer X}
    {unsaved : Bool} (hb : Flagged b unsaved) :
    Honest { ws := { fs, buffers := w.ws.buffers.setCurrent b }
             unsaved := w.unsaved.set w.ws.buffers.curBufIndex unsaved } :=
  forall₂_set h _ hb

private theorem Honest.setCurrent_keep (h : w.Honest) {fs : FileSystem} {b b' : CurrentBuffer X}
    (hb : w.ws.buffers.current = some b)
    (hk : ∀ unsaved, w.unsaved[w.ws.buffers.curBufIndex]? = some unsaved → Flagged b unsaved →
      Flagged b' unsaved) :
    Honest { ws := { fs, buffers := w.ws.buffers.setCurrent b' }, unsaved := w.unsaved } := by
  obtain ⟨v, hv, hf⟩ := forall₂_getElem? h hb
  have hset : Honest { ws := Workspace.mk fs (w.ws.buffers.setCurrent b')
                       unsaved := w.unsaved.set w.ws.buffers.curBufIndex v } :=
    h.setCurrent (hk v hv hf)
  obtain ⟨hlt, hget⟩ := List.getElem?_eq_some_iff.mp hv
  rwa [← hget, List.set_getElem_self] at hset

private theorem Honest.write {filename : Path} {t : ModeTransition} {ws' : Workspace X}
    (h : w.Honest) (hi : (WorkspaceStep.write filename).WritesOwnFile w)
    (hr : Cmd.write w.ws filename = some (t, ws')) :
    Honest { ws := ws', unsaved := (WorkspaceStep.write filename).unsavedAfter w t ws' } := by
  obtain ⟨b, hb, hr⟩ := Option.bind_eq_some_iff.mp hr
  simp only [WorkspaceStep.unsavedAfter]
  split at hr
  · next path hpath =>
    split at hr
    · obtain ⟨rfl, rfl⟩ := Prod.mk.inj (Option.some.inj hr)
      rw [if_neg (by simp [Cmd.writeFailed])]
      exact h
    · next fs hw =>
      obtain ⟨rfl, rfl⟩ := Prod.mk.inj (Option.some.inj hr)
      split
      · exact h.setCurrent fun _ hu ↦ by cases hu
      · next hown =>
        rw [not_and] at hown
        have hother := hown rfl
        have hne : filename ≠ [] := fun hn ↦ hother (.inl hn)
        rw [if_neg hne] at hpath
        obtain rfl := Option.some.inj hpath
        refine h.setCurrent_keep hb fun v hv _ _ hu ↦ ?_
        rw [(hi (FileSystem.writable_of_write hw)).resolve_left hother] at hv
        obtain rfl := Option.some.inj hv
        cases hu
  · obtain ⟨rfl, rfl⟩ := Prod.mk.inj (Option.some.inj hr)
    rw [if_neg (by simp)]
    exact h

private theorem Honest.forceDelete {t : ModeTransition} {ws' : Workspace X} (h : w.Honest)
    (hr : Cmd.forceDeleteCurrentBuffer w.ws [] = some (t, ws')) :
    t = .modeAndDirtyBytes (.normal .new) .changeLength ∧
    Honest { ws := ws'
             unsaved :=
              let unsaved := w.unsaved.eraseIdx w.ws.buffers.curBufIndex
              if unsaved = [] then [false] else unsaved } := by
  obtain ⟨buffers, hd, hr⟩ := Option.bind_eq_some_iff.mp hr
  obtain ⟨rfl, rfl⟩ := Prod.mk.inj (Option.some.inj hr)
  refine ⟨rfl, ?_⟩
  unfold BuffrCollection.deleteCurrent at hd
  split at hd
  · obtain rfl := Option.some.inj hd
    have herase := forall₂_eraseIdx h w.ws.buffers.curBufIndex
    by_cases hnil : w.ws.buffers.list.eraseIdx w.ws.buffers.curBufIndex = []
    · have hunsaved : w.unsaved.eraseIdx w.ws.buffers.curBufIndex = [] :=
        List.forall₂_nil_left_iff.mp (hnil ▸ herase)
      simp only [Honest, if_pos hnil, if_pos hunsaved]
      exact .cons (fun hp ↦ by cases hp) .nil
    · have hunsaved : w.unsaved.eraseIdx w.ws.buffers.curBufIndex ≠ [] := fun hu ↦
        hnil (List.forall₂_nil_right_iff.mp (hu ▸ herase))
      simp only [Honest, if_neg hnil, if_neg hunsaved]
      exact herase
  · cases hd

/-- Only a write of unsaved changes to another file clears a flag that should stay. -/
theorem Honest.step {i : WorkspaceStep X} (h : w.Honest) (hi : i.WritesOwnFile w)
    (hs : i.watch w = some w') : w'.Honest := by
  obtain ⟨⟨t, ws'⟩, hr, rfl⟩ := Option.map_eq_some_iff.mp hs
  cases i with
  | change s =>
    obtain ⟨b, hb, hr⟩ := Option.bind_eq_some_iff.mp hr
    obtain ⟨b', hb', hr⟩ := Option.bind_eq_some_iff.mp hr
    obtain ⟨-, rfl⟩ := Prod.mk.inj (Option.some.inj hr)
    have hdirty := s.dirty_run hb'
    simp only [WorkspaceStep.unsavedAfter, hb, Option.any_some]
    split
    · next he =>
      refine h.setCurrent fun _ _ ↦ ?_
      rw [hdirty, he]
      rfl
    · next he =>
      refine h.setCurrent_keep hb fun v _ hf hp hv ↦ ?_
      rw [hdirty, hf (s.path_run hb' ▸ hp) hv, Bool.or_true]
  | edit filename =>
    simp only [WorkspaceStep.run, Cmd.edit] at hr
    split at hr
    · obtain ⟨-, rfl⟩ := Prod.mk.inj (Option.some.inj hr)
      simpa [WorkspaceStep.unsavedAfter] using h
    · next buffers hb =>
      obtain ⟨-, rfl⟩ := Prod.mk.inj (Option.some.inj hr)
      rcases list_switchCurrentBuffer hb with hlist | ⟨data, hlist⟩
      · simpa [WorkspaceStep.unsavedAfter, Honest, hlist] using h
      · simp only [WorkspaceStep.unsavedAfter, Honest, hlist, List.length_append,
          List.length_singleton, Nat.add_sub_cancel_left, List.replicate_one]
        exact List.rel_append h (.cons (fun _ hu ↦ by cases hu) .nil)
  | write filename => exact h.write hi hr
  | writeAll =>
    obtain ⟨-, rfl⟩ := Prod.mk.inj (Option.some.inj hr)
    exact flagged_writeBuffers h w.ws.fs
  | deleteCurrentBuffer =>
    obtain ⟨b, -, hr⟩ := Option.bind_eq_some_iff.mp hr
    split at hr
    · obtain ⟨rfl, rfl⟩ := Prod.mk.inj (Option.some.inj hr)
      exact h
    · obtain ⟨ht, hd⟩ := h.forceDelete hr
      simpa only [WorkspaceStep.unsavedAfter, if_pos ht] using hd
  | forceDeleteCurrentBuffer =>
    obtain ⟨ht, hd⟩ := h.forceDelete hr
    simpa only [WorkspaceStep.unsavedAfter, if_pos ht] using hd
  | quit =>
    rw [Cmd.eq_of_quit [] hr]
    exact h

/-- After such a write `:db` closes the buffer. -/
theorem writesOwnFile_of_closesSaved {i : WorkspaceStep X}
    (hs : ∀ w', i.watch w = some w' → w'.ClosesSaved) : i.WritesOwnFile w := by
  cases i with
  | write filename =>
    intro hwritable
    by_cases hown : w.ws.OwnFile filename
    · exact .inl hown
    · refine .inr ?_
      obtain ⟨hne, b, hb, p, hp, -⟩ : filename ≠ [] ∧ ∃ b, w.ws.buffers.current = some b ∧
          ∃ p, b.path = some p ∧ w.ws.fs.resolve filename ≠ w.ws.fs.resolve p := by
        simpa [Workspace.OwnFile] using hown
      have hlt : w.ws.buffers.curBufIndex < w.ws.buffers.list.length :=
        (List.getElem?_eq_some_iff.mp hb).1
      obtain ⟨fs', hw⟩ : ∃ fs', w.ws.fs.write filename b.data = some fs' :=
        ⟨_, if_pos hwritable⟩
      have hsaved : CurrentBuffer.updatePathIfMissing { b with dirty := false } filename =
          { b with dirty := false } := by
        simp [CurrentBuffer.updatePathIfMissing, hp]
      have hrun := Cmd.write_of_ne_nil hb hne hw
      rw [hsaved] at hrun
      have hwatch : (WorkspaceStep.write filename).watch w =
          some { ws := Workspace.mk fs' (w.ws.buffers.setCurrent { b with dirty := false })
                 unsaved := w.unsaved } := by
        simp only [WorkspaceStep.watch, WorkspaceStep.run, hrun, Option.map_some,
          WorkspaceStep.unsavedAfter, hown, and_false, if_false]
      have hcurrent : (w.ws.buffers.setCurrent { b with dirty := false }).current =
          some { b with dirty := false } := List.getElem?_set_self hlt
      obtain ⟨c, hc⟩ : ∃ c, (w.ws.buffers.setCurrent { b with dirty := false }).deleteCurrent =
          some c := ⟨_, if_pos (by simpa [BuffrCollection.setCurrent] using hlt)⟩
      refine (hs _ hwatch).close (Workspace.mk fs' c) ?_ _ hcurrent (by rw [hp]; rfl)
      simp only [Cmd.deleteCurrentBuffer, hcurrent, Option.bind_eq_bind, Option.bind_some,
        Bool.false_and, Bool.false_eq_true, if_false, Cmd.forceDeleteCurrentBuffer, hc]
  | change _ => trivial
  | edit _ => trivial
  | writeAll => trivial
  | deleteCurrentBuffer => trivial
  | forceDeleteCurrentBuffer => trivial
  | quit => trivial

/-- Along exactly the runs in which no buffer with unsaved changes is written to a file that is
not its own, `:q` and `:db` drop no unsaved changes of a buffer with a path. -/
theorem closes_saved_iff (steps : List (WorkspaceStep X)) (ws : Workspace X) :
    Along WorkspaceStep.watch WorkspaceStep.WritesOwnFile steps (start ws) ↔
      Always WorkspaceStep.watch ClosesSaved steps (start ws) :=
  along_iff_always_of_invariant (honest_start ws) (fun _ h ↦ h.closesSaved)
    (fun _ _ _ h ↦ h.step) fun _ _ _ ↦ writesOwnFile_of_closesSaved

-- A file of one byte, opened.
private def openedByte : Workspace (XiRope.reference UInt8) :=
  { fs := .single ['f'] [1]
    buffers := .withCurrentBuffer (.fromDataAndPath [1] (some ['f'])) }

-- A byte is inserted, and the data written under another name.
private def editAndWriteElsewhere : List (WorkspaceStep (XiRope.reference UInt8)) :=
  [.change (.final { delta := (XiRope.reference UInt8).simpleEdit 0 0 [9] 1, offsets := none }),
   .write ['g']]

/-- `:q` then quits, although the file of the buffer does not have the edit. -/
theorem quit_drops_edit :
    (runSteps WorkspaceStep.watch editAndWriteElsewhere (start openedByte)).map (fun w ↦
      ((Cmd.quit w.ws []).map Prod.fst, w.unsaved, w.ws.buffers.list.map fun b ↦ (b.path, b.data),
        w.ws.fs.read ['f'])) =
      some (some (.newMode .quitting), [true], [(some ['f'], [9, 1])], some [1]) ∧
    ¬ Always WorkspaceStep.watch ClosesSaved editAndWriteElsewhere (start openedByte) := by
  refine ⟨rfl, fun ha ↦ ?_⟩
  have hno : (runSteps WorkspaceStep.watch editAndWriteElsewhere (start openedByte)).map
      (fun w ↦ (w.unsaved, (Cmd.quit w.ws []).map Prod.fst,
        w.ws.buffers.list[0]?.map fun b ↦ b.path.isSome)) =
      some ([true], some (.newMode .quitting), some true) := rfl
  obtain ⟨w, hrun, hw⟩ := Option.map_eq_some_iff.mp hno
  obtain ⟨hu, hw⟩ := Prod.mk.inj hw
  obtain ⟨hq, hb⟩ := Prod.mk.inj hw
  obtain ⟨⟨t, ws'⟩, hq, rfl⟩ := Option.map_eq_some_iff.mp hq
  obtain ⟨b, hb, hp⟩ := Option.map_eq_some_iff.mp hb
  have hsaved := (ha.last hrun).quit ws' hq 0 b hb hp
  rw [hu] at hsaved
  cases hsaved

end Watched

end Tofu

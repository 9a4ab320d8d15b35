import Tofu.Modes.Requests
import Tofu.Modes.Workspace
import Tofu.View.Rounds
import Tofu.View.Saving

/-!
# Buffers and files in the event loop

Buffers are changed while they are shown, and files by the commands that write. Whatever is done
in the meantime, a buffer that is not shown keeps its data, its selection, its history and its
registers, and a file holds what it held before or what a buffer held when a command wrote it.
-/

namespace Tofu

open Rope

variable {X : XiRope UInt8} {fs : FileSystem} {height : Nat}

/-! ## Commands -/

/-- The name of a command, and what is behind the first blank, `command.rs:188–189`. -/
def Command.name (m : Command) : List Char := m.command.takeWhile (· ≠ ' ')

/-- What follows the first blank. -/
def Command.argument (m : Command) : Path := (m.command.dropWhile (· ≠ ' ')).tail

/-- The commands that write files. -/
def writeCommands : List (List Char) :=
  [['w'], ['w', 'r', 'i', 't', 'e'], ['w', 'q'], ['w', 'a'],
    ['w', 'r', 'i', 't', 'e', '-', 'a', 'l', 'l']]

/-- The commands that may quit without writing: `:q` does while no buffer with a path is flagged,
and `:q!` always. -/
def Command.Quits (m : Command) (ws : Workspace X) : Prop :=
  m.name ∈ [['q'], ['q', 'u', 'i', 't']] ∧ (∀ b ∈ ws.buffers.list, b.dirty = true → b.path = none) ∨
    m.name ∈ [['q', '!'], ['q', 'u', 'i', 't', '!']]

/-- What a command does to the files and the buffers, and the mode it goes on to. -/
inductive Command.Effect (m : Command) (ws : Workspace X) : ModeTransition → Workspace X → Prop
  | refused (info : String) : Effect m ws (.modeAndInfo (.normal .new) info) ws
  | quit (h : m.Quits ws) : Effect m ws (.newMode .quitting) ws
  | written {b b' : CurrentBuffer X} {path : Path} {fs : FileSystem}
      (hname : m.name ∈ writeCommands) (hb : ws.buffers.current = some b)
      (hpath : some path = b.path ∨ path = m.argument)
      (hw : ws.fs.write path b.data = some fs) :
      Effect m ws (.newMode (.normal .new)) { fs, buffers := ws.buffers.setCurrent b' }
  | writtenAll {mode : Mode} (hname : m.name ∈ writeCommands)
      (hmode : mode = .normal .new ∨ mode = .quitting ∧ m.name = ['w', 'q']) :
      Effect m ws
        (if (Cmd.writeBuffers ws.fs ws.buffers.list).1 then
          Cmd.writeFailed (Cmd.writeBuffers ws.fs ws.buffers.list).2.1
        else .newMode mode)
        { fs := (Cmd.writeBuffers ws.fs ws.buffers.list).2.1
          buffers := { ws.buffers with list := (Cmd.writeBuffers ws.fs ws.buffers.list).2.2 } }
  | shown (list : List (CurrentBuffer X)) (index : Nat) :
      Effect m ws (.modeAndDirtyBytes (.normal .new) .changeLength)
        { ws with buffers := { list := ws.buffers.list ++ list, curBufIndex := index } }
  | closed {buffers : BuffrCollection X} (h : ws.buffers.deleteCurrent = some buffers) :
      Effect m ws (.modeAndDirtyBytes (.normal .new) .changeLength) { ws with buffers }

namespace Command

variable {m : Command} {ws ws' : Workspace X} {t : ModeTransition}

private theorem effect_quit (hname : m.name ∈ [['q'], ['q', 'u', 'i', 't']])
    (h : Cmd.quit ws m.argument = some (t, ws')) : Effect m ws t ws' := by
  unfold Cmd.quit at h
  split at h
  · obtain ⟨rfl, rfl⟩ := Prod.mk.inj (Option.some.inj h)
    exact .refused _
  · next hnone =>
    obtain ⟨rfl, rfl⟩ := Prod.mk.inj (Option.some.inj h)
    refine .quit (.inl ⟨hname, fun b hb hd ↦ ?_⟩)
    by_contra hp
    exact hnone (List.any_eq_true.mpr ⟨b, hb, by simp [hd, Option.isSome_iff_ne_none.mpr hp]⟩)

private theorem effect_write (hname : m.name ∈ writeCommands)
    (h : Cmd.write ws m.argument = some (t, ws')) : Effect m ws t ws' := by
  obtain ⟨b, hb, h⟩ := Option.bind_eq_some_iff.mp h
  split at h
  · next path hpath =>
    split at h
    · obtain ⟨rfl, rfl⟩ := Prod.mk.inj (Option.some.inj h)
      exact .refused _
    · next fs hw =>
      obtain ⟨rfl, rfl⟩ := Prod.mk.inj (Option.some.inj h)
      refine .written hname hb ?_ hw
      split at hpath
      · exact .inl hpath.symm
      · exact .inr (Option.some.inj hpath).symm
  · obtain ⟨rfl, rfl⟩ := Prod.mk.inj (Option.some.inj h)
    exact .refused _

private theorem effect_writeAllThen {mode : Mode} (hname : m.name ∈ writeCommands)
    (hmode : mode = .normal .new ∨ mode = .quitting ∧ m.name = ['w', 'q'])
    (h : Cmd.writeAllThen mode ws = some (t, ws')) : Effect m ws t ws' := by
  obtain ⟨rfl, rfl⟩ := Prod.mk.inj (Option.some.inj h)
  exact .writtenAll hname hmode

private theorem effect_edit {filename : Path} (h : Cmd.edit ws filename = some (t, ws')) :
    Effect m ws t ws' := by
  unfold Cmd.edit at h
  split at h
  · obtain ⟨rfl, rfl⟩ := Prod.mk.inj (Option.some.inj h)
    exact .refused _
  · next buffers hs =>
    obtain ⟨rfl, rfl⟩ := Prod.mk.inj (Option.some.inj h)
    obtain ⟨canon, -, hs⟩ := Option.bind_eq_some_iff.mp hs
    obtain ⟨index, -, hs⟩ := Option.bind_eq_some_iff.mp hs
    cases index with
    | some index =>
      obtain rfl := Option.some.inj hs
      have hsame : Effect m ws (.modeAndDirtyBytes (.normal .new) .changeLength) { ws with
          buffers := { list := ws.buffers.list ++ [], curBufIndex := index } } := .shown [] index
      rwa [List.append_nil] at hsame
    | none =>
      obtain ⟨data, -, hs⟩ := Option.bind_eq_some_iff.mp hs
      obtain rfl := Option.some.inj hs
      exact .shown _ _

private theorem effect_forceDelete {arg : Path}
    (h : Cmd.forceDeleteCurrentBuffer ws arg = some (t, ws')) : Effect m ws t ws' := by
  obtain ⟨buffers, hd, h⟩ := Option.bind_eq_some_iff.mp h
  obtain ⟨rfl, rfl⟩ := Prod.mk.inj (Option.some.inj h)
  exact .closed hd

private theorem effect_delete {arg : Path} (h : Cmd.deleteCurrentBuffer ws arg = some (t, ws')) :
    Effect m ws t ws' := by
  obtain ⟨b, -, h⟩ := Option.bind_eq_some_iff.mp h
  split at h
  · obtain ⟨rfl, rfl⟩ := Prod.mk.inj (Option.some.inj h)
    exact .refused _
  · exact effect_forceDelete h

/-- Entering a command. -/
theorem effect_finish (h : m.finish ws = some (t, ws')) : Effect m ws t ws' := by
  unfold finish at h
  dsimp only at h
  split at h
  · next handler hlookup =>
    obtain ⟨before, behind, hsplit, -⟩ := List.lookup_eq_some_iff.mp hlookup
    have hmem : (m.name, handler) ∈ defaultCommands (X := X) := by
      rw [hsplit]
      simp [name]
    have h : handler ws m.argument = some (t, ws') := h
    simp only [defaultCommands, List.mem_cons, Prod.mk.injEq, List.not_mem_nil, or_false] at hmem
    have hforce (hname : m.name ∈ [['q', '!'], ['q', 'u', 'i', 't', '!']])
        (h : Cmd.forceQuit ws m.argument = some (t, ws')) : Effect m ws t ws' := by
      obtain ⟨rfl, rfl⟩ := Prod.mk.inj (Option.some.inj h)
      exact .quit (.inr hname)
    rcases hmem with ⟨hn, rfl⟩ | ⟨hn, rfl⟩ | ⟨hn, rfl⟩ | ⟨hn, rfl⟩ | ⟨hn, rfl⟩ | ⟨hn, rfl⟩ |
      ⟨hn, rfl⟩ | ⟨hn, rfl⟩ | ⟨hn, rfl⟩ | ⟨-, rfl⟩ | ⟨-, rfl⟩ | ⟨-, rfl⟩ | ⟨-, rfl⟩ |
      ⟨-, rfl⟩ | ⟨-, rfl⟩
    · exact effect_quit (by rw [hn]; decide) h
    · exact effect_quit (by rw [hn]; decide) h
    · exact hforce (by rw [hn]; decide) h
    · exact hforce (by rw [hn]; decide) h
    · exact effect_write (by rw [hn]; decide) h
    · exact effect_write (by rw [hn]; decide) h
    · exact effect_writeAllThen (by rw [hn]; decide) (.inr ⟨rfl, hn⟩) h
    · exact effect_writeAllThen (by rw [hn]; decide) (.inl rfl) h
    · exact effect_writeAllThen (by rw [hn]; decide) (.inl rfl) h
    · exact effect_edit h
    · exact effect_edit h
    · exact effect_delete h
    · exact effect_delete h
    · exact effect_forceDelete h
    · exact effect_forceDelete h
  · obtain ⟨rfl, rfl⟩ := Prod.mk.inj (Option.some.inj h)
    exact .refused _

/-- An event in the prompt leaves files and buffers alone and does not quit, or enters the
command. -/
theorem effect_transition {evt : Event} (h : m.transition evt ws = some (some (t, ws'))) :
    ws' = ws ∧ t.mode (.command m) ≠ .quitting ∨
      defaultMaps.eventToAction evt = some .finish ∧ Effect m ws t ws' := by
  have hprompt {m' : Command} (heq : (.newMode (.command m'), ws) = (t, ws')) :
      ws' = ws ∧ t.mode (.command m) ≠ .quitting := by
    obtain ⟨rfl, rfl⟩ := Prod.mk.inj heq
    exact ⟨rfl, by simp [ModeTransition.mode]⟩
  unfold transition at h
  split at h
  · next action haction =>
    obtain ⟨p, hp, heq⟩ := Option.map_eq_some_iff.mp h
    obtain rfl := Option.some.inj heq
    cases action with
    | finish => exact .inr ⟨haction, effect_finish hp⟩
    | removeLast =>
      simp only [act] at hp
      split at hp
      · obtain ⟨command, -, heq⟩ := Option.map_eq_some_iff.mp hp
        exact .inl (hprompt heq)
      · obtain ⟨rfl, rfl⟩ := Prod.mk.inj (Option.some.inj hp)
        exact .inl ⟨rfl, by simp [ModeTransition.mode]⟩
    | removeThis =>
      obtain ⟨command, -, heq⟩ := Option.map_eq_some_iff.mp hp
      exact .inl (hprompt heq)
    | cursorLeft | cursorRight => exact .inl (hprompt (Option.some.inj hp))
    | cancel =>
      obtain ⟨rfl, rfl⟩ := Prod.mk.inj (Option.some.inj hp)
      exact .inl ⟨rfl, by simp [ModeTransition.mode]⟩
  · split at h
    · split at h
      · cases h
      · obtain ⟨command, -, heq⟩ := Option.map_eq_some_iff.mp h
        exact .inl (hprompt (Option.some.inj heq))
    · cases h

end Command

/-! ## Buffers that are not shown -/

namespace BuffrCollection

variable {c c' : BuffrCollection X} {b b' b₁ : CurrentBuffer X}

/-- A buffer is among the others, but for its flag. -/
def Holds (c : BuffrCollection X) (b : CurrentBuffer X) : Prop :=
  ∃ dirty, { b with dirty } ∈ c.list

/-- The buffer that is shown has another path. -/
def ShowsOther (c : BuffrCollection X) (path : Option Path) : Prop :=
  ∃ b, c.current = some b ∧ b.path ≠ path

instance (c : BuffrCollection X) (path : Option Path) : Decidable (c.ShowsOther path) :=
  inferInstanceAs (Decidable (∃ b ∈ c.current, b.path ≠ path))

private theorem mem_set_of_path_ne (h : b ∈ c.list) (hcur : c.current = some b₁)
    (hne : b₁.path ≠ b.path) : b ∈ (c.setCurrent b').list := by
  obtain ⟨k, hk, rfl⟩ := List.mem_iff_getElem.mp h
  have hindex : c.curBufIndex ≠ k := by
    rintro rfl
    obtain ⟨_, rfl⟩ := List.getElem?_eq_some_iff.mp hcur
    exact hne rfl
  refine List.mem_iff_getElem.mpr ⟨k, by simpa [setCurrent] using hk, ?_⟩
  simp [setCurrent, List.getElem_set_of_ne hindex]

private theorem mem_deleteCurrent_of_path_ne (h : b ∈ c.list) (hcur : c.current = some b₁)
    (hne : b₁.path ≠ b.path) (hd : c.deleteCurrent = some c') : b ∈ c'.list := by
  have hmem : b ∈ c.list.eraseIdx c.curBufIndex := by
    obtain ⟨k, hk, rfl⟩ := List.mem_iff_getElem.mp h
    refine List.mem_eraseIdx_iff_getElem.mpr ⟨k, hk, ?_, rfl⟩
    rintro rfl
    obtain ⟨_, rfl⟩ := List.getElem?_eq_some_iff.mp hcur
    exact hne rfl
  unfold deleteCurrent at hd
  split at hd
  · obtain rfl := Option.some.inj hd
    dsimp only
    rw [if_neg (List.ne_nil_of_mem hmem)]
    exact hmem
  · cases hd

end BuffrCollection

/-- Writing all buffers keeps them, but for their flags. -/
theorem Cmd.exists_mem_writeBuffers {b : CurrentBuffer X} (fs : FileSystem)
    {list : List (CurrentBuffer X)} (h : b ∈ list) :
    ∃ dirty, { b with dirty } ∈ (Cmd.writeBuffers fs list).2.2 := by
  induction list generalizing fs with
  | nil => cases h
  | cons b₁ list ih =>
    rw [Cmd.writeBuffers]
    rcases List.mem_cons.mp h with rfl | h
    · split
      · exact ⟨b.dirty, List.mem_cons_self⟩
      · split
        · exact ⟨b.dirty, List.mem_cons_self⟩
        · exact ⟨false, List.mem_cons_self⟩
    · split
      · obtain ⟨dirty, hd⟩ := ih fs h
        exact ⟨dirty, List.mem_cons_of_mem _ hd⟩
      · split
        · exact ⟨b.dirty, List.mem_cons_of_mem _ h⟩
        · next fs' _ =>
          obtain ⟨dirty, hd⟩ := ih fs' h
          exact ⟨dirty, List.mem_cons_of_mem _ hd⟩

private theorem Command.Effect.holds {m : Command} {ws ws' : Workspace X} {t : ModeTransition}
    {b : CurrentBuffer X} (h : Effect m ws t ws') (hb : ws.buffers.Holds b)
    (hother : ws.buffers.ShowsOther b.path) : ws'.buffers.Holds b := by
  obtain ⟨dirty, hmem⟩ := hb
  obtain ⟨b₁, hcur, hne⟩ := hother
  cases h with
  | refused | quit => exact ⟨dirty, hmem⟩
  | written => exact ⟨dirty, BuffrCollection.mem_set_of_path_ne hmem hcur hne⟩
  | writtenAll =>
    obtain ⟨dirty', hmem'⟩ := Cmd.exists_mem_writeBuffers ws.fs hmem
    exact ⟨dirty', hmem'⟩
  | shown list index => exact ⟨dirty, List.mem_append_left _ hmem⟩
  | closed hd => exact ⟨dirty, BuffrCollection.mem_deleteCurrent_of_path_ne hmem hcur hne hd⟩

namespace HexView

variable {v v' : HexView X}

/-- The others are kept while something is loaded. -/
theorem Loads.holds {b : CurrentBuffer X} (h : Loads fs v v') (hb : v.buffrCollection.Holds b)
    (hother : v'.buffrCollection.ShowsOther b.path) : v'.buffrCollection.Holds b := by
  cases hcur : v.current with
  | none =>
    rw [h.empty hcur]
    exact hb
  | some b₁ =>
    obtain ⟨b', hlist, hpath, -⟩ := h.buffer b₁ hcur
    obtain ⟨b₂, hcur', hne⟩ := hother
    obtain ⟨dirty, hmem⟩ := hb
    rw [hlist] at hcur' ⊢
    obtain rfl := Option.some.inj ((BuffrCollection.current_of_setCurrent hcur).symm.trans hcur')
    exact ⟨dirty, BuffrCollection.mem_set_of_path_ne hmem hcur (hpath ▸ hne)⟩

/-- What the view does by itself it does to the buffer that is shown. -/
theorem exists_handleEventDefault {evt : Event} {b : CurrentBuffer X} (hb : v.current = some b)
    (h : v.handleEventDefault fs height evt = some v') :
    ∃ b', v'.buffrCollection = v.buffrCollection.setCurrent b' := by
  have hs := Loads.steps (X := X) fs height
  have hself : v.buffrCollection = v.buffrCollection.setCurrent b :=
    (BuffrCollection.setCurrent_eq_self hb).symm
  -- a change to a view whose current buffer was set
  have hthen {v₁ v₂ : HexView X} {b₁ : CurrentBuffer X} (hl : Loads fs v₁ v₂)
      (h₁ : v₁.buffrCollection = v.buffrCollection.setCurrent b₁) :
      ∃ b', v₂.buffrCollection = v.buffrCollection.setCurrent b' := by
    have hcur : v₁.current = some b₁ := by
      rw [current, h₁]
      exact BuffrCollection.current_of_setCurrent hb
    obtain ⟨b', hlist, -, -⟩ := hl.buffer b₁ hcur
    exact ⟨b', by rw [hlist, h₁, BuffrCollection.setCurrent_setCurrent]⟩
  have hmoved {v₁ v₂ : HexView X} {b₁ : CurrentBuffer X} {direction : Direction}
      (hm : v₁.moveCursors direction = some v₂)
      (h₁ : v₁.buffrCollection = v.buffrCollection.setCurrent b₁) :
      ∃ b', v₂.buffrCollection = v.buffrCollection.setCurrent b' := by
    obtain ⟨b₂, -, hm⟩ := Option.bind_eq_some_iff.mp hm
    obtain ⟨⟨b', dirty⟩, -, hm⟩ := Option.bind_eq_some_iff.mp hm
    obtain rfl := Option.some.inj hm
    exact ⟨b', by rw [setCurrent, h₁, BuffrCollection.setCurrent_setCurrent]⟩
  cases handles_of_handleEventDefault fs height v h with
  | resized hd =>
    exact hthen ((Loads.steps fs height).draw hd) hself
  | down _ hload hmove hscroll hd =>
    obtain ⟨b₁, h₁⟩ := hthen (hs.load hload) hself
    obtain ⟨b₂, h₂⟩ := hmoved hmove h₁
    exact hthen ((hs.scrollDown hscroll).trans (hs.draw hd)) h₂
  | up _ hmove hscroll hd =>
    obtain ⟨b₁, h₁⟩ := hmoved hmove hself
    exact hthen ((hs.scrollUp hscroll).trans (hs.draw hd)) h₁
  | key | mouse => exact ⟨b, hself⟩

end HexView

namespace Editor

variable {E : SearchEngine} {e e' : Editor X} {evt : Event} {inputs : List (Nat × Event)}
  {b : CurrentBuffer X}

/-- What a mode does to the files and the buffers. -/
theorem of_transition {mode : Mode} {ws ws' : Workspace X} {t : ModeTransition}
    {bytesPerLine : Nat} (h : mode.transition E evt ws bytesPerLine = some (some (t, ws'))) :
    (∃ b', ws' = { ws with buffers := ws.buffers.setCurrent b' }) ∨ ws' = ws ∨
      ∃ m, mode = .command m ∧ Command.defaultMaps.eventToAction evt = some .finish ∧
        m.Effect ws t ws' := by
  cases hm : mode.isPrompt with
  | true =>
    cases mode with
    | command m =>
      rcases Command.effect_transition h with ⟨hsame, -⟩ | ⟨haction, heffect⟩
      · exact .inr (.inl hsame)
      · exact .inr (.inr ⟨m, rfl, haction, heffect⟩)
    | normal | jumpTo | split | search | insert | replace | quitting => cases hm
  | false =>
    cases hb : ws.buffers.current with
    | none => cases (Mode.transition_eq_none hm hb).symm.trans h
    | some b =>
      rw [Mode.transition_eq_map E ws hm hb] at h
      obtain ⟨outcome, -, houtcome⟩ := Option.map_eq_some_iff.mp h
      obtain ⟨p, -, heq⟩ := Option.map_eq_some_iff.mp houtcome
      exact .inl ⟨p.2, (Prod.mk.inj heq).2.symm⟩

/-- One round keeps the buffers that are not shown. -/
theorem holds_step (hb : e.view.buffrCollection.Holds b)
    (hother : e.view.buffrCollection.ShowsOther b.path)
    (hother' : e'.view.buffrCollection.ShowsOther b.path)
    (h : Editor.step E height evt e = some e') : e'.view.buffrCollection.Holds b := by
  have hset {c : BuffrCollection X} {b' : CurrentBuffer X} (hc : c.Holds b)
      (ho : c.ShowsOther b.path) : (c.setCurrent b').Holds b := by
    obtain ⟨dirty, hmem⟩ := hc
    obtain ⟨b₁, hcur, hne⟩ := ho
    exact ⟨dirty, BuffrCollection.mem_set_of_path_ne hmem hcur hne⟩
  rcases round_cases h with ⟨t, ws, ht, -, hview⟩ | ⟨-, -, hview⟩
  · refine (HexView.loads_transition hview).holds ?_ hother'
    rcases of_transition ht with ⟨b', rfl⟩ | rfl | ⟨m, -, -, heffect⟩
    · exact hset hb hother
    · exact hb
    · exact heffect.holds hb hother
  · obtain ⟨b₁, hcur, -⟩ := id hother
    obtain ⟨b', hlist⟩ := HexView.exists_handleEventDefault hcur hview
    rw [hlist]
    exact hset hb hother

/-- A buffer that is not shown keeps its path, data, selection, history and registers, whatever
is done with the others. -/
theorem other_buffer_kept (E : SearchEngine) (hb : b ∈ e.view.buffrCollection.list)
    (hother : Always (stepAt E) (fun e ↦ e.view.buffrCollection.ShowsOther b.path) inputs e)
    (h : runSteps (stepAt E) inputs e = some e') :
    ∃ dirty, { b with dirty } ∈ e'.view.buffrCollection.list :=
  hother.keeps (I := fun e ↦ e.view.buffrCollection.Holds b) ⟨b.dirty, hb⟩
    (fun _ _ _ hother hother' hb hs ↦ holds_step hb hother hother' hs) h

-- Two files.
private def twoOpenFiles : FileSystem :=
  { files := fun p ↦ if p = ['f'] then some [1, 2, 3] else if p = ['g'] then some [4, 5] else none
    resolve := id
    writable := fun _ ↦ true
    errorText := "" }

-- The first byte is replaced.
private def replacing : List Event := [.key (.plain (.char 'r')), .key (.plain (.char 'x'))]

-- Events on a screen of five rows.
private def onFive (inputs : List Event) : List (Nat × Event) := inputs.map fun evt ↦ (5, evt)

-- A byte of the buffer that is shown is replaced, all buffers are written, the screen gets higher
-- and the change is undone.
private def editing : List (Nat × Event) :=
  onFive (replacing ++ commandKeys ['w', 'a']) ++
    [(9, .resize 80 9), (9, .key (.plain (.char 'u')))]

/-- The first file is changed and then left for the second, which is edited. -/
theorem other_buffer_kept_editing :
    ∃ (e e' : Editor (XiRope.reference UInt8)) (b : CurrentBuffer (XiRope.reference UInt8)),
      b.data = [0x78, 2, 3] ∧ b.dirty = true ∧
      runSteps (stepAt .reference) editing e = some e' ∧
      ∃ dirty, { b with dirty } ∈ e'.view.buffrCollection.list := by
  obtain ⟨e, hopen, b, hb, hdata, hdirty, hother, e', h⟩ :
      ∃ e ∈ (Editor.opened (X := XiRope.reference UInt8) twoOpenFiles ['f'] (80, 5)).bind
          (runSteps (stepAt .reference) (onFive (replacing ++ commandKeys ['e', ' ', 'g']))),
        ∃ b ∈ e.view.buffrCollection.list, b.data = [0x78, 2, 3] ∧ b.dirty = true ∧
          Always (stepAt .reference) (fun e ↦ e.view.buffrCollection.ShowsOther b.path) editing e ∧
          ∃ e' ∈ runSteps (stepAt .reference) editing e, True := by
    decide +kernel
  exact ⟨e, e', b, hdata, hdirty, h.1, other_buffer_kept .reference hb hother h.1⟩

/-! ## Files -/

/-- The last of the buffers of a file is the one that is left in it. -/
theorem read_writeBuffers_cases (fs : FileSystem) (list : List (CurrentBuffer X)) (path : Path) :
    (Cmd.writeBuffers fs list).2.1.read path = fs.read path ∨
      ∃ b ∈ list, ∃ p ∈ b.path, fs.resolve p = fs.resolve path ∧
        (Cmd.writeBuffers fs list).2.1.read path = some b.data := by
  induction list generalizing fs with
  | nil => exact .inl rfl
  | cons b list ih =>
    have hrest {fs' : FileSystem} (hfs : fs'.resolve = fs.resolve) :
        (Cmd.writeBuffers fs' list).2.1.read path = fs'.read path ∨
          ∃ b₁ ∈ b :: list, ∃ p ∈ b₁.path, fs.resolve p = fs.resolve path ∧
            (Cmd.writeBuffers fs' list).2.1.read path = some b₁.data := by
      refine (ih fs').imp_right fun ⟨b₁, hb₁, p, hp, hresolve, hread⟩ ↦ ?_
      exact ⟨b₁, List.mem_cons_of_mem _ hb₁, p, hp, by rwa [hfs] at hresolve, hread⟩
    rw [Cmd.writeBuffers]
    split
    · exact hrest rfl
    · next p hp =>
      split
      · exact .inl rfl
      · next fs' hw =>
        refine (hrest (FileSystem.extends_of_write hw).resolve).elim (fun hread ↦ ?_) .inr
        by_cases hresolve : fs.resolve path = fs.resolve p
        · refine .inr ⟨b, List.mem_cons_self, p, hp, hresolve.symm, ?_⟩
          exact hread.trans (FileSystem.read_of_write_eq hw hresolve)
        · exact .inl (hread.trans (FileSystem.read_of_write_ne hw hresolve))

/-- On this event a command is entered that writes this content to the file of a path, from a buffer
with a path of that file or to the name that was typed. -/
def Writes (path : Path) (evt : Event) (e : Editor X) (content : Option (List UInt8)) : Prop :=
  ∃ m, e.view.mode = .command m ∧ Command.defaultMaps.eventToAction evt = some .finish ∧
    m.name ∈ writeCommands ∧ ∃ b ∈ e.view.buffrCollection.list, ∃ target,
      (some target = b.path ∨ target = m.argument) ∧
      e.fs.resolve target = e.fs.resolve path ∧ content = some b.data

/-- A round leaves a file alone or writes a buffer to it. -/
theorem read_step (path : Path) (h : Editor.step E height evt e = some e') :
    e'.fs.read path = e.fs.read path ∨ Writes path evt e (e'.fs.read path) := by
  rcases round_cases h with ⟨t, ws, ht, hfs, -⟩ | ⟨-, hfs, -⟩
  · rw [hfs]
    rcases of_transition ht with ⟨b', rfl⟩ | rfl | ⟨m, hmode, haction, heffect⟩
    · exact .inl rfl
    · exact .inl rfl
    · cases heffect with
      | refused | quit | shown | closed => exact .inl rfl
      | @written b _ target fs hname hb htarget hw =>
        by_cases hresolve : e.fs.resolve path = e.fs.resolve target
        · exact .inr ⟨m, hmode, haction, hname, b, List.mem_of_getElem? hb, target, htarget,
            hresolve.symm, FileSystem.read_of_write_eq hw hresolve⟩
        · exact .inl (FileSystem.read_of_write_ne hw hresolve)
      | writtenAll hname _ =>
        refine (read_writeBuffers_cases e.fs e.view.buffrCollection.list path).imp_right
          fun ⟨b, hb, p, hp, hresolve, hread⟩ ↦ ?_
        exact ⟨m, hmode, haction, hname, b, hb, p, .inl hp.symm, hresolve, hread⟩
  · exact .inl (by rw [hfs])

/-- Where every write succeeds, each file of a buffer holds the data of a buffer of that file. -/
theorem read_writeBuffers_of_ok {fs : FileSystem} {list : List (CurrentBuffer X)}
    (h : (Cmd.writeBuffers fs list).1 = false) {b : CurrentBuffer X} (hb : b ∈ list) {path : Path}
    (hp : path ∈ b.path) :
    ∃ b' ∈ list, ∃ p ∈ b'.path, fs.resolve p = fs.resolve path ∧
      (Cmd.writeBuffers fs list).2.1.read path = some b'.data := by
  induction list generalizing fs with
  | nil => cases hb
  | cons b₁ list ih =>
    rw [Cmd.writeBuffers] at h ⊢
    split at h
    · next hnone =>
      rcases List.mem_cons.mp hb with rfl | hb
      · rw [hnone] at hp
        cases hp
      · obtain ⟨b', hb', p, hp, hresolve, hread⟩ := ih h hb
        exact ⟨b', List.mem_cons_of_mem _ hb', p, hp, hresolve, hread⟩
    · next path₁ hpath =>
      split at h
      · cases h
      · next fs' hw =>
        have hfs := (FileSystem.extends_of_write hw).resolve
        rcases List.mem_cons.mp hb with rfl | hb
        · obtain rfl := Option.some.inj (hpath.symm.trans hp)
          rcases read_writeBuffers_cases fs' list path₁ with
            hread | ⟨b', hb', p, hp, hresolve, hread⟩
          · exact ⟨b, List.mem_cons_self, path₁, hpath, rfl,
              hread.trans (FileSystem.read_of_write hw)⟩
          · exact ⟨b', List.mem_cons_of_mem _ hb', p, hp, by rwa [hfs] at hresolve, hread⟩
        · obtain ⟨b', hb', p, hp, hresolve, hread⟩ := ih h hb
          exact ⟨b', List.mem_cons_of_mem _ hb', p, hp, by rwa [hfs] at hresolve, hread⟩

/-- The event enters a command that quits without writing, or `:wq`, which leaves in the file of
each buffer the data of a buffer of that file. -/
def Quits (evt : Event) (e e' : Editor X) : Prop :=
  ∃ m, e.view.mode = .command m ∧ Command.defaultMaps.eventToAction evt = some .finish ∧
    (m.Quits { fs := e.fs, buffers := e.view.buffrCollection } ∧ e'.fs = e.fs ∨
      m.name = ['w', 'q'] ∧ ∀ b ∈ e.view.buffrCollection.list, ∀ path ∈ b.path,
        ∃ b' ∈ e.view.buffrCollection.list, ∃ p ∈ b'.path, e.fs.resolve p = e.fs.resolve path ∧
          e'.fs.read path = some b'.data)

private theorem quits_step (h : Editor.step E height evt e = some e')
    (hq : e'.view.mode = .quitting) :
    Quits evt e e' := by
  have hgoes := mode_ne_quitting_of_step h
  rcases round_cases h with ⟨t, ws, ht, hfs, hview⟩ | ⟨-, -, hview⟩
  · have hmode : t.mode e.view.mode = .quitting := (HexView.mode_transition hview).symm.trans hq
    cases hm : e.view.mode.isPrompt with
    | false =>
      cases hb : e.view.buffrCollection.current with
      | none => cases (Mode.transition_eq_none hm hb).symm.trans ht
      | some b =>
        rw [Mode.transition_eq_map E _ hm hb] at ht
        obtain ⟨outcome, ho, houtcome⟩ := Option.map_eq_some_iff.mp ht
        obtain ⟨⟨t', b'⟩, rfl, heq⟩ := Option.map_eq_some_iff.mp houtcome
        obtain ⟨rfl, -⟩ := Prod.mk.inj heq
        exact absurd hmode (Mode.ne_quitting_of_onBuffer ho)
    | true =>
      obtain ⟨m, hcommand⟩ : ∃ m, e.view.mode = .command m := by
        cases hmode : e.view.mode with
        | command m => exact ⟨m, rfl⟩
        | normal | jumpTo | split | search | insert | replace | quitting =>
          rw [hmode] at hm
          cases hm
      rw [hcommand] at ht hmode
      rcases Command.effect_transition ht with ⟨-, hne⟩ | ⟨haction, heffect⟩
      · exact absurd hmode hne
      · refine ⟨m, hcommand, haction, ?_⟩
        cases heffect with
        | refused | written | shown | closed => cases hmode
        | quit hquits => exact .inl ⟨hquits, hfs⟩
        | writtenAll hname hnext =>
          split at hmode
          · cases hmode
          · next hok =>
            have hok : (Cmd.writeBuffers e.fs e.view.buffrCollection.list).1 = false := by
              simpa using hok
            rcases hnext with rfl | ⟨-, hwq⟩
            · cases hmode
            · refine .inr ⟨hwq, fun b hb path hp ↦ ?_⟩
              rw [hfs]
              exact read_writeBuffers_of_ok hok hb hp
  · exact absurd ((HexView.mode_handleEventDefault hview).symm.trans hq) hgoes

/-- The event loop ends when a command is entered that quits. -/
theorem ends_by_command (E : SearchEngine) (h : runSteps (stepAt E) inputs e = some e')
    (hm : e.view.mode ≠ .quitting) (hq : e'.view.mode = .quitting) :
    ∃ pre input e₁, inputs = pre ++ [input] ∧ runSteps (stepAt E) pre e = some e₁ ∧
      Quits input.2 e₁ e' := by
  rcases inputs.eq_nil_or_concat with rfl | ⟨pre, input, rfl⟩
  · obtain rfl := Option.some.inj h
    exact absurd hq hm
  · rw [List.concat_eq_append, runSteps_append] at h
    obtain ⟨e₁, hpre, hlast⟩ := Option.bind_eq_some_iff.mp h
    obtain ⟨e₂, hstep, hnil⟩ := Option.bind_eq_some_iff.mp hlast
    obtain rfl := Option.some.inj hnil
    exact ⟨pre, input, e₁, by rw [List.concat_eq_append], hpre, quits_step hstep hq⟩

/-- A byte of the file is changed, and `:wq` ends the editor. -/
theorem ends_by_writeQuit :
    ∃ (e e' : Editor (XiRope.reference UInt8)) (inputs : List (Nat × Event)),
      runSteps (stepAt .reference) inputs e = some e' ∧
      e'.fs.read ['f'] = some [0x78, 2, 3] ∧
      ∃ pre input e₁, inputs = pre ++ [input] ∧
        runSteps (stepAt .reference) pre e = some e₁ ∧ Quits input.2 e₁ e' := by
  obtain ⟨e, hopen, hm, e', h, hread, hq⟩ :
      ∃ e ∈ Editor.opened (X := XiRope.reference UInt8) twoOpenFiles ['f'] (80, 5),
        e.view.mode ≠ .quitting ∧
        ∃ e' ∈ runSteps (stepAt .reference) (onFive (replacing ++ commandKeys ['w', 'q'])) e,
          e'.fs.read ['f'] = some [0x78, 2, 3] ∧ e'.view.mode = .quitting := by
    decide +kernel
  exact ⟨e, e', _, h, hread, ends_by_command .reference h hm hq⟩

end Editor

end Tofu

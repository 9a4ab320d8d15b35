import Tofu.View.Memory

/-!
# Rounds of the event loop

The event loop works on all buffers and moves the view, loads and trims as it draws. Where
nothing is trimmed and no command is entered, it does to the current buffer what a session does
that is given the same keys, with loads between them, and it does nothing to the others.
-/

namespace Tofu

open Rope

variable {X : XiRope UInt8} {fs : FileSystem} {height : Nat}

namespace BuffrCollection

variable {c : BuffrCollection X} {b b' : CurrentBuffer X}

/-- The current buffer in its own place changes nothing. -/
theorem setCurrent_eq_self (h : c.current = some b) : c.setCurrent b = c := by
  obtain ⟨list, index⟩ := c
  obtain ⟨hlt, rfl⟩ := List.getElem?_eq_some_iff.mp h
  simp only [setCurrent, List.set_getElem_self]

/-- Of two buffers in its place the second one stays. -/
theorem setCurrent_setCurrent : (c.setCurrent b).setCurrent b' = c.setCurrent b' := by
  simp only [setCurrent, List.set_set]

/-- The buffer in its place is the current one. -/
theorem current_of_setCurrent (h : c.current = some b) : (c.setCurrent b').current = some b' :=
  List.getElem?_set_self (List.getElem?_eq_some_iff.mp h).1

end BuffrCollection

/-- The buffer with another chunk of its file. -/
def CurrentBuffer.load (fs : FileSystem) (size : Nat) (b : CurrentBuffer X) :
    Option (CurrentBuffer X) :=
  (b.loadNextChunk fs size).map Prod.fst

instance (v : HexView X) : Decidable v.Untrimmed :=
  inferInstanceAs (Decidable (∀ c ∈ v.calls, c.trimmed = false))

/-! ## Loading into the current buffer -/

/-- Drawing changes the current buffer only, and by loads only if nothing is trimmed. -/
structure HexView.Loads (fs : FileSystem) (v v' : HexView X) : Prop where
  mode : v'.mode = v.mode
  bytesPerLine : v'.bytesPerLine = v.bytesPerLine
  untrimmed : v'.Untrimmed → v.Untrimmed
  empty : v.current = none → v'.buffrCollection = v.buffrCollection
  buffer : ∀ b, v.current = some b → ∃ b', v'.buffrCollection = v.buffrCollection.setCurrent b' ∧
    b'.path = b.path ∧
      (v'.Untrimmed → ∃ sizes, runSteps (CurrentBuffer.load fs) sizes b = some b')

namespace HexView

variable {v v' : HexView X}

/-- The buffers are the same. -/
theorem loads_of_eq (hm : v'.mode = v.mode) (hb : v'.bytesPerLine = v.bytesPerLine)
    (hc : v'.calls = v.calls) (hl : v'.buffrCollection = v.buffrCollection) : Loads fs v v' where
  mode := hm
  bytesPerLine := hb
  untrimmed h := by rwa [Untrimmed, hc] at h
  empty _ := hl
  buffer b hcur :=
    ⟨b, hl.trans (BuffrCollection.setCurrent_eq_self hcur).symm, rfl, fun _ ↦ ⟨[], rfl⟩⟩

/-- Loads in two steps are loads one after the other. -/
theorem Loads.trans {v'' : HexView X} (h : Loads fs v v') (h' : Loads fs v' v'') :
    Loads fs v v'' where
  mode := h'.mode.trans h.mode
  bytesPerLine := h'.bytesPerLine.trans h.bytesPerLine
  untrimmed hu := h.untrimmed (h'.untrimmed hu)
  empty hnone := by
    have hlist := h.empty hnone
    rw [h'.empty (by rw [current, hlist]; exact hnone), hlist]
  buffer b hb := by
    obtain ⟨b', hl, hp, hload⟩ := h.buffer b hb
    have hb' : v'.current = some b' := by
      rw [current, hl]
      exact BuffrCollection.current_of_setCurrent hb
    obtain ⟨b'', hl', hp', hload'⟩ := h'.buffer b' hb'
    refine ⟨b'', ?_, hp'.trans hp, fun hu ↦ ?_⟩
    · rw [hl', hl, BuffrCollection.setCurrent_setCurrent]
    · obtain ⟨sizes, hs⟩ := hload (h'.untrimmed hu)
      obtain ⟨sizes', hs'⟩ := hload' hu
      exact ⟨sizes ++ sizes', by rw [runSteps_append, hs, Option.bind_some, hs']⟩

private theorem loads_trimAfterLoad (h : v.trimAfterLoad height = some v') : Loads fs v v' := by
  obtain rfl | ⟨b, hb, -, rfl⟩ := trimAfterLoad_cases h
  · exact loads_of_eq rfl rfl rfl rfl
  · -- the trim is on the list of calls
    refine ⟨rfl, rfl, fun hu ↦ Bool.noConfusion (hu _ List.mem_cons_self),
      fun hnone ↦ ?_, fun b₀ hb₀ ↦ ?_⟩
    · rw [hb] at hnone
      cases hnone
    · obtain rfl := Option.some.inj (hb.symm.trans hb₀)
      exact ⟨_, rfl, rfl, fun hu ↦ Bool.noConfusion (hu _ List.mem_cons_self)⟩

/-- Every part of drawing and scrolling only loads. -/
theorem Loads.steps (fs : FileSystem) (height : Nat) : Steps (X := X) fs height (Loads fs) where
  refl _ := loads_of_eq rfl rfl rfl rfl
  trans := .trans
  load {v v' n loaded} h := by
    obtain ⟨b, hb, h⟩ := Option.bind_eq_some_iff.mp h
    obtain ⟨⟨b', read⟩, hl, h⟩ := Option.bind_eq_some_iff.mp h
    obtain ⟨rfl, -⟩ := Prod.mk.inj (Option.some.inj h)
    refine ⟨rfl, rfl, fun hu call hc ↦ hu call (List.mem_cons_of_mem _ hc), fun hnone ↦ ?_,
      fun b₀ hb₀ ↦ ?_⟩
    · rw [hb] at hnone
      cases hnone
    obtain rfl := Option.some.inj (hb.symm.trans hb₀)
    obtain ⟨chunk, rfl, -⟩ := CurrentBuffer.loadNextChunk_reads hl
    refine ⟨_, rfl, rfl, fun _ ↦ ⟨[n], ?_⟩⟩
    rw [runSteps_cons, CurrentBuffer.load, hl]
    rfl
  trim := loads_trimAfterLoad
  move _ _ := loads_of_eq rfl rfl rfl rfl

/-- A transition changes the mode, and loads. -/
theorem loads_transition {t : ModeTransition} (h : v.transition fs height t = some v') :
    Loads fs { v with mode := t.mode v.mode } v' := by
  have hs := Loads.steps (X := X) fs height
  have hinfo {mode : Mode} {info : Option String} :
      Loads fs { v with mode } { v with mode, info } := loads_of_eq rfl rfl rfl rfl
  cases t with
  | none | newMode | modeAndInfo =>
    obtain rfl := Option.some.inj h
    exact hinfo
  | dirtyBytes dirty => exact hinfo.trans (hs.transitionDirtyBytes h)
  | modeAndDirtyBytes mode dirty => exact hinfo.trans (hs.transitionDirtyBytes h)

end HexView

/-! ## Sessions -/

/-- The key, if the input is one. -/
def SessionInput.key? : SessionInput → Option KeyEvent
  | .key evt => some evt
  | .load _ => none

/-- The key, if the event is one. -/
def Event.key? : Event → Option KeyEvent
  | .key evt => some evt
  | .mouse | .resize _ _ => none

/-- The prompt of a command works on all buffers. -/
def Mode.isPrompt : Mode → Bool
  | .command _ => true
  | _ => false

namespace Session

variable {E : SearchEngine} {bytesPerLine : Nat}

/-- Loads are inputs of a session. -/
theorem runSteps_load {sizes : List Nat} {b b' : CurrentBuffer X} (mode : Mode)
    (h : runSteps (CurrentBuffer.load fs) sizes b = some b') :
    runSteps (step E fs bytesPerLine) (sizes.map .load) { mode, buffer := b } =
      some { mode, buffer := b' } := by
  induction sizes generalizing b with
  | nil =>
    obtain rfl := Option.some.inj h
    rfl
  | cons size sizes ih =>
    obtain ⟨b₁, hb₁, h⟩ := Option.bind_eq_some_iff.mp h
    obtain ⟨p, hp, rfl⟩ := Option.map_eq_some_iff.mp hb₁
    have hload : step E fs bytesPerLine (.load size) { mode, buffer := b } =
        some { mode, buffer := p.1 } := by
      simp only [step, hp, Option.map_some]
    rw [List.map_cons, runSteps_cons, hload, Option.bind_some, ih h]

private theorem filterMap_key_load (sizes : List Nat) :
    (sizes.map SessionInput.load).filterMap SessionInput.key? = [] := by
  induction sizes with
  | nil => rfl
  | cons size sizes ih => exact ih

end Session

/-- No mode handles what is not a key. -/
theorem Mode.onBuffer_of_key_eq_none {E : SearchEngine} {mode : Mode} {evt : Event}
    {b : CurrentBuffer X} {bytesPerLine : Nat} {outcome : Option (ModeTransition × CurrentBuffer X)}
    (hkey : evt.key? = none) (h : mode.onBuffer E evt b bytesPerLine = some outcome) :
    outcome = none := by
  cases evt with
  | key evt => cases hkey
  | mouse | resize => cases mode <;> first | exact (Option.some.inj h).symm | cases h

/-- The keys that scroll are handled by a mode whatever the buffer, or left to the view. -/
theorem Mode.onBuffer_of_scrollKey {E : SearchEngine} {mode : Mode} {evt : KeyEvent}
    {direction : Direction} {b : CurrentBuffer X} {bytesPerLine : Nat}
    (hkey : Session.scrollKey evt = some direction)
    (h : mode.onBuffer E (.key evt) b bytesPerLine = some none) (b' : CurrentBuffer X) :
    mode.onBuffer E (.key evt) b' bytesPerLine = some none := by
  rcases Session.of_scrollKey hkey with heq | heq
  · obtain ⟨rfl, -⟩ := Prod.mk.inj heq
    cases mode <;> first | rfl | cases h
  · obtain ⟨rfl, -⟩ := Prod.mk.inj heq
    cases mode <;> first | rfl | cases h

/-- Outside the prompt a mode works on the current buffer. -/
theorem Mode.transition_eq_map (E : SearchEngine) {mode : Mode} (ws : Workspace X)
    {b : CurrentBuffer X} (hm : mode.isPrompt = false) (hb : ws.buffers.current = some b)
    (evt : Event) (bytesPerLine : Nat) :
    mode.transition E evt ws bytesPerLine = (mode.onBuffer E evt b bytesPerLine).map fun outcome ↦
      outcome.map fun p ↦ (p.1, { ws with buffers := ws.buffers.setCurrent p.2 }) := by
  cases mode with
  | command m => cases hm
  | normal | jumpTo | split | search | insert | replace | quitting =>
    simp only [Mode.transition, hb, Option.bind_eq_bind, Option.bind_some, Option.map_eq_bind]
    rfl

/-- Without a current buffer a mode that is no prompt panics. -/
theorem Mode.transition_eq_none {E : SearchEngine} {mode : Mode} {ws : Workspace X} {evt : Event}
    {bytesPerLine : Nat} (hm : mode.isPrompt = false) (hb : ws.buffers.current = none) :
    mode.transition E evt ws bytesPerLine = none := by
  cases mode with
  | command m => cases hm
  | normal | jumpTo | split | search | insert | replace | quitting =>
    simp only [Mode.transition, hb, Option.bind_eq_bind, Option.bind_none]

/-! ## Rounds -/

/-- From a session with this mode and buffer, the keys and some loads lead to the mode and the
current buffer of a view, which has the other buffers of a collection. -/
def HexView.Reached (E : SearchEngine) (fs : FileSystem) (mode : Mode) (b : CurrentBuffer X)
    (c : BuffrCollection X) (keys : List KeyEvent) (v : HexView X) : Prop :=
  ∃ b' inputs, v.buffrCollection = c.setCurrent b' ∧
    inputs.filterMap SessionInput.key? = keys ∧
    runSteps (Session.step E fs v.bytesPerLine) inputs { mode, buffer := b } =
      some { mode := v.mode, buffer := b' }

namespace HexView.Reached

variable {E : SearchEngine} {mode : Mode} {b : CurrentBuffer X} {c : BuffrCollection X}
  {keys : List KeyEvent} {v v' : HexView X}

private theorem start (E : SearchEngine) (fs : FileSystem) (hb : v.current = some b) :
    v.Reached E fs v.mode b v.buffrCollection [] :=
  ⟨b, [], (BuffrCollection.setCurrent_eq_self hb).symm, rfl, rfl⟩

/-- Loads are not seen. -/
theorem load (h : v.Reached E fs mode b c keys) (hc : c.current = some b) (hl : Loads fs v v')
    (hu : v'.Untrimmed) : v'.Reached E fs mode b c keys := by
  obtain ⟨b₁, inputs, hlist, hkeys, hrun⟩ := h
  have hb₁ : v.current = some b₁ := by
    rw [HexView.current, hlist]
    exact BuffrCollection.current_of_setCurrent hc
  obtain ⟨b', hlist', -, hload⟩ := hl.buffer b₁ hb₁
  obtain ⟨sizes, hsizes⟩ := hload hu
  refine ⟨b', inputs ++ sizes.map .load, ?_, ?_, ?_⟩
  · rw [hlist', hlist, BuffrCollection.setCurrent_setCurrent]
  · rw [List.filterMap_append, hkeys, Session.filterMap_key_load, List.append_nil]
  · rw [hl.bytesPerLine, hl.mode, runSteps_append, hrun, Option.bind_some,
      Session.runSteps_load _ hsizes]

/-- A key is pressed. -/
theorem press {evt : KeyEvent} {b₁ b' : CurrentBuffer X} (h : v.Reached E fs mode b c keys)
    (hc : c.current = some b) (hb₁ : v.current = some b₁)
    (hlist' : v'.buffrCollection = v.buffrCollection.setCurrent b')
    (hline : v'.bytesPerLine = v.bytesPerLine)
    (hp : Session.press E v.bytesPerLine evt { mode := v.mode, buffer := b₁ } =
      some { mode := v'.mode, buffer := b' }) :
    v'.Reached E fs mode b c (keys ++ [evt]) := by
  obtain ⟨b₂, inputs, hlist, hkeys, hrun⟩ := h
  have hb₂ : v.current = some b₂ := by
    rw [HexView.current, hlist]
    exact BuffrCollection.current_of_setCurrent hc
  obtain rfl := Option.some.inj (hb₁.symm.trans hb₂)
  refine ⟨b', inputs ++ [.key evt], ?_, ?_, ?_⟩
  · rw [hlist', hlist, BuffrCollection.setCurrent_setCurrent]
  · rw [List.filterMap_append, hkeys]
    rfl
  · rw [hline, runSteps_append, hrun, Option.bind_some]
    rw [runSteps_cons, Session.step, hp]
    rfl

end HexView.Reached

section Rounds

variable {E : SearchEngine} {b : CurrentBuffer X} {v v' : HexView X}

private theorem HexView.calls_moveCursors {direction : Direction}
    (h : v.moveCursors direction = some v') : v'.calls = v.calls := by
  obtain ⟨b, -, h⟩ := Option.bind_eq_some_iff.mp h
  obtain ⟨⟨b', dirty⟩, -, h⟩ := Option.bind_eq_some_iff.mp h
  obtain rfl := Option.some.inj h
  rfl

/-- The cursors that move along with a scrolled line. -/
theorem HexView.Reached.moveCursors {evt : KeyEvent} {direction : Direction} {mode : Mode}
    {c : BuffrCollection X} {keys : List KeyEvent} {b₁ : CurrentBuffer X}
    (h : v.Reached E fs mode b c keys) (hc : c.current = some b) (hb₁ : v.current = some b₁)
    (hkey : Session.scrollKey evt = some direction)
    (hm : v.mode.onBuffer E (.key evt) b₁ v.bytesPerLine = some none)
    (hmove : v.moveCursors direction = some v') :
    v'.Reached E fs mode b c (keys ++ [evt]) := by
  obtain ⟨b₂, hb₂, hmove⟩ := Option.bind_eq_some_iff.mp hmove
  obtain rfl := Option.some.inj (hb₁.symm.trans hb₂)
  obtain ⟨⟨b', dirty⟩, hmap, hmove⟩ := Option.bind_eq_some_iff.mp hmove
  obtain rfl := Option.some.inj hmove
  refine h.press hc hb₁ rfl rfl ?_
  simp only [Session.press, hm, Session.pressDefault, hkey, hmap, Option.bind_eq_bind,
    Option.bind_some, Option.map_some]
  rfl

/-- What is left to the view. -/
theorem HexView.reached_handleEventDefault {evt : Event} (hb : v.current = some b)
    (hm : v.mode.onBuffer E evt b v.bytesPerLine = some none)
    (h : v.handleEventDefault fs height evt = some v') (hu : v'.Untrimmed) :
    v'.bytesPerLine = v.bytesPerLine ∧
      v'.Reached E fs v.mode b v.buffrCollection evt.key?.toList := by
  have hs := Loads.steps (X := X) fs height
  have hstart : v.Reached E fs v.mode b v.buffrCollection [] := .start E fs hb
  cases handles_of_handleEventDefault fs height v h with
  | mouse => exact ⟨rfl, hstart⟩
  | resized hd =>
    have hsize (width rows : Nat) : Loads fs v { v with size := (width, rows) } :=
      loads_of_eq rfl rfl rfl rfl
    have hl : Loads fs v v' := (hsize _ _).trans ((Loads.steps fs height).draw hd)
    exact ⟨hl.bytesPerLine, hstart.load hb hl hu⟩
  | key hkey =>
    refine ⟨rfl, hstart.press hb hb (BuffrCollection.setCurrent_eq_self hb).symm rfl ?_⟩
    simp only [Session.press, hm, Session.pressDefault, hkey, Option.bind_eq_bind, Option.bind_some]
  | @down key _ v₁ _ _ _ hkey hload hmove hscroll hd =>
    have hl₁ := hs.load hload
    have hl₂ := (hs.scrollDown hscroll).trans (hs.draw hd)
    have hu₁ : v₁.Untrimmed := by
      have hu₂ := hl₂.untrimmed hu
      rwa [Untrimmed, calls_moveCursors hmove] at hu₂
    obtain ⟨b₁, hlist₁, -⟩ := hl₁.buffer b hb
    have hb₁ : v₁.current = some b₁ := by
      rw [current, hlist₁]
      exact BuffrCollection.current_of_setCurrent hb
    have hm₁ : v₁.mode.onBuffer E (.key key) b₁ v₁.bytesPerLine = some none := by
      rw [hl₁.mode, hl₁.bytesPerLine]
      exact Mode.onBuffer_of_scrollKey hkey hm b₁
    refine ⟨?_, ((hstart.load hb hl₁ hu₁).moveCursors hb hb₁ hkey hm₁ hmove).load hb hl₂ hu⟩
    rw [hl₂.bytesPerLine, (sameFrame_moveCursors hmove).bytesPerLine, hl₁.bytesPerLine]
  | up hkey hmove hscroll hd =>
    have hl := (hs.scrollUp hscroll).trans (hs.draw hd)
    refine ⟨?_, (hstart.moveCursors hb hb hkey hm hmove).load hb hl hu⟩
    rw [hl.bytesPerLine, (sameFrame_moveCursors hmove).bytesPerLine]

/-- What the view itself handles leaves the mode. -/
theorem HexView.mode_handleEventDefault {evt : Event}
    (h : v.handleEventDefault fs height evt = some v') : v'.mode = v.mode := by
  cases evt with
  | mouse =>
    obtain rfl := Option.some.inj h
    rfl
  | resize width height => exact ((Loads.steps fs height).draw h).mode
  | key evt => exact (sameFrame_handleEventDefault h).mode

/-- What was trimmed stays on the list of calls. -/
theorem HexView.untrimmed_of_handleEventDefault {evt : Event}
    (h : v.handleEventDefault fs height evt = some v') (hu : v'.Untrimmed) : v.Untrimmed := by
  have hs := Loads.steps (X := X) fs height
  cases handles_of_handleEventDefault fs height v h with
  | resized hd => exact ((Loads.steps fs height).draw hd).untrimmed hu
  | down _ hload hmove hscroll hd =>
    have hu₂ := ((hs.scrollDown hscroll).trans (hs.draw hd)).untrimmed hu
    rw [Untrimmed, calls_moveCursors hmove] at hu₂
    exact (hs.load hload).untrimmed hu₂
  | up _ hmove hscroll hd =>
    have hu₁ := ((hs.scrollUp hscroll).trans (hs.draw hd)).untrimmed hu
    rwa [Untrimmed, calls_moveCursors hmove] at hu₁
  | key | mouse => exact hu

namespace Editor

variable {e e' : Editor X} {evt : Event}

private theorem untrimmed_of_step (h : Editor.step E height evt e = some e')
    (hu : e'.view.Untrimmed) :
    e.view.Untrimmed := by
  rcases round_cases h with ⟨t, ws, -, -, hview⟩ | ⟨-, -, hview⟩
  · exact (HexView.loads_transition hview).untrimmed hu
  · exact HexView.untrimmed_of_handleEventDefault hview hu

/-- Outside the prompt, a round is an event in a session and loads. -/
theorem reached_step (hb : e.view.current = some b) (hm : e.view.mode.isPrompt = false)
    (h : Editor.step E height evt e = some e') (hu : e'.view.Untrimmed) :
    e'.fs = e.fs ∧ e'.view.bytesPerLine = e.view.bytesPerLine ∧
      e'.view.Reached E e.fs e.view.mode b e.view.buffrCollection evt.key?.toList := by
  have hws := Mode.transition_eq_map E { fs := e.fs, buffers := e.view.buffrCollection } hm hb evt
    e.view.bytesPerLine
  rcases round_cases h with ⟨t, ws, ht, hfs, hview⟩ | ⟨ht, hfs, hview⟩
  · obtain ⟨outcome, ho, houtcome⟩ := Option.map_eq_some_iff.mp (hws.symm.trans ht)
    obtain ⟨⟨t', b'⟩, rfl, heq⟩ := Option.map_eq_some_iff.mp houtcome
    obtain ⟨rfl, rfl⟩ := Prod.mk.inj heq
    have hl : HexView.Loads e.fs { e.view with
        buffrCollection := e.view.buffrCollection.setCurrent b', mode := t'.mode e.view.mode }
        e'.view := HexView.loads_transition hview
    refine ⟨hfs, hl.bytesPerLine, ?_⟩
    cases evt with
    | mouse | resize => cases Mode.onBuffer_of_key_eq_none rfl ho
    | key key =>
      have hpress : Session.press E e.view.bytesPerLine key { mode := e.view.mode, buffer := b } =
          some { mode := t'.mode e.view.mode, buffer := b' } := by
        simp only [Session.press, ho, Option.bind_eq_bind, Option.bind_some]
      have hpressed : ({ e.view with
          buffrCollection := e.view.buffrCollection.setCurrent b', mode := t'.mode e.view.mode } :
          HexView X).Reached E e.fs e.view.mode b e.view.buffrCollection ([] ++ [key]) :=
        (HexView.Reached.start E e.fs hb).press hb hb rfl rfl hpress
      exact hpressed.load hb hl hu
  · obtain ⟨outcome, ho, houtcome⟩ := Option.map_eq_some_iff.mp (hws.symm.trans ht)
    obtain rfl := Option.map_eq_none_iff.mp houtcome
    exact ⟨hfs, HexView.reached_handleEventDefault hb ho hview hu⟩

/-- Where nothing was trimmed and no prompt was entered in between, the event loop leaves the
current buffer as a session does that is given its keys, with loads between them; the other
buffers and the files are as they were. -/
theorem run_refines_session (E : SearchEngine) {inputs : List (Nat × Event)}
    (hb : e.view.current = some b)
    (hm : Along (stepAt E) (fun _ e ↦ e.view.mode.isPrompt = false) inputs e)
    (h : runSteps (stepAt E) inputs e = some e') (hu : e'.view.Untrimmed) :
    ∃ steps b', steps.filterMap SessionInput.key? = inputs.filterMap (fun input ↦ input.2.key?) ∧
      runSteps (Session.step E e.fs e.view.bytesPerLine) steps
        { mode := e.view.mode, buffer := b } = some { mode := e'.view.mode, buffer := b' } ∧
      e'.view.buffrCollection = e.view.buffrCollection.setCurrent b' ∧ e'.fs = e.fs := by
  have hafter := (along_of_last (fun _ _ _ ↦ untrimmed_of_step) h hu).2
  -- the session at a state of the loop
  let R (e₁ : Editor X) (s : Session X) : Prop :=
    e₁.fs = e.fs ∧ e₁.view.bytesPerLine = e.view.bytesPerLine ∧ e₁.view.mode = s.mode ∧
      e₁.view.buffrCollection = e.view.buffrCollection.setCurrent s.buffer
  have hstart : R e { mode := e.view.mode, buffer := b } :=
    ⟨rfl, rfl, rfl, (BuffrCollection.setCurrent_eq_self hb).symm⟩
  obtain ⟨steps, s, hrun, hkeys, hfs, -, hmode, hlist⟩ := exists_answer
    (Session.step E e.fs e.view.bytesPerLine) R SessionInput.key? (fun input ↦ input.2.key?)
    (fun input e₁ e₂ s ⟨hm, hu⟩ ⟨hfs, hline, hmode, hlist⟩ hstep ↦ by
      have hb₁ : e₁.view.current = some s.buffer := by
        rw [HexView.current, hlist]
        exact BuffrCollection.current_of_setCurrent hb
      obtain ⟨hfs₂, hline₂, b₂, steps, hlist₂, hkeys, hrun⟩ :=
        reached_step hb₁ hm hstep (hu e₂ hstep)
      refine ⟨steps, { mode := e₂.view.mode, buffer := b₂ }, ?_, hkeys, hfs₂.trans hfs,
        hline₂.trans hline, rfl, ?_⟩
      · rw [hline₂, hline, hfs, hmode] at hrun
        exact hrun
      · rw [hlist₂, hlist, BuffrCollection.setCurrent_setCurrent]) (hm.and hafter) hstart h
  refine ⟨steps, s.buffer, hkeys, ?_, hlist, hfs⟩
  rw [hmode]
  exact hrun

-- Seventy bytes, of which the first screen holds sixty-four.
private def seventyBytes : FileSystem := .single ['f'] ((List.range 70).map Nat.toUInt8)

-- The cursor moves, a line is scrolled, which loads the rest of the file, a byte is typed and the
-- screen gets wider and higher.
private def scrolling : List (Nat × Event) :=
  [(5, .key (.plain (.char 'l'))), (5, .key (onCtrl 'e' ()).1), (5, .key (.plain (.char 'i'))),
    (5, .key (.plain (.char 'x'))), (7, .resize 90 7), (7, .key (.plain .esc))]

/-- The keys move the cursor down, which loads more of the file on the way. -/
theorem run_refines_session_scrolling :
    ∃ (e e' : Editor (XiRope.reference UInt8)) (b : CurrentBuffer (XiRope.reference UInt8)),
      e.view.current = some b ∧
      runSteps (stepAt .reference) scrolling e = some e' ∧ b.data.length = 64 ∧
      ∃ steps b',
        steps.filterMap SessionInput.key? = scrolling.filterMap (fun input ↦ input.2.key?) ∧
        runSteps (Session.step .reference e.fs e.view.bytesPerLine) steps
          { mode := e.view.mode, buffer := b } = some { mode := e'.view.mode, buffer := b' } ∧
        e'.view.buffrCollection = e.view.buffrCollection.setCurrent b' ∧ e'.fs = e.fs := by
  obtain ⟨e, hopen, b, hb, hlen, hm, e', h, hu⟩ :
      ∃ e ∈ Editor.opened (X := XiRope.reference UInt8) seventyBytes ['f'] (80, 5),
        ∃ b ∈ e.view.current, b.data.length = 64 ∧
        Along (stepAt .reference) (fun _ e ↦ e.view.mode.isPrompt = false) scrolling e ∧
        ∃ e' ∈ runSteps (stepAt .reference) scrolling e, e'.view.Untrimmed := by
    decide +kernel
  exact ⟨e, e', b, hb, h, hlen, run_refines_session .reference hb hm h hu⟩

end Editor

end Rounds

end Tofu

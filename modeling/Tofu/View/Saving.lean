import Tofu.View.Windows

/-!
# Saving a file that was not edited

The write commands put the data of the buffer in the place of the file. After a run
without an edit this leaves the file as it was when all of it has been loaded and nothing
dropped, and so after every such run exactly when the first chunk holds all of it.
-/

namespace Tofu

open Rope

variable {X : XiRope UInt8} {path : Path} {F : List UInt8} {height : Nat}

/-- The commands that save: `:w`, `:wa` and `:wq`. -/
def saveCommands : List (List Char) := [['w'], ['w', 'a'], ['w', 'q']]

/-- The keys of a command. -/
def commandKeys (command : List Char) : List Event :=
  (':' :: command).map (fun c ↦ .key (.plain (.char c))) ++ [.key (.plain .enter)]

/-- A save command writes the data of the only buffer to its path. -/
theorem finish_save {fs fs' : FileSystem} {b : CurrentBuffer X} {command : List Char}
    (hc : command ∈ saveCommands) (hp : b.path = some path)
    (hw : fs.write path b.data = some fs') (cursor : Nat) :
    ∃ mode buffers, Command.finish { command, cursor } { fs, buffers := .withCurrentBuffer b } =
      some (.newMode mode, { fs := fs', buffers }) := by
  have hall (mode : Mode) : ∃ buffers, Cmd.writeAllThen mode
      { fs, buffers := BuffrCollection.withCurrentBuffer b } =
        some (.newMode mode, { fs := fs', buffers }) := by
    simp only [Cmd.writeAllThen, BuffrCollection.withCurrentBuffer, Cmd.writeBuffers, hp, hw]
    exact ⟨_, rfl⟩
  simp only [saveCommands, List.mem_cons, List.not_mem_nil, or_false] at hc
  rcases hc with rfl | rfl | rfl
  · refine ⟨.normal .new, ?_⟩
    show ∃ buffers, Cmd.write { fs, buffers := BuffrCollection.withCurrentBuffer b } [] = _
    simp only [Cmd.write, BuffrCollection.current, BuffrCollection.withCurrentBuffer,
      List.getElem?_cons_zero, Option.bind_eq_bind, Option.bind_some, if_true, hp, hw]
    exact ⟨_, rfl⟩
  · exact ⟨_, hall (.normal .new)⟩
  · exact ⟨_, hall .quitting⟩

private theorem type_save {E : SearchEngine} {e : Editor X} {m : Normal} {b : CurrentBuffer X}
    {command : List Char} (hm : e.view.mode = .normal m)
    (hb : e.view.buffrCollection = .withCurrentBuffer b) (hc : command ∈ saveCommands) :
    runSteps (Editor.step E height) (commandKeys command) e =
      Editor.step E height (.key (.plain .enter))
        { e with view := { e.view with
            mode := .command { command, cursor := command.length }, info := none } } := by
  obtain ⟨fs, ⟨buffers, size, bytesPerLine, startOffset, mode, info, calls⟩⟩ := e
  obtain rfl : mode = .normal m := hm
  obtain rfl : buffers = .withCurrentBuffer b := hb
  have hlast (o : Option (Editor X)) : o.bind (runSteps (Editor.step E height) []) = o := by
    cases o <;> rfl
  simp only [saveCommands, List.mem_cons, List.not_mem_nil, or_false] at hc
  rcases hc with rfl | rfl | rfl
  · exact hlast _
  · exact hlast _
  · exact hlast _

/-- Saving in normal mode leaves the data of the buffer in the file. -/
theorem save_writes_data {E : SearchEngine} {e : Editor X} {m : Normal} {b : CurrentBuffer X}
    {command : List Char} (hm : e.view.mode = .normal m)
    (hb : e.view.buffrCollection = .withCurrentBuffer b) (hp : b.path = some path)
    (hw : e.fs.writable path = true) (hc : command ∈ saveCommands) :
    ∃ e', runSteps (Editor.step E height) (commandKeys command) e = some e' ∧
      e'.fs.read path = some b.data := by
  obtain ⟨fs', hfs⟩ : ∃ fs', e.fs.write path b.data = some fs' := by
    simp [FileSystem.write, hw]
  obtain ⟨mode, buffers, hf⟩ := finish_save hc hp hfs command.length
  have hstep : Editor.step E height (.key (.plain .enter))
      { e with view := { e.view with
          mode := .command { command, cursor := command.length }, info := none } } =
      some {
        fs := fs', view := { e.view with buffrCollection := buffers, mode, info := none } } := by
    have ht : Mode.transition E (.command { command, cursor := command.length })
        (.key (.plain .enter)) { fs := e.fs, buffers := e.view.buffrCollection }
        e.view.bytesPerLine = some (some (.newMode mode, { fs := fs', buffers })) := by
      rw [hb]
      exact congrArg (Option.map some) hf
    rw [Editor.step_of_ne Mode.noConfusion, ht]
    rfl
  rw [type_save hm hb hc, hstep]
  exact ⟨_, rfl, FileSystem.read_of_write hfs⟩

/-- Saving while nothing was dropped keeps the file exactly when all of it is loaded. -/
theorem save_loaded {E : SearchEngine} {e : Editor X} {m : Normal} {command : List Char}
    (hl : Loaded path F height e.view) (hw : e.fs.writable path = true)
    (hm : e.view.mode = .normal m) (hu : e.view.Untrimmed) (hc : command ∈ saveCommands) :
    ∃ b e', e.view.current = some b ∧ F.take (chunkSize height) <+: b.data ∧
      runSteps (Editor.step E height) (commandKeys command) e = some e' ∧
      (e'.fs.read path = some F ↔ F.length ≤ b.data.length) := by
  obtain ⟨b, hb, hp, -, hd⟩ := hl.buffer
  obtain ⟨hfirst, hdata⟩ := hd hu
  obtain ⟨e', hrun, hread⟩ : ∃ e', runSteps (Editor.step E height) (commandKeys command) e =
      some e' ∧ e'.fs.read path = some b.data := save_writes_data hm hb hp hw hc
  refine ⟨b, e', HexView.current_of_eq hb, hfirst, hrun, ?_⟩
  rw [hread, Option.some.injEq]
  constructor
  · intro h
    exact h ▸ Nat.le_refl _
  · exact fun h ↦ hdata.eq_of_length_le h

/-- Saving after a run without an edit that drops nothing from the top of the data leaves the
file as it was exactly when all of it has been loaded. It does so whatever the run and the
command exactly when the chunk that is read first holds all of the file. -/
theorem save_keeps_file_iff (E : SearchEngine) {fs : FileSystem} (hF : fs.read path = some F)
    (hw : fs.writable path = true) (width : Nat) (hh : 2 ≤ height ∧ height < 2 ^ 16) :
    ∃ e₀ : Editor X, Editor.opened fs path (width, height) = some e₀ ∧
      (∀ inputs e₁ m, Along (Editor.step E height) Editor.Reads inputs e₀ →
        runSteps (Editor.step E height) inputs e₀ = some e₁ → e₁.view.mode = .normal m →
        e₁.view.Untrimmed → ∀ command ∈ saveCommands, ∃ b e₂, e₁.view.current = some b ∧
          runSteps (Editor.step E height) (commandKeys command) e₁ = some e₂ ∧
          (e₂.fs.read path = some F ↔ F.length ≤ b.data.length)) ∧
      ((∀ inputs e₁ m, Along (Editor.step E height) Editor.Reads inputs e₀ →
          runSteps (Editor.step E height) inputs e₀ = some e₁ → e₁.view.mode = .normal m →
          ∀ command ∈ saveCommands, ∃ e₂,
            runSteps (Editor.step E height) (commandKeys command) e₁ = some e₂ ∧
            e₂.fs.read path = some F) ↔
        F.length ≤ (height - 1) * 16) := by
  obtain ⟨e₀, hopen, rfl, hmode, hu, hl, hfirst⟩ := Editor.opened_spec (X := X) hF width hh.2
  have hafter : ∀ {inputs e₁}, Along (Editor.step E height) Editor.Reads inputs e₀ →
      runSteps (Editor.step E height) inputs e₀ = some e₁ →
      e₁.fs.writable path = true ∧ Loaded path F height e₁.view := by
    intro inputs e₁ hr hrun
    obtain ⟨hfs, hl₁⟩ := (hl.always hF hr).last hrun
    exact ⟨hfs ▸ hw, hl₁⟩
  refine ⟨e₀, hopen, fun inputs e₁ m hr hrun hm hu₁ command hc ↦ ?_, fun h ↦ ?_,
    fun hlen inputs e₁ m hr hrun hm command hc ↦ ?_⟩
  · obtain ⟨hw₁, hl₁⟩ := hafter hr hrun
    obtain ⟨b, e₂, hb, -, hsave⟩ := save_loaded (E := E) hl₁ hw₁ hm hu₁ hc
    exact ⟨b, e₂, hb, hsave⟩
  · -- saving at once writes the first chunk
    obtain ⟨e₂, hrun, hread⟩ := h [] e₀ .new trivial rfl hmode ['w'] (by decide)
    obtain ⟨b, e₂', hb, -, hrun', hiff⟩ := save_loaded (E := E) hl hw hmode hu
      (show ['w'] ∈ saveCommands by decide)
    obtain rfl : e₂ = e₂' := Option.some.inj (hrun.symm.trans hrun')
    have hall : F.length ≤ b.data.length := hiff.mp hread
    by_contra hlong
    have hlong : chunkSize height < F.length := Nat.not_le.mp hlong
    have hdata := hfirst hlong
    rw [hb, Option.map_some, Option.some.injEq] at hdata
    rw [hdata, List.length_take] at hall
    omega
  · obtain ⟨hw₁, hl₁⟩ := hafter hr hrun
    have hlen : F.length ≤ chunkSize height := hlen
    obtain ⟨b, e₂, -, hpre, hsave, hiff⟩ := save_loaded (E := E) hl₁ hw₁ hm
      (hl₁.small (by omega)) hc
    rw [List.take_of_length_le hlen] at hpre
    exact ⟨e₂, hsave, hiff.mpr hpre.length_le⟩

/-- A file that the screen holds survives moving about and saving. -/
theorem save_keeps_small_file :
    let fs := FileSystem.single ['f'] [1, 2, 3]
    let X := XiRope.reference UInt8
    ∃ e₀ e₁ e₂ : Editor X, Editor.opened fs ['f'] (80, 5) = some e₀ ∧
      runSteps (Editor.step .reference 5) [.key (.plain (.char 'l'))] e₀ = some e₁ ∧
      runSteps (Editor.step .reference 5) (commandKeys ['w', 'q']) e₁ = some e₂ ∧
      e₂.fs.read ['f'] = some [1, 2, 3] := by
  intro fs X
  obtain ⟨e₀, hopen, -, h⟩ := save_keeps_file_iff (X := X) .reference
    (show fs.read ['f'] = some [1, 2, 3] from rfl) rfl 80 (show 2 ≤ 5 ∧ 5 < 2 ^ 16 by decide)
  have hr : ∀ e ∈ Editor.opened (X := X) fs ['f'] (80, 5),
      Along (Editor.step .reference 5) Editor.Reads [.key (.plain (.char 'l'))] e := by decide
  obtain ⟨e₁, hrun, hm⟩ : ∃ e₁, runSteps (Editor.step .reference 5) [.key (.plain (.char 'l'))] e₀ =
      some e₁ ∧ e₁.view.mode = .normal .new := by
    obtain rfl := Option.some.inj hopen
    exact ⟨_, rfl, rfl⟩
  obtain ⟨e₂, hsave, hread⟩ := h.mpr (by decide) _ e₁ .new (hr e₀ hopen) hrun hm ['w', 'q']
    (by decide)
  exact ⟨e₀, e₁, e₂, hopen, hrun, hsave, hread⟩

/-- Opening a file one byte longer than the screen and saving it at once drops that byte. -/
theorem save_cuts_file :
    let F : List UInt8 := (List.range 65).map Nat.toUInt8
    let fs := FileSystem.single ['f'] F
    ∃ e₀ e₁ : Editor (XiRope.reference UInt8), Editor.opened fs ['f'] (80, 5) = some e₀ ∧
      runSteps (Editor.step .reference 5) (commandKeys ['w']) e₀ = some e₁ ∧
      e₁.fs.read ['f'] = some (F.take 64) ∧ F.take 64 ≠ F :=
  ⟨_, _, rfl, rfl, rfl, by decide⟩

end Tofu

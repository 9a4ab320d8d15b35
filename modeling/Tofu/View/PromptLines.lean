import Tofu.Base.CursorLine
import Tofu.Modes.Prompt
import Tofu.Modes.SearchPrompt
import Tofu.View.Files

/-!
# Prompts as edited lines

The prompts of commands and of searches keep a text and the index of a cursor. Both are lines
with a cursor: a command prompt while its characters are one byte long, a search prompt always,
with the first digit of a byte standing as an element of its own until the second one amends it.
What is entered in the end is the text of the line.
-/

namespace Tofu

open Rope

variable {X : XiRope UInt8}

/-! ## Commands -/

namespace Command

/-- What a key does to the line. -/
def PromptKey.edit : PromptKey → CursorLine Char → CursorLine Char
  | .char c => CursorLine.insert c
  | .backspace => CursorLine.removeLast
  | .delete => CursorLine.removeThis
  | .left => CursorLine.left
  | .right => CursorLine.right

/-- The line after keys at the empty prompt. -/
def edited (keys : List (PromptKey × Bool)) : CursorLine Char :=
  keys.foldl (fun l key ↦ key.1.edit l) .empty

/-- The prompt that shows a line. -/
def ofLine (l : CursorLine Char) : Command := { command := l.text, cursor := l.cursor }

variable (ws : Workspace X)

/-- A safe key edits the line. -/
theorem press_ofLine {l : CursorLine Char} {key : PromptKey × Bool} (h : (ofLine l).Plain)
    (hs : KeySafe key (ofLine l)) :
    (ofLine l).press ws key = some (ofLine (key.1.edit l)) := by
  have hle : l.cursor ≤ l.text.length := h.cursor_le
  have hascii : Ascii l.text := h.ascii
  obtain ⟨key, shift⟩ := key
  cases key with
  | char c =>
    rw [press_char, ofLine, hascii.insertChar hle, Option.map_some, ← CursorLine.text_insert]
    rfl
  | backspace =>
    rw [press_backspace, ofLine]
    by_cases hz : l.cursor = 0
    · rw [if_neg (by simpa using hz), PromptKey.edit, l.removeLast_of_cursor_eq_zero hz]
      rfl
    · have hlt : l.cursor - 1 < l.text.length := by omega
      rw [if_pos hz, hascii.removeChar hlt, Option.map_some,
        ← List.eraseIdx_eq_take_drop_succ, ← l.text_removeLast hz, ofLine, PromptKey.edit,
        CursorLine.cursor_removeLast]
  | delete =>
    have hlt : l.cursor < l.text.length := by
      rw [← hascii.byteLen_eq]
      exact hs
    rw [press_delete, ofLine, hascii.removeChar hlt, Option.map_some,
      ← List.eraseIdx_eq_take_drop_succ, ← CursorLine.text_removeThis]
    rfl
  | left =>
    rw [press_left, ofLine, ofLine, PromptKey.edit, CursorLine.text_left, CursorLine.cursor_left]
  | right =>
    rw [press_right, ofLine, ofLine, PromptKey.edit, CursorLine.text_right, CursorLine.cursor_right,
      hascii.byteLen_eq]

/-- Safe keys edit the line. -/
theorem run_ofLine {l : CursorLine Char} {keys : List (PromptKey × Bool)} (h : (ofLine l).Plain)
    (hs : Along (press ws) KeySafe keys (ofLine l)) :
    runSteps (press ws) keys (ofLine l) =
      some (ofLine (keys.foldl (fun l key ↦ key.1.edit l) l)) := by
  induction keys generalizing l with
  | nil => rfl
  | cons key keys ih =>
    have hpress := press_ofLine ws h hs.1
    obtain ⟨m, hm, hplain⟩ := h.press ws hs.1
    obtain rfl := Option.some.inj (hm.symm.trans hpress)
    rw [runSteps_cons, hpress, Option.bind_some, ih hplain (hs.2 _ hpress)]
    rfl

private theorem plain_empty : (ofLine .empty).Plain :=
  ⟨fun c hc ↦ by simp [ofLine, CursorLine.text, CursorLine.empty] at hc, Nat.zero_le _⟩

private theorem run_edited {keys : List (PromptKey × Bool)}
    (hs : Along (press ws) KeySafe keys .new) :
    runSteps (press ws) keys .new = some (ofLine (edited keys)) :=
  run_ofLine ws plain_empty hs

/-- The text that is left has characters of one byte only. -/
theorem ascii_edited {keys : List (PromptKey × Bool)}
    (hs : Along (press ws) KeySafe keys .new) : Ascii (edited keys).text := by
  have hplain := hs.always (Q := Plain) plain_empty fun key m m' h hk hm ↦ by
    obtain ⟨m₁, hm₁, h₁⟩ := h.press ws hk
    obtain rfl := Option.some.inj (hm.symm.trans hm₁)
    exact h₁
  exact (hplain.last (run_edited ws hs)).ascii

/-- A text that is typed at once. -/
def typed (text : List Char) : List (PromptKey × Bool) := text.map fun c ↦ (.char c, false)

private theorem along_typed {text : List Char} (h : Ascii text) (m : Command) :
    Along (press ws) KeySafe (typed text) m := by
  induction text generalizing m with
  | nil => trivial
  | cons c text ih =>
    obtain ⟨hc, htext⟩ := List.forall_mem_cons.mp h
    exact ⟨hc, fun m' _ ↦ ih htext m'⟩

private theorem foldl_typed (text : List Char) (l : CursorLine Char) :
    (typed text).foldl (fun l key ↦ key.1.edit l) l =
      { before := text.reverse ++ l.before, behind := l.behind } := by
  induction text generalizing l with
  | nil => rfl
  | cons c text ih =>
    rw [List.reverse_cons, List.append_assoc]
    exact ih (l.insert c)

private theorem edited_typed (text : List Char) :
    edited (typed text) = { before := text.reverse, behind := [] } := by
  rw [edited, foldl_typed]
  simp [CursorLine.empty]

/-- Every command goes on to a mode of its own. -/
theorem Effect.transition_eq {m : Command} {ws ws' : Workspace X} {t : ModeTransition}
    (h : Effect m ws t ws') (fs : FileSystem) (height : Nat) (v : HexView X) (mode mode' : Mode) :
    HexView.transition fs height { v with mode } t =
      HexView.transition fs height { v with mode := mode' } t := by
  cases h with
  | refused | quit | written | shown | closed => rfl
  | writtenAll =>
    split
    · rfl
    · rfl

end Command

/-! ### The event loop at the prompt -/

namespace Editor

open Command

variable {E : SearchEngine} {height : Nat} {e : Editor X}

/-- The editor with a prompt. -/
def atPrompt (e : Editor X) (m : Command) : Editor X :=
  { e with view := { e.view with mode := .command m, info := none } }

/-- A round at the prompt. -/
theorem step_atPrompt (m : Command) (evt : Event) (e : Editor X) :
    Editor.step E height evt (e.atPrompt m) =
      (m.transition evt { fs := e.fs, buffers := e.view.buffrCollection }).bind fun
        | some (t, ws) => ({ (e.atPrompt m).view with
            buffrCollection := ws.buffers }.transition ws.fs height t).map
              fun view ↦ { fs := ws.fs, view }
        | none => ((e.atPrompt m).view.handleEventDefault e.fs height evt).map
            fun view ↦ { e.atPrompt m with view } :=
  Editor.step_of_ne Mode.noConfusion

/-- A key at the prompt. -/
theorem step_promptKey (m : Command) (key : PromptKey × Bool) :
    Editor.step E height (key.1.event key.2) (e.atPrompt m) =
      (m.press { fs := e.fs, buffers := e.view.buffrCollection } key).map e.atPrompt := by
  obtain ⟨key, shift⟩ := key
  cases key with
  | char c =>
    have htrans (ws : Workspace X) : m.transition (PromptKey.event shift (.char c)) ws =
        (insertChar m.command m.cursor c).map fun command ↦
          some (.newMode (.command { command, cursor := m.cursor + 1 }), ws) := rfl
    rw [step_atPrompt, htrans, press_char]
    cases insertChar m.command m.cursor c <;> rfl
  | backspace =>
    have htrans (ws : Workspace X) : m.transition (PromptKey.event shift .backspace) ws =
        (m.act .removeLast ws).map some := rfl
    rw [step_atPrompt, htrans, press_backspace]
    simp only [act]
    split
    · cases removeChar m.command (m.cursor - 1) <;> rfl
    · rfl
  | delete =>
    have htrans (ws : Workspace X) : m.transition (PromptKey.event shift .delete) ws =
        (m.act .removeThis ws).map some := rfl
    rw [step_atPrompt, htrans, press_delete]
    simp only [act]
    cases removeChar m.command m.cursor <;> rfl
  | left => rfl
  | right => rfl

private theorem run_promptKeys (m : Command) (keys : List (PromptKey × Bool)) :
    runSteps (Editor.step E height) (keys.map fun key ↦ key.1.event key.2) (e.atPrompt m) =
      (runSteps (press { fs := e.fs, buffers := e.view.buffrCollection }) keys m).map
        e.atPrompt := by
  induction keys generalizing m with
  | nil => rfl
  | cons key keys ih =>
    rw [List.map_cons, runSteps_cons, step_promptKey, runSteps_cons]
    cases m.press { fs := e.fs, buffers := e.view.buffrCollection } key with
    | none => rfl
    | some m' => exact ih m'

/-- Entering a command reads its text only. -/
theorem step_enter_congr {m m' : Command} (h : m.command = m'.command) :
    Editor.step E height (.key (.plain .enter)) (e.atPrompt m) =
      Editor.step E height (.key (.plain .enter)) (e.atPrompt m') := by
  have htrans (m : Command) (ws : Workspace X) :
      m.transition (.key (.plain .enter)) ws = (m.finish ws).map some := rfl
  have hfinish (ws : Workspace X) : m.finish ws = m'.finish ws := by
    simp only [finish, h]
  rw [step_atPrompt, step_atPrompt, htrans, htrans, hfinish]
  cases hm : m'.finish { fs := e.fs, buffers := e.view.buffrCollection } with
  | none => rfl
  | some outcome =>
    obtain ⟨t, ws⟩ := outcome
    have hview := (effect_finish hm).transition_eq ws.fs height
      { e.view with buffrCollection := ws.buffers, info := none } (.command m) (.command m')
    exact congrArg (Option.map (Editor.mk ws.fs)) hview

/-- The key that opens the prompt. -/
theorem atPrompt_of_colon {e₁ : Editor X} {n : Normal} (hm : e.view.mode = .normal n)
    (h : Editor.step E height (.key (.plain (.char ':'))) e = some e₁) : e₁ = e.atPrompt .new := by
  have hbuffer (b : CurrentBuffer X) : (Mode.normal n).onBuffer E (.key (.plain (.char ':'))) b
      e.view.bytesPerLine = .keep b (.newMode (.command .new)) := by
    have hcount : n.countState.transition (.key (.plain (.char ':'))) = none := rfl
    have haction : Normal.defaultMaps.eventToAction (.key (.plain (.char ':'))) =
        some .commandMode := by decide
    simp only [Mode.onBuffer, Normal.transition, hcount, haction, Normal.act]
  have htrans {o} (ho : e.view.mode.transition E (.key (.plain (.char ':')))
      { fs := e.fs, buffers := e.view.buffrCollection } e.view.bytesPerLine = some o) :
      o = some (.newMode (.command .new),
        { fs := e.fs, buffers := e.view.buffrCollection }) := by
    cases hb : e.view.buffrCollection.current with
    | none =>
      rw [hm, Mode.transition_eq_none rfl hb] at ho
      cases ho
    | some b =>
      rw [hm, Mode.transition_eq_map E { fs := e.fs, buffers := e.view.buffrCollection } rfl hb,
        hbuffer] at ho
      obtain rfl := Option.some.inj ho
      simp only [Option.map_some, BuffrCollection.setCurrent_eq_self hb]
  rcases round_cases h with ⟨t, ws, ht, hfs, hview⟩ | ⟨ht, -, -⟩
  · obtain ⟨rfl, rfl⟩ := Prod.mk.inj (Option.some.inj (htrans ht))
    obtain ⟨fs, view⟩ := e₁
    obtain rfl : fs = e.fs := hfs
    obtain rfl := Option.some.inj hview
    rfl
  · cases htrans ht

/-- However the line was edited, Enter does what it does when the text that is left is typed at
once. -/
theorem edited_command_runs_text (E : SearchEngine) (height : Nat) {n : Normal}
    {keys : List (PromptKey × Bool)} (hm : e.view.mode = .normal n)
    (hs : Along (press { fs := e.fs, buffers := e.view.buffrCollection }) KeySafe keys .new) :
    runSteps (Editor.step E height) (.key (.plain (.char ':')) ::
        (keys.map (fun key ↦ key.1.event key.2) ++ [.key (.plain .enter)])) e =
      runSteps (Editor.step E height) (commandKeys (edited keys).text) e := by
  rw [commandKeys, List.map_cons, List.cons_append, runSteps_cons, runSteps_cons]
  cases hcolon : Editor.step E height (.key (.plain (.char ':'))) e with
  | none => rfl
  | some e₁ =>
    obtain rfl := atPrompt_of_colon hm hcolon
    have hevents : (edited keys).text.map (fun c ↦ Event.key (.plain (.char c))) =
        (typed (edited keys).text).map fun key ↦ key.1.event key.2 := by
      rw [typed, List.map_map]
      rfl
    rw [hevents, Option.bind_some, Option.bind_some, runSteps_append, runSteps_append,
      run_promptKeys, run_promptKeys, run_edited _ hs,
      run_edited _ (along_typed _ (ascii_edited _ hs) .new), edited_typed]
    simp only [Option.map_some, Option.bind_some, runSteps_cons, runSteps_nil]
    rw [step_enter_congr]
    simp [ofLine, CursorLine.text]

-- A command of two characters, the first of them typed last, after a slip.
private def slippedKeys : List (PromptKey × Bool) :=
  [(.char 'q', false), (.left, false), (.char 'e', false), (.backspace, false), (.char 'w', false)]

/-- A slip on the way to `:wq` leaves no trace. -/
theorem edited_command_writeQuit :
    ∃ e ∈ Editor.opened (X := XiRope.reference UInt8) (.single ['f'] [1, 2, 3]) ['f'] (80, 5),
      runSteps (Editor.step .reference 5) (.key (.plain (.char ':')) ::
          (slippedKeys.map (fun key ↦ key.1.event key.2) ++ [.key (.plain .enter)])) e =
        runSteps (Editor.step .reference 5) (commandKeys ['w', 'q']) e := by
  obtain ⟨e, hopen, hm, hs⟩ :
      ∃ e ∈ Editor.opened (X := XiRope.reference UInt8) (.single ['f'] [1, 2, 3]) ['f'] (80, 5),
        e.view.mode = .normal .new ∧
        Along (press { fs := e.fs, buffers := e.view.buffrCollection }) KeySafe slippedKeys
          .new := by
    decide +kernel
  exact ⟨e, hopen, edited_command_runs_text .reference 5 hm hs⟩

end Editor

/-! ## Searches -/

/-- A search prompt as a line of pieces. In hex, the first digit of a byte is a piece of its own,
the last one before the cursor, until the second digit amends it. -/
structure PatternLine where
  line : CursorLine PatternPiece
  hex : Bool
  half : Option UInt8
  pending : half.isSome → hex = true ∧ line.cursor ≠ 0

namespace PatternLine

/-- A line with nothing pending. -/
def settled (line : CursorLine PatternPiece) (hex : Bool) : PatternLine :=
  { line, hex, half := none, pending := by simp }

/-- What a bound key does to the line. -/
def act (p : PatternLine) : Search.Action → PatternLine
  | .insertNull => settled (p.line.insert (.literal 0)) p.hex
  | .insertWildcard => settled (p.line.insert .wildcard) p.hex
  | .removeLast => settled p.line.removeLast p.hex
  | .removeThis => settled p.line.removeThis p.hex
  | .cursorLeft => settled p.line.left p.hex
  | .cursorRight => settled p.line.right p.hex
  | .switchInputMode => settled p.line (!p.hex)
  | .cancel | .finish => p

/-- What a character does to the line. -/
def typed (p : PatternLine) (ch : Char) : PatternLine :=
  if hhex : p.hex = true then
    match hexDigit ch, p.half with
    | none, _ => p
    | some digit, some half => settled (p.line.amend (.literal (half ||| digit))) p.hex
    | some digit, none =>
      { p with
        line := p.line.insert (.literal (digit <<< 4))
        half := some (digit <<< 4)
        pending := fun _ ↦ ⟨hhex, by simp⟩ }
  else settled (p.line.insert (.literal ch.toNat.toUInt8)) p.hex

/-- What a key does to the line. -/
def press (p : PatternLine) (key : KeyEvent) : PatternLine :=
  match Search.defaultMaps.eventToAction (.key key) with
  | some action => p.act action
  | none =>
    match key.code with
    | .char ch => if key.modifiers.isEmpty then p.typed ch else p
    | _ => p

/-- The line after keys at the empty prompt. -/
def edited (hex : Bool) (keys : List KeyEvent) : PatternLine :=
  keys.foldl press (settled .empty hex)

/-- The prompt that shows a line: its cursor is before a pending digit. -/
def search (p : PatternLine) (next : SearchAcceptor) : Search :=
  { pattern := { pieces := p.line.text }
    cursor := if p.half.isSome then p.line.cursor - 1 else p.line.cursor
    hex := p.hex
    hexHalf := p.half
    next }

variable (p : PatternLine) (next : SearchAcceptor)

private theorem skipped_search : (p.search next).skipped = p.line.cursor := by
  have hpending := p.pending
  unfold Search.skipped search
  dsimp only
  split
  · next hsome => have := (hpending hsome).2; omega
  · rfl

private theorem half_eq_none (h : p.line.cursor = 0) : p.half = none := by
  by_contra hsome
  exact (p.pending (Option.isSome_iff_ne_none.mpr hsome)).2 h

private theorem eq_settled {p : PatternLine} (h : p.half = none) : p = settled p.line p.hex := by
  obtain ⟨line, hex, half, pending⟩ := p
  obtain rfl : half = none := h
  rfl

/-- A bound key that neither enters nor cancels the search. -/
theorem act_search (E : SearchEngine) (b : CurrentBuffer X) {action : Search.Action}
    (hfinish : action ≠ .finish) (hcancel : action ≠ .cancel) :
    ∃ t, (p.search next).act E action b = .keep b t ∧
      t.mode (.search (p.search next)) = .search ((p.act action).search next) := by
  have hskip := p.skipped_search next
  have hinsert (piece : PatternPiece) : (p.search next).pattern.insertPiece
      (p.search next).skipped piece =
        some ({ pieces := (p.line.insert piece).text }, (p.line.insert piece).cursor) := by
    rw [hskip, CursorLine.text_insert_eq_insertIdx, CursorLine.cursor_insert]
    exact Search.insertPiece_of_le (p := (p.search next).pattern) p.line.cursor_le piece
  -- what every key that changes the line leaves
  have hprompt (pattern : Pattern) (cursor : Nat) (hex : Bool) {line : CursorLine PatternPiece}
      (hp : pattern = { pieces := line.text }) (hc : cursor = line.cursor) :
      ∃ t, Outcome.keep b (.newMode (.search ((p.search next).edited pattern cursor hex))) =
          .keep b t ∧
        t.mode (.search (p.search next)) = .search ((settled line hex).search next) :=
    ⟨_, rfl, by rw [hp, hc]; rfl⟩
  cases action with
  | insertNull =>
    have h : (p.search next).act E .insertNull b =
        ((p.search next).pattern.insertPiece (p.search next).skipped (.literal 0)).bind fun q ↦
          Outcome.keep b (.newMode (.search ((p.search next).edited q.1 q.2 p.hex))) := rfl
    rw [h, hinsert]
    exact hprompt _ _ _ rfl rfl
  | insertWildcard =>
    have h : (p.search next).act E .insertWildcard b =
        ((p.search next).pattern.insertPiece (p.search next).skipped .wildcard).bind fun q ↦
          Outcome.keep b (.newMode (.search ((p.search next).edited q.1 q.2 p.hex))) := rfl
    rw [h, hinsert]
    exact hprompt _ _ _ rfl rfl
  | removeLast =>
    by_cases hz : p.line.cursor = 0
    · refine ⟨.none, if_neg ?_, congrArg Mode.search ?_⟩
      · rw [← hskip] at hz
        exact not_not.mpr hz
      · rw [act, p.line.removeLast_of_cursor_eq_zero hz, eq_settled (p.half_eq_none hz)]
        rfl
    · rw [← hskip] at hz
      have h : (p.search next).act E .removeLast b = .keep b (.newMode (.search
          ((p.search next).edited ((p.search next).pattern.remove ((p.search next).skipped - 1))
            ((p.search next).skipped - 1) p.hex))) :=
        if_pos hz
      rw [hskip] at hz
      rw [h, hskip]
      exact hprompt _ _ _ (congrArg Pattern.mk (p.line.text_removeLast hz).symm)
        p.line.cursor_removeLast.symm
  | removeThis =>
    have h : (p.search next).act E .removeThis b = .keep b (.newMode (.search
        ((p.search next).edited ((p.search next).pattern.remove (p.search next).skipped)
          (p.search next).skipped p.hex))) := rfl
    rw [h, hskip]
    exact hprompt _ _ _ (congrArg Pattern.mk p.line.text_removeThis.symm) rfl
  | cursorLeft =>
    have h : (p.search next).act E .cursorLeft b = .keep b (.newMode (.search
        ((p.search next).edited (p.search next).pattern
          (if (p.search next).skipped ≠ 0 then (p.search next).skipped - 1
            else (p.search next).skipped) p.hex))) := rfl
    rw [h, hskip]
    refine hprompt _ _ _ (congrArg Pattern.mk p.line.text_left.symm) ?_
    rw [CursorLine.cursor_left]
    split <;> omega
  | cursorRight =>
    have h : (p.search next).act E .cursorRight b = .keep b (.newMode (.search
        ((p.search next).edited (p.search next).pattern
          (if (p.search next).skipped < (p.search next).pattern.pieces.length then
            (p.search next).skipped + 1 else (p.search next).skipped) p.hex))) := rfl
    rw [h, hskip]
    exact hprompt _ _ _ (congrArg Pattern.mk p.line.text_right.symm) p.line.cursor_right.symm
  | switchInputMode =>
    have h : (p.search next).act E .switchInputMode b = .keep b (.newMode (.search
        ((p.search next).edited (p.search next).pattern (p.search next).skipped (!p.hex)))) := rfl
    rw [h, hskip]
    exact hprompt _ _ _ rfl rfl
  | cancel => exact absurd rfl hcancel
  | finish => exact absurd rfl hfinish

section Typed

variable {p : PatternLine} {ch : Char} {digit half : UInt8}

private theorem typed_ascii (hhex : p.hex = false) (ch : Char) :
    p.typed ch = settled (p.line.insert (.literal ch.toNat.toUInt8)) false := by
  rw [typed, dif_neg (by rw [hhex]; exact Bool.false_ne_true), hhex]

private theorem typed_refused (hhex : p.hex = true) (hd : hexDigit ch = none) : p.typed ch = p := by
  rw [typed, dif_pos hhex]
  simp only [hd]

private theorem search_typed_first (hhex : p.hex = true) (hhalf : p.half = none)
    (hd : hexDigit ch = some digit) :
    (p.typed ch).search next =
      { pattern := { pieces := (p.line.insert (.literal (digit <<< 4))).text }
        cursor := p.line.cursor
        hex := p.hex
        hexHalf := some (digit <<< 4)
        next } := by
  rw [typed, dif_pos hhex]
  simp only [hd, hhalf]
  rfl

private theorem typed_second (hhex : p.hex = true) (hhalf : p.half = some half)
    (hd : hexDigit ch = some digit) :
    p.typed ch = settled (p.line.amend (.literal (half ||| digit))) p.hex := by
  rw [typed, dif_pos hhex]
  simp only [hd, hhalf]

/-- In ascii nothing is pending. -/
theorem half_of_ascii (hhex : p.hex = false) : p.half = none := by
  by_contra hsome
  have hpending := p.pending (Option.isSome_iff_ne_none.mpr hsome)
  rw [hhex] at hpending
  cases hpending.1

end Typed

/-- A character is refused or changes the line. -/
theorem typed_search (ch : Char) (b : CurrentBuffer X) :
    (p.search next).typed ch b = .unhandled ∧ p.typed ch = p ∨
      (p.search next).typed ch b = .keep b (.newMode (.search ((p.typed ch).search next))) := by
  have hle := p.line.cursor_le
  -- without a pending digit the prompt has its cursor where the line has it
  have hcursor : p.half = none → (p.search next).cursor = p.line.cursor := fun hhalf ↦ by
    simp only [search, hhalf, Option.isSome_none, Bool.false_eq_true, if_false]
  cases hhex : p.hex with
  | false =>
    have hhalf := half_of_ascii hhex
    right
    rw [typed_ascii hhex, Search.typed_ascii hhex (by rw [hcursor hhalf]; exact hle) ch b,
      hcursor hhalf]
    simp only [search, settled, hhex, hhalf, CursorLine.text_insert_eq_insertIdx]
    rfl
  | true =>
    cases hd : hexDigit ch with
    | none =>
      left
      refine ⟨?_, typed_refused hhex hd⟩
      simp [Search.typed, search, hhex, hd]
    | some digit =>
      right
      cases hhalf : p.half with
      | none =>
        rw [search_typed_first next hhex hhalf hd,
          Search.typed_first hhex hhalf hd (by rw [hcursor hhalf]; exact hle) b,
          hcursor hhalf, CursorLine.text_insert_eq_insertIdx]
        simp only [search, hhalf]
      | some half =>
        have hz : p.line.cursor ≠ 0 := (p.pending (by rw [hhalf]; rfl)).2
        have hbefore : (p.search next).cursor = p.line.cursor - 1 := by
          simp only [search, hhalf, Option.isSome_some, if_true]
        have hlt : (p.search next).cursor < (p.search next).pattern.pieces.length := by
          rw [hbefore]
          exact Nat.lt_of_lt_of_le (Nat.sub_one_lt hz) hle
        rw [typed_second hhex hhalf hd, Search.typed_second hhex hhalf hd hlt b, hbefore,
          Nat.sub_one_add_one hz]
        simp only [search, settled, p.line.text_amend _ hz, p.line.cursor_amend _ hz]
        rfl

/-- The keys that edit the pattern: they neither enter nor cancel the search, and are not the
ones that scroll. -/
def Edits (key : KeyEvent) : Prop :=
  Search.defaultMaps.eventToAction (.key key) ≠ some .finish ∧
    Search.defaultMaps.eventToAction (.key key) ≠ some .cancel ∧ Session.scrollKey key = none

instance (key : KeyEvent) : Decidable (Edits key) := inferInstanceAs (Decidable (_ ∧ _ ∧ _))

/-- A key at the prompt. -/
theorem press_search (E : SearchEngine) (bytesPerLine : Nat) (b : CurrentBuffer X) {key : KeyEvent}
    (h : Edits key) :
    Session.press E bytesPerLine key { mode := .search (p.search next), buffer := b } =
      some { mode := .search ((p.press key).search next), buffer := b } := by
  obtain ⟨hfinish, hcancel, hscroll⟩ := h
  have hkeep {t : ModeTransition}
      (ht : (p.search next).transition E (.key key) b = .keep b t) :
      Session.press E bytesPerLine key { mode := .search (p.search next), buffer := b } =
        some { mode := t.mode (.search (p.search next)), buffer := b } := by
    unfold Session.press
    rw [show Mode.onBuffer E (.search (p.search next)) (.key key) b bytesPerLine = _ from ht]
    rfl
  have hunhandled (ht : (p.search next).transition E (.key key) b = .unhandled) :
      Session.press E bytesPerLine key { mode := .search (p.search next), buffer := b } =
        some { mode := .search (p.search next), buffer := b } := by
    unfold Session.press
    rw [show Mode.onBuffer E (.search (p.search next)) (.key key) b bytesPerLine = _ from ht]
    show Session.pressDefault bytesPerLine key _ = _
    rw [Session.pressDefault, hscroll]
  cases haction : Search.defaultMaps.eventToAction (.key key) with
  | some action =>
    have hfinish : action ≠ .finish := fun heq ↦ hfinish (by rw [haction, heq])
    have hcancel : action ≠ .cancel := fun heq ↦ hcancel (by rw [haction, heq])
    obtain ⟨t, ht, hmode⟩ := p.act_search next E b hfinish hcancel
    rw [hkeep ((Search.transition_of_bound haction b).trans ht), hmode, press, haction]
  | none =>
    obtain ⟨code, modifiers⟩ := key
    cases code with
    | char ch =>
      by_cases hmod : modifiers.isEmpty = true
      · have htrans : (p.search next).transition E (.key { code := .char ch, modifiers }) b =
            (p.search next).typed ch b := by
          simp only [Search.transition, haction, hmod, Bool.not_true, Bool.false_eq_true, if_false]
        have hpress : p.press { code := .char ch, modifiers } = p.typed ch := by
          simp only [press, haction, hmod, if_true]
        rw [hpress]
        rcases p.typed_search next ch b with ⟨hty, heq⟩ | hty
        · rw [hunhandled (htrans.trans hty), heq]
        · rw [hkeep (htrans.trans hty)]
          rfl
      · have hpress : p.press { code := .char ch, modifiers } = p := by
          simp only [press, haction, hmod, Bool.false_eq_true, if_false]
        rw [hpress]
        exact hunhandled (by simp [Search.transition, haction, hmod])
    | _ =>
      rw [hunhandled (by simp only [Search.transition, haction]), press]
      simp only [haction]

/-- Keys at the prompt leave the prompt of the edited line, and the buffer as it is. -/
theorem prompt_edits_line (E : SearchEngine) (bytesPerLine : Nat) (next : SearchAcceptor)
    (hex : Bool) (b : CurrentBuffer X) {keys : List KeyEvent} (h : ∀ key ∈ keys, Edits key) :
    runSteps (Session.press E bytesPerLine) keys
        { mode := .search (.new next hex), buffer := b } =
      some { mode := .search ((edited hex keys).search next), buffer := b } := by
  have hrun (p : PatternLine) : runSteps (Session.press E bytesPerLine) keys
      { mode := .search (p.search next), buffer := b } =
        some { mode := .search ((keys.foldl press p).search next), buffer := b } := by
    induction keys generalizing p with
    | nil => rfl
    | cons key keys ih =>
      obtain ⟨hkey, hkeys⟩ := List.forall_mem_cons.mp h
      rw [runSteps_cons, p.press_search next E bytesPerLine b hkey, Option.bind_some, ih hkeys]
      rfl
  exact hrun (settled .empty hex)

-- In hex: a byte, a wildcard that is removed again, the first digit of a byte, a cursor key that
-- leaves it as it is, and a byte before it.
private def mixedDigits : List KeyEvent :=
  [.plain (.char '4'), .plain (.char '1'),
    { code := .char 'w', modifiers := { KeyModifiers.none with control := true } },
    .plain .backspace, .plain (.char '5'), .plain .left, .plain (.char '6'), .plain (.char '2')]

private def someBytes : CurrentBuffer (XiRope.reference UInt8) :=
  .fromDataAndPath [0x41, 0x62, 0x50] none

/-- A byte is completed between two others, one of which has a single digit. -/
theorem prompt_edits_digits :
    (edited true mixedDigits).line.text = [.literal 0x41, .literal 0x62, .literal 0x50] ∧
      runSteps (Session.press .reference 16) mixedDigits
          { mode := .search (.new .collapse true), buffer := someBytes } =
        some { mode := .search ((edited true mixedDigits).search .collapse),
               buffer := someBytes } :=
  ⟨by decide, prompt_edits_line .reference 16 .collapse true someBytes (by decide)⟩

end PatternLine

end Tofu

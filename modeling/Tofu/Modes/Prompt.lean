import Tofu.Modes.Command

/-!
# Typing at the command prompt

The cursor of the prompt, `src/src/modes/command.rs:203–246`, is moved by one for each key
and used as a byte index into UTF-8 text. It stays on a boundary while every character
typed is one byte long.
-/

namespace Tofu

open Rope

variable {X : XiRope UInt8}

namespace Command

/-- A byte offset between characters of the text, or at one of its ends. -/
def IsBoundary (text : List Char) (offset : Nat) : Prop :=
  ∃ before behind, text = before ++ behind ∧ byteLen before = offset

/-- The keys the prompt handles before Enter or Esc. -/
inductive PromptKey where
  | char (c : Char)
  | backspace
  | delete
  | left
  | right
  deriving DecidableEq, Repr

/-- The event of a key of the prompt. -/
def PromptKey.event (shift : Bool) (key : PromptKey) : Event :=
  let code : KeyCode := match key with
    | .char c => .char c
    | .backspace => .backspace
    | .delete => .delete
    | .left => .left
    | .right => .right
  .key { code, modifiers := { KeyModifiers.none with shift } }

/-- The prompt after a key; `none` is a panic. -/
def press (ws : Workspace X) (key : PromptKey × Bool) (m : Command) : Option Command :=
  (m.transition (key.1.event key.2) ws).map fun
    | some (.newMode (.command m'), _) => m'
    | _ => m

/-- The keys that are safe: characters of one byte, and Delete before the end. -/
def KeySafe (key : PromptKey × Bool) (m : Command) : Prop :=
  match key.1 with
  | .char c => c.utf8Size = 1
  | .delete => m.cursor < byteLen m.command
  | .backspace | .left | .right => True

instance (key : PromptKey × Bool) (m : Command) : Decidable (KeySafe key m) :=
  match key with
  | (.char _, _) => inferInstanceAs (Decidable (_ = _))
  | (.delete, _) => inferInstanceAs (Decidable (_ < _))
  | (.backspace, _) | (.left, _) | (.right, _) => inferInstanceAs (Decidable True)

/-! ## What a key does -/

/-- A character goes in at the cursor, if that is on a boundary. -/
theorem press_char (ws : Workspace X) (m : Command) (c : Char) (shift : Bool) :
    m.press ws (.char c, shift) =
      (insertChar m.command m.cursor c).map fun command ↦ { command, cursor := m.cursor + 1 } := by
  have htrans : m.transition (PromptKey.event shift (.char c)) ws =
      (insertChar m.command m.cursor c).map fun command ↦
        some (.newMode (.command { command, cursor := m.cursor + 1 }), ws) := rfl
  rw [press, htrans, Option.map_map]
  rfl

/-- The character before the cursor goes. -/
theorem press_backspace (ws : Workspace X) (m : Command) (shift : Bool) :
    m.press ws (.backspace, shift) =
      if m.cursor ≠ 0 then
        (removeChar m.command (m.cursor - 1)).map fun command ↦ { command, cursor := m.cursor - 1 }
      else some m := by
  have htrans : m.transition (PromptKey.event shift .backspace) ws =
      (m.act .removeLast ws).map some := rfl
  rw [press, htrans]
  simp only [act]
  split
  · rw [Option.map_map, Option.map_map]
    rfl
  · rfl

/-- The character at the cursor goes. -/
theorem press_delete (ws : Workspace X) (m : Command) (shift : Bool) :
    m.press ws (.delete, shift) =
      (removeChar m.command m.cursor).map fun command ↦ { m with command } := by
  have htrans : m.transition (PromptKey.event shift .delete) ws =
      (m.act .removeThis ws).map some := rfl
  rw [press, htrans]
  simp only [act]
  rw [Option.map_map, Option.map_map]
  rfl

/-- The cursor moves left, one byte at a time. -/
theorem press_left (ws : Workspace X) (m : Command) (shift : Bool) :
    m.press ws (.left, shift) = some { m with cursor := m.cursor - 1 } := rfl

/-- The cursor moves right, up to the end. -/
theorem press_right (ws : Workspace X) (m : Command) (shift : Bool) :
    m.press ws (.right, shift) =
      some { m with cursor := if m.cursor < byteLen m.command then m.cursor + 1 else m.cursor } :=
  rfl

/-! ## Text of one-byte characters -/

/-- Every character is one byte long. -/
def Ascii (text : List Char) : Prop := ∀ c ∈ text, c.utf8Size = 1

/-- No text has no bytes. -/
@[simp] theorem byteLen_nil : byteLen [] = 0 := rfl

/-- The bytes of a text are those of its characters. -/
@[simp] theorem byteLen_cons (c : Char) (text : List Char) :
    byteLen (c :: text) = c.utf8Size + byteLen text := by
  rw [byteLen, List.map_cons, List.sum_cons, byteLen]

/-- ASCII text has a byte for each character. -/
theorem Ascii.byteLen_eq {text : List Char} (h : Ascii text) : byteLen text = text.length := by
  induction text with
  | nil => rfl
  | cons c text ih =>
    rw [byteLen_cons, h c (by simp), ih fun d hd ↦ h d (by simp [hd]), List.length_cons,
      Nat.add_comm]

/-- The start of ASCII text is ASCII text. -/
theorem Ascii.take {text : List Char} (h : Ascii text) (n : Nat) : Ascii (text.take n) :=
  fun c hc ↦ h c (List.mem_of_mem_take hc)

private theorem Ascii.drop {text : List Char} (h : Ascii text) (n : Nat) : Ascii (text.drop n) :=
  fun c hc ↦ h c (List.mem_of_mem_drop hc)

/-- So are two ASCII texts one after the other. -/
theorem Ascii.append {text rest : List Char} (h : Ascii text) (h' : Ascii rest) :
    Ascii (text ++ rest) := fun c hc ↦ (List.mem_append.mp hc).elim (h c) (h' c)

/-- Byte offsets are indices of characters. -/
theorem Ascii.splitAtByte {text : List Char} (h : Ascii text) {n : Nat} (hn : n ≤ text.length) :
    splitAtByte text n = some (text.take n, text.drop n) := by
  induction text generalizing n with
  | nil =>
    obtain rfl : n = 0 := by simpa using hn
    rfl
  | cons c text ih =>
    cases n with
    | zero => rfl
    | succ n =>
      have hc := h c (by simp)
      rw [Command.splitAtByte, hc, if_pos (by omega), Nat.add_sub_cancel,
        ih (fun d hd ↦ h d (by simp [hd])) (by simpa using hn)]
      rfl

/-- Every offset in ASCII text is on a boundary, so that a character can go in there. -/
theorem Ascii.insertChar {text : List Char} (h : Ascii text) {n : Nat} (hn : n ≤ text.length)
    (c : Char) : insertChar text n c = some (text.take n ++ c :: text.drop n) := by
  rw [Command.insertChar, h.splitAtByte hn]
  rfl

/-- Every character of ASCII text can be taken away. -/
theorem Ascii.removeChar {text : List Char} (h : Ascii text) {n : Nat} (hn : n < text.length) :
    removeChar text n = some (text.take n ++ text.drop (n + 1)) := by
  rw [Command.removeChar, h.splitAtByte (Nat.le_of_lt hn), List.drop_eq_getElem_cons hn]
  rfl

private theorem Ascii.removeChar_end {text : List Char} (h : Ascii text) :
    Command.removeChar text text.length = none := by
  rw [Command.removeChar, h.splitAtByte (Nat.le_refl _), List.drop_length]
  rfl

private theorem Ascii.isBoundary {text : List Char} (h : Ascii text) {n : Nat}
    (hn : n ≤ text.length) :
    IsBoundary text n :=
  ⟨text.take n, text.drop n, (List.take_append_drop ..).symm, by
    rw [(h.take n).byteLen_eq, List.length_take, Nat.min_eq_left hn]⟩

/-- One byte into a longer character there is no boundary. -/
theorem Ascii.not_isBoundary {before : List Char} (h : Ascii before) {c : Char}
    (hc : c.utf8Size ≠ 1) (behind : List Char) :
    ¬ IsBoundary (before ++ c :: behind) (before.length + 1) := by
  have hpos := c.utf8Size_pos
  rintro ⟨pre, post, heq, hlen⟩
  induction before generalizing pre with
  | nil =>
    cases pre with
    | nil => simp at hlen
    | cons d pre =>
      obtain ⟨rfl, -⟩ := List.cons.inj heq
      rw [byteLen_cons, List.length_nil] at hlen
      omega
  | cons b before ih =>
    cases pre with
    | nil => simp at hlen
    | cons d pre =>
      obtain ⟨rfl, htail⟩ := List.cons.inj heq
      rw [byteLen_cons, h b (by simp), List.length_cons] at hlen
      exact ih (fun e he ↦ h e (by simp [he])) pre htail (by omega)

/-! ## Runs of keys -/

/-- The text has characters of one byte only and the cursor is within it. -/
structure Plain (m : Command) : Prop where
  ascii : Ascii m.command
  cursor_le : m.cursor ≤ m.command.length

/-- The cursor is a boundary of the text and not behind its end. -/
def CursorOnText (m : Command) : Prop :=
  IsBoundary m.command m.cursor ∧ m.cursor ≤ byteLen m.command

/-- The cursor of a plain prompt is on a boundary of its text. -/
theorem Plain.cursorOnText {m : Command} (h : m.Plain) : m.CursorOnText :=
  ⟨h.ascii.isBoundary h.cursor_le, by rw [h.ascii.byteLen_eq]; exact h.cursor_le⟩

private theorem Plain.remove {m : Command} (h : m.Plain) {n : Nat} (hn : n < m.command.length) :
    Plain { command := m.command.take n ++ m.command.drop (n + 1), cursor := n } := by
  refine ⟨(h.ascii.take n).append (h.ascii.drop (n + 1)), ?_⟩
  change n ≤ _
  rw [List.length_append, List.length_take]
  omega

/-- A safe key leaves plain text. -/
theorem Plain.press {m : Command} (h : m.Plain) (ws : Workspace X) {key : PromptKey × Bool}
    (hs : KeySafe key m) : ∃ m', m.press ws key = some m' ∧ m'.Plain := by
  have hle := h.cursor_le
  have hlen := h.ascii.byteLen_eq
  obtain ⟨key, shift⟩ := key
  cases key with
  | char c =>
    refine ⟨_, by rw [press_char, h.ascii.insertChar hle, Option.map_some], ?_, ?_⟩
    · refine (h.ascii.take _).append fun d hd ↦ ?_
      obtain rfl | hd := List.mem_cons.mp hd
      · exact hs
      · exact h.ascii.drop _ d hd
    · simp only [List.length_append, List.length_take, List.length_cons, List.length_drop]
      omega
  | backspace =>
    by_cases hz : m.cursor = 0
    · exact ⟨m, by rw [press_backspace, if_neg (by simpa using hz)], h⟩
    · have hlt : m.cursor - 1 < m.command.length := by omega
      refine ⟨_, ?_, h.remove hlt⟩
      rw [press_backspace, if_pos hz, h.ascii.removeChar hlt, Option.map_some]
  | delete =>
    have hlt : m.cursor < m.command.length := by rw [← hlen]; exact hs
    exact ⟨_, by rw [press_delete, h.ascii.removeChar hlt, Option.map_some], h.remove hlt⟩
  | left => exact ⟨_, press_left ws m shift, h.ascii, by simp only; omega⟩
  | right =>
    refine ⟨_, press_right ws m shift, h.ascii, ?_⟩
    simp only [hlen]
    split <;> omega

/-- A key that is not safe panics or puts the cursor into a character. -/
theorem Plain.keySafe {m m' : Command} (h : m.Plain) {ws : Workspace X} {key : PromptKey × Bool}
    (hp : m.press ws key = some m') (hq : m'.CursorOnText) : KeySafe key m := by
  have hle := h.cursor_le
  obtain ⟨key, shift⟩ := key
  cases key with
  | char c =>
    rw [press_char, h.ascii.insertChar hle, Option.map_some] at hp
    obtain rfl := Option.some.inj hp
    by_contra hc
    have hbound := hq.1
    have hlen : (m.command.take m.cursor).length = m.cursor := by
      rw [List.length_take, Nat.min_eq_left hle]
    refine (h.ascii.take m.cursor).not_isBoundary hc (m.command.drop m.cursor) ?_
    rw [hlen]
    exact hbound
  | delete =>
    change m.cursor < byteLen m.command
    rw [h.ascii.byteLen_eq]
    by_contra hn
    obtain heq : m.cursor = m.command.length := by omega
    rw [press_delete, heq, h.ascii.removeChar_end] at hp
    simp at hp
  | backspace => trivial
  | left => trivial
  | right => trivial

/-- From the empty prompt, no key panics and the cursor stays on a boundary of the text,
exactly while every character typed is one byte long and Delete is pressed before the end. -/
theorem prompt_survives_iff (ws : Workspace X) (keys : List (PromptKey × Bool)) :
    Along (press ws) KeySafe keys Command.new ↔
      (runSteps (press ws) keys Command.new).isSome ∧
        Always (press ws) CursorOnText keys Command.new := by
  refine along_iff_survives (I := Plain) ⟨fun c hc ↦ by simp [Command.new] at hc, Nat.le_refl 0⟩
    (fun m h ↦ h.cursorOnText) ?_ ?_
  · intro key m m' h hs hp
    obtain ⟨m'', hp', h'⟩ := h.press ws hs
    obtain rfl := Option.some.inj (hp.symm.trans hp')
    exact h'
  · intro key m h
    constructor
    · intro hs
      obtain ⟨m', hp, h'⟩ := h.press ws hs
      exact ⟨m', hp, h'.cursorOnText⟩
    · rintro ⟨m', hp, hq⟩
      exact h.keySafe hp hq

/-- Delete removes at the end of an empty prompt, and behind a character of two bytes the next
character is inserted inside it. -/
theorem prompt_panics :
    let ws : Workspace (XiRope.reference UInt8) :=
      { fs := .single [] [], buffers := .new }
    runSteps (press ws) [(.delete, false)] Command.new = none ∧
      runSteps (press ws) [(.char 'é', false), (.char 'a', false)] Command.new = none := by
  decide

end Command

end Tofu

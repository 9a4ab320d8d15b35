import Tofu.Modes.HexByte
import Tofu.Modes.OneRegion

/-!
# Bytes typed one after the other

What a sequence of keys types at a single cursor in the modes that insert
(`src/src/modes/insert.rs:80–181`). A hex digit is in the buffer at once, under the caret, as
the upper half of a byte. CTRL-n and CTRL-o forget that a half is pending but do not step
over it: it is left behind the caret, and what is typed next comes before it.
-/

namespace Tofu

open Rope SelRegion

variable {X : XiRope UInt8}

/-! ## Keys and what they type -/

/-- An ASCII character, which is a digit or nothing in hex input, CTRL-n or CTRL-o. -/
inductive TypedKey where
  | ascii (c : { c : Char // c.toNat < 128 }) (shift : Bool)
  | null (shift : Bool)
  | switchInput (shift : Bool)

/-- The event of a key that types. -/
def TypedKey.event : TypedKey → KeyEvent
  | .ascii c shift => EditKey.event shift (.char c)
  | .null shift => EditKey.event shift .null
  | .switchInput shift =>
    { code := .char 'o', modifiers := { KeyModifiers.none with shift, control := true } }

/-- What a key does: nothing, a first digit, a byte that is complete, a null byte, or a change of
the input. -/
inductive Stroke where
  | nothing
  | half (digit : UInt8)
  | byte (x : UInt8)
  | null
  | switch
  deriving DecidableEq, Repr

/-- The stroke of a key, given the input and the digit that is pending. -/
def TypedKey.stroke (hex : Bool) (half : Option UInt8) : TypedKey → Stroke
  | .ascii c _ =>
    if hex then
      match hexDigit c, half with
      | none, _ => .nothing
      | some digit, none => .half digit
      | some digit, some first => .byte (16 * first + digit)
    else .byte (UInt8.ofNat c.1.toNat)
  | .null _ => .null
  | .switchInput _ => .switch

/-- The byte of a digit that is not finished. -/
def halfByte (half : Option UInt8) : List UInt8 := half.toList.map (16 * ·)

/-- The bytes typed, in the order typed. `done` ends before a digit that is pending, and `left`
are the digits left unfinished, the latest first. -/
structure Typed where
  hex : Bool
  half : Option UInt8
  done : List UInt8
  left : List UInt8
  deriving DecidableEq, Repr

namespace Typed

/-- An unfinished digit counts as the byte it is the upper half of. -/
def text (t : Typed) : List UInt8 := t.done ++ halfByte t.half

/-- Nothing was typed yet. -/
def start (hex : Bool) : Typed := { hex, half := none, done := [], left := [] }

/-- What a key adds to the bytes typed. A digit that is pending when a null byte comes or the input
changes is left unfinished. -/
def strike (t : Typed) : Stroke → Typed
  | .nothing => t
  | .half digit => { t with half := some digit }
  | .byte x => { t with half := none, done := t.done ++ [x] }
  | .null => { t with half := none, done := t.text ++ [0], left := halfByte t.half ++ t.left }
  | .switch =>
    { hex := !t.hex, half := none, done := t.text, left := halfByte t.half ++ t.left }

/-- The bytes typed after a key. -/
def press (key : TypedKey) (t : Typed) : Typed := t.strike (key.stroke t.hex t.half)

/-- All bytes left unfinished are the byte the stroke adds to the text. -/
def InOrder (t : Typed) : Stroke → Prop
  | .nothing | .switch => True
  | .half digit => ∀ y ∈ t.left, y = 16 * digit
  | .byte x => ∀ y ∈ t.left, y = x
  | .null => ∀ y ∈ halfByte t.half ++ t.left, y = 0

instance (t : Typed) (stroke : Stroke) : Decidable (t.InOrder stroke) :=
  match stroke with
  | .nothing | .switch => isTrue trivial
  | .half digit => inferInstanceAs (Decidable (∀ y ∈ t.left, y = 16 * digit))
  | .byte x => inferInstanceAs (Decidable (∀ y ∈ t.left, y = x))
  | .null => inferInstanceAs (Decidable (∀ y ∈ halfByte t.half ++ t.left, y = 0))

end Typed

/-! ## Where the editor puts them -/

/-- The bytes typed as they stand in the buffer: those before the caret, the half byte under it,
and those behind. -/
structure Line where
  hex : Bool
  half : Option UInt8
  before : List UInt8
  behind : List UInt8
  deriving DecidableEq, Repr

namespace Line

/-- All bytes on the line. -/
def text (l : Line) : List UInt8 := l.before ++ halfByte l.half ++ l.behind

/-- Nothing was typed yet. -/
def start (hex : Bool) : Line := { hex, half := none, before := [], behind := [] }

/-- What a key adds to the line. A digit that is pending when a null byte comes or the input changes
stays behind the caret. -/
def strike (l : Line) : Stroke → Line
  | .nothing => l
  | .half digit => { l with half := some digit }
  | .byte x => { l with half := none, before := l.before ++ [x] }
  | .null =>
    { l with half := none, before := l.before ++ [0], behind := halfByte l.half ++ l.behind }
  | .switch => { l with hex := !l.hex, half := none, behind := halfByte l.half ++ l.behind }

/-- The line after a key. -/
def press (key : TypedKey) (l : Line) : Line := l.strike (key.stroke l.hex l.half)

private theorem length_text_press_le (key : TypedKey) (l : Line) :
    (l.press key).text.length ≤ l.text.length + 1 := by
  have hhalf : (halfByte l.half).length ≤ 1 := by cases l.half <;> simp [halfByte]
  unfold press
  cases key.stroke l.hex l.half <;>
    simp only [strike, text, halfByte, List.length_append, List.length_cons, List.length_nil,
      List.length_map, Option.toList_some, Option.toList_none] at hhalf ⊢ <;>
    omega

/-- The insertion mode while the line is typed. -/
def insert (mode : InsertionMode) (l : Line) : Insert :=
  { mode, hex := l.hex, hexHalf := l.half.map fun digit : UInt8 ↦ digit <<< 4 }

end Line

/-- A session shows a line between the bytes before and behind it: the region starts with its
caret behind the bytes before the caret and ends behind the line. -/
structure Shows (mode : InsertionMode) (pre suf : List UInt8) (l : Line) (s : Session X) :
    Prop where
  mode_eq : s.mode = .insert (l.insert mode)
  data_eq : s.buffer.data = pre ++ l.text ++ suf
  selection_eq : s.buffer.selection =
    .single (pre.length + l.before.length) (pre.length + l.text.length)
  half_hex : ∀ digit ∈ l.half, l.hex = true ∧ digit.toNat < 16

private theorem take_drop_parts (pre before rest suf : List UInt8) :
    (pre ++ (before ++ rest) ++ suf).take (pre.length + before.length) = pre ++ before ∧
    (pre ++ (before ++ rest) ++ suf).drop (pre.length + before.length) = rest ++ suf := by
  have hsplit : pre ++ (before ++ rest) ++ suf = (pre ++ before) ++ (rest ++ suf) := by
    simp only [List.append_assoc]
  have hlen : pre.length + before.length = (pre ++ before).length := List.length_append.symm
  rw [hsplit, hlen]
  exact ⟨List.take_left, List.drop_left⟩

namespace Shows

variable {mode : InsertionMode} {pre suf : List UInt8} {l : Line} {s : Session X}
  (E : SearchEngine) (bytesPerLine : Nat)

private theorem inserted (h : Shows mode pre suf l s) {x : UInt8} {b' : CurrentBuffer X}
    (hdata : b'.data = s.buffer.data.take (pre.length + l.before.length) ++
      x :: s.buffer.data.drop (pre.length + l.before.length)) :
    b'.data = pre ++ (l.before ++ (x :: (halfByte l.half ++ l.behind))) ++ suf := by
  obtain ⟨htake, hdrop⟩ := take_drop_parts pre l.before (halfByte l.half ++ l.behind) suf
  rw [hdata, h.data_eq, Line.text, List.append_assoc l.before, htake, hdrop]
  simp only [List.append_assoc, List.cons_append]

variable (hmode : mode ≠ .overwrite)
  (hlen : pre.length + l.text.length + suf.length + 1 < 2 ^ 63)

private theorem caret_le (l : Line) :
    pre.length + l.before.length ≤ pre.length + l.text.length := by
  simp only [Line.text, List.length_append]
  omega

private theorem tail_le (h : Shows mode pre suf l s) :
    pre.length + l.text.length ≤ s.buffer.data.length := by
  rw [h.data_eq, List.length_append, List.length_append]
  omega

private theorem press_null (h : Shows mode pre suf l s) (shift : Bool) :
    ∃ s', s.press E bytesPerLine (EditKey.event shift .null) = some s' ∧
      Shows mode pre suf (l.strike .null) s' := by
  obtain ⟨b', hb', hdata, hsel⟩ := CurrentBuffer.insert_single h.selection_eq (caret_le l)
    (tail_le h) 0
  have hkey : s.mode.onBuffer E (.key (EditKey.event shift .null)) s.buffer bytesPerLine =
      .modeAndDirty (.insert ((l.strike .null).insert mode)) (some (b', .changeLength)) := by
    rw [h.mode_eq, Mode.onBuffer, Insert.transition_null, hb']
    rfl
  refine ⟨_, Session.press_of_modeAndDirty hkey, rfl, ?_, ?_, by simp [Line.strike]⟩
  · rw [inserted h hdata]
    simp [Line.strike, Line.text, halfByte]
  · rw [hsel]
    simp only [Line.strike, Line.text, halfByte, Option.toList_none, List.map_nil, List.append_nil,
      List.length_append, List.length_singleton]
    congr 1
    omega

private theorem press_switch (h : Shows mode pre suf l s) (shift : Bool) :
    ∃ s', s.press E bytesPerLine (TypedKey.event (.switchInput shift)) = some s' ∧
      Shows mode pre suf (l.strike .switch) s' := by
  rcases s with ⟨m, b⟩
  obtain rfl := h.mode_eq
  refine ⟨{ mode := .insert ((l.strike .switch).insert mode), buffer := b },
    by cases shift <;> rfl, rfl, ?_, ?_, by simp [Line.strike]⟩
  · rw [h.data_eq]
    simp [Line.strike, Line.text, halfByte]
  · rw [h.selection_eq]
    simp [Line.strike, Line.text, halfByte]

include hmode in
private theorem press_ascii (h : Shows mode pre suf l s) (hhex : l.hex = false) {c : Char}
    (hc : c.toNat < 128) (shift : Bool) :
    ∃ s', s.press E bytesPerLine (EditKey.event shift (.char c)) = some s' ∧
      Shows mode pre suf (l.strike (.byte (UInt8.ofNat c.toNat))) s' := by
  obtain ⟨b', hb', hdata, hsel⟩ := CurrentBuffer.insert_single h.selection_eq (caret_le l)
    (tail_le h) (UInt8.ofNat c.toNat)
  have hhalf : l.half = none := by
    by_contra hne
    obtain ⟨digit, hd⟩ := Option.ne_none_iff_exists'.mp hne
    simp [(h.half_hex digit hd).1] at hhex
  have hkey : s.mode.onBuffer E (.key (EditKey.event shift (.char c))) s.buffer bytesPerLine =
      .dirty (some (b', .changeLength)) := by
    rw [h.mode_eq, Mode.onBuffer, Insert.transition_char, if_neg (by simp [Line.insert, hhex]),
      Line.insert, Insert.transitionAsciiInsertion_ascii hmode hc, hb']
  refine ⟨_, Session.press_of_dirty hkey, ?_, ?_, ?_, by simp [Line.strike]⟩
  · simp [h.mode_eq, Line.insert, Line.strike, hhalf]
  · rw [inserted h hdata]
    simp [Line.strike, Line.text, halfByte, hhalf]
  · rw [hsel]
    simp only [Line.strike, Line.text, halfByte, hhalf, Option.toList_none, List.map_nil,
      List.append_nil, List.length_append, List.length_singleton]
    congr 1
    omega

section Hex

variable (h : Shows mode pre suf l s) (hhex : l.hex = true) {c : Char} (shift : Bool)
include h hhex

omit hmode hlen in
private theorem transition_hex : s.mode.onBuffer E (.key (EditKey.event shift (.char c))) s.buffer
    bytesPerLine = Insert.transitionHexInsertion c s.buffer mode
      (l.half.map fun digit : UInt8 ↦ digit <<< 4) := by
  rw [h.mode_eq, Mode.onBuffer, Insert.transition_char, Line.insert, if_pos hhex]

omit hmode hlen in
private theorem press_other (hdigit : hexDigit c = none) :
    s.press E bytesPerLine (EditKey.event shift (.char c)) = some s := by
  have hkey := transition_hex E bytesPerLine h hhex (c := c) shift
  rw [Insert.transitionHexInsertion, hdigit] at hkey
  have hscroll : Session.scrollKey (EditKey.event shift (.char c)) = none := by
    simp [Session.scrollKey, EditKey.event, onCtrl, KeyModifiers.none, List.lookup_eq_none_iff]
  unfold Session.press
  rw [hkey]
  simp [Outcome.unhandled, Session.pressDefault, hscroll]

include hmode hlen

private theorem press_first {digit : UInt8} (hdigit : hexDigit c = some digit)
    (hhalf : l.half = none) :
    ∃ s', s.press E bytesPerLine (EditKey.event shift (.char c)) = some s' ∧
      Shows mode pre suf (l.strike (.half digit)) s' := by
  have hlength : s.buffer.data.length + 1 < 2 ^ 63 := by
    rw [h.data_eq, List.length_append, List.length_append]
    exact hlen
  obtain ⟨b', hb', hdata, hsel⟩ := CurrentBuffer.insertHalf_single h.selection_eq (caret_le l)
    (tail_le h) hlength (digit <<< 4)
  have hkey := transition_hex E bytesPerLine h hhex (c := c) shift
  simp only [Insert.transitionHexInsertion, hdigit, hhalf, Option.map_none,
    Insert.hexInsertion_first hmode, hb'] at hkey
  refine ⟨_, Session.press_of_modeAndDirty hkey, ?_, ?_, ?_, ?_⟩
  · simp [Line.insert, Line.strike, hhex]
  · rw [inserted h hdata, shiftLeft_four]
    simp [Line.strike, Line.text, halfByte, hhalf]
  · rw [hsel]
    simp only [Line.strike, Line.text, halfByte, hhalf, Option.toList_none, Option.toList_some,
      List.map_nil, List.map_cons, List.append_nil, List.length_append, List.length_singleton]
    congr 1
    omega
  · simp [Line.strike, hhex, toNat_lt_of_hexDigit hdigit]

omit hmode in
private theorem press_second {digit first : UInt8} (hdigit : hexDigit c = some digit)
    (hhalf : l.half = some first) :
    ∃ s', s.press E bytesPerLine (EditKey.event shift (.char c)) = some s' ∧
      Shows mode pre suf (l.strike (.byte (16 * first + digit))) s' := by
  have hlength : s.buffer.data.length < 2 ^ 63 := by
    rw [h.data_eq, List.length_append, List.length_append]
    omega
  have hlt : pre.length + l.before.length < pre.length + l.text.length := by
    simp [Line.text, halfByte, hhalf]
  obtain ⟨b', dirty, hb', hdata, hsel⟩ := CurrentBuffer.change_single h.selection_eq hlt
    (tail_le h) hlength (16 * first + digit)
  have hkey := transition_hex E bytesPerLine h hhex (c := c) shift
  simp only [Insert.transitionHexInsertion, hdigit, hhalf, Option.map_some, Insert.hexInsertion,
    shiftLeft_or (h.half_hex first hhalf).2 (toNat_lt_of_hexDigit hdigit), hb'] at hkey
  refine ⟨_, Session.press_of_modeAndDirty hkey, ?_, ?_, ?_, by simp [Line.strike]⟩
  · simp [Line.insert, Line.strike, hhex]
  · obtain ⟨htake, hdrop⟩ := take_drop_parts pre l.before (halfByte l.half ++ l.behind) suf
    rw [hdata, h.data_eq, ← List.drop_drop, Line.text, List.append_assoc l.before, htake, hdrop]
    simp [Line.strike, Line.text, halfByte, hhalf]
  · rw [hsel]
    simp only [Line.strike, Line.text, halfByte, hhalf, Option.toList_none, Option.toList_some,
      List.map_nil, List.map_cons, List.append_nil, List.length_append, List.length_singleton]
    congr 1

end Hex

include hmode hlen in
/-- A key takes the session where its stroke takes the line. -/
theorem press (h : Shows mode pre suf l s) (key : TypedKey) :
    ∃ s', s.press E bytesPerLine key.event = some s' ∧ Shows mode pre suf (l.press key) s' := by
  cases key with
  | null shift => exact press_null E bytesPerLine h shift
  | switchInput shift => exact press_switch E bytesPerLine h shift
  | ascii c shift =>
    unfold Line.press
    by_cases hhex : l.hex = true
    · cases hdigit : hexDigit c with
      | none =>
        have hstroke : (TypedKey.ascii c shift).stroke l.hex l.half = .nothing := by
          simp only [TypedKey.stroke, if_pos hhex, hdigit]
        rw [hstroke]
        exact ⟨s, press_other E bytesPerLine h hhex shift hdigit, h⟩
      | some digit =>
        cases hhalf : l.half with
        | none =>
          have hstroke : (TypedKey.ascii c shift).stroke l.hex none = .half digit := by
            simp only [TypedKey.stroke, if_pos hhex, hdigit]
          rw [hstroke]
          exact press_first E bytesPerLine hmode hlen h hhex shift hdigit hhalf
        | some first =>
          have hstroke : (TypedKey.ascii c shift).stroke l.hex (some first) =
              .byte (16 * first + digit) := by
            simp only [TypedKey.stroke, if_pos hhex, hdigit]
          rw [hstroke]
          exact press_second E bytesPerLine hlen h hhex shift hdigit hhalf
    · have hstroke : (TypedKey.ascii c shift).stroke l.hex l.half =
          .byte (UInt8.ofNat c.1.toNat) := if_neg hhex
      rw [hstroke]
      exact press_ascii E bytesPerLine hmode h (Bool.not_eq_true _ ▸ hhex) c.2 shift

include hmode in
/-- Typing never panics and leaves the line in the buffer. -/
theorem run (h : Shows mode pre suf l s) (keys : List TypedKey)
    (hlen : pre.length + l.text.length + suf.length + keys.length < 2 ^ 63) :
    ∃ s', runSteps (fun key ↦ Session.press E bytesPerLine (TypedKey.event key)) keys s = some s' ∧
      Shows mode pre suf (keys.foldl (fun l key ↦ l.press key) l) s' := by
  induction keys generalizing l s with
  | nil => exact ⟨s, rfl, h⟩
  | cons key keys ih =>
    rw [List.length_cons] at hlen
    obtain ⟨s₁, hs₁, h₁⟩ := press E bytesPerLine hmode (by omega) h key
    have hgrow := l.length_text_press_le key
    obtain ⟨s', hs', h'⟩ := ih h₁ (by omega)
    exact ⟨s', by rw [runSteps_cons, hs₁, Option.bind_some, hs'], h'⟩

end Shows

/-! ## The order in which they stand -/

private theorem cons_eq_concat_iff {α : Type} {x : α} {l : List α} :
    x :: l = l ++ [x] ↔ ∀ y ∈ l, y = x := by
  constructor
  · intro h
    have hrep : l ++ [x] = List.replicate (l.length + 1) x := by
      induction l with
      | nil => rfl
      | cons y l ih =>
        obtain ⟨rfl, h⟩ := List.cons.inj h
        rw [List.cons_append, ih h]
        rfl
    intro y hy
    have : y ∈ List.replicate (l.length + 1) x := hrep ▸ List.mem_append_left [x] hy
    exact (List.mem_replicate.mp this).2
  · intro h
    rw [List.eq_replicate_iff.mpr ⟨rfl, h⟩, ← List.replicate_succ, List.replicate_succ']

-- The line holds the text in the order typed: what is left behind the caret is all one byte, the
-- one that is pending if there is one.
private structure Agrees (t : Typed) (l : Line) : Prop where
  hex : l.hex = t.hex
  half : l.half = t.half
  left : l.behind = t.left
  done : t.done = l.before ++ t.left
  same : ∀ digit ∈ t.half, ∀ y ∈ t.left, y = 16 * digit

namespace Agrees

variable {t : Typed} {l : Line}

private theorem halfByte_append (h : Agrees t l) :
    halfByte t.half ++ t.left = t.left ++ halfByte t.half := by
  cases hhalf : t.half with
  | none => simp [halfByte]
  | some digit => exact cons_eq_concat_iff.mpr (h.same digit hhalf)

private theorem text_eq (h : Agrees t l) : t.text = l.text := by
  rw [Typed.text, Line.text, h.done, h.half, h.left, List.append_assoc, List.append_assoc,
    h.halfByte_append]

/-- A stroke that is in order keeps the agreement. -/
theorem strike (h : Agrees t l) {stroke : Stroke} (hin : t.InOrder stroke) :
    Agrees (t.strike stroke) (l.strike stroke) := by
  have hleft : halfByte l.half ++ l.behind = halfByte t.half ++ t.left := by rw [h.half, h.left]
  have hdone : t.text = l.before ++ (halfByte t.half ++ t.left) := by
    rw [h.text_eq, Line.text, List.append_assoc, hleft]
  cases stroke with
  | nothing => exact h
  | half digit =>
    refine ⟨h.hex, rfl, h.left, h.done, fun d hd ↦ ?_⟩
    obtain rfl : digit = d := by simpa [Typed.strike] using hd
    exact hin
  | byte x =>
    refine ⟨h.hex, rfl, h.left, ?_, by simp [Typed.strike]⟩
    simp only [Typed.strike, Line.strike]
    rw [h.done, List.append_assoc, List.append_assoc, ← cons_eq_concat_iff.mpr hin]
    rfl
  | null =>
    refine ⟨h.hex, rfl, hleft, ?_, by simp [Typed.strike]⟩
    simp only [Typed.strike, Line.strike]
    rw [hdone, List.append_assoc l.before, ← cons_eq_concat_iff.mpr hin, List.append_assoc]
    rfl
  | switch =>
    exact ⟨by simp only [Line.strike, Typed.strike, h.hex], rfl, hleft, hdone,
      by simp [Typed.strike]⟩

/-- A stroke after which the line holds the text in the order typed is in order. -/
theorem inOrder_of_strike (h : Agrees t l) {stroke : Stroke}
    (htext : (t.strike stroke).text = (l.strike stroke).text) : t.InOrder stroke := by
  have hdone : t.text = l.before ++ (halfByte t.half ++ t.left) := by
    rw [h.text_eq, Line.text, List.append_assoc, h.half, h.left]
  cases stroke with
  | nothing => trivial
  | switch => trivial
  | half digit =>
    simp only [Typed.strike, Line.strike, Typed.text, Line.text, h.done, h.left, halfByte,
      Option.toList_some, List.map_cons, List.map_nil, List.append_assoc,
      List.append_cancel_left_eq] at htext
    exact cons_eq_concat_iff.mp htext.symm
  | byte x =>
    simp only [Typed.strike, Line.strike, Typed.text, Line.text, h.done, h.left, halfByte,
      Option.toList_none, List.map_nil, List.append_nil, List.append_assoc,
      List.append_cancel_left_eq] at htext
    exact cons_eq_concat_iff.mp htext.symm
  | null =>
    have hline : (l.strike .null).text = l.before ++ ([0] ++ (halfByte t.half ++ t.left)) := by
      simp [Line.strike, Line.text, h.half, h.left, halfByte]
    have htyped : (t.strike .null).text = l.before ++ (halfByte t.half ++ t.left ++ [0]) := by
      rw [Typed.text, Typed.strike, hdone]
      simp [halfByte]
    rw [hline, htyped, List.append_cancel_left_eq] at htext
    exact cons_eq_concat_iff.mp htext.symm

end Agrees

/-- The bytes the keys type, in the order typed. -/
def Typed.after (hex : Bool) (keys : List TypedKey) : Typed :=
  keys.foldl (fun t key ↦ t.press key) (.start hex)

private theorem Agrees.always_iff (hex : Bool) (keys : List TypedKey) :
    Along (fun key (t : Typed) ↦ some (t.press key))
        (fun key t ↦ t.InOrder (key.stroke t.hex t.half)) keys (.start hex) ↔
      ∀ pre, pre <+: keys → (Typed.after hex pre).text =
        (pre.foldl (fun l key ↦ l.press key) (Line.start hex)).text := by
  have hrun : ∀ pre, runSteps (fun key (p : Typed × Line) ↦ some (p.1.press key, p.2.press key))
      pre (.start hex, .start hex) =
        some (Typed.after hex pre, pre.foldl (fun l key ↦ l.press key) (Line.start hex)) := by
    intro pre
    rw [runSteps_some]
    congr 1
    generalize Line.start hex = l
    rw [Typed.after]
    generalize Typed.start hex = t
    induction pre generalizing t l with
    | nil => rfl
    | cons key pre ih => exact ih _ _
  have hstroke : ∀ (key : TypedKey) {t : Typed} {l : Line}, Agrees t l →
      key.stroke l.hex l.half = key.stroke t.hex t.half := fun key _ _ h ↦ by rw [h.hex, h.half]
  rw [← along_fst (t := Line.start hex), along_iff_always_of_invariant
    (Q := fun p : Typed × Line ↦ p.1.text = p.2.text) (I := fun p ↦ Agrees p.1 p.2)]
  · constructor
    · intro h pre hpre
      exact h pre _ hpre (hrun pre)
    · intro h pre p hpre hp
      rw [hrun, Option.some.injEq] at hp
      rw [← hp]
      exact h pre hpre
  · exact ⟨rfl, rfl, rfl, rfl, by simp [Typed.start]⟩
  · exact fun p h ↦ h.text_eq
  · rintro key ⟨t, l⟩ p' h hin ⟨rfl⟩
    rw [Line.press, hstroke key h]
    exact h.strike hin
  · rintro key ⟨t, l⟩ h htext
    have := htext _ rfl
    rw [Typed.press, Line.press, hstroke key h] at this
    exact h.inOrder_of_strike this

/-- At a single cursor in a mode that inserts, keys put the bytes they type into the buffer in the
order typed, in every state on the way, exactly when every byte comes while all digits left
unfinished before it make that same byte. -/
theorem Insert.typing_in_order_iff (E : SearchEngine) (bytesPerLine : Nat) {m : Insert}
    {b : CurrentBuffer X} {p : Nat} (hmode : m.mode ≠ .overwrite) (hhalf : m.hexHalf = none)
    (hsel : b.selection = .single p p) (hp : p ≤ b.data.length) (keys : List TypedKey)
    (hlen : b.data.length + keys.length < 2 ^ 63) :
    (∀ pre, pre <+: keys → ∃ s,
      runSteps (fun key ↦ Session.press E bytesPerLine (TypedKey.event key)) pre
        { mode := .insert m, buffer := b } = some s ∧
      s.buffer.data = b.data.take p ++ (Typed.after m.hex pre).text ++ b.data.drop p) ↔
    Along (fun key (t : Typed) ↦ some (t.press key))
      (fun key t ↦ t.InOrder (key.stroke t.hex t.half)) keys (.start m.hex) := by
  rcases m with ⟨mode, hex, hexHalf⟩
  simp only at hhalf hmode
  subst hhalf
  have hshows : Shows mode (b.data.take p) (b.data.drop p) (.start hex)
      { mode := .insert ⟨mode, hex, none⟩, buffer := b } := by
    refine ⟨rfl, ?_, ?_, by simp [Line.start]⟩
    · simp [Line.start, Line.text, halfByte]
    · simp [Line.start, Line.text, halfByte, List.length_take_of_le hp, hsel]
  rw [Agrees.always_iff]
  refine forall₂_congr fun pre hpre ↦ ?_
  have hbound : (b.data.take p).length + (Line.start hex).text.length + (b.data.drop p).length +
      pre.length < 2 ^ 63 := by
    have := hpre.length_le
    simp only [Line.start, Line.text, halfByte, Option.toList_none, List.map_nil, List.append_nil,
      List.length_nil, List.length_take, List.length_drop]
    omega
  obtain ⟨s, hs, hline⟩ := hshows.run E bytesPerLine hmode pre hbound
  constructor
  · rintro ⟨s', hs', hdata⟩
    obtain rfl : s = s' := Option.some.inj (hs.symm.trans hs')
    rw [hline.data_eq, List.append_left_inj, List.append_right_inj] at hdata
    exact hdata.symm
  · intro htext
    exact ⟨s, hs, by rw [hline.data_eq, ← htext]⟩

/-- Two hex digits, a null byte, and a character in ASCII input. -/
theorem Insert.typing_in_order_switch :
    ∃ s, runSteps (fun key ↦ Session.press .reference 16 (TypedKey.event key))
        [.ascii ⟨'4', by decide⟩ false, .ascii ⟨'F', by decide⟩ true, .null false,
          .switchInput false, .ascii ⟨'x', by decide⟩ false]
        { mode := .insert { mode := .insert, hex := true, hexHalf := none },
          buffer := .withRegions [1, 2] [⟨1, 1, true⟩] } = some s ∧
      s.buffer.data = [1, 0x4f, 0, 0x78, 2] := by
  have horder := (typing_in_order_iff .reference 16
    (m := { mode := .insert, hex := true, hexHalf := none })
    (b := .withRegions [1, 2] [⟨1, 1, true⟩]) (p := 1) (by decide) rfl rfl (by decide)
    [.ascii ⟨'4', by decide⟩ false, .ascii ⟨'F', by decide⟩ true, .null false,
      .switchInput false, .ascii ⟨'x', by decide⟩ false] (by decide)).mpr (by decide +kernel)
  obtain ⟨s, hs, hdata⟩ := horder _ List.prefix_rfl
  exact ⟨s, hs, hdata.trans (by decide)⟩

/-- A null byte typed behind a single hex digit stands before it. -/
theorem Insert.typing_null_after_half :
    (runSteps (fun key ↦ Session.press .reference 16 (TypedKey.event key))
      [.ascii ⟨'4', by decide⟩ false, .null false]
      { mode := .insert { mode := .insert, hex := true, hexHalf := none },
        buffer := .withRegions [1, 2] [⟨1, 1, true⟩] }).map (fun s ↦ s.buffer.data) =
      some [1, 0, 0x40, 2] ∧
    (Typed.after true [.ascii ⟨'4', by decide⟩ false, .null false]).text = [0x40, 0] := by
  decide

end Tofu

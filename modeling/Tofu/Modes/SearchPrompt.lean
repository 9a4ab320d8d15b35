import Tofu.Modes.Command
import Tofu.Modes.HexByte
import Tofu.Modes.Requests

/-!
# Typing at the search prompt

`src/src/modes/search.rs:28–48,181–271`. A prompt keeps the pattern, a cursor between its
pieces and, in hex, the half byte that waits for its second digit; the half is already a
piece of the pattern, at the cursor. The keys the prompt is bound to are looked up with
SHIFT cleared, but a character is only taken from an event without any modifier.
-/

namespace Tofu

open Rope

variable {X : XiRope UInt8}

/-- The key of a character, with SHIFT or without a modifier. -/
def charKey (key : Char × Bool) : KeyEvent :=
  { code := .char key.1, modifiers := { KeyModifiers.none with shift := key.2 } }

namespace Search

/-! ## What every key keeps -/

/-- The cursor is in the pattern, and a pending half is the piece at the cursor. -/
structure WellFormed (s : Search) : Prop where
  cursor_le : s.cursor ≤ s.pattern.pieces.length
  half : ∀ h, s.hexHalf = some h → s.hex = true ∧ h &&& 0x0f = 0 ∧
    s.cursor < s.pattern.pieces.length ∧ s.pattern.pieces[s.cursor]? = some (.literal h)

/-- What a key may leave of a prompt: one in order, with the cursor set back by one at most. -/
structure Follows (s s' : Search) : Prop where
  wellFormed : s'.WellFormed
  cursor_le : s.cursor ≤ s'.cursor + 1

/-- A new prompt has its cursor in the empty pattern. -/
theorem wellFormed_new (next : SearchAcceptor) (hex : Bool) : (Search.new next hex).WellFormed where
  cursor_le := le_rfl
  half _ h := by cases h

private theorem wellFormed_of_le {s : Search} (hhalf : s.hexHalf = none)
    (hle : s.cursor ≤ s.pattern.pieces.length) : s.WellFormed where
  cursor_le := hle
  half h hh := by rw [hhalf] at hh; cases hh

/-- The prompt that is open after a key; `none` is a panic, or a key that closes the prompt. -/
def press (E : SearchEngine) (input : KeyEvent × CurrentBuffer X) (s : Search) : Option Search := do
  match ← s.transition E (.key input.1) input.2 with
  | none => some s
  | some (t, _) =>
    match t.mode (.search s) with
    | .search s' => some s'
    | _ => none

/-- A piece goes in at a position of the pattern, and the cursor behind it. -/
theorem insertPiece_of_le {p : Pattern} {position : Nat} (h : position ≤ p.pieces.length)
    (piece : PatternPiece) :
    p.insertPiece position piece =
      some ({ pieces := p.pieces.insertIdx position piece }, position + 1) := if_pos h

private theorem and_eq_zero_of_mod {x : UInt8} (h : x % 16 = 0) : x &&& 0x0f = 0 := by
  apply UInt8.toNat.inj
  rw [UInt8.toNat_and]
  exact (Nat.and_two_pow_sub_one_eq_mod x.toNat 4).trans (congrArg UInt8.toNat h)

/-- The cursor behind a pending half. -/
def skipped (s : Search) : Nat := if s.hexHalf.isSome then s.cursor + 1 else s.cursor

/-- A prompt with another pattern, cursor and display, and nothing pending. -/
def edited (s : Search) (pattern : Pattern) (cursor : Nat) (hex : Bool) : Search :=
  { s with pattern, cursor, hex, hexHalf := none }

private theorem cursor_le_skipped (s : Search) : s.cursor ≤ s.skipped := by
  unfold skipped
  split <;> omega

/-- A key that succeeds without touching the buffer, and leaves what follows on the prompt if
it leaves a prompt. -/
def Leaves (s : Search) (b : CurrentBuffer X) (o : Outcome X) : Prop :=
  ∃ t, o = .keep b t ∧ ∀ s', t.mode (.search s) = .search s' → s.Follows s'

private theorem leaves_edited (s : Search) (b : CurrentBuffer X) (pattern : Pattern) (cursor : Nat)
    (hex : Bool) (hle : cursor ≤ pattern.pieces.length) (hback : s.skipped ≤ cursor + 1) :
    s.Leaves b (.keep b (.newMode (.search (s.edited pattern cursor hex)))) := by
  refine ⟨_, rfl, ?_⟩
  rintro s' ⟨⟩
  exact ⟨wellFormed_of_le rfl hle, Nat.le_trans s.cursor_le_skipped hback⟩

private theorem length_pieces_remove (p : Pattern) (position : Nat) :
    (p.remove position).pieces.length =
      if position < p.pieces.length then p.pieces.length - 1 else p.pieces.length :=
  List.length_eraseIdx

/-! What a key is to the prompt: bound, a character, or nothing. -/

/-- A key that is bound does what it is bound to. -/
theorem transition_of_bound {E : SearchEngine} {s : Search} {evt : Event} {action : Action}
    (h : defaultMaps.eventToAction evt = some action) (b : CurrentBuffer X) :
    s.transition E evt b = s.act E action b := by
  simp only [transition, h]

private theorem transition_of_unbound {s : Search} {key : KeyEvent} (E : SearchEngine)
    (b : CurrentBuffer X) (h : defaultMaps.eventToAction (.key key) = none) :
    (∃ ch, s.transition E (.key key) b = s.typed ch b) ∨
      s.transition E (.key key) b = .unhandled := by
  simp only [transition, h]
  split
  · next ch modifiers _ =>
    split
    · exact Or.inr rfl
    · exact Or.inl ⟨ch, rfl⟩
  · exact Or.inr rfl

private theorem of_press {E : SearchEngine} {input : KeyEvent × CurrentBuffer X} {s s' : Search}
    (h : s.press E input = some s') :
    s' = s ∨ ∃ t b', s.transition E (.key input.1) input.2 = some (some (t, b')) ∧
      t.mode (.search s) = .search s' := by
  obtain ⟨o, ho, h⟩ := Option.bind_eq_some_iff.mp h
  cases o with
  | none => exact Or.inl (Option.some.inj h).symm
  | some r =>
    obtain ⟨t, b'⟩ := r
    right
    refine ⟨t, b', ho, ?_⟩
    simp only at h
    split at h
    · next s'' hmode => rw [hmode, Option.some.inj h]
    · cases h

/-! A typed character: a byte of the pattern, the first digit of a byte, or the second one. -/

/-- In ASCII input the low byte of a character goes in at the cursor. -/
theorem typed_ascii {s : Search} (hhex : s.hex = false) (hle : s.cursor ≤ s.pattern.pieces.length)
    (ch : Char) (b : CurrentBuffer X) :
    s.typed ch b = .keep b (.newMode (.search { s with
      pattern := { pieces := s.pattern.pieces.insertIdx s.cursor (.literal ch.toNat.toUInt8) }
      cursor := s.cursor + 1 })) := by
  simp [typed, hhex, Pattern.insertLiteral, insertPiece_of_le hle]

/-- The first digit of a byte goes in as a byte with a zero behind it. -/
theorem typed_first {s : Search} {ch : Char} {digit : UInt8} (hhex : s.hex = true)
    (hhalf : s.hexHalf = none) (hd : hexDigit ch = some digit)
    (hle : s.cursor ≤ s.pattern.pieces.length) (b : CurrentBuffer X) :
    s.typed ch b = .keep b (.newMode (.search { s with
      pattern := { pieces := s.pattern.pieces.insertIdx s.cursor (.literal (digit <<< 4)) }
      hexHalf := some (digit <<< 4) })) := by
  simp [typed, hhex, hhalf, hd, Pattern.insertLiteral, insertPiece_of_le hle]

/-- The second digit completes that byte. -/
theorem typed_second {s : Search} {ch : Char} {half digit : UInt8} (hhex : s.hex = true)
    (hhalf : s.hexHalf = some half) (hd : hexDigit ch = some digit)
    (hlt : s.cursor < s.pattern.pieces.length) (b : CurrentBuffer X) :
    s.typed ch b = .keep b (.newMode (.search { s with
      pattern := { pieces := s.pattern.pieces.set s.cursor (.literal (half ||| digit)) }
      cursor := s.cursor + 1
      hexHalf := none })) := by
  simp [typed, hhex, hhalf, hd, Pattern.insertHalfLiteral, hlt]

namespace WellFormed

variable {s : Search}

private theorem follows_self (h : s.WellFormed) : s.Follows s := ⟨h, Nat.le_succ _⟩

/-- Behind a pending half the cursor is still in the pattern. -/
theorem skipped_le (h : s.WellFormed) : s.skipped ≤ s.pattern.pieces.length := by
  unfold skipped
  cases hh : s.hexHalf with
  | none => exact h.cursor_le
  | some half => exact (h.half half hh).2.2.1

private theorem leaves_insertPiece (h : s.WellFormed) (b : CurrentBuffer X) (piece : PatternPiece) :
    s.Leaves b (do
      let (pattern, cursor) ← s.pattern.insertPiece s.skipped piece
      Outcome.keep b (.newMode (.search (s.edited pattern cursor s.hex)))) := by
  have hskip := h.skipped_le
  rw [insertPiece_of_le hskip]
  apply leaves_edited
  · rw [List.length_insertIdx_of_le_length hskip]
    omega
  · omega

private theorem leaves_remove (h : s.WellFormed) (b : CurrentBuffer X) (position : Nat)
    (hle : position ≤ s.skipped) (hback : s.skipped ≤ position + 1) :
    s.Leaves b (.keep b (.newMode (.search (s.edited (s.pattern.remove position) position
      s.hex)))) := by
  have hskip := h.skipped_le
  apply leaves_edited
  · rw [length_pieces_remove]
    split <;> omega
  · exact hback

/-- Every bound key but Enter succeeds, and leaves a prompt in order if it leaves one. -/
theorem leaves_act (h : s.WellFormed) (E : SearchEngine) {action : Action}
    (hne : action ≠ .finish) (b : CurrentBuffer X) : s.Leaves b (s.act E action b) := by
  have hskip := h.skipped_le
  cases action with
  | insertNull => exact h.leaves_insertPiece b (.literal 0)
  | insertWildcard => exact h.leaves_insertPiece b .wildcard
  | removeLast =>
    by_cases h0 : s.skipped ≠ 0
    · have heq : s.act E .removeLast b = .keep b (.newMode (.search
          (s.edited (s.pattern.remove (s.skipped - 1)) (s.skipped - 1) s.hex))) := if_pos h0
      rw [heq]
      exact h.leaves_remove b _ (by omega) (by omega)
    · refine ⟨.none, if_neg h0, ?_⟩
      rintro s' ⟨⟩
      exact h.follows_self
  | removeThis => exact h.leaves_remove b s.skipped le_rfl (Nat.le_succ _)
  | cursorLeft =>
    apply leaves_edited s b s.pattern (if s.skipped ≠ 0 then s.skipped - 1 else s.skipped) s.hex
    · split <;> omega
    · split <;> omega
  | cursorRight =>
    apply leaves_edited s b s.pattern
      (if s.skipped < s.pattern.pieces.length then s.skipped + 1 else s.skipped) s.hex
    · split <;> omega
    · split <;> omega
  | switchInputMode => exact leaves_edited s b s.pattern s.skipped (!s.hex) hskip (Nat.le_succ _)
  | cancel =>
    refine ⟨_, rfl, ?_⟩
    rintro s' ⟨⟩
  | finish => exact absurd rfl hne

/-- A character is refused or leaves a prompt in order. -/
theorem typed (h : s.WellFormed) (ch : Char) (b : CurrentBuffer X) :
    s.typed ch b = .unhandled ∨
      ∃ s', s.typed ch b = .keep b (.newMode (.search s')) ∧ s.Follows s' := by
  have hlen (piece : PatternPiece) :
      (s.pattern.pieces.insertIdx s.cursor piece).length = s.pattern.pieces.length + 1 :=
    List.length_insertIdx_of_le_length h.cursor_le piece
  cases hhex : s.hex with
  | false =>
    right
    have hhalf : s.hexHalf = none := by
      cases hh : s.hexHalf with
      | none => rfl
      | some half => exact absurd (hhex.symm.trans (h.half half hh).1) Bool.false_ne_true
    refine ⟨_, typed_ascii hhex h.cursor_le ch b, wellFormed_of_le hhalf ?_, ?_⟩
    · rw [hlen]
      exact Nat.succ_le_succ h.cursor_le
    · exact Nat.le_add_right _ 2
  | true =>
    cases hd : hexDigit ch with
    | none =>
      left
      simp [Search.typed, hhex, hd]
    | some digit =>
      right
      cases hh : s.hexHalf with
      | some half =>
        obtain ⟨-, -, hlt, -⟩ := h.half half hh
        refine ⟨_, typed_second hhex hh hd hlt b, wellFormed_of_le rfl ?_, ?_⟩
        · rw [List.length_set]
          exact hlt
        · exact Nat.le_add_right _ 2
      | none =>
        refine ⟨_, typed_first hhex hh hd h.cursor_le b, ⟨?_, ?_⟩, Nat.le_succ _⟩
        · rw [hlen]
          exact Nat.le_succ_of_le h.cursor_le
        · rintro _ ⟨⟩
          rw [hlen]
          refine ⟨hhex, and_eq_zero_of_mod (shiftLeft_four_mod digit),
            Nat.lt_succ_of_le h.cursor_le, ?_⟩
          simp [List.getElem?_insertIdx_self, h.cursor_le]

/-- A key panics only in the search it starts. -/
theorem of_transition_eq_none (h : s.WellFormed) {E : SearchEngine} {key : KeyEvent}
    {b : CurrentBuffer X} (hnone : s.transition E (.key key) b = none) :
    defaultMaps.eventToAction (.key key) = some .finish ∧
      s.next.applySearch E s.pattern b = none := by
  cases hevt : defaultMaps.eventToAction (.key key) with
  | some action =>
    rw [transition_of_bound hevt] at hnone
    by_cases hfin : action = .finish
    · subst hfin
      exact ⟨rfl, hnone⟩
    · obtain ⟨t, ht, -⟩ := h.leaves_act E hfin b
      cases ht.symm.trans hnone
  | none =>
    exfalso
    rcases transition_of_unbound (s := s) E b hevt with ⟨ch, ht⟩ | ht
    · rcases h.typed ch b with hty | ⟨s', hty, -⟩
      · cases (ht.trans hty).symm.trans hnone
      · cases (ht.trans hty).symm.trans hnone
    · cases ht.symm.trans hnone

/-- A transition leaves a prompt in order if it leaves one. -/
theorem of_transition (h : s.WellFormed) {E : SearchEngine} {key : KeyEvent}
    {b b' : CurrentBuffer X} {t : ModeTransition} {s' : Search}
    (ht : s.transition E (.key key) b = some (some (t, b')))
    (hmode : t.mode (.search s) = .search s') : s.Follows s' := by
  cases hevt : defaultMaps.eventToAction (.key key) with
  | some action =>
    rw [transition_of_bound hevt] at ht
    by_cases hfin : action = .finish
    · subst hfin
      cases (SearchAcceptor.mode_of_applySearch ht (.search s)).symm.trans hmode
    · obtain ⟨t', ht', hwf⟩ := h.leaves_act E hfin b
      rw [(Outcome.of_keep (ht'.symm.trans ht)).1] at hmode
      exact hwf s' hmode
  | none =>
    rcases transition_of_unbound (s := s) E b hevt with ⟨ch, heq⟩ | heq
    · rcases h.typed ch b with hty | ⟨s'', hty, hwf⟩
      · cases (heq.trans hty).symm.trans ht
      · rw [(Outcome.of_keep ((heq.trans hty).symm.trans ht)).1] at hmode
        cases hmode
        exact hwf
    · cases heq.symm.trans ht

/-- A key leaves a prompt that is in order so, and sets its cursor back by one at most. -/
theorem press (h : s.WellFormed) {E : SearchEngine} {input : KeyEvent × CurrentBuffer X}
    {s' : Search} (hs : s.press E input = some s') : s.Follows s' := by
  rcases of_press hs with rfl | ⟨t, b', ht, hmode⟩
  · exact h.follows_self
  · exact h.of_transition ht hmode

end WellFormed

/-- Along every run of keys, in any buffers, the cursor of the prompt is in its pattern and a
pending half, of a zero low nibble, is the literal at the cursor of a hex prompt. The prompt's
own edits never panic: a key panics only when it is Enter and the search itself does. -/
theorem always_wellFormed (E : SearchEngine) (next : SearchAcceptor) (hex : Bool)
    (inputs : List (KeyEvent × CurrentBuffer X)) :
    Always (press E) (fun s ↦ s.WellFormed ∧
      ∀ key (b : CurrentBuffer X), s.transition E (.key key) b = none →
        defaultMaps.eventToAction (.key key) = some .finish ∧
          s.next.applySearch E s.pattern b = none) inputs (.new next hex) := by
  have hwf : Always (press E) WellFormed inputs (.new next hex) :=
    always_of_step (wellFormed_new next hex) fun _ _ _ h hs ↦ (h.press hs).wellFormed
  exact hwf.imp fun s h ↦ ⟨h, fun _ _ hnone ↦ h.of_transition_eq_none hnone⟩

/-! ## Typing a pattern -/

/-- A prompt in which some bytes have been typed, and in hex the first digit of another. -/
def spelling (next : SearchAcceptor) (hex : Bool) (bytes : List UInt8) (hi : Option UInt8) :
    Search :=
  let half := hi.map fun digit : UInt8 ↦ digit <<< 4
  { pattern := { pieces := (bytes ++ half.toList).map .literal }
    cursor := bytes.length
    hex
    hexHalf := half
    next }

/-- A session after character keys at the prompt it opens. -/
def typeKeys (E : SearchEngine) (bytesPerLine : Nat) (next : SearchAcceptor) (hex : Bool)
    (b : CurrentBuffer X) (keys : List (Char × Bool)) : Option (Session X) :=
  runSteps (Session.press E bytesPerLine) (keys.map charKey)
    { mode := .search (.new next hex), buffer := b }

/-- The bytes that pairs of hex digits spell. -/
def spelled : List UInt8 → List UInt8
  | [] => []
  | [_] => []
  | hi :: lo :: digits => (16 * hi + lo) :: spelled digits

/-- Bytes and a first digit, with one more digit. -/
def feed : List UInt8 × Option UInt8 → UInt8 → List UInt8 × Option UInt8
  | (bytes, none), digit => (bytes, some digit)
  | (bytes, some hi), digit => (bytes ++ [16 * hi + digit], none)

private theorem foldl_feed (digits bytes : List UInt8) :
    (digits.foldl feed (bytes, none)).1 = bytes ++ spelled digits ∧
      ((digits.foldl feed (bytes, none)).2 = none ↔ 2 ∣ digits.length) := by
  induction digits using spelled.induct generalizing bytes with
  | case1 => simp [spelled]
  | case2 digit => simp [spelled, feed]
  | case3 hi lo digits ih =>
    obtain ⟨hbytes, hhalf⟩ := ih (bytes ++ [16 * hi + lo])
    simp only [List.foldl_cons, feed, spelled, hbytes, hhalf, List.length_cons,
      List.append_assoc, List.singleton_append, true_and]
    omega

private theorem length_spelled (digits : List UInt8) :
    (spelled digits).length = digits.length / 2 := by
  induction digits using spelled.induct with
  | case1 => rfl
  | case2 digit => simp [spelled]
  | case3 hi lo digits ih =>
    rw [spelled, List.length_cons, ih, List.length_cons, List.length_cons]
    omega

/-- A piece inserted behind literals. -/
theorem insertIdx_literals (bytes : List UInt8) (x : UInt8) :
    (bytes.map PatternPiece.literal).insertIdx bytes.length (.literal x) =
      (bytes ++ [x]).map .literal := by
  have hlen : bytes.length = (bytes.map PatternPiece.literal).length := by simp
  rw [hlen, List.insertIdx_length_self, List.map_append]
  rfl

section Typing

variable {E : SearchEngine} {bytesPerLine : Nat} {next : SearchAcceptor} {b : CurrentBuffer X}

private theorem eventToAction_charKey (key : Char × Bool) :
    defaultMaps.eventToAction (.key (charKey key)) = none := by
  simp [KeyMap.eventToAction, List.lookup_eq_none_iff, defaultMaps, charKey, onKey, onCtrl,
    KeyModifiers.none, KeyModifiers.withoutShift]

/-- A character key the prompt refuses does nothing, since the view binds none. -/
theorem press_refused {s : Search} {key : Char × Bool}
    (h : s.transition E (.key (charKey key)) b = .unhandled) :
    Session.press E bytesPerLine (charKey key) { mode := .search s, buffer := b } =
      some { mode := .search s, buffer := b } := by
  have hscroll : Session.scrollKey (charKey key) = none := by
    simp [Session.scrollKey, List.lookup_eq_none_iff, charKey, onCtrl, KeyModifiers.none]
  simp [Session.press, Mode.onBuffer, h, Outcome.unhandled, Session.pressDefault, hscroll]

private theorem transition_shifted (s : Search) (c : Char) :
    s.transition E (.key (charKey (c, true))) b = .unhandled := by
  simp only [transition, eventToAction_charKey]
  rfl

private theorem transition_plain (s : Search) (c : Char) :
    s.transition E (.key (charKey (c, false))) b = s.typed c b := by
  simp only [transition, eventToAction_charKey]
  rfl

private theorem press_plain {s s' : Search} {c : Char}
    (h : s.typed c b = .keep b (.newMode (.search s'))) :
    Session.press E bytesPerLine (charKey (c, false)) { mode := .search s, buffer := b } =
      some { mode := .search s', buffer := b } := by
  simp [Session.press, Mode.onBuffer, transition_plain, h, Outcome.keep, ModeTransition.mode]

/-- The ascii prompt takes the characters without SHIFT. -/
theorem run_ascii (keys : List (Char × Bool)) (bytes : List UInt8) :
    runSteps (Session.press E bytesPerLine) (keys.map charKey)
      { mode := .search (spelling next false bytes none), buffer := b } =
    some { mode := .search (spelling next false
      (bytes ++ (keys.filter (!·.2)).map fun k ↦ k.1.toNat.toUInt8) none), buffer := b } := by
  induction keys generalizing bytes with
  | nil => simp
  | cons key keys ih =>
    obtain ⟨c, shift⟩ := key
    rw [List.map_cons, runSteps_cons]
    cases shift with
    | true =>
      rw [press_refused (transition_shifted _ c), Option.bind_some, ih]
      rfl
    | false =>
      have htyped : (spelling next false bytes none).typed c b = .keep b (.newMode (.search
          (spelling next false (bytes ++ [c.toNat.toUInt8]) none))) := by
        rw [typed_ascii rfl (by simp [spelling])]
        simp [spelling, insertIdx_literals]
      rw [press_plain htyped, Option.bind_some, ih]
      simp

variable (E bytesPerLine next b)

/-- The hex prompt takes the digits without SHIFT. -/
theorem run_hex (keys : List (Char × Bool)) (p : List UInt8 × Option UInt8)
    (hp : ∀ hi ∈ p.2, hi.toNat < 16) :
    runSteps (Session.press E bytesPerLine) (keys.map charKey)
      { mode := .search (spelling next true p.1 p.2), buffer := b } =
    some { mode := .search (spelling next true
      (((keys.filter (!·.2)).filterMap (hexDigit ·.1)).foldl feed p).1
      (((keys.filter (!·.2)).filterMap (hexDigit ·.1)).foldl feed p).2), buffer := b } := by
  induction keys generalizing p with
  | nil => rfl
  | cons key keys ih =>
    obtain ⟨c, shift⟩ := key
    rw [List.map_cons, runSteps_cons]
    cases shift with
    | true =>
      rw [press_refused (transition_shifted _ c), Option.bind_some, ih p hp]
      rfl
    | false =>
      cases hd : hexDigit c with
      | none =>
        have htyped : (spelling next true p.1 p.2).typed c b = .unhandled := by
          simp [typed, spelling, hd]
        rw [press_refused ((transition_plain _ c).trans htyped), Option.bind_some, ih p hp]
        simp [hd]
      | some digit =>
        have hlt := toNat_lt_of_hexDigit hd
        obtain ⟨bytes, hi⟩ := p
        have htyped : (spelling next true bytes hi).typed c b = .keep b (.newMode (.search
            (spelling next true (feed (bytes, hi) digit).1 (feed (bytes, hi) digit).2))) := by
          cases hi with
          | none =>
            rw [typed_first rfl rfl hd (by simp [spelling])]
            simp [spelling, feed, insertIdx_literals]
          | some hi =>
            rw [typed_second rfl rfl hd (by simp [spelling]), shiftLeft_or (hp hi rfl) hlt]
            simp [spelling, feed]
        rw [press_plain htyped, Option.bind_some, ih]
        · simp [hd]
        · cases hi with
          | none =>
            rintro _ ⟨⟩
            exact hlt
          | some hi =>
            rintro _ ⟨⟩

private theorem typeKeys_ascii (keys : List (Char × Bool)) :
    typeKeys E bytesPerLine next false b keys =
      some { mode := .search (spelling next false
        ((keys.filter (!·.2)).map fun k ↦ k.1.toNat.toUInt8) none), buffer := b } :=
  run_ascii keys []

private theorem typeKeys_hex (keys : List (Char × Bool)) :
    ∃ hi, typeKeys E bytesPerLine next true b keys =
        some { mode := .search (spelling next true
          (spelled ((keys.filter (!·.2)).filterMap (hexDigit ·.1))) hi), buffer := b } ∧
      (hi = none ↔ 2 ∣ ((keys.filter (!·.2)).filterMap (hexDigit ·.1)).length) := by
  have hrun := run_hex E bytesPerLine next b keys ([], none) (by simp)
  obtain ⟨hbytes, hhalf⟩ := foldl_feed ((keys.filter (!·.2)).filterMap (hexDigit ·.1)) []
  rw [hbytes] at hrun
  exact ⟨_, hrun, hhalf⟩

end Typing

/-- Keys without SHIFT. -/
def Plain (keys : List (Char × Bool)) : Prop := ∀ k ∈ keys, k.2 = false

private theorem plain_iff_length {keys : List (Char × Bool)} :
    Plain keys ↔ (keys.filter (!·.2)).length = keys.length := by
  simp [Plain, List.length_filter_eq_length_iff]

private theorem Plain.filter_eq {keys : List (Char × Bool)} (h : Plain keys) :
    keys.filter (!·.2) = keys := by
  rw [List.filter_eq_self]
  intro k hk
  rw [h k hk]
  rfl

private theorem Plain.map_eq {keys : List (Char × Bool)} (h : Plain keys) :
    keys.map (fun k ↦ (k.1, false)) = keys := by
  have hid : ∀ k ∈ keys, (k.1, false) = id k := fun k hk ↦ Prod.ext rfl (h k hk).symm
  rw [List.map_congr_left hid, List.map_id]

/-- A digit key with SHIFT is missing from the bytes. -/
theorem plain_of_spelled_length {keys : List (Char × Bool)}
    (hdigits : ∀ k ∈ keys, (hexDigit k.1).isSome) (heven : 2 ∣ keys.length)
    (h : (spelled ((keys.filter (!·.2)).filterMap (hexDigit ·.1))).length =
      (spelled (keys.filterMap (hexDigit ·.1))).length) : Plain keys := by
  have hkept : ((keys.filter (!·.2)).filterMap (hexDigit ·.1)).length =
      (keys.filter (!·.2)).length :=
    List.filterMap_length_eq_length.mpr fun k hk ↦ hdigits k (List.mem_of_mem_filter hk)
  have hall : (keys.filterMap (hexDigit ·.1)).length = keys.length :=
    List.filterMap_length_eq_length.mpr hdigits
  have hle : (keys.filter (!·.2)).length ≤ keys.length := List.length_filter_le _ _
  rw [length_spelled, length_spelled, hkept, hall] at h
  rw [plain_iff_length]
  omega

private theorem cursor_eq_of_session {s s' : Search} {b : CurrentBuffer X}
    (h : some { mode := Mode.search s, buffer := b : Session X } =
      some { mode := Mode.search s', buffer := b }) : s.cursor = s'.cursor := by
  injection h with h
  injection h with h
  injection h with h
  rw [h]

/-- Character keys spell their bytes in an ascii prompt, and pairs of digits the bytes they
denote in a hex prompt, with the cursor behind them and whatever SHIFT says, exactly when no
key carries SHIFT. Insertion, replacement and the command prompt do not look at it. -/
theorem typeKeys_iff (E : SearchEngine) (bytesPerLine : Nat) (next : SearchAcceptor)
    (b : CurrentBuffer X) (keys : List (Char × Bool)) :
    (typeKeys E bytesPerLine next false b keys =
        some { mode := .search (spelling next false (keys.map fun k ↦ k.1.toNat.toUInt8) none)
               buffer := b } ∧
      typeKeys E bytesPerLine next false b keys =
        typeKeys E bytesPerLine next false b (keys.map fun k ↦ (k.1, false)) ↔ Plain keys) ∧
    ((∀ k ∈ keys, (hexDigit k.1).isSome) → 2 ∣ keys.length →
      (typeKeys E bytesPerLine next true b keys =
          some { mode := .search (spelling next true (spelled (keys.filterMap (hexDigit ·.1))) none)
                 buffer := b } ∧
        typeKeys E bytesPerLine next true b keys =
          typeKeys E bytesPerLine next true b (keys.map fun k ↦ (k.1, false)) ↔ Plain keys)) ∧
    ∀ c shift,
      (∀ m : Insert, m.transition (.key (charKey (c, shift))) b bytesPerLine =
        m.transition (.key (charKey (c, false))) b bytesPerLine) ∧
      (∀ m : Replace, m.transition (.key (charKey (c, shift))) b =
        m.transition (.key (charKey (c, false))) b) ∧
      ∀ (m : Command) (ws : Workspace X), m.transition (.key (charKey (c, shift))) ws =
        m.transition (.key (charKey (c, false))) ws := by
  refine ⟨⟨?_, ?_⟩, fun hdigits heven ↦ ⟨?_, ?_⟩, fun c shift ↦ ⟨?_, ?_, ?_⟩⟩
  · rintro ⟨h, -⟩
    rw [typeKeys_ascii] at h
    have hcursor := cursor_eq_of_session h
    rw [plain_iff_length]
    simpa [spelling] using hcursor
  · intro hplain
    rw [typeKeys_ascii, hplain.filter_eq, hplain.map_eq, typeKeys_ascii, hplain.filter_eq]
    exact ⟨rfl, rfl⟩
  · rintro ⟨h, -⟩
    obtain ⟨hi, hrun, -⟩ := typeKeys_hex E bytesPerLine next b keys
    exact plain_of_spelled_length hdigits heven (cursor_eq_of_session (hrun.symm.trans h))
  · intro hplain
    obtain ⟨hi, hrun, hhi⟩ := typeKeys_hex E bytesPerLine next b keys
    rw [hplain.filter_eq] at hrun hhi
    rw [List.filterMap_length_eq_length.mpr hdigits] at hhi
    rw [hhi.mpr heven] at hrun
    rw [hplain.map_eq]
    exact ⟨hrun, rfl⟩
  · intro m
    rfl
  · intro m
    rfl
  · intro m ws
    rfl

/-- Two digits typed into a hex prompt. -/
theorem typeKeys_twoDigits :
    let b : CurrentBuffer (XiRope.reference UInt8) := .fromDataAndPath [] none
    typeKeys .reference 16 .collapse true b [('4', false), ('F', false)] =
      some { mode := .search (spelling .collapse true [0x4f] none), buffer := b } :=
  (((typeKeys_iff .reference 16 .collapse _ [('4', false), ('F', false)]).2.1 (by decide)
    (by decide)).mpr (by simp [Plain])).1

/-- A capital letter, which comes with SHIFT, is not typed. -/
theorem typeKeys_capital :
    let b : CurrentBuffer (XiRope.reference UInt8) := .fromDataAndPath [] none
    typeKeys .reference 16 .collapse false b [('A', true)] =
        some { mode := .search (.new .collapse false), buffer := b } ∧
      typeKeys .reference 16 .collapse false b [('A', true)] ≠
        typeKeys .reference 16 .collapse false b [('A', false)] := by
  intro b
  have hshifted : typeKeys .reference 16 .collapse false b [('A', true)] =
      some { mode := .search (.new .collapse false), buffer := b } := rfl
  have hplain : typeKeys .reference 16 .collapse false b [('A', false)] =
      some { mode := .search (spelling .collapse false [0x41] none), buffer := b } := rfl
  refine ⟨hshifted, ?_⟩
  rw [hshifted, hplain]
  intro h
  exact absurd (cursor_eq_of_session h) (by decide)

end Search

end Tofu

import Tofu.Modes.HalfRedraw
import Tofu.Modes.OneRegion

/-!
# Cursor keys in the insertion modes

With no half pending a cursor key moves the cursor. With one it types a zero first, which
takes the cursor on by one, and steps back after the movement
(`src/src/modes/insert.rs:206–232`). The detour does not always cancel out: it is cut short at
the end of the buffer, and the zero goes over the lower half of a byte that is overwritten.
-/

namespace Tofu

open Rope SelRegion

variable {X : XiRope UInt8}

namespace Insert

/-! ## Where the detour ends -/

/-- The step on, the movement and the step back take the cursor where the movement does. -/
def Returns (bytesPerLine n c : Nat) : Direction → Prop
  | .left => True
  | .right => c + 1 < n
  | .down => usizeAdd c bytesPerLine < n
  | .up => bytesPerLine ≠ 2 ^ 63 + 1 + c

instance (bytesPerLine n c : Nat) (direction : Direction) :
    Decidable (Returns bytesPerLine n c direction) :=
  match direction with
  | .left => isTrue trivial
  | .right => inferInstanceAs (Decidable (_ < _))
  | .down => inferInstanceAs (Decidable (_ < _))
  | .up => inferInstanceAs (Decidable (_ ≠ _))

private theorem landing_succ_iff (direction : Direction) {bytesPerLine n c : Nat}
    (hb : bytesPerLine < 2 ^ 64) (hc : c < n) (hn : n < 2 ^ 63) :
    landing direction bytesPerLine n (c + 1) = movedCaret direction bytesPerLine n 1 c ↔
      Returns bytesPerLine n c direction := by
  have hback : ∀ p < 2 ^ 63, movedCaret .left bytesPerLine n 1 p = p - 1 := fun p hp ↦
    movedCaret_left _ _ (by omega) hp
  have hword : ∀ p, min n p < 2 ^ 63 := by omega
  cases direction with
  | left =>
    rw [landing, hback (c + 1) (by omega), hback c (by omega), Nat.add_sub_cancel,
      hback c (by omega)]
    simp only [Returns]
  | right =>
    simp only [landing, movedCaret.eq_4]
    rw [hback _ (hword _), usizeAdd_of_lt (by omega), usizeAdd_of_lt (by omega), Returns]
    omega
  | down =>
    have hone : usizeSaturatingMul bytesPerLine 1 = bytesPerLine := by
      unfold usizeSaturatingMul
      omega
    simp only [landing, movedCaret.eq_2, hone]
    rw [hback _ (hword _), Returns]
    unfold usizeAdd
    omega
  | up =>
    have hup : movedCaret .up bytesPerLine n 1 (c + 1) < 2 ^ 63 := by
      rw [movedCaret_up_one n hb (by omega)]
      split_ifs <;> omega
    rw [landing, hback _ hup, movedCaret_up_one n hb (by omega), movedCaret_up_one n hb (by omega),
      Returns]
    split_ifs <;> omega

/-! ## The keys -/

/-- The key of a direction, with or without SHIFT. -/
def arrow (shift : Bool) (direction : Direction) : KeyEvent :=
  { code :=
      match direction with
      | .up => .up
      | .down => .down
      | .left => .left
      | .right => .right
    modifiers := { KeyModifiers.none with shift } }

variable {m : Insert} {b : CurrentBuffer X} {c : Nat} (E : SearchEngine) (bytesPerLine : Nat)
  (shift : Bool) (direction : Direction)

private theorem press_arrow :
    Session.press E bytesPerLine (arrow shift direction) { mode := .insert m, buffer := b } =
      (m.finishHalf b).bind fun b₁ ↦
        (b₁.selection.mapRegions fun r ↦
          [moved direction bytesPerLine b₁.data.length m.hexHalf.isSome r]).map fun sel ↦
            { mode := .insert { m with hexHalf := none }
              buffer := { b₁ with selection := sel } } := by
  have hkey : (Mode.insert m).onBuffer E (.key (arrow shift direction)) b bytesPerLine =
      .modeAndDirty (.insert { m with hexHalf := none }) ((m.finishHalf b).bind fun b₁ ↦
        b₁.mapSelections (Selection.pureClosure fun r ↦
          [moved direction bytesPerLine b₁.data.length m.hexHalf.isSome r]) ()) := by
    cases direction <;> cases shift <;> rfl
  rw [Session.press_of_modeAndDirty hkey]
  cases m.finishHalf b with
  | none => rfl
  | some b₁ =>
    rw [Option.bind_some, CurrentBuffer.map_fst_mapSelections_pure, Option.map_map,
      Option.bind_some]
    rfl

/-- With no half pending the cursor moves and nothing else happens. -/
theorem press_arrow_idle (hnone : m.hexHalf = none) (hsel : b.selection = .single c c) :
    let r := SelRegion.simpleMove ⟨c, c, true⟩ direction bytesPerLine b.data.length 1
    ∃ b₂, Session.press E bytesPerLine (arrow shift direction) { mode := .insert m, buffer := b } =
        some { mode := .insert { m with hexHalf := none }, buffer := b₂ } ∧
      b₂.data = b.data ∧ b₂.selection = .single r.caret r.tail := by
  rcases m with ⟨mode, hex, hexHalf⟩
  subst hnone
  rw [press_arrow, finishHalf, if_neg (by simp), Option.bind_some, hsel,
    Selection.mapRegions_single]
  exact ⟨_, rfl, rfl, rfl⟩

/-- With one pending the byte is finished with a zero, and the cursor steps on, moves and steps
back. -/
theorem press_arrow_half {half : UInt8} (hhalf : m.hexHalf = some half)
    (hsel : b.selection = .single c (c + 1)) (hc : c < b.data.length)
    (hlen : b.data.length < 2 ^ 63) :
    ∃ b₂, Session.press E bytesPerLine (arrow shift direction) { mode := .insert m, buffer := b } =
        some { mode := .insert { m with hexHalf := none }, buffer := b₂ } ∧
      b₂.data = b.data.take c ++ half :: b.data.drop (c + 1) ∧
      b₂.selection = .single (landing direction bytesPerLine b.data.length (c + 1))
        (landing direction bytesPerLine b.data.length (c + 1)) := by
  obtain ⟨b₁, dirty, h, hdata, hsel₁⟩ :=
    CurrentBuffer.change_single hsel (Nat.lt_succ_self c) hc hlen half
  have hlength : b₁.data.length = b.data.length := by
    rw [hdata, List.length_append, List.length_cons, List.length_take, List.length_drop]
    omega
  have hfinish : m.finishHalf b = some b₁ := by
    rw [finishHalf, hhalf, if_pos Option.isSome_some, transitionHexInsertion,
      show hexDigit '0' = some 0 from rfl]
    simp only [hexInsertion, UInt8.or_zero, h]
    rfl
  rw [press_arrow, hfinish, Option.bind_some, hsel₁, Selection.mapRegions_single, hhalf]
  refine ⟨_, rfl, hdata, ?_⟩
  simp only [Option.isSome_some, hlength, moved_half (Nat.zero_lt_of_lt hc), caret_new, tail_new]

omit direction in
/-- A hex digit typed at a cursor: the cursor stays, and the byte at it is the digit's half unless
the lower half of a byte was kept. -/
theorem press_digit {key : Char} {digit : UInt8} (hnone : m.hexHalf = none)
    (hhex : m.hex = true) (hdigit : hexDigit key = some digit) (hsel : b.selection = .single c c)
    (hc : c ≤ b.data.length) (hlen : b.data.length + 1 < 2 ^ 63) :
    ∃ b₁, Session.press E bytesPerLine (EditKey.event shift (.char key))
        { mode := .insert m, buffer := b } =
          some { mode := .insert { m with hexHalf := some (digit <<< 4) }, buffer := b₁ } ∧
      b₁.selection = .single c (c + 1) ∧ c < b₁.data.length ∧ b₁.data.length < 2 ^ 63 ∧
      (b₁.data[c]? = some (digit <<< 4) ↔
        (m.mode = .overwrite → b.data[c]?.getD 0 % 16 = 0)) := by
  rcases m with ⟨mode, hex, hexHalf⟩
  simp only at hnone hhex
  subst hnone hhex
  have htake : (b.data.take c).length = c := List.length_take_of_le hc
  have hkey : (Mode.insert ⟨mode, true, none⟩).onBuffer E (.key (EditKey.event shift (.char key)))
      b bytesPerLine = hexInsertion digit b mode none := by
    rw [Mode.onBuffer, transition_char, if_pos rfl, transitionHexInsertion, hdigit]
  have hbyte : ∀ (x : UInt8) (rest : List UInt8), (b.data.take c ++ x :: rest)[c]? = some x := by
    intro x rest
    rw [List.getElem?_append_right (by omega), htake, Nat.sub_self, List.getElem?_cons_zero]
  have hsize : ∀ (x : UInt8) (k : Nat), c ≤ k →
      c < (b.data.take c ++ x :: b.data.drop k).length ∧
        (b.data.take c ++ x :: b.data.drop k).length < 2 ^ 63 := by
    intro x k hk
    rw [List.length_append, htake, List.length_cons, List.length_drop]
    omega
  by_cases hmode : mode = .overwrite
  · subst hmode
    obtain ⟨b₁, dirty, h, hdata, hsel₁⟩ :=
      CurrentBuffer.overwriteHalf_single hsel rfl hc hlen (shiftLeft_four_mod digit)
    obtain ⟨hpos, hbound⟩ := hdata ▸ hsize _ (c + 1) (Nat.le_succ c)
    refine ⟨b₁, ?_, hsel₁, hpos, hbound, ?_⟩
    · rw [Session.press_of_modeAndDirty (hkey.trans (by rw [hexInsertion])), h]
      rfl
    · rw [hdata, hbyte, Option.some.injEq, Ops.withUpperHalf_eq_self_iff (shiftLeft_four_mod digit)]
      exact ⟨fun h _ ↦ h, fun h ↦ h rfl⟩
  · obtain ⟨b₁, h, hdata, hsel₁⟩ :=
      CurrentBuffer.insertHalf_single hsel (Nat.le_refl c) hc hlen (digit <<< 4)
    obtain ⟨hpos, hbound⟩ := hdata ▸ hsize _ c (Nat.le_refl c)
    refine ⟨b₁, ?_, hsel₁, hpos, hbound, ?_⟩
    · rw [Session.press_of_modeAndDirty (hkey.trans (hexInsertion_first hmode digit b)), h]
      rfl
    · rw [hdata, hbyte]
      exact ⟨fun _ h ↦ absurd h hmode, fun _ ↦ rfl⟩

/-- A cursor key of an insertion mode leaves the data as it is, clears the half that is pending and
moves the cursor, exactly when no half is pending, or the zero written goes over no other lower
half and the detour returns. -/
theorem cursorKey_only_moves_iff (hnone : m.hexHalf = none) (hsel : b.selection = .single c c)
    (hc : c ≤ b.data.length) (hlen : b.data.length + 1 < 2 ^ 63) (hb : bytesPerLine < 2 ^ 64)
    (typed : Option (Char × Bool))
    (htyped : ∀ key ∈ typed, m.hex = true ∧ (hexDigit key.1).isSome) :
    ∃ m₁ b₁, runSteps (Session.press E bytesPerLine)
        (typed.toList.map fun key ↦ EditKey.event key.2 (.char key.1))
        { mode := .insert m, buffer := b } = some { mode := .insert m₁, buffer := b₁ } ∧
      m₁.hexHalf.isSome = typed.isSome ∧
      let r := SelRegion.simpleMove ⟨c, c, true⟩ direction bytesPerLine b₁.data.length 1
      ((∃ b₂, Session.press E bytesPerLine (arrow shift direction)
          { mode := .insert m₁, buffer := b₁ } =
            some { mode := .insert { m₁ with hexHalf := none }, buffer := b₂ } ∧
        b₂.data = b₁.data ∧ b₂.selection = .single r.caret r.tail) ↔
      (typed.isSome → (m.mode = .overwrite → b.data[c]?.getD 0 % 16 = 0) ∧
        Returns bytesPerLine b₁.data.length c direction)) := by
  cases typed with
  | none =>
    refine ⟨m, b, rfl, by rw [hnone]; rfl, ⟨fun _ h ↦ by simp at h, fun _ ↦ ?_⟩⟩
    exact press_arrow_idle E bytesPerLine shift direction hnone hsel
  | some key =>
    obtain ⟨hhex, hdigit⟩ := htyped key rfl
    obtain ⟨digit, hdigit⟩ := Option.isSome_iff_exists.mp hdigit
    obtain ⟨b₁, hpress, hsel₁, hc₁, hlen₁, hbyte⟩ :=
      press_digit E bytesPerLine key.2 hnone hhex hdigit hsel hc hlen
    obtain ⟨b₂, harrow, hdata, hsel₂⟩ := press_arrow_half
      (m := { m with hexHalf := some (digit <<< 4) }) E bytesPerLine shift direction rfl hsel₁ hc₁
      hlen₁
    refine ⟨{ m with hexHalf := some (digit <<< 4) }, b₁, ?_, rfl, ?_⟩
    · rw [Option.toList_some, List.map_singleton, runSteps_cons, hpress, Option.bind_some,
        runSteps_nil]
    · have hmove : SelRegion.simpleMove ⟨c, c, true⟩ direction bytesPerLine b₁.data.length 1 =
          SelRegion.new (movedCaret direction bytesPerLine b₁.data.length 1 c)
            (movedCaret direction bytesPerLine b₁.data.length 1 c) := if_neg (by omega)
      -- writing the half over its own byte changes nothing
      have hsame : b₂.data = b₁.data ↔ b₁.data[c]? = some (digit <<< 4) := by
        rw [hdata, List.getElem?_eq_getElem hc₁, Option.some.injEq]
        conv_lhs => rhs; rw [← List.take_append_drop c b₁.data, List.drop_eq_getElem_cons hc₁]
        rw [List.append_cancel_left_eq, List.cons.injEq, and_iff_left rfl, eq_comm]
      have hreturn : b₂.selection = .single (movedCaret direction bytesPerLine b₁.data.length 1 c)
          (movedCaret direction bytesPerLine b₁.data.length 1 c) ↔
            Returns bytesPerLine b₁.data.length c direction := by
        rw [hsel₂, ← landing_succ_iff direction hb hc₁ hlen₁]
        constructor
        · intro h
          simpa [Selection.single] using congrArg (fun sel ↦ sel.regions.map caret) h
        · intro h
          rw [h]
      simp only [hmove, caret_new, tail_new]
      rw [← hbyte, ← hsame, ← hreturn]
      constructor
      · rintro ⟨b₂', h, h1, h2⟩ -
        rw [harrow, Option.some.injEq, Session.mk.injEq] at h
        obtain ⟨-, rfl⟩ := h
        exact ⟨h1, h2⟩
      · intro h
        exact ⟨b₂, harrow, (h rfl).1, (h rfl).2⟩

/-- A hex digit typed before the second of two bytes, and up by a line that is longer. -/
theorem cursorKey_up_from_half :
    ∃ m₁ b₁, runSteps (Session.press .reference 16) [EditKey.event false (.char '4')]
        { mode := .insert { mode := .insert, hex := true, hexHalf := none },
          buffer := .withRegions [1, 2] [⟨1, 1, true⟩] } =
          some { mode := .insert m₁, buffer := b₁ } ∧
      ∃ b₂, Session.press .reference 16 (arrow false .up) { mode := .insert m₁, buffer := b₁ } =
          some { mode := .insert { m₁ with hexHalf := none }, buffer := b₂ } ∧
        b₂.data = b₁.data := by
  obtain ⟨m₁, b₁, hrun, -, hiff⟩ := cursorKey_only_moves_iff .reference 16 false .up
    (m := { mode := .insert, hex := true, hexHalf := none })
    (b := .withRegions [1, 2] [⟨1, 1, true⟩]) (c := 1)
    rfl rfl (by decide) (by decide) (by decide) (some ('4', false)) (by simp; decide)
  obtain ⟨b₂, hpress, hdata, -⟩ := hiff.mpr fun _ ↦ ⟨by simp, by simp [Returns]⟩
  exact ⟨m₁, b₁, hrun, b₂, hpress, hdata⟩

/-- A hex digit typed in an empty buffer keeps the cursor where it is, and one typed over `ff`
loses the lower half of that byte. -/
theorem cursorKey_right_from_half :
    ((runSteps (Session.press .reference 16) [EditKey.event false (.char '4'), arrow false .right]
      { mode := .insert { mode := .insert, hex := true, hexHalf := none },
        buffer := .withRegions [] [⟨0, 0, true⟩] }).map
      fun s ↦ (s.buffer.data, s.buffer.selection)) =
        some ([0x40], .single 0 0) ∧
    (SelRegion.simpleMove ⟨0, 0, true⟩ .right 16 1 1).caret = 1 ∧
    ((runSteps (Session.press .reference 16) [EditKey.event false (.char '4')]
      { mode := .insert { mode := .overwrite, hex := true, hexHalf := none },
        buffer := .withRegions [0xff, 0] [⟨0, 0, true⟩] }).map
      fun s ↦ s.buffer.data) = some [0x4f, 0] ∧
    ((runSteps (Session.press .reference 16) [EditKey.event false (.char '4'), arrow false .right]
      { mode := .insert { mode := .overwrite, hex := true, hexHalf := none },
        buffer := .withRegions [0xff, 0] [⟨0, 0, true⟩] }).map
      fun s ↦ s.buffer.data) = some [0x40, 0] := by
  decide

end Insert

end Tofu

import Tofu.Modes.HexByte
import Tofu.View.Memory

/-!
# Bringing the main cursor into view

After a change the view is moved to the main cursor (`src/src/hex_view/view.rs:1628–1668`):
`maybe_update_offset_and_draw` computes the new offset from the line of the cursor, and
`maybe_update_offset` a number of lines to scroll, in signed words. The second goes wrong
when the view is more than half of the address space below the cursor.
-/

namespace Tofu

open Rope

variable {X : XiRope UInt8} {fs : FileSystem} {height : Nat}

namespace HexView

/-- The view starts on a line of sixteen bytes and shows the main cursor. -/
def ShowsCursor (v : HexView X) : Prop :=
  16 ∣ v.startOffset ∧ ∃ b main, v.current = some b ∧ b.selection.main = some main ∧
    (v.visibleBytes b.data.length).start ≤ main.caret ∧
    main.caret < (v.visibleBytes b.data.length).stop

/-- `load_next_chunk(64)` reads something. -/
def LoadsMore (fs : FileSystem) (v : HexView X) : Prop :=
  (v.loadNextChunk fs 64).map Prod.snd = some true

instance (v : HexView X) : Decidable (v.LoadsMore fs) := inferInstanceAs (Decidable (_ = _))

/-- The file of the current buffer, if it has one, can be read. -/
def Readable (fs : FileSystem) (v : HexView X) : Prop :=
  ∃ b, v.current = some b ∧ ∀ path, b.path = some path → (fs.read path).isSome

/-- The lines that `maybe_update_offset` scrolls up by, `view.rs:1643–1646`. -/
def linesUp (delta : Int) : Nat := asUsize ((isizeAdd (isizeSub delta 16) 1).tdiv 16).natAbs

/-- The lines that it scrolls down by, `view.rs:1647–1651`. -/
def linesDown (delta : Int) : Nat := asUsize ((isizeSub (isizeAdd delta 16) 1).tdiv 16)

/-- Scroll by whole lines to cover a distance. -/
def scrollBy (fs : FileSystem) (height : Nat) (v : HexView X) (delta : Int) :
    Option (HexView X) :=
  if delta < 0 then v.scrollUp fs (linesUp delta) else v.scrollDown fs height (linesDown delta)

/-- The distance from the first byte of the screen up to the main cursor fits a signed word
with the rounding, or it is so large that scrolling down goes around to the cursor's line. -/
def CursorInReach (fs : FileSystem) (v : HexView X) (dataLen caret : Nat) : Prop :=
  dataLen = 0 ∨ v.startOffset + 15 ≤ caret + 2 ^ 63 ∨
    caret + 2 ^ 63 < v.startOffset ∧ 16 ∣ caret ∧ (caret < dataLen ∨ v.LoadsMore fs)

/-! ## Line counts -/

section Lines

variable {delta : Int}

private theorem linesUp_exact (hl : -2 ^ 63 + 15 ≤ delta) (hn : delta < 0) :
    (linesUp delta : Int) = (15 - delta) / 16 := by
  have h : isizeAdd (isizeSub delta 16) 1 = -(15 - delta) := by
    rw [isizeAdd_isizeSub, asIsize_asUsize (by omega) (by omega)]
    omega
  rw [linesUp, h, Int.neg_tdiv, Int.tdiv_eq_ediv_of_nonneg (by omega), asUsize]
  omega

/-- The subtraction wraps around to a positive word. -/
theorem linesUp_wraps (hl : -2 ^ 63 ≤ delta) (hn : delta < -2 ^ 63 + 15) :
    linesUp delta = 2 ^ 59 - 1 := by
  have h : isizeAdd (isizeSub delta 16) 1 = 2 ^ 64 + delta - 15 := by
    rw [isizeAdd_isizeSub, asIsize_asUsize_below (by omega) (by omega)]
    omega
  rw [linesUp, h, Int.tdiv_eq_ediv_of_nonneg (by omega), asUsize]
  omega

private theorem linesDown_exact (hn : 0 ≤ delta) (hu : delta + 15 < 2 ^ 63) :
    (linesDown delta : Int) = (delta + 15) / 16 := by
  have h : isizeSub (isizeAdd delta 16) 1 = delta + 15 := by
    rw [isizeSub_isizeAdd, asIsize_asUsize (by omega) (by omega)]
    omega
  rw [linesDown, h, Int.tdiv_eq_ediv_of_nonneg (by omega), asUsize]
  omega

/-- The addition wraps around to a negative word, and so to a huge number of lines. -/
theorem linesDown_wraps (hn : 2 ^ 63 ≤ delta + 15) (hu : delta < 2 ^ 63) :
    (linesDown delta : Int) = 2 ^ 64 - (2 ^ 64 - 15 - delta) / 16 := by
  have h : isizeSub (isizeAdd delta 16) 1 = -(2 ^ 64 - 15 - delta) := by
    rw [isizeSub_isizeAdd, asIsize_asUsize_above (by omega) (by omega)]
    omega
  rw [linesDown, h, Int.neg_tdiv, Int.tdiv_eq_ediv_of_nonneg (by omega), asUsize]
  omega

end Lines

/-! ## Loading without dropping -/

/-- Nothing that was dropped comes back, and while nothing is dropped the data only grows. -/
structure Appends (v v' : HexView X) : Prop where
  trims : v.trims ≤ v'.trims
  current : v'.trims = v.trims → ∀ b, v.current = some b →
    ∃ chunk, v'.current = some { b with data := b.data ++ chunk }

variable {v v' : HexView X} {b : CurrentBuffer X}

/-- Bytes read in two steps are read after each other. -/
theorem Appends.trans {v'' : HexView X} (h : Appends v v') (h' : Appends v' v'') :
    Appends v v'' := by
  refine ⟨h.trims.trans h'.trims, fun ht b hb ↦ ?_⟩
  have hle := h.trims
  have hle' := h'.trims
  obtain ⟨chunk, hc⟩ := h.current (by omega) b hb
  obtain ⟨chunk', hc'⟩ := h'.current (by omega) _ hc
  exact ⟨chunk ++ chunk', by rw [hc', List.append_assoc]⟩

/-- What a load does to the view. -/
theorem exists_of_loadNextChunk {n : Nat} {loaded : Bool} (hb : v.current = some b)
    (h : v.loadNextChunk fs n = some (v', loaded)) :
    ∃ chunk, v'.current = some { b with data := b.data ++ chunk } ∧
      (loaded = true ↔ chunk ≠ []) ∧ v'.startOffset = v.startOffset ∧ v'.trims = v.trims := by
  obtain ⟨b₀, hb₀, h⟩ := Option.bind_eq_some_iff.mp h
  obtain rfl : b = b₀ := Option.some.inj (hb.symm.trans hb₀)
  obtain ⟨⟨b', read⟩, hl, h⟩ := Option.bind_eq_some_iff.mp h
  obtain ⟨rfl, rfl⟩ := Prod.mk.inj (Option.some.inj h)
  obtain ⟨chunk, rfl, hread⟩ := CurrentBuffer.loadNextChunk_reads hl
  exact ⟨chunk, current_setCurrent hb _, hread, rfl, by simp [trims]⟩

private theorem eq_or_trims_succ (h : v.trimAfterLoad height = some v') :
    v' = v ∨ v'.trims = v.trims + 1 := by
  obtain rfl | ⟨b, -, -, rfl⟩ := trimAfterLoad_cases h
  · exact .inl rfl
  · exact .inr (by simp [trims])

/-- No part of drawing and scrolling does more to the buffer than read on. -/
theorem Appends.steps (fs : FileSystem) (height : Nat) : Steps (X := X) fs height Appends where
  refl _ := ⟨le_rfl, fun _ b hb ↦ ⟨[], by rw [List.append_nil]; exact hb⟩⟩
  trans := .trans
  load {v v' n loaded} h := by
    obtain ⟨b, hb, -⟩ := Option.bind_eq_some_iff.mp h
    obtain ⟨chunk, hc, -, -, ht⟩ := exists_of_loadNextChunk hb h
    refine ⟨ht.ge, fun _ b' hb' ↦ ⟨chunk, ?_⟩⟩
    obtain rfl : b = b' := Option.some.inj (hb.symm.trans hb')
    exact hc
  trim {v v'} h := by
    rcases eq_or_trims_succ h with rfl | ht
    · exact ⟨le_rfl, fun _ b hb ↦ ⟨[], by rw [List.append_nil]; exact hb⟩⟩
    · exact ⟨by omega, fun hsame ↦ by omega⟩
  move _ _ := ⟨Nat.le_refl _, fun _ b hb ↦ ⟨[], by rw [List.append_nil]; exact hb⟩⟩

/-! ## Loads that do not fail -/

private theorem Readable.steps (fs : FileSystem) (height : Nat) :
    Steps (X := X) fs height fun v v' ↦ v.Readable fs → v'.Readable fs where
  refl _ h := h
  trans h h' hr := h' (h hr)
  load h := fun ⟨b, hb, hp⟩ ↦ by
    obtain ⟨chunk, hc, -⟩ := exists_of_loadNextChunk hb h
    exact ⟨_, hc, hp⟩
  trim h := fun ⟨b, hb, hp⟩ ↦ by
    obtain ⟨v', dropped, ht, -, hc, -⟩ := exists_trimAfterLoad hb height
    obtain rfl := Option.some.inj (ht.symm.trans h)
    exact ⟨_, hc, hp⟩
  move _ _ h := h

private theorem Readable.exists_loadNextChunk (h : v.Readable fs) (n : Nat) :
    ∃ r, v.loadNextChunk fs n = some r := by
  obtain ⟨b, hb, hp⟩ := h
  cases hpath : b.path with
  | none => exact ⟨_, by rw [loadNextChunk, hb, Option.bind_eq_bind, Option.bind_some,
      CurrentBuffer.loadNextChunk, hpath]; rfl⟩
  | some path =>
    obtain ⟨F, hF⟩ := Option.isSome_iff_exists.mp (hp path hpath)
    exact ⟨_, loadNextChunk_eq hb hpath hF n⟩

private theorem Readable.exists_draw (h : v.Readable fs) : ∃ v', v.draw fs = some v' := by
  obtain ⟨b, hb, -⟩ := id h
  rw [draw_eq, ensureVisibleData, hb, Option.bind_eq_bind, Option.bind_some]
  split
  · obtain ⟨r, hr⟩ := h.exists_loadNextChunk 64
    exact ⟨r.1, by rw [hr]; rfl⟩
  · exact ⟨v, rfl⟩

private theorem Readable.exists_scrollUp (h : v.Readable fs) (lineCount : Nat) :
    ∃ v', v.scrollUp fs lineCount = some v' := by
  rw [scrollUp_eq]
  split
  · exact ⟨v, rfl⟩
  · exact Readable.exists_draw (show Readable fs { v with startOffset := _ } from h)

private theorem Readable.exists_loadForScroll (h : v.Readable fs) (height nextPosition : Nat) :
    ∃ r, v.loadForScroll fs height nextPosition = some r := by
  obtain ⟨b, hb, -⟩ := id h
  rw [loadForScroll, hb, Option.bind_eq_bind, Option.bind_some]
  dsimp only
  split
  · obtain ⟨⟨v₁, loaded⟩, hl⟩ := h.exists_loadNextChunk 64
    obtain ⟨b₁, hb₁, -⟩ := (Readable.steps fs height).load hl h
    obtain ⟨v₂, -, ht, -⟩ := exists_trimAfterLoad hb₁ height
    rw [hl, Option.bind_eq_bind, Option.bind_some]
    cases loaded with
    | true => exact ⟨_, by rw [if_pos rfl, ht]; rfl⟩
    | false => exact ⟨_, rfl⟩
  · exact ⟨_, rfl⟩

private theorem Readable.exists_scrollDown (h : v.Readable fs) (lineCount : Nat) :
    ∃ v', v.scrollDown fs height lineCount = some v' := by
  obtain ⟨⟨v₁, goesOn⟩, hl⟩ := h.exists_loadForScroll height (v.nextPosition lineCount)
  have h₁ := (Readable.steps fs height).loadForScroll hl h
  obtain ⟨b₁, hb₁, -⟩ := id h₁
  simp only [scrollDown_eq, hl, Option.bind_some, hb₁]
  split
  · exact ⟨v₁, rfl⟩
  · exact Readable.exists_draw (show Readable fs { v₁ with startOffset := _ } from h₁)

/-! ## Where scrolling ends -/

/-- Drawing does not scroll. -/
theorem startOffset_draw (h : v.draw fs = some v') : v'.startOffset = v.startOffset := by
  rcases draw_cases h with ⟨loaded, hl⟩ | rfl
  · obtain ⟨b, hb, -⟩ := Option.bind_eq_some_iff.mp hl
    obtain ⟨-, -, -, hs, -⟩ := exists_of_loadNextChunk hb hl
    exact hs
  · rfl

/-- Scrolling up is refused at the top. -/
theorem startOffset_scrollUp {lineCount : Nat} (h : v.scrollUp fs lineCount = some v') :
    v'.startOffset = if v.startOffset < usizeMul 16 lineCount then v.startOffset
      else v.startOffset - usizeMul 16 lineCount := by
  rw [scrollUp_eq] at h
  split at h
  · next hlt => rw [if_pos hlt, Option.some.inj h]
  · next hlt =>
    rw [if_neg hlt]
    exact startOffset_draw h

/-- The load before scrolling, when it drops nothing. -/
theorem exists_of_loadForScroll {nextPosition : Nat} {goesOn : Bool} (hb : v.current = some b)
    (h : v.loadForScroll fs height nextPosition = some (v', goesOn))
    (ht : v'.trims = v.trims) :
    ∃ chunk, v'.current = some { b with data := b.data ++ chunk } ∧
      v'.startOffset = v.startOffset ∧
      (goesOn = false → (b.data ++ chunk).length ≤ nextPosition) ∧
      (chunk ≠ [] ↔ b.data.length < usizeAdd nextPosition (v.size.2 * v.bytesPerLine) ∧
        v.LoadsMore fs) := by
  obtain ⟨b₀, hb₀, h⟩ := Option.bind_eq_some_iff.mp h
  obtain rfl : b = b₀ := Option.some.inj (hb.symm.trans hb₀)
  simp only at h
  split at h
  · next hend =>
    obtain ⟨⟨v₁, loaded⟩, hl, h⟩ := Option.bind_eq_some_iff.mp h
    obtain ⟨chunk, hc, hloaded, hs, ht₁⟩ := exists_of_loadNextChunk hb hl
    have hmore : v.LoadsMore fs ↔ loaded = true := by
      rw [LoadsMore, hl, Option.map_some, Option.some.injEq]
    have hiff : chunk ≠ [] ↔
        b.data.length < usizeAdd nextPosition (v.size.2 * v.bytesPerLine) ∧ v.LoadsMore fs := by
      rw [hmore, ← hloaded]
      exact ⟨fun h ↦ ⟨hend, h⟩, And.right⟩
    simp only at h
    split at h
    · obtain ⟨v₂, htrim, h⟩ := Option.map_eq_some_iff.mp h
      obtain ⟨rfl, rfl⟩ := Prod.mk.inj h
      rcases eq_or_trims_succ htrim with rfl | hmore
      · exact ⟨chunk, hc, hs, fun h ↦ Bool.noConfusion h, hiff⟩
      · omega
    · next hno =>
      obtain ⟨rfl, rfl⟩ := Prod.mk.inj (Option.some.inj h)
      obtain rfl : chunk = [] := by
        by_contra hne
        exact hno (hloaded.mpr hne)
      exact ⟨[], hc, hs, fun h ↦ by simpa using h, hiff⟩
  · next hend =>
    obtain ⟨rfl, rfl⟩ := Prod.mk.inj (Option.some.inj h)
    exact ⟨[], by rw [List.append_nil]; exact hb, rfl, fun h ↦ Bool.noConfusion h, by simp [hend]⟩

/-- Scrolling down without dropping anything is refused beyond the data that is there after
the first load. -/
theorem exists_of_scrollDown {lineCount : Nat} (hb : v.current = some b)
    (h : v.scrollDown fs height lineCount = some v') (ht : v'.trims = v.trims) :
    ∃ b' chunk, v'.current = some b' ∧ (b.data ++ chunk).length ≤ b'.data.length ∧
      (chunk ≠ [] ↔ b.data.length < usizeAdd (v.nextPosition lineCount)
        (v.size.2 * v.bytesPerLine) ∧ v.LoadsMore fs) ∧
      v'.startOffset = if v.nextPosition lineCount < (b.data ++ chunk).length then
        v.nextPosition lineCount else v.startOffset := by
  rw [scrollDown_eq] at h
  obtain ⟨⟨v₁, goesOn⟩, hl, h⟩ := Option.bind_eq_some_iff.mp h
  obtain ⟨b₁, hb₁, h⟩ := Option.bind_eq_some_iff.mp h
  have ha := Appends.steps (X := X) fs height
  have hrest : Appends v₁ v' := by
    split at h
    · rw [← Option.some.inj h]
      exact ha.refl v₁
    · exact ha.trans (ha.move v₁ _) (ha.draw h)
  have hle := (ha.loadForScroll hl).trims
  have hle' := hrest.trims
  obtain ⟨chunk, hc, hs, hstop, hiff⟩ := exists_of_loadForScroll hb hl (by omega)
  obtain ⟨more, hmore⟩ := hrest.current (by omega) _ hc
  obtain rfl : b₁ = _ := Option.some.inj (hb₁.symm.trans hc)
  refine ⟨_, chunk, hmore, by simp, hiff, ?_⟩
  split at h
  · next hno =>
    rw [if_neg, ← Option.some.inj h, hs]
    rcases hno with hno | hno
    · exact Nat.not_lt.mpr (hstop (by simpa using hno))
    · exact Nat.not_lt.mpr hno
  · next hgo =>
    simp only [not_or, Nat.not_le] at hgo
    have hlt : v.nextPosition lineCount < (b.data ++ chunk).length := hgo.2
    rw [if_pos hlt]
    exact startOffset_draw h

/-! ## Views that drop nothing -/

/-- Drawing drops nothing. -/
theorem trims_draw (h : v.draw fs = some v') : v'.trims = v.trims := by
  rcases draw_cases h with ⟨loaded, hl⟩ | rfl
  · obtain ⟨b, hb, -⟩ := Option.bind_eq_some_iff.mp hl
    obtain ⟨-, -, -, -, ht⟩ := exists_of_loadNextChunk hb hl
    exact ht
  · rfl

/-- Scrolling up drops nothing. -/
theorem trims_scrollUp {lineCount : Nat} (h : v.scrollUp fs lineCount = some v') :
    v'.trims = v.trims := by
  rw [scrollUp_eq] at h
  split at h
  · rw [Option.some.inj h]
  · exact (trims_draw h :)

section NoTrim

variable (hno : ∀ v₁, v.loadNextChunk fs 64 = some (v₁, true) →
  v₁.shouldTrimBuffer height = some false)
include hno

private theorem trims_loadForScroll {nextPosition : Nat} {goesOn : Bool}
    (h : v.loadForScroll fs height nextPosition = some (v', goesOn)) : v'.trims = v.trims := by
  obtain ⟨b, hb, h⟩ := Option.bind_eq_some_iff.mp h
  simp only at h
  split at h
  · obtain ⟨⟨v₁, loaded⟩, hl, h⟩ := Option.bind_eq_some_iff.mp h
    obtain ⟨-, -, -, -, ht⟩ := exists_of_loadNextChunk hb hl
    cases loaded with
    | true =>
      simp only [if_true, trimAfterLoad, hno v₁ hl, Option.bind_eq_bind, Option.bind_some,
        Bool.false_eq_true, if_false, Option.map_some, Option.some.injEq, Prod.mk.injEq] at h
      rw [← h.1, ht]
    | false =>
      obtain ⟨rfl, -⟩ := Prod.mk.inj (Option.some.inj h)
      exact ht
  · obtain ⟨rfl, -⟩ := Prod.mk.inj (Option.some.inj h)
    rfl

private theorem trims_scrollDown {lineCount : Nat}
    (h : v.scrollDown fs height lineCount = some v') :
    v'.trims = v.trims := by
  rw [scrollDown_eq] at h
  obtain ⟨⟨v₁, goesOn⟩, hl, h⟩ := Option.bind_eq_some_iff.mp h
  obtain ⟨b₁, -, h⟩ := Option.bind_eq_some_iff.mp h
  rw [← trims_loadForScroll hno hl]
  split at h
  · exact congrArg trims (Option.some.inj h).symm
  · exact (trims_draw h :)

end NoTrim

/-! ## Distances to the cursor -/

section Positions

variable {caret start rows : Nat}

/-- From below the screen, the line of the cursor becomes its last one. -/
theorem linesDown_to_cursor (hd : 16 ∣ start) (hlt : caret < 2 ^ 63)
    (hbelow : start + (rows - 1) * 16 ≤ caret) (hrows : 3 ≤ rows) :
    ¬ isizeSub (asIsize caret) (isizeSub (asIsize (start + (rows - 1) * 16)) 1) < 0 ∧
      start + 16 * linesDown
        (isizeSub (asIsize caret) (isizeSub (asIsize (start + (rows - 1) * 16)) 1)) + rows * 16 =
          caret - caret % 16 + 32 := by
  have hdelta : isizeSub (asIsize caret) (isizeSub (asIsize (start + (rows - 1) * 16)) 1) =
      (caret : Int) - start - (rows - 1) * 16 + 1 := by
    have hlast : isizeSub (asIsize (start + (rows - 1) * 16)) 1 =
        ((start + (rows - 1) * 16 : Nat) : Int) - 1 := by
      rw [asIsize_of_lt (by omega), isizeSub_of_lt (by omega) (by omega)]
    rw [hlast, asIsize_of_lt hlt, isizeSub_of_lt (by omega) (by omega)]
    omega
  have := @linesDown_exact (caret - start - (rows - 1) * 16 + 1) (by omega) (by omega)
  rw [hdelta]
  omega

/-- From above the screen, it becomes the first one. -/
theorem linesUp_to_cursor (hd : 16 ∣ start) (hlt : caret < start)
    (hnear : start + 15 ≤ caret + 2 ^ 63) :
    isizeSub (asIsize caret) (asIsize start) < 0 ∧
      16 * linesUp (isizeSub (asIsize caret) (asIsize start)) + (caret - caret % 16) = start := by
  have hdelta : isizeSub (asIsize caret) (asIsize start) = (caret : Int) - start := by
    rw [isizeSub_asIsize, asIsize_asUsize (by omega) (by omega)]
  have := @linesUp_exact (caret - start) (by omega) (by omega)
  rw [hdelta]
  omega

/-- Half of the address space below the cursor, scrolling up stops short of it. -/
theorem linesUp_short (hfar : caret + 2 ^ 63 < start + 15)
    (hhalf : start ≤ caret + 2 ^ 63) :
    isizeSub (asIsize caret) (asIsize start) < 0 ∧
      16 * linesUp (isizeSub (asIsize caret) (asIsize start)) = 2 ^ 63 - 16 := by
  have hdelta : isizeSub (asIsize caret) (asIsize start) = (caret : Int) - start := by
    rw [isizeSub_asIsize, asIsize_asUsize (by omega) (by omega)]
  have := @linesUp_wraps (caret - start) (by omega) (by omega)
  rw [hdelta]
  omega

/-- Further below, scrolling goes down and around to the next line boundary at or after the
cursor. -/
theorem linesDown_around (hd : 16 ∣ start) (hfar : caret + 2 ^ 63 < start)
    (hstart : start < 2 ^ 64) :
    0 ≤ isizeSub (asIsize caret) (asIsize start) ∧
      (16 ∣ caret → usizeAdd start (usizeMul
        (linesDown (isizeSub (asIsize caret) (asIsize start))) 16) = caret) ∧
      (¬ 16 ∣ caret → caret < usizeAdd start (usizeMul
        (linesDown (isizeSub (asIsize caret) (asIsize start))) 16)) := by
  have hdelta : isizeSub (asIsize caret) (asIsize start) = (caret : Int) - start + 2 ^ 64 := by
    rw [isizeSub_asIsize, asIsize_asUsize_below (by omega) (by omega)]
  rw [hdelta]
  unfold usizeAdd usizeMul
  by_cases hwrap : (2 : Int) ^ 63 ≤ caret - start + 2 ^ 64 + 15
  · have := @linesDown_wraps (caret - start + 2 ^ 64) hwrap (by omega)
    omega
  · have := @linesDown_exact (caret - start + 2 ^ 64) (by omega) (by omega)
    omega

end Positions

/-! ## The main cursor -/

/-- The visible range ends with the screen or behind the data, where its end does not wrap around.
-/
theorem stop_visibleBytes (h16 : v.bytesPerLine = 16)
    (hlt : v.startOffset + (v.size.2 - 1) * 16 < 2 ^ 64) (dataLen : Nat) :
    (v.visibleBytes dataLen).stop =
      min (dataLen + 1) (v.startOffset + (v.size.2 - 1) * 16) := by
  rw [visibleBytes, h16, usizeAdd_of_lt hlt]

section Cursor

variable {main : SelRegion} (hb : v.current = some b) (hm : b.selection.main = some main)
  (hc : main.caret ≤ b.data.length) (h16 : v.bytesPerLine = 16) (hsize : v.size.2 < 2 ^ 16)
include hb hm hc h16 hsize

/-- The caret is on the screen, which starts on a line. -/
theorem showsCursor_iff (hlt : main.caret < 2 ^ 63) :
    v.ShowsCursor ↔ 16 ∣ v.startOffset ∧ v.startOffset ≤ main.caret ∧
      main.caret < v.startOffset + (v.size.2 - 1) * 16 := by
  constructor
  · rintro ⟨hd, b', main', hb', hm', hle, hlt'⟩
    obtain rfl : b = b' := Option.some.inj (hb.symm.trans hb')
    obtain rfl : main = main' := Option.some.inj (hm.symm.trans hm')
    change v.startOffset ≤ main.caret at hle
    rw [stop_visibleBytes h16 (by omega)] at hlt'
    exact ⟨hd, hle, by omega⟩
  · rintro ⟨hd, hle, hlt'⟩
    refine ⟨hd, b, main, hb, hm, hle, ?_⟩
    rw [stop_visibleBytes h16 (by omega)]
    omega

/-- The view keeps showing the main cursor when more is loaded. -/
theorem showsCursor_draw (hlt : main.caret < 2 ^ 63) (h : v.draw fs = some v') :
    v'.ShowsCursor ↔ v.ShowsCursor := by
  have hframe := (SameFrame.steps fs 0).draw h
  obtain ⟨chunk, hb'⟩ := ((Appends.steps fs 0).draw h).current (trims_draw h) b hb
  have hc' : main.caret ≤ (b.data ++ chunk).length := by
    rw [List.length_append]
    omega
  rw [showsCursor_iff hb' hm hc' (hframe.bytesPerLine.trans h16) (hframe.size ▸ hsize) hlt,
    showsCursor_iff hb hm hc h16 hsize hlt, hframe.size, startOffset_draw h]

omit hc hsize in
private theorem maybeUpdateOffset_eq (hne : b.data ≠ []) :
    v.maybeUpdateOffset fs height =
      if main.caret < v.startOffset then
        v.scrollBy fs height (isizeSub (asIsize main.caret) (asIsize v.startOffset))
      else if (v.visibleBytes b.data.length).stop ≤ main.caret then
        v.scrollBy fs height (isizeSub (asIsize main.caret)
          (isizeSub (asIsize (v.visibleBytes b.data.length).stop) 1))
      else some v := by
  have hword : asIsize v.bytesPerLine = 16 := by rw [h16]; decide
  rw [maybeUpdateOffset_def, hb]
  simp only [Option.bind_eq_bind, Option.bind_some, if_neg hne, hm, hword]
  rfl

variable (hd : 16 ∣ v.startOffset) (hlt : main.caret < 2 ^ 63) (hrows : 3 ≤ v.size.2)
include hd hlt hrows

/-- A cursor below the screen is brought to its last line. -/
theorem scrolled_down (hne : b.data ≠ [])
    (h : v.maybeUpdateOffset fs height = some v') (ht : v'.trims = v.trims)
    (hbelow : v.startOffset + (v.size.2 - 1) * 16 ≤ main.caret) :
    v'.startOffset + v.size.2 * 16 = main.caret - main.caret % 16 + 32 := by
  have hstop : (v.visibleBytes b.data.length).stop = v.startOffset + (v.size.2 - 1) * 16 := by
    rw [stop_visibleBytes h16 (by omega)]
    omega
  obtain ⟨hdown, hlines⟩ := linesDown_to_cursor hd hlt hbelow hrows
  rw [maybeUpdateOffset_eq hb hm h16 hne, if_neg (by omega), if_pos (by omega), hstop, scrollBy,
    if_neg hdown] at h
  generalize linesDown _ = n at h hlines
  have hnext : v.nextPosition n = v.startOffset + 16 * n := by
    rw [nextPosition, usizeMul_of_lt (by omega), usizeAdd_of_lt (by omega)]
    omega
  obtain ⟨b', chunk, -, -, -, hs⟩ := exists_of_scrollDown hb h ht
  rw [List.length_append, if_pos (by omega)] at hs
  omega

omit hc hsize hlt hrows in
/-- A cursor above the screen is brought to its first line. -/
theorem scrolled_up (hne : b.data ≠ [])
    (h : v.maybeUpdateOffset fs height = some v') (habove : main.caret < v.startOffset)
    (hnear : v.startOffset + 15 ≤ main.caret + 2 ^ 63) (hstart : v.startOffset < 2 ^ 64) :
    v'.startOffset = main.caret - main.caret % 16 := by
  obtain ⟨hneg, hlines⟩ := linesUp_to_cursor hd habove hnear
  rw [maybeUpdateOffset_eq hb hm h16 hne, if_pos habove, scrollBy, if_pos hneg] at h
  generalize linesUp _ = n at h hlines
  have hs := startOffset_scrollUp h
  rw [usizeMul_of_lt (by omega), if_neg (by omega)] at hs
  omega

/-- A cursor too far above the screen is not brought into view, unless scrolling down goes
around to its line. -/
theorem scrolled_far (hne : b.data ≠ [])
    (h : v.maybeUpdateOffset fs height = some v') (ht : v'.trims = v.trims)
    (hfar : main.caret + 2 ^ 63 < v.startOffset + 15) (hstart : v.startOffset < 2 ^ 64) :
    16 ∣ v'.startOffset ∧ main.caret ≤ v'.startOffset ∧
      (v'.startOffset = main.caret ↔ v.CursorInReach fs b.data.length main.caret) := by
  have hpos := List.length_pos_iff.mpr hne
  rw [maybeUpdateOffset_eq hb hm h16 hne, if_pos (by omega), scrollBy] at h
  by_cases hhalf : v.startOffset ≤ main.caret + 2 ^ 63
  · obtain ⟨hneg, hlines⟩ := linesUp_short hfar hhalf
    rw [if_pos hneg] at h
    generalize linesUp _ = n at h hlines
    have hs := startOffset_scrollUp h
    rw [usizeMul_of_lt (by omega), if_neg (by omega)] at hs
    unfold CursorInReach
    omega
  · obtain ⟨hnonneg, hon, hoff⟩ := linesDown_around hd (Nat.not_le.mp hhalf) hstart
    rw [if_neg (Int.not_lt.mpr hnonneg)] at h
    generalize linesDown _ = n at h hon hoff
    change 16 ∣ main.caret → v.nextPosition n = main.caret at hon
    change ¬ 16 ∣ main.caret → main.caret < v.nextPosition n at hoff
    have hdvd : 16 ∣ v.nextPosition n := by
      unfold nextPosition usizeAdd usizeMul
      omega
    obtain ⟨b', chunk, -, -, hmore, hs⟩ := exists_of_scrollDown hb h ht
    unfold CursorInReach
    by_cases hline : 16 ∣ main.caret
    · rw [hon hline, h16, usizeAdd_of_lt (by omega), ← List.length_pos_iff] at hmore
      rw [hon hline, List.length_append] at hs
      have hgo : main.caret < b.data.length + chunk.length ↔
          main.caret < b.data.length ∨ v.LoadsMore fs := by
        by_cases hload : v.LoadsMore fs
        · simp only [hload, and_true, or_true, iff_true] at hmore ⊢
          omega
        · simp only [hload, and_false, or_false, iff_false] at hmore ⊢
          omega
      rw [← hgo]
      split at hs <;> omega
    · have := hoff hline
      split at hs <;> omega

/-- Scrolling by lines brings the main cursor into view exactly when it is in reach. -/
theorem showsCursor_maybeUpdateOffset_iff (hstart : v.startOffset < 2 ^ 64)
    (h : v.maybeUpdateOffset fs height = some v') (ht : v'.trims = v.trims) :
    16 ∣ v'.startOffset ∧ (v'.ShowsCursor ↔ v.CursorInReach fs b.data.length main.caret) := by
  have hframe := (SameFrame.steps fs height).maybeUpdateOffset h
  obtain ⟨chunk, hb'⟩ := ((Appends.steps fs height).maybeUpdateOffset h).current ht b hb
  have hc' : main.caret ≤ (b.data ++ chunk).length := by
    rw [List.length_append]
    omega
  have hshows := showsCursor_iff hb' hm hc' (hframe.bytesPerLine.trans h16)
    (hframe.size ▸ hsize) hlt
  rw [hframe.size] at hshows
  rw [hshows]
  by_cases hne : b.data = []
  · have hzero : v'.startOffset = 0 := by
      rw [maybeUpdateOffset_def, hb, Option.bind_eq_bind, Option.bind_some, if_pos hne] at h
      rw [← Option.some.inj h]
    have hlen : b.data.length = 0 := by rw [hne]; rfl
    simp only [CursorInReach, hlen, true_or, iff_true]
    omega
  · have hpos := List.length_pos_iff.mpr hne
    by_cases hfar : main.caret + 2 ^ 63 < v.startOffset + 15
    · obtain ⟨hd', hle, hiff⟩ :=
        scrolled_far hb hm hc h16 hsize hd hlt hrows hne h ht hfar hstart
      rw [← hiff]
      omega
    · have hreach : v.CursorInReach fs b.data.length main.caret := .inr (.inl (by omega))
      simp only [hreach, iff_true]
      rcases Nat.lt_or_ge main.caret v.startOffset with habove | hle
      · have := scrolled_up hb hm h16 hd hne h habove (by omega) hstart
        omega
      · rcases Nat.lt_or_ge main.caret (v.startOffset + (v.size.2 - 1) * 16) with hin | hbelow
        · have hstop : main.caret < (v.visibleBytes b.data.length).stop := by
            rw [stop_visibleBytes h16 (by omega)]
            omega
          rw [maybeUpdateOffset_eq hb hm h16 hne, if_neg (by omega), if_neg (by omega)] at h
          rw [← Option.some.inj h]
          omega
        · have := scrolled_down hb hm hc h16 hsize hd hlt hrows hne h ht hbelow
          omega

omit hc in
/-- `maybe_update_offset_and_draw` draws from an offset at which the main cursor is visible. -/
theorem maybeUpdateOffsetAndDraw_eq (fs : FileSystem) :
    ∃ o, v.maybeUpdateOffsetAndDraw fs = draw fs { v with startOffset := o } ∧
      16 ∣ o ∧ o ≤ main.caret ∧ main.caret < o + (v.size.2 - 1) * 16 := by
  refine ⟨if main.caret < v.startOffset then main.caret - main.caret % v.bytesPerLine
    else if main.caret ≥ (v.visibleBytes b.data.length).stop then
      (usizeAdd (main.caret - main.caret % v.bytesPerLine) v.bytesPerLine) -
        (v.size.2 - 1) * v.bytesPerLine
    else v.startOffset, ?_, ?_⟩
  · rw [maybeUpdateOffsetAndDraw_def, hb, Option.bind_eq_bind, Option.bind_some, hm]
    rfl
  · rw [h16]
    split
    · omega
    · rw [stop_visibleBytes h16 (by omega), usizeAdd_of_lt (by omega)]
      split <;> omega

end Cursor

section Update

variable {main : SelRegion} (hb : v.current = some b) (hm : b.selection.main = some main)
include hb hm

/-- The offset is reset, kept, or moved by scrolling. -/
theorem maybeUpdateOffset_cases (fs : FileSystem) (height : Nat) :
    (∃ o, v.maybeUpdateOffset fs height = some { v with startOffset := o }) ∨
      (∃ n, v.maybeUpdateOffset fs height = v.scrollUp fs n) ∨
      ∃ n, v.maybeUpdateOffset fs height = v.scrollDown fs height n := by
  rw [maybeUpdateOffset_def, hb]
  simp only [Option.bind_eq_bind, Option.bind_some, hm]
  split
  · exact .inl ⟨0, rfl⟩
  · split
    · split
      · exact .inr (.inl ⟨_, rfl⟩)
      · exact .inr (.inr ⟨_, rfl⟩)
    · split
      · split
        · exact .inr (.inl ⟨_, rfl⟩)
        · exact .inr (.inr ⟨_, rfl⟩)
      · exact .inl ⟨v.startOffset, rfl⟩

private theorem Readable.exists_maybeUpdateOffset (h : v.Readable fs) (height : Nat) :
    ∃ v', v.maybeUpdateOffset fs height = some v' := by
  rcases maybeUpdateOffset_cases hb hm fs height with ⟨o, ho⟩ | ⟨n, hn⟩ | ⟨n, hn⟩
  · exact ⟨_, ho⟩
  · exact hn ▸ h.exists_scrollUp n
  · exact hn ▸ h.exists_scrollDown n

private theorem trims_maybeUpdateOffset (hno : ∀ v₁, v.loadNextChunk fs 64 = some (v₁, true) →
    v₁.shouldTrimBuffer height = some false) (h : v.maybeUpdateOffset fs height = some v') :
    v'.trims = v.trims := by
  rcases maybeUpdateOffset_cases hb hm fs height with ⟨o, ho⟩ | ⟨n, hn⟩ | ⟨n, hn⟩
  · rw [← Option.some.inj (ho.symm.trans h)]
    rfl
  · exact trims_scrollUp (hn ▸ h)
  · exact trims_scrollDown hno (hn ▸ h)

end Update

/-- On lines of sixteen bytes and a screen of three rows or more, moving the offset to the
cursor's line always brings the main cursor into view; scrolling there, with a file that can be
read and nothing dropped, does so exactly when the cursor is in reach. -/
theorem cursor_shown_iff {v : HexView X} {b : CurrentBuffer X} {main : SelRegion}
    (fs : FileSystem) (height : Nat) (hb : v.current = some b)
    (hm : b.selection.main = some main) (hc : main.caret ≤ b.data.length)
    (hlen : b.data.length < 2 ^ 63) (h16 : v.bytesPerLine = 16) (hd : 16 ∣ v.startOffset)
    (hstart : v.startOffset < 2 ^ 64) (hrows : 3 ≤ v.size.2) (hsize : v.size.2 < 2 ^ 16)
    (hread : ∀ path, b.path = some path → (fs.read path).isSome)
    (hno : ∀ v₁, v.loadNextChunk fs 64 = some (v₁, true) →
      v₁.shouldTrimBuffer height = some false) :
    ∃ v₁ v₂, v.maybeUpdateOffsetAndDraw fs = some v₁ ∧
      v.maybeUpdateOffset fs height = some v₂ ∧
      ShowsCursor { v with startOffset := v₁.startOffset } ∧ v₁.ShowsCursor ∧
      16 ∣ v₂.startOffset ∧
      (v₂.ShowsCursor ↔ v.CursorInReach fs b.data.length main.caret) := by
  have hr : v.Readable fs := ⟨b, hb, hread⟩
  have hlt : main.caret < 2 ^ 63 := by omega
  obtain ⟨o, hmove, ho⟩ := maybeUpdateOffsetAndDraw_eq hb hm h16 hsize hd hlt hrows fs
  obtain ⟨v₁, h₁⟩ := Readable.exists_draw (show Readable fs { v with startOffset := o } from hr)
  obtain ⟨v₂, h₂⟩ := hr.exists_maybeUpdateOffset hb hm height
  have hshows : ShowsCursor { v with startOffset := o } :=
    (showsCursor_iff (v := { v with startOffset := o }) hb hm hc h16 hsize hlt).mpr ho
  refine ⟨v₁, v₂, hmove.trans h₁, h₂, ?_, ?_,
    showsCursor_maybeUpdateOffset_iff hb hm hc h16 hsize hd hlt hrows hstart h₂
      (trims_maybeUpdateOffset hb hm hno h₂)⟩
  · rw [startOffset_draw h₁]
    exact hshows
  · exact (showsCursor_draw (v := { v with startOffset := o }) hb hm hc h16 hsize hlt h₁).mpr
      hshows

-- A view of one byte from offset `2 ^ 63` on.
private def farBelow : HexView (XiRope.reference UInt8) :=
  { withBuffrCollection (.withCurrentBuffer (.withRegions [0] [⟨0, 0, true⟩])) (80, 6)
    with startOffset := 2 ^ 63 }

-- The cursor is on the first byte, and scrolling up stops at offset 16.
example : (farBelow.maybeUpdateOffset (.single ['f'] []) 6).map startOffset = some 16 := by
  decide +kernel

/-- Both ways of updating the offset bring the main cursor into view, and keep the view on a line
of sixteen bytes, from every offset that a buffer can have. -/
theorem cursor_shown {v : HexView X} {b : CurrentBuffer X} {main : SelRegion}
    (fs : FileSystem) (height : Nat) (hb : v.current = some b)
    (hm : b.selection.main = some main) (hc : main.caret ≤ b.data.length)
    (hlen : b.data.length < 2 ^ 63) (h16 : v.bytesPerLine = 16) (hd : 16 ∣ v.startOffset)
    (hstart : v.startOffset < 2 ^ 63) (hrows : 3 ≤ v.size.2) (hsize : v.size.2 < 2 ^ 16)
    (hread : ∀ path, b.path = some path → (fs.read path).isSome)
    (hno : ∀ v₁, v.loadNextChunk fs 64 = some (v₁, true) →
      v₁.shouldTrimBuffer height = some false) :
    ∃ v₁ v₂, v.maybeUpdateOffsetAndDraw fs = some v₁ ∧
      v.maybeUpdateOffset fs height = some v₂ ∧
      ShowsCursor { v with startOffset := v₁.startOffset } ∧ v₁.ShowsCursor ∧
      v₂.ShowsCursor := by
  obtain ⟨v₁, v₂, h₁, h₂, hmoved, hshown, -, hiff⟩ := cursor_shown_iff fs height hb hm hc hlen h16
    hd (by omega) hrows hsize hread hno
  -- a multiple of sixteen below `2 ^ 63` leaves room for the rounding
  have hreach : v.CursorInReach fs b.data.length main.caret := .inr (.inl (by omega))
  exact ⟨v₁, v₂, h₁, h₂, hmoved, hshown, hiff.mpr hreach⟩

-- A hundred and twelve bytes on a screen of five rows and the status line, with the cursor on the
-- seventh row.
private def seventhRow : HexView (XiRope.reference UInt8) :=
  withBuffrCollection (.withCurrentBuffer
    (.withRegions ((List.range 112).map Nat.toUInt8) [⟨104, 104, true⟩])) (80, 6)

/-- The view is moved down to it. -/
theorem cursor_shown_seventh_row :
    ∃ v₁ v₂, seventhRow.maybeUpdateOffsetAndDraw (.single ['f'] []) = some v₁ ∧
      seventhRow.maybeUpdateOffset (.single ['f'] []) 6 = some v₂ ∧ v₁.ShowsCursor ∧
      v₂.ShowsCursor := by
  obtain ⟨v₁, v₂, h₁, h₂, -, hs₁, hs₂⟩ := cursor_shown (v := seventhRow)
    (.single ['f'] []) 6 rfl rfl (by decide +kernel) (by decide +kernel) rfl (by decide) (by decide)
    (by decide) (by decide) (fun _ h ↦ by cases h) (fun _ h ↦ by cases h)
  exact ⟨v₁, v₂, h₁, h₂, hs₁, hs₂⟩

end HexView

end Tofu

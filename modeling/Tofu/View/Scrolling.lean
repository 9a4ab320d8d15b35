import Tofu.Rope.Reference
import Tofu.View.Kept

/-!
# Scrolling down

`HexView::scroll_down` (`src/src/hex_view/view.rs:1451–1601`) computes the new offset
before it loads and trims, and stores it afterwards. When the call trims, the data starts
further down in the file, but neither that offset nor the selection is moved along.
-/

namespace Tofu

open Rope

variable {X : XiRope UInt8}

namespace HexView

/-- How often bytes were dropped from the top of the data. -/
def trims (v : HexView X) : Nat := v.calls.countP WindowCall.trimmed

/-- The offset in the file of the first byte of the data, if the file was opened on a screen of
this height. -/
def topOffset (height : Nat) (v : HexView X) : Nat := chunkSize height * v.trims

/-- The position that `scroll_down` computes. -/
def nextPosition (v : HexView X) (lineCount : Nat) : Nat :=
  usizeAdd v.startOffset (usizeMul lineCount 16)

/-- How much of a file `scroll_down` loads into data of this length before it scrolls. -/
def scrollLoads (v : HexView X) (lineCount dataLen fileLen : Nat) : Nat :=
  if usizeAdd (v.nextPosition lineCount) (v.size.2 * v.bytesPerLine) > dataLen then
    min 64 (fileLen - dataLen)
  else 0

/-- `scroll_down` drops a chunk from the top: it loads something, and then more than three
chunks are held. -/
def ScrollTrims (height : Nat) (v : HexView X) (lineCount dataLen fileLen : Nat) : Prop :=
  0 < v.scrollLoads lineCount dataLen fileLen ∧
    chunkSize height * 3 < dataLen + v.scrollLoads lineCount dataLen fileLen

instance (height : Nat) (v : HexView X) (lineCount dataLen fileLen : Nat) :
    Decidable (v.ScrollTrims height lineCount dataLen fileLen) :=
  inferInstanceAs (Decidable (_ ∧ _))

/-- The screen has rows for data. -/
theorem chunkSize_pos {height : Nat} (hh : 2 ≤ height) : 0 < chunkSize height := by
  unfold chunkSize
  omega

/-! ## Loading and drawing -/

/-- More of the file is in the buffer, and the view is the same. -/
structure Grows (v v' : HexView X) (b b' : CurrentBuffer X) : Prop where
  current : v'.current = some b'
  buffer : ∃ chunk, b' = { b with data := b.data ++ chunk }
  startOffset : v'.startOffset = v.startOffset
  trims : v'.trims = v.trims

variable {v : HexView X} {b : CurrentBuffer X} {fs : FileSystem} {path : Path} {F : List UInt8}
  {height : Nat}

/-- The buffer put in the place of the shown one is shown. -/
theorem current_setCurrent (hb : v.current = some b) (b' : CurrentBuffer X) :
    (v.setCurrent b').current = some b' :=
  List.getElem?_set_self (List.getElem?_eq_some_iff.mp hb).1

/-- Whether all rows or some are drawn, the same is loaded. -/
theorem scrollUp_eq (lineCount : Nat) :
    v.scrollUp fs lineCount =
      if v.startOffset < usizeMul 16 lineCount then some v
      else draw fs { v with startOffset := v.startOffset - usizeMul 16 lineCount } := by
  simp only [scrollUp_def, drawRows_eq_draw, ite_self]

/-- Scrolling down loads, and draws from the next position on if there is data. -/
theorem scrollDown_eq (height lineCount : Nat) :
    v.scrollDown fs height lineCount =
      (v.loadForScroll fs height (v.nextPosition lineCount)).bind fun p ↦
        p.1.current.bind fun b ↦
          if !p.2 ∨ v.nextPosition lineCount ≥ b.data.length then some p.1
          else draw fs { p.1 with startOffset := v.nextPosition lineCount } := by
  simp only [scrollDown_def, drawRows_eq_draw, ite_self]
  rfl

private theorem Grows.refl (hb : v.current = some b) : Grows v v b b :=
  ⟨hb, ⟨[], by rw [List.append_nil]⟩, rfl, rfl⟩

section

variable (hb : v.current = some b) (hp : b.path = some path) (hF : fs.read path = some F)
include hb hp hF

/-- The view after a load. -/
theorem loadNextChunk_eq (n : Nat) :
    v.loadNextChunk fs n = some
      ({ v.setCurrent { b with data := b.data ++ (F.drop b.data.length).take n } with
          calls :=
            { trimmed := false
              dataStartOffset := b.dataStartOffset
              data := b.data ++ (F.drop b.data.length).take n } :: v.calls },
        decide (0 < min n (F.length - b.data.length))) := by
  rw [loadNextChunk, hb, Option.bind_eq_bind, Option.bind_some, b.loadNextChunk_eq hp hF,
    List.length_take, List.length_drop]
  rfl

/-- A view with a buffer is drawn. -/
theorem exists_draw : ∃ v' b', v.draw fs = some v' ∧ Grows v v' b b' := by
  rw [draw_eq, ensureVisibleData, hb, Option.bind_eq_bind, Option.bind_some]
  split
  · rw [loadNextChunk_eq hb hp hF]
    exact ⟨_, _, rfl, current_setCurrent hb _, ⟨_, rfl⟩, rfl, by simp [trims]⟩
  · exact ⟨v, b, rfl, .refl hb⟩

end

/-! ## Scrolling -/

/-- Trimming after a load drops a chunk from more than three. -/
theorem exists_trimAfterLoad (hb : v.current = some b) (height : Nat) :
    ∃ v' dropped, v.trimAfterLoad height = some v' ∧
      dropped = (if 0 < chunkSize height ∧ chunkSize height * 3 < b.data.length then
        chunkSize height else 0) ∧
      v'.current = some { b with data := b.data.drop dropped } ∧
      v'.topOffset height = v.topOffset height + dropped ∧
      v'.startOffset = v.startOffset - dropped := by
  rw [trimAfterLoad_eq hb]
  refine ⟨_, _, rfl, rfl, ?_⟩
  split
  · exact ⟨current_setCurrent hb _, by simp [topOffset, trims, Nat.mul_add], rfl⟩
  · exact ⟨hb, rfl, rfl⟩

section

variable (hb : v.current = some b) (hp : b.path = some path) (hF : fs.read path = some F)
include hb hp hF

/-- The load before scrolling: what it appends to the data, and what it drops from the top. -/
theorem exists_loadForScroll (hh : 2 ≤ height) (lineCount : Nat) :
    ∃ v₁ chunk dropped goesOn,
      v.loadForScroll fs height (v.nextPosition lineCount) = some (v₁, goesOn) ∧
      v₁.current = some { b with data := (b.data ++ chunk).drop dropped } ∧
      chunk.length = v.scrollLoads lineCount b.data.length F.length ∧
      dropped = (if v.ScrollTrims height lineCount b.data.length F.length then chunkSize height
        else 0) ∧
      v₁.topOffset height = v.topOffset height + dropped ∧
      v₁.startOffset = v.startOffset - dropped ∧
      (goesOn = false → ((b.data ++ chunk).drop dropped).length ≤ v.nextPosition lineCount) := by
  rw [loadForScroll, hb, Option.bind_eq_bind, Option.bind_some]
  by_cases hload : usizeAdd (v.nextPosition lineCount) (v.size.2 * v.bytesPerLine) > b.data.length
  · have hloads : v.scrollLoads lineCount b.data.length F.length =
        min 64 (F.length - b.data.length) := if_pos hload
    have hlen : ((F.drop b.data.length).take 64).length =
        v.scrollLoads lineCount b.data.length F.length := by
      rw [hloads, List.length_take, List.length_drop]
    rw [if_pos hload, loadNextChunk_eq hb hp hF, Option.bind_eq_bind, Option.bind_some]
    by_cases hsome : 0 < min 64 (F.length - b.data.length)
    · obtain ⟨v₁, dropped, ht, hdropped, hcur, htop, hstart⟩ :=
        exists_trimAfterLoad (v := { v.setCurrent
            { b with data := b.data ++ (F.drop b.data.length).take 64 } with
          calls :=
            { trimmed := false
              dataStartOffset := b.dataStartOffset
              data := b.data ++ (F.drop b.data.length).take 64 } :: v.calls })
          (current_setCurrent hb _) height
      refine ⟨v₁, _, dropped, true, ?_, hcur, hlen, ?_, ?_, hstart, by simp⟩
      · simp only [decide_eq_true hsome, if_true, ht, Option.map_some]
      · simp only [hdropped, ScrollTrims, List.length_append, hlen, hloads, hsome, chunkSize_pos hh,
          true_and]
      · rw [htop]
        simp [topOffset, trims]
    · have hnone : (F.drop b.data.length).take 64 = [] :=
        List.eq_nil_of_length_eq_zero (by rw [hlen, hloads]; omega)
      have htrims : ¬ v.ScrollTrims height lineCount b.data.length F.length := fun h ↦ by
        rw [ScrollTrims, hloads] at h
        exact hsome h.1
      simp only [if_neg htrims, decide_eq_false hsome, Bool.false_eq_true, if_false]
      refine ⟨_, [], 0, _, rfl, ?_, ?_, rfl, ?_, rfl, by simp⟩
      · rw [hnone, List.append_nil, List.drop_zero]
        exact current_setCurrent hb _
      · rw [← hlen, hnone]
      · simp [topOffset, trims]
  · have hloads : v.scrollLoads lineCount b.data.length F.length = 0 := if_neg hload
    have htrims : ¬ v.ScrollTrims height lineCount b.data.length F.length := fun h ↦ by
      rw [ScrollTrims, hloads] at h
      exact Nat.lt_irrefl 0 h.1
    rw [if_neg hload, if_neg htrims]
    exact ⟨v, [], 0, true, rfl, by simpa using hb, hloads.symm, rfl, rfl, rfl, by simp⟩

/-- What `scroll_down` does to the view and the buffer. -/
theorem exists_scrollDown (hh : 2 ≤ height) (lineCount : Nat) :
    ∃ v' chunk dropped, v.scrollDown fs height lineCount = some v' ∧
      v'.current = some { b with data := (b.data ++ chunk).drop dropped } ∧
      v.scrollLoads lineCount b.data.length F.length ≤ chunk.length ∧
      dropped = (if v.ScrollTrims height lineCount b.data.length F.length then chunkSize height
        else 0) ∧
      v'.topOffset height = v.topOffset height + dropped ∧
      v'.startOffset =
        if v.nextPosition lineCount <
            b.data.length + v.scrollLoads lineCount b.data.length F.length - dropped then
          v.nextPosition lineCount
        else v.startOffset - dropped := by
  obtain ⟨v₁, chunk, dropped, goesOn, hl, hcur, hchunk, hdropped, htop, hstart, hstop⟩ :=
    exists_loadForScroll hb hp hF hh lineCount
  have hlen : ((b.data ++ chunk).drop dropped).length =
      b.data.length + v.scrollLoads lineCount b.data.length F.length - dropped := by
    rw [List.length_drop, List.length_append, hchunk]
  rw [hlen] at hstop
  have hle : dropped ≤ (b.data ++ chunk).length := by
    rw [hdropped, List.length_append, hchunk]
    split
    · next h =>
      have := h.2
      omega
    · exact Nat.zero_le _
  have hscroll : v.scrollDown fs height lineCount =
      if !goesOn ∨ v.nextPosition lineCount ≥
          b.data.length + v.scrollLoads lineCount b.data.length F.length - dropped then some v₁
      else draw fs { v₁ with startOffset := v.nextPosition lineCount } := by
    simp only [scrollDown_eq, hl, Option.bind_some, hcur, hlen]
  rw [hscroll]
  by_cases hnp : v.nextPosition lineCount <
      b.data.length + v.scrollLoads lineCount b.data.length F.length - dropped
  · have hgo : goesOn = true := by
      cases goesOn with
      | true => rfl
      | false => exact absurd (hstop rfl) (Nat.not_le.mpr hnp)
    have hcur₂ : current { v₁ with startOffset := v.nextPosition lineCount } =
        some { b with data := (b.data ++ chunk).drop dropped } := hcur
    obtain ⟨v', b', hdraw, hg⟩ := exists_draw hcur₂ hp hF
    obtain ⟨more, rfl⟩ := hg.buffer
    have hgoes : ¬ (!goesOn ∨ v.nextPosition lineCount ≥
        b.data.length + v.scrollLoads lineCount b.data.length F.length - dropped) := by
      rw [hgo]
      rintro (h | h)
      · cases h
      · exact Nat.not_le.mpr hnp h
    rw [if_neg hgoes]
    refine ⟨v', chunk ++ more, dropped, hdraw, ?_, ?_, hdropped, ?_,
      hg.startOffset.trans (if_pos hnp).symm⟩
    · rw [hg.current, ← List.append_assoc, List.drop_append_of_le_length hle]
    · rw [List.length_append, hchunk]
      exact Nat.le_add_right _ _
    · rw [← htop, topOffset, hg.trims]
      rfl
  · rw [if_pos (.inr (Nat.not_lt.mp hnp))]
    exact ⟨v₁, chunk, dropped, rfl, hcur, hchunk.ge, hdropped, htop,
      hstart.trans (if_neg hnp).symm⟩

end

/-- The first visible byte stays, or the one `lineCount` lines further down in the file is the
first visible one; all carets and tails designate the same bytes of the file. The data starts
at offset `o` of the file before, and at `o'` now. -/
structure KeepsPlace (lineCount o o' : Nat) (v v' : HexView X) (b b' : CurrentBuffer X) :
    Prop where
  view : o' + v'.startOffset = o + v.startOffset ∨
    o' + v'.startOffset = o + v.startOffset + 16 * lineCount
  selection : b'.selection.regions.map (fun r ↦ (o' + r.caret, o' + r.tail)) =
    b.selection.regions.map fun r ↦ (o + r.caret, o + r.tail)

instance (lineCount o o' : Nat) (v v' : HexView X) (b b' : CurrentBuffer X) :
    Decidable (KeepsPlace lineCount o o' v v' b b') :=
  decidable_of_iff
    ((o' + v'.startOffset = o + v.startOffset ∨
        o' + v'.startOffset = o + v.startOffset + 16 * lineCount) ∧
      b'.selection.regions.map (fun r ↦ (o' + r.caret, o' + r.tail)) =
        b.selection.regions.map fun r ↦ (o + r.caret, o + r.tail))
    ⟨fun h ↦ ⟨h.1, h.2⟩, fun h ↦ ⟨h.view, h.selection⟩⟩

/-- On a buffer that holds a part of the file from offset `o` on, `scroll_down` scrolls to the
right place exactly when it does not trim and the new position does not wrap around to another
one in the data. The screen has five rows or more, so that its drawings come to an end. -/
theorem scrollDown_keeps_place_iff {v : HexView X} {b : CurrentBuffer X} {fs : FileSystem}
    {path : Path} {F : List UInt8} {o height : Nat} (hrows : 5 ≤ min v.size.2 height)
    (lineCount : Nat) (hb : v.current = some b) (hp : b.path = some path)
    (hF : fs.read path = some F)
    (hwindow : b.data = (F.drop o).take b.data.length) (hne : b.selection.regions ≠ []) :
    ∃ v' b' o', v.scrollDown fs height lineCount = some v' ∧ v'.current = some b' ∧
      o' = o + (v'.topOffset height - v.topOffset height) ∧
      b'.data.take (o + b.data.length - o') = (F.drop o').take (o + b.data.length - o') ∧
      (KeepsPlace lineCount o o' v v' b b' ↔
        ¬ v.ScrollTrims height lineCount b.data.length F.length ∧
        (v.startOffset + 16 * lineCount < 2 ^ 64 ∨ v.nextPosition lineCount = v.startOffset ∨
          b.data.length + v.scrollLoads lineCount b.data.length F.length ≤
            v.nextPosition lineCount)) := by
  have hh : 2 ≤ height := by omega
  obtain ⟨v', chunk, dropped, hs, hb', -, hdropped, htop, hstart⟩ :=
    exists_scrollDown hb hp hF hh lineCount
  refine ⟨v', _, o + dropped, hs, hb', by omega, ?_, ?_⟩
  · have hlen : (b.data.drop dropped).length = b.data.length - dropped := List.length_drop
    rw [show o + b.data.length - (o + dropped) = b.data.length - dropped by omega,
      List.drop_append, List.take_left' hlen, ← List.drop_drop, ← List.drop_take, ← hwindow]
  · constructor
    · intro hk
      have hzero : dropped = 0 := by
        obtain ⟨r, rest, hr⟩ := List.exists_cons_of_ne_nil hne
        have hsame := hk.selection
        rw [hr] at hsame
        have hcaret := congrArg Prod.fst (List.cons.inj hsame).1
        simp only at hcaret
        omega
      have htrims : ¬ v.ScrollTrims height lineCount b.data.length F.length := by
        intro ht
        rw [if_pos ht] at hdropped
        have := chunkSize_pos hh
        omega
      refine ⟨htrims, ?_⟩
      by_contra hc
      simp only [not_or, Nat.not_lt, Nat.not_le] at hc
      rw [hzero, Nat.sub_zero, if_pos hc.2.2] at hstart
      have hlt : v.nextPosition lineCount < 2 ^ 64 := Nat.mod_lt _ (Nat.two_pow_pos _)
      have := hk.view
      omega
    · rintro ⟨htrims, hpos⟩
      obtain rfl : dropped = 0 := by rw [hdropped, if_neg htrims]
      refine ⟨?_, rfl⟩
      rw [Nat.sub_zero] at hstart
      split at hstart
      · next hlt =>
        rcases hpos with h | h | h
        · have hnext : v.nextPosition lineCount = v.startOffset + 16 * lineCount := by
            rw [nextPosition, usizeMul_of_lt (by omega), usizeAdd_of_lt (by omega)]
            omega
          omega
        · omega
        · omega
      · omega

-- A file of two hundred bytes, of which a screen of five rows is loaded.
private def fiveRows : HexView (XiRope.reference UInt8) :=
  withBuffrCollection (.withCurrentBuffer
    (.fromDataAndPath ((List.range 80).map Nat.toUInt8) (some ['f']))) (80, 6)

/-- Its next row is shown. -/
theorem scrollDown_keeps_place_short :
    ∃ v' b b' o', fiveRows.current = some b ∧
      fiveRows.scrollDown (.single ['f'] ((List.range 200).map Nat.toUInt8)) 6 1 = some v' ∧
      v'.current = some b' ∧ KeepsPlace 1 0 o' fiveRows v' b b' := by
  have hF : (FileSystem.single ['f'] ((List.range 200).map Nat.toUInt8)).read ['f'] =
      some ((List.range 200).map Nat.toUInt8) := rfl
  have hrows : 5 ≤ min fiveRows.size.2 6 := by decide
  obtain ⟨v', b', o', hs, hb', -, -, hiff⟩ := scrollDown_keeps_place_iff (v := fiveRows) (o := 0)
    hrows 1 rfl rfl hF (by decide +kernel) (by decide)
  exact ⟨v', _, b', o', rfl, hs, hb', hiff.mpr (by decide +kernel)⟩

/-- On six rows, with the cursor moved down eleven times in a file of four hundred bytes: the data
is its first 208 bytes, and the row at 112 the first one shown. Scrolling by one line loads more
and drops the first eighty bytes, and the row at 80 + 128 of the file is shown, not the one at
128; the caret was on byte 176 of the file and is on byte 80 + 176. -/
theorem scrollDown_trim_loses_place :
    let F : List UInt8 := (List.range 400).map Nat.toUInt8
    let fs := FileSystem.single ['f'] F
    ∃ e₀ ∈ Editor.opened (X := XiRope.reference UInt8) fs ['f'] (80, 6),
      ∃ e ∈ runSteps (Editor.step .reference 6)
        (List.replicate 11 (.key (.plain (.char 'j')))) e₀,
      ∃ b ∈ e.view.current, e.view.startOffset = 112 ∧ b.data = F.take 208 ∧
      b.selection.regions.map SelRegion.caret = [176] ∧
      ∃ v' ∈ e.view.scrollDown fs 6 1, ∃ b' ∈ v'.current, v'.startOffset = 128 ∧
        b'.data.take 192 = (F.drop 80).take 192 ∧ b'.selection = b.selection ∧
        ¬ KeepsPlace 1 0 80 e.view v' b b' := by
  decide +kernel

end HexView

end Tofu

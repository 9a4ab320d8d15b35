import Tofu.Buffer.Invalidated
import Tofu.View.Output

/-!
# Changes in place

After a change in place the view is scrolled to the main cursor by moving rows on the
terminal, and only rows of bytes that are reported, those that come in sight and the first
five are drawn (`src/src/hex_view/view.rs:1451–1698`). A row that is not drawn shows what it
showed before, perhaps on another row. When all that looks different is reported, this
leaves the picture that drawing everything would leave.
-/

namespace Tofu

open Rope

variable {X : XiRope UInt8}

/-! ## Rows without a line about the current bytes -/

/-- A row below the first five: the data from an offset on, or blank behind its end. -/
def CurrentBuffer.rowLine (b : CurrentBuffer X) (halfCursor : Bool) (i : Nat) : Nat → Cell Color :=
  lineOf .reset
    (if i ≤ b.data.length then
      Brush.cells ⟨.reset, .reset⟩ (b.row halfCursor i)
    else [])

/-- A row depends on the bytes in it, the regions they are in and where the data ends. -/
theorem CurrentBuffer.rowLine_congr {b b' : CurrentBuffer X} {i : Nat} (halfCursor : Bool)
    (hlen : b.data.length = b'.data.length ∨
      i + 16 ≤ b.data.length ∧ i + 16 ≤ b'.data.length)
    (h : ∀ x, i ≤ x → x < i + 16 → x ≤ b.data.length → b.data[x]? = b'.data[x]? ∧
      regionAt b.selection.regions x = regionAt b'.selection.regions x) :
    b.rowLine halfCursor i = b'.rowLine halfCursor i := by
  have hiff : i ≤ b.data.length ↔ i ≤ b'.data.length := by omega
  have hbytes : b.rowBytes i = b'.rowBytes i := by
    refine List.ext_getElem? fun j ↦ ?_
    simp only [rowBytes, List.getElem?_take, List.getElem?_drop]
    split
    · next hj =>
      rcases Nat.lt_or_ge b.data.length (i + j) with hgt | hle
      · rw [List.getElem?_eq_none (by omega), List.getElem?_eq_none (by omega)]
      · exact (h (i + j) (by omega) (by omega) hle).1
    · rfl
  unfold rowLine
  by_cases hi : i ≤ b.data.length
  · have hcount : i + (b.rowBytes i).length ≤ b.data.length := by
      rw [rowBytes, List.length_take, List.length_drop]
      omega
    have hmax : (b.rowBytes i).length ≤ 16 := List.length_take_le ..
    have hend : b.rowEnd halfCursor i = b'.rowEnd halfCursor i := by
      unfold rowEnd
      rcases hlen with hlen | hlen
      · rw [← hlen]
        split
        · next hlt => rw [(h _ hi hlt (Nat.le_refl _)).2]
        · rfl
      · rw [if_neg (by omega), if_neg (by omega)]
    rw [if_pos hi, if_pos (hiff.mp hi), row, row, ← hbytes, ← hend]
    congr 3
    refine List.map_congr_left fun x hx ↦ ?_
    have hx := List.mem_range'_1.mp hx
    rw [(h x hx.1 (by omega) (by omega)).2]
  · rw [if_neg hi, if_neg (mt hiff.mpr hi)]

/-- Bytes behind a full row are not seen in it. -/
theorem CurrentBuffer.rowLine_append (b : CurrentBuffer X) (halfCursor : Bool) {i : Nat}
    {chunk : List UInt8} (hi : chunk = [] ∨ i + 16 ≤ b.data.length) :
    rowLine { b with data := b.data ++ chunk } halfCursor i = b.rowLine halfCursor i := by
  rcases hi with rfl | hi
  · rw [List.append_nil]
  · refine rowLine_congr halfCursor (.inr ⟨by simp only [List.length_append]; omega, hi⟩)
      fun x hx hlt _ ↦ ⟨?_, rfl⟩
    exact List.getElem?_append_left (by omega)

namespace HexView

variable {G : DrawEnv} {v : HexView X} {b : CurrentBuffer X} {d : Display Color}
  {ops : List TermOp}

private theorem Views.picture_below (h : v.Views b) {rows : Nat → List (Cell Color)}
    (hp : v.picture G = some rows) {k : Nat} (hfive : 5 ≤ k) (hk : k < v.size.2 - 1) :
    lineOf .reset (rows k) = b.rowLine v.mode.hasHalfCursor (v.startOffset + k * 16) := by
  rw [picture, h.current, Option.bind_eq_bind, Option.bind_some] at hp
  obtain ⟨currentBytes, -, hp⟩ := Option.bind_eq_some_iff.mp hp
  obtain rfl := Option.some.inj hp
  have hline : lineAt G currentBytes k = [] := by
    obtain ⟨k, rfl⟩ := Nat.exists_eq_add_of_le' hfive
    rfl
  have hiff : k < v.dataRows b ↔ v.startOffset + k * 16 ≤ b.data.length := by
    rw [h.lt_dataRows_iff]
    omega
  by_cases hdata : k < v.dataRows b
  · simp only [if_pos (show k < max (v.dataRows b) 5 by omega), frameCells, rowOps, if_pos hdata,
      hline, List.append_nil, CurrentBuffer.rowLine, if_pos (hiff.mp hdata)]
  · simp only [if_neg (show ¬ k < max (v.dataRows b) 5 by omega), CurrentBuffer.rowLine,
      if_neg (mt hiff.mpr hdata)]

/-- A view that is shown, on the rows without a line about the current bytes. -/
theorem Views.lines_below (h : v.Views b) (hs : v.Shows G d) {k : Nat} (hfive : 5 ≤ k)
    (hk : k < v.size.2 - 1) :
    d.lines k = b.rowLine v.mode.hasHalfCursor (v.startOffset + k * 16) := by
  obtain ⟨rows, hp, hrows⟩ := hs.rows
  rw [hrows k hk, h.picture_below hp hfive hk]

/-- What `draw_rows` leaves on these rows. -/
theorem Views.run_drawRows (h : v.Views b) (hrounds : 5 ≤ G.rounds) {invalidatedRows : List Nat}
    (hrows : ∀ k < 5, k ∈ invalidatedRows)
    (hops : v.printFrame G (some invalidatedRows) = some ops) (hd : v.Fits d) :
    v.Fits (d.run ops) ∧
      ∀ k, 5 ≤ k → k < v.size.2 - 1 → (d.run ops).lines k =
        if k ∈ invalidatedRows ∧ v.startOffset + k * 16 ≤ b.data.length then
          b.rowLine v.mode.hasHalfCursor (v.startOffset + k * 16)
        else d.lines k := by
  obtain ⟨currentBytes, hbytes, -⟩ := Option.bind_eq_some_iff.mp hops
  obtain ⟨rows, hp⟩ : ∃ rows, v.picture G = some rows := by
    rw [picture, h.current, hbytes]
    exact ⟨_, rfl⟩
  have hdrawn : ∀ k < 5, Drawn (some invalidatedRows) k := fun k hk ↦
    decide_eq_true (hrows k hk)
  obtain ⟨hfits, hlines⟩ := h.run_printFrame hp hrounds hdrawn hops hd
  refine ⟨hfits, fun k hfive hk ↦ ?_⟩
  have hiff : k < max (v.dataRows b) 5 ↔ v.startOffset + k * 16 ≤ b.data.length := by
    have := h.lt_dataRows_iff (k := k)
    omega
  rw [hlines k hk, h.picture_below hp hfive hk]
  simp only [hiff, Drawn, decide_eq_true_eq, Option.isNone_some, Bool.false_eq_true, if_false]

/-- Drawing some rows shows the view when the others below the first five show it already. -/
theorem Views.shows_of_drawRows (h : v.Views b) (hrounds : 5 ≤ G.rounds)
    {invalidatedRows : List Nat} (hrows : ∀ k < 5, k ∈ invalidatedRows)
    (hops : v.printFrame G (some invalidatedRows) = some ops) (hd : v.Fits d)
    (hkept : ∀ k, 5 ≤ k → k < v.size.2 - 1 →
      k ∉ invalidatedRows ∨ b.data.length < v.startOffset + k * 16 →
      d.lines k = b.rowLine v.mode.hasHalfCursor (v.startOffset + k * 16)) :
    v.Shows G (d.run ops) := by
  obtain ⟨currentBytes, hbytes, -⟩ := Option.bind_eq_some_iff.mp hops
  obtain ⟨rows, hp⟩ : ∃ rows, v.picture G = some rows := by
    rw [picture, h.current, hbytes]
    exact ⟨_, rfl⟩
  refine h.shows_drawRows hp hrounds hrows hops hd fun k hk hfive hout ↦ ?_
  rw [h.picture_below hp hfive hk]
  refine hkept k hfive hk (hout.imp_right fun hge ↦ ?_)
  have := h.lt_dataRows_iff (k := k)
  omega

/-! ## All rows -/

variable {fs : FileSystem} {c c' c₁ : Console} {v₁ v' : HexView X} {b₀ b₁ b' : CurrentBuffer X}

/-- A view of the same size fits the same display. -/
theorem Fits.of_size (hd : v.Fits d) (hsize : v'.size = v.size) : v'.Fits d :=
  ⟨by rw [hsize, hd.width], by rw [hsize, hd.height], by rw [hsize]; exact hd.wide, hd.background⟩

/-- What the status line says of more data is no longer. -/
theorem StatusFits.of_draw (hfits : v'.StatusFits) (h : v.draw fs = some v') : v.StatusFits := by
  have hframe := (SameFrame.steps fs 0).draw h
  constructor
  · rw [← hframe.size]
    exact hfits.word
  · intro b hb
    obtain ⟨chunk, hb'⟩ := ((Appends.steps fs 0).draw h).current (trims_draw h) b hb
    have hline := hfits.line _ hb'
    rw [statusColumns, hframe.mode, hframe.size] at hline
    exact hline
  · rw [← hframe.info, ← hframe.size]
    exact hfits.info

/-- A status line that fits is not on the rows of the view. -/
theorem Views.shows_drawStatuslineOn (hv : v.Views b) (hline : v.StatusFits)
    (hs : v.Shows G c.display) (h : v.drawStatuslineOn c = some c') : v.Shows G c'.display := by
  obtain ⟨⟨ops, col⟩, hops, h⟩ := Option.bind_eq_some_iff.mp h
  obtain rfl := Option.some.inj h
  have hlen := hv.length
  have hcaret : ∀ main ∈ b.selection.main, main.caret < 2 ^ 64 := by
    intro main hmain
    have := (hv.within.inBounds main (List.mem_of_getElem? hmain)).1
    omega
  have hlast := hline.onStatusLine hv.current hcaret (by omega) hops
  obtain ⟨rows, hp, hrows⟩ := hs.rows
  refine ⟨hs.toFits.run hlast.background, rows, hp, fun k hk ↦ ?_⟩
  rw [← hrows k hk]
  exact hlast.keeps _ hs.width hs.height k (by omega)

/-- Drawing with the status line leaves a display that shows the view. -/
theorem Views.shows_draw_run (hv : v'.Views b') (hline : v'.StatusFits) (hrounds : 5 ≤ G.rounds)
    (h : (Console.painter G).draw fs v c = some (v', c')) (hd : v'.Fits c.display) :
    v'.Shows G c'.display := by
  obtain ⟨-, ops, hops, hstatus⟩ := Console.draw_eq_some h
  exact hv.shows_drawStatuslineOn hline (hv.shows_draw hrounds hops hd) hstatus

/-! ## Rows that were moved -/

/-- Below the first five rows, each row shows one of two buffers. -/
structure Carries (v : HexView X) (b₀ b : CurrentBuffer X) (d : Display Color) : Prop
    extends v.Fits d where
  rows : ∀ k, 5 ≤ k → k < v.size.2 - 1 →
    d.lines k = b₀.rowLine v.mode.hasHalfCursor (v.startOffset + k * 16) ∨
      d.lines k = b.rowLine v.mode.hasHalfCursor (v.startOffset + k * 16)

private theorem Views.carries (hv : v.Views b) (hs : v.Shows G d) (b₀ : CurrentBuffer X) :
    v.Carries b₀ b d :=
  ⟨hs.toFits, fun _ hfive hk ↦ .inr (hv.lines_below hs hfive hk)⟩

section Scrolls

variable {height n : Nat} (hv : v₁.Views b₁) (hline : v₁.StatusFits) (hrounds : 5 ≤ G.rounds)
  (hfits : v.Fits c.display)
  (hrows : ∀ k, 5 ≤ k → k < v.size.2 - 1 →
    c.display.lines k = b₀.rowLine v.mode.hasHalfCursor (v.startOffset + k * 16))
include hv hline hrounds hfits hrows

/-- Rows that are scrolled down keep what they show. Those that had lines about the current
bytes are drawn, if they have data. -/
theorem Views.carries_scrollUp (hword : v.size.2 + 5 ≤ 2 ^ 16) (hn : 16 * n ≤ v.startOffset)
    (hnear : v.startOffset < 2 ^ 63) (hfull : v.startOffset + 64 ≤ b₁.data.length)
    (h : (Console.painter G).scrollUp fs v n c = some (v₁, c₁)) :
    v₁.startOffset + 16 * n = v.startOffset ∧ v₁.Carries b₀ b₁ c₁.display := by
  have hmul : usizeMul 0x10 n = 16 * n := usizeMul_of_lt (by omega)
  rw [Console.scrollUp_run, hmul, if_neg (by omega)] at h
  simp only at h
  split at h
  · have hframe := (SameFrame.steps fs 0).draw (Console.draw_eq_some h).1
    have hstart := startOffset_draw (Console.draw_eq_some h).1
    exact ⟨by rw [hstart]; simp only; omega,
      hv.carries (hv.shows_draw_run hline hrounds h (hfits.of_size hframe.size)) b₀⟩
  · next hfew =>
    obtain ⟨hd, ops, hops, rfl⟩ := Console.drawRows_eq_some h
    have hframe := (SameFrame.steps fs 0).draw hd
    have hsize : v₁.size = v.size := hframe.size
    have hmode : v₁.mode = v.mode := hframe.mode
    have hstart : v₁.startOffset + 16 * n = v.startOffset := by
      rw [startOffset_draw hd]
      simp only
      omega
    have hfive := hv.five
    have hmod : (n + BytePropertiesFormatter.height) % 2 ^ 16 = n + 5 :=
      Nat.mod_eq_of_lt (show n + 5 < 2 ^ 16 by omega)
    rw [hmod] at hops
    set d := c.display.run [.scrollDown n, .moveTo 0 (v.size.2 - 1), .clearCurrentLine] with hd'
    have hlines : ∀ k < v.size.2 - 1, n ≤ k → d.lines k = c.display.lines (k - n) := by
      intro k hk hle
      simp only [hd', Display.run_cons, Display.run_nil, Display.exec, Display.setLine,
        hfits.height]
      rw [Function.update_of_ne (by omega), if_neg (by omega)]
    have hmoved : v₁.Fits d := (hfits.of_size hsize).run fun _ hb ↦ hb
    obtain ⟨hfits', hlines'⟩ := hv.run_drawRows hrounds (d := d)
      (fun k hk ↦ List.mem_range.mpr (by omega)) hops hmoved
    refine ⟨hstart, hfits', fun k hk5 hk ↦ ?_⟩
    change (d.run ops).lines k = _ ∨ (d.run ops).lines k = _
    rw [hlines' k hk5 hk]
    rw [hsize] at hk
    split
    · exact .inr rfl
    · next hout =>
      rw [List.mem_range] at hout
      have hbelow : n + 5 ≤ k := by omega
      left
      rw [hlines k (by omega) (by omega), hrows (k - n) (by omega) (by omega), hmode]
      congr 1
      omega

/-- Rows that are scrolled up keep what they show, and those that come in sight are drawn. -/
theorem Views.carries_scrollDown (hn : 0 < n) (hstart : v₁.startOffset = v.startOffset + 16 * n)
    (hfit : v.startOffset + 16 * n < 2 ^ 64) (ht : v₁.trims = v.trims)
    (hfull : v₁.startOffset + (v₁.size.2 - 2) * 16 ≤ b₁.data.length)
    (h : (Console.painter G).scrollDown fs height v n c = some (v₁, c₁)) :
    v₁.Carries b₀ b₁ c₁.display := by
  have hnext : usizeAdd v.startOffset (usizeMul n 16) = v.startOffset + 16 * n := by
    rw [usizeMul_of_lt (by omega), usizeAdd_of_lt (by omega)]
    omega
  rw [Console.scrollDown_run] at h
  obtain ⟨⟨v₂, goesOn⟩, hl, h⟩ := Option.bind_eq_some_iff.mp h
  obtain ⟨b₂, hb₂, h⟩ := Option.bind_eq_some_iff.mp h
  simp only [hnext] at h hl
  have hframe := (SameFrame.steps fs height).loadForScroll hl
  have hsize₂ : v₂.size = v.size := hframe.size
  split at h
  · -- what is refused leaves the offset
    obtain ⟨rfl, -⟩ := Prod.mk.inj (Option.some.inj h)
    obtain ⟨b, hb, -⟩ := Option.bind_eq_some_iff.mp hl
    obtain ⟨-, -, hkept, -⟩ := exists_of_loadForScroll hb hl ht
    omega
  · split at h
    · have hframe' := (SameFrame.steps fs 0).draw (Console.draw_eq_some h).1
      exact hv.carries
        (hv.shows_draw_run hline hrounds h (hfits.of_size (hframe'.size.trans hsize₂))) b₀
    · next hfew =>
      rw [hsize₂] at h hfew
      obtain ⟨hd, ops, hops, rfl⟩ := Console.drawRows_eq_some h
      have hframe' := (SameFrame.steps fs 0).draw hd
      have hsize : v₁.size = v.size := hframe'.size
      have hmode : v₁.mode = v.mode := hframe'.mode.trans hframe.mode
      have hfive := hv.five
      rw [hsize] at hfull hfive
      set d := c.display.run [.scrollUp n, .moveTo 0 (v.size.2 - 2), .clearCurrentLine] with hd'
      have hlines : ∀ k, k + n < v.size.2 - 1 → d.lines k = c.display.lines (k + n) := by
        intro k hk
        simp only [hd', Display.run_cons, Display.run_nil, Display.exec, Display.moveUp,
          Display.setLine, hfits.height]
        rw [Function.update_of_ne (by omega), if_pos (by omega)]
      have hmoved : v₁.Fits d := (hfits.of_size hsize).run fun _ hb ↦ hb
      obtain ⟨hfits', hlines'⟩ := hv.run_drawRows hrounds (d := d)
        (fun k hk ↦ List.mem_append_right _ (List.mem_range.mpr hk)) hops hmoved
      refine ⟨hfits', fun k hk5 hk ↦ ?_⟩
      change (d.run ops).lines k = _ ∨ (d.run ops).lines k = _
      rw [hlines' k hk5 hk]
      rw [hsize] at hk
      split
      · exact .inr rfl
      · next hout =>
        simp only [List.mem_append, List.mem_range'_1, List.mem_range] at hout
        have habove : k + n < v.size.2 - 1 := by
          by_contra hge
          exact hout ⟨.inl (by omega), by omega⟩
        left
        rw [hlines k habove, hrows (k + n) (by omega) habove, hmode, hstart]
        congr 1
        omega

end Scrolls

/-! ## Moving to the cursor -/

section Moves

variable {height : Nat} {main : SelRegion}

/-- Scroll by whole lines to cover a distance. -/
def scrollByOn (G : DrawEnv) (fs : FileSystem) (height : Nat) (v : HexView X) (delta : Int)
    (c : Console) : Option (HexView X × Console) :=
  if delta < 0 then (Console.painter G).scrollUp fs v (linesUp delta) c
  else (Console.painter G).scrollDown fs height v (linesDown delta) c

private theorem Views.maybeUpdateOffset_run_eq (hv : v.Views b) (hm : b.selection.main = some main)
    (hne : b.data ≠ []) :
    (Console.painter G).maybeUpdateOffset fs height v c =
      if main.caret < v.startOffset then
        v.scrollByOn G fs height (isizeSub (asIsize main.caret) (asIsize v.startOffset)) c
      else if (v.visibleBytes b.data.length).stop ≤ main.caret then
        v.scrollByOn G fs height (isizeSub (asIsize main.caret)
          (isizeSub (asIsize (v.visibleBytes b.data.length).stop) 1)) c
      else some (v, c) := by
  have hword : asIsize v.bytesPerLine = 16 := by rw [hv.bytesPerLine]; decide
  rw [Console.maybeUpdateOffset_run, hv.current]
  simp only [Option.bind_eq_bind, Option.bind_some, if_neg hne, hm, hword]
  rfl

/-- The view after it was moved to the main cursor. -/
theorem Views.exists_maybeUpdateOffset (hv : v.Views b) (hm : b.selection.main = some main)
    (h : v.maybeUpdateOffset fs height = some v₁) (ht : v₁.trims = v.trims)
    (hlen : ∀ b ∈ v₁.current, b.data.length < 2 ^ 63) :
    SameFrame v v₁ ∧ ∃ chunk, v₁.Views { b with data := b.data ++ chunk } ∧
      v₁.startOffset ≤ main.caret ∧ main.caret < v₁.startOffset + (v.size.2 - 1) * 16 := by
  have hframe := (SameFrame.steps fs height).maybeUpdateOffset h
  obtain ⟨chunk, hb₁⟩ := ((Appends.steps fs height).maybeUpdateOffset h).current ht b hv.current
  have hin := (hv.within.inBounds main (List.mem_of_getElem? hm)).1
  have hlen₁ := hlen _ hb₁
  have hlen := hv.length
  have hfive := hv.five
  have hnear := hv.near
  have hlines := hv.aligned
  obtain ⟨haligned, hiff⟩ := showsCursor_maybeUpdateOffset_iff hv.current hm hin hv.bytesPerLine
    hv.word hv.aligned (by omega) (by omega) (by omega) h ht
  have hle : main.caret ≤ (b.data ++ chunk).length := by
    rw [List.length_append]
    omega
  have hcursor := (showsCursor_iff hb₁ hm hle (hframe.bytesPerLine.trans hv.bytesPerLine)
    (hframe.size ▸ hv.word) (by omega)).mp (hiff.mpr (.inr (.inl (by omega))))
  rw [hframe.size] at hcursor
  refine ⟨hframe, chunk, ?_, hcursor.2.1, hcursor.2.2⟩
  exact
    { bytesPerLine := hframe.bytesPerLine.trans hv.bytesPerLine
      five := hframe.size ▸ hv.five
      word := hframe.size ▸ hv.word
      aligned := haligned
      near := by omega
      current := hb₁
      within := hv.within.append chunk
      length := hlen₁
      start := by
        have := hcursor.2.1
        simp only at hle ⊢
        omega }

/-- Moving to the cursor keeps what rows show, or draws them. -/
theorem Views.carries_maybeUpdateOffset (hv : v.Views b) (hline : v₁.StatusFits)
    (hrounds : 5 ≤ G.rounds) (hword : v.size.2 + 5 ≤ 2 ^ 16) (hm : b.selection.main = some main)
    (hfits : v.Fits c.display)
    (hrows : ∀ k, 5 ≤ k → k < v.size.2 - 1 →
      c.display.lines k = b₀.rowLine v.mode.hasHalfCursor (v.startOffset + k * 16))
    (h : (Console.painter G).maybeUpdateOffset fs height v c = some (v₁, c₁))
    (ht : v₁.trims = v.trims)
    (hlen : ∀ b ∈ v₁.current, b.data.length < 2 ^ 63)
    (hfull : v₁.startOffset < v.startOffset → v.startOffset + 64 ≤ b.data.length) :
    SameFrame v v₁ ∧ ∃ chunk, v₁.Views { b with data := b.data ++ chunk } ∧
      v₁.Carries b₀ { b with data := b.data ++ chunk } c₁.display ∧
      (v.startOffset < v₁.startOffset →
        v₁.startOffset + (v.size.2 - 2) * 16 ≤ main.caret ∧
          main.caret < v₁.startOffset + (v.size.2 - 1) * 16) := by
  obtain ⟨hframe, chunk, hv₁, hle, hlt⟩ := hv.exists_maybeUpdateOffset hm
    (Console.simulation.maybeUpdateOffset (Console.painter G) fs height v c v₁ c₁ h) ht hlen
  have hin := (hv.within.inBounds main (List.mem_of_getElem? hm)).1
  have hlength := hv.length
  have hnear := hv.near
  have hfive := hv.five
  have haligned := hv.aligned
  have hcarries (hc : c₁ = c) (hs : v₁.startOffset = v.startOffset) :
      v₁.Carries b₀ { b with data := b.data ++ chunk } c₁.display := by
    refine ⟨hc ▸ hfits.of_size hframe.size, fun k hk5 hk ↦ .inl ?_⟩
    rw [hframe.size] at hk
    rw [hc, hrows k hk5 hk, hframe.mode, hs]
  refine ⟨hframe, chunk, hv₁, ?_⟩
  by_cases hne : b.data = []
  · have hzero : v.startOffset = 0 := by
      have := hv.start
      rw [hne] at this
      exact Nat.le_zero.mp this
    rw [Console.maybeUpdateOffset_run, hv.current, Option.bind_eq_bind, Option.bind_some,
      if_pos hne] at h
    obtain ⟨rfl, rfl⟩ := Prod.mk.inj (Option.some.inj h)
    exact ⟨hcarries rfl hzero.symm, fun hgt ↦ absurd hgt (by simp)⟩
  · rw [hv.maybeUpdateOffset_run_eq hm hne, hv.stop_eq] at h
    split at h
    · next habove =>
      obtain ⟨hneg, hlines⟩ := linesUp_to_cursor hv.aligned habove (by omega)
      rw [scrollByOn, if_pos hneg] at h
      have hlonger : b.data.length ≤ (b.data ++ chunk).length := by simp
      obtain ⟨hstart, hcarries⟩ := hv₁.carries_scrollUp hline hrounds hfits hrows hword
        (by omega) hnear (by have := hfull (by omega); simp only; omega) h
      exact ⟨hcarries, fun hgt ↦ by omega⟩
    · split at h
      · next hbelow =>
        have hstop : min (b.data.length + 1) (v.startOffset + (v.size.2 - 1) * 16) =
            v.startOffset + (v.size.2 - 1) * 16 := by omega
        rw [hstop] at h hbelow
        obtain ⟨hdown, hlines⟩ := linesDown_to_cursor hv.aligned (by omega) hbelow (by omega)
        rw [scrollByOn, if_neg hdown] at h
        generalize linesDown _ = n at h hlines
        have hnext : v.nextPosition n = v.startOffset + 16 * n := by
          rw [nextPosition, usizeMul_of_lt (by omega), usizeAdd_of_lt (by omega)]
          omega
        obtain ⟨b', more, -, -, -, hs⟩ := exists_of_scrollDown hv.current
          (Console.simulation.scrollDown (Console.painter G) fs height v n c v₁ c₁ h) ht
        rw [hnext, List.length_append, if_pos (by omega)] at hs
        have hlonger : b.data.length ≤ (b.data ++ chunk).length := by simp
        have hlast : v₁.startOffset + (v.size.2 - 2) * 16 ≤ main.caret := by omega
        refine ⟨hv₁.carries_scrollDown hline hrounds hfits hrows (by omega) hs (by omega) ht ?_ h,
          fun _ ↦ ⟨hlast, hlt⟩⟩
        rw [hframe.size]
        simp only
        omega
      · obtain ⟨rfl, rfl⟩ := Prod.mk.inj (Option.some.inj h)
        exact ⟨hcarries rfl rfl, fun hgt ↦ absurd hgt (by omega)⟩

end Moves

/-! ## What is drawn after a change in place -/

end HexView

/-- Every offset that is drawn differently is reported, and so is the main caret. -/
structure Repaints (b₀ b : CurrentBuffer X) (intervals : List Interval) : Prop where
  length : b.data.length = b₀.data.length
  others : ∀ x ≤ b.data.length, ¬ Reported intervals x → b₀.data[x]? = b.data[x]? ∧
    regionAt b₀.selection.regions x = regionAt b.selection.regions x
  caret : b.data ≠ [] → ∀ main ∈ b.selection.main, Reported intervals main.caret

namespace HexView

variable {G : DrawEnv} {fs : FileSystem} {height : Nat} {v v₀ v₁ v' : HexView X}
  {b b₀ b₁ : CurrentBuffer X} {c c' : Console} {intervals : List Interval}

/-- The rows of reported offsets are drawn. -/
theorem Views.mem_dirtyRows (hv : v.Views b) {rows : List Nat}
    (h : v.dirtyRows intervals = some rows) {k x : Nat} (hk : k < v.size.2 - 1)
    (hx : v.startOffset + k * 16 ≤ x) (hx' : x < v.startOffset + k * 16 + 16)
    (hlen : x ≤ b.data.length) (hrep : Reported intervals x) : k ∈ rows := by
  rw [dirtyRows, hv.current, Option.bind_eq_bind, Option.bind_some] at h
  obtain rfl := Option.some.inj h
  obtain ⟨interval, hmem, hcontains⟩ := hrep
  obtain ⟨hle, hlt⟩ := Interval.contains_iff.mp hcontains
  have hstop := hv.stop_eq
  have hword := hv.word
  have hstart : (v.visibleBytes b.data.length).start = v.startOffset := rfl
  refine List.mem_append_left _
    (List.mem_map.mpr ⟨x, List.mem_flatMap.mpr ⟨interval, hmem, ?_⟩, ?_⟩)
  · rw [List.mem_range'_1]
    omega
  · rw [hv.bytesPerLine]
    omega

private theorem lt_mem_dirtyRows {rows : List Nat} (h : v.dirtyRows intervals = some rows) {k : Nat}
    (hk : k < 5) : k ∈ rows := by
  obtain ⟨b, -, h⟩ := Option.bind_eq_some_iff.mp h
  obtain rfl := Option.some.inj h
  exact List.mem_append_right _ (List.mem_range.mpr hk)

/-- After a change in place that is reported the view is shown, if no row that had a line about
the current bytes is scrolled behind the data, and nothing is loaded unless the view is
scrolled down. -/
theorem Views.shows_inPlace (hv₀ : v₀.Views b₀) (hs : v₀.Shows G c.display) (hv : v.Views b)
    (hsize : v.size = v₀.size) (hstart : v.startOffset = v₀.startOffset)
    (hhalf : v.mode.hasHalfCursor = v₀.mode.hasHalfCursor) (hrep : Repaints b₀ b intervals)
    (hline : v'.StatusFits) (hrounds : 5 ≤ G.rounds) (hword : v.size.2 + 5 ≤ 2 ^ 16)
    (h : (Console.painter G).transitionDirtyBytes fs height v (.changeInPlace intervals) c =
      some (v', c'))
    (ht : v'.trims = v.trims) (hlen : ∀ b ∈ v'.current, b.data.length < 2 ^ 63)
    (hup : v'.startOffset < v.startOffset → v.startOffset + 64 ≤ b.data.length)
    (hload : v'.startOffset ≤ v.startOffset →
      ∀ b' ∈ v'.current, b'.data.length = b.data.length) :
    (∃ b', v'.Views b') ∧ v'.Shows G c'.display := by
  obtain ⟨v₁, c₁, rows, hmove, hdirty, h⟩ := Console.changeInPlace_eq_some h
  obtain ⟨hd, ops, hops, rfl⟩ := Console.drawRows_eq_some h
  have ht₁ : v₁.trims = v.trims := (trims_draw hd).symm.trans ht
  have hstart' : v'.startOffset = v₁.startOffset := startOffset_draw hd
  have hframe' := (SameFrame.steps fs height).draw hd
  have hlen₁ : ∀ b ∈ v₁.current, b.data.length < 2 ^ 63 := by
    intro b₁ hb₁
    obtain ⟨more, hb'⟩ := ((Appends.steps fs height).draw hd).current (trims_draw hd) b₁ hb₁
    have := hlen _ hb'
    simp only [List.length_append] at this
    omega
  obtain ⟨main, hm, hmem⟩ := hv.within.exists_main
  have hin := (hv.within.inBounds main hmem).1
  obtain ⟨hframe, chunk, hv₁, hcarries, hlast⟩ := hv.carries_maybeUpdateOffset
    (hline.of_draw hd) hrounds hword hm (hs.toFits.of_size hsize)
    (fun k hk5 hk ↦ by rw [hsize] at hk; rw [hhalf, hstart, hv₀.lines_below hs hk5 hk]) hmove ht₁
    hlen₁ (by rw [← hstart']; exact hup)
  obtain ⟨more, hb'⟩ := ((Appends.steps fs height).draw hd).current (trims_draw hd) _ hv₁.current
  have hv' : v'.Views { b with data := b.data ++ chunk ++ more } :=
    { hv₁.toFramed.of_eq hframe'.bytesPerLine hframe'.size hstart' with
      current := hb'
      within := hv₁.within.append more
      length := hlen _ hb'
      start := by
        have := hv₁.start
        simp only [List.length_append] at this ⊢
        omega }
  refine ⟨⟨_, hv'⟩, hv'.shows_of_drawRows hrounds (fun k hk ↦ lt_mem_dirtyRows hdirty hk) hops
    (hcarries.toFits.of_size hframe'.size) fun k hk5 hk hout ↦ ?_⟩
  simp only [List.length_append, hstart', hframe'.size, hframe.size] at hout hk ⊢
  -- a row that is not drawn has no offset that is reported
  have hquiet : ∀ x, v₁.startOffset + k * 16 ≤ x → x < v₁.startOffset + k * 16 + 16 →
      x ≤ b.data.length → ¬ Reported intervals x := by
    intro x hx hx' hle hreported
    rcases hout with hout | hout
    · exact hout (hv₁.mem_dirtyRows hdirty (by rw [hframe.size]; exact hk) hx hx'
        (by simp only [List.length_append]; omega) hreported)
    · omega
  -- nothing was loaded, or the row is full: the last one is that of the main caret
  have hshort : chunk ++ more = [] ∨ v₁.startOffset + k * 16 + 16 ≤ b.data.length := by
    rcases Nat.lt_or_ge v.startOffset v₁.startOffset with hdown | hnot
    · obtain ⟨hlast, hbelow⟩ := hlast hdown
      have hcaret := hrep.caret (List.length_pos_iff.mp (by omega)) main hm
      have hne : ¬ v₁.startOffset + k * 16 + 16 > main.caret := fun hgt ↦
        hquiet main.caret (by omega) (by omega) hin hcaret
      exact .inr (by omega)
    · have := hload (by omega) _ hb'
      simp only [List.length_append] at this
      exact .inl (List.eq_nil_of_length_eq_zero (by rw [List.length_append]; omega))
  have hrow : ∀ chunk', chunk' <+: chunk ++ more →
      CurrentBuffer.rowLine { b with data := b.data ++ chunk' } v'.mode.hasHalfCursor
        (v₁.startOffset + k * 16) = b.rowLine v'.mode.hasHalfCursor (v₁.startOffset + k * 16) := by
    intro chunk' hprefix
    refine b.rowLine_append _ (hshort.imp_left fun hnil ↦ ?_)
    rw [hnil] at hprefix
    exact List.prefix_nil.mp hprefix
  rw [List.append_assoc, hrow _ List.prefix_rfl, hframe'.mode]
  rcases hcarries.rows k hk5 (by rw [hframe.size]; exact hk) with hold | hnew
  · rw [hold]
    refine CurrentBuffer.rowLine_congr _ (.inl hrep.length.symm) fun x hx hx' hle ↦ ?_
    rw [← hrep.length] at hle
    exact hrep.others x hle (hquiet x hx hx' hle)
  · rw [hnew, ← hframe'.mode]
    exact hrow chunk (List.prefix_append _ _)

end HexView

end Tofu

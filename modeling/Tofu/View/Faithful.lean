import Tofu.Modes.Effects
import Tofu.View.Repaint

/-!
# What is on the screen

Along a run of the event loop the terminal shows the picture of the view after every event,
whether all of it was drawn, rows of it, or nothing. The exceptions are a terminal on which a
row or the status line does not fit in a line, a half byte that is dropped without being drawn
again, `%` with a region that reaches behind the data, rows that scroll away with a line about
the current bytes and have no data, and data that is loaded for rows that are not drawn.
-/

namespace Tofu

open Rope Selection

variable {X : XiRope UInt8}

/-! ## What is reported is enough -/

private theorem regionAt_eq_none_iff {regions : List SelRegion} {x : Nat} :
    regionAt regions x = none ↔ ¬ Covered regions x := by
  simp only [regionAt, List.find?_eq_none, decide_eq_true_eq, Covered, not_exists, not_and]

/-- Only the region whose flag is set is another one. -/
theorem regionAt_setMain {regions : List SelRegion} {index x : Nat} (main : Bool)
    (hx : ∀ r ∈ regions[index]?, ¬ (r.min ≤ x ∧ x ≤ r.max)) :
    regionAt (setMain regions index main) x = regionAt regions x := by
  induction regions generalizing index with
  | nil => simp [setMain]
  | cons r regions ih =>
    cases index with
    | zero =>
      have hr : ¬ (r.min ≤ x ∧ x ≤ r.max) := hx r rfl
      have hr' : ¬ (SelRegion.min { r with main := main } ≤ x ∧
        x ≤ SelRegion.max { r with main := main }) := hr
      simp only [regionAt, setMain, List.modify_zero_cons, List.find?_cons, decide_eq_false hr,
        decide_eq_false hr']
    | succ index =>
      have := ih hx
      simp only [regionAt, setMain, List.modify_succ_cons, List.find?_cons] at this ⊢
      rw [this]

section Repaints

variable {b b' : CurrentBuffer X} {intervals : List Interval}

/-- Everything that is selected before or after is reported. -/
theorem Repaints.of_covered (hdata : b'.data = b.data) (hw' : b'.SelectsWithin)
    (hold : ∀ x ≤ b.data.length, Covered b.selection.regions x → Reported intervals x)
    (hnew : ∀ x ≤ b.data.length, Covered b'.selection.regions x → Reported intervals x) :
    Repaints b b' intervals where
  length := by rw [hdata]
  others x hx hrep := by
    rw [hdata] at hx
    rw [hdata, regionAt_eq_none_iff.mpr (mt (hold x hx) hrep),
      regionAt_eq_none_iff.mpr (mt (hnew x hx) hrep)]
    exact ⟨rfl, rfl⟩
  caret _ main hmain := by
    have hmem := List.mem_of_getElem? hmain
    have hin := (hw'.inBounds main hmem).1
    rw [hdata] at hin
    exact hnew main.caret hin ⟨main, hmem, main.min_le_caret, main.caret_le_max⟩

variable (hsmall : b.data.length < 2 ^ 63) (hw : b.SelectsWithin) (hw' : b'.SelectsWithin)
include hsmall hw'

/-- What a new selection reports is enough. -/
theorem Reselects.repaints (h : Reselects b intervals b') : Repaints b b' intervals := by
  cases h with
  | mapped h hf =>
    obtain ⟨s', outputs, hc, ho, hdata, hcov⟩ := CurrentBuffer.of_mapSelections h
    refine .of_covered hdata hw' (fun x hx hold ↦ (hcov x (by omega)).mpr (.inl hold))
      fun x hx hnew ↦ (hcov x (by omega)).mpr (.inr ?_)
    exact (covered_ofOutputs ho (hf s' outputs hc) x).mp hnew
  | narrowed h hf =>
    obtain ⟨sel, hs, h⟩ := Option.bind_eq_some_iff.mp h
    simp only [Option.some.injEq, Prod.mk.injEq, DirtyBytes.changeInPlace.injEq] at h
    obtain ⟨rfl, rfl⟩ := h
    have hold : ∀ x ≤ b.data.length, Covered b.selection.regions x →
        Reported (b.selection.regions.map SelRegion.interval) x :=
      fun x hx hcov ↦ (reported_map_interval (by omega)).mpr hcov
    exact .of_covered rfl hw' hold fun x hx hnew ↦ hold x hx (hf sel hs x hnew)
  | switched h hf =>
    obtain ⟨sel, oldMain, newMain, rfl, rfl, hnew, hregions, hothers⟩ :=
      CurrentBuffer.of_switchMainSel h hf
    have hiff : ∀ x ≤ b.data.length, (Reported [oldMain.interval, newMain.interval] x ↔
        (oldMain.min ≤ x ∧ x ≤ oldMain.max) ∨ newMain.min ≤ x ∧ x ≤ newMain.max) := by
      intro x hx
      simp only [reported_cons, SelRegion.contains_interval (show x < 2 ^ 64 - 1 by omega),
        not_reported_nil, or_false]
    refine ⟨rfl, fun x hx hrep ↦ ⟨rfl, ?_⟩, fun _ main hmain ↦ ?_⟩
    · have hout := not_or.mp (mt (hiff x hx).mpr hrep)
      obtain ⟨hnotOld, hnotNew⟩ := hothers x hout.1 hout.2
      simp only [hregions]
      rw [regionAt_setMain true hnotNew, regionAt_setMain false hnotOld]
    · obtain rfl : newMain = main := Option.some.inj (hnew.symm.trans hmain)
      have hin := (hw'.inBounds newMain (List.mem_of_getElem? hmain)).1
      exact (hiff _ hin).mpr (.inr ⟨newMain.min_le_caret, newMain.caret_le_max⟩)

omit hw' hsmall in
/-- In an empty buffer there is one region, a main cursor. -/
theorem CurrentBuffer.SelectsWithin.regions_of_nil (hw : b.SelectsWithin) (hnil : b.data = []) :
    b.selection.regions = [⟨0, 0, true⟩] := by
  have hplaced : b.selection.Placed b.data.length := ⟨hw.valid.sorted, hw.inBounds⟩
  have hle := hplaced.length_le
  rw [hnil] at hle
  have hlt := hw.valid.main_lt
  have hone : b.selection.regions.length = 1 := by
    simp only [List.length_nil] at hle
    omega
  obtain ⟨r, hr⟩ := List.length_eq_one_iff.mp hone
  have hin := hw.inBounds r (by rw [hr]; exact List.mem_singleton_self r)
  have hmain : r.isMain = true :=
    (hw.valid.main_iff 0 r (by rw [hr]; rfl)).mpr (by omega)
  obtain ⟨caret, tail, main⟩ := r
  rw [hnil] at hin
  obtain rfl : caret = 0 := Nat.le_zero.mp hin.1
  obtain rfl : tail = 0 := Nat.le_zero.mp hin.2
  obtain rfl : main = true := hmain
  exact hr

omit hsmall hw' in
include hw in
/-- So is what `%` reports, unless something was selected behind the bytes. -/
theorem repaints_selectAll (hall : b.SelectAllShown)
    (hw' : CurrentBuffer.SelectsWithin
      { b with selection := b.selection.selectAll b.data.length }) :
    Repaints b { b with selection := b.selection.selectAll b.data.length }
      [{ start := 0, stop := b.data.length }] := by
  by_cases hnil : b.data = []
  · refine ⟨rfl, fun x _ _ ↦ ⟨rfl, ?_⟩, fun hne ↦ absurd hnil hne⟩
    rw [hw.regions_of_nil hnil, hw'.regions_of_nil hnil]
  · have hpos : b.data.length ≠ 0 := fun h ↦ hnil (List.eq_nil_of_length_eq_zero h)
    have hrep : ∀ x, Reported [{ start := 0, stop := b.data.length }] x ↔ x < b.data.length := by
      intro x
      simp [Interval.contains_iff]
    refine .of_covered rfl hw' (fun x _ hx ↦ ?_) fun x _ hx ↦ ?_
    · obtain ⟨r, hr, -, hle⟩ := hx
      exact (hrep x).mpr (Nat.lt_of_le_of_lt hle (hall.resolve_left hnil r hr))
    · simp only [selectAll, if_neg hpos, covered_cons, not_covered_nil, or_false] at hx
      have := hx.2
      simp only [SelRegion.max] at this
      exact (hrep x).mpr (by omega)

end Repaints

/-! ## What a mode hands over -/

section Transitions

variable {E : SearchEngine} {mode : Mode} {evt : Event} {ws ws' : Workspace X} {bytesPerLine : Nat}
  {t : ModeTransition} {b : CurrentBuffer X}

private theorem Mode.transition_onBuffer (hmode : ∀ m, mode ≠ .command m)
    (hb : ws.buffers.current = some b)
    (h : mode.transition E evt ws bytesPerLine = some (some (t, ws'))) :
    ∃ b', mode.onBuffer E evt b bytesPerLine = some (some (t, b')) ∧
      ws'.buffers.current = some b' := by
  cases mode with
  | command m => exact absurd rfl (hmode m)
  | normal | jumpTo | split | search | insert | replace | quitting =>
    simp only [Mode.transition, hb, Option.bind_eq_bind, Option.bind_some] at h
    obtain ⟨outcome, ho, h⟩ := Option.bind_eq_some_iff.mp h
    obtain ⟨⟨t', b'⟩, rfl, hpair⟩ := Option.map_eq_some_iff.mp (Option.some.inj h)
    obtain ⟨rfl, rfl⟩ := Prod.mk.inj hpair
    exact ⟨b', ho, List.getElem?_set_self (List.getElem?_eq_some_iff.mp hb).1⟩

/-- An event that is handled asks for everything to be drawn, or the new buffer is shown as the
old one was, or what is shown differently is reported. -/
theorem Mode.transition_cases (hsmall : b.data.length < 2 ^ 63) (hw : b.SelectsWithin)
    (hb : ws.buffers.current = some b) (hdrop : mode.dropsHalf evt = false)
    (hall : mode.selectsAll evt = true → b.SelectAllShown)
    (hw' : ∀ b' ∈ ws'.buffers.current, b'.SelectsWithin)
    (h : mode.transition E evt ws bytesPerLine = some (some (t, ws'))) :
    t.report = some .changeLength ∨
      ∃ b', ws'.buffers.current = some b' ∧
        (t.mode mode).hasHalfCursor = mode.hasHalfCursor ∧
        (t.report = none ∧ b'.snapshot = b.snapshot ∨
          ∃ intervals, t.report = some (.changeInPlace intervals) ∧ Repaints b b' intervals) := by
  by_cases hmode : ∃ m, mode = .command m
  · obtain ⟨m, rfl⟩ := hmode
    have hcommand := Command.commanded_transition h
    refine hcommand.shown.imp_right fun ⟨hr, hsame⟩ ↦ ?_
    obtain ⟨b', hb', hsnapshot⟩ := hsame b hb
    exact ⟨b', hb', hcommand.half m, .inl ⟨hr, hsnapshot⟩⟩
  · obtain ⟨b', ho, hb'⟩ := transition_onBuffer (fun m heq ↦ hmode ⟨m, heq⟩) hb h
    have hdone := Mode.handled_of_onBuffer hsmall ⟨hw.valid.sorted, hw.inBounds⟩ ho
    rcases hdone.half with hlength | hdrops | hhalf
    · exact .inl hlength
    · rw [hdrop] at hdrops
      cases hdrops
    · rcases hdone.does with hleft | ⟨-, heffect⟩
      · exact .inr ⟨b', hb', hhalf, .inl ⟨hleft.report, by rw [hleft.commits]; rfl⟩⟩
      · have hdata := hw' b' hb'
        generalize t.report = report at heffect ⊢
        cases heffect with
        | kept => exact .inr ⟨_, hb', hhalf, .inl ⟨rfl, rfl⟩⟩
        | reselected h => exact .inr ⟨_, hb', hhalf, .inr ⟨_, rfl, h.repaints hsmall hdata⟩⟩
        | selectedAll h =>
          exact .inr ⟨_, hb', hhalf, .inr ⟨_, rfl, repaints_selectAll hw (hall h) hdata⟩⟩
        | edited | undone | redone => exact .inl rfl
        | finished _ hdrops =>
          rw [hdrop] at hdrops
          cases hdrops

end Transitions

/-! ## Views that are drawn or kept -/

namespace HexView

variable {G : DrawEnv} {fs : FileSystem} {height : Nat} {v v₁ v' : HexView X}
  {b b' : CurrentBuffer X} {c c₁ c' : Console} {d : Display Color}

/-- A picture depends on data, selection, size, offset and the kind of cursor. -/
theorem picture_congr (hb : v.current = some b) (hb' : v'.current = some b')
    (hsnapshot : b'.snapshot = b.snapshot) (hsize : v'.size = v.size)
    (hstart : v'.startOffset = v.startOffset) (hline : v'.bytesPerLine = v.bytesPerLine)
    (hhalf : v'.mode.hasHalfCursor = v.mode.hasHalfCursor) : v'.picture G = v.picture G := by
  obtain ⟨hdata, hsel⟩ := Prod.mk.inj hsnapshot
  have hvisible : ∀ n, v'.visibleBytes n = v.visibleBytes n := by
    intro n
    rw [visibleBytes, visibleBytes, hsize, hstart, hline]
  have hrows : v'.dataRows b' = v.dataRows b := by
    rw [dataRows, dataRows, rowCount, rowCount, hvisible, hline, hdata]
  have hbytes : v'.currentBytes = v.currentBytes := by
    simp only [currentBytes, hb, hb', Option.bind_eq_bind, Option.bind_some, hvisible, hdata, hsel]
  have hops : ∀ k, v'.rowOps b' k = v.rowOps b k := by
    intro k
    simp only [rowOps, hrows, hhalf, hstart, CurrentBuffer.row, CurrentBuffer.rowBytes,
      CurrentBuffer.rowEnd, hdata, hsel]
  simp only [picture, hb, hb', Option.bind_eq_bind, Option.bind_some, hbytes, hrows, frameCells,
    hops]

/-- A view that is shown is shown as long as nothing that matters changes. -/
theorem Views.unchanged (hv : v.Views b) (hs : v.Shows G d) (hb' : v'.current = some b')
    (hsnapshot : b'.snapshot = b.snapshot) (hsize : v'.size = v.size)
    (hstart : v'.startOffset = v.startOffset) (hline : v'.bytesPerLine = v.bytesPerLine)
    (hhalf : v'.mode.hasHalfCursor = v.mode.hasHalfCursor) : v'.Views b' ∧ v'.Shows G d := by
  obtain ⟨hdata, hsel⟩ := Prod.mk.inj hsnapshot
  constructor
  · exact
      { hv.toFramed.of_eq hline hsize hstart with
        current := hb'
        within := ⟨hsel ▸ hv.within.valid, by rw [hsel, hdata]; exact hv.within.inBounds⟩
        length := hdata ▸ hv.length
        start := by rw [hstart, hdata]; exact hv.start }
  · obtain ⟨rows, hp, hrows⟩ := hs.rows
    refine ⟨hs.toFits.of_size hsize, rows, ?_, by rw [hsize]; exact hrows⟩
    rw [picture_congr hv.current hb' hsnapshot hsize hstart hline hhalf]
    exact hp

/-- A view that can be drawn from an offset in the data. -/
theorem Shown.views (h : v.Shown) (hstart : ∀ b ∈ v.current, v.startOffset ≤ b.data.length) :
    ∃ b, v.Views b := by
  obtain ⟨b, hb, hw, hlen⟩ := h.buffer
  exact ⟨b, { h.toFramed with current := hb, within := hw, length := hlen, start := hstart b hb }⟩

/-! ## Changes of the length -/

/-- After a change of the length everything is drawn. -/
theorem shows_changeLength (hf : v.Framed) (hb : v.current = some b) (hw : b.SelectsWithin)
    (hline : v'.StatusFits) (hrounds : 5 ≤ G.rounds) (hfits : v.Fits c.display)
    (h : (Console.painter G).transitionDirtyBytes fs height v .changeLength c = some (v', c'))
    (ht : v'.trims = v.trims)
    (hlen : ∀ b ∈ v'.current, b.data.length < 2 ^ 63) :
    (∃ b', v'.Views b') ∧ v'.Shows G c'.display := by
  have hdraw : v.maybeUpdateOffsetAndDraw fs = some v' :=
    Console.simulation.maybeUpdateOffsetAndDraw (Console.painter G) fs v c v' c' h
  have hshown := shown_maybeUpdateOffsetAndDraw hf hb hw ht hlen hdraw
  have hmoved : v.transitionDirtyBytes fs 0 .changeLength = some v' := hdraw
  have hframe := (SameFrame.steps fs 0).transitionDirtyBytes hmoved
  obtain ⟨chunk, hb'⟩ := ((Appends.steps fs 0).transitionDirtyBytes hmoved).current ht b hb
  obtain ⟨main, hm, hmem⟩ := hw.exists_main
  have hin := (hw.inBounds main hmem).1
  have hlen' := hlen _ hb'
  rw [List.length_append] at hlen'
  have hfive := hf.five
  obtain ⟨o, ho, -, hle, -⟩ := maybeUpdateOffsetAndDraw_eq hb hm hf.bytesPerLine hf.word hf.aligned
    (by omega) (by omega) fs
  rw [ho] at hdraw
  have hstart : v'.startOffset = o := startOffset_draw hdraw
  obtain ⟨b', hv'⟩ := hshown.views fun b₁ hb₁ ↦ by
    obtain rfl := Option.some.inj (hb'.symm.trans hb₁)
    simp only [List.length_append]
    omega
  obtain ⟨startOffset, h⟩ := Console.changeLength_eq_some h
  exact ⟨⟨b', hv'⟩, hv'.shows_draw_run hline hrounds h (hfits.of_size hframe.size)⟩

/-! ## Scrolling with the cursors -/

/-- Scrolling leaves the size of the terminal and the default background. -/
theorem Views.fits_scrollUp (hv : v₁.Views b) (hline : v₁.StatusFits) (hrounds : 5 ≤ G.rounds)
    {n : Nat} (hfits : v.Fits c.display) (hword : v.size.2 + 5 ≤ 2 ^ 16)
    (h : (Console.painter G).scrollUp fs v n c = some (v₁, c₁)) : v₁.Fits c₁.display := by
  rw [Console.scrollUp_run] at h
  split at h
  · obtain ⟨rfl, rfl⟩ := Prod.mk.inj (Option.some.inj h)
    exact hfits
  · simp only at h
    split at h
    · have hframe := (SameFrame.steps fs 0).draw (Console.draw_eq_some h).1
      exact (hv.shows_draw_run hline hrounds h (hfits.of_size hframe.size)).toFits
    · next hfew =>
      obtain ⟨hd, ops, hops, rfl⟩ := Console.drawRows_eq_some h
      have hframe := (SameFrame.steps fs 0).draw hd
      have hsize : v₁.size = v.size := hframe.size
      have hmod : (n + BytePropertiesFormatter.height) % 2 ^ 16 = n + 5 :=
        Nat.mod_eq_of_lt (show n + 5 < 2 ^ 16 by have := hv.five; rw [hsize] at this; omega)
      rw [hmod] at hops
      exact (hv.run_drawRows hrounds
        (d := c.display.run [.scrollDown n, .moveTo 0 (v.size.2 - 1), .clearCurrentLine])
        (fun k hk ↦ List.mem_range.mpr (by omega)) hops
        ((hfits.of_size hsize).run fun _ hb ↦ hb)).1

private theorem Views.fits_scrollDown (hv : v₁.Views b) (hline : v₁.StatusFits)
    (hrounds : 5 ≤ G.rounds)
    {n : Nat} (hfits : v.Fits c.display)
    (h : (Console.painter G).scrollDown fs height v n c = some (v₁, c₁)) : v₁.Fits c₁.display := by
  rw [Console.scrollDown_run] at h
  obtain ⟨⟨v₂, goesOn⟩, hl, h⟩ := Option.bind_eq_some_iff.mp h
  obtain ⟨b₂, hb₂, h⟩ := Option.bind_eq_some_iff.mp h
  have hsize₂ : v₂.size = v.size := ((SameFrame.steps fs height).loadForScroll hl).size
  split at h
  · obtain ⟨rfl, rfl⟩ := Prod.mk.inj (Option.some.inj h)
    exact hfits.of_size hsize₂
  · simp only at h
    split at h
    · have hframe := (SameFrame.steps fs 0).draw (Console.draw_eq_some h).1
      exact (hv.shows_draw_run hline hrounds h (hfits.of_size (hframe.size.trans hsize₂))).toFits
    · obtain ⟨hd, ops, hops, rfl⟩ := Console.drawRows_eq_some h
      have hframe := (SameFrame.steps fs 0).draw hd
      have hsize : v₁.size = v.size := hframe.size.trans hsize₂
      exact (hv.run_drawRows hrounds
        (d := c.display.run [.scrollUp n, .moveTo 0 (v₂.size.2 - 2), .clearCurrentLine])
        (fun k hk ↦ List.mem_append_right _ (List.mem_range.mpr hk)) hops
        ((hfits.of_size hsize).run fun _ hb ↦ hb)).1

private theorem Appends.length_lt (ha : Appends v v') (ht : v'.trims = v.trims)
    (hlen : ∀ b ∈ v'.current, b.data.length < 2 ^ 63) :
    ∀ b ∈ v.current, b.data.length < 2 ^ 63 := by
  intro b hb
  obtain ⟨chunk, hb'⟩ := ha.current ht b hb
  have := hlen _ hb'
  rw [List.length_append] at this
  omega

/-- More data behind the end, seen from another offset in it. -/
theorem Views.appended (hv : v.Views b) (ha : Appends v v') (ht : v'.trims = v.trims)
    (hframe : SameFrame v v') (hlen : ∀ b ∈ v'.current, b.data.length < 2 ^ 63)
    (haligned : 16 ∣ v'.startOffset)
    (hstart : ∀ b ∈ v'.current, v'.startOffset ≤ b.data.length) : ∃ b', v'.Views b' := by
  obtain ⟨chunk, hb'⟩ := ha.current ht b hv.current
  exact ⟨_, { hv.toScreen.of_sameFrame hframe with
    aligned := haligned
    near := Nat.lt_of_le_of_lt (hstart _ hb') (hlen _ hb')
    current := hb'
    within := hv.within.append chunk
    length := hlen _ hb'
    start := hstart _ hb' }⟩

private theorem Views.appended_of_le (hv : v.Views b) (ha : Appends v v') (ht : v'.trims = v.trims)
    (hframe : SameFrame v v') (hlen : ∀ b ∈ v'.current, b.data.length < 2 ^ 63)
    (haligned : 16 ∣ v'.startOffset) (hle : v'.startOffset ≤ v.startOffset) :
    ∃ b', v'.Views b' := by
  refine hv.appended ha ht hframe hlen haligned fun b' hb' ↦ ?_
  obtain ⟨chunk, hb₁⟩ := ha.current ht b hv.current
  obtain rfl := Option.some.inj (hb₁.symm.trans hb')
  have := hv.start
  simp only [List.length_append]
  omega

private theorem Views.draw (hv : v.Views b) (h : v.draw fs = some v')
    (hlen : ∀ b ∈ v'.current, b.data.length < 2 ^ 63) : ∃ b', v'.Views b' := by
  have hstart := startOffset_draw h
  exact hv.appended_of_le ((Appends.steps fs 0).draw h) (trims_draw h)
    ((SameFrame.steps fs 0).draw h) hlen (hstart ▸ hv.aligned) (Nat.le_of_eq hstart)

private theorem Views.load (hv : v.Views b) {n : Nat} {loaded : Bool}
    (h : v.loadNextChunk fs n = some (v', loaded))
    (hlen : ∀ b ∈ v'.current, b.data.length < 2 ^ 63) : ∃ b', v'.Views b' := by
  obtain ⟨-, -, -, hstart, ht⟩ := exists_of_loadNextChunk hv.current h
  exact hv.appended_of_le ((Appends.steps fs 0).load h) ht ((SameFrame.steps fs 0).load h) hlen
    (hstart ▸ hv.aligned) (Nat.le_of_eq hstart)

/-- All regions become cursors. -/
theorem Views.moveCursors (hv : v.Views b) {direction : Direction}
    (h : v.moveCursors direction = some v') :
    (∃ b', v'.Views b') ∧ v'.size = v.size ∧ v'.trims = v.trims := by
  obtain ⟨selection, rfl, hcursors⟩ := exists_of_moveCursors hv.bytesPerLine hv.current hv.within h
  refine ⟨⟨{ b with selection }, ?_⟩, rfl, rfl⟩
  exact { hv.toFramed.of_eq rfl rfl rfl with
    current := current_setCurrent hv.current _
    within := (hcursors hv.length).1
    length := hv.length
    start := hv.start }

private theorem Views.scrollUp (hv : v.Views b) (h : v.scrollUp fs 1 = some v')
    (hlen : ∀ b ∈ v'.current, b.data.length < 2 ^ 63) : ∃ b', v'.Views b' := by
  have hstart := startOffset_scrollUp h
  have haligned := hv.aligned
  rw [show usizeMul 16 1 = 16 from rfl] at hstart
  refine hv.appended_of_le ((Appends.steps fs 0).scrollUp h) (trims_scrollUp h)
    ((SameFrame.steps fs 0).scrollUp h) hlen ?_ ?_
  · rw [hstart]
    split <;> omega
  · rw [hstart]
    split <;> omega

private theorem Views.scrollDown (hv : v.Views b) (h : v.scrollDown fs height 1 = some v')
    (ht : v'.trims = v.trims) (hlen : ∀ b ∈ v'.current, b.data.length < 2 ^ 63) :
    ∃ b', v'.Views b' := by
  obtain ⟨b₁, chunk, hb₁, hle, -, hstart⟩ := exists_of_scrollDown hv.current h ht
  have hnear := hv.near
  have haligned := hv.aligned
  have hin := hv.start
  have hnext : v.nextPosition 1 = v.startOffset + 16 :=
    usizeAdd_of_lt (show v.startOffset + 16 < 2 ^ 64 by omega)
  rw [hnext] at hstart
  rw [List.length_append] at hle hstart
  refine hv.appended ((Appends.steps fs height).scrollDown h) ht
    ((SameFrame.steps fs height).scrollDown h) hlen ?_ fun b' hb' ↦ ?_
  · rw [hstart]
    split <;> omega
  · obtain rfl := Option.some.inj (hb₁.symm.trans hb')
    split at hstart <;> omega

/-- CTRL-e and CTRL-y draw everything in the end. -/
theorem shows_scrollKey (hv : v.Views b) (hs : v.Shows G c.display) (hline : v'.StatusFits)
    (hrounds : 5 ≤ G.rounds) (hword : v.size.2 + 5 ≤ 2 ^ 16) {key : KeyEvent}
    (h : (Console.painter G).handleEventDefault fs height v (.key key) c = some (v', c'))
    (ht : v'.trims = v.trims)
    (hlen : ∀ b ∈ v'.current, b.data.length < 2 ^ 63) :
    (∃ b', v'.Views b') ∧ v'.size = v.size ∧ v'.Shows G c'.display := by
  have ha := Appends.steps (X := X) fs height
  have hother (heq : some (v, c) = some (v', c')) :
      (∃ b', v'.Views b') ∧ v'.size = v.size ∧ v'.Shows G c'.display := by
    obtain ⟨rfl, rfl⟩ := Prod.mk.inj (Option.some.inj heq)
    exact ⟨⟨b, hv⟩, rfl, hs⟩
  cases hkey : Session.scrollKey key with
  | none =>
    simp only [Painter.handleEventDefault, hkey] at h
    exact hother h
  | some direction =>
    cases direction with
    | left | right =>
      simp only [Painter.handleEventDefault, hkey] at h
      exact hother h
    | up =>
      simp only [Painter.handleEventDefault, hkey, Console.lift_bind] at h
      obtain ⟨v₁, hm, h⟩ := Option.bind_eq_some_iff.mp h
      obtain ⟨v₂, c₂, hu, h⟩ := Console.bind_eq_some h
      have hscroll := Console.simulation.scrollUp (Console.painter G) fs v₁ 1 c v₂ c₂ hu
      have hdraw := (Console.draw_eq_some h).1
      obtain ⟨⟨b₁, hv₁⟩, hsize₁, -⟩ := hv.moveCursors hm
      obtain ⟨b₂, hv₂⟩ := hv₁.scrollUp hscroll ((ha.draw hdraw).length_lt (trims_draw hdraw) hlen)
      obtain ⟨b', hv'⟩ := hv₂.draw hdraw hlen
      have hfits := hv₂.fits_scrollUp (hline.of_draw hdraw) hrounds (hs.toFits.of_size hsize₁)
        (by rw [hsize₁]; exact hword) hu
      have hsize' := ((SameFrame.steps fs height).draw hdraw).size
      have hsize₂ := ((SameFrame.steps fs height).scrollUp hscroll).size
      exact ⟨⟨b', hv'⟩, hsize'.trans (hsize₂.trans hsize₁),
        hv'.shows_draw_run hline hrounds h (hfits.of_size hsize')⟩
    | down =>
      simp only [Painter.handleEventDefault, hkey, Console.lift_bind] at h
      obtain ⟨⟨v₁, loaded⟩, hl, h⟩ := Option.bind_eq_some_iff.mp h
      obtain ⟨v₂, hm, h⟩ := Option.bind_eq_some_iff.mp h
      obtain ⟨v₃, c₃, hd, h⟩ := Console.bind_eq_some h
      have hscroll := Console.simulation.scrollDown (Console.painter G) fs height v₂ 1 c v₃ c₃ hd
      have hdraw := (Console.draw_eq_some h).1
      obtain ⟨chunk, hb₁, -, -, ht₁⟩ := exists_of_loadNextChunk hv.current hl
      have ht₃ : v'.trims = v₃.trims := trims_draw hdraw
      have hlen₃ := (ha.draw hdraw).length_lt ht₃ hlen
      obtain ⟨selection, hv₂, -⟩ := exists_of_moveCursors
        (((SameFrame.steps fs height).load hl).bytesPerLine.trans hv.bytesPerLine) hb₁
        (hv.within.append chunk) hm
      have ht₂ : v₃.trims = v₂.trims := by
        rw [← ht₃, ht, ← ht₁, hv₂]
        rfl
      have hlen₁ : ∀ b ∈ v₁.current, b.data.length < 2 ^ 63 := by
        intro b₁ hb
        obtain rfl := Option.some.inj (hb₁.symm.trans hb)
        exact (ha.scrollDown hscroll).length_lt ht₂ hlen₃
          { b with data := b.data ++ chunk, selection }
          (by rw [hv₂]; exact current_setCurrent hb₁ _)
      obtain ⟨b₁, hv₁⟩ := hv.load hl hlen₁
      obtain ⟨⟨b₂, hviews₂⟩, hsize₂, -⟩ := hv₁.moveCursors hm
      obtain ⟨b₃, hv₃⟩ := hviews₂.scrollDown hscroll ht₂ hlen₃
      obtain ⟨b', hv'⟩ := hv₃.draw hdraw hlen
      have hsize₁ : v₂.size = v.size := hsize₂.trans ((SameFrame.steps fs height).load hl).size
      have hfits := hv₃.fits_scrollDown (hline.of_draw hdraw) hrounds
        (hs.toFits.of_size hsize₁) hd
      have hsize' := ((SameFrame.steps fs height).draw hdraw).size
      have hsize₃ := ((SameFrame.steps fs height).scrollDown hscroll).size
      exact ⟨⟨b', hv'⟩, hsize'.trans (hsize₃.trans hsize₁),
        hv'.shows_draw_run hline hrounds h (hfits.of_size hsize')⟩

/-! ## Events -/

/-- What a transition does on the terminal. -/
theorem transition_run_cases {t : ModeTransition}
    (h : (Console.painter G).transition fs height v t c = some (v', c')) :
    (t.report = none ∧ ∃ info, v' = { v with info, mode := t.mode v.mode } ∧ c' = c) ∨
      ∃ dirty, t.report = some dirty ∧
        (Console.painter G).transitionDirtyBytes fs height
          { v with info := none, mode := t.mode v.mode } dirty c = some (v', c') := by
  cases t with
  | none | newMode | modeAndInfo =>
    obtain ⟨rfl, rfl⟩ := Prod.mk.inj (Option.some.inj h)
    exact .inl ⟨rfl, _, rfl, rfl⟩
  | dirtyBytes dirty => exact .inr ⟨dirty, rfl, h⟩
  | modeAndDirtyBytes mode dirty => exact .inr ⟨dirty, rfl, h⟩

/-- A resize draws everything, on a terminal that showed anything. -/
theorem shows_resize (hv : v.Views b) (hbg : c.display.brush.background = .reset)
    (hline : v'.StatusFits) (hrounds : 5 ≤ G.rounds) {width rows : Nat} (hwide : frameWidth < width)
    (hfive : 5 ≤ rows) (hword : rows < 2 ^ 16)
    (h : (Console.painter G).handleEventDefault fs height v (.resize width rows) c = some (v', c'))
    (hlen : ∀ b ∈ v'.current, b.data.length < 2 ^ 63) :
    (∃ b', v'.Views b') ∧ v'.size = (width, rows) ∧ v'.Shows G c'.display := by
  have h : (Console.painter G).draw fs { v with size := (width, rows) }
      { c with display := { c.display with width, height := rows } } = some (v', c') := h
  have hdraw := (Console.draw_eq_some h).1
  have hv₁ : Views { v with size := (width, rows) } b :=
    { hv with five := hfive, word := hword }
  obtain ⟨b', hv'⟩ := hv₁.draw hdraw hlen
  have hsize : v'.size = (width, rows) := ((SameFrame.steps fs height).draw hdraw).size
  exact ⟨⟨b', hv'⟩, hsize, hv'.shows_draw_run hline hrounds h
    ⟨by rw [hsize], by rw [hsize], by rw [hsize]; exact hwide, hbg⟩⟩

end HexView

/-! ## Runs -/

/-- The length of the data has not changed. -/
def DirtyBytes.isInPlace : DirtyBytes → Bool
  | .changeInPlace _ => true
  | .changeLength => false

namespace Editor

/-- The bytes that are reported for an event. -/
def reports (E : SearchEngine) (evt : Event) (e : Editor X) : Option DirtyBytes :=
  ((e.view.mode.transition E evt { fs := e.fs, buffers := e.view.buffrCollection }
    e.view.bytesPerLine).bind id).bind fun p ↦ p.1.report

/-- When rows are drawn after a change in place, no row that had a line about the current bytes
was scrolled behind the data, and nothing was loaded unless the view was scrolled down. -/
def ScrollsClean (E : SearchEngine) (input : Nat × Event) (e : Editor X) : Prop :=
  (e.reports E input.2).any DirtyBytes.isInPlace = true →
    ∀ e' ∈ e.stepAt E input, ∀ b ∈ e.handedOver E input.2,
      (e'.view.startOffset < e.view.startOffset → e.view.startOffset + 64 ≤ b.data.length) ∧
      (e'.view.startOffset ≤ e.view.startOffset →
        ∀ b' ∈ e'.view.current, b'.data.length = b.data.length)

/-- A resize leaves lines that every row fits in, and a number of rows that five can be added
to. -/
def Roomy : Event → Prop
  | .resize width height => HexView.frameWidth < width ∧ height + 5 ≤ 0x10000
  | _ => True

instance : DecidablePred Roomy
  | .resize width height =>
    inferInstanceAs (Decidable (HexView.frameWidth < width ∧ height + 5 ≤ 0x10000))
  | .key _ | .mouse => inferInstanceAs (Decidable True)

/-- No half byte is forgotten on the screen, and nothing is selected behind the bytes when
everything is selected. -/
def SelectsClean (evt : Event) (e : Editor X) : Prop :=
  e.view.mode.dropsHalf evt = false ∧
    (e.view.mode.selectsAll evt = true → ∀ b ∈ e.view.current, b.SelectAllShown)

/-- What drawing only what is reported relies on, on a terminal with room for the rows and for
the status line. -/
structure DrawsClean (E : SearchEngine) (input : Nat × Event) (e : Editor X) : Prop where
  size : Roomy input.2
  selects : e.SelectsClean input.2
  scrolls : e.ScrollsClean E input
  status : ∀ e' ∈ e.stepAt E input, e'.view.StatusFits

instance (E : SearchEngine) (input : Nat × Event) (e : Editor X) :
    Decidable (e.ScrollsClean E input) :=
  inferInstanceAs (Decidable (_ → ∀ e' ∈ e.stepAt E input, ∀ b ∈ e.handedOver E input.2, _ ∧ _))

instance (evt : Event) (e : Editor X) : Decidable (e.SelectsClean evt) :=
  inferInstanceAs (Decidable (_ ∧ (_ → ∀ b ∈ e.view.current, b.SelectAllShown)))

instance (E : SearchEngine) (input : Nat × Event) (e : Editor X) :
    Decidable (e.DrawsClean E input) :=
  decidable_of_iff (Roomy input.2 ∧ e.SelectsClean input.2 ∧ e.ScrollsClean E input ∧
      ∀ e' ∈ e.stepAt E input, e'.view.StatusFits)
    ⟨fun h ↦ ⟨h.1, h.2.1, h.2.2.1, h.2.2.2⟩, fun h ↦ ⟨h.size, h.selects, h.scrolls, h.status⟩⟩

end Editor

namespace Running

variable {G : DrawEnv} {E : SearchEngine} {input : Nat × Event} {s s' : Running X}

/-- The terminal shows the view. -/
structure Faithful (G : DrawEnv) (s : Running X) : Prop where
  views : ∃ b, s.editor.view.Views b
  rows : s.editor.view.size.2 + 5 ≤ 0x10000
  shows : s.editor.view.Shows G s.console.display

/-- An event that the mode handles. -/
theorem Faithful.transition (hs : s.Faithful G) (hrounds : 5 ≤ G.rounds)
    (hd : s.editor.InDomain E input) (hvalid : s.editor.HandsOverValid E input)
    (hc : s.editor.DrawsClean E input) (hstep : s.editor.stepAt E input = some s'.editor)
    {t : ModeTransition} {ws : Workspace X} {c : Console}
    (ho : s.editor.view.mode.transition E input.2
      { fs := s.editor.fs, buffers := s.editor.view.buffrCollection }
      s.editor.view.bytesPerLine = some (some (t, ws)))
    (hview : (Console.painter G).transition ws.fs input.1
      { s.editor.view with buffrCollection := ws.buffers } t s.console =
        some (s'.editor.view, c)) :
    (∃ b, s'.editor.view.Views b) ∧ s'.editor.view.size = s.editor.view.size ∧
      s'.editor.view.Shows G c.display := by
  obtain ⟨b, hv⟩ := hs.views
  have hover : s.editor.handedOver E input.2 = ws.buffers.current := Editor.handedOver_of_some ho
  have hw' : ∀ b' ∈ ws.buffers.current, b'.SelectsWithin := fun b' hb' ↦
    ⟨hvalid b' (hover ▸ hb'), hd.inBounds b' (hover ▸ hb')⟩
  have ht := hd.trims _ hstep
  have hlen := hd.length _ hstep
  have hline := hc.status _ hstep
  have hb : ({ fs := s.editor.fs, buffers := s.editor.view.buffrCollection } :
      Workspace X).buffers.current = some b := hv.current
  have hcases := Mode.transition_cases hv.length hv.within hb
    hc.selects.1 (fun hall ↦ hc.selects.2 hall b hv.current) hw' ho
  rcases HexView.transition_run_cases hview with ⟨hr, info, hv', rfl⟩ | ⟨dirty, hr, hdirty⟩
  · rw [hr] at hcases
    obtain ⟨b', hb', hhalf, hsame⟩ := hcases.resolve_left (by simp)
    obtain ⟨-, hsnapshot⟩ := hsame.resolve_right (by simp)
    have hcurrent : s'.editor.view.current = some b' := by
      rw [hv']
      exact hb'
    obtain ⟨hviews, hshows⟩ := hv.unchanged hs.shows hcurrent hsnapshot (by rw [hv'])
      (by rw [hv']) (by rw [hv']) (by rw [hv']; exact hhalf)
    exact ⟨⟨b', hviews⟩, by rw [hv'], hshows⟩
  · have hsize : s'.editor.view.size = s.editor.view.size :=
      ((HexView.SameFrame.steps ws.fs input.1).transitionDirtyBytes
        (Console.simulation.transitionDirtyBytes (Console.painter G) _ _ _ _ _ _ _ hdirty)).size
    have hframed : HexView.Framed { s.editor.view with
        buffrCollection := ws.buffers, info := none, mode := t.mode s.editor.view.mode } :=
      hv.toFramed.of_eq rfl rfl rfl
    cases dirty with
    | changeLength =>
      have hchange : HexView.transitionDirtyBytes ws.fs input.1 _ .changeLength = some _ :=
        Console.simulation.transitionDirtyBytes (Console.painter G) _ _ _ _ _ _ _ hdirty
      obtain ⟨b', hb', -⟩ := Option.bind_eq_some_iff.mp hchange
      obtain ⟨hviews, hshows⟩ := HexView.shows_changeLength hframed hb' (hw' b' hb') hline
        hrounds (hs.shows.toFits.of_size rfl) hdirty ht hlen
      exact ⟨hviews, hsize, hshows⟩
    | changeInPlace intervals =>
      rw [hr] at hcases
      obtain ⟨b', hb', hhalf, hsame⟩ := hcases.resolve_left (by simp)
      obtain ⟨intervals', heq, hrep⟩ := hsame.resolve_left (by simp)
      obtain rfl : intervals = intervals' := by simpa using heq
      have hreports : s.editor.reports E input.2 = some (.changeInPlace intervals) := by
        rw [Editor.reports, ho]
        exact hr
      obtain ⟨hup, hload⟩ := hc.scrolls (by rw [hreports]; rfl) _ hstep b' (hover ▸ hb')
      obtain ⟨hviews, hshows⟩ := hv.shows_inPlace hs.shows
        { hframed with
          current := hb'
          within := hw' b' hb'
          length := by rw [hrep.length]; exact hv.length
          start := by rw [hrep.length]; exact hv.start }
        rfl rfl hhalf hrep hline hrounds hs.rows hdirty ht hlen hup hload
      exact ⟨hviews, hsize, hshows⟩

/-- A round of the event loop keeps the terminal in step with the view. -/
theorem Faithful.step (hs : s.Faithful G) (hrounds : 5 ≤ G.rounds)
    (hd : s.editor.InDomain E input) (hvalid : s.editor.HandsOverValid E input)
    (hc : s.editor.DrawsClean E input) (h : s.step G E input = some s') : s'.Faithful G := by
  obtain ⟨hstep, c, hdrawn, hcases⟩ := step_cases h
  have hline := hc.status _ hstep
  rcases hcases with ⟨t, ws, ho, hview⟩ | ⟨ho, hview⟩
  · obtain ⟨hviews, hsize, hshows⟩ := hs.transition hrounds hd hvalid hc hstep ho hview
    obtain ⟨b, hv⟩ := hviews
    exact ⟨⟨b, hv⟩, by rw [hsize]; exact hs.rows, hv.shows_drawStatuslineOn hline hshows hdrawn⟩
  · obtain ⟨b, hv⟩ := hs.views
    have ht := hd.trims _ hstep
    have hlen := hd.length _ hstep
    obtain ⟨height, evt⟩ := input
    cases evt with
    | mouse =>
      obtain ⟨hv', rfl⟩ := Prod.mk.inj (Option.some.inj hview)
      exact ⟨hv' ▸ hs.views, hv' ▸ hs.rows,
        (show s'.editor.view.Views b from hv' ▸ hv).shows_drawStatuslineOn hline (hv' ▸ hs.shows)
          hdrawn⟩
    | resize width rows =>
      obtain ⟨⟨b', hv'⟩, hsize, hshows⟩ := HexView.shows_resize hv hs.shows.background hline hrounds
        hc.size.1 hd.height.1 hd.height.2 hview hlen
      exact ⟨⟨b', hv'⟩, by rw [hsize]; exact hc.size.2,
        hv'.shows_drawStatuslineOn hline hshows hdrawn⟩
    | key key =>
      obtain ⟨⟨b', hv'⟩, hsize, hshows⟩ :=
        HexView.shows_scrollKey hv hs.shows hline hrounds hs.rows hview ht hlen
      exact ⟨⟨b', hv'⟩, by rw [hsize]; exact hs.rows,
        hv'.shows_drawStatuslineOn hline hshows hdrawn⟩

/-- The first drawing. -/
theorem faithful_started {fs : FileSystem} {filename : Option Path} {size : Nat × Nat} {c : Console}
    (hrounds : 5 ≤ G.rounds) (hwide : HexView.frameWidth < size.1) (hfive : 5 ≤ size.2)
    (hrows : size.2 + 5 ≤ 0x10000) (hsize₀ : (c.display.width, c.display.height) = size)
    (hbg : c.display.brush.background = .reset) (h : started G fs filename size c = some s)
    (hline : s.editor.view.StatusFits) : s.Faithful G := by
  obtain ⟨buffers, hb, hd, -⟩ := started_eq_some h
  obtain ⟨b, rfl, hsel, hle⟩ := Editor.exists_of_initialBuffers hb
  have hdraw := (Console.draw_eq_some hd).1
  have hsmall : b.data.length + 64 < 2 ^ 63 := by
    unfold chunkSize at hle
    omega
  have hv : (HexView.withBuffrCollection (.withCurrentBuffer b) size).Views b :=
    { bytesPerLine := rfl
      five := hfive
      word := by simp only [HexView.withBuffrCollection]; omega
      aligned := ⟨0, rfl⟩
      near := Nat.two_pow_pos 63
      current := rfl
      within := ⟨hsel ▸ Selection.valid_new, by
        rw [hsel]
        intro r hr
        obtain rfl := List.mem_singleton.mp hr
        exact ⟨Nat.zero_le _, Nat.zero_le _⟩⟩
      length := by omega
      start := Nat.zero_le _ }
  obtain ⟨b', hv'⟩ := hv.draw hdraw fun b' hb' ↦
    Nat.lt_of_le_of_lt (HexView.length_draw hv.current hdraw b' hb') hsmall
  have hsize : s.editor.view.size = size := ((HexView.SameFrame.steps fs 0).draw hdraw).size
  exact ⟨⟨b', hv'⟩, by rw [hsize]; exact hrows, hv'.shows_draw_run hline hrounds hd
    ⟨by rw [hsize, ← hsize₀], by rw [hsize, ← hsize₀], by rw [hsize]; exact hwide, hbg⟩⟩

/-- What drawing everything would leave on the rows of the view is there. -/
def ShowsFull (G : DrawEnv) (s : Running X) : Prop :=
  ∃ ops, s.editor.view.printFrame G none = some ops ∧
    ∀ d : Display Color, s.editor.view.Fits d →
      ∀ k < s.editor.view.size.2 - 1, s.console.display.lines k = (d.run ops).lines k

private theorem Faithful.showsFull (hs : s.Faithful G) (hrounds : 5 ≤ G.rounds) :
    s.ShowsFull G := by
  obtain ⟨b, hv⟩ := hs.views
  obtain ⟨rows, hp, hrows⟩ := hs.shows.rows
  have hp₁ : s.editor.view.picture G = some rows := hp
  rw [HexView.picture, hv.current, Option.bind_eq_bind, Option.bind_some] at hp₁
  obtain ⟨currentBytes, hbytes, -⟩ := Option.bind_eq_some_iff.mp hp₁
  have hops : s.editor.view.printFrame G none = some _ :=
    HexView.printFrame_eq hv hbytes hrounds fun _ _ ↦ rfl
  refine ⟨_, hops, fun d hd k hk ↦ ?_⟩
  obtain ⟨rows', hp', hrows'⟩ := (hv.shows_draw hrounds hops hd).rows
  obtain rfl : rows = rows' := Option.some.inj (hp.symm.trans hp')
  rw [hrows k hk, hrows' k hk]

-- A blank terminal of eight rows.
private def eightRows : Console :=
  { display :=
      { width := 160
        height := 8
        lines := fun _ _ ↦ .blank .reset
        column := 0
        row := 0
        brush := ⟨.reset, .reset⟩ }
    lastVisiblePromptCol := 0 }

-- A file of two hundred bytes.
private def twoHundredBytes : FileSystem := .single ['f'] ((List.range 200).map Nat.toUInt8)

-- A selection that scrolls, `;`, a deletion and a resize.
private def mixedEvents : List (Nat × Event) :=
  [(8, .key (.plain (.char '9'))), (8, .key (.plain (.char 'J'))), (8, .key (.plain (.char ';'))),
    (8, .key (.plain (.char 'd'))), (8, .key (.plain (.char 'k'))), (9, .resize 150 9)]

end Running

end Tofu

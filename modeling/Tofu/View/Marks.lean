import Tofu.Modes.HexByte
import Tofu.Selection.InRange
import Tofu.View.HexView
import Tofu.View.Styles

/-!
# Highlighting

`HexView::mark_commands` (`src/src/hex_view/view.rs:964–1048`) walks over the visible
offsets with the regions still ahead and a stack of styles, and gives every offset a
styling command. A command says only what changes at its byte: elsewhere the background is
that of the byte before, so the commands are right only when replayed along a row.
-/

namespace Tofu

open Rope

/-! ## Styles of the view -/

/-- `view.rs:904–911`. -/
def defaultStyle : PrioritizedStyle :=
  { style := { foregroundColor := some .white, backgroundColor := some .reset }
    priority := .basic }

/-- `view.rs:913–924`. -/
def activeSelectionStyle : PrioritizedStyle :=
  { style := { foregroundColor := some .black, backgroundColor := some (.rgb 110 97 16) }
    priority := .selection }

/-- `view.rs:926–933`. -/
def inactiveSelectionStyle : PrioritizedStyle :=
  { style := { foregroundColor := some .black, backgroundColor := some .darkGrey }
    priority := .selection }

/-- `view.rs:935–946`. -/
def activeCaretStyle : PrioritizedStyle :=
  { style := { foregroundColor := some (.ansiValue 16), backgroundColor := some (.rgb 107 108 128) }
    priority := .cursor }

/-- `view.rs:948–955`. -/
def inactiveCaretStyle : PrioritizedStyle :=
  { style := { foregroundColor := some .black, backgroundColor := some .darkGrey }
    priority := .cursor }

/-- The style of the bytes of a region, `view.rs:976–980`. -/
def SelRegion.selectionStyle (r : SelRegion) : PrioritizedStyle :=
  if r.isMain then activeSelectionStyle else inactiveSelectionStyle

/-- That of its caret, `view.rs:999–1003`. -/
def SelRegion.caretStyle (r : SelRegion) : PrioritizedStyle :=
  if r.isMain then activeCaretStyle else inactiveCaretStyle

/-! ## The commands -/

/-- The command of a caret, `view.rs:997–1020`. -/
def markCaret (halfCursor : Bool) (i : Nat) (region : SelRegion) (cmd : StylingCommand)
    (baseStyle : PrioritizedStyle) : StylingCommand :=
  let caretStyle := region.caretStyle
  if halfCursor then
    if i = region.min then (cmd.withMidStyle caretStyle).withEndStyle baseStyle
    else (cmd.withStartStyle baseStyle).withMidStyle caretStyle
  else (cmd.withStartStyle caretStyle).withEndStyle baseStyle

/-- The first region ahead, at offset `i`: `view.rs:985–1027`. The top of the stack comes
first. -/
def markRegion (halfCursor : Bool) (i : Nat) (region : SelRegion) (cmd : StylingCommand)
    (commandStack : List PrioritizedStyle) :
    Option (StylingCommand × List PrioritizedStyle) := do
  let (cmd, commandStack) :=
    if region.min = i then
      (cmd.withStartStyle region.selectionStyle, region.selectionStyle :: commandStack)
    else (cmd, commandStack)
  let cmd ←
    if region.caret = i then commandStack.head?.map (markCaret halfCursor i region cmd)
    else some cmd
  let cmd ← if region.max = i then commandStack[1]?.map cmd.withEndStyle else some cmd
  some (cmd, commandStack)

/-- Starts and ends of lines, `view.rs:1030–1040`. -/
def markLine (bytesPerLine i : Nat) (cmd : StylingCommand)
    (commandStack : List PrioritizedStyle) : Option StylingCommand :=
  if bytesPerLine = 0 then none
  else if i % bytesPerLine = 0 ∧ cmd.startStyle.isNone then
    commandStack.head?.map cmd.withStartStyle
  else if (i + 1) % bytesPerLine = 0 then some (cmd.withEndStyle defaultStyle)
  else some cmd

/-- The command of offset `i`, and the regions ahead and the stack after it. -/
def markCell (bytesPerLine : Nat) (halfCursor : Bool) (i : Nat) (cmd : StylingCommand)
    (selectedRegions : List SelRegion) (commandStack : List PrioritizedStyle) :
    Option (StylingCommand × List SelRegion × List PrioritizedStyle) :=
  match selectedRegions with
  | [] => (markLine bytesPerLine i cmd commandStack).map fun cmd ↦ (cmd, [], commandStack)
  | region :: regions => do
    let (cmd, commandStack) ← markRegion halfCursor i region cmd commandStack
    let cmd ← markLine bytesPerLine i cmd commandStack
    some (if region.max = i then (cmd, regions, commandStack.tail)
      else (cmd, region :: regions, commandStack))

/-- What the loop over the visible offsets carries along. -/
structure MarkState where
  markCommands : List StylingCommand
  selectedRegions : List SelRegion
  commandStack : List PrioritizedStyle

/-- A round of the loop, `view.rs:983–1045`. The source reads and writes
`mark_commands[normalized]` several times. -/
def markStep (bytesPerLine : Nat) (halfCursor : Bool) (start : Nat) (s : MarkState) (i : Nat) :
    Option MarkState := do
  let normalized := i - start
  let cmd ← s.markCommands[normalized]?
  let (cmd, selectedRegions, commandStack) ←
    markCell bytesPerLine halfCursor i cmd s.selectedRegions s.commandStack
  some { markCommands := s.markCommands.set normalized cmd, selectedRegions, commandStack }

/-- The stack at an offset: the style of a region that has begun is on the default one,
`view.rs:971–981` and the loop. -/
def stackAt (i : Nat) (selectedRegions : List SelRegion) : List PrioritizedStyle :=
  match selectedRegions with
  | region :: _ =>
    if region.min < i then [region.selectionStyle, defaultStyle] else [defaultStyle]
  | [] => [defaultStyle]

/-- `view.rs:964–1048`. -/
def HexView.markCommands {X : XiRope UInt8} (v : HexView X) (visible : Interval) :
    Option (List StylingCommand) := do
  let b ← v.current
  let selectedRegions ← b.selection.regionsInRange visible.start visible.stop
  let len := visible.stop - visible.start
  let s ← (List.range' visible.start len).foldlM
    (markStep v.bytesPerLine v.mode.hasHalfCursor visible.start)
    { markCommands := List.replicate len {}
      selectedRegions
      commandStack := stackAt visible.start selectedRegions }
  some s.markCommands

/-- `view.rs:729–738`. -/
def drawHexRow (styledBytes : List (UInt8 × StylingCommand)) : List TermOp :=
  styledBytes.flatMap fun (byte, styleCmd) ↦ drawHexByte byte styleCmd

/-! ## What a byte should look like -/

/-- The background of the bytes of a region. -/
def SelRegion.selectionBackground (r : SelRegion) : Color :=
  if r.isMain then .rgb 110 97 16 else .darkGrey

/-- The background of its caret. -/
def SelRegion.caretBackground (r : SelRegion) : Color :=
  if r.isMain then .rgb 107 108 128 else .darkGrey

/-- The region that an offset is in. -/
def regionAt (regions : List SelRegion) (i : Nat) : Option SelRegion :=
  regions.find? fun r ↦ decide (r.min ≤ i ∧ i ≤ r.max)

/-- The backgrounds of the two digits of the byte at offset `i`, which is in the region if
there is one. -/
def highlight (halfCursor : Bool) (i : Nat) : Option SelRegion → Color × Color
  | none => (.reset, .reset)
  | some r =>
    if r.caret = i then
      (if halfCursor then r.selectionBackground else r.caretBackground, r.caretBackground)
    else (r.selectionBackground, r.selectionBackground)

/-- The background in which the byte at offset `i` is entered along a row. -/
def backgroundAt (i : Nat) (selectedRegions : List SelRegion) : Color :=
  match selectedRegions with
  | region :: _ => if region.min < i then region.selectionBackground else .reset
  | [] => .reset

/-- The command shows the byte at offset `i` as it should look, whatever was drawn before a
line start, and hands the right background on. -/
def Highlights (bytesPerLine : Nat) (halfCursor : Bool) (i : Nat) (ahead ahead' : List SelRegion)
    (cmd : StylingCommand) : Prop :=
  ∀ background, i % bytesPerLine = 0 ∨ background = backgroundAt i ahead →
    (cmd.first background, cmd.second background) = highlight halfCursor i (regionAt ahead i) ∧
      ((i + 1) % bytesPerLine = 0 ∨ cmd.leaves background = backgroundAt (i + 1) ahead')

section Cells

variable {bytesPerLine i : Nat} {halfCursor : Bool} {r : SelRegion} {regions : List SelRegion}

/-- The default style sets the default background. -/
@[simp] theorem over_defaultStyle (background : Color) :
    ContentStyle.over (some defaultStyle.style) background = .reset := rfl

/-- The style of a region sets its background. -/
@[simp] theorem over_selectionStyle (background : Color) :
    ContentStyle.over (some r.selectionStyle.style) background = r.selectionBackground := by
  unfold SelRegion.selectionStyle SelRegion.selectionBackground
  split <;> rfl

/-- That of a caret sets the caret's. -/
@[simp] theorem over_caretStyle (background : Color) :
    ContentStyle.over (some r.caretStyle.style) background = r.caretBackground := by
  unfold SelRegion.caretStyle SelRegion.caretBackground
  split <;> rfl

/-- A command with the style on top restored at a line start and the default one at a line
end. -/
def lineCommand (bytesPerLine i : Nat) (top : PrioritizedStyle) (cmd : StylingCommand) :
    StylingCommand :=
  { start := cmd.start.or (if i % bytesPerLine = 0 then some top else none)
    mid := cmd.mid
    stop := if (i + 1) % bytesPerLine = 0 then some defaultStyle else cmd.stop }

/-- No line starts and ends at one byte. -/
theorem markLine_eq (hb : 2 ≤ bytesPerLine) (cmd : StylingCommand) (top : PrioritizedStyle)
    (commandStack : List PrioritizedStyle) :
    markLine bytesPerLine i cmd (top :: commandStack) =
      some (lineCommand bytesPerLine i top cmd) := by
  have hexcl : i % bytesPerLine = 0 → (i + 1) % bytesPerLine ≠ 0 := by
    intro h
    rw [Nat.add_mod, h, Nat.zero_add, Nat.mod_mod, Nat.mod_eq_of_lt hb]
    exact Nat.one_ne_zero
  rw [markLine, lineCommand, if_neg (by omega)]
  rcases cmd with ⟨- | start, mid, stop⟩
  · by_cases hstart : i % bytesPerLine = 0
    · rw [if_pos ⟨hstart, rfl⟩, if_neg (hexcl hstart), if_pos hstart]
      rfl
    · rw [if_neg fun h ↦ hstart h.1, if_neg hstart]
      split <;> rfl
  · rw [if_neg fun h ↦ Bool.noConfusion h.2]
    split <;> rfl

/-- The command of a byte of a region, before line starts and ends are considered. -/
def regionCommand (halfCursor : Bool) (i : Nat) (r : SelRegion) : StylingCommand :=
  { start :=
      if r.caret = i then some (if halfCursor then r.selectionStyle else r.caretStyle)
      else if r.min = i then some r.selectionStyle
      else none
    mid := if r.caret = i ∧ halfCursor then some r.caretStyle else none
    stop :=
      if r.max = i then some defaultStyle
      else if r.caret = i then some r.selectionStyle
      else none }

private theorem caret_at_end (r : SelRegion) : r.caret = r.min ∨ r.caret = r.max := by
  unfold SelRegion.min SelRegion.max
  omega

/-- On the background of its region, the command shows the byte as it should look. -/
theorem regionCommand_shows :
    ((regionCommand halfCursor i r).first r.selectionBackground,
      (regionCommand halfCursor i r).second r.selectionBackground) =
        highlight halfCursor i (some r) ∧
    (regionCommand halfCursor i r).leaves r.selectionBackground =
      if r.max = i then .reset else r.selectionBackground := by
  by_cases hcaret : r.caret = i <;> by_cases hlast : r.max = i <;> cases halfCursor <;>
    by_cases hfirst : r.min = i <;>
    simp [highlight, StylingCommand.first, StylingCommand.second, StylingCommand.leaves,
      StylingCommand.startStyle, StylingCommand.midStyle, StylingCommand.endStyle,
      regionCommand, hcaret, hlast, hfirst]

/-- In a region the command of its bytes is made, and its style is on top of the stack. -/
theorem markRegion_inside (hmin : r.min ≤ i) :
    markRegion halfCursor i r {} (stackAt i (r :: regions)) =
      some (regionCommand halfCursor i r, [r.selectionStyle, defaultStyle]) := by
  have hends := caret_at_end r
  have hstack : stackAt i (r :: regions) =
      if r.min = i then [defaultStyle] else [r.selectionStyle, defaultStyle] := by
    rw [stackAt]
    split <;> split <;> first | rfl | omega
  rw [hstack, markRegion, regionCommand]
  by_cases hfirst : r.min = i
  · by_cases hcaret : r.caret = i <;> by_cases hlast : r.max = i <;> cases halfCursor <;>
      simp [hfirst, hcaret, hlast, markCaret, StylingCommand.withStartStyle,
        StylingCommand.withMidStyle, StylingCommand.withEndStyle]
  · by_cases hcaret : r.caret = i
    · -- the caret is at an end of its region
      have hlast : r.max = i := by omega
      cases halfCursor <;>
        simp [hfirst, Ne.symm hfirst, hcaret, hlast, markCaret, StylingCommand.withStartStyle,
          StylingCommand.withMidStyle, StylingCommand.withEndStyle]
    · by_cases hlast : r.max = i <;>
        simp [hfirst, hcaret, hlast, StylingCommand.withEndStyle]

/-- The command of the byte at offset `i`, which is in the region if there is one. -/
def markAt (bytesPerLine : Nat) (halfCursor : Bool) (i : Nat) : Option SelRegion → StylingCommand
  | none => lineCommand bytesPerLine i defaultStyle {}
  | some r => lineCommand bytesPerLine i r.selectionStyle (regionCommand halfCursor i r)

/-- The regions that reach the offset. -/
def aheadOf (i : Nat) (regions : List SelRegion) : List SelRegion :=
  regions.filter fun r ↦ decide (i ≤ r.max)

private theorem aheadOf_of_lt (hout : ∀ r ∈ regions, i < r.min) :
    aheadOf (i + 1) regions = regions := by
  refine List.filter_eq_self.mpr fun r hr ↦ decide_eq_true ?_
  have hlt := hout r hr
  have hle := r.min_le_max
  omega

private theorem regionAt_of_lt (hout : ∀ r ∈ regions, i < r.min) : regionAt regions i = none := by
  refine List.find?_eq_none.mpr fun r hr ↦ ?_
  have := hout r hr
  simp only [decide_eq_true_eq]
  omega

private theorem regionAt_cons (hmin : r.min ≤ i) (hmax : i ≤ r.max) :
    regionAt (r :: regions) i = some r :=
  List.find?_cons_of_pos (decide_eq_true ⟨hmin, hmax⟩)

private theorem aheadOf_succ (hs : (r :: regions).Pairwise Before) (hreach : i ≤ r.max) :
    aheadOf (i + 1) (r :: regions) = if r.max = i then regions else r :: regions := by
  have hrest : aheadOf (i + 1) regions = regions := by
    refine List.filter_eq_self.mpr fun r' hr' ↦ decide_eq_true ?_
    have hbefore : r.max < r'.min := (List.pairwise_cons.mp hs).1 r' hr'
    have hle := r'.min_le_max
    omega
  rw [aheadOf, List.filter_cons, ← aheadOf, hrest]
  simp only [decide_eq_true_eq]
  split <;> split <;> first | rfl | omega

-- Of regions that reach the offset, only the first one can have begun.
private theorem ahead_cases (hs : regions.Pairwise Before) (hreach : ∀ r ∈ regions, i ≤ r.max) :
    (∀ r ∈ regions, i < r.min) ∨ ∃ r rest, regions = r :: rest ∧ r.min ≤ i ∧ i ≤ r.max := by
  cases regions with
  | nil => exact .inl (List.forall_mem_nil _)
  | cons r rest =>
    rcases Nat.lt_or_ge i r.min with hlt | hge
    · refine .inl (List.forall_mem_cons.mpr ⟨hlt, fun r' hr' ↦ ?_⟩)
      have hbefore : r.max < r'.min := (List.pairwise_cons.mp hs).1 r' hr'
      have hle := r.min_le_max
      omega
    · exact .inr ⟨r, rest, rfl, hge, hreach r (List.mem_cons_self ..)⟩

private theorem stackAt_of_lt {j : Nat} (hout : ∀ r ∈ regions, i < r.min) (hj : j ≤ i + 1) :
    stackAt j regions = [defaultStyle] ∧ backgroundAt j regions = .reset := by
  cases regions with
  | nil => exact ⟨rfl, rfl⟩
  | cons r regions =>
    have := hout r (List.mem_cons_self ..)
    exact ⟨if_neg (by omega), if_neg (by omega)⟩

private theorem stackAt_succ (hs : (r :: regions).Pairwise Before) (hmin : r.min ≤ i)
    (hmax : i ≤ r.max) :
    stackAt (i + 1) (aheadOf (i + 1) (r :: regions)) =
        (if r.max = i then [defaultStyle] else [r.selectionStyle, defaultStyle]) ∧
      backgroundAt (i + 1) (aheadOf (i + 1) (r :: regions)) =
        if r.max = i then .reset else r.selectionBackground := by
  rw [aheadOf_succ hs hmax]
  split
  · cases regions with
    | nil => exact ⟨rfl, rfl⟩
    | cons r' regions =>
      have hbefore : r.max < r'.min := (List.pairwise_cons.mp hs).1 r' (List.mem_cons_self ..)
      exact ⟨if_neg (by omega), if_neg (by omega)⟩
  · exact ⟨if_pos (by omega), if_pos (by omega)⟩

/-- The loop gives an offset the command of the region it is in. -/
theorem markCell_eq (hb : 2 ≤ bytesPerLine) (hs : regions.Pairwise Before)
    (hreach : ∀ r ∈ regions, i ≤ r.max) :
    markCell bytesPerLine halfCursor i {} regions (stackAt i regions) =
      some (markAt bytesPerLine halfCursor i (regionAt regions i), aheadOf (i + 1) regions,
        stackAt (i + 1) (aheadOf (i + 1) regions)) := by
  obtain hout | ⟨r, rest, rfl, hmin, hmax⟩ := ahead_cases hs hreach
  · rw [regionAt_of_lt hout, aheadOf_of_lt hout, (stackAt_of_lt hout (Nat.le_succ i)).1,
      (stackAt_of_lt hout (Nat.le_refl _)).1]
    cases regions with
    | nil => exact congrArg (Option.map _) (markLine_eq hb {} defaultStyle [])
    | cons r regions =>
      have hlt := hout r (List.mem_cons_self ..)
      have hle := r.min_le_max
      have hcaret : r.caret ≠ i := by
        have := r.min_le_caret
        omega
      have hmark : markRegion halfCursor i r {} [defaultStyle] = some ({}, [defaultStyle]) := by
        simp [markRegion, hcaret, show r.min ≠ i by omega, show r.max ≠ i by omega]
      simp only [markCell, hmark, markLine_eq hb, Option.bind_eq_bind, Option.bind_some,
        if_neg (show r.max ≠ i by omega), markAt]
  · rw [(stackAt_succ hs hmin hmax).1, aheadOf_succ hs hmax, regionAt_cons hmin hmax]
    simp only [markCell, markRegion_inside hmin, markLine_eq hb, Option.bind_eq_bind,
      Option.bind_some, markAt]
    split <;> rfl

/-- A command without a start style restores the background on top at a line start, so it only
matters what the command shows on that background. -/
theorem shows_lineCommand {top : PrioritizedStyle} {cmd : StylingCommand}
    {ahead ahead' : List SelRegion} (below : Color)
    (htop : cmd.startStyle = none → backgroundAt i ahead = below ∧
      ∀ background, ContentStyle.over (some top.style) background = below)
    (hcovers : cmd.startStyle ≠ none → ∀ background, cmd.first background = cmd.first below)
    (hdigits : (cmd.first below, cmd.second below) = highlight halfCursor i (regionAt ahead i))
    (hleaves : cmd.leaves below = backgroundAt (i + 1) ahead') :
    Highlights bytesPerLine halfCursor i ahead ahead' (lineCommand bytesPerLine i top cmd) := by
  intro background hbg
  have hfirst : (lineCommand bytesPerLine i top cmd).first background =
      cmd.first below := by
    rcases cmd with ⟨- | start, mid, stop⟩
    · obtain ⟨hbelow, htop⟩ := htop rfl
      by_cases hline : i % bytesPerLine = 0
      · simp only [StylingCommand.first, StylingCommand.startStyle, lineCommand, hline, if_true,
          Option.none_or, Option.map_some, htop]
        rfl
      · simp only [StylingCommand.first, StylingCommand.startStyle, lineCommand, hline, if_false,
          Option.none_or]
        exact (hbg.resolve_left hline).trans hbelow
    · exact hcovers (Option.some_ne_none _) background
  have hsecond : (lineCommand bytesPerLine i top cmd).second background =
      cmd.second below := congrArg (ContentStyle.over cmd.midStyle) hfirst
  refine ⟨by rw [hfirst, hsecond, hdigits], or_iff_not_imp_left.mpr fun hline ↦ ?_⟩
  rw [← hleaves, StylingCommand.leaves, StylingCommand.leaves, hsecond,
    StylingCommand.endStyle, lineCommand]
  simp only [hline, if_false]
  rfl

private theorem highlights_inside (hs : (r :: regions).Pairwise Before) (hmin : r.min ≤ i)
    (hmax : i ≤ r.max) :
    Highlights bytesPerLine halfCursor i (r :: regions) (aheadOf (i + 1) (r :: regions))
      (markAt bytesPerLine halfCursor i (some r)) := by
  refine shows_lineCommand r.selectionBackground ?_ ?_ ?_ ?_
  · intro hnone
    have hfirst : r.min ≠ i := by
      intro hfirst
      by_cases hcaret : r.caret = i <;>
        simp [StylingCommand.startStyle, regionCommand, hfirst, hcaret] at hnone
    exact ⟨if_pos (by omega), over_selectionStyle⟩
  · intro hsome background
    by_cases hcaret : r.caret = i
    · cases halfCursor <;>
        simp [StylingCommand.first, StylingCommand.startStyle, regionCommand, hcaret]
    · by_cases hfirst : r.min = i
      · simp [StylingCommand.first, StylingCommand.startStyle, regionCommand, hcaret, hfirst]
      · exact absurd (by simp [StylingCommand.startStyle, regionCommand, hcaret, hfirst]) hsome
  · rw [regionAt_cons hmin hmax]
    exact regionCommand_shows.1
  · rw [(stackAt_succ hs hmin hmax).2]
    exact regionCommand_shows.2

/-- In a region a byte has its background, and its caret that of the caret; outside of all
regions it keeps the default one. -/
theorem highlights_markAt (hs : regions.Pairwise Before) (hreach : ∀ r ∈ regions, i ≤ r.max) :
    Highlights bytesPerLine halfCursor i regions (aheadOf (i + 1) regions)
      (markAt bytesPerLine halfCursor i (regionAt regions i)) := by
  obtain hout | ⟨r, rest, rfl, hmin, hmax⟩ := ahead_cases hs hreach
  · rw [aheadOf_of_lt hout, regionAt_of_lt hout]
    refine shows_lineCommand .reset (fun _ ↦ ⟨?_, fun _ ↦ rfl⟩) (fun h ↦ absurd rfl h) ?_ ?_
    · exact (stackAt_of_lt hout (Nat.le_succ i)).2
    · rw [regionAt_of_lt hout]
      rfl
    · rw [(stackAt_of_lt hout (Nat.le_refl _)).2]
      rfl
  · rw [regionAt_cons hmin hmax]
    exact highlights_inside hs hmin hmax

end Cells

/-! ## Runs of offsets -/

section Runs

variable {bytesPerLine : Nat} {halfCursor : Bool} {regions : List SelRegion}

/-- Regions are left behind one after the other. -/
theorem aheadOf_aheadOf (i : Nat) :
    aheadOf (i + 1) (aheadOf i regions) = aheadOf (i + 1) regions := by
  rw [aheadOf, aheadOf, aheadOf, List.filter_filter]
  refine List.filter_congr fun r _ ↦ ?_
  simp only [Bool.and_eq_left_iff_imp, decide_eq_true_eq]
  omega

/-- The commands show the bytes from offset `i` on. -/
def HighlightsFrom (bytesPerLine : Nat) (halfCursor : Bool) (regions : List SelRegion) (i : Nat) :
    List StylingCommand → Prop
  | [] => True
  | cmd :: cmds =>
    Highlights bytesPerLine halfCursor i (aheadOf i regions) (aheadOf (i + 1) regions) cmd ∧
      HighlightsFrom bytesPerLine halfCursor regions (i + 1) cmds

/-- The loop gives every offset the command of the region it is in. -/
theorem foldlM_markStep_eq (hb : 2 ≤ bytesPerLine) (hs : regions.Pairwise Before) (start n : Nat)
    (done : List StylingCommand) :
    ∃ s, (List.range' (start + done.length) n).foldlM (markStep bytesPerLine halfCursor start)
        { markCommands := done ++ List.replicate n {}
          selectedRegions := aheadOf (start + done.length) regions
          commandStack := stackAt (start + done.length) (aheadOf (start + done.length) regions) } =
          some s ∧
      s.markCommands = done ++ (List.range' (start + done.length) n).map fun i ↦
        markAt bytesPerLine halfCursor i (regionAt (aheadOf i regions) i) := by
  induction n generalizing done with
  | zero => exact ⟨_, rfl, rfl⟩
  | succ n ih =>
    have hsorted : (aheadOf (start + done.length) regions).Pairwise Before := hs.filter _
    have hcell := @markCell_eq bytesPerLine (start + done.length) halfCursor _ hb hsorted
      fun r hr ↦ of_decide_eq_true (List.mem_filter.mp hr).2
    rw [aheadOf_aheadOf] at hcell
    set cmd := markAt bytesPerLine halfCursor (start + done.length)
      (regionAt (aheadOf (start + done.length) regions) (start + done.length)) with hcmd
    obtain ⟨s, hrun, hmarks⟩ := ih (done ++ [cmd])
    have hnext : start + (done ++ [cmd]).length = start + done.length + 1 := by
      rw [List.length_append]
      rfl
    rw [hnext] at hrun hmarks
    have hstep : markStep bytesPerLine halfCursor start
        { markCommands := done ++ List.replicate (n + 1) {}
          selectedRegions := aheadOf (start + done.length) regions
          commandStack := stackAt (start + done.length) (aheadOf (start + done.length) regions) }
        (start + done.length) = some
        { markCommands := done ++ [cmd] ++ List.replicate n {}
          selectedRegions := aheadOf (start + done.length + 1) regions
          commandStack :=
            stackAt (start + done.length + 1) (aheadOf (start + done.length + 1) regions) } := by
      simp [markStep, List.replicate_succ, hcell]
    refine ⟨s, ?_, ?_⟩
    · rw [List.range'_succ, List.foldlM_cons, hstep]
      exact hrun
    · rw [hmarks, List.range'_succ, List.map_cons, ← hcmd, List.append_assoc]
      rfl

/-- These commands show their bytes. -/
theorem highlightsFrom_markAt (hs : regions.Pairwise Before) (i n : Nat) :
    HighlightsFrom bytesPerLine halfCursor regions i ((List.range' i n).map fun j ↦
      markAt bytesPerLine halfCursor j (regionAt (aheadOf j regions) j)) := by
  induction n generalizing i with
  | zero => trivial
  | succ n ih =>
    refine ⟨?_, ih (i + 1)⟩
    have hcmd := @highlights_markAt bytesPerLine i halfCursor _ (hs.filter _)
      fun r hr ↦ of_decide_eq_true (List.mem_filter.mp hr).2
    rw [← aheadOf, aheadOf_aheadOf] at hcmd
    exact hcmd

/-- Along a row every byte gets the right backgrounds, if it starts a line or is entered in the
right one. -/
theorem printed_drawHexRow {bytes : List UInt8} {cmds : List StylingCommand} {i : Nat}
    (brush : Brush Color)
    (hshows : HighlightsFrom bytesPerLine halfCursor regions i cmds)
    (hbrush : i % bytesPerLine = 0 ∨ brush.background = backgroundAt i (aheadOf i regions))
    {j : Nat} {byte : UInt8} (hbyte : bytes[j]? = some byte) (hj : j < cmds.length) :
    let digits := highlight halfCursor (i + j) (regionAt (aheadOf (i + j) regions) (i + j))
    let printed := brush.printed (drawHexRow (bytes.zip cmds))
    printed[3 * j]? = some (hexText (byte >>> 4), digits.1) ∧
      printed[3 * j + 1]? = some (hexText (byte &&& 0xf), digits.2) := by
  induction cmds generalizing bytes i brush j with
  | nil => exact absurd hj (Nat.not_lt_zero j)
  | cons cmd cmds ih =>
    cases bytes with
    | nil => cases hbyte
    | cons first bytes =>
      obtain ⟨hcmd, hrest⟩ := hshows
      obtain ⟨hdigits, hleaves⟩ := hcmd brush.background hbrush
      obtain ⟨hprinted, hafter⟩ := printed_drawHexByte brush first cmd
      have hrow : brush.printed (drawHexRow ((first :: bytes).zip (cmd :: cmds))) =
          brush.printed (drawHexByte first cmd) ++
            (brush.after (drawHexByte first cmd)).printed (drawHexRow (bytes.zip cmds)) := by
        rw [drawHexRow, List.zip_cons_cons, List.flatMap_cons, Brush.printed_append]
        rfl
      simp only [hrow, hprinted]
      cases j with
      | zero =>
        obtain rfl : first = byte := Option.some.inj hbyte
        rw [Nat.add_zero, ← hdigits]
        exact ⟨rfl, rfl⟩
      | succ j =>
        have hbyte' : bytes[j]? = some byte := hbyte
        have hrec := ih _ hrest (hafter ▸ hleaves) hbyte' (Nat.lt_of_succ_lt_succ hj)
        rw [Nat.add_right_comm i 1 j] at hrec
        exact hrec

/-- Offsets shown are in the same regions as in the whole selection. -/
theorem regionAt_aheadOf {start stop i : Nat} (hstart : start ≤ i) (hstop : i ≤ stop) :
    regionAt (aheadOf i (regions.filter fun r ↦ decide (start ≤ r.max ∧ r.min ≤ stop))) i =
      regionAt regions i := by
  rw [regionAt, aheadOf, List.filter_filter, List.find?_filter, regionAt]
  congr 1
  funext r
  rw [Bool.eq_iff_iff]
  simp only [Bool.and_eq_true, decide_eq_true_eq]
  omega

private theorem HighlightsFrom.drop {i : Nat} {cmds : List StylingCommand}
    (h : HighlightsFrom bytesPerLine halfCursor regions i cmds) (n : Nat) :
    HighlightsFrom bytesPerLine halfCursor regions (i + n) (cmds.drop n) := by
  induction n generalizing i cmds with
  | zero => exact h
  | succ n ih =>
    cases cmds with
    | nil => trivial
    | cons cmd cmds =>
      rw [← Nat.add_assoc, Nat.add_right_comm]
      exact ih h.2

private theorem HighlightsFrom.take {i : Nat} {cmds : List StylingCommand}
    (h : HighlightsFrom bytesPerLine halfCursor regions i cmds) (n : Nat) :
    HighlightsFrom bytesPerLine halfCursor regions i (cmds.take n) := by
  induction n generalizing i cmds with
  | zero => trivial
  | succ n ih =>
    cases cmds with
    | nil => trivial
    | cons cmd cmds => exact ⟨h.1, ih h.2⟩

end Runs

/-- Row number `row` of `chunks(bytes_per_line)`. -/
def rowOf {α : Type} (bytesPerLine row : Nat) (cells : List α) : List α :=
  (cells.drop (bytesPerLine * row)).take bytesPerLine

variable {X : XiRope UInt8}

/-- The regions that a range shows. -/
def shownRegions (sel : Selection) (visible : Interval) : List SelRegion :=
  sel.regions.filter fun r ↦ decide (visible.start ≤ r.max ∧ r.min ≤ visible.stop)

private theorem markCommands_eq_ahead {v : HexView X} {b : CurrentBuffer X} (visible : Interval)
    (hcur : v.current = some b) (hv : b.selection.Valid) (hb : 2 ≤ v.bytesPerLine)
    (hrange : ¬ ∃ r ∈ b.selection.regions, visible.stop < r.min ∧ r.max < visible.start) :
    v.markCommands visible =
      some ((List.range' visible.start (visible.stop - visible.start)).map fun i ↦
        markAt v.bytesPerLine v.mode.hasHalfCursor i
          (regionAt (aheadOf i (shownRegions b.selection visible)) i)) := by
  have hahead : aheadOf visible.start (shownRegions b.selection visible) =
      shownRegions b.selection visible := by
    refine List.filter_eq_self.mpr fun r hr ↦ decide_eq_true ?_
    exact (of_decide_eq_true (List.mem_filter.mp hr).2).1
  have hsorted : (shownRegions b.selection visible).Pairwise Before := hv.sorted.filter _
  obtain ⟨s, hrun, hmarks⟩ := @foldlM_markStep_eq _ v.mode.hasHalfCursor _ hb hsorted visible.start
    (visible.stop - visible.start) []
  rw [List.length_nil, Nat.add_zero] at hrun hmarks
  rw [hahead, List.nil_append] at hrun
  rw [HexView.markCommands, hcur]
  simp only [Option.bind_eq_bind, Option.bind_some, Selection.regionsInRange_eq hv, if_neg hrange]
  exact (congrArg (Option.bind · _) hrun).trans (congrArg some hmarks)

/-- Every visible offset gets the command of the region it is in, unless the slice of the regions
is reversed. -/
theorem HexView.markCommands_eq {v : HexView X} {b : CurrentBuffer X} (visible : Interval)
    (hcur : v.current = some b) (hv : b.selection.Valid) (hb : 2 ≤ v.bytesPerLine)
    (hrange : ¬ ∃ r ∈ b.selection.regions, visible.stop < r.min ∧ r.max < visible.start) :
    v.markCommands visible =
      some ((List.range' visible.start (visible.stop - visible.start)).map fun i ↦
        markAt v.bytesPerLine v.mode.hasHalfCursor i (regionAt b.selection.regions i)) := by
  rw [markCommands_eq_ahead visible hcur hv hb hrange]
  refine congrArg some (List.map_congr_left fun i hi ↦ ?_)
  have hi := List.mem_range'_1.mp hi
  rw [shownRegions, regionAt_aheadOf (by omega) (by omega)]

/-- The commands show the bytes of the visible offsets. -/
theorem exists_markCommands {v : HexView X} {b : CurrentBuffer X} (visible : Interval)
    (hcur : v.current = some b) (hv : b.selection.Valid) (hb : 2 ≤ v.bytesPerLine)
    (hrange : ¬ ∃ r ∈ b.selection.regions, visible.stop < r.min ∧ r.max < visible.start) :
    ∃ marks, v.markCommands visible = some marks ∧
      marks.length = visible.stop - visible.start ∧
      HighlightsFrom v.bytesPerLine v.mode.hasHalfCursor (shownRegions b.selection visible)
        visible.start marks := by
  refine ⟨_, markCommands_eq_ahead visible hcur hv hb hrange, ?_,
    highlightsFrom_markAt (hv.sorted.filter _) _ _⟩
  rw [List.length_map, List.length_range']

/-- The commands are there for every visible offset, and on every row each byte appears as it
should, whatever the brush was before. -/
theorem markCommands_highlight {v : HexView X} {b : CurrentBuffer X} {start : Nat} (n : Nat)
    (hcur : v.current = some b) (hv : b.selection.Valid) (hb : 2 ≤ v.bytesPerLine)
    (hd : v.bytesPerLine ∣ start) :
    ∃ marks, v.markCommands { start, stop := start + n } = some marks ∧ marks.length = n ∧
      ∀ (bytes : List UInt8) (row j : Nat) (byte : UInt8) (brush : Brush Color), bytes.length ≤ n →
        j < v.bytesPerLine → bytes[v.bytesPerLine * row + j]? = some byte →
        let i := start + (v.bytesPerLine * row + j)
        let digits := highlight v.mode.hasHalfCursor i (regionAt b.selection.regions i)
        let printed := brush.printed (drawHexRow
          ((rowOf v.bytesPerLine row bytes).zip (rowOf v.bytesPerLine row marks)))
        printed[3 * j]? = some (hexText (byte >>> 4), digits.1) ∧
          printed[3 * j + 1]? = some (hexText (byte &&& 0xf), digits.2) := by
  have hrange : ¬ ∃ r ∈ b.selection.regions, start + n < r.min ∧ r.max < start := by
    rintro ⟨r, -, hmin, hmax⟩
    have hle := r.min_le_max
    omega
  obtain ⟨marks, hmarks, hlen, hshows⟩ :=
    exists_markCommands { start, stop := start + n } hcur hv hb hrange
  simp only [Nat.add_sub_cancel_left] at hlen
  refine ⟨marks, hmarks, hlen, fun bytes row j byte brush hbytes hj hbyte ↦ ?_⟩
  have hlt := (List.getElem?_eq_some_iff.mp hbyte).1
  have hrow : (rowOf v.bytesPerLine row bytes)[j]? = some byte := by
    rw [rowOf, List.getElem?_take_of_lt hj, List.getElem?_drop, hbyte]
  have hmark : j < (rowOf v.bytesPerLine row marks).length := by
    rw [rowOf, List.length_take, List.length_drop, hlen]
    omega
  have hline : (start + v.bytesPerLine * row) % v.bytesPerLine = 0 :=
    Nat.mod_eq_zero_of_dvd (Nat.dvd_add hd (Nat.dvd_mul_right ..))
  have hprinted := printed_drawHexRow brush
    ((hshows.drop (v.bytesPerLine * row)).take v.bytesPerLine) (.inl hline) hrow hmark
  rw [shownRegions, Nat.add_assoc, regionAt_aheadOf (by omega) (by dsimp only; omega)] at hprinted
  exact hprinted

-- Forty-eight bytes on a screen of two rows, of which a region over the end of the first row is
-- selected.
private def twoRowRegion : HexView (XiRope.reference UInt8) :=
  .withBuffrCollection (.withCurrentBuffer
    (.withRegions ((List.range 48).map Nat.toUInt8) [⟨20, 14, true⟩])) (80, 3)

/-- The second row starts within the region, and its fifth byte is the caret. -/
theorem markCommands_highlight_second_row :
    ∃ marks, twoRowRegion.markCommands { start := 0, stop := 0 + 32 } = some marks ∧
      ∀ brush : Brush Color,
        let printed := brush.printed (drawHexRow
          ((rowOf 16 1 ((List.range 32).map Nat.toUInt8)).zip (rowOf 16 1 marks)))
        printed[0]? = some ("1", .rgb 110 97 16) ∧ printed[12]? = some ("1", .rgb 107 108 128) := by
  obtain ⟨marks, hmarks, -, hrow⟩ := @markCommands_highlight _ twoRowRegion _ 0 32
    rfl (by decide) (by decide) (by decide)
  refine ⟨marks, hmarks, fun brush ↦ ⟨?_, ?_⟩⟩
  · exact (hrow ((List.range 32).map Nat.toUInt8) 1 0 0x10 brush (by decide) (by decide) rfl).1
  · exact (hrow ((List.range 32).map Nat.toUInt8) 1 4 0x14 brush (by decide) (by decide) rfl).1

end Tofu

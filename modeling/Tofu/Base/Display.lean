import Mathlib.Data.List.Basic
import Mathlib.Logic.Function.Basic

/-!
# A display

The grid of cells behind a stream of terminal operations. Text is put into cells from the
cursor on, in the colours chosen last; a blank shows its background only. Text that gets behind
the last column goes on in the next line, and behind the last line all lines move up. A
character takes one cell.
-/

namespace Tofu

/-- What a terminal is told. -/
inductive DisplayOp (κ : Type*) where
  | moveTo (column row : Nat)
  | print (text : String)
  | setForegroundColor (color : κ)
  | setBackgroundColor (color : κ)
  | clearAll
  | clearCurrentLine
  | clearUntilNewLine
  | scrollUp (lines : Nat)
  | scrollDown (lines : Nat)
  deriving DecidableEq, Repr

/-- A character in its colours. -/
structure Cell (κ : Type*) where
  char : Char
  /-- A blank has none. -/
  foreground : Option κ
  background : κ
  deriving DecidableEq, Repr

/-- The colours in which the next text appears. -/
structure Brush (κ : Type*) where
  foreground : κ
  background : κ
  deriving DecidableEq, Repr

/-- The cells of each row by column, the cursor and the colours. Behind a character in the last
column the cursor stands behind that column, until another one is printed. -/
structure Display (κ : Type*) where
  width : Nat
  height : Nat
  lines : Nat → Nat → Cell κ
  column : Nat
  row : Nat
  brush : Brush κ

variable {κ : Type*}

/-- A cell with nothing in it. -/
def Cell.blank (background : κ) : Cell κ := { char := ' ', foreground := none, background }

/-- These cells, and blanks behind them. -/
def lineOf (background : κ) (cells : List (Cell κ)) (column : Nat) : Cell κ :=
  cells.getD column (.blank background)

/-! ## Colours and cells -/

namespace Brush

variable (brush : Brush κ)

/-- A character in the colours of the brush. -/
def cell (c : Char) : Cell κ :=
  { char := c
    foreground := if c = ' ' then none else some brush.foreground
    background := brush.background }

/-- The colours after one operation. -/
def apply : DisplayOp κ → Brush κ
  | .setForegroundColor color => { brush with foreground := color }
  | .setBackgroundColor color => { brush with background := color }
  | _ => brush

/-- The colours after a stretch of operations. -/
def after (ops : List (DisplayOp κ)) : Brush κ := ops.foldl apply brush

/-- The pieces of text that are printed, with the background of each. -/
def printed (brush : Brush κ) : List (DisplayOp κ) → List (String × κ)
  | [] => []
  | .print text :: ops => (text, brush.background) :: brush.printed ops
  | op :: ops => (brush.apply op).printed ops

/-- The cells that are printed. -/
def cells (brush : Brush κ) : List (DisplayOp κ) → List (Cell κ)
  | [] => []
  | .print text :: ops => text.toList.map brush.cell ++ brush.cells ops
  | op :: ops => (brush.apply op).cells ops

/-- Printing leaves the colours. -/
@[simp] theorem apply_print (text : String) : brush.apply (.print text) = brush := rfl

/-- No operation leaves the colours. -/
@[simp] theorem after_nil : brush.after [] = brush := rfl

/-- The colours are chosen one operation after the other. -/
@[simp] theorem after_cons (op : DisplayOp κ) (ops : List (DisplayOp κ)) :
    brush.after (op :: ops) = (brush.apply op).after ops := rfl

/-- A stretch of operations goes on with the colours that the one before it leaves. -/
theorem after_append (ops ops' : List (DisplayOp κ)) :
    brush.after (ops ++ ops') = (brush.after ops).after ops' := List.foldl_append

/-- No operation prints a piece. -/
@[simp] theorem printed_nil : brush.printed [] = [] := rfl

/-- A piece of text has the background chosen last. -/
@[simp] theorem printed_print (text : String) (ops : List (DisplayOp κ)) :
    brush.printed (.print text :: ops) = (text, brush.background) :: brush.printed ops := rfl

/-- The pieces of two stretches, the second in the colours that the first leaves. -/
theorem printed_append (ops ops' : List (DisplayOp κ)) :
    brush.printed (ops ++ ops') = brush.printed ops ++ (brush.after ops).printed ops' := by
  induction ops generalizing brush with
  | nil => rfl
  | cons op ops ih =>
    cases op with
    | print text => exact congrArg _ (ih brush)
    | _ => exact ih _

/-- No operation prints a cell. -/
@[simp] theorem cells_nil : brush.cells [] = [] := rfl

/-- Each character of a text has a cell. -/
@[simp] theorem cells_print (text : String) (ops : List (DisplayOp κ)) :
    brush.cells (.print text :: ops) = text.toList.map brush.cell ++ brush.cells ops := rfl

private theorem cells_append (ops ops' : List (DisplayOp κ)) :
    brush.cells (ops ++ ops') = brush.cells ops ++ (brush.after ops).cells ops' := by
  induction ops generalizing brush with
  | nil => rfl
  | cons op ops ih =>
    cases op with
    | print text =>
      rw [List.cons_append, cells_print, cells_print, ih, List.append_assoc]
      rfl
    | _ => exact ih _

end Brush

/-- The text that is printed. -/
def textOf : List (DisplayOp κ) → List Char
  | [] => []
  | .print text :: ops => text.toList ++ textOf ops
  | _ :: ops => textOf ops

/-- The texts of two stretches follow each other. -/
theorem textOf_append (ops ops' : List (DisplayOp κ)) :
    textOf (ops ++ ops') = textOf ops ++ textOf ops' := by
  induction ops with
  | nil => rfl
  | cons op ops ih =>
    cases op with
    | print text =>
      rw [List.cons_append, textOf, textOf, ih, List.append_assoc]
    | _ => exact ih

/-- So do those of many. -/
theorem textOf_flatMap {α : Type*} (l : List α) (f : α → List (DisplayOp κ)) :
    textOf (l.flatMap f) = l.flatMap fun a ↦ textOf (f a) := by
  induction l with
  | nil => rfl
  | cons a l ih => rw [List.flatMap_cons, textOf_append, ih, List.flatMap_cons]

/-- The characters in the cells are the text. -/
theorem map_char_cells (brush : Brush κ) (ops : List (DisplayOp κ)) :
    (brush.cells ops).map Cell.char = textOf ops := by
  induction ops generalizing brush with
  | nil => rfl
  | cons op ops ih =>
    cases op with
    | print text =>
      rw [Brush.cells_print, List.map_append, ih, List.map_map, textOf]
      congr 1
      exact List.map_id _
    | _ => exact ih _

/-- The character in a cell, and its background. -/
def Cell.look (c : Cell κ) : Char × κ := (c.char, c.background)

/-- Cells have the background of the piece of text they are printed with. -/
theorem map_look_cells (brush : Brush κ) (ops : List (DisplayOp κ)) :
    (brush.cells ops).map Cell.look =
      (brush.printed ops).flatMap fun p ↦ p.1.toList.map (·, p.2) := by
  induction ops generalizing brush with
  | nil => rfl
  | cons op ops ih =>
    cases op with
    | print text =>
      rw [Brush.cells_print, List.map_append, ih, Brush.printed_print, List.flatMap_cons,
        List.map_map]
      rfl
    | _ => exact ih _

/-- The cells of some operations, behind those of the operations before them. -/
theorem getElem?_cells (brush : Brush κ) {before ops behind : List (DisplayOp κ)}
    {n j : Nat} {look : Char × κ} (hn : (textOf before).length = n)
    (h : (((brush.after before).cells ops).map Cell.look)[j]? = some look) :
    ((brush.cells (before ++ (ops ++ behind)))[n + j]?).map Cell.look = some look := by
  have hlen : (brush.cells before).length = n := by
    rw [← hn, ← map_char_cells brush before, List.length_map]
  rw [List.getElem?_map] at h
  obtain ⟨cell, hcell, hlook⟩ := Option.map_eq_some_iff.mp h
  have hj := (List.getElem?_eq_some_iff.mp hcell).1
  rw [Brush.cells_append, Brush.cells_append, List.getElem?_append_right (by omega), hlen,
    Nat.add_sub_cancel_left, List.getElem?_append_left hj, hcell, Option.map_some, hlook]

/-- A foreground is chosen before anything but blanks is printed. -/
def Settles : List (DisplayOp κ) → Bool
  | [] => true
  | .print text :: ops => text.toList.all (· == ' ') && Settles ops
  | .setForegroundColor _ :: _ => true
  | _ :: ops => Settles ops

/-- What the operations leave of a foreground that only blanks were printed in is not seen. -/
theorem cells_congr_of_settles {ops : List (DisplayOp κ)} (h : Settles ops) {brush brush' : Brush κ}
    (hb : brush.background = brush'.background) :
    brush.cells ops = brush'.cells ops ∧
      (brush.after ops).background = (brush'.after ops).background := by
  induction ops generalizing brush brush' with
  | nil => exact ⟨rfl, hb⟩
  | cons op ops ih =>
    cases op with
    | print text =>
      obtain ⟨hblank, h⟩ := (Bool.and_eq_true _ _).mp h
      obtain ⟨hcells, hafter⟩ := ih h hb
      refine ⟨?_, hafter⟩
      rw [Brush.cells_print, Brush.cells_print, hcells]
      congr 1
      refine List.map_congr_left fun c hc ↦ ?_
      obtain rfl : c = ' ' := eq_of_beq (List.all_eq_true.mp hblank c hc)
      simp only [Brush.cell, if_true, hb]
    | setForegroundColor color =>
      have heq : brush.apply (.setForegroundColor color) =
        brush'.apply (.setForegroundColor color) := by
        rw [Brush.apply, Brush.apply, hb]
      simp only [Brush.cells, Brush.after_cons, heq, and_self]
    | setBackgroundColor color => exact ih h rfl
    | _ => exact ih h hb

/-! ## Running operations -/

/-- The line with cells put into it from a column on. -/
def overwrite (line : Nat → Cell κ) (column : Nat) (cells : List (Cell κ)) (c : Nat) : Cell κ :=
  if c < column then line c else cells.getD (c - column) (line c)

namespace Display

variable (d : Display κ)

/-- The display with another line on a row. -/
def setLine (row : Nat) (line : Nat → Cell κ) : Display κ :=
  { d with lines := Function.update d.lines row line }

/-- The lines moved up, with blank ones below them. -/
def moveUp (n : Nat) : Display κ :=
  { d with lines := fun row ↦
      if row + n < d.height then d.lines (row + n) else lineOf d.brush.background [] }

/-- The cursor goes to the start of the next line. -/
def breakLine : Display κ :=
  if d.row + 1 < d.height then { d with column := 0, row := d.row + 1 }
  else { d.moveUp 1 with column := 0 }

/-- The character is put into the cell at the cursor. -/
def write (c : Char) : Display κ :=
  { d.setLine d.row (Function.update (d.lines d.row) d.column (d.brush.cell c)) with
    column := d.column + 1 }

/-- A character is printed, behind the last column in the next line. -/
def put (c : Char) : Display κ :=
  if d.column < d.width then d.write c else d.breakLine.write c

/-- One operation. -/
def exec : DisplayOp κ → Display κ
  | .moveTo column row =>
    { d with column := min column (d.width - 1), row := min row (d.height - 1) }
  | .print text => text.toList.foldl put d
  | .setForegroundColor color => { d with brush := { d.brush with foreground := color } }
  | .setBackgroundColor color => { d with brush := { d.brush with background := color } }
  | .clearAll => { d with lines := fun _ ↦ lineOf d.brush.background [] }
  | .clearCurrentLine => d.setLine d.row (lineOf d.brush.background [])
  | .clearUntilNewLine =>
    d.setLine d.row fun c ↦
      if c < min d.column (d.width - 1) then d.lines d.row c else .blank d.brush.background
  | .scrollUp n => d.moveUp n
  | .scrollDown n =>
    { d with lines := fun row ↦
        if row < n then lineOf d.brush.background [] else d.lines (row - n) }

/-- Operations in a row. -/
def run (ops : List (DisplayOp κ)) : Display κ := ops.foldl exec d

/-- No operation leaves the display as it is. -/
@[simp] theorem run_nil : d.run [] = d := rfl

/-- Operations are carried out one after the other. -/
@[simp] theorem run_cons (op : DisplayOp κ) (ops : List (DisplayOp κ)) :
    d.run (op :: ops) = (d.exec op).run ops := rfl

/-- A stretch goes on from the display that the one before it leaves. -/
theorem run_append (ops ops' : List (DisplayOp κ)) : d.run (ops ++ ops') = (d.run ops).run ops' :=
  List.foldl_append

private theorem frame_foldl_put (cs : List Char) :
    (cs.foldl put d).width = d.width ∧ (cs.foldl put d).height = d.height ∧
      (cs.foldl put d).brush = d.brush := by
  induction cs generalizing d with
  | nil => exact ⟨rfl, rfl, rfl⟩
  | cons c cs ih =>
    obtain ⟨hwidth, hheight, hbrush⟩ := ih (d.put c)
    have hput : (d.put c).width = d.width ∧ (d.put c).height = d.height ∧
        (d.put c).brush = d.brush := by
      unfold put breakLine
      split
      · exact ⟨rfl, rfl, rfl⟩
      · split <;> exact ⟨rfl, rfl, rfl⟩
    exact ⟨hwidth.trans hput.1, hheight.trans hput.2.1, hbrush.trans hput.2.2⟩

private theorem frame_exec (op : DisplayOp κ) :
    (d.exec op).width = d.width ∧ (d.exec op).height = d.height ∧
      (d.exec op).brush = d.brush.apply op := by
  cases op with
  | print text => exact frame_foldl_put d text.toList
  | moveTo | setForegroundColor | setBackgroundColor | clearAll | clearCurrentLine
    | clearUntilNewLine
  | scrollUp | scrollDown => exact ⟨rfl, rfl, rfl⟩

/-- Operations leave the size of the display, and the colours that they choose. -/
theorem frame_run (ops : List (DisplayOp κ)) :
    (d.run ops).width = d.width ∧ (d.run ops).height = d.height ∧
      (d.run ops).brush = d.brush.after ops := by
  induction ops generalizing d with
  | nil => exact ⟨rfl, rfl, rfl⟩
  | cons op ops ih =>
    obtain ⟨hwidth, hheight, hbrush⟩ := ih (d.exec op)
    obtain ⟨hw, hh, hb⟩ := d.frame_exec op
    exact ⟨hwidth.trans hw, hheight.trans hh, by rw [run_cons, hbrush, hb, Brush.after_cons]⟩

end Display

/-! ## Lines -/

/-- Operations that stay on a line. -/
def DisplayOp.inline : DisplayOp κ → Bool
  | .print _ | .setForegroundColor _ | .setBackgroundColor _ => true
  | _ => false

private theorem overwrite_append (line : Nat → Cell κ) (column : Nat)
    (cells cells' : List (Cell κ)) :
    overwrite (overwrite line column cells) (column + cells.length) cells' =
      overwrite line column (cells ++ cells') := by
  funext c
  simp only [overwrite, List.getD_eq_getElem?_getD, List.getElem?_append]
  by_cases hbefore : c < column
  · rw [if_pos hbefore, if_pos (by omega), if_pos hbefore]
  · by_cases hin : c < column + cells.length
    · rw [if_pos hin, if_neg hbefore, if_neg hbefore, if_pos (by omega)]
    · rw [if_neg hin, if_neg hbefore, if_neg hbefore, if_neg (by omega),
        List.getElem?_eq_none (by omega : cells.length ≤ c - column), Option.getD_none,
        Nat.sub_add_eq]

private theorem overwrite_nil (line : Nat → Cell κ) (column : Nat) :
    overwrite line column [] = line := by
  funext c
  simp [overwrite]

private theorem overwrite_singleton (line : Nat → Cell κ) (column : Nat) (cell : Cell κ) :
    overwrite line column [cell] = Function.update line column cell := by
  funext c
  by_cases hc : c = column
  · simp [overwrite, hc]
  · rw [Function.update_of_ne hc, overwrite]
    split
    · rfl
    · rw [List.getD_eq_getElem?_getD, List.getElem?_eq_none (by simp; omega), Option.getD_none]

namespace Display

/-- A text that fits in the line is put into it. -/
theorem foldl_put (d : Display κ) {cs : List Char} (hfit : d.column + cs.length ≤ d.width) :
    cs.foldl put d =
      { d.setLine d.row (overwrite (d.lines d.row) d.column (cs.map d.brush.cell)) with
        column := d.column + cs.length } := by
  induction cs generalizing d with
  | nil => simp [setLine, overwrite_nil]
  | cons c cs ih =>
    rw [List.length_cons] at hfit
    have hput : d.put c = d.write c := if_pos (by omega)
    have hcells := overwrite_append (d.lines d.row) d.column [d.brush.cell c] (cs.map d.brush.cell)
    rw [overwrite_singleton, List.length_singleton, List.singleton_append] at hcells
    rw [List.foldl_cons, hput, ih (d.write c) (by simp only [write, setLine]; omega)]
    simp only [write, setLine, Function.update_self, Function.update_idem, hcells, List.map_cons,
      List.length_cons, Nat.add_assoc, Nat.add_comm 1]

/-- Operations that stay on a line put their cells into it, if these fit. -/
theorem run_inline {ops : List (DisplayOp κ)} (h : ∀ op ∈ ops, op.inline) (d : Display κ)
    (hfit : d.column + (d.brush.cells ops).length ≤ d.width) :
    d.run ops =
      { d.setLine d.row (overwrite (d.lines d.row) d.column (d.brush.cells ops)) with
        column := d.column + (d.brush.cells ops).length
        brush := d.brush.after ops } := by
  induction ops generalizing d with
  | nil => simp [setLine, overwrite_nil]
  | cons op ops ih =>
    obtain ⟨hop, hops⟩ := List.forall_mem_cons.mp h
    cases op with
    | print text =>
      have hlen : text.toList.length = (text.toList.map d.brush.cell).length :=
        (List.length_map _).symm
      rw [Brush.cells_print, List.length_append, List.length_map] at hfit
      rw [run_cons, exec, foldl_put d (by omega), ih hops _ (by simp only [setLine]; omega)]
      simp only [setLine, Function.update_self, Function.update_idem, Brush.cells_print,
        Brush.after_cons, Brush.apply, List.length_append, hlen, overwrite_append, Nat.add_assoc]
    | setForegroundColor color => exact ih hops _ hfit
    | setBackgroundColor color => exact ih hops _ hfit
    | moveTo | clearAll | clearCurrentLine | clearUntilNewLine | scrollUp | scrollDown => cases hop

end Display

/-- Operations that stay on a line and show nothing of the foreground they start with. -/
structure InLine (ops : List (DisplayOp κ)) : Prop where
  inline : ∀ op ∈ ops, op.inline
  settles : Settles ops

/-- No operation leaves a line. -/
theorem InLine.nil : InLine ([] : List (DisplayOp κ)) := ⟨by simp, rfl⟩

private theorem settles_append {ops ops' : List (DisplayOp κ)} (h : Settles ops)
    (h' : Settles ops') :
    Settles (ops ++ ops') := by
  induction ops with
  | nil => exact h'
  | cons op ops ih =>
    cases op with
    | print text =>
      obtain ⟨hblank, h⟩ := (Bool.and_eq_true _ _).mp h
      exact (Bool.and_eq_true _ _).mpr ⟨hblank, ih h⟩
    | setForegroundColor => exact h
    | _ => exact ih h

/-- Two stretches that stay in a line do so together. -/
theorem InLine.append {ops ops' : List (DisplayOp κ)} (h : InLine ops) (h' : InLine ops') :
    InLine (ops ++ ops') :=
  ⟨List.forall_mem_append.mpr ⟨h.inline, h'.inline⟩, settles_append h.settles h'.settles⟩

/-- So do any number of them. -/
theorem InLine.flatMap {α : Type*} {l : List α} {f : α → List (DisplayOp κ)}
    (h : ∀ a ∈ l, InLine (f a)) : InLine (l.flatMap f) := by
  induction l with
  | nil => exact .nil
  | cons a l ih =>
    obtain ⟨ha, h⟩ := List.forall_mem_cons.mp h
    exact ha.append (ih h)

/-- With a foreground of their own, operations need nothing else. -/
theorem InLine.setForegroundColor {ops : List (DisplayOp κ)} (h : ∀ op ∈ ops, op.inline)
    (color : κ) :
    InLine (.setForegroundColor color :: ops) := ⟨List.forall_mem_cons.mpr ⟨rfl, h⟩, rfl⟩

private theorem InLine.setBackgroundColor {ops : List (DisplayOp κ)} (h : InLine ops) (color : κ) :
    InLine (.setBackgroundColor color :: ops) :=
  ⟨List.forall_mem_cons.mpr ⟨rfl, h.inline⟩, h.settles⟩

/-- Blanks stay in a line, and are seen in no foreground. -/
theorem InLine.blanks (n : Nat) :
    InLine ([.print (String.ofList (List.replicate n ' '))] : List (DisplayOp κ)) := by
  refine ⟨by simp [DisplayOp.inline], ?_⟩
  simp only [Settles, String.toList_ofList, Bool.and_true, List.all_eq_true]
  intro c hc
  rw [List.eq_of_mem_replicate hc]
  rfl

/-- The operations leave this background when they find it. -/
def RestoresBackground (background : κ) (ops : List (DisplayOp κ)) : Prop :=
  ∀ brush : Brush κ, brush.background = background → (brush.after ops).background = background

/-- No operation changes the background. -/
theorem RestoresBackground.nil (background : κ) : RestoresBackground background [] := fun _ h ↦ h

/-- Two stretches that restore the background do so together. -/
theorem RestoresBackground.append {background : κ} {ops ops' : List (DisplayOp κ)}
    (h : RestoresBackground background ops) (h' : RestoresBackground background ops') :
    RestoresBackground background (ops ++ ops') := by
  intro brush hb
  rw [Brush.after_append]
  exact h' _ (h brush hb)

/-- So do any number of them. -/
theorem RestoresBackground.flatMap {α : Type*} {background : κ} {l : List α}
    {f : α → List (DisplayOp κ)} (h : ∀ a ∈ l, RestoresBackground background (f a)) :
    RestoresBackground background (l.flatMap f) := by
  induction l with
  | nil => exact .nil background
  | cons a l ih =>
    obtain ⟨ha, h⟩ := List.forall_mem_cons.mp h
    exact ha.append (ih h)

/-! ## The last row -/

/-- On a display of this size the operations change nothing above the last row. -/
def KeepsAbove (width height : Nat) (ops : List (DisplayOp κ)) : Prop :=
  ∀ d : Display κ, d.width = width → d.height = height →
    ∀ row, row ≠ height - 1 → (d.run ops).lines row = d.lines row

/-- No operation changes a row. -/
theorem KeepsAbove.nil (width height : Nat) : KeepsAbove width height ([] : List (DisplayOp κ)) :=
  fun _ _ _ _ _ ↦ rfl

/-- Two stretches that keep the rows above the last one do so together. -/
theorem KeepsAbove.append {width height : Nat} {ops ops' : List (DisplayOp κ)}
    (h : KeepsAbove width height ops) (h' : KeepsAbove width height ops') :
    KeepsAbove width height (ops ++ ops') := by
  intro d hwidth hheight row hrow
  obtain ⟨hw, hh, -⟩ := d.frame_run ops
  rw [Display.run_append, h' _ (hw.trans hwidth) (hh.trans hheight) row hrow,
    h d hwidth hheight row hrow]

/-- Text that fits between a column and the edge of the last row, which may be cleared first. -/
theorem keepsAbove_moveTo {width height column row : Nat} {ops : List (DisplayOp κ)}
    (hrow : height ≤ row + 1) (hinline : ∀ op ∈ ops, op.inline)
    (hfit : min column (width - 1) + (textOf ops).length ≤ width) (clears : Bool) :
    KeepsAbove width height
      (.moveTo column row :: ((if clears then [.clearCurrentLine] else []) ++ ops)) := by
  intro d hwidth hheight r hr
  have hlast : min row (d.height - 1) = height - 1 := by omega
  rw [Display.run_cons, Display.run_append]
  set d₁ := (d.exec (.moveTo column row)).run (if clears then [.clearCurrentLine] else []) with hd₁
  have hcells : (d₁.brush.cells ops).length = (textOf ops).length := by
    rw [← map_char_cells d₁.brush ops, List.length_map]
  obtain ⟨hline, hcolumn, hrow₁, hw⟩ : d₁.lines r = d.lines r ∧ d₁.column = min column (width - 1) ∧
      d₁.row = height - 1 ∧ d₁.width = width := by
    rw [hd₁]
    cases clears with
    | false => exact ⟨rfl, by rw [← hwidth]; rfl, hlast, hwidth⟩
    | true =>
      refine ⟨?_, by rw [← hwidth]; rfl, hlast, hwidth⟩
      exact Function.update_of_ne (by rw [Display.exec, hlast]; exact hr) _ _
  rw [Display.run_inline hinline d₁ (by rw [hcells, hcolumn, hw]; exact hfit)]
  simp only [Display.setLine]
  rw [Function.update_of_ne (by rw [hrow₁]; exact hr), hline]

/-! ## Rows -/

/-- The operations put these cells on a row, with blanks behind them, and change nothing else,
whatever foreground they start with; the last column stays free. -/
structure DrawsLine (background : κ) (row : Nat) (cells : List (Cell κ))
    (ops : List (DisplayOp κ)) : Prop where
  lines : ∀ d : Display κ, d.brush.background = background → row < d.height →
    cells.length < d.width →
    (d.run ops).lines = Function.update d.lines row (lineOf background cells)
  background : RestoresBackground background ops

/-- A row drawn from its first column and cleared behind what is drawn. -/
theorem drawsLine_of_inline {background foreground : κ} {row : Nat} {ops : List (DisplayOp κ)}
    (h : ∀ op ∈ ops, op.inline) (hs : Settles ops) (hbg : RestoresBackground background ops) :
    DrawsLine background row (Brush.cells ⟨foreground, background⟩ ops)
      (.moveTo 0 row :: ops ++ [.clearUntilNewLine]) := by
  constructor
  · intro d hd hrow hfit
    have hmin : min row (d.height - 1) = row := by omega
    obtain ⟨hc, -⟩ := @cells_congr_of_settles _ _ hs d.brush ⟨foreground, background⟩ hd
    rw [← hc] at hfit ⊢
    have hcolumn : min (d.brush.cells ops).length (d.width - 1) = (d.brush.cells ops).length := by
      omega
    have hfit' : (d.exec (.moveTo 0 row)).column +
        ((d.exec (.moveTo 0 row)).brush.cells ops).length ≤ (d.exec (.moveTo 0 row)).width := by
      simp only [Display.exec]
      omega
    rw [Display.run_append, Display.run_cons d, Display.run_inline h _ hfit']
    simp only [Display.run_cons, Display.run_nil, Display.exec, Display.setLine, hmin, hbg _ hd,
      Function.update_self,
      Function.update_idem, Nat.zero_min, Nat.zero_add, hcolumn]
    congr 1
    funext c
    simp only [overwrite, lineOf, List.getD_eq_getElem?_getD, Nat.not_lt_zero, if_false,
      Nat.sub_zero]
    split
    · next hlt => rw [List.getElem?_eq_getElem hlt, Option.getD_some, Option.getD_some]
    · next hge => rw [List.getElem?_eq_none (Nat.not_lt.mp hge), Option.getD_none]
  · intro brush hb
    rw [Brush.after_append]
    exact hbg brush hb

/-- Rows drawn one after the other. -/
theorem run_flatMap_drawsLine {background : κ} {rows : List Nat} {cells : Nat → List (Cell κ)}
    {ops : Nat → List (DisplayOp κ)}
    (h : ∀ row ∈ rows, DrawsLine background row (cells row) (ops row)) (d : Display κ)
    (hd : d.brush.background = background) (hrows : ∀ row ∈ rows, row < d.height)
    (hfit : ∀ row ∈ rows, (cells row).length < d.width) :
    (d.run (rows.flatMap ops)).lines =
      fun row ↦ if row ∈ rows then lineOf background (cells row) else d.lines row := by
  induction rows generalizing d with
  | nil => simp
  | cons row rows ih =>
    obtain ⟨hline, h⟩ := List.forall_mem_cons.mp h
    obtain ⟨hrow, hrows⟩ := List.forall_mem_cons.mp hrows
    obtain ⟨hwidth, hfit⟩ := List.forall_mem_cons.mp hfit
    obtain ⟨hw, hh, hb⟩ := d.frame_run (ops row)
    have hlines := ih h (d.run (ops row)) (by rw [hb]; exact hline.background _ hd)
      (fun row hr ↦ by rw [hh]; exact hrows row hr) (fun row hr ↦ by rw [hw]; exact hfit row hr)
    rw [List.flatMap_cons, Display.run_append, hlines, hline.lines d hd hrow hwidth]
    funext r
    by_cases hr : r ∈ rows
    · rw [if_pos hr, if_pos (List.mem_cons_of_mem _ hr)]
    · rw [if_neg hr]
      by_cases heq : r = row
      · rw [heq, Function.update_self, if_pos (List.mem_cons_self ..)]
      · rw [Function.update_of_ne heq, if_neg (by simp [heq, hr])]

end Tofu

import Tofu.Base.Machine
import Tofu.Base.Chain
import Tofu.Base.Run
import Tofu.Base.Timeline
import Tofu.Base.Draft
import Tofu.Base.FileSystem
import Tofu.Base.Matching
import Tofu.Base.BinarySearch
import Tofu.Base.PrefixCode
import Tofu.Base.Unicode
import Tofu.Base.Display
import Tofu.Base.Numerals
import Tofu.Base.CursorLine
import Tofu.Rope.Mask
import Tofu.Rope.Splice
import Tofu.Rope.Offsetwise
import Tofu.Rope.Overwrite
import Tofu.Rope.XiRope
import Tofu.Rope.Reference
import Tofu.Rope.Tree
import Tofu.Selection.Region
import Tofu.Selection.Movement
import Tofu.Selection.Merge
import Tofu.Selection.Selection
import Tofu.Selection.Coverage
import Tofu.Selection.Mapping
import Tofu.Selection.Upkeep
import Tofu.Selection.InRange
import Tofu.Selection.Extend
import Tofu.Selection.Moves
import Tofu.Selection.Transform
import Tofu.Buffer.History
import Tofu.Buffer.CurrentBuffer
import Tofu.Buffer.ByteRope
import Tofu.Buffer.Invalidated
import Tofu.Buffer.Opening
import Tofu.Buffer.Editing
import Tofu.Buffer.Window
import Tofu.Buffer.Applicability
import Tofu.Ops.Operations
import Tofu.Ops.Carets
import Tofu.Ops.Clash
import Tofu.Ops.Meaning
import Tofu.Modes.Event
import Tofu.Modes.CountEntry
import Tofu.Modes.Mode
import Tofu.Modes.Insert
import Tofu.Modes.Search
import Tofu.Modes.Matches
import Tofu.Modes.GreedySearch
import Tofu.Modes.Normal
import Tofu.Modes.Session
import Tofu.Modes.InsertEdits
import Tofu.Modes.HexByte
import Tofu.Modes.DeletePaste
import Tofu.Modes.CaretWrites
import Tofu.Modes.OverwriteByte
import Tofu.Modes.OneRegion
import Tofu.Modes.Typing
import Tofu.Modes.Closures
import Tofu.Modes.Pieces
import Tofu.Modes.WidthSplit
import Tofu.Modes.Entering
import Tofu.Modes.Requests
import Tofu.Modes.Bounds
import Tofu.Modes.Counts
import Tofu.Modes.Command
import Tofu.Modes.Redraw
import Tofu.Modes.Effects
import Tofu.Modes.HalfRedraw
import Tofu.Modes.CursorKeys
import Tofu.Modes.Prompt
import Tofu.Modes.SearchPrompt
import Tofu.Modes.Workspace
import Tofu.Modes.Unsaved
import Tofu.View.HexView
import Tofu.View.Reading
import Tofu.View.Kept
import Tofu.View.Windows
import Tofu.View.Saving
import Tofu.View.Scrolling
import Tofu.View.Memory
import Tofu.View.Alignment
import Tofu.View.Styles
import Tofu.View.SearchLine
import Tofu.View.Marks
import Tofu.View.Characters
import Tofu.View.ByteLines
import Tofu.View.Rows
import Tofu.View.Painter
import Tofu.View.Inspected
import Tofu.View.CommandLine
import Tofu.View.PromptWidth
import Tofu.View.StatusLine
import Tofu.View.Row
import Tofu.View.Picture
import Tofu.View.Output
import Tofu.View.Repaint
import Tofu.Modes.UndoKeys
import Tofu.Modes.SafeEdits
import Tofu.Modes.Panics
import Tofu.View.Faithful
import Tofu.View.Rounds
import Tofu.View.Files
import Tofu.View.PromptLines

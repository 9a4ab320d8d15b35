import Tofu.Base.Matching
import Tofu.Modes.Mode

/-!
# Pattern search

`src/src/modes/search.rs` and the two modes a search is opened for,
`modes/split.rs:48–97` and `modes/collapse.rs`. The crates `jetscii` and `regex` are not
part of the repository: `SearchEngine` takes what the editor calls of them as parameters,
with the behaviour they document.
-/

namespace Tofu

open Rope Matching

variable {X : XiRope UInt8}

/-- The pieces of the regular expressions the editor builds: `.` and `\\xHH`. -/
inductive RegexPiece where
  | dot
  | hex (c : UInt8)
  deriving DecidableEq, Repr

/-- Without Unicode a dot matches every byte but a line feed. -/
def RegexPiece.matches : RegexPiece → UInt8 → Bool
  | .dot, x => x != 0x0A
  | .hex c, x => x == c

/-- The searches the editor calls: `ByteSubstring::find`, and `RegexBuilder::build` (which
refuses expressions that compile to too much) with `Regex::find_iter`. -/
structure SearchEngine where
  find : List UInt8 → List UInt8 → Option Nat
  Regex : Type
  build : List RegexPiece → Option Regex
  findIter : Regex → List UInt8 → List Interval
  find_eq : ∀ needle haystack, needle ≠ [] →
    find needle haystack = leftmost (needle.map fun c x ↦ x == c) haystack
  findIter_eq : ∀ expr re haystack, expr ≠ [] → build expr = some re →
    findIter re haystack = (occurrences (expr.map RegexPiece.matches) 0 0 haystack).map
      fun s ↦ { start := s, stop := s + expr.length }

/-- An engine that searches as documented and builds every expression. -/
def SearchEngine.reference : SearchEngine where
  find needle haystack := leftmost (needle.map fun c x ↦ x == c) haystack
  Regex := List RegexPiece
  build := some
  findIter expr haystack := (occurrences (expr.map RegexPiece.matches) 0 0 haystack).map
    fun s ↦ { start := s, stop := s + expr.length }
  find_eq _ _ _ := rfl
  findIter_eq _ _ _ _ h := by cases h; rfl

namespace Pattern

/-- What `insert_literal` and `insert_wildcard` share; inserting behind the end panics. -/
def insertPiece (p : Pattern) (position : Nat) (piece : PatternPiece) : Option (Pattern × Nat) :=
  if position ≤ p.pieces.length then
    some ({ pieces := p.pieces.insertIdx position piece }, position + 1)
  else none

/-- `search.rs:29–32`. -/
def insertLiteral (p : Pattern) (position : Nat) (literal : UInt8) : Option (Pattern × Nat) :=
  p.insertPiece position (.literal literal)

/-- `search.rs:33–36`; an index behind the end panics. -/
def insertHalfLiteral (p : Pattern) (position : Nat) (literal : UInt8) :
    Option (Pattern × Nat) :=
  if position < p.pieces.length then
    some ({ pieces := p.pieces.set position (.literal literal) }, position + 1)
  else none

/-- `search.rs:37–40`. -/
def insertWildcard (p : Pattern) (position : Nat) : Option (Pattern × Nat) :=
  p.insertPiece position .wildcard

/-- `search.rs:41–48`. -/
def remove (p : Pattern) (position : Nat) : Pattern :=
  { pieces := p.pieces.eraseIdx position }

/-- `search.rs:50–62`: the bytes of a pattern without wildcards. -/
def asBasicSlice (p : Pattern) : Option (List UInt8) :=
  p.pieces.mapM fun
    | .literal c => some c
    | .wildcard => none

/-- `search.rs:88–95`. -/
def expr (p : Pattern) : List RegexPiece :=
  p.pieces.map fun
    | .wildcard => .dot
    | .literal c => .hex c

/-- The loop of the literal search in the bytes of one region, `search.rs:70–83`. `none` is
a slice out of range, or a loop that is still running after `fuel` rounds. -/
def literalMatches (E : SearchEngine) (needle data : List UInt8) :
    Nat → Nat → Nat → Option (List Interval)
  | 0, _, _ => none
  | fuel + 1, base, sliceBase =>
    if data.length < sliceBase then none
    else
      match E.find needle (data.drop sliceBase) with
      | none => some []
      | some start =>
        let matchAbsStart := base + start
        (literalMatches E needle data fuel (matchAbsStart + needle.length)
          (sliceBase + start + needle.length)).map
          ({ start := matchAbsStart, stop := matchAbsStart + needle.length } :: ·)

/-- `search.rs:64–111`. -/
def mapSelectionsToMatches (E : SearchEngine) (p : Pattern) (b : CurrentBuffer X) :
    Option (List (List Interval)) :=
  match p.asBasicSlice with
  | some needle =>
    b.selection.regions.mapM fun x ↦ do
      let data ← sliceToCow b.data x.interval
      literalMatches E needle data (data.length + 1) x.min 0
  | none => do
    let matcher ← E.build p.expr
    b.selection.regions.mapM fun x ↦ do
      let data ← sliceToCow b.data x.interval
      some ((E.findIter matcher data).map fun r ↦
        { start := x.min + r.start, stop := x.min + r.stop })

end Pattern

/-- The bytes matched in all regions, `split.rs:54–59` and `collapse.rs:22–27`. -/
def matchedLen (matchedRanges : List (List Interval)) : Nat :=
  (matchedRanges.flatten.map fun r ↦ r.stop - r.start).sum

/-- The loop over the ranges matched in one region, `split.rs:70–94`. -/
def splitRegion : SelRegion → List Interval → List SelRegion
  | baseRegion, [] => [baseRegion]
  | baseRegion, range :: ranges =>
    let (left, right) := baseRegion.splitAtRegion range.start (range.stop - 1)
    left.toList ++
      match right with
      | some right => splitRegion right ranges
      | none => []

/-- A closure that takes what belongs to its region off the front of a list and panics when
nothing is left there. -/
def takeFront (h : SelRegion → List Interval → List SelRegion) (remaining : List (List Interval))
    (region : SelRegion) : Option (List (List Interval) × List SelRegion) :=
  match remaining with
  | [] => none
  | ranges :: remaining => some (remaining, h region ranges)

/-- What a region becomes of which only the matches are kept, `collapse.rs:41–43`. -/
def collapseRegion (baseRegion : SelRegion) (ranges : List Interval) : List SelRegion :=
  ranges.map fun x ↦ (SelRegion.new x.start (x.stop - 1)).inheritDirection baseRegion

/-- `split.rs:48–97`. -/
def Split.applySearch (E : SearchEngine) (pattern : Pattern) (b : CurrentBuffer X) : Outcome X :=
  if pattern.pieces = [] then .keep b (.newMode (.normal .new))
  else do
    let matchedRanges ← pattern.mapSelectionsToMatches E b
    if matchedLen matchedRanges = b.selection.lenBytes then
      Outcome.keep b (.newMode (.normal .new))
    else
      Outcome.modeAndDirty (.normal .new) (b.mapSelections (takeFront splitRegion) matchedRanges)

/-- `collapse.rs:16–47`. -/
def collapseSearch (E : SearchEngine) (pattern : Pattern) (b : CurrentBuffer X) : Outcome X :=
  if pattern.pieces = [] then .keep b (.newMode (.normal .new))
  else do
    let matchedRanges ← pattern.mapSelectionsToMatches E b
    if matchedLen matchedRanges = 0 then Outcome.keep b (.newMode (.normal .new))
    else
      Outcome.modeAndDirty (.normal .new) (b.mapSelections (takeFront collapseRegion) matchedRanges)

/-- The two implementations of `apply_search`. -/
def SearchAcceptor.applySearch (E : SearchEngine) (next : SearchAcceptor) (pattern : Pattern)
    (b : CurrentBuffer X) : Outcome X :=
  match next with
  | .split _ => Split.applySearch E pattern b
  | .collapse => collapseSearch E pattern b

namespace Search

/-- `search.rs:131–142`. -/
inductive Action where
  | insertNull
  | insertWildcard
  | removeLast
  | removeThis
  | cursorLeft
  | cursorRight
  | switchInputMode
  | finish
  | cancel
  deriving DecidableEq, Repr

/-- `search.rs:144–158`. -/
def defaultMaps : KeyMap Action :=
  [onKey .backspace .removeLast,
   onKey .delete .removeThis,
   onKey .enter .finish,
   onKey .esc .cancel,
   onKey .left .cursorLeft,
   onKey .right .cursorRight,
   onCtrl 'o' .switchInputMode,
   onCtrl 'n' .insertNull,
   onCtrl 'w' .insertWildcard]

/-- The prompt after a bound key, `search.rs:187–234`. A pending half is left behind the
cursor first. -/
def act (E : SearchEngine) (s : Search) (action : Action) (b : CurrentBuffer X) : Outcome X :=
  let cursor := if s.hexHalf.isSome then s.cursor + 1 else s.cursor
  let prompt (pattern : Pattern) (cursor : Nat) (hex : Bool) : Outcome X :=
    .keep b (.newMode (.search { s with pattern, cursor, hex, hexHalf := none }))
  match action with
  | .insertNull => do
    let (pattern, cursor) ← s.pattern.insertLiteral cursor 0
    prompt pattern cursor s.hex
  | .insertWildcard => do
    let (pattern, cursor) ← s.pattern.insertWildcard cursor
    prompt pattern cursor s.hex
  | .removeLast =>
    if cursor ≠ 0 then prompt (s.pattern.remove (cursor - 1)) (cursor - 1) s.hex
    else .keep b .none
  | .removeThis => prompt (s.pattern.remove cursor) cursor s.hex
  | .cursorLeft => prompt s.pattern (if cursor ≠ 0 then cursor - 1 else cursor) s.hex
  | .cursorRight =>
    prompt s.pattern (if cursor < s.pattern.pieces.length then cursor + 1 else cursor) s.hex
  | .switchInputMode => prompt s.pattern cursor (!s.hex)
  | .cancel => .keep b (.newMode (.normal .new))
  | .finish => s.next.applySearch E s.pattern b

/-- A typed character, `search.rs:240–267`. -/
def typed (s : Search) (ch : Char) (b : CurrentBuffer X) : Outcome X :=
  let prompt (pattern : Pattern) (cursor : Nat) (hexHalf : Option UInt8) : Outcome X :=
    .keep b (.newMode (.search { s with pattern, cursor, hexHalf }))
  if !s.hex then do
    let (pattern, cursor) ← s.pattern.insertLiteral s.cursor ch.toNat.toUInt8
    prompt pattern cursor s.hexHalf
  else
    match hexDigit ch with
    | none => .unhandled
    | some digit =>
      match s.hexHalf with
      | some half => do
        let (pattern, cursor) ← s.pattern.insertHalfLiteral s.cursor (half ||| digit)
        prompt pattern cursor none
      | none => do
        let (pattern, _) ← s.pattern.insertLiteral s.cursor (digit <<< 4)
        prompt pattern s.cursor (some (digit <<< 4))

/-- `search.rs:181–271`. -/
def transition (E : SearchEngine) (s : Search) (evt : Event) (b : CurrentBuffer X) : Outcome X :=
  match defaultMaps.eventToAction evt with
  | some action => s.act E action b
  | none =>
    match evt with
    | .key { code := .char ch, modifiers } =>
      if !modifiers.isEmpty then .unhandled else s.typed ch b
    | _ => .unhandled

end Search

end Tofu

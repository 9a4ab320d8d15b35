import Tofu.Rope.XiRope
import Tofu.Selection.Selection

/-!
# The selection after an edit

`src/src/selection.rs:88–149`. Carets and tails are carried through the delta; the
position just behind the old data goes to the one just behind the new data.
-/

namespace Tofu

open Rope

variable {α : Type} (X : XiRope α)

namespace Selection

/-- `selection.rs:88–111`. -/
def applyDelta (sel : Selection) (delta : X.Delta) (maxLen : Nat) : Option Selection :=
  let newMaxLen := X.newDocumentLen delta
  if newMaxLen = 0 then some sel.clear
  else
    (sel.mapSelections (pureClosure fun region ↦
      [SelRegion.new
        (if maxLen = region.caret then newMaxLen
          else min newMaxLen (X.transform delta region.caret))
        (if maxLen = region.tail then newMaxLen
          else min newMaxLen (X.transform delta region.tail))]) ()).map Prod.snd

/-- `selection.rs:113–149`. -/
def applyDeltaOffsetCarets (sel : Selection) (delta : X.Delta) (caretOffset tailOffset : Int)
    (maxLen : Nat) : Option Selection :=
  let newMaxLen := X.newDocumentLen delta
  if newMaxLen = 0 then some sel.clear
  else
    (sel.mapSelections (pureClosure fun region ↦
      [SelRegion.new
        (if maxLen = region.caret then asUsize (isizeAdd (asIsize newMaxLen) caretOffset)
          else min newMaxLen
            (asUsize (isizeAdd (asIsize (X.transform delta region.caret)) caretOffset)))
        (if maxLen = region.tail then asUsize (isizeAdd (asIsize newMaxLen) tailOffset)
          else min newMaxLen
            (asUsize (isizeAdd (asIsize (X.transform delta region.tail)) tailOffset)))])
      ()).map Prod.snd

private theorem inBounds_clear (sel : Selection) (n : Nat) :
    ∀ r ∈ sel.clear.regions, r.InBounds n := by
  intro r hr
  obtain rfl : r = { SelRegion.new 0 0 with main := true } := by simpa [clear] using hr
  exact ⟨Nat.zero_le _, Nat.zero_le _⟩

variable {X} {sel sel' : Selection} {delta : X.Delta} {maxLen : Nat}

/-- The selection after an edit lies in the new document, wherever it was before. -/
theorem inBounds_applyDelta (h : sel.applyDelta X delta maxLen = some sel') :
    ∀ r ∈ sel'.regions, r.InBounds (X.newDocumentLen delta) := by
  rw [applyDelta] at h
  split at h
  · obtain rfl := Option.some.inj h
    exact inBounds_clear sel _
  · rw [map_snd_mapSelections] at h
    refine inBounds_mapRegions h fun r _ s hs ↦ ?_
    obtain rfl := List.mem_singleton.mp hs
    simp only [SelRegion.InBounds, SelRegion.caret_new, SelRegion.tail_new]
    constructor <;> split <;> omega

/-- The same with the carets set back by one. -/
theorem inBounds_applyDeltaOffsetCarets (hlen : X.newDocumentLen delta < 2 ^ 63)
    (h : sel.applyDeltaOffsetCarets X delta (-1) 0 maxLen = some sel') :
    ∀ r ∈ sel'.regions, r.InBounds (X.newDocumentLen delta) := by
  rw [applyDeltaOffsetCarets] at h
  split at h
  · obtain rfl := Option.some.inj h
    exact inBounds_clear sel _
  · next hz =>
    rw [map_snd_mapSelections] at h
    refine inBounds_mapRegions h fun r _ s hs ↦ ?_
    obtain rfl := List.mem_singleton.mp hs
    have h1 := asUsize_isizeAdd (a := X.newDocumentLen delta) (b := -1) hlen (by omega) (by omega)
    have h0 := asUsize_isizeAdd (a := X.newDocumentLen delta) (b := 0) hlen (by omega) (by omega)
    simp only [SelRegion.InBounds, SelRegion.caret_new, SelRegion.tail_new]
    constructor <;> split <;> omega

end Selection

end Tofu

import Tofu.Modes.Closures
import Tofu.Modes.HexByte
import Tofu.Selection.Coverage

/-!
# Entering an insertion mode

`i` turns every region backward, `a` turns it forward and takes its caret one offset on
(`src/src/modes/normal.rs:149–174`). The byte typed next comes before the first byte of
every region or behind its last one. Of two neighbouring regions the first one's caret
then lies on the second one, and the two are merged.
-/

namespace Tofu

open Rope SelRegion

variable {X : XiRope UInt8}

/-! ## Typing one byte -/

/-- The keys that type a byte, in ASCII or in hex input: an ASCII character, CTRL-n or two hex
digits. -/
inductive ByteKeys : Bool → UInt8 → List KeyEvent → Prop where
  | ascii {c : Char} (shift : Bool) (hc : c.toNat < 128) :
    ByteKeys false (UInt8.ofNat c.toNat) [EditKey.event shift (.char c)]
  | null (hex shift : Bool) : ByteKeys hex 0 [EditKey.event shift .null]
  | digits {c₁ c₂ : Char} {hi lo : UInt8} (shift₁ shift₂ : Bool) (hhi : hexDigit c₁ = some hi)
    (hlo : hexDigit c₂ = some lo) :
    ByteKeys true (16 * hi + lo) [EditKey.event shift₁ (.char c₁), EditKey.event shift₂ (.char c₂)]

namespace Insert

/-- In the modes that insert, a byte typed with no half pending is put before every caret. -/
theorem runSteps_byteKeys (E : SearchEngine) (bytesPerLine : Nat) {m : Insert}
    {b : CurrentBuffer X} {x : UInt8} {keys : List KeyEvent} (hk : ByteKeys m.hex x keys)
    (hmode : m.mode ≠ .overwrite) (hhalf : m.hexHalf = none)
    (hp : b.selection.Placed b.data.length)
    (hmain : b.selection.mainSelection < b.selection.regions.length)
    (hlen : b.data.length + b.selection.regions.length < 2 ^ 63) :
    ∃ b', runSteps (Session.press E bytesPerLine) keys { mode := .insert m, buffer := b } =
        some { mode := .insert m, buffer := b' } ∧
      b'.data = Splice.apply 0 (Splice.insertions x (b.selection.regions.map caret)) b.data := by
  rcases m with ⟨mode, hex, hexHalf⟩
  simp only at hk hmode hhalf
  subst hhalf
  cases hk with
  | @ascii c shift hc =>
    obtain ⟨b', h, hdata, -⟩ := CurrentBuffer.insert_byte hp hmain (UInt8.ofNat c.toNat)
    refine ⟨b', ?_, hdata⟩
    have hkey : (Mode.insert ⟨mode, false, none⟩).onBuffer E
        (.key (EditKey.event shift (.char c))) b bytesPerLine =
          .dirty (some (b', .changeLength)) := by
      rw [Mode.onBuffer, transition_char, if_neg (by simp),
        transitionAsciiInsertion_ascii hmode hc, h]
    rw [runSteps_cons, Session.press_of_dirty hkey]
    rfl
  | null _ shift =>
    obtain ⟨b', h, hdata, -⟩ := CurrentBuffer.insert_byte hp hmain 0
    refine ⟨b', ?_, hdata⟩
    have hkey : (Mode.insert ⟨mode, hex, none⟩).onBuffer E
        (.key (EditKey.event shift .null)) b bytesPerLine =
          .modeAndDirty (.insert ⟨mode, hex, none⟩) (some (b', .changeLength)) := by
      rw [Mode.onBuffer, transition_null, h]
    rw [runSteps_cons, Session.press_of_modeAndDirty hkey]
    rfl
  | @digits c₁ c₂ hi lo shift₁ shift₂ hhi hlo =>
    obtain ⟨b₁, h₁, hdata₁, hsel₁⟩ := CurrentBuffer.insert_half hp hmain hlen (hi <<< 4)
    obtain ⟨b₂, h₂, hdata₂, -⟩ :=
      CurrentBuffer.change_half hp hmain hlen (hi <<< 4) (hi <<< 4 ||| lo) hdata₁ hsel₁
    refine ⟨b₂, ?_, ?_⟩
    · have hkey₁ : (Mode.insert ⟨mode, true, none⟩).onBuffer E
          (.key (EditKey.event shift₁ (.char c₁))) b bytesPerLine =
            .modeAndDirty (.insert ⟨mode, true, some (hi <<< 4)⟩) (some (b₁, .changeLength)) := by
        rw [Mode.onBuffer, transition_char, if_pos rfl, transitionHexInsertion, hhi]
        simp only [hexInsertion_first hmode, h₁]
      have hkey₂ : (Mode.insert ⟨mode, true, some (hi <<< 4)⟩).onBuffer E
          (.key (EditKey.event shift₂ (.char c₂))) b₁ bytesPerLine =
            .modeAndDirty (.insert ⟨mode, true, none⟩) (some (b₂, .changeLength)) := by
        rw [Mode.onBuffer, transition_char, if_pos rfl, transitionHexInsertion, hlo, ← h₂]
        rfl
      rw [runSteps_cons, Session.press_of_modeAndDirty hkey₁, Option.map_some, Option.map_some,
        Option.bind_some, runSteps_cons, Session.press_of_modeAndDirty hkey₂]
      rfl
    · rw [hdata₂, shiftLeft_or (toNat_lt_of_hexDigit hhi) (toNat_lt_of_hexDigit hlo)]

end Insert

/-! ## Where the modes are entered -/

/-- The ways to enter a mode that inserts. -/
inductive Entry where
  | insert
  | append
  deriving DecidableEq, Repr

namespace Entry

/-- The key in normal mode; the capital letters enter hex input, `normal.rs:89–92`. -/
def key (hex : Bool) : Entry → KeyEvent
  | .insert => .plain (.char (if hex then 'I' else 'i'))
  | .append => .plain (.char (if hex then 'A' else 'a'))

/-- The mode entered. -/
def mode (hex : Bool) : Entry → Insert
  | .insert => { mode := .insert, hex, hexHalf := none }
  | .append => { mode := .append, hex, hexHalf := none }

/-- What entering maps over the regions. -/
def closure (bytesPerLine maxSize : Nat) : Entry → RegionMap
  | .insert => .toBackward
  | .append => .append bytesPerLine maxSize

/-- Directly before the first byte of a region, or directly after its last one. -/
def position : Entry → SelRegion → Nat
  | .insert, r => r.min
  | .append, r => r.max + 1

/-- A region of bytes once the mode is entered. -/
def entered : Entry → SelRegion → SelRegion
  | .insert, r => SelRegion.new r.min r.max
  | .append, r => SelRegion.new (r.max + 1) r.min

variable (entry : Entry) {bytesPerLine n : Nat} {r : SelRegion}

private theorem closure_apply (hr : r.max < n) (hn : n < 2 ^ 63) :
    (entry.closure bytesPerLine n).apply r = entry.entered r := by
  cases entry with
  | insert => rfl
  | append =>
    simp only [closure, RegionMap.apply, Normal.appended, simpleExtend, entered, toForward]
    rw [if_neg (by omega)]
    simp only [movedCaret, caret_new, tail_new]
    rw [usizeAdd_of_lt (by omega), Nat.min_eq_right hr]

private theorem caret_entered (r : SelRegion) : (entry.entered r).caret = entry.position r := by
  cases entry <;> rfl

private theorem min_entered (r : SelRegion) : (entry.entered r).min = r.min := by
  have := r.min_le_max
  cases entry <;> simp only [entered, min_new] <;> omega

private theorem inBounds_entered (hr : r.max < n) : (entry.entered r).InBounds n := by
  have := r.min_le_max
  cases entry <;> simp only [entered, InBounds, caret_new, tail_new] <;> omega

/-- Entering a mode maps the regions and nothing else, unless the key is a digit of a count:
`a` and `A` are in a hex count. -/
theorem press_key (E : SearchEngine) (bytesPerLine : Nat) {m : Normal} {hex : Bool}
    (hentry : m.countState.transition (.key (entry.key hex)) = none) (b : CurrentBuffer X) :
    Session.press E bytesPerLine (entry.key hex) { mode := .normal m, buffer := b } =
      (b.selection.mapRegions fun r ↦
        [(entry.closure bytesPerLine b.data.length).apply r]).map fun sel ↦
          { mode := .insert (entry.mode hex), buffer := { b with selection := sel } } := by
  have hkey : (Mode.normal m).onBuffer E (.key (entry.key hex)) b bytesPerLine =
      .modeAndDirty (.insert (entry.mode hex)) (b.mapSelections (Selection.pureClosure fun r ↦
        [(entry.closure bytesPerLine b.data.length).apply r]) ()) := by
    simp only [Mode.onBuffer, Normal.transition, hentry]
    cases entry <;> cases hex <;> rfl
  rw [Session.press_of_modeAndDirty hkey, CurrentBuffer.map_fst_mapSelections_pure,
    Option.map_map]
  rfl

/-! ## The byte at every region -/

variable {b : CurrentBuffer X} (hv : b.selection.Valid)
  (hin : ∀ r ∈ b.selection.regions, r.max < b.data.length)
  (hlen : b.data.length + b.selection.regions.length < 2 ^ 63)

include hin hlen in
private theorem press_key_eq (E : SearchEngine) (bytesPerLine : Nat) {m : Normal} {hex : Bool}
    (hentry : m.countState.transition (.key (entry.key hex)) = none) :
    Session.press E bytesPerLine (entry.key hex) { mode := .normal m, buffer := b } =
      (b.selection.mapRegions fun r ↦ [entry.entered r]).map fun sel ↦
        { mode := .insert (entry.mode hex), buffer := { b with selection := sel } } := by
  rw [press_key entry E bytesPerLine hentry, Selection.mapRegions_congr fun r hr ↦ by
    rw [entry.closure_apply (hin r hr) (by omega)]]

include hv hin in
private theorem placed_entered {sel : Selection}
    (h : (b.selection.mapRegions fun r ↦ [entry.entered r]) = some sel) :
    sel.Valid ∧ sel.Placed b.data.length := by
  have hmin : b.selection.regions.Pairwise fun r s ↦
      (entry.entered r).min ≤ (entry.entered s).min := by
    refine hv.sorted.imp fun hab ↦ ?_
    rw [min_entered, min_entered]
    exact hab.notBehind.1
  refine ⟨hv.mapRegions h (fun r _ hm ↦ ?_) (.inl hmin),
    Selection.placed_mapRegions h hmin fun r hr ↦ entry.inBounds_entered (hin r hr)⟩
  cases entry <;> simp [entered] at hm

include hv hin hlen in
/-- Once the mode is entered the byte is put before every caret. -/
theorem runSteps_entered (E : SearchEngine) (bytesPerLine : Nat) {m : Normal} {hex : Bool}
    (hentry : m.countState.transition (.key (entry.key hex)) = none)
    {x : UInt8} {keys : List KeyEvent} (hk : ByteKeys hex x keys) {sel : Selection}
    (h : (b.selection.mapRegions fun r ↦ [entry.entered r]) = some sel) :
    ∃ s, runSteps (Session.press E bytesPerLine) (entry.key hex :: keys)
        { mode := .normal m, buffer := b } = some s ∧
      s.buffer.data = Splice.apply 0 (Splice.insertions x (sel.regions.map caret)) b.data := by
  obtain ⟨hvalid, hp⟩ := placed_entered entry hv hin h
  have hcount := Selection.length_of_ofOutputs h
  rw [Selection.flatten_map_singleton, List.length_map] at hcount
  have hkeys : ByteKeys (entry.mode hex).hex x keys := by cases entry <;> exact hk
  obtain ⟨b', hrun, hdata⟩ := Insert.runSteps_byteKeys E bytesPerLine
    (b := { b with selection := sel }) hkeys
    (by cases entry <;> simp [mode]) (by cases entry <;> rfl) hp hvalid.main_lt
    (by simp only; omega)
  refine ⟨{ mode := .insert (entry.mode hex), buffer := b' }, ?_, hdata⟩
  rw [runSteps_cons, press_key_eq entry hin hlen E bytesPerLine hentry, h, Option.map_some,
    Option.bind_some, hrun]

include hin in
private theorem forall_position_le : ∀ c ∈ b.selection.regions.map entry.position,
    c ≤ b.data.length := by
  refine List.forall_mem_map.mpr fun r hr ↦ ?_
  have := hin r hr
  have := r.min_le_max
  cases entry <;> simp only [position] <;> omega

section Merged

omit entry

variable {old sel : Selection} (h : (old.mapRegions fun r ↦ [append.entered r]) = some sel)
include h

/-- After `a` every region points forward and ends behind one that was selected. -/
theorem caret_of_appended : ∀ t ∈ sel.regions,
    t.caret = t.max ∧ ∃ q ∈ old.regions, t.max = append.position q := by
  have hends : ∀ t ∈ sel.regions, ¬ t.StrictBackward ∧
      ∃ q ∈ old.regions, t.max = append.position q := by
    refine Selection.forall_of_ofOutputs (fun a c m ha hc hm ↦ ?_) (fun _ ht ↦ ht) h ?_
    · rw [hm.strictBackward_iff, hm.max_eq]
      refine ⟨not_or.mpr ⟨ha.1, hc.1⟩, ?_⟩
      rcases Nat.le_total a.max c.max with hle | hle
      · rw [Nat.max_eq_right hle]
        exact hc.2
      · rw [Nat.max_eq_left hle]
        exact ha.2
    · rw [Selection.flatten_map_singleton]
      refine List.forall_mem_map.mpr fun q hq ↦ ?_
      have := q.min_le_max
      simp only [entered, StrictBackward, caret_new, tail_new, max_new, position]
      exact ⟨by omega, q, hq, by omega⟩
  exact fun t ht ↦ ⟨caret_eq_max (hends t ht).1, (hends t ht).2⟩

/-- Of two neighbouring regions that `a` merges the first one loses its caret: it would lie inside
what the second one became. -/
theorem position_notMem_of_neighbours (hs : sel.regions.Pairwise Before) {r s : SelRegion}
    (hsr : s ∈ old.regions) (hnext : s.min = r.max + 1) :
    append.position r ∉ sel.regions.map caret := by
  intro hmem
  obtain ⟨t, ht, hc⟩ := List.mem_map.mp hmem
  obtain ⟨u, hu, hlo, hhi⟩ := Selection.within_ofOutputs h (append.entered s) (by
    rw [Selection.flatten_map_singleton]
    exact List.mem_map_of_mem hsr)
  have hcaret := (caret_of_appended h t ht).1
  have hsm := s.min_le_max
  have htm := t.min_le_max
  simp only [entered, min_new, max_new] at hlo hhi
  simp only [position] at hc
  rcases eq_or_rel_of_pairwise hs ht hu with rfl | hb | hb
  · omega
  · unfold Before at hb
    omega
  · unfold Before at hb
    have := t.min_le_caret
    omega

private theorem length_lt_of_neighbours (hs : sel.regions.Pairwise Before) {r s : SelRegion}
    (hr : r ∈ old.regions) (hsr : s ∈ old.regions) (hnext : s.min = r.max + 1) :
    sel.regions.length < old.regions.length := by
  have hnodup : (append.position r :: sel.regions.map caret).Nodup :=
    List.nodup_cons.mpr ⟨position_notMem_of_neighbours h hs hsr hnext,
      (pairwise_caret hs).imp Nat.ne_of_lt⟩
  have hsub : append.position r :: sel.regions.map caret ⊆ old.regions.map append.position := by
    refine List.cons_subset.mpr ⟨List.mem_map_of_mem hr, fun c hc ↦ ?_⟩
    obtain ⟨t, ht, rfl⟩ := List.mem_map.mp hc
    obtain ⟨hcaret, q, hq, hmax⟩ := caret_of_appended h t ht
    rw [hcaret, hmax]
    exact List.mem_map_of_mem hq
  have := (List.subperm_of_subset hnodup hsub).length_le
  simpa [Nat.succ_le_iff] using this

end Merged

include hv in
/-- Regions that are not entered onto one another stay apart. -/
theorem pairwise_entered (hapart : entry = .append →
    ∀ r ∈ b.selection.regions, ∀ s ∈ b.selection.regions, s.min ≠ r.max + 1) :
    (b.selection.regions.map entry.entered).Pairwise Before := by
  refine List.pairwise_map.mpr (hv.sorted.imp_of_mem fun {r s} hr hs hrs ↦ ?_)
  have := r.min_le_max
  unfold Before at hrs ⊢
  rw [min_entered]
  cases entry with
  | insert =>
    simp only [entered, max_new]
    omega
  | append =>
    have := hapart rfl r hr s hs
    simp only [entered, max_new]
    omega

end Entry

/-- The byte directly before each of the offsets. -/
def insertedBefore (x : UInt8) (offsets : List Nat) (data : List UInt8) : List UInt8 :=
  offsetwise (fun i y ↦ (if i ∈ offsets then [x] else []) ++ y.toList) data

namespace Entry

/-- Entering a mode that inserts and typing one byte puts the byte once at every region, exactly
when the mode is not entered behind regions of which one starts where another one ends. -/
theorem byte_at_every_region_iff (entry : Entry) {b : CurrentBuffer X} (hv : b.selection.Valid)
    (hin : ∀ r ∈ b.selection.regions, r.max < b.data.length)
    (hlen : b.data.length + b.selection.regions.length < 2 ^ 63)
    {hex : Bool} {x : UInt8} {keys : List KeyEvent} (hk : ByteKeys hex x keys)
    (E : SearchEngine) (bytesPerLine : Nat) {m : Normal}
    (hentry : m.countState.transition (.key (entry.key hex)) = none) :
    (∃ s, runSteps (Session.press E bytesPerLine) (entry.key hex :: keys)
        { mode := .normal m, buffer := b } = some s ∧
      s.buffer.data = insertedBefore x (b.selection.regions.map entry.position) b.data ∧
      s.buffer.data.length = b.data.length + b.selection.regions.length) ↔
    (entry = .append →
      ∀ r ∈ b.selection.regions, ∀ s ∈ b.selection.regions, s.min ≠ r.max + 1) := by
  constructor
  · rintro ⟨s, hrun, -, hcount⟩ rfl r hr q hq hnext
    obtain ⟨s₁, hpress, -⟩ := Option.bind_eq_some_iff.mp hrun
    beta_reduce at hpress
    rw [press_key_eq append hin hlen E bytesPerLine hentry] at hpress
    obtain ⟨sel, hsel, -⟩ := Option.map_eq_some_iff.mp hpress
    obtain ⟨-, hp⟩ := placed_entered append hv hin hsel
    obtain ⟨s', hrun', hdata⟩ := runSteps_entered append hv hin hlen E bytesPerLine hentry hk hsel
    obtain rfl : s' = s := Option.some.inj (hrun'.symm.trans hrun)
    have hlt := length_lt_of_neighbours hsel hp.sorted hr hq hnext
    rw [hdata, Splice.length_apply_insertions (pairwise_caret hp.sorted) (fun _ _ ↦ Nat.zero_le _)
      (List.forall_mem_map.mpr fun t ht ↦ (hp.inBounds t ht).1), List.length_map] at hcount
    omega
  · intro hapart
    have hsel := Selection.mapRegions_of_before (pairwise_entered entry hv hapart) hv.main_lt
    obtain ⟨s, hrun, hdata⟩ := runSteps_entered entry hv hin hlen E bytesPerLine hentry hk hsel
    have hcarets : (b.selection.mapEach entry.entered).regions.map caret =
        b.selection.regions.map entry.position := by
      rw [Selection.map_mapEach fun _ _ ↦ rfl]
      exact List.map_congr_left fun r _ ↦ entry.caret_entered r
    have hsorted : (b.selection.regions.map entry.position).Pairwise (· < ·) := by
      rw [← hcarets]
      exact pairwise_caret (placed_entered entry hv hin hsel).2.sorted
    rw [hcarets] at hdata
    refine ⟨s, hrun, ?_, ?_⟩
    · rw [hdata, Splice.apply_insertions_eq_offsetwise hsorted (forall_position_le entry hin)]
      rfl
    · rw [hdata, Splice.length_apply_insertions hsorted (fun _ _ ↦ Nat.zero_le _)
        (forall_position_le entry hin), List.length_map, Nat.sub_zero]

/-- `A` behind a forward region and a cursor with a byte between them, then two hex digits. -/
theorem append_byte_apart :
    ∃ s, runSteps (Session.press .reference 16) [append.key true,
        EditKey.event false (.char '4'), EditKey.event true (.char 'F')]
        { mode := .normal .new,
          buffer := .withRegions [1, 2, 3, 4] [⟨1, 0, true⟩, ⟨3, 3, false⟩] } = some s ∧
      s.buffer.data = [1, 2, 0x4f, 3, 4, 0x4f] := by
  have hvalid : Selection.Valid
      (CurrentBuffer.withRegions [1, 2, 3, 4] [⟨1, 0, true⟩, ⟨3, 3, false⟩]).selection := by
    decide
  obtain ⟨s, hrun, hdata, -⟩ := (byte_at_every_region_iff append hvalid (by decide) (by decide)
    (.digits false true (show hexDigit '4' = some 4 from rfl)
      (show hexDigit 'F' = some 15 from rfl))
    .reference 16 rfl).mpr (fun _ ↦ by decide)
  exact ⟨s, hrun, hdata.trans (by decide)⟩

/-- `a` behind two cursors on neighbouring bytes, then `x`: the byte comes behind the second one
only. -/
theorem append_byte_neighbours :
    (runSteps (Session.press .reference 16) [append.key false, EditKey.event false (.char 'x')]
      { mode := .normal .new,
        buffer := .withRegions [1, 2] [⟨0, 0, true⟩, ⟨1, 1, false⟩] }).map
        (fun s ↦ s.buffer.data) =
      some [1, 2, 0x78] ∧
    insertedBefore 0x78 ([⟨0, 0, true⟩, ⟨1, 1, false⟩].map append.position) [1, 2] =
      [1, 0x78, 2, 0x78] := by
  decide

end Entry

end Tofu

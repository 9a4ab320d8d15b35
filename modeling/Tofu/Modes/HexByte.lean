import Tofu.Modes.InsertEdits
import Tofu.Rope.Overwrite

/-!
# A byte typed as two hex digits

The first digit puts its half byte before every caret and sets the carets back onto it,
the second one writes the whole byte over it (`insert.rs:80–130`). Together they are the
insertion of the byte.
-/

namespace Tofu

open Rope SelRegion

variable {X : XiRope UInt8}

/-! ## The byte of two digits -/

/-- A digit is below sixteen. -/
theorem toNat_lt_of_hexDigit {c : Char} {digit : UInt8} (h : hexDigit c = some digit) :
    digit.toNat < 16 := by
  have hle : ∀ {a b : Char}, a ≤ b ↔ a.toNat ≤ b.toNat := Iff.rfl
  simp only [hexDigit, hle, Char.reduceToNat] at h
  split at h
  · obtain ⟨rfl⟩ := h
    rw [Nat.toUInt8_eq, UInt8.toNat_ofNat']
    omega
  · split at h
    · obtain ⟨rfl⟩ := h
      rw [Nat.toUInt8_eq, UInt8.toNat_ofNat']
      omega
    · split at h
      · obtain ⟨rfl⟩ := h
        rw [Nat.toUInt8_eq, UInt8.toNat_ofNat']
        omega
      · simp at h

/-- The two digits share no bit. -/
theorem shiftLeft_or {hi lo : UInt8} (hhi : hi.toNat < 16) (hlo : lo.toNat < 16) :
    hi <<< 4 ||| lo = 16 * hi + lo := by
  apply UInt8.toNat.inj
  rw [UInt8.toNat_or, UInt8.toNat_shiftLeft, UInt8.toNat_add, UInt8.toNat_mul]
  simp only [UInt8.reduceToNat, Nat.reduceMod, Nat.shiftLeft_eq]
  rw [Nat.mod_eq_of_lt (by omega), Nat.mul_comm, ← Nat.two_pow_add_eq_or_of_lt (i := 4) hlo]
  omega

/-- A digit in the upper half of a byte. -/
theorem shiftLeft_four (digit : UInt8) : digit <<< 4 = 16 * digit := by
  apply UInt8.toNat.inj
  rw [UInt8.toNat_shiftLeft, UInt8.toNat_mul]
  simp only [UInt8.reduceToNat, Nat.reduceMod, Nat.shiftLeft_eq]
  omega

/-- The lower half is empty. -/
theorem shiftLeft_four_mod (digit : UInt8) : digit <<< 4 % 16 = 0 := by
  apply UInt8.toNat.inj
  rw [shiftLeft_four, UInt8.toNat_mod, UInt8.toNat_mul]
  simp only [UInt8.reduceToNat]
  omega

namespace Ops

private theorem filterMap_insertEdit (x : UInt8) (regions : List SelRegion) :
    regions.filterMap (insertEdit [x]) = Splice.insertions x (regions.map caret) := by
  rw [Splice.insertions, List.map_map, ← List.filterMap_eq_map]
  rfl

private theorem filterMap_changeEdit (x : UInt8) (regions : List SelRegion) :
    regions.filterMap (changeEdit fun _ ↦ [x]) = Splice.overwrites x (regions.map caret) := by
  rw [Splice.overwrites, List.map_map, ← List.filterMap_eq_map]
  rfl

end Ops

/-! ## Regions around inserted bytes -/

section Regions

variable {x y : UInt8} {n : Nat} {l : List SelRegion} (hl : l.Pairwise Before)
include hl

/-- Carets are in the order of the regions. -/
theorem pairwise_caret : (l.map caret).Pairwise (· < ·) :=
  List.pairwise_map.mpr (hl.imp Before.caret_lt)

private theorem pairwise_carried (hb : ∀ r ∈ l, r.InBounds n) :
    (l.map (carried n (Splice.insertions x (l.map caret)))).Pairwise Before := by
  refine List.pairwise_map.mpr (hl.imp_of_mem fun {a b} _ hbl hab ↦ ?_)
  have hlt : ∀ p q, p ≤ a.max → b.min ≤ q → q ≤ n →
      Splice.transform n 0 (Splice.insertions x (l.map caret)) p <
        Splice.transform n 0 (Splice.insertions x (l.map caret)) q := by
    intro p q hp hq hqn
    refine Splice.transform_insertions_lt (pairwise_caret hl) ?_ hqn
    unfold Before at hab
    omega
  obtain ⟨hc, ht⟩ := hb b hbl
  have h1 := hlt a.caret b.caret a.caret_le_max b.min_le_caret hc
  have h2 := hlt a.caret b.tail a.caret_le_max b.min_le_tail ht
  have h3 := hlt a.tail b.caret a.tail_le_max b.min_le_caret hc
  have h4 := hlt a.tail b.tail a.tail_le_max b.min_le_tail ht
  simp only [Before, carried, min_new, max_new]
  omega

private theorem pairwise_carriedBack (hb : ∀ r ∈ l, r.InBounds n) :
    (l.map (carriedBack n (Splice.insertions x (l.map caret)))).Pairwise Before := by
  refine List.pairwise_map.mpr (hl.imp_of_mem fun {a b} _ hbl hab ↦ ?_)
  have hcs := pairwise_caret hl
  have htwo : ∀ p, p ≤ a.max →
      Splice.transform n 0 (Splice.insertions x (l.map caret)) p + 2 ≤
        Splice.transform n 0 (Splice.insertions x (l.map caret)) b.caret := by
    intro p hp
    refine Splice.transform_insertions_add_two_le hcs (List.mem_map_of_mem hbl) ?_
    have := b.min_le_caret
    unfold Before at hab
    omega
  have hlt : ∀ p, p ≤ a.max →
      Splice.transform n 0 (Splice.insertions x (l.map caret)) p <
        Splice.transform n 0 (Splice.insertions x (l.map caret)) b.tail := by
    intro p hp
    refine Splice.transform_insertions_lt hcs ?_ (hb b hbl).2
    have := b.min_le_tail
    unfold Before at hab
    omega
  have h1 := htwo a.caret a.caret_le_max
  have h2 := htwo a.tail a.tail_le_max
  have h3 := hlt a.caret a.caret_le_max
  have h4 := hlt a.tail a.tail_le_max
  simp only [Before, carriedBack, min_new, max_new]
  omega

/-- Writing over the half bytes takes the regions where inserting the whole ones does. -/
theorem carried_carriedBack (hb : ∀ r ∈ l, r.InBounds n) {r : SelRegion} (hr : r ∈ l) :
    carried (Splice.transform n 0 (Splice.insertions x (l.map caret)) n)
        (Splice.overwrites y (Splice.insertedAt x n (l.map caret)))
        (carriedBack n (Splice.insertions x (l.map caret)) r) =
      carried n (Splice.insertions y (l.map caret)) r := by
  have hcs := pairwise_caret hl
  have hn : ∀ c ∈ l.map caret, c ≤ n := List.forall_mem_map.mpr fun r hr ↦ (hb r hr).1
  have hlt := Splice.insertedAt_lt (x := x) hcs hn
  have hwrite : ∀ p ≤ Splice.transform n 0 (Splice.insertions x (l.map caret)) n,
      Splice.transform _ 0 (Splice.overwrites y (Splice.insertedAt x n (l.map caret))) p =
        if p ∈ Splice.insertedAt x n (l.map caret) then p + 1 else p := fun p hp ↦
    Splice.transform_overwrites (Splice.pairwise_insertedAt hcs) hlt hp
  have hmono : ∀ p q, p ≤ q → Splice.transform n 0 (Splice.insertions x (l.map caret)) p ≤
      Splice.transform n 0 (Splice.insertions x (l.map caret)) q := fun p q hpq ↦
    Splice.transform_mono n _ 0 p q (Splice.sorted_insertions hcs) (Nat.zero_le _) hpq
  have hone : ∀ c ∈ l.map caret, 1 ≤ Splice.transform n 0 (Splice.insertions x (l.map caret)) c :=
    fun c hc ↦ Splice.one_le_transform_insertions hcs hc
  -- a tail is at or behind a caret and the byte put before it, or before both
  have htail : Splice.transform n 0 (Splice.insertions x (l.map caret)) r.tail ∉
      Splice.insertedAt x n (l.map caret) := by
    intro hmem
    obtain ⟨c, hc, heq⟩ := List.mem_map.mp hmem
    have h1 := hone c hc
    rcases Nat.lt_or_ge r.tail c with h | h
    · have := Splice.transform_insertions_add_two_le (x := x) (n := n) hcs hc h
      omega
    · have := hmono c r.tail h
      omega
  have hcaret : r.caret ∈ l.map caret := List.mem_map_of_mem hr
  have hmem : Splice.transform n 0 (Splice.insertions x (l.map caret)) r.caret - 1 ∈
      Splice.insertedAt x n (l.map caret) := List.mem_map_of_mem hcaret
  simp only [carried, carriedBack, caret_new, tail_new, Splice.transform_insertions y x]
  rw [hwrite _ (Nat.le_of_lt (hlt _ hmem)), hwrite _ (hmono _ _ (hb r hr).2), if_neg htail,
    if_pos hmem, Nat.sub_add_cancel (hone _ hcaret)]

/-- The half bytes and the carets on them lie within the new data. -/
theorem inBounds_carriedBack (hb : ∀ r ∈ l, r.InBounds n) {r : SelRegion} (hr : r ∈ l) :
    (carriedBack n (Splice.insertions x (l.map caret)) r).InBounds
      (Splice.transform n 0 (Splice.insertions x (l.map caret)) n) := by
  have hmono : ∀ p ≤ n, Splice.transform n 0 (Splice.insertions x (l.map caret)) p ≤
      Splice.transform n 0 (Splice.insertions x (l.map caret)) n := fun p hp ↦
    Splice.transform_mono n _ 0 p n (Splice.sorted_insertions (pairwise_caret hl)) (Nat.zero_le _)
      hp
  obtain ⟨hc, ht⟩ := hb r hr
  exact ⟨Nat.le_trans (Nat.sub_le _ _) (hmono _ hc), hmono _ ht⟩

end Regions

/-! ## The digits one after the other -/

namespace CurrentBuffer

variable {b : CurrentBuffer X} (hp : b.selection.Placed b.data.length)
  (hmain : b.selection.mainSelection < b.selection.regions.length)
include hp

private theorem caret_le : ∀ c ∈ b.selection.regions.map caret, c ≤ b.data.length :=
  List.forall_mem_map.mpr fun r hr ↦ (hp.inBounds r hr).1

private theorem transform_length_lt (x : UInt8)
    (hlen : b.data.length + b.selection.regions.length < 2 ^ 63) :
    Splice.transform b.data.length 0
      (Splice.insertions x (b.selection.regions.map caret)) b.data.length < 2 ^ 63 := by
  have hbound := Splice.transform_le_add b.data.length _ 0 b.data.length
    (Splice.sorted_insertions (x := x) (pairwise_caret hp.sorted))
    (Splice.within_insertions (caret_le hp))
  have hsum : ((Splice.insertions x (b.selection.regions.map caret)).map fun e ↦
      e.text.length).sum = b.selection.regions.length := by
    simp [Splice.insertions, Function.comp_def]
  omega

include hmain

private theorem transform_length_ne_zero (x : UInt8) : Splice.transform b.data.length 0
    (Splice.insertions x (b.selection.regions.map caret)) b.data.length ≠ 0 := by
  have hmem := List.mem_map_of_mem (f := caret) (List.getElem_mem hmain)
  exact Nat.ne_zero_of_lt (Splice.insertedAt_lt (x := x) (pairwise_caret hp.sorted) (caret_le hp) _
    (List.mem_map_of_mem hmem))

/-- Inserting a byte at every caret. -/
theorem insert_byte (x : UInt8) : ∃ b', (Ops.insert X b.data b.selection [x]).bind
      b.applyIncompleteDelta = some (b', .changeLength) ∧
    b'.data = Splice.apply 0 (Splice.insertions x (b.selection.regions.map caret)) b.data ∧
    b'.selection = b.selection.mapEach
      (carried b.data.length (Splice.insertions x (b.selection.regions.map caret))) := by
  rw [Ops.insert_eq]
  obtain ⟨d, hd, hm⟩ := Ops.exists_delta (X := X) hp (fun r hr ↦ Ops.fits_insertEdit hr [x])
    (Ops.follow_insertEdit [x])
  rw [Ops.filterMap_insertEdit] at hm
  have hsel := hm.applyDelta_eq b.selection
  rw [if_neg (transform_length_ne_zero hp hmain x), Selection.mapRegions_of_before
    (pairwise_carried hp.sorted hp.inBounds) hmain] at hsel
  simp only [hd, Option.bind_some, applyIncompleteDelta, applyWith, applyDeltaToCurrentBuffer,
    hsel]
  exact ⟨_, rfl, hm.apply b.data rfl, rfl⟩

variable (hlen : b.data.length + b.selection.regions.length < 2 ^ 63)
include hlen

/-- The first digit. -/
theorem insert_half (x : UInt8) :
    ∃ b', ((Ops.insert X b.data b.selection [x]).bind fun delta ↦
        b.applyIncompleteDeltaOffsetCarets delta (-1) 0) = some (b', .changeLength) ∧
    b'.data = Splice.apply 0 (Splice.insertions x (b.selection.regions.map caret)) b.data ∧
    b'.selection = b.selection.mapEach
      (carriedBack b.data.length (Splice.insertions x (b.selection.regions.map caret))) := by
  rw [Ops.insert_eq]
  obtain ⟨d, hd, hm⟩ := Ops.exists_delta (X := X) hp (fun r hr ↦ Ops.fits_insertEdit hr [x])
    (Ops.follow_insertEdit [x])
  rw [Ops.filterMap_insertEdit] at hm
  have hsel := hm.applyDeltaOffsetCarets_eq (transform_length_lt hp x hlen)
    fun r (hr : r ∈ b.selection.regions) ↦
      Splice.one_le_transform_insertions (pairwise_caret hp.sorted) (List.mem_map_of_mem hr)
  rw [if_neg (transform_length_ne_zero hp hmain x), Selection.mapRegions_of_before
    (pairwise_carriedBack hp.sorted hp.inBounds) hmain] at hsel
  simp only [hd, Option.bind_some, applyIncompleteDeltaOffsetCarets, applyWith,
    applyDeltaToCurrentBuffer, hsel]
  exact ⟨_, rfl, hm.apply b.data rfl, rfl⟩

/-- The second digit, on what the first one leaves. -/
theorem change_half (x y : UInt8) {b₁ : CurrentBuffer X}
    (hdata : b₁.data =
      Splice.apply 0 (Splice.insertions x (b.selection.regions.map caret)) b.data)
    (hsel : b₁.selection = b.selection.mapEach
      (carriedBack b.data.length (Splice.insertions x (b.selection.regions.map caret)))) :
    ∃ b', (Ops.change X b₁.data b₁.selection [y]).bind b₁.applyIncompleteDelta =
      some (b', .changeLength) ∧
    b'.data = Splice.apply 0 (Splice.insertions y (b.selection.regions.map caret)) b.data ∧
    b'.selection = b.selection.mapEach
      (carried b.data.length (Splice.insertions y (b.selection.regions.map caret))) := by
  have hcs := pairwise_caret hp.sorted
  have hn := caret_le hp
  have hn₁ := Splice.length_apply _ 0 b.data (Splice.within_insertions (x := x) hn)
  rw [← hdata] at hn₁
  have hp₁ : b₁.selection.Placed b₁.data.length := by
    rw [hsel, hn₁]
    exact Selection.placed_mapEach (pairwise_carriedBack hp.sorted hp.inBounds)
      fun r hr ↦ inBounds_carriedBack hp.sorted hp.inBounds hr
  have hcarets : b₁.selection.regions.map caret =
      Splice.insertedAt x b.data.length (b.selection.regions.map caret) := by
    rw [hsel, Selection.map_mapEach fun _ _ ↦ rfl, Splice.insertedAt, List.map_map]
    rfl
  have hregions : b₁.selection.regions.map (carried b₁.data.length
      (Splice.overwrites y (Splice.insertedAt x b.data.length (b.selection.regions.map caret)))) =
      b.selection.regions.map
        (carried b.data.length (Splice.insertions y (b.selection.regions.map caret))) := by
    rw [hsel, Selection.map_mapEach fun _ _ ↦ rfl, hn₁]
    exact List.map_congr_left fun r hr ↦ carried_carriedBack hp.sorted hp.inBounds hr
  rw [Ops.change_eq hp₁.inBounds (hn₁ ▸ transform_length_lt hp x hlen)]
  obtain ⟨d, hd, hm⟩ := Ops.exists_delta (X := X) hp₁ (fun r hr ↦ Ops.fits_changeEdit hr _)
    (Ops.follow_changeEdit fun _ ↦ [y])
  rw [Ops.filterMap_changeEdit, hcarets] at hm
  have hdata₂ : X.apply d b₁.data =
      Splice.apply 0 (Splice.insertions y (b.selection.regions.map caret)) b.data := by
    rw [hm.apply b₁.data rfl, hdata, Splice.apply_overwrites_insertions hcs hn]
  have hne : Splice.transform b₁.data.length 0 (Splice.overwrites y
      (Splice.insertedAt x b.data.length (b.selection.regions.map caret))) b₁.data.length ≠ 0 := by
    rw [← hm.length_apply rfl, hdata₂, Splice.length_apply _ 0 b.data (Splice.within_insertions hn)]
    exact transform_length_ne_zero hp hmain y
  have hlength : b₁.selection.regions.length = b.selection.regions.length := by
    simpa using congrArg List.length hregions
  have hsel₂ := hm.applyDelta_eq b₁.selection
  rw [if_neg hne, Selection.mapRegions_of_before
    (hregions ▸ pairwise_carried hp.sorted hp.inBounds)
    (by rw [hlength, hsel]; exact hmain)] at hsel₂
  simp only [hd, Option.bind_some, applyIncompleteDelta, applyWith, applyDeltaToCurrentBuffer,
    hsel₂]
  refine ⟨_, rfl, hdata₂, ?_⟩
  rw [Selection.mapEach, hregions, hsel]
  rfl

end CurrentBuffer

namespace Insert

/-- The first digit in the modes that insert. -/
theorem hexInsertion_first {mode : InsertionMode} (hmode : mode ≠ .overwrite) (digit : UInt8)
    (b : CurrentBuffer X) :
    hexInsertion digit b mode none =
      .modeAndDirty (.insert { mode, hex := true, hexHalf := some (digit <<< 4) })
        ((Ops.insert X b.data b.selection [digit <<< 4]).bind fun delta ↦
          b.applyIncompleteDeltaOffsetCarets delta (-1) 0) := by
  cases mode with
  | insert => rfl
  | append => rfl
  | overwrite => exact absurd rfl hmode

/-- An ASCII character in the modes that insert. -/
theorem transitionAsciiInsertion_ascii {mode : InsertionMode} (hmode : mode ≠ .overwrite)
    {key : Char} (hkey : key.toNat < 128) (b : CurrentBuffer X) :
    transitionAsciiInsertion key b mode =
      .dirty ((Ops.insert X b.data b.selection [UInt8.ofNat key.toNat]).bind
        b.applyIncompleteDelta) := by
  have hutf : String.utf8EncodeChar key = [UInt8.ofNat key.toNat] :=
    if_pos (Nat.le_of_lt_succ hkey)
  cases mode with
  | insert => simp only [transitionAsciiInsertion, hutf]
  | append => simp only [transitionAsciiInsertion, hutf]
  | overwrite => exact absurd rfl hmode

/-- CTRL-n inserts a null byte and drops the pending half. -/
theorem transition_null (m : Insert) (shift : Bool) (b : CurrentBuffer X) (bytesPerLine : Nat) :
    m.transition (.key (EditKey.event shift .null)) b bytesPerLine =
      .modeAndDirty (.insert { m with hexHalf := none })
        ((Ops.insert X b.data b.selection [0]).bind b.applyIncompleteDelta) := by
  cases shift <;> rfl

/-- Two hex digits typed in insert or append mode, with no half pending, leave the data and
the selection that inserting their byte leaves, and no half pending. -/
theorem digits_insert_byte (m : Insert) {b : CurrentBuffer X} {key₁ key₂ : Char}
    {hi lo : UInt8} (shift₁ shift₂ : Bool) (bytesPerLine : Nat)
    (hmode : m.mode = .insert ∨ m.mode = .append) (hhex : m.hex = true)
    (hhalf : m.hexHalf = none) (hhi : hexDigit key₁ = some hi) (hlo : hexDigit key₂ = some lo)
    (hp : b.selection.Placed b.data.length)
    (hmain : b.selection.mainSelection < b.selection.regions.length)
    (hlen : b.data.length + b.selection.regions.length < 2 ^ 63) :
    ∃ m₁ b₁ b₂ b',
      m.transition (.key (EditKey.event shift₁ (.char key₁))) b bytesPerLine =
        some (some (.modeAndDirtyBytes (.insert m₁) .changeLength, b₁)) ∧
      m₁.transition (.key (EditKey.event shift₂ (.char key₂))) b₁ bytesPerLine =
        some (some (.modeAndDirtyBytes (.insert m) .changeLength, b₂)) ∧
      (Ops.insert X b.data b.selection [16 * hi + lo]).bind b.applyIncompleteDelta =
        some (b', .changeLength) ∧
      b₂.data = b'.data ∧ b₂.selection = b'.selection := by
  rcases m with ⟨mode, hex, hexHalf⟩
  subst hhex hhalf
  obtain ⟨b₁, h₁, hdata₁, hsel₁⟩ := CurrentBuffer.insert_half hp hmain hlen (hi <<< 4)
  obtain ⟨b₂, h₂, hdata₂, hsel₂⟩ :=
    CurrentBuffer.change_half hp hmain hlen (hi <<< 4) (hi <<< 4 ||| lo) hdata₁ hsel₁
  obtain ⟨b', h', hdata', hsel'⟩ := CurrentBuffer.insert_byte hp hmain (hi <<< 4 ||| lo)
  rw [shiftLeft_or (toNat_lt_of_hexDigit hhi) (toNat_lt_of_hexDigit hlo)] at h'
  refine ⟨{ mode, hex := true, hexHalf := some (hi <<< 4) }, b₁, b₂, b', ?_, ?_, h',
    hdata₂.trans hdata'.symm, hsel₂.trans hsel'.symm⟩
  · have hinsert : mode ≠ .overwrite := by rcases hmode with rfl | rfl <;> decide
    rw [transition_char, if_pos rfl, transitionHexInsertion, hhi]
    simp only [hexInsertion_first hinsert, h₁]
    rfl
  · rw [transition_char, if_pos rfl, transitionHexInsertion, hlo]
    simp only [hexInsertion, h₂]
    rfl

-- Three carets, two of them in neighbouring regions and one behind the last byte.
private def threeCarets : CurrentBuffer (XiRope.reference UInt8) :=
  { CurrentBuffer.fromDataAndPath [1, 2, 3] none with
    selection :=
      { regions := [⟨1, 0, false⟩, ⟨2, 2, true⟩, ⟨3, 3, false⟩], mainSelection := 1 } }

/-- Two neighbouring cursors, one of them behind the last byte. -/
theorem digits_insert_byte_adjacent :
    ∃ m₁ b₁ b₂,
      transition { mode := .insert, hex := true, hexHalf := none }
        (.key (EditKey.event false (.char '4'))) threeCarets 16 =
          some (some (.modeAndDirtyBytes (.insert m₁) .changeLength, b₁)) ∧
      m₁.transition (.key (EditKey.event true (.char 'F'))) b₁ 16 =
        some (some (.modeAndDirtyBytes
          (.insert { mode := .insert, hex := true, hexHalf := none }) .changeLength, b₂)) ∧
      b₂.data = [1, 0x4f, 2, 0x4f, 3, 0x4f] := by
  obtain ⟨m₁, b₁, b₂, b', h₁, h₂, h', hdata, -⟩ :=
    digits_insert_byte { mode := .insert, hex := true, hexHalf := none } (b := threeCarets)
      false true 16 (.inl rfl) rfl rfl (show hexDigit '4' = some 4 from rfl)
      (show hexDigit 'F' = some 15 from rfl) (by decide) (by decide) (by decide)
  refine ⟨m₁, b₁, b₂, h₁, h₂, hdata.trans ?_⟩
  have hbyte : ((Ops.insert (XiRope.reference UInt8) threeCarets.data threeCarets.selection
      [16 * 4 + 15]).bind threeCarets.applyIncompleteDelta).map (fun r ↦ r.1.data) =
        some [1, 0x4f, 2, 0x4f, 3, 0x4f] := by
    decide
  rw [h'] at hbyte
  exact Option.some.inj hbyte

end Insert

/-- A buffer of this data with these regions selected, the first one the main one. -/
def CurrentBuffer.withRegions (data : List UInt8) (regions : List SelRegion) :
    CurrentBuffer (XiRope.reference UInt8) :=
  { CurrentBuffer.fromDataAndPath data none with selection := { regions, mainSelection := 0 } }

end Tofu

import Tofu.Rope.Reference
import Tofu.View.Kept

/-!
# The window on the file

Along every run without an edit the buffer holds a prefix of the file, at least its first
chunk, until the first trim. A file of no more than three chunks is never trimmed, and
one of no more than one chunk is held completely.
-/

namespace Tofu

open Rope

variable {X : XiRope UInt8} {path : Path} {F : List UInt8} {height : Nat}

/-- The data is what the file holds at the offset of the data. -/
def WindowCall.IsWindow (F : List UInt8) (c : WindowCall) : Prop :=
  c.data = (F.drop c.dataStartOffset).take c.data.length

/-- Nothing was dropped from the top of the data so far. -/
def HexView.Untrimmed (v : HexView X) : Prop := ∀ c ∈ v.calls, c.trimmed = false

/-- One buffer, on the file, and what it holds of the file. -/
structure Loaded (path : Path) (F : List UInt8) (height : Nat) (v : HexView X) : Prop where
  buffer : ∃ b, v.buffrCollection = .withCurrentBuffer b ∧ b.path = some path ∧
    b.dataStartOffset = 0 ∧ (v.Untrimmed → F.take (chunkSize height) <+: b.data ∧ b.data <+: F)
  calls : v.Untrimmed → ∀ c ∈ v.calls, c.IsWindow F
  small : F.length ≤ chunkSize height * 3 → v.Untrimmed

namespace Loaded

variable {fs : FileSystem} {v v' : HexView X}

/-! ## Loading and trimming -/

private theorem isWindow_of_prefix {data : List UInt8} (h : data <+: F) (trimmed : Bool) :
    WindowCall.IsWindow F { trimmed, dataStartOffset := 0, data } :=
  List.prefix_iff_eq_take.mp h

private theorem prefix_load {data : List UInt8} (n : Nat) (h : data <+: F) :
    data ++ (F.drop data.length).take n <+: F := by
  rw [List.prefix_iff_eq_take.mp h, List.length_take_of_le h.length_le, ← List.take_add]
  exact List.take_prefix _ _

private theorem loadNextChunk (hF : fs.read path = some F) (h : Loaded path F height v) {n : Nat}
    {loaded : Bool} (hr : v.loadNextChunk fs n = some (v', loaded)) : Loaded path F height v' := by
  obtain ⟨⟨b, hb, hp, ho, hd⟩, hc, hs⟩ := h
  rw [HexView.loadNextChunk, HexView.current_of_eq hb, Option.bind_eq_bind, Option.bind_some,
    b.loadNextChunk_eq hp hF] at hr
  obtain ⟨rfl, -⟩ := Prod.mk.inj (Option.some.inj hr)
  have hu : ∀ {c : WindowCall} {calls : List WindowCall}, (∀ x ∈ c :: calls, x.trimmed = false) →
      ∀ x ∈ calls, x.trimmed = false := fun h x hx ↦ h x (List.mem_cons_of_mem _ hx)
  refine ⟨⟨_, HexView.setCurrent_of_eq hb, hp, ho, fun h ↦ ?_⟩, fun h ↦ ?_, fun hl ↦ ?_⟩
  · obtain ⟨h1, h2⟩ := hd (hu h)
    exact ⟨h1.trans (List.prefix_append _ _), prefix_load n h2⟩
  · refine List.forall_mem_cons.mpr ⟨?_, hc (hu h)⟩
    simp only [ho]
    exact isWindow_of_prefix (prefix_load n (hd (hu h)).2) false
  · exact List.forall_mem_cons.mpr ⟨rfl, hs hl⟩

/-- Loading does not fail. -/
theorem exists_loadNextChunk (hF : fs.read path = some F) (h : Loaded path F height v) (n : Nat) :
    ∃ v' loaded, v.loadNextChunk fs n = some (v', loaded) ∧ v'.mode = v.mode ∧
      (v.Untrimmed → v'.Untrimmed) := by
  obtain ⟨b, hb, hp, -⟩ := h.buffer
  rw [HexView.loadNextChunk, HexView.current_of_eq hb, Option.bind_eq_bind, Option.bind_some,
    b.loadNextChunk_eq hp hF]
  exact ⟨_, _, rfl, rfl, fun hu ↦ List.forall_mem_cons.mpr ⟨rfl, hu⟩⟩

/-- A file of three chunks is not trimmed. -/
theorem trimAfterLoad (h : Loaded path F height v)
    (hr : v.trimAfterLoad height = some v') : Loaded path F height v' := by
  obtain ⟨b, hb, hp, ho, hd⟩ := h.buffer
  obtain rfl | ⟨b', hb', hlong, rfl⟩ := HexView.trimAfterLoad_cases hr
  · exact h
  · obtain rfl := Option.some.inj ((HexView.current_of_eq hb).symm.trans hb')
    have hn : ∀ {c : WindowCall}, c.trimmed = true → ¬ ∀ x ∈ c :: v.calls, x.trimmed = false :=
      fun hc hall ↦ by simp [hc] at hall
    refine ⟨⟨_, HexView.setCurrent_of_eq hb, hp, ho, fun hu ↦ absurd hu (hn rfl)⟩,
      fun hu ↦ absurd hu (hn rfl), fun hl ↦ ?_⟩
    have := (hd (h.small hl)).2.length_le
    omega

/-- A new buffer on the same part of the file. -/
theorem sameFile {b b' : CurrentBuffer X} (h : Loaded path F height v)
    (hb : v.buffrCollection = .withCurrentBuffer b) (hs : SameFile b b')
    (hv : v'.buffrCollection = .withCurrentBuffer b') (hc : v'.calls = v.calls) :
    Loaded path F height v' := by
  obtain ⟨⟨b₀, hb₀, hp, ho, hd⟩, hcalls, hsmall⟩ := h
  obtain rfl : b₀ = b := by
    have := hb₀.symm.trans hb
    simpa [BuffrCollection.withCurrentBuffer] using this
  have hu : v'.Untrimmed ↔ v.Untrimmed := by rw [HexView.Untrimmed, HexView.Untrimmed, hc]
  refine ⟨⟨b', hv, hs.path.trans hp, hs.dataStartOffset.trans ho, ?_⟩, ?_, ?_⟩
  · rw [hu, hs.data]
    exact hd
  · rw [hu, hc]
    exact hcalls
  · rw [hu]
    exact hsmall

/-- What the buffer holds of the file is kept by every event that does not edit. -/
theorem kept (hF : fs.read path = some F) :
    HexView.Kept (X := X) fs height (Loaded path F height) where
  buffer h := by
    obtain ⟨b, hb, -⟩ := h.buffer
    exact ⟨b, hb⟩
  load h hr := h.loadNextChunk hF hr
  trim h hr := h.trimAfterLoad hr
  sameFile h hb hs hv hc := h.sameFile hb hs hv hc

end Loaded

/-! ## Runs -/

/-- The view that `main` starts with. -/
def HexView.start (path : Path) (F : List UInt8) (size : Nat × Nat) : HexView X :=
  withBuffrCollection
    (.withCurrentBuffer (.fromDataAndPath (F.take (chunkSize size.2)) (some path))) size

/-- The first chunk is read; drawing loads only where the file is shorter. -/
theorem Editor.opened_eq {fs : FileSystem} (hF : fs.read path = some F) (width : Nat)
    (hh : height < 2 ^ 16) :
    (Editor.opened fs path (width, height) : Option (Editor X)) =
      (if F.length < chunkSize height then
        ((HexView.start path F (width, height)).loadNextChunk fs 64).map Prod.fst
      else some (HexView.start path F (width, height))).map fun view ↦ ⟨fs, view⟩ := by
  let v : HexView X := HexView.start path F (width, height)
  have hopen : Editor.opened fs path (width, height) = (v.draw fs).map fun view ↦ ⟨fs, view⟩ := by
    have hbuffers : Editor.initialBuffers (X := X) fs (some path) height =
        some (.withCurrentBuffer (.fromDataAndPath (F.take (chunkSize height)) (some path))) := by
      rw [Editor.initialBuffers, FileSystem.readAt, hF]
      rfl
    rw [Option.map_eq_bind]
    exact congrArg (Option.bind · _) hbuffers
  have hlen : (F.take (chunkSize height)).length = min (chunkSize height) F.length :=
    List.length_take
  have hstop : (v.visibleBytes (F.take (chunkSize height)).length).stop =
      min ((F.take (chunkSize height)).length + 1) (chunkSize height) := by
    have hchunk : chunkSize height < 2 ^ 64 := by
      unfold chunkSize
      omega
    show min _ (usizeAdd 0 (chunkSize height)) = _
    rw [usizeAdd_of_lt (by omega), Nat.zero_add]
  have hshort : (v.visibleBytes (F.take (chunkSize height)).length).stop >
      (F.take (chunkSize height)).length ↔ F.length < chunkSize height := by
    rw [hstop, hlen]
    omega
  have hdraw : v.draw fs = if F.length < chunkSize height then
      (v.loadNextChunk fs 64).map Prod.fst else some v := by
    rw [← if_congr hshort rfl rfl, HexView.draw_eq]
    rfl
  rw [hopen, hdraw]

private theorem Loaded.start (path : Path) (F : List UInt8) (width height : Nat) :
    Loaded path F height (HexView.start path F (width, height) : HexView X) :=
  ⟨⟨_, rfl, rfl, rfl, fun _ ↦ ⟨List.prefix_rfl, List.take_prefix _ _⟩⟩,
    fun _ _ hc ↦ (List.not_mem_nil hc).elim, fun _ _ hc ↦ (List.not_mem_nil hc).elim⟩

/-- The first chunk is read, and drawing loads nothing behind it. -/
theorem Editor.opened_spec {fs : FileSystem} (hF : fs.read path = some F) (width : Nat)
    (hh : height < 2 ^ 16) :
    ∃ e : Editor X, Editor.opened fs path (width, height) = some e ∧ e.fs = fs ∧
      e.view.mode = .normal .new ∧ e.view.Untrimmed ∧ Loaded path F height e.view ∧
      (chunkSize height < F.length →
        e.view.current.map CurrentBuffer.data = some (F.take (chunkSize height))) := by
  have hv : Loaded path F height (HexView.start path F (width, height) : HexView X) :=
    .start path F width height
  have hu₀ : (HexView.start path F (width, height) : HexView X).Untrimmed :=
    fun _ hc ↦ (List.not_mem_nil hc).elim
  rw [Editor.opened_eq hF width hh]
  split
  · obtain ⟨v', loaded, hload, hmode, hu⟩ := hv.exists_loadNextChunk hF 64
    rw [hload]
    exact ⟨_, rfl, rfl, hmode, hu hu₀, hv.loadNextChunk hF hload, fun hl ↦ by omega⟩
  · exact ⟨_, rfl, rfl, rfl, hu₀, hv, fun _ ↦ rfl⟩

/-- Along a run without an edit the files stay as they are and the buffer holds what `Loaded`
says of the file. -/
theorem Loaded.always {E : SearchEngine} {e : Editor X} {inputs : List Event}
    (hF : e.fs.read path = some F) (h : Loaded path F height e.view)
    (hr : Along (Editor.step E height) Editor.Reads inputs e) :
    Always (Editor.step E height) (fun e' ↦ e'.fs = e.fs ∧ Loaded path F height e'.view)
      inputs e := (Loaded.kept hF).always h hr

/-- Until the first trim the data is a contiguous part of the file at its offset, after every
load and in every state of a run without an edit; a file of no more than three chunks is
never trimmed. -/
theorem window_until_trim (E : SearchEngine) {fs : FileSystem} (hF : fs.read path = some F)
    (width : Nat) (hh : 2 ≤ height ∧ height < 2 ^ 16) :
    ∃ e₀ : Editor X, Editor.opened fs path (width, height) = some e₀ ∧
      ∀ inputs, Along (Editor.step E height) Editor.Reads inputs e₀ →
        Always (Editor.step E height)
          (fun e ↦
            (e.view.Untrimmed → (∀ c ∈ e.view.calls, c.IsWindow F) ∧
              ∃ b, e.view.current = some b ∧
                b.data = (F.drop b.dataStartOffset).take b.data.length) ∧
            (F.length ≤ chunkSize height * 3 → e.view.Untrimmed))
          inputs e₀ := by
  obtain ⟨e₀, hopen, rfl, -, -, hl, -⟩ := Editor.opened_spec (X := X) hF width hh.2
  refine ⟨e₀, hopen, fun inputs hr ↦ (hl.always hF hr).imp fun e ⟨_, h⟩ ↦ ⟨fun hu ↦ ?_, h.small⟩⟩
  obtain ⟨b, hb, -, ho, hd⟩ := h.buffer
  refine ⟨h.calls hu, b, HexView.current_of_eq hb, ?_⟩
  rw [ho]
  exact List.prefix_iff_eq_take.mp (hd hu).2

/-- Scrolling on six rows through a file of two hundred bytes, which is below three screens. -/
theorem window_until_trim_scroll :
    let F : List UInt8 := (List.range 200).map Nat.toUInt8
    let fs := FileSystem.single ['f'] F
    let inputs := List.replicate 8 (Event.key (.plain (.char 'j')))
    ∃ e₀ : Editor (XiRope.reference UInt8), Editor.opened fs ['f'] (80, 6) = some e₀ ∧
      Always (Editor.step .reference 6) (fun e ↦ e.view.Untrimmed) inputs e₀ := by
  intro F fs inputs
  obtain ⟨e₀, hopen, h⟩ := window_until_trim (X := XiRope.reference UInt8) .reference
    (F := F) (show fs.read ['f'] = some F from rfl) 80 (show 2 ≤ 6 ∧ 6 < 2 ^ 16 by decide)
  have hr : ∀ e ∈ Editor.opened (X := XiRope.reference UInt8) fs ['f'] (80, 6),
      Along (Editor.step .reference 6) Editor.Reads inputs e := by decide +kernel
  exact ⟨e₀, hopen, (h inputs (hr e₀ hopen)).imp fun e he ↦ he.2 (by decide +kernel)⟩

/-- On six rows, moving down fourteen times in a file of four hundred bytes drops the first eighty
bytes from the data, while the offset of the data stays zero. -/
theorem trim_keeps_offset :
    let F : List UInt8 := (List.range 400).map Nat.toUInt8
    let fs := FileSystem.single ['f'] F
    ∃ e₀ ∈ Editor.opened (X := XiRope.reference UInt8) fs ['f'] (80, 6),
      ∃ e ∈ runSteps (Editor.step .reference 6)
        (List.replicate 14 (.key (.plain (.char 'j')))) e₀,
      ∃ b ∈ e.view.current, b.dataStartOffset = 0 ∧ b.data.take 192 = (F.drop 80).take 192 ∧
        b.data ≠ (F.drop b.dataStartOffset).take b.data.length := by
  decide +kernel

end Tofu

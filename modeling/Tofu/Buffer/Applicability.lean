import Tofu.Buffer.Window

/-!
# The history while the window moves

The deltas of the history are made for data of one length, and `xi_rope` applies and
chains a delta only on a base of that length. Loading a chunk and trimming the buffer
change the length without touching the history. The pending delta and the tops of the
stacks stay applicable exactly as long as the window moves only while the history is
empty.
-/

namespace Tofu

open Rope

variable {X : XiRope UInt8} {fs : FileSystem}

/-- Nothing to undo or redo and no insertion in progress. -/
def History.IsEmpty (h : History X) : Prop :=
  h.partialDelta = none ∧ h.undoStack = [] ∧ h.redoStack = []

instance (h : History X) : Decidable h.IsEmpty :=
  decidable_of_iff (h.partialDelta.isNone ∧ h.undoStack.isEmpty ∧ h.redoStack.isEmpty)
    (by simp [History.IsEmpty])

/-- The top of a stack is made for data of length `n`. -/
def TopFits (n : Nat) (stack : List (Action X × Selection)) : Prop :=
  ∀ p ∈ stack.head?, X.baseLen p.1.delta = n

instance (n : Nat) (stack : List (Action X × Selection)) : Decidable (TopFits n stack) :=
  inferInstanceAs (Decidable (∀ p ∈ stack.head?, X.baseLen p.1.delta = n))

/-- The deltas that the next edit, undo or redo would apply or chain are made for the data:
the pending one while there is one, and otherwise the tops of both stacks. -/
def Applicable (b : CurrentBuffer X) : Prop :=
  match b.history.partialDelta with
  | some (a, _) => X.baseLen a.delta = b.data.length
  | none => TopFits b.data.length b.history.undoStack ∧ TopFits b.data.length b.history.redoStack

namespace WindowStep

/-- How the modes call the buffer: deltas are made for the data they meet, and partial edits
are committed before a final edit, an undo or a redo. -/
def Disciplined : WindowStep X → CurrentBuffer X → Prop
  | final e, b => e.Fits b.snapshot ∧ b.history.partialDelta = none
  | incomplete e, b => e.Fits b.snapshot
  | undo, b => b.history.partialDelta = none
  | redo, b => b.history.partialDelta = none
  | _, _ => True

/-- The step does not move the window: a load finds no file that reaches behind the data, a trim
no more than two chunks. -/
def Stays (fs : FileSystem) : WindowStep X → CurrentBuffer X → Prop
  | load chunkSize, b => chunkSize = 0 ∨
    ∀ path ∈ b.path, ∀ content ∈ fs.read path, content.length ≤ b.data.length
  | trim chunkSize, b => chunkSize = 0 ∨ b.data.length ≤ chunkSize * 2
  | _, _ => True

instance (fs : FileSystem) (b : CurrentBuffer X) : (s : WindowStep X) → Decidable (s.Stays fs b)
  | load chunkSize => inferInstanceAs (Decidable (chunkSize = 0 ∨ ∀ path ∈ b.path,
      ∀ content ∈ fs.read path, content.length ≤ b.data.length))
  | trim chunkSize => inferInstanceAs (Decidable (chunkSize = 0 ∨ b.data.length ≤ chunkSize * 2))
  | final _ | incomplete _ | commit | undo | redo => inferInstanceAs (Decidable True)

/-- The step does not move the window, or the history is empty. -/
def Quiet (fs : FileSystem) (s : WindowStep X) (b : CurrentBuffer X) : Prop :=
  s.Stays fs b ∨ b.history.IsEmpty

end WindowStep

/-- The history leads through some linear history of snapshots. -/
def Consistent (b : CurrentBuffer X) : Prop :=
  ∃ t : Timeline Snapshot, Follows b t ∨ FollowsPartial b t

private theorem consistent_of_isEmpty {b : CurrentBuffer X} (h : b.history.IsEmpty) :
    Consistent b := by
  refine ⟨Timeline.start b.snapshot, .inl ⟨rfl, h.1, ?_, ?_⟩⟩
  · rw [h.2.1]
    trivial
  · rw [h.2.2]
    trivial

private theorem topFits_of_restores {xs : List UInt8} {stack : List (Action X × Selection)}
    {past : List Snapshot} (h : Restores xs stack past) : TopFits xs.length stack := by
  intro p hp
  match stack, past, h with
  | [], [], _ => simp at hp
  | (a, sel) :: stack, s :: past, ⟨ht, _, _⟩ =>
    obtain rfl : (a, sel) = p := by simpa using hp
    exact ht.1.symm

private theorem Consistent.applicable {b : CurrentBuffer X} (h : Consistent b) : Applicable b := by
  obtain ⟨t, h | h⟩ := h
  · rw [Applicable, h.complete]
    exact ⟨topFits_of_restores h.undo, topFits_of_restores h.redo⟩
  · obtain ⟨a, ha, ht⟩ := h.started
    rw [Applicable, ha]
    exact ht.1.symm

private theorem Consistent.follows {b : CurrentBuffer X} (h : Consistent b)
    (hn : b.history.partialDelta = none) : ∃ t, Follows b t := by
  obtain ⟨t, h | h⟩ := h
  · exact ⟨t, h⟩
  · obtain ⟨a, ha, -⟩ := h.started
    rw [hn] at ha
    cases ha

private theorem commitDelta_of_none {b : CurrentBuffer X} (h : b.history.partialDelta = none) :
    b.commitDelta = b := by
  simp [CurrentBuffer.commitDelta, History.commitPartial, h]

/-- A load leaves the buffer alone or makes the data longer. -/
theorem moves_load (n : Nat) (b : CurrentBuffer X) :
    ((WindowStep.load n).Stays fs b ∧ ∀ b', (WindowStep.load n).run fs b = some b' → b' = b) ∨
      ¬ (WindowStep.load n).Stays fs b ∧ ∃ data,
        (WindowStep.load n).run fs b = some { b with data } ∧ data.length ≠ b.data.length := by
  obtain hp | ⟨path, hp⟩ := Option.eq_none_or_eq_some b.path
  · refine .inl ⟨.inr fun path hpath ↦ (by rw [hp] at hpath; cases hpath), fun b' hr ↦ ?_⟩
    rw [WindowStep.run, CurrentBuffer.loadNextChunk, hp] at hr
    exact (Option.some.inj hr).symm
  · cases hF : fs.read path with
    | none =>
      refine .inl ⟨.inr fun path' hpath content hcontent ↦ ?_, fun b' hr ↦ ?_⟩
      · obtain rfl := Option.some.inj (hp.symm.trans hpath)
        rw [hF] at hcontent
        cases hcontent
      · rw [WindowStep.run, CurrentBuffer.loadNextChunk, hp] at hr
        simp only [FileSystem.readAt, hF, Option.map_none, reduceCtorEq] at hr
    | some content =>
      have hrun : (WindowStep.load n).run fs b =
          some { b with data := b.data ++ (content.drop b.data.length).take n } := by
        rw [WindowStep.run, CurrentBuffer.loadNextChunk_eq hp hF, Option.map_some]
      have hstays : (WindowStep.load n).Stays fs b ↔ n = 0 ∨ content.length ≤ b.data.length := by
        simp only [WindowStep.Stays, hp, Option.mem_def, Option.some.injEq, forall_eq', hF]
      by_cases hmove : n = 0 ∨ content.length ≤ b.data.length
      · refine .inl ⟨hstays.mpr hmove, fun b' hr ↦ ?_⟩
        have hnil : (content.drop b.data.length).take n = [] := by
          rw [List.take_eq_nil_iff, List.drop_eq_nil_iff]
          exact hmove
        rw [hrun, hnil, List.append_nil] at hr
        exact (Option.some.inj hr).symm
      · refine .inr ⟨hstays.not.mpr hmove, _, hrun, ?_⟩
        rw [List.length_append, List.length_take, List.length_drop]
        omega

/-- A trim leaves the buffer alone or makes the data shorter. -/
theorem moves_trim (n : Nat) (b : CurrentBuffer X) :
    ((WindowStep.trim n).Stays fs b ∧ ∀ b', (WindowStep.trim n).run fs b = some b' → b' = b) ∨
      ¬ (WindowStep.trim n).Stays fs b ∧ ∃ data,
        (WindowStep.trim n).run fs b = some { b with data } ∧ data.length ≠ b.data.length := by
  by_cases hmove : n = 0 ∨ b.data.length ≤ n * 2
  · refine .inl ⟨hmove, fun b' hr ↦ ?_⟩
    rw [WindowStep.run, trimTop, if_pos hmove] at hr
    exact (Option.some.inj hr).symm
  · refine .inr ⟨hmove, _, rfl, ?_⟩
    rw [trimTop, if_neg hmove, if_pos (by omega), List.length_drop]
    omega

private theorem not_applicable_of_moved {b : CurrentBuffer X} {data : List UInt8}
    (h : Applicable b) (hne : ¬ b.history.IsEmpty) (hl : data.length ≠ b.data.length) :
    ¬ Applicable { b with data := data } := by
  intro h'
  unfold Applicable at h h'
  cases hp : b.history.partialDelta with
  | some p =>
    obtain ⟨a, sel⟩ := p
    simp only [hp] at h h'
    omega
  | none =>
    simp only [hp] at h h'
    cases hu : b.history.undoStack with
    | cons p stack =>
      have h1 := h.1 p (by simp [hu])
      have h2 := h'.1 p (by simp [hu])
      omega
    | nil =>
      cases hr : b.history.redoStack with
      | cons p stack =>
        have h1 := h.2 p (by simp [hr])
        have h2 := h'.2 p (by simp [hr])
        omega
      | nil => exact hne ⟨hp, hu, hr⟩

section Moves

variable {s : WindowStep X} {b b' : CurrentBuffer X}
  (hm : (s.Stays fs b ∧ ∀ b', s.run fs b = some b' → b' = b) ∨
    ¬ s.Stays fs b ∧ ∃ data, s.run fs b = some { b with data } ∧ data.length ≠ b.data.length)
include hm

private theorem consistent_of_quiet (h : Consistent b) (hq : s.Quiet fs b)
    (hr : s.run fs b = some b') : Consistent b' := by
  rcases hm with ⟨-, hsame⟩ | ⟨hmoves, data, hrun, -⟩
  · rwa [hsame b' hr]
  · obtain rfl := Option.some.inj (hrun.symm.trans hr)
    exact consistent_of_isEmpty (hq.resolve_left hmoves)

/-- Data of another length makes some delta of a history that is not empty inapplicable. -/
theorem quiet_of_moved (h : Applicable b)
    (hn : ∀ b', s.run fs b = some b' → Applicable b') : s.Quiet fs b := by
  rcases hm with ⟨hstays, -⟩ | ⟨-, data, hrun, hl⟩
  · exact .inl hstays
  · right
    by_contra hne
    exact not_applicable_of_moved h hne hl (hn _ hrun)

end Moves

/-- A step that does not move the window under a history keeps it consistent. -/
theorem Consistent.step {s : WindowStep X} {b b' : CurrentBuffer X} (h : Consistent b)
    (hd : s.Disciplined b) (hq : s.Quiet fs b) (hr : s.run fs b = some b') : Consistent b' := by
  cases s with
  | final e =>
    obtain ⟨t, ht⟩ := h.follows hd.2
    exact ⟨_, .inl (ht.final hd.1 hr)⟩
  | incomplete e =>
    obtain ⟨t, ht | ht⟩ := h
    · exact ⟨t, .inr (ht.startPartial hd hr)⟩
    · exact ⟨t, .inr (ht.next hd hr)⟩
  | commit =>
    obtain rfl := Option.some.inj hr
    obtain ⟨t, ht | ht⟩ := h
    · rw [commitDelta_of_none ht.complete]
      exact ⟨t, .inl ht⟩
    · exact ⟨_, .inl ht.commit⟩
  | undo =>
    obtain rfl := Option.some.inj hr
    obtain ⟨t, ht⟩ := h.follows hd
    exact ⟨_, .inl ht.undoStep⟩
  | redo =>
    obtain rfl := Option.some.inj hr
    obtain ⟨t, ht⟩ := h.follows hd
    exact ⟨_, .inl ht.redoStep⟩
  | load n => exact consistent_of_quiet (moves_load n b) h hq hr
  | trim n => exact consistent_of_quiet (moves_trim n b) h hq hr

/-- A step after which the deltas are still applicable did not move the window under a
history. -/
theorem quiet_of_applicable {s : WindowStep X} {b : CurrentBuffer X} (h : Applicable b)
    (hn : ∀ b', s.run fs b = some b' → Applicable b') : s.Quiet fs b := by
  cases s with
  | load n => exact quiet_of_moved (moves_load n b) h hn
  | trim n => exact quiet_of_moved (moves_trim n b) h hn
  | _ => exact .inl trivial

private theorem along_quiet_iff {steps : List (WindowStep X)} {b : CurrentBuffer X}
    (h : Consistent b) (hd : Along (WindowStep.run fs) WindowStep.Disciplined steps b) :
    Along (WindowStep.run fs) (WindowStep.Quiet fs) steps b ↔
      Always (WindowStep.run fs) Applicable steps b := by
  induction steps generalizing b with
  | nil => exact ⟨fun _ ↦ always_nil.mpr h.applicable, fun _ ↦ trivial⟩
  | cons s steps ih =>
    constructor
    · rintro ⟨hq, hqs⟩
      refine always_cons.mpr ⟨h.applicable, fun b' hr ↦ ?_⟩
      exact (ih (h.step hd.1 hq hr) (hd.2 b' hr)).mp (hqs b' hr)
    · intro ha
      obtain ⟨happ, ha⟩ := always_cons.mp ha
      have hq : s.Quiet fs b := quiet_of_applicable happ fun b' hr ↦
        ha b' hr [] b' List.nil_prefix rfl
      exact ⟨hq, fun b' hr ↦ (ih (h.step hd.1 hq hr) (hd.2 b' hr)).mpr (ha b' hr)⟩

private theorem always_consistent {steps : List (WindowStep X)} {b : CurrentBuffer X}
    (h : Consistent b) (hd : Along (WindowStep.run fs) WindowStep.Disciplined steps b)
    (hq : Along (WindowStep.run fs) (WindowStep.Quiet fs) steps b) :
    Always (WindowStep.run fs) Consistent steps b := by
  apply (hd.and hq).always h
  rintro s b b' hc ⟨hdisciplined, hquiet⟩ hr
  exact hc.step hdisciplined hquiet hr

/-- Loads that do not move the window under a history change nothing after an edit. -/
theorem loads_after_edit {e : BufferEdit X} {b b₁ b₂ : CurrentBuffer X}
    {sizes : List Nat} (hr : e.run true b = some b₁)
    (hq : Along (WindowStep.run fs) (WindowStep.Quiet fs) (sizes.map WindowStep.load) b₁)
    (hl : runSteps (WindowStep.run fs) (sizes.map WindowStep.load) b₁ = some b₂) : b₂ = b₁ := by
  have hne : ¬ b₁.history.IsEmpty := by
    rw [BufferEdit.run_eq] at hr
    obtain ⟨sel, -, rfl⟩ := Option.map_eq_some_iff.mp hr
    rintro ⟨-, hu, -⟩
    simp [CurrentBuffer.applyDeltaToCurrentBuffer, History.performFinal] at hu
  induction sizes with
  | nil => exact (Option.some.inj hl).symm
  | cons n sizes ih =>
    obtain ⟨mid, hm, hl'⟩ := Option.bind_eq_some_iff.mp hl
    obtain rfl : mid = b₁ := by
      rcases moves_load n b₁ with ⟨-, hsame⟩ | ⟨hmoves, -⟩
      · exact hsame mid hm
      · exact absurd (hq.1.resolve_left hmoves) hne
    exact ih (hq.2 mid hm) hl'

/-- In a run of edits, undos, redos, loads and trims from a buffer without a history, the
deltas that are applied or chained next always fit the data exactly when each load or trim
leaves the data alone or meets an empty history. An edit followed by loads is then undone
to the bytes before it, followed by those loaded since. -/
theorem applicable_iff_quiet (b₀ : CurrentBuffer X) (he : b₀.history.IsEmpty)
    (steps : List (WindowStep X))
    (hd : Along (WindowStep.run fs) WindowStep.Disciplined steps b₀) :
    (Along (WindowStep.run fs) (WindowStep.Quiet fs) steps b₀ ↔
      Always (WindowStep.run fs) Applicable steps b₀) ∧
    (Along (WindowStep.run fs) (WindowStep.Quiet fs) steps b₀ →
      Always (WindowStep.run fs) (fun b ↦ ∀ (e : BufferEdit X) b₁ (sizes : List Nat) b₂,
        b.history.partialDelta = none → e.Fits b.snapshot → e.run true b = some b₁ →
        Along (WindowStep.run fs) (WindowStep.Quiet fs) (sizes.map WindowStep.load) b₁ →
        runSteps (WindowStep.run fs) (sizes.map WindowStep.load) b₁ = some b₂ →
        b₂.undoStep.data = b.data ++ b₂.data.drop b₁.data.length) steps b₀) := by
  have hc := consistent_of_isEmpty he
  refine ⟨along_quiet_iff hc hd, fun hq ↦ (always_consistent hc hd hq).imp ?_⟩
  intro b hb e b₁ sizes b₂ hn hf hr hqs hl
  obtain ⟨t, ht⟩ := hb.follows hn
  obtain rfl := loads_after_edit hr hqs hl
  have hback := (ht.final hf hr).undoStep.present
  rw [List.drop_length, List.append_nil]
  exact (congrArg Prod.fst (hback.symm.trans ht.present))

/-- An edit of a file that is loaded whole. -/
theorem applicable_editWhole :
    let X := XiRope.reference UInt8
    let fs := FileSystem.single ['f'] [1, 2]
    let steps : List (WindowStep X) := [.final ⟨X.simpleEdit 0 1 [7] 2, none⟩, .load 64, .undo]
    Always (WindowStep.run fs) Applicable steps
      (CurrentBuffer.fromDataAndPath [1, 2] (some ['f'])) := by
  intro X fs steps
  have hd : Along (WindowStep.run fs) WindowStep.Disciplined steps
      (CurrentBuffer.fromDataAndPath [1, 2] (some ['f'])) := by
    refine ⟨⟨rfl, rfl⟩, fun b' hr ↦ ⟨trivial, fun b'' hl ↦ ⟨?_, fun _ _ ↦ trivial⟩⟩⟩
    obtain rfl := Option.some.inj hr
    obtain rfl := Option.some.inj hl
    rfl
  refine ((applicable_iff_quiet _ ⟨rfl, rfl, rfl⟩ steps hd).1).mp
    ⟨.inl trivial, fun b' hr ↦ ⟨?_, ?_⟩⟩
  · obtain rfl := Option.some.inj hr
    left
    decide
  · exact fun _ _ ↦ ⟨.inl trivial, fun _ _ ↦ trivial⟩

/-- Four bytes of which two are loaded: after deleting one and loading the rest, the delta on
top of the undo stack is made for one byte and meets four. -/
theorem undo_after_load_mismatch :
    let X := XiRope.reference UInt8
    let fs := FileSystem.single ['f'] [1, 2, 3, 4]
    let steps : List (WindowStep X) := [.final ⟨X.simpleEdit 0 1 [] 2, none⟩, .load 64]
    (runSteps (WindowStep.run fs) steps
        (CurrentBuffer.fromDataAndPath [1, 2] (some ['f']))).map
      (fun b ↦ (b.data, b.history.undoStack.map fun p ↦ X.baseLen p.1.delta)) =
        some ([2, 2, 3, 4], [1]) := by
  decide

end Tofu

import Tofu.Base.Timeline

/-!
# Linear histories with a draft

An editor shows a state that may be ahead of its history: changes are written to a draft,
which is committed as one state. What is seen of a state, but does not count as a change,
can be revised at any time. Whatever is done, enough steps back lead to the origin of the
history, and one step back takes back a draft.
-/

namespace Tofu

namespace Timeline

variable {S D : Type*}

/-- Another state in the place of the present one. -/
def revise (t : Timeline S) (s : S) : Timeline S := { t with present := s }

/-- What counts of the oldest state. -/
def origin (f : S → D) (t : Timeline S) : D := f (t.past.getLastD t.present)

private theorem origin_commit (f : S → D) (t : Timeline S) (s : S) :
    (t.commit s).origin f = t.origin f := by
  rw [origin, commit, List.getLastD_cons, origin]

private theorem origin_undo (f : S → D) (t : Timeline S) : t.undo.origin f = t.origin f := by
  unfold undo
  split
  · rfl
  · next s past hp => rw [origin, origin, hp, List.getLastD_cons]

private theorem origin_redo (f : S → D) (t : Timeline S) : t.redo.origin f = t.origin f := by
  unfold redo
  split
  · rfl
  · exact origin_commit f t _

private theorem origin_revise {f : S → D} {t : Timeline S} {s : S} (h : f s = f t.present) :
    (t.revise s).origin f = t.origin f := by
  unfold origin revise
  cases hp : t.past with
  | nil => exact h
  | cons s' past => rw [List.getLastD_cons, List.getLastD_cons]

/-- As many steps back as there are lead to the origin. -/
theorem origin_of_iterate_undo (f : S → D) (t : Timeline S) :
    (undo^[t.past.length] t).past = [] ∧ f (undo^[t.past.length] t).present = t.origin f := by
  obtain ⟨past, present, future⟩ := t
  induction past generalizing present future with
  | nil => exact ⟨rfl, rfl⟩
  | cons s past ih =>
    obtain ⟨hp, ho⟩ := ih s (present :: future)
    refine ⟨hp, ho.trans ?_⟩
    exact origin_undo f { past := s :: past, present, future }

end Timeline

/-- A history, and the draft that is seen instead of its present state if there is one. -/
structure Draft (S : Type*) where
  timeline : Timeline S
  draft : Option S

namespace Draft

variable {S D : Type*}

/-- Nothing is drafted, and nothing can be undone. -/
def start (s : S) : Draft S := { timeline := .start s, draft := none }

/-- The state that is seen. -/
def now (d : Draft S) : S := d.draft.getD d.timeline.present

/-- The state that is shown is changed, without a step of its own. -/
def revise (d : Draft S) (s : S) : Draft S :=
  match d.draft with
  | none => { d with timeline := d.timeline.revise s }
  | some _ => { d with draft := some s }

/-- A revision to what is shown changes nothing. -/
@[simp] theorem revise_now (d : Draft S) : d.revise d.now = d := by
  obtain ⟨timeline, draft⟩ := d
  cases draft <;> rfl

/-- What is written becomes the draft. -/
def write (d : Draft S) (s : S) : Draft S := { d with draft := some s }

/-- A draft becomes a step that can be undone. -/
def commit (d : Draft S) : Draft S :=
  match d.draft with
  | none => d
  | some s => { timeline := d.timeline.commit s, draft := none }

/-- Committing does not change what is seen. -/
theorem now_commit (d : Draft S) : d.commit.now = d.now := by
  unfold commit
  split
  · rfl
  · next s hs => rw [now, now, hs, Option.getD_none, Option.getD_some, Timeline.commit]

/-- One step. Drafts are written and committed while one is drafting, and states are recorded,
undone and redone while one is not; a revision keeps what counts. -/
inductive Step (f : S → D) (drafting : Bool) (d : Draft S) : Draft S → Prop
  | revise {s : S} (h : f s = f d.now) : Step f drafting d (d.revise s)
  | write (hd : drafting = true) (s : S) : Step f drafting d (d.write s)
  | record (hd : drafting = false) (s : S) :
      Step f drafting d { d with timeline := d.timeline.commit s }
  | undo (hd : drafting = false) : Step f drafting d { d with timeline := d.timeline.undo }
  | redo (hd : drafting = false) : Step f drafting d { d with timeline := d.timeline.redo }

/-- A property of every state that was recorded or drafted. -/
structure All (P : S → Prop) (d : Draft S) : Prop where
  past : ∀ s ∈ d.timeline.past, P s
  present : P d.timeline.present
  future : ∀ s ∈ d.timeline.future, P s
  draft : ∀ s ∈ d.draft, P s

variable {P : S → Prop} {f : S → D} {drafting : Bool} {d d' d₀ : Draft S}

/-- At the start there is one state to look at. -/
theorem all_start {s : S} (h : P s) : (start s).All P :=
  ⟨by simp [start, Timeline.start], h, by simp [start, Timeline.start], by simp [start]⟩

private theorem All.now (h : d.All P) : P d.now := by
  unfold Draft.now
  cases hd : d.draft with
  | none => exact h.present
  | some s => exact h.draft s hd

/-- A commit keeps what holds of every state. -/
theorem All.commit (h : d.All P) : d.commit.All P := by
  unfold Draft.commit
  split
  · exact h
  · next s hs =>
    exact ⟨List.forall_mem_cons.mpr ⟨h.present, h.past⟩, h.draft s hs, by simp [Timeline.commit],
      by simp⟩

/-- It holds of every state when it holds of those that are seen. -/
theorem All.step (h : d.All P) (hd : drafting = false → d.draft = none)
    (hs : Step f drafting d d') (hnow : P d'.now) : d'.All P := by
  cases hs with
  | @revise s _ =>
    unfold revise at hnow ⊢
    split at hnow
    · next hd => exact ⟨h.past, by simpa [Draft.now, hd] using hnow, h.future, h.draft⟩
    · exact ⟨h.past, h.present, h.future, by simpa [Draft.now] using hnow⟩
  | write _ s => exact ⟨h.past, h.present, h.future, by simpa [Draft.now, write] using hnow⟩
  | record hdrafting s =>
    have hnone := hd hdrafting
    refine ⟨List.forall_mem_cons.mpr ⟨h.present, h.past⟩, ?_, by simp [Timeline.commit], h.draft⟩
    simpa [Draft.now, hnone] using hnow
  | undo =>
    simp only [Timeline.undo]
    split
    · exact h
    · next s past hp =>
      obtain ⟨hs, hpast⟩ := List.forall_mem_cons.mp (hp ▸ h.past)
      exact ⟨hpast, hs, List.forall_mem_cons.mpr ⟨h.present, h.future⟩, h.draft⟩
  | redo =>
    simp only [Timeline.redo]
    split
    · exact h
    · next s future hp =>
      obtain ⟨hs, hfuture⟩ := List.forall_mem_cons.mp (hp ▸ h.future)
      exact ⟨List.forall_mem_cons.mpr ⟨h.present, h.past⟩, hs, hfuture, h.draft⟩

/-- A commit keeps where the past started. -/
theorem origin_draft_commit (d : Draft S) :
    d.commit.timeline.origin f = d.timeline.origin f := by
  unfold commit
  split
  · rfl
  · exact d.timeline.origin_commit f _

/-- Without writing no draft appears. -/
theorem Step.draft_eq_none (h : Step f false d d') (hd : d.draft = none) : d'.draft = none := by
  cases h with
  | revise => simp only [Draft.revise, hd]
  | write hd => cases hd
  | record | undo | redo => exact hd

/-- A step records at most one state. -/
theorem Step.length_past_le (h : Step f drafting d d') :
    d'.timeline.past.length ≤ d.timeline.past.length + 1 := by
  cases h with
  | revise =>
    unfold Draft.revise
    split <;> exact Nat.le_succ _
  | write => exact Nat.le_succ _
  | record => exact Nat.le_refl _
  | undo =>
    simp only [Timeline.undo]
    split
    · exact Nat.le_succ _
    · next s past hp =>
      rw [hp, List.length_cons]
      simp only
      omega
  | redo =>
    simp only [Timeline.redo]
    split
    · exact Nat.le_succ _
    · exact Nat.le_refl _

/-- A commit adds at most one step to the past. -/
theorem length_past_commit_le (d : Draft S) :
    d.commit.timeline.past.length ≤ d.timeline.past.length + 1 := by
  unfold commit
  split
  · exact Nat.le_succ _
  · exact Nat.le_refl _

/-- The origin stays. -/
theorem Step.origin (h : Step f drafting d d') :
    d'.timeline.origin f = d.timeline.origin f := by
  cases h with
  | revise h =>
    unfold Draft.revise
    split
    · next hd =>
      rw [now, hd] at h
      exact Timeline.origin_revise h
    · rfl
  | write => rfl
  | record _ s => exact d.timeline.origin_commit f s
  | undo => exact d.timeline.origin_undo f
  | redo => exact d.timeline.origin_redo f

/-- A draft of the history that was present when drafting started. -/
structure Drafts (f : S → D) (d₀ d : Draft S) : Prop where
  past : d.timeline.past = d₀.timeline.past
  present : f d.timeline.present = f d₀.timeline.present

/-- Drafting goes on. -/
theorem Drafts.step (hd : Drafts f d₀ d) (h : Step f true d d') : Drafts f d₀ d' := by
  cases h with
  | revise h =>
    unfold Draft.revise
    split
    · next hnone =>
      rw [now, hnone] at h
      exact ⟨hd.past, h.trans hd.present⟩
    · exact ⟨hd.past, hd.present⟩
  | write => exact ⟨hd.past, hd.present⟩
  | record hd | undo hd | redo hd => cases hd

/-- What was drafted is taken back by one step, if it counts. -/
theorem Drafts.undo_commit (hd : Drafts f d₀ d) (hne : f d.now ≠ f d₀.timeline.present) :
    d.commit.timeline.past ≠ [] ∧ f d.commit.timeline.undo.present = f d₀.timeline.present := by
  cases hdraft : d.draft with
  | none =>
    rw [now, hdraft] at hne
    exact absurd hd.present hne
  | some s =>
    rw [commit, hdraft]
    exact ⟨by simp [Timeline.commit], hd.present⟩

end Draft

end Tofu

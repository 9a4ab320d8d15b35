import Mathlib.Data.List.Infix
import Mathlib.Data.Option.Defs

/-!
# Runs

A step function that may panic is run over a list of inputs. An invariant is proved for
one step and holds along every run whose steps meet a side condition; a relation between
two systems is proved for one step and holds of whole runs.
-/

namespace Tofu

variable {ι σ τ : Type*} {step : ι → σ → Option σ} {step' : ι → τ → Option τ}
  {P : ι → σ → Prop} {Q : σ → Prop}

/-- The state after all inputs, unless some step panics. -/
def runSteps (step : ι → σ → Option σ) (inputs : List ι) (s : σ) : Option σ :=
  inputs.foldlM (fun s i ↦ step i s) s

/-- Every input meets the condition in the state it is reached in. -/
def Along (step : ι → σ → Option σ) (P : ι → σ → Prop) : List ι → σ → Prop
  | [], _ => True
  | i :: inputs, s => P i s ∧ ∀ s', step i s = some s' → Along step P inputs s'

/-- Every state reached on the way, the first one included, has the property. -/
def Always (step : ι → σ → Option σ) (Q : σ → Prop) (inputs : List ι) (s : σ) : Prop :=
  ∀ pre s', pre <+: inputs → runSteps step pre s = some s' → Q s'

instance Along.decidable [∀ i s, Decidable (P i s)] :
    ∀ (inputs : List ι) (s : σ), Decidable (Along step P inputs s)
  | [], _ => isTrue trivial
  | i :: inputs, s =>
    match h : step i s with
    | none => decidable_of_iff (P i s) ⟨fun hp ↦ ⟨hp, by simp [h]⟩, And.left⟩
    | some s' =>
      have := Along.decidable inputs s'
      decidable_of_iff (P i s ∧ Along step P inputs s') (by simp [Along, h])

/-- A run without inputs stays. -/
@[simp] theorem runSteps_nil (s : σ) : runSteps step [] s = some s := rfl

/-- A run takes the first step and goes on from there. -/
@[simp] theorem runSteps_cons (i : ι) (inputs : List ι) (s : σ) :
    runSteps step (i :: inputs) s = (step i s).bind (runSteps step inputs) := rfl

/-- A run over two lists of inputs is a run over the second behind one over the first. -/
theorem runSteps_append (pre inputs : List ι) (s : σ) :
    runSteps step (pre ++ inputs) s = (runSteps step pre s).bind (runSteps step inputs) :=
  List.foldlM_append

/-- An input that panics in every state is not in a run that ends. -/
theorem runSteps_eq_none {i : ι} {inputs : List ι} (hi : i ∈ inputs) (hnone : ∀ s, step i s = none)
    (s : σ) : runSteps step inputs s = none := by
  obtain ⟨pre, post, rfl⟩ := List.append_of_mem hi
  rw [runSteps_append, Option.bind_eq_none_iff]
  intro s' _
  rw [runSteps_cons, hnone, Option.bind_none]

/-- Without inputs only the start counts. -/
theorem always_nil {s : σ} : Always step Q [] s ↔ Q s := by
  constructor
  · intro h
    exact h [] s List.prefix_rfl rfl
  · intro h pre s' hp hr
    rw [List.prefix_nil.mp hp, runSteps_nil, Option.some.injEq] at hr
    rwa [← hr]

/-- The start counts, and what the first step leads to. -/
theorem always_cons {i : ι} {inputs : List ι} {s : σ} :
    Always step Q (i :: inputs) s ↔ Q s ∧ ∀ s', step i s = some s' → Always step Q inputs s' := by
  constructor
  · intro h
    refine ⟨h [] s (List.nil_prefix) rfl, fun s' hs pre s'' hp hr ↦ ?_⟩
    exact h (i :: pre) s'' (List.cons_prefix_cons.mpr ⟨rfl, hp⟩)
      (by rw [runSteps_cons, hs]; exact hr)
  · rintro ⟨hq, h⟩ pre s'' hp hr
    cases pre with
    | nil =>
      rw [runSteps_nil, Option.some.injEq] at hr
      rwa [← hr]
    | cons j pre =>
      obtain ⟨rfl, hp'⟩ := List.cons_prefix_cons.mp hp
      obtain ⟨s', hs, hr⟩ := Option.bind_eq_some_iff.mp hr
      exact h s' hs pre s'' hp' hr

instance Always.decidable [DecidablePred Q] :
    ∀ (inputs : List ι) (s : σ), Decidable (Always step Q inputs s)
  | [], s => decidable_of_iff (Q s) always_nil.symm
  | i :: inputs, s =>
    match h : step i s with
    | none => decidable_of_iff (Q s) (by simp [always_cons, h])
    | some s' =>
      have := Always.decidable inputs s'
      decidable_of_iff (Q s ∧ Always step Q inputs s') (by simp [always_cons, h])

/-- An invariant that steps keep under the side condition holds along the run. -/
theorem Along.always {inputs : List ι} {s : σ} (ha : Along step P inputs s) (hq : Q s)
    (hstep : ∀ i s s', Q s → P i s → step i s = some s' → Q s') : Always step Q inputs s := by
  induction inputs generalizing s with
  | nil => exact always_nil.mpr hq
  | cons i inputs ih =>
    exact always_cons.mpr ⟨hq, fun s' hs ↦ ih (ha.2 s' hs) (hstep i s s' hq ha.1 hs)⟩

/-- An invariant of every step holds along every run. -/
theorem always_of_step {inputs : List ι} {s : σ} (hq : Q s)
    (hstep : ∀ i s s', Q s → step i s = some s' → Q s') : Always step Q inputs s := by
  induction inputs generalizing s with
  | nil => exact always_nil.mpr hq
  | cons i inputs ih => exact always_cons.mpr ⟨hq, fun s' hs ↦ ih (hstep i s s' hq hs)⟩

/-- An invariant that steps keep under the side condition, and a property it gives which no
step keeps without the side condition: the property holds along exactly the runs that meet
the condition. -/
theorem along_iff_always_of_invariant {I : σ → Prop} {inputs : List ι} {s : σ} (hi : I s)
    (himp : ∀ s, I s → Q s) (hstep : ∀ i s s', I s → P i s → step i s = some s' → I s')
    (hback : ∀ i s, I s → (∀ s', step i s = some s' → Q s') → P i s) :
    Along step P inputs s ↔ Always step Q inputs s := by
  constructor
  · intro ha pre s' hp hr
    exact himp s' (ha.always hi hstep pre s' hp hr)
  · intro ha
    induction inputs generalizing s with
    | nil => trivial
    | cons i inputs ih =>
      obtain ⟨-, h⟩ := always_cons.mp ha
      have hp : P i s := hback i s hi fun s' hs ↦ h s' hs [] s' List.nil_prefix rfl
      exact ⟨hp, fun s' hs ↦ ih (hstep i s s' hi hp hs) (h s' hs)⟩

/-- When a step keeps the property exactly under the side condition, so do runs. -/
theorem along_iff_always {inputs : List ι} {s : σ} (hq : Q s)
    (hstep : ∀ i s, Q s → (P i s ↔ ∀ s', step i s = some s' → Q s')) :
    Along step P inputs s ↔ Always step Q inputs s :=
  along_iff_always_of_invariant hq (fun _ hq ↦ hq)
    (fun i s s' hq hp ↦ (hstep i s hq).mp hp s') fun i s hq ↦ (hstep i s hq).mpr

/-- When, under an invariant, a step succeeds and keeps the property exactly under the side
condition, the runs that end and keep the property are those that meet the condition. -/
theorem along_iff_survives {I : σ → Prop} {inputs : List ι} {s : σ} (hi : I s)
    (himp : ∀ s, I s → Q s) (hstep : ∀ i s s', I s → P i s → step i s = some s' → I s')
    (hiff : ∀ i s, I s → (P i s ↔ ∃ s', step i s = some s' ∧ Q s')) :
    Along step P inputs s ↔ (runSteps step inputs s).isSome ∧ Always step Q inputs s := by
  constructor
  · intro ha
    refine ⟨?_, fun pre s' hp hr ↦ himp s' (ha.always hi hstep pre s' hp hr)⟩
    induction inputs generalizing s with
    | nil => rfl
    | cons i inputs ih =>
      obtain ⟨s', hs, -⟩ := (hiff i s hi).mp ha.1
      rw [runSteps_cons, hs, Option.bind_some]
      exact ih (hstep i s s' hi ha.1 hs) (ha.2 s' hs)
  · rintro ⟨hsome, ha⟩
    induction inputs generalizing s with
    | nil => trivial
    | cons i inputs ih =>
      obtain ⟨-, h⟩ := always_cons.mp ha
      cases hs : step i s with
      | none => simp [hs] at hsome
      | some s' =>
        have hp : P i s := (hiff i s hi).mpr ⟨s', hs, h s' hs [] s' List.nil_prefix rfl⟩
        refine ⟨hp, fun s'' hs'' ↦ ?_⟩
        obtain rfl := Option.some.inj (hs.symm.trans hs'')
        rw [runSteps_cons, hs, Option.bind_some] at hsome
        exact ih (hstep i s s' hi hp hs) hsome (h s' hs)

/-- Two conditions that agree on each step, under an invariant, hold along the same runs. -/
theorem along_congr {I : σ → Prop} {D P' : ι → σ → Prop} {inputs : List ι} {s : σ} (hi : I s)
    (hd : Along step D inputs s) (hstep : ∀ i s s', I s → D i s → step i s = some s' → I s')
    (hiff : ∀ i s, I s → D i s → (P i s ↔ P' i s)) :
    Along step P inputs s ↔ Along step P' inputs s := by
  induction inputs generalizing s with
  | nil => exact Iff.rfl
  | cons i inputs ih =>
    refine and_congr (hiff i s hi hd.1) (forall₂_congr fun s' hs ↦ ?_)
    exact ih (hstep i s s' hi hd.1 hs) (hd.2 s' hs)

/-- Two conditions met along a run are met together. -/
theorem Along.and {P' : ι → σ → Prop} {inputs : List ι} {s : σ} (h : Along step P inputs s)
    (h' : Along step P' inputs s) : Along step (fun i s ↦ P i s ∧ P' i s) inputs s := by
  induction inputs generalizing s with
  | nil => trivial
  | cons i inputs ih => exact ⟨⟨h.1, h'.1⟩, fun s' hs ↦ ih (h.2 s' hs) (h'.2 s' hs)⟩

/-- A condition along a run holds along its beginning and, from where that ends, along the rest. -/
theorem along_append {pre inputs : List ι} {s : σ} :
    Along step P (pre ++ inputs) s ↔
      Along step P pre s ∧ ∀ s', runSteps step pre s = some s' → Along step P inputs s' := by
  induction pre generalizing s with
  | nil => simp [Along]
  | cons i pre ih =>
    simp only [List.cons_append, Along, ih, runSteps_cons, Option.bind_eq_some_iff]
    constructor
    · rintro ⟨hp, h⟩
      exact ⟨⟨hp, fun s' hs ↦ (h s' hs).1⟩, fun s'' ⟨s', hs, hrun⟩ ↦ (h s' hs).2 s'' hrun⟩
    · rintro ⟨⟨hp, h⟩, hrest⟩
      exact ⟨hp, fun s' hs ↦ ⟨h s' hs, fun s'' hrun ↦ hrest s'' ⟨s', hs, hrun⟩⟩⟩

/-- A condition on the runs of a system that another one follows, as far as it gets. -/
theorem Along.comap {f : τ → σ} {inputs : List ι} {t : τ}
    (hstep : ∀ i t t', step' i t = some t' → step i (f t) = some (f t'))
    (h : Along step P inputs (f t)) : Along step' (fun i t ↦ P i (f t)) inputs t := by
  induction inputs generalizing t with
  | nil => trivial
  | cons i inputs ih => exact ⟨h.1, fun t' ht ↦ ih (h.2 (f t') (hstep i t t' ht))⟩

/-- A system that never panics is run by a fold. -/
theorem runSteps_some (next : ι → σ → σ) (inputs : List ι) (s : σ) :
    runSteps (fun i s ↦ some (next i s)) inputs s =
      some (inputs.foldl (fun s i ↦ next i s) s) := by
  induction inputs generalizing s with
  | nil => rfl
  | cons i inputs ih => exact ih (next i s)

/-- A condition that reads one part of the state is one on the runs of that part. -/
theorem along_fst {next : ι → σ → σ} {next' : ι → τ → τ} {inputs : List ι} {s : σ} {t : τ} :
    Along (fun i (p : σ × τ) ↦ some (next i p.1, next' i p.2)) (fun i p ↦ P i p.1) inputs (s, t) ↔
      Along (fun i s ↦ some (next i s)) P inputs s := by
  induction inputs generalizing s t with
  | nil => exact Iff.rfl
  | cons i inputs ih =>
    simp only [Along, Option.some.injEq, forall_eq', ih]

/-- What always holds implies what follows from it. -/
theorem Always.imp {Q' : σ → Prop} {inputs : List ι} {s : σ} (h : Always step Q inputs s)
    (hq : ∀ s, Q s → Q' s) : Always step Q' inputs s :=
  fun pre s' hp hr ↦ hq s' (h pre s' hp hr)

/-- Two properties that always hold do so together. -/
theorem Always.and {Q' : σ → Prop} {inputs : List ι} {s : σ} (h : Always step Q inputs s)
    (h' : Always step Q' inputs s) : Always step (fun s ↦ Q s ∧ Q' s) inputs s :=
  fun pre s' hp hr ↦ ⟨h pre s' hp hr, h' pre s' hp hr⟩

/-- Two properties that agree where an invariant holds hold along the same runs. -/
theorem always_congr {I Q' : σ → Prop} {inputs : List ι} {s : σ} (hi : Always step I inputs s)
    (hiff : ∀ s, I s → (Q s ↔ Q' s)) : Always step Q inputs s ↔ Always step Q' inputs s := by
  constructor
  · intro h pre s' hp hr
    exact (hiff s' (hi pre s' hp hr)).mp (h pre s' hp hr)
  · intro h pre s' hp hr
    exact (hiff s' (hi pre s' hp hr)).mpr (h pre s' hp hr)

/-- What always holds does so at the end of the run. -/
theorem Always.last {inputs : List ι} {s s' : σ} (h : Always step Q inputs s)
    (hr : runSteps step inputs s = some s') : Q s' := h inputs s' List.prefix_rfl hr

/-- Systems that correspond step by step correspond along runs; the one panics when the
other does. -/
theorem Along.rel {R : σ → τ → Prop} {inputs : List ι} {s : σ} {t : τ}
    (ha : Along step P inputs s) (hr : R s t)
    (hstep : ∀ i s t, R s t → P i s → Option.Rel R (step i s) (step' i t)) :
    Option.Rel R (runSteps step inputs s) (runSteps step' inputs t) := by
  induction inputs generalizing s t with
  | nil => exact .some hr
  | cons i inputs ih =>
    have hrel := hstep i s t hr ha.1
    rw [runSteps_cons, runSteps_cons]
    cases hs : step i s with
    | none =>
      rw [hs] at hrel
      cases ht : step' i t with
      | none => exact .none
      | some t' => rw [ht] at hrel; cases hrel
    | some s' =>
      rw [hs] at hrel
      cases ht : step' i t with
      | none => rw [ht] at hrel; cases hrel
      | some t' =>
        rw [ht] at hrel
        cases hrel with
        | some hr' => exact ih (ha.2 s' hs) hr'

/-- A property that no step brings about, and that holds at the end of a run, holds behind each
of its steps. -/
theorem along_of_last {inputs : List ι} {s s' : σ}
    (hback : ∀ i s s', step i s = some s' → Q s' → Q s) (h : runSteps step inputs s = some s')
    (hq : Q s') : Q s ∧ Along step (fun i s ↦ ∀ s₁, step i s = some s₁ → Q s₁) inputs s := by
  induction inputs generalizing s with
  | nil =>
    obtain rfl := Option.some.inj h
    exact ⟨hq, trivial⟩
  | cons i inputs ih =>
    obtain ⟨s₁, hs, h⟩ := Option.bind_eq_some_iff.mp h
    obtain ⟨hq₁, hrest⟩ := ih h
    refine ⟨hback i s s₁ hs hq₁, fun s₂ hs₂ ↦ ?_, fun s₂ hs₂ ↦ ?_⟩
    · obtain rfl := Option.some.inj (hs.symm.trans hs₂)
      exact hq₁
    · obtain rfl := Option.some.inj (hs.symm.trans hs₂)
      exact hrest

/-- A system answers each input of another one with inputs of its own, of which the visible ones
are what is seen of that input; then it answers runs. -/
theorem exists_answer {κ μ : Type*} (answer : κ → τ → Option τ) (R : σ → τ → Prop)
    (visible : κ → Option μ) (seen : ι → Option μ)
    (hstep : ∀ i s s' t, P i s → R s t → step i s = some s' → ∃ inputs t',
      runSteps answer inputs t = some t' ∧ inputs.filterMap visible = (seen i).toList ∧ R s' t')
    {inputs : List ι} {s s' : σ} {t : τ} (ha : Along step P inputs s) (hr : R s t)
    (h : runSteps step inputs s = some s') :
    ∃ inputs' t', runSteps answer inputs' t = some t' ∧
      inputs'.filterMap visible = inputs.filterMap seen ∧ R s' t' := by
  induction inputs generalizing s t with
  | nil =>
    obtain rfl := Option.some.inj h
    exact ⟨[], t, rfl, rfl, hr⟩
  | cons i inputs ih =>
    obtain ⟨s₁, hs, h⟩ := Option.bind_eq_some_iff.mp h
    obtain ⟨first, t₁, hfirst, hseen, hr₁⟩ := hstep i s s₁ t ha.1 hr hs
    obtain ⟨rest, t', hrest, hvisible, hr'⟩ := ih (ha.2 s₁ hs) hr₁ h
    refine ⟨first ++ rest, t', ?_, ?_, hr'⟩
    · rw [runSteps_append, hfirst, Option.bind_some, hrest]
    · rw [List.filterMap_append, hseen, hvisible, List.filterMap_cons]
      cases seen i <;> rfl

/-- What is kept by steps between states with a property is kept by runs through such states. -/
theorem Always.keeps {I : σ → Prop} {inputs : List ι} {s s' : σ} (ha : Always step Q inputs s)
    (hi : I s) (hstep : ∀ i s s', Q s → Q s' → I s → step i s = some s' → I s')
    (h : runSteps step inputs s = some s') : I s' := by
  induction inputs generalizing s with
  | nil =>
    obtain rfl := Option.some.inj h
    exact hi
  | cons i inputs ih =>
    obtain ⟨s₁, hs, h⟩ := Option.bind_eq_some_iff.mp h
    obtain ⟨hq, hrest⟩ := always_cons.mp ha
    have hq₁ : Q s₁ := hrest s₁ hs [] s₁ List.nil_prefix rfl
    exact ih (hrest s₁ hs) (hstep i s s₁ hq hq₁ hi hs) h

/-- What is seen at the end of a run was seen at its start, or a step of the run made it. -/
theorem eq_or_exists_made {α : Type*} {f : σ → α} {Made : ι → σ → α → Prop} {inputs : List ι}
    {s s' : σ} (hstep : ∀ i s s', step i s = some s' → f s' = f s ∨ Made i s (f s'))
    (h : runSteps step inputs s = some s') :
    f s' = f s ∨ ∃ pre i rest s₁, inputs = pre ++ i :: rest ∧ runSteps step pre s = some s₁ ∧
      Made i s₁ (f s') := by
  induction inputs generalizing s with
  | nil =>
    obtain rfl := Option.some.inj h
    exact .inl rfl
  | cons i inputs ih =>
    rw [runSteps_cons] at h
    obtain ⟨s₁, hs, h⟩ := Option.bind_eq_some_iff.mp h
    rcases ih h with heq | ⟨pre, j, rest, s₂, rfl, hpre, hmade⟩
    · refine (hstep i s s₁ hs).imp heq.trans fun hmade ↦ ?_
      exact ⟨[], i, inputs, s, rfl, rfl, heq ▸ hmade⟩
    · refine .inr ⟨i :: pre, j, rest, s₂, rfl, ?_, hmade⟩
      rw [runSteps_cons, hs, Option.bind_some, hpre]

end Tofu

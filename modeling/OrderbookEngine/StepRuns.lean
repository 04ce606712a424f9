import Mathlib.Tactic.Common

/-!
# Runs of a deterministic step function that emits events

A step either halts or emits one event and moves on. Runs are bounded by fuel;
the relation of finite step sequences is independent of fuel and carries the
invariant, measure and simulation rules. A trace also retains the state in which
each event was emitted.
-/

namespace OrderbookEngine.StepRuns

variable {σ τ α : Type*}

/-- Events and final state after at most the given number of steps. -/
def run (step : σ → Option (α × σ)) : ℕ → σ → List α × σ
  | 0, s => ([], s)
  | fuel + 1, s =>
    match step s with
    | none => ([], s)
    | some (a, s') => (a :: (run step fuel s').1, (run step fuel s').2)

/-- The run to a halting state, or none if it does not halt within the fuel. -/
def run? (step : σ → Option (α × σ)) : ℕ → σ → Option (List α × σ)
  | 0, _ => none
  | fuel + 1, s =>
    match step s with
    | none => some ([], s)
    | some (a, s') => (run? step fuel s').map fun r => (a :: r.1, r.2)

/-- Every event of a run with the state that emitted it. -/
def trace (step : σ → Option (α × σ)) : ℕ → σ → List (σ × α)
  | 0, _ => []
  | fuel + 1, s =>
    match step s with
    | none => []
    | some (a, s') => (s, a) :: trace step fuel s'

/-- Finite step sequences with the events they emit. -/
inductive Steps (step : σ → Option (α × σ)) : σ → List α → σ → Prop
  | refl (s : σ) : Steps step s [] s
  | head {s s' s'' : σ} {a : α} {as : List α} :
      step s = some (a, s') → Steps step s' as s'' → Steps step s (a :: as) s''

section Rules

variable {step : σ → Option (α × σ)} {step' : τ → Option (α × τ)}

/-- Runs are joined. -/
theorem Steps.trans {s s' s'' : σ} {as bs : List α} (h : Steps step s as s')
    (h' : Steps step s' bs s'') : Steps step s (as ++ bs) s'' := by
  induction h with
  | refl s => exact h'
  | head hstep _ ih => exact Steps.head hstep (ih h')

/-- A bounded run is a step sequence. -/
theorem steps_run (fuel : ℕ) (s : σ) : Steps step s (run step fuel s).1 (run step fuel s).2 := by
  induction fuel generalizing s with
  | zero => exact Steps.refl s
  | succ fuel ih =>
    rw [run]
    cases h : step s with
    | none => exact Steps.refl s
    | some r => exact Steps.head h (ih r.2)

/-- A run that halts within its fuel is a step sequence into a halting state. -/
theorem steps_run? {fuel : ℕ} {s s' : σ} {as : List α} (h : run? step fuel s = some (as, s')) :
    Steps step s as s' ∧ step s' = none := by
  induction fuel generalizing s as with
  | zero => simp [run?] at h
  | succ fuel ih =>
    rw [run?] at h
    cases hs : step s with
    | none =>
      rw [hs] at h
      cases h
      exact ⟨Steps.refl _, hs⟩
    | some r =>
      rw [hs] at h
      obtain ⟨r', hr', heq⟩ := Option.map_eq_some_iff.mp h
      cases heq
      obtain ⟨hsteps, hhalt⟩ := ih hr'
      exact ⟨Steps.head hs hsteps, hhalt⟩

/-- Any fuel that covers a step sequence into a halting state gives it. -/
theorem Steps.run_eq {s s' : σ} {as : List α} (h : Steps step s as s') (hhalt : step s' = none)
    {fuel : ℕ} (hfuel : as.length ≤ fuel) : run step fuel s = (as, s') := by
  induction h generalizing fuel with
  | refl s =>
    cases fuel with
    | zero => rfl
    | succ fuel => simp only [run, hhalt]
  | head hstep _ ih =>
    cases fuel with
    | zero => simp at hfuel
    | succ fuel =>
      simp only [run, hstep]
      rw [ih hhalt (by simpa using hfuel)]

/-- Fuel that exceeds a step sequence into a halting state finds the halt. -/
theorem Steps.run?_eq {s s' : σ} {as : List α} (h : Steps step s as s') (hhalt : step s' = none)
    {fuel : ℕ} (hfuel : as.length < fuel) : run? step fuel s = some (as, s') := by
  induction h generalizing fuel with
  | refl s =>
    cases fuel with
    | zero => omega
    | succ fuel => simp only [run?, hhalt]
  | head hstep _ ih =>
    cases fuel with
    | zero => omega
    | succ fuel =>
      simp only [run?, hstep]
      rw [ih hhalt (by simpa using hfuel), Option.map_some]

/-- The events of a step sequence determine where it leads. -/
theorem Steps.unique {s s' s'' : σ} {as : List α} (h : Steps step s as s')
    (h' : Steps step s as s'') : s' = s'' := by
  induction h with
  | refl s => cases h'; rfl
  | head hstep _ ih =>
    cases h' with
    | head hstep' hrest =>
      rw [hstep] at hstep'
      cases hstep'
      exact ih hrest

/-- An invariant of every step holds after a step sequence. -/
theorem Steps.invariant {I : σ → Prop} (hI : ∀ s a s', I s → step s = some (a, s') → I s')
    {s s' : σ} {as : List α} (h : Steps step s as s') (hs : I s) : I s' := by
  induction h with
  | refl s => exact hs
  | head hstep _ ih => exact ih (hI _ _ _ hs hstep)

/-- A property of every event emitted under an invariant. -/
theorem Steps.forall_events {I : σ → Prop} {P : α → Prop}
    (hI : ∀ s a s', I s → step s = some (a, s') → I s' ∧ P a)
    {s s' : σ} {as : List α} (h : Steps step s as s') (hs : I s) : ∀ a ∈ as, P a := by
  induction h with
  | refl s => simp
  | head hstep _ ih =>
    obtain ⟨hs', ha⟩ := hI _ _ _ hs hstep
    intro a hmem
    rcases List.mem_cons.mp hmem with rfl | hmem
    · exact ha
    · exact ih hs' a hmem

/-- A map that carries the steps under an invariant carries step sequences. -/
theorem Steps.map {β : Type*} {stepImage : τ → Option (β × τ)} {I : σ → Prop} {f : σ → τ}
    {g : α → β}
    (hf : ∀ s a s', I s → step s = some (a, s') → I s' ∧ stepImage (f s) = some (g a, f s'))
    {s s' : σ} {as : List α} (h : Steps step s as s') (hs : I s) :
    Steps stepImage (f s) (as.map g) (f s') := by
  induction h with
  | refl s => exact Steps.refl _
  | head hstep _ ih =>
    obtain ⟨hs', himage⟩ := hf _ _ _ hs hstep
    exact Steps.head himage (ih hs')

/-- A relation that every step keeps carries step sequences, event by event. -/
theorem Steps.simulates {R : σ → τ → Prop}
    (hR : ∀ s t a s', R s t → step s = some (a, s') → ∃ t', step' t = some (a, t') ∧ R s' t')
    {s s' : σ} {t : τ} {as : List α} (h : Steps step s as s') (hst : R s t) :
    ∃ t', Steps step' t as t' ∧ R s' t' := by
  induction h generalizing t with
  | refl s => exact ⟨t, Steps.refl t, hst⟩
  | head hstep _ ih =>
    obtain ⟨t₁, hstep', hst₁⟩ := hR _ _ _ _ hst hstep
    obtain ⟨t', hsteps, hst'⟩ := ih hst₁
    exact ⟨t', Steps.head hstep' hsteps, hst'⟩

/-- A relation that every step keeps with its event changed carries step sequences. -/
theorem Steps.simulates_map {β : Type*} {stepImage : τ → Option (β × τ)} {R : σ → τ → Prop}
    {g : α → β}
    (hR : ∀ s t a s', R s t → step s = some (a, s') →
      ∃ t', stepImage t = some (g a, t') ∧ R s' t')
    {s s' : σ} {t : τ} {as : List α} (h : Steps step s as s') (hst : R s t) :
    ∃ t', Steps stepImage t (as.map g) t' ∧ R s' t' := by
  induction h generalizing t with
  | refl s => exact ⟨t, Steps.refl t, hst⟩
  | head hstep _ ih =>
    obtain ⟨t₁, hstep', hst₁⟩ := hR _ _ _ _ hst hstep
    obtain ⟨t', hsteps, hst'⟩ := ih hst₁
    exact ⟨t', Steps.head hstep' hsteps, hst'⟩

/-- Every event of a step sequence is emitted by a step from a state it passes. -/
theorem Steps.mem {s s' : σ} {as : List α} {a : α} (h : Steps step s as s') (ha : a ∈ as) :
    ∃ bs t t', Steps step s bs t ∧ step t = some (a, t') := by
  induction h with
  | refl s => cases ha
  | @head s s₁ s' b as hstep _ ih =>
    rcases List.mem_cons.mp ha with rfl | ha
    · exact ⟨[], s, s₁, Steps.refl s, hstep⟩
    · obtain ⟨bs, t, t', hsteps, ht⟩ := ih ha
      exact ⟨b :: bs, t, t', Steps.head hstep hsteps, ht⟩

/-- A strictly decreasing measure bounds the number of events. -/
theorem Steps.length_add_le {μ : σ → ℕ} (hμ : ∀ s a s', step s = some (a, s') → μ s' < μ s)
    {s s' : σ} {as : List α} (h : Steps step s as s') : as.length + μ s' ≤ μ s := by
  induction h with
  | refl s => simp
  | head hstep _ ih =>
    have hlt := hμ _ _ _ hstep
    rw [List.length_cons]
    omega

/-- Enough fuel for a decreasing measure reaches a halting state. -/
theorem run_halts {μ : σ → ℕ} (hμ : ∀ s a s', step s = some (a, s') → μ s' < μ s)
    {fuel : ℕ} {s : σ} (hfuel : μ s ≤ fuel) : step (run step fuel s).2 = none := by
  induction fuel generalizing s with
  | zero =>
    cases h : step s with
    | none => exact h
    | some r =>
      have := hμ s r.1 r.2 h
      omega
  | succ fuel ih =>
    cases h : step s with
    | none => simp only [run, h]
    | some r =>
      simp only [run, h]
      have := hμ s r.1 r.2 h
      exact ih (by omega)

/-- A halting step sequence within the measure is the bounded run. -/
theorem Steps.run_eq_of_measure {μ : σ → ℕ} (hμ : ∀ s a s', step s = some (a, s') → μ s' < μ s)
    {s s' : σ} {as : List α} (h : Steps step s as s') (hhalt : step s' = none) :
    run step (μ s) s = (as, s') := by
  have hlen := h.length_add_le hμ
  exact h.run_eq hhalt (by omega)

/-- A simulated step function halts within the measure of its simulation. The
relation is kept by every step, and the events agree one by one. -/
theorem run?_simulates {R : σ → τ → Prop} {μ : τ → ℕ}
    (hμ : ∀ t a t', step' t = some (a, t') → μ t' < μ t)
    (hR : ∀ s t a s', R s t → step s = some (a, s') → ∃ t', step' t = some (a, t') ∧ R s' t')
    {fuel : ℕ} {s : σ} {t : τ} (hst : R s t) (hfuel : μ t < fuel) :
    ∃ as s' t', run? step fuel s = some (as, s') ∧ step s' = none ∧
      Steps step' t as t' ∧ R s' t' := by
  induction fuel generalizing s t with
  | zero => omega
  | succ fuel ih =>
    cases h : step s with
    | none => exact ⟨[], s, t, by simp [run?, h], h, Steps.refl t, hst⟩
    | some r =>
      obtain ⟨t₁, hstep, hr⟩ := hR s t r.1 r.2 hst h
      have hlt := hμ t r.1 t₁ hstep
      obtain ⟨as, s', t', hrun, hhalt, hsteps, hR'⟩ := ih hr (by omega)
      exact ⟨r.1 :: as, s', t', by simp [run?, h, hrun], hhalt, Steps.head hstep hsteps, hR'⟩

/-- Every traced event was emitted by a step from a state the run passed through. -/
theorem mem_trace {fuel : ℕ} {s t : σ} {a : α} (h : (t, a) ∈ trace step fuel s) :
    ∃ as t', Steps step s as t ∧ step t = some (a, t') := by
  induction fuel generalizing s with
  | zero => simp [trace] at h
  | succ fuel ih =>
    rw [trace] at h
    cases hs : step s with
    | none => simp [hs] at h
    | some r =>
      rw [hs] at h
      rcases List.mem_cons.mp h with heq | hmem
      · cases heq
        exact ⟨[], r.2, Steps.refl t, hs⟩
      · obtain ⟨as, t', hsteps, hstep⟩ := ih hmem
        exact ⟨r.1 :: as, t', Steps.head hs hsteps, hstep⟩

/-- The trace lists exactly the events of a halting run. -/
theorem trace_events {fuel : ℕ} {s s' : σ} {as : List α}
    (h : run? step fuel s = some (as, s')) : (trace step fuel s).map Prod.snd = as := by
  induction fuel generalizing s as with
  | zero => simp [run?] at h
  | succ fuel ih =>
    cases hs : step s with
    | none =>
      have : [] = as ∧ s = s' := by simpa [run?, hs] using h
      simp [trace, hs, this.1]
    | some r =>
      simp only [run?, hs, Option.map_eq_some_iff] at h
      obtain ⟨r', hr', heq⟩ := h
      cases heq
      simp only [trace, hs, List.map_cons]
      rw [ih hr']

end Rules

end OrderbookEngine.StepRuns

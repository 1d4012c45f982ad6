import Mathlib.Data.List.Basic

/-!
Runs of a partial step function over a list of events. An event whose step is `none`
ends the run, so `Throughout` speaks of exactly the states a run reaches.
-/
namespace PartialRun

variable {State Event : Type}

def run (step : State → Event → Option State) : State → List Event → Option State
  | s, [] => some s
  | s, e :: rest =>
    match step s e with
    | none => none
    | some s' => run step s' rest

/-- `P` holds of every state the run passes through, the first one included. -/
def Throughout (step : State → Event → Option State) (P : State → Prop) :
    State → List Event → Prop
  | s, [] => P s
  | s, e :: rest => P s ∧ ∀ s', step s e = some s' → Throughout step P s' rest

/-- `Q` holds of every state and event at which the run takes a step. -/
def EachStep (step : State → Event → Option State) (Q : State → Event → Prop) :
    State → List Event → Prop
  | _, [] => True
  | s, e :: rest => ∀ s', step s e = some s' → Q s e ∧ EachStep step Q s' rest

variable {step : State → Event → Option State}

instance decidableEachStep {Q : State → Event → Prop} [∀ s e, Decidable (Q s e)] :
    ∀ s events, Decidable (EachStep step Q s events)
  | _, [] => isTrue trivial
  | s, e :: rest =>
    match taken : step s e with
    | none => isTrue fun s' stepped => by rw [taken] at stepped; cases stepped
    | some s' =>
      have := decidableEachStep (Q := Q) s' rest
      decidable_of_iff (Q s e ∧ EachStep step Q s' rest)
        ⟨fun each s'' stepped => by rw [taken] at stepped; cases stepped; exact each,
          fun each => each s' taken⟩

theorem run_facts {Facts : Type} {facts : State → Facts} {v : Facts} {s s' : State}
    {events : List Event} (computed : (run step s events).map facts = some v)
    (ran : run step s events = some s') : facts s' = v := by
  rw [ran] at computed
  exact Option.some.inj computed

theorem run_append {s m s' : State} {front rest : List Event} (first : run step s front = some m)
    (second : run step m rest = some s') : run step s (front ++ rest) = some s' := by
  induction front generalizing s with
  | nil =>
    cases first
    exact second
  | cons e front ih =>
    cases taken : step s e with
    | none => simp [run, taken] at first
    | some next => simpa [run, taken] using ih (by simpa [run, taken] using first)

theorem each_step_append {Q : State → Event → Prop} {s m : State} {front rest : List Event}
    (each : EachStep step Q s front) (ran : run step s front = some m)
    (later : EachStep step Q m rest) : EachStep step Q s (front ++ rest) := by
  induction front generalizing s with
  | nil =>
    cases ran
    exact later
  | cons e front ih =>
    intro next taken
    obtain ⟨here, each'⟩ := each next taken
    exact ⟨here, ih each' (by simpa [run, taken] using ran)⟩

theorem each_step_after {Q : State → Event → Prop} {s m : State} {front rest : List Event}
    (each : EachStep step Q s (front ++ rest)) (ran : run step s front = some m) :
    EachStep step Q m rest := by
  induction front generalizing s with
  | nil =>
    cases ran
    exact each
  | cons e front ih =>
    cases taken : step s e with
    | none => simp [run, taken] at ran
    | some next => exact ih (each next taken).2 (by simpa [run, taken] using ran)

theorem each_step_front {Q : State → Event → Prop} {s : State} {front rest : List Event}
    (each : EachStep step Q s (front ++ rest)) : EachStep step Q s front := by
  induction front generalizing s with
  | nil => trivial
  | cons e front ih =>
    intro next taken
    obtain ⟨here, later⟩ := each next taken
    exact ⟨here, ih later⟩

theorem throughout_start {P : State → Prop} {s : State} {events : List Event}
    (h : Throughout step P s events) : P s := by
  cases events with
  | nil => exact h
  | cons e rest => exact h.1

theorem throughout_mono {P P' : State → Prop} (implies : ∀ s, P s → P' s) {s : State}
    {events : List Event} (h : Throughout step P s events) : Throughout step P' s events := by
  induction events generalizing s with
  | nil => exact implies s h
  | cons e rest ih => exact ⟨implies s h.1, fun s' taken => ih (h.2 s' taken)⟩

theorem run_invariant {Inv : State → Prop}
    (preserved : ∀ s e s', Inv s → step s e = some s' → Inv s') {s s' : State}
    {events : List Event} (start : Inv s) (ran : run step s events = some s') : Inv s' := by
  induction events generalizing s with
  | nil =>
    simp only [run, Option.some.injEq] at ran
    exact ran ▸ start
  | cons e rest ih =>
    cases taken : step s e with
    | none => simp [run, taken] at ran
    | some next => exact ih (preserved s e next start taken) (by simpa [run, taken] using ran)

theorem throughout_of_run {P : State → Prop} {s s' : State} {events : List Event}
    (h : Throughout step P s events) (ran : run step s events = some s') : P s' := by
  induction events generalizing s with
  | nil =>
    simp only [run, Option.some.injEq] at ran
    exact ran ▸ h
  | cons e rest ih =>
    cases taken : step s e with
    | none => simp [run, taken] at ran
    | some next => exact ih (h.2 next taken) (by simpa [run, taken] using ran)

theorem throughout_of_invariant {Inv P : State → Prop}
    (preserved : ∀ s e s', Inv s → step s e = some s' → Inv s') (implies : ∀ s, Inv s → P s)
    {s : State} (events : List Event) (start : Inv s) : Throughout step P s events := by
  induction events generalizing s with
  | nil => exact implies s start
  | cons e rest ih =>
    exact ⟨implies s start, fun s' taken => ih (preserved s e s' start taken)⟩

theorem each_step_of_invariant {Inv : State → Prop} {Q : State → Event → Prop}
    (preserved : ∀ s e s', Inv s → step s e = some s' → Inv s') (implies : ∀ s e, Inv s → Q s e)
    {s : State} (events : List Event) (start : Inv s) : EachStep step Q s events := by
  induction events generalizing s with
  | nil => trivial
  | cons e rest ih =>
    exact fun s' taken => ⟨implies s e start, ih (preserved s e s' start taken)⟩

/-- A property that survives exactly the steps meeting `Q` holds throughout a run
    exactly when every step of the run meets `Q`. -/
theorem throughout_iff_each_step {Inv P : State → Prop} {Q : State → Event → Prop}
    (preserved : ∀ s e s', Inv s → step s e = some s' → Inv s')
    (survives : ∀ s e s', Inv s → P s → step s e = some s' → (P s' ↔ Q s e))
    {s : State} (events : List Event) (inv : Inv s) (start : P s) :
    Throughout step P s events ↔ EachStep step Q s events := by
  induction events generalizing s with
  | nil => simp [Throughout, EachStep, start]
  | cons e rest ih =>
    simp only [Throughout, EachStep, start, true_and]
    constructor
    · intro h s' taken
      have here := throughout_start (h s' taken)
      exact ⟨(survives s e s' inv start taken).mp here,
        (ih (preserved s e s' inv taken) here).mp (h s' taken)⟩
    · intro h s' taken
      obtain ⟨meets, later⟩ := h s' taken
      exact (ih (preserved s e s' inv taken) ((survives s e s' inv start taken).mpr meets)).mpr
        later

theorem run_of_each_step {I P : State → Prop} {R Q : State → Event → Prop}
    (kept : ∀ s e s', I s → Q s e → step s e = some s' → I s' ∧ P s' ∧ R s e)
    {s : State} (events : List Event) (inv : I s) (start : P s) (each : EachStep step Q s events) :
    Throughout step P s events ∧ EachStep step R s events := by
  induction events generalizing s with
  | nil => exact ⟨start, trivial⟩
  | cons e rest ih =>
    refine ⟨⟨start, fun s' taken => ?_⟩, fun s' taken => ?_⟩ <;>
      obtain ⟨meets, later⟩ := each s' taken <;>
      obtain ⟨inv', next, here⟩ := kept s e s' inv meets taken <;>
      obtain ⟨states, steps⟩ := ih inv' next later
    · exact states
    · exact ⟨here, steps⟩

/-- A state property and a step property hold along a run exactly when every step meets `Q`,
    where the invariant is kept by the steps that meet `Q` only. -/
theorem throughout_and_each_iff {I P : State → Prop} {R Q : State → Event → Prop}
    (kept : ∀ s e s', I s → Q s e → step s e = some s' → I s' ∧ P s' ∧ R s e)
    (needs : ∀ s e s', I s → step s e = some s' → P s' → R s e → Q s e)
    {s : State} (events : List Event) (inv : I s) (start : P s) :
    (Throughout step P s events ∧ EachStep step R s events) ↔ EachStep step Q s events := by
  refine ⟨?_, run_of_each_step kept events inv start⟩
  induction events generalizing s with
  | nil => exact fun _ => trivial
  | cons e rest ih =>
    rintro ⟨⟨_, states⟩, steps⟩ s' taken
    obtain ⟨here, later⟩ := steps s' taken
    have next := throughout_start (states s' taken)
    have meets := needs s e s' inv taken next here
    exact ⟨meets, ih (kept s e s' inv meets taken).1 next ⟨states s' taken, later⟩⟩

/-- One direction suffices when the condition is only known to protect the property. -/
theorem throughout_of_each_step {P : State → Prop} {Q : State → Event → Prop}
    (protects : ∀ s e s', P s → Q s e → step s e = some s' → P s')
    {s : State} (events : List Event) (start : P s) (each : EachStep step Q s events) :
    Throughout step P s events := by
  induction events generalizing s with
  | nil => exact start
  | cons e rest ih =>
    refine ⟨start, fun s' taken => ?_⟩
    obtain ⟨meets, later⟩ := each s' taken
    exact ih (protects s e s' start meets taken) later

theorem each_step_of_each_step {Inv : State → Prop} {Q R : State → Event → Prop}
    (kept : ∀ s e s', Inv s → Q s e → step s e = some s' → Inv s' ∧ R s e)
    {s : State} (events : List Event) (start : Inv s) (each : EachStep step Q s events) :
    EachStep step R s events := by
  induction events generalizing s with
  | nil => trivial
  | cons e rest ih =>
    intro s' taken
    obtain ⟨meets, later⟩ := each s' taken
    obtain ⟨inv, here⟩ := kept s e s' start meets taken
    exact ⟨here, ih inv later⟩

theorem run_related {Abstract : Type} {abs : Abstract → Event → Option Abstract}
    {R : State → Abstract → Prop}
    (kept : ∀ s a e s' a', R s a → abs a e = some a' → step s e = some s' → R s' a')
    {s s' : State} {a a' : Abstract} {events : List Event} (start : R s a)
    (above : run abs a events = some a') (ran : run step s events = some s') : R s' a' := by
  induction events generalizing s a with
  | nil =>
    cases above
    cases ran
    exact start
  | cons e rest ih =>
    cases taken : step s e with
    | none => simp [run, taken] at ran
    | some next =>
      cases mirrored : abs a e with
      | none => simp [run, mirrored] at above
      | some next' =>
        exact ih (kept s a e next next' start mirrored taken) (by simpa [run, mirrored] using above)
          (by simpa [run, taken] using ran)

/-- One label for each event of a run, each as `M` asks at the state the event meets. -/
def Labelled {Label : Type} (step : State → Event → Option State)
    (M : State → Event → Label → Prop) : State → List Event → List Label → Prop
  | _, [], labels => labels = []
  | _, _ :: _, [] => False
  | s, e :: rest, l :: labels =>
    M s e l ∧ ∀ s', step s e = some s' → Labelled step M s' rest labels

/-- Steps that meet `Q` are seen as labelled steps of a more abstract system. -/
theorem run_simulated {Abstract Label : Type} {abs : Abstract → Label → Option Abstract}
    {view : State → Abstract} {M : State → Event → Label → Prop} {Inv : State → Prop}
    {Q : State → Event → Prop}
    (kept : ∀ s e s', Inv s → Q s e → step s e = some s' →
      Inv s' ∧ ∃ l, M s e l ∧ abs (view s) l = some (view s'))
    {s s' : State} {events : List Event} (start : Inv s) (each : EachStep step Q s events)
    (ran : run step s events = some s') :
    ∃ labels, Labelled step M s events labels ∧ run abs (view s) labels = some (view s') := by
  induction events generalizing s with
  | nil =>
    cases ran
    exact ⟨[], rfl, rfl⟩
  | cons e rest ih =>
    cases taken : step s e with
    | none => simp [run, taken] at ran
    | some next =>
      obtain ⟨meets, later⟩ := each next taken
      obtain ⟨inv, l, means, above⟩ := kept s e next start meets taken
      obtain ⟨labels, labelled, simulated⟩ := ih inv later (by simpa [run, taken] using ran)
      refine ⟨l :: labels, ⟨means, fun s' stepped => ?_⟩, ?_⟩
      · rw [taken] at stepped
        cases stepped
        exact labelled
      · rw [run, above]
        exact simulated

end PartialRun

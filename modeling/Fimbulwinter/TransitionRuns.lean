import Mathlib.Order.Basic

/-! # Runs of a transition system

States that are reached by actions under a condition, and what an invariant says
about them. Nothing here depends on what the states and the actions are. -/
namespace Fimbulwinter

variable {State Action Error : Type*}

/-- States reached from `start` by actions that meet a condition. -/
inductive Reached (step : State → Action → Except Error State)
    (condition : State → Action → Prop) (start : State) : State → Prop
  | start : Reached step condition start start
  | step {s s' : State} {a : Action} (reached : Reached step condition start s)
      (meets : condition s a) (taken : step s a = .ok s') : Reached step condition start s'

/-- Take actions one after another. -/
def runAll (step : State → Action → Except Error State) : State → List Action → Except Error State
  | s, [] => .ok s
  | s, a :: as =>
    match step s a with
    | .error e => .error e
    | .ok s => runAll step s as

variable {step : State → Action → Except Error State} {condition : State → Action → Prop}
  {start s : State}

/-- What holds at the start and is preserved by every step holds in every reached state. -/
theorem Reached.invariant {invariant : State → Prop} (h : Reached step condition start s)
    (initial : invariant start)
    (preserved : ∀ {s s' : State} {a : Action}, invariant s → condition s a → step s a = .ok s' →
      invariant s') : invariant s := by
  induction h with
  | start => exact initial
  | step _ meets taken ih => exact preserved ih meets taken

/-- When steps from an invariant succeed and preserve it, so do runs. -/
theorem runAll_ok {invariant : State → Prop} (initial : invariant s)
    (preserved : ∀ {s : State}, invariant s → ∀ a, ∃ s', step s a = .ok s' ∧ invariant s')
    (as : List Action) : ∃ s', runAll step s as = .ok s' ∧ invariant s' := by
  induction as generalizing s with
  | nil => exact ⟨s, rfl, initial⟩
  | cons a as ih =>
    obtain ⟨t, ht, hinvariant⟩ := preserved initial a
    rw [runAll, ht]
    exact ih hinvariant

/-- An action that makes progress leads to the goal when it is repeated. -/
theorem runAll_until (invariant goal : State → Prop) (a : Action) (measure : State → ℕ)
    (progress : ∀ {s : State}, invariant s → ¬ goal s →
      ∃ t, step s a = .ok t ∧ invariant t ∧ measure t < measure s) (initial : invariant s) :
    ∃ n t, runAll step s (List.replicate n a) = .ok t ∧ invariant t ∧ goal t := by
  induction hn : measure s using Nat.strongRecOn generalizing s with
  | ind n ih =>
    subst hn
    by_cases hgoal : goal s
    · exact ⟨0, s, rfl, initial, hgoal⟩
    · obtain ⟨t, ht, hinvariant, hlt⟩ := progress initial hgoal
      obtain ⟨n, u, hu, hlast⟩ := ih (measure t) hlt hinvariant rfl
      refine ⟨n + 1, u, ?_, hlast⟩
      rw [List.replicate_succ, runAll, ht]
      exact hu

theorem Reached.trans {t : State} (h : Reached step condition start s)
    (h' : Reached step condition s t) : Reached step condition start t := by
  induction h' with
  | start => exact h
  | step _ meets taken ih => exact ih.step meets taken

/-- Every action of a run meets a condition. -/
def MeetsAll (step : State → Action → Except Error State) (condition : State → Action → Prop) :
    State → List Action → Prop
  | _, [] => True
  | s, a :: as => condition s a ∧ ∀ t, step s a = .ok t → MeetsAll step condition t as

theorem meetsAll_of_forall (h : ∀ s a, condition s a) (s : State) (as : List Action) :
    MeetsAll step condition s as := by
  induction as generalizing s with
  | nil => exact trivial
  | cons a as ih => exact ⟨h s a, fun t _ => ih t⟩

theorem meetsAll_cons_error {a : Action} {as : List Action} {e : Error} (h : step s a = .error e) :
    MeetsAll step condition s (a :: as) ↔ condition s a :=
  and_iff_left fun t ht => by rw [h] at ht; cases ht

theorem meetsAll_cons_ok {t : State} {a : Action} {as : List Action} (h : step s a = .ok t) :
    MeetsAll step condition s (a :: as) ↔ condition s a ∧ MeetsAll step condition t as :=
  and_congr_right fun _ => ⟨fun hall => hall t h, fun hall u hu => by
    obtain rfl := Except.ok.inj (h.symm.trans hu)
    exact hall⟩

instance MeetsAll.decidable [∀ s a, Decidable (condition s a)] :
    ∀ (s : State) (as : List Action), Decidable (MeetsAll step condition s as)
  | _, [] => .isTrue trivial
  | s, a :: as =>
    match h : step s a with
    | .error _ => decidable_of_iff' _ (meetsAll_cons_error h)
    | .ok t =>
      have := MeetsAll.decidable t as
      decidable_of_iff' _ (meetsAll_cons_ok h)

/-- Every step of a run succeeds and does what it should. -/
def RelatesAll (step : State → Action → Except Error State)
    (relation : State → Action → State → Prop) : State → List Action → Prop
  | _, [] => True
  | s, a :: as => ∃ t, step s a = .ok t ∧ relation s a t ∧ RelatesAll step relation t as

/-- When a step from an invariant does what it should under a condition, and then preserves the
invariant, so do runs. -/
theorem relatesAll_of_meetsAll (invariant : State → Prop)
    {relation : State → Action → State → Prop} (initial : invariant s)
    (sufficient : ∀ {s : State} {a : Action}, invariant s → condition s a →
      ∃ t, step s a = .ok t ∧ relation s a t ∧ invariant t)
    (as : List Action) (h : MeetsAll step condition s as) : RelatesAll step relation s as := by
  induction as generalizing s with
  | nil => exact trivial
  | cons a as ih =>
    obtain ⟨hmeets, hrest⟩ := h
    obtain ⟨t, ht, hrelation, hinvariant⟩ := sufficient initial hmeets
    exact ⟨t, ht, hrelation, ih hinvariant (hrest t ht)⟩

/-- When a step from an invariant does what it should exactly under a condition, and then
preserves the invariant, so do runs. -/
theorem relatesAll_iff_meetsAll (invariant : State → Prop)
    {relation : State → Action → State → Prop} (initial : invariant s)
    (sufficient : ∀ {s : State} {a : Action}, invariant s → condition s a →
      ∃ t, step s a = .ok t ∧ relation s a t ∧ invariant t)
    (necessary : ∀ {s t : State} {a : Action}, invariant s → step s a = .ok t →
      relation s a t → condition s a) (as : List Action) :
    RelatesAll step relation s as ↔ MeetsAll step condition s as := by
  induction as generalizing s with
  | nil => exact Iff.rfl
  | cons a as ih =>
    constructor
    · rintro ⟨t, ht, hrelation, hrest⟩
      have hmeets := necessary initial ht hrelation
      obtain ⟨u, hu, -, hinvariant⟩ := sufficient initial hmeets
      refine ⟨hmeets, fun v hv => ?_⟩
      obtain rfl : t = v := Except.ok.inj (ht.symm.trans hv)
      obtain rfl : t = u := Except.ok.inj (ht.symm.trans hu)
      exact (ih hinvariant).mp hrest
    · rintro ⟨hmeets, hrest⟩
      obtain ⟨t, ht, hrelation, hinvariant⟩ := sufficient initial hmeets
      exact ⟨t, ht, hrelation, (ih hinvariant).mpr (hrest t ht)⟩

theorem Reached.runAll {t : State} (h : Reached step condition start s) (as : List Action)
    (hmeets : MeetsAll step condition s as) (hrun : Fimbulwinter.runAll step s as = .ok t) :
    Reached step condition start t := by
  induction as generalizing s with
  | nil =>
    cases hrun
    exact h
  | cons a as ih =>
    simp only [Fimbulwinter.runAll] at hrun
    split at hrun
    · simp at hrun
    next u hu => exact ih (h.step hmeets.1 hu) (hmeets.2 u hu) hrun

end Fimbulwinter

import Codemod.Tree.Basic

/-!
Steps that can fail part-way, and what running them gives. Where there is a state it comes back in each
case, so a step that fails still says where it left the state.
-/

namespace Codemod

section

variable {ε α β : Type} {step : Except ε α} {next : α → Except ε β}

theorem bind_eq_ok {result : β} :
    (step >>= next) = .ok result ↔ ∃ value, step = .ok value ∧ next value = .ok result := by
  cases step with
  | error reason => simp [bind, Except.bind]
  | ok value => simp [bind, Except.bind]

theorem mem_of_mapM {step : α → Except ε β} {values : List α} {results : List β}
    (ran : values.mapM step = .ok results) {result : β} :
    result ∈ results ↔ ∃ value ∈ values, step value = .ok result := by
  induction values generalizing results with
  | nil =>
      cases ran
      simp
  | cons value rest ih =>
      rw [List.mapM_cons] at ran
      obtain ⟨first, here, ran⟩ := bind_eq_ok.mp ran
      obtain ⟨others, later, ⟨⟩⟩ := bind_eq_ok.mp ran
      simp [ih later, here, eq_comm]

theorem exists_of_mapM {step : α → Except ε β} {values : List α} {results : List β}
    (ran : values.mapM step = .ok results) {value : α} (listed : value ∈ values) :
    ∃ result, step value = .ok result := by
  induction values generalizing results with
  | nil => cases listed
  | cons first rest ih =>
      rw [List.mapM_cons] at ran
      obtain ⟨result, here, ran⟩ := bind_eq_ok.mp ran
      obtain ⟨others, later, _⟩ := bind_eq_ok.mp ran
      rcases List.mem_cons.mp listed with rfl | listed
      · exact ⟨result, here⟩
      · exact ih later listed

end

end Codemod

namespace Codemod.Step

variable {ε σ α β : Type}

theorem run_bind (step : ExceptT ε (StateM σ) α) (next : α → ExceptT ε (StateM σ) β) (state : σ) :
    (step >>= next).run state =
      match step.run state with
      | (.ok value, after) => (next value).run after
      | (.error reason, after) => (.error reason, after) := by
  simp only [ExceptT.run, bind, ExceptT.bind, ExceptT.mk, StateT.bind]
  generalize step state = result
  rcases result with ⟨_ | _, after⟩ <;> rfl

theorem run_bind_ok {step : ExceptT ε (StateM σ) α} {state after : σ} {value : α}
    (ran : step.run state = (.ok value, after)) (next : α → ExceptT ε (StateM σ) β) :
    (step >>= next).run state = (next value).run after := by
  rw [run_bind, ran]

theorem run_bind_error {step : ExceptT ε (StateM σ) α} {state after : σ} {reason : ε}
    (ran : step.run state = (.error reason, after)) (next : α → ExceptT ε (StateM σ) β) :
    (step >>= next).run state = (.error reason, after) := by
  rw [run_bind, ran]

/-- A step that answers has had an answer from its first part. -/
theorem run_bind_eq_ok {step : ExceptT ε (StateM σ) α} {next : α → ExceptT ε (StateM σ) β}
    {state after : σ} {value : β} :
    (step >>= next).run state = (.ok value, after) ↔
      ∃ first middle, step.run state = (.ok first, middle)
        ∧ (next first).run middle = (.ok value, after) := by
  rw [run_bind]
  rcases step.run state with ⟨reason | first, middle⟩
  · constructor
    · exact nofun
    · rintro ⟨first, middle, ⟨⟩, _⟩
  · constructor
    · exact fun ran => ⟨first, middle, rfl, ran⟩
    · rintro ⟨_, _, ⟨⟩, ran⟩
      exact ran

/-- What holds after the first part, and then still after the rest, holds after the whole. -/
theorem run_bind_holds {P : σ → Prop} {step : ExceptT ε (StateM σ) α}
    {next : α → ExceptT ε (StateM σ) β} {state : σ} (first : P (step.run state).2)
    (second : ∀ value after, step.run state = (.ok value, after) → P after →
      P ((next value).run after).2) : P ((step >>= next).run state).2 := by
  generalize ran : step.run state = result at first
  rcases result with ⟨reason | value, after⟩
  · rw [run_bind_error ran]
    exact first
  · rw [run_bind_ok ran]
    exact second value after ran first

@[simp] theorem run_pure (value : α) (state : σ) :
    (pure value : ExceptT ε (StateM σ) α).run state = (.ok value, state) := rfl

@[simp] theorem run_throw (reason : ε) (state : σ) :
    (throw reason : ExceptT ε (StateM σ) α).run state = (.error reason, state) := rfl

@[simp] theorem run_get (state : σ) :
    (get : ExceptT ε (StateM σ) σ).run state = (.ok state, state) := rfl

@[simp] theorem run_set (after state : σ) :
    (set after : ExceptT ε (StateM σ) PUnit).run state = (.ok ⟨⟩, after) := rfl

@[simp] theorem run_modify (change : σ → σ) (state : σ) :
    (modify change : ExceptT ε (StateM σ) PUnit).run state = (.ok ⟨⟩, change state) := rfl

end Codemod.Step

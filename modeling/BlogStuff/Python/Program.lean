import Mathlib.Tactic

/-!
# BlogStuff.Python.Program

Scripts as programs over a state: a script may stop early, by `sys.exit` or by an
uncaught exception, and what it has done to the state until then stays done. That
is `EStateM` without `catch`.

Runs are computed from the front: `run_bind_of_ok` and `run_bind_of_error` rewrite a
sequence by what its first part does, and `run_bind_eq_ok` splits a successful run into
its two parts.
-/

namespace BlogStuff.Python

variable {ε σ α β : Type}

/-- A pure check that may stop the program. -/
def check : Except ε α → EStateM ε σ α
  | .ok a => pure a
  | .error e => throw e

@[simp] theorem run_check_ok (a : α) (s : σ) :
    (check (.ok a : Except ε α) : EStateM ε σ α).run s = .ok a s := rfl

@[simp] theorem run_check_error (e : ε) (s : σ) :
    (check (.error e : Except ε α) : EStateM ε σ α).run s = .error e s := rfl

/-- The state a run leaves, however it ends. -/
def after : EStateM.Result ε σ α → σ
  | .ok _ s => s
  | .error _ s => s

/-- Why a run stopped early, if it did. -/
def exitOf : EStateM.Result ε σ α → Option ε
  | .ok _ _ => none
  | .error e _ => some e

@[simp] theorem after_ok (a : α) (s : σ) : after (.ok a s : EStateM.Result ε σ α) = s := rfl

@[simp] theorem after_error (e : ε) (s : σ) : after (.error e s : EStateM.Result ε σ α) = s := rfl

theorem eq_ok_of_exitOf {r : EStateM.Result ε σ Unit} (h : exitOf r = none) :
    r = .ok () (after r) := by
  cases r with
  | ok a s => rfl
  | error e s => cases h

/-! ### Sequencing -/

theorem run_bind_of_ok {x : EStateM ε σ α} {f : α → EStateM ε σ β} {s s' : σ} {a : α}
    (h : x.run s = .ok a s') : (x >>= f).run s = (f a).run s' := by
  rw [EStateM.run_bind, h]

theorem run_bind_of_error {x : EStateM ε σ α} {f : α → EStateM ε σ β} {s s' : σ} {e : ε}
    (h : x.run s = .error e s') : (x >>= f).run s = .error e s' := by
  rw [EStateM.run_bind, h]

/-- A sequence ends well exactly when its two parts do, one after the other. -/
theorem run_bind_eq_ok {x : EStateM ε σ α} {f : α → EStateM ε σ β} {s s' : σ} {b : β} :
    (x >>= f).run s = .ok b s' ↔ ∃ a s₁, x.run s = .ok a s₁ ∧ (f a).run s₁ = .ok b s' := by
  constructor
  · intro h
    cases hx : x.run s with
    | ok a s₁ =>
        rw [run_bind_of_ok hx] at h
        exact ⟨a, s₁, rfl, h⟩
    | error e s₁ =>
        rw [run_bind_of_error hx] at h
        cases h
  · rintro ⟨a, s₁, hx, hf⟩
    rw [run_bind_of_ok hx, hf]

end BlogStuff.Python

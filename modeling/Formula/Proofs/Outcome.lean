/-!
# Outcomes of steps that may fail

Steps that may fail run one after the other until one of them does. These lemmas run a first step
whose outcome is known, and take apart the outcome of two steps.
-/

namespace Formula

variable {ε α β : Type}

/-! ### Running on -/

@[simp]
theorem ok_bind (a : α) (f : α → Except ε β) : (.ok a >>= f : Except ε β) = f a := rfl

@[simp]
theorem error_bind (fault : ε) (f : α → Except ε β) :
    (.error fault >>= f : Except ε β) = .error fault := rfl

theorem bind_eq_ok_iff {x : Except ε α} {f : α → Except ε β} {b : β} :
    x >>= f = .ok b ↔ ∃ a, x = .ok a ∧ f a = .ok b := by
  cases x with
  | error fault => simp
  | ok a => simp

theorem bind_eq_error_iff {x : Except ε α} {f : α → Except ε β} {fault : ε} :
    x >>= f = .error fault ↔ x = .error fault ∨ ∃ a, x = .ok a ∧ f a = .error fault := by
  cases x with
  | error fault => simp
  | ok a => simp

/-! ### Failing -/

@[simp]
theorem isOk_ok (a : α) : (.ok a : Except ε α).isOk = true := rfl

@[simp]
theorem isOk_error (fault : ε) : (.error fault : Except ε α).isOk = false := rfl

@[simp]
theorem isOk_map (outcome : Except ε α) (f : α → β) : (outcome.map f).isOk = outcome.isOk := by
  cases outcome <;> rfl

theorem isOk_eq_isSome (outcome : Except ε α) : outcome.isOk = outcome.toOption.isSome := by
  cases outcome <;> rfl

theorem isOk_bind_congr (outcome : Except ε α) {f g : α → Except ε β}
    (h : ∀ a, (f a).isOk = (g a).isOk) : (outcome >>= f).isOk = (outcome >>= g).isOk := by
  cases outcome with
  | error _ => rfl
  | ok a => exact h a

end Formula

import Chip8.Fault

/-!
# Outcomes

An operation that can fail half way changes the state it works on all the same : a sprite that
leaves the picture has drawn the dots before the edge. An `Outcome` therefore holds the state
an operation leaves beside its result, whether the result is a value or a fault.

`Outcome.each` does one step per item of a list and stops at the first fault. A step changes
nothing when it fails, so the state left behind is the one the steps before the fault made.
-/

namespace Chip8

/-- The state an operation leaves, and its value or its fault. -/
structure Outcome (σ α : Type) where
  state : σ
  result : Except Fault α

namespace Outcome

variable {σ τ α β : Type}

/-- The same outcome as part of a larger state. -/
def onState (f : σ → τ) (o : Outcome σ α) : Outcome τ α :=
  ⟨f o.state, o.result⟩

/-- Does `step` for each item in turn, up to the first that fails. -/
def each (step : σ → β → Except Fault σ) : σ → List β → Outcome σ Unit
  | s, [] => ⟨s, .ok ()⟩
  | s, b :: rest =>
    match step s b with
    | .error fault => ⟨s, .error fault⟩
    | .ok t => each step t rest

@[simp] theorem each_nil (step : σ → β → Except Fault σ) (s : σ) :
    each step s [] = ⟨s, .ok ()⟩ := rfl

theorem each_cons_ok {step : σ → β → Except Fault σ} {s t : σ} {b : β} (h : step s b = .ok t)
    (rest : List β) : each step s (b :: rest) = each step t rest := by
  simp [each, h]

theorem each_cons_error {step : σ → β → Except Fault σ} {s : σ} {b : β} {fault : Fault}
    (h : step s b = .error fault) (rest : List β) :
    each step s (b :: rest) = ⟨s, .error fault⟩ := by
  simp [each, h]

end Outcome

end Chip8

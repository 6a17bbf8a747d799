import Chip8.Machine.Rank
import Chip8.Machine.Transcript

/-!
# Running a machine

A machine is stepped until the run is cancelled, its budget is used up, or a fault ends it.
A `Control` says what a run is held to and whether it has been cancelled. After each cycle an
`Observer` looks at the picture and may ask to stop, which cancels the control for good.

`Session.cycle` is one round of the loop : the cancellation is looked at first, then the
budget, then the machine makes a step. `Session.finish` goes round until the run is over. It
needs no bound on the number of rounds : each completed cycle lowers the rank of the machine
(`Machine.rank_step_lt`), so even a run without a budget ends.
-/

namespace Chip8

/-- How a run ends without a fault. -/
inductive Ending where
  | cancelled
  | budgetReached
  deriving DecidableEq

/-- What a run is held to, and whether it has been cancelled. -/
structure Control where
  /-- Instructions per second. -/
  rate : Option UInt32
  /-- A machine that has made this many cycles is stopped. -/
  budget : Option UInt64
  cancelled : Bool
  deriving DecidableEq

namespace Control

/-- A control that nobody has cancelled. -/
def ofLimits (rate : Option UInt32) (budget : Option UInt64) : Control :=
  ⟨rate, budget, false⟩

/-- The control after it was cancelled. Nothing takes that back. -/
def cancel (c : Control) : Control := { c with cancelled := true }

/-- The budget is used up after this many cycles. -/
def spent (c : Control) (cycles : UInt64) : Bool :=
  c.budget.any (· ≤ cycles)

end Control

/-- Someone who looks at the picture after each cycle, with a state of their own, and answers
whether to go on. -/
structure Observer (σ : Type) where
  look : σ → Picture → σ × Bool

/-- Nobody looks and nobody stops the run. -/
def Observer.absent : Observer Unit := ⟨fun _ _ => ((), true)⟩

/-- A run under way, with its records so far. -/
structure Session (σ : Type) where
  control : Control
  machine : Machine
  /-- The state of the observer. -/
  view : σ
  log : Array Event

/-- A run that is over. -/
structure Report (σ : Type) where
  session : Session σ
  result : Except Fault Ending

/-- What one round comes to : the run is over, or goes on. -/
inductive Round (σ : Type) where
  | over (report : Report σ)
  | on (session : Session σ)

namespace Session

variable {σ : Type}

/-- The start of a run. A rate is recorded once, here. -/
def start (c : Control) (m : Machine) (view : σ) : Session σ :=
  ⟨c, m, view, (c.rate.map fun rate => Event.paced (Period.ofRate rate)).toArray⟩

/-- One round of the loop. -/
def cycle (o : Observer σ) (s : Session σ) : Round σ :=
  if s.control.cancelled then
    .over ⟨{ s with log := s.log.push (.cancelled s.machine.cycles) }, .ok .cancelled⟩
  else if s.control.spent s.machine.cycles then
    .over ⟨{ s with log := s.log.push (.budgetReached s.machine.cycles) }, .ok .budgetReached⟩
  else
    match s.machine.step with
    | ⟨m, .error fault⟩ =>
      let log := (s.log ++ s.machine.stepEvents).push (.halted s.machine.pc m.cycles fault)
      .over ⟨{ s with machine := m, log }, .error fault⟩
    | ⟨m, .ok _⟩ =>
      let (view, goesOn) := o.look s.view m.picture
      .on
        { control := if goesOn then s.control else s.control.cancel
          machine := m
          view
          log := s.log ++ s.machine.stepEvents }

/-! ## The loop ends -/

/-- A round that goes on has completed a cycle. -/
theorem step_of_cycle {o : Observer σ} {s t : Session σ} (h : s.cycle o = .on t) :
    ∃ i, s.machine.step = ⟨t.machine, .ok i⟩ := by
  simp only [cycle] at h
  split at h
  · simp at h
  · split at h
    · simp at h
    · split at h
      · simp at h
      · rename_i m i hstep
        obtain rfl := Round.on.inj h
        exact ⟨i, hstep⟩

theorem rank_lt_of_cycle {o : Observer σ} {s t : Session σ} (h : s.cycle o = .on t) :
    t.machine.rank < s.machine.rank := by
  obtain ⟨i, hi⟩ := step_of_cycle h
  exact Machine.rank_step_lt hi

/-- Goes round until the run is over. -/
def finish (o : Observer σ) (s : Session σ) : Report σ :=
  match h : s.cycle o with
  | .over report => report
  | .on t =>
    have := rank_lt_of_cycle h
    finish o t
termination_by s.machine.rank

theorem finish_of_over {o : Observer σ} {s : Session σ} {report : Report σ}
    (h : s.cycle o = .over report) : s.finish o = report := by
  rw [finish]
  split
  · rename_i hc
    exact Round.over.inj (hc.symm.trans h)
  · rename_i hc
    simp [h] at hc

theorem finish_of_on {o : Observer σ} {s t : Session σ} (h : s.cycle o = .on t) :
    s.finish o = t.finish o := by
  rw [finish]
  split
  · rename_i hc
    simp [h] at hc
  · rename_i hc
    obtain rfl := Round.on.inj (hc.symm.trans h)
    rfl

/-- Runs a machine before an observer. -/
def run (c : Control) (o : Observer σ) (m : Machine) (view : σ) : Report σ :=
  (start c m view).finish o

end Session

/-- Runs a machine that nobody looks at. -/
def Control.run (c : Control) (m : Machine) : Report Unit :=
  Session.run c .absent m ()

end Chip8

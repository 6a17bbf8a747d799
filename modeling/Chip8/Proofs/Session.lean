import Chip8.Proofs.Run
import Chip8.Session

/-!
# Round after round

The loop of a run seen from outside : so many rounds go on (`Session.Goes`) and the round after
them is over (`Session.EndsAfter`). The report of that round is what `Session.finish` gives
(`Session.EndsAfter.finish_eq`), so the loop ends where the rounds say it does.

A round is over at once if the run is cancelled or its budget used up (`Session.cycle_of_cancelled`,
`Session.cycle_of_spent`). Otherwise it steps the machine, and goes on if the cycle completes
(`Session.cycle_of_executes`) or is over with its fault (`Session.cycle_of_faults`).
-/

namespace Chip8.Session

variable {σ : Type} {o : Observer σ} {s t : Session σ}

/-- So many rounds that go on lead from one session to the other. -/
inductive Goes (o : Observer σ) : Nat → Session σ → Session σ → Prop where
  | zero (s : Session σ) : Goes o 0 s s
  | succ {n : Nat} {s t u : Session σ} (first : s.cycle o = .on t) (rest : Goes o n t u) :
    Goes o (n + 1) s u

/-- After `n` rounds that go on, the run is over in the next. -/
def EndsAfter (o : Observer σ) (n : Nat) (s : Session σ) (report : Report σ) : Prop :=
  ∃ t, Goes o n s t ∧ t.cycle o = .over report

theorem EndsAfter.succ {n : Nat} {report : Report σ} (first : s.cycle o = .on t)
    (h : EndsAfter o n t report) : EndsAfter o (n + 1) s report := by
  obtain ⟨u, hu, hr⟩ := h
  exact ⟨u, .succ first hu, hr⟩

/-- The loop reports what the round after the last that goes on reports. -/
theorem EndsAfter.finish_eq {n : Nat} {report : Report σ} (h : EndsAfter o n s report) :
    s.finish o = report := by
  obtain ⟨u, hu, hr⟩ := h
  induction hu with
  | zero => exact finish_of_over hr
  | succ first _ ih => rw [finish_of_on first, ih hr]

/-! ## One round -/

theorem cycle_of_cancelled (hc : s.control.cancelled = true) :
    ∃ log, s.cycle o = .over ⟨{ s with log }, .ok .cancelled⟩ :=
  ⟨_, by rw [cycle, if_pos hc]⟩

theorem cycle_of_spent (hc : s.control.cancelled = false)
    (hb : s.control.spent s.machine.cycles = true) :
    ∃ log, s.cycle o = .over ⟨{ s with log }, .ok .budgetReached⟩ :=
  ⟨_, by rw [cycle, if_neg (by simp [hc]), if_pos hb]⟩

/-- The session after a round in which a cycle completes. -/
def onward (o : Observer σ) (s : Session σ) : Session σ where
  control := if (o.look s.view s.machine.next.picture).2 then s.control else s.control.cancel
  machine := s.machine.next
  view := (o.look s.view s.machine.next.picture).1
  log := s.log ++ s.machine.stepEvents

section cycle

variable (hc : s.control.cancelled = false) (hb : s.control.spent s.machine.cycles = false)

include hc hb

theorem cycle_of_faults {fault : Fault} (h : s.machine.Faults 0 fault) :
    ∃ log, s.cycle o = .over ⟨{ s with machine := s.machine.next, log }, .error fault⟩ := by
  have hs : s.machine.step = ⟨s.machine.next, .error fault⟩ := by
    rw [Machine.next, ← show s.machine.step.result = .error fault from h]
  exact ⟨_, by simp only [cycle, hc, hb, hs, Bool.false_eq_true, if_false]; rfl⟩

theorem cycle_of_executes {i : Instruction} (h : s.machine.Executes 0 i) :
    s.cycle o = .on (s.onward o) := by
  have hs : s.machine.step = ⟨s.machine.next, .ok i⟩ := Machine.step_of_ok h
  simp only [cycle, hc, hb, hs, Bool.false_eq_true, if_false]
  rfl

end cycle

/-- A run without a budget before an observer who never stops it goes on as long as the machine
does, and ends with its fault. -/
theorem exists_endsAfter (ho : ∀ view picture, (o.look view picture).2 = true) {fault : Fault} :
    ∀ {k : Nat} {s : Session σ}, s.control.cancelled = false → s.control.budget = none →
      s.machine.Completes k → s.machine.Faults k fault →
      ∃ report, EndsAfter o k s report ∧ report.result = .error fault ∧
        report.session.machine = s.machine.after (k + 1)
  | 0, s, hc, hb, _, hf => by
    obtain ⟨log, hl⟩ := cycle_of_faults (o := o) hc (by simp [Control.spent, hb]) hf
    exact ⟨_, ⟨s, .zero s, hl⟩, rfl, rfl⟩
  | k + 1, s, hc, hb, hk, hf => by
    obtain ⟨i, hi⟩ := hk 0 (by omega)
    have hon : s.cycle o = .on (s.onward o) :=
      cycle_of_executes hc (by simp [Control.spent, hb]) hi
    have hcontrol : (s.onward o).control = s.control := if_pos (ho _ _)
    obtain ⟨report, he, hr, hm⟩ := exists_endsAfter ho (s := s.onward o) (by rw [hcontrol, hc])
      (by rw [hcontrol, hb]) hk.next (Machine.faults_next.2 hf)
    exact ⟨report, he.succ hon, hr, hm.trans (s.machine.after_next _)⟩

end Chip8.Session

import Chip8.Proofs.Log
import Chip8.Proofs.RunOutcome
import Chip8.Proofs.Slices
import Chip8.Proofs.StraightLine

/-!
# The record of a used-up budget

A run whose budget is used up says so in its last record, with a number. This is the number of
cycles that the machine has made in its life when the run ends. A run goes on until the budget is
reached, so the number is the budget, unless the machine had made more cycles before : then the run
ends at once, and the number is theirs (`Control.toNat_cycles_of_spent`).

The record therefore names the budget exactly if the machine had not passed it before
(`Session.closing_of_budgetReached`). It does so in the first run of a fresh machine, but not in a
second run with a smaller budget (`Session.record_ne_budget`).
-/

namespace Chip8

namespace Control

variable {c : Control} {m : Machine} {budget : UInt64} {n : ℕ}

/-- When the budget is used up, the machine has made as many cycles as it allows, or those that it
had made before. -/
theorem toNat_cycles_of_spent (hb : c.budget = some budget) (hc : m.Completes n)
    (hn : (n : ℕ∞) ≤ c.allowance m.cycles) (hs : c.spent (m.after n).cycles = true) :
    (m.after n).cycles.toNat = max budget.toNat m.cycles.toNat := by
  have hcount := toNat_cycles_after hb hc hn
  have hleft := (spent_after_iff hc hn).1 hs
  rw [allowance, hb] at hleft
  have hcycles : budget.toNat - m.cycles.toNat = n := Nat.cast_inj.1 hleft
  omega

end Control

namespace Session

variable {σ : Type} {o : Observer σ} {c : Control} {m : Machine} {view : σ}

theorem Concludes.spent_of_result {s : Session σ} {report : Report σ} (h : s.Concludes report)
    (hr : report.result = .ok .budgetReached) : s.control.spent s.machine.cycles = true := by
  cases h with
  | cancelled => exact nomatch hr
  | spent hc hb log => exact hb
  | fault => exact nomatch hr

/-- The last record of a run whose budget is used up has the greater of the budget and the number of
cycles that the machine had made before the run. This is the budget exactly if the machine had not
made more. -/
theorem closing_of_budgetReached (h : (run c o m view).result = .ok .budgetReached) :
    ∃ (budget cycles : UInt64) (before : List Event), c.budget = some budget ∧
      (run c o m view).session.log.toList = before ++ [.budgetReached cycles] ∧
      cycles.toNat = max budget.toNat m.cycles.toNat ∧ (cycles = budget ↔ m.cycles ≤ budget) ∧
      (Event.budgetReached cycles).text =
        "cycle budget of " ++ toString cycles.toNat ++ " reached" := by
  obtain ⟨n, hn⟩ := exists_endsAfter_finish o (start c m view)
  obtain ⟨hgo, hend⟩ := hn.concludes
  obtain ⟨hcomp, -, hallow, -⟩ := le_of_goesOn hgo
  have hspent := hend.spent_of_result h
  rw [spent_along, machine_along] at hspent
  obtain ⟨budget, hb, -⟩ := (Option.any_eq_true _ _).1 hspent
  have hcycles := Control.toNat_cycles_of_spent hb hcomp hallow hspent
  have hlog := hn.log_eq
  rw [show (finish o (start c m view)).result = .ok .budgetReached from h] at hlog
  refine ⟨budget, (m.after n).cycles, _, hb, hlog, hcycles, ?_, rfl⟩
  rw [← UInt64.toNat_inj, hcycles, UInt64.le_iff_toNat_le]
  omega

/-- A run whose budget is used up when it begins ends with the record of the cycles made before. -/
theorem log_of_spent (o : Observer σ) (view : σ) (hc : c.cancelled = false)
    (hs : c.spent m.cycles = true) :
    (run c o m view).result = .ok .budgetReached ∧
      (run c o m view).session.log.toList = c.opening ++ [.budgetReached m.cycles] := by
  obtain ⟨log, hover⟩ := cycle_of_spent (o := o) (s := start c m view) hc hs
  have hlog := log_of_over hover
  rw [log_start] at hlog
  rw [run, finish_of_over hover]
  exact ⟨rfl, hlog⟩

/-! ## A machine that adds twice -/

/-- A fresh machine whose first two cycles complete. -/
theorem exists_addTwice : ∃ m, Machine.boot (Instruction.assemble [.add 0 1, .add 0 1]) 16 = .ok m ∧
    m.cycles = 0 ∧ m.Completes 2 := by
  have hlen : (Instruction.assemble [.add 0 1, .add 0 1]).length ≤ Memory.capacity := by decide
  obtain ⟨m, hm⟩ := Machine.exists_boot hlen 16
  have hcomp := (Machine.straight_run hm (by simp [Instruction.Straight])
    (by simp [Instruction.Encodable]) 2 (Nat.le_refl _)).1
  exact ⟨m, hm, Machine.cycles_boot hm, hcomp⟩

/-- In a run of the fresh machine with a budget of two cycles, the record names the budget. -/
theorem closing_of_budgetReached_fresh :
    ∃ m, Machine.boot (Instruction.assemble [.add 0 1, .add 0 1]) 16 = .ok m ∧
      let report := (Control.ofLimits none (some 2)).run m
      report.result = .ok .budgetReached ∧
        ∃ before, report.session.log.toList = before ++ [.budgetReached 2] := by
  obtain ⟨m, hm, hzero, hcomp⟩ := exists_addTwice
  have hresult := (run_of_budget none 2 hcomp (by rw [hzero]; rfl)).1
  obtain ⟨budget, cycles, before, hb, hlog, -, hiff, -⟩ := closing_of_budgetReached hresult
  obtain rfl := Option.some.inj hb
  obtain rfl : cycles = 2 := hiff.2 (by rw [hzero]; decide)
  exact ⟨m, hm, hresult, before, hlog⟩

/-- In a second run with a budget of one cycle, the record names two. -/
theorem record_ne_budget :
    ∃ m, Machine.boot (Instruction.assemble [.add 0 1, .add 0 1]) 16 = .ok m ∧
      let first := (Control.ofLimits none (some 2)).run m
      let second := (Control.ofLimits none (some 1)).run first.session.machine
      first.result = .ok .budgetReached ∧ second.result = .ok .budgetReached ∧
        second.session.log.toList = [.budgetReached 2] ∧
          (Event.budgetReached 2).text = "cycle budget of 2 reached" := by
  obtain ⟨m, hm, hzero, hcomp⟩ := exists_addTwice
  obtain ⟨hresult, hmachine, -⟩ := run_of_budget none 2 hcomp (by rw [hzero]; rfl)
  have hcycles : (m.after 2).cycles = 2 := by
    refine UInt64.toNat_inj.1 ?_
    rw [Machine.toNat_cycles_after hcomp (by rw [hzero]; decide), hzero]
    rfl
  have hspent : (Control.ofLimits none (some 1)).spent (m.after 2).cycles = true := by
    rw [hcycles]
    decide
  have hsecond := log_of_spent .absent () rfl hspent
  rw [hcycles] at hsecond
  refine ⟨m, hm, hresult, ?_⟩
  rw [hmachine]
  exact ⟨hsecond.1, hsecond.2, by decide +kernel⟩

end Session

end Chip8

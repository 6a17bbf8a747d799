import Mathlib.Data.ENat.Lattice
import Chip8.Proofs.Course

/-!
# What ends a run

Four things can end a run : it was cancelled before it began, the observer asks to stop, the budget
is used up, or a cycle ends with a fault. Each has a number of cycles after which it would end the
run if nothing else did, which may be infinite : the looks up to the first that is answered with a
stop (`Observer.patience`), the cycles that the budget leaves (`Control.allowance`), and the cycles
up to the first that ends with a fault (`Machine.endurance`).

The least of these numbers decides, and where two are equal, a stop goes before the budget and the
budget before a fault (`Session.run_outcome`).
-/

namespace Chip8

/-! ## The least number with a property -/

open Classical in
/-- The least number with a property, or `⊤` if no number has it. -/
noncomputable def least (p : ℕ → Prop) : ℕ∞ := if h : ∃ n, p n then (Nat.find h : ℕ∞) else ⊤

section least

variable {p : ℕ → Prop} {n : ℕ}

theorem coe_le_least_iff : (n : ℕ∞) ≤ least p ↔ ∀ k < n, ¬p k := by
  classical
  unfold least
  split
  case isTrue h => rw [Nat.cast_le, Nat.le_find_iff]
  case isFalse h => exact ⟨fun _ k _ hk => h ⟨k, hk⟩, fun _ => le_top⟩

theorem coe_lt_least_iff : (n : ℕ∞) < least p ↔ ∀ k ≤ n, ¬p k := by
  rw [← ENat.add_one_le_iff (ENat.natCast_ne_top n), ← Nat.cast_one, ← Nat.cast_add,
    coe_le_least_iff]
  simp only [Nat.lt_succ_iff]

/-- A number with a property that is no greater than the least is the least. -/
theorem least_eq_coe (hle : (n : ℕ∞) ≤ least p) (hn : p n) : least p = n := by
  refine le_antisymm (le_of_not_gt fun hlt => ?_) hle
  exact coe_lt_least_iff.1 hlt n (le_refl n) hn

end least

/-! ## The four reasons -/

/-- The number of cycles that complete before the first that ends with a fault. -/
noncomputable def Machine.endurance (m : Machine) : ℕ∞ :=
  least fun k => ∃ fault, m.Faults k fault

/-- The number of the first look, counted from 1, that the observer answers with a stop. -/
noncomputable def Observer.patience {σ : Type} (o : Observer σ) (m : Machine) (view : σ) : ℕ∞ :=
  least (o.StopsAt m view)

/-- The number of cycles that the budget allows a machine which has made some already. -/
def Control.allowance (c : Control) (cycles : UInt64) : ℕ∞ :=
  match c.budget with
  | none => ⊤
  | some budget => ((budget.toNat - cycles.toNat : ℕ) : ℕ∞)

namespace Machine

variable {m : Machine} {n : ℕ}

theorem le_endurance (h : m.Completes n) : (n : ℕ∞) ≤ m.endurance := by
  refine coe_le_least_iff.2 fun k hk ⟨fault, hf⟩ => ?_
  obtain ⟨i, hi⟩ := h k hk
  exact hi.not_faults hf

end Machine

namespace Control

variable {c : Control} {m : Machine} {budget : UInt64} {n : ℕ}

/-- As long as the budget lasts, the cycle count does not wrap. -/
theorem toNat_cycles_after (hb : c.budget = some budget) (hc : m.Completes n)
    (hn : (n : ℕ∞) ≤ c.allowance m.cycles) :
    (m.after n).cycles.toNat = m.cycles.toNat + n := by
  have hle : n ≤ budget.toNat - m.cycles.toNat := by
    rw [allowance, hb] at hn
    exact Nat.cast_le.1 hn
  have hbudget := budget.toNat_lt_size
  have hcycles := m.cycles.toNat_lt_size
  exact Machine.toNat_cycles_after hc (by omega)

/-- The budget is used up after as many cycles as it allows. -/
theorem spent_after_iff (hc : m.Completes n) (hn : (n : ℕ∞) ≤ c.allowance m.cycles) :
    c.spent (m.after n).cycles = true ↔ c.allowance m.cycles = n := by
  cases hb : c.budget with
  | none => simp [spent, allowance, hb]
  | some budget =>
    have hcount := toNat_cycles_after hb hc hn
    rw [allowance, hb] at hn ⊢
    have hle := Nat.cast_le.1 hn
    simp only [spent, hb, Option.any_some, decide_eq_true_eq, UInt64.le_iff_toNat_le, hcount,
      Nat.cast_inj]
    omega

/-- Cycles before each of which the budget was not used up are no more than it allows. -/
theorem le_allowance (hc : m.Completes n) (h : ∀ k < n, c.spent (m.after k).cycles = false) :
    (n : ℕ∞) ≤ c.allowance m.cycles := by
  induction n with
  | zero => exact zero_le
  | succ n ih =>
    have hcut := hc.mono (Nat.le_succ n)
    have hn := ih hcut fun k hk => h k (Nat.lt_succ_of_lt hk)
    have hne : c.allowance m.cycles ≠ n := fun he => by
      have := (spent_after_iff hcut hn).2 he
      simp [h n (Nat.lt_succ_self n)] at this
    rw [Nat.cast_succ, ENat.add_one_le_iff (ENat.natCast_ne_top n)]
    exact lt_of_le_of_ne hn hne.symm

end Control

/-! ## The outcome -/

namespace Session

variable {σ : Type} {o : Observer σ} {c : Control} {m : Machine} {view : σ} {n : ℕ}

/-- What rounds that went on say of the four reasons : none of them came before. -/
theorem le_of_goesOn (h : ∀ k < n, ((start c m view).along o k).GoesOn) :
    m.Completes n ∧ (n : ℕ∞) ≤ m.endurance ∧ (n : ℕ∞) ≤ c.allowance m.cycles ∧
      (n : ℕ∞) ≤ o.patience m view := by
  have hcomp : m.Completes n := completes_of_goesOn h
  have hspent : ∀ k < n, c.spent (m.after k).cycles = false := fun k hk =>
    (goesOn_along_iff.1 (h k hk)).2.1
  refine ⟨hcomp, Machine.le_endurance hcomp, Control.le_allowance hcomp hspent,
    coe_le_least_iff.2 fun k hk hs => ?_⟩
  have hc := (cancelled_along o (start c m view) k).2 (Or.inr ⟨k, le_refl k, hs⟩)
  simp [(h k hk).not_cancelled] at hc

/-- A run that is not cancelled after `n` rounds was not before, and the first stop is later. -/
theorem lt_of_not_cancelled (h : ((start c m view).along o n).control.cancelled = false) :
    c.cancelled ≠ true ∧ (n : ℕ∞) < o.patience m view := by
  have hno : ¬(c.cancelled = true ∨ ∃ k ≤ n, o.StopsAt m view k) := fun hc => by
    rw [(cancelled_along o (start c m view) n).2 hc] at h
    exact Bool.false_ne_true h.symm
  exact ⟨fun hc => hno (Or.inl hc), coe_lt_least_iff.2 fun k hk hs => hno (Or.inr ⟨k, hk, hs⟩)⟩

/-- The outcome of a run. It ends for the first of the reasons that it can end for : at once, if it
was cancelled before, or with the look that is answered with a stop, with the budget used up, or
with the fault of a cycle, in this order where two come together. -/
theorem run_outcome (c : Control) (o : Observer σ) (m : Machine) (view : σ) :
    ∃ (n : ℕ) (report : Report σ), run c o m view = report ∧
      EndsAfter o n (start c m view) report ∧ m.Completes n ∧
      report.session.view = o.shown view (m.pictures n) ∧ seen c o m view = m.pictures n ∧
      (∀ budget, c.budget = some budget →
        ∀ k ≤ n, (m.after k).cycles.toNat = m.cycles.toNat + k) ∧
      (report.session.control.cancelled = true ↔ report.result = .ok .cancelled) ∧
      if c.cancelled = true then
        n = 0 ∧ report.result = .ok .cancelled ∧ report.session.machine = m
      else if o.patience m view ≤ min m.endurance (c.allowance m.cycles) then
        o.patience m view = n ∧ report.result = .ok .cancelled ∧
          report.session.machine = m.after n
      else if c.allowance m.cycles ≤ m.endurance then
        c.allowance m.cycles = n ∧ report.result = .ok .budgetReached ∧
          report.session.machine = m.after n
      else
        m.endurance = n ∧ ∃ fault, m.Faults n fault ∧ report.result = .error fault ∧
          report.session.machine = m.after (n + 1) := by
  obtain ⟨n, hn⟩ := exists_endsAfter_finish o (start c m view)
  obtain ⟨hgo, hend⟩ := hn.concludes
  obtain ⟨hcomp, hendure, hallow, hpatience⟩ := le_of_goesOn hgo
  have hmachine : ((start c m view).along o n).machine = m.after n := machine_along _ _ n
  refine ⟨n, _, rfl, hn, hcomp, hn.view_eq, hn.seen_eq, fun budget hb k hk => ?_, ?_⟩
  · exact Control.toNat_cycles_after hb (hcomp.mono hk) ((Nat.cast_le.2 hk).trans hallow)
  change Concludes _ (run c o m view) at hend
  generalize run c o m view = report at hend ⊢
  cases hend with
  | cancelled hc log =>
    refine ⟨iff_of_true hc rfl, ?_⟩
    by_cases hbefore : c.cancelled = true
    · have hzero : n = 0 := Nat.eq_zero_of_not_pos fun hpos => by
        have := (hgo 0 hpos).not_cancelled
        simp [along, start, hbefore] at this
      subst hzero
      rw [if_pos hbefore]
      exact ⟨rfl, rfl, rfl⟩
    · obtain ⟨k, hk, hs⟩ := ((cancelled_along o _ n).1 hc).resolve_left hbefore
      obtain rfl : k = n :=
        le_antisymm hk (Nat.le_of_not_lt fun hlt => coe_le_least_iff.1 hpatience k hlt hs)
      have hp : o.patience m view = k := least_eq_coe hpatience hs
      rw [if_neg hbefore, hp, if_pos (le_min hendure hallow)]
      exact ⟨rfl, rfl, hmachine⟩
  | spent hc hb log =>
    obtain ⟨hbefore, hlt⟩ := lt_of_not_cancelled hc
    rw [spent_along, hmachine] at hb
    have ha : c.allowance m.cycles = n := (Control.spent_after_iff hcomp hallow).1 hb
    refine ⟨by simp [hc], ?_⟩
    rw [if_neg hbefore, ha, if_neg (not_le.2 ((min_le_right _ _).trans_lt hlt)), if_pos hendure]
    exact ⟨rfl, rfl, hmachine⟩
  | @fault hc hb fault hf log =>
    obtain ⟨hbefore, hlt⟩ := lt_of_not_cancelled hc
    rw [spent_along, hmachine] at hb
    rw [hmachine] at hf
    have he : m.endurance = n := least_eq_coe hendure ⟨fault, hf⟩
    have hltb : (n : ℕ∞) < c.allowance m.cycles := by
      refine lt_of_le_of_ne hallow fun ha => ?_
      exact Bool.false_ne_true (hb.symm.trans ((Control.spent_after_iff hcomp hallow).2 ha.symm))
    refine ⟨by simp [hc], ?_⟩
    rw [if_neg hbefore, he, if_neg (not_le.2 ((min_le_left _ _).trans_lt hlt)),
      if_neg (not_le.2 hltb)]
    exact ⟨rfl, fault, hf, rfl, congrArg Machine.next hmachine⟩

end Session

end Chip8

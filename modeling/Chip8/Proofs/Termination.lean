import Chip8.Proofs.Session
import Mathlib.Algebra.Group.Nat.Defs

/-!
# Every program ends with a fault

The rank of a machine falls with every cycle that completes, so no machine completes more cycles
than its rank (`Machine.exists_faults`). A freshly booted machine that may have `limit` calls open
has 1792 instructions before it at a place of weight `2049 ^ limit` (`Machine.rank_boot`), and a
cycle with a fault changes nothing the rank is made of. Every program therefore comes to a fault
in fewer than `2049 ^ (limit + 1)` cycles, and so does every run that nobody stops
(`Machine.boot_halts`).
-/

namespace Chip8.Machine

variable {m : Machine}

/-- Fewer than `bound` cycles complete, and the next ends with a fault. -/
def HaltsWithin (m : Machine) (bound : Nat) : Prop :=
  ∃ k < bound, m.Completes k ∧ ∃ fault, m.Faults k fault

theorem HaltsWithin.mono {small large : Nat} (h : m.HaltsWithin small) (hle : small ≤ large) :
    m.HaltsWithin large := by
  obtain ⟨k, hk, hc, hf⟩ := h
  exact ⟨k, Nat.lt_of_lt_of_le hk hle, hc, hf⟩

/-- A machine completes at most as many cycles as its rank, and then comes to a fault. -/
theorem haltsWithin_rank (m : Machine) : m.HaltsWithin (m.rank + 1) := by
  cases h : m.step.result with
  | error fault => exact ⟨0, by omega, m.completes_zero, fault, h⟩
  | ok i =>
    have hlt : m.next.rank < m.rank := rank_step_lt (step_of_ok h)
    obtain ⟨k, hk, hc, fault, hf⟩ := m.next.haltsWithin_rank
    exact ⟨k + 1, by omega, completes_succ_of_next h hc, fault, faults_next.1 hf⟩
termination_by m.rank

/-- No cycle raises the rank, whether it completes or not. -/
theorem rank_next_le (m : Machine) : m.next.rank ≤ m.rank := by
  cases h : m.step.result with
  | ok i => exact Nat.le_of_lt (rank_step_lt (step_of_ok h))
  | error fault =>
    obtain ⟨memory, registers, picture, hn⟩ := next_of_step_error h
    rw [hn]
    exact Nat.le_refl _

theorem rank_after_le (m : Machine) : ∀ n, (m.after n).rank ≤ m.rank
  | 0 => Nat.le_refl _
  | n + 1 => Nat.le_trans (rank_next_le _) (m.rank_after_le n)

/-- All that weighs in a fresh machine is the way from the start of the program to the end of
memory. -/
theorem rank_boot {image : List UInt8} {limit : Nat} (h : boot image limit = .ok m) :
    m.rank = 1792 * 2049 ^ limit := by
  obtain ⟨-, hpc, -, hs, -⟩ := of_boot h
  have hroom : room entry = 1792 := by decide
  simp [rank, hpc, hs, CallStack.empty, weigh, hroom]

theorem rank_boot_lt {image : List UInt8} {limit : Nat} (h : boot image limit = .ok m) :
    m.rank + 1 ≤ 2049 ^ (limit + 1) := by
  have := Nat.pow_pos (n := limit) (by decide : 0 < 2049)
  rw [rank_boot h, Nat.pow_succ]
  omega

/-- Every image that fits boots, and whatever its program does, in fewer than `2049 ^ (limit + 1)`
cycles it comes to a fault. From every state it can be stepped to, a run that is not cancelled and
has no budget goes round fewer times than that, and ends with a fault. -/
theorem boot_halts {image : List UInt8} (h : image.length ≤ Memory.capacity) (limit : Nat) :
    ∃ m, boot image limit = .ok m ∧ m.HaltsWithin (2049 ^ (limit + 1)) ∧
      ∀ (n : Nat) (c : Control), c.cancelled = false → c.budget = none →
        ∃ k < 2049 ^ (limit + 1), ∃ fault, (m.after n).Faults k fault ∧
          Session.EndsAfter .absent k (Session.start c (m.after n) ()) (c.run (m.after n)) ∧
            (c.run (m.after n)).result = .error fault := by
  obtain ⟨m, hm⟩ := exists_boot h limit
  have hr := rank_boot_lt hm
  refine ⟨m, hm, m.haltsWithin_rank.mono hr, fun n c hc hb => ?_⟩
  obtain ⟨k, hk, hcomp, fault, hf⟩ := (m.after n).haltsWithin_rank
  obtain ⟨report, he, hres, -⟩ := Session.exists_endsAfter (o := .absent) (fun _ _ => rfl)
    (s := Session.start c (m.after n) ()) hc hb hcomp hf
  obtain rfl : c.run (m.after n) = report := he.finish_eq
  have := m.rank_after_le n
  exact ⟨k, by omega, fault, hf, he, hres⟩

/-- A program that calls itself for ever, with room for two calls. -/
theorem boot_halts_selfCall : ([0x22, 0x00] : List UInt8).length ≤ Memory.capacity ∧
    ∃ m, boot [0x22, 0x00] 2 = .ok m ∧ m.HaltsWithin (2049 ^ 3) ∧
      ∃ fault, ((Control.ofLimits none none).run (m.after 1)).result = .error fault := by
  have h : ([0x22, 0x00] : List UInt8).length ≤ Memory.capacity := by decide
  refine ⟨h, ?_⟩
  obtain ⟨m, hm, hh, hrun⟩ := boot_halts h 2
  obtain ⟨k, -, fault, -, -, hres⟩ := hrun 1 (Control.ofLimits none none) rfl rfl
  exact ⟨m, hm, hh, fault, hres⟩

end Chip8.Machine

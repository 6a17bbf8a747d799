import Mathlib.Data.Nat.Find
import Mathlib.Logic.ExistsUnique
import Chip8.Proofs.Decode
import Chip8.Proofs.Run

/-!
# Calls and returns are bracketed

The addresses that are saved when a cycle opens a call stay at the bottom of the stack, with the
return address on them, for as long as more calls are open than before it
(`Machine.saved_prefix`). The cycle that brings the number of open calls back to what it was is
therefore a return, which goes to that return address and leaves the old stack
(`Machine.Matches.ret`).

In a run of a fresh machine every return is such an end of exactly one call
(`Machine.boot_bracketed`). The call is the one in the last cycle before which no more calls were
open than after the return.
-/

namespace Chip8.Machine

variable {m : Machine} {instruction : Instruction} {n i j : Nat}

/-- The saved addresses, the oldest first. -/
def saved (m : Machine) : List UInt16 := m.stack.addresses.toList

/-- The number of open calls. -/
def depth (m : Machine) : Nat := m.saved.length

/-- From after cycle `i` to before cycle `j`, more calls are open than before cycle `i`. -/
def Deeper (m : Machine) (i j : Nat) : Prop :=
  ∀ k, i < k → k ≤ j → (m.after i).depth < (m.after k).depth

/-- Cycle `i` is a call, and cycle `j` is the first after it that brings the number of open calls
back to what it was. -/
structure Matches (m : Machine) (i j : Nat) : Prop where
  lt : i < j
  call : ∃ target, m.Executes i (.call target)
  deeper : m.Deeper i j
  back : (m.after (j + 1)).depth = (m.after i).depth

/-! ## One cycle -/

/-- A cycle that completes takes an address from the stack, saves one, or leaves the stack. -/
theorem saved_cases (h : m.step.result = .ok instruction) :
    (instruction = .ret ∧ m.saved = m.next.saved ++ [m.next.pc]) ∨
      (instruction = .call m.next.pc ∧ m.next.saved = m.saved ++ [following m.pc]) ∨
        (instruction ≠ .ret ∧ (∀ target, instruction ≠ .call target) ∧
          m.next.saved = m.saved) := by
  rcases control_of_step_ok h with ⟨hi, hs⟩ | ⟨hi, hs⟩ | ⟨hr, hc, -, hs⟩
  · exact Or.inl ⟨hi, by simp [saved, CallStack.addresses_of_pop hs]⟩
  · exact Or.inr (Or.inl ⟨hi, by simp [saved, CallStack.addresses_of_push hs]⟩)
  · exact Or.inr (Or.inr ⟨hr, hc, by rw [saved, hs, saved]⟩)

/-- A call opens one call, a return closes one, and nothing else does either. -/
theorem depth_next (h : m.step.result = .ok instruction) :
    m.next.depth + (if instruction.kind = .ret then 1 else 0) =
      m.depth + (if instruction.kind = .call then 1 else 0) := by
  unfold depth
  rcases saved_cases h with ⟨rfl, hs⟩ | ⟨rfl, hs⟩ | ⟨hr, hc, hs⟩
  · rw [hs, List.length_append]
    rfl
  · rw [hs, List.length_append]
    rfl
  · simp [hs, Instruction.kind_eq_ret_iff, Instruction.kind_eq_call_iff, hr, hc]

theorem limit_next (h : m.step.result = .ok instruction) :
    m.next.stack.limit = m.stack.limit := by
  rcases control_of_step_ok h with ⟨-, hs⟩ | ⟨-, hs⟩ | ⟨-, -, -, hs⟩
  · exact CallStack.limit_of_pop hs
  · exact CallStack.limit_of_push hs
  · rw [hs]

theorem limit_after (hn : m.Completes n) : ∀ k ≤ n, (m.after k).stack.limit = m.stack.limit
  | 0, _ => rfl
  | k + 1, hk => by
    obtain ⟨instruction, hi⟩ := hn k hk
    exact (limit_next hi).trans (limit_after hn k (by omega))

/-! ## From a call to its return -/

/-- While more calls are open than before a call, the addresses saved before it and the one it
saved are at the bottom of the stack. -/
theorem saved_prefix (hn : m.Completes n) {target : UInt16} (hi : m.Executes i (.call target)) :
    ∀ d, i + 1 + d ≤ n → m.Deeper i (i + 1 + d) →
      List.IsPrefix ((m.after i).saved ++ [following (m.after i).pc]) (m.after (i + 1 + d)).saved
  | 0, _, _ => by
    rcases saved_cases hi with ⟨h, -⟩ | ⟨-, h⟩ | ⟨-, h, -⟩
    · simp at h
    · exact h ▸ List.prefix_refl _
    · exact (h target rfl).elim
  | d + 1, hd, hdeep => by
    have ih := saved_prefix hn hi d (by omega) fun k hk hkd => hdeep k hk (by omega)
    have hlast := hdeep (i + 1 + (d + 1)) (by omega) (Nat.le_refl _)
    obtain ⟨instruction, hk⟩ := hn (i + 1 + d) (by omega)
    rw [← Nat.add_assoc, after_succ] at hlast ⊢
    rcases saved_cases hk with ⟨-, h⟩ | ⟨-, h⟩ | ⟨-, -, h⟩
    · -- The address that is taken lies above those saved up to the call.
      rw [h] at ih
      refine List.prefix_of_prefix_length_le ih (List.prefix_append _ _) ?_
      rw [List.length_append, List.length_singleton]
      exact hlast
    · rw [h]
      exact ih.trans (List.prefix_append _ _)
    · rw [h]
      exact ih

/-- The cycle that brings the number of open calls back to what it was before a call is a return to
the instruction after the call, and leaves the stack as it was. -/
theorem Matches.ret (hm : m.Matches i j) (hn : m.Completes n) (hj : j < n) :
    m.Executes j .ret ∧ (m.after (j + 1)).pc = following (m.after i).pc ∧
      (m.after (j + 1)).stack = (m.after i).stack := by
  obtain ⟨hij, ⟨target, hi⟩, hdeep, hback⟩ := hm
  obtain ⟨d, rfl⟩ : ∃ d, j = i + 1 + d := ⟨j - (i + 1), by omega⟩
  obtain ⟨rest, hrest⟩ := saved_prefix hn hi d (by omega) hdeep
  have hlast := hdeep (i + 1 + d) hij (Nat.le_refl _)
  obtain ⟨instruction, hk⟩ := hn (i + 1 + d) hj
  simp only [depth, after_succ] at hback hlast
  rcases saved_cases hk with ⟨rfl, h⟩ | ⟨-, h⟩ | ⟨-, -, h⟩
  · rw [h] at hrest
    have hlen := congrArg List.length hrest
    simp only [List.length_append, List.length_singleton, hback] at hlen
    obtain rfl : rest = [] := List.length_eq_zero_iff.1 (by omega)
    rw [List.append_nil] at hrest
    obtain ⟨hsaved, hpc⟩ := List.append_inj' hrest rfl
    refine ⟨hk, (List.singleton_inj.1 hpc).symm, CallStack.ext ?_ (Array.toList_inj.1 hsaved.symm)⟩
    rw [limit_after hn _ hj, limit_after hn i (by omega)]
  · rw [h, List.length_append, List.length_singleton] at hback
    omega
  · rw [h] at hback
    omega

/-! ## From a return to its call -/

/-- A return that leaves no fewer calls open than there were at first ends a call. -/
theorem exists_matches (hn : m.Completes n) (hj : j < n) (hr : m.Executes j .ret)
    (hd : m.depth ≤ (m.after (j + 1)).depth) : ∃ i, m.Matches i j := by
  have hfall : (m.after j).depth = (m.after (j + 1)).depth + 1 := by
    rcases saved_cases hr with ⟨-, h⟩ | ⟨h, -⟩ | ⟨h, -⟩
    · rw [depth, h, List.length_append]
      rfl
    · simp at h
    · exact (h rfl).elim
  -- The last cycle before which no more calls were open than after the return.
  obtain ⟨i, hle, hi, habove⟩ : ∃ i ≤ j, (m.after i).depth ≤ (m.after (j + 1)).depth ∧
      ∀ k, i < k → k ≤ j → (m.after (j + 1)).depth < (m.after k).depth := by
    let low := fun k => (m.after k).depth ≤ (m.after (j + 1)).depth
    refine ⟨Nat.findGreatest low j, Nat.findGreatest_le j, ?_, fun k hik hkj => ?_⟩
    · exact Nat.findGreatest_spec (P := low) (Nat.zero_le j) hd
    · exact Nat.lt_of_not_le (Nat.findGreatest_is_greatest (P := low) hik hkj)
  have hij : i < j := by
    refine Nat.lt_of_le_of_ne hle fun he => ?_
    rw [he] at hi
    omega
  have hup := habove (i + 1) (Nat.lt_succ_self i) hij
  obtain ⟨instruction, hk⟩ := hn i (by omega)
  simp only [depth, after_succ] at hup hi
  rcases saved_cases hk with ⟨-, h⟩ | ⟨rfl, h⟩ | ⟨-, -, h⟩
  · rw [h, List.length_append] at hi
    omega
  · rw [h, List.length_append, List.length_singleton] at hup
    have hback : (m.after (j + 1)).depth = (m.after i).depth := by
      simp only [depth, after_succ]
      omega
    exact ⟨i, hij, ⟨_, hk⟩, fun k hik hkj => hback ▸ habove k hik hkj, hback⟩
  · rw [h] at hup
    omega

/-- Of two calls that a return ends, neither is before the other : there, as many calls are open as
at the other, but more than before the one. -/
theorem Matches.not_lt {i' : Nat} (h : m.Matches i j) (h' : m.Matches i' j) : ¬i < i' := by
  intro hlt
  have := h.deeper i' hlt (Nat.le_of_lt h'.lt)
  rw [← h.back, ← h'.back] at this
  exact Nat.lt_irrefl _ this

/-- A return ends one call only. -/
theorem Matches.unique {i' : Nat} (h : m.Matches i j) (h' : m.Matches i' j) : i = i' :=
  Nat.le_antisymm (Nat.le_of_not_lt (h'.not_lt h)) (Nat.le_of_not_lt (h.not_lt h'))

/-- The calls that are open are those that were opened and those open at first, without those that
were ended. -/
theorem depth_after (hn : m.Completes n) : ∀ k ≤ n,
    (m.after k).depth + (m.completed k).countP (·.kind = .ret) =
      m.depth + (m.completed k).countP (·.kind = .call)
  | 0, _ => rfl
  | k + 1, hk => by
    have ih := depth_after hn k (by omega)
    obtain ⟨instruction, hi⟩ := hn k hk
    have hstep := depth_next hi
    simp only [after_succ, completed_succ hi, List.countP_append, List.countP_singleton,
      decide_eq_true_eq] at hstep ⊢
    omega

/-- In a run of a freshly booted machine calls and returns are bracketed : the cycle that brings the
number of open calls back is a return to behind the call, and every return ends exactly one call in
this way. -/
theorem boot_bracketed {image : List UInt8} {limit : Nat} (hb : boot image limit = .ok m)
    (hn : m.Completes n) :
    (∀ i < n, ∀ target, m.Executes i (.call target) →
      (following (m.after i).pc).toNat = (m.after i).pc.toNat + 2 ∧
      (∀ j ≤ n, i < j → m.Deeper i j → List.IsPrefix
        ((m.after i).saved ++ [following (m.after i).pc]) (m.after j).saved) ∧
      ∀ j < n, m.Matches i j → m.Executes j .ret ∧
        (m.after (j + 1)).pc = following (m.after i).pc ∧
          (m.after (j + 1)).stack = (m.after i).stack) ∧
    (∀ j < n, m.Executes j .ret → ∃! i, m.Matches i j) ∧
    ∀ k ≤ n, (m.after k).depth + (m.completed k).countP (·.kind = .ret) =
      (m.completed k).countP (·.kind = .call) := by
  have hempty : m.depth = 0 := by
    obtain ⟨-, -, -, hs, -⟩ := of_boot hb
    rw [depth, saved, hs]
    rfl
  refine ⟨fun i hi target hc => ⟨?_, fun j hj hij hd => ?_, fun j hj hm => hm.ret hn hj⟩,
    fun j hj hr => ?_, fun k hk => ?_⟩
  · exact toNat_following (pc_of_fetch (of_step_ok hc).1)
  · obtain ⟨d, rfl⟩ : ∃ d, j = i + 1 + d := ⟨j - (i + 1), by omega⟩
    exact saved_prefix hn hc d hj hd
  · obtain ⟨i, hi⟩ := exists_matches hn hj hr (by omega)
    exact ⟨i, hi, fun i' hi' => hi'.unique hi⟩
  · rw [depth_after hn k hk, hempty, Nat.zero_add]

/-- A program that calls the return behind the call. -/
theorem boot_bracketed_callReturn : ∃ m, boot [0x22, 0x02, 0x00, 0xEE] 16 = .ok m ∧
    m.Completes 2 ∧ m.Executes 1 .ret ∧ ∃! i, m.Matches i 1 := by
  have hlen : ([0x22, 0x02, 0x00, 0xEE] : List UInt8).length ≤ Memory.capacity := by decide
  obtain ⟨m, hm⟩ := exists_boot hlen 16
  obtain ⟨-, hpc, -, hs, -⟩ := of_boot hm
  have hf0 : m.fetch = .ok (.call 0x202) :=
    (fetch_of_image 0 hm rfl (by rw [hpc]; rfl) rfl rfl).trans rfl
  have hi0 : m.Executes 0 (.call 0x202) := by
    rw [Executes, after_zero, step_of_execute_ok hf0]
    simp [execute, hs, CallStack.push, CallStack.depth, CallStack.empty]
  obtain ⟨hpc1, hs1⟩ : m.next.pc = 0x202 ∧ m.next.saved = [following m.pc] := by
    rcases saved_cases hi0 with ⟨h, -⟩ | ⟨h, hsaved⟩ | ⟨-, h, -⟩
    · simp at h
    · rw [after_zero] at h hsaved
      exact ⟨(Instruction.call.inj h).symm, by rw [hsaved, saved, hs]; rfl⟩
    · exact (h _ rfl).elim
  have hm1 : m.next.memory = m.memory := memory_next_of_ne (by simp [hf0])
  have hf1 : m.next.fetch = .ok .ret :=
    (fetch_of_image 2 hm hm1 (by rw [hpc1]; rfl) rfl rfl).trans rfl
  have hi1 : m.Executes 1 .ret := by
    have ha : m.next.stack.addresses = #[following m.pc] := Array.toList_inj.1 hs1
    rw [Executes, after_succ, after_zero, step_of_execute_ok hf1]
    simp [execute, CallStack.pop, ha]
  have hcomp : m.Completes 2 := by
    intro k hk
    obtain rfl | rfl : k = 0 ∨ k = 1 := by omega
    · exact ⟨_, hi0⟩
    · exact ⟨_, hi1⟩
  exact ⟨m, hm, hcomp, hi1, (boot_bracketed hm hcomp).2.1 1 (by decide) hi1⟩

end Chip8.Machine

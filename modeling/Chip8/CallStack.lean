import Chip8.Fault

/-!
# The call stack

The return addresses of the open calls, the newest last. The depth never passes the limit
the stack was made with, which the type states (`depth_le`); a call beyond it and a return
from an empty stack are faults and leave the stack as it is.
-/

namespace Chip8

/-- Saved return addresses, the oldest first, with a bound on their number. -/
structure CallStack where
  limit : Nat
  addresses : Array UInt16
  depth_le : addresses.size ≤ limit
  deriving DecidableEq

namespace CallStack

/-- The limit of a stack for which none is chosen. -/
abbrev defaultLimit : Nat := 16

/-- A stack without open calls. -/
def empty (limit : Nat) : CallStack := ⟨limit, #[], Nat.zero_le limit⟩

/-- The number of open calls. -/
def depth (s : CallStack) : Nat := s.addresses.size

/-- Saves an address, unless the stack is full. -/
def push (s : CallStack) (address : UInt16) : Except Fault CallStack :=
  if h : s.depth < s.limit then
    .ok ⟨s.limit, s.addresses.push address, by simpa [depth, Nat.succ_le_iff] using h⟩
  else .error (.stackOverflow s.limit)

/-- The newest address, and the stack without it. -/
def pop (s : CallStack) : Except Fault (UInt16 × CallStack) :=
  match s.addresses.back? with
  | some address =>
    .ok (address, ⟨s.limit, s.addresses.pop, by have := s.depth_le; simp; omega⟩)
  | none => .error .stackUnderflow

/-! ## The saved addresses after each operation -/

@[ext] theorem ext {s t : CallStack} (hl : s.limit = t.limit)
    (ha : s.addresses = t.addresses) : s = t := by
  cases s
  cases t
  simp_all

theorem limit_of_push {s t : CallStack} {address : UInt16} (h : s.push address = .ok t) :
    t.limit = s.limit := by
  unfold push at h
  split at h
  · rw [← Except.ok.inj h]
  · simp at h

theorem addresses_of_push {s t : CallStack} {address : UInt16} (h : s.push address = .ok t) :
    t.addresses = s.addresses.push address := by
  unfold push at h
  split at h
  · rw [← Except.ok.inj h]
  · simp at h

theorem limit_of_pop {s t : CallStack} {address : UInt16} (h : s.pop = .ok (address, t)) :
    t.limit = s.limit := by
  unfold pop at h
  split at h
  · rw [← (Prod.mk.inj (Except.ok.inj h)).2]
  · simp at h

theorem addresses_of_pop {s t : CallStack} {address : UInt16} (h : s.pop = .ok (address, t)) :
    s.addresses = t.addresses.push address := by
  unfold pop at h
  split at h
  case h_1 a hb =>
    obtain ⟨rfl, rfl⟩ := Prod.mk.inj (Except.ok.inj h)
    obtain ⟨older, ho⟩ := Array.back?_eq_some_iff.1 hb
    simp [ho]
  case h_2 => simp at h

/-! ## When an operation succeeds -/

variable {s t : CallStack} {address : UInt16}

theorem push_eq_ok_iff : s.push address = .ok t ↔
    t.limit = s.limit ∧ t.addresses = s.addresses.push address := by
  refine ⟨fun h => ⟨limit_of_push h, addresses_of_push h⟩, fun ⟨hl, ha⟩ => ?_⟩
  have hd := t.depth_le
  rw [ha, Array.size_push, hl] at hd
  rw [push, dif_pos (by exact hd)]
  exact congrArg Except.ok (CallStack.ext hl.symm ha.symm)

theorem pop_eq_ok_iff : s.pop = .ok (address, t) ↔
    t.limit = s.limit ∧ s.addresses = t.addresses.push address := by
  refine ⟨fun h => ⟨limit_of_pop h, addresses_of_pop h⟩, fun ⟨hl, ha⟩ => ?_⟩
  have hback : s.addresses.back? = some address := by rw [ha, Array.back?_push]
  unfold pop
  split
  case h_1 top htop =>
    obtain rfl := Option.some.inj (htop.symm.trans hback)
    refine congrArg Except.ok (Prod.ext rfl (CallStack.ext hl.symm ?_))
    exact (congrArg Array.pop ha).trans Array.pop_push
  case h_2 hnone => exact nomatch hnone.symm.trans hback

theorem depth_of_push (h : s.push address = .ok t) : t.depth = s.depth + 1 := by
  rw [depth, addresses_of_push h, Array.size_push, depth]

theorem depth_of_pop (h : s.pop = .ok (address, t)) : s.depth = t.depth + 1 := by
  rw [depth, addresses_of_pop h, Array.size_push, depth]

/-- An address that was pushed is popped. -/
theorem pop_of_push (h : s.push address = .ok t) : t.pop = .ok (address, s) :=
  pop_eq_ok_iff.2 ⟨(limit_of_push h).symm, addresses_of_push h⟩

/-! ## When an operation fails -/

theorem push_error_iff {s : CallStack} {address : UInt16} {fault : Fault} :
    s.push address = .error fault ↔ s.depth = s.limit ∧ fault = .stackOverflow s.limit := by
  have hle : s.depth ≤ s.limit := s.depth_le
  unfold push
  split
  case isTrue h => simp [Nat.ne_of_lt h]
  case isFalse h => simp [Nat.le_antisymm hle (Nat.le_of_not_lt h), eq_comm]

theorem pop_error_iff {s : CallStack} {fault : Fault} :
    s.pop = .error fault ↔ s.depth = 0 ∧ fault = .stackUnderflow := by
  unfold pop
  split
  case h_1 a hb =>
    obtain ⟨older, ho⟩ := Array.back?_eq_some_iff.1 hb
    simp [depth, ho]
  case h_2 hb => simp [depth, Array.back?_eq_none_iff.1 hb, eq_comm]

end CallStack

end Chip8

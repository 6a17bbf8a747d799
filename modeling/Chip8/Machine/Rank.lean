import Chip8.Machine.Execute

/-!
# Every run ends

There is no jump but the call, so a machine can only move forward, go down into a call, or
come back from one. Weigh the program counter and each saved address by the instructions left
between it and the end of memory (`room`), an address lower in the stack 2049 times as much as
the next : the weight of a machine (`rank`) falls with every completed cycle
(`rank_step_lt`), whatever the program is and however it changes itself.

A plain instruction takes one from the room of the program counter. A call takes one from it,
which is saved, and adds at most 2048 at a place that counts a 2049th. A return gives up what
room the program counter had.
-/

namespace Chip8.Machine

/-- The number of instructions that fit between an address and the end of memory. -/
def room (address : UInt16) : Nat := (Memory.size - address.toNat) / 2

/-- The weight of addresses at the places from `place` on, under a limit of `limit` places. -/
def weigh (limit : Nat) : Nat → List UInt16 → Nat
  | _, [] => 0
  | place, address :: rest =>
    room address * Nat.pow 2049 (limit - place) + weigh limit (place + 1) rest

/-- The weight of the saved addresses and, above them, the program counter. -/
def rank (m : Machine) : Nat :=
  weigh m.stack.limit 0 (m.stack.addresses.toList ++ [m.pc])

theorem room_le (address : UInt16) : room address ≤ 2048 := by
  simp only [room, Memory.size]
  omega

/-- The program counter never wraps when it moves on from a word in memory. -/
theorem toNat_following {pc : UInt16} (h : pc.toNat + 1 < Memory.size) :
    (following pc).toNat = pc.toNat + 2 := by
  simp only [following, UInt16.toNat_add, UInt16.reduceToNat]
  simp only [Memory.size] at h
  omega

theorem room_following {pc : UInt16} (h : pc.toNat + 1 < Memory.size) :
    room (following pc) + 1 = room pc := by
  simp only [room, toNat_following h, Memory.size] at h ⊢
  omega

theorem weigh_concat (limit : Nat) :
    ∀ (place : Nat) (below : List UInt16) (address : UInt16),
      weigh limit place (below ++ [address]) =
        weigh limit place below + room address * Nat.pow 2049 (limit - (place + below.length))
  | _, [], _ => by simp [weigh]
  | place, _ :: below, address => by
    have ih := weigh_concat limit (place + 1) below address
    simp only [List.cons_append, weigh, ih, List.length_cons]
    have : place + 1 + below.length = place + (below.length + 1) := by omega
    rw [this]
    omega

/-! ## Where an instruction leaves the program counter and the stack -/

/-- A word that could be fetched lies in memory. -/
theorem pc_of_fetch {m : Machine} {i : Instruction} (h : m.fetch = .ok i) :
    m.pc.toNat + 1 < Memory.size := by
  by_cases hp : m.pc.toNat + 1 < Memory.size
  · exact hp
  · rcases Nat.lt_or_ge m.pc.toNat Memory.size with h0 | h0
    · simp [fetch, word, Memory.word, Memory.read_of_lt _ h0,
        Memory.read_of_le _ (Nat.not_lt.1 hp), Except.bind, bind] at h
    · simp [fetch, word, Memory.word, Memory.read_of_le _ h0, Except.bind, bind] at h

theorem thenAdvance_ok {o : Outcome Machine Unit} {t : Machine}
    (h : thenAdvance o = ⟨t, .ok ()⟩) : t = { o.state with pc := following o.state.pc } := by
  unfold thenAdvance at h
  split at h
  · exact ((Outcome.mk.injEq ..).mp h).1.symm
  · simp at h

/-- A drawing touches the picture and the registers only. -/
theorem draw_frame (m : Machine) (column row height : UInt8) :
    ∃ registers picture, (m.draw column row height).state = { m with registers, picture } := by
  unfold draw
  split
  · exact ⟨_, _, rfl⟩
  · simp only
    split <;> exact ⟨_, _, rfl⟩

/-- A completed instruction is a return to the newest address, a call, or goes on to the
following instruction with the stack as it is. -/
theorem execute_control {m t : Machine} {i : Instruction} (h : m.execute i = ⟨t, .ok ()⟩) :
    (i = .ret ∧ m.stack.pop = .ok (t.pc, t.stack)) ∨
      (i = .call t.pc ∧ m.stack.push (following m.pc) = .ok t.stack) ∨
        (i ≠ .ret ∧ (∀ target, i ≠ .call target) ∧
          t.pc = following m.pc ∧ t.stack = m.stack) := by
  cases i with
  | ret =>
    simp only [execute] at h
    split at h
    · simp at h
    · rename_i address stack hs
      obtain rfl := ((Outcome.mk.injEq ..).mp h).1
      exact Or.inl ⟨rfl, hs⟩
  | call target =>
    simp only [execute] at h
    split at h
    · simp at h
    · rename_i stack hs
      obtain rfl := ((Outcome.mk.injEq ..).mp h).1
      exact Or.inr (Or.inl ⟨rfl, hs⟩)
  | draw column row height =>
    simp only [execute] at h
    obtain rfl := thenAdvance_ok h
    obtain ⟨registers, picture, hd⟩ := m.draw_frame column row height
    exact Or.inr (Or.inr ⟨by simp, by simp, by rw [hd], by rw [hd]⟩)
  | set | add | point | glyph | decimal | fill =>
    simp only [execute] at h
    obtain rfl := thenAdvance_ok h
    exact Or.inr (Or.inr ⟨by simp, by simp, rfl, rfl⟩)

/-- A completed cycle fetched its instruction, executed it and counted it. -/
theorem step_ok {m t : Machine} {i : Instruction} (h : m.step = ⟨t, .ok i⟩) :
    m.fetch = .ok i ∧
      ∃ u, m.execute i = ⟨u, .ok ()⟩ ∧ t = { u with cycles := u.cycles + 1 } := by
  unfold step at h
  split at h
  · simp at h
  · rename_i j hj
    simp only at h
    split at h
    · simp at h
    · rename_i hr
      obtain ⟨ht, hi⟩ := (Outcome.mk.injEq ..).mp h
      obtain rfl := Except.ok.inj hi
      exact ⟨hj, (m.execute j).state, by rw [← hr], ht.symm⟩

/-- Every completed cycle lowers the rank. -/
theorem rank_step_lt {m t : Machine} {i : Instruction} (h : m.step = ⟨t, .ok i⟩) :
    t.rank < m.rank := by
  obtain ⟨hf, u, hu, rfl⟩ := step_ok h
  have hroom := room_following (pc_of_fetch hf)
  have pos : ∀ k, 0 < Nat.pow 2049 k := fun k => Nat.pow_pos (by decide)
  rcases execute_control hu with ⟨-, hs⟩ | ⟨-, hs⟩ | ⟨-, -, hpc, hs⟩
  · -- A return : the room of the program counter is gone.
    have hl := CallStack.limit_of_pop hs
    have ha : m.stack.addresses.toList = u.stack.addresses.toList ++ [u.pc] := by
      simp [CallStack.addresses_of_pop hs]
    simp only [rank, hl, ha, weigh_concat _ _ (u.stack.addresses.toList ++ [u.pc])]
    have := pos (m.stack.limit - (0 + (u.stack.addresses.toList ++ [u.pc]).length))
    have : 0 < room m.pc := by omega
    have := Nat.mul_pos this ‹0 < Nat.pow 2049 _›
    omega
  · -- A call : what the new program counter weighs is less than what the old one lost.
    have hl := CallStack.limit_of_push hs
    have ha : u.stack.addresses.toList = m.stack.addresses.toList ++ [following m.pc] := by
      simp [CallStack.addresses_of_push hs]
    have hd : m.stack.addresses.toList.length < m.stack.limit := by
      have hle : u.stack.addresses.toList.length ≤ m.stack.limit := hl ▸ u.stack.depth_le
      rw [ha, List.length_append, List.length_singleton] at hle
      omega
    obtain ⟨e, he⟩ : ∃ e, m.stack.limit - m.stack.addresses.toList.length = e + 1 :=
      ⟨m.stack.limit - m.stack.addresses.toList.length - 1, by omega⟩
    have he' : m.stack.limit - (m.stack.addresses.toList.length + 1) = e := by omega
    simp only [rank, hl, ha, weigh_concat, Nat.zero_add, List.length_append, List.length_singleton,
      he, he', ← hroom, Nat.add_mul, Nat.one_mul]
    have := Nat.mul_le_mul_right (Nat.pow 2049 e) (room_le u.pc)
    have := pos e
    have hpow : Nat.pow 2049 (e + 1) = Nat.pow 2049 e * 2049 := rfl
    rw [hpow]
    omega
  · -- Any other instruction : the program counter goes on by one instruction.
    simp only [rank, hs, hpc, weigh_concat, ← hroom, Nat.add_mul, Nat.one_mul]
    have := pos (m.stack.limit - (0 + m.stack.addresses.toList.length))
    omega

end Chip8.Machine

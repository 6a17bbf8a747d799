/-!
# Registers

Sixteen byte registers `V0` to `VF`. A register number counts by its low four bits, so every
byte names a register. `VF` also takes the collision flag of a drawing (`Registers.flag`),
but arithmetic leaves it alone : an addition wraps and keeps no carry.
-/

namespace Chip8

/-- The values of `V0` to `VF`. -/
structure Registers where
  values : Vector UInt8 16
  deriving DecidableEq

namespace Registers

/-- The register that reports collisions. -/
abbrev flag : UInt8 := 0xF

/-- All registers zero. -/
def fresh : Registers := ⟨Vector.replicate 16 0⟩

/-- The value of a register. -/
def get (r : Registers) (register : UInt8) : UInt8 :=
  r.values[register.toNat % 16]

/-- Gives a register a value. -/
def set (r : Registers) (register value : UInt8) : Registers :=
  ⟨r.values.set (register.toNat % 16) value⟩

/-- Adds to a register, modulo 256. -/
def add (r : Registers) (register value : UInt8) : Registers :=
  r.set register (r.get register + value)

/-- A register that was set holds the value, and the others what they held. -/
theorem get_set (r : Registers) (register value other : UInt8) :
    (r.set register value).get other =
      if other.toNat % 16 = register.toNat % 16 then value else r.get other := by
  by_cases h : other.toNat % 16 = register.toNat % 16
  · simp [get, set, h]
  · simp [get, set, h, Ne.symm h]

theorem get_fresh (register : UInt8) : fresh.get register = 0 := by
  simp [get, fresh]

end Registers

end Chip8

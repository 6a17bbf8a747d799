import Chip8.Instruction.Encode
import Chip8.Main
import Chip8.Proofs.Guarded
import Chip8.Proofs.Memory
import Chip8.Proofs.Picture
import Chip8.Proofs.Execute
import Chip8.Proofs.Decode
import Chip8.Proofs.Run
import Chip8.Proofs.Session
import Chip8.Proofs.Termination
import Chip8.Proofs.Halted
import Chip8.Proofs.Brackets
import Chip8.Proofs.SelfModification
import Chip8.Proofs.Faults
import Chip8.Proofs.Bounds
import Chip8.Proofs.Course
import Chip8.Proofs.StackLimit
import Chip8.Proofs.RunOutcome
import Chip8.Proofs.Slices
import Chip8.Proofs.Noninterference
import Chip8.Proofs.Blocks
import Chip8.Proofs.Assembly
import Chip8.Proofs.Strokes
import Chip8.Proofs.Drawing
import Chip8.Proofs.LitPixels
import Chip8.Proofs.Effect
import Chip8.Proofs.Leftover
import Chip8.Proofs.ExitStatus
import Chip8.Proofs.Log
import Chip8.Proofs.StraightLine
import Chip8.Proofs.Numerals
import Chip8.Proofs.Mnemonics
import Chip8.Proofs.Edits
import Chip8.Proofs.Pacing
import Chip8.Proofs.Routine
import Chip8.Proofs.Frame
import Chip8.Proofs.Rendering
import Chip8.Proofs.Cells
import Chip8.Proofs.Storage
import Chip8.Proofs.Flags
import Chip8.Proofs.Verbosity
import Chip8.Proofs.CallStack
import Chip8.Proofs.Diagnostics
import Chip8.Proofs.Budget
